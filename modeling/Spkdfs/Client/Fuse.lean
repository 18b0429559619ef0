import Spkdfs.Client.Exact

/-!
# Reading through FUSE

`FUSE::read` and `spkdfs_read` of `client/fuse.cpp`.  `FUSE::read` asks the SDK, and when that
fails it asks a new SDK once more.  `spkdfs_read` copies the answer to the buffer of the kernel.

`read_data` cuts the request to the size of the file, and `spkdfs_read` copies and reports as
many bytes as were asked for.  `reports_iff` says when this is the same.

The offset is the `uint64_t` that `FUSE::read` gets.
-/

namespace Spkdfs

open Effects

namespace FUSE

open SDK

/-- `FUSE::reinit`, with what `init` does: the new SDK has no file open. -/
def reinit (init : Except Exception Unit) : Call Unit := fun st =>
  match init with
  | .error e => .error (.thrown e) { st with localInodeCache := fun _ => none }
  | .ok () => .ok () { st with localInodeCache := fun _ => none }

/-- `memcpy(buff, s.data(), size)`: the bytes that are copied.  Behind the string is one zero
byte, and what comes behind that is not its memory. -/
def memcpy (s : Bytes) (size : ℕ) : Except Abrupt Bytes :=
  if size ≤ s.length + 1 then .ok ((s ++ [0]).take size) else .error .undefined

variable (x : External) (init : Except Exception Unit) (net : Net)

/-- `FUSE::read`.  A `MessageException` is thrown again. -/
def read (dst : String) (offset size : UInt64) : Call Bytes := fun st =>
  match readData x net dst offset size st with
  | .error (.thrown (.runtime _)) st' => (do
      reinit init
      readData x net dst offset size).run st'
  | res => res

/-- `spkdfs_read`: the bytes that are copied, and the value that is returned. -/
def spkdfsRead (path : String) (size offset : UInt64) : Call (Bytes × Int) := fun st =>
  match read x init net path offset size st with
  | .ok s st' => (do
      let copied ← lift (memcpy s size.toNat)
      return (copied, toInt32 size.toNat)).run st'
  | .error (.thrown _) st' => .ok ([], -2) st'
  | .error e st' => .error e st'

/-- The string is copied, and nothing else, and its length is returned. -/
def Reports (inode : Inode) (offset size : UInt64) (s : Bytes)
    (res : EStateM.Result Abrupt State (Bytes × Int)) : Prop :=
  s.length = min size.toNat (inode.filesize.toNat - offset.toNat) ∧
    ∃ st', res = .ok (s, s.length) st'

variable {x init net} {path : String} {offset size : UInt64} {st st' : State} {s : Bytes}
  {inode : Inode}

/-- The second SDK knows no inode, so that an answer is one of the first. -/
theorem run_read_eq_ok : (read x init net path offset size).run st = .ok s st' ↔
    (readData x net path offset size).run st = .ok s st' := by
  have hretry : ∀ st₁, (do
      reinit init
      readData x net path offset size).run st₁ ≠ .ok s st' := by
    intro st₁ h
    obtain ⟨_, st₂, hinit, hread⟩ := run_bind_eq_ok.mp h
    have hcache : st₂.localInodeCache path = none := by
      cases init with
      | error e => cases hinit
      | ok u =>
        cases hinit
        rfl
    rw [readData, run_bind_of_error (run_getInode_of_none hcache)] at hread
    cases hread
  show (match (readData x net path offset size).run st with
    | .error (.thrown (.runtime _)) st₁ => (do
        reinit init
        readData x net path offset size).run st₁
    | res => res) = .ok s st' ↔ _
  split
  · rename_i what st₁ hthrown
    exact iff_of_false (hretry st₁) (by rw [hthrown]; exact fun h => by cases h)
  · exact Iff.rfl

theorem length_of_slice {bytes : Bytes} {start : Int} {n : ℕ} (h : slice bytes start n = .ok s) :
    s.length = n := by
  rw [slice] at h
  split at h
  · rename_i hbounds
    rw [← Except.ok.inj h, List.length_take, List.length_drop]
    omega
  · cases h

/-- What `read_data` answers has the length that it has cut the request to. -/
theorem length_of_readData (hinode : st.localInodeCache path = some inode)
    (h : (readData x net path offset size).run st = .ok s st') :
    s.length = if inode.filesize < offset then 0
      else if inode.filesize < offset + size then (inode.filesize - offset).toNat
      else size.toNat := by
  rw [readData, run_bind_of_ok (run_getInode_of_some hinode)] at h
  split at h
  · rename_i hpast
    cases h
    rw [if_pos hpast]
    rfl
  · rename_i hwithin
    rw [if_neg hwithin]
    simp only [run_bind_eq_ok, run_lift_eq_ok] at h
    obtain ⟨indexs, _, _, bytes, _, _, hslice, _⟩ := h
    rw [length_of_slice hslice]
    split <;> rfl

theorem run_spkdfsRead (h : (read x init net path offset size).run st = .ok s st') :
    (spkdfsRead x init net path size offset).run st = (do
      let copied ← lift (memcpy s size.toNat)
      return (copied, toInt32 size.toNat)).run st' := by
  show (match (read x init net path offset size).run st with
    | .ok s st' => (do
        let copied ← lift (memcpy s size.toNat)
        return (copied, toInt32 size.toNat)).run st'
    | .error (.thrown _) st' => .ok ([], -2) st'
    | .error e st' => .error e st') = _
  rw [h]

theorem memcpy_eq_ok {n : ℕ} : memcpy s n = .ok s ↔ s.length = n := by
  rw [memcpy]
  split
  · rename_i hle
    rw [Except.ok.injEq]
    constructor
    · intro h
      have hlength := congrArg List.length h
      rw [List.length_take, List.length_append, List.length_singleton] at hlength
      omega
    · rintro rfl
      exact List.take_left' rfl
  · rename_i hlong
    exact iff_of_false (fun h => by cases h) (by omega)

theorem toInt32_eq_iff {n : ℕ} : toInt32 n = n ↔ n < 2 ^ 31 := by
  refine ⟨fun h => ?_, toInt32_of_lt⟩
  by_contra hle
  have hwrap := toInt32_add_le (n := n) (by omega)
  omega

/-- The callback is right when the string has as many bytes as were asked for. -/
theorem reports_of_read (h : (read x init net path offset size).run st = .ok s st') :
    Reports inode offset size s ((spkdfsRead x init net path size offset).run st) ↔
      s.length = min size.toNat (inode.filesize.toNat - offset.toNat) ∧
        s.length = size.toNat ∧ size.toNat < 2 ^ 31 := by
  rw [Reports, run_spkdfsRead h]
  refine and_congr_right fun _ => ?_
  simp only [run_bind_eq_ok, run_lift_eq_ok]
  constructor
  · rintro ⟨_, copied, _, ⟨hcopied, rfl⟩, hres⟩
    rw [EStateM.run_pure] at hres
    simp only [EStateM.Result.ok.injEq, Prod.mk.injEq] at hres
    obtain ⟨⟨rfl, hreturned⟩, _⟩ := hres
    have hlength := memcpy_eq_ok.mp hcopied
    rw [hlength] at hreturned
    exact ⟨hlength, toInt32_eq_iff.mp hreturned⟩
  · rintro ⟨hlength, hlt⟩
    exact ⟨st', s, st', ⟨memcpy_eq_ok.mpr hlength, rfl⟩, by rw [toInt32_of_lt hlt, hlength]; rfl⟩

/-- The callback reports what was read exactly when nothing is asked for, or when all of it is
inside of the file and its length is an `int`. -/
theorem reports_iff (hinode : st.localInodeCache path = some inode)
    (hread : (read x init net path offset size).run st = .ok s st') :
    Reports inode offset size s ((spkdfsRead x init net path size offset).run st) ↔
      size = 0 ∨ size.toNat < 2 ^ 31 ∧
        offset.toNat + size.toNat ≤ inode.filesize.toNat := by
  have hlength := length_of_readData hinode (run_read_eq_ok.mp hread)
  rw [reports_of_read hread]
  constructor
  · rintro ⟨hmin, hsize, hlt⟩
    by_cases hzero : size = 0
    · exact .inl hzero
    · have hpos : size.toNat ≠ 0 := fun h => hzero (UInt64.toNat_inj.mp h)
      exact .inr ⟨hlt, by omega⟩
  · intro hcond
    have hbound := inode.filesize.toNat_lt
    have hcond' : size.toNat = 0 ∨ size.toNat < 2 ^ 31 ∧
        offset.toNat + size.toNat ≤ inode.filesize.toNat :=
      hcond.imp_left fun h => by rw [h]; rfl
    -- The sum does not wrap around, so that the request is not cut.
    have hall : s.length = size.toNat := by
      simp only [UInt64.lt_iff_toNat_lt, UInt64.toNat_add] at hlength
      split at hlength
      · omega
      · split at hlength
        · omega
        · exact hlength
    exact ⟨by omega, hall, by omega⟩

/-- A file of three bytes whose block is on the disk. -/
def threeBytesInode : Inode :=
  { Inode.new (.set "/f") with filesize := 3, storageType := some (.re 1 1), sub := [smallEntry] }

def threeBytesOpen : State :=
  ⟨KeyedMap.empty, fun _ => some threeBytesInode,
    fun _ => some (Folder.empty.setBlock 0 [1, 2, 3])⟩

/-- What the SDK answers for two bytes, and for a page. -/
theorem run_read_threeBytes :
    (∃ st', (read smallExternal (.ok ()) smallNet "/f" 1 2).run threeBytesOpen =
      .ok [2, 3] st') ∧
    ∃ st', (read smallExternal (.ok ()) smallNet "/f" 1 4096).run threeBytesOpen =
      .ok [2, 3] st' := by
  have htwo : answer (readData smallExternal smallNet "/f" 1 2) threeBytesOpen = .ok [2, 3] := by
    decide +kernel
  have hpage : answer (readData smallExternal smallNet "/f" 1 4096) threeBytesOpen =
      .ok [2, 3] := by
    decide +kernel
  obtain ⟨st₁, h₁⟩ := answer_eq_ok.mp htwo
  obtain ⟨st₂, h₂⟩ := answer_eq_ok.mp hpage
  exact ⟨⟨st₁, run_read_eq_ok.mpr h₁⟩, ⟨st₂, run_read_eq_ok.mpr h₂⟩⟩

theorem reports_twoBytes :
    Reports threeBytesInode 1 2 [2, 3]
      ((spkdfsRead smallExternal (.ok ()) smallNet "/f" 2 1).run threeBytesOpen) := by
  obtain ⟨⟨st', hread⟩, _⟩ := run_read_threeBytes
  exact (reports_iff (congrFun rfl "/f") hread).mpr (.inr ⟨by decide, by decide⟩)

/-- The kernel asks for a page of the file, and the bytes behind its end are copied too. -/
theorem not_reports_page :
    ¬ ∀ (x : External) (init : Except Exception Unit) (net : Net) (path : String)
      (offset size : UInt64) (st st' : State) (s : Bytes) (inode : Inode),
      st.localInodeCache path = some inode →
      (read x init net path offset size).run st = .ok s st' →
      Reports inode offset size s ((spkdfsRead x init net path size offset).run st) := by
  intro h
  obtain ⟨_, st', hread⟩ := run_read_threeBytes
  have hreports := h _ _ _ _ _ _ threeBytesOpen st' _ threeBytesInode (congrFun rfl "/f") hread
  have hlength := ((reports_of_read hread).mp hreports).2.1
  exact absurd hlength (by decide)

end FUSE

end Spkdfs
