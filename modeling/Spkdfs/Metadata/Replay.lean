import Mathlib.Data.List.Count
import Mathlib.Data.List.Perm.Basic
import Spkdfs.Node.RaftNN
import Spkdfs.Lib.Registers

/-!
# Replaying the log over a store that contains part of it

After a restart braft delivers again the entries behind the last snapshot,
while the database in `origin_dir` has kept the effects that were applied
before.  A suffix `B` of the applied log is therefore applied a second time.

An intermediate state of that replay is wrong: a replayed `OP_MKDIR` empties a
directory that already has children.  So the argument is not that one entry is
idempotent.  It is that each field of each record is a register of
`Spkdfs.Lib.Registers`: an entry assigns it or leaves it alone, and the count
of one name in one listing is assigned, raised to one, or left alone.  What a
register holds in the end depends on the last entry that touches it.

The order of a listing is not such a register, so listings agree up to their
order.  A record that is nobody's parent has no name added or removed, and
there the list itself is a register.
-/

namespace Spkdfs

open RocksDB Registers

/-! ## The registers of a record -/

/-- The fields that only a whole-record write sets. -/
def headOf (i : Inode) : Bool × Bool × Option StorageType :=
  (i.isDirectory, i.valid, i.storageType)

/-- The fields that an `OP_PUTOK` sets too. -/
def tailOf (i : Inode) : UInt64 × UInt64 := (i.filesize, i.ddlLock)

namespace Entry

/-- The update of the head fields of the record of `k`. -/
def headAct (k : FullPath) (e : Entry) : Function.End (Bool × Bool × Option StorageType) :=
  if k = e.path ∧ (e.type = .opMkdir ∨ e.type = .opPut ∨ e.type = .opRm) then
    assign (headOf e.inode)
  else 1

/-- The update of the tail fields of the record of `k`. -/
def tailAct (k : FullPath) (e : Entry) : Function.End (UInt64 × UInt64) :=
  if k = e.path ∧ e.type ≠ .opUnknown then
    if e.type = .opPutok then assign (e.inode.filesize, 0) else assign (tailOf e.inode)
  else 1

/-- The update of the list of the record of `k`, where no entry has the parent
`k`. -/
def subAct (k : FullPath) (e : Entry) : Function.End (List String) :=
  if k = e.path ∧ e.type ≠ .opUnknown then assign e.inode.sub else 1

/-- The update of the count of `name` in the list of the record of `k`. -/
def countAct (k : FullPath) (name : String) (e : Entry) : Function.End ℕ :=
  if k = e.path then
    if e.type = .opUnknown then 1 else assign (e.inode.sub.count name)
  else if k = e.path.parentPath ∧ name = e.inode.filename then
    match e.type with
    | .opMkdir | .opPutok => atLeastOne
    | .opRm => assign 0
    | .opPut | .opUnknown => 1
  else 1

/-- The update of whether a record is stored under `k`. -/
def storedAct (k : FullPath) (e : Entry) : Function.End Bool :=
  if (e.type ≠ .opUnknown ∧ k = e.path) ∨ (e.editsParent = true ∧ k = e.path.parentPath) then
    assign true
  else 1

end Entry

variable {db db' : Store} {e : Entry}

/-- Whole-record writes and `OP_PUTOK` agree on which list they write. -/
theorem Entry.written_sub (h : e.type ≠ .opUnknown) (db : Store) :
    (e.written db).sub = e.inode.sub := by
  cases ht : e.type <;> simp_all [Entry.written]

theorem headOf_applyEntry (h : applyEntry db e = some db') (k : FullPath) :
    headOf (recordAt db' k) = e.headAct k (headOf (recordAt db k)) := by
  rw [recordAt_applyEntry h]
  by_cases hk : k = e.path
  · subst hk
    cases ht : e.type <;>
      simp [Entry.headAct, Entry.written, ht, headOf, Inode.unlock]
  · have hact : e.headAct k = 1 := if_neg (fun hc => hk hc.1)
    rw [if_neg hk, hact]
    split <;> rfl

theorem tailOf_applyEntry (h : applyEntry db e = some db') (k : FullPath) :
    tailOf (recordAt db' k) = e.tailAct k (tailOf (recordAt db k)) := by
  rw [recordAt_applyEntry h]
  by_cases hk : k = e.path
  · subst hk
    cases ht : e.type <;>
      simp [Entry.tailAct, Entry.written, ht, tailOf, Inode.unlock]
  · have hact : e.tailAct k = 1 := if_neg (fun hc => hk hc.1)
    rw [if_neg hk, hact]
    split <;> rfl

theorem sub_applyEntry (h : applyEntry db e = some db') {k : FullPath}
    (hparent : e.path.parentPath ≠ k) :
    (recordAt db' k).sub = e.subAct k (recordAt db k).sub := by
  rw [recordAt_applyEntry h]
  by_cases hk : k = e.path
  · subst hk
    by_cases ht : e.type = .opUnknown
    · simp [Entry.subAct, Entry.written, ht]
    · rw [if_pos rfl, Entry.written_sub ht, Entry.subAct, if_pos ⟨rfl, ht⟩]
      rfl
  · rw [if_neg hk, if_neg (Ne.symm hparent), Entry.subAct, if_neg (fun hc => hk hc.1)]
    rfl

theorem count_addName (name n : String) (sub : List String) :
    (addName n sub).count name =
      if name = n then max (sub.count name) 1 else sub.count name := by
  unfold addName
  by_cases hmem : n ∈ sub
  · rw [if_pos hmem]
    split
    · rename_i hn
      have hpos : 0 < sub.count name := by
        rw [hn]
        exact List.count_pos_iff.mpr hmem
      omega
    · rfl
  · rw [if_neg hmem, List.count_append]
    by_cases hn : name = n
    · have hzero : sub.count name = 0 := by
        rw [hn]
        exact List.count_eq_zero.mpr hmem
      rw [if_pos hn, hn] at *
      simp [hzero]
    · have hne : ¬ n = name := fun h => hn h.symm
      simp [hn, hne]

theorem count_removeName (name n : String) (sub : List String) :
    (removeName n sub).count name = if name = n then 0 else sub.count name := by
  unfold removeName
  split
  · rename_i hn
    rw [List.count_eq_zero]
    intro hmem
    have := (List.mem_filter.mp hmem).2
    simp [hn] at this
  · rename_i hn
    exact List.count_filter (by simpa using hn)

theorem count_applyEntry (h : applyEntry db e = some db') (k : FullPath) (name : String) :
    (recordAt db' k).sub.count name = e.countAct k name ((recordAt db k).sub.count name) := by
  rw [recordAt_applyEntry h]
  by_cases hk : k = e.path
  · subst hk
    by_cases ht : e.type = .opUnknown
    · simp [Entry.countAct, Entry.written, ht]
    · rw [if_pos rfl, Entry.written_sub ht, Entry.countAct, if_pos rfl, if_neg ht]
      rfl
  · rw [if_neg hk, Entry.countAct, if_neg hk]
    by_cases hq : k = e.path.parentPath
    · rw [if_pos hq]
      by_cases hn : name = e.inode.filename
      · rw [if_pos ⟨hq, hn⟩]
        cases ht : e.type <;>
          simp [Entry.editSub, ht, count_addName, count_removeName, hn]
      · rw [if_neg (fun hc => hn hc.2)]
        cases ht : e.type <;> simp [Entry.editSub, ht, count_addName, count_removeName, hn]
    · rw [if_neg hq, if_neg (fun hc => hq hc.1)]
      rfl

theorem decide_stored_applyEntry (h : applyEntry db e = some db') (k : FullPath) :
    decide (Stored db' k) = e.storedAct k (decide (Stored db k)) := by
  unfold Entry.storedAct
  split
  · rename_i hc
    exact decide_eq_true ((stored_applyEntry h k).mpr (Or.inr hc))
  · rename_i hc
    refine decide_eq_decide.mpr ((stored_applyEntry h k).trans ?_)
    exact ⟨fun hs => hs.resolve_right hc, Or.inl⟩

/-! ## The updates are idempotent families -/

theorem Entry.headAct_mem (k : FullPath) (e : Entry) : e.headAct k ∈ overwrites _ :=
  ite_mem_overwrites (assign_mem_overwrites _)

theorem Entry.tailAct_mem (k : FullPath) (e : Entry) : e.tailAct k ∈ overwrites _ := by
  refine ite_mem_overwrites ?_
  split <;> exact assign_mem_overwrites _

theorem Entry.subAct_mem (k : FullPath) (e : Entry) : e.subAct k ∈ overwrites _ :=
  ite_mem_overwrites (assign_mem_overwrites _)

theorem Entry.storedAct_mem (k : FullPath) (e : Entry) : e.storedAct k ∈ overwrites _ :=
  ite_mem_overwrites (assign_mem_overwrites _)

theorem Entry.countAct_mem (k : FullPath) (name : String) (e : Entry) :
    e.countAct k name ∈ tallies := by
  unfold Entry.countAct
  split
  · split
    · exact Submonoid.one_mem _
    · exact assign_mem_tallies _
  · split
    · cases e.type with
      | opMkdir => exact atLeastOne_mem_tallies
      | opPutok => exact atLeastOne_mem_tallies
      | opRm => exact assign_mem_tallies 0
      | opPut => exact Submonoid.one_mem _
      | opUnknown => exact Submonoid.one_mem _
    · exact Submonoid.one_mem _

/-! ## The replay -/

/-- The same records under the same paths, up to the order of the lists of the
records that `parents` names. -/
def SameUpToSubOrder (parents : FullPath → Prop) (db db' : Store) : Prop :=
  ∀ k,
    match db.get k, db'.get k with
    | none, none => True
    | some i, some j =>
      { i with sub := [] } = { j with sub := [] } ∧ i.sub.Perm j.sub ∧
        (¬ parents k → i.sub = j.sub)
    | _, _ => False

/-- Agreement on all registers is agreement up to the order of the lists. -/
theorem sameUpToSubOrder_of_registers {parents : FullPath → Prop}
    (hstored : ∀ k, decide (Stored db' k) = decide (Stored db k))
    (hhead : ∀ k, headOf (recordAt db' k) = headOf (recordAt db k))
    (htail : ∀ k, tailOf (recordAt db' k) = tailOf (recordAt db k))
    (hcount : ∀ k name, (recordAt db' k).sub.count name = (recordAt db k).sub.count name)
    (hsub : ∀ k, ¬ parents k → (recordAt db' k).sub = (recordAt db k).sub) :
    SameUpToSubOrder parents db db' := by
  intro k
  have hiff : Stored db' k ↔ Stored db k := decide_eq_decide.mp (hstored k)
  cases hi : db.get k with
  | none =>
    cases hj : db'.get k with
    | none => trivial
    | some j =>
      have hs : Stored db' k := (get_eq_some_iff.mp hj).1
      exact absurd hi (hiff.mp hs)
  | some i =>
    obtain ⟨hs, hri⟩ := get_eq_some_iff.mp hi
    cases hj : db'.get k with
    | none => exact absurd hj (hiff.mpr hs)
    | some j =>
      obtain ⟨_, hrj⟩ := get_eq_some_iff.mp hj
      have hh := hhead k
      have ht := htail k
      rw [hri, hrj, headOf, headOf, Prod.mk.injEq, Prod.mk.injEq] at hh
      rw [hri, hrj, tailOf, tailOf, Prod.mk.injEq] at ht
      have hpath : i.fullpath = j.fullpath := by rw [db.keyed hi, db'.keyed hj]
      refine ⟨?_, ?_, ?_⟩
      · rw [hpath, hh.1, hh.2.1, hh.2.2, ht.1, ht.2]
      · refine List.perm_iff_count.mpr fun name => ?_
        have := hcount k name
        rw [hri, hrj] at this
        exact this.symm
      · intro hk
        have := hsub k hk
        rw [hri, hrj] at this
        exact this.symm

/-- A store with more records can only go further. -/
theorem applyEntry_simulation {s t s' : Store} (hR : ∀ k, Stored s k → Stored t k)
    (h : applyEntry s e = some s') :
    ∃ t', applyEntry t e = some t' ∧ ∀ k, Stored s' k → Stored t' k := by
  have hsome : applyEntry t e ≠ none := by
    intro hnone
    obtain ⟨he, hp⟩ := applyEntry_eq_none.mp hnone
    exact hp ((parentFound_of_applyEntry h he).imp_left (hR _))
  obtain ⟨t', ht'⟩ := Option.ne_none_iff_exists'.mp hsome
  refine ⟨t', ht', fun k hk => ?_⟩
  rw [stored_applyEntry h] at hk
  exact (stored_applyEntry ht' k).mpr (hk.imp_left (hR k))

/-- A log `A ++ B ++ C` that can be applied once can also be applied with `B`
repeated, and it leaves the same store up to the order of the listings. -/
theorem replay_harmless {A B C : List Entry} {db : Store}
    (h : onApply KeyedMap.empty (A ++ B ++ C) = some db) :
    ∃ mid db', onApply KeyedMap.empty (A ++ B) = some mid ∧ onApply mid (B ++ C) = some db' ∧
      SameUpToSubOrder (fun k => ∃ e ∈ A ++ B ++ C, e.path.parentPath = k) db db' := by
  obtain ⟨mid, hmid, _⟩ := Runs.run_append_eq_some h
  obtain ⟨a, ha, hB⟩ := Runs.run_append_eq_some hmid
  have hBC : Runs.run applyEntry a (B ++ C) = some db := by
    have h' := h
    rw [List.append_assoc] at h'
    obtain ⟨a', ha', hrest⟩ := Runs.run_append_eq_some h'
    rw [ha] at ha'
    rwa [Option.some.inj ha']
  -- The replay starts from more records than the first pass had at that point.
  have hR : ∀ k, Stored a k → Stored mid k := by
    intro k hk
    exact Runs.run_preserves (fun _ _ _ _ hs he => stored_mono he hs) hk hB
  obtain ⟨db', hdb', _⟩ := Runs.run_simulation
    (fun _ _ e _ hR h => applyEntry_simulation (e := e) hR h) hR hBC
  refine ⟨mid, db', hmid, hdb', ?_⟩
  refine sameUpToSubOrder_of_registers (fun k => ?_) (fun k => ?_) (fun k => ?_)
    (fun k name => ?_) (fun k hk => ?_)
  · exact obs_run_replay overwrites_idempotent (fun s => decide (Stored s k)) (Entry.storedAct k)
      (fun e _ => e.storedAct_mem k) (fun _ _ _ _ hs => decide_stored_applyEntry hs k) h hmid hdb'
  · exact obs_run_replay overwrites_idempotent (fun s => headOf (recordAt s k)) (Entry.headAct k)
      (fun e _ => e.headAct_mem k) (fun _ _ _ _ hs => headOf_applyEntry hs k) h hmid hdb'
  · exact obs_run_replay overwrites_idempotent (fun s => tailOf (recordAt s k)) (Entry.tailAct k)
      (fun e _ => e.tailAct_mem k) (fun _ _ _ _ hs => tailOf_applyEntry hs k) h hmid hdb'
  · exact obs_run_replay tallies_idempotent (fun s => (recordAt s k).sub.count name)
      (Entry.countAct k name) (fun e _ => e.countAct_mem k name)
      (fun _ _ _ _ hs => count_applyEntry hs k name) h hmid hdb'
  · exact obs_run_replay overwrites_idempotent (fun s => (recordAt s k).sub) (Entry.subAct k)
      (fun e _ => e.subAct_mem k)
      (fun e he _ _ hs => sub_applyEntry hs (fun hp => hk ⟨e, he, hp⟩)) h hmid hdb'

/-- The log of three `mkdir` requests and one `rm`, cut into three parts. -/
def exampleLog : List Entry × List Entry × List Entry :=
  ([⟨.opMkdir, .getDefaultDir (.set "/c")⟩],
    [⟨.opMkdir, .getDefaultDir (.set "/a")⟩, ⟨.opMkdir, .getDefaultDir (.set "/a/b")⟩],
    [⟨.opRm, .new (.set "/c")⟩])

/-- A directory and its child, written twice: the replayed `OP_MKDIR` of `/a`
empties the directory, and the replayed child fills it again. -/
theorem replay_harmless_exampleLog :
    ∃ db, onApply KeyedMap.empty (exampleLog.1 ++ exampleLog.2.1 ++ exampleLog.2.2) = some db ∧
      ∃ mid db', onApply KeyedMap.empty (exampleLog.1 ++ exampleLog.2.1) = some mid ∧
        onApply mid (exampleLog.2.1 ++ exampleLog.2.2) = some db' ∧
        SameUpToSubOrder (fun k => ∃ e ∈ exampleLog.1 ++ exampleLog.2.1 ++ exampleLog.2.2,
          e.path.parentPath = k) db db' := by
  have hsome : (onApply KeyedMap.empty
      (exampleLog.1 ++ exampleLog.2.1 ++ exampleLog.2.2)).isSome = true := by
    decide +kernel
  obtain ⟨db, hdb⟩ := Option.isSome_iff_exists.mp hsome
  exact ⟨db, hdb, replay_harmless hdb⟩

end Spkdfs
