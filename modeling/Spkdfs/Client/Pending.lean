import Spkdfs.Client.Alignment

/-!
# The dirty blocks of an fsync that fails

`fsync` removes the name of a dirty block from `write` as soon as the block is uploaded.  When a
later block fails the names before it are gone, and when the `put_ok` fails all of them are.
Nobody looks at the response of the `put_ok`.

`firstFailure` is what can go wrong with the blocks.  `keepsPending_iff` says for which failures
a later `fsync` would still find every dirty block.
-/

namespace Spkdfs

open RocksDB Effects

namespace SDK

variable (x : External)

/-- The first dirty block that cannot be read or uploaded, and how its upload ends. -/
def firstFailure (inode : Inode) : Folder → List ℕ → List Uploads → Option (ℕ × Abrupt)
  | _, [], _ => none
  | _, _ :: _, [] => some (0, .running)
  | folder, i :: res, up :: ups =>
    match folder.readLink i >>= fun block => encodeEntry x inode block up with
    | .error e => some (0, e)
    | .ok _ => (firstFailure inode (folder.removeLink i) res ups).map fun p => (p.1 + 1, p.2)

/-- The `put_ok` has arrived, and the namenode has recorded the entries of all dirty blocks and
the size up to the end of the last one. -/
def Recorded (path : String) (sync : Sync) (st st' : State) : Prop :=
  sync.delivered = true ∧ ∃ inode last block, st.localInodeCache path = some inode ∧
    (st.dirty path).getLast? = some last ∧ (st.folder path).readLink last = .ok block ∧
    (uploaded x st path sync.ups).map Prod.fst = st.dirty path ∧
    request st.db 0 (.putOk path (fsyncSize inode last block.length)
      (setEntries (startList inode last) (uploaded x st path sync.ups))) = .ok st'.db

/-- The call returns only when the list was recorded, and if it throws all dirty blocks are still
there.  A call that is not over says nothing yet. -/
def KeepsPending (path : String) (sync : Sync) (st : State) : Prop :=
  match (fsync x path sync).run st with
  | .ok () st' => Recorded x path sync st st'
  | .error (.thrown _) st' => st'.dirty path = st.dirty path
  | .error .undefined _ => False
  | .error .running _ => True

/-- If all blocks are uploaded, the `put_ok` arrives and is accepted.  If a block fails, it is the
first one. -/
def NoLoss (path : String) (sync : Sync) (st : State) : Prop :=
  ∀ inode last, st.localInodeCache path = some inode → (st.dirty path).getLast? = some last →
    last < 2 ^ 31 →
    match firstFailure x inode (st.folder path) (st.dirty path) sync.ups with
    | none => sync.delivered = true ∧ Accepts st.db path
    | some (n, .thrown _) => n = 0
    | some (_, .undefined) => False
    | some (_, .running) => True

variable {x} {path : String} {inode : Inode} {st : State} {folder : Folder}

/-! ## The names that are left -/

theorem mem_dirty_removeLink {i j : ℕ} :
    j ∈ (folder.removeLink i).dirty ↔ j ∈ folder.dirty ∧ j ≠ i := by
  unfold Folder.dirty Folder.removeLink
  rw [List.mem_insertionSort, List.mem_insertionSort]
  cases folder.write with
  | none => simp
  | some links => simp [and_comm]

theorem mem_dirty_foldl {is : List ℕ} {j : ℕ} :
    j ∈ (is.foldl Folder.removeLink folder).dirty ↔ j ∈ folder.dirty ∧ j ∉ is := by
  induction is generalizing folder with
  | nil => simp
  | cons i is ih =>
    rw [List.foldl_cons, ih, mem_dirty_removeLink, List.mem_cons, not_or, and_assoc]

/-- All names are left only when none was removed. -/
theorem dirty_foldl_take_iff {n : ℕ} (hn : n < folder.dirty.length) :
    ((folder.dirty.take n).foldl Folder.removeLink folder).dirty = folder.dirty ↔ n = 0 := by
  constructor
  · intro hall
    by_contra hne
    have hpos : 0 < (folder.dirty.take n).length := by
      rw [List.length_take]
      omega
    obtain ⟨i, hi⟩ := List.exists_mem_of_length_pos hpos
    have hleft : i ∈ folder.dirty := List.mem_of_mem_take hi
    rw [← hall] at hleft
    exact (mem_dirty_foldl.mp hleft).2 hi
  · rintro rfl
    rfl

/-! ## The loop -/

/-- The loop ends where the first block fails, and the names before it are gone. -/
theorem run_fsyncLoop_of_some (hfolder : st.tmp path = some folder) {res : List ℕ}
    {ups : List Uploads} {n : ℕ} {e : Abrupt}
    (hfail : firstFailure x inode folder res ups = some (n, e)) (sub : List String) (size : ℕ) :
    n < res.length ∧ ∃ st', (fsyncLoop x path inode res ups sub size).run st = .error e st' ∧
      st'.tmp path = some ((res.take n).foldl Folder.removeLink folder) := by
  induction res generalizing ups sub size st folder n with
  | nil => cases hfail
  | cons i res ih =>
    cases ups with
    | nil =>
      cases hfail
      exact ⟨Nat.succ_pos _, st, rfl, hfolder⟩
    | cons up ups =>
      rcases run_fsyncLoop_cons (x := x) hfolder i up res ups sub size with ⟨e', he, hrun⟩ |
        ⟨block, entry, hread, hentry, hrun⟩
      · rw [firstFailure, he] at hfail
        cases hfail
        exact ⟨Nat.succ_pos _, st, hrun, hfolder⟩
      · rw [firstFailure, bind_eq_ok.mpr ⟨block, hread, hentry⟩, Option.map_eq_some_iff] at hfail
        obtain ⟨⟨m, e'⟩, hrest, heq⟩ := hfail
        cases heq
        obtain ⟨hm, st', hrun', htmp⟩ := ih (st.tmp_setFolder path (folder.removeLink i)) hrest
          (sub.set i entry) block.length
        exact ⟨Nat.succ_lt_succ hm, st', hrun.trans hrun', htmp⟩

/-- Without a failure it has uploaded everything, and the size is that of the last block. -/
theorem run_fsyncLoop_of_none (hfolder : st.tmp path = some folder) {res : List ℕ}
    {ups : List Uploads} (hfail : firstFailure x inode folder res ups = none) (sub : List String)
    (size : ℕ) :
    ∃ size' st', (fsyncLoop x path inode res ups sub size).run st =
        .ok (setEntries sub (encodeDirty x inode folder res ups), size') st' ∧
      (encodeDirty x inode folder res ups).map Prod.fst = res ∧
      ∀ last, res.getLast? = some last →
        ∃ block, folder.readLink last = .ok block ∧ size' = block.length := by
  induction res generalizing ups sub size st folder with
  | nil => exact ⟨size, st, rfl, rfl, fun last h => by cases h⟩
  | cons i res ih =>
    cases ups with
    | nil => cases hfail
    | cons up ups =>
      rcases run_fsyncLoop_cons (x := x) hfolder i up res ups sub size with ⟨e', he, hrun⟩ |
        ⟨block, entry, hread, hentry, hrun⟩
      · rw [firstFailure, he] at hfail
        cases hfail
      · have hok : (folder.readLink i >>= fun block => encodeEntry x inode block up) = .ok entry :=
          bind_eq_ok.mpr ⟨block, hread, hentry⟩
        rw [firstFailure, hok, Option.map_eq_none_iff] at hfail
        obtain ⟨size', st', hrun', hall, hlast⟩ :=
          ih (st.tmp_setFolder path (folder.removeLink i)) hfail (sub.set i entry) block.length
        rw [encodeDirty, hok]
        refine ⟨size', st', hrun.trans hrun', by rw [List.map_cons, hall], ?_⟩
        intro last hlast'
        cases res with
        | nil =>
          cases hlast'
          cases hrun'
          exact ⟨block, hread, rfl⟩
        | cons j res =>
          rw [List.getLast?_cons_cons] at hlast'
          obtain ⟨block', hread', hsize⟩ := hlast last hlast'
          exact ⟨block', readLink_of_removeLink hread', hsize⟩

/-! ## The call -/

/-- The part of `fsync` that can lose something. -/
theorem run_fsync_of_inode {last : ℕ} (hlast : (st.dirty path).getLast? = some last)
    (hint : last < 2 ^ 31) (hcache : st.localInodeCache path = some inode) (sync : Sync) :
    (fsync x path sync).run st =
      (fsyncLoop x path inode (st.dirty path) sync.ups (startList inode last) 0 >>= fun p =>
        sendUnchecked sync.delivered (.putOk path (fsyncSize inode last p.2) p.1)).run st := by
  rw [run_fsync_of_some x hlast sync, if_neg (by omega), syncBlocks,
    run_bind_of_ok (run_getInode_of_some hcache)]

theorem run_sendUnchecked_of_ok {op : Op} {db : Store} (h : request st.db 0 op = .ok db) :
    (sendUnchecked true op).run st = .ok () { st with db := db } := by
  show sendUnchecked true op st = _
  simp only [sendUnchecked, h]

/-- When every block is uploaded, the `put_ok` decides. -/
theorem keepsPending_of_none {last : ℕ} (hlast : (st.dirty path).getLast? = some last)
    (hint : last < 2 ^ 31) (hcache : st.localInodeCache path = some inode) {sync : Sync}
    (hfail : firstFailure x inode (st.folder path) (st.dirty path) sync.ups = none) :
    KeepsPending x path sync st ↔ sync.delivered = true ∧ Accepts st.db path := by
  have hup : uploaded x st path sync.ups =
      encodeDirty x inode (st.folder path) (st.dirty path) sync.ups := by
    simp only [uploaded, hlast, hcache, if_neg (show ¬ 2 ^ 31 ≤ last by omega)]
  obtain ⟨size, st₁, hloop, hall, hsize⟩ :=
    run_fsyncLoop_of_none (tmp_of_getLast?_dirty hlast) hfail (startList inode last) 0
  obtain ⟨block, hread, rfl⟩ := hsize last hlast
  have hsame : st₁.db = st.db := by
    have hwithin := within_fsyncLoop (x := x) path inode (st.dirty path) sync.ups
      (startList inode last) 0 st
    rw [after_of_ok hloop] at hwithin
    exact hwithin.1
  have hrun := run_fsync_of_inode hlast hint hcache sync (x := x)
  rw [run_bind_of_ok hloop, ← hup] at hrun
  unfold KeepsPending
  rw [hrun]
  constructor
  · obtain ⟨db, hsend, _⟩ := run_sendUnchecked sync.delivered path
      (fsyncSize inode last block.length)
      (setEntries (startList inode last) (uploaded x st path sync.ups)) st₁
    rw [hsend]
    rintro ⟨hdelivered, _, _, _, _, _, _, _, hreq⟩
    exact ⟨hdelivered, (request_putOk_eq_ok hreq).1⟩
  · rintro ⟨hdelivered, haccepts⟩
    obtain ⟨db, hreq⟩ := exists_request_putOk haccepts (fsyncSize inode last block.length)
      (setEntries (startList inode last) (uploaded x st path sync.ups))
    have hsend : (sendUnchecked sync.delivered (.putOk path (fsyncSize inode last block.length)
        (setEntries (startList inode last) (uploaded x st path sync.ups)))).run st₁ =
          .ok () { st₁ with db := db } := by
      rw [hdelivered]
      exact run_sendUnchecked_of_ok (hsame ▸ hreq)
    rw [hsend]
    exact ⟨hdelivered, inode, last, block, hcache, hlast, hread, hup ▸ hall, hreq⟩

/-- When a block fails, the names of the blocks before it are gone. -/
theorem keepsPending_of_some {last : ℕ} (hlast : (st.dirty path).getLast? = some last)
    (hint : last < 2 ^ 31) (hcache : st.localInodeCache path = some inode) {sync : Sync} {n : ℕ}
    {e : Abrupt}
    (hfail : firstFailure x inode (st.folder path) (st.dirty path) sync.ups = some (n, e)) :
    KeepsPending x path sync st ↔
      match e with
      | .thrown _ => n = 0
      | .undefined => False
      | .running => True := by
  obtain ⟨hn, st', hloop, htmp⟩ :=
    run_fsyncLoop_of_some (tmp_of_getLast?_dirty hlast) hfail (startList inode last) 0
  have hrun := run_fsync_of_inode hlast hint hcache sync (x := x)
  rw [run_bind_of_error hloop] at hrun
  unfold KeepsPending
  rw [hrun]
  cases e with
  | undefined => exact Iff.rfl
  | running => exact Iff.rfl
  | thrown ex =>
    show st'.dirty path = st.dirty path ↔ n = 0
    rw [State.dirty_of_tmp htmp]
    exact dirty_foldl_take_iff hn

/-- An `fsync` loses no dirty block exactly when all blocks are uploaded and the `put_ok` arrives
and is accepted, or when already the first block fails. -/
theorem keepsPending_iff {sync : Sync} (hdirty : st.dirty path ≠ []) :
    KeepsPending x path sync st ↔ NoLoss x path sync st := by
  obtain ⟨last, hlast⟩ := Option.isSome_iff_exists.mp (List.getLast?_isSome.mpr hdirty)
  have hrun := run_fsync_of_some x hlast sync
  by_cases hint : last < 2 ^ 31
  · cases hcache : st.localInodeCache path with
    | none =>
      rw [if_neg (by omega), syncBlocks, run_bind_of_error (run_getInode_of_none hcache)] at hrun
      refine iff_of_true ?_ fun inode _ hsome => by rw [hcache] at hsome; cases hsome
      unfold KeepsPending
      rw [hrun]
    | some inode =>
      have hnoLoss : NoLoss x path sync st ↔
          match firstFailure x inode (st.folder path) (st.dirty path) sync.ups with
          | none => sync.delivered = true ∧ Accepts st.db path
          | some (n, .thrown _) => n = 0
          | some (_, .undefined) => False
          | some (_, .running) => True := by
        constructor
        · exact fun h => h inode last hcache hlast hint
        · intro h inode' last' hcache' hlast' _
          cases hcache.symm.trans hcache'
          exact h
      rw [hnoLoss]
      cases hfail : firstFailure x inode (st.folder path) (st.dirty path) sync.ups with
      | none => exact keepsPending_of_none hlast hint hcache hfail
      | some p =>
        obtain ⟨n, e⟩ := p
        rw [keepsPending_of_some hlast hint hcache hfail]
        cases e <;> exact Iff.rfl
  · rw [if_pos (by omega)] at hrun
    refine iff_of_true ?_ fun _ last' _ hlast' hint' => ?_
    · unfold KeepsPending
      rw [hrun]
    · cases hlast.symm.trans hlast'
      exact absurd hint' hint

/-- One byte is written, and its block can be uploaded. -/
theorem firstFailure_writtenWriter :
    writtenWriter.st.dirty "/f" = [0] ∧ ∃ inode,
      writtenWriter.st.localInodeCache "/f" = some inode ∧
      firstFailure byteExternal inode (writtenWriter.st.folder "/f")
        (writtenWriter.st.dirty "/f") [byteUploads] = none := by
  have hfail : (writtenWriter.st.localInodeCache "/f").map (fun inode =>
      firstFailure byteExternal inode (writtenWriter.st.folder "/f")
        (writtenWriter.st.dirty "/f") [byteUploads]) = some none := by
    decide +kernel
  exact ⟨by decide +kernel, Option.map_eq_some_iff.mp hfail⟩

theorem keepsPending_writtenWriter :
    writtenWriter.st.dirty "/f" ≠ [] ∧
      KeepsPending byteExternal "/f" ⟨[byteUploads], true⟩ writtenWriter.st := by
  obtain ⟨hdirty, inode, hcache, hfail⟩ := firstFailure_writtenWriter
  have hne : writtenWriter.st.dirty "/f" ≠ [] := by
    rw [hdirty]
    decide
  have haccepts : Accepts writtenWriter.st.db "/f" := by
    refine ⟨by decide, ?_, ?_, ?_⟩ <;> decide +kernel
  refine ⟨hne, (keepsPending_iff hne).mpr ?_⟩
  intro inode' last hcache' _ _
  cases hcache.symm.trans hcache'
  simp only [hfail]
  exact ⟨trivial, haccepts⟩

/-- The block is uploaded and its name removed, and the `put_ok` gets lost. -/
theorem not_keepsPending_lost :
    ¬ ∀ (x : External) (path : String) (sync : Sync) (st : State),
      (st.localInodeCache path).isSome = true → st.dirty path ≠ [] →
      KeepsPending x path sync st := by
  intro h
  obtain ⟨hdirty, inode, hcache, hfail⟩ := firstFailure_writtenWriter
  have hkept := h byteExternal "/f" ⟨[byteUploads], false⟩ writtenWriter.st
    (by rw [hcache]; rfl) (by rw [hdirty]; decide)
  have hlast : (writtenWriter.st.dirty "/f").getLast? = some 0 := by
    rw [hdirty]
    rfl
  have hdelivered := ((keepsPending_of_none hlast (by decide) hcache hfail).mp hkept).1
  cases hdelivered

end SDK

end Spkdfs
