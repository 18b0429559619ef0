import Spkdfs.Node.System

/-!
# The assertion of `get_parent_inode`

`get_parent_inode` runs when an entry is applied, on every replica, and it
asserts that a parent which is not stored is the root.  The handlers make
their checks earlier, and only `mkdir` looks at the parent.

No record is ever deleted, so a parent that was found once is found later
(`parentFound_mono`).  What remains is to find it once: `mkdir` has checked it,
and `rm`, `put_ok` and `update_lock` work on a path that is stored already.
This leaves `put`, which is the only request that stores a path without its
parent.
-/

namespace Spkdfs

open RocksDB

/-- Every stored path has a parent that `get_parent_inode` finds. -/
def ParentsStored (db : Store) : Prop := ∀ k, Stored db k → ParentFound db k

/-- The task is no `put`, or its entry has a parent that `get_parent_inode`
finds. -/
def Task.ParentFoundUnlessPut (db : Store) (t : Task) : Prop :=
  t.request.op.isPut = false → ParentFound db t.entry.path

/-- The check that `put` does not make: where its entry is applied, the parent
of the path is stored or is the root. -/
def PutHasParent (db : Store) (t : Task) (_ : List Task) : Prop :=
  t.request.op.isPut = true → ParentFound db t.entry.path

instance (db : Store) (t : Task) (others : List Task) : Decidable (PutHasParent db t others) :=
  inferInstanceAs (Decidable (_ → _))

theorem parentFound_of_pathExists {db : Store} (hdb : ParentsStored db) {k : FullPath}
    (h : pathExists db k = true) : ParentFound db k := by
  rcases stored_or_root_of_pathExists h with hs | rfl
  · exact hdb k hs
  · exact Or.inr FullPath.parentPath_root

theorem parentFound_of_valid {db : Store} (hdb : ParentsStored db) {k : FullPath}
    (hv : (recordAt db k).valid = true) : ParentFound db k :=
  parentFound_of_pathExists hdb (pathExists_iff.mpr (Or.inr hv))

/-- A handler other than that of `put` proposes only with a parent in the
store. -/
theorem parentFoundUnlessPut_of_checkedIn {db : Store} (hdb : ParentsStored db) {t : Task}
    (ht : t.CheckedIn db) : t.ParentFoundUnlessPut db := by
  intro hput
  rw [t.entry_path]
  unfold Task.CheckedIn at ht
  cases hop : t.request.op with
  | put path storageType =>
    rw [hop] at hput
    cases hput
  | mkdir path =>
    rw [hop] at ht
    exact stored_or_root_of_pathExists (prepare_mkdir_eq_ok.mp ht).2.1
  | rm path =>
    rw [hop] at ht
    exact parentFound_of_pathExists hdb (prepare_rm_eq_ok.mp ht).2.1
  | putOk path filesize sub =>
    rw [hop] at ht
    exact parentFound_of_valid hdb (prepare_putOk_eq_ok.mp ht).2.1
  | updateLock path =>
    rw [hop] at ht
    exact parentFound_of_valid hdb (prepare_updateLock_eq_ok.mp ht).1

/-- An entry whose parent is found stores no path without its parent. -/
theorem parentsStored_applyEntry {db db' : Store} (hdb : ParentsStored db) {e : Entry}
    (hfound : ParentFound db e.path) (h : applyEntry db e = some db') : ParentsStored db' := by
  intro k hk
  rcases (stored_applyEntry h k).mp hk with hs | ⟨_, rfl⟩ | ⟨_, rfl⟩
  · exact parentFound_mono h (hdb k hs)
  · exact parentFound_mono h hfound
  · -- The parent is stored already, or it is the root, which is its own parent.
    rcases hfound with hs | hroot
    · exact parentFound_mono h (hdb _ hs)
    · rw [hroot]
      exact Or.inr FullPath.parentPath_root

theorem parentsStored_of_reach {s : Sys}
    (h : Runs.Reach Sys.step (Sys.OnApply PutHasParent) (.init KeyedMap.empty) s) :
    ParentsStored s.db ∧ ∀ t ∈ s.inFlight, t.ParentFoundUnlessPut s.db := by
  refine Sys.inFlight_invariant (fun k hk => absurd (KeyedMap.get_empty k) hk) ?_ ?_ h
  · intro db t hdb ht
    exact parentFoundUnlessPut_of_checkedIn hdb ht
  · intro db t others db' hok h hdb ht
    have hfound : ParentFound db t.entry.path := by
      cases hput : t.request.op.isPut with
      | true => exact hok hput
      | false => exact ht hput
    exact ⟨parentsStored_applyEntry hdb hfound h, fun q _ hq hput => parentFound_mono h (hq hput)⟩

/-- In every run in which each applied `put` has its parent in the store, an
`OP_MKDIR`, `OP_RM` or `OP_PUTOK` entry finds its parent when it is applied: the
record that `get_parent_inode` answers is that of the parent path, and the
entry does not stop the process. -/
theorem getParentInode_of_putHasParent {s : Sys}
    (h : Runs.Reach Sys.step (Sys.OnApply PutHasParent) (.init KeyedMap.empty) s) {t : Task}
    {rest : List Task} (hlog : s.log = t :: rest)
    (hty : t.entry.type = .opMkdir ∨ t.entry.type = .opRm ∨ t.entry.type = .opPutok) :
    ParentFound s.db t.entry.path ∧
      (∃ parent, getParentInode s.db t.entry.inode = some parent ∧
        parent.fullpath = t.entry.inode.parentPath) ∧
      s.step .apply ≠ none := by
  have hfound : ParentFound s.db t.entry.path := by
    refine (parentsStored_of_reach h).2 t (Sys.head_mem_inFlight hlog) ?_
    rw [t.entry_type] at hty
    cases hop : t.request.op <;> simp_all [Op.opType, Op.isPut]
  refine ⟨hfound, ⟨recordAt s.db t.entry.inode.parentPath, ?_, recordAt_fullpath _ _⟩, ?_⟩
  · rw [getParentInode_eq]
    exact if_pos hfound
  · simp only [Sys.step, hlog]
    split
    · rename_i hnone
      exact absurd hfound (applyEntry_eq_none.mp hnone).2
    · simp

/-- A directory and a file in it, up to the point where the entry of `put_ok` is
the next to be applied. -/
def foundEvents : List Event :=
  [.prepare 0 ⟨.mkdir "/a", 100⟩, .propose 0, .apply,
    .prepare 1 ⟨.put "/a/b" "RE<3,16>", 100⟩, .propose 0, .apply,
    .prepare 1 ⟨.putOk "/a/b" 5 ["x"], 101⟩, .propose 0]

/-- The same file without the directory. -/
def orphanEvents : List Event :=
  [.prepare 1 ⟨.put "/a/b" "RE<3,16>", 100⟩, .propose 0, .apply,
    .prepare 1 ⟨.putOk "/a/b" 5 ["x"], 101⟩, .propose 0]

/-- The entry of `put_ok` at the end of `foundEvents` finds its parent. -/
theorem getParentInode_foundEvents :
    ∃ s t rest, Runs.Reach Sys.step (Sys.OnApply PutHasParent) (.init KeyedMap.empty) s ∧
      s.log = t :: rest ∧ t.entry.type = .opPutok ∧ ParentFound s.db t.entry.path ∧
      s.step .apply ≠ none := by
  have hrun : ∃ s, Runs.Reach Sys.step (Sys.OnApply PutHasParent) (.init KeyedMap.empty) s ∧
      (s.log.head?.any fun t => t.entry.type = .opPutok) = true :=
    Runs.exists_reach_of_any_guarded foundEvents (by decide +kernel)
  obtain ⟨s, hreach, htest⟩ := hrun
  obtain ⟨t, rest, hlog, hty⟩ := Sys.exists_head_of_any htest
  have hty' : t.entry.type = .opPutok := of_decide_eq_true hty
  have hres := getParentInode_of_putHasParent hreach hlog (Or.inr (Or.inr hty'))
  exact ⟨s, t, rest, hreach, hlog, hty', hres.1, hres.2.2⟩

/-- In some run a committed `OP_PUTOK` stops the process. -/
theorem not_parentFound_orphanEvents :
    ¬ ∀ s, Runs.Reachable Sys.step (.init KeyedMap.empty) s → ∀ t rest, s.log = t :: rest →
      t.entry.type = .opMkdir ∨ t.entry.type = .opRm ∨ t.entry.type = .opPutok →
      ParentFound s.db t.entry.path ∧ s.step .apply ≠ none := by
  intro h
  have hrun : ∃ s, Runs.Reachable Sys.step (.init KeyedMap.empty) s ∧
      (s.log.head?.any fun t =>
        t.entry.type = .opPutok ∧ ¬ ParentFound s.db t.entry.path) = true :=
    Runs.exists_reachable_of_any orphanEvents (by decide +kernel)
  obtain ⟨s, hreach, htest⟩ := hrun
  obtain ⟨t, rest, hlog, ht⟩ := Sys.exists_head_of_any htest
  obtain ⟨hty, hmissing⟩ := of_decide_eq_true ht
  exact hmissing (h s hreach t rest hlog (Or.inr (Or.inr hty))).1

end Spkdfs
