import Spkdfs.Metadata.Tree

/-!
# The two existence tests

`path_exists` and `ls` both say whether a path exists, and they read the same
record.  They differ at the root: `path_exists` answers `true` without a read,
and `ls` reads the record that the operations on the children of the root keep
rewriting.

So the two agree as long as the record of the root is a valid directory.  Every
handler keeps it one, except that of `rm`: it asks `path_exists`, which always
admits the root, and then it writes an invalid record there.
-/

namespace Spkdfs

open RocksDB Hierarchy

/-- `path_exists` is true of exactly the paths that `ls` answers. -/
def TestsAgree (db : Store) : Prop :=
  ∀ p, pathExists db p = true ↔ ∃ i, ls db (.new p) = .ok i

/-- `ls` answers the root with a directory. -/
def RootListed (db : Store) : Prop :=
  ∃ i, ls db (.new .root) = .ok i ∧ i.isDirectory = true

/-- The request is an `rm` whose path is normalised to `"/"`. -/
def RemovesRoot (r : Request) : Prop := r.op.isRm = true ∧ r.op.target = .root

instance (r : Request) : Decidable (RemovesRoot r) := inferInstanceAs (Decidable (_ ∧ _))

theorem rootListed_iff {db : Store} : RootListed db ↔ kindAt db .root = .dir := by
  rw [kindAt_eq_dir]
  constructor
  · rintro ⟨i, hls, hdir⟩
    obtain ⟨hv, rfl⟩ := ls_eq_ok.mp hls
    exact ⟨hv, hdir⟩
  · rintro ⟨hv, hdir⟩
    exact ⟨_, ls_eq_ok.mpr ⟨hv, rfl⟩, hdir⟩

/-- The root is the only path at which the two tests can differ. -/
theorem testsAgree_iff {db : Store} : TestsAgree db ↔ kindAt db .root ≠ .absent := by
  rw [kindAt_ne_absent]
  constructor
  · intro h
    obtain ⟨i, hls⟩ := (h .root).mp (pathExists_iff.mpr (Or.inl rfl))
    exact (ls_eq_ok.mp hls).1
  · intro hroot p
    rw [pathExists_iff]
    constructor
    · rintro (rfl | hv)
      · exact ⟨_, ls_eq_ok.mpr ⟨hroot, rfl⟩⟩
      · exact ⟨_, ls_eq_ok.mpr ⟨hv, rfl⟩⟩
    · rintro ⟨i, hls⟩
      exact Or.inr (ls_eq_ok.mp hls).1

theorem testsAgree_of_rootListed {db : Store} (h : RootListed db) : TestsAgree db := by
  rw [testsAgree_iff, rootListed_iff.mp h]
  simp

/-- While the root is a directory, an admitted request leaves it one exactly when
it is no `rm` of the root. -/
theorem kindAt_root_applyEntry {db db' : Store} {r : Request} {e : Entry}
    (hroot : kindAt db .root = .dir) (hp : prepare db r.now r.op = .ok e)
    (h : applyEntry db e = some db') :
    kindAt db' .root = if RemovesRoot r then .absent else .dir := by
  rw [kindAt_applyEntry hp h]
  by_cases htarget : r.op.target = .root
  · rw [htarget, Function.update_self, hroot]
    obtain ⟨op, now⟩ := r
    cases op with
    | mkdir path => exact absurd htarget (target_of_prepare_mkdir hp).1
    | rm path => exact (if_pos ⟨rfl, htarget⟩).symm
    | put path storageType =>
      obtain ⟨_, hdir, _⟩ := prepare_put_eq_ok.mp hp
      obtain ⟨hv, hd⟩ := kindAt_eq_dir.mp hroot
      rw [show (Op.put path storageType).target = .root from htarget, hv, hd] at hdir
      cases hdir
    | putOk path filesize sub => exact (if_neg (by simp [RemovesRoot, Op.isRm])).symm
    | updateLock path => exact (if_neg (by simp [RemovesRoot, Op.isRm])).symm
  · rw [Function.update_of_ne (Ne.symm htarget), hroot, if_neg fun hc => htarget hc.2]

/-- A refused request is no `rm` of the root. -/
theorem not_removesRoot_of_refused {db : Store} {r : Request}
    (h : ¬ ∃ e, prepare db r.now r.op = .ok e) : ¬ RemovesRoot r := by
  rintro ⟨hrm, htarget⟩
  obtain ⟨op, now⟩ := r
  cases op with
  | rm path =>
    refine h ⟨_, prepare_rm_eq_ok.mpr ⟨?_, ?_, rfl⟩⟩
    · rintro rfl
      exact absurd htarget (show FullPath.set "" ≠ .root by decide)
    · exact pathExists_iff.mpr (Or.inl htarget)
  | mkdir path => cases hrm
  | put path storageType => cases hrm
  | putOk path filesize sub => cases hrm
  | updateLock path => cases hrm

theorem kindAt_root_serve {db db' : Store} {r : Request} (hroot : kindAt db .root = .dir)
    (h : serve db r = some db') : kindAt db' .root = if RemovesRoot r then .absent else .dir := by
  rcases serve_cases h with ⟨hrefused, rfl⟩ | ⟨e, hp, he⟩
  · rw [if_neg (not_removesRoot_of_refused hrefused), hroot]
  · exact kindAt_root_applyEntry hroot hp he

/-- In every history without an `rm` of the root the two tests agree, and `ls`
answers the root with a directory.  A further request keeps this exactly when it
is no `rm` of the root. -/
theorem testsAgree_of_not_removesRoot {db : Store}
    (h : Runs.Reach serve (fun _ r => ¬ RemovesRoot r) KeyedMap.empty db) :
    TestsAgree db ∧ RootListed db ∧
      ∀ r db', serve db r = some db' → (TestsAgree db' ∧ RootListed db' ↔ ¬ RemovesRoot r) := by
  have hroot : kindAt db .root = .dir := by
    refine h.invariant (I := fun db => kindAt db .root = .dir) (by decide) ?_
    intro db r db' _ hdb hok hstep
    rw [kindAt_root_serve hdb hstep, if_neg hok]
  have hlisted := rootListed_iff.mpr hroot
  refine ⟨testsAgree_of_rootListed hlisted, hlisted, fun r db' hstep => ?_⟩
  have hroot' := kindAt_root_serve hroot hstep
  constructor
  · rintro ⟨hagree, _⟩ hrm
    rw [if_pos hrm] at hroot'
    exact testsAgree_iff.mp hagree hroot'
  · intro hrm
    rw [if_neg hrm] at hroot'
    have hlisted' := rootListed_iff.mpr hroot'
    exact ⟨testsAgree_of_rootListed hlisted', hlisted'⟩

/-- A directory is made and removed again. -/
def rootRequests : List Request :=
  [⟨.mkdir "/a", 100⟩, ⟨.put "/f" "RE<3,16>", 100⟩, ⟨.putOk "/f" 5 ["x"], 101⟩,
    ⟨.updateLock "/", 102⟩, ⟨.rm "/a/", 103⟩]

/-- An `rm` of the root, in one of its spellings. -/
def rmRoot : Request := ⟨.rm "/a/..", 104⟩

/-- The tests agree after `rootRequests`, and not after a further `rmRoot`. -/
theorem testsAgree_rootRequests :
    ∃ db db', Runs.Reach serve (fun _ r => ¬ RemovesRoot r) KeyedMap.empty db ∧
      TestsAgree db ∧ RootListed db ∧ serve db rmRoot = some db' ∧ ¬ TestsAgree db' := by
  have hrun : ∃ db, Runs.Reach serve (fun _ r => ¬ RemovesRoot r) KeyedMap.empty db ∧
      ((serve db rmRoot).any fun db' => decide (kindAt db' .root = .absent)) = true :=
    Runs.exists_reach_of_any_guarded rootRequests (by decide +kernel)
  obtain ⟨db, hreach, htest⟩ := hrun
  obtain ⟨db', hdb', habsent⟩ := (Option.any_eq_true _ _).mp htest
  obtain ⟨hagree, hlisted, _⟩ := testsAgree_of_not_removesRoot hreach
  refine ⟨db, db', hreach, hagree, hlisted, hdb', fun hagree' => ?_⟩
  exact testsAgree_iff.mp hagree' (of_decide_eq_true habsent)

/-- In some history the tests differ, and `ls` of the root fails. -/
theorem not_testsAgree_of_served : ¬ ∀ db, Served db → TestsAgree db ∧ RootListed db := by
  intro h
  have hrun : ∃ db, Served db ∧ decide (kindAt db .root = .absent) = true :=
    Runs.exists_reachable_of_any [⟨.rm "/", 100⟩] (by decide +kernel)
  obtain ⟨db, hserved, habsent⟩ := hrun
  exact testsAgree_iff.mp (h db hserved).1 (of_decide_eq_true habsent)

end Spkdfs
