import Spkdfs.Node.Namenode
import Spkdfs.Lib.Hierarchy

/-!
# The namespace as a tree

`kindAt` forgets everything of a store but the kind of each path, and
`kindAt_applyEntry` says that an admitted request changes the kind of its own
path only.  The rest is `Spkdfs.Lib.Hierarchy`.

The five handlers do not check enough to keep the namespace a tree.  `mkdir`
checks that the parent exists, not that it is a directory; `put` checks no
parent; `rm` does not look at children.  `KeepsTree` is the missing check, and
`namespaceIsTree_of_keepsTree` says that it is the right one: a history that
meets it at every request keeps the tree, and the first request that does not
meet it breaks the tree.
-/

namespace Spkdfs

open RocksDB Hierarchy

/-- Every valid record but that of the root has the root or a valid directory as
its parent. -/
def NamespaceIsTree (db : Store) : Prop :=
  ∀ k i, db.get k = some i → k ≠ .root → i.valid = true →
    k.parentPath = .root ∨
      ∃ p, db.get k.parentPath = some p ∧ p.valid = true ∧ p.isDirectory = true

/-- What a path names. -/
def kindAt (db : Store) (k : FullPath) : Kind :=
  if (recordAt db k).valid then
    if (recordAt db k).isDirectory then .dir else .file
  else .absent

theorem kindAt_ne_absent {db : Store} {k : FullPath} :
    kindAt db k ≠ .absent ↔ (recordAt db k).valid = true := by
  unfold kindAt
  split
  · split <;> simp_all
  · simp_all

theorem kindAt_eq_dir {db : Store} {k : FullPath} :
    kindAt db k = .dir ↔
      (recordAt db k).valid = true ∧ (recordAt db k).isDirectory = true := by
  unfold kindAt
  split
  · split <;> simp_all
  · simp_all

theorem kindAt_eq_file {db : Store} {k : FullPath} :
    kindAt db k = .file ↔
      (recordAt db k).valid = true ∧ (recordAt db k).isDirectory = false := by
  unfold kindAt
  split
  · split <;> simp_all
  · simp_all

/-- The two ways to say that a path is a valid directory. -/
theorem kindAt_eq_dir_iff_get {db : Store} {k : FullPath} (hroot : k ≠ .root) :
    kindAt db k = .dir ↔ ∃ i, db.get k = some i ∧ i.valid = true ∧ i.isDirectory = true := by
  rw [kindAt_eq_dir]
  constructor
  · rintro ⟨hv, hd⟩
    exact ⟨_, get_eq_some_iff.mpr ⟨stored_of_valid hroot hv, rfl⟩, hv, hd⟩
  · rintro ⟨i, hi, hv, hd⟩
    rw [recordAt_of_get hi]
    exact ⟨hv, hd⟩

/-- The path lies in the root or in a valid directory. -/
def InDirectory (db : Store) (path : FullPath) : Prop :=
  path.parentPath = .root ∨
    ∃ p, db.get path.parentPath = some p ∧ p.valid = true ∧ p.isDirectory = true

theorem inDirectory_iff {db : Store} {path : FullPath} :
    InDirectory db path ↔ UnderDir FullPath.parentPath .root (kindAt db) path := by
  by_cases hroot : path.parentPath = .root
  · exact iff_of_true (Or.inl hroot) (Or.inl hroot)
  · rw [InDirectory, UnderDir, kindAt_eq_dir_iff_get hroot]

instance (db : Store) (path : FullPath) : Decidable (InDirectory db path) :=
  decidable_of_iff _ inDirectory_iff.symm

theorem namespaceIsTree_iff {db : Store} :
    NamespaceIsTree db ↔ IsTree FullPath.parentPath .root (kindAt db) := by
  constructor
  · intro h k hk hpresent
    have hv := kindAt_ne_absent.mp hpresent
    have hget := get_eq_some_iff.mpr ⟨stored_of_valid hk hv, rfl⟩
    exact inDirectory_iff.mp (h k _ hget hk hv)
  · intro h k i hi hk hv
    refine inDirectory_iff.mpr (h k hk (kindAt_ne_absent.mpr ?_))
    rw [recordAt_of_get hi]
    exact hv

/-! ## One request -/

/-- The kind of the target after an admitted request. -/
def Op.kindAfter : Op → Kind → Kind
  | .mkdir _, _ => .dir
  | .rm _, _ => .absent
  | .put _ _, _ => .file
  | .putOk _ _ _, old => old
  | .updateLock _, old => old

/-- An admitted request changes the kind of its own path only. -/
theorem kindAt_applyEntry {db db' : Store} {now : UInt64} {op : Op} {e : Entry}
    (hp : prepare db now op = .ok e) (h : applyEntry db e = some db') :
    kindAt db' = Function.update (kindAt db) op.target (op.kindAfter (kindAt db op.target)) := by
  funext k
  have htarget : e.path = op.target := (prepare_spec hp).2
  by_cases hk : k = op.target
  · subst hk
    rw [Function.update_self, kindAt, ← htarget, recordAt_applyEntry_self h]
    cases op with
    | mkdir path =>
      obtain ⟨_, _, _, rfl⟩ := prepare_mkdir_eq_ok.mp hp
      rfl
    | rm path =>
      obtain ⟨_, _, rfl⟩ := prepare_rm_eq_ok.mp hp
      rfl
    | put path storageType =>
      obtain ⟨_, _, _, t, _, rfl⟩ := prepare_put_eq_ok.mp hp
      rfl
    | putOk path filesize sub =>
      obtain ⟨_, _, _, rfl⟩ := prepare_putOk_eq_ok.mp hp
      rfl
    | updateLock path =>
      obtain ⟨_, rfl⟩ := prepare_updateLock_eq_ok.mp hp
      simp [Entry.written, Inode.updateDdlLock, Op.kindAfter, Entry.path, kindAt]
  · rw [Function.update_of_ne hk, kindAt, kindAt, recordAt_applyEntry_other h (htarget ▸ hk)]

/-- The check that keeps the namespace a tree.  It asks something of an admitted
request only. -/
def KeepsTree (db : Store) (r : Request) : Prop :=
  (∃ e, prepare db r.now r.op = .ok e) →
    match r.op with
    | .mkdir _ | .put _ _ => InDirectory db r.op.target
    | .rm _ =>
      r.op.target = .root ∨
        ∀ k i, db.get k = some i → i.valid = true → k.parentPath ≠ r.op.target
    | .putOk _ _ _ | .updateLock _ => True

/-- No valid record lies in a path that is not the root: the records and the
kinds say the same. -/
theorem forall_get_parentPath_ne_iff {db : Store} {t : FullPath} (hroot : t ≠ .root) :
    (∀ k i, db.get k = some i → i.valid = true → k.parentPath ≠ t) ↔
      ∀ k, k ≠ .root → kindAt db k ≠ .absent → k.parentPath ≠ t := by
  constructor
  · intro h k hk hpresent
    have hv := kindAt_ne_absent.mp hpresent
    exact h k _ (get_eq_some_iff.mpr ⟨stored_of_valid hk hv, rfl⟩) hv
  · intro h k i hi hv
    by_cases hk : k = .root
    · rw [hk, FullPath.parentPath_root]
      exact Ne.symm hroot
    · refine h k hk (kindAt_ne_absent.mpr ?_)
      rw [recordAt_of_get hi]
      exact hv

/-- An admitted request keeps the tree exactly when it meets the check. -/
theorem namespaceIsTree_applyEntry {db db' : Store} {r : Request} {e : Entry}
    (htree : NamespaceIsTree db) (hp : prepare db r.now r.op = .ok e)
    (h : applyEntry db e = some db') : NamespaceIsTree db' ↔ KeepsTree db r := by
  have hadmitted : ∃ e, prepare db r.now r.op = .ok e := ⟨e, hp⟩
  rw [namespaceIsTree_iff, kindAt_applyEntry hp h, KeepsTree, imp_iff_right hadmitted]
  have htree' := namespaceIsTree_iff.mp htree
  obtain ⟨op, now⟩ := r
  cases op with
  | mkdir path =>
    obtain ⟨hroot, hne⟩ := target_of_prepare_mkdir hp
    rw [Op.kindAfter, isTree_update_dir htree' hroot hne, inDirectory_iff]
  | rm path =>
    obtain ⟨hpath, _, _⟩ := prepare_rm_eq_ok.mp hp
    have hne : (Op.rm path).target ≠ .root →
        (Op.rm path).target.parentPath ≠ (Op.rm path).target :=
      fun hr => FullPath.parentPath_ne_self hr (FullPath.set_text_ne_empty hpath)
    rw [Op.kindAfter, isTree_update_absent htree' hne]
    by_cases hr : (Op.rm path).target = .root
    · exact iff_of_true (Or.inl hr) (Or.inl hr)
    · rw [forall_get_parentPath_ne_iff hr]
  | put path storageType =>
    obtain ⟨_, hdir, _, _⟩ := prepare_put_eq_ok.mp hp
    have hne : kindAt db (Op.put path storageType).target ≠ .dir := by
      rw [ne_eq, kindAt_eq_dir, ← Bool.and_eq_true, hdir]
      simp
    rw [Op.kindAfter, isTree_update_file htree' hne, ← inDirectory_iff]
    refine or_iff_right_of_imp fun hr => Or.inl ?_
    rw [hr, FullPath.parentPath_root]
  | putOk path filesize sub =>
    rw [Op.kindAfter, Function.update_eq_self]
    exact iff_of_true htree' trivial
  | updateLock path =>
    rw [Op.kindAfter, Function.update_eq_self]
    exact iff_of_true htree' trivial

/-! ## Whole histories -/

theorem namespaceIsTree_empty : NamespaceIsTree KeyedMap.empty := by
  intro k i hi
  simp at hi

/-- A request keeps the tree exactly when it meets the check. -/
theorem namespaceIsTree_serve_iff {db db' : Store} {r : Request} (htree : NamespaceIsTree db)
    (h : serve db r = some db') : NamespaceIsTree db' ↔ KeepsTree db r := by
  rcases serve_cases h with ⟨hrefused, rfl⟩ | ⟨e, hp, he⟩
  · exact iff_of_true htree fun hadmitted => absurd hadmitted hrefused
  · exact namespaceIsTree_applyEntry htree hp he

/-- A history in which every request meets the check keeps the namespace a tree,
and a further request keeps it a tree exactly when it meets the check too. -/
theorem namespaceIsTree_of_keepsTree {db : Store}
    (h : Runs.Reach serve KeepsTree KeyedMap.empty db) :
    NamespaceIsTree db ∧
      ∀ r db', serve db r = some db' → (NamespaceIsTree db' ↔ KeepsTree db r) := by
  have htree : NamespaceIsTree db :=
    h.invariant namespaceIsTree_empty
      fun _ _ _ _ htree hok hstep => (namespaceIsTree_serve_iff htree hstep).mpr hok
  exact ⟨htree, fun r db' hstep => namespaceIsTree_serve_iff htree hstep⟩

/-- A directory, a file in it, and the two phases of its upload. -/
def treeRequests : List Request :=
  [⟨.mkdir "/a", 100⟩, ⟨.put "/a/b" "RE<3,16>", 100⟩, ⟨.putOk "/a/b" 5 ["x"], 101⟩,
    ⟨.updateLock "/a/b", 102⟩]

/-- A `put` into a directory that does not exist. -/
def orphanPut : Request := ⟨.put "/x/y" "RE<3,16>", 103⟩

/-- The history of `treeRequests` keeps the tree, and `orphanPut` after it
breaks the tree. -/
theorem namespaceIsTree_treeRequests :
    ∃ db, Runs.Reach serve KeepsTree KeyedMap.empty db ∧ NamespaceIsTree db ∧
      ∃ db', serve db orphanPut = some db' ∧ ¬ NamespaceIsTree db' := by
  have hrun : ∃ db, Runs.Reach serve
      (fun db r => r.op.opType ≠ .opRm ∧ InDirectory db r.op.target) KeyedMap.empty db ∧
      ((prepare db orphanPut.now orphanPut.op).isOk && (serve db orphanPut).isSome &&
        !decide (InDirectory db orphanPut.op.target)) = true :=
    Runs.exists_reach_of_any_guarded treeRequests (by decide +kernel)
  obtain ⟨db, hreach, htest⟩ := hrun
  replace hreach : Runs.Reach serve KeepsTree KeyedMap.empty db := by
    refine hreach.mono fun db r hok _ => ?_
    obtain ⟨op, now⟩ := r
    cases op with
    | mkdir path => exact hok.2
    | rm path => exact absurd rfl hok.1
    | put path storageType => exact hok.2
    | putOk path filesize sub => trivial
    | updateLock path => trivial
  simp only [Bool.and_eq_true, Bool.not_eq_true', decide_eq_false_iff_not] at htest
  obtain ⟨⟨hok, hsome⟩, horphan⟩ := htest
  obtain ⟨db', hdb'⟩ := Option.isSome_iff_exists.mp hsome
  obtain ⟨htree, hiff⟩ := namespaceIsTree_of_keepsTree hreach
  refine ⟨db, hreach, htree, db', hdb', fun htree' => ?_⟩
  refine horphan ((hiff orphanPut db' hdb').mp htree' ?_)
  cases hp : prepare db orphanPut.now orphanPut.op with
  | error x => simp [hp, Except.isOk, Except.toBool] at hok
  | ok e => exact ⟨e, rfl⟩

/-- Some history breaks the tree. -/
theorem not_namespaceIsTree_of_served : ¬ ∀ db, Served db → NamespaceIsTree db := by
  intro h
  have hrun : ∃ db, Served db ∧
      ((recordAt db (.set "/x/y")).valid && !decide (InDirectory db (.set "/x/y"))) = true :=
    Runs.exists_reachable_of_any [orphanPut] (by decide +kernel)
  obtain ⟨db, hserved, htest⟩ := hrun
  simp only [Bool.and_eq_true, Bool.not_eq_true', decide_eq_false_iff_not] at htest
  have hroot : FullPath.set "/x/y" ≠ .root := by decide
  have hget := get_eq_some_iff.mpr ⟨stored_of_valid hroot htest.1, rfl⟩
  exact htest.2 (h db hserved _ _ hget hroot htest.1)

end Spkdfs
