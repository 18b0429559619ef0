import Spkdfs.Metadata.Tree

/-!
# The names of the requests

Each handler turns the path of its request into a key on its own.  `ls`, `rm`,
`put`, `put_ok` and `update_lock` hand it to `set_fullpath` as it is, and `mkdir`
first puts a `/` in front of a path that has none.

`simplify_path` keeps a relative path relative.  So a path names one object for
all handlers exactly when it is absolute, whatever else it is spelled like.

What is made under an absolute path is found under it.  It can be removed under it
if the parent has a record: `mkdir` checks that, `put` does not, and then `rm` stops
at the assertion of `get_parent_inode`.
-/

namespace Spkdfs

open RocksDB Hierarchy

/-- The key that `ls` reads. -/
def lsTarget (path : String) : FullPath := .set (if path = "" then "/" else path)

/-- All handlers use one key for the request path `s`. -/
def OneKey (s : String) : Prop :=
  ∃ p : FullPath, lsTarget s = p ∧ ∀ op : Op, op.path = s → op.target = p

/-- The request makes a new path. -/
def Op.creates : Op → Bool
  | .mkdir _ | .put _ _ => true
  | .rm _ | .putOk _ _ _ | .updateLock _ => false

/-- `rm` of `s` is admitted, its entry is applied, and `ls` does not find `s` any more. -/
def CanBeRemoved (db : Store) (s : String) : Prop :=
  ∀ now, ∃ e db', prepare db now (.rm s) = .ok e ∧ applyEntry db e = some db' ∧
    ¬ ∃ i, Namenode.ls db' s = .ok i

/-- What a successful `mkdir` or `put` of `s` makes in this store is found by `ls`, and
it can be removed by `rm`, under the name `s`. -/
def CreatedIsFound (db : Store) (s : String) : Prop :=
  ∀ (db' : Store) (r : Request) (e : Entry), r.op.path = s → r.op.creates = true →
    prepare db r.now r.op = .ok e → applyEntry db e = some db' →
    (∃ i, Namenode.ls db' s = .ok i) ∧ CanBeRemoved db' s

/-- No directory has the path, and its lock expires some time: a `put` of it is admitted then. -/
def PutAdmitted (db : Store) (s : String) : Prop :=
  ((recordAt db (.set s)).valid && (recordAt db (.set s)).isDirectory) = false ∧
    (recordAt db (.set s)).ddlLock < 0xFFFFFFFFFFFFFFFF

theorem lsTarget_of_ne {s : String} (hs : s ≠ "") : lsTarget s = .set s := by
  rw [lsTarget, if_neg hs]

theorem namenode_ls_found {db : Store} {s : String} :
    (∃ i, Namenode.ls db s = .ok i) ↔ kindAt db (lsTarget s) ≠ .absent := by
  rw [kindAt_ne_absent]
  constructor
  · rintro ⟨i, hls⟩
    exact (ls_eq_ok.mp hls).1
  · intro hv
    exact ⟨_, ls_eq_ok.mpr ⟨hv, rfl⟩⟩

/-- The handlers other than `mkdir` agree on every path, and `mkdir` agrees with
them on an absolute one. -/
theorem Op.target_of_isAbsolute {s : String} (habs : PathText.isAbsolute s.toList = true) (op : Op)
    (hop : op.path = s) : op.target = .set s := by
  subst hop
  cases op with
  | mkdir path =>
    have hhead : path.toList.head? = some '/' := of_decide_eq_true habs
    rw [Op.target, Namenode.absolutePath, if_pos hhead]
    rfl
  | rm path => rfl
  | put path storageType => rfl
  | putOk path filesize sub => rfl
  | updateLock path => rfl

/-- The key of `mkdir` is absolute. -/
theorem isAbsolute_absolutePath (s : String) :
    PathText.isAbsolute (Namenode.absolutePath s).toList = true := by
  unfold Namenode.absolutePath
  split
  · rename_i hhead
    exact decide_eq_true hhead
  · rw [String.toList_append]
    rfl

theorem oneKey_iff {s : String} (hs : s ≠ "") :
    OneKey s ↔ PathText.isAbsolute s.toList = true := by
  constructor
  · rintro ⟨p, hls, hop⟩
    have hmkdir : FullPath.set (Namenode.absolutePath s) = .set s := by
      rw [← lsTarget_of_ne hs, hls]
      exact hop (.mkdir s) rfl
    rw [← FullPath.isAbsolute_set, ← hmkdir, FullPath.isAbsolute_set]
    exact isAbsolute_absolutePath s
  · intro habs
    exact ⟨.set s, lsTarget_of_ne hs, Op.target_of_isAbsolute habs⟩

theorem putAdmitted_iff {db : Store} {s : String} (hs : s ≠ "") :
    PutAdmitted db s ↔ ∃ now storageType e, prepare db now (.put s storageType) = .ok e := by
  constructor
  · rintro ⟨hdir, hlock⟩
    exact ⟨0xFFFFFFFFFFFFFFFF, "RE<1,1>", _,
      prepare_put_eq_ok.mpr ⟨hs, hdir, hlock, .re 1 1, by decide, rfl⟩⟩
  · rintro ⟨now, storageType, e, hp⟩
    obtain ⟨_, hdir, hlock, _⟩ := prepare_put_eq_ok.mp hp
    refine ⟨hdir, UInt64.lt_of_lt_of_le hlock ?_⟩
    rw [UInt64.le_iff_toNat_le]
    exact Nat.le_of_lt_succ now.toNat_lt

/-- `rm` of a path that exists is applied if the parent of the path is found. -/
theorem canBeRemoved_iff {db : Store} {s : String} (hs : s ≠ "")
    (hfound : kindAt db (.set s) ≠ .absent) : CanBeRemoved db s ↔ ParentFound db (.set s) := by
  have hexists : pathExists db (.set s) = true :=
    pathExists_iff.mpr (Or.inr (kindAt_ne_absent.mp hfound))
  have hp : ∀ now, prepare db now (.rm s) = .ok ⟨.opRm, .new (.set s)⟩ := fun now =>
    prepare_rm_eq_ok.mpr ⟨hs, hexists, rfl⟩
  have hpath : ∀ p : FullPath, (Entry.mk .opRm (.new p)).path = p := fun _ => rfl
  constructor
  · intro h
    obtain ⟨e, db', he, hdb', _⟩ := h 0
    obtain rfl := Except.ok.inj ((hp 0).symm.trans he)
    have hparent := parentFound_of_applyEntry hdb' rfl
    rwa [hpath] at hparent
  · intro hparent now
    have happlied : applyEntry db ⟨.opRm, .new (.set s)⟩ ≠ none := by
      rw [ne_eq, applyEntry_eq_none, hpath]
      exact fun hnone => hnone.2 hparent
    obtain ⟨db', hdb'⟩ := Option.ne_none_iff_exists'.mp happlied
    refine ⟨_, db', hp now, hdb', ?_⟩
    rw [namenode_ls_found, lsTarget_of_ne hs, kindAt_applyEntry (hp now) hdb']
    simp [Op.kindAfter, Op.target]

/-- The path that a request has made is there. -/
theorem kindAt_ne_absent_of_creates {db db' : Store} {r : Request} {e : Entry} {p : FullPath}
    (htarget : r.op.target = p) (hcreates : r.op.creates = true)
    (hp : prepare db r.now r.op = .ok e) (he : applyEntry db e = some db') :
    kindAt db' p ≠ .absent := by
  rw [kindAt_applyEntry hp he, htarget, Function.update_self]
  cases hop : r.op with
  | mkdir path => simp [Op.kindAfter]
  | put path storageType => simp [Op.kindAfter]
  | rm path => simp [hop, Op.creates] at hcreates
  | putOk path filesize sub => simp [hop, Op.creates] at hcreates
  | updateLock path => simp [hop, Op.creates] at hcreates

/-- `mkdir` asks for the parent, so that a path without one can only come from a `put`. -/
theorem parentFound_of_creates {db : Store} {r : Request} {e : Entry} {s : String}
    (hpath : r.op.path = s) (htarget : r.op.target = .set s) (hcreates : r.op.creates = true)
    (hp : prepare db r.now r.op = .ok e) (hput : PutAdmitted db s → ParentFound db (.set s)) :
    ParentFound db (.set s) := by
  cases hop : r.op with
  | mkdir path =>
    rw [hop] at hp htarget
    obtain ⟨_, hparent, _, _⟩ := prepare_mkdir_eq_ok.mp hp
    rw [htarget] at hparent
    exact stored_or_root_of_pathExists hparent
  | put path storageType =>
    rw [hop] at hp hpath
    obtain rfl : path = s := hpath
    have hs : path ≠ "" := (prepare_put_eq_ok.mp hp).1
    exact hput ((putAdmitted_iff hs).mpr ⟨r.now, storageType, e, hp⟩)
  | rm path => simp [hop, Op.creates] at hcreates
  | putOk path filesize sub => simp [hop, Op.creates] at hcreates
  | updateLock path => simp [hop, Op.creates] at hcreates

theorem createdIsFound_iff {db : Store} {s : String} (hs : s ≠ "")
    (habs : PathText.isAbsolute s.toList = true) :
    CreatedIsFound db s ↔ (PutAdmitted db s → ParentFound db (.set s)) := by
  constructor
  · intro h hadmitted
    obtain ⟨now, storageType, e, hp⟩ := (putAdmitted_iff hs).mp hadmitted
    have htarget : e.path = .set s := (prepare_spec hp).2
    have hput : e.type = .opPut := (prepare_spec hp).1
    obtain ⟨db', hdb'⟩ : ∃ db', applyEntry db e = some db' := by
      refine Option.ne_none_iff_exists'.mp fun hnone => ?_
      have hedit := (applyEntry_eq_none.mp hnone).1
      simp [Entry.editsParent, hput] at hedit
    have hkind : kindAt db' (.set s) ≠ .absent :=
      kindAt_ne_absent_of_creates (r := ⟨.put s storageType, now⟩) rfl rfl hp hdb'
    have hfound := (canBeRemoved_iff hs hkind).mp
      (h db' ⟨.put s storageType, now⟩ e rfl rfl hp hdb').2
    -- The entry of a `put` stores the path alone.
    rcases hfound with hstored | hroot
    · rcases (stored_applyEntry hdb' _).mp hstored with hold | ⟨_, hself⟩ | ⟨hedit, _⟩
      · exact Or.inl hold
      · rw [htarget] at hself
        refine Or.inr (hself.trans ?_)
        by_contra hroot
        have hempty : (FullPath.set s).text ≠ "" := fun h => hs (simplifyPath_eq_empty h)
        exact FullPath.parentPath_ne_self hroot hempty hself
      · simp [Entry.editsParent, hput] at hedit
    · exact Or.inr hroot
  · intro hput db' r e hpath hcreates hp he
    have htarget := Op.target_of_isAbsolute habs r.op hpath
    have hkind := kindAt_ne_absent_of_creates htarget hcreates hp he
    have hparent := parentFound_of_creates hpath htarget hcreates hp hput
    refine ⟨?_, (canBeRemoved_iff hs hkind).mpr (parentFound_mono he hparent)⟩
    rwa [namenode_ls_found, lsTarget_of_ne hs]

/-- All handlers use one canonical path for a non-empty request path, and what is
made under it in a store is found and can be removed under it, exactly when the path
starts with `/` and its parent is found if a `put` of it is admitted. -/
theorem oneKey_createdIsFound_iff (db : Store) {s : String} (hs : s ≠ "") :
    OneKey s ∧ CreatedIsFound db s ↔
      PathText.isAbsolute s.toList = true ∧ (PutAdmitted db s → ParentFound db (.set s)) := by
  rw [oneKey_iff hs]
  exact and_congr_right (createdIsFound_iff hs)

/-- The store with the directory `/a`. -/
def dirStore : Store := (acceptOne KeyedMap.empty ⟨.mkdir "/a", 100⟩).getD KeyedMap.empty

/-- A path with repeated and trailing separators, `.` and `..`, in the directory `/a`. -/
theorem oneKey_createdIsFound_dots :
    OneKey "//a/./b//../c/" ∧ CreatedIsFound dirStore "//a/./b//../c/" :=
  (oneKey_createdIsFound_iff dirStore (by decide)).mpr
    ⟨by decide, fun _ => by decide +kernel⟩

/-- A directory that is made as `tests` is found as `/tests` only. -/
theorem not_oneKey_relative :
    "tests" ≠ "" ∧ ¬ OneKey "tests" ∧ ¬ CreatedIsFound KeyedMap.empty "tests" := by
  refine ⟨by decide, ?_, fun h => ?_⟩
  · rw [oneKey_iff (by decide)]
    decide
  · have hrun : ((acceptOne KeyedMap.empty ⟨.mkdir "tests", 100⟩).any fun db =>
        decide (kindAt db (lsTarget "tests") = .absent)) = true := by
      decide +kernel
    obtain ⟨db, hdb, habsent⟩ := (Option.any_eq_true _ _).mp hrun
    obtain ⟨e, hp, he⟩ := acceptOne_eq_some.mp hdb
    have hfound := (h db ⟨.mkdir "tests", 100⟩ e rfl rfl hp he).1
    exact namenode_ls_found.mp hfound (of_decide_eq_true habsent)

end Spkdfs
