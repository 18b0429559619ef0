import Spkdfs.Node.RocksDB
import Spkdfs.Lib.Run

/-!
# The replicated state machine of the namenodes

`RaftNN::on_apply` of `node/raft_nn.cpp` applies the committed entries of the
log one by one.  An entry is an operation type and the inode that the handler
serialised; `applyEntry` is the `switch` over the type, and it answers `none`
when the assertion of `get_parent_inode` stops the process.

Every entry of a known type writes the record of its own path and, unless it is
an `OP_PUT`, the listing of the parent path.  `recordAt_applyEntry`,
`stored_applyEntry` and `applyEntry_eq_none` say this once for the four types;
the later modules use only these three.
-/

namespace Spkdfs

open RocksDB

/-- `enum OpType`. -/
inductive OpType
  | opMkdir
  | opPut
  | opPutok
  | opRm
  | opUnknown
  deriving DecidableEq

/-- An entry of the replicated log. -/
structure Entry where
  type : OpType
  inode : Inode
  deriving DecidableEq

/-- The body of the loop of `RaftNN::on_apply`. -/
def applyEntry (db : Store) (entry : Entry) : Option Store :=
  match entry.type with
  | .opMkdir => internalMkdir db entry.inode
  | .opPut => some (internalPut db entry.inode)
  | .opPutok => internalPutOk db entry.inode
  | .opRm => internalRm db entry.inode
  | .opUnknown => some db

/-- `RaftNN::on_apply` over a list of committed entries. -/
def onApply (db : Store) (entries : List Entry) : Option Store :=
  Runs.run applyEntry db entries

namespace Entry

/-- The path of the entry. -/
def path (e : Entry) : FullPath := e.inode.fullpath

/-- The entry also writes the record of its parent path. -/
def editsParent (e : Entry) : Bool :=
  match e.type with
  | .opMkdir | .opPutok | .opRm => true
  | .opPut | .opUnknown => false

/-- What the entry does to the listing of its parent. -/
def editSub (e : Entry) (sub : List String) : List String :=
  match e.type with
  | .opMkdir | .opPutok => addName e.inode.filename sub
  | .opRm => removeName e.inode.filename sub
  | .opPut | .opUnknown => sub

/-- The record that the entry writes under its own path. -/
def written (e : Entry) (db : Store) : Inode :=
  match e.type with
  | .opPutok =>
    { (recordAt db e.path).unlock with sub := e.inode.sub, filesize := e.inode.filesize }
  | .opUnknown => recordAt db e.path
  | .opMkdir | .opPut | .opRm => e.inode

@[simp] theorem written_fullpath (e : Entry) (db : Store) : (e.written db).fullpath = e.path := by
  unfold written
  split <;> simp [Inode.unlock, path]

end Entry

theorem recordAt_put (db : Store) (i : Inode) (k : FullPath) :
    recordAt (db.put i) k = if k = i.fullpath then i else recordAt db k := by
  by_cases hk : k = i.fullpath
  · rw [if_pos hk, hk]
    exact recordAt_of_get (KeyedMap.get_put_self db i)
  · rw [if_neg hk]
    exact recordAt_congr (KeyedMap.get_put_ne db hk)

theorem stored_put (db : Store) (i : Inode) (k : FullPath) :
    Stored (db.put i) k ↔ Stored db k ∨ k = i.fullpath := by
  simp only [Stored, KeyedMap.get_put]
  split <;> simp_all

/-- An entry that edits its parent is one batch of two writes, behind the
assertion. -/
theorem applyEntry_of_editsParent {e : Entry} (he : e.editsParent = true) (db : Store) :
    applyEntry db e =
      if ParentFound db e.path then
        some ((db.put { recordAt db e.path.parentPath with
          sub := e.editSub (recordAt db e.path.parentPath).sub }).put (e.written db))
      else none := by
  obtain ⟨type, inode⟩ := e
  cases type with
  | opPut => simp [Entry.editsParent] at he
  | opUnknown => simp [Entry.editsParent] at he
  | opMkdir =>
    simp only [applyEntry, internalMkdir, getParentInode_eq, Entry.path]
    by_cases hp : ParentFound db inode.fullpath <;> simp only [hp, if_true, if_false] <;> rfl
  | opPutok =>
    simp only [applyEntry, internalPutOk, getParentInode_eq, Entry.path]
    by_cases hp : ParentFound db inode.fullpath <;> simp only [hp, if_true, if_false] <;> rfl
  | opRm =>
    simp only [applyEntry, internalRm, getParentInode_eq, Entry.path]
    by_cases hp : ParentFound db inode.fullpath <;> simp only [hp, if_true, if_false] <;> rfl

/-- The assertion is the only way an entry can stop the process. -/
theorem applyEntry_eq_none {db : Store} {e : Entry} :
    applyEntry db e = none ↔ e.editsParent = true ∧ ¬ ParentFound db e.path := by
  cases he : e.editsParent with
  | true =>
    rw [applyEntry_of_editsParent he]
    split <;> simp_all
  | false =>
    obtain ⟨type, inode⟩ := e
    cases type <;> simp_all [Entry.editsParent, applyEntry]

theorem parentFound_of_applyEntry {db db' : Store} {e : Entry} (h : applyEntry db e = some db')
    (he : e.editsParent = true) : ParentFound db e.path := by
  by_contra hp
  rw [applyEntry_eq_none.mpr ⟨he, hp⟩] at h
  cases h

/-- The records after an entry. -/
theorem recordAt_applyEntry {db db' : Store} {e : Entry} (h : applyEntry db e = some db')
    (k : FullPath) :
    recordAt db' k =
      if k = e.path then e.written db
      else if k = e.path.parentPath then
        { recordAt db k with sub := e.editSub (recordAt db k).sub }
      else recordAt db k := by
  cases he : e.editsParent with
  | true =>
    have hp := parentFound_of_applyEntry h he
    rw [applyEntry_of_editsParent he, if_pos hp] at h
    rw [← Option.some.inj h, recordAt_put, recordAt_put, Entry.written_fullpath]
    by_cases hk : k = e.path
    · rw [if_pos hk, if_pos hk]
    · simp only [if_neg hk, recordAt_fullpath]
      by_cases hq : k = e.path.parentPath
      · rw [if_pos hq, if_pos hq, hq]
      · rw [if_neg hq, if_neg hq]
  | false =>
    have hedit : ∀ sub, e.editSub sub = sub := by
      intro sub
      cases ht : e.type <;> simp_all [Entry.editsParent, Entry.editSub]
    have hrest : ∀ k, k ≠ e.path → recordAt db' k = recordAt db k := by
      intro k hk
      cases ht : e.type <;> simp_all [Entry.editsParent, applyEntry]
      rw [← h, internalPut, recordAt_put]
      exact if_neg hk
    have hpath : recordAt db' e.path = e.written db := by
      cases ht : e.type <;> simp_all [Entry.editsParent, applyEntry, Entry.written]
      rw [← h, internalPut, recordAt_put, Entry.path, if_pos rfl]
    by_cases hk : k = e.path
    · rw [if_pos hk, hk, hpath]
    · rw [if_neg hk, hrest k hk, hedit, ite_self]

/-- The paths with a stored record after an entry. -/
theorem stored_applyEntry {db db' : Store} {e : Entry} (h : applyEntry db e = some db')
    (k : FullPath) :
    Stored db' k ↔
      Stored db k ∨ (e.type ≠ .opUnknown ∧ k = e.path) ∨
        (e.editsParent = true ∧ k = e.path.parentPath) := by
  cases he : e.editsParent with
  | true =>
    have hk : e.type ≠ .opUnknown := by
      intro ht
      simp [Entry.editsParent, ht] at he
    have hp := parentFound_of_applyEntry h he
    rw [applyEntry_of_editsParent he, if_pos hp] at h
    rw [← Option.some.inj h, stored_put, stored_put, Entry.written_fullpath]
    simp only [recordAt_fullpath, true_and]
    tauto
  | false =>
    cases ht : e.type <;> simp_all [Entry.editsParent, applyEntry]
    rw [← h, internalPut, stored_put, Entry.path]

/-- Nothing that is stored ever goes away. -/
theorem stored_mono {db db' : Store} {e : Entry} (h : applyEntry db e = some db')
    {k : FullPath} (hs : Stored db k) : Stored db' k :=
  (stored_applyEntry h k).mpr (Or.inl hs)

theorem parentFound_mono {db db' : Store} {e : Entry} (h : applyEntry db e = some db')
    {p : FullPath} (hp : ParentFound db p) : ParentFound db' p :=
  hp.imp_left (stored_mono h)

theorem recordAt_applyEntry_self {db db' : Store} {e : Entry} (h : applyEntry db e = some db') :
    recordAt db' e.path = e.written db := by
  rw [recordAt_applyEntry h, if_pos rfl]

/-- Of another path an entry changes the list at most. -/
theorem recordAt_applyEntry_other {db db' : Store} {e : Entry} (h : applyEntry db e = some db')
    {k : FullPath} (hk : k ≠ e.path) :
    recordAt db' k = { recordAt db k with sub := (recordAt db' k).sub } := by
  rw [recordAt_applyEntry h, if_neg hk]
  split <;> rfl

end Spkdfs
