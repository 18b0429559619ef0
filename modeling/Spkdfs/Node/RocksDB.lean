import Spkdfs.Common.Inode
import Spkdfs.Lib.KeyedMap

/-!
# The metadata store

`class RocksDB` of `node/rocksdb.cpp`: the checks that a handler makes before it
proposes an entry (`prepare_*`), and the functions that apply a committed entry
(`internal_*`).

The database is a `KeyedMap`: every write of the source is
`Put(x.get_fullpath(), x.value())`, so a record is always stored under its own
path, and reading `value()` back through `from_json` gives the record again.  A
`WriteBatch` is its writes in order.

The database is open in every modelled state, and its own calls succeed.  The
assertion of `get_parent_inode` stays: the functions that reach it answer
`none` when it fails, because it stops the process.
-/

namespace Spkdfs

/-- The content of the database. -/
abbrev Store := KeyedMap FullPath Inode Inode.fullpath

namespace RocksDB

/-- `RocksDB::path_exists`. -/
def pathExists (db : Store) (path : FullPath) : Bool :=
  if path = .root then true
  else
    match db.get path with
    | none => false
    | some inode => inode.valid

/-- `RocksDB::try_to_rm`. -/
def tryToRm (db : Store) (inode : Inode) : Except Exception Unit :=
  if pathExists db inode.fullpath = false then
    .error (.message ⟨.pathNotExistsException, inode.fullpath.text⟩)
  else .ok ()

/-- `RocksDB::try_to_add`. -/
def tryToAdd (db : Store) (inode : Inode) : Except Exception Unit :=
  if pathExists db inode.parentPath = false then
    .error (.message ⟨.pathNotExistsException, inode.parentPath.text⟩)
  else if pathExists db inode.fullpath = true then
    .error (.message ⟨.pathExistsException, inode.fullpath.text⟩)
  else .ok ()

/-- `RocksDB::get_inode`.  The argument carries the path; a record that is found
replaces all of it. -/
def getInode (db : Store) (inode : Inode) : Inode :=
  match db.get inode.fullpath with
  | none =>
    if inode.fullpath = .root then { inode with isDirectory := true, valid := true }
    else { inode with valid := false }
  | some stored => stored

/-- `RocksDB::ls`. -/
def ls (db : Store) (inode : Inode) : Except Exception Inode :=
  let inode := getInode db inode
  if inode.valid = false then
    .error (.message ⟨.pathNotExistsException, inode.fullpath.text⟩)
  else .ok inode

/-- `RocksDB::prepare_mkdir`. -/
def prepareMkdir (db : Store) (inode : Inode) : Except Exception Inode := do
  tryToAdd db inode
  return inode

/-- `RocksDB::prepare_put`. -/
def preparePut (db : Store) (now : UInt64) (inode : Inode) : Except Exception Inode :=
  let inode := getInode db inode
  if inode.valid && inode.isDirectory then
    .error (.message ⟨.pathExistsException, inode.fullpath.text⟩)
  else
    { inode with isDirectory := false, valid := true }.lock now

/-- `RocksDB::prepare_put_ok`. -/
def preparePutOk (db : Store) (inode : Inode) : Except Exception Inode :=
  let inode := getInode db inode
  if inode.valid = false then
    .error (.message ⟨.pathNotExistsException, inode.fullpath.text⟩)
  else if inode.isDirectory then
    .error (.message ⟨.expectedFileException, inode.fullpath.text⟩)
  else .ok inode

/-- `RocksDB::prepare_rm`. -/
def prepareRm (db : Store) (inode : Inode) : Except Exception Inode := do
  tryToRm db inode
  return { inode with valid := false }

/-- `RocksDB::get_parent_inode`.  `none` is the failed assertion that the
missing parent is the root. -/
def getParentInode (db : Store) (inode : Inode) : Option Inode :=
  match db.get inode.parentPath with
  | none => if inode.parentPath = .root then some (.getDefaultDir .root) else none
  | some parent => some parent

/-- `find` and `push_back`: add a name that is not there yet. -/
def addName (name : String) (sub : List String) : List String :=
  if name ∈ sub then sub else sub ++ [name]

/-- `erase` and `std::remove`: drop every occurrence of a name. -/
def removeName (name : String) (sub : List String) : List String :=
  sub.filter (fun s => s ≠ name)

/-- `RocksDB::internal_rm`. -/
def internalRm (db : Store) (inode : Inode) : Option Store := do
  let parent ← getParentInode db inode
  return (db.put { parent with sub := removeName inode.filename parent.sub }).put inode

/-- `RocksDB::internal_put_ok`. -/
def internalPutOk (db : Store) (inode : Inode) : Option Store := do
  let parent ← getParentInode db inode
  let dbInode := (getInode db (.new inode.fullpath)).unlock
  return (db.put { parent with sub := addName inode.filename parent.sub }).put
    { dbInode with sub := inode.sub, filesize := inode.filesize }

/-- `RocksDB::internal_put`. -/
def internalPut (db : Store) (inode : Inode) : Store := db.put inode

/-- `RocksDB::internal_mkdir`. -/
def internalMkdir (db : Store) (inode : Inode) : Option Store := do
  let parent ← getParentInode db inode
  return (db.put { parent with sub := addName inode.filename parent.sub }).put inode

theorem tryToRm_eq_ok {db : Store} {inode : Inode} :
    tryToRm db inode = .ok () ↔ pathExists db inode.fullpath = true := by
  unfold tryToRm
  split <;> simp_all

theorem tryToAdd_eq_ok {db : Store} {inode : Inode} :
    tryToAdd db inode = .ok () ↔
      pathExists db inode.parentPath = true ∧ pathExists db inode.fullpath = false := by
  unfold tryToAdd
  split
  · simp_all
  · split <;> simp_all

/-! ## The record of a path -/

/-- The record that `get_inode` reads for a path.  A path without a stored
record reads as an invalid record, and the root as a default directory. -/
def recordAt (db : Store) (path : FullPath) : Inode := getInode db (.new path)

/-- Some record is stored under the path. -/
def Stored (db : Store) (path : FullPath) : Prop := db.get path ≠ none

instance (db : Store) (path : FullPath) : Decidable (Stored db path) :=
  inferInstanceAs (Decidable (_ ≠ _))

/-- `get_parent_inode` finds a record for the parent of the path, or the parent
is the root. -/
def ParentFound (db : Store) (path : FullPath) : Prop :=
  Stored db path.parentPath ∨ path.parentPath = .root

instance (db : Store) (path : FullPath) : Decidable (ParentFound db path) :=
  inferInstanceAs (Decidable (_ ∨ _))

theorem recordAt_of_get {db : Store} {path : FullPath} {inode : Inode}
    (h : db.get path = some inode) : recordAt db path = inode := by
  simp [recordAt, getInode, Inode.new, h]

theorem recordAt_congr {db db' : Store} {path : FullPath} (h : db.get path = db'.get path) :
    recordAt db path = recordAt db' path := by
  simp [recordAt, getInode, Inode.new, h]

theorem recordAt_of_not_stored {db : Store} {path : FullPath} (h : ¬ Stored db path) :
    recordAt db path =
      if path = .root then .getDefaultDir .root else .new path := by
  have hnone : db.get path = none := not_not.mp h
  by_cases hroot : path = .root
  · subst hroot
    simp [recordAt, getInode, Inode.new, Inode.getDefaultDir, hnone]
  · simp [recordAt, getInode, Inode.new, hnone, hroot]

@[simp] theorem recordAt_fullpath (db : Store) (path : FullPath) :
    (recordAt db path).fullpath = path := by
  cases h : db.get path with
  | none =>
    rw [recordAt_of_not_stored (not_not.mpr h)]
    split
    · rename_i hroot
      exact hroot.symm
    · rfl
  | some inode =>
    rw [recordAt_of_get h]
    exact db.keyed h

/-- What is stored under a path is its record. -/
theorem get_eq_some_iff {db : Store} {path : FullPath} {inode : Inode} :
    db.get path = some inode ↔ Stored db path ∧ recordAt db path = inode := by
  constructor
  · intro h
    exact ⟨by simp [Stored, h], recordAt_of_get h⟩
  · rintro ⟨hs, rfl⟩
    obtain ⟨inode, h⟩ := Option.ne_none_iff_exists'.mp hs
    rw [recordAt_of_get h, h]

/-- A valid record is stored, unless it is the record of the root. -/
theorem stored_of_valid {db : Store} {path : FullPath} (hroot : path ≠ .root)
    (hv : (recordAt db path).valid = true) : Stored db path := by
  by_contra hs
  rw [recordAt_of_not_stored hs, if_neg hroot] at hv
  simp [Inode.new] at hv

theorem pathExists_iff {db : Store} {path : FullPath} :
    pathExists db path = true ↔ path = .root ∨ (recordAt db path).valid = true := by
  by_cases hroot : path = .root
  · simp [pathExists, hroot]
  · cases h : db.get path with
    | none =>
      rw [recordAt_of_not_stored (not_not.mpr h), if_neg hroot]
      simp [pathExists, hroot, h, Inode.new]
    | some inode =>
      rw [recordAt_of_get h]
      simp [pathExists, hroot, h]

/-- `ls` answers the record of a path, if it is valid. -/
theorem ls_eq_ok {db : Store} {path : FullPath} {inode : Inode} :
    ls db (.new path) = .ok inode ↔
      (recordAt db path).valid = true ∧ inode = recordAt db path := by
  rw [ls, ← recordAt]
  cases (recordAt db path).valid <;> simp [eq_comm]

theorem stored_or_root_of_pathExists {db : Store} {path : FullPath}
    (h : pathExists db path = true) : Stored db path ∨ path = .root := by
  by_cases hroot : path = .root
  · exact Or.inr hroot
  · exact Or.inl (stored_of_valid hroot ((pathExists_iff.mp h).resolve_left hroot))

theorem getParentInode_eq (db : Store) (inode : Inode) :
    getParentInode db inode =
      if ParentFound db inode.fullpath then some (recordAt db inode.parentPath) else none := by
  cases h : db.get inode.parentPath with
  | none =>
    have hns : ¬ Stored db inode.parentPath := not_not.mpr h
    by_cases hroot : inode.parentPath = .root
    · have hpf : ParentFound db inode.fullpath := Or.inr hroot
      rw [if_pos hpf, recordAt_of_not_stored hns, if_pos hroot]
      rw [getParentInode, h]
      exact if_pos hroot
    · have hpf : ¬ ParentFound db inode.fullpath := fun hp => hp.elim hns hroot
      rw [if_neg hpf, getParentInode, h]
      exact if_neg hroot
  | some parent =>
    have hpf : ParentFound db inode.fullpath := by
      left
      show db.get inode.parentPath ≠ none
      simp [h]
    rw [if_pos hpf, getParentInode, h, recordAt_of_get h]

end RocksDB

end Spkdfs
