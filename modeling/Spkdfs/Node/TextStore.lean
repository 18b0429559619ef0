import Spkdfs.Common.StorageText
import Spkdfs.Node.LogEntry
import Spkdfs.Node.System

/-!
# The texts in the database

`RocksDB` of `node/rocksdb.cpp` as it is: keys and values are texts, every read parses a
JSON value and every write makes one.  A handler of `node/namenode.cpp` proposes the bytes of
an entry, and `RaftNN::on_apply` parses them again.

The other modules use `Store`, which has inodes, and entries with inodes.  Here is why they
may: a database of texts that `Represents` a store answers everything like the store, and
keeps doing so.  `TextSys.step` does to the texts and the bytes what `Sys.step` does to the
inodes and the entries, in any order of the handlers and of `on_apply`
(`run_textSys`).  So no text that the namenode has written is ever refused.
-/

namespace Spkdfs

open RocksDB

/-- What is in the database. -/
structure TextStore where
  get : String → Option String

namespace TextStore

variable (json : JsonLibrary)

def empty : TextStore := ⟨fun _ => none⟩

/-- `RocksDB::put`. -/
def put (db : TextStore) (key value : String) : TextStore :=
  ⟨fun k => if k = key then some value else db.get k⟩

/-- The inode of a value. -/
def readInode (value : String) : Except Exception Inode := do
  let j ← json.parse value
  Inode.fromJson json j

/-- `Inode::value` under `Inode::get_fullpath`. -/
def putInode (db : TextStore) (inode : Inode) : TextStore :=
  db.put inode.fullpath.text (inode.value json)

/-- `RocksDB::path_exists`. -/
def pathExists (db : TextStore) (path : String) : Except Exception Bool :=
  if path = "/" then .ok true
  else
    match db.get path with
    | none => .ok false
    | some value => do
      let tmpInode ← readInode json value
      return tmpInode.valid

/-- `RocksDB::try_to_rm`. -/
def tryToRm (db : TextStore) (inode : Inode) : Except Exception Unit := do
  let found ← pathExists json db inode.fullpath.text
  if found = false then .error (.message ⟨.pathNotExistsException, inode.fullpath.text⟩)
  else .ok ()

/-- `RocksDB::try_to_add`. -/
def tryToAdd (db : TextStore) (inode : Inode) : Except Exception Unit := do
  let parentFound ← pathExists json db inode.parentPath.text
  if parentFound = false then .error (.message ⟨.pathNotExistsException, inode.parentPath.text⟩)
  else
    let found ← pathExists json db inode.fullpath.text
    if found = true then .error (.message ⟨.pathExistsException, inode.fullpath.text⟩)
    else .ok ()

/-- `RocksDB::get_inode`. -/
def getInode (db : TextStore) (inode : Inode) : Except Exception Inode :=
  match db.get inode.fullpath.text with
  | none =>
    if inode.fullpath.text = "/" then .ok { inode with isDirectory := true, valid := true }
    else .ok { inode with valid := false }
  | some value => readInode json value

/-- `RocksDB::ls`. -/
def ls (db : TextStore) (inode : Inode) : Except Exception Inode := do
  let inode ← getInode json db inode
  if inode.valid = false then .error (.message ⟨.pathNotExistsException, inode.fullpath.text⟩)
  else .ok inode

/-- `RocksDB::prepare_mkdir`. -/
def prepareMkdir (db : TextStore) (inode : Inode) : Except Exception Inode := do
  tryToAdd json db inode
  return inode

/-- `RocksDB::prepare_put`. -/
def preparePut (db : TextStore) (now : UInt64) (inode : Inode) : Except Exception Inode := do
  let inode ← getInode json db inode
  if inode.valid && inode.isDirectory then
    .error (.message ⟨.pathExistsException, inode.fullpath.text⟩)
  else
    Inode.lock { inode with isDirectory := false, valid := true } now

/-- `RocksDB::prepare_put_ok`. -/
def preparePutOk (db : TextStore) (inode : Inode) : Except Exception Inode := do
  let inode ← getInode json db inode
  if inode.valid = false then .error (.message ⟨.pathNotExistsException, inode.fullpath.text⟩)
  else if inode.isDirectory then .error (.message ⟨.expectedFileException, inode.fullpath.text⟩)
  else .ok inode

/-- `RocksDB::prepare_rm`. -/
def prepareRm (db : TextStore) (inode : Inode) : Except Exception Inode := do
  tryToRm json db inode
  return { inode with valid := false }

/-- `RocksDB::get_parent_inode`.  The assertion ends the process. -/
def getParentInode (db : TextStore) (inode : Inode) : Except Abrupt Inode :=
  match db.get inode.parentPath.text with
  | none =>
    if inode.parentPath.text = "/" then .ok (.getDefaultDir .root) else .error .undefined
  | some value => rethrow (readInode json value)

/-- `RocksDB::internal_rm`. -/
def internalRm (db : TextStore) (inode : Inode) : Except Abrupt TextStore := do
  let parent ← getParentInode json db inode
  let parent := { parent with sub := removeName inode.filename parent.sub }
  return (db.putInode json parent).putInode json inode

/-- `RocksDB::internal_put_ok`. -/
def internalPutOk (db : TextStore) (inode : Inode) : Except Abrupt TextStore := do
  let parent ← getParentInode json db inode
  let parent := { parent with sub := addName inode.filename parent.sub }
  let dbInode ← rethrow (getInode json db (.new inode.fullpath))
  let dbInode := { dbInode.unlock with sub := inode.sub, filesize := inode.filesize }
  return (db.putInode json parent).putInode json dbInode

/-- `RocksDB::internal_put`. -/
def internalPut (db : TextStore) (inode : Inode) : TextStore := db.putInode json inode

/-- `RocksDB::internal_mkdir`. -/
def internalMkdir (db : TextStore) (inode : Inode) : Except Abrupt TextStore := do
  let parent ← getParentInode json db inode
  let parent := { parent with sub := addName inode.filename parent.sub }
  return (db.putInode json parent).putInode json inode

/-- The `switch` of `RaftNN::on_apply`. -/
def applyRead (db : TextStore) (inode : Inode) : Option OpType → Except Abrupt TextStore
  | some .opMkdir => internalMkdir json db inode
  | some .opPut => .ok (internalPut json db inode)
  | some .opPutok => internalPutOk json db inode
  | some .opRm => internalRm json db inode
  | some .opUnknown | none => .ok db

/-- The `try` of one round of `RaftNN::on_apply`. -/
def applyData (db : TextStore) (data : Bytes) : Except Abrupt TextStore := do
  let (type, inode) ← rethrow (readEntry json data)
  applyRead json db inode type

/-- One round of `RaftNN::on_apply`.  An exception is caught, and the database stays as it
is. -/
def onApply (db : TextStore) (data : Bytes) : Option TextStore :=
  match applyData json db data with
  | .ok db => some db
  | .error (.thrown _) => some db
  | .error .undefined | .error .running => none

/-- The part of a handler up to its proposal. -/
def prepare (db : TextStore) (now : UInt64) : Op → Except Exception Bytes
  | .mkdir path => do
    Namenode.requirePath path
    let inode ← prepareMkdir json db (.getDefaultDir (.set (Namenode.absolutePath path)))
    return entryData json .opMkdir inode
  | .rm path => do
    Namenode.requirePath path
    let inode ← prepareRm json db (.new (.set path))
    return entryData json .opRm inode
  | .put path storageType => do
    Namenode.requirePath path
    let inode ← preparePut json db now (.new (.set path))
    let storageType ← StorageType.fromString storageType
    return entryData json .opPut { inode with storageType := some storageType }
  | .putOk path filesize sub => do
    Namenode.requirePath path
    let inode ← preparePutOk json db (.new (.set path))
    return entryData json .opPutok { inode with sub := sub, filesize := filesize }
  | .updateLock path => do
    let inode ← ls json db (.new (.set path))
    return entryData json .opPut (inode.updateDdlLock now)

end TextStore

/-- `NamenodeServiceImpl::ls`: the data of its response. -/
def TextStore.lsData (json : JsonLibrary) (db : TextStore) (path : String) :
    Except Exception String := do
  let inode ← TextStore.ls json db (.new (.set (if path = "" then "/" else path)))
  return inode.value json

/-- `SDK::get_remote_inode`, on the data of the response. -/
def TextStore.getRemoteInode (json : JsonLibrary) (db : TextStore) (path : String) :
    Except Exception Inode := do
  let data ← lsData json db path
  TextStore.readInode json data

/-- A namenode with its database, the checked requests, and the log: `Sys` with texts and
bytes. -/
structure TextSys where
  db : TextStore
  prepared : List Bytes
  log : List Bytes

/-- One step, as in `Sys.step`. -/
def TextSys.step (json : JsonLibrary) (s : TextSys) : Event → Option TextSys
  | .prepare _ request =>
    match TextStore.prepare json s.db request.now request.op with
    | .error _ => some s
    | .ok data => some { s with prepared := s.prepared ++ [data] }
  | .propose i =>
    match s.prepared[i]? with
    | none => none
    | some data => some { s with prepared := s.prepared.eraseIdx i, log := s.log ++ [data] }
  | .apply =>
    match s.log with
    | [] => none
    | data :: rest =>
      match TextStore.onApply json s.db data with
      | none => none
      | some db => some { s with db := db, log := rest }

namespace TextStore

variable {json : JsonLibrary}

/-! ## What the texts stand for -/

/-- The storage type of the inode can be written and read. -/
def Writable (inode : Inode) : Prop := ∀ t, inode.storageType = some t → t.AreInts

/-- Under the path of every inode of the store, the database has its text. -/
structure Represents (json : JsonLibrary) (db : TextStore) (store : Store) : Prop where
  get : ∀ k : FullPath, db.get k.text = (store.get k).map (Inode.value json)
  writable : ∀ k inode, store.get k = some inode → Writable inode

theorem represents_empty : Represents json empty KeyedMap.empty :=
  ⟨fun _ => rfl, fun _ _ h => by cases h⟩

theorem readInode_value (hjson : json.Lawful) {inode : Inode} (h : Writable inode) :
    readInode json (inode.value json) = .ok inode := by
  rw [readInode, Inode.value, hjson.parse_dump _ inode.valid_toJson]
  exact Inode.fromJson_toJson hjson h

theorem text_eq_slash {p : FullPath} : p.text = "/" ↔ p = .root :=
  ⟨fun h => FullPath.ext_text h, fun h => h ▸ rfl⟩

variable {db : TextStore} {store : Store}

theorem Represents.putInode (h : Represents json db store) {inode : Inode}
    (hw : Writable inode) : Represents json (db.putInode json inode) (store.put inode) := by
  refine ⟨fun k => ?_, fun k i hget => ?_⟩
  · rw [KeyedMap.get_put]
    by_cases hk : k = inode.fullpath
    · rw [if_pos hk, hk]
      exact if_pos rfl
    · rw [if_neg hk, ← h.get k]
      exact if_neg fun htext => hk (FullPath.ext_text htext)
  · rw [KeyedMap.get_put] at hget
    split at hget
    · rw [← Option.some.inj hget]
      exact hw
    · exact h.writable k i hget

theorem Represents.pathExists (hjson : json.Lawful) (h : Represents json db store)
    (p : FullPath) : pathExists json db p.text = .ok (RocksDB.pathExists store p) := by
  rw [TextStore.pathExists, RocksDB.pathExists]
  by_cases hroot : p = .root
  · rw [if_pos hroot, if_pos (text_eq_slash.mpr hroot)]
  · rw [if_neg hroot, if_neg (mt text_eq_slash.mp hroot), h.get p]
    cases hget : store.get p with
    | none => rfl
    | some inode =>
      simp only [Option.map_some, readInode_value hjson (h.writable p inode hget)]
      rfl

theorem Represents.getInode (hjson : json.Lawful) (h : Represents json db store)
    (inode : Inode) : getInode json db inode = .ok (RocksDB.getInode store inode) := by
  rw [TextStore.getInode, RocksDB.getInode, h.get]
  cases hget : store.get inode.fullpath with
  | none =>
    simp only [Option.map_none, text_eq_slash]
    split <;> rfl
  | some stored => exact readInode_value hjson (h.writable _ stored hget)

theorem Represents.writable_getInode (h : Represents json db store) {inode : Inode}
    (hw : Writable inode) : Writable (RocksDB.getInode store inode) := by
  unfold RocksDB.getInode
  cases hget : store.get inode.fullpath with
  | none =>
    simp only
    split <;> exact hw
  | some stored => exact h.writable _ stored hget

theorem Represents.tryToRm (hjson : json.Lawful) (h : Represents json db store)
    (inode : Inode) : tryToRm json db inode = RocksDB.tryToRm store inode := by
  rw [TextStore.tryToRm, h.pathExists hjson]
  rfl

theorem Represents.tryToAdd (hjson : json.Lawful) (h : Represents json db store)
    (inode : Inode) : tryToAdd json db inode = RocksDB.tryToAdd store inode := by
  rw [TextStore.tryToAdd, h.pathExists hjson, h.pathExists hjson]
  rfl

theorem Represents.ls (hjson : json.Lawful) (h : Represents json db store) (inode : Inode) :
    ls json db inode = RocksDB.ls store inode := by
  rw [TextStore.ls, h.getInode hjson]
  rfl

theorem Represents.prepareMkdir (hjson : json.Lawful) (h : Represents json db store)
    (inode : Inode) : prepareMkdir json db inode = RocksDB.prepareMkdir store inode := by
  rw [TextStore.prepareMkdir, h.tryToAdd hjson]
  rfl

theorem Represents.preparePut (hjson : json.Lawful) (h : Represents json db store)
    (now : UInt64) (inode : Inode) :
    preparePut json db now inode = RocksDB.preparePut store now inode := by
  rw [TextStore.preparePut, h.getInode hjson]
  rfl

theorem Represents.preparePutOk (hjson : json.Lawful) (h : Represents json db store)
    (inode : Inode) : preparePutOk json db inode = RocksDB.preparePutOk store inode := by
  rw [TextStore.preparePutOk, h.getInode hjson]
  rfl

theorem Represents.prepareRm (hjson : json.Lawful) (h : Represents json db store)
    (inode : Inode) : prepareRm json db inode = RocksDB.prepareRm store inode := by
  rw [TextStore.prepareRm, h.tryToRm hjson]
  rfl

/-- A handler proposes the bytes of the entry. -/
theorem Represents.prepare (hjson : json.Lawful) (h : Represents json db store) (now : UInt64)
    (op : Op) : prepare json db now op =
      (Spkdfs.prepare store now op).map fun e => entryData json e.type e.inode := by
  cases op with
  | mkdir path =>
    rw [TextStore.prepare, Spkdfs.prepare, Namenode.mkdir, h.prepareMkdir hjson]
    cases Namenode.requirePath path with
    | error e => rfl
    | ok u => cases RocksDB.prepareMkdir store _ <;> rfl
  | rm path =>
    rw [TextStore.prepare, Spkdfs.prepare, Namenode.rm, h.prepareRm hjson]
    cases Namenode.requirePath path with
    | error e => rfl
    | ok u => cases RocksDB.prepareRm store _ <;> rfl
  | put path storageType =>
    rw [TextStore.prepare, Spkdfs.prepare, Namenode.put, h.preparePut hjson]
    cases Namenode.requirePath path with
    | error e => rfl
    | ok u =>
      cases RocksDB.preparePut store now _ with
      | error e => rfl
      | ok inode => cases StorageType.fromString storageType <;> rfl
  | putOk path filesize sub =>
    rw [TextStore.prepare, Spkdfs.prepare, Namenode.putOk, h.preparePutOk hjson]
    cases Namenode.requirePath path with
    | error e => rfl
    | ok u => cases RocksDB.preparePutOk store _ <;> rfl
  | updateLock path =>
    rw [TextStore.prepare, Spkdfs.prepare, Namenode.updateLock, h.ls hjson]
    cases RocksDB.ls store _ <;> rfl

/-! ## Applying an entry -/

theorem Represents.writable_recordAt (h : Represents json db store) (p : FullPath) :
    Writable (recordAt store p) := by
  have hnew : Writable (.new p) := fun _ ht => by cases ht
  exact h.writable_getInode hnew

theorem Represents.getRemoteInode (hjson : json.Lawful) (h : Represents json db store)
    (path : String) : getRemoteInode json db path = Namenode.ls store path := by
  rw [TextStore.getRemoteInode, TextStore.lsData, h.ls hjson, Namenode.ls]
  generalize FullPath.set (if path = "" then "/" else path) = p
  cases hls : RocksDB.ls store (.new p) with
  | error e => rfl
  | ok inode =>
    obtain ⟨-, rfl⟩ := ls_eq_ok.mp hls
    exact readInode_value hjson (h.writable_recordAt p)

/-- The texts are changed as the inodes are. -/
inductive Agrees (json : JsonLibrary) : Except Abrupt TextStore → Option Store → Prop
  | undefined : Agrees json (.error .undefined) none
  | written {db : TextStore} {store : Store} (h : Represents json db store) :
      Agrees json (.ok db) (some store)

/-- An entry that changes the parent as well. -/
theorem Represents.agrees_getParentInode (hjson : json.Lawful) (h : Represents json db store)
    {inode : Inode} {text : Inode → Except Abrupt TextStore} {abstract : Inode → Store}
    (hwrite : ∀ parent, Writable parent → Agrees json (text parent) (some (abstract parent))) :
    Agrees json (getParentInode json db inode >>= text)
      (RocksDB.getParentInode store inode >>= fun parent => some (abstract parent)) := by
  rw [TextStore.getParentInode, RocksDB.getParentInode, h.get]
  cases hget : store.get inode.parentPath with
  | none =>
    by_cases hroot : inode.parentPath = .root
    · simp only [Option.map_none, text_eq_slash, if_pos hroot]
      exact hwrite (.getDefaultDir .root) fun _ ht => by cases ht
    · simp only [Option.map_none, text_eq_slash, if_neg hroot]
      exact .undefined
  | some parent =>
    have hw := h.writable _ parent hget
    simp only [Option.map_some, readInode_value hjson hw]
    exact hwrite parent hw

theorem Represents.internalMkdir (hjson : json.Lawful) (h : Represents json db store)
    {inode : Inode} (hw : Writable inode) :
    Agrees json (internalMkdir json db inode) (RocksDB.internalMkdir store inode) :=
  h.agrees_getParentInode hjson fun parent (hparent : Writable { parent with
    sub := addName inode.filename parent.sub }) => .written ((h.putInode hparent).putInode hw)

theorem Represents.internalRm (hjson : json.Lawful) (h : Represents json db store)
    {inode : Inode} (hw : Writable inode) :
    Agrees json (internalRm json db inode) (RocksDB.internalRm store inode) :=
  h.agrees_getParentInode hjson fun parent (hparent : Writable { parent with
    sub := removeName inode.filename parent.sub }) => .written ((h.putInode hparent).putInode hw)

theorem Represents.internalPutOk (hjson : json.Lawful) (h : Represents json db store)
    (inode : Inode) :
    Agrees json (internalPutOk json db inode) (RocksDB.internalPutOk store inode) := by
  refine h.agrees_getParentInode hjson fun parent (hparent : Writable { parent with
    sub := addName inode.filename parent.sub }) => ?_
  have hdb : Writable { (RocksDB.getInode store (.new inode.fullpath)).unlock with
      sub := inode.sub, filesize := inode.filesize } := h.writable_recordAt inode.fullpath
  rw [h.getInode hjson]
  exact .written ((h.putInode hparent).putInode hdb)

/-- What `applyData` does to the texts, `applyEntry` does to the inodes. -/
theorem Represents.applyData (hjson : json.Lawful) (h : Represents json db store) {e : Entry}
    (hw : Writable e.inode) :
    Agrees json (applyData json db (entryData json e.type e.inode)) (applyEntry store e) := by
  obtain ⟨type, inode⟩ := e
  obtain ⟨inode', hread, hinode, -⟩ := readEntry_entryData hjson type inode hw
  rw [hinode] at hread
  have hdata : TextStore.applyData json db (entryData json type inode) =
      applyRead json db inode (some type) := by
    rw [TextStore.applyData, hread]
    rfl
  rw [hdata]
  cases type with
  | opMkdir => exact h.internalMkdir hjson hw
  | opPut => exact .written (h.putInode hw)
  | opPutok => exact h.internalPutOk hjson inode
  | opRm => exact h.internalRm hjson hw
  | opUnknown => exact .written h

theorem Represents.onApply (hjson : json.Lawful) (h : Represents json db store) {e : Entry}
    (hw : Writable e.inode) :
    Option.Rel (Represents json) (onApply json db (entryData json e.type e.inode))
      (applyEntry store e) := by
  have happly := h.applyData hjson hw
  unfold TextStore.onApply
  generalize TextStore.applyData json db (entryData json e.type e.inode) = text,
    applyEntry store e = abstract at happly
  cases happly with
  | undefined => exact .none
  | written hrep => exact .some hrep

/-- What a handler proposes can be written. -/
theorem Represents.writable_of_prepare (h : Represents json db store) {now : UInt64} {op : Op}
    {e : Entry} (hp : Spkdfs.prepare store now op = .ok e) : Writable e.inode := by
  cases op with
  | mkdir path =>
    obtain ⟨_, _, _, rfl⟩ := prepare_mkdir_eq_ok.mp hp
    exact fun _ ht => by cases ht
  | rm path =>
    obtain ⟨_, _, rfl⟩ := prepare_rm_eq_ok.mp hp
    exact fun _ ht => by cases ht
  | put path storageType =>
    obtain ⟨_, _, _, t, ht, rfl⟩ := prepare_put_eq_ok.mp hp
    intro t' ht'
    rw [← Option.some.inj ht']
    exact StorageType.areInts_of_fromString ht
  | putOk path filesize sub =>
    obtain ⟨_, _, _, rfl⟩ := prepare_putOk_eq_ok.mp hp
    exact h.writable_recordAt _
  | updateLock path =>
    obtain ⟨_, rfl⟩ := prepare_updateLock_eq_ok.mp hp
    exact h.writable_recordAt _

end TextStore

namespace TextSys

variable {json : JsonLibrary}

/-- The bytes of a task. -/
def taskData (json : JsonLibrary) (t : Task) : Bytes := entryData json t.entry.type t.entry.inode

/-- The texts and bytes stand for the inodes and entries. -/
structure Represents (json : JsonLibrary) (s : TextSys) (t : Sys) : Prop where
  db : TextStore.Represents json s.db t.db
  prepared : s.prepared = t.prepared.map (taskData json)
  log : s.log = t.log.map (taskData json)
  writable : ∀ task ∈ t.inFlight, TextStore.Writable task.entry.inode

/-- One step does the same to both. -/
theorem step_rel (hjson : json.Lawful) (s : TextSys) (t : Sys) (ev : Event)
    (h : Represents json s t) :
    Option.Rel (Represents json) (TextSys.step json s ev) (Sys.step t ev) := by
  cases ev with
  | prepare client request =>
    have hprepare := h.db.prepare hjson request.now request.op
    simp only [Sys.step]
    split
    · rename_i hp
      simp only [TextSys.step, hprepare, hp, Except.map]
      exact .some h
    · rename_i entry hp
      simp only [TextSys.step, hprepare, hp, Except.map]
      refine .some ⟨h.db, ?_, h.log, fun task htask => ?_⟩
      · rw [List.map_append, ← h.prepared]
        rfl
      · rcases List.mem_append.mp htask with htask | htask
        · rcases List.mem_append.mp htask with htask | htask
          · exact h.writable task (List.mem_append_left _ htask)
          · rw [List.mem_singleton.mp htask]
            exact h.db.writable_of_prepare hp
        · exact h.writable task (List.mem_append_right _ htask)
  | propose i =>
    simp only [TextSys.step, Sys.step, h.prepared, List.getElem?_map]
    cases hi : t.prepared[i]? with
    | none => exact .none
    | some task =>
      refine .some ⟨h.db, ?_, ?_, fun task' htask => ?_⟩
      · rw [List.eraseIdx_map]
      · rw [List.map_append, ← h.log]
        rfl
      · rcases List.mem_append.mp htask with htask | htask
        · exact h.writable task' (List.mem_append_left _ (List.mem_of_mem_eraseIdx htask))
        · rcases List.mem_append.mp htask with htask | htask
          · exact h.writable task' (List.mem_append_right _ htask)
          · rw [List.mem_singleton.mp htask]
            exact h.writable task (List.mem_append_left _ (List.mem_of_getElem? hi))
  | apply =>
    simp only [TextSys.step, Sys.step, h.log]
    cases hlog : t.log with
    | nil => exact .none
    | cons task rest =>
      have hmem : ∀ task' ∈ task :: rest, TextStore.Writable task'.entry.inode :=
        fun task' htask' => h.writable task' (List.mem_append_right _ (hlog ▸ htask'))
      have happly := h.db.onApply hjson (hmem task List.mem_cons_self)
      simp only [List.map_cons, taskData]
      generalize TextStore.onApply json s.db (entryData json task.entry.type
        task.entry.inode) = text, applyEntry t.db task.entry = abstract at happly
      cases happly with
      | none => exact .none
      | some hrep =>
        refine .some ⟨hrep, h.prepared, rfl, fun task' htask' => ?_⟩
        rcases List.mem_append.mp htask' with htask' | htask'
        · exact h.writable task' (List.mem_append_left _ htask')
        · exact hmem task' (List.mem_cons_of_mem _ htask')

/-- A namenode that starts with an empty database. -/
def init : TextSys := ⟨.empty, [], []⟩

theorem represents_init : Represents json init (Sys.init KeyedMap.empty) :=
  ⟨TextStore.represents_empty, rfl, rfl, fun _ h => by cases h⟩

/-- The same events lead the texts and the inodes to states that stand for each other, or
stop both at the same event. -/
theorem run_textSys (hjson : json.Lawful) (events : List Event) :
    Option.Rel (Represents json) (Runs.run (TextSys.step json) init events)
      (Runs.run Sys.step (Sys.init KeyedMap.empty) events) :=
  Runs.run_bisimulation (step_rel hjson) represents_init

/-- A directory is made, and a file in it is proposed. -/
def twoEvents : List Event :=
  [.prepare 0 ⟨.mkdir "/a", 5⟩, .propose 0, .apply, .prepare 1 ⟨.put "/a/f" "RE<2,16>", 6⟩,
    .propose 0]

theorem run_textSys_twoEvents :
    (Runs.run Sys.step (Sys.init KeyedMap.empty) twoEvents).any (·.log.length = 1) = true ∧
      Option.Rel (Represents jsonTexts) (Runs.run (TextSys.step jsonTexts) init twoEvents)
        (Runs.run Sys.step (Sys.init KeyedMap.empty) twoEvents) :=
  ⟨by decide +kernel, run_textSys jsonTexts_lawful twoEvents⟩

theorem exists_reachable (hjson : json.Lawful) {s : TextSys}
    (h : Runs.Reachable (TextSys.step json) init s) :
    ∃ t, Runs.Reachable Sys.step (Sys.init KeyedMap.empty) t ∧ Represents json s t := by
  induction h with
  | refl => exact ⟨_, .refl, represents_init⟩
  | @tail s s' ev _ _ hstep ih =>
    obtain ⟨t, ht, hrep⟩ := ih
    have hrel := step_rel hjson s t ev hrep
    rw [hstep] at hrel
    generalize hnext : Sys.step t ev = next at hrel
    cases hrel with
    | some hrep' => exact ⟨_, ht.tail trivial hnext, hrep'⟩

/-- No entry that was proposed is ever refused by its parser, and a client reads from the text
of the response the inode that the namenode found. -/
theorem read_of_reachable (hjson : json.Lawful) {s : TextSys}
    (h : Runs.Reachable (TextSys.step json) init s) :
    (∀ data ∈ s.prepared ++ s.log, ∀ e, s.db.applyData json data ≠ .error (.thrown e)) ∧
      ∃ t, Runs.Reachable Sys.step (Sys.init KeyedMap.empty) t ∧ Represents json s t ∧
        ∀ path, s.db.getRemoteInode json path = Namenode.ls t.db path := by
  obtain ⟨t, ht, hrep⟩ := exists_reachable hjson h
  refine ⟨fun data hdata e hthrown => ?_, t, ht, hrep, fun path => ?_⟩
  · rw [hrep.prepared, hrep.log, ← List.map_append] at hdata
    obtain ⟨task, htask, rfl⟩ := List.mem_map.mp hdata
    have happly := hrep.db.applyData hjson (hrep.writable task htask)
    unfold taskData at hthrown
    rw [hthrown] at happly
    cases happly
  · exact hrep.db.getRemoteInode hjson path

theorem read_of_reachable_twoEvents :
    ∃ s, Runs.Reachable (TextSys.step jsonTexts) init s ∧ s.log.length = 1 ∧
      (∀ data ∈ s.prepared ++ s.log, ∀ e, s.db.applyData jsonTexts data ≠ .error (.thrown e)) ∧
      ∃ t, Runs.Reachable Sys.step (Sys.init KeyedMap.empty) t ∧ Represents jsonTexts s t ∧
        ∀ path, s.db.getRemoteInode jsonTexts path = Namenode.ls t.db path := by
  have hrun : (Runs.run Sys.step (Sys.init KeyedMap.empty) twoEvents).any (·.log.length = 1) =
      true := by decide +kernel
  obtain ⟨t, ht, hlog⟩ := (Option.any_eq_true _ _).mp hrun
  have hrel : Option.Rel (Represents jsonTexts) (Runs.run (TextSys.step jsonTexts) init twoEvents)
      (Runs.run Sys.step (Sys.init KeyedMap.empty) twoEvents) :=
    Runs.run_bisimulation (step_rel jsonTexts_lawful) represents_init
  rw [ht] at hrel
  generalize htext : Runs.run (TextSys.step jsonTexts) init twoEvents = text at hrel
  cases hrel with
  | @some s _ hrep =>
    have hs := Runs.reachable_of_run htext
    have hlength : s.log.length = 1 := by
      rw [hrep.log, List.length_map]
      exact of_decide_eq_true hlog
    exact ⟨s, hs, hlength, read_of_reachable jsonTexts_lawful hs⟩

end TextSys

end Spkdfs
