import Spkdfs.Client.Transfer
import Spkdfs.Node.Namenode
import Spkdfs.Lib.Chunks

/-!
# Put and get

`SDK::put` and `SDK::get` of `client/sdk.cpp`.  `put` reads the source file block by
block into one buffer and encodes the whole buffer each time, so the last block
carries what the block before it has left behind the end of the file.  `get` writes
the decoded blocks one behind the other and cuts the result to the size of the file.

The requests of one `put` are served one after the other, and the source file does
not change meanwhile.  What the datanodes do is an argument (`Uploads`, `Net`).
-/

namespace Spkdfs

open RocksDB Chunks

namespace SDK

/-- A file on the disk of the client. -/
abbrev SourceFile := { data : Bytes // data.length < 2 ^ 64 }

/-- A request to the namenode behind `check_response`.  If the entry stops the
process, the call of brpc fails. -/
def request (db : Store) (now : UInt64) (op : Op) : Except Abrupt Store := do
  let e ← rethrow (prepare db now op)
  match applyEntry db e with
  | none => .error (.thrown (.runtime "brpc not success"))
  | some db => return db

variable (x : External)

/-- `encode_one` of each block in turn. -/
def encodeBlocks (t : StorageType) : List Bytes → List Uploads → Except Abrupt (List String)
  | [], _ => .ok []
  | _ :: _, [] => .error .running
  | block :: blocks, up :: ups => do
    let res ← encodeOne x t block up
    let sub ← encodeBlocks t blocks ups
    return res :: sub

/-- The blocks that `put` encodes: `block.resize(blockSize)` is a buffer of zeros. -/
def putBlocks (t : StorageType) (file : Bytes) : List Bytes :=
  bufferReads t.getBlockSize.toNat (List.replicate t.getBlockSize.toNat 0) file

/-- The loop of `SDK::put`.  A negative block size makes `resize` throw, and with the
block size zero every read succeeds, so that the loop never ends. -/
def encodeFile (t : StorageType) (file : Bytes) (ups : List Uploads) :
    Except Abrupt (List String) :=
  if t.getBlockSize < 0 then .error (.thrown (.runtime "basic_string::_M_replace_aux"))
  else if t.getBlockSize = 0 then .error .running
  else encodeBlocks x t (putBlocks t file) ups

/-- `SDK::put`.  The clock of the namenode is read once for each request. -/
def put (db : Store) (file : SourceFile) (dstFilePath storageType : String)
    (nowPut nowLock nowPutOk : UInt64) (ups : List Uploads) : Except Abrupt Store := do
  let t ← rethrow (StorageType.fromString storageType)
  let db ← request db nowPut (.put dstFilePath storageType)
  let db ← request db nowLock (.updateLock dstFilePath)
  let sub ← encodeFile x t file.val ups
  request db nowPutOk (.putOk dstFilePath (.ofNat file.val.length) sub)

/-- `decode_one` of each entry in turn. -/
def decodeBlocks (net : Net) (t : StorageType) : List String → Except Abrupt (List Bytes)
  | [] => .ok []
  | s :: sub => do
    let block ← decodeOne x net t s
    let blocks ← decodeBlocks net t sub
    return block :: blocks

/-- `fs::resize_file`. -/
def resizeFile (data : Bytes) (size : ℕ) : Bytes :=
  data.take size ++ List.replicate (size - data.length) 0

/-- The part of `SDK::get` behind `get_remote_inode`.  A record without a storage type
has a null pointer there. -/
def getFile (net : Net) (inode : Inode) : Except Abrupt Bytes :=
  match inode.storageType, inode.sub with
  | none, [] => .ok (resizeFile [] inode.filesize.toNat)
  | none, _ :: _ => .error .undefined
  | some t, sub => do
    let blocks ← decodeBlocks x net t sub
    return resizeFile blocks.flatten inode.filesize.toNat

/-- `SDK::get`: the content of the file that it writes. -/
def get (net : Net) (db : Store) (src : String) : Except Abrupt Bytes := do
  let inode ← rethrow (Namenode.ls db src)
  getFile x net inode

variable {x}

/-- A request that succeeds was admitted, and its entry was applied. -/
theorem request_eq_ok {db db' : Store} {now : UInt64} {op : Op} :
    request db now op = .ok db' ↔
      ∃ e, prepare db now op = .ok e ∧ applyEntry db e = some db' := by
  rw [request, bind_eq_ok]
  simp only [rethrow_eq_ok]
  refine exists_congr fun e => and_congr_right fun _ => ?_
  cases applyEntry db e <;> simp [pure, Except.pure]

/-- When the blocks are uploaded, what is left of `put` are its requests. -/
theorem put_of_encodeFile {db : Store} {file : SourceFile} {path storageType : String}
    {n₀ n₁ n₂ : UInt64} {ups : List Uploads} {t : StorageType} {sub : List String}
    (ht : StorageType.fromString storageType = .ok t)
    (hsub : encodeFile x t file.val ups = .ok sub) :
    put x db file path storageType n₀ n₁ n₂ ups = (do
      let db ← request db n₀ (.put path storageType)
      let db ← request db n₁ (.updateLock path)
      request db n₂ (.putOk path (.ofNat file.val.length) sub)) := by
  rw [put, ht]
  show (do
    let db ← request db n₀ (.put path storageType)
    let db ← request db n₁ (.updateLock path)
    let sub ← encodeFile x t file.val ups
    request db n₂ (.putOk path (.ofNat file.val.length) sub)) = _
  rw [hsub]
  rfl

/-- `update_lock` changes nothing but a lock. -/
theorem recordAt_of_updateLock {db db' : Store} {now : UInt64} {path : String}
    (h : request db now (.updateLock path) = .ok db') (k : FullPath) :
    recordAt db' k = { recordAt db k with ddlLock := (recordAt db' k).ddlLock } := by
  obtain ⟨e, hp, ha⟩ := request_eq_ok.mp h
  obtain ⟨_, rfl⟩ := prepare_updateLock_eq_ok.mp hp
  have hpath : ((recordAt db (Op.updateLock path).target).updateDdlLock now).fullpath =
      (Op.updateLock path).target := recordAt_fullpath _ _
  rw [← Option.some.inj ha, internalPut, Spkdfs.recordAt_put, hpath]
  split
  · rename_i hk
    rw [hk]
    rfl
  · rfl

/-- The blocks have the length of the buffer, and cut to the length of the file they
are the file. -/
theorem resizeFile_putBlocks {t : StorageType} (hpos : 0 < t.getBlockSize) (file : Bytes) :
    resizeFile (putBlocks t file).flatten file.length = file := by
  have hn : 0 < t.getBlockSize.toNat := by omega
  have hbuffer : (List.replicate t.getBlockSize.toNat (0 : UInt8)).length = t.getBlockSize.toNat :=
    List.length_replicate
  obtain ⟨rest, hrest⟩ := exists_flatten_bufferReads hn hbuffer file
  rw [resizeFile, putBlocks, hrest, List.take_left, List.length_append]
  simp

/-- The answers of `encode_one` are entries of the blocks. -/
theorem forall₂_isEntry_of_encodeBlocks {t : StorageType} {blocks : List Bytes}
    {ups : List Uploads} {sub : List String} (hx : x.Lawful)
    (hups : ∀ up ∈ ups, ∀ nodes, up.online = .ok nodes → ∀ node ∈ nodes, node.IsEndpoint)
    (h : encodeBlocks x t blocks ups = .ok sub) : List.Forall₂ (IsEntry x t) blocks sub := by
  induction blocks generalizing ups sub with
  | nil =>
    rw [encodeBlocks] at h
    rw [← Except.ok.inj h]
    exact .nil
  | cons block blocks ih =>
    cases ups with
    | nil => cases h
    | cons up ups =>
      rw [encodeBlocks] at h
      obtain ⟨res, hres, h⟩ := bind_eq_ok.mp h
      obtain ⟨rest, hrest, h⟩ := bind_eq_ok.mp h
      rw [← Except.ok.inj h]
      refine .cons (isEntry_of_encodeOne hx (hups up List.mem_cons_self) hres) ?_
      exact ih (fun up hup => hups up (List.mem_cons_of_mem _ hup)) hrest

/-- What `decode_one` answers for an entry: the block, or nothing. -/
def blockOrEmpty (x : External) (net : Net) (t : StorageType) (block : Bytes) (s : String) :
    Bytes :=
  if t.getDecodeBlocks ≤ available x net s then block else []

/-- `decode_one` of entries never fails. -/
theorem decodeBlocks_of_isEntry {net : Net} {t : StorageType} {blocks : List Bytes}
    {sub : List String} (hx : x.Lawful) (hsub : List.Forall₂ (IsEntry x t) blocks sub)
    (hcol : ∀ block ∈ blocks, NoCollision x net t block) :
    decodeBlocks x net t sub = .ok (List.zipWith (blockOrEmpty x net t) blocks sub) := by
  induction hsub with
  | nil => rfl
  | cons hentry _ ih =>
    rw [decodeBlocks, decodeOne_of_isEntry hx hentry (hcol _ List.mem_cons_self),
      ih fun block hb => hcol block (List.mem_cons_of_mem _ hb)]
    rfl

/-- With enough places for each entry, the decoded blocks are the blocks. -/
theorem zipWith_blockOrEmpty {net : Net} {t : StorageType} {blocks : List Bytes}
    {sub : List String} (hsub : List.Forall₂ (IsEntry x t) blocks sub)
    (havail : ∀ s ∈ sub, t.getDecodeBlocks ≤ available x net s) :
    List.zipWith (blockOrEmpty x net t) blocks sub = blocks := by
  induction hsub with
  | nil => rfl
  | cons _ _ ih =>
    rw [List.zipWith_cons_cons, blockOrEmpty, if_pos (havail _ List.mem_cons_self),
      ih fun s hs => havail s (List.mem_cons_of_mem _ hs)]

/-- The record of the path after the requests of a `put`, given the answers of
`encode_one`. -/
theorem recordAt_of_requests {db db₁ db₂ db₃ : Store} {path storageType : String}
    {nowPut nowLock nowPutOk filesize : UInt64} {sub : List String} {t : StorageType}
    (htype : StorageType.fromString storageType = .ok t)
    (h₁ : request db nowPut (.put path storageType) = .ok db₁)
    (h₂ : request db₁ nowLock (.updateLock path) = .ok db₂)
    (h₃ : request db₂ nowPutOk (.putOk path filesize sub) = .ok db₃) :
    path ≠ "" ∧ (recordAt db₃ (.set path)).valid = true ∧
      (recordAt db₃ (.set path)).storageType = some t ∧
      (recordAt db₃ (.set path)).sub = sub ∧ (recordAt db₃ (.set path)).filesize = filesize := by
  obtain ⟨e₁, hp₁, ha₁⟩ := request_eq_ok.mp h₁
  obtain ⟨e₂, hp₂, ha₂⟩ := request_eq_ok.mp h₂
  obtain ⟨e₃, hp₃, ha₃⟩ := request_eq_ok.mp h₃
  have hr₁ := recordAt_applyEntry_self ha₁
  have hr₂ := recordAt_applyEntry_self ha₂
  have hr₃ := recordAt_applyEntry_self ha₃
  rw [(prepare_spec hp₁).2] at hr₁
  rw [(prepare_spec hp₂).2] at hr₂
  have hpath₃ : e₃.path = .set path := (prepare_spec hp₃).2
  rw [hpath₃] at hr₃
  obtain ⟨hpath, _, _, t', ht', rfl⟩ := prepare_put_eq_ok.mp hp₁
  obtain ⟨_, rfl⟩ := prepare_updateLock_eq_ok.mp hp₂
  obtain ⟨_, hvalid, _, rfl⟩ := prepare_putOk_eq_ok.mp hp₃
  have htype₁ : (recordAt db₁ (.set path)).storageType = some t := by
    rw [show recordAt db₁ (.set path) = _ from hr₁]
    rw [htype] at ht'
    rw [Except.ok.inj ht']
    rfl
  have htype₂ : (recordAt db₂ (.set path)).storageType = some t := by
    rw [show recordAt db₂ (.set path) = _ from hr₂]
    exact htype₁
  rw [hr₃, Entry.written, hpath₃]
  exact ⟨hpath, hvalid, htype₂, rfl, rfl⟩

/-- The record of the path after a `put`. -/
theorem recordAt_put {db db' : Store} {file : SourceFile} {path storageType : String}
    {nowPut nowLock nowPutOk : UInt64} {ups : List Uploads}
    (h : put x db file path storageType nowPut nowLock nowPutOk ups = .ok db') :
    ∃ t, StorageType.fromString storageType = .ok t ∧ 0 < t.getBlockSize ∧ path ≠ "" ∧
      (recordAt db' (.set path)).valid = true ∧
      (recordAt db' (.set path)).storageType = some t ∧
      (recordAt db' (.set path)).filesize = .ofNat file.val.length ∧
      encodeBlocks x t (putBlocks t file.val) ups = .ok (recordAt db' (.set path)).sub := by
  obtain ⟨t, htype, h⟩ := bind_eq_ok.mp h
  obtain ⟨db₁, h₁, h⟩ := bind_eq_ok.mp h
  obtain ⟨db₂, h₂, h⟩ := bind_eq_ok.mp h
  obtain ⟨sub, hsub, h₃⟩ := bind_eq_ok.mp h
  obtain ⟨hpath, hvalid, ht, hsub', hsize⟩ :=
    recordAt_of_requests (rethrow_eq_ok.mp htype) h₁ h₂ h₃
  unfold encodeFile at hsub
  split at hsub
  · cases hsub
  · split at hsub
    · cases hsub
    · exact ⟨t, rethrow_eq_ok.mp htype, by omega, hpath, hvalid, ht, hsize, hsub' ▸ hsub⟩

/-- If `put` has succeeded, the record has not changed, and each of its entries has as
many places that return data with the listed digest as `decode` needs, then `get`
writes the bytes that `put` has read. -/
theorem get_of_put {db db₁ db₂ : Store} {file : SourceFile} {path storageType : String}
    {nowPut nowLock nowPutOk : UInt64} {ups : List Uploads} {net : Net} (hx : x.Lawful)
    (hups : ∀ up ∈ ups, ∀ nodes, up.online = .ok nodes → ∀ node ∈ nodes, node.IsEndpoint)
    (hput : put x db file path storageType nowPut nowLock nowPutOk ups = .ok db₁)
    (hsame : recordAt db₂ (.set path) = recordAt db₁ (.set path))
    (havail : ∀ t, (recordAt db₁ (.set path)).storageType = some t →
      ∀ s ∈ (recordAt db₁ (.set path)).sub, t.getDecodeBlocks ≤ available x net s)
    (hcol : ∀ t, (recordAt db₁ (.set path)).storageType = some t →
      ∀ block ∈ putBlocks t file.val, NoCollision x net t block) :
    get x net db₂ path = .ok file.val := by
  obtain ⟨t, _, hbs, hpath, hvalid, htype, hsize, hsub⟩ := recordAt_put hput
  have hentries := forall₂_isEntry_of_encodeBlocks hx hups hsub
  have hblocks : decodeBlocks x net t (recordAt db₁ (.set path)).sub =
      .ok (putBlocks t file.val) := by
    rw [decodeBlocks_of_isEntry hx hentries (hcol t htype),
      zipWith_blockOrEmpty hentries (havail t htype)]
  have hls : Namenode.ls db₂ path = .ok (recordAt db₁ (.set path)) := by
    rw [Namenode.ls, if_neg hpath, ls_eq_ok, hsame]
    exact ⟨hvalid, rfl⟩
  have hlen : (recordAt db₁ (.set path)).filesize.toNat = file.val.length := by
    rw [hsize, UInt64.toNat_ofNat']
    exact Nat.mod_eq_of_lt file.property
  rw [get, hls]
  show getFile x net (recordAt db₁ (.set path)) = .ok file.val
  simp only [getFile, htype, hblocks, hlen]
  rw [show (do let blocks ← (.ok (putBlocks t file.val) : Except Abrupt (List Bytes))
                 return resizeFile blocks.flatten file.val.length) =
      (.ok (resizeFile (putBlocks t file.val).flatten file.val.length) : Except Abrupt Bytes)
    from rfl, resizeFile_putBlocks hbs]

/-- The block of a file with three bytes, and its digest. -/
def smallBlock : Bytes := overwrite (List.replicate 1048576 0) [1, 2, 3]

def smallDigest : String := "424FBF013E934CC107220F7943CAC460D344908497C87E2B9834DFFFC463977A"

/-- The functions as they behave on this block.  With replicas nothing is encoded. -/
def smallExternal : External :=
  ⟨fun _ => smallDigest, ⟨fun _ _ _ => .error 0, fun _ _ _ => .error 0⟩⟩

/-- Two datanodes, of which the first one fails at first. -/
def smallUploads : Uploads :=
  ⟨.ok [⟨"192.168.88.112", 10002, .online⟩, ⟨"192.168.88.113", 10002, .online⟩],
    [false, true, true]⟩

/-- Only one of the two replicas is left. -/
def smallNet : Net :=
  fun node _ => if node = "192.168.88.113:10002" then some smallBlock else none

/-- The places of the block. -/
def smallPlaces : List (String × String) :=
  [("192.168.88.113:10002", smallDigest), ("192.168.88.112:10002", smallDigest)]

/-- The entry of the block. -/
def smallEntry : String :=
  "192.168.88.113:10002|" ++ smallDigest ++ ",192.168.88.112:10002|" ++ smallDigest

theorem smallExternal_lawful : smallExternal.Lawful := by
  refine ⟨fun data => ?_, ⟨?_, ?_, ?_⟩⟩
  · exact Delimited.forall_not_mem_of_all (by decide : ([',', '|'].all fun c =>
      decide (c ∉ smallDigest.toList)) = true)
  · intro k m d frags h
    cases h
  · intro k m d frags h
    cases h
  · intro k m d frags vec h
    cases h

theorem isEndpoint_small {ip : String} (h : ip = "192.168.88.112" ∨ ip = "192.168.88.113") :
    Node.IsEndpoint ⟨ip, 10002, .online⟩ := by
  rcases h with rfl | rfl
  · exact ⟨Delimited.forall_not_mem_of_all (by decide), by decide, by decide⟩
  · exact ⟨Delimited.forall_not_mem_of_all (by decide), by decide, by decide⟩

theorem isLocation_small {p : String × String} (h : p ∈ smallPlaces) : IsLocation p := by
  have hdigest := smallExternal_lawful.digest []
  simp only [smallPlaces, List.mem_cons, List.not_mem_nil, or_false] at h
  rcases h with rfl | rfl
  · exact ⟨⟨_, isEndpoint_small (Or.inr rfl), by decide⟩, hdigest⟩
  · exact ⟨⟨_, isEndpoint_small (Or.inl rfl), by decide⟩, hdigest⟩

theorem encodeOneSub_smallPlaces : encodeOneSub smallPlaces = .ok smallEntry := by
  have hfirst : "192.168.88.113:10002|" = "192.168.88.113:10002" ++ "|" := by decide
  have hsecond : ",192.168.88.112:10002|" = "," ++ ("192.168.88.112:10002" ++ "|") := by
    decide
  have hassoc : ∀ a b d : String, a ++ d ++ "," ++ (b ++ d) = a ++ d ++ ("," ++ b) ++ d := by
    intro a b d
    simp only [String.append_assoc]
  have htext : smallEntry = locationsText smallPlaces :=
    (congrArg₂ (fun a b => a ++ smallDigest ++ b ++ smallDigest) hfirst hsecond).trans
      (hassoc _ _ smallDigest).symm
  have hne : smallPlaces ≠ [] := List.cons_ne_nil _ _
  exact (encodeOneSub_of_isLocation hne fun _ => isLocation_small).trans (htext ▸ rfl)

theorem decodeOneSub_smallEntry : decodeOneSub smallEntry = smallPlaces :=
  decodeOneSub_of_encodeOneSub (fun _ => isLocation_small) encodeOneSub_smallPlaces

theorem encodeOne_small (block : Bytes) :
    encodeOne smallExternal (.re 2 1) block smallUploads = .ok smallEntry := by
  have htexts : [(⟨"192.168.88.112", 10002, .online⟩ : Node),
      ⟨"192.168.88.113", 10002, .online⟩].map Node.toText =
      ["192.168.88.112:10002", "192.168.88.113:10002"] := by decide
  have hloop : encodeLoop smallExternal (.re 2 1) [block, block]
      ["192.168.88.112:10002", "192.168.88.113:10002"] ⟨0, 0, 0, 0, []⟩ [false, true, true] =
      .ok smallPlaces := by
    simp [encodeLoop, nextNode, upload, StorageType.check, smallExternal, smallPlaces]
  rw [← htexts] at hloop
  exact bind_eq_ok.mpr ⟨[block, block], rfl, bind_eq_ok.mpr ⟨_, rfl, bind_eq_ok.mpr
    ⟨_, hloop, encodeOneSub_smallPlaces⟩⟩⟩

theorem putBlocks_small {t : StorageType} (hbs : t.getBlockSize.toNat = 1048576) :
    putBlocks t [1, 2, 3] = [smallBlock] := by
  rw [putBlocks, hbs, bufferReads_of_ne_nil (by decide) _ (by simp),
    List.drop_of_length_le (by decide), bufferReads_nil]
  rfl

/-- The requests of the `put` of that file. -/
def smallRequests : Except Abrupt Store := do
  let db ← request KeyedMap.empty 100 (.put "/f" "RE<2,1>")
  let db ← request db 100 (.updateLock "/f")
  request db 101 (.putOk "/f" 3 [smallEntry])

theorem put_small (hlt : [1, 2, 3].length < 2 ^ 64) :
    put smallExternal KeyedMap.empty ⟨[1, 2, 3], hlt⟩ "/f" "RE<2,1>" 100 100 101 [smallUploads] =
      smallRequests := by
  have hfile : encodeFile smallExternal (.re 2 1) [1, 2, 3] [smallUploads] = .ok [smallEntry] := by
    rw [encodeFile, if_neg (by decide), if_neg (by decide),
      putBlocks_small (t := .re 2 1) (by decide), encodeBlocks, encodeOne_small]
    rfl
  exact put_of_encodeFile rfl hfile

/-- A file of three bytes comes back although a datanode has failed twice. -/
theorem get_of_put_small :
    ∃ db, put smallExternal KeyedMap.empty ⟨[1, 2, 3], by decide⟩ "/f" "RE<2,1>" 100 100 101
        [smallUploads] = .ok db ∧ get smallExternal smallNet db "/f" = .ok [1, 2, 3] := by
  have hok : okWith (fun db => decide ((recordAt db (.set "/f")).sub = [smallEntry] ∧
      (recordAt db (.set "/f")).storageType = some (.re 2 1))) smallRequests = true := by
    decide +kernel
  obtain ⟨db, hreq, htest⟩ := okWith_eq_true.mp hok
  obtain ⟨hsub, htype⟩ := of_decide_eq_true htest
  have hput := (put_small (by decide)).trans hreq
  refine ⟨db, hput, get_of_put smallExternal_lawful ?_ hput rfl ?_ ?_⟩
  · intro up hup nodes hnodes node hnode
    obtain rfl := List.mem_singleton.mp hup
    obtain rfl := Except.ok.inj hnodes
    simp only [List.mem_cons, List.not_mem_nil, or_false] at hnode
    rcases hnode with rfl | rfl
    · exact isEndpoint_small (Or.inl rfl)
    · exact isEndpoint_small (Or.inr rfl)
  · intro t ht s hs
    rw [hsub] at hs
    rw [htype] at ht
    obtain rfl := List.mem_singleton.mp hs
    obtain rfl := Option.some.inj ht
    rw [available, decodeOneSub_smallEntry]
    simp [StorageType.getDecodeBlocks, Returns, smallNet, smallExternal, smallPlaces]
  · intro t ht block hblock frags hfrags f hf node blkid data hnet _
    rw [htype] at ht
    obtain rfl := Option.some.inj ht
    rw [putBlocks_small (by decide), List.mem_singleton] at hblock
    obtain rfl := Except.ok.inj hfrags
    rw [List.eq_of_mem_replicate hf, hblock]
    unfold smallNet at hnet
    split at hnet
    · exact (Option.some.inj hnet).symm
    · cases hnet

end SDK

end Spkdfs
