import Mathlib.Data.List.Induction
import Spkdfs.Common.InodeJson
import Spkdfs.Node.Server

/-!
# The list of the namenodes on every datanode

The replicated log of `RaftDN` of `node/raft_dn.cpp`.  The leader proposes a list of
namenodes as a JSON text, and every datanode reads the texts of the log in batches of any
length.  A snapshot is such a text as well: `on_snapshot_save` writes the list of the
datanode to `namenodes.json`, and `on_snapshot_load` reads it when the datanode starts again.

`on_snapshot_save` does not call `add_file`, and braft copies the files that it was told about.
So a datanode that installs the snapshot of another one finds no `namenodes.json`, and
`read_file` throws: its process ends, also whenever it starts again.

`namenodeList_of_reachable` says that none of this matters for the list: after `n` entries of the
log, it is the one of the last entry among them, and every text of the log can be read.  So two
datanodes that are at the same place of the log have the same list (`Agrees.symm_of_applied`).
The health check writes the states of the nodes in the list, so what agrees is what the text
has, the ips and the ports.

`Server` is the datanode as its callback sees it.
-/

namespace Spkdfs

open Json

/-! ## Nodes as JSON -/

/-- `to_json` of a node. -/
def Node.toJson (node : Node) : Value :=
  .ofMembers [("ip", .string node.ip), ("port", .number node.port)]

/-- `from_json` of a node, into a `Node` that has just been constructed. -/
def Node.fromJson (j : Value) : Except Exception Node := do
  let ip ← jsonAt "ip" j >>= getString
  let port ← jsonAt "port" j >>= getInt
  return ⟨ip, port, .unknown⟩

/-- `get<vector<Node>>`. -/
def getNodes : Value → Except Exception (List Node)
  | .array items => items.mapM Node.fromJson
  | _ => .error typeError

/-- What the text of a node has. -/
def Node.address (node : Node) : String × Int := (node.ip, node.port)

/-- A node as it is read. -/
def Node.unscanned (node : Node) : Node := { node with nodeStatus := .unknown }

theorem Node.fromJson_toJson {node : Node} (h : IsInt node.port) :
    fromJson node.toJson = .ok node.unscanned := by
  have hkeys : ["ip", "port"].Nodup := by decide
  have hip : jsonAt "ip" node.toJson = .ok (.string node.ip) :=
    jsonAt_ofMembers hkeys (by simp)
  have hport : jsonAt "port" node.toJson = .ok (.number node.port) :=
    jsonAt_ofMembers hkeys (by simp)
  rw [fromJson, hip, hport]
  simp only [bind, Except.bind, getString, getInt_number h]
  rfl

theorem Node.valid_toJson {node : Node} (h : IsInt node.port) : node.toJson.Valid := by
  refine Value.valid_ofMembers (show ["ip", "port"].Nodup by decide) ?_
  simp only [List.mem_cons, List.not_mem_nil, or_false]
  rintro p (rfl | rfl)
  · exact .string _
  · exact valid_number h

variable (json : JsonLibrary)

/-- The text of a list of nodes, in the log and in a snapshot. -/
def nodesJson (nodes : List Node) : String := json.dump (.array (nodes.map Node.toJson))

/-- The list of a text. -/
def readNodes (text : String) : Except Exception (List Node) := do
  let j ← json.parse text
  getNodes j

variable {json}

theorem getNodes_array {nodes : List Node} (h : ∀ node ∈ nodes, IsInt node.port) :
    getNodes (.array (nodes.map Node.toJson)) = .ok (nodes.map Node.unscanned) := by
  rw [getNodes]
  induction nodes with
  | nil => rfl
  | cons node nodes ih =>
    rw [List.map_cons, List.mapM_cons, Node.fromJson_toJson (h node List.mem_cons_self),
      ih fun n hn => h n (List.mem_cons_of_mem _ hn)]
    rfl

/-- A list of nodes is read back from its text, up to the states of the nodes. -/
theorem readNodes_nodesJson (hjson : json.Lawful) {nodes : List Node}
    (h : ∀ node ∈ nodes, IsInt node.port) :
    readNodes json (nodesJson json nodes) = .ok (nodes.map Node.unscanned) := by
  have hvalid : (Value.array (nodes.map Node.toJson)).Valid := by
    refine .array fun v hv => ?_
    obtain ⟨node, hnode, rfl⟩ := List.mem_map.mp hv
    exact Node.valid_toJson (h node hnode)
  rw [readNodes, nodesJson, hjson.parse_dump _ hvalid]
  exact getNodes_array h

/-! ## The datanodes and their log -/

/-- The directory of a snapshot: its place in the log, what is in `namenodes.json` if that is
there, and the files that `add_file` was called with. -/
structure DNSnapshot where
  index : ℕ
  namenodesJson : Option String
  files : List String

/-- What braft copies to another datanode. -/
def DNSnapshot.copied (snapshot : DNSnapshot) : DNSnapshot :=
  { snapshot with namenodesJson :=
      if "namenodes.json" ∈ snapshot.files then snapshot.namenodesJson else none }

/-- A datanode: how much of the log it has applied, the snapshot in its own directory, and whether
its process runs. -/
structure DNReplica where
  server : Server
  applied : ℕ
  snapshot : Option DNSnapshot
  running : Bool

/-- The datanodes `ι`, and the committed log.  `proposed` are the lists that the texts in the
log were made of. -/
@[ext]
structure Membership (ι : Type) where
  replica : ι → DNReplica
  log : List String
  proposed : List (List Node)

inductive MembershipEvent (ι : Type)
  /-- `on_leader_start` proposes a list, and it is committed.  A port is an `int`. -/
  | propose (namenodes : List Node) (ports : ∀ node ∈ namenodes, IsInt node.port)
  /-- `on_apply` with the next `n` entries.  `starts` says whether a namenode can be started. -/
  | apply (i : ι) (n : ℕ) (starts : Bool)
  /-- `on_snapshot_save`. -/
  | save (i : ι)
  /-- braft copies the snapshot of another datanode, and calls `on_snapshot_load`. -/
  | install (i owner : ι)
  /-- The process is started again, from the snapshot in its directory if there is one. -/
  | restart (i : ι)
  /-- The health check writes the state of a namenode. -/
  | scan (i : ι) (j : ℕ) (nodeStatus : NodeStatus)

namespace DNReplica

variable (json : JsonLibrary)

/-- A datanode that has just been constructed. -/
def init : DNReplica := ⟨Server.init, 0, none, true⟩

/-- The process has ended.  Nothing is left but the directory. -/
def ended (r : DNReplica) : DNReplica := ⟨Server.init, 0, r.snapshot, false⟩

/-- `RaftDN::on_apply` with the texts of a batch: the loop keeps the last one. -/
def onApply (myIp : String) (starts : Bool) (r : DNReplica) (batch : List String) :
    Option DNReplica :=
  match batch.getLast? with
  | none => none
  | some text =>
    match readNodes json text with
    | .error _ => none
    | .ok namenodes =>
      (Server.onApply myIp starts r.server [namenodes]).map fun server =>
        { r with server := server, applied := r.applied + batch.length }

/-- `RaftDN::on_snapshot_save`.  The file is written, and not added. -/
def onSnapshotSave (r : DNReplica) : DNReplica :=
  { r with snapshot := some ⟨r.applied, some (nodesJson json r.server.namenodeList), []⟩ }

/-- `RaftDN::on_snapshot_load`.  `read_file` throws if there is no file. -/
def onSnapshotLoad (r : DNReplica) (snapshot : DNSnapshot) : Option DNReplica :=
  match snapshot.namenodesJson with
  | none => none
  | some text =>
    if text = "" then
      some { r with server := r.server.onSnapshotLoad none, applied := snapshot.index }
    else
      match readNodes json text with
      | .error _ => none
      | .ok namenodes =>
        some { r with server := r.server.onSnapshotLoad (some namenodes),
                      applied := snapshot.index }

/-- braft has copied a snapshot to the directory. -/
def install (r : DNReplica) (snapshot : DNSnapshot) : DNReplica :=
  let r := { r with snapshot := some snapshot.copied }
  (r.onSnapshotLoad json snapshot.copied).getD r.ended

/-- The process starts again. -/
def restart (r : DNReplica) : DNReplica :=
  match r.snapshot with
  | none => init
  | some snapshot =>
    (onSnapshotLoad json { init with snapshot := r.snapshot } snapshot).getD r.ended

/-- `namenode_list[j].scan()`. -/
def scan (r : DNReplica) (j : ℕ) (nodeStatus : NodeStatus) : DNReplica :=
  let namenodes := r.server.namenodeList.modify j fun node => { node with nodeStatus := nodeStatus }
  { r with server := { r.server with namenodeList := namenodes } }

end DNReplica

namespace Membership

variable {ι : Type} (json : JsonLibrary) (myIp : ι → String)

def init : Membership ι := ⟨fun _ => .init, [], []⟩

/-- Replace the state of one datanode. -/
def setReplica [DecidableEq ι] (s : Membership ι) (i : ι) (r : DNReplica) : Membership ι :=
  { s with replica := fun j => if j = i then r else s.replica j }

/-- One step.  A call that throws ends the process of its datanode. -/
def step [DecidableEq ι] (s : Membership ι) : MembershipEvent ι → Option (Membership ι)
  | .propose namenodes _ =>
    some { s with log := s.log ++ [nodesJson json namenodes],
                  proposed := s.proposed ++ [namenodes] }
  | .apply i n starts =>
    let r := s.replica i
    if r.running ∧ r.applied + n ≤ s.log.length then
      some (s.setReplica i ((r.onApply json (myIp i) starts
        ((s.log.drop r.applied).take n)).getD r.ended))
    else none
  | .save i =>
    if (s.replica i).running then some (s.setReplica i ((s.replica i).onSnapshotSave json))
    else none
  | .install i owner =>
    match (s.replica owner).snapshot with
    | none => none
    | some snapshot =>
      if (s.replica i).running then some (s.setReplica i ((s.replica i).install json snapshot))
      else none
  | .restart i => some (s.setReplica i ((s.replica i).restart json))
  | .scan i j nodeStatus =>
    if (s.replica i).running then some (s.setReplica i ((s.replica i).scan j nodeStatus))
    else none

/-! ## What the place in the log says -/

/-- The list after the first `n` entries. -/
def listAt (proposed : List (List Node)) (n : ℕ) : List Node :=
  ((proposed.take n).getLast?).getD []

/-- The list is the one of that place in the log, up to the states of the nodes. -/
structure Agrees (proposed : List (List Node)) (n : ℕ) (nodes : List Node) : Prop where
  le : n ≤ proposed.length
  address : nodes.map Node.address = (listAt proposed n).map Node.address

theorem Agrees.symm_of_applied {proposed : List (List Node)} {n : ℕ} {nodes nodes' : List Node}
    (h : Agrees proposed n nodes) (h' : Agrees proposed n nodes') :
    nodes.map Node.address = nodes'.map Node.address := h.address.trans h'.address.symm

theorem listAt_append {proposed : List (List Node)} {n : ℕ} (h : n ≤ proposed.length)
    (nodes : List Node) : listAt (proposed ++ [nodes]) n = listAt proposed n := by
  rw [listAt, listAt, List.take_append_of_le_length h]

theorem Agrees.append {proposed : List (List Node)} {n : ℕ} {nodes : List Node}
    (h : Agrees proposed n nodes) (next : List Node) : Agrees (proposed ++ [next]) n nodes := by
  refine ⟨?_, ?_⟩
  · rw [List.length_append]
    exact Nat.le_add_right_of_le h.le
  · rw [listAt_append h.le]
    exact h.address

theorem Agrees.of_map {proposed : List (List Node)} {n : ℕ} {nodes nodes' : List Node}
    (h : Agrees proposed n nodes) (heq : nodes'.map Node.address = nodes.map Node.address) :
    Agrees proposed n nodes' := ⟨h.le, heq.trans h.address⟩

theorem address_unscanned (nodes : List Node) :
    (nodes.map Node.unscanned).map Node.address = nodes.map Node.address := by
  rw [List.map_map]
  rfl

theorem address_modify (j : ℕ) (nodeStatus : NodeStatus) (nodes : List Node) :
    (nodes.modify j fun node => { node with nodeStatus := nodeStatus }).map Node.address =
      nodes.map Node.address := by
  refine List.ext_getElem? fun k => ?_
  rw [List.getElem?_map, List.getElem?_map, List.getElem?_modify]
  cases nodes[k]? with
  | none => rfl
  | some node =>
    show some (Node.address (if j = k then _ else node)) = some node.address
    split <;> rfl

theorem listAt_cases (proposed : List (List Node)) (n : ℕ) :
    listAt proposed n = [] ∨ listAt proposed n ∈ proposed := by
  unfold listAt
  cases hget : (proposed.take n).getLast? with
  | none => exact Or.inl rfl
  | some nodes => exact Or.inr (List.mem_of_mem_take (List.mem_of_getLast? hget))

/-- The ports of a list that agrees are those of a list that was proposed. -/
theorem Agrees.ports {proposed : List (List Node)} {n : ℕ} {nodes : List Node}
    (h : Agrees proposed n nodes)
    (hports : ∀ nodes ∈ proposed, ∀ node ∈ nodes, IsInt node.port) :
    ∀ node ∈ nodes, IsInt node.port := by
  intro node hnode
  have hmem : node.address ∈ (listAt proposed n).map Node.address :=
    h.address ▸ List.mem_map_of_mem hnode
  obtain ⟨node', hnode', heq⟩ := List.mem_map.mp hmem
  have hport : node'.port = node.port := congrArg Prod.snd heq
  rcases listAt_cases proposed n with hnil | hlist
  · rw [hnil] at hnode'
    cases hnode'
  · exact hport ▸ hports _ hlist node' hnode'

/-- The last entry of a batch is the last one of the log up to its end. -/
theorem listAt_batch {proposed : List (List Node)} {a n : ℕ} {nodes : List Node}
    (h : ((proposed.drop a).take n).getLast? = some nodes) : listAt proposed (a + n) = nodes := by
  rw [listAt, List.take_add, List.getLast?_append, h]
  rfl

variable {json myIp}

theorem getLast?_batch {proposed : List (List Node)} (a n : ℕ) :
    (((proposed.map (nodesJson json)).drop a).take n).getLast? =
      (((proposed.drop a).take n).getLast?).map (nodesJson json) := by
  rw [← List.map_drop, ← List.map_take, List.getLast?_map]

/-- A snapshot has the list of its place in the log, or no file.  No file was added to it. -/
structure Recorded (json : JsonLibrary) (proposed : List (List Node)) (snapshot : DNSnapshot) :
    Prop where
  files : snapshot.files = []
  text : ∀ text, snapshot.namenodesJson = some text →
    ∃ nodes, text = nodesJson json nodes ∧ Agrees proposed snapshot.index nodes

theorem Recorded.append {proposed : List (List Node)} {snapshot : DNSnapshot}
    (h : Recorded json proposed snapshot) (next : List Node) :
    Recorded json (proposed ++ [next]) snapshot := by
  refine ⟨h.files, fun text htext => ?_⟩
  obtain ⟨nodes, heq, hagrees⟩ := h.text text htext
  exact ⟨nodes, heq, hagrees.append next⟩

/-- What every datanode and every snapshot has. -/
structure Invariant (json : JsonLibrary) (s : Membership ι) : Prop where
  log : s.log = s.proposed.map (nodesJson json)
  ports : ∀ nodes ∈ s.proposed, ∀ node ∈ nodes, IsInt node.port
  list : ∀ i, Agrees s.proposed (s.replica i).applied (s.replica i).server.namenodeList
  snapshot : ∀ i snapshot, (s.replica i).snapshot = some snapshot →
    Recorded json s.proposed snapshot

theorem agrees_nil (proposed : List (List Node)) : Agrees proposed 0 [] := ⟨Nat.zero_le _, rfl⟩

theorem invariant_init : Invariant json (init : Membership ι) :=
  ⟨rfl, by simp [init], fun _ => agrees_nil _, by simp [init, DNReplica.init]⟩

/-- A snapshot is read as the list of its place in the log. -/
theorem agrees_of_onSnapshotLoad (hjson : json.Lawful) (hdump : ∀ v, json.dump v ≠ "")
    {s : Membership ι} (hs : Invariant json s) {r r' : DNReplica} {snapshot : DNSnapshot}
    (hsnapshot : Recorded json s.proposed snapshot) (h : r.onSnapshotLoad json snapshot = some r') :
    Agrees s.proposed r'.applied r'.server.namenodeList ∧ r'.snapshot = r.snapshot := by
  unfold DNReplica.onSnapshotLoad at h
  cases hfile : snapshot.namenodesJson with
  | none =>
    rw [hfile] at h
    cases h
  | some text =>
    obtain ⟨nodes, rfl, hagrees⟩ := hsnapshot.text text hfile
    have hne : nodesJson json nodes ≠ "" := hdump _
    simp only [hfile, hne, if_false, readNodes_nodesJson hjson (hagrees.ports hs.ports)] at h
    rw [← Option.some.inj h]
    exact ⟨hagrees.of_map (address_unscanned nodes), rfl⟩

/-- A snapshot without added files is copied without `namenodes.json`. -/
theorem Recorded.namenodesJson_copied {proposed : List (List Node)} {snapshot : DNSnapshot}
    (h : Recorded json proposed snapshot) : snapshot.copied.namenodesJson = none := by
  rw [DNSnapshot.copied, h.files]
  rfl

/-- That ends the process. -/
theorem install_eq_ended {proposed : List (List Node)} {snapshot : DNSnapshot}
    (h : Recorded json proposed snapshot) (r : DNReplica) :
    r.install json snapshot = ({ r with snapshot := some snapshot.copied } : DNReplica).ended := by
  simp only [DNReplica.install, DNReplica.onSnapshotLoad, h.namenodesJson_copied,
    Option.getD_none]

/-- It ends again whenever it is started. -/
theorem running_restart_install {proposed : List (List Node)} {snapshot : DNSnapshot}
    (h : Recorded json proposed snapshot) (r : DNReplica) :
    ((r.install json snapshot).restart json).running = false := by
  rw [install_eq_ended h]
  simp only [DNReplica.restart, DNReplica.ended, DNReplica.onSnapshotLoad,
    h.namenodesJson_copied, Option.getD_none]

theorem Recorded.copied {proposed : List (List Node)} {snapshot : DNSnapshot}
    (h : Recorded json proposed snapshot) : Recorded json proposed snapshot.copied := by
  refine ⟨h.files, fun text htext => ?_⟩
  rw [h.namenodesJson_copied] at htext
  cases htext

/-- Every entry of the log can be applied. -/
theorem exists_onApply (hjson : json.Lawful) {s : Membership ι} (hs : Invariant json s)
    {r : DNReplica} (ip : String) {n : ℕ} (hpos : 0 < n) (hn : r.applied + n ≤ s.log.length) :
    ∃ r', r.onApply json ip true ((s.log.drop r.applied).take n) = some r' ∧
      r'.running = r.running ∧ r'.applied = r.applied + n := by
  have hlen : s.log.length = s.proposed.length := by rw [hs.log, List.length_map]
  have hbatch : ((s.log.drop r.applied).take n).length = n := by
    rw [List.length_take, List.length_drop]
    omega
  have hne : ((s.proposed.drop r.applied).take n) ≠ [] := by
    rw [← List.length_pos_iff, List.length_take, List.length_drop]
    omega
  obtain ⟨nodes, hlast⟩ := Option.ne_none_iff_exists'.mp (List.getLast?_eq_none_iff.not.mpr hne)
  have hmem : nodes ∈ s.proposed :=
    List.mem_of_mem_drop (List.mem_of_mem_take (List.mem_of_getLast? hlast))
  have hserver : ∃ server, Server.onApply ip true r.server [nodes.map Node.unscanned] =
      some server := by
    simp only [Server.onApply, List.getLast?_singleton, Server.onNamenodesChange, if_true]
    split
    · split <;> exact ⟨_, rfl⟩
    · exact ⟨_, rfl⟩
  obtain ⟨server, hserver⟩ := hserver
  rw [DNReplica.onApply, hbatch, hs.log, getLast?_batch, hlast]
  simp only [Option.map_some, readNodes_nodesJson hjson (hs.ports nodes hmem), hserver]
  exact ⟨_, rfl, rfl, rfl⟩

theorem agrees_of_onApply (hjson : json.Lawful) {s : Membership ι} (hs : Invariant json s)
    {i : ι} {n : ℕ} {starts : Bool} {r' : DNReplica}
    (hn : (s.replica i).applied + n ≤ s.log.length)
    (h : (s.replica i).onApply json (myIp i) starts ((s.log.drop (s.replica i).applied).take n) =
      some r') :
    Agrees s.proposed r'.applied r'.server.namenodeList ∧
      r'.snapshot = (s.replica i).snapshot := by
  have hlen : s.log.length = s.proposed.length := by rw [hs.log, List.length_map]
  have hbatch : ((s.log.drop (s.replica i).applied).take n).length = n := by
    rw [List.length_take, List.length_drop]
    omega
  simp only [DNReplica.onApply, hbatch] at h
  rw [hs.log, getLast?_batch] at h
  cases hlast : ((s.proposed.drop (s.replica i).applied).take n).getLast? with
  | none => simp [hlast] at h
  | some nodes =>
    have hmem : nodes ∈ s.proposed :=
      List.mem_of_mem_drop (List.mem_of_mem_take (List.mem_of_getLast? hlast))
    simp only [hlast, Option.map_some, readNodes_nodesJson hjson (hs.ports nodes hmem)] at h
    obtain ⟨server, hserver, rfl⟩ := Option.map_eq_some_iff.mp h
    obtain ⟨nn, -, rfl⟩ := Option.map_eq_some_iff.mp hserver
    refine ⟨⟨hlen ▸ hn, ?_⟩, rfl⟩
    rw [listAt_batch hlast]
    exact address_unscanned nodes

variable [DecidableEq ι]

theorem replica_setReplica (s : Membership ι) (i : ι) (r : DNReplica) :
    (s.setReplica i r).replica i = r := if_pos rfl

theorem replica_setReplica_of_ne (s : Membership ι) {i j : ι} (r : DNReplica) (hne : j ≠ i) :
    (s.setReplica i r).replica j = s.replica j := if_neg hne

/-- One datanode goes on. -/
theorem Invariant.setReplica {s : Membership ι} (hs : Invariant json s) {i : ι} {r : DNReplica}
    (hlist : Agrees s.proposed r.applied r.server.namenodeList)
    (hsnapshot : ∀ snapshot, r.snapshot = some snapshot → Recorded json s.proposed snapshot) :
    Invariant json (s.setReplica i r) := by
  refine ⟨hs.log, hs.ports, fun j => ?_, fun j snapshot => ?_⟩
  · by_cases hj : j = i
    · rw [show (s.setReplica i r).replica j = r from if_pos hj]
      exact hlist
    · rw [show (s.setReplica i r).replica j = s.replica j from if_neg hj]
      exact hs.list j
  · by_cases hj : j = i
    · rw [show (s.setReplica i r).replica j = r from if_pos hj]
      exact hsnapshot snapshot
    · rw [show (s.setReplica i r).replica j = s.replica j from if_neg hj]
      exact hs.snapshot j snapshot

/-- The process of a datanode ends. -/
theorem Invariant.ended {s : Membership ι} (hs : Invariant json s) {i : ι} {r : DNReplica}
    (hsnapshot : ∀ snapshot, r.snapshot = some snapshot → Recorded json s.proposed snapshot) :
    Invariant json (s.setReplica i r.ended) :=
  hs.setReplica (agrees_nil _) hsnapshot

/-- What a step can do: one case for each event, with its guards. -/
inductive Stepped (json : JsonLibrary) (myIp : ι → String) (s : Membership ι) :
    MembershipEvent ι → Membership ι → Prop
  | propose (namenodes : List Node) (ports : ∀ node ∈ namenodes, IsInt node.port) :
      Stepped json myIp s (.propose namenodes ports)
        { s with log := s.log ++ [nodesJson json namenodes],
                 proposed := s.proposed ++ [namenodes] }
  | apply {i : ι} {n : ℕ} {starts : Bool} (hrunning : (s.replica i).running = true)
      (hn : (s.replica i).applied + n ≤ s.log.length) :
      Stepped json myIp s (.apply i n starts)
        (s.setReplica i (((s.replica i).onApply json (myIp i) starts
          ((s.log.drop (s.replica i).applied).take n)).getD (s.replica i).ended))
  | save {i : ι} (hrunning : (s.replica i).running = true) :
      Stepped json myIp s (.save i) (s.setReplica i ((s.replica i).onSnapshotSave json))
  | install {i owner : ι} {snapshot : DNSnapshot} (hrunning : (s.replica i).running = true)
      (hsnapshot : (s.replica owner).snapshot = some snapshot) :
      Stepped json myIp s (.install i owner)
        (s.setReplica i ((s.replica i).install json snapshot))
  | restart (i : ι) :
      Stepped json myIp s (.restart i) (s.setReplica i ((s.replica i).restart json))
  | scan {i : ι} {j : ℕ} {nodeStatus : NodeStatus} (hrunning : (s.replica i).running = true) :
      Stepped json myIp s (.scan i j nodeStatus)
        (s.setReplica i ((s.replica i).scan j nodeStatus))

theorem stepped_of_step {s s' : Membership ι} {ev : MembershipEvent ι}
    (h : step json myIp s ev = some s') : Stepped json myIp s ev s' := by
  cases ev with
  | propose namenodes ports =>
    rw [← Option.some.inj h]
    exact .propose namenodes ports
  | apply i n starts =>
    obtain ⟨⟨hrunning, hn⟩, heq⟩ := Option.ite_none_right_eq_some.mp h
    rw [← Option.some.inj heq]
    exact .apply hrunning hn
  | save i =>
    obtain ⟨hrunning, heq⟩ := Option.ite_none_right_eq_some.mp h
    rw [← Option.some.inj heq]
    exact .save hrunning
  | install i owner =>
    simp only [step] at h
    split at h
    · cases h
    · rename_i snapshot hsnapshot
      obtain ⟨hrunning, heq⟩ := Option.ite_none_right_eq_some.mp h
      rw [← Option.some.inj heq]
      exact .install hrunning hsnapshot
  | restart i =>
    rw [← Option.some.inj h]
    exact .restart i
  | scan i j nodeStatus =>
    obtain ⟨hrunning, heq⟩ := Option.ite_none_right_eq_some.mp h
    rw [← Option.some.inj heq]
    exact .scan hrunning

theorem invariant_step (hjson : json.Lawful) (hdump : ∀ v, json.dump v ≠ "")
    {s s' : Membership ι} {ev : MembershipEvent ι} (hs : Invariant json s)
    (h : step json myIp s ev = some s') : Invariant json s' := by
  cases stepped_of_step h with
  | propose namenodes ports =>
    refine ⟨?_, fun nodes hnodes => ?_, fun i => (hs.list i).append namenodes,
      fun i snapshot hsnapshot => (hs.snapshot i snapshot hsnapshot).append namenodes⟩
    · simp only [hs.log, List.map_append, List.map_singleton]
    · rcases List.mem_append.mp hnodes with hnodes | hnodes
      · exact hs.ports nodes hnodes
      · rw [List.mem_singleton.mp hnodes]
        exact ports
  | @apply i n starts _ hn =>
    cases hr : (s.replica i).onApply json (myIp i) starts
        ((s.log.drop (s.replica i).applied).take n) with
    | none => exact hs.ended (hs.snapshot i)
    | some r =>
      obtain ⟨hlist, hkept⟩ := agrees_of_onApply hjson hs hn hr
      exact hs.setReplica hlist (hkept ▸ hs.snapshot i)
  | @save i =>
    refine hs.setReplica (hs.list i) fun snapshot hsnapshot => ?_
    rw [← Option.some.inj hsnapshot]
    refine ⟨rfl, fun text htext => ?_⟩
    rw [← Option.some.inj htext]
    exact ⟨_, rfl, hs.list i⟩
  | @install i owner snapshot _ hsnapshot =>
    have hrecorded := hs.snapshot owner snapshot hsnapshot
    rw [install_eq_ended hrecorded]
    refine hs.ended fun snapshot' hsnapshot' => ?_
    rw [← Option.some.inj hsnapshot']
    exact hrecorded.copied
  | restart i =>
    rw [DNReplica.restart]
    split
    · exact hs.setReplica (agrees_nil _) (by simp [DNReplica.init])
    · rename_i snapshot hsnapshot
      cases hr : ({ DNReplica.init with
          snapshot := (s.replica i).snapshot } : DNReplica).onSnapshotLoad json snapshot with
      | none => exact hs.ended (hs.snapshot i)
      | some r =>
        obtain ⟨hlist, hkept⟩ :=
          agrees_of_onSnapshotLoad hjson hdump hs (hs.snapshot i snapshot hsnapshot) hr
        exact hs.setReplica hlist (hkept ▸ hs.snapshot i)
  | @scan i j nodeStatus =>
    refine hs.setReplica ((hs.list i).of_map ?_) (hs.snapshot i)
    exact address_modify j nodeStatus _

/-- In every run: after `n` entries of the log, a datanode has the list of the last of them,
whatever the batches were and however often it has started again.  So any two datanodes at one
place of the log have the same list, and a datanode that runs can apply every entry that is left.
A datanode that installs a snapshot does not run any more, and cannot be started again. -/
theorem namenodeList_of_reachable (hjson : json.Lawful) (hdump : ∀ v, json.dump v ≠ "")
    {s : Membership ι} (h : Runs.Reachable (step json myIp) init s) :
    (∀ i, Agrees s.proposed (s.replica i).applied (s.replica i).server.namenodeList) ∧
      (∀ i j, (s.replica i).applied = (s.replica j).applied →
        (s.replica i).server.namenodeList.map Node.address =
          (s.replica j).server.namenodeList.map Node.address) ∧
      (∀ i n, (s.replica i).running = true → 0 < n →
        (s.replica i).applied + n ≤ s.log.length →
          ∃ s', step json myIp s (.apply i n true) = some s' ∧
            (s'.replica i).running = true ∧
            (s'.replica i).applied = (s.replica i).applied + n) ∧
      ∀ i owner s', step json myIp s (.install i owner) = some s' →
        (s'.replica i).running = false ∧ ∀ s'', step json myIp s' (.restart i) = some s'' →
          (s''.replica i).running = false := by
  have hs : Invariant json s :=
    h.invariant invariant_init fun _ _ _ _ hs _ hstep => invariant_step hjson hdump hs hstep
  refine ⟨hs.list, fun i j heq => ?_, fun i n hrunning hpos hn => ?_, fun i owner s' hstep => ?_⟩
  · have hj := hs.list j
    rw [← heq] at hj
    exact (hs.list i).symm_of_applied hj
  · obtain ⟨r', hr', hrunning', happlied⟩ := exists_onApply hjson hs (myIp i) hpos hn
    refine ⟨s.setReplica i r', ?_, ?_, ?_⟩
    · rw [step, if_pos ⟨hrunning, hn⟩, hr', Option.getD_some]
    · rw [replica_setReplica, hrunning', hrunning]
    · rw [replica_setReplica, happlied]
  · cases stepped_of_step hstep with
    | @install _ _ snapshot _ hsnapshot =>
      have hrecorded := hs.snapshot owner snapshot hsnapshot
      refine ⟨?_, fun s'' hrestart => ?_⟩
      · rw [replica_setReplica, install_eq_ended hrecorded]
        rfl
      · rw [← Option.some.inj hrestart, replica_setReplica, replica_setReplica]
        exact running_restart_install hrecorded _

theorem dump_ne_empty (v : Value) : jsonTexts.dump v ≠ "" := by
  intro h
  obtain ⟨c, cs, hcons, -⟩ := Json.dumpValue_eq_cons v
  have htext : String.ofList (Json.dumpValue v) = "" := h
  rw [hcons] at htext
  exact absurd (congrArg String.toList htext) (by simp)

/-- Two lists.  One datanode starts again between them from its snapshot, and another one installs
that. -/
def twoLists : List (MembershipEvent (Fin 3)) :=
  [.propose [⟨"192.168.88.112", 8000, .online⟩, ⟨"192.168.88.113", 8000, .online⟩]
      (by simp [IsInt]),
    .apply 0 1 true, .scan 0 0 .offline, .save 0, .install 2 0, .restart 2,
    .propose [⟨"192.168.88.113", 8000, .online⟩] (by simp [IsInt]),
    .restart 0, .apply 0 1 true, .apply 1 2 true]

theorem namenodeList_twoLists :
    ∃ s : Membership (Fin 3), Runs.Reachable (step jsonTexts fun i =>
        if i = 0 then "192.168.88.112" else "192.168.88.113") init s ∧
      (s.replica 0).applied = 2 ∧ (s.replica 1).applied = 2 ∧ (s.replica 2).running = false ∧
      (s.replica 0).server.namenodeList.map Node.address =
        (s.replica 1).server.namenodeList.map Node.address := by
  have hrun : ∃ s : Membership (Fin 3), Runs.Reachable (step jsonTexts fun i =>
        if i = 0 then "192.168.88.112" else "192.168.88.113") init s ∧
      decide ((s.replica 0).applied = 2 ∧ (s.replica 1).applied = 2 ∧
        (s.replica 2).running = false) = true :=
    Runs.exists_reachable_of_any twoLists (by decide +kernel)
  obtain ⟨s, hreach, htest⟩ := hrun
  obtain ⟨hfirst, hsecond, hended⟩ := of_decide_eq_true htest
  exact ⟨s, hreach, hfirst, hsecond, hended, (namenodeList_of_reachable jsonTexts_lawful
    dump_ne_empty hreach).2.1 0 1 (hfirst.trans hsecond.symm)⟩

end Membership

end Spkdfs
