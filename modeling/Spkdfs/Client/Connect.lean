import Mathlib.Data.List.Nodup
import Spkdfs.Client.Startup
import Spkdfs.Common.Nodes
import Spkdfs.Node.Failover

/-!
# How a client finds its namenodes

The constructor of `SDK` in `client/sdk.cpp`.  It asks a datanode for the namenodes and chooses one
of them, the slave.  The slave says who the master is.  When the slave is the master itself, it is
taken off the list, and the constructor chooses again.

Both choices are `rand() % namenodes.size()`, and nothing tests the size: with a single namenode
that is the master, the second choice divides by zero.  `connects_iff_of_settled` puts this
together with `FUSE::init` and with the failover of the namenodes: a client can be started in a
settled cluster if and only if there are two namenodes in it, or the only one takes another
address for the master.

A datanode writes its list to the log before it answers, and `to_string` of an empty list takes
the last character off an empty text.
-/

namespace Spkdfs

/-- `DatanodeServiceImpl::get_namenodes`. -/
def DatanodeServiceImpl.getNamenodes (namenodeList : List Node) : Except Abrupt (List String) := do
  let _ ← nodesToText namenodeList
  return namenodeList.map Node.toText

/-- `RaftNN::leader`. -/
def RaftNN.leader (nnPort : Int) (myIp : String) (leaderId : Option Node) : Node :=
  match leaderId with
  | none => ⟨myIp, nnPort, .unknown⟩
  | some node => node

/-- `NamenodeServiceImpl::get_master`. -/
def NamenodeServiceImpl.getMaster (nnPort : Int) (myIp : String) (leaderId : Option Node) :
    Except Exception String :=
  let leader := RaftNN.leader nnPort myIp leaderId
  if leader.valid = false then .error (.runtime "leader not ready")
  else .ok leader.toText

/-- `check_response` of the client. -/
def checkResponse {α : Type} (response : Except Exception α) : Except Abrupt α :=
  match response with
  | .ok a => .ok a
  | .error e => .error (.thrown (.message e.errorMessage))

namespace SDK

/-- The addresses that the channels of a client are made for. -/
structure Channels where
  nnMaster : String
  nnSlave : String
  deriving DecidableEq

/-- `SDK::get_slave_namenode`. -/
def getSlaveNamenode (rand : ℕ) (namenodes : List String) : Except Abrupt String :=
  match namenodes[rand % namenodes.length]? with
  | none => .error .undefined
  | some namenode => .ok namenode

/-- `channel.Init`. -/
def initChannel (inits : String → Bool) (what address : String) : Except Abrupt Unit :=
  if inits address then .ok () else .error (.thrown (.runtime (what ++ " channel init failed")))

/-- The constructor.  `rand` and `rand'` are the numbers of the two choices. -/
def new (getNamenodes : String → Except Abrupt (List String))
    (getMaster : String → Except Abrupt String) (inits : String → Bool) (rand rand' : ℕ)
    (datanode namenode : String) : Except Abrupt Channels := do
  let namenodes ← getNamenodes datanode
  let slave ← if namenode = "" then getSlaveNamenode rand namenodes else .ok namenode
  initChannel inits "namenode_slave" slave
  let master ← getMaster slave
  initChannel inits "namenode_master" master
  if master = slave then
    let namenodes := namenodes.filter (· != slave)
    let slave ← getSlaveNamenode rand' namenodes
    initChannel inits "namenode_slave" slave
    return ⟨master, slave⟩
  else return ⟨master, slave⟩

/-! ## The constructor alone -/

theorem getSlaveNamenode_nil (rand : ℕ) : getSlaveNamenode rand [] = .error .undefined := rfl

theorem getSlaveNamenode_of_ne_nil (rand : ℕ) {namenodes : List String} (h : namenodes ≠ []) :
    ∃ slave ∈ namenodes, getSlaveNamenode rand namenodes = .ok slave := by
  have hlt : rand % namenodes.length < namenodes.length :=
    Nat.mod_lt _ (List.length_pos_iff.mpr h)
  refine ⟨namenodes[rand % namenodes.length], List.getElem_mem hlt, ?_⟩
  rw [getSlaveNamenode, List.getElem?_eq_getElem hlt]

theorem initChannel_of_inits {inits : String → Bool} {what address : String}
    (h : inits address = true) : initChannel inits what address = .ok () := if_pos h

/-- The constructor behind its first choice. -/
theorem new_of_slave {getNamenodes : String → Except Abrupt (List String)}
    {getMaster : String → Except Abrupt String} {inits : String → Bool} {rand : ℕ}
    {datanode slave master : String} {namenodes : List String}
    (hlist : getNamenodes datanode = .ok namenodes)
    (hchoice : getSlaveNamenode rand namenodes = .ok slave) (hinit : inits slave = true)
    (hasked : getMaster slave = .ok master) (hinitMaster : inits master = true) (rand' : ℕ) :
    new getNamenodes getMaster inits rand rand' datanode "" =
      if master = slave then
        (getSlaveNamenode rand' (namenodes.filter (· != slave))).bind fun next =>
          (initChannel inits "namenode_slave" next).bind fun _ => .ok ⟨master, next⟩
      else .ok ⟨master, slave⟩ := by
  rw [new, hlist]
  show (getSlaveNamenode rand namenodes >>= _) = _
  rw [hchoice]
  show (initChannel inits "namenode_slave" slave >>= _) = _
  rw [initChannel_of_inits hinit]
  show (getMaster slave >>= _) = _
  rw [hasked]
  show (initChannel inits "namenode_master" master >>= _) = _
  rw [initChannel_of_inits hinitMaster]
  rfl

/-- With all namenodes answering, the constructor needs two of them, or one that is not the
master. -/
theorem new_of_answers {getNamenodes : String → Except Abrupt (List String)}
    {getMaster : String → Except Abrupt String} {inits : String → Bool} {datanode : String}
    {namenodes : List String} (hnodup : namenodes.Nodup)
    (hlist : getNamenodes datanode = .ok namenodes)
    (hmaster : ∀ slave ∈ namenodes, ∃ master, getMaster slave = .ok master ∧
      inits slave = true ∧ inits master = true) (rand rand' : ℕ) :
    (2 ≤ namenodes.length ∨ (∃ slave, namenodes = [slave] ∧ getMaster slave ≠ .ok slave) →
        ∃ channels, new getNamenodes getMaster inits rand rand' datanode "" = .ok channels ∧
          channels.nnSlave ∈ namenodes ∧ channels.nnMaster ≠ channels.nnSlave ∧
          ∃ slave ∈ namenodes, getMaster slave = .ok channels.nnMaster) ∧
      (¬ (2 ≤ namenodes.length ∨ ∃ slave, namenodes = [slave] ∧ getMaster slave ≠ .ok slave) →
        new getNamenodes getMaster inits rand rand' datanode "" = .error .undefined) := by
  by_cases hnil : namenodes = []
  · rw [hnil]
    refine ⟨?_, fun _ => ?_⟩
    · rintro (h | ⟨slave, h, -⟩)
      · exact absurd h (by simp)
      · cases h
    · rw [new, hlist, hnil]
      rfl
  obtain ⟨slave, hslave, hchoice⟩ := getSlaveNamenode_of_ne_nil rand hnil
  obtain ⟨master, hasked, hinit, hinitMaster⟩ := hmaster slave hslave
  rw [new_of_slave hlist hchoice hinit hasked hinitMaster]
  have hothers : (namenodes.filter (· != slave)).length + 1 = namenodes.length := by
    have hpos := List.length_pos_iff.mpr hnil
    rw [← hnodup.erase_eq_filter, List.length_erase_of_mem hslave]
    omega
  by_cases hsame : master = slave
  · rw [if_pos hsame]
    constructor
    · rintro (htwo | ⟨only, honly, hother⟩)
      · have hne : namenodes.filter (· != slave) ≠ [] := by
          rw [← List.length_pos_iff]
          omega
        obtain ⟨next, hnext, hchoice'⟩ := getSlaveNamenode_of_ne_nil rand' hne
        obtain ⟨hnextMem, hneq⟩ := List.mem_filter.mp hnext
        refine ⟨⟨master, next⟩, ?_, hnextMem, ?_, slave, hslave, hasked⟩
        · rw [hchoice']
          show (initChannel inits "namenode_slave" next).bind _ = _
          obtain ⟨_, -, hinitNext, -⟩ := hmaster next hnextMem
          rw [initChannel_of_inits hinitNext]
          rfl
        · rw [hsame]
          exact fun h => bne_iff_ne.mp hneq h.symm
      · rw [honly, List.mem_singleton] at hslave
        rw [← hslave, hasked, hsame] at hother
        exact absurd rfl hother
    · intro hone
      have hnone : namenodes.filter (· != slave) = [] := by
        rw [← List.length_eq_zero_iff]
        have := List.length_pos_iff.mpr hnil
        omega
      rw [hnone, getSlaveNamenode_nil]
      rfl
  · rw [if_neg hsame]
    refine ⟨fun _ => ⟨⟨master, slave⟩, rfl, hslave, hsame, slave, hslave, hasked⟩,
      fun hone => absurd ?_ hone⟩
    -- The only namenode takes another one for the master.
    rcases Nat.lt_or_ge namenodes.length 2 with hlt | hge
    · have hlength : namenodes.length = 1 := by
        have := List.length_pos_iff.mpr hnil
        omega
      obtain ⟨only, honly⟩ := List.length_eq_one_iff.mp hlength
      have hslave' := hslave
      rw [honly, List.mem_singleton] at hslave'
      refine Or.inr ⟨slave, hslave' ▸ honly, ?_⟩
      rw [hasked]
      exact fun h => hsame (Except.ok.inj h)
    · exact Or.inl hge

/-! ## A client of a cluster -/

section Cluster

open Failover

variable (config : DatanodeConfig) (up : String → Bool) (s : Membership String)
  (leaderId : String → Option Node) (inits : String → Bool) (rand rand' : ℕ)

/-- The datanode at an address, if its process runs. -/
def datanodeAt (address : String) : Option Node :=
  config.datanodeList.find? fun node => decide (node.toText = address) && up node.ip

/-- The namenode at an address, if it runs. -/
def namenodeAt (address : String) : Option Node :=
  (config.nodes.map fun node => { node with port := config.nnPort }).find? fun node =>
    decide (node.toText = address) && answersNn config up s node

/-- The answer of a datanode to `get_namenodes`. -/
def askNamenodes (datanode : String) : Except Abrupt (List String) :=
  match datanodeAt config up datanode with
  | none => .error (.thrown (.runtime "brpc not success"))
  | some node => DatanodeServiceImpl.getNamenodes (s.replica node.ip).server.namenodeList

/-- The answer of a namenode to `get_master`.  `leaderId` is what `leader_id` of braft answers on
each server. -/
def askMaster (namenode : String) : Except Abrupt String :=
  match namenodeAt config up s namenode with
  | none => .error (.thrown (.runtime "brpc not success"))
  | some node =>
    checkResponse (NamenodeServiceImpl.getMaster config.nnPort node.ip (leaderId node.ip))

/-- The leader that a namenode knows. -/
def knownLeader (node : Node) : Node := RaftNN.leader config.nnPort node.ip (leaderId node.ip)

/-- `FUSE::init` of a client that is started with a list of nodes. -/
def mount (nodes : List Node) : FUSE.InitResult (Except Abrupt Channels) :=
  FUSE.init
    (fun datanode => .ok (new (askNamenodes config up s) (askMaster config up s leaderId) inits
      rand rand' datanode ""))
    (fun p => nodes[p]?.any fun node => (datanodeAt config up node.toText).isSome) nodes

end Cluster

section Settled

open Failover

variable {config : DatanodeConfig} {json : JsonLibrary} {up : String → Bool}
  {s : Membership String} {namenodes : List Node} {leaderId : String → Option Node}
  {inits : String → Bool}

theorem toText_of_address {a b : Node} (h : a.address = b.address) : a.toText = b.toText := by
  have hip : a.ip = b.ip := congrArg Prod.fst h
  have hport : a.port = b.port := congrArg Prod.snd h
  rw [Node.toText, hip, hport]
  rfl

theorem map_toText_of_address {nodes nodes' : List Node}
    (h : nodes.map Node.address = nodes'.map Node.address) :
    nodes.map Node.toText = nodes'.map Node.toText := by
  have htext : Node.toText = (fun p : String × Int => p.1 ++ ":" ++ p.2.repr) ∘ Node.address := rfl
  rw [htext, ← List.map_map, h, List.map_map]

/-- Namenodes have different texts, since they have different ips and the same port. -/
theorem nodup_toText (h : config.Suits namenodes) : (namenodes.map Node.toText).Nodup := by
  have htext : namenodes.map Node.toText =
      (namenodes.map Node.ip).map fun ip => ip ++ (":" ++ config.nnPort.repr) := by
    rw [List.map_map]
    refine List.map_congr_left fun node hnode => ?_
    rw [Node.toText, h.port node hnode, String.append_assoc]
    rfl
  rw [htext]
  refine h.distinct.map fun a b hab => ?_
  have hlist := congrArg String.toList hab
  simp only [String.toList_append] at hlist
  exact String.toList_inj.mp (List.append_cancel_right hlist)

theorem exists_datanodeAt {address : String} {node : Node}
    (h : datanodeAt config up address = some node) :
    node.ip ∈ config.nodes.map Node.ip ∧ up node.ip = true := by
  have hmem := List.mem_of_find?_eq_some h
  have htest := List.find?_some h
  rw [Bool.and_eq_true] at htest
  rw [← DatanodeConfig.map_ip_datanodeList]
  exact ⟨List.mem_map_of_mem hmem, htest.2⟩

/-- Texts with one port tell the ips. -/
theorem ip_of_toText {a b : Node} (hport : a.port = b.port) (h : a.toText = b.toText) :
    a.ip = b.ip := by
  rw [Node.toText, Node.toText, hport] at h
  have hlist := congrArg String.toList h
  simp only [String.toList_append, List.append_assoc] at hlist
  exact String.toList_inj.mp (List.append_cancel_right hlist)

/-- Every namenode of a settled cluster answers with the leader that it knows. -/
theorem askMaster_of_settled (hsuits : config.Suits namenodes)
    (hsettled : Settled config up json s namenodes) {node : Node} (hnode : node ∈ namenodes)
    (hvalid : (knownLeader config leaderId node).valid = true) :
    askMaster config up s leaderId node.toText =
      .ok (knownLeader config leaderId node).toText := by
  have hfound : ∃ found, namenodeAt config up s node.toText = some found := by
    rw [← Option.isSome_iff_exists, namenodeAt, List.find?_isSome]
    obtain ⟨server, hserver, hip⟩ := List.mem_map.mp (hsuits.known node hnode)
    have haddress : ({ server with port := config.nnPort } : Node).address = node.address := by
      show (server.ip, config.nnPort) = (node.ip, node.port)
      rw [hip, hsuits.port node hnode]
    refine ⟨{ server with port := config.nnPort }, List.mem_map_of_mem hserver, ?_⟩
    have hanswers : answersNn config up s { server with port := config.nnPort } = true := by
      have hsame := hsettled.answers node hnode
      rw [answersNn, hsuits.port node hnode] at hsame
      rw [answersNn]
      simpa [hip] using hsame
    rw [toText_of_address haddress, hanswers, Bool.and_true]
    exact decide_eq_true rfl
  obtain ⟨found, hfound⟩ := hfound
  have htest := List.find?_some hfound
  obtain ⟨server, -, rfl⟩ := List.mem_map.mp (List.mem_of_find?_eq_some hfound)
  rw [Bool.and_eq_true, decide_eq_true_eq] at htest
  have hip : server.ip = node.ip := ip_of_toText (a := { server with port := config.nnPort })
    (hsuits.port node hnode).symm htest.1
  rw [askMaster, hfound]
  show checkResponse (NamenodeServiceImpl.getMaster config.nnPort server.ip _) = _
  have hvalid : (RaftNN.leader config.nnPort node.ip (leaderId node.ip)).valid = true := hvalid
  rw [hip, NamenodeServiceImpl.getMaster]
  simp only [hvalid, Bool.true_eq_false, if_false]
  rfl

/-- The first node of the list that runs is the one of the SDK. -/
theorem exists_outcome_mount (s : Membership String) (leaderId : String → Option Node)
    (inits : String → Bool) (rand rand' : ℕ) {nodes : List Node}
    (hnodes : ∃ node ∈ nodes, (datanodeAt config up node.toText).isSome = true) :
    ∃ node : Node, ∃ server, datanodeAt config up node.toText = some server ∧
      (mount config up s leaderId inits rand rand' nodes).outcome =
        .ok (.ok (new (askNamenodes config up s) (askMaster config up s leaderId) inits rand rand'
          node.toText "")) := by
  let answers : ℕ → Bool := fun p =>
    nodes[p]?.any fun node => (datanodeAt config up node.toText).isSome
  have hsome : ∃ p, answers p = true := by
    obtain ⟨node, hnode, hsome⟩ := hnodes
    obtain ⟨p, hp⟩ := List.mem_iff_getElem?.mp hnode
    refine ⟨p, ?_⟩
    simp only [answers, hp, Option.any_some]
    exact hsome
  have hfirst := Nat.find_spec hsome
  have hbefore : ∀ i < Nat.find hsome, answers i = false := fun i hi => by
    simpa using Nat.find_min hsome hi
  obtain ⟨node, hget, hnode⟩ := (Option.any_eq_true _ _).mp hfirst
  obtain ⟨server, hserver⟩ := Option.isSome_iff_exists.mp hnode
  refine ⟨node, server, hserver, ?_⟩
  rw [mount, FUSE.init,
    FUSE.initLoop_of_first ⟨rfl, by simp⟩ (Nat.zero_le _) hget hfirst hbefore]

/-- A client is started with a list of nodes one of which runs, in a cluster behind a failover.
Each namenode knows a leader, whichever that is, and the channels can be made.  The client gets
the channels to a namenode and to another address that a namenode takes for the leader, if there
are two namenodes or the only one does not take itself for the leader, and it divides by zero
otherwise. -/
theorem connects_iff_of_settled (hjson : json.Lawful) (hdump : ∀ v, json.dump v ≠ "")
    (hreach : Failover.Reachable config json s) (hsettled : Settled config up json s namenodes)
    (hready : ∀ node ∈ namenodes, (knownLeader config leaderId node).valid = true ∧
      inits node.toText = true ∧ inits (knownLeader config leaderId node).toText = true)
    {nodes : List Node}
    (hnodes : ∃ node ∈ nodes, (datanodeAt config up node.toText).isSome = true) (rand rand' : ℕ) :
    ((2 ≤ config.expectedNn ∧ 2 ≤ upCount config up) ∨
        (∃ node, namenodes = [node] ∧ (knownLeader config leaderId node).toText ≠ node.toText) →
      ∃ channels,
        (mount config up s leaderId inits rand rand' nodes).outcome = .ok (.ok (.ok channels)) ∧
        channels.nnSlave ∈ namenodes.map Node.toText ∧ channels.nnMaster ≠ channels.nnSlave ∧
        ∃ node ∈ namenodes, channels.nnMaster = (knownLeader config leaderId node).toText) ∧
      (¬ ((2 ≤ config.expectedNn ∧ 2 ≤ upCount config up) ∨
          ∃ node, namenodes = [node] ∧ (knownLeader config leaderId node).toText ≠ node.toText) →
        (mount config up s leaderId inits rand rand' nodes).outcome =
          .ok (.ok (.error .undefined))) := by
  obtain ⟨node, server, hserver, hmount⟩ := exists_outcome_mount s leaderId inits rand rand' hnodes
  obtain ⟨hip, hup⟩ := exists_datanodeAt hserver
  have haddress := (hsettled.agrees server.ip hip hup).1
  have hsuits : config.Suits namenodes :=
    ((invariant_of_reachable hjson hdump hreach).suits server.ip).of_address haddress.symm
  have hask : askNamenodes config up s node.toText =
      DatanodeServiceImpl.getNamenodes (s.replica server.ip).server.namenodeList := by
    rw [askNamenodes, hserver]
  have hlength := hsettled.length
  rw [hmount]
  by_cases hnil : namenodes = []
  · have hempty : (s.replica server.ip).server.namenodeList = [] := by
      rw [hnil, List.map_nil, List.map_eq_nil_iff] at haddress
      exact haddress
    rw [hnil, List.length_nil] at hlength
    refine ⟨?_, fun _ => ?_⟩
    · rintro (h | ⟨only, honly, -⟩)
      · omega
      · rw [hnil] at honly
        cases honly
    · rw [new, hask, hempty]
      rfl
  · have hne : (s.replica server.ip).server.namenodeList ≠ [] := by
      intro hempty
      rw [hempty, List.map_nil] at haddress
      exact hnil (List.map_eq_nil_iff.mp haddress.symm)
    have hlist : askNamenodes config up s node.toText = .ok (namenodes.map Node.toText) := by
      rw [hask, DatanodeServiceImpl.getNamenodes, nodesToText, if_neg hne,
        ← map_toText_of_address haddress]
      rfl
    have hasked : ∀ node ∈ namenodes,
        askMaster config up s leaderId node.toText =
          .ok (knownLeader config leaderId node).toText := fun node hnode =>
      askMaster_of_settled hsuits hsettled hnode (hready node hnode).1
    have hmaster : ∀ slave ∈ namenodes.map Node.toText, ∃ master,
        askMaster config up s leaderId slave = .ok master ∧ inits slave = true ∧
          inits master = true := by
      intro slave hslave
      obtain ⟨member, hmember, rfl⟩ := List.mem_map.mp hslave
      exact ⟨_, hasked member hmember, (hready member hmember).2⟩
    have honly : (∃ slave, namenodes.map Node.toText = [slave] ∧
        askMaster config up s leaderId slave ≠ .ok slave) ↔
          ∃ node, namenodes = [node] ∧ (knownLeader config leaderId node).toText ≠ node.toText := by
      constructor
      · rintro ⟨slave, hmap, hother⟩
        obtain ⟨member, rfl, rfl⟩ := List.map_eq_singleton_iff.mp hmap
        rw [hasked member List.mem_cons_self] at hother
        exact ⟨member, rfl, fun h => hother (congrArg Except.ok h)⟩
      · rintro ⟨member, rfl, hother⟩
        refine ⟨member.toText, rfl, ?_⟩
        rw [hasked member List.mem_cons_self]
        exact fun h => hother (Except.ok.inj h)
    obtain ⟨hconnects, hundefined⟩ :=
      new_of_answers (nodup_toText hsuits) hlist hmaster rand rand'
    have htwo : 2 ≤ (namenodes.map Node.toText).length ↔
        2 ≤ config.expectedNn ∧ 2 ≤ upCount config up := by
      rw [List.length_map]
      omega
    rw [honly, htwo] at hconnects hundefined
    constructor
    · intro h
      obtain ⟨channels, hnew, hslave, hneq, slave, hmem, hchannel⟩ := hconnects h
      obtain ⟨member, hmember, rfl⟩ := List.mem_map.mp hmem
      rw [hasked member hmember] at hchannel
      exact ⟨channels, by rw [hnew], hslave, hneq, member, hmember,
        (Except.ok.inj hchannel).symm⟩
    · intro h
      rw [hundefined h]

/-- Three servers run, and two of them have become namenodes.  Each takes the first server for the
leader. -/
theorem connects_twoOfThree :
    let up : String → Bool := fun _ => true
    let leaderId : String → Option Node := fun ip =>
      if ip = "10.0.0.1" then none else some ⟨"10.0.0.1", 10001, .unknown⟩
    let inits : String → Bool := fun _ => true
    ∃ (s : Membership String) (namenodes : List Node) (channels : Channels),
      Failover.Reachable threeServers jsonTexts s ∧ Settled threeServers up jsonTexts s namenodes ∧
      (mount threeServers up s leaderId inits 0 0 [⟨"10.0.0.1", 10002, .unknown⟩]).outcome =
        .ok (.ok (.ok channels)) ∧
      channels.nnMaster = "10.0.0.1:10001" ∧ channels.nnMaster ≠ channels.nnSlave := by
  intro up leaderId inits
  obtain ⟨s₁, namenodes, -, hreach₁, -, ⟨s, hquiet, hcaught⟩, hsettled⟩ :=
    settled_behind_onLeaderStart jsonTexts_lawful Membership.dump_ne_empty
      (show Failover.Reachable threeServers jsonTexts Membership.init from .refl)
      (show Running up Membership.init from fun _ _ => rfl)
      (show "10.0.0.1" ∈ threeServers.nodes.map Node.ip by decide)
      (show up "10.0.0.1" = true from rfl) (by decide)
  have hreach := reachable_of_quiet hreach₁ hquiet
  have hs := hsettled s hquiet hcaught
  have hfirst : ∀ node, (knownLeader threeServers leaderId node).address = ("10.0.0.1", 10001) := by
    intro node
    by_cases hip : node.ip = "10.0.0.1"
    · rw [knownLeader, show leaderId node.ip = none from if_pos hip, hip]
      rfl
    · rw [knownLeader, show leaderId node.ip = some ⟨"10.0.0.1", 10001, .unknown⟩ from if_neg hip]
      rfl
  have hready : ∀ node ∈ namenodes, (knownLeader threeServers leaderId node).valid = true ∧
      inits node.toText = true ∧ inits (knownLeader threeServers leaderId node).toText = true := by
    intro node _
    have hip : (knownLeader threeServers leaderId node).ip = "10.0.0.1" :=
      congrArg Prod.fst (hfirst node)
    refine ⟨?_, rfl, rfl⟩
    rw [Node.valid, Node.sameIp, hip]
    decide
  obtain ⟨channels, hmount, -, hne, node, -, hmaster⟩ :=
    (connects_iff_of_settled jsonTexts_lawful Membership.dump_ne_empty hreach hs hready
      ⟨⟨"10.0.0.1", 10002, .unknown⟩, List.mem_singleton.mpr rfl, by decide⟩ 0 0).1
        (Or.inl (by decide))
  refine ⟨s, namenodes, channels, hreach, hs, hmount, ?_, hne⟩
  have htext : (⟨"10.0.0.1", 10001, .unknown⟩ : Node).toText = "10.0.0.1:10001" := by decide
  rw [hmaster, ← htext]
  exact toText_of_address (hfirst node)

end Settled

end SDK

end Spkdfs
