import Mathlib.Data.List.Perm.Basic
import Mathlib.Data.List.Nodup
import Spkdfs.Node.HealthCheck
import Spkdfs.Node.Membership
import Spkdfs.Node.Selection

/-!
# The failover of the namenodes

What `HealthCheck`, `Selection`, `Membership` and `Server` do together.  The timer of the leader
scans the namenodes.  When one of them does not answer, `on_nodes_loss` calls `on_leader_start`,
which proposes a list of nodes that answer.  Every datanode applies the list, and starts or
stops its namenode.

A datanode has the ip of its server as its name.  `Elected` is what the lists of the log are: one
that `on_leader_start` has computed, on any datanode and with any answers.

* `suits_of_reach`: what every list, on every datanode, has in every run.
* `respectsQuorum_of_reach`: as long as `expected_nn` nodes can be found, the count of
  `change_namenodes_list` is right.
* `settled_of_nnTimer`: one round of the timer is enough.  When the datanodes that run have
  applied the list, its namenodes run, and no further round proposes anything.
-/

namespace Spkdfs

/-- The flags that all datanodes share: `FLAGS_nodes` as `parse_nodes` reads it, the two ports, and
`FLAGS_expected_nn`. -/
structure DatanodeConfig where
  nodes : List Node
  dnPort : Int
  nnPort : Int
  expectedNn : ℕ
  distinct : (nodes.map Node.ip).Nodup
  nnPort_isInt : IsInt nnPort
  expectedNn_lt : expectedNn < 2 ^ 32

namespace DatanodeConfig

/-- `datanode_list` behind the constructor of `RaftDN`. -/
def datanodeList (config : DatanodeConfig) : List Node :=
  config.nodes.map fun node => { node with port := config.dnPort }

/-- What a list of namenodes has. -/
structure Suits (config : DatanodeConfig) (namenodes : List Node) : Prop where
  distinct : (namenodes.map Node.ip).Nodup
  known : ∀ node ∈ namenodes, node.ip ∈ config.nodes.map Node.ip
  port : ∀ node ∈ namenodes, node.port = config.nnPort
  length : namenodes.length ≤ config.expectedNn

variable {config : DatanodeConfig} {namenodes namenodes' : List Node}

theorem map_ip_datanodeList : config.datanodeList.map Node.ip = config.nodes.map Node.ip := by
  rw [datanodeList, List.map_map]
  rfl

theorem suits_nil : config.Suits [] := by
  constructor <;> simp

/-- The states of the nodes do not matter. -/
theorem Suits.of_address (h : config.Suits namenodes)
    (heq : namenodes'.map Node.address = namenodes.map Node.address) :
    config.Suits namenodes' := by
  have hips : namenodes'.map Node.ip = namenodes.map Node.ip := by
    have := congrArg (List.map Prod.fst) heq
    rwa [List.map_map, List.map_map] at this
  have hmem : ∀ node ∈ namenodes', ∃ node' ∈ namenodes, node'.address = node.address := by
    intro node hnode
    have hnode : node.address ∈ namenodes'.map Node.address := List.mem_map_of_mem hnode
    rw [heq] at hnode
    exact List.mem_map.mp hnode
  refine ⟨hips ▸ h.distinct, fun node hnode => ?_, fun node hnode => ?_, ?_⟩
  · have hnode : node.ip ∈ namenodes'.map Node.ip := List.mem_map_of_mem hnode
    rw [hips] at hnode
    obtain ⟨node', hnode', heq'⟩ := List.mem_map.mp hnode
    exact heq' ▸ h.known node' hnode'
  · obtain ⟨node', hnode', heq'⟩ := hmem node hnode
    exact (congrArg Prod.snd heq').symm.trans (h.port node' hnode')
  · have hlength := congrArg List.length hips
    rw [List.length_map, List.length_map] at hlength
    exact hlength ▸ h.length

theorem Suits.aliveCount_le (h : config.Suits namenodes) (scanNn : Node → Bool) :
    RaftDN.aliveCount scanNn namenodes ≤ config.expectedNn :=
  List.countP_le_length.trans h.length

/-- `on_leader_start` makes a list of that kind from one. -/
theorem Suits.proposal (h : config.Suits namenodes) (scanNn scanDn : Node → Bool) :
    config.Suits (RaftDN.proposal scanNn scanDn config.expectedNn config.nnPort namenodes
      config.datanodeList) := by
  have hdn : (config.datanodeList.map Node.ip).Nodup := map_ip_datanodeList ▸ config.distinct
  have hselection : RaftDN.Selection scanNn scanDn config.expectedNn config.nnPort namenodes
      config.datanodeList _ := RaftDN.selection_proposal h.distinct hdn
  refine ⟨hselection.distinct, fun p hp => ?_, fun p hp => ?_, ?_⟩
  · rcases hselection.sound p hp with ⟨node, hnode, _, hip, _⟩ | ⟨node, hnode, _, hip, _⟩
    · exact hip ▸ h.known node hnode
    · rw [hip, ← map_ip_datanodeList]
      exact List.mem_map_of_mem hnode
  · rcases hselection.sound p hp with ⟨node, hnode, _, _, hport⟩ | ⟨_, _, _, _, hport⟩
    · exact hport.trans (h.port node hnode)
    · exact hport
  · rw [hselection.length]
    have := h.aliveCount_le scanNn
    omega

end DatanodeConfig

namespace Failover

open Runs

variable (config : DatanodeConfig) (json : JsonLibrary)

/-- A list that is proposed is one of `on_leader_start`. -/
def Elected (s : Membership String) : MembershipEvent String → Prop
  | .propose namenodes _ => ∃ ip scanNn scanDn,
      RaftDN.onLeaderStart scanNn scanDn config.expectedNn config.nnPort
        (s.replica ip).server.namenodeList config.datanodeList = .ok namenodes
  | _ => True

/-- Whenever a list is proposed, `expected_nn` nodes answer. -/
def Ample (s : Membership String) : MembershipEvent String → Prop
  | .propose namenodes _ => ∃ ip scanNn scanDn,
      RaftDN.onLeaderStart scanNn scanDn config.expectedNn config.nnPort
        (s.replica ip).server.namenodeList config.datanodeList = .ok namenodes ∧
      config.expectedNn ≤ RaftDN.aliveCount scanNn (s.replica ip).server.namenodeList +
        RaftDN.candidateCount scanNn scanDn (s.replica ip).server.namenodeList
          config.datanodeList
  | _ => True

/-- One step of the datanodes, each with the ip of its server. -/
def step (s : Membership String) (ev : MembershipEvent String) : Option (Membership String) :=
  Membership.step json id s ev

/-- The states of the runs. -/
abbrev Reachable (s : Membership String) : Prop :=
  Reach (step json) (Elected config) Membership.init s

/-! ## What every list has -/

/-- The peers of a namenode are a list of the log. -/
def PeersLogged (s : Membership String) : Prop :=
  ∀ ip nn, (s.replica ip).server.nnRaftPtr = some nn →
    ∃ nodes ∈ s.proposed, nn.peers = nodes.map Node.unscanned ∧ Server.listed ip nodes = true

variable {config json} {s s' : Membership String} {ev : MembershipEvent String}

theorem elected_of_ample (h : Ample config s ev) : Elected config s ev := by
  cases ev with
  | propose namenodes ports =>
    obtain ⟨ip, scanNn, scanDn, hstart, _⟩ := h
    exact ⟨ip, scanNn, scanDn, hstart⟩
  | _ => trivial

theorem listed_eq_true {ip : String} {nodes : List Node} :
    Server.listed ip nodes = true ↔ ip ∈ nodes.map Node.ip := by
  simp [Server.listed]

theorem map_ip_unscanned (nodes : List Node) :
    (nodes.map Node.unscanned).map Node.ip = nodes.map Node.ip := by
  rw [List.map_map]
  rfl

/-- The namenode of a datanode behind a batch. -/
theorem server_of_onApply (hjson : json.Lawful) (hs : Membership.Invariant json s) {ip : String}
    {n : ℕ} {starts : Bool} {r : DNReplica} (hn : (s.replica ip).applied + n ≤ s.log.length)
    (h : (s.replica ip).onApply json ip starts ((s.log.drop (s.replica ip).applied).take n) =
      some r) :
    r.applied = (s.replica ip).applied + n ∧
      ∃ nodes ∈ s.proposed, r.server = Server.target ip (nodes.map Node.unscanned) := by
  have hbatch : ((s.log.drop (s.replica ip).applied).take n).length = n := by
    rw [List.length_take, List.length_drop]
    omega
  unfold DNReplica.onApply at h
  rw [hbatch] at h
  rw [hs.log, Membership.getLast?_batch] at h
  cases hlast : ((s.proposed.drop (s.replica ip).applied).take n).getLast? with
  | none => simp [hlast] at h
  | some nodes =>
    have hmem : nodes ∈ s.proposed :=
      List.mem_of_mem_drop (List.mem_of_mem_take (List.mem_of_getLast? hlast))
    simp only [hlast, Option.map_some, readNodes_nodesJson hjson (hs.ports nodes hmem)] at h
    obtain ⟨server, hserver, rfl⟩ := Option.map_eq_some_iff.mp h
    obtain ⟨namenodes, hsingle, rfl⟩ := Server.onApply_eq_some hserver
    rw [List.getLast?_singleton, Option.some.injEq] at hsingle
    exact ⟨rfl, nodes, hmem, by rw [hsingle]⟩

/-- What a step means for one datanode. -/
inductive Change (s s' : Membership String) (ip : String) : MembershipEvent String → Prop
  | kept {ev : MembershipEvent String} (hr : s'.replica ip = s.replica ip) : Change s s' ip ev
  | applied {n : ℕ} {starts : Bool} (hn : (s.replica ip).applied + n ≤ s.log.length)
      (happlied : (s'.replica ip).applied = (s.replica ip).applied + n)
      (hserver : ∃ nodes ∈ s.proposed,
        (s'.replica ip).server = Server.target ip (nodes.map Node.unscanned)) :
      Change s s' ip (.apply ip n starts)
  | ended {ev : MembershipEvent String} (happlied : (s'.replica ip).applied = 0)
      (hptr : (s'.replica ip).server.nnRaftPtr = none) : Change s s' ip ev
  | saved (hserver : (s'.replica ip).server = (s.replica ip).server)
      (happlied : (s'.replica ip).applied = (s.replica ip).applied) : Change s s' ip (.save ip)
  | restarted (hptr : (s'.replica ip).server.nnRaftPtr = none) : Change s s' ip (.restart ip)
  | scanned {j : ℕ} {nodeStatus : NodeStatus}
      (hr : s'.replica ip = (s.replica ip).scan j nodeStatus) :
      Change s s' ip (.scan ip j nodeStatus)

theorem nnRaftPtr_of_onSnapshotLoad {r r' : DNReplica} {snapshot : DNSnapshot}
    (h : r.onSnapshotLoad json snapshot = some r') : r'.server.nnRaftPtr = r.server.nnRaftPtr := by
  unfold DNReplica.onSnapshotLoad at h
  split at h
  · cases h
  · split at h
    · rw [← Option.some.inj h]
      rfl
    · split at h
      · cases h
      · rw [← Option.some.inj h]
        rfl

/-- No namenode runs behind a start. -/
theorem nnRaftPtr_restart (r : DNReplica) : (r.restart json).server.nnRaftPtr = none := by
  unfold DNReplica.restart
  split
  · rfl
  · rename_i snapshot _
    cases hr : ({ DNReplica.init with
        snapshot := r.snapshot } : DNReplica).onSnapshotLoad json snapshot with
    | none => rfl
    | some r' => exact nnRaftPtr_of_onSnapshotLoad hr

/-- A step is one of those for the datanode that it is about, and none for the others. -/
theorem change_of_step (hjson : json.Lawful) (hs : Membership.Invariant json s)
    (h : step json s ev = some s') (ip : String) : Change s s' ip ev := by
  cases Membership.stepped_of_step h with
  | propose namenodes ports => exact .kept rfl
  | @apply i n starts _ hn =>
    by_cases hi : ip = i
    · subst hi
      cases hr : (s.replica ip).onApply json (id ip) starts
          ((s.log.drop (s.replica ip).applied).take n) with
      | none =>
        refine .ended ?_ ?_ <;> (rw [Membership.replica_setReplica]; rfl)
      | some r =>
        obtain ⟨happlied, hserver⟩ := server_of_onApply hjson hs hn hr
        refine .applied hn ?_ ?_
        · rw [Membership.replica_setReplica]
          exact happlied
        · rw [Membership.replica_setReplica]
          exact hserver
    · exact .kept (Membership.replica_setReplica_of_ne s _ hi)
  | @save i =>
    by_cases hi : ip = i
    · subst hi
      refine .saved ?_ ?_ <;> (rw [Membership.replica_setReplica]; rfl)
    · exact .kept (Membership.replica_setReplica_of_ne s _ hi)
  | @install i owner snapshot _ hsnapshot =>
    by_cases hi : ip = i
    · subst hi
      rw [Membership.install_eq_ended (hs.snapshot owner snapshot hsnapshot)]
      refine .ended ?_ ?_ <;> (rw [Membership.replica_setReplica]; rfl)
    · exact .kept (Membership.replica_setReplica_of_ne s _ hi)
  | restart i =>
    by_cases hi : ip = i
    · subst hi
      refine .restarted ?_
      rw [Membership.replica_setReplica]
      exact nnRaftPtr_restart _
    · exact .kept (Membership.replica_setReplica_of_ne s _ hi)
  | @scan i j nodeStatus =>
    by_cases hi : ip = i
    · subst hi
      exact .scanned (Membership.replica_setReplica s ip _)
    · exact .kept (Membership.replica_setReplica_of_ne s _ hi)

theorem replica_of_apply {i ip : String} {n : ℕ} {starts : Bool}
    (h : step json s (.apply i n starts) = some s') (hne : ip ≠ i) :
    s'.replica ip = s.replica ip := by
  cases Membership.stepped_of_step h with
  | apply => exact Membership.replica_setReplica_of_ne s _ hne

/-- The lists that were proposed, behind a step. -/
theorem proposed_of_step (h : step json s ev = some s') :
    s'.proposed = s.proposed ∨ ∃ namenodes ports, ev = .propose namenodes ports ∧
      s'.proposed = s.proposed ++ [namenodes] := by
  cases Membership.stepped_of_step h with
  | propose namenodes ports => exact Or.inr ⟨namenodes, ports, rfl, rfl⟩
  | apply | save | install | restart | scan => exact Or.inl rfl

/-- The pointer to the namenode stays, is empty, or is the one for a list of the log. -/
theorem Change.nnRaftPtr {ip : String} (h : Change s s' ip ev) :
    (s'.replica ip).server.nnRaftPtr = (s.replica ip).server.nnRaftPtr ∨
      (s'.replica ip).server.nnRaftPtr = none ∨
      ∃ nodes ∈ s.proposed,
        (s'.replica ip).server = Server.target ip (nodes.map Node.unscanned) := by
  cases h with
  | kept hr => exact Or.inl (by rw [hr])
  | applied _ _ hserver => exact Or.inr (Or.inr hserver)
  | ended _ hptr => exact Or.inr (Or.inl hptr)
  | saved hserver _ => exact Or.inl (by rw [hserver])
  | restarted hptr => exact Or.inr (Or.inl hptr)
  | scanned hr =>
    rw [hr]
    exact Or.inl rfl

/-- A list that is proposed is the one without the batches. -/
theorem onLeaderStart_ok {scanNn scanDn : Node → Bool} {namenodes proposed : List Node}
    (h : RaftDN.onLeaderStart scanNn scanDn config.expectedNn config.nnPort namenodes
      config.datanodeList = .ok proposed) :
    proposed ≠ [] ∧ proposed =
      RaftDN.proposal scanNn scanDn config.expectedNn config.nnPort namenodes
        config.datanodeList := by
  rw [RaftDN.onLeaderStart_eq] at h
  split at h
  · cases h
  · rename_i hne
    obtain rfl := Except.ok.inj h
    exact ⟨hne, rfl⟩

/-- The invariant of all runs. -/
structure Invariant (config : DatanodeConfig) (json : JsonLibrary) (s : Membership String) :
    Prop where
  membership : Membership.Invariant json s
  proposed : ∀ nodes ∈ s.proposed, nodes ≠ [] ∧ config.Suits nodes
  peers : PeersLogged s

/-- The list of a datanode is empty or one of the log. -/
theorem Invariant.suits (hs : Invariant config json s) (ip : String) :
    config.Suits (s.replica ip).server.namenodeList := by
  have hagrees := hs.membership.list ip
  have hlist : config.Suits (Membership.listAt s.proposed (s.replica ip).applied) := by
    rcases Membership.listAt_cases s.proposed (s.replica ip).applied with hnil | hmem
    · exact hnil ▸ DatanodeConfig.suits_nil
    · exact (hs.proposed _ hmem).2
  exact hlist.of_address hagrees.address

theorem peersLogged_of_step (hjson : json.Lawful) (hs : Invariant config json s)
    (h : step json s ev = some s') : PeersLogged s' := by
  intro ip nn hnn
  have hmono : ∀ nodes ∈ s.proposed, nodes ∈ s'.proposed := by
    intro nodes hnodes
    rcases proposed_of_step h with heq | ⟨_, _, _, heq⟩
    · exact heq ▸ hnodes
    · rw [heq]
      exact List.mem_append_left _ hnodes
  rcases (change_of_step hjson hs.membership h ip).nnRaftPtr with heq | heq | ⟨nodes, hmem, heq⟩
  · rw [heq] at hnn
    obtain ⟨nodes, hnodes, hpeers⟩ := hs.peers ip nn hnn
    exact ⟨nodes, hmono nodes hnodes, hpeers⟩
  · rw [heq] at hnn
    cases hnn
  · rw [heq, Server.target] at hnn
    by_cases hlisted : Server.listed ip (nodes.map Node.unscanned) = true
    · rw [if_pos hlisted, Option.some.injEq] at hnn
      refine ⟨nodes, hmono nodes hmem, ?_, ?_⟩
      · rw [← hnn]
      · rw [listed_eq_true, map_ip_unscanned] at hlisted
        exact listed_eq_true.mpr hlisted
    · rw [if_neg hlisted] at hnn
      cases hnn

theorem invariant_step (hjson : json.Lawful) (hdump : ∀ v, json.dump v ≠ "")
    (hs : Invariant config json s) (hok : Elected config s ev) (h : step json s ev = some s') :
    Invariant config json s' := by
  refine ⟨Membership.invariant_step hjson hdump hs.membership h, ?_,
    peersLogged_of_step hjson hs h⟩
  intro nodes hnodes
  rcases proposed_of_step h with heq | ⟨namenodes, ports, rfl, heq⟩
  · exact hs.proposed nodes (heq ▸ hnodes)
  · rw [heq] at hnodes
    rcases List.mem_append.mp hnodes with hnodes | hnodes
    · exact hs.proposed nodes hnodes
    · obtain ⟨ip, scanNn, scanDn, hstart⟩ := hok
      obtain ⟨hne, hproposal⟩ := onLeaderStart_ok hstart
      rw [List.mem_singleton.mp hnodes]
      exact ⟨hne, hproposal ▸ (hs.suits ip).proposal scanNn scanDn⟩

theorem invariant_of_reachable (hjson : json.Lawful) (hdump : ∀ v, json.dump v ≠ "")
    (h : Reachable config json s) : Invariant config json s :=
  h.invariant ⟨Membership.invariant_init, by simp [Membership.init],
      fun ip nn hnn => by cases hnn⟩
    fun _ _ _ _ hs hok hstep => invariant_step hjson hdump hs hok hstep

/-- Three servers, two of which are to be namenodes. -/
def threeServers : DatanodeConfig :=
  ⟨[⟨"10.0.0.1", 10002, .unknown⟩, ⟨"10.0.0.2", 10002, .unknown⟩, ⟨"10.0.0.3", 10002, .unknown⟩],
    10002, 10001, 2, by decide, by simp [IsInt], by decide⟩

/-- The list that the first leader proposes. -/
def firstTwo : List Node := [⟨"10.0.0.1", 10001, .online⟩, ⟨"10.0.0.2", 10001, .online⟩]

/-- The second server has applied the list. -/
theorem exists_ample_firstTwo :
    ∃ s, Reach (step jsonTexts) (Ample threeServers) Membership.init s ∧
      s.proposed = [firstTwo] ∧
      (s.replica "10.0.0.2").server =
        ⟨firstTwo.map Node.unscanned, some ⟨firstTwo.map Node.unscanned⟩⟩ ∧
      ∀ ip, (s.replica ip).running = true := by
  have ports : ∀ node ∈ firstTwo, IsInt node.port := by simp [firstTwo, IsInt]
  let s₀ : Membership String := ⟨fun _ => .init, [nodesJson jsonTexts firstTwo], [firstTwo]⟩
  have hpropose : Reach (step jsonTexts) (Ample threeServers) Membership.init s₀ :=
    Reach.refl.tail (e := .propose firstTwo ports)
      ⟨"10.0.0.1", fun _ => false, fun _ => true, by decide, by decide⟩ rfl
  have hrun : (step jsonTexts s₀ (.apply "10.0.0.2" 1 true)).any (fun s =>
      decide (s.proposed = [firstTwo] ∧ (s.replica "10.0.0.2").server =
        ⟨firstTwo.map Node.unscanned, some ⟨firstTwo.map Node.unscanned⟩⟩ ∧
          (s.replica "10.0.0.2").running = true)) = true := by
    decide +kernel
  obtain ⟨s, hs, htest⟩ := (Option.any_eq_true _ _).mp hrun
  obtain ⟨hproposed, hserver, hrunning⟩ := of_decide_eq_true htest
  refine ⟨s, hpropose.tail (e := .apply "10.0.0.2" 1 true) trivial hs, hproposed, hserver,
    fun ip => ?_⟩
  by_cases hip : ip = "10.0.0.2"
  · rw [hip]
    exact hrunning
  · rw [replica_of_apply hs hip]
    rfl

/-- In every run, whatever the scans meet and whoever proposes: a list of the log is not empty and
has at most `expected_nn` namenodes, all of them configured servers with different ips and with the
port of the namenodes.  The list of a datanode is of that kind too, and the peers of a namenode
that runs are such a list with the namenode itself in it. -/
theorem suits_of_reach (hjson : json.Lawful) (hdump : ∀ v, json.dump v ≠ "")
    (h : Reachable config json s) :
    (∀ nodes ∈ s.proposed, nodes ≠ [] ∧ config.Suits nodes) ∧
      ∀ ip, config.Suits (s.replica ip).server.namenodeList ∧
        ∀ nn, (s.replica ip).server.nnRaftPtr = some nn →
          config.Suits nn.peers ∧ Server.listed ip nn.peers = true := by
  have hs := invariant_of_reachable hjson hdump h
  refine ⟨hs.proposed, fun ip => ⟨hs.suits ip, fun nn hnn => ?_⟩⟩
  obtain ⟨nodes, hmem, hpeers, hlisted⟩ := hs.peers ip nn hnn
  have haddress : nn.peers.map Node.address = nodes.map Node.address := by
    rw [hpeers]
    exact Membership.address_unscanned nodes
  refine ⟨(hs.proposed nodes hmem).2.of_address haddress, ?_⟩
  rw [hpeers, listed_eq_true, map_ip_unscanned]
  exact listed_eq_true.mp hlisted

theorem suits_firstTwo :
    ∃ s nn, Reachable threeServers jsonTexts s ∧ s.proposed = [firstTwo] ∧
      (s.replica "10.0.0.2").server.nnRaftPtr = some nn ∧ threeServers.Suits nn.peers ∧
      Server.listed "10.0.0.2" nn.peers = true := by
  obtain ⟨s, hreach, hproposed, hserver, -⟩ := exists_ample_firstTwo
  have hs : Reachable threeServers jsonTexts s := hreach.mono fun _ _ => elected_of_ample
  have hptr : (s.replica "10.0.0.2").server.nnRaftPtr = some ⟨firstTwo.map Node.unscanned⟩ := by
    rw [hserver]
  refine ⟨s, _, hs, hproposed, hptr, ?_⟩
  exact ((suits_of_reach jsonTexts_lawful Membership.dump_ne_empty hs).2 "10.0.0.2").2 _ hptr

/-! ## The old quorum -/

/-- Every list is as long as it should be. -/
theorem length_of_ample (hjson : json.Lawful) (hdump : ∀ v, json.dump v ≠ "")
    (h : Reach (step json) (Ample config) Membership.init s) :
    ∀ nodes ∈ s.proposed, nodes.length = config.expectedNn := by
  refine h.invariant (I := fun s => ∀ nodes ∈ s.proposed, nodes.length = config.expectedNn)
    (by simp [Membership.init]) fun s ev s' hreach hlength hok hstep => ?_
  have hs := invariant_of_reachable hjson hdump (hreach.mono fun _ _ => elected_of_ample)
  intro nodes hnodes
  rcases proposed_of_step hstep with heq | ⟨namenodes, ports, rfl, heq⟩
  · exact hlength nodes (heq ▸ hnodes)
  · rw [heq] at hnodes
    rcases List.mem_append.mp hnodes with hnodes | hnodes
    · exact hlength nodes hnodes
    · obtain ⟨ip, scanNn, scanDn, hstart, hample⟩ := hok
      have halive := (hs.suits ip).aliveCount_le scanNn
      rw [List.mem_singleton.mp hnodes, (onLeaderStart_ok hstart).2, RaftDN.length_proposal]
      omega

/-- As long as `expected_nn` nodes answer whenever a list is proposed, the count of
`change_namenodes_list` is right: for every namenode that runs and every list of the log, the old
peers are asked if and only if the new list has a majority of them. -/
theorem respectsQuorum_of_reach (hjson : json.Lawful) (hdump : ∀ v, json.dump v ≠ "")
    (h : Reach (step json) (Ample config) Membership.init s) (ip : String) (nn : RaftNN)
    (hnn : (s.replica ip).server.nnRaftPtr = some nn) :
    ∀ nodes ∈ s.proposed, Server.RespectsQuorum nn (nodes.map Node.unscanned) := by
  have hlength := length_of_ample hjson hdump h
  have hs := invariant_of_reachable hjson hdump (h.mono fun _ _ => elected_of_ample)
  obtain ⟨old, hold, hpeers, _⟩ := hs.peers ip nn hnn
  intro nodes hnodes
  have hsame : (nodes.map Node.unscanned).length = nn.listPeers.length := by
    show _ = nn.peers.length
    rw [hpeers, List.length_map, List.length_map, hlength nodes hnodes, hlength old hold]
  rw [Server.respectsQuorum_iff, hsame]
  omega

/-- The list of the second election, in which the first server does not answer. -/
def lastTwo : List Node := [⟨"10.0.0.2", 10001, .online⟩, ⟨"10.0.0.3", 10001, .online⟩]

/-- The second server still has the peers of the first list when the second one is proposed. -/
theorem respectsQuorum_lastTwo :
    ∃ s nn, Reach (step jsonTexts) (Ample threeServers) Membership.init s ∧
      s.proposed = [firstTwo, lastTwo] ∧ (s.replica "10.0.0.2").server.nnRaftPtr = some nn ∧
      nn.peers = firstTwo.map Node.unscanned ∧
      Server.RespectsQuorum nn (lastTwo.map Node.unscanned) := by
  obtain ⟨s, hreach, hproposed, hserver, -⟩ := exists_ample_firstTwo
  have ports : ∀ node ∈ lastTwo, IsInt node.port := by simp [lastTwo, IsInt]
  let s' : Membership String := { s with
    log := s.log ++ [nodesJson jsonTexts lastTwo]
    proposed := s.proposed ++ [lastTwo] }
  have hreach' : Reach (step jsonTexts) (Ample threeServers) Membership.init s' := by
    refine hreach.tail (e := .propose lastTwo ports) ?_ rfl
    refine ⟨"10.0.0.2", fun node => node.ip = "10.0.0.2", fun node => node.ip ≠ "10.0.0.1", ?_⟩
    rw [hserver]
    decide
  have hproposed' : s'.proposed = [firstTwo, lastTwo] := congrArg (· ++ [lastTwo]) hproposed
  have hptr : (s'.replica "10.0.0.2").server.nnRaftPtr = some ⟨firstTwo.map Node.unscanned⟩ :=
    congrArg Server.nnRaftPtr hserver
  refine ⟨s', _, hreach', hproposed', hptr, rfl, ?_⟩
  refine respectsQuorum_of_reach jsonTexts_lawful Membership.dump_ne_empty hreach' "10.0.0.2" _
    hptr lastTwo ?_
  rw [hproposed']
  exact List.mem_cons_of_mem _ List.mem_cons_self

/-! ## One round of the timer -/

section Round

variable (config json) (up : String → Bool)

/-- A scan of a namenode is answered: its process runs, and has a `nn_server` at the port. -/
def answersNn (s : Membership String) (node : Node) : Bool :=
  up node.ip && decide (node.port = config.nnPort) && (s.replica node.ip).server.nnRaftPtr.isSome

/-- A scan of a datanode is answered. -/
def answersDn (node : Node) : Bool := up node.ip && decide (node.port = config.dnPort)

/-- The list of a datanode, as its scans leave it. -/
def withList (s : Membership String) (ip : String) (namenodes : List Node) :
    Membership String :=
  let r := s.replica ip
  s.setReplica ip { r with server := { r.server with namenodeList := namenodes } }

/-- `RaftDN::on_leader_start`, with the list that it appends to the log. -/
def onLeaderStart (s : Membership String) (ip : String) :
    Except Exception (Membership String) := do
  let namenodes ← RaftDN.onLeaderStart (answersNn config up s) (answersDn config up)
    config.expectedNn config.nnPort (s.replica ip).server.namenodeList config.datanodeList
  return { s with log := s.log ++ [nodesJson json namenodes],
                  proposed := s.proposed ++ [namenodes] }

/-- One round of `nn_timer`: `runFunc`, and `timeoutFunc` behind a timeout, which calls
`on_nodes_loss`.  The fuel is enough. -/
def nnTimer (echoes : ℕ → Echo) (s : Membership String) (ip : String) :
    Option (Except Exception (Membership String)) :=
  let namenodes := (s.replica ip).server.namenodeList
  match HealthCheck.healthLoop echoes (4 * namenodes.length + 1)
      (HealthCheck.init namenodes) with
  | none => none
  | some (.returned, st) => some (.ok (withList s ip st.namenodeList))
  | some (.thrown e, _) => some (.error e)
  | some (.timeout _ _, st) =>
    some (onLeaderStart config json up (withList s ip st.namenodeList) ip)

/-- The scans of the round meet what the namenodes answer. -/
def Truthful (echoes : ℕ → Echo) (s : Membership String) (ip : String) : Prop :=
  let namenodes := (s.replica ip).server.namenodeList
  ∀ result st, HealthCheck.healthLoop echoes (4 * namenodes.length + 1)
      (HealthCheck.init namenodes) = some (result, st) →
    ∀ p ∈ st.scans, ∃ node, namenodes[p.1]? = some node ∧
      p.2 = if answersNn config up s node then .answered else .failed

end Round

/-! ### The health check -/

section HealthCheck

open HealthCheck

variable {echoes : ℕ → Echo} {st st' : HealthCheck} {result : HealthResult} {fuel : ℕ}

/-- When the scans meet what the nodes answer, the health check returns if and only if all of them
do, and ends in a timeout otherwise. -/
theorem healthLoop_of_answers {namenodes : List Node} (hsize : namenodes.length < 2 ^ 64)
    (echoes : ℕ → Echo) (answers : Node → Bool) :
    ∃ result st, healthLoop echoes (4 * namenodes.length + 1) (init namenodes) =
        some (result, st) ∧
      ((∀ p ∈ st.scans, ∃ node, namenodes[p.1]? = some node ∧
          p.2 = if answers node then .answered else .failed) →
        (result = .returned ∧ ∀ node ∈ namenodes, answers node = true) ∨
          (∃ j ip, result = .timeout j ip) ∧ ∃ node ∈ namenodes, answers node = false) := by
  obtain ⟨result, st, hloop, hended⟩ := healthLoop_ends hsize (inv_init echoes namenodes)
  refine ⟨result, st, hloop _ ?_, fun hmeets => ?_⟩
  · show 4 * (namenodes.length - _) - 0 < _
    omega
  · have hanswer : ∀ j e, e ∈ scansOf st.scans j → ∃ node ∈ namenodes,
        namenodes[j]? = some node ∧ e = if answers node then .answered else .failed := by
      intro j e he
      obtain ⟨p, hp, rfl⟩ := List.mem_map.mp he
      obtain ⟨hmem, hj⟩ := List.mem_filter.mp hp
      obtain ⟨node, hget, hecho⟩ := hmeets p hmem
      rw [of_decide_eq_true hj] at hget
      exact ⟨node, List.mem_of_getElem? hget, hget, hecho⟩
    have hsound := hended.sound
    cases result with
    | returned =>
      refine Or.inl ⟨rfl, fun node hnode => ?_⟩
      obtain ⟨j, hj⟩ := List.mem_iff_getElem?.mp hnode
      obtain ⟨k, -, hscans⟩ := hsound.returns.mp rfl j (List.getElem?_eq_some_iff.mp hj).1
      obtain ⟨node', -, hget, hecho⟩ := hanswer j .answered (by simp [hscans])
      rw [hj] at hget
      obtain rfl := Option.some.inj hget
      by_contra hfalse
      rw [if_neg hfalse] at hecho
      cases hecho
    | timeout j ip =>
      obtain ⟨-, hsilent, -⟩ := (hsound.blames j).mp ⟨ip, rfl⟩
      obtain ⟨node, hmem, -, hecho⟩ := hanswer j .failed (by rw [hsilent]; simp)
      refine Or.inr ⟨⟨j, ip, rfl⟩, node, hmem, ?_⟩
      by_contra htrue
      rw [Bool.not_eq_false] at htrue
      rw [if_pos htrue] at hecho
      cases hecho
    | thrown e =>
      obtain ⟨i, -, k, -, front, -, hscans⟩ := hended.shape
      obtain ⟨node, -, hecho⟩ := hmeets (i, .noChannel) (by simp [hscans])
      split at hecho <;> cases hecho

end HealthCheck

/-! ### Behind a proposal -/

/-- What happens until the datanodes have applied the list: no datanode starts again, loads a
snapshot or proposes another list. -/
def Quiet (_ : Membership String) : MembershipEvent String → Prop
  | .apply _ _ _ | .save _ | .scan _ _ _ => True
  | .propose _ _ | .install _ _ | .restart _ => False

theorem reachable_of_quiet (h : Reachable config json s) (hquiet : Reach (step json) Quiet s s') :
    Reachable config json s' := by
  induction hquiet with
  | refl => exact h
  | @tail _ _ ev _ hok he ih =>
    refine ih.tail ?_ he
    cases ev with
    | propose namenodes ports => exact hok.elim
    | _ => trivial

section Settled

variable (config) (up : String → Bool)

/-- The configured servers whose process runs. -/
def upCount : ℕ := config.nodes.countP fun node => up node.ip

/-- The datanodes of these servers have not ended. -/
def Running (s : Membership String) : Prop :=
  ∀ ip, up ip = true → (s.replica ip).running = true

/-- Every datanode that runs has applied the whole log. -/
def CaughtUp (s : Membership String) : Prop :=
  ∀ ip ∈ config.nodes.map Node.ip, up ip = true → (s.replica ip).applied = s.log.length

/-- The namenodes run, and all datanodes that run know them. -/
structure Settled (json : JsonLibrary) (s : Membership String) (namenodes : List Node) :
    Prop where
  length : namenodes.length = min config.expectedNn (upCount config up)
  answers : ∀ node ∈ namenodes, answersNn config up s node = true
  agrees : ∀ ip ∈ config.nodes.map Node.ip, up ip = true →
    (s.replica ip).server.namenodeList.map Node.address = namenodes.map Node.address ∧
      ((s.replica ip).server.nnRaftPtr ≠ none ↔ ip ∈ namenodes.map Node.ip)
  quiet : ∀ ip ∈ config.nodes.map Node.ip, up ip = true → ∀ echoes,
    Truthful config up echoes s ip → ∃ s', nnTimer config json up echoes s ip = some (.ok s') ∧
      s'.proposed = s.proposed

end Settled

variable {up : String → Bool}

/-- As many nodes of a list are in a part of it as the part has. -/
theorem countP_mem_eq_length {xs ys : List String} (hxs : xs.Nodup) (hys : ys.Nodup)
    (hsub : ∀ y ∈ ys, y ∈ xs) : xs.countP (· ∈ ys) = ys.length := by
  rw [List.countP_eq_length_filter]
  refine List.Perm.length_eq ((List.perm_ext_iff_of_nodup (hxs.filter _) hys).mpr fun y => ?_)
  rw [List.mem_filter]
  constructor
  · rintro ⟨-, h⟩
    exact of_decide_eq_true h
  · intro h
    exact ⟨hsub y h, decide_eq_true h⟩

/-- The namenodes that answer and the datanodes that can be taken are all the servers that run. -/
theorem aliveCount_add_candidateCount {namenodes : List Node} (hsuits : config.Suits namenodes)
    (scanNn : Node → Bool) (hup : ∀ node ∈ namenodes, scanNn node = true → up node.ip = true) :
    RaftDN.aliveCount scanNn namenodes +
        RaftDN.candidateCount scanNn (answersDn config up) namenodes config.datanodeList =
      upCount config up := by
  let alive := (namenodes.filter scanNn).map Node.ip
  have halive : ∀ ip, ip ∈ alive ↔ ∃ node ∈ namenodes, scanNn node = true ∧ node.ip = ip := by
    intro ip
    simp only [alive, List.mem_map, List.mem_filter, and_assoc]
  have hcount : (config.nodes.map Node.ip).countP (· ∈ alive) =
      RaftDN.aliveCount scanNn namenodes := by
    have hnodup : alive.Nodup := hsuits.distinct.sublist (List.filter_sublist.map Node.ip)
    rw [countP_mem_eq_length config.distinct hnodup, List.length_map,
      ← List.countP_eq_length_filter]
    · rfl
    · intro ip hip
      obtain ⟨node, hnode, -, rfl⟩ := (halive ip).mp hip
      exact hsuits.known node hnode
  have hcandidates : RaftDN.candidateCount scanNn (answersDn config up) namenodes
      config.datanodeList =
        (config.nodes.map Node.ip).countP fun ip => up ip && !decide (ip ∈ alive) := by
    rw [RaftDN.candidateCount, DatanodeConfig.datanodeList, List.countP_map, List.countP_map]
    refine List.countP_congr fun node _ => ?_
    have hmem : (namenodes.any fun n => scanNn n && n.sameIp node) = decide (node.ip ∈ alive) := by
      rw [Bool.eq_iff_iff, decide_eq_true_iff, halive, List.any_eq_true]
      simp [Node.sameIp]
    simp only [Function.comp_apply, answersDn, decide_true, Bool.and_true]
    rw [← hmem]
    rfl
  have hup' : (config.nodes.map Node.ip).countP (· ∈ alive) =
      (config.nodes.map Node.ip).countP fun ip => up ip && decide (ip ∈ alive) := by
    refine List.countP_congr fun ip _ => ?_
    simp only [decide_eq_true_eq, Bool.and_eq_true]
    constructor
    · intro h
      obtain ⟨node, hnode, hscan, rfl⟩ := (halive ip).mp h
      exact ⟨hup node hnode hscan, h⟩
    · exact fun h => h.2
  have hall : upCount config up = (config.nodes.map Node.ip).countP up := by
    rw [upCount, List.countP_map]
    rfl
  rw [← hcount, hup', hcandidates, hall]
  induction config.nodes.map Node.ip with
  | nil => rfl
  | cons ip ips ih =>
    simp only [List.countP_cons]
    cases up ip <;> by_cases hip : ip ∈ alive <;> simp [hip] <;> omega

theorem isSome_nnRaftPtr_of_answersNn {s : Membership String} {node : Node}
    (h : answersNn config up s node = true) :
    up node.ip = true ∧ (s.replica node.ip).server.nnRaftPtr.isSome = true := by
  rw [answersNn, Bool.and_eq_true, Bool.and_eq_true] at h
  exact ⟨h.1.1, h.2⟩

/-- A datanode that runs proposes a list, of servers that run. -/
theorem exists_onLeaderStart (hs : Invariant config json s) {ip : String}
    (hip : ip ∈ config.nodes.map Node.ip) (hup : up ip = true) (hpos : 0 < config.expectedNn) :
    ∃ namenodes, config.Suits namenodes ∧
      RaftDN.onLeaderStart (answersNn config up s) (answersDn config up) config.expectedNn
        config.nnPort (s.replica ip).server.namenodeList config.datanodeList = .ok namenodes ∧
      namenodes.length = min config.expectedNn (upCount config up) ∧
      ∀ node ∈ namenodes, up node.ip = true := by
  have hsuits := hs.suits ip
  have hcount : RaftDN.aliveCount (answersNn config up s) (s.replica ip).server.namenodeList +
      RaftDN.candidateCount (answersNn config up s) (answersDn config up)
        (s.replica ip).server.namenodeList config.datanodeList = upCount config up :=
    aliveCount_add_candidateCount hsuits _ fun _ _ h => (isSome_nnRaftPtr_of_answersNn h).1
  have halive := hsuits.aliveCount_le (answersNn config up s)
  have hlength : (RaftDN.proposal (answersNn config up s) (answersDn config up) config.expectedNn
      config.nnPort (s.replica ip).server.namenodeList config.datanodeList).length =
        min config.expectedNn (upCount config up) := by
    rw [RaftDN.length_proposal]
    omega
  have hupCount : 0 < upCount config up := by
    obtain ⟨node, hnode, rfl⟩ := List.mem_map.mp hip
    exact List.countP_pos_iff.mpr ⟨node, hnode, hup⟩
  have hproposal := hsuits.proposal (answersNn config up s) (answersDn config up)
  refine ⟨_, hproposal, ?_, hlength, fun p hp => ?_⟩
  · rw [RaftDN.onLeaderStart_eq, if_neg]
    exact List.length_pos_iff.mp (by omega)
  · have hdn : (config.datanodeList.map Node.ip).Nodup :=
      DatanodeConfig.map_ip_datanodeList ▸ config.distinct
    rcases (RaftDN.selection_proposal hsuits.distinct hdn).sound p hp with
      ⟨node, _, hscan, heq, _⟩ | ⟨node, _, hscan, heq, _⟩
    · rw [heq]
      exact (isSome_nnRaftPtr_of_answersNn hscan).1
    · rw [answersDn, Bool.and_eq_true] at hscan
      rw [heq]
      exact hscan.1

/-- What holds behind a proposal, until all datanodes have applied it. -/
structure Pending (json : JsonLibrary) (s₁ s : Membership String) : Prop where
  membership : Membership.Invariant json s
  proposed : s.proposed = s₁.proposed
  nonempty : s.proposed ≠ []
  running : ∀ ip, (s.replica ip).applied = s.proposed.length →
    ((s.replica ip).server.nnRaftPtr ≠ none ↔
      Server.listed ip (s.replica ip).server.namenodeList = true)

theorem listed_modify (ip : String) (namenodes : List Node) (j : ℕ) (nodeStatus : NodeStatus) :
    Server.listed ip (namenodes.modify j fun node => { node with nodeStatus := nodeStatus }) =
      Server.listed ip namenodes := by
  have hips := congrArg (List.map Prod.fst) (Membership.address_modify j nodeStatus namenodes)
  rw [List.map_map, List.map_map] at hips
  rw [Bool.eq_iff_iff, listed_eq_true, listed_eq_true]
  exact hips ▸ Iff.rfl

theorem Pending.of_step (hjson : json.Lawful) (hdump : ∀ v, json.dump v ≠ "")
    {s₁ : Membership String} (hp : Pending json s₁ s) (hok : Quiet s ev)
    (h : step json s ev = some s') : Pending json s₁ s' := by
  have hproposed : s'.proposed = s.proposed := by
    rcases proposed_of_step h with heq | ⟨namenodes, ports, rfl, _⟩
    · exact heq
    · exact hok.elim
  refine ⟨Membership.invariant_step hjson hdump hp.membership h, hproposed.trans hp.proposed,
    hproposed ▸ hp.nonempty, fun ip happlied => ?_⟩
  rw [hproposed] at happlied
  cases change_of_step hjson hp.membership h ip with
  | kept hr =>
    rw [hr] at happlied ⊢
    exact hp.running ip happlied
  | applied _ _ hserver =>
    obtain ⟨nodes, -, heq⟩ := hserver
    have hinStep : (s'.replica ip).server.InStep ip := by
      rw [heq]
      exact Server.inStep_iff.mpr rfl
    exact hinStep.running
  | saved hserver heq =>
    rw [heq] at happlied
    rw [hserver]
    exact hp.running ip happlied
  | ended hzero _ =>
    -- Not even the first list has been applied.
    rw [hzero] at happlied
    exact absurd (List.length_eq_zero_iff.mp happlied.symm) hp.nonempty
  | restarted => exact hok.elim
  | scanned hr =>
    rw [hr] at happlied ⊢
    show _ ↔ Server.listed ip (List.modify _ _ _) = true
    rw [listed_modify]
    exact hp.running ip happlied

/-- A datanode that has applied a list starts or stops its namenode as the list says. -/
theorem pending_of_propose {namenodes : List Node} (hs : Invariant config json s)
    (ports : ∀ node ∈ namenodes, IsInt node.port) (hjson : json.Lawful)
    (hdump : ∀ v, json.dump v ≠ "") (h : step json s (.propose namenodes ports) = some s') :
    Pending json s' s' := by
  refine ⟨Membership.invariant_step hjson hdump hs.membership h, rfl, ?_, fun ip happlied => ?_⟩
  · rw [← Option.some.inj h]
    exact List.concat_ne_nil _ _
  -- Nothing has been applied up to the new entry.
  have hle := (hs.membership.list ip).le
  rw [← Option.some.inj h] at happlied
  have happlied : (s.replica ip).applied = (s.proposed ++ [namenodes]).length := happlied
  rw [List.length_append, List.length_singleton] at happlied
  omega

theorem Pending.listAt {namenodes : List Node} {s₀ s₁ : Membership String}
    (hp : Pending json s₁ s) (hproposed : s₁.proposed = s₀.proposed ++ [namenodes]) {ip : String}
    (happlied : (s.replica ip).applied = s.log.length) :
    (s.replica ip).server.namenodeList.map Node.address = namenodes.map Node.address ∧
      ((s.replica ip).server.nnRaftPtr ≠ none ↔ ip ∈ namenodes.map Node.ip) := by
  have hlength : s.log.length = s.proposed.length := by rw [hp.membership.log, List.length_map]
  have hagrees := hp.membership.list ip
  rw [happlied, hlength] at hagrees
  have haddress : (s.replica ip).server.namenodeList.map Node.address =
      namenodes.map Node.address := by
    rw [hagrees.address, Membership.listAt, List.take_length, hp.proposed, hproposed,
      List.getLast?_concat]
    rfl
  have hips := congrArg (List.map Prod.fst) haddress
  rw [List.map_map, List.map_map] at hips
  refine ⟨haddress, ?_⟩
  rw [hp.running ip (happlied.trans hlength), listed_eq_true]
  exact hips ▸ Iff.rfl

/-- When all datanodes that run have applied the list, its namenodes run, and all further rounds
of the timers leave the log alone. -/
theorem Pending.settled {namenodes : List Node} {s₀ s₁ : Membership String}
    (hp : Pending json s₁ s) (hproposed : s₁.proposed = s₀.proposed ++ [namenodes])
    (hsuits : config.Suits namenodes)
    (hlength : namenodes.length = min config.expectedNn (upCount config up))
    (hup : ∀ node ∈ namenodes, up node.ip = true) (hcaught : CaughtUp config up s) :
    Settled config up json s namenodes := by
  have hanswers : ∀ node ∈ namenodes, answersNn config up s node = true := by
    intro node hnode
    have happlied := hcaught node.ip (hsuits.known node hnode) (hup node hnode)
    have hrun := (hp.listAt hproposed happlied).2.mpr (List.mem_map_of_mem hnode)
    rw [answersNn, hup node hnode, hsuits.port node hnode, Bool.true_and,
      Option.isSome_iff_ne_none.mpr hrun]
    simp
  refine ⟨hlength, hanswers, fun ip hip hip' => hp.listAt hproposed (hcaught ip hip hip'),
    fun ip hip hip' echoes htruthful => ?_⟩
  have haddress := (hp.listAt hproposed (hcaught ip hip hip')).1
  have hlist : config.Suits (s.replica ip).server.namenodeList := hsuits.of_address haddress
  have hsize : (s.replica ip).server.namenodeList.length < 2 ^ 64 := by
    have := hlist.length
    have := config.expectedNn_lt
    omega
  obtain ⟨result, st, hloop, hcases⟩ :=
    healthLoop_of_answers hsize echoes (answersNn config up s)
  rcases hcases (htruthful result st hloop) with ⟨rfl, -⟩ | ⟨-, node, hnode, hfalse⟩
  · refine ⟨withList s ip st.namenodeList, ?_, rfl⟩
    rw [nnTimer, hloop]
  · -- Every node of the list has the address of a namenode that answers.
    have hmem : node.address ∈ namenodes.map Node.address :=
      haddress ▸ List.mem_map_of_mem hnode
    obtain ⟨node', hnode', heq⟩ := List.mem_map.mp hmem
    have hsame : answersNn config up s node' = answersNn config up s node := by
      have hip : node'.ip = node.ip := congrArg Prod.fst heq
      have hport : node'.port = node.port := congrArg Prod.snd heq
      rw [answersNn, hip, hport]
      rfl
    rw [← hsame, hanswers node' hnode'] at hfalse
    cases hfalse

/-- The datanodes that run can apply the whole log, one after the other. -/
theorem exists_caughtUp (hjson : json.Lawful) (hdump : ∀ v, json.dump v ≠ "")
    {s₁ : Membership String} (hs₁ : Membership.Invariant json s₁) {ips : List String}
    (hrunning : ∀ ip ∈ ips, (s₁.replica ip).running = true) :
    ∃ s, Reach (step json) Quiet s₁ s ∧ Membership.Invariant json s ∧ s.log = s₁.log ∧
      (∀ ip, (s.replica ip).running = (s₁.replica ip).running) ∧
      ∀ ip ∈ ips, (s.replica ip).applied = s.log.length := by
  induction ips with
  | nil => exact ⟨s₁, .refl, hs₁, rfl, fun _ => rfl, by simp⟩
  | cons ip ips ih =>
    obtain ⟨s, hreach, hs, hlog, hsame, hips⟩ := ih fun ip hip =>
      hrunning ip (List.mem_cons_of_mem _ hip)
    have hle : (s.replica ip).applied ≤ s.log.length := by
      rw [hs.log, List.length_map]
      exact (hs.list ip).le
    by_cases hip : (s.replica ip).applied = s.log.length
    · refine ⟨s, hreach, hs, hlog, hsame, fun ip' hip' => ?_⟩
      rcases List.mem_cons.mp hip' with rfl | hip'
      · exact hip
      · exact hips ip' hip'
    · let n := s.log.length - (s.replica ip).applied
      have hn : (s.replica ip).applied + n = s.log.length := by omega
      have hrun : (s.replica ip).running = true :=
        (hsame ip).trans (hrunning ip List.mem_cons_self)
      obtain ⟨r, hr, hrunning', happlied⟩ := Membership.exists_onApply hjson hs
        (r := s.replica ip) ip (n := n) (by omega) hn.le
      have hstep : step json s (.apply ip n true) = some (s.setReplica ip r) := by
        refine (if_pos ⟨hrun, hn.le⟩).trans ?_
        rw [id, hr, Option.getD_some]
      refine ⟨_, hreach.tail (e := .apply ip n true) trivial hstep,
        Membership.invariant_step hjson hdump hs hstep, hlog, fun ip' => ?_, fun ip' hip' => ?_⟩
      · by_cases heq : ip' = ip
        · rw [heq, Membership.replica_setReplica, hrunning', hsame]
        · rw [Membership.replica_setReplica_of_ne s r heq, hsame]
      · by_cases heq : ip' = ip
        · rw [heq, Membership.replica_setReplica, happlied, hn]
          rfl
        · rw [Membership.replica_setReplica_of_ne s r heq]
          exact hips ip' ((List.mem_cons.mp hip').resolve_left heq)

/-- `on_leader_start` of a datanode that runs, and what follows. -/
theorem settled_behind_onLeaderStart (hjson : json.Lawful) (hdump : ∀ v, json.dump v ≠ "")
    (h : Reachable config json s) (hrunning : Running up s) {ip : String}
    (hip : ip ∈ config.nodes.map Node.ip) (hup : up ip = true) (hpos : 0 < config.expectedNn) :
    ∃ s₁ namenodes, onLeaderStart config json up s ip = .ok s₁ ∧ Reachable config json s₁ ∧
      s₁.proposed = s.proposed ++ [namenodes] ∧
      (∃ s', Reach (step json) Quiet s₁ s' ∧ CaughtUp config up s') ∧
      ∀ s', Reach (step json) Quiet s₁ s' → CaughtUp config up s' →
        Settled config up json s' namenodes := by
  have hs := invariant_of_reachable hjson hdump h
  obtain ⟨namenodes, hsuits, hstart, hlength, hups⟩ := exists_onLeaderStart hs hip hup hpos
  have ports : ∀ node ∈ namenodes, IsInt node.port := fun node hnode =>
    hsuits.port node hnode ▸ config.nnPort_isInt
  let s₁ : Membership String := { s with
    log := s.log ++ [nodesJson json namenodes]
    proposed := s.proposed ++ [namenodes] }
  have hstep : step json s (.propose namenodes ports) = some s₁ := rfl
  have hpending := pending_of_propose hs ports hjson hdump hstep
  refine ⟨s₁, namenodes, ?_, h.tail (e := .propose namenodes ports) ⟨ip, _, _, hstart⟩ hstep,
    rfl, ?_, fun s' hreach hcaught => ?_⟩
  · rw [onLeaderStart, hstart]
    rfl
  · have hrun : ∀ ip ∈ (config.nodes.map Node.ip).filter up, (s₁.replica ip).running = true :=
      fun ip hip => hrunning ip (List.mem_filter.mp hip).2
    obtain ⟨s', hreach, -, -, -, hips⟩ := exists_caughtUp hjson hdump hpending.membership hrun
    exact ⟨s', hreach, fun ip hip hup => hips ip (List.mem_filter.mpr ⟨hip, hup⟩)⟩
  · have hp : Pending json s₁ s' :=
      hreach.invariant hpending fun _ _ _ _ hp hok hstep => hp.of_step hjson hdump hok hstep
    have hproposed : s₁.proposed = s.proposed ++ [namenodes] := rfl
    exact hp.settled hproposed hsuits hlength hups hcaught

end Failover

end Spkdfs
