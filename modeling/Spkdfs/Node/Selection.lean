import Mathlib.Data.List.Sort
import Mathlib.Data.String.Basic
import Spkdfs.Common.Node
import Spkdfs.Lib.SortedSearch

/-!
# The choice of the namenodes

`RaftDN::on_leader_start` of `node/raft_dn.cpp`.  The leader of the datanodes scans the current
namenodes and keeps those that answer.  Then it scans the other datanodes, `expected_nn` of them
at a time, until it has `expected_nn` namenodes.

The scans are parameters: what a node answers when it is scanned as a namenode, and what it
answers when it is scanned as a datanode.

`onLeaderStart_eq` says which list is proposed, without the batches, and `selection_of_nodup`
reads off it what the list is for.
-/

namespace Spkdfs

namespace RaftDN

/-- `node_discovery`. -/
def nodeDiscovery (scan : Node → Bool) (nodes : List Node) : List Node :=
  nodes.map fun node => { node with nodeStatus := if scan node then .online else .offline }

/-- The nodes whose status is `ONLINE`. -/
def onlineNodes (nodes : List Node) : List Node :=
  nodes.filter fun node => node.nodeStatus = .online

/-- The loop over the nodes of one batch. -/
def chooseBatch (expectedNn : ℕ) (nnPort : Int) : List Node → List Node → List Node
  | [], nodes => nodes
  | node :: sub, nodes =>
    if node.nodeStatus = .online then
      if expectedNn ≤ nodes.length + 1 then nodes ++ [{ node with port := nnPort }]
      else chooseBatch expectedNn nnPort sub (nodes ++ [{ node with port := nnPort }])
    else chooseBatch expectedNn nnPort sub nodes

/-- The loop over the batches, from the datanode `i` on.  One unit of fuel is one batch. -/
def chooseLoop (scan : Node → Bool) (expectedNn : ℕ) (nnPort : Int) (allnodes : List Node) :
    ℕ → ℕ → List Node → List Node
  | 0, _, nodes => nodes
  | fuel + 1, i, nodes =>
    if i < allnodes.length ∧ nodes.length < expectedNn then
      let sub := nodeDiscovery scan ((allnodes.drop i).take expectedNn)
      chooseLoop scan expectedNn nnPort allnodes fuel (i + expectedNn)
        (chooseBatch expectedNn nnPort sub nodes)
    else nodes

/-- `RaftDN::on_leader_start`, up to the list that it proposes. -/
def onLeaderStart (scanNn scanDn : Node → Bool) (expectedNn : ℕ) (nnPort : Int)
    (namenodeList datanodeList : List Node) : Except Exception (List Node) :=
  let sorted := namenodeList.insertionSort fun a b => a.ip ≤ b.ip
  let nodes := onlineNodes (nodeDiscovery scanNn sorted)
  let allnodes := datanodeList.filter fun node =>
    !SortedSearch.binarySearch Node.ip node.ip nodes
  let chosen := chooseLoop scanDn expectedNn nnPort allnodes allnodes.length 0 nodes
  if chosen = [] then .error (.runtime "no node ready") else .ok chosen

/-! ## The list without the batches -/

/-- A datanode as it is proposed. -/
def asNamenode (nnPort : Int) (node : Node) : Node :=
  { node with port := nnPort, nodeStatus := .online }

variable {scan scanNn scanDn : Node → Bool} {expectedNn : ℕ} {nnPort : Int}

theorem chooseBatch_eq (sub nodes : List Node) (hlt : nodes.length < expectedNn) :
    chooseBatch expectedNn nnPort (nodeDiscovery scan sub) nodes =
      nodes ++ ((sub.filter scan).take (expectedNn - nodes.length)).map (asNamenode nnPort) := by
  induction sub generalizing nodes with
  | nil => simp [nodeDiscovery, chooseBatch]
  | cons node sub ih =>
    rw [nodeDiscovery, List.map_cons, ← nodeDiscovery, chooseBatch]
    cases hscan : scan node with
    | false =>
      rw [if_neg (by simp), ih nodes hlt, List.filter_cons_of_neg (by simp [hscan])]
    | true =>
      rw [if_pos (by simp), List.filter_cons_of_pos hscan]
      obtain ⟨n, hn⟩ : ∃ n, expectedNn - nodes.length = n + 1 :=
        ⟨expectedNn - nodes.length - 1, by omega⟩
      rw [hn, List.take_succ_cons, List.map_cons]
      split
      · obtain rfl : n = 0 := by omega
        simp [asNamenode]
      · have hrest : expectedNn - (nodes.length + 1) = n := by omega
        rw [ih _ (by simp; omega), List.length_append, List.length_singleton, hrest]
        simp [asNamenode]

/-- The batches do not matter: the loop takes the first datanodes that answer. -/
theorem chooseLoop_eq (allnodes : List Node) {fuel i : ℕ} (hfuel : allnodes.length ≤ fuel + i)
    (nodes : List Node) :
    chooseLoop scan expectedNn nnPort allnodes fuel i nodes =
      nodes ++ (((allnodes.drop i).filter scan).take (expectedNn - nodes.length)).map
        (asNamenode nnPort) := by
  induction fuel generalizing i nodes with
  | zero =>
    rw [chooseLoop, List.drop_eq_nil_of_le (by omega)]
    simp
  | succ fuel ih =>
    rw [chooseLoop]
    split
    · rename_i hmore
      have hsplit : allnodes.drop i =
          (allnodes.drop i).take expectedNn ++ allnodes.drop (i + expectedNn) := by
        rw [← List.drop_drop, List.take_append_drop]
      simp only
      rw [chooseBatch_eq _ _ hmore.2, ih (by omega)]
      conv_rhs => rw [hsplit, List.filter_append, List.take_append, List.map_append]
      rw [List.append_assoc]
      congr 4
      simp only [List.length_append, List.length_map, List.length_take]
      omega
    · rename_i hover
      by_cases hi : i < allnodes.length
      · have hfull : expectedNn - nodes.length = 0 := by omega
        simp [hfull]
      · rw [List.drop_eq_nil_of_le (by omega)]
        simp

/-- The current namenodes that answer, in the order of their ips. -/
def alive (scanNn : Node → Bool) (namenodeList : List Node) : List Node :=
  ((namenodeList.insertionSort fun a b => a.ip ≤ b.ip).filter scanNn).map fun node =>
    { node with nodeStatus := .online }

/-- The datanodes that answer, without those namenodes. -/
def candidates (scanNn scanDn : Node → Bool) (namenodeList datanodeList : List Node) :
    List Node :=
  datanodeList.filter fun node =>
    scanDn node && !((alive scanNn namenodeList).map Node.ip).contains node.ip

/-- The namenodes that answer, and the datanodes that fill the list up. -/
def proposal (scanNn scanDn : Node → Bool) (expectedNn : ℕ) (nnPort : Int)
    (namenodeList datanodeList : List Node) : List Node :=
  alive scanNn namenodeList ++ ((candidates scanNn scanDn namenodeList datanodeList).take
    (expectedNn - (alive scanNn namenodeList).length)).map (asNamenode nnPort)

theorem onlineNodes_nodeDiscovery (nodes : List Node) :
    onlineNodes (nodeDiscovery scan nodes) =
      (nodes.filter scan).map fun node => { node with nodeStatus := .online } := by
  induction nodes with
  | nil => rfl
  | cons node nodes ih =>
    cases hscan : scan node with
    | false => simpa [onlineNodes, nodeDiscovery, hscan] using ih
    | true => simpa [onlineNodes, nodeDiscovery, hscan] using ih

/-- The filter keeps the list sorted, so that the search in it is right. -/
theorem binarySearch_alive (namenodeList : List Node) (ip : String) :
    SortedSearch.binarySearch Node.ip ip (alive scanNn namenodeList) =
      ((alive scanNn namenodeList).map Node.ip).contains ip := by
  have hsorted : (namenodeList.insertionSort fun a b => a.ip ≤ b.ip).Pairwise
      fun a b => a.ip ≤ b.ip :=
    haveI : Std.Total fun a b : Node => a.ip ≤ b.ip := ⟨fun a b => le_total a.ip b.ip⟩
    haveI : IsTrans Node fun a b => a.ip ≤ b.ip := ⟨fun a b c => le_trans⟩
    List.pairwise_insertionSort _ _
  have halive : (alive scanNn namenodeList).Pairwise fun a b => a.ip ≤ b.ip :=
    List.pairwise_map.mpr (hsorted.filter _)
  rw [Bool.eq_iff_iff, SortedSearch.binarySearch_iff halive]
  simp

/-- The list that is proposed. -/
theorem onLeaderStart_eq (namenodeList datanodeList : List Node) :
    onLeaderStart scanNn scanDn expectedNn nnPort namenodeList datanodeList =
      if proposal scanNn scanDn expectedNn nnPort namenodeList datanodeList = [] then
        .error (.runtime "no node ready")
      else .ok (proposal scanNn scanDn expectedNn nnPort namenodeList datanodeList) := by
  unfold onLeaderStart
  simp only [onlineNodes_nodeDiscovery]
  rw [← alive, chooseLoop_eq _ (by omega), List.drop_zero, List.filter_filter]
  simp only [binarySearch_alive]
  rfl

/-! ## What the list is for -/

/-- The number of the current namenodes that answer. -/
def aliveCount (scanNn : Node → Bool) (namenodeList : List Node) : ℕ := namenodeList.countP scanNn

/-- The number of the datanodes that answer and are none of those namenodes. -/
def candidateCount (scanNn scanDn : Node → Bool) (namenodeList datanodeList : List Node) : ℕ :=
  datanodeList.countP fun node =>
    scanDn node && !namenodeList.any fun n => scanNn n && n.sameIp node

/-- The list keeps the namenodes that answer, and it is filled up to `expected_nn` with datanodes
that answer. -/
structure Selection (scanNn scanDn : Node → Bool) (expectedNn : ℕ) (nnPort : Int)
    (namenodeList datanodeList proposed : List Node) : Prop where
  complete : ∀ node ∈ namenodeList, scanNn node = true →
    ∃ p ∈ proposed, p.ip = node.ip ∧ p.port = node.port
  sound : ∀ p ∈ proposed,
    (∃ node ∈ namenodeList, scanNn node = true ∧ p.ip = node.ip ∧ p.port = node.port) ∨
      ∃ node ∈ datanodeList, scanDn node = true ∧ p.ip = node.ip ∧ p.port = nnPort
  distinct : (proposed.map Node.ip).Nodup
  length : proposed.length = max (aliveCount scanNn namenodeList)
    (min expectedNn (aliveCount scanNn namenodeList +
      candidateCount scanNn scanDn namenodeList datanodeList))

section Selection

variable {namenodeList datanodeList : List Node}

theorem mem_alive {p : Node} :
    p ∈ alive scanNn namenodeList ↔ ∃ node ∈ namenodeList, scanNn node = true ∧
      p = { node with nodeStatus := .online } := by
  unfold alive
  simp only [List.mem_map, List.mem_filter, List.mem_insertionSort]
  constructor
  · rintro ⟨node, ⟨hmem, hscan⟩, rfl⟩
    exact ⟨node, hmem, hscan, rfl⟩
  · rintro ⟨node, hmem, hscan, rfl⟩
    exact ⟨node, ⟨hmem, hscan⟩, rfl⟩

theorem mem_map_ip_alive {ip : String} :
    ip ∈ (alive scanNn namenodeList).map Node.ip ↔
      ∃ node ∈ namenodeList, scanNn node = true ∧ node.ip = ip := by
  rw [List.mem_map]
  constructor
  · rintro ⟨p, hp, rfl⟩
    obtain ⟨node, hmem, hscan, rfl⟩ := mem_alive.mp hp
    exact ⟨node, hmem, hscan, rfl⟩
  · rintro ⟨node, hmem, hscan, rfl⟩
    exact ⟨_, mem_alive.mpr ⟨node, hmem, hscan, rfl⟩, rfl⟩

theorem length_alive : (alive scanNn namenodeList).length = aliveCount scanNn namenodeList := by
  have hperm := List.perm_insertionSort (fun a b : Node => a.ip ≤ b.ip) namenodeList
  rw [alive, List.length_map, ← List.countP_eq_length_filter, aliveCount, hperm.countP_eq]

theorem length_candidates :
    (candidates scanNn scanDn namenodeList datanodeList).length =
      candidateCount scanNn scanDn namenodeList datanodeList := by
  rw [candidates, ← List.countP_eq_length_filter, candidateCount]
  refine List.countP_congr fun node _ => ?_
  have hmem : node.ip ∈ (alive scanNn namenodeList).map Node.ip ↔
      (namenodeList.any fun n => scanNn n && n.sameIp node) = true := by
    rw [mem_map_ip_alive]
    simp [Node.sameIp]
  by_cases hany : (namenodeList.any fun n => scanNn n && n.sameIp node) = true
  · have hcontains : ((alive scanNn namenodeList).map Node.ip).contains node.ip = true :=
      List.contains_iff_mem.mpr (hmem.mpr hany)
    rw [hcontains, hany]
  · have hcontains : ((alive scanNn namenodeList).map Node.ip).contains node.ip = false := by
      rw [Bool.eq_false_iff, ne_eq, List.contains_iff_mem]
      exact fun h => hany (hmem.mp h)
    rw [hcontains, Bool.eq_false_iff.mpr hany]

theorem nodup_alive (hnn : (namenodeList.map Node.ip).Nodup) :
    ((alive scanNn namenodeList).map Node.ip).Nodup := by
  have hperm := (List.perm_insertionSort (fun a b : Node => a.ip ≤ b.ip) namenodeList).map Node.ip
  have hsub := (List.filter_sublist (p := scanNn)
    (l := namenodeList.insertionSort fun a b => a.ip ≤ b.ip)).map Node.ip
  have halive : (alive scanNn namenodeList).map Node.ip =
      ((namenodeList.insertionSort fun a b => a.ip ≤ b.ip).filter scanNn).map Node.ip := by
    rw [alive, List.map_map]
    rfl
  rw [halive]
  exact (hperm.nodup_iff.mpr hnn).sublist hsub

theorem mem_candidates {node : Node} :
    node ∈ candidates scanNn scanDn namenodeList datanodeList ↔
      node ∈ datanodeList ∧ scanDn node = true ∧
        node.ip ∉ (alive scanNn namenodeList).map Node.ip := by
  rw [candidates, List.mem_filter, Bool.and_eq_true, Bool.not_eq_true', ← Bool.not_eq_true,
    List.contains_iff_mem]

theorem nodup_proposal (hnn : (namenodeList.map Node.ip).Nodup)
    (hdn : (datanodeList.map Node.ip).Nodup) :
    ((proposal scanNn scanDn expectedNn nnPort namenodeList datanodeList).map Node.ip).Nodup := by
  have hchosen : (((candidates scanNn scanDn namenodeList datanodeList).take
      (expectedNn - (alive scanNn namenodeList).length)).map (asNamenode nnPort)).map Node.ip =
      ((candidates scanNn scanDn namenodeList datanodeList).take
        (expectedNn - (alive scanNn namenodeList).length)).map Node.ip := by
    rw [List.map_map]
    rfl
  rw [proposal, List.map_append, hchosen, List.nodup_append]
  refine ⟨nodup_alive hnn, ?_, ?_⟩
  · have hsub := ((List.take_sublist _ _).trans List.filter_sublist :
      ((candidates scanNn scanDn namenodeList datanodeList).take
        (expectedNn - (alive scanNn namenodeList).length)).Sublist datanodeList)
    exact hdn.sublist (hsub.map Node.ip)
  · intro a ha b hb hab
    obtain ⟨node, hmem, rfl⟩ := List.mem_map.mp hb
    exact (mem_candidates.mp (List.mem_of_mem_take hmem)).2.2 (hab ▸ ha)

theorem length_proposal (scanNn scanDn : Node → Bool) (expectedNn : ℕ) (nnPort : Int)
    (namenodeList datanodeList : List Node) :
    (proposal scanNn scanDn expectedNn nnPort namenodeList datanodeList).length =
      max (aliveCount scanNn namenodeList) (min expectedNn (aliveCount scanNn namenodeList +
        candidateCount scanNn scanDn namenodeList datanodeList)) := by
  rw [proposal, List.length_append, List.length_map, List.length_take, length_alive,
    length_candidates]
  omega

theorem selection_proposal (hnn : (namenodeList.map Node.ip).Nodup)
    (hdn : (datanodeList.map Node.ip).Nodup) :
    Selection scanNn scanDn expectedNn nnPort namenodeList datanodeList
      (proposal scanNn scanDn expectedNn nnPort namenodeList datanodeList) where
  complete node hmem hscan :=
    ⟨_, List.mem_append_left _ (mem_alive.mpr ⟨node, hmem, hscan, rfl⟩), rfl, rfl⟩
  sound p hp := by
    rcases List.mem_append.mp hp with hp | hp
    · obtain ⟨node, hmem, hscan, rfl⟩ := mem_alive.mp hp
      exact .inl ⟨node, hmem, hscan, rfl, rfl⟩
    · obtain ⟨node, htake, rfl⟩ := List.mem_map.mp hp
      have hcand := mem_candidates.mp (List.mem_of_mem_take htake)
      exact .inr ⟨node, hcand.1, hcand.2.1, rfl, rfl⟩
  distinct := nodup_proposal hnn hdn
  length := length_proposal _ _ _ _ _ _

/-- The list keeps every namenode that answers and takes only datanodes that answer, as many as
are missing.  There is none exactly when no namenode and no datanode can be taken. -/
theorem selection_of_nodup (scanNn scanDn : Node → Bool) (expectedNn : ℕ) (nnPort : Int)
    (hnn : (namenodeList.map Node.ip).Nodup) (hdn : (datanodeList.map Node.ip).Nodup) :
    (∀ proposed, onLeaderStart scanNn scanDn expectedNn nnPort namenodeList datanodeList =
        .ok proposed →
      Selection scanNn scanDn expectedNn nnPort namenodeList datanodeList proposed) ∧
    ((∃ e, onLeaderStart scanNn scanDn expectedNn nnPort namenodeList datanodeList = .error e) ↔
      aliveCount scanNn namenodeList = 0 ∧
        (expectedNn = 0 ∨ candidateCount scanNn scanDn namenodeList datanodeList = 0)) := by
  rw [onLeaderStart_eq]
  constructor
  · intro proposed h
    split at h
    · cases h
    · cases h
      exact selection_proposal hnn hdn
  · have hlength := length_proposal scanNn scanDn expectedNn nnPort namenodeList datanodeList
    split
    · rename_i hnil
      rw [hnil, List.length_nil] at hlength
      exact iff_of_true ⟨_, rfl⟩ (by omega)
    · rename_i hcons
      have hpos := List.length_pos_iff.mpr hcons
      exact iff_of_false (fun ⟨e, h⟩ => by cases h) (by omega)

/-- One of two namenodes answers, and two of three datanodes fill the list up to three. -/
theorem selection_threeDatanodes :
    let namenodes : List Node := [⟨"10.0.0.2", 18000, .unknown⟩, ⟨"10.0.0.1", 18000, .unknown⟩]
    let datanodes : List Node := [⟨"10.0.0.2", 18001, .unknown⟩, ⟨"10.0.0.3", 18001, .unknown⟩,
      ⟨"10.0.0.4", 18001, .unknown⟩, ⟨"10.0.0.1", 18001, .unknown⟩]
    ((namenodes.map Node.ip).Nodup ∧ (datanodes.map Node.ip).Nodup) ∧
      Selection (fun node => node.ip = "10.0.0.2") (fun node => node.ip ≠ "10.0.0.3") 3 18000
        namenodes datanodes [⟨"10.0.0.2", 18000, .online⟩, ⟨"10.0.0.4", 18000, .online⟩,
          ⟨"10.0.0.1", 18000, .online⟩] := by
  refine ⟨⟨by decide, by decide⟩, ?_⟩
  exact (selection_of_nodup (fun node => node.ip = "10.0.0.2") (fun node => node.ip ≠ "10.0.0.3")
    3 18000 (by decide) (by decide)).1 _ (by decide)

end Selection

end RaftDN

end Spkdfs
