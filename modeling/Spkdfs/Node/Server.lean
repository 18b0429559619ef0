import Mathlib.Data.List.Induction
import Spkdfs.Common.Node
import Spkdfs.Lib.Run

/-!
# Which servers run a namenode

The datanodes agree on the list of the namenodes: `RaftDN` of `node/raft_dn.cpp`
is their replicated state machine, and its state is `namenode_list`.  When a new
list is applied, `applyCallback` tells the server about it, and
`Server::on_namenodes_change` of `node/server.cpp` starts the namenode of this
server, stops it, or changes its peers.

The list has a second writer.  `on_snapshot_load` reads it from a snapshot, and
does not call `applyCallback`.

A call that throws ends the process, since nothing catches the exception: an
`on_apply` without an entry, which parses an empty text, and a namenode that
cannot be started.  `Server.step` answers `none` there.

`change_namenodes_list` asks the old peers (`change_peers`), or goes on without them
(`reset_peers`).  It compares the number of the old peers that are left with half of the new
list, and not of the old one (`respectsQuorum_iff`).
-/

namespace Spkdfs

/-- What `Server` sees of its `RaftNN`. -/
structure RaftNN where
  peers : List Node
  deriving DecidableEq

namespace RaftNN

/-- `RaftNN::list_peers`. -/
def listPeers (nn : RaftNN) : List Node := nn.peers

/-- `RaftNN::change_peers`. -/
def changePeers (_ : RaftNN) (namenodes : List Node) : RaftNN := ⟨namenodes⟩

/-- `RaftNN::reset_peers`. -/
def resetPeers (_ : RaftNN) (namenodes : List Node) : RaftNN := ⟨namenodes⟩

end RaftNN

/-- A server: `namenode_list` of its `RaftDN`, and `nn_raft_ptr`. -/
structure Server where
  namenodeList : List Node
  nnRaftPtr : Option RaftNN
  deriving DecidableEq

/-- A call that braft makes. -/
inductive ServerEvent
  /-- `on_apply` with a batch of committed lists.  `starts` says whether a namenode
  can be started. -/
  | onApply (starts : Bool) (batch : List (List Node))
  /-- `on_snapshot_load`, where `none` is an empty file. -/
  | onSnapshotLoad (file : Option (List Node))
  deriving DecidableEq

namespace Server

/-- A server that has just been constructed. -/
def init : Server := ⟨[], none⟩

/-- `my_ip` occurs in the list. -/
def listed (myIp : String) (namenodes : List Node) : Bool :=
  namenodes.any fun node => node.ip = myIp

/-- The call of `RaftNN` that `change_namenodes_list` makes. -/
inductive PeersCall
  | changePeers
  | resetPeers
  deriving DecidableEq

/-- `alivenodes_count`: the old peers that `find` finds in the new list. -/
def alivenodesCount (oldNamenodes newNamenodes : List Node) : ℕ :=
  oldNamenodes.countP fun node => newNamenodes.any fun n => n.sameIp node

/-- The decision of `change_namenodes_list`. -/
def peersCall (nn : RaftNN) (newNamenodes : List Node) : PeersCall :=
  if alivenodesCount nn.listPeers newNamenodes > newNamenodes.length / 2 then .changePeers
  else .resetPeers

/-- `Server::change_namenodes_list`. -/
def changeNamenodesList (nn : RaftNN) (newNamenodes : List Node) : RaftNN :=
  match peersCall nn newNamenodes with
  | .changePeers => nn.changePeers newNamenodes
  | .resetPeers => nn.resetPeers newNamenodes

/-- `Server::on_namenodes_change`, as a function of `nn_raft_ptr`. -/
def onNamenodesChange (myIp : String) (starts : Bool) (nnRaftPtr : Option RaftNN)
    (namenodes : List Node) : Option (Option RaftNN) :=
  if listed myIp namenodes then
    match nnRaftPtr with
    | some nn => some (some (changeNamenodesList nn namenodes))
    | none => if starts then some (some ⟨namenodes⟩) else none
  else some none

/-- `RaftDN::on_apply`.  The loop keeps the last entry of the batch only. -/
def onApply (myIp : String) (starts : Bool) (s : Server) (batch : List (List Node)) :
    Option Server :=
  match batch.getLast? with
  | none => none
  | some namenodes =>
    (onNamenodesChange myIp starts s.nnRaftPtr namenodes).map fun nn => ⟨namenodes, nn⟩

/-- `RaftDN::on_snapshot_load`. -/
def onSnapshotLoad (s : Server) (file : Option (List Node)) : Server :=
  match file with
  | none => s
  | some namenodes => { s with namenodeList := namenodes }

/-- One call. -/
def step (myIp : String) (s : Server) : ServerEvent → Option Server
  | .onApply starts batch => onApply myIp starts s batch
  | .onSnapshotLoad file => some (onSnapshotLoad s file)

/-- The namenode runs exactly when it should, with the peers that it should
have. -/
structure InStep (myIp : String) (s : Server) : Prop where
  running : s.nnRaftPtr ≠ none ↔ listed myIp s.namenodeList = true
  peers : ∀ nn, s.nnRaftPtr = some nn → nn.listPeers = s.namenodeList

/-- The state that a list calls for. -/
def target (myIp : String) (namenodes : List Node) : Server :=
  ⟨namenodes, if listed myIp namenodes then some ⟨namenodes⟩ else none⟩

theorem inStep_iff {myIp : String} {s : Server} :
    s.InStep myIp ↔ s.nnRaftPtr = (target myIp s.namenodeList).nnRaftPtr := by
  constructor
  · intro h
    by_cases hl : listed myIp s.namenodeList = true
    · obtain ⟨nn, hnn⟩ := Option.ne_none_iff_exists'.mp (h.running.mpr hl)
      have hpeers : nn.peers = s.namenodeList := h.peers nn hnn
      rw [hnn, target, if_pos hl, ← hpeers]
    · have hnone : s.nnRaftPtr = none := by
        by_contra hrun
        exact hl (h.running.mp hrun)
      rw [hnone, target, if_neg hl]
  · intro h
    refine ⟨?_, fun nn hnn => ?_⟩
    · rw [h, target]
      split <;> simp_all
    · rw [h, target] at hnn
      split at hnn
      · rw [← Option.some.inj hnn]
        rfl
      · cases hnn

/-- Both calls of `change_namenodes_list` leave the new list as the peers. -/
theorem changeNamenodesList_eq (nn : RaftNN) (namenodes : List Node) :
    changeNamenodesList nn namenodes = ⟨namenodes⟩ := by
  rw [changeNamenodesList]
  cases peersCall nn namenodes <;> rfl

/-! ## The old quorum -/

/-- How many of the old peers have their ip in the new list. -/
def stayed (oldNamenodes newNamenodes : List Node) : ℕ :=
  oldNamenodes.countP fun node => node.ip ∈ newNamenodes.map Node.ip

theorem alivenodesCount_eq_stayed (oldNamenodes newNamenodes : List Node) :
    alivenodesCount oldNamenodes newNamenodes = stayed oldNamenodes newNamenodes := by
  unfold alivenodesCount stayed
  congr
  funext node
  simp [Node.sameIp, List.any_eq]

/-- The old peers that stay are a strict majority of the old list. -/
def Majority (oldNamenodes newNamenodes : List Node) : Prop :=
  oldNamenodes.length < 2 * stayed oldNamenodes newNamenodes

/-- The old configuration is abandoned only without its majority, and asked only with it. -/
def RespectsQuorum (nn : RaftNN) (newNamenodes : List Node) : Prop :=
  (peersCall nn newNamenodes = .resetPeers → ¬ Majority nn.listPeers newNamenodes) ∧
    (peersCall nn newNamenodes = .changePeers → Majority nn.listPeers newNamenodes)

/-- The count is compared with half of the new list.  That is right if and only if it is not
between the halves of the two lists. -/
theorem respectsQuorum_iff (nn : RaftNN) (newNamenodes : List Node) :
    RespectsQuorum nn newNamenodes ↔
      stayed nn.listPeers newNamenodes ≤
          min (nn.listPeers.length / 2) (newNamenodes.length / 2) ∨
        max (nn.listPeers.length / 2) (newNamenodes.length / 2) <
          stayed nn.listPeers newNamenodes := by
  unfold RespectsQuorum Majority peersCall
  rw [alivenodesCount_eq_stayed]
  generalize stayed nn.listPeers newNamenodes = alive
  split
  · simp
    omega
  · simp
    omega

/-- Two of five peers are left, and `change_peers` waits for a majority that is gone. -/
theorem not_respectsQuorum_twoOfFive :
    ¬ ∀ (nn : RaftNN) (newNamenodes : List Node), (newNamenodes.map Node.ip).Nodup →
      RespectsQuorum nn newNamenodes := by
  intro h
  have hfive := h ⟨[⟨"192.168.88.112", 8001, .unknown⟩, ⟨"192.168.88.113", 8001, .unknown⟩,
    ⟨"192.168.88.114", 8001, .unknown⟩, ⟨"192.168.88.115", 8001, .unknown⟩,
    ⟨"192.168.88.116", 8001, .unknown⟩]⟩
    [⟨"192.168.88.112", 8001, .unknown⟩, ⟨"192.168.88.113", 8001, .unknown⟩] (by decide)
  have hmajority := hfive.2 (by decide)
  exact absurd hmajority (by unfold Majority; decide)

/-! ## Runs -/

/-- After `on_apply` the state is the one that the last list of the batch calls
for, whatever the state was before. -/
theorem onApply_eq_some {myIp : String} {starts : Bool} {s s' : Server}
    {batch : List (List Node)} (h : onApply myIp starts s batch = some s') :
    ∃ namenodes, batch.getLast? = some namenodes ∧ s' = target myIp namenodes := by
  unfold onApply at h
  split at h
  · cases h
  · rename_i namenodes hlast
    obtain ⟨nn, hnn, rfl⟩ := Option.map_eq_some_iff.mp h
    refine ⟨namenodes, hlast, ?_⟩
    unfold onNamenodesChange at hnn
    rw [target]
    split at hnn
    · rename_i hl
      rw [if_pos hl]
      split at hnn
      · rw [← Option.some.inj hnn, changeNamenodesList_eq]
      · split at hnn
        · rw [← Option.some.inj hnn]
        · cases hnn
    · rename_i hl
      rw [if_neg hl, ← Option.some.inj hnn]

/-- With a namenode that can be started, `on_apply` of a batch returns. -/
theorem onApply_concat (myIp : String) (s : Server) (batch : List (List Node))
    (namenodes : List Node) :
    onApply myIp true s (batch ++ [namenodes]) = some (target myIp namenodes) := by
  have hsome : ∃ s', onApply myIp true s (batch ++ [namenodes]) = some s' := by
    simp only [onApply, onNamenodesChange, List.getLast?_concat]
    split
    · split <;> simp
    · simp
  obtain ⟨s', hs'⟩ := hsome
  obtain ⟨namenodes', hlast, rfl⟩ := onApply_eq_some hs'
  rw [List.getLast?_concat] at hlast
  rw [hs', Option.some.inj hlast]

/-- What a call of `on_snapshot_load` needs: the file is empty, its list is the
list that the server has, or `my_ip` is in neither of the two lists. -/
def SnapshotKeeps (myIp : String) (s : Server) : ServerEvent → Prop
  | .onApply _ _ => True
  | .onSnapshotLoad none => True
  | .onSnapshotLoad (some namenodes) =>
    namenodes = s.namenodeList ∨
      (listed myIp namenodes = false ∧ listed myIp s.namenodeList = false)

instance (myIp : String) (s : Server) (ev : ServerEvent) : Decidable (s.SnapshotKeeps myIp ev) :=
  match ev with
  | .onApply _ _ => isTrue trivial
  | .onSnapshotLoad none => isTrue trivial
  | .onSnapshotLoad (some _) => inferInstanceAs (Decidable (_ ∨ _))

/-- From a state in step, a call leads to a state in step exactly when it meets
the condition. -/
theorem inStep_step_iff {myIp : String} {s s' : Server} {ev : ServerEvent}
    (hs : s.InStep myIp) (h : s.step myIp ev = some s') :
    s'.InStep myIp ↔ s.SnapshotKeeps myIp ev := by
  cases ev with
  | onApply starts batch =>
    obtain ⟨namenodes, _, rfl⟩ := onApply_eq_some h
    exact iff_of_true (inStep_iff.mpr rfl) trivial
  | onSnapshotLoad file =>
    obtain rfl := Option.some.inj h
    cases file with
    | none => exact iff_of_true hs trivial
    | some namenodes =>
      have hself : (onSnapshotLoad s (some namenodes)).InStep myIp ↔
          s.nnRaftPtr = (target myIp namenodes).nnRaftPtr := inStep_iff
      rw [hself, inStep_iff.mp hs, SnapshotKeeps, target, target]
      cases hold : listed myIp s.namenodeList <;> cases hnew : listed myIp namenodes
      · simp
      · have hne : namenodes ≠ s.namenodeList := by
          rintro rfl
          rw [hold] at hnew
          cases hnew
        simp [hne]
      · have hne : namenodes ≠ s.namenodeList := by
          rintro rfl
          rw [hold] at hnew
          cases hnew
        simp [hne]
      · simp [eq_comm]

/-- A run of `on_apply` calls, one for each batch. -/
def applyBatches (batches : List (List (List Node))) : List ServerEvent :=
  batches.map (.onApply true)

/-- The batches of a run matter through their concatenation only. -/
theorem run_applyBatches (myIp : String) (s : Server) (batches : List (List (List Node)))
    (hne : ∀ b ∈ batches, b ≠ []) :
    Runs.run (step myIp) s (applyBatches batches) =
      some (match batches.flatten.getLast? with
        | none => s
        | some namenodes => target myIp namenodes) := by
  induction batches using List.reverseRecOn with
  | nil => rfl
  | append_singleton batches b ih =>
    obtain ⟨init, namenodes, rfl⟩ := List.eq_nil_or_concat b |>.resolve_left (hne b (by simp))
    have hrest := ih fun b hb => hne b (List.mem_append_left _ hb)
    rw [List.concat_eq_append, applyBatches, List.map_append, Runs.run_append, ← applyBatches,
      hrest, Option.bind_some, List.map_singleton, Runs.run_singleton, step, onApply_concat]
    simp

/-- In every run in which each loaded snapshot meets the condition, the server
runs a namenode exactly when `my_ip` is in `namenode_list`, with that list as its
peers.  A further call keeps this exactly when it meets the condition too, and
the grouping of committed lists into batches does not matter. -/
theorem inStep_of_snapshotKeeps {myIp : String} {s : Server}
    (h : Runs.Reach (step myIp) (SnapshotKeeps myIp) init s) :
    s.InStep myIp ∧
      (∀ ev s', s.step myIp ev = some s' → (s'.InStep myIp ↔ s.SnapshotKeeps myIp ev)) ∧
      ∀ batches batches' : List (List (List Node)), (∀ b ∈ batches, b ≠ []) →
        (∀ b ∈ batches', b ≠ []) → batches.flatten = batches'.flatten →
        ∃ s', Runs.run (step myIp) s (applyBatches batches) = some s' ∧
          Runs.run (step myIp) s (applyBatches batches') = some s' := by
  have hs : s.InStep myIp :=
    h.invariant (inStep_iff.mpr rfl) fun _ _ _ _ hs hok hstep => (inStep_step_iff hs hstep).mpr hok
  refine ⟨hs, fun ev s' hstep => inStep_step_iff hs hstep, ?_⟩
  intro batches batches' hne hne' hflat
  refine ⟨_, run_applyBatches myIp s batches hne, ?_⟩
  rw [run_applyBatches myIp s batches' hne', hflat]

/-- A server among the namenodes, and another one. -/
def here : Node := ⟨"192.168.88.112", 8001, .unknown⟩

def there : Node := ⟨"192.168.88.113", 8001, .unknown⟩

/-- Two batches, and a snapshot of the list that is there already. -/
def keptEvents : List ServerEvent :=
  [.onApply true [[there]], .onApply true [[there, here], [here, there]],
    .onSnapshotLoad (some [here, there])]

/-- After `keptEvents` the namenode runs. -/
theorem inStep_keptEvents :
    ∃ s, Runs.Reach (step here.ip) (SnapshotKeeps here.ip) init s ∧ s.InStep here.ip ∧
      s.nnRaftPtr = some ⟨[here, there]⟩ := by
  have hrun : ∃ s, Runs.Reach (step here.ip) (SnapshotKeeps here.ip) init s ∧
      decide (s.nnRaftPtr = some ⟨[here, there]⟩) = true :=
    Runs.exists_reach_of_any_guarded keptEvents (by decide +kernel)
  obtain ⟨s, hreach, hnn⟩ := hrun
  exact ⟨s, hreach, (inStep_of_snapshotKeeps hreach).1, of_decide_eq_true hnn⟩

/-- A server that loads a snapshot with its own ip runs no namenode. -/
theorem not_inStep_of_snapshot :
    ¬ ∀ s, Runs.Reachable (step here.ip) init s → s.InStep here.ip := by
  intro h
  have hrun : ∃ s, Runs.Reachable (step here.ip) init s ∧
      decide (s.nnRaftPtr = none ∧ listed here.ip s.namenodeList = true) = true :=
    Runs.exists_reachable_of_any [.onSnapshotLoad (some [here])] (by decide +kernel)
  obtain ⟨s, hreach, htest⟩ := hrun
  obtain ⟨hnone, hlisted⟩ := of_decide_eq_true htest
  exact (h s hreach).running.mpr hlisted hnone

end Server

end Spkdfs
