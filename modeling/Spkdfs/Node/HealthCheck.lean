import Mathlib.Algebra.Group.Nat.Defs
import Mathlib.Data.List.Basic
import Spkdfs.Common.Node

/-!
# The health check of the namenodes

The function that `nn_timer` runs (`RaftDN::on_apply` of `node/raft_dn.cpp`).  It scans the
namenodes in order.  A node that is offline is scanned again, and after its fourth scan the
function throws a `TimeoutException` with the ip of the node.

The loop goes back to a node by `i--` in front of `++i`, with an index of type `size_t`, and all
nodes share one counter of retries.  `Inv` says what the scans so far look like, and `weight` is
what every iteration makes smaller.  `healthCheck_sound` is the summary.

The answers are a sequence: `echoes k` is what the scan number `k` of the call meets.
-/

namespace Spkdfs

/-- The variables of the loop, and the scans that were made: which node was scanned, and what
the scan met. -/
structure HealthCheck where
  namenodeList : List Node
  i : UInt64
  retryCount : ℕ
  scans : List (ℕ × Echo)

/-- How the function ends.  The exception of a timeout carries the ip of the node; the index of
the node is kept beside it. -/
inductive HealthResult
  | returned
  | timeout (index : ℕ) (ip : String)
  | thrown (e : Exception)
  deriving DecidableEq

namespace HealthCheck

def init (namenodeList : List Node) : HealthCheck := ⟨namenodeList, 0, 0, []⟩

/-- One iteration of the loop: how the function ends, if it does, and the variables behind it. -/
def iteration (echoes : ℕ → Echo) (st : HealthCheck) : Option HealthResult × HealthCheck :=
  match st.namenodeList[st.i.toNat]? with
  | none => (some .returned, st)
  | some node =>
    let echo := echoes st.scans.length
    let scans := st.scans ++ [(st.i.toNat, echo)]
    match node.scan echo with
    | .error e => (some (.thrown e), { st with scans := scans })
    | .ok node =>
      let namenodeList := st.namenodeList.set st.i.toNat node
      if node.nodeStatus = .offline then
        if 3 ≤ st.retryCount then
          (some (.timeout st.i.toNat node.ip), ⟨namenodeList, st.i, st.retryCount, scans⟩)
        else
          -- `i--` wraps around at the first node, and `++i` behind `continue` wraps back.
          (none, ⟨namenodeList, st.i - 1 + 1, st.retryCount + 1, scans⟩)
      else (none, ⟨namenodeList, st.i + 1, 0, scans⟩)

/-- The loop.  One unit of fuel is one iteration. -/
def healthLoop (echoes : ℕ → Echo) : ℕ → HealthCheck → Option (HealthResult × HealthCheck)
  | 0, _ => none
  | fuel + 1, st =>
    match iteration echoes st with
    | (some result, st) => some (result, st)
    | (none, st) => healthLoop echoes fuel st

/-! ## What the scans say -/

/-- What the scans of one node have met. -/
def scansOf (scans : List (ℕ × Echo)) (i : ℕ) : List Echo :=
  (scans.filter fun p => p.1 = i).map Prod.snd

/-- The node was online in one of its first four scans, and was not scanned again. -/
def Answers (scans : List (ℕ × Echo)) (i : ℕ) : Prop :=
  ∃ k ≤ 3, scansOf scans i = List.replicate k .failed ++ [.answered]

/-- The node was offline in four scans. -/
def Silent (scans : List (ℕ × Echo)) (j : ℕ) : Prop :=
  scansOf scans j = List.replicate 4 .failed

/-- What the end of the function says about the namenodes. -/
structure Sound (echoes : ℕ → Echo) (namenodeList : List Node) (result : HealthResult)
    (scans : List (ℕ × Echo)) : Prop where
  bounded : scans.length ≤ 4 * namenodeList.length
  recorded : scans.map Prod.snd = (List.range scans.length).map echoes
  ordered : (scans.map Prod.fst).Pairwise (· ≤ ·)
  blames : ∀ j, (∃ ip, result = .timeout j ip) ↔
    j < namenodeList.length ∧ Silent scans j ∧ ∀ i < j, Answers scans i
  carries : ∀ j ip, result = .timeout j ip → (namenodeList.map Node.ip)[j]? = some ip
  returns : result = .returned ↔ ∀ i < namenodeList.length, Answers scans i
  ends : (∀ k, echoes k ≠ .noChannel) → result = .returned ∨ ∃ j ip, result = .timeout j ip

theorem not_answers_of_silent {scans : List (ℕ × Echo)} {i : ℕ} (h : Silent scans i) :
    ¬ Answers scans i := by
  rintro ⟨k, _, hk⟩
  have hmem : Echo.answered ∈ scansOf scans i := by
    rw [hk]
    exact List.mem_append_right _ List.mem_cons_self
  rw [h] at hmem
  exact absurd (List.eq_of_mem_replicate hmem) (by decide)

/-- A scan without a channel is none of those of a node that answers or times out. -/
theorem not_answers_of_mem {scans : List (ℕ × Echo)} {i : ℕ}
    (h : Echo.noChannel ∈ scansOf scans i) : ¬ Answers scans i ∧ ¬ Silent scans i := by
  constructor
  · rintro ⟨k, _, hk⟩
    rw [hk] at h
    rcases List.mem_append.mp h with h | h
    · exact absurd (List.eq_of_mem_replicate h) (by decide)
    · exact absurd (List.mem_singleton.mp h) (by decide)
  · intro hsilent
    rw [hsilent] at h
    exact absurd (List.eq_of_mem_replicate h) (by decide)

theorem scansOf_append (xs ys : List (ℕ × Echo)) (i : ℕ) :
    scansOf (xs ++ ys) i = scansOf xs i ++ scansOf ys i := by
  simp [scansOf]

theorem scansOf_eq_nil {xs : List (ℕ × Echo)} {i : ℕ} (h : ∀ p ∈ xs, p.1 ≠ i) :
    scansOf xs i = [] := by
  rw [scansOf, List.map_eq_nil_iff, List.filter_eq_nil_iff]
  intro p hp
  simpa using h p hp

theorem scansOf_eq_map {xs : List (ℕ × Echo)} {i : ℕ} (h : ∀ p ∈ xs, p.1 = i) :
    scansOf xs i = xs.map Prod.snd := by
  rw [scansOf, List.filter_eq_self.mpr]
  intro p hp
  simpa using h p hp

/-- The scans of the first nodes, all of which have answered. -/
inductive Passed : ℕ → List (ℕ × Echo) → Prop
  | zero : Passed 0 []
  | succ {i k : ℕ} {front : List (ℕ × Echo)} (h : Passed i front) (hk : k ≤ 3) :
      Passed (i + 1) (front ++ (List.replicate k (i, .failed) ++ [(i, .answered)]))

theorem fst_of_mem_tail {i k : ℕ} {e : Echo} {p : ℕ × Echo}
    (hp : p ∈ List.replicate k (i, Echo.failed) ++ [(i, e)]) : p.1 = i := by
  rcases List.mem_append.mp hp with hp | hp
  · rw [List.eq_of_mem_replicate hp]
  · rw [List.mem_singleton.mp hp]

theorem Passed.lt_of_mem {m : ℕ} {scans : List (ℕ × Echo)} (h : Passed m scans) :
    ∀ p ∈ scans, p.1 < m := by
  induction h with
  | zero => simp
  | succ h hk ih =>
    intro p hp
    rcases List.mem_append.mp hp with hp | hp
    · have := ih p hp
      omega
    · have := fst_of_mem_tail hp
      omega

theorem Passed.length_le {m : ℕ} {scans : List (ℕ × Echo)} (h : Passed m scans) :
    scans.length ≤ 4 * m := by
  induction h with
  | zero => simp
  | succ h hk ih =>
    simp only [List.length_append, List.length_replicate, List.length_singleton]
    omega

/-- Scans of a node behind those of the nodes in front of it leave these alone. -/
theorem Passed.scansOf_append {m : ℕ} {front tail : List (ℕ × Echo)} (h : Passed m front)
    (htail : ∀ p ∈ tail, p.1 = m) :
    scansOf (front ++ tail) m = tail.map Prod.snd ∧
      ∀ i < m, scansOf (front ++ tail) i = scansOf front i := by
  constructor
  · rw [HealthCheck.scansOf_append, scansOf_eq_map htail, scansOf_eq_nil, List.nil_append]
    intro p hp
    have := h.lt_of_mem p hp
    omega
  · intro i hi
    have hnil : scansOf tail i = [] := scansOf_eq_nil fun p hp => by
      have := htail p hp
      omega
    rw [HealthCheck.scansOf_append, hnil, List.append_nil]

theorem Passed.answers {m : ℕ} {scans : List (ℕ × Echo)} (h : Passed m scans) :
    ∀ i < m, Answers scans i := by
  induction h with
  | zero => simp
  | @succ m k front h hk ih =>
    have htail : ∀ p ∈ List.replicate k (m, Echo.failed) ++ [(m, .answered)], p.1 = m :=
      fun p => fst_of_mem_tail
    obtain ⟨hlast, hfront⟩ := h.scansOf_append htail
    intro i hi
    by_cases him : i = m
    · refine ⟨k, hk, ?_⟩
      rw [him, hlast]
      simp
    · obtain ⟨k', hk', hscans⟩ := ih i (by omega)
      exact ⟨k', hk', (hfront i (by omega)).trans hscans⟩

theorem Passed.pairwise_append {m : ℕ} {front tail : List (ℕ × Echo)} (h : Passed m front)
    (hfront : (front.map Prod.fst).Pairwise (· ≤ ·)) (htail : ∀ p ∈ tail, p.1 = m) :
    ((front ++ tail).map Prod.fst).Pairwise (· ≤ ·) := by
  rw [List.map_append, List.pairwise_append]
  refine ⟨hfront, ?_, ?_⟩
  · rw [List.pairwise_map]
    refine List.pairwise_of_forall_mem_list fun p hp q hq => ?_
    rw [htail p hp, htail q hq]
  · intro a ha b hb
    obtain ⟨p, hp, rfl⟩ := List.mem_map.mp ha
    obtain ⟨q, hq, rfl⟩ := List.mem_map.mp hb
    have hlt := h.lt_of_mem p hp
    have := htail q hq
    omega

theorem Passed.pairwise {m : ℕ} {scans : List (ℕ × Echo)} (h : Passed m scans) :
    (scans.map Prod.fst).Pairwise (· ≤ ·) := by
  induction h with
  | zero => simp
  | succ h hk ih => exact h.pairwise_append ih fun p => fst_of_mem_tail

/-! ## One iteration -/

/-- Between two iterations: the nodes in front of the current one have answered, and the current
one was offline as often as the counter says. -/
structure Inv (echoes : ℕ → Echo) (namenodeList : List Node) (st : HealthCheck) : Prop where
  scans : ∃ front, Passed st.i.toNat front ∧
    st.scans = front ++ List.replicate st.retryCount (st.i.toNat, .failed)
  retry : st.retryCount ≤ 3
  index : st.i.toNat ≤ namenodeList.length
  pending : 0 < st.retryCount → st.i.toNat < namenodeList.length
  ips : st.namenodeList.map Node.ip = namenodeList.map Node.ip
  recorded : st.scans.map Prod.snd = (List.range st.scans.length).map echoes

/-- The number of scans that are left at most. -/
def weight (st : HealthCheck) : ℕ := 4 * (st.namenodeList.length - st.i.toNat) - st.retryCount

/-- The scans at the end of the function. -/
def Shape (n : ℕ) (result : HealthResult) (scans : List (ℕ × Echo)) : Prop :=
  match result with
  | .returned => Passed n scans
  | .timeout j _ => j < n ∧ ∃ front, Passed j front ∧ scans = front ++ List.replicate 4 (j, .failed)
  | .thrown _ => ∃ i < n, ∃ k ≤ 3, ∃ front, Passed i front ∧
      scans = front ++ (List.replicate k (i, .failed) ++ [(i, .noChannel)])

/-- What is known when the function ends. -/
structure Ended (echoes : ℕ → Echo) (namenodeList : List Node) (result : HealthResult)
    (scans : List (ℕ × Echo)) : Prop where
  shape : Shape namenodeList.length result scans
  recorded : scans.map Prod.snd = (List.range scans.length).map echoes
  carries : ∀ j ip, result = .timeout j ip → (namenodeList.map Node.ip)[j]? = some ip

variable {echoes : ℕ → Echo} {namenodeList : List Node} {st : HealthCheck}

theorem inv_init (echoes : ℕ → Echo) (namenodeList : List Node) :
    Inv echoes namenodeList (init namenodeList) where
  scans := ⟨[], .zero, rfl⟩
  retry := Nat.zero_le _
  index := Nat.zero_le _
  pending h := absurd h (Nat.lt_irrefl 0)
  ips := rfl
  recorded := rfl

theorem Inv.length (h : Inv echoes namenodeList st) :
    st.namenodeList.length = namenodeList.length := by
  have hlen := congrArg List.length h.ips
  rwa [List.length_map, List.length_map] at hlen

/-- The next scan is recorded too. -/
theorem Inv.recorded_append (h : Inv echoes namenodeList st) (i : ℕ) :
    (st.scans ++ [(i, echoes st.scans.length)]).map Prod.snd =
      (List.range (st.scans ++ [(i, echoes st.scans.length)]).length).map echoes := by
  rw [List.map_append, h.recorded, List.length_append, List.length_singleton,
    List.range_succ, List.map_append]
  rfl

/-- A scan leaves the ip of the node alone. -/
theorem map_ip_set {nodes : List Node} {i : ℕ} {node : Node} (hget : nodes[i]? = some node)
    (status : NodeStatus) :
    (nodes.set i { node with nodeStatus := status }).map Node.ip = nodes.map Node.ip := by
  rw [List.map_set]
  obtain ⟨hlt, rfl⟩ := List.getElem?_eq_some_iff.mp hget
  have hself : (nodes.map Node.ip).set i ((nodes.map Node.ip).get ⟨i, by simpa using hlt⟩) =
      nodes.map Node.ip := List.set_getElem_self _
  simpa using hself

/-- At the end of the list no failed scan is left behind the last answer. -/
theorem Inv.ended_returned (h : Inv echoes namenodeList st)
    (hend : namenodeList.length ≤ st.i.toNat) :
    Ended echoes namenodeList .returned st.scans := by
  obtain ⟨front, hpassed, hscans⟩ := h.scans
  have hindex := h.index
  have hzero : st.retryCount = 0 := by
    by_contra hne
    have := h.pending (by omega)
    omega
  refine ⟨?_, h.recorded, fun j ip hresult => by cases hresult⟩
  show Passed namenodeList.length st.scans
  rw [hscans, hzero, List.replicate_zero, List.append_nil,
    show namenodeList.length = st.i.toNat by omega]
  exact hpassed

/-- A scan without a channel ends the function. -/
theorem Inv.ended_thrown (h : Inv echoes namenodeList st)
    (hlt : st.i.toNat < namenodeList.length) (hecho : echoes st.scans.length = .noChannel)
    (e : Exception) :
    Ended echoes namenodeList (.thrown e) (st.scans ++ [(st.i.toNat, .noChannel)]) := by
  obtain ⟨front, hpassed, hscans⟩ := h.scans
  refine ⟨⟨_, hlt, _, h.retry, front, hpassed, ?_⟩, ?_, fun j ip hresult => by cases hresult⟩
  · rw [hscans, List.append_assoc]
  · rw [← hecho]
    exact h.recorded_append _

/-- The fourth failed scan of a node ends the function. -/
theorem Inv.ended_timeout (h : Inv echoes namenodeList st)
    (hlt : st.i.toNat < namenodeList.length) (hecho : echoes st.scans.length = .failed)
    (hretry : 3 ≤ st.retryCount) {ip : String}
    (hip : (namenodeList.map Node.ip)[st.i.toNat]? = some ip) :
    Ended echoes namenodeList (.timeout st.i.toNat ip) (st.scans ++ [(st.i.toNat, .failed)]) := by
  obtain ⟨front, hpassed, hscans⟩ := h.scans
  have hthree : st.retryCount = 3 := Nat.le_antisymm h.retry hretry
  refine ⟨⟨hlt, front, hpassed, ?_⟩, ?_, ?_⟩
  · rw [hscans, hthree, List.append_assoc]
    rfl
  · rw [← hecho]
    exact h.recorded_append _
  · intro j ip' hresult
    cases hresult
    exact hip

/-- Another failed scan of the same node. -/
theorem Inv.failed (h : Inv echoes namenodeList st) (hlt : st.i.toNat < namenodeList.length)
    (hecho : echoes st.scans.length = .failed) (hretry : st.retryCount < 3) {nodes : List Node}
    (hips : nodes.map Node.ip = namenodeList.map Node.ip) :
    Inv echoes namenodeList
      ⟨nodes, st.i, st.retryCount + 1, st.scans ++ [(st.i.toNat, .failed)]⟩ := by
  obtain ⟨front, hpassed, hscans⟩ := h.scans
  refine ⟨⟨front, hpassed, ?_⟩, hretry, h.index, fun _ => hlt, hips, ?_⟩
  · show st.scans ++ [(st.i.toNat, .failed)] = _
    rw [hscans, List.append_assoc, List.replicate_succ']
  · rw [← hecho]
    exact h.recorded_append _

/-- The answer of a node takes the loop to the next one. -/
theorem Inv.answered (h : Inv echoes namenodeList st) (hlt : st.i.toNat < namenodeList.length)
    (hecho : echoes st.scans.length = .answered) {nodes : List Node} {i : UInt64}
    (hi : i.toNat = st.i.toNat + 1) (hips : nodes.map Node.ip = namenodeList.map Node.ip) :
    Inv echoes namenodeList ⟨nodes, i, 0, st.scans ++ [(st.i.toNat, .answered)]⟩ := by
  obtain ⟨front, hpassed, hscans⟩ := h.scans
  refine ⟨⟨_, hi ▸ hpassed.succ h.retry, ?_⟩, Nat.zero_le 3, ?_,
    fun hpos => absurd hpos (Nat.lt_irrefl 0), hips, ?_⟩
  · show st.scans ++ [(st.i.toNat, .answered)] = _
    rw [hscans, List.append_assoc, List.replicate_zero, List.append_nil]
  · show i.toNat ≤ _
    omega
  · rw [← hecho]
    exact h.recorded_append _

theorem iteration_of_noChannel {node : Node} (hget : st.namenodeList[st.i.toNat]? = some node)
    (hecho : echoes st.scans.length = .noChannel) :
    iteration echoes st = (some (.thrown (.runtime "channel init failed")),
      { st with scans := st.scans ++ [(st.i.toNat, .noChannel)] }) := by
  unfold iteration
  rw [hget, hecho]
  rfl

/-- A node that is offline ends the function or is scanned again: the index is the same behind
`i--` and `++i`, also for the first node. -/
theorem iteration_of_failed {node : Node} (hget : st.namenodeList[st.i.toNat]? = some node)
    (hecho : echoes st.scans.length = .failed) :
    iteration echoes st =
      if 3 ≤ st.retryCount then (some (.timeout st.i.toNat node.ip),
        ⟨st.namenodeList.set st.i.toNat { node with nodeStatus := .offline }, st.i, st.retryCount,
          st.scans ++ [(st.i.toNat, .failed)]⟩)
      else (none,
        ⟨st.namenodeList.set st.i.toNat { node with nodeStatus := .offline }, st.i,
          st.retryCount + 1, st.scans ++ [(st.i.toNat, .failed)]⟩) := by
  have hsame : st.i - 1 + 1 = st.i := UInt64.sub_add_cancel st.i 1
  unfold iteration
  rw [hget, hecho, hsame]
  rfl

theorem iteration_of_answered {node : Node} (hget : st.namenodeList[st.i.toNat]? = some node)
    (hecho : echoes st.scans.length = .answered) :
    iteration echoes st = (none,
      ⟨st.namenodeList.set st.i.toNat { node with nodeStatus := .online }, st.i + 1, 0,
        st.scans ++ [(st.i.toNat, .answered)]⟩) := by
  unfold iteration
  rw [hget, hecho]
  rfl

/-- An iteration ends the function with scans of the right shape, or it keeps the invariant and
leaves less to do. -/
theorem iteration_cases (hsize : namenodeList.length < 2 ^ 64) (h : Inv echoes namenodeList st) :
    (∃ result st', iteration echoes st = (some result, st') ∧
        Ended echoes namenodeList result st'.scans) ∨
      ∃ st', iteration echoes st = (none, st') ∧ Inv echoes namenodeList st' ∧
        weight st' < weight st := by
  have hlength := h.length
  have hretry := h.retry
  cases hget : st.namenodeList[st.i.toNat]? with
  | none =>
    have hend := List.getElem?_eq_none_iff.mp hget
    refine Or.inl ⟨.returned, st, ?_, h.ended_returned (by omega)⟩
    unfold iteration
    rw [hget]
  | some node =>
    have hlt : st.i.toNat < namenodeList.length := by
      have := (List.getElem?_eq_some_iff.mp hget).1
      omega
    have hips := fun status => (map_ip_set hget status).trans h.ips
    cases hecho : echoes st.scans.length with
    | noChannel =>
      exact Or.inl ⟨_, _, iteration_of_noChannel hget hecho, h.ended_thrown hlt hecho _⟩
    | failed =>
      rw [iteration_of_failed hget hecho]
      split
      · rename_i hthree
        have hip : (namenodeList.map Node.ip)[st.i.toNat]? = some node.ip := by
          rw [← h.ips, List.getElem?_map, hget]
          rfl
        exact Or.inl ⟨_, _, rfl, h.ended_timeout hlt hecho hthree hip⟩
      · refine Or.inr ⟨_, rfl, h.failed hlt hecho (by omega) (hips _), ?_⟩
        simp only [weight, List.length_set]
        omega
    | answered =>
      have hnext : (st.i + 1).toNat = st.i.toNat + 1 := by
        rw [UInt64.toNat_add, UInt64.toNat_one]
        omega
      refine Or.inr ⟨_, iteration_of_answered hget hecho, h.answered hlt hecho hnext (hips _), ?_⟩
      simp only [weight, List.length_set, hnext]
      omega

/-! ## The whole call -/

/-- With more fuel than the scans that are left, the loop ends. -/
theorem healthLoop_ends (hsize : namenodeList.length < 2 ^ 64) (h : Inv echoes namenodeList st) :
    ∃ result st', (∀ fuel, weight st < fuel → healthLoop echoes fuel st = some (result, st')) ∧
      Ended echoes namenodeList result st'.scans := by
  -- Every iteration that does not end the function makes the weight smaller.
  induction hweight : weight st using Nat.strong_induction_on generalizing st with
  | _ w ih =>
    rcases iteration_cases hsize h with ⟨result, st', hiter, hended⟩ | ⟨st', hiter, hinv, hless⟩
    · refine ⟨result, st', ?_, hended⟩
      intro fuel hfuel
      obtain ⟨fuel, rfl⟩ := Nat.exists_eq_add_of_lt hfuel
      show (match iteration echoes st with
        | (some result, st) => some (result, st)
        | (none, st) => healthLoop echoes _ st) = _
      rw [hiter]
    · obtain ⟨result, st'', hloop, hended⟩ := ih (weight st') (by omega) hinv rfl
      refine ⟨result, st'', ?_, hended⟩
      intro fuel hfuel
      cases fuel with
      | zero => omega
      | succ fuel =>
        rw [healthLoop, hiter]
        exact hloop fuel (by omega)

/-- The nodes in front of a given one have answered, and its own scans are the last ones. -/
theorem Passed.answers_append {m : ℕ} {front tail : List (ℕ × Echo)} (h : Passed m front)
    (htail : ∀ p ∈ tail, p.1 = m) : ∀ i < m, Answers (front ++ tail) i := by
  intro i hi
  obtain ⟨k, hk, hscans⟩ := h.answers i hi
  exact ⟨k, hk, ((h.scansOf_append htail).2 i hi).trans hscans⟩

/-- The first node that does not answer. -/
def Stops (scans : List (ℕ × Echo)) (j : ℕ) : Prop :=
  ¬ Answers scans j ∧ ∀ i < j, Answers scans i

theorem Stops.unique {scans : List (ℕ × Echo)} {i j : ℕ} (hi : Stops scans i)
    (hj : Stops scans j) : i = j := by
  rcases Nat.lt_trichotomy i j with hlt | heq | hlt
  · exact absurd (hj.2 i hlt) hi.1
  · exact heq
  · exact absurd (hi.2 j hlt) hj.1

section Shape

variable {n : ℕ} {scans : List (ℕ × Echo)}

theorem stops_of_timeout {j : ℕ} {ip : String} (h : Shape n (.timeout j ip) scans) :
    j < n ∧ Silent scans j ∧ Stops scans j := by
  obtain ⟨hlt, front, hpassed, rfl⟩ := h
  have htail : ∀ p ∈ List.replicate 4 (j, Echo.failed), p.1 = j := fun p hp => by
    rw [List.eq_of_mem_replicate hp]
  have hsilent : Silent (front ++ List.replicate 4 (j, .failed)) j :=
    (hpassed.scansOf_append htail).1
  exact ⟨hlt, hsilent, not_answers_of_silent hsilent, hpassed.answers_append htail⟩

theorem stops_of_thrown {e : Exception} (h : Shape n (.thrown e) scans) :
    ∃ i < n, ¬ Silent scans i ∧ Stops scans i := by
  obtain ⟨i, hlt, k, _, front, hpassed, rfl⟩ := h
  have hmem : Echo.noChannel ∈
      scansOf (front ++ (List.replicate k (i, .failed) ++ [(i, .noChannel)])) i := by
    rw [(hpassed.scansOf_append fun p => fst_of_mem_tail).1]
    simp
  obtain ⟨hanswers, hsilent⟩ := not_answers_of_mem hmem
  exact ⟨i, hlt, hsilent, hanswers, hpassed.answers_append fun p => fst_of_mem_tail⟩

theorem Shape.blames {result : HealthResult} (h : Shape n result scans) (j : ℕ) :
    (∃ ip, result = .timeout j ip) ↔
      j < n ∧ Silent scans j ∧ ∀ i < j, Answers scans i := by
  constructor
  · rintro ⟨ip, rfl⟩
    obtain ⟨hlt, hsilent, hstops⟩ := stops_of_timeout h
    exact ⟨hlt, hsilent, hstops.2⟩
  · rintro ⟨hlt, hsilent, hfront⟩
    have hstops : Stops scans j := ⟨not_answers_of_silent hsilent, hfront⟩
    cases result with
    | returned =>
      have hpassed : Passed n scans := h
      exact absurd (hpassed.answers j hlt) hstops.1
    | timeout i ip =>
      rw [hstops.unique (stops_of_timeout h).2.2]
      exact ⟨ip, rfl⟩
    | thrown e =>
      obtain ⟨i, _, hnot, hi⟩ := stops_of_thrown h
      rw [hstops.unique hi] at hsilent
      exact absurd hsilent hnot

theorem Shape.returns {result : HealthResult} (h : Shape n result scans) :
    result = .returned ↔ ∀ i < n, Answers scans i := by
  cases result with
  | returned =>
    have hpassed : Passed n scans := h
    exact iff_of_true rfl hpassed.answers
  | timeout j ip =>
    obtain ⟨hlt, _, hstops⟩ := stops_of_timeout h
    exact iff_of_false (by simp) fun hall => hstops.1 (hall j hlt)
  | thrown e =>
    obtain ⟨i, hlt, _, hstops⟩ := stops_of_thrown h
    exact iff_of_false (by simp) fun hall => hstops.1 (hall i hlt)

theorem Shape.bounded {result : HealthResult} (h : Shape n result scans) :
    scans.length ≤ 4 * n := by
  cases result with
  | returned =>
    have hpassed : Passed n scans := h
    exact hpassed.length_le
  | timeout j ip =>
    obtain ⟨hlt, front, hpassed, rfl⟩ := h
    have := hpassed.length_le
    rw [List.length_append, List.length_replicate]
    omega
  | thrown e =>
    obtain ⟨i, hlt, k, hk, front, hpassed, rfl⟩ := h
    have := hpassed.length_le
    simp only [List.length_append, List.length_replicate, List.length_singleton]
    omega

theorem Shape.ordered {result : HealthResult} (h : Shape n result scans) :
    (scans.map Prod.fst).Pairwise (· ≤ ·) := by
  cases result with
  | returned =>
    have hpassed : Passed n scans := h
    exact hpassed.pairwise
  | timeout j ip =>
    obtain ⟨_, front, hpassed, rfl⟩ := h
    refine hpassed.pairwise_append hpassed.pairwise fun p hp => ?_
    rw [List.eq_of_mem_replicate hp]
  | thrown e =>
    obtain ⟨i, _, k, _, front, hpassed, rfl⟩ := h
    exact hpassed.pairwise_append hpassed.pairwise fun p => fst_of_mem_tail

end Shape

/-- An exception of `Node::scan` needs a scan without a channel. -/
theorem Ended.ends {result : HealthResult} {scans : List (ℕ × Echo)}
    (h : Ended echoes namenodeList result scans) (hchannel : ∀ k, echoes k ≠ .noChannel) :
    result = .returned ∨ ∃ j ip, result = .timeout j ip := by
  cases result with
  | returned => exact Or.inl rfl
  | timeout j ip => exact Or.inr ⟨j, ip, rfl⟩
  | thrown e =>
    obtain ⟨i, _, k, _, front, _, hscans⟩ := h.shape
    have hmem : Echo.noChannel ∈ scans.map Prod.snd := by simp [hscans]
    rw [h.recorded] at hmem
    obtain ⟨m, _, hm⟩ := List.mem_map.mp hmem
    exact absurd hm (hchannel m)

theorem Ended.sound {result : HealthResult} {scans : List (ℕ × Echo)}
    (h : Ended echoes namenodeList result scans) : Sound echoes namenodeList result scans where
  bounded := h.shape.bounded
  recorded := h.recorded
  ordered := h.shape.ordered
  blames := h.shape.blames
  carries := h.carries
  returns := h.shape.returns
  ends := h.ends

/-- The function ends after at most four scans of every namenode, whatever the scans meet.  It
throws for the first namenode that was offline four times, and returns when all have answered. -/
theorem healthCheck_sound (echoes : ℕ → Echo) (namenodeList : List Node)
    (hsize : namenodeList.length < 2 ^ 64) :
    ∃ result st, (∀ fuel, 4 * namenodeList.length < fuel →
        healthLoop echoes fuel (init namenodeList) = some (result, st)) ∧
      Sound echoes namenodeList result st.scans := by
  obtain ⟨result, st, hloop, hended⟩ := healthLoop_ends hsize (inv_init echoes namenodeList)
  exact ⟨result, st, hloop, hended.sound⟩

/-- The first of two namenodes answers its second scan, and the second one never does. -/
theorem healthCheck_sound_secondSilent :
    let namenodes : List Node := [⟨"10.0.0.1", 18000, .unknown⟩, ⟨"10.0.0.2", 18000, .unknown⟩]
    let echoes : ℕ → Echo := fun k => if k = 1 then .answered else .failed
    namenodes.length < 2 ^ 64 ∧
      Sound echoes namenodes (.timeout 1 "10.0.0.2")
        [(0, .failed), (0, .answered), (1, .failed), (1, .failed), (1, .failed), (1, .failed)] := by
  intro namenodes echoes
  have hsize : namenodes.length < 2 ^ 64 := by decide
  obtain ⟨result, st, hloop, hsound⟩ := healthCheck_sound echoes namenodes hsize
  have hrun : (healthLoop echoes 9 (init namenodes)).map (fun r => (r.1, r.2.scans)) =
      some (.timeout 1 "10.0.0.2", [(0, .failed), (0, .answered), (1, .failed), (1, .failed),
        (1, .failed), (1, .failed)]) := by decide
  rw [hloop 9 (by decide)] at hrun
  obtain ⟨rfl, hscans⟩ := Prod.mk.inj (Option.some.inj hrun)
  rw [← hscans]
  exact ⟨hsize, hsound⟩

end HealthCheck

end Spkdfs
