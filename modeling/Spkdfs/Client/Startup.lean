import Mathlib.Data.List.Basic
import Spkdfs.Common.Node

/-!
# The first datanode of a client

`FUSE::init` of `client/fuse.cpp`.  It scans the configured nodes in batches of three, and makes
an SDK with the first node of a batch that is online.  A full batch is tested when the next node
comes, and the last batch behind the loop.

The answers belong to the positions of the list, since a node can be in it twice: `answers p` says
whether the node at position `p` is online when it is scanned.  A scan that has no channel throws
in its own thread and ends the process; such scans are left out.

`new SDK` throws by itself when the datanode fails, so what it gives is a value here:
`init` throws, or it ends with the outcome of the constructor.
-/

namespace Spkdfs

namespace FUSE

/-- `node_discovery`, with the answers of the nodes by their positions. -/
def discovery (answers : ℕ → Bool) (nodes : List Node) : List Node :=
  nodes.mapIdx fun p node => { node with nodeStatus := if answers p then .online else .offline }

/-- The loop over a batch that looks for a node that is online. -/
def findOnline (sub : List Node) : Option Node := sub.find? fun node => node.nodeStatus = .online

/-- How `init` ends, and the nodes that were scanned in their order. -/
structure InitResult (σ : Type) where
  outcome : Except Exception (Except Exception σ)
  scanned : List Node

variable {σ : Type} (newSDK : String → Except Exception σ) (answers : ℕ → Bool)

/-- `FUSE::init_node`. -/
def initNode (node : Node) : Except Exception σ := newSDK node.toText

/-- `node_discovery` on a batch behind the nodes that were scanned before, and the test of it. -/
def testBatch (scanned sub : List Node) : Option Node :=
  findOnline (discovery (fun p => answers (scanned.length + p)) sub)

/-- What follows the loop of `init`. -/
def lastBatch (scanned sub : List Node) : InitResult σ :=
  if sub = [] then ⟨.error (.runtime "all nodes offline"), scanned⟩
  else
    match testBatch answers scanned sub with
    | some node => ⟨.ok (initNode newSDK node), scanned ++ sub⟩
    | none => ⟨.error (.runtime "all nodes offline"), scanned ++ sub⟩

/-- The loop of `init`, with the nodes that are left and the batch that is filled. -/
def initLoop : List Node → List Node → List Node → InitResult σ
  | [], scanned, sub => lastBatch newSDK answers scanned sub
  | node :: nodes, scanned, sub =>
    if sub.length = 3 then
      match testBatch answers scanned sub with
      | some online => ⟨.ok (initNode newSDK online), scanned ++ sub⟩
      | none => initLoop nodes (scanned ++ sub) [node]
    else initLoop nodes scanned (sub ++ [node])

/-- `FUSE::init`. -/
def init (nodes : List Node) : InitResult σ := initLoop newSDK answers nodes [] []

/-! ## One batch -/

variable {newSDK answers}

theorem findOnline_discovery_of_first {sub : List Node} {p : ℕ} {node : Node}
    (hget : sub[p]? = some node) (hp : answers p = true) (hfirst : ∀ q < p, answers q = false) :
    findOnline (discovery answers sub) = some { node with nodeStatus := .online } := by
  induction sub generalizing answers p with
  | nil => simp at hget
  | cons n sub ih =>
    cases p with
    | zero =>
      have hn : n = node := by simpa using hget
      simp [findOnline, discovery, hp, hn]
    | succ p =>
      have hzero : answers 0 = false := hfirst 0 (by omega)
      have hrest : findOnline (discovery (fun q => answers (q + 1)) sub) =
          some { node with nodeStatus := .online } :=
        ih (by simpa using hget) hp fun q hq => hfirst (q + 1) (by omega)
      simpa [findOnline, discovery, hzero] using hrest

theorem findOnline_discovery_of_none {sub : List Node} (h : ∀ p < sub.length, answers p = false) :
    findOnline (discovery answers sub) = none := by
  induction sub generalizing answers with
  | nil => rfl
  | cons n sub ih =>
    have hzero : answers 0 = false := h 0 (by simp)
    have hrest : findOnline (discovery (fun q => answers (q + 1)) sub) = none :=
      ih fun p hp => h (p + 1) (by simpa using hp)
    simpa [findOnline, discovery, hzero] using hrest

/-- The first node of a batch that is online, by its position in the whole list. -/
theorem testBatch_of_first {scanned sub : List Node} {j : ℕ} {node : Node}
    (hj : scanned.length ≤ j) (hget : sub[j - scanned.length]? = some node)
    (honline : answers j = true) (hfirst : ∀ i < j, answers i = false) :
    testBatch answers scanned sub = some { node with nodeStatus := .online } := by
  refine findOnline_discovery_of_first hget ?_ ?_
  · rw [Nat.add_sub_cancel' hj]
    exact honline
  · intro q hq
    exact hfirst _ (by omega)

theorem testBatch_of_none {scanned sub : List Node}
    (h : ∀ i < scanned.length + sub.length, answers i = false) :
    testBatch answers scanned sub = none :=
  findOnline_discovery_of_none fun p hp => h _ (by omega)

/-! ## The loop -/

/-- Between two iterations: the scanned nodes fill whole batches, and the current batch is not
larger than one. -/
structure Filled (scanned sub : List Node) : Prop where
  whole : scanned.length % 3 = 0
  small : sub.length ≤ 3

theorem Filled.push {scanned sub : List Node} (h : Filled scanned sub) (hsub : sub.length ≠ 3)
    (node : Node) : Filled scanned (sub ++ [node]) := by
  have hsmall := h.small
  refine ⟨h.whole, ?_⟩
  rw [List.length_append, List.length_singleton]
  omega

theorem Filled.next {scanned sub : List Node} (h : Filled scanned sub) (hsub : sub.length = 3)
    (node : Node) : Filled (scanned ++ sub) [node] := by
  have hwhole := h.whole
  refine ⟨?_, by simp⟩
  rw [List.length_append]
  omega

/-- The batch of a node ends behind the batch that is filled. -/
theorem Filled.take_batch {scanned sub rest : List Node} {j : ℕ} (h : Filled scanned sub)
    (hj : scanned.length ≤ j) (hlt : j < scanned.length + sub.length)
    (hfull : sub.length = 3 ∨ rest = []) :
    (scanned ++ (sub ++ rest)).take (3 * (j / 3 + 1)) = scanned ++ sub := by
  have hwhole := h.whole
  have hsmall := h.small
  rw [← List.append_assoc]
  rcases hfull with hfull | hrest
  · refine List.take_left' ?_
    rw [List.length_append]
    omega
  · rw [hrest, List.append_nil]
    refine List.take_of_length_le ?_
    rw [List.length_append]
    omega

/-- A node that is not scanned yet and not behind the batch is in the batch. -/
theorem getElem?_sub {scanned sub rest : List Node} {j : ℕ} {node : Node}
    (hget : (scanned ++ (sub ++ rest))[j]? = some node) (hj : scanned.length ≤ j)
    (hlt : j < scanned.length + sub.length) : sub[j - scanned.length]? = some node := by
  rwa [List.getElem?_append_right hj, List.getElem?_append_left (by omega)] at hget

/-- The loop ends with the first node that is online, and scans no batch behind it. -/
theorem initLoop_of_first {nodes scanned sub : List Node} {j : ℕ} {node : Node}
    (h : Filled scanned sub) (hj : scanned.length ≤ j)
    (hget : (scanned ++ (sub ++ nodes))[j]? = some node) (honline : answers j = true)
    (hfirst : ∀ i < j, answers i = false) :
    initLoop newSDK answers nodes scanned sub =
      ⟨.ok (newSDK node.toText), (scanned ++ (sub ++ nodes)).take (3 * (j / 3 + 1))⟩ := by
  induction nodes generalizing scanned sub with
  | nil =>
    have hlt : j < scanned.length + sub.length := by
      have := (List.getElem?_eq_some_iff.mp hget).1
      simpa using this
    have hne : sub ≠ [] := by
      rintro rfl
      simp only [List.length_nil] at hlt
      omega
    rw [initLoop, lastBatch, if_neg hne,
      testBatch_of_first hj (getElem?_sub hget hj hlt) honline hfirst,
      h.take_batch hj hlt (Or.inr rfl)]
    rfl
  | cons n nodes ih =>
    rw [initLoop]
    split
    · rename_i hfull
      by_cases hlt : j < scanned.length + sub.length
      · rw [testBatch_of_first hj (getElem?_sub hget hj hlt) honline hfirst,
          h.take_batch hj hlt (Or.inl hfull)]
        rfl
      · -- No node of the batch is online, and the loop goes on with an empty one.
        have hsplit : scanned ++ (sub ++ n :: nodes) = scanned ++ sub ++ ([n] ++ nodes) := by simp
        rw [testBatch_of_none fun i hi => hfirst i (by omega), hsplit]
        refine ih (h.next hfull n) ?_ (hsplit ▸ hget)
        rw [List.length_append]
        omega
    · rename_i hsub
      have hsplit : scanned ++ (sub ++ n :: nodes) = scanned ++ (sub ++ [n] ++ nodes) := by simp
      rw [hsplit]
      exact ih (h.push hsub n) hj (hsplit ▸ hget)

/-- Without a node that is online, all nodes are scanned. -/
theorem initLoop_of_none {nodes scanned sub : List Node}
    (hnone : ∀ i < scanned.length + (sub.length + nodes.length), answers i = false) :
    initLoop newSDK answers nodes scanned sub =
      ⟨.error (.runtime "all nodes offline"), scanned ++ (sub ++ nodes)⟩ := by
  have hbatch : testBatch answers scanned sub = none :=
    testBatch_of_none fun i hi => hnone i (by omega)
  induction nodes generalizing scanned sub with
  | nil =>
    rw [initLoop, lastBatch, List.append_nil]
    split
    · rename_i hnil
      rw [hnil, List.append_nil]
    · rw [hbatch]
  | cons n nodes ih =>
    rw [List.length_cons] at hnone
    rw [initLoop, hbatch]
    split
    · have hsplit : scanned ++ (sub ++ n :: nodes) = scanned ++ sub ++ ([n] ++ nodes) := by simp
      have hrest : ∀ i < (scanned ++ sub).length + ([n].length + nodes.length),
          answers i = false := fun i hi => hnone i (by simp at hi; omega)
      rw [hsplit]
      exact ih hrest (testBatch_of_none fun i hi => hrest i (by omega))
    · have hsplit : scanned ++ (sub ++ n :: nodes) = scanned ++ (sub ++ [n] ++ nodes) := by simp
      have hrest : ∀ i < scanned.length + ((sub ++ [n]).length + nodes.length),
          answers i = false := fun i hi => hnone i (by simp at hi; omega)
      rw [hsplit]
      exact ih hrest (testBatch_of_none fun i hi => hrest i (by omega))

/-- `init` makes its SDK with the first node of the list that is online, and scans no batch behind
the one of this node.  It throws exactly if no node is online. -/
theorem init_finds (newSDK : String → Except Exception σ) (answers : ℕ → Bool)
    (nodes : List Node) :
    (∀ j node, nodes[j]? = some node → answers j = true → (∀ i < j, answers i = false) →
      (init newSDK answers nodes).outcome = .ok (newSDK node.toText) ∧
        (init newSDK answers nodes).scanned = nodes.take (3 * (j / 3 + 1))) ∧
    ((∃ e, (init newSDK answers nodes).outcome = .error e) ↔
      ∀ j < nodes.length, answers j = false) := by
  have hfilled : Filled [] [] := ⟨rfl, by simp⟩
  have hfound : ∀ j node, nodes[j]? = some node → answers j = true →
      (∀ i < j, answers i = false) → init newSDK answers nodes =
        ⟨.ok (newSDK node.toText), nodes.take (3 * (j / 3 + 1))⟩ :=
    fun j _ => initLoop_of_first hfilled (Nat.zero_le j)
  refine ⟨fun j node hget honline hfirst => ?_, ?_, ?_⟩
  · rw [hfound j node hget honline hfirst]
    exact ⟨rfl, rfl⟩
  · -- The first node that is online, if there is any, ends `init` with its SDK.
    rintro ⟨e, he⟩ j hj
    induction j using Nat.strong_induction_on with
    | _ j ih =>
      by_contra honline
      have hget : nodes[j]? = some nodes[j] := List.getElem?_eq_getElem hj
      rw [hfound j _ hget (by simpa using honline) fun i hi => ih i hi (by omega)] at he
      cases he
  · intro hnone
    have hinit : init newSDK answers nodes = ⟨.error (.runtime "all nodes offline"), nodes⟩ :=
      initLoop_of_none fun i hi => hnone i (by simpa using hi)
    exact ⟨_, by rw [hinit]⟩

/-- The last node of a full batch is online, and one more node follows. -/
theorem init_finds_lastOfBatch :
    let nodes : List Node := [⟨"10.0.0.1", 8001, .unknown⟩, ⟨"10.0.0.2", 8001, .unknown⟩,
      ⟨"10.0.0.3", 8001, .unknown⟩, ⟨"10.0.0.4", 8001, .unknown⟩]
    let answers : ℕ → Bool := fun p => 2 ≤ p
    (init (fun datanode => .ok datanode) answers nodes).outcome = .ok (.ok "10.0.0.3:8001") ∧
      (init (fun datanode => .ok datanode) answers nodes).scanned = nodes.take 3 := by
  intro nodes answers
  exact (init_finds (fun datanode => .ok datanode) answers nodes).1 2
    ⟨"10.0.0.3", 8001, .unknown⟩ rfl (by decide) (by decide)

end FUSE

end Spkdfs
