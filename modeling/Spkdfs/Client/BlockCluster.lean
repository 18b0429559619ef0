import Spkdfs.Client.Exact
import Spkdfs.Client.Roundtrip
import Spkdfs.Node.Datanode

/-!
# Clients and datanodes

Any number of calls of `encode_one` of `client/sdk.cpp` against any number of datanodes.
The steps of the clients and of the datanodes come in any order: a client sends the next
fragment to the next datanode (`put_to_datanode`), the datanode works on it, and the client
gets the answer or gives up on it, after which the datanode may still go on.

`SDK.encodeOne` gets the outcomes of its uploads as a list.  Here they come out of the
datanodes, and the function is what a client has done by the time that it ends
(`BlockCluster.Invariant.entries`): with some list of outcomes it answers the same text, and each
place in this text has answered the upload of its fragment.

`BlockCluster.net` is what a `get` is answered when no other step comes between, so that
`decode_one` can be run in any state.
-/

namespace Spkdfs

open RocksDB Datanode

/-- A call of `encode_one` behind `get_online_datanodes`.  `pending` is the upload that
it waits for, and `outcomes` are the outcomes of those before. -/
structure EncodeCall where
  type : StorageType
  block : Bytes
  vec : List Bytes
  nodes : List String
  st : SDK.EncodeState
  stopped : Bool
  pending : Option ℕ
  outcomes : List Bool

/-- The datanodes by their addresses, the calls that are under way, and the answers of
those that have ended, each with its storage type and its block. -/
structure BlockCluster where
  datanodes : String → Datanode.State
  clients : List EncodeCall
  nextId : ℕ
  entries : List (StorageType × Bytes × String)

inductive BlockEvent
  /-- A datanode takes a step by itself. -/
  | datanode (node : String) (ev : Datanode.Event)
  /-- `encode_one` up to its loop. -/
  | encode (type : StorageType) (block : Bytes) (online : List { n : Node // n.IsEndpoint })
  /-- The request of `put_to_datanode` comes to its datanode. -/
  | send (i : ℕ) (opened : Bool)
  /-- The answer comes back. -/
  | receive (i : ℕ)
  /-- The client does not wait any longer, or the answer is lost. -/
  | giveUp (i : ℕ)
  /-- The end of the loop, and `encode_one_sub`. -/
  | finish (i : ℕ)

namespace EncodeCall

variable (x : External)

/-- `encode_one` in front of its loop. -/
def new (type : StorageType) (block : Bytes) (vec : List Bytes) (nodes : List String) :
    EncodeCall :=
  ⟨type, block, vec, nodes, ⟨0, 0, 0, 0, []⟩, false, none, []⟩

/-- The fragment and the datanode of the current round of the loop. -/
def target (c : EncodeCall) : Option (Bytes × String) :=
  match c.vec[c.st.i]?, c.nodes[c.st.nodeIndex]? with
  | some fragment, some node => some (fragment, node)
  | _, _ => none

/-- The rest of the round, behind the outcome of the upload. -/
def finishRound (c : EncodeCall) (fragment : Bytes) (node : String) (succeeds : Bool) :
    EncodeCall :=
  let next := SDK.nextNode c.type c.nodes (SDK.upload x node fragment succeeds c.st)
  { c with st := next.1, stopped := next.2, pending := none,
           outcomes := c.outcomes ++ [succeeds] }

variable {x}

/-! ## One call -/

/-- What a call of `encode_one` has behind it is what `SDK.encodeLoop` does with the
outcomes so far. -/
structure Ok (x : External) (c : EncodeCall) : Prop where
  encode : c.type.encode x.code c.block = .ok c.vec
  online : ∃ nodes : List Node, (∀ node ∈ nodes, node.IsEndpoint) ∧
    c.nodes = nodes.map Node.toText
  loop : ∀ rest, SDK.encodeLoop x c.type c.vec c.nodes ⟨0, 0, 0, 0, []⟩ (c.outcomes ++ rest) =
    if c.stopped then .ok c.st.nodesHashs
    else SDK.encodeLoop x c.type c.vec c.nodes c.st rest
  waits : c.pending ≠ none → c.stopped = false

theorem target_eq_some {c : EncodeCall} {fragment : Bytes} {node : String} :
    c.target = some (fragment, node) ↔
      c.vec[c.st.i]? = some fragment ∧ c.nodes[c.st.nodeIndex]? = some node := by
  unfold target
  split
  · rename_i f n hf hn
    simp [hf, hn]
  · rename_i hnone
    constructor
    · intro h
      cases h
    · intro h
      exact absurd h.2 (hnone fragment node h.1)

theorem ok_new {type : StorageType} {block : Bytes} {vec : List Bytes}
    (henc : type.encode x.code block = .ok vec) (online : List { n : Node // n.IsEndpoint }) :
    (EncodeCall.new type block vec (online.map fun node => node.val.toText)).Ok x := by
  refine ⟨henc, ⟨online.map Subtype.val, fun node hnode => ?_, ?_⟩, fun rest => rfl, by simp [new]⟩
  · obtain ⟨n, -, rfl⟩ := List.mem_map.mp hnode
    exact n.property
  · rw [List.map_map]
    rfl

/-- A round of the loop with one more outcome. -/
theorem Ok.finishRound {c : EncodeCall} (hc : c.Ok x) (hstopped : c.stopped = false)
    {fragment : Bytes} {node : String} (htarget : c.target = some (fragment, node))
    (succeeds : Bool) : (c.finishRound x fragment node succeeds).Ok x := by
  obtain ⟨hfragment, hnode⟩ := target_eq_some.mp htarget
  refine ⟨hc.encode, hc.online, fun rest => ?_, by simp [EncodeCall.finishRound]⟩
  show SDK.encodeLoop x c.type c.vec c.nodes ⟨0, 0, 0, 0, []⟩ (c.outcomes ++ [succeeds] ++ rest) = _
  rw [List.append_assoc, hc.loop, hstopped, List.singleton_append, SDK.encodeLoop]
  simp only [hfragment, hnode, Bool.false_eq_true, if_false]
  rfl

/-- The places that a round of the loop leaves. -/
theorem nodesHashs_finishRound (c : EncodeCall) (fragment : Bytes) (node : String)
    (succeeds : Bool) :
    (c.finishRound x fragment node succeeds).st.nodesHashs =
      if succeeds then c.st.nodesHashs ++ [(node, x.sha256 fragment)] else c.st.nodesHashs := by
  have hnext : ∀ st, (SDK.nextNode c.type c.nodes st).1.nodesHashs = st.nodesHashs := by
    intro st
    simp only [SDK.nextNode]
    split
    · split <;> rfl
    · rfl
  show (SDK.nextNode c.type c.nodes (SDK.upload x node fragment succeeds c.st)).1.nodesHashs = _
  rw [hnext]
  cases succeeds <;> rfl

/-- When the loop is over, `encode_one` has answered. -/
theorem Ok.encodeOne_eq {c : EncodeCall} (hc : c.Ok x)
    (hend : c.stopped ∨ c.vec[c.st.i]? = none) {s : String}
    (hs : encodeOneSub c.st.nodesHashs = .ok s) :
    ∃ up : SDK.Uploads, (∀ nodes, up.online = .ok nodes → ∀ node ∈ nodes, node.IsEndpoint) ∧
      SDK.encodeOne x c.type c.block up = .ok s ∧
      ∀ nodes, up.online = .ok nodes →
        SDK.encodeLoop x c.type c.vec (nodes.map Node.toText) ⟨0, 0, 0, 0, []⟩ up.outcomes =
          .ok c.st.nodesHashs := by
  obtain ⟨nodes, hnodes, htexts⟩ := hc.online
  have hloop : SDK.encodeLoop x c.type c.vec c.nodes ⟨0, 0, 0, 0, []⟩ c.outcomes =
      .ok c.st.nodesHashs := by
    have hrest := hc.loop []
    rw [List.append_nil] at hrest
    rw [hrest]
    split
    · rfl
    · rename_i hstopped
      have hlen : c.vec.length ≤ c.st.i :=
        List.getElem?_eq_none_iff.mp (hend.resolve_left (by simpa using hstopped))
      rw [SDK.encodeLoop, if_neg (by omega)]
  refine ⟨⟨.ok nodes, c.outcomes⟩, fun nodes' hok => ?_, ?_, fun nodes' hok => ?_⟩
  · rw [← Except.ok.inj hok]
    exact hnodes
  · rw [htexts] at hloop
    refine bind_eq_ok.mpr ⟨c.vec, rethrow_eq_ok.mpr hc.encode, ?_⟩
    exact bind_eq_ok.mpr ⟨nodes, rfl, bind_eq_ok.mpr ⟨_, hloop, hs⟩⟩
  · rw [← Except.ok.inj hok, ← htexts]
    exact hloop

end EncodeCall

namespace BlockCluster

variable (x : External) (dataDir : String)

/-- Empty datanodes, and no client. -/
def init : BlockCluster := ⟨fun _ => Datanode.State.init, [], 0, []⟩

/-- One datanode is in another state. -/
def setDatanode (w : BlockCluster) (node : String) (s : Datanode.State) : BlockCluster :=
  { w with datanodes := fun n => if n = node then s else w.datanodes n }

/-- One client has the outcome of its upload. -/
def finishRound (w : BlockCluster) (i : ℕ) (c : EncodeCall) (fragment : Bytes) (node : String)
    (succeeds : Bool) : BlockCluster :=
  { w with clients := w.clients.set i (c.finishRound x fragment node succeeds) }

/-- The request that a client sends.  Data of 2 GiB or more does not fit into one. -/
def request (fragment : Bytes) : Option DNPutRequest :=
  if h : fragment.length < 2 ^ 31 then some ⟨x.sha256 fragment, fragment, h⟩ else none

/-- `put_to_datanode` up to the answer.  A datanode that is down does not take the request,
and an answer that is not a success is an exception at once. -/
def sendTo (w : BlockCluster) (i : ℕ) (c : EncodeCall) (fragment : Bytes) (node : String)
    (opened : Bool) : BlockCluster :=
  match request x fragment with
  | none => w.finishRound x i c fragment node false
  | some request =>
    match Datanode.step dataDir (w.datanodes node) (.put w.nextId request opened) with
    | none => w.finishRound x i c fragment node false
    | some s =>
      let sent := { w.setDatanode node s with nextId := w.nextId + 1 }
      if opened then { sent with clients := w.clients.set i { c with pending := some w.nextId } }
      else sent.finishRound x i c fragment node false

/-- The datanode has answered this upload with success. -/
def answered (s : Datanode.State) (id : ℕ) : Bool :=
  s.replies.any fun reply => match reply with
    | .putOk id' _ => id' = id
    | _ => false

def step (w : BlockCluster) : BlockEvent → Option BlockCluster
  | .datanode _ (.put _ _ _) => none
  | .datanode node ev => (Datanode.step dataDir (w.datanodes node) ev).map (w.setDatanode node)
  | .encode type block online =>
    match type.encode x.code block with
    | .error _ => none
    | .ok vec =>
      let nodes := online.map fun node => node.val.toText
      some { w with clients := w.clients ++ [EncodeCall.new type block vec nodes] }
  | .send i opened =>
    match w.clients[i]? with
    | none => none
    | some c =>
      match c.pending, c.stopped, c.target with
      | none, false, some (fragment, node) => some (w.sendTo x dataDir i c fragment node opened)
      | _, _, _ => none
  | .receive i =>
    match w.clients[i]? with
    | none => none
    | some c =>
      match c.pending, c.target with
      | some id, some (fragment, node) =>
        if answered (w.datanodes node) id then some (w.finishRound x i c fragment node true)
        else none
      | _, _ => none
  | .giveUp i =>
    match w.clients[i]? with
    | none => none
    | some c =>
      match c.pending, c.target with
      | some _, some (fragment, node) => some (w.finishRound x i c fragment node false)
      | _, _ => none
  | .finish i =>
    match w.clients[i]? with
    | none => none
    | some c =>
      if c.pending = none ∧ (c.stopped ∨ c.vec[c.st.i]? = none) then
        match encodeOneSub c.st.nodesHashs with
        | .error _ => none
        | .ok s =>
          some { w with
            clients := w.clients.eraseIdx i,
            entries := (c.type, c.block, s) :: w.entries }
      else none

/-- What the datanodes answer now to a `get` that nothing comes between. -/
def net (w : BlockCluster) : Net := fun node blkid =>
  if (w.datanodes node).running then
    ((w.datanodes node).files (filePath dataDir blkid)).bind fun content =>
      (readFile content).toOption
  else none

variable {x dataDir}

/-! ## Steps -/

/-- What a step can do. -/
theorem step_cases {w w' : BlockCluster} {ev : BlockEvent} (h : w.step x dataDir ev = some w') :
    (∃ node ev' s, ev = .datanode node ev' ∧ (∀ id request opened, ev' ≠ .put id request opened) ∧
        Datanode.step dataDir (w.datanodes node) ev' = some s ∧ w' = w.setDatanode node s) ∨
      (∃ type block online vec, ev = .encode type block online ∧
        type.encode x.code block = .ok vec ∧
        w' = { w with clients := w.clients ++
          [EncodeCall.new type block vec (online.map fun node => node.val.toText)] }) ∨
      (∃ i c fragment node opened, ev = .send i opened ∧ w.clients[i]? = some c ∧
        c.pending = none ∧ c.stopped = false ∧ c.target = some (fragment, node) ∧
        w' = w.sendTo x dataDir i c fragment node opened) ∨
      (∃ i c id fragment node succeeds, (ev = .receive i ∨ ev = .giveUp i) ∧
        w.clients[i]? = some c ∧ c.pending = some id ∧ c.target = some (fragment, node) ∧
        (succeeds = true → answered (w.datanodes node) id = true) ∧
        w' = w.finishRound x i c fragment node succeeds) ∨
      ∃ i c s, ev = .finish i ∧ w.clients[i]? = some c ∧ c.pending = none ∧
        (c.stopped ∨ c.vec[c.st.i]? = none) ∧ encodeOneSub c.st.nodesHashs = .ok s ∧
        w' = { w with clients := w.clients.eraseIdx i,
                      entries := (c.type, c.block, s) :: w.entries } := by
  cases ev with
  | datanode node ev' =>
    refine Or.inl ⟨node, ev', ?_⟩
    cases ev' with
    | put id request opened => cases h
    | _ =>
      obtain ⟨s, hs, hw⟩ := Option.map_eq_some_iff.mp h
      exact ⟨s, rfl, by simp, hs, hw.symm⟩
  | encode type block online =>
    simp only [step] at h
    split at h
    · cases h
    · rename_i vec hvec
      exact Or.inr (Or.inl ⟨type, block, online, vec, rfl, hvec, (Option.some.inj h).symm⟩)
  | send i opened =>
    simp only [step] at h
    split at h
    · cases h
    · rename_i c hc
      split at h
      · rename_i fragment node hpending hstopped htarget
        exact Or.inr (Or.inr (Or.inl ⟨i, c, fragment, node, opened, rfl, hc, hpending, hstopped,
          htarget, (Option.some.inj h).symm⟩))
      · cases h
  | receive i =>
    simp only [step] at h
    split at h
    · cases h
    · rename_i c hc
      split at h
      · rename_i id fragment node hpending htarget
        split at h
        · rename_i hanswered
          exact Or.inr (Or.inr (Or.inr (Or.inl ⟨i, c, id, fragment, node, true, Or.inl rfl, hc,
            hpending, htarget, fun _ => hanswered, (Option.some.inj h).symm⟩)))
        · cases h
      · cases h
  | giveUp i =>
    simp only [step] at h
    split at h
    · cases h
    · rename_i c hc
      split at h
      · rename_i id fragment node hpending htarget
        exact Or.inr (Or.inr (Or.inr (Or.inl ⟨i, c, id, fragment, node, false, Or.inr rfl, hc,
          hpending, htarget, by simp, (Option.some.inj h).symm⟩)))
      · cases h
  | finish i =>
    simp only [step] at h
    split at h
    · cases h
    · rename_i c hc
      split at h
      · rename_i hend
        split at h
        · cases h
        · rename_i s hs
          exact Or.inr (Or.inr (Or.inr (Or.inr ⟨i, c, s, rfl, hc, hend.1, hend.2, hs,
            (Option.some.inj h).symm⟩)))
      · cases h

/-- What a request does: it fails at once, or the datanode has seen it. -/
theorem sendTo_cases (w : BlockCluster) (i : ℕ) (c : EncodeCall) (fragment : Bytes) (node : String)
    (opened : Bool) :
    w.sendTo x dataDir i c fragment node opened = w.finishRound x i c fragment node false ∨
      ∃ request s, BlockCluster.request x fragment = some request ∧
        Datanode.step dataDir (w.datanodes node) (.put w.nextId request opened) = some s ∧
        ((opened = true ∧ w.sendTo x dataDir i c fragment node opened =
            { w.setDatanode node s with
              nextId := w.nextId + 1,
              clients := w.clients.set i { c with pending := some w.nextId } }) ∨
          (opened = false ∧ w.sendTo x dataDir i c fragment node opened =
            ({ w.setDatanode node s with nextId := w.nextId + 1 } : BlockCluster).finishRound
              x i c fragment node false)) := by
  cases hrequest : BlockCluster.request x fragment with
  | none =>
    refine Or.inl ?_
    simp only [sendTo, hrequest]
  | some request =>
    cases hs : Datanode.step dataDir (w.datanodes node) (.put w.nextId request opened) with
    | none =>
      refine Or.inl ?_
      simp only [sendTo, hrequest, hs]
    | some s =>
      refine Or.inr ⟨request, s, rfl, hs, ?_⟩
      cases opened with
      | true =>
        refine Or.inl ⟨rfl, ?_⟩
        simp only [sendTo, hrequest, hs, if_true]
      | false =>
        refine Or.inr ⟨rfl, ?_⟩
        simp only [sendTo, hrequest, hs, Bool.false_eq_true, if_false]

/-! ## What the clients know -/

/-- The datanode has answered an upload under this digest, and it is the digest of the
data. -/
def Uploaded (x : External) (s : Datanode.State) (b : String) : Prop :=
  ∃ id request, .putOk id request ∈ s.replies ∧ request.blkid = b ∧ x.sha256 request.data = b

theorem acked_of_uploaded {s : Datanode.State} {b : String} (h : Uploaded x s b) : s.Acked b := by
  obtain ⟨id, request, hr, hb, -⟩ := h
  exact ⟨id, request, hr, hb⟩

/-- Every request that a datanode knows was sent, a client waits for its own one, and what a
client has noted was answered by the datanode. -/
structure Invariant (x : External) (w : BlockCluster) : Prop where
  calls : ∀ c ∈ w.clients, c.Ok x
  fresh : ∀ node id request, (w.datanodes node).Knows id request → id < w.nextId
  pending : ∀ c ∈ w.clients, ∀ id fragment node, c.pending = some id →
    c.target = some (fragment, node) → id < w.nextId ∧
      ∀ request, (w.datanodes node).Knows id request →
        request.blkid = x.sha256 fragment ∧ request.data = fragment
  places : ∀ c ∈ w.clients, ∀ p ∈ c.st.nodesHashs, Uploaded x (w.datanodes p.1) p.2
  entries : ∀ e ∈ w.entries,
    (∃ up : SDK.Uploads, (∀ nodes, up.online = .ok nodes → ∀ node ∈ nodes, node.IsEndpoint) ∧
      SDK.encodeOne x e.1 e.2.1 up = .ok e.2.2) ∧
    ∀ p ∈ decodeOneSub e.2.2, Uploaded x (w.datanodes p.1) p.2

theorem invariant_init : Invariant x init := by
  refine ⟨by simp [init], fun node id request hknows => ?_, by simp [init], by simp [init],
    by simp [init]⟩
  rcases hknows with ⟨c, hc, _⟩ | hr
  · simp [init, Datanode.State.init] at hc
  · simp [init, Datanode.State.init] at hr

theorem setDatanode_self (w : BlockCluster) (node : String) (s : Datanode.State) :
    (w.setDatanode node s).datanodes node = s := if_pos rfl

theorem setDatanode_other (w : BlockCluster) {node node' : String} (s : Datanode.State)
    (h : node' ≠ node) : (w.setDatanode node s).datanodes node' = w.datanodes node' := if_neg h

/-- What was answered stays answered. -/
theorem uploaded_setDatanode {w : BlockCluster} {node node' b : String} {ev : Datanode.Event}
    {s : Datanode.State} (h : Datanode.step dataDir (w.datanodes node) ev = some s)
    (hack : Uploaded x (w.datanodes node') b) :
    Uploaded x ((w.setDatanode node s).datanodes node') b := by
  by_cases hnode : node' = node
  · subst hnode
    rw [setDatanode_self]
    obtain ⟨id, request, hr, hb⟩ := hack
    exact ⟨id, request, replies_of_step h hr, hb⟩
  · rw [setDatanode_other w s hnode]
    exact hack

theorem knows_setDatanode {w : BlockCluster} {node node' : String} {ev : Datanode.Event}
    {s : Datanode.State} {id : ℕ} {request : DNPutRequest}
    (h : Datanode.step dataDir (w.datanodes node) ev = some s)
    (hknows : ((w.setDatanode node s).datanodes node').Knows id request) :
    (w.datanodes node').Knows id request ∨ ev = .put id request true := by
  by_cases hnode : node' = node
  · subst hnode
    rw [setDatanode_self] at hknows
    exact knows_of_step h hknows
  · rw [setDatanode_other w s hnode] at hknows
    exact Or.inl hknows

/-- A step of a datanode, with a new number if it is a request. -/
theorem Invariant.setDatanode {w : BlockCluster} (hw : w.Invariant x) {node : String}
    {ev : Datanode.Event} {s : Datanode.State} {n : ℕ}
    (h : Datanode.step dataDir (w.datanodes node) ev = some s) (hn : w.nextId ≤ n)
    (hnew : ∀ id request, ev = .put id request true → id = w.nextId ∧ w.nextId < n) :
    ({ w.setDatanode node s with nextId := n } : BlockCluster).Invariant x := by
  refine ⟨hw.calls, fun node' id request hknows => ?_, fun c hc id fragment node' hid htarget => ?_,
    fun c hc p hp => uploaded_setDatanode h (hw.places c hc p hp), fun e he =>
      ⟨(hw.entries e he).1, fun p hp => uploaded_setDatanode h ((hw.entries e he).2 p hp)⟩⟩
  · rcases knows_setDatanode h hknows with hknows | hev
    · exact Nat.lt_of_lt_of_le (hw.fresh node' id request hknows) hn
    · obtain ⟨rfl, hlt⟩ := hnew id request hev
      exact hlt
  · obtain ⟨hlt, hblkid⟩ := hw.pending c hc id fragment node' hid htarget
    refine ⟨Nat.lt_of_lt_of_le hlt hn, fun request hknows => ?_⟩
    rcases knows_setDatanode h hknows with hknows | hev
    · exact hblkid request hknows
    · exact absurd (hnew id request hev).1 (Nat.ne_of_lt hlt)

/-- A client notes the outcome of its upload. -/
theorem Invariant.finishRound {w : BlockCluster} (hw : w.Invariant x) {i : ℕ} {c : EncodeCall}
    (hc : w.clients[i]? = some c) (hstopped : c.stopped = false) {fragment : Bytes}
    {node : String} (htarget : c.target = some (fragment, node)) {succeeds : Bool}
    (hack : succeeds = true → Uploaded x (w.datanodes node) (x.sha256 fragment)) :
    (w.finishRound x i c fragment node succeeds).Invariant x := by
  have hmem : c ∈ w.clients := List.mem_of_getElem? hc
  refine ⟨fun c' hc' => ?_, hw.fresh, fun c' hc' id fragment' node' hid => ?_,
    fun c' hc' p hp => ?_, hw.entries⟩
  · rcases List.mem_or_eq_of_mem_set hc' with hc' | rfl
    · exact hw.calls c' hc'
    · exact (hw.calls c hmem).finishRound hstopped htarget succeeds
  · rcases List.mem_or_eq_of_mem_set hc' with hc' | rfl
    · exact hw.pending c' hc' id fragment' node' hid
    · simp [EncodeCall.finishRound] at hid
  · rcases List.mem_or_eq_of_mem_set hc' with hc' | rfl
    · exact hw.places c' hc' p hp
    · rw [EncodeCall.nodesHashs_finishRound] at hp
      split at hp
      · rename_i hsucceeds
        rcases List.mem_append.mp hp with hp | hp
        · exact hw.places c hmem p hp
        · obtain rfl := List.mem_singleton.mp hp
          exact hack hsucceeds
      · exact hw.places c hmem p hp

theorem knows_of_answered {s : Datanode.State} {id : ℕ} (h : answered s id = true) :
    ∃ request, .putOk id request ∈ s.replies := by
  obtain ⟨reply, hmem, hid⟩ := List.any_eq_true.mp h
  cases reply with
  | putOk id' request => exact ⟨request, of_decide_eq_true hid ▸ hmem⟩
  | putFail _ _ => cases hid
  | getOk _ _ _ => cases hid
  | getFail _ _ => cases hid

theorem request_eq_some {fragment : Bytes} {r : DNPutRequest}
    (h : BlockCluster.request x fragment = some r) :
    r.blkid = x.sha256 fragment ∧ r.data = fragment := by
  unfold BlockCluster.request at h
  split at h
  · rw [← Option.some.inj h]
    exact ⟨rfl, rfl⟩
  · cases h

/-- A client sends a request and waits. -/
theorem Invariant.sent {w : BlockCluster} (hw : w.Invariant x) {i : ℕ} {c : EncodeCall}
    (hc : w.clients[i]? = some c) (hstopped : c.stopped = false) {fragment : Bytes}
    {node : String} (htarget : c.target = some (fragment, node)) {r : DNPutRequest}
    {s : Datanode.State} (hr : r.blkid = x.sha256 fragment ∧ r.data = fragment)
    (h : Datanode.step dataDir (w.datanodes node) (.put w.nextId r true) = some s) :
    ({ w.setDatanode node s with
      nextId := w.nextId + 1,
      clients := w.clients.set i { c with pending := some w.nextId } } :
        BlockCluster).Invariant x := by
  have hmem : c ∈ w.clients := List.mem_of_getElem? hc
  have hw' := hw.setDatanode h (Nat.le_succ _) (by
    intro id request heq
    exact ⟨(Event.put.inj heq).1.symm, Nat.lt_succ_self _⟩)
  refine ⟨fun c' hc' => ?_, hw'.fresh, fun c' hc' id fragment' node' hid htarget' => ?_,
    fun c' hc' p hp => ?_, hw'.entries⟩
  · rcases List.mem_or_eq_of_mem_set hc' with hc' | rfl
    · exact hw.calls c' hc'
    · obtain ⟨henc, honline, hloop, _⟩ := hw.calls c hmem
      exact ⟨henc, honline, hloop, fun _ => hstopped⟩
  · rcases List.mem_or_eq_of_mem_set hc' with hc' | rfl
    · exact hw'.pending c' hc' id fragment' node' hid htarget'
    · -- The number is new, so the datanode knows it from this request.
      obtain rfl := Option.some.inj hid
      have htarget'' : c.target = some (fragment', node') := htarget'
      rw [htarget] at htarget''
      obtain ⟨rfl, rfl⟩ := Prod.mk.inj (Option.some.inj htarget'')
      refine ⟨Nat.lt_succ_self _, fun request hknows => ?_⟩
      rcases knows_setDatanode h hknows with hknows | hev
      · exact absurd (hw.fresh _ _ _ hknows) (Nat.lt_irrefl _)
      · rw [← (Event.put.inj hev).2.1]
        exact hr
  · rcases List.mem_or_eq_of_mem_set hc' with hc' | rfl
    · exact hw'.places c' hc' p hp
    · exact hw'.places c hmem p hp

theorem invariant_step (hx : x.Lawful) {w w' : BlockCluster} {ev : BlockEvent}
    (hw : w.Invariant x) (h : w.step x dataDir ev = some w') : w'.Invariant x := by
  rcases step_cases h with ⟨node, ev', s, -, hev, hs, rfl⟩ |
    ⟨type, block, online, vec, -, hvec, rfl⟩ |
    ⟨i, c, fragment, node, opened, -, hc, _, hstopped, htarget, rfl⟩ |
    ⟨i, c, id, fragment, node, succeeds, -, hc, hid, htarget, hanswered, rfl⟩ |
    ⟨i, c, s, -, hc, _, hend, hs, rfl⟩
  · exact hw.setDatanode hs (Nat.le_refl _) fun id request heq => absurd heq (hev id request true)
  · refine ⟨fun c hc => ?_, hw.fresh, fun c hc id fragment node hid => ?_, fun c hc p hp => ?_,
      hw.entries⟩
    · rcases List.mem_append.mp hc with hc | hc
      · exact hw.calls c hc
      · rw [List.mem_singleton.mp hc]
        exact EncodeCall.ok_new hvec online
    · rcases List.mem_append.mp hc with hc | hc
      · exact hw.pending c hc id fragment node hid
      · rw [List.mem_singleton.mp hc] at hid
        cases hid
    · rcases List.mem_append.mp hc with hc | hc
      · exact hw.places c hc p hp
      · rw [List.mem_singleton.mp hc] at hp
        cases hp
  · rcases @sendTo_cases x dataDir w i c fragment node opened with heq |
      ⟨request, s, hrequest, hs, ⟨rfl, heq⟩ | ⟨rfl, heq⟩⟩
    · rw [heq]
      exact hw.finishRound hc hstopped htarget (by simp)
    · rw [heq]
      exact hw.sent hc hstopped htarget (request_eq_some hrequest) hs
    · rw [heq]
      refine (hw.setDatanode hs (Nat.le_succ _) (by simp)).finishRound hc hstopped htarget (by simp)
  · have hmem : c ∈ w.clients := List.mem_of_getElem? hc
    have hstopped : c.stopped = false := (hw.calls c hmem).waits (by simp [hid])
    refine hw.finishRound hc hstopped htarget fun hsucceeds => ?_
    obtain ⟨request, hr⟩ := knows_of_answered (hanswered hsucceeds)
    obtain ⟨hblkid, hdata⟩ :=
      (hw.pending c hmem id fragment node hid htarget).2 request (Or.inr hr)
    exact ⟨id, request, hr, hblkid, congrArg x.sha256 hdata⟩
  · have hmem : c ∈ w.clients := List.mem_of_getElem? hc
    have hdrop : ∀ c' ∈ w.clients.eraseIdx i, c' ∈ w.clients :=
      fun c' hc' => List.mem_of_mem_eraseIdx hc'
    refine ⟨fun c' hc' => hw.calls c' (hdrop c' hc'), hw.fresh,
      fun c' hc' => hw.pending c' (hdrop c' hc'), fun c' hc' => hw.places c' (hdrop c' hc'),
      fun e he => ?_⟩
    rcases List.mem_cons.mp he with rfl | he
    · obtain ⟨up, hup, hone, hloop⟩ := (hw.calls c hmem).encodeOne_eq hend hs
      refine ⟨⟨up, hup, hone⟩, fun p hp => hw.places c hmem p ?_⟩
      obtain ⟨frags, nodes, henc, honline, hloop', _⟩ :=
        SDK.exists_places_of_encodeOne hx hup hone
      rw [(hw.calls c hmem).encode] at henc
      have heq := hloop nodes honline
      rw [Except.ok.inj henc, hloop'] at heq
      rw [← Except.ok.inj heq]
      exact hp
    · exact hw.entries e he

/-! ## What the datanodes hold -/

variable (x dataDir)

/-- The step of a datanode that is part of a step. -/
def datanodeEvent (w : BlockCluster) : BlockEvent → Option (String × Datanode.Event)
  | .datanode node ev => some (node, ev)
  | .send i opened =>
    (w.clients[i]?).bind fun c => c.target.bind fun p =>
      (BlockCluster.request x p.1).map fun request => (p.2, .put w.nextId request opened)
  | _ => none

/-- The step is as good as it should be for each of the fragments: under its digest nothing
else is written, it is written in full, and no process ends meanwhile. -/
def Kept (frags : List Bytes) (w : BlockCluster) (ev : BlockEvent) : Prop :=
  ∀ node ev', w.datanodeEvent x ev = some (node, ev') → ∀ f ∈ frags,
    Datanode.Kept dataDir (x.sha256 f) f (w.datanodes node) ev'

variable {x dataDir}

/-- Every datanode holds the fragments of which it has taken an upload. -/
def HoldsAll (x : External) (dataDir : String) (frags : List Bytes) (w : BlockCluster) : Prop :=
  ∀ node, ∀ f ∈ frags, Datanode.Holds dataDir (x.sha256 f) f (w.datanodes node)

theorem HoldsAll.setDatanode {frags : List Bytes} {w : BlockCluster}
    (hw : HoldsAll x dataDir frags w) {node : String} {ev : Datanode.Event} {s : Datanode.State}
    (hok : ∀ f ∈ frags, Datanode.Kept dataDir (x.sha256 f) f (w.datanodes node) ev)
    (h : Datanode.step dataDir (w.datanodes node) ev = some s) :
    HoldsAll x dataDir frags (w.setDatanode node s) := by
  intro node' f hf
  by_cases hnode : node' = node
  · subst hnode
    rw [setDatanode_self]
    exact holds_step (hw node' f hf) (hok f hf) h
  · rw [setDatanode_other w s hnode]
    exact hw node' f hf

theorem holdsAll_step {frags : List Bytes} {w w' : BlockCluster} {ev : BlockEvent}
    (hw : HoldsAll x dataDir frags w) (hok : Kept x dataDir frags w ev)
    (h : w.step x dataDir ev = some w') : HoldsAll x dataDir frags w' := by
  rcases step_cases h with ⟨node, ev', s, rfl, -, hs, rfl⟩ | ⟨_, _, _, _, -, -, rfl⟩ |
    ⟨i, c, fragment, node, opened, rfl, hc, -, -, htarget, rfl⟩ |
    ⟨_, _, _, _, _, _, -, -, -, -, -, rfl⟩ | ⟨_, _, _, -, -, -, -, -, rfl⟩
  · exact hw.setDatanode (hok node ev' rfl) hs
  · exact hw
  · rcases @sendTo_cases x dataDir w i c fragment node opened with heq |
      ⟨request, s, hrequest, hs, ⟨-, heq⟩ | ⟨-, heq⟩⟩
    · rw [heq]
      exact hw
    · rw [heq]
      refine hw.setDatanode (hok node _ ?_) hs
      simp [datanodeEvent, hc, htarget, hrequest]
    · rw [heq]
      refine hw.setDatanode (hok node _ ?_) hs
      simp [datanodeEvent, hc, htarget, hrequest]
  · exact hw
  · exact hw

theorem holdsAll_of_reach {frags : List Bytes} {w : BlockCluster}
    (h : Runs.Reach (step x dataDir) (Kept x dataDir frags) init w) :
    HoldsAll x dataDir frags w :=
  h.invariant (fun _ f _ => holds_init (x.sha256 f) f)
    fun _ _ _ _ hw hok hstep => holdsAll_step hw hok hstep

/-- A datanode that has answered the upload of a fragment gives it back whenever it runs and
no upload of this fragment is under way. -/
theorem net_of_acked {frags : List Bytes} {w : BlockCluster} (hw : HoldsAll x dataDir frags w)
    {f : Bytes} (hf : f ∈ frags) {node : String} (hack : (w.datanodes node).Acked (x.sha256 f))
    (hquiet : ¬ (w.datanodes node).Uploading (x.sha256 f)) :
    w.net dataDir node (x.sha256 f) = if (w.datanodes node).running then some f else none := by
  have hfile := (hw node f hf).file_eq hack hquiet
  obtain ⟨id, request, hr, hb⟩ := hack
  have hlt : f.length < 2 ^ 31 := (hw node f hf).acked id request hr hb ▸ request.fits
  rw [net, hfile, Option.bind_some, SDK.Exact.readFile_of_lt hlt]
  rfl

/-! ## Getting a block back -/

/-- `decode_one` asks for the places in its list, and for nothing else. -/
theorem decodeOne_congr {net net' : Net} {s : String} (t : StorageType)
    (h : ∀ p ∈ decodeOneSub s, net p.1 p.2 = net' p.1 p.2) :
    SDK.decodeOne x net t s = SDK.decodeOne x net' t s := by
  have hloop : ∀ (ls : List (String × String)) (datas : List Bytes),
      (∀ p ∈ ls, net p.1 p.2 = net' p.1 p.2) →
      SDK.decodeLoop x net t ls datas = SDK.decodeLoop x net' t ls datas := by
    intro ls
    induction ls with
    | nil => exact fun _ _ => rfl
    | cons p ls ih =>
      intro datas hls
      have hget : SDK.getFromDatanode x net p.1 p.2 = SDK.getFromDatanode x net' p.1 p.2 := by
        rw [SDK.getFromDatanode, SDK.getFromDatanode, hls p List.mem_cons_self]
      have hrest := fun datas => ih datas fun q hq => hls q (List.mem_cons_of_mem _ hq)
      simp only [SDK.decodeLoop, hget, hrest]
  rw [SDK.decodeOne, SDK.decodeOne, hloop _ _ h]

/-- The places of an answer of `encode_one`: the digests of fragments of its block. -/
theorem exists_fragment_of_isEntry {t : StorageType} {block : Bytes} {s : String}
    {frags : List Bytes} (hs : SDK.IsEntry x t block s) (henc : t.encode x.code block = .ok frags)
    {p : String × String} (hp : p ∈ decodeOneSub s) : ∃ f ∈ frags, p.2 = x.sha256 f := by
  obtain ⟨frags', henc', r, hhash⟩ := hs
  obtain rfl := Except.ok.inj (henc.symm.trans henc')
  have hmem : p.2 ∈ (decodeOneSub s).map Prod.snd := List.mem_map_of_mem hp
  rw [hhash] at hmem
  obtain ⟨f, hf, heq⟩ := List.mem_map.mp hmem
  exact ⟨f, List.mem_of_mem_take hf, heq.symm⟩

theorem decodeOne_of_holdsAll (hx : x.Lawful) {kept frags : List Bytes} {w : BlockCluster}
    {t : StorageType} {block : Bytes} {s : String} (hw : HoldsAll x dataDir kept w)
    (hinv : w.Invariant x) (hentry : (t, block, s) ∈ w.entries)
    (henc : t.encode x.code block = .ok frags) (hkept : ∀ f ∈ frags, f ∈ kept)
    (hinj : ∀ f ∈ kept, ∀ g ∈ kept, x.sha256 f = x.sha256 g → f = g)
    (hquiet : ∀ p ∈ decodeOneSub s, ¬ (w.datanodes p.1).Uploading p.2) :
    SDK.decodeOne x (w.net dataDir) t s =
      .ok (if t.getDecodeBlocks ≤
          (decodeOneSub s).countP (fun p => (w.datanodes p.1).running) then block else []) := by
  obtain ⟨⟨up, hup, hone⟩, hacked⟩ := hinv.entries _ hentry
  have hs := SDK.isEntry_of_encodeOne hx hup hone
  -- Nothing is asked for but the places in the text, and these hold their fragments.
  let listed : Net := fun node blkid =>
    if (node, blkid) ∈ decodeOneSub s then w.net dataDir node blkid else none
  have hlisted : ∀ p ∈ decodeOneSub s, ∃ f ∈ frags, p.2 = x.sha256 f ∧
      listed p.1 p.2 = if (w.datanodes p.1).running then some f else none := by
    intro p hp
    obtain ⟨f, hf, heq⟩ := exists_fragment_of_isEntry hs henc hp
    refine ⟨f, hf, heq, (if_pos hp).trans ?_⟩
    rw [heq]
    exact net_of_acked hw (hkept f hf) (heq ▸ acked_of_uploaded (hacked p hp)) (heq ▸ hquiet p hp)
  have hcol : SDK.NoCollision x listed t block := by
    intro frags' henc' f hf node blkid data hnet hsha
    obtain rfl := Except.ok.inj (henc.symm.trans henc')
    have hp : (node, blkid) ∈ decodeOneSub s := by
      by_contra hnot
      exact absurd ((if_neg hnot).symm.trans hnet) (by simp)
    obtain ⟨g, hg, -, heq⟩ := hlisted (node, blkid) hp
    rw [hnet] at heq
    split at heq
    · rw [Option.some.inj heq] at hsha ⊢
      exact hinj g (hkept g hg) f (hkept f hf) hsha
    · cases heq
  have hreturns : ∀ p ∈ decodeOneSub s,
      SDK.Returns x listed p = true ↔ (w.datanodes p.1).running = true := by
    intro p hp
    obtain ⟨f, -, hsha, heq⟩ := hlisted p hp
    rw [SDK.Returns, heq]
    cases hrunning : (w.datanodes p.1).running <;> simp [hsha]
  have hnet : ∀ p ∈ decodeOneSub s, w.net dataDir p.1 p.2 = listed p.1 p.2 :=
    fun p hp => (if_pos hp).symm
  rw [decodeOne_congr t hnet, SDK.decodeOne_of_isEntry hx hs hcol, SDK.available,
    List.countP_congr hreturns]

/-- In every run, whatever fails in it: the answer of `encode_one` is what the function answers
for some outcomes of its uploads, its digests are those of the first fragments of the block,
and each place that it lists has answered with success to an upload of data with the digest
that is listed for it. -/
theorem uploaded_of_entry (hx : x.Lawful) {w : BlockCluster}
    (h : Runs.Reachable (step x dataDir) init w) {t : StorageType} {block : Bytes} {s : String}
    (hentry : (t, block, s) ∈ w.entries) :
    (∃ up, SDK.encodeOne x t block up = .ok s) ∧ SDK.IsEntry x t block s ∧
      ∀ p ∈ decodeOneSub s, Uploaded x (w.datanodes p.1) p.2 := by
  have hinv : w.Invariant x :=
    h.invariant invariant_init fun _ _ _ _ hw _ hstep => invariant_step hx hw hstep
  obtain ⟨⟨up, hup, hone⟩, huploaded⟩ := hinv.entries _ hentry
  exact ⟨⟨up, hone⟩, SDK.isEntry_of_encodeOne hx hup hone, huploaded⟩

/-- In every run in which the fragments of a block are written in full and under their own
digests: whatever uploads and calls overlap, an answer of `encode_one` is good for its
block, as long as enough of the places that it lists are running and none of them is at an upload
of its fragment.  With less of them, `decode_one` answers the empty text. -/
theorem decodeOne_of_entry (hx : x.Lawful) {kept frags : List Bytes} {w : BlockCluster}
    {t : StorageType} {block : Bytes} {s : String}
    (h : Runs.Reach (step x dataDir) (Kept x dataDir kept) init w)
    (hentry : (t, block, s) ∈ w.entries) (henc : t.encode x.code block = .ok frags)
    (hkept : ∀ f ∈ frags, f ∈ kept)
    (hinj : ∀ f ∈ kept, ∀ g ∈ kept, x.sha256 f = x.sha256 g → f = g)
    (hquiet : ∀ p ∈ decodeOneSub s, ¬ (w.datanodes p.1).Uploading p.2) :
    SDK.decodeOne x (w.net dataDir) t s =
      .ok (if t.getDecodeBlocks ≤
          (decodeOneSub s).countP (fun p => (w.datanodes p.1).running) then block else []) := by
  have hinv : w.Invariant x :=
    h.invariant invariant_init fun _ _ _ _ hw _ hstep => invariant_step hx hw hstep
  exact decodeOne_of_holdsAll hx (holdsAll_of_reach h) hinv hentry henc hkept hinj hquiet

/-- Decides more than `Kept` asks for. -/
def keptCheck (x : External) (frags : List Bytes) (w : BlockCluster) (ev : BlockEvent) : Bool :=
  match w.datanodeEvent x ev with
  | none => true
  | some (node, ev') =>
    frags.all fun f => Datanode.keptCheck (x.sha256 f) f (w.datanodes node) ev'

theorem kept_of_keptCheck {frags : List Bytes} {w : BlockCluster} {ev : BlockEvent}
    (h : keptCheck x frags w ev = true) : Kept x dataDir frags w ev := by
  intro node ev' hev f hf
  rw [keptCheck, hev] at h
  exact Datanode.kept_of_check (List.all_eq_true.mp h f hf)

/-- The functions as they behave on the bytes 1, 2 and 3.  With replicas nothing is
encoded. -/
def threeExternal : External :=
  ⟨fun _ => threeDigest, ⟨fun _ _ _ => .error 0, fun _ _ _ => .error 0⟩⟩

theorem threeExternal_lawful : threeExternal.Lawful := by
  refine ⟨fun data => ?_, ⟨?_, ?_, ?_⟩⟩
  · exact Delimited.forall_not_mem_of_all (by decide +kernel : ([',', '|'].all fun c =>
      decide (c ∉ threeDigest.toList)) = true)
  · intro k m d frags h
    cases h
  · intro k m d frags h
    cases h
  · intro k m d frags vec h
    cases h

def firstDatanode : { n : Node // n.IsEndpoint } :=
  ⟨⟨"192.168.88.112", 10002, .online⟩,
    Delimited.forall_not_mem_of_all (by decide +kernel), by decide, by decide⟩

def secondDatanode : { n : Node // n.IsEndpoint } :=
  ⟨⟨"192.168.88.113", 10002, .online⟩,
    Delimited.forall_not_mem_of_all (by decide +kernel), by decide, by decide⟩

/-- Two clients upload one block to one datanode at once, and one of them gives up.  At the
end, this datanode is down. -/
def twoClients : List BlockEvent :=
  [.encode (.re 2 1) [1, 2, 3] [firstDatanode, secondDatanode],
    .encode (.re 1 1) [1, 2, 3] [firstDatanode],
    .send 0 true, .datanode "192.168.88.112:10002" (.write 0 2), .send 1 true,
    .datanode "192.168.88.112:10002" (.write 0 1), .datanode "192.168.88.112:10002" (.close 0),
    .receive 0, .datanode "192.168.88.112:10002" (.write 0 3), .send 0 true, .giveUp 1,
    .datanode "192.168.88.113:10002" (.write 0 3), .datanode "192.168.88.113:10002" (.close 0),
    .receive 0, .datanode "192.168.88.112:10002" (.close 0), .finish 0,
    .datanode "192.168.88.112:10002" .kill]

/-- The answer of the first client. -/
def twoPlaces : String :=
  "192.168.88.112:10002|039058C6F2C0CB492C533B0A4D14EF77CC0F78ABCCCED5287D84A1A2011CFB81," ++
    "192.168.88.113:10002|039058C6F2C0CB492C533B0A4D14EF77CC0F78ABCCCED5287D84A1A2011CFB81"

theorem decodeOneSub_twoPlaces : decodeOneSub twoPlaces =
    [("192.168.88.112:10002", threeDigest), ("192.168.88.113:10002", threeDigest)] := by
  decide +kernel

/-- The state at the end of that run. -/
theorem exists_twoClients :
    ∃ w, Runs.Reach (step threeExternal "/data") (Kept threeExternal "/data" [[1, 2, 3]]) init w ∧
      (.re 2 1, [1, 2, 3], twoPlaces) ∈ w.entries ∧
      (∀ p ∈ decodeOneSub twoPlaces, ¬ (w.datanodes p.1).Uploading p.2) ∧
      (decodeOneSub twoPlaces).countP (fun p => (w.datanodes p.1).running) = 1 := by
  have hrun : ∃ w, Runs.Reach (step threeExternal "/data")
      (fun w ev => keptCheck threeExternal [[1, 2, 3]] w ev = true) init w ∧
      decide (w.entries = [(.re 2 1, [1, 2, 3], twoPlaces)] ∧
        (∀ node ∈ ["192.168.88.112:10002", "192.168.88.113:10002"],
          (w.datanodes node).puts.isEmpty = true) ∧
        (w.datanodes "192.168.88.112:10002").running = false ∧
        (w.datanodes "192.168.88.113:10002").running = true) = true :=
    Runs.exists_reach_of_any_guarded twoClients (by decide +kernel)
  obtain ⟨w, hcheck, htest⟩ := hrun
  obtain ⟨hentries, hempty, hdown, hup⟩ := of_decide_eq_true htest
  refine ⟨w, hcheck.mono fun _ _ hok => kept_of_keptCheck hok, hentries ▸ List.mem_cons_self,
    fun p hp => ?_, ?_⟩
  · rintro ⟨c, hc, -⟩
    have hnode : p.1 ∈ ["192.168.88.112:10002", "192.168.88.113:10002"] := by
      rw [decodeOneSub_twoPlaces] at hp
      exact List.mem_map_of_mem (f := Prod.fst) hp
    rw [List.isEmpty_iff.mp (hempty p.1 hnode)] at hc
    cases hc
  · rw [decodeOneSub_twoPlaces]
    simp [hdown, hup]

theorem uploaded_of_twoClients :
    ∃ w, Runs.Reachable (step threeExternal "/data") init w ∧
      (.re 2 1, [1, 2, 3], twoPlaces) ∈ w.entries ∧
      ∀ p ∈ decodeOneSub twoPlaces, Uploaded threeExternal (w.datanodes p.1) p.2 := by
  obtain ⟨w, hreach, hentry, -, -⟩ := exists_twoClients
  have hreach' : Runs.Reachable (step threeExternal "/data") init w :=
    hreach.mono fun _ _ _ => trivial
  exact ⟨w, hreach', hentry, (uploaded_of_entry threeExternal_lawful hreach' hentry).2.2⟩

/-- One place of two is enough. -/
theorem decodeOne_of_twoClients :
    ∃ w, Runs.Reach (step threeExternal "/data") (Kept threeExternal "/data" [[1, 2, 3]]) init w ∧
      SDK.decodeOne threeExternal (w.net "/data") (.re 2 1) twoPlaces = .ok [1, 2, 3] := by
  obtain ⟨w, hreach, hentry, hquiet, hcount⟩ := exists_twoClients
  have hencode : (StorageType.re 2 1).encode threeExternal.code [1, 2, 3] =
      .ok [[1, 2, 3], [1, 2, 3]] := rfl
  have hone := decodeOne_of_entry threeExternal_lawful hreach hentry hencode (by simp) (by simp)
    hquiet
  rw [hcount, if_pos (by decide)] at hone
  exact ⟨w, hreach, hone⟩

/-! ## Getting a file back -/

theorem decodeBlocks_of_entries (hx : x.Lawful) {kept : List Bytes} {w : BlockCluster}
    {t : StorageType} {blocks : List Bytes} {sub : List String}
    (hw : HoldsAll x dataDir kept w) (hinv : w.Invariant x)
    (hinj : ∀ f ∈ kept, ∀ g ∈ kept, x.sha256 f = x.sha256 g → f = g)
    (hsub : List.Forall₂ (fun block s => (t, block, s) ∈ w.entries) blocks sub)
    (hquiet : ∀ s ∈ sub, ∀ p ∈ decodeOneSub s, ¬ (w.datanodes p.1).Uploading p.2)
    (hkept : ∀ block ∈ blocks, ∀ frags, t.encode x.code block = .ok frags → ∀ f ∈ frags, f ∈ kept)
    (havail : ∀ s ∈ sub, t.getDecodeBlocks ≤
      (decodeOneSub s).countP fun p => (w.datanodes p.1).running) :
    SDK.decodeBlocks x (w.net dataDir) t sub = .ok blocks := by
  induction hsub with
  | nil => rfl
  | @cons block s blocks sub hentry hrest ih =>
    obtain ⟨⟨up, hup, hone⟩, -⟩ := hinv.entries _ hentry
    obtain ⟨frags, henc, -⟩ := SDK.isEntry_of_encodeOne hx hup hone
    have hblock := decodeOne_of_holdsAll hx hw hinv hentry henc
      (hkept block List.mem_cons_self frags henc) hinj (hquiet s List.mem_cons_self)
    rw [if_pos (havail s List.mem_cons_self)] at hblock
    rw [SDK.decodeBlocks, hblock, ih (fun s hs => hquiet s (List.mem_cons_of_mem _ hs))
      (fun b hb => hkept b (List.mem_cons_of_mem _ hb))
      fun s hs => havail s (List.mem_cons_of_mem _ hs)]
    rfl

/-- A client has sent the requests of a `put` to the namenode, with what its calls of
`encode_one` have answered.  As long as the record of the file stays as it is and the fragments
are written in full and under their own digests, `get` brings the file back in every later state
with enough running places for each block, none of them at an upload of its fragment. -/
theorem get_of_uploaded (hx : x.Lawful) {kept : List Bytes} {w : BlockCluster}
    {db db₁ db₂ db₃ db' : Store} {file : SDK.SourceFile} {path storageType : String}
    {nowPut nowLock nowPutOk : UInt64} {t : StorageType} {sub : List String}
    (h : Runs.Reach (step x dataDir) (Kept x dataDir kept) init w)
    (htype : StorageType.fromString storageType = .ok t) (hbs : 0 < t.getBlockSize)
    (h₁ : SDK.request db nowPut (.put path storageType) = .ok db₁)
    (h₂ : SDK.request db₁ nowLock (.updateLock path) = .ok db₂)
    (h₃ : SDK.request db₂ nowPutOk (.putOk path (.ofNat file.val.length) sub) = .ok db₃)
    (hsub : List.Forall₂ (fun block s => (t, block, s) ∈ w.entries)
      (SDK.putBlocks t file.val) sub)
    (hsame : recordAt db' (.set path) = recordAt db₃ (.set path))
    (hkept : ∀ block ∈ SDK.putBlocks t file.val, ∀ frags,
      t.encode x.code block = .ok frags → ∀ f ∈ frags, f ∈ kept)
    (hinj : ∀ f ∈ kept, ∀ g ∈ kept, x.sha256 f = x.sha256 g → f = g)
    (hquiet : ∀ s ∈ sub, ∀ p ∈ decodeOneSub s, ¬ (w.datanodes p.1).Uploading p.2)
    (havail : ∀ s ∈ sub, t.getDecodeBlocks ≤
      (decodeOneSub s).countP fun p => (w.datanodes p.1).running) :
    SDK.get x (w.net dataDir) db' path = .ok file.val := by
  have hinv : w.Invariant x :=
    h.invariant invariant_init fun _ _ _ _ hw _ hstep => invariant_step hx hw hstep
  have hblocks := decodeBlocks_of_entries hx (holdsAll_of_reach h) hinv hinj hsub hquiet hkept
    havail
  obtain ⟨hpath, hvalid, ht, hs, hsize⟩ := SDK.recordAt_of_requests htype h₁ h₂ h₃
  have hls : Namenode.ls db' path = .ok (recordAt db₃ (.set path)) := by
    rw [Namenode.ls, if_neg hpath, RocksDB.ls_eq_ok, hsame]
    exact ⟨hvalid, rfl⟩
  have hlen : (recordAt db₃ (.set path)).filesize.toNat = file.val.length := by
    rw [hsize, UInt64.toNat_ofNat']
    exact Nat.mod_eq_of_lt file.property
  rw [SDK.get, hls]
  show SDK.getFile x (w.net dataDir) (recordAt db₃ (.set path)) = .ok file.val
  simp only [SDK.getFile, ht, hs, hblocks, hlen]
  exact congrArg Except.ok (SDK.resizeFile_putBlocks hbs file.val)

/-- One replica of a block. -/
def oneUpload (block : Bytes) : List BlockEvent :=
  [.encode (.re 1 1) block [firstDatanode], .send 0 true,
    .datanode "192.168.88.112:10002" (.write 0 block.length),
    .datanode "192.168.88.112:10002" (.close 0), .receive 0, .finish 0]

/-- The entry of that block. -/
def onePlace : String := "192.168.88.112:10002|" ++ SDK.smallDigest

theorem toText_firstDatanode : firstDatanode.val.toText = "192.168.88.112:10002" := by
  decide +kernel

theorem encodeOneSub_onePlace :
    encodeOneSub [("192.168.88.112:10002", SDK.smallDigest)] = .ok onePlace := by
  decide +kernel

theorem decodeOneSub_onePlace :
    decodeOneSub onePlace = [("192.168.88.112:10002", SDK.smallDigest)] := by
  decide +kernel

/-- The state at the end of that upload, for any block that fits into a request. -/
theorem exists_oneUpload {block : Bytes} (hpos : 0 < block.length)
    (hlt : block.length < 2 ^ 31) :
    ∃ w, Runs.Reach (step SDK.smallExternal "/data")
        (Kept SDK.smallExternal "/data" [block]) init w ∧
      decide (w.entries = [(.re 1 1, block, onePlace)] ∧
        (w.datanodes "192.168.88.112:10002").puts.isEmpty = true ∧
        (w.datanodes "192.168.88.112:10002").running = true) = true := by
  have hrequest : request SDK.smallExternal block = some ⟨SDK.smallDigest, block, hlt⟩ :=
    dif_pos hlt
  have hsha : ∀ data, SDK.smallExternal.sha256 data = SDK.smallDigest := fun _ => rfl
  have hrun : ∃ w, Runs.Reach (step SDK.smallExternal "/data")
      (fun w ev => keptCheck SDK.smallExternal [block] w ev = true) init w ∧
      decide (w.entries = [(.re 1 1, block, onePlace)] ∧
        (w.datanodes "192.168.88.112:10002").puts.isEmpty = true ∧
        (w.datanodes "192.168.88.112:10002").running = true) = true := by
    refine Runs.exists_reach_of_any_guarded (oneUpload block) ?_
    simp [oneUpload, Runs.run_cons, Runs.guarded, keptCheck, datanodeEvent, step,
      StorageType.encode, init, EncodeCall.new, EncodeCall.target, hrequest, toText_firstDatanode,
      Datanode.keptCheck, State.init, sendTo, Datanode.step, setDatanode, hpos, State.finishPut,
      answered, finishRound, EncodeCall.finishRound, SDK.nextNode, SDK.upload,
      StorageType.check, hsha, encodeOneSub_onePlace]
  exact hrun.imp fun w hw => ⟨hw.1.mono fun _ _ hok => kept_of_keptCheck hok, hw.2⟩

/-- The requests of the `put` of a file of three bytes. -/
def oneRequests : Except Abrupt (Store × Store × Store) := do
  let db₁ ← SDK.request KeyedMap.empty 100 (.put "/f" "RE<1,1>")
  let db₂ ← SDK.request db₁ 100 (.updateLock "/f")
  let db₃ ← SDK.request db₂ 101 (.putOk "/f" 3 [onePlace])
  return (db₁, db₂, db₃)

/-- A file of three bytes comes back from the datanode. -/
theorem get_of_oneUpload :
    ∃ w db, Runs.Reach (step SDK.smallExternal "/data")
        (Kept SDK.smallExternal "/data" [SDK.smallBlock]) init w ∧
      SDK.get SDK.smallExternal (w.net "/data") db "/f" = .ok [1, 2, 3] := by
  have hbuffer : (List.replicate 1048576 (0 : UInt8)).length = 1048576 := List.length_replicate
  have hlen : SDK.smallBlock.length = 1048576 := by
    have hle : [(1 : UInt8), 2, 3].length ≤ (List.replicate 1048576 (0 : UInt8)).length := by
      rw [hbuffer]
      exact Nat.le_of_ble_eq_true rfl
    exact (Chunks.length_overwrite hle).trans hbuffer
  obtain ⟨w, hreach, htest⟩ := exists_oneUpload (show 0 < SDK.smallBlock.length by omega)
    (by omega)
  obtain ⟨hentries, hempty, hup⟩ := of_decide_eq_true htest
  have hok : okWith (fun _ => true) oneRequests = true := by decide +kernel
  obtain ⟨_, hrequests, -⟩ := okWith_eq_true.mp hok
  obtain ⟨db₁, h₁, hrest⟩ := bind_eq_ok.mp hrequests
  obtain ⟨db₂, h₂, hrest⟩ := bind_eq_ok.mp hrest
  obtain ⟨db₃, h₃, -⟩ := bind_eq_ok.mp hrest
  have hplace : ∀ p ∈ decodeOneSub onePlace, p = ("192.168.88.112:10002", SDK.smallDigest) := by
    intro p hp
    rw [decodeOneSub_onePlace] at hp
    exact List.mem_singleton.mp hp
  have hblocks : SDK.putBlocks (.re 1 1) [1, 2, 3] = [SDK.smallBlock] :=
    SDK.putBlocks_small (by decide)
  have hputOk : SDK.request db₂ 101
      (.putOk "/f" (.ofNat (⟨[1, 2, 3], by decide⟩ : SDK.SourceFile).val.length) [onePlace]) =
      .ok db₃ := h₃
  have hget := get_of_uploaded SDK.smallExternal_lawful hreach
    (show StorageType.fromString "RE<1,1>" = .ok (.re 1 1) from rfl) (by decide) h₁ h₂ hputOk ?_
    rfl ?_ (by simp) ?_ ?_
  · exact ⟨w, _, hreach, hget⟩
  · rw [hblocks]
    exact .cons (hentries ▸ List.mem_cons_self) .nil
  · intro block hblock frags hfrags f hf
    rw [hblocks, List.mem_singleton] at hblock
    obtain rfl := Except.ok.inj hfrags
    rw [List.eq_of_mem_replicate hf, hblock]
    exact List.mem_singleton_self _
  · rintro s hs p hp ⟨c, hc, -⟩
    obtain rfl := List.mem_singleton.mp hs
    rw [hplace p hp, List.isEmpty_iff.mp hempty] at hc
    cases hc
  · intro s hs
    obtain rfl := List.mem_singleton.mp hs
    rw [decodeOneSub_onePlace]
    simp [hup, StorageType.getDecodeBlocks]

end BlockCluster

end Spkdfs
