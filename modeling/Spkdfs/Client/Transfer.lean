import Spkdfs.Common.Blocks

/-!
# Moving one block to and from the datanodes

`encode_one` of `client/sdk.cpp` stores the fragments of a block on the datanodes
and answers the list of their places, and `decode_one` gets the block back from
such a list.

The functions outside of the repository are a parameter (`External`), and so are
the datanodes: a call of `encode_one` is given the nodes that are online and the
outcome of each upload that it tries, and a call of `decode_one` the answer of each
datanode for each digest.

`IsEntry` is what an answer of `encode_one` is good for: its digests are those of
the first fragments of the block, in order.  `decodeOne_of_isEntry` says what
`decode_one` makes of such an entry, however many of its places still answer.
-/

namespace Spkdfs

/-- The functions of other libraries. -/
structure External where
  /-- `cal_sha256sum`. -/
  sha256 : Bytes → String
  code : ErasureCode

/-- What the code relies on.  A digest is a text of hexadecimal digits. -/
structure External.Lawful (x : External) : Prop where
  digest : ∀ data, ∀ c ∈ [',', '|'], c ∉ (x.sha256 data).toList
  code : x.code.Lawful

/-- The data that a datanode answers for a digest; `none` is a call that fails. -/
abbrev Net := String → String → Option Bytes

namespace SDK

variable (x : External)

/-- `SDK::get_from_datanode`. -/
def getFromDatanode (net : Net) (datanode blkid : String) : Except Exception Bytes :=
  match net datanode blkid with
  | none => .error (.runtime "brpc not success")
  | some data =>
    if x.sha256 data ≠ blkid then .error (.runtime "sha256sum check fail") else .ok data

/-- The variables of the loop of `encode_one`. -/
structure EncodeState where
  i : ℕ
  nodeIndex : ℕ
  succ : ℕ
  failCount : ℕ
  nodesHashs : List (String × String)

/-- The upload of `vec[i]`: a failure leaves `i` where it is. -/
def upload (node : String) (fragment : Bytes) (succeeds : Bool) (st : EncodeState) : EncodeState :=
  if succeeds then
    { st with i := st.i + 1, succ := st.succ + 1,
              nodesHashs := st.nodesHashs ++ [(node, x.sha256 fragment)] }
  else { st with failCount := st.failCount + 1 }

/-- The end of a round of the loop.  The second component is the `break`. -/
def nextNode (t : StorageType) (nodes : List String) (st : EncodeState) : EncodeState × Bool :=
  let st := { st with nodeIndex := (st.nodeIndex + 1) % nodes.length }
  if st.nodeIndex = 0 ∧ t.check st.succ = false then
    if st.failCount = nodes.length then (st, true) else ({ st with failCount := 0 }, false)
  else (st, false)

/-- The loop of `encode_one`, over the outcomes of its uploads. -/
def encodeLoop (t : StorageType) (vec : List Bytes) (nodes : List String) (st : EncodeState) :
    List Bool → Except Abrupt (List (String × String))
  | [] => if st.i < vec.length then .error .running else .ok st.nodesHashs
  | succeeds :: outcomes =>
    match vec[st.i]?, nodes[st.nodeIndex]? with
    | none, _ => .ok st.nodesHashs
    | some _, none => .error .undefined
    | some fragment, some node =>
      let (st, stop) := nextNode t nodes (upload x node fragment succeeds st)
      if stop then .ok st.nodesHashs else encodeLoop t vec nodes st outcomes

/-- What the datanodes do during a call of `encode_one`: the answer of
`get_online_datanodes`, and the outcomes of the uploads. -/
structure Uploads where
  online : Except Exception (List Node)
  outcomes : List Bool

/-- `SDK::encode_one`. -/
def encodeOne (t : StorageType) (block : Bytes) (up : Uploads) : Except Abrupt String := do
  let vec ← rethrow (t.encode x.code block)
  let nodes ← rethrow up.online
  let nodesHashs ← encodeLoop x t vec (nodes.map Node.toText) ⟨0, 0, 0, 0, []⟩ up.outcomes
  encodeOneSub nodesHashs

/-- The loop of `decode_one`, with the data that it has got so far.  An exception of
`decode` is caught, and a write behind the end of `datas` is undefined. -/
def decodeLoop (net : Net) (t : StorageType) :
    List (String × String) → List Bytes → Except Abrupt Bytes
  | [], _ => .ok []
  | (node, blkid) :: rest, datas =>
    match getFromDatanode x net node blkid with
    | .error _ => decodeLoop net t rest datas
    | .ok data =>
      if t.getDecodeBlocks ≤ datas.length then .error .undefined
      else if datas.length + 1 = t.getDecodeBlocks then
        match t.decode x.code (datas ++ [data]) with
        | .error (.thrown _) => decodeLoop net t rest (datas ++ [data])
        | res => res
      else decodeLoop net t rest (datas ++ [data])

/-- `SDK::decode_one`.  `resize` throws on a negative size. -/
def decodeOne (net : Net) (t : StorageType) (s : String) : Except Abrupt Bytes :=
  if t.getDecodeBlocks < 0 then .error (.thrown (.runtime "vector::_M_default_append"))
  else decodeLoop x net t (decodeOneSub s) []

/-! ## What an entry is good for -/

/-- The place returns data with the listed digest. -/
def Returns (net : Net) (p : String × String) : Bool :=
  match net p.1 p.2 with
  | none => false
  | some data => x.sha256 data = p.2

/-- The number of the places of an entry that return data with the listed digest. -/
def available (net : Net) (s : String) : ℕ := (decodeOneSub s).countP (Returns x net)

/-- The digests of the entry are those of the first fragments of the block. -/
def IsEntry (t : StorageType) (block : Bytes) (s : String) : Prop :=
  ∃ frags, t.encode x.code block = .ok frags ∧
    ∃ r, (decodeOneSub s).map Prod.snd = (frags.take r).map x.sha256

/-- No datanode answers data that has the digest of a fragment of the block and is
not that fragment. -/
def NoCollision (net : Net) (t : StorageType) (block : Bytes) : Prop :=
  ∀ frags, t.encode x.code block = .ok frags → ∀ f ∈ frags, ∀ node blkid data,
    net node blkid = some data → x.sha256 data = x.sha256 f → data = f

variable {x}

theorem getFromDatanode_of_returns {net : Net} {p : String × String} (h : Returns x net p = true) :
    ∃ data, getFromDatanode x net p.1 p.2 = .ok data ∧ net p.1 p.2 = some data ∧
      x.sha256 data = p.2 := by
  unfold Returns at h
  split at h
  · cases h
  · rename_i data hdata
    have hsha : x.sha256 data = p.2 := of_decide_eq_true h
    refine ⟨data, ?_, hdata, hsha⟩
    simp [getFromDatanode, hdata, hsha]

theorem getFromDatanode_of_not_returns {net : Net} {p : String × String}
    (h : Returns x net p = false) : ∃ e, getFromDatanode x net p.1 p.2 = .error e := by
  unfold Returns at h
  split at h
  · rename_i hnone
    exact ⟨_, by simp [getFromDatanode, hnone]; rfl⟩
  · rename_i data hdata
    have hsha : x.sha256 data ≠ p.2 := of_decide_eq_false h
    exact ⟨_, by simp [getFromDatanode, hdata, hsha]; rfl⟩

/-- The loop of `decode_one` over the places of the fragments `fs`, where `pre` are
the fragments before them: it collects a sublist of the fragments, and it returns
the block once that sublist is long enough. -/
theorem decodeLoop_of_fragments {net : Net} {t : StorageType} {block : Bytes} {frags : List Bytes}
    (hx : x.Lawful) (henc : t.encode x.code block = .ok frags)
    (hcol : NoCollision x net t block) {ls : List (String × String)} {fs pre datas : List Bytes}
    (hls : ls.map Prod.snd = fs.map x.sha256) (hpre : (pre ++ fs).Sublist frags)
    (hdatas : datas.Sublist pre) (hlen : datas.length < t.getDecodeBlocks) :
    decodeLoop x net t ls datas =
      .ok (if t.getDecodeBlocks ≤ datas.length + ls.countP (Returns x net) then block else []) := by
  induction ls generalizing fs pre datas with
  | nil =>
    rw [decodeLoop, if_neg]
    simpa using hlen
  | cons p ls ih =>
    cases fs with
    | nil => simp at hls
    | cons f fs =>
      simp only [List.map_cons, List.cons.injEq] at hls
      obtain ⟨hhash, hls⟩ := hls
      have happend : pre ++ f :: fs = pre ++ [f] ++ fs := by simp
      rw [happend] at hpre
      rw [decodeLoop]
      cases hret : Returns x net p with
      | false =>
        obtain ⟨e, he⟩ := getFromDatanode_of_not_returns hret
        rw [he, List.countP_cons_of_neg (by simp [hret])]
        exact ih hls hpre (hdatas.trans (List.sublist_append_left _ _)) hlen
      | true =>
        obtain ⟨data, hget, hnet, hsha⟩ := getFromDatanode_of_returns hret
        have hf : f ∈ frags := hpre.subset (by simp)
        obtain rfl : data = f := hcol frags henc f hf _ _ data hnet (hsha.trans hhash)
        have hdatas' : (datas ++ [data]).Sublist (pre ++ [data]) := hdatas.append_right [data]
        rw [hget, List.countP_cons_of_pos hret]
        simp only [show ¬ t.getDecodeBlocks ≤ (datas.length : Int) by omega, if_false]
        by_cases hlast : (datas.length : Int) + 1 = t.getDecodeBlocks
        · -- The last fragment that is needed.
          have hdec : t.decode x.code (datas ++ [data]) = .ok block := by
            refine StorageType.decode_of_sublist hx.code henc ?_ (by simpa using hlast)
            exact hdatas'.trans ((List.sublist_append_left _ fs).trans hpre)
          rw [if_pos hlast, hdec, if_pos (by push_cast; omega)]
        · rw [if_neg hlast, ih hls hpre hdatas' (by simp; omega)]
          have hcount : t.getDecodeBlocks ≤ ((datas ++ [data]).length : Int) +
              (ls.countP (Returns x net) : Int) ↔
              t.getDecodeBlocks ≤ (datas.length : Int) +
                ((ls.countP (Returns x net) + 1 : ℕ) : Int) := by
            rw [List.length_append, List.length_singleton]
            push_cast
            omega
          simp only [hcount]

/-- `decode_one` of an entry answers its block if enough of its places return data
with the listed digest, and the empty text otherwise. -/
theorem decodeOne_of_isEntry {net : Net} {t : StorageType} {block : Bytes} {s : String}
    (hx : x.Lawful) (hs : IsEntry x t block s) (hcol : NoCollision x net t block) :
    decodeOne x net t s =
      .ok (if t.getDecodeBlocks ≤ available x net s then block else []) := by
  obtain ⟨frags, henc, r, hhash⟩ := hs
  have hpos := StorageType.getDecodeBlocks_pos hx.code henc
  have hpre : ([] ++ frags.take r).Sublist frags := List.take_sublist r frags
  rw [decodeOne, if_neg (by omega),
    decodeLoop_of_fragments hx henc hcol hhash hpre (List.Sublist.refl []) hpos, available]
  simp

/-! ## `encode_one` answers an entry -/

/-- The digests that are collected so far are those of the first `i` fragments. -/
structure EncodeState.Invariant (x : External) (vec : List Bytes) (nodes : List String)
    (st : EncodeState) : Prop where
  hashs : st.nodesHashs.map Prod.snd = (vec.take st.i).map x.sha256
  nodes : ∀ p ∈ st.nodesHashs, p.1 ∈ nodes ∧ ∃ f, p.2 = x.sha256 f

theorem EncodeState.Invariant.upload {vec : List Bytes} {nodes : List String} {st : EncodeState}
    (hst : st.Invariant x vec nodes) {node : String} {fragment : Bytes} (hnode : node ∈ nodes)
    (hfragment : vec[st.i]? = some fragment) (succeeds : Bool) :
    (SDK.upload x node fragment succeeds st).Invariant x vec nodes := by
  cases succeeds with
  | false => exact ⟨hst.hashs, hst.nodes⟩
  | true =>
    refine ⟨?_, fun p hp => ?_⟩
    · show (st.nodesHashs ++ [(node, x.sha256 fragment)]).map Prod.snd =
        (vec.take (st.i + 1)).map x.sha256
      obtain ⟨hi, hget⟩ := List.getElem?_eq_some_iff.mp hfragment
      rw [List.map_append, hst.hashs, List.take_succ_eq_append_getElem hi, hget, List.map_append]
      rfl
    · rcases List.mem_append.mp hp with hp | hp
      · exact hst.nodes p hp
      · rw [List.mem_singleton.mp hp]
        exact ⟨hnode, fragment, rfl⟩

theorem EncodeState.Invariant.nextNode {vec : List Bytes} {nodes : List String} {st : EncodeState}
    (hst : st.Invariant x vec nodes) (t : StorageType) :
    (SDK.nextNode t nodes st).1.Invariant x vec nodes := by
  simp only [SDK.nextNode]
  split
  · split <;> exact ⟨hst.hashs, hst.nodes⟩
  · exact ⟨hst.hashs, hst.nodes⟩

/-- However the uploads go, the loop ends with the digests of the first
fragments. -/
theorem encodeLoop_spec {t : StorageType} {vec : List Bytes} {nodes : List String}
    {st : EncodeState} {outcomes : List Bool} {res : List (String × String)}
    (hst : st.Invariant x vec nodes) (h : encodeLoop x t vec nodes st outcomes = .ok res) :
    (∃ r, res.map Prod.snd = (vec.take r).map x.sha256) ∧
      ∀ p ∈ res, p.1 ∈ nodes ∧ ∃ f, p.2 = x.sha256 f := by
  have hstop : ∀ st : EncodeState, st.Invariant x vec nodes → st.nodesHashs = res →
      (∃ r, res.map Prod.snd = (vec.take r).map x.sha256) ∧
        ∀ p ∈ res, p.1 ∈ nodes ∧ ∃ f, p.2 = x.sha256 f := by
    rintro st hst rfl
    exact ⟨⟨st.i, hst.hashs⟩, hst.nodes⟩
  induction outcomes generalizing st with
  | nil =>
    rw [encodeLoop] at h
    split at h
    · cases h
    · exact hstop st hst (Except.ok.inj h)
  | cons succeeds outcomes ih =>
    rw [encodeLoop] at h
    split at h
    · exact hstop st hst (Except.ok.inj h)
    · cases h
    · rename_i fragment node hfragment hnode
      have hst' := (hst.upload (List.mem_of_getElem? hnode) hfragment succeeds).nextNode t
      simp only at h
      split at h
      · exact hstop _ hst' (Except.ok.inj h)
      · exact ih hst' h

/-- The text of an entry can hold the places of the loop. -/
theorem isLocation_of_encodeLoop {t : StorageType} {vec : List Bytes} {nodes : List Node}
    {outcomes : List Bool} {res : List (String × String)} (hx : x.Lawful)
    (hnodes : ∀ node ∈ nodes, node.IsEndpoint)
    (h : encodeLoop x t vec (nodes.map Node.toText) ⟨0, 0, 0, 0, []⟩ outcomes = .ok res) :
    ∀ p ∈ res, IsLocation p := by
  intro p hp
  have hinit : EncodeState.Invariant x vec (nodes.map Node.toText) ⟨0, 0, 0, 0, []⟩ :=
    ⟨by simp, by simp⟩
  obtain ⟨hnode, f, hf⟩ := (encodeLoop_spec hinit h).2 p hp
  obtain ⟨node, hmem, htext⟩ := List.mem_map.mp hnode
  refine ⟨⟨node, hnodes node hmem, htext.symm⟩, ?_⟩
  rw [hf]
  exact hx.digest f

/-- The places of what `encode_one` answers are those that its loop has collected. -/
theorem exists_places_of_encodeOne {t : StorageType} {block : Bytes} {up : Uploads} {s : String}
    (hx : x.Lawful) (hup : ∀ nodes, up.online = .ok nodes → ∀ node ∈ nodes, node.IsEndpoint)
    (h : encodeOne x t block up = .ok s) :
    ∃ frags nodes, t.encode x.code block = .ok frags ∧ up.online = .ok nodes ∧
      encodeLoop x t frags (nodes.map Node.toText) ⟨0, 0, 0, 0, []⟩ up.outcomes =
        .ok (decodeOneSub s) ∧
      ∃ r, (decodeOneSub s).map Prod.snd = (frags.take r).map x.sha256 := by
  obtain ⟨frags, henc, h⟩ := bind_eq_ok.mp h
  obtain ⟨nodes, honline, h⟩ := bind_eq_ok.mp h
  obtain ⟨nodesHashs, hloop, hsub⟩ := bind_eq_ok.mp h
  have hinit : EncodeState.Invariant x frags (nodes.map Node.toText) ⟨0, 0, 0, 0, []⟩ :=
    ⟨by simp, by simp⟩
  obtain ⟨hfrags, _⟩ := encodeLoop_spec hinit hloop
  have hloc := isLocation_of_encodeLoop hx (hup nodes (rethrow_eq_ok.mp honline)) hloop
  rw [decodeOneSub_of_encodeOneSub hloc hsub]
  exact ⟨frags, nodes, rethrow_eq_ok.mp henc, rethrow_eq_ok.mp honline, hloop, hfrags⟩

/-- What `encode_one` answers is an entry of its block. -/
theorem isEntry_of_encodeOne {t : StorageType} {block : Bytes} {up : Uploads} {s : String}
    (hx : x.Lawful) (hup : ∀ nodes, up.online = .ok nodes → ∀ node ∈ nodes, node.IsEndpoint)
    (h : encodeOne x t block up = .ok s) : IsEntry x t block s := by
  obtain ⟨frags, _, henc, _, _, hr⟩ := exists_places_of_encodeOne hx hup h
  exact ⟨frags, henc, hr⟩

/-! ## Enough fragments -/

/-- The datanodes take enough fragments to get the block back. -/
structure Enough (t : StorageType) (up : Uploads) : Prop where
  spans : t.Spans
  /-- Before a round in which every datanode refuses its fragment, enough are stored. -/
  stored : ∀ nodes, up.online = .ok nodes → ∀ j,
    (∀ i < nodes.length, up.outcomes[j * nodes.length + i]? = some false) →
    t.getDecodeBlocks ≤ (up.outcomes.take (j * nodes.length)).count true

/-- The variables of the loop after the outcomes `past`.  The current round has started
after `n` of them. -/
structure EncodeState.Counts (t : StorageType) (past : List Bool) (n : ℕ) (st : EncodeState) :
    Prop where
  i : st.i = past.count true
  succ : st.succ = past.count true
  places : st.nodesHashs.length = past.count true
  /-- As long as `check` fails, the failures are those of the round. -/
  fails : t.check st.succ = false → st.failCount = (past.drop n).count false

theorem EncodeState.Counts.upload {t : StorageType} {past : List Bool} {n : ℕ} {st : EncodeState}
    (hst : st.Counts t past n) (hn : n ≤ past.length) (node : String) (fragment : Bytes)
    (succeeds : Bool) :
    (SDK.upload x node fragment succeeds st).Counts t (past ++ [succeeds]) n := by
  cases succeeds with
  | false =>
    refine ⟨?_, ?_, ?_, fun hcheck => ?_⟩
    · simpa [SDK.upload] using hst.i
    · simpa [SDK.upload] using hst.succ
    · simpa [SDK.upload] using hst.places
    · rw [List.drop_append_of_le_length hn, List.count_append, ← hst.fails hcheck]
      rfl
  | true =>
    refine ⟨?_, ?_, ?_, fun hcheck => ?_⟩
    · simpa [SDK.upload] using hst.i
    · simpa [SDK.upload] using hst.succ
    · simpa [SDK.upload] using hst.places
    · rw [List.drop_append_of_le_length hn, List.count_append,
        ← hst.fails (StorageType.check_of_le (Nat.le_succ _) hcheck)]
      rfl

/-- The end of a round of the loop: either there is another datanode, or the round is over. -/
theorem nextNode_cases (t : StorageType) {nodes : List String} {st : EncodeState}
    (h : st.nodeIndex < nodes.length) :
    (st.nodeIndex + 1 < nodes.length ∧
        nextNode t nodes st = ({ st with nodeIndex := st.nodeIndex + 1 }, false)) ∨
      st.nodeIndex + 1 = nodes.length ∧
        ((t.check st.succ = true ∧ nextNode t nodes st = ({ st with nodeIndex := 0 }, false)) ∨
          (t.check st.succ = false ∧ st.failCount = nodes.length ∧
            nextNode t nodes st = ({ st with nodeIndex := 0 }, true)) ∨
          (t.check st.succ = false ∧ st.failCount ≠ nodes.length ∧
            nextNode t nodes st = ({ st with nodeIndex := 0, failCount := 0 }, false))) := by
  rcases Nat.lt_or_eq_of_le (Nat.succ_le_of_lt h) with hlt | heq
  · refine Or.inl ⟨hlt, ?_⟩
    simp only [nextNode, Nat.mod_eq_of_lt hlt]
    rw [if_neg (fun hzero => by omega)]
  · refine Or.inr ⟨heq, ?_⟩
    have hmod : (st.nodeIndex + 1) % nodes.length = 0 := by
      rw [← heq]
      exact Nat.mod_self _
    simp only [nextNode, hmod, true_and]
    cases hcheck : t.check st.succ with
    | true => exact Or.inl ⟨rfl, by simp⟩
    | false =>
      by_cases hfail : st.failCount = nodes.length
      · exact Or.inr (Or.inl ⟨rfl, hfail, by simp [hfail]⟩)
      · exact Or.inr (Or.inr ⟨rfl, hfail, by simp [hfail]⟩)

/-- After an upload the loop stops with a round of failures, or it goes on in this round or
the next one.  It does not go on behind a round of failures while `check` fails. -/
theorem EncodeState.Counts.nextNode {t : StorageType} {nodes : List String} {past : List Bool}
    {st : EncodeState} {j : ℕ} (hst : st.Counts t past (j * nodes.length))
    (hlen : past.length = j * nodes.length + (st.nodeIndex + 1))
    (hlt : st.nodeIndex < nodes.length) :
    (SDK.nextNode t nodes st = ({ st with nodeIndex := 0 }, true) ∧ t.check st.succ = false ∧
        (past.drop (j * nodes.length)).count false = nodes.length ∧
        past.length = (j + 1) * nodes.length) ∨
      ∃ st' j', SDK.nextNode t nodes st = (st', false) ∧ st'.nodesHashs = st.nodesHashs ∧
        st'.Counts t past (j' * nodes.length) ∧ st'.nodeIndex < nodes.length ∧
        past.length = j' * nodes.length + st'.nodeIndex ∧
        (j' = j ∨ j' = j + 1 ∧ (t.check st.succ = false →
          (past.drop (j * nodes.length)).count false ≠ nodes.length)) := by
  rcases nextNode_cases t hlt with ⟨hlt', hnext⟩ | ⟨hround, hcases⟩
  · exact Or.inr ⟨_, j, hnext, rfl, ⟨hst.i, hst.succ, hst.places, hst.fails⟩, hlt', hlen,
      Or.inl rfl⟩
  rw [hround, ← Nat.succ_mul] at hlen
  have hpos : 0 < nodes.length := by omega
  rcases hcases with ⟨hcheck, hnext⟩ | ⟨hcheck, hfail, hnext⟩ | ⟨hcheck, hfail, hnext⟩
  · exact Or.inr ⟨_, j + 1, hnext, rfl, ⟨hst.i, hst.succ, hst.places,
      fun hfalse => absurd (hcheck.symm.trans hfalse) (by decide)⟩, hpos, hlen,
      Or.inr ⟨rfl, fun hfalse => absurd (hcheck.symm.trans hfalse) (by decide)⟩⟩
  · exact Or.inl ⟨hnext, hcheck, (hst.fails hcheck).symm.trans hfail, hlen⟩
  · refine Or.inr ⟨_, j + 1, hnext, rfl, ⟨hst.i, hst.succ, hst.places, fun _ => ?_⟩, hpos, hlen,
      Or.inr ⟨rfl, fun _ => hst.fails hcheck ▸ hfail⟩⟩
    rw [← Nat.succ_eq_add_one, ← hlen, List.drop_length]
    rfl

/-- When the last round has only failures, enough fragments are stored before it. -/
theorem le_count_of_failed {k : Int} {n j : ℕ} {past rest : List Bool}
    (henough : ∀ j, (∀ i < n, (past ++ rest)[j * n + i]? = some false) →
      k ≤ ((past ++ rest).take (j * n)).count true)
    (hfail : (past.drop (j * n)).count false = n) (hlen : past.length = (j + 1) * n) :
    k ≤ past.count true := by
  rw [Nat.succ_mul] at hlen
  have hround : (past.drop (j * n)).length = n := by
    rw [List.length_drop]
    omega
  have hall : ∀ b ∈ past.drop (j * n), false = b :=
    List.count_eq_length.mp (hfail.trans hround.symm)
  have hk := henough j fun i hi => by
    have hlt : j * n + i < past.length := by omega
    rw [List.getElem?_append_left hlt, ← List.getElem?_drop,
      List.getElem?_eq_getElem (by omega), ← hall _ (List.getElem_mem _)]
  rw [List.take_append_of_le_length (by omega)] at hk
  have hle := (List.take_sublist (j * n) past).count_le true
  omega

/-- A loop that is not stopped too early stores enough fragments. -/
theorem length_of_encodeLoop {t : StorageType} {vec : List Bytes} {nodes : List String}
    {past rest : List Bool} {st : EncodeState} {j : ℕ} {res : List (String × String)}
    (hvec : t.getDecodeBlocks ≤ vec.length)
    (henough : ∀ j, (∀ i < nodes.length, (past ++ rest)[j * nodes.length + i]? = some false) →
      t.getDecodeBlocks ≤ ((past ++ rest).take (j * nodes.length)).count true)
    (hst : st.Counts t past (j * nodes.length))
    (hindex : past.length = j * nodes.length + st.nodeIndex)
    (h : encodeLoop x t vec nodes st rest = .ok res) : t.getDecodeBlocks ≤ res.length := by
  induction rest generalizing past st j with
  | nil =>
    rw [encodeLoop] at h
    split at h
    · cases h
    · rename_i hi
      rw [← Except.ok.inj h, hst.places, ← hst.i]
      omega
  | cons succeeds rest ih =>
    rw [List.append_cons] at henough
    rw [encodeLoop] at h
    split at h
    · rename_i hi
      have hi' : vec.length ≤ st.i := List.getElem?_eq_none_iff.mp hi
      rw [← Except.ok.inj h, hst.places, ← hst.i]
      omega
    · cases h
    · rename_i fragment node _ hnode
      have hst' := hst.upload (x := x) (by omega) node fragment succeeds
      have hkeep : (upload x node fragment succeeds st).nodeIndex = st.nodeIndex := by
        cases succeeds <;> rfl
      generalize upload x node fragment succeeds st = st₁ at h hst' hkeep
      rw [← hkeep] at hindex hnode
      have hlt : st₁.nodeIndex < nodes.length := (List.getElem?_eq_some_iff.mp hnode).1
      have hlen : (past ++ [succeeds]).length = j * nodes.length + (st₁.nodeIndex + 1) := by
        rw [List.length_append, hindex]
        rfl
      rcases hst'.nextNode hlen hlt with ⟨hnext, _, hfail, hlen'⟩ |
        ⟨st₂, j', hnext, _, hcounts, _, hindex', _⟩
      · simp only [hnext, if_true] at h
        rw [← Except.ok.inj h, hst'.places]
        exact le_count_of_failed henough hfail hlen'
      · simp only [hnext, Bool.false_eq_true, if_false] at h
        exact ih henough hcounts hindex' h

/-- The answer of `encode_one` has enough places then. -/
theorem length_of_encodeOne {t : StorageType} {block : Bytes} {up : Uploads} {s : String}
    (hx : x.Lawful) (hup : ∀ nodes, up.online = .ok nodes → ∀ node ∈ nodes, node.IsEndpoint)
    (henough : Enough t up) (h : encodeOne x t block up = .ok s) :
    t.getDecodeBlocks ≤ (decodeOneSub s).length := by
  obtain ⟨frags, nodes, henc, honline, hloop, _⟩ := exists_places_of_encodeOne hx hup h
  have hcounts : EncodeState.Counts t [] (0 * (nodes.map Node.toText).length) ⟨0, 0, 0, 0, []⟩ :=
    ⟨rfl, rfl, rfl, fun _ => by simp⟩
  refine length_of_encodeLoop (henough.spans.getDecodeBlocks_le hx.code henc) (fun j hj => ?_)
    hcounts (by simp) hloop
  rw [List.length_map] at hj ⊢
  exact henough.stored nodes honline j hj

end SDK

end Spkdfs
