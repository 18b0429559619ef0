import Spkdfs.Client.Roundtrip

/-!
# The uploads of one block

The loop of `encode_one` sends the fragments of a block to the online datanodes, one after
the other and around again.  A failure repeats the fragment with the next datanode.  The
only way out before the last fragment is at the end of a round: when `check` still fails and
all uploads of the round have failed, the loop gives up.

The outcomes of the attempts are an infinite sequence `o`, and `tape o n` are the first `n`
of them.  `going_or_ended` says where the loop is after each number of attempts.  From it
follow exactly when the loop ends (`encodeLoop_ends_iff`), and exactly when the entry that it
leaves is good enough to read the block again (`encodeOne_durable_iff`).
-/

namespace Spkdfs

namespace SDK

/-- The outcomes of the first attempts. -/
def tape (o : ℕ → Bool) (n : ℕ) : List Bool := (List.range n).map o

/-- The number of fragments that were stored by the first attempts. -/
def stored (o : ℕ → Bool) (n : ℕ) : ℕ := (tape o n).count true

/-- In the round `j` over `n` datanodes every upload fails. -/
def FailedRound (o : ℕ → Bool) (n j : ℕ) : Prop := ∀ i < n, o (j * n + i) = false

section Tape

variable {o : ℕ → Bool}

@[simp] theorem length_tape (n : ℕ) : (tape o n).length = n := by
  rw [tape, List.length_map, List.length_range]

theorem tape_succ (n : ℕ) : tape o (n + 1) = tape o n ++ [o n] := by
  rw [tape, List.range_succ, List.map_append]
  rfl

theorem tape_add (n m : ℕ) :
    tape o (n + m) = tape o n ++ (List.range m).map fun i => o (n + i) := by
  rw [tape, List.range_add, List.map_append, List.map_map]
  rfl

theorem stored_succ (n : ℕ) : stored o (n + 1) = stored o n + if o n = true then 1 else 0 := by
  rw [stored, tape_succ, List.count_append, List.count_singleton, stored]
  simp

theorem stored_mono {n m : ℕ} (h : n ≤ m) : stored o n ≤ stored o m := by
  obtain ⟨k, rfl⟩ := Nat.exists_eq_add_of_le h
  rw [stored, stored, tape_add, List.count_append]
  omega

theorem count_drop_tape (n j : ℕ) :
    ((tape o ((j + 1) * n)).drop (j * n)).count false = n ↔ FailedRound o n j := by
  rw [Nat.succ_mul, tape_add, List.drop_left' (length_tape _)]
  have hlen : ((List.range n).map fun i => o (j * n + i)).length = n := by
    rw [List.length_map, List.length_range]
  constructor
  · intro h i hi
    have hall := List.count_eq_length.mp (h.trans hlen.symm)
    exact (hall _ (List.mem_map.mpr ⟨i, List.mem_range.mpr hi, rfl⟩)).symm
  · intro h
    refine (List.count_eq_length.mpr fun b hb => ?_).trans hlen
    obtain ⟨i, hi, rfl⟩ := List.mem_map.mp hb
    exact (h i (List.mem_range.mp hi)).symm

/-- Nothing is stored in such a round. -/
theorem stored_of_failedRound {n j : ℕ} (h : FailedRound o n j) :
    stored o ((j + 1) * n) = stored o (j * n) := by
  rw [Nat.succ_mul, stored, tape_add, List.count_append, stored]
  have hzero : ((List.range n).map fun i => o (j * n + i)).count true = 0 := by
    refine List.count_eq_zero.mpr fun hmem => ?_
    obtain ⟨i, hi, htrue⟩ := List.mem_map.mp hmem
    rw [h i (List.mem_range.mp hi)] at htrue
    cases htrue
  omega

end Tape

/-! ## The loop -/

variable {x : External} {t : StorageType} {vec : List Bytes} {nodes : List String} {o : ℕ → Bool}

/-- The place was written down when its datanode acknowledged the fragment `j`. -/
def Acknowledged (x : External) (vec : List Bytes) (nodes : List String) (o : ℕ → Bool) (j : ℕ)
    (p : String × String) : Prop :=
  ∃ a node fragment, o a = true ∧ stored o a = j ∧ nodes[a % nodes.length]? = some node ∧
    vec[j]? = some fragment ∧ p = (node, x.sha256 fragment)

/-- The places so far, one for each fragment and in their order. -/
def AllAcknowledged (x : External) (vec : List Bytes) (nodes : List String) (o : ℕ → Bool)
    (places : List (String × String)) : Prop :=
  ∀ j p, places[j]? = some p → Acknowledged x vec nodes o j p

/-- Where the loop starts. -/
def EncodeState.init : EncodeState := ⟨0, 0, 0, 0, []⟩

/-- After `n` attempts the loop is in the round `j`, and it is not over. -/
structure Going (x : External) (t : StorageType) (vec : List Bytes) (nodes : List String)
    (o : ℕ → Bool) (n : ℕ) (st : EncodeState) (j : ℕ) : Prop where
  run : ∀ rest, encodeLoop x t vec nodes .init (tape o n ++ rest) = encodeLoop x t vec nodes st rest
  counts : st.Counts t (tape o n) (j * nodes.length)
  index : n = j * nodes.length + st.nodeIndex
  lt : st.nodeIndex < nodes.length
  more : stored o n < vec.length
  places : AllAcknowledged x vec nodes o st.nodesHashs
  /-- It has not passed a round of failures while `check` fails. -/
  passed : ∀ i < j, FailedRound o nodes.length i → t.check (stored o (i * nodes.length)) = true

/-- The loop ends: it has stored the last fragment, or it gives up after a round. -/
structure Ended (x : External) (t : StorageType) (vec : List Bytes) (nodes : List String)
    (o : ℕ → Bool) (n : ℕ) (places : List (String × String)) : Prop where
  run : ∀ rest, encodeLoop x t vec nodes .init (tape o n ++ rest) = .ok places
  length : places.length = stored o n
  places : AllAcknowledged x vec nodes o places
  why : vec.length = stored o n ∨ ∃ j, n = (j + 1) * nodes.length ∧
    FailedRound o nodes.length j ∧ t.check (stored o (j * nodes.length)) = false

theorem going_zero (hvec : vec ≠ []) (hnodes : nodes ≠ []) : Going x t vec nodes o 0 .init 0 where
  run _ := rfl
  counts := ⟨rfl, rfl, rfl, fun _ => by simp [EncodeState.init, tape]⟩
  index := by simp [EncodeState.init]
  lt := List.length_pos_iff.mpr hnodes
  more := List.length_pos_iff.mpr hvec
  places j p hp := by cases hp
  passed i hi := by omega

/-- An upload keeps the places acknowledged. -/
theorem allAcknowledged_upload {st : EncodeState} {n : ℕ} {node : String} {fragment : Bytes}
    (hplaces : AllAcknowledged x vec nodes o st.nodesHashs)
    (hlen : st.nodesHashs.length = stored o n) (hnode : nodes[n % nodes.length]? = some node)
    (hfragment : vec[stored o n]? = some fragment) :
    AllAcknowledged x vec nodes o (upload x node fragment (o n) st).nodesHashs := by
  intro j p hp
  cases hon : o n with
  | false =>
    rw [hon] at hp
    exact hplaces j p hp
  | true =>
    rw [hon] at hp
    have hp' : (st.nodesHashs ++ [(node, x.sha256 fragment)])[j]? = some p := hp
    rcases Nat.lt_or_ge j st.nodesHashs.length with hj | hj
    · rw [List.getElem?_append_left hj] at hp'
      exact hplaces j p hp'
    · rw [List.getElem?_append_right hj, List.getElem?_singleton] at hp'
      split at hp'
      · rename_i hzero
        obtain rfl : j = stored o n := by omega
        exact ⟨n, node, fragment, hon, rfl, hnode, hfragment, (Option.some.inj hp').symm⟩
      · cases hp'

/-- Behind the last fragment the loop ends. -/
theorem encodeLoop_of_done {st : EncodeState} (h : vec.length ≤ st.i) (rest : List Bool) :
    encodeLoop x t vec nodes st rest = .ok st.nodesHashs := by
  cases rest with
  | nil =>
    rw [encodeLoop, if_neg]
    omega
  | cons succeeds rest => rw [encodeLoop, List.getElem?_eq_none h]

/-- The loop after the upload of one more attempt, before the next node is chosen. -/
theorem Going.attempt {n j : ℕ} {st : EncodeState} (h : Going x t vec nodes o n st j) :
    ∃ st₁ : EncodeState, st₁.Counts t (tape o (n + 1)) (j * nodes.length) ∧
      AllAcknowledged x vec nodes o st₁.nodesHashs ∧ st₁.nodeIndex = st.nodeIndex ∧
      ∀ rest, encodeLoop x t vec nodes .init (tape o (n + 1) ++ rest) =
        if (nextNode t nodes st₁).2 then .ok (nextNode t nodes st₁).1.nodesHashs
        else encodeLoop x t vec nodes (nextNode t nodes st₁).1 rest := by
  have hi : st.i = stored o n := h.counts.i
  obtain ⟨fragment, hfragment⟩ : ∃ fragment, vec[st.i]? = some fragment :=
    ⟨_, List.getElem?_eq_getElem (hi ▸ h.more)⟩
  obtain ⟨node, hnode⟩ : ∃ node, nodes[st.nodeIndex]? = some node :=
    ⟨_, List.getElem?_eq_getElem h.lt⟩
  have hmod : n % nodes.length = st.nodeIndex := by
    rw [h.index, Nat.mul_add_mod_of_lt h.lt]
  have hcounts := h.counts.upload (x := x) (by rw [length_tape, h.index]; omega) node fragment (o n)
  rw [← tape_succ] at hcounts
  refine ⟨upload x node fragment (o n) st, hcounts,
    allAcknowledged_upload h.places h.counts.places (hmod ▸ hnode) (hi ▸ hfragment), ?_,
    fun rest => ?_⟩
  · cases o n <;> rfl
  · rw [tape_succ, List.append_assoc, h.run]
    show encodeLoop x t vec nodes st (o n :: rest) = _
    rw [encodeLoop, hfragment, hnode]

/-- A round of failures is passed only if `check` holds before it. -/
theorem Going.passed_of_next {n j j' : ℕ} {st st₁ : EncodeState}
    (h : Going x t vec nodes o n st j)
    (hcounts : st₁.Counts t (tape o (n + 1)) (j * nodes.length))
    (hnext : j' = j ∨ j' = j + 1 ∧ n + 1 = (j + 1) * nodes.length ∧ (t.check st₁.succ = false →
      ((tape o (n + 1)).drop (j * nodes.length)).count false ≠ nodes.length))
    {i : ℕ} (hi : i < j') (hfailed : FailedRound o nodes.length i) :
    t.check (stored o (i * nodes.length)) = true := by
  rcases hnext with rfl | ⟨rfl, hround, hcase⟩
  · exact h.passed i hi hfailed
  rcases Nat.lt_or_eq_of_le (Nat.le_of_lt_succ hi) with hlt | rfl
  · exact h.passed i hlt hfailed
  rw [hround] at hcase
  by_contra hcheck
  refine hcase ?_ ((count_drop_tape nodes.length i).mpr hfailed)
  rw [hcounts.succ, ← stored, hround, stored_of_failedRound hfailed]
  exact eq_false_of_ne_true hcheck

/-- One more attempt. -/
theorem going_succ {n j : ℕ} {st : EncodeState} (h : Going x t vec nodes o n st j) :
    (∃ st' j', Going x t vec nodes o (n + 1) st' j') ∨
      ∃ places, Ended x t vec nodes o (n + 1) places := by
  obtain ⟨st₁, hcounts, hplaces, hkeep, hstep⟩ := h.attempt
  have hlen₁ : (tape o (n + 1)).length = j * nodes.length + (st₁.nodeIndex + 1) := by
    rw [length_tape, hkeep]
    have := h.index
    omega
  rcases hcounts.nextNode hlen₁ (hkeep ▸ h.lt) with ⟨hnext, hcheck, hfail, hround⟩ |
    ⟨st₂, j', hnext, hsame, hcounts₂, hlt₂, hindex₂, hcase⟩
  · rw [length_tape] at hround
    rw [hround] at hfail
    have hfailed := (count_drop_tape nodes.length j).mp hfail
    refine Or.inr ⟨st₁.nodesHashs, fun rest => ?_, hcounts.places, hplaces,
      Or.inr ⟨j, hround, hfailed, ?_⟩⟩
    · rw [hstep rest, hnext]
      rfl
    · rw [← stored_of_failedRound hfailed, ← hround, stored, ← hcounts.succ]
      exact hcheck
  · have hrun : ∀ rest, encodeLoop x t vec nodes .init (tape o (n + 1) ++ rest) =
        encodeLoop x t vec nodes st₂ rest := by
      intro rest
      rw [hstep rest, hnext]
      rfl
    rw [length_tape] at hindex₂ hlen₁
    rcases Nat.lt_or_ge (stored o (n + 1)) vec.length with hmore | hdone
    · refine Or.inl ⟨st₂, j', hrun, hcounts₂, hindex₂, hlt₂, hmore, hsame ▸ hplaces, ?_⟩
      refine fun i hij hfailed => h.passed_of_next hcounts (hcase.imp_right ?_) hij hfailed
      rintro ⟨rfl, hagain⟩
      refine ⟨rfl, ?_, hagain⟩
      rw [Nat.succ_mul] at hindex₂ ⊢
      have := hkeep ▸ h.lt
      omega
    · have hle : stored o (n + 1) ≤ stored o n + 1 := by
        rw [stored_succ]
        split <;> omega
      have hmore := h.more
      refine Or.inr ⟨st₂.nodesHashs, fun rest => ?_, hcounts₂.places, hsame ▸ hplaces,
        Or.inl (by omega)⟩
      rw [hrun rest]
      exact encodeLoop_of_done (hcounts₂.i ▸ hdone) rest

/-- After each number of attempts the loop is going on, or it has ended. -/
theorem going_or_ended (hvec : vec ≠ []) (hnodes : nodes ≠ []) (n : ℕ) :
    (∃ st j, Going x t vec nodes o n st j) ∨
      ∃ m ≤ n, ∃ places, Ended x t vec nodes o m places := by
  induction n with
  | zero => exact Or.inl ⟨_, _, going_zero hvec hnodes⟩
  | succ n ih =>
    rcases ih with ⟨st, j, hgoing⟩ | ⟨m, hm, hended⟩
    · rcases going_succ hgoing with hgoing' | hended
      · exact Or.inl hgoing'
      · exact Or.inr ⟨n + 1, le_rfl, hended⟩
    · exact Or.inr ⟨m, Nat.le_succ_of_le hm, hended⟩

theorem Going.running {n j : ℕ} {st : EncodeState} (h : Going x t vec nodes o n st j) :
    encodeLoop x t vec nodes .init (tape o n) = .error .running := by
  have hrun := h.run []
  rw [List.append_nil] at hrun
  rw [hrun, encodeLoop, if_pos]
  rw [h.counts.i]
  exact h.more

theorem Ended.tape {m n : ℕ} {places : List (String × String)}
    (h : Ended x t vec nodes o m places) (hmn : m ≤ n) :
    encodeLoop x t vec nodes .init (SDK.tape o n) = .ok places := by
  obtain ⟨k, rfl⟩ := Nat.exists_eq_add_of_le hmn
  rw [tape_add]
  exact h.run _

/-- What ends the loop: all fragments get stored, or there is a round of failures while
`check` fails. -/
def Exits (t : StorageType) (fragments n : ℕ) (o : ℕ → Bool) : Prop :=
  (∃ m, fragments ≤ stored o m) ∨ ∃ j, FailedRound o n j ∧ t.check (stored o (j * n)) = false

theorem exits_of_ended {m : ℕ} {places : List (String × String)}
    (h : Ended x t vec nodes o m places) : Exits t vec.length nodes.length o := by
  rcases h.why with hall | ⟨j, _, hfailed, hcheck⟩
  · exact Or.inl ⟨m, hall.le⟩
  · exact Or.inr ⟨j, hfailed, hcheck⟩

/-- A round of failures while `check` fails is the last one. -/
theorem ended_of_failedRound (hvec : vec ≠ []) (hnodes : nodes ≠ []) {j : ℕ}
    (hfailed : FailedRound o nodes.length j)
    (hcheck : t.check (stored o (j * nodes.length)) = false) :
    ∃ m ≤ (j + 1) * nodes.length, ∃ places, Ended x t vec nodes o m places := by
  rcases going_or_ended (x := x) (t := t) (o := o) hvec hnodes ((j + 1) * nodes.length) with
    ⟨st, j', hgoing⟩ | hended
  · have hj : j < j' := by
      by_contra hle
      have hmul : j' * nodes.length ≤ j * nodes.length := Nat.mul_le_mul_right _ (by omega)
      have hindex := hgoing.index
      have hlt := hgoing.lt
      rw [Nat.succ_mul] at hindex
      omega
    rw [hgoing.passed j hj hfailed] at hcheck
    cases hcheck
  · exact hended

theorem exists_ended_of_exits (hvec : vec ≠ []) (hnodes : nodes ≠ [])
    (h : Exits t vec.length nodes.length o) : ∃ m places, Ended x t vec nodes o m places := by
  rcases h with ⟨m, hm⟩ | ⟨j, hfailed, hcheck⟩
  · rcases going_or_ended (x := x) (t := t) (o := o) hvec hnodes m with
      ⟨st, j, hgoing⟩ | ⟨m', _, places, hended⟩
    · exact absurd hm (Nat.not_le.mpr hgoing.more)
    · exact ⟨m', places, hended⟩
  · obtain ⟨m, _, places, hended⟩ := ended_of_failedRound (x := x) hvec hnodes hfailed hcheck
    exact ⟨m, places, hended⟩

/-- A loop that returns has ended. -/
theorem exists_ended_of_encodeLoop (hvec : vec ≠ []) (hnodes : nodes ≠ []) {n : ℕ}
    {places : List (String × String)}
    (h : encodeLoop x t vec nodes .init (tape o n) = .ok places) :
    ∃ m, Ended x t vec nodes o m places := by
  rcases going_or_ended (x := x) (t := t) (o := o) hvec hnodes n with
    ⟨st, j, hgoing⟩ | ⟨m, hm, places', hended⟩
  · rw [hgoing.running] at h
    cases h
  · rw [hended.tape hm] at h
    cases h
    exact ⟨m, hended⟩

/-- It ends only once. -/
theorem Ended.unique {m m' : ℕ} {places places' : List (String × String)}
    (h : Ended x t vec nodes o m places) (h' : Ended x t vec nodes o m' places') :
    places = places' := by
  have hrun := h.tape (le_max_left m m')
  rw [h'.tape (le_max_right m m')] at hrun
  exact (Except.ok.inj hrun).symm

/-- The loop ends after finitely many attempts, without a node outside of the list, if and
only if there is nothing to send, or there are datanodes and something ends it. -/
theorem encodeLoop_ends_iff (x : External) (t : StorageType) (vec : List Bytes)
    (nodes : List String) (o : ℕ → Bool) :
    (∃ n places, encodeLoop x t vec nodes .init (tape o n) = .ok places) ↔
      vec = [] ∨ (nodes ≠ [] ∧ Exits t vec.length nodes.length o) := by
  constructor
  · intro hends
    obtain ⟨n, places, hrun⟩ := hends
    by_cases hvec : vec = []
    · exact Or.inl hvec
    refine Or.inr ?_
    by_cases hnodes : nodes = []
    · have hfirst : ∃ fragment, vec[EncodeState.init.i]? = some fragment :=
        ⟨_, List.getElem?_eq_getElem (List.length_pos_iff.mpr hvec)⟩
      obtain ⟨fragment, hfragment⟩ := hfirst
      cases n with
      | zero =>
        rw [tape, List.range_zero, List.map_nil, encodeLoop,
          if_pos (show EncodeState.init.i < _ from List.length_pos_iff.mpr hvec)] at hrun
        cases hrun
      | succ n =>
        rw [tape, List.range_succ_eq_map, List.map_cons, encodeLoop, hfragment, hnodes] at hrun
        cases hrun
    · refine ⟨hnodes, ?_⟩
      obtain ⟨m, hended⟩ := exists_ended_of_encodeLoop hvec hnodes hrun
      exact exits_of_ended hended
  · rintro (rfl | ⟨hnodes, hexits⟩)
    · exact ⟨0, [], rfl⟩
    · by_cases hvec : vec = []
      · exact ⟨0, [], by rw [hvec]; rfl⟩
      · obtain ⟨m, places, hended⟩ := exists_ended_of_exits hvec hnodes hexits
        exact ⟨m, places, hended.tape le_rfl⟩

/-- One datanode for two replicas.  It takes the first one and then nothing more: `check` is
content with one replica, so that no round of failures ends the loop. -/
theorem encodeLoop_never_ends :
    ¬ ∀ (x : External) (t : StorageType) (vec : List Bytes) (nodes : List String) (o : ℕ → Bool),
      (∃ n, ∀ a, n ≤ a → o a = false) →
        ∃ n places, encodeLoop x t vec nodes .init (tape o n) = .ok places := by
  intro h
  have hfails : ∀ a, 1 ≤ a → decide (a = 0) = false := fun a ha => decide_eq_false (by omega)
  have hstored : ∀ n, stored (fun a => decide (a = 0)) (n + 1) = 1 := by
    intro n
    induction n with
    | zero => rfl
    | succ n ih => rw [stored_succ, ih, hfails (n + 1) (by omega)]; rfl
  obtain ⟨n, places, hrun⟩ := h smallExternal (.re 2 1) [smallBlock, smallBlock]
    ["192.168.88.112:10002"] (fun a => decide (a = 0)) ⟨1, hfails⟩
  obtain ⟨m, hended⟩ := exists_ended_of_encodeLoop (by simp) (by simp) hrun
  rcases exits_of_ended hended with ⟨m, hm⟩ | ⟨j, hfailed, hcheck⟩
  · cases m with
    | zero => exact absurd hm (by decide)
    | succ m =>
      rw [hstored] at hm
      exact absurd hm (by decide)
  · cases j with
    | zero => exact absurd (hfailed 0 (by decide)) (by decide)
    | succ j =>
      rw [List.length_singleton, Nat.mul_one, hstored] at hcheck
      exact absurd hcheck (by decide)

/-! ## The entry -/

/-- The entry lists enough places to read the block, and each of them has acknowledged its
fragment. -/
structure Durable (x : External) (t : StorageType) (frags : List Bytes) (nodes : List Node)
    (o : ℕ → Bool) (s : String) : Prop where
  enough : t.getDecodeBlocks ≤ (decodeOneSub s).length
  places : AllAcknowledged x frags (nodes.map Node.toText) o (decodeOneSub s)

/-- `encode_one` returns nothing but durable entries, and it returns or throws. -/
def DurableOrThrows (x : External) (t : StorageType) (block : Bytes) (frags : List Bytes)
    (nodes : List Node) (o : ℕ → Bool) : Prop :=
  (∀ n s, encodeOne x t block ⟨.ok nodes, tape o n⟩ = .ok s → Durable x t frags nodes o s) ∧
    ((∃ n s, encodeOne x t block ⟨.ok nodes, tape o n⟩ = .ok s) ∨
      ∃ n e, encodeOne x t block ⟨.ok nodes, tape o n⟩ = .error (.thrown e))

section Entry

variable {block : Bytes} {frags : List Bytes} {nodes : List Node} {outcomes : List Bool}

theorem encodeOne_of_encode (henc : t.encode x.code block = .ok frags) :
    encodeOne x t block ⟨.ok nodes, outcomes⟩ =
      encodeLoop x t frags (nodes.map Node.toText) .init outcomes >>= encodeOneSub := by
  rw [encodeOne, henc]
  rfl

/-- When the datanodes have addresses, an entry holds the places of the loop. -/
theorem encodeOne_eq_ok_iff (hx : x.Lawful) (henc : t.encode x.code block = .ok frags)
    (hends : ∀ node ∈ nodes, node.IsEndpoint) {s : String} :
    encodeOne x t block ⟨.ok nodes, outcomes⟩ = .ok s ↔
      ∃ places, encodeLoop x t frags (nodes.map Node.toText) .init outcomes = .ok places ∧
        places ≠ [] ∧ s = locationsText places ∧ decodeOneSub s = places := by
  rw [encodeOne_of_encode henc, bind_eq_ok]
  constructor
  · rintro ⟨places, hloop, hsub⟩
    have hloc := isLocation_of_encodeLoop hx hends hloop
    have hne : places ≠ [] := by
      rintro rfl
      cases hsub
    refine ⟨places, hloop, hne, ?_, decodeOneSub_of_encodeOneSub hloc hsub⟩
    rw [encodeOneSub_of_isLocation hne hloc] at hsub
    exact (Except.ok.inj hsub).symm
  · rintro ⟨places, hloop, hne, rfl, _⟩
    exact ⟨places, hloop, encodeOneSub_of_isLocation hne (isLocation_of_encodeLoop hx hends hloop)⟩

/-- Nothing in `encode_one` throws once the block is cut into fragments. -/
theorem encodeOne_ne_thrown (hx : x.Lawful) (henc : t.encode x.code block = .ok frags)
    (hfrags : frags ≠ []) (hnodes : nodes ≠ []) (hends : ∀ node ∈ nodes, node.IsEndpoint)
    (n : ℕ) (e : Exception) :
    encodeOne x t block ⟨.ok nodes, tape o n⟩ ≠ .error (.thrown e) := by
  rw [encodeOne_of_encode henc]
  have hmap : nodes.map Node.toText ≠ [] := by
    rw [ne_eq, List.map_eq_nil_iff]
    exact hnodes
  rcases going_or_ended (x := x) (t := t) (o := o) hfrags hmap n with
    ⟨st, j, hgoing⟩ | ⟨m, hm, places, hended⟩
  · rw [hgoing.running]
    exact fun h => by cases h
  · have hloop := hended.tape hm
    rw [hloop]
    by_cases hne : places = []
    · rw [hne]
      exact fun h => by cases h
    · have hsub := encodeOneSub_of_isLocation hne (isLocation_of_encodeLoop hx hends hloop)
      intro h
      have hok : encodeOneSub places = .error (.thrown e) := h
      rw [hsub] at hok
      cases hok

/-- A failed round with too few fragments ends the loop with them. -/
theorem getDecodeBlocks_le_of_failedRound {places : List (String × String)} {nodes : List String}
    (hfrags : frags ≠ []) (hnodes : nodes ≠ []) {m : ℕ}
    (hended : Ended x t frags nodes o m places) (henough : t.getDecodeBlocks ≤ places.length)
    {j : ℕ} (hfailed : FailedRound o nodes.length j) :
    t.getDecodeBlocks ≤ stored o (j * nodes.length) := by
  by_contra hshort
  have hcheck := StorageType.check_of_lt_getDecodeBlocks (Int.not_le.mp hshort)
  obtain ⟨m', hm', places', hended'⟩ := ended_of_failedRound (x := x) hfrags hnodes hfailed hcheck
  have hmono := stored_mono (o := o) hm'
  rw [stored_of_failedRound hfailed, ← hended'.length, ← hended.unique hended'] at hmono
  omega

/-- `encode_one` does what is asked of it if and only if before each round in which every
datanode refuses its fragment there are enough fragments to read the block, and something
ends the loop. -/
theorem encodeOne_durable_iff {text : String} (hx : x.Lawful)
    (htext : StorageType.fromString text = .ok t) (henc : t.encode x.code block = .ok frags)
    (hfrags : frags ≠ []) (hnodes : nodes ≠ []) (hends : ∀ node ∈ nodes, node.IsEndpoint) :
    DurableOrThrows x t block frags nodes o ↔
      (∀ j, FailedRound o nodes.length j → t.getDecodeBlocks ≤ stored o (j * nodes.length)) ∧
        Exits t frags.length nodes.length o := by
  have hlength : (nodes.map Node.toText).length = nodes.length := List.length_map _
  have hmap : nodes.map Node.toText ≠ [] := by
    rw [ne_eq, List.map_eq_nil_iff]
    exact hnodes
  constructor
  · rintro ⟨hdurable, ⟨n, s, hreturns⟩ | ⟨n, e, hthrows⟩⟩
    · obtain ⟨places, hloop, _, _, hdecode⟩ :=
        (encodeOne_eq_ok_iff hx henc hends).mp hreturns
      obtain ⟨m, hended⟩ := exists_ended_of_encodeLoop hfrags hmap hloop
      have henough := (hdurable n s hreturns).enough
      rw [hdecode] at henough
      refine ⟨fun j hfailed => ?_, hlength ▸ exits_of_ended hended⟩
      rw [← hlength] at hfailed ⊢
      exact getDecodeBlocks_le_of_failedRound hfrags hmap hended henough hfailed
    · exact absurd hthrows (encodeOne_ne_thrown hx henc hfrags hnodes hends n e)
  · rintro ⟨hrounds, hexits⟩
    obtain ⟨m, places, hended⟩ := exists_ended_of_exits (x := x) hfrags hmap (hlength ▸ hexits)
    have henough : t.getDecodeBlocks ≤ places.length := by
      rw [hended.length]
      rcases hended.why with hall | ⟨j, hm, hfailed, _⟩
      · rw [← hall]
        exact (StorageType.spans_of_fromString htext henc hfrags).getDecodeBlocks_le hx.code henc
      · rw [hm, stored_of_failedRound hfailed, hlength]
        exact hrounds j (hlength ▸ hfailed)
    have hne : places ≠ [] := by
      rintro rfl
      have hpos := StorageType.getDecodeBlocks_pos hx.code henc
      rw [List.length_nil] at henough
      omega
    have hplaces : ∀ n s, encodeOne x t block ⟨.ok nodes, tape o n⟩ = .ok s →
        decodeOneSub s = places := by
      intro n s hreturns
      obtain ⟨places', hloop, _, _, hdecode⟩ := (encodeOne_eq_ok_iff hx henc hends).mp hreturns
      obtain ⟨m', hended'⟩ := exists_ended_of_encodeLoop hfrags hmap hloop
      rw [hdecode, hended.unique hended']
    refine ⟨fun n s hreturns => ⟨?_, ?_⟩, Or.inl ⟨m, locationsText places, ?_⟩⟩
    · rw [hplaces n s hreturns]
      exact henough
    · rw [hplaces n s hreturns]
      exact hended.places
    · have hloop := hended.tape le_rfl
      have hsub := encodeOneSub_of_isLocation hne (isLocation_of_encodeLoop hx hends hloop)
      rw [encodeOne_of_encode henc]
      exact bind_eq_ok.mpr ⟨places, hloop, hsub⟩

end Entry

/-- Two datanodes, of which the first one fails at first. -/
theorem encodeOne_durable_small :
    DurableOrThrows smallExternal (.re 2 1) smallBlock [smallBlock, smallBlock]
      [⟨"192.168.88.112", 10002, .online⟩, ⟨"192.168.88.113", 10002, .online⟩]
      (fun a => decide (a ≠ 0)) := by
  have htext : StorageType.fromString "RE<2,1>" = .ok (.re 2 1) := by rfl
  have henc : StorageType.encode smallExternal.code smallBlock (.re 2 1) =
      .ok [smallBlock, smallBlock] := rfl
  refine (encodeOne_durable_iff smallExternal_lawful htext henc (by simp) (by simp)
    fun node hnode => ?_).mpr ⟨fun j hfailed => ?_, Or.inl ⟨3, ?_⟩⟩
  · simp only [List.mem_cons, List.not_mem_nil, or_false] at hnode
    rcases hnode with rfl | rfl
    · exact isEndpoint_small (Or.inl rfl)
    · exact isEndpoint_small (Or.inr rfl)
  · have hsecond := hfailed 1 (by simp)
    simp at hsecond
  · decide

/-- The only datanode refuses every replica.  The loop gives up without a place, and
`encode_one_sub` takes the last character off an empty text. -/
theorem encodeOne_not_durable :
    ¬ ∀ (x : External) (text : String) (t : StorageType) (block : Bytes) (frags : List Bytes)
        (nodes : List Node) (o : ℕ → Bool), x.Lawful → StorageType.fromString text = .ok t →
      t.encode x.code block = .ok frags → frags ≠ [] → nodes ≠ [] →
      (∀ node ∈ nodes, node.IsEndpoint) → DurableOrThrows x t block frags nodes o := by
  intro h
  have hend : ∀ node ∈ [(⟨"192.168.88.112", 10002, .online⟩ : Node)], node.IsEndpoint := by
    intro node hnode
    rw [List.mem_singleton.mp hnode]
    exact isEndpoint_small (Or.inl rfl)
  have hvec : [smallBlock, smallBlock] ≠ [] := by simp
  have hfailed : FailedRound (fun _ => false)
      ([(⟨"192.168.88.112", 10002, .online⟩ : Node)].map Node.toText).length 0 := fun _ _ => rfl
  obtain ⟨m, hm, places, hended⟩ := ended_of_failedRound (x := smallExternal) (t := .re 2 1) hvec
    (by simp) hfailed (by decide)
  have hzero : stored (fun _ => false) m = 0 := Nat.le_zero.mp (stored_mono hm)
  obtain ⟨_, ⟨n, s, hreturns⟩ | ⟨n, e, hthrows⟩⟩ := h smallExternal "RE<2,1>" (.re 2 1) smallBlock
    [smallBlock, smallBlock] [⟨"192.168.88.112", 10002, .online⟩] (fun _ => false)
    smallExternal_lawful rfl rfl (by simp) (by simp) hend
  · obtain ⟨places', hloop, hne, _, _⟩ := (encodeOne_eq_ok_iff smallExternal_lawful rfl hend).mp
      hreturns
    obtain ⟨m', hended'⟩ := exists_ended_of_encodeLoop (by simp) (by simp) hloop
    refine hne (List.length_eq_zero_iff.mp ?_)
    rw [← hended.unique hended', hended.length, hzero]
  · exact encodeOne_ne_thrown smallExternal_lawful rfl (by simp) (by simp) hend n e hthrows

end SDK

end Spkdfs
