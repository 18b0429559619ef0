import Spkdfs.Client.Roundtrip

/-!
# The slots of `decode_one`

`decode_one` has a vector `datas` of `getDecodeBlocks()` empty texts and an index `succ`, and
it writes `datas[succ++] = get_from_datanode(node, blkid)`.  The right side is evaluated
first, so that a call that throws leaves both as they are.

`decodeLoop` keeps only the list of the data so far, and its datanodes answer the same all the
time.  Here the vector and the index are as in the source (`decodeStep`), and each call of
`get_from_datanode` has an outcome of its own (`fetchResults`): a place that is listed twice can
fail first and answer then.  `decodeOneSlots_eq` says that both come to the same if the datanodes
do not change.
-/

namespace Spkdfs

namespace SDK

/-- The variables of the loop of `decode_one`. -/
structure DecodeState where
  succ : ℕ
  datas : List Bytes

/-- The end of a round that has got a text.  An error is the way out of the function, and an
exception of `decode` is caught. -/
def decodeFull (x : External) (t : StorageType) (st : DecodeState) :
    Except (Except Abrupt Bytes) DecodeState :=
  if st.succ = t.getDecodeBlocks then
    match t.decode x.code st.datas with
    | .error (.thrown _) => .ok st
    | res => .error res
  else .ok st

/-- What the call of `get_from_datanode` gives for each place.  `nets i` is what the datanodes
answer at the call for place `i`. -/
def fetchResults (x : External) (nets : ℕ → Net) (ps : List (String × String)) :
    List (Except Exception Bytes) :=
  ps.mapIdx fun i p => getFromDatanode x (nets i) p.1 p.2

/-- One round of the loop.  A write behind the end of `datas` is undefined. -/
def decodeStep (x : External) (t : StorageType) (st : DecodeState) :
    Except Exception Bytes → Except (Except Abrupt Bytes) DecodeState
  | .error _ => .ok st
  | .ok data =>
    if st.succ < st.datas.length then decodeFull x t ⟨st.succ + 1, st.datas.set st.succ data⟩
    else .error (.error .undefined)

/-- The loop of `decode_one`. -/
def decodeSteps (x : External) (t : StorageType) (fs : List (Except Exception Bytes))
    (st : DecodeState) : Except (Except Abrupt Bytes) DecodeState :=
  fs.foldlM (decodeStep x t) st

/-- The variables before the loop, with `n` slots. -/
def DecodeState.init (n : ℕ) : DecodeState := ⟨0, List.replicate n []⟩

/-- What the function returns when the loop is over. -/
def decodeReturn : Except (Except Abrupt Bytes) DecodeState → Except Abrupt Bytes
  | .ok _ => .ok []
  | .error res => res

/-- `SDK::decode_one`. -/
def decodeOneSlots (x : External) (nets : ℕ → Net) (t : StorageType) (s : String) :
    Except Abrupt Bytes :=
  if t.getDecodeBlocks < 0 then .error (.thrown (.runtime "vector::_M_default_append"))
  else decodeReturn (decodeSteps x t (fetchResults x nets (decodeOneSub s))
    (.init t.getDecodeBlocks.toNat))

/-- The data of the calls that give data with the listed digest, in the listed order. -/
def goodDatas (fs : List (Except Exception Bytes)) : List Bytes := fs.filterMap Except.toOption

variable {x : External} {nets : ℕ → Net} {t : StorageType}

@[simp] theorem goodDatas_nil : goodDatas [] = [] := rfl

@[simp] theorem goodDatas_error (e : Exception) (fs : List (Except Exception Bytes)) :
    goodDatas (.error e :: fs) = goodDatas fs := rfl

@[simp] theorem goodDatas_ok (data : Bytes) (fs : List (Except Exception Bytes)) :
    goodDatas (.ok data :: fs) = data :: goodDatas fs := rfl

theorem fetchResults_const (x : External) (net : Net) (ps : List (String × String)) :
    fetchResults x (fun _ => net) ps = ps.map fun p => getFromDatanode x net p.1 p.2 := by
  rw [fetchResults]
  induction ps with
  | nil => rfl
  | cons p ps ih => rw [List.mapIdx_cons, List.map_cons, ih]

/-- The slots when the texts `got` are in the first of them. -/
def DecodeState.holding (n : ℕ) (got : List Bytes) : DecodeState :=
  ⟨got.length, got ++ List.replicate (n - got.length) []⟩

theorem DecodeState.length_holding {n : ℕ} {got : List Bytes} (h : got.length ≤ n) :
    (DecodeState.holding n got).datas.length = n := by
  simp only [holding, List.length_append, List.length_replicate]
  omega

/-- A write puts the text behind those that are there. -/
theorem DecodeState.holding_set {n : ℕ} {got : List Bytes} (h : got.length < n) (data : Bytes) :
    (⟨(holding n got).succ + 1, (holding n got).datas.set (holding n got).succ data⟩ :
      DecodeState) = holding n (got ++ [data]) := by
  have hrest : n - got.length = n - (got.length + 1) + 1 := by omega
  have hset : (got ++ List.replicate (n - got.length) []).set got.length data =
      got ++ [data] ++ List.replicate (n - (got.length + 1)) [] := by
    rw [List.set_append_right _ _ le_rfl, Nat.sub_self, hrest, List.replicate_succ,
      List.set_cons_zero, List.append_assoc]
    rfl
  simp only [holding, hset, List.length_append, List.length_singleton]

/-! ## One round -/

variable {n : ℕ} {got : List Bytes}

@[simp] theorem decodeStep_error (e : Exception) (st : DecodeState) :
    decodeStep x t st (.error e) = .ok st := rfl

/-- A slot is left, and the text goes there. -/
theorem decodeStep_of_lt (hlt : got.length < n) (data : Bytes) :
    decodeStep x t (.holding n got) (.ok data) = decodeFull x t (.holding n (got ++ [data])) := by
  have hin : (DecodeState.holding n got).succ < (DecodeState.holding n got).datas.length := by
    rw [DecodeState.length_holding hlt.le]
    exact hlt
  rw [decodeStep, if_pos hin, DecodeState.holding_set hlt]

theorem decodeStep_of_full (hfull : got.length = n) (data : Bytes) :
    decodeStep x t (.holding n got) (.ok data) = .error (.error .undefined) := by
  have hout : ¬ (DecodeState.holding n got).succ < (DecodeState.holding n got).datas.length := by
    rw [DecodeState.length_holding hfull.le]
    exact hfull.not_lt
  exact if_neg hout

theorem decodeFull_of_lt (hn : t.getDecodeBlocks = n) (hlt : got.length < n) :
    decodeFull x t (.holding n got) = .ok (.holding n got) := by
  refine if_neg fun h => ?_
  have hsucc : (got.length : Int) = t.getDecodeBlocks := h
  omega

/-- Every slot has its text when `decode` is called. -/
theorem decodeFull_of_eq (hn : t.getDecodeBlocks = n) (hfull : got.length = n)
    (hthrow : ∀ e, t.decode x.code got ≠ .error (.thrown e)) :
    decodeFull x t (.holding n got) = .error (t.decode x.code got) := by
  have hdatas : (DecodeState.holding n got).datas = got := by
    simp [DecodeState.holding, hfull]
  have hsucc : ((DecodeState.holding n got).succ : Int) = t.getDecodeBlocks := by
    rw [hn, ← hfull]
    rfl
  rw [decodeFull, if_pos hsucc, hdatas]
  split
  · rename_i e he
    exact absurd he (hthrow e)
  · rfl

/-! ## The whole loop -/

variable {fs : List (Except Exception Bytes)}

theorem DecodeState.init_eq (n : ℕ) : DecodeState.init n = holding n [] := rfl

/-- As long as a slot is left, the slots hold the texts of the calls so far. -/
theorem decodeSteps_of_lt (hn : t.getDecodeBlocks = n)
    (hlt : got.length + (goodDatas fs).length < n) :
    decodeSteps x t fs (.holding n got) = .ok (.holding n (got ++ goodDatas fs)) := by
  induction fs generalizing got with
  | nil =>
    rw [goodDatas_nil, List.append_nil]
    rfl
  | cons f fs ih =>
    rw [decodeSteps, List.foldlM_cons]
    cases f with
    | error e =>
      rw [goodDatas_error] at hlt ⊢
      exact ih hlt
    | ok data =>
      rw [goodDatas_ok, List.length_cons] at hlt
      have hone : (got ++ [data]).length < n := by
        rw [List.length_append, List.length_singleton]
        omega
      rw [goodDatas_ok, List.append_cons, decodeStep_of_lt (by omega), decodeFull_of_lt hn hone]
      refine ih ?_
      rw [List.length_append, List.length_singleton]
      omega

/-- With the text for the last slot the function returns what `decode` makes of them. -/
theorem decodeSteps_of_le (hn : t.getDecodeBlocks = n) (hgot : got.length < n)
    (hle : n ≤ (got ++ goodDatas fs).length)
    (hthrow : ∀ e, t.decode x.code ((got ++ goodDatas fs).take n) ≠ .error (.thrown e)) :
    decodeSteps x t fs (.holding n got) =
      .error (t.decode x.code ((got ++ goodDatas fs).take n)) := by
  induction fs generalizing got with
  | nil =>
    rw [goodDatas_nil, List.append_nil] at hle
    omega
  | cons f fs ih =>
    rw [decodeSteps, List.foldlM_cons]
    cases f with
    | error e =>
      rw [goodDatas_error] at hle hthrow ⊢
      exact ih hgot hle hthrow
    | ok data =>
      rw [goodDatas_ok, List.append_cons] at hle hthrow ⊢
      rw [decodeStep_of_lt hgot]
      have hone : (got ++ [data]).length = got.length + 1 := by simp
      rcases Nat.lt_or_eq_of_le (Nat.succ_le_of_lt hgot) with hlt | hlast
      · rw [decodeFull_of_lt hn (by omega)]
        exact ih (by omega) hle hthrow
      · have htake : (got ++ [data] ++ goodDatas fs).take n = got ++ [data] :=
          List.take_left' (by omega)
        rw [htake] at hthrow ⊢
        rw [decodeFull_of_eq hn (by omega) hthrow]
        rfl

/-- The slots and the list of the data so far come to the same. -/
theorem decodeReturn_decodeSteps (hn : t.getDecodeBlocks = n) (net : Net)
    (ps : List (String × String)) (hgot : got.length ≤ n) :
    decodeReturn (decodeSteps x t (ps.map fun p => getFromDatanode x net p.1 p.2)
      (.holding n got)) = decodeLoop x net t ps got := by
  induction ps generalizing got with
  | nil => rfl
  | cons p ps ih =>
    rw [List.map_cons, decodeSteps, List.foldlM_cons, decodeLoop]
    cases getFromDatanode x net p.1 p.2 with
    | error e => exact ih hgot
    | ok data =>
      have hone : (got ++ [data]).length = got.length + 1 := by simp
      rcases Nat.lt_or_eq_of_le hgot with hlt | hfull
      · rw [decodeStep_of_lt hlt]
        simp only
        rw [if_neg (by omega)]
        by_cases hlast : (got.length : Int) + 1 = t.getDecodeBlocks
        · have hdatas : (DecodeState.holding n (got ++ [data])).datas = got ++ [data] := by
            have hzero : n - (got ++ [data]).length = 0 := by omega
            rw [DecodeState.holding, hzero, List.replicate_zero, List.append_nil]
          have hsucc : ((DecodeState.holding n (got ++ [data])).succ : Int) =
              t.getDecodeBlocks := by
            rw [← hlast, DecodeState.holding, hone]
            push_cast
            rfl
          rw [if_pos hlast, decodeFull, if_pos hsucc, hdatas]
          cases t.decode x.code (got ++ [data]) with
          | ok block => rfl
          | error e =>
            cases e with
            | thrown e => exact ih (by omega)
            | undefined => rfl
            | running => rfl
        · rw [if_neg hlast, decodeFull_of_lt hn (by omega)]
          exact ih (by omega)
      · rw [decodeStep_of_full hfull]
        simp only
        rw [if_pos (by omega)]
        rfl

/-- The two models of `decode_one` are the same function of datanodes that do not change. -/
theorem decodeOneSlots_eq (x : External) (net : Net) (t : StorageType) (s : String) :
    decodeOneSlots x (fun _ => net) t s = decodeOne x net t s := by
  rw [decodeOneSlots, decodeOne, fetchResults_const]
  split
  · rfl
  · rename_i hneg
    have hn : t.getDecodeBlocks = (t.getDecodeBlocks.toNat : Int) := by omega
    rw [DecodeState.init_eq]
    exact decodeReturn_decodeSteps hn net _ (Nat.zero_le _)

theorem decodeSteps_init_of_le (hn : t.getDecodeBlocks = n) (hpos : 0 < n)
    (hle : n ≤ (goodDatas fs).length)
    (hthrow : ∀ e, t.decode x.code ((goodDatas fs).take n) ≠ .error (.thrown e)) :
    decodeSteps x t fs (.init n) = .error (t.decode x.code ((goodDatas fs).take n)) := by
  rw [DecodeState.init_eq]
  exact decodeSteps_of_le hn hpos hle hthrow

/-- The loop writes inside of the slots only, as long as `decode` does not throw. -/
theorem lt_length_of_decodeSteps (hn : t.getDecodeBlocks = n) (hpos : 0 < n)
    {pre post : List (Except Exception Bytes)} {st : DecodeState} (hfs : fs = pre ++ post)
    (hthrow : ∀ e, t.decode x.code ((goodDatas fs).take n) ≠ .error (.thrown e))
    (hrun : decodeSteps x t pre (.init n) = .ok st) : st.succ < n ∧ st.datas.length = n := by
  rcases Nat.lt_or_ge (goodDatas pre).length n with hlt | hge
  · rw [DecodeState.init_eq, decodeSteps_of_lt hn (by simpa using hlt)] at hrun
    rw [← Except.ok.inj hrun, List.nil_append]
    exact ⟨hlt, DecodeState.length_holding hlt.le⟩
  · have htake : (goodDatas fs).take n = (goodDatas pre).take n := by
      rw [hfs, goodDatas, List.filterMap_append]
      exact List.take_append_of_le_length hge
    rw [htake] at hthrow
    rw [decodeSteps_init_of_le hn hpos hge hthrow] at hrun
    cases hrun

/-- `decode_one` returns what `decode` makes of the data of the first good calls, and all
of its writes are inside of the slots. -/
theorem decodeOneSlots_of_le (nets : ℕ → Net) (s : String) (hn : t.getDecodeBlocks = n)
    (hpos : 1 ≤ n) (hle : n ≤ (goodDatas (fetchResults x nets (decodeOneSub s))).length)
    (hthrow : ∀ e, t.decode x.code ((goodDatas (fetchResults x nets (decodeOneSub s))).take n) ≠
      .error (.thrown e)) :
    decodeOneSlots x nets t s =
        t.decode x.code ((goodDatas (fetchResults x nets (decodeOneSub s))).take n) ∧
      ∀ pre f post st, fetchResults x nets (decodeOneSub s) = pre ++ f :: post →
        decodeSteps x t pre (.init n) = .ok st → st.succ < n ∧ st.datas.length = n := by
  refine ⟨?_, fun pre f post st hfs hrun => ?_⟩
  · rw [decodeOneSlots, if_neg (by omega), hn, Int.toNat_natCast,
      decodeSteps_init_of_le hn hpos hle hthrow]
    rfl
  · exact lt_length_of_decodeSteps hn hpos hfs hthrow hrun

/-- A code of two bytes and their parity.  Each fragment has its index in front. -/
def parityExternal : External where
  sha256 := fun data =>
    if data = [0, 7] then "2ECD8A6B7D2845546659AD4CF443533CF921B19DC81FA83934E83821B4DFDCB7"
    else if data = [1, 8] then "9E6282E4F25E370CE617E21D6FE265E88B9E7B8682CF00059B9D128D9381F09D"
    else if data = [2, 15] then "58691FAE609BC279E385057CDE8BC1AC8D035264BC8E0F2BC9469B8548BC1E5D"
    else ""
  code :=
    ⟨fun k m data => match k, m, data with
      | 2, 1, [a, b] => .ok [[0, a], [1, b], [2, a ^^^ b]]
      | _, _, _ => .error (-1),
    fun k m vec => match k, m, vec with
      | 2, 1, [[0, a], [1, b]] => .ok [a, b]
      | 2, 1, [[0, a], [2, p]] => .ok [a, a ^^^ p]
      | 2, 1, [[1, b], [2, p]] => .ok [p ^^^ b, b]
      | _, _, _ => .error (-1)⟩

/-- The fragments of `[7, 8]` on two datanodes. -/
def parityPlaces : List (String × String) :=
  [("192.168.88.112:10002", parityExternal.sha256 [0, 7]),
    ("192.168.88.113:10002", parityExternal.sha256 [1, 8]),
    ("192.168.88.112:10002", parityExternal.sha256 [2, 15])]

def parityEntry : String := locationsText parityPlaces

theorem decodeOneSub_parityEntry : decodeOneSub parityEntry = parityPlaces := by
  refine decodeOneSub_locationsText fun p hp => ?_
  simp only [parityPlaces, List.mem_cons, List.not_mem_nil, or_false] at hp
  rcases hp with rfl | rfl | rfl
  · exact ⟨⟨_, (isEndpoint_small (Or.inl rfl)).isAddress, by decide⟩,
      Delimited.forall_not_mem_of_all (by decide)⟩
  · exact ⟨⟨_, (isEndpoint_small (Or.inr rfl)).isAddress, by decide⟩,
      Delimited.forall_not_mem_of_all (by decide)⟩
  · exact ⟨⟨_, (isEndpoint_small (Or.inl rfl)).isAddress, by decide⟩,
      Delimited.forall_not_mem_of_all (by decide)⟩

/-- The second of the calls fails, the one for the fragment in the middle. -/
def parityNets : ℕ → Net := fun i _ blkid =>
  if i = 1 then none else [[0, 7], [2, 15]].find? fun f => parityExternal.sha256 f = blkid

theorem decodeOneSlots_parity :
    decodeOneSlots parityExternal parityNets (.rs 2 1 16) parityEntry = .ok [7, 8] := by
  have hresults : fetchResults parityExternal parityNets (decodeOneSub parityEntry) =
      [.ok [0, 7], .error (.runtime "brpc not success"), .ok [2, 15]] := by
    rw [decodeOneSub_parityEntry]
    simp [fetchResults, parityPlaces, getFromDatanode, parityNets, parityExternal]
  have hgood : goodDatas (fetchResults parityExternal parityNets (decodeOneSub parityEntry)) =
      [[0, 7], [2, 15]] := by
    rw [hresults]
    rfl
  have hdecode : StorageType.decode parityExternal.code [[0, 7], [2, 15]] (.rs 2 1 16) =
      .ok [7, 8] := rfl
  have hone := decodeOneSlots_of_le (x := parityExternal) (t := .rs 2 1 16) (n := 2) parityNets
    parityEntry rfl (by decide) (by rw [hgood]; decide) (by rw [hgood]; exact fun e h => by cases h)
  rw [hone.1, hgood]
  exact hdecode

end SDK

end Spkdfs
