import Mathlib.Algebra.Group.Nat.Defs
import Spkdfs.Common.Node
import Spkdfs.Common.StorageType

/-!
# Blocks and their fragments

A storage type cuts a block into fragments (`encode`), and gets the block back from
enough of them (`decode`).  An entry of `sub` is the list of the places of the
fragments of one block, written as `ip:port|sha256` with commas between them
(`encode_one_sub`, `decode_one_sub` of `common/inode.cpp`).

liberasurecode is outside of the repository.  `ErasureCode` has the two functions
that `RSStorageType` calls, and `ErasureCode.Lawful` is what the code relies on.
-/

namespace Spkdfs

open Delimited

/-- The content of a `std::string` that holds data. -/
abbrev Bytes := List UInt8

/-- `liberasurecode_encode` and `liberasurecode_decode` for an instance with the
given `k` and `m`.  A call that fails answers its error code. -/
structure ErasureCode where
  /-- The data fragments, and behind them the parity fragments. -/
  encode : Int → Int → Bytes → Except Int (List Bytes)
  decode : Int → Int → List Bytes → Except Int Bytes

/-- What the code relies on: a block has `k` data and `m` parity fragments, with a
positive `k`, and any `k` of them give the block back. -/
structure ErasureCode.Lawful (code : ErasureCode) : Prop where
  positive : ∀ {k m : Int} {d : Bytes} {frags : List Bytes}, code.encode k m d = .ok frags → 0 < k
  length : ∀ {k m : Int} {d : Bytes} {frags : List Bytes}, code.encode k m d = .ok frags →
    (frags.length : Int) = k + m
  decode : ∀ {k m : Int} {d : Bytes} {frags vec : List Bytes}, code.encode k m d = .ok frags →
    vec.Sublist frags → (vec.length : Int) = k → code.decode k m vec = .ok d

namespace StorageType

/-- The field `b`, in MB. -/
def b : StorageType → Int
  | .rs _ _ b => b
  | .re _ b => b

/-- `StorageType::get_block_size`.  The product of two `int`s wraps around. -/
def getBlockSize (t : StorageType) : Int := (t.b * 1024 * 1024).bmod (2 ^ 32)

/-- `getBlocks`.  The sum of two `int`s wraps around. -/
def getBlocks : StorageType → Int
  | .rs k m _ => (k + m).bmod (2 ^ 32)
  | .re replications _ => replications

/-- `getDecodeBlocks`. -/
def getDecodeBlocks : StorageType → Int
  | .rs k _ _ => k
  | .re _ _ => 1

/-- `check`. -/
def check (succCount : ℕ) : StorageType → Bool
  | .rs k _ _ => succCount > k
  | .re _ _ => succCount ≥ 1

/-- `encode`. -/
def encode (code : ErasureCode) (data : Bytes) : StorageType → Except Exception (List Bytes)
  | .rs k m _ =>
    match code.encode k m data with
    | .error ret => .error (.runtime ("encode error, error code: " ++ ret.repr))
    | .ok res => .ok res
  | .re replications _ => .ok (List.replicate replications.toNat data)

/-- `decode`, with its assertions on the number of fragments. -/
def decode (code : ErasureCode) (vec : List Bytes) : StorageType → Except Abrupt Bytes
  | .rs k m _ =>
    if k ≤ vec.length ∧ vec.length ≤ k + m then
      match code.decode k m (vec.take k.toNat) with
      | .error _ => .error (.thrown (.runtime "decode error"))
      | .ok data => .ok data
    else .error .undefined
  | .re _ _ =>
    match vec with
    | [] => .error .undefined
    | data :: _ => .ok data

/-- Only a storage type that needs a fragment can encode anything. -/
theorem getDecodeBlocks_pos {code : ErasureCode} (hcode : code.Lawful) {t : StorageType}
    {data : Bytes} {frags : List Bytes} (h : t.encode code data = .ok frags) :
    0 < t.getDecodeBlocks := by
  cases t with
  | rs k m b =>
    simp only [encode] at h
    split at h
    · cases h
    · rename_i res hres
      exact hcode.positive hres
  | re replications b => exact Int.one_pos

/-- The storage type makes at least as many fragments as it needs. -/
def Spans : StorageType → Prop
  | .rs _ m _ => 0 ≤ m
  | .re replications _ => 0 < replications

theorem Spans.getDecodeBlocks_le {code : ErasureCode} (hcode : code.Lawful) {t : StorageType}
    (ht : t.Spans) {data : Bytes} {frags : List Bytes} (h : t.encode code data = .ok frags) :
    t.getDecodeBlocks ≤ frags.length := by
  cases t with
  | rs k m b =>
    simp only [encode] at h
    split at h
    · cases h
    · rename_i res hres
      obtain rfl := Except.ok.inj h
      have hm : 0 ≤ m := ht
      have hlen := hcode.length hres
      show k ≤ res.length
      omega
  | re replications b =>
    have hpos : 0 < replications := ht
    rw [← Except.ok.inj h, List.length_replicate]
    show (1 : Int) ≤ replications.toNat
    omega

/-- The numbers in the name of a storage type have no sign. -/
theorem spans_of_fromString {code : ErasureCode} {text : String} {t : StorageType} {data : Bytes}
    {frags : List Bytes} (htext : fromString text = .ok t) (h : t.encode code data = .ok frags)
    (hfrags : frags ≠ []) : t.Spans := by
  rcases fromString_cases htext with
    ⟨_, _, _, k, m, b, hmatch, _, hm, _, rfl⟩ | ⟨_, _, replications, b, _, _, _, rfl⟩
  · obtain ⟨_, _, hgroup, _⟩ := matchRS_eq_some_iff.mp hmatch
    exact hgroup.stoi_nonneg hm
  · show 0 < replications
    by_contra hneg
    refine hfrags ?_
    rw [← Except.ok.inj h, Int.toNat_of_nonpos (by omega)]
    rfl

theorem check_of_le {t : StorageType} {n m : ℕ} (hle : n ≤ m) (h : t.check m = false) :
    t.check n = false := by
  cases t with
  | rs k m b =>
    rw [check, decide_eq_false_iff_not] at h ⊢
    omega
  | re replications b =>
    rw [check, decide_eq_false_iff_not] at h ⊢
    omega

/-- With less fragments than it takes to read the block, `check` fails. -/
theorem check_of_lt_getDecodeBlocks {t : StorageType} {n : ℕ} (h : n < t.getDecodeBlocks) :
    t.check n = false := by
  cases t with
  | rs k m b =>
    have hk : (n : Int) < k := h
    rw [check, decide_eq_false_iff_not]
    omega
  | re replications b =>
    have hone : (n : Int) < 1 := h
    rw [check, decide_eq_false_iff_not]
    omega

/-- As many fragments as `getDecodeBlocks` says give the block back. -/
theorem decode_of_sublist {code : ErasureCode} (hcode : code.Lawful) {t : StorageType}
    {data : Bytes} {frags vec : List Bytes} (h : t.encode code data = .ok frags)
    (hvec : vec.Sublist frags) (hlen : (vec.length : Int) = t.getDecodeBlocks) :
    t.decode code vec = .ok data := by
  cases t with
  | rs k m b =>
    simp only [encode] at h
    split at h
    · cases h
    · rename_i res hres
      obtain rfl := Except.ok.inj h
      have hk : (vec.length : Int) = k := hlen
      have hbound : vec.length ≤ res.length := hvec.length_le
      have hres' := hcode.length hres
      have htake : vec.take k.toNat = vec := List.take_of_length_le (by omega)
      simp only [decode]
      rw [if_pos ⟨by omega, by omega⟩, htake, hcode.decode hres hvec hk]
  | re replications b =>
    obtain rfl := Except.ok.inj h
    have hone : vec.length = 1 := by
      have : (vec.length : Int) = 1 := hlen
      omega
    obtain ⟨d, rfl⟩ := List.length_eq_one_iff.mp hone
    have hd : d ∈ List.replicate replications.toNat data := hvec.subset List.mem_cons_self
    rw [List.eq_of_mem_replicate hd]
    rfl

end StorageType

/-! ## The text of a list of locations -/

/-- `encode_one_sub`.  `to_string` of the first component is that of a `Node`, since
a `std::string` converts to one.  `pop_back` needs a text that is not empty. -/
def encodeOneSub (nodesHashs : List (String × String)) : Except Abrupt String := do
  let entries ← nodesHashs.mapM fun p => do
    let node ← rethrow (Node.ofText p.1)
    return (node.toText ++ "|" ++ p.2).toList
  if entries = [] then .error .undefined
  else return String.ofList (terminated ',' entries).dropLast

/-- `decode_one_sub`. -/
def decodeOneSub (oneSub : String) : List (String × String) :=
  (pieces ',' oneSub.toList).map fun str =>
    (String.ofList (field '|' str), String.ofList (field '|' (behind '|' str)))

/-- A location that the text can hold: the address of an endpoint, and a digest
without delimiters. -/
def IsLocation (p : String × String) : Prop :=
  (∃ node : Node, node.IsEndpoint ∧ p.1 = node.toText) ∧ ∀ c ∈ [',', '|'], c ∉ p.2.toList

/-- A location with any address, and a digest without delimiters. -/
def IsAddressed (p : String × String) : Prop :=
  (∃ node : Node, node.IsAddress ∧ p.1 = node.toText) ∧ ∀ c ∈ [',', '|'], c ∉ p.2.toList

theorem IsLocation.isAddressed {p : String × String} (h : IsLocation p) : IsAddressed p := by
  obtain ⟨⟨node, hnode, htext⟩, hhash⟩ := h
  exact ⟨⟨node, hnode.isAddress, htext⟩, hhash⟩

/-- The text of one location. -/
def locationText (p : String × String) : List Char := p.1.toList ++ '|' :: p.2.toList

theorem mapM_locationText {nodesHashs : List (String × String)}
    (h : ∀ p ∈ nodesHashs, IsAddressed p) :
    (nodesHashs.mapM fun p => do
      let node ← rethrow (Node.ofText p.1)
      return (node.toText ++ "|" ++ p.2).toList) =
        (.ok (nodesHashs.map locationText) : Except Abrupt (List (List Char))) := by
  induction nodesHashs with
  | nil => rfl
  | cons p ps ih =>
    obtain ⟨⟨node, hnode, htext⟩, _⟩ := h p List.mem_cons_self
    have hentry : (node.toText ++ "|" ++ p.2).toList = locationText p := by
      rw [locationText, htext, String.toList_append, String.toList_append, List.append_assoc]
      rfl
    have hread : rethrow (Node.ofText p.1) = .ok ⟨node.ip, node.port, .unknown⟩ := by
      rw [htext, Node.ofText_toText hnode]
      rfl
    rw [List.mapM_cons, ih fun q hq => h q (List.mem_cons_of_mem _ hq), hread, List.map_cons,
      ← hentry]
    rfl

theorem field_locationText {p : String × String} (h : IsAddressed p) :
    (String.ofList (field '|' (locationText p)),
      String.ofList (field '|' (behind '|' (locationText p)))) = p := by
  obtain ⟨⟨node, hnode, htext⟩, hhash⟩ := h
  have hbar : '|' ∉ p.1.toList := htext ▸ Node.not_mem_toText hnode (by simp)
  rw [locationText, field_append_cons hbar, behind_append_cons hbar,
    field_of_not_mem (hhash '|' (by simp)), String.ofList_toList, String.ofList_toList]

theorem locationText_piece {p : String × String} (h : IsAddressed p) :
    ',' ∉ locationText p ∧ locationText p ≠ [] := by
  obtain ⟨⟨node, hnode, htext⟩, hhash⟩ := h
  refine ⟨?_, by simp [locationText]⟩
  rw [locationText, htext, List.mem_append, List.mem_cons]
  rintro (hmem | hmem | hmem)
  · exact Node.not_mem_toText hnode (by simp) hmem
  · exact absurd hmem (by decide)
  · exact hhash ',' (by simp) hmem

/-- The text of a list of locations. -/
def locationsText : List (String × String) → String
  | [] => ""
  | [p] => p.1 ++ "|" ++ p.2
  | p :: ps => p.1 ++ "|" ++ p.2 ++ "," ++ locationsText ps

theorem toList_locationsText (ps : List (String × String)) :
    (locationsText ps).toList = (terminated ',' (ps.map locationText)).dropLast := by
  have hone : ∀ p : String × String, (p.1 ++ "|" ++ p.2).toList = locationText p := by
    intro p
    rw [String.toList_append, String.toList_append, List.append_assoc]
    rfl
  fun_induction locationsText ps with
  | case1 => rfl
  | case2 p =>
    rw [hone, List.map_singleton, terminated_cons]
    exact List.dropLast_concat.symm
  | case3 p ps hne ih =>
    have hps : ps.map locationText ≠ [] := by
      rw [ne_eq, List.map_eq_nil_iff]
      exact hne
    rw [String.toList_append, String.toList_append, hone, ih, List.map_cons, terminated_cons,
      List.dropLast_append_of_ne_nil (by simp),
      List.dropLast_cons_of_ne_nil (terminated_ne_nil hps), List.append_assoc]
    rfl

/-- What `encode_one_sub` writes. -/
theorem encodeOneSub_of_isAddressed {nodesHashs : List (String × String)} (hne : nodesHashs ≠ [])
    (haddr : ∀ p ∈ nodesHashs, IsAddressed p) :
    encodeOneSub nodesHashs = .ok (locationsText nodesHashs) := by
  have hmap : nodesHashs.map locationText ≠ [] := by
    rw [ne_eq, List.map_eq_nil_iff]
    exact hne
  rw [encodeOneSub, mapM_locationText haddr]
  simp only [bind, Except.bind]
  rw [if_neg hmap, ← toList_locationsText, String.ofList_toList]
  rfl

/-- The text of a list of entries is read as that list. -/
theorem decodeOneSub_locationsText {nodesHashs : List (String × String)}
    (haddr : ∀ p ∈ nodesHashs, IsAddressed p) :
    decodeOneSub (locationsText nodesHashs) = nodesHashs := by
  have hpieces : ∀ p ∈ nodesHashs.map locationText, ',' ∉ p ∧ p ≠ [] := by
    intro t ht
    obtain ⟨p, hp, rfl⟩ := List.mem_map.mp ht
    exact locationText_piece (haddr p hp)
  rw [decodeOneSub, toList_locationsText, pieces_dropLast_terminated hpieces, List.map_map]
  conv_rhs => rw [← List.map_id nodesHashs]
  exact List.map_congr_left fun p hp => field_locationText (haddr p hp)

theorem encodeOneSub_of_isLocation {nodesHashs : List (String × String)} (hne : nodesHashs ≠ [])
    (hloc : ∀ p ∈ nodesHashs, IsLocation p) :
    encodeOneSub nodesHashs = .ok (locationsText nodesHashs) :=
  encodeOneSub_of_isAddressed hne fun p hp => (hloc p hp).isAddressed

/-- What `encode_one_sub` writes, `decode_one_sub` reads. -/
theorem decodeOneSub_of_encodeOneSub {nodesHashs : List (String × String)} {s : String}
    (hloc : ∀ p ∈ nodesHashs, IsLocation p) (h : encodeOneSub nodesHashs = .ok s) :
    decodeOneSub s = nodesHashs := by
  have hne : nodesHashs ≠ [] := by
    rintro rfl
    cases h
  rw [encodeOneSub_of_isLocation hne hloc] at h
  rw [← Except.ok.inj h]
  exact decodeOneSub_locationsText fun p hp => (hloc p hp).isAddressed

/-- A list of entries comes back from its text, in the same order, and no other list of entries
has this text. -/
theorem oneSub_roundtrip {nodesHashs : List (String × String)} (hne : nodesHashs ≠ [])
    (haddr : ∀ p ∈ nodesHashs, IsAddressed p) :
    (∃ s, encodeOneSub nodesHashs = .ok s ∧ decodeOneSub s = nodesHashs) ∧
      ∀ others : List (String × String), others ≠ [] → (∀ p ∈ others, IsAddressed p) →
        encodeOneSub others = encodeOneSub nodesHashs → others = nodesHashs := by
  refine ⟨⟨_, encodeOneSub_of_isAddressed hne haddr, decodeOneSub_locationsText haddr⟩, ?_⟩
  intro others hne' haddr' hsame
  rw [encodeOneSub_of_isAddressed hne haddr, encodeOneSub_of_isAddressed hne' haddr'] at hsame
  have htext : locationsText others = locationsText nodesHashs := Except.ok.inj hsame
  rw [← decodeOneSub_locationsText haddr', htext, decodeOneSub_locationsText haddr]

/-- Two places of one block.  The port of the second one is the greatest `int`. -/
theorem oneSub_roundtrip_twoPlaces :
    let places := [("192.168.88.112:10002", "AB"), ("h:2147483647", "AB")]
    (places ≠ [] ∧ ∀ p ∈ places, IsAddressed p) ∧
      decodeOneSub "192.168.88.112:10002|AB,h:2147483647|AB" = places := by
  have haddr : ∀ p ∈ [("192.168.88.112:10002", "AB"), ("h:2147483647", "AB")], IsAddressed p := by
    simp only [List.mem_cons, List.not_mem_nil, or_false]
    rintro p (rfl | rfl)
    · exact ⟨⟨⟨"192.168.88.112", 10002, .unknown⟩,
        ⟨forall_not_mem_of_all (by decide), by decide⟩, by decide⟩,
        forall_not_mem_of_all (by decide)⟩
    · exact ⟨⟨⟨"h", 2147483647, .unknown⟩, ⟨forall_not_mem_of_all (by decide), by decide⟩,
        by decide⟩, forall_not_mem_of_all (by decide)⟩
  refine ⟨⟨by decide, haddr⟩, ?_⟩
  obtain ⟨s, hs, hread⟩ := (oneSub_roundtrip (by decide) haddr).1
  have htext : s = "192.168.88.112:10002|AB,h:2147483647|AB" := by
    rw [encodeOneSub_of_isAddressed (by decide) haddr] at hs
    exact (Except.ok.inj hs).symm
  rw [← htext]
  exact hread

end Spkdfs
