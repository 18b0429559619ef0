import Spkdfs.Common.Exception
import Spkdfs.Lib.Delimited

/-!
# Nodes

`class Node` of `common/node.h`: the address of a server.  `operator==` compares
the ip only.

The text of a node is `ip:port`.  A `std::string` becomes a `Node` by a conversion
that reads this text (`Node.ofText`), and an address comes back unchanged from it
(`ofText_toText`).  `std::stoi` reads back every `int` that `std::to_string` writes
(`stoi_repr`).
-/

namespace Spkdfs

open Delimited

/-- `enum class NodeStatus`. -/
inductive NodeStatus
  | online
  | offline
  | unknown
  deriving DecidableEq

/-- `class Node`. -/
structure Node where
  ip : String
  port : Int
  nodeStatus : NodeStatus
  deriving DecidableEq

/-- What a scan meets: no channel to the node, no answer to `echo`, or an answer. -/
inductive Echo
  | noChannel
  | failed
  | answered
  deriving DecidableEq

/-- The digits that `std::stoi` reads, with the sign in front of them. -/
def signedDigits : List Char → Bool × List Char
  | '-' :: cs => (true, cs.takeWhile Char.isDigit)
  | '+' :: cs => (false, cs.takeWhile Char.isDigit)
  | cs => (false, cs.takeWhile Char.isDigit)

/-- `std::stoi`: white space, a sign, digits, and whatever follows. -/
def stoi (cs : List Char) : Except Exception Int :=
  let spaces := [' ', '\t', '\n', '\x0b', '\x0c', '\r']
  let (negative, ds) := signedDigits (cs.dropWhile fun c => spaces.contains c)
  let n : Int := Nat.ofDigitChars 10 ds 0
  let n := if negative then -n else n
  if ds = [] then .error (.runtime "stoi")
  else if -2147483648 ≤ n ∧ n ≤ 2147483647 then .ok n
  else .error (.runtime "stoi")

namespace Node

/-- `Node::operator==`. -/
def sameIp (a b : Node) : Bool := a.ip = b.ip

/-- `Node::INVALID_NODE`. -/
def invalidNode : Node := ⟨"0.0.0.0", 0, .unknown⟩

/-- `Node::valid`. -/
def valid (node : Node) : Bool := !node.sameIp invalidNode

/-- `Node::scan`. -/
def scan (echo : Echo) (node : Node) : Except Exception Node :=
  match echo with
  | .noChannel => .error (.runtime "channel init failed")
  | .failed => .ok { node with nodeStatus := .offline }
  | .answered => .ok { node with nodeStatus := .online }

/-- `to_string` of a node. -/
def toText (node : Node) : String := node.ip ++ ":" ++ node.port.repr

/-- `from_string`: a text without a port leaves the port as it is. -/
def fromText (nodeStr : String) (node : Node) : Except Exception Node :=
  let ip := String.ofList (field ':' nodeStr.toList)
  let portStr := field '\n' (behind ':' nodeStr.toList)
  if portStr = [] then .ok { node with ip := ip }
  else do
    let port ← stoi portStr
    return { node with ip := ip, port := port }

/-- `Node::Node` with one argument. -/
def ofText (ip : String) : Except Exception Node := fromText ip ⟨ip, 0, .unknown⟩

/-- The address of a datanode: an ip without any of the characters that texts of
addresses use as delimiters, and a port number. -/
structure IsEndpoint (node : Node) : Prop where
  ip : ∀ c ∈ [':', ',', '|'], c ∉ node.ip.toList
  port : 0 ≤ node.port ∧ node.port ≤ 65535

/-- An address whose text can be read back: an ip without delimiters, and any port that is an
`int` without a sign. -/
structure IsAddress (node : Node) : Prop where
  ip : ∀ c ∈ [':', ',', '|'], c ∉ node.ip.toList
  port : 0 ≤ node.port ∧ node.port ≤ 2147483647

theorem IsEndpoint.isAddress {node : Node} (h : node.IsEndpoint) : node.IsAddress := by
  have hport := h.port
  exact ⟨h.ip, by omega, by omega⟩

end Node

/-! ## Numbers -/

theorem signedDigits_of_isDigit {ds : List Char} (hds : ∀ c ∈ ds, c.isDigit = true) :
    signedDigits ds = (false, ds) := by
  have hall : ds.takeWhile Char.isDigit = ds := List.takeWhile_eq_self_iff.mpr hds
  unfold signedDigits
  split
  · exact absurd (hds '-' List.mem_cons_self) (by decide)
  · exact absurd (hds '+' List.mem_cons_self) (by decide)
  · rw [hall]

/-- No digit is white space. -/
theorem dropWhile_spaces_of_isDigit {ds : List Char} (hds : ∀ c ∈ ds, c.isDigit = true) :
    (ds.dropWhile fun c => [' ', '\t', '\n', '\x0b', '\x0c', '\r'].contains c) = ds := by
  cases ds with
  | nil => rfl
  | cons d ds =>
    have hd := hds d List.mem_cons_self
    rw [List.dropWhile_cons_of_neg]
    intro hmem
    simp only [List.contains_eq_mem, decide_eq_true_eq, List.mem_cons, List.not_mem_nil,
      or_false] at hmem
    rcases hmem with rfl | rfl | rfl | rfl | rfl | rfl <;> exact absurd hd (by decide)

/-- `std::stoi` on digits, which throws `std::out_of_range` above `INT_MAX`. -/
theorem stoi_eq_ok_iff_of_isDigit {ds : List Char} (hds : ∀ c ∈ ds, c.isDigit = true)
    (hne : ds ≠ []) {n : Int} :
    stoi ds = .ok n ↔ Nat.ofDigitChars 10 ds 0 ≤ 2147483647 ∧ n = Nat.ofDigitChars 10 ds 0 := by
  simp only [stoi, dropWhile_spaces_of_isDigit hds, signedDigits_of_isDigit hds, hne, if_false,
    Bool.false_eq_true]
  by_cases hle : Nat.ofDigitChars 10 ds 0 ≤ 2147483647
  · rw [if_pos (by omega)]
    simp only [Except.ok.injEq, hle, true_and]
    exact eq_comm
  · rw [if_neg (by omega)]
    simp [hle]

theorem stoi_of_isDigit {ds : List Char} (hds : ∀ c ∈ ds, c.isDigit = true) (hne : ds ≠ [])
    (hle : Nat.ofDigitChars 10 ds 0 ≤ 2147483647) :
    stoi ds = .ok (Nat.ofDigitChars 10 ds 0) :=
  (stoi_eq_ok_iff_of_isDigit hds hne).mpr ⟨hle, rfl⟩

/-- `std::stoi` on digits behind a sign. -/
theorem stoi_neg_of_isDigit {ds : List Char} (hds : ∀ c ∈ ds, c.isDigit = true) (hne : ds ≠ [])
    (hle : Nat.ofDigitChars 10 ds 0 ≤ 2147483648) :
    stoi ('-' :: ds) = .ok (-(Nat.ofDigitChars 10 ds 0 : Int)) := by
  have hall : ds.takeWhile Char.isDigit = ds := List.takeWhile_eq_self_iff.mpr hds
  have hspaces : (('-' :: ds).dropWhile fun c =>
      [' ', '\t', '\n', '\x0b', '\x0c', '\r'].contains c) = '-' :: ds :=
    List.dropWhile_cons_of_neg (by decide)
  simp only [stoi, hspaces, signedDigits, hall, hne, if_false, if_true]
  rw [if_pos (by omega)]

theorem isDigit_of_mem_repr {n : ℕ} {c : Char} (hc : c ∈ n.repr.toList) : c.isDigit = true := by
  rw [Nat.toList_repr] at hc
  exact Nat.isDigit_of_mem_toDigits (by decide) (by decide) hc

theorem toList_repr_ne_nil (n : ℕ) : n.repr.toList ≠ [] := by
  rw [Nat.toList_repr]
  exact Nat.toDigits_ne_nil

theorem ofDigitChars_repr (n : ℕ) : Nat.ofDigitChars 10 n.repr.toList 0 = n := by
  rw [Nat.toList_repr, Nat.ofDigitChars_ten_toDigits]

theorem toList_repr_negSucc (n : ℕ) :
    (Int.negSucc n).repr.toList = '-' :: (n + 1).repr.toList := by
  show ("-" ++ (n + 1).repr).toList = _
  rw [String.toList_append]
  rfl

/-- `std::stoi` reads back what `std::to_string` writes. -/
theorem stoi_repr {n : Int} (hlo : -2147483648 ≤ n) (hhi : n ≤ 2147483647) :
    stoi n.repr.toList = .ok n := by
  cases n with
  | ofNat n =>
    show stoi n.repr.toList = .ok (n : Int)
    have hn : (n : Int) ≤ 2147483647 := hhi
    rw [stoi_of_isDigit (fun c => isDigit_of_mem_repr) (toList_repr_ne_nil n)
      (by rw [ofDigitChars_repr]; omega), ofDigitChars_repr]
  | negSucc n =>
    rw [toList_repr_negSucc, stoi_neg_of_isDigit (fun c => isDigit_of_mem_repr)
      (toList_repr_ne_nil (n + 1)) (by rw [ofDigitChars_repr]; omega), ofDigitChars_repr]
    rfl

/-- A number is written with digits and a sign. -/
theorem isDigit_or_of_mem_repr {n : Int} {c : Char} (hc : c ∈ n.repr.toList) :
    c.isDigit = true ∨ c = '-' := by
  cases n with
  | ofNat n => exact Or.inl (isDigit_of_mem_repr hc)
  | negSucc n =>
    rw [toList_repr_negSucc, List.mem_cons] at hc
    exact hc.symm.imp isDigit_of_mem_repr id

theorem not_mem_repr {c : Char} (hc : c.isDigit = false) (hsign : c ≠ '-') (n : Int) :
    c ∉ n.repr.toList := by
  intro hmem
  rcases isDigit_or_of_mem_repr hmem with hdigit | hminus
  · rw [hc] at hdigit
    cases hdigit
  · exact hsign hminus

theorem toList_int_repr_ne_nil (n : Int) : n.repr.toList ≠ [] := by
  cases n with
  | ofNat n => exact toList_repr_ne_nil n
  | negSucc n =>
    rw [toList_repr_negSucc]
    exact List.cons_ne_nil _ _

/-! ## The text of a node -/

namespace Node

theorem toText_toList (node : Node) :
    node.toText.toList = node.ip.toList ++ ':' :: node.port.repr.toList := by
  rw [toText, String.toList_append, String.toList_append, List.append_assoc]
  rfl

/-- A text with a port sets both fields. -/
theorem fromText_of_port {ip text : String} {port : List Char} {n : Int}
    (htext : text.toList = ip.toList ++ ':' :: port) (hip : ':' ∉ ip.toList)
    (hnewline : '\n' ∉ port) (hne : port ≠ []) (hport : stoi port = .ok n) (node : Node) :
    fromText text node = .ok { node with ip := ip, port := n } := by
  rw [fromText, htext, field_append_cons hip, behind_append_cons hip, field_of_not_mem hnewline,
    if_neg hne, hport, String.ofList_toList]
  rfl

/-- A text without a port sets the ip. -/
theorem fromText_of_not_mem {ip : String} (hip : ':' ∉ ip.toList) (node : Node) :
    fromText ip node = .ok { node with ip := ip } := by
  have hbehind : behind ':' ip.toList = [] := by
    have hdrop := dropWhile_of_not_mem hip []
    rw [List.append_nil] at hdrop
    rw [behind, hdrop]
    rfl
  rw [fromText, field_of_not_mem hip, hbehind, String.ofList_toList]
  exact if_pos rfl

/-- The text of a node is read as that node. -/
theorem fromText_toText {node : Node} (hip : ':' ∉ node.ip.toList) (hlo : -2147483648 ≤ node.port)
    (hhi : node.port ≤ 2147483647) (base : Node) :
    fromText node.toText base = .ok { base with ip := node.ip, port := node.port } :=
  fromText_of_port node.toText_toList hip (not_mem_repr (by decide) (by decide) _)
    (toList_int_repr_ne_nil _) (stoi_repr hlo hhi) base

/-- The text of an address is read as that address. -/
theorem ofText_toText {node : Node} (h : node.IsAddress) :
    ofText node.toText = .ok ⟨node.ip, node.port, .unknown⟩ := by
  have hport := h.port
  exact fromText_toText (h.ip ':' (by simp)) (by omega) (by omega) _

/-- The delimiters of a list of locations do not occur in the text of an address. -/
theorem not_mem_toText {node : Node} (h : node.IsAddress) {c : Char} (hc : c ∈ [',', '|']) :
    c ∉ node.toText.toList := by
  have hplain : c ≠ ':' ∧ c.isDigit = false ∧ c ≠ '-' := by
    simp only [List.mem_cons, List.not_mem_nil, or_false] at hc
    rcases hc with rfl | rfl <;> decide
  rw [toText_toList, List.mem_append, List.mem_cons]
  rintro (hip | hcolon | hport)
  · exact h.ip c (List.mem_cons_of_mem _ hc) hip
  · exact hplain.1 hcolon
  · exact not_mem_repr hplain.2.1 hplain.2.2 _ hport

end Node

end Spkdfs
