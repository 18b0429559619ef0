import Mathlib.Algebra.Group.Int.Defs
import Mathlib.Data.List.Sort
import Mathlib.Data.String.Basic

/-!
# JSON texts

JSON values whose numbers are integers, the compact text of a value (`dump`), and a parser for
such texts (`parse`).  The members of an object are sorted by their keys, as in a `std::map`.

The parser reads no white space, no fraction and no escaped surrogate pair.  What `dump` writes it
reads back (`parse_dump`).  The proof is about a value with any text behind it that does not
start with a digit, since a number ends only where its digits end.
-/

namespace Json

/-- A JSON value. -/
inductive Value
  | null
  | bool (b : Bool)
  | number (n : Int)
  | string (s : String)
  | array (items : List Value)
  | object (members : List (String × Value))

namespace Value

/-- The value is one that a library with 64-bit numbers and sorted objects can hold. -/
inductive Valid : Value → Prop
  | null : Valid .null
  | bool (b : Bool) : Valid (.bool b)
  | number {n : Int} (hlow : -2 ^ 63 ≤ n) (hhigh : n < 2 ^ 64) : Valid (.number n)
  | string (s : String) : Valid (.string s)
  | array {items : List Value} (hitems : ∀ v ∈ items, Valid v) : Valid (.array items)
  | object {members : List (String × Value)} (hsorted : (members.map Prod.fst).Pairwise (· < ·))
      (hmembers : ∀ p ∈ members, Valid p.2) : Valid (.object members)

/-- An object with these members.  No two of them have the same key. -/
def ofMembers (members : List (String × Value)) : Value :=
  .object (members.insertionSort fun p q => p.1 ≤ q.1)

/-- The member of an object. -/
def find (k : String) : Value → Option Value
  | .object members => members.lookup k
  | _ => none

section Members

variable {members : List (String × Value)} {k : String}

theorem lookup_of_mem {v : Value} (hkeys : (members.map Prod.fst).Nodup) (h : (k, v) ∈ members) :
    members.lookup k = some v := by
  induction members with
  | nil => cases h
  | cons p members ih =>
    rw [List.map_cons, List.nodup_cons] at hkeys
    rcases List.mem_cons.mp h with rfl | hmem
    · rw [List.lookup_cons_self]
    · have hne : (k == p.1) = false := by
        rw [beq_eq_false_iff_ne]
        rintro rfl
        exact hkeys.1 (List.mem_map.mpr ⟨_, hmem, rfl⟩)
      rw [List.lookup_cons, hne]
      exact ih hkeys.2 hmem

theorem perm_ofMembers :
    (members.insertionSort fun p q => p.1 ≤ q.1).Perm members :=
  List.perm_insertionSort _ _

theorem find_ofMembers {v : Value} (hkeys : (members.map Prod.fst).Nodup)
    (h : (k, v) ∈ members) : (ofMembers members).find k = some v :=
  lookup_of_mem ((perm_ofMembers.map Prod.fst).nodup_iff.mpr hkeys) (perm_ofMembers.mem_iff.mpr h)

theorem find_ofMembers_eq_none (h : k ∉ members.map Prod.fst) :
    (ofMembers members).find k = none := by
  show (members.insertionSort fun p q => p.1 ≤ q.1).lookup k = none
  rw [List.lookup_eq_none_iff]
  intro p hp
  rw [bne_iff_ne]
  rintro rfl
  exact h (List.mem_map_of_mem (perm_ofMembers.mem_iff.mp hp))

theorem valid_ofMembers (hkeys : (members.map Prod.fst).Nodup)
    (h : ∀ p ∈ members, p.2.Valid) : (ofMembers members).Valid := by
  have : Std.Total fun p q : String × Value => p.1 ≤ q.1 := ⟨fun p q => le_total p.1 q.1⟩
  have : IsTrans (String × Value) fun p q => p.1 ≤ q.1 := ⟨fun p q r => le_trans⟩
  have hsorted := List.pairwise_map.mpr
    (List.pairwise_insertionSort (fun p q : String × Value => p.1 ≤ q.1) members)
  have hnodup := (perm_ofMembers.map Prod.fst).nodup_iff.mpr hkeys
  refine .object ?_ fun p hp => h p (perm_ofMembers.mem_iff.mp hp)
  exact (hsorted.and hnodup).imp fun hpq => lt_of_le_of_ne hpq.1 hpq.2

end Members

end Value

/-! ## The text -/

/-- A digit of a number in base 16. -/
def hexDigit (n : ℕ) : Char :=
  if n < 10 then Char.ofNat ('0'.toNat + n) else Char.ofNat ('a'.toNat + (n - 10))

/-- The letters that stand for a character behind a backslash. -/
def letters : List (Char × Char) :=
  [('\x22', '\x22'), ('\x5c', '\x5c'), ('b', '\x08'), ('f', '\x0c'), ('n', '\n'), ('r', '\r'),
    ('t', '\t')]

/-- A character in a string. -/
def escape (c : Char) : List Char :=
  match letters.find? fun p => p.2 = c with
  | some p => ['\x5c', p.1]
  | none =>
    if c.toNat < 32 then
      ['\x5c', 'u', '0', '0', hexDigit (c.toNat / 16), hexDigit (c.toNat % 16)]
    else [c]

/-- A string with its quotes. -/
def quote (s : String) : List Char := '\x22' :: s.toList.flatMap escape ++ ['\x22']

/-- The digits of a number, behind its sign. -/
def dumpNumber (n : Int) : List Char :=
  if n < 0 then '-' :: Nat.toDigits 10 n.natAbs else Nat.toDigits 10 n.natAbs

mutual

/-- The compact text of a value. -/
def dumpValue : Value → List Char
  | .null => ['n', 'u', 'l', 'l']
  | .bool true => ['t', 'r', 'u', 'e']
  | .bool false => ['f', 'a', 'l', 's', 'e']
  | .number n => dumpNumber n
  | .string s => quote s
  | .array [] => ['[', ']']
  | .array (v :: items) => '[' :: dumpValue v ++ dumpItems items
  | .object [] => ['\x7b', '\x7d']
  | .object ((k, v) :: members) =>
    '\x7b' :: quote k ++ ':' :: dumpValue v ++ dumpMembers members

/-- The other items of an array. -/
def dumpItems : List Value → List Char
  | [] => [']']
  | v :: items => ',' :: dumpValue v ++ dumpItems items

/-- The other members of an object. -/
def dumpMembers : List (String × Value) → List Char
  | [] => ['\x7d']
  | (k, v) :: members => ',' :: quote k ++ ':' :: dumpValue v ++ dumpMembers members

end

/-- The compact text of a value. -/
def dump (v : Value) : String := String.ofList (dumpValue v)

/-! ## The parser -/

/-- The value of a digit in base 16. -/
def hexValue (c : Char) : Option ℕ :=
  if '0' ≤ c ∧ c ≤ '9' then some (c.toNat - '0'.toNat)
  else if 'a' ≤ c ∧ c ≤ 'f' then some (c.toNat - 'a'.toNat + 10)
  else if 'A' ≤ c ∧ c ≤ 'F' then some (c.toNat - 'A'.toNat + 10)
  else none

/-- The character of an escape with four digits. -/
def unicode (a b c d : Char) : Option Char := do
  let a ← hexValue a
  let b ← hexValue b
  let c ← hexValue c
  let d ← hexValue d
  let n := ((a * 16 + b) * 16 + c) * 16 + d
  if 0xd800 ≤ n ∧ n < 0xe000 then none else some (Char.ofNat n)

/-- The four digits of an escape. -/
def parseUnicode : List Char → Option (Char × List Char)
  | a :: b :: c :: d :: cs => do
    let e ← unicode a b c d
    return (e, cs)
  | _ => none

/-- The character of an escape with one letter. -/
def unescape (c : Char) : Option Char := (('/', '/') :: letters).lookup c

/-- An escape behind its backslash. -/
def parseEscape : List Char → Option (Char × List Char)
  | [] => none
  | e :: cs =>
    if e = 'u' then parseUnicode cs
    else do
      let c ← unescape e
      return (c, cs)

/-- One character of a string. -/
def parseChar : List Char → Option (Char × List Char)
  | [] => none
  | c :: cs =>
    if c = '\x5c' then parseEscape cs
    else if c.toNat < 32 then none
    else some (c, cs)

/-- One character that has to be there. -/
def expect (c : Char) : List Char → Option (List Char)
  | [] => none
  | d :: cs => if d = c then some cs else none

/-- The rest of a string behind its first quote, and what follows the string. -/
def parseString : ℕ → List Char → Option (List Char × List Char)
  | 0, _ => none
  | fuel + 1, cs =>
    match expect '\x22' cs with
    | some rest => some ([], rest)
    | none => do
      let (c, cs) ← parseChar cs
      let (s, rest) ← parseString fuel cs
      return (c :: s, rest)

/-- A number without a sign. -/
def parseDigits (cs : List Char) : Option (ℕ × List Char) :=
  match cs.takeWhile Char.isDigit with
  | [] => none
  | d :: ds => some (Nat.ofDigitChars 10 (d :: ds) 0, cs.dropWhile Char.isDigit)

mutual

/-- A value at the front of a text.  One unit of fuel is one nested value. -/
def parseValue : ℕ → List Char → Option (Value × List Char)
  | 0, _ => none
  | _ + 1, [] => none
  | fuel + 1, c :: cs =>
    if c = '\x22' then do
      let (s, rest) ← parseString fuel cs
      return (.string (String.ofList s), rest)
    else if c = '[' then
      match expect ']' cs with
      | some rest => some (.array [], rest)
      | none => do
        let (v, rest) ← parseValue fuel cs
        let (items, rest) ← parseItems fuel rest
        return (.array (v :: items), rest)
    else if c = '\x7b' then
      match expect '\x7d' cs with
      | some rest => some (.object [], rest)
      | none => do
        let (p, rest) ← parseMember fuel cs
        let (members, rest) ← parseMembers fuel rest
        return (.object (p :: members), rest)
    else if c = 'n' then do
      let rest ← ['u', 'l', 'l'].foldlM (fun cs c => expect c cs) cs
      return (.null, rest)
    else if c = 't' then do
      let rest ← ['r', 'u', 'e'].foldlM (fun cs c => expect c cs) cs
      return (.bool true, rest)
    else if c = 'f' then do
      let rest ← ['a', 'l', 's', 'e'].foldlM (fun cs c => expect c cs) cs
      return (.bool false, rest)
    else if c = '-' then do
      let (n, rest) ← parseDigits cs
      return (.number (-n), rest)
    else do
      let (n, rest) ← parseDigits (c :: cs)
      return (.number n, rest)

/-- The other items of an array. -/
def parseItems : ℕ → List Char → Option (List Value × List Char)
  | 0, _ => none
  | fuel + 1, cs =>
    match expect ']' cs with
    | some rest => some ([], rest)
    | none => do
      let cs ← expect ',' cs
      let (v, rest) ← parseValue fuel cs
      let (items, rest) ← parseItems fuel rest
      return (v :: items, rest)

/-- A member of an object. -/
def parseMember : ℕ → List Char → Option ((String × Value) × List Char)
  | 0, _ => none
  | fuel + 1, cs => do
    let cs ← expect '\x22' cs
    let (k, rest) ← parseString fuel cs
    let rest ← expect ':' rest
    let (v, rest) ← parseValue fuel rest
    return ((String.ofList k, v), rest)

/-- The other members of an object. -/
def parseMembers : ℕ → List Char → Option (List (String × Value) × List Char)
  | 0, _ => none
  | fuel + 1, cs =>
    match expect '\x7d' cs with
    | some rest => some ([], rest)
    | none => do
      let cs ← expect ',' cs
      let (p, rest) ← parseMember fuel cs
      let (members, rest) ← parseMembers fuel rest
      return (p :: members, rest)

end

/-- The value of a text.  Nothing may follow it. -/
def parse (text : String) : Option Value :=
  match parseValue (text.toList.length + 1) text.toList with
  | some (v, []) => some v
  | _ => none

/-! ## Strings and numbers -/

theorem unicode_hexDigit {n : ℕ} (h : n < 32) :
    unicode '0' '0' (hexDigit (n / 16)) (hexDigit (n % 16)) = some (Char.ofNat n) := by
  have hall : ∀ n : Fin 32,
      unicode '0' '0' (hexDigit (n / 16)) (hexDigit (n % 16)) = some (Char.ofNat n) := by
    decide
  exact hall ⟨n, h⟩

theorem unescape_letter {p : Char × Char} (h : p ∈ letters) :
    p.1 ≠ 'u' ∧ unescape p.1 = some p.2 := by
  have hall : ∀ p ∈ letters, p.1 ≠ 'u' ∧ unescape p.1 = some p.2 := by decide
  exact hall p h

@[simp] theorem expect_self (c : Char) (cs : List Char) : expect c (c :: cs) = some cs := by
  rw [expect, if_pos rfl]

theorem expect_of_ne {c d : Char} (h : d ≠ c) (cs : List Char) : expect c (d :: cs) = none := by
  rw [expect, if_neg h]

/-- A character is read back from its escape. -/
theorem parseChar_escape (c : Char) (cs : List Char) :
    parseChar (escape c ++ cs) = some (c, cs) := by
  rw [escape]
  split
  · rename_i p hp
    obtain ⟨hu, hletter⟩ := unescape_letter (List.mem_of_find?_eq_some hp)
    have hc : p.2 = c := by simpa using List.find?_some hp
    show parseEscape (p.1 :: cs) = _
    rw [parseEscape, if_neg hu, hletter, hc]
    rfl
  · rename_i hnone
    split
    · rename_i hcontrol
      show (do
        let e ← unicode '0' '0' (hexDigit (c.toNat / 16)) (hexDigit (c.toNat % 16))
        return (e, cs)) = _
      rw [unicode_hexDigit hcontrol, Char.ofNat_toNat]
      rfl
    · rename_i hplain
      have hne : ∀ p ∈ letters, p.2 ≠ c := by simpa using List.find?_eq_none.mp hnone
      have hbackslash : c ≠ '\x5c' := (hne ('\x5c', '\x5c') (by decide)).symm
      rw [List.singleton_append, parseChar, if_neg hbackslash, if_neg hplain]

/-- No escape starts with a quote. -/
theorem escape_eq_cons (c : Char) : ∃ d cs, escape c = d :: cs ∧ d ≠ '\x22' := by
  rw [escape]
  split
  · exact ⟨_, _, rfl, by decide⟩
  · rename_i hnone
    split
    · exact ⟨_, _, rfl, by decide⟩
    · have hne : ∀ p ∈ letters, p.2 ≠ c := by simpa using List.find?_eq_none.mp hnone
      exact ⟨c, [], rfl, (hne ('\x22', '\x22') (by decide)).symm⟩

theorem parseString_flatMap_escape (s rest : List Char) {fuel : ℕ}
    (hfuel : (s.flatMap escape ++ '\x22' :: rest).length ≤ fuel) :
    parseString fuel (s.flatMap escape ++ '\x22' :: rest) = some (s, rest) := by
  induction s generalizing fuel with
  | nil =>
    obtain ⟨fuel, rfl⟩ : ∃ n, fuel = n + 1 := ⟨fuel - 1, by simp at hfuel; omega⟩
    show parseString (fuel + 1) ('\x22' :: rest) = _
    rw [parseString, expect_self]
  | cons c s ih =>
    obtain ⟨d, ds, hd, hquote⟩ := escape_eq_cons c
    have hchar := parseChar_escape c (s.flatMap escape ++ '\x22' :: rest)
    rw [List.flatMap_cons, List.append_assoc] at hfuel ⊢
    rw [hd, List.cons_append] at hfuel hchar ⊢
    rw [List.length_cons, List.length_append] at hfuel
    obtain ⟨fuel, rfl⟩ : ∃ n, fuel = n + 1 := ⟨fuel - 1, by omega⟩
    rw [parseString, expect_of_ne hquote, hchar]
    simp only [Option.bind_eq_bind, Option.bind_some]
    rw [ih (by omega)]
    rfl

/-- A string is read back from its text. -/
theorem parseString_quote (s : String) (rest : List Char) {fuel : ℕ}
    (hfuel : (quote s ++ rest).length ≤ fuel) :
    ∃ cs, quote s ++ rest = '\x22' :: cs ∧ parseString fuel cs = some (s.toList, rest) := by
  have hcons : quote s ++ rest = '\x22' :: (s.toList.flatMap escape ++ '\x22' :: rest) := by
    rw [quote, List.cons_append, List.cons_append, List.append_assoc]
    rfl
  rw [hcons, List.length_cons] at hfuel
  exact ⟨_, hcons, parseString_flatMap_escape _ _ (by omega)⟩

/-- The text does not start with a digit. -/
def NoDigit (cs : List Char) : Prop := ∀ c ∈ cs.head?, c.isDigit = false

theorem parseDigits_toDigits (n : ℕ) {rest : List Char} (hrest : NoDigit rest) :
    parseDigits (Nat.toDigits 10 n ++ rest) = some (n, rest) := by
  have hdigits : ∀ c ∈ Nat.toDigits 10 n, c.isDigit = true := fun c hc =>
    Nat.isDigit_of_mem_toDigits (by decide) (by decide) hc
  have hstop : rest.takeWhile Char.isDigit = [] ∧ rest.dropWhile Char.isDigit = rest := by
    cases rest with
    | nil => exact ⟨rfl, rfl⟩
    | cons c cs =>
      have hc := hrest c rfl
      exact ⟨List.takeWhile_cons_of_neg (by simp [hc]), List.dropWhile_cons_of_neg (by simp [hc])⟩
  have htake : (Nat.toDigits 10 n ++ rest).takeWhile Char.isDigit = Nat.toDigits 10 n := by
    rw [List.takeWhile_append_of_pos hdigits, hstop.1, List.append_nil]
  have hdrop : (Nat.toDigits 10 n ++ rest).dropWhile Char.isDigit = rest := by
    rw [List.dropWhile_append_of_pos hdigits, hstop.2]
  have hvalue := Nat.ofDigitChars_toDigits (b := 10) (n := n) (by decide) (by decide)
  rw [parseDigits, htake, hdrop]
  cases hds : Nat.toDigits 10 n with
  | nil => exact absurd hds Nat.toDigits_ne_nil
  | cons d ds =>
    rw [hds] at hvalue
    simp only [hvalue]

/-! ## Values -/

theorem parseValue_number (n : Int) {rest : List Char} (hrest : NoDigit rest) (fuel : ℕ) :
    parseValue (fuel + 1) (dumpNumber n ++ rest) = some (.number n, rest) := by
  have hparse := parseDigits_toDigits n.natAbs hrest
  rw [dumpNumber]
  split
  · rename_i hneg
    have hvalue : -(n.natAbs : Int) = n := by omega
    rw [List.cons_append, parseValue, if_neg (by decide), if_neg (by decide), if_neg (by decide),
      if_neg (by decide), if_neg (by decide), if_neg (by decide), if_pos rfl, hparse]
    simp only [Option.bind_eq_bind, Option.bind_some, hvalue]
    rfl
  · rename_i hpos
    have hvalue : (n.natAbs : Int) = n := by omega
    cases hds : Nat.toDigits 10 n.natAbs with
    | nil => exact absurd hds Nat.toDigits_ne_nil
    | cons d ds =>
      have hdigit : d.isDigit = true := Nat.isDigit_of_mem_toDigits (by decide) (by decide)
        (hds ▸ List.mem_cons_self)
      have hne : ∀ c : Char, c.isDigit = false → d ≠ c := by
        rintro _ hc rfl
        exact absurd hdigit (by simp [hc])
      rw [hds, List.cons_append] at hparse
      rw [List.cons_append, parseValue, if_neg (hne _ (by decide)), if_neg (hne _ (by decide)),
        if_neg (hne _ (by decide)), if_neg (hne _ (by decide)), if_neg (hne _ (by decide)),
        if_neg (hne _ (by decide)), if_neg (hne _ (by decide)), hparse]
      simp only [Option.bind_eq_bind, Option.bind_some, hvalue]
      rfl

theorem parseValue_string (s : String) (rest : List Char) {fuel : ℕ}
    (hfuel : (quote s ++ rest).length ≤ fuel) :
    parseValue (fuel + 1) (quote s ++ rest) = some (.string s, rest) := by
  obtain ⟨cs, hcs, hparse⟩ := parseString_quote s rest hfuel
  rw [hcs, parseValue, if_pos rfl, hparse]
  simp only [Option.bind_eq_bind, Option.bind_some, String.ofList_toList]
  rfl

/-- A member is read back if its value is. -/
theorem parseMember_quote (k : String) {v : Value} {rest : List Char} {fuel : ℕ}
    (hvalue : parseValue fuel (dumpValue v ++ rest) = some (v, rest))
    (hfuel : (quote k ++ ':' :: (dumpValue v ++ rest)).length ≤ fuel) :
    parseMember (fuel + 1) (quote k ++ ':' :: (dumpValue v ++ rest)) = some ((k, v), rest) := by
  obtain ⟨cs, hcs, hparse⟩ := parseString_quote k (':' :: (dumpValue v ++ rest)) hfuel
  rw [hcs, parseMember, expect_self]
  simp only [Option.bind_eq_bind, Option.bind_some, hparse, expect_self, hvalue,
    String.ofList_toList]
  rfl

/-- No value starts with the end of an array. -/
theorem dumpValue_eq_cons (v : Value) : ∃ c cs, dumpValue v = c :: cs ∧ c ≠ ']' := by
  match v with
  | .null => exact ⟨_, _, rfl, by decide⟩
  | .bool true => exact ⟨_, _, rfl, by decide⟩
  | .bool false => exact ⟨_, _, rfl, by decide⟩
  | .string s => exact ⟨_, _, rfl, by decide⟩
  | .array [] => exact ⟨_, _, rfl, by decide⟩
  | .array (v :: items) => exact ⟨_, _, rfl, by decide⟩
  | .object [] => exact ⟨_, _, rfl, by decide⟩
  | .object ((k, v) :: members) => exact ⟨_, _, rfl, by decide⟩
  | .number n =>
    rw [dumpValue, dumpNumber]
    split
    · exact ⟨_, _, rfl, by decide⟩
    · cases hds : Nat.toDigits 10 n.natAbs with
      | nil => exact absurd hds Nat.toDigits_ne_nil
      | cons d ds =>
        refine ⟨d, ds, rfl, ?_⟩
        rintro rfl
        have hdigit := Nat.isDigit_of_mem_toDigits (b := 10) (n := n.natAbs) (by decide) (by decide)
          (hds ▸ List.mem_cons_self)
        exact absurd hdigit (by decide)

theorem noDigit_dumpItems (items : List Value) (rest : List Char) :
    NoDigit (dumpItems items ++ rest) := by
  cases items with
  | nil => rintro _ ⟨rfl⟩; decide
  | cons v items => rintro _ ⟨rfl⟩; decide

theorem noDigit_dumpMembers (members : List (String × Value)) (rest : List Char) :
    NoDigit (dumpMembers members ++ rest) := by
  cases members with
  | nil => rintro _ ⟨rfl⟩; decide
  | cons p members => rintro _ ⟨rfl⟩; decide

/-- What is left of the fuel for the parts of a member. -/
theorem exists_fuel_member {c : Char} {key value members : List Char} {fuel : ℕ}
    (h : (c :: (key ++ ':' :: (value ++ members))).length < fuel + 1) :
    ∃ n, fuel = n + 1 ∧ (key ++ ':' :: (value ++ members)).length ≤ n ∧
      (value ++ members).length < n ∧ members.length < n + 1 := by
  simp only [List.length_cons, List.length_append] at h ⊢
  exact ⟨fuel - 1, by omega, by omega, by omega, by omega⟩

mutual

/-- A value is read back from its text, whatever comes behind it but a digit. -/
theorem parseValue_dumpValue (v : Value) {rest : List Char} (hrest : NoDigit rest) {fuel : ℕ}
    (hfuel : (dumpValue v ++ rest).length < fuel) :
    parseValue fuel (dumpValue v ++ rest) = some (v, rest) := by
  obtain ⟨fuel, rfl⟩ : ∃ n, fuel = n + 1 := ⟨fuel - 1, by omega⟩
  match v with
  | .null => rfl
  | .bool true => rfl
  | .bool false => rfl
  | .number n => exact parseValue_number n hrest fuel
  | .string s => exact parseValue_string s rest (Nat.le_of_lt_succ hfuel)
  | .array [] => rfl
  | .array (v :: items) =>
    have htext : dumpValue (.array (v :: items)) ++ rest =
        '[' :: (dumpValue v ++ (dumpItems items ++ rest)) := by
      simp [dumpValue]
    rw [htext] at hfuel ⊢
    rw [List.length_cons] at hfuel
    have hrest' : (dumpItems items ++ rest).length < fuel := by
      rw [List.length_append] at hfuel
      omega
    obtain ⟨c, cs, hc, hclose⟩ := dumpValue_eq_cons v
    have hvalue := parseValue_dumpValue v (noDigit_dumpItems items rest) (by omega : _ < fuel)
    have hopen : expect ']' (dumpValue v ++ (dumpItems items ++ rest)) = none := by
      rw [hc]
      exact expect_of_ne hclose _
    rw [parseValue, if_neg (by decide), if_pos rfl, hopen]
    simp only [Option.bind_eq_bind, Option.bind_some, hvalue, parseItems_dumpItems items hrest']
    rfl
  | .object [] => rfl
  | .object ((k, v) :: members) =>
    have htext : dumpValue (.object ((k, v) :: members)) ++ rest =
        '\x7b' :: (quote k ++ ':' :: (dumpValue v ++ (dumpMembers members ++ rest))) := by
      simp [dumpValue]
    rw [htext] at hfuel ⊢
    obtain ⟨fuel, rfl, hkey, hvalue, hrest'⟩ := exists_fuel_member hfuel
    have hmember := parseMember_quote k
      (parseValue_dumpValue v (noDigit_dumpMembers members rest) hvalue) hkey
    have hopen : expect '\x7d' (quote k ++ ':' :: (dumpValue v ++ (dumpMembers members ++ rest))) =
        none := expect_of_ne (by decide) _
    rw [parseValue, if_neg (by decide), if_neg (by decide), if_pos rfl, hopen]
    simp only [Option.bind_eq_bind, Option.bind_some, hmember,
      parseMembers_dumpMembers members hrest']
    rfl

/-- The same for the other items of an array. -/
theorem parseItems_dumpItems (items : List Value) {rest : List Char} {fuel : ℕ}
    (hfuel : (dumpItems items ++ rest).length < fuel) :
    parseItems fuel (dumpItems items ++ rest) = some (items, rest) := by
  obtain ⟨fuel, rfl⟩ : ∃ n, fuel = n + 1 := ⟨fuel - 1, by omega⟩
  match items with
  | [] => rfl
  | v :: items =>
    have htext : dumpItems (v :: items) ++ rest =
        ',' :: (dumpValue v ++ (dumpItems items ++ rest)) := by
      simp [dumpItems]
    rw [htext] at hfuel ⊢
    rw [List.length_cons] at hfuel
    have hrest' : (dumpItems items ++ rest).length < fuel := by
      rw [List.length_append] at hfuel
      omega
    have hvalue := parseValue_dumpValue v (noDigit_dumpItems items rest) (by omega : _ < fuel)
    rw [parseItems, expect_of_ne (by decide), expect_self]
    simp only [Option.bind_eq_bind, Option.bind_some, hvalue, parseItems_dumpItems items hrest']
    rfl

/-- The same for the other members of an object. -/
theorem parseMembers_dumpMembers (members : List (String × Value)) {rest : List Char} {fuel : ℕ}
    (hfuel : (dumpMembers members ++ rest).length < fuel) :
    parseMembers fuel (dumpMembers members ++ rest) = some (members, rest) := by
  obtain ⟨fuel, rfl⟩ : ∃ n, fuel = n + 1 := ⟨fuel - 1, by omega⟩
  match members with
  | [] => rfl
  | (k, v) :: members =>
    have htext : dumpMembers ((k, v) :: members) ++ rest =
        ',' :: (quote k ++ ':' :: (dumpValue v ++ (dumpMembers members ++ rest))) := by
      simp [dumpMembers]
    rw [htext] at hfuel ⊢
    obtain ⟨fuel, rfl, hkey, hvalue, hrest'⟩ := exists_fuel_member hfuel
    have hmember := parseMember_quote k
      (parseValue_dumpValue v (noDigit_dumpMembers members rest) hvalue) hkey
    rw [parseMembers, expect_of_ne (by decide), expect_self]
    simp only [Option.bind_eq_bind, Option.bind_some, hmember,
      parseMembers_dumpMembers members hrest']
    rfl

end

/-- What `dump` writes, `parse` reads. -/
theorem parse_dump (v : Value) : parse (dump v) = some v := by
  have hend : NoDigit [] := fun c hc => by cases hc
  have hvalue := parseValue_dumpValue v hend (Nat.lt_succ_self _)
  rw [List.append_nil] at hvalue
  rw [parse, dump, String.toList_ofList, hvalue]

end Json
