import Mathlib.Logic.Function.Basic

/-!
# Hierarchies of directories and files

A name space over a type of keys `K` says of each key whether it is absent, a
directory or a file.  The keys have a parent function of their own, with a root
that is always there.  `IsTree` says that no key is present without a directory
above it.

One update of one key keeps the tree under a condition on the state before it,
and only then: `isTree_update_dir`, `isTree_update_file` and
`isTree_update_absent` are equivalences.

`IsListing` says that a list of names is the listing of a directory, and the three
lemmas about it follow one update of one child.
-/

namespace Hierarchy

/-- What a key names. -/
inductive Kind
  | absent
  | dir
  | file
  deriving DecidableEq

variable {K : Type*} {parent : K → K} {root : K} {kind : K → Kind} {t : K}

/-- The key lies in the root or in a directory. -/
def UnderDir (parent : K → K) (root : K) (kind : K → Kind) (t : K) : Prop :=
  parent t = root ∨ kind (parent t) = .dir

instance [DecidableEq K] (parent : K → K) (root : K) (kind : K → Kind) (t : K) :
    Decidable (UnderDir parent root kind t) :=
  inferInstanceAs (Decidable (_ ∨ _))

/-- Every present key but the root lies in the root or in a directory. -/
def IsTree (parent : K → K) (root : K) (kind : K → Kind) : Prop :=
  ∀ k, k ≠ root → kind k ≠ .absent → UnderDir parent root kind k

variable [DecidableEq K]

/-- To make a key a directory, it must lie in one. -/
theorem isTree_update_dir (h : IsTree parent root kind) (hroot : t ≠ root) (hself : parent t ≠ t) :
    IsTree parent root (Function.update kind t .dir) ↔ UnderDir parent root kind t := by
  constructor
  · intro htree
    have ht := htree t hroot (by simp)
    rwa [UnderDir, Function.update_of_ne hself] at ht
  · intro hunder k hk hpresent
    have hup : UnderDir parent root kind k := by
      by_cases hkt : k = t
      · rw [hkt]
        exact hunder
      · rw [Function.update_of_ne hkt] at hpresent
        exact h k hk hpresent
    refine hup.imp_right fun hdir => ?_
    by_cases hpt : parent k = t
    · rw [hpt, Function.update_self]
    · rw [Function.update_of_ne hpt, hdir]

/-- To make a key that is no directory a file, it must lie in a directory, or
be the root. -/
theorem isTree_update_file (h : IsTree parent root kind) (hdir : kind t ≠ .dir) :
    IsTree parent root (Function.update kind t .file) ↔
      t = root ∨ UnderDir parent root kind t := by
  have hne : ∀ k, kind (parent k) = .dir → parent k ≠ t := by
    intro k hk hpt
    exact hdir (hpt ▸ hk)
  constructor
  · intro htree
    by_cases hroot : t = root
    · exact Or.inl hroot
    · rcases htree t hroot (by simp) with hp | hp
      · exact Or.inr (Or.inl hp)
      · by_cases hpt : parent t = t
        · rw [hpt, Function.update_self] at hp
          cases hp
        · rw [Function.update_of_ne hpt] at hp
          exact Or.inr (Or.inr hp)
  · intro hunder k hk hpresent
    have hup : UnderDir parent root kind k := by
      by_cases hkt : k = t
      · rw [hkt] at hk ⊢
        exact hunder.resolve_left hk
      · rw [Function.update_of_ne hkt] at hpresent
        exact h k hk hpresent
    refine hup.imp_right fun hd => ?_
    rw [Function.update_of_ne (hne k hd), hd]

/-- To remove a key, nothing may lie in it, unless it is the root. -/
theorem isTree_update_absent (h : IsTree parent root kind) (hself : t ≠ root → parent t ≠ t) :
    IsTree parent root (Function.update kind t .absent) ↔
      t = root ∨ ∀ k, k ≠ root → kind k ≠ .absent → parent k ≠ t := by
  constructor
  · intro htree
    by_cases hroot : t = root
    · exact Or.inl hroot
    · refine Or.inr fun k hk hpresent hp => ?_
      have hkt : k ≠ t := by
        rintro rfl
        exact hself hroot hp
      have hpresent' : Function.update kind t .absent k ≠ .absent := by
        rwa [Function.update_of_ne hkt]
      rcases htree k hk hpresent' with hr | hd
      · exact hroot (hp.symm.trans hr)
      · rw [hp, Function.update_self] at hd
        cases hd
  · intro hleaf k hk hpresent
    have hkt : k ≠ t := by
      rintro rfl
      rw [Function.update_self] at hpresent
      exact hpresent rfl
    rw [Function.update_of_ne hkt] at hpresent
    rcases h k hk hpresent with hr | hd
    · exact Or.inl hr
    · by_cases hpt : parent k = t
      · rcases hleaf with hroot | hleaf
        · exact Or.inl (hpt.trans hroot)
        · exact absurd hpt (hleaf k hk hpresent)
      · exact Or.inr (by rw [Function.update_of_ne hpt, hd])

/-! ## Listings

A directory also keeps a list of the names of its children.  Which child is
listed, and under which name, is a function `name : K → Option N`. -/

variable {N : Type*} {name : K → Option N} {D : K} {l l' : List N} {n : N}

/-- The list holds, once each, the names of the children of `D` that have a
name. -/
def IsListing (parent : K → K) (name : K → Option N) (D : K) (l : List N) : Prop :=
  l.Nodup ∧ ∀ n, n ∈ l ↔ ∃ c, parent c = D ∧ name c = some n

/-- The listing of a directory depends on its own children only. -/
theorem isListing_update_of_ne (h : parent t ≠ D) (x : Option N) :
    IsListing parent (Function.update name t x) D l ↔ IsListing parent name D l := by
  have hsame : ∀ c, parent c = D → Function.update name t x c = name c := by
    intro c hc
    have hct : c ≠ t := by
      rintro rfl
      exact h hc
    rw [Function.update_of_ne hct]
  unfold IsListing
  refine and_congr_right fun _ => forall_congr' fun n => iff_congr Iff.rfl ?_
  refine exists_congr fun c => and_congr_right fun hc => ?_
  rw [hsame c hc]

/-- A child that gets the name `n`, and had no other name before. -/
theorem IsListing.update_some (h : IsListing parent name D l) (ht : parent t = D)
    (hold : name t = none ∨ name t = some n) (hnodup : l'.Nodup)
    (hmem : ∀ m, m ∈ l' ↔ m ∈ l ∨ m = n) :
    IsListing parent (Function.update name t (some n)) D l' := by
  refine ⟨hnodup, fun m => ?_⟩
  rw [hmem, h.2]
  constructor
  · rintro (⟨c, hc, hm⟩ | rfl)
    · by_cases hct : c = t
      · subst hct
        rw [hm] at hold
        refine ⟨c, hc, ?_⟩
        rw [Function.update_self, Option.some.inj (hold.resolve_left (by simp))]
      · exact ⟨c, hc, by rw [Function.update_of_ne hct, hm]⟩
    · exact ⟨t, ht, Function.update_self ..⟩
  · rintro ⟨c, hc, hm⟩
    by_cases hct : c = t
    · rw [hct, Function.update_self] at hm
      exact Or.inr (Option.some.inj hm).symm
    · rw [Function.update_of_ne hct] at hm
      exact Or.inl ⟨c, hc, hm⟩

/-- A child that loses its name `n`, if it had one, where no other child has
that name. -/
theorem IsListing.update_none (h : IsListing parent name D l)
    (hold : name t = none ∨ name t = some n)
    (hothers : ∀ c, parent c = D → name c = some n → c = t) (hnodup : l'.Nodup)
    (hmem : ∀ m, m ∈ l' ↔ m ∈ l ∧ m ≠ n) :
    IsListing parent (Function.update name t none) D l' := by
  refine ⟨hnodup, fun m => ?_⟩
  rw [hmem, h.2]
  constructor
  · rintro ⟨⟨c, hc, hm⟩, hne⟩
    have hct : c ≠ t := by
      rintro rfl
      rw [hm] at hold
      exact hne (Option.some.inj (hold.resolve_left (by simp)))
    exact ⟨c, hc, by rw [Function.update_of_ne hct, hm]⟩
  · rintro ⟨c, hc, hm⟩
    have hct : c ≠ t := by
      rintro rfl
      rw [Function.update_self] at hm
      cases hm
    rw [Function.update_of_ne hct] at hm
    refine ⟨⟨c, hc, hm⟩, ?_⟩
    rintro rfl
    exact hct (hothers c hc hm)

end Hierarchy
