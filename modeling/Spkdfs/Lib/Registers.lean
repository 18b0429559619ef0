import Mathlib.Algebra.Group.End
import Mathlib.Algebra.Group.Idempotent
import Mathlib.Algebra.Group.Submonoid.Defs
import Spkdfs.Lib.Run

/-!
# Replay of a log over a state that already contains part of it

A register is a part of the state that every event of a log updates on its own:
the value after the event is a function of the value before it.  If these
functions come from a monoid in which every element is idempotent, the events
of a log `B` that is run twice leave the register as one run of `B` does,
whatever the intermediate values are (`obs_run_replay`).

Two such monoids are enough for records and listings.

* `overwrites`: the update is an assignment, or nothing.
* `tallies`: the register counts the occurrences of one element of a list, and
  the update assigns the count, makes sure that it is at least one, or does
  nothing.
-/

namespace Registers

open Runs

variable {σ ε ρ : Type*} {step : σ → ε → Option σ}

/-- Doing nothing leaves the value. -/
@[simp] theorem one_act (x : ρ) : (1 : Function.End ρ) x = x := rfl

/-- The updates of a list of events, composed. -/
def acts (act : ε → Function.End ρ) (es : List ε) : Function.End ρ :=
  es.foldl (fun f e => act e * f) 1

theorem foldl_acts (act : ε → Function.End ρ) (es : List ε) (f : Function.End ρ) :
    es.foldl (fun g e => act e * g) f = acts act es * f := by
  induction es generalizing f with
  | nil => rfl
  | cons e es ih => rw [acts, List.foldl_cons, List.foldl_cons, ih, ih, mul_one, mul_assoc]

theorem acts_cons (act : ε → Function.End ρ) (e : ε) (es : List ε) :
    acts act (e :: es) = acts act es * act e := by
  rw [acts, List.foldl_cons, foldl_acts, mul_one]

theorem acts_append (act : ε → Function.End ρ) (es fs : List ε) :
    acts act (es ++ fs) = acts act fs * acts act es := by
  rw [acts, List.foldl_append, foldl_acts]
  rfl

theorem acts_mem {M : Submonoid (Function.End ρ)} {act : ε → Function.End ρ} {es : List ε}
    (h : ∀ e ∈ es, act e ∈ M) : acts act es ∈ M := by
  induction es with
  | nil => exact M.one_mem
  | cons e es ih =>
    rw [acts_cons]
    exact M.mul_mem (ih fun f hf => h f (List.mem_cons_of_mem _ hf)) (h e List.mem_cons_self)

/-- A run updates the register by the composed updates of its events. -/
theorem obs_run {obs : σ → ρ} {act : ε → Function.End ρ} {es : List ε}
    (hstep : ∀ e ∈ es, ∀ s s', step s e = some s' → obs s' = act e (obs s))
    {s s' : σ} (h : run step s es = some s') : obs s' = acts act es (obs s) := by
  induction es generalizing s with
  | nil =>
    rw [run_nil] at h
    rw [← Option.some.inj h]
    rfl
  | cons e es ih =>
    obtain ⟨m, hm, hrest⟩ := run_cons_eq_some h
    have hm' := hstep e List.mem_cons_self s m hm
    rw [ih (fun f hf => hstep f (List.mem_cons_of_mem _ hf)) hrest, acts_cons, hm']
    rfl

/-- A log `A ++ B ++ C` run once, and `B ++ C` run over the state that `A ++ B`
leaves, agree on the register. -/
theorem obs_run_replay {M : Submonoid (Function.End ρ)} (hM : ∀ f ∈ M, IsIdempotentElem f)
    (obs : σ → ρ) (act : ε → Function.End ρ) {A B C : List ε}
    (hact : ∀ e ∈ B, act e ∈ M)
    (hstep : ∀ e ∈ A ++ B ++ C, ∀ s s', step s e = some s' → obs s' = act e (obs s))
    {init s m s' : σ} (hs : run step init (A ++ B ++ C) = some s)
    (hm : run step init (A ++ B) = some m) (hs' : run step m (B ++ C) = some s') :
    obs s' = obs s := by
  have hBC : ∀ e ∈ B ++ C, ∀ s s', step s e = some s' → obs s' = act e (obs s) := by
    intro e he
    refine hstep e ?_
    rw [List.append_assoc]
    exact List.mem_append_right A he
  have hAB : ∀ e ∈ A ++ B, ∀ s s', step s e = some s' → obs s' = act e (obs s) :=
    fun e he => hstep e (List.mem_append_left C he)
  have hidem : acts act B * acts act B = acts act B := hM _ (acts_mem hact)
  calc obs s' = (acts act (B ++ C) * acts act (A ++ B)) (obs init) := by
        rw [obs_run hBC hs', obs_run hAB hm]
        rfl
    _ = (acts act C * (acts act B * acts act B) * acts act A) (obs init) := by
        simp only [acts_append, mul_assoc]
    _ = acts act (A ++ B ++ C) (obs init) := by
        rw [hidem]
        simp only [acts_append, mul_assoc]
    _ = obs s := (obs_run hstep hs).symm

/-! ## Assignments -/

/-- The update that assigns `c`. -/
def assign (c : ρ) : Function.End ρ := fun _ => c

@[simp] theorem assign_act (c x : ρ) : assign c x = c := rfl

/-- The updates that assign a value or do nothing. -/
def overwrites (ρ : Type*) : Submonoid (Function.End ρ) where
  carrier := { f | f = 1 ∨ ∃ c, f = assign c }
  one_mem' := Or.inl rfl
  mul_mem' := by
    rintro f g (rfl | ⟨c, rfl⟩) hg
    · rwa [one_mul]
    · exact Or.inr ⟨c, rfl⟩

theorem overwrites_idempotent : ∀ f ∈ overwrites ρ, IsIdempotentElem f := by
  rintro f (rfl | ⟨c, rfl⟩)
  · exact IsIdempotentElem.one
  · rfl

theorem assign_mem_overwrites (c : ρ) : assign c ∈ overwrites ρ := Or.inr ⟨c, rfl⟩

theorem ite_mem_overwrites {p : Prop} [Decidable p] {f : Function.End ρ} (hf : f ∈ overwrites ρ) :
    (if p then f else 1) ∈ overwrites ρ := by
  split
  · exact hf
  · exact Submonoid.one_mem _

/-! ## Tallies -/

/-- The update that makes sure that the count is at least one. -/
def atLeastOne : Function.End ℕ := fun c => max c 1

@[simp] theorem atLeastOne_act (c : ℕ) : atLeastOne c = max c 1 := rfl

theorem isIdempotentElem_atLeastOne : IsIdempotentElem atLeastOne := by
  refine funext fun c => ?_
  show max (max c 1) 1 = max c 1
  omega

/-- The updates of the count of one element. -/
def tallies : Submonoid (Function.End ℕ) where
  carrier := { f | f = 1 ∨ f = atLeastOne ∨ ∃ c, f = assign c }
  one_mem' := Or.inl rfl
  mul_mem' := by
    rintro f g (rfl | rfl | ⟨c, rfl⟩) hg
    · rwa [one_mul]
    · rcases hg with rfl | rfl | ⟨c, rfl⟩
      · exact Or.inr (Or.inl rfl)
      · exact Or.inr (Or.inl isIdempotentElem_atLeastOne)
      · exact Or.inr (Or.inr ⟨max c 1, rfl⟩)
    · exact Or.inr (Or.inr ⟨c, rfl⟩)

theorem tallies_idempotent : ∀ f ∈ tallies, IsIdempotentElem f := by
  rintro f (rfl | rfl | ⟨c, rfl⟩)
  · exact IsIdempotentElem.one
  · exact isIdempotentElem_atLeastOne
  · rfl

theorem atLeastOne_mem_tallies : atLeastOne ∈ tallies := Or.inr (Or.inl rfl)

theorem assign_mem_tallies (c : ℕ) : assign c ∈ tallies := Or.inr (Or.inr ⟨c, rfl⟩)

end Registers
