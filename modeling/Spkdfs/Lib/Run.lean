import Mathlib.Data.List.Basic
import Mathlib.Data.Option.Defs

/-!
# Runs of a partial step function

A system is a function `step : σ → ε → Option σ`: it takes one event, and it
answers `none` when the event is not enabled in the state, or when the event
stops the system for good.

Two views of a run are used side by side.

* `run` folds a list of events.  It computes, so a concrete run can be
  evaluated.
* `Reach` is the set of the states that a run reaches when each of its steps
  meets a side condition `ok`, which reads the state before the step and the
  event.  `Reach.invariant` is the induction over such a run, and
  `Reachable` is the case without a side condition.
-/

namespace Runs

variable {σ τ ε : Type*} {step : σ → ε → Option σ} {ok : σ → ε → Prop} {init : σ}

/-- The state after a list of events, if every one of them can be taken. -/
def run (step : σ → ε → Option σ) (s : σ) (es : List ε) : Option σ :=
  es.foldlM step s

@[simp] theorem run_nil (s : σ) : run step s [] = some s := rfl

theorem run_cons (s : σ) (e : ε) (es : List ε) :
    run step s (e :: es) = (step s e).bind (fun s' => run step s' es) := rfl

@[simp] theorem run_singleton (s : σ) (e : ε) : run step s [e] = step s e := by
  rw [run_cons]
  exact Option.bind_fun_some (step s e)

theorem run_append (s : σ) (es fs : List ε) :
    run step s (es ++ fs) = (run step s es).bind (fun s' => run step s' fs) :=
  List.foldlM_append

/-- A run of a longer list passes through the state after its first part. -/
theorem run_append_eq_some {s s' : σ} {es fs : List ε}
    (h : run step s (es ++ fs) = some s') :
    ∃ m, run step s es = some m ∧ run step m fs = some s' := by
  rw [run_append] at h
  exact Option.bind_eq_some_iff.mp h

theorem run_cons_eq_some {s s' : σ} {e : ε} {es : List ε}
    (h : run step s (e :: es) = some s') :
    ∃ m, step s e = some m ∧ run step m es = some s' := by
  rw [run_cons] at h
  exact Option.bind_eq_some_iff.mp h

/-- The states that a run from `init` reaches when every step of it meets
`ok`. -/
inductive Reach (step : σ → ε → Option σ) (ok : σ → ε → Prop) (init : σ) : σ → Prop
  | refl : Reach step ok init init
  | tail {s s' : σ} {e : ε} (hs : Reach step ok init s) (hok : ok s e)
      (he : step s e = some s') : Reach step ok init s'

/-- The states that any run from `init` reaches. -/
abbrev Reachable (step : σ → ε → Option σ) (init : σ) : σ → Prop :=
  Reach step (fun _ _ => True) init

/-- The induction over a run.  The step case may use that the state before
the step is reached too. -/
theorem Reach.invariant {I : σ → Prop} (h0 : I init)
    (hstep : ∀ s e s', Reach step ok init s → I s → ok s e →
      step s e = some s' → I s')
    {s : σ} (h : Reach step ok init s) : I s := by
  induction h with
  | refl => exact h0
  | tail hs hok he ih => exact hstep _ _ _ hs ih hok he

theorem Reach.mono {ok' : σ → ε → Prop} (himp : ∀ s e, ok s e → ok' s e)
    {s : σ} (h : Reach step ok init s) : Reach step ok' init s := by
  induction h with
  | refl => exact .refl
  | tail _ hok he ih => exact .tail ih (himp _ _ hok) he

/-- What every step of a run keeps, the run keeps. -/
theorem run_preserves {P : σ → Prop} {es : List ε}
    (hstep : ∀ s s', ∀ e ∈ es, P s → step s e = some s' → P s')
    {s s' : σ} (hs : P s) (h : run step s es = some s') : P s' := by
  induction es generalizing s with
  | nil =>
    rw [run_nil] at h
    exact Option.some.inj h ▸ hs
  | cons e es ih =>
    obtain ⟨m, hm, hrest⟩ := run_cons_eq_some h
    exact ih (fun s s' e he => hstep s s' e (List.mem_cons_of_mem _ he))
      (hstep s m e List.mem_cons_self hs hm) hrest

/-- A list of events that can be taken reaches its last state. -/
theorem reachable_of_run {s : σ} {es : List ε} (h : run step init es = some s) :
    Reachable step init s :=
  run_preserves (fun _ _ _ _ hs he => hs.tail trivial he) .refl h

/-- A run whose last state passes a test reaches a state that passes it. -/
theorem exists_reachable_of_any {test : σ → Bool} (es : List ε)
    (h : (run step init es).any test = true) : ∃ s, Reachable step init s ∧ test s = true := by
  obtain ⟨s, hs, htest⟩ := (Option.any_eq_true _ _).mp h
  exact ⟨s, reachable_of_run hs, htest⟩

/-- The system that stops before the first step which does not meet `ok`. -/
def guarded (ok : σ → ε → Prop) [∀ s e, Decidable (ok s e)] (step : σ → ε → Option σ)
    (s : σ) (e : ε) : Option σ :=
  if ok s e then step s e else none

/-- A run of the guarded system is a run of the system whose steps meet
`ok`. -/
theorem exists_reach_of_any_guarded [∀ s e, Decidable (ok s e)] {test : σ → Bool} (es : List ε)
    (h : (run (guarded ok step) init es).any test = true) :
    ∃ s, Reach step ok init s ∧ test s = true := by
  obtain ⟨s, hs, htest⟩ := exists_reachable_of_any es h
  refine ⟨s, hs.invariant .refl fun s e s' _ hreach _ he => ?_, htest⟩
  unfold guarded at he
  split at he
  · rename_i hok
    exact hreach.tail hok he
  · cases he

/-- Forward simulation of runs.  If related states take the same event to
related states, the second run cannot stop earlier than the first. -/
theorem run_simulation {step' : τ → ε → Option τ} {R : σ → τ → Prop}
    (hstep : ∀ s t e s', R s t → step s e = some s' →
      ∃ t', step' t e = some t' ∧ R s' t')
    {s s' : σ} {t : τ} {es : List ε} (hR : R s t)
    (h : run step s es = some s') :
    ∃ t', Runs.run step' t es = some t' ∧ R s' t' := by
  induction es generalizing s t with
  | nil =>
    rw [run_nil] at h
    obtain rfl := Option.some.inj h
    exact ⟨t, rfl, hR⟩
  | cons e es ih =>
    obtain ⟨m, hm, hrest⟩ := run_cons_eq_some h
    obtain ⟨t', ht', hR'⟩ := hstep s t e m hR hm
    obtain ⟨t'', ht'', hR''⟩ := ih hR' hrest
    refine ⟨t'', ?_, hR''⟩
    rw [run_cons, ht']
    exact ht''

/-- Bisimulation of runs.  If related states take every event alike, the two runs stop at
the same event or end in related states. -/
theorem run_bisimulation {step' : τ → ε → Option τ} {R : σ → τ → Prop}
    (hstep : ∀ s t e, R s t → Option.Rel R (step s e) (step' t e)) {s : σ} {t : τ}
    {es : List ε} (hR : R s t) : Option.Rel R (run step s es) (Runs.run step' t es) := by
  induction es generalizing s t with
  | nil => exact .some hR
  | cons e es ih =>
    rw [run_cons, run_cons]
    cases hs : step s e with
    | none =>
      have hrel := hstep s t e hR
      rw [hs] at hrel
      cases ht : step' t e with
      | none => exact .none
      | some t' =>
        rw [ht] at hrel
        cases hrel
    | some s' =>
      have hrel := hstep s t e hR
      rw [hs] at hrel
      cases ht : step' t e with
      | none =>
        rw [ht] at hrel
        cases hrel
      | some t' =>
        rw [ht] at hrel
        cases hrel with
        | some hR' => exact ih hR'

end Runs
