import Mathlib.Order.Defs.Unbundled

/-!
# Calls that leave effects behind

A call that reads and writes a state and may fail is an `EStateM`: what it has
written before it fails stays written.

`after` is the state that a call leaves, however it ends.  `Within R` says that a
call changes the state by `R` at most, also when it fails.  For a reflexive and
transitive `R` this is checked one operation at a time (`Within.bind`).

`orElse` tries a second call after some of the errors of a first one, and `recover` answers
some of them.

`Ensures` is for the calls where the way in which they end counts: one postcondition for a
call that returns, one for a call that throws.  `onFst` runs a call on a part of the state,
and `Erases` says that a call on the whole state is such a call but for what it does to the
other part.
-/

namespace Effects

variable {ε σ α β : Type}

/-- A call that only computes. -/
def lift (r : Except ε α) : EStateM ε σ α :=
  match r with
  | .ok a => pure a
  | .error e => throw e

theorem run_lift_eq_ok {r : Except ε α} {s s' : σ} {a : α} :
    (lift r : EStateM ε σ α).run s = .ok a s' ↔ r = .ok a ∧ s' = s := by
  cases r with
  | error e =>
    constructor
    · intro h
      cases h
    · intro h
      cases h.1
  | ok b => simp [lift, eq_comm]

theorem run_lift_of_error {r : Except ε α} {e : ε} (h : r = .error e) (s : σ) :
    (lift r : EStateM ε σ α).run s = .error e s := by
  rw [h]
  rfl

/-- A call that returns has returned at every step. -/
theorem run_bind_eq_ok {m : EStateM ε σ α} {f : α → EStateM ε σ β} {s s' : σ} {b : β} :
    (m >>= f).run s = .ok b s' ↔ ∃ a s₁, m.run s = .ok a s₁ ∧ (f a).run s₁ = .ok b s' := by
  rw [EStateM.run_bind]
  cases m.run s with
  | error e s₁ => simp
  | ok a s₁ =>
    constructor
    · intro h
      exact ⟨a, s₁, rfl, h⟩
    · rintro ⟨a', s₂, h, hf⟩
      cases h
      exact hf

theorem run_bind_of_ok {m : EStateM ε σ α} {s s₁ : σ} {a : α} (h : m.run s = .ok a s₁)
    (f : α → EStateM ε σ β) : (m >>= f).run s = (f a).run s₁ := by
  rw [EStateM.run_bind, h]

theorem run_bind_of_error {m : EStateM ε σ α} {s s₁ : σ} {e : ε} (h : m.run s = .error e s₁)
    (f : α → EStateM ε σ β) : (m >>= f).run s = .error e s₁ := by
  rw [EStateM.run_bind, h]

/-- Two sequences of calls do the same if their calls do, where they run. -/
theorem run_bind_congr {m m' : EStateM ε σ α} {f g : α → EStateM ε σ β} {s : σ}
    (hm : m.run s = m'.run s)
    (hf : ∀ a s₁, m'.run s = .ok a s₁ → (f a).run s₁ = (g a).run s₁) :
    (m >>= f).run s = (m' >>= g).run s := by
  rw [EStateM.run_bind, EStateM.run_bind, hm]
  cases h : m'.run s with
  | error e s₁ => rfl
  | ok a s₁ => exact hf a s₁ h

theorem run_get_bind (f : σ → EStateM ε σ β) (s : σ) : (getThe σ >>= f).run s = (f s).run s := rfl

theorem run_modify_bind (g : σ → σ) (f : PUnit → EStateM ε σ β) (s : σ) :
    (modify g >>= f).run s = (f ⟨⟩).run (g s) := rfl

/-- What a call answers. -/
def answer (m : EStateM ε σ α) (s : σ) : Except ε α :=
  match m.run s with
  | .ok a _ => .ok a
  | .error e _ => .error e

theorem answer_eq_ok {m : EStateM ε σ α} {s : σ} {a : α} :
    answer m s = .ok a ↔ ∃ s', m.run s = .ok a s' := by
  rw [answer]
  cases m.run s with
  | error e s' => simp
  | ok b s' => simp

theorem answer_of_ok {m : EStateM ε σ α} {s s' : σ} {a : α} (h : m.run s = .ok a s') :
    answer m s = .ok a := by
  rw [answer, h]

/-- The state that a call leaves. -/
def after (m : EStateM ε σ α) (s : σ) : σ :=
  match m.run s with
  | .ok _ s' => s'
  | .error _ s' => s'

theorem after_of_ok {m : EStateM ε σ α} {s s' : σ} {a : α} (h : m.run s = .ok a s') :
    after m s = s' := by
  rw [after, h]

theorem after_of_error {m : EStateM ε σ α} {s s' : σ} {e : ε} (h : m.run s = .error e s') :
    after m s = s' := by
  rw [after, h]

@[simp] theorem after_pure (a : α) (s : σ) : after (pure a : EStateM ε σ α) s = s := rfl

@[simp] theorem after_throw (e : ε) (s : σ) : after (throw e : EStateM ε σ α) s = s := rfl

@[simp] theorem after_lift (r : Except ε α) (s : σ) : after (lift r : EStateM ε σ α) s = s := by
  cases r <;> rfl

/-- Reading the state changes nothing. -/
theorem after_get_bind (f : σ → EStateM ε σ β) (s : σ) :
    after (getThe σ >>= f) s = after (f s) s := rfl

theorem after_modify_bind (g : σ → σ) (f : PUnit → EStateM ε σ β) (s : σ) :
    after (modify g >>= f) s = after (f ⟨⟩) (g s) := rfl

theorem after_bind_of_ok {m : EStateM ε σ α} {s s₁ : σ} {a : α} (h : m.run s = .ok a s₁)
    (f : α → EStateM ε σ β) : after (m >>= f) s = after (f a) s₁ := by
  rw [after, run_bind_of_ok h, after]

/-- A sequence of two calls leaves what the first one leaves, or what the second one
makes of it. -/
theorem after_bind (m : EStateM ε σ α) (f : α → EStateM ε σ β) (s : σ) :
    after (m >>= f) s = after m s ∨
      ∃ a s₁, m.run s = .ok a s₁ ∧ after m s = s₁ ∧ after (m >>= f) s = after (f a) s₁ := by
  cases h : m.run s with
  | error e s₁ =>
    left
    rw [after_of_error (run_bind_of_error h f), after_of_error h]
  | ok a s₁ =>
    right
    exact ⟨a, s₁, rfl, after_of_ok h, after_bind_of_ok h f⟩

/-- What comes behind a call may change nothing. -/
theorem after_bind_of_silent {f : α → EStateM ε σ β} (hf : ∀ a s, after (f a) s = s)
    (m : EStateM ε σ α) (s : σ) : after (m >>= f) s = after m s := by
  rcases after_bind m f s with h | ⟨a, s₁, _, hs₁, h⟩
  · exact h
  · rw [h, hf, hs₁]

/-- What holds before still holds after. -/
def Keeps (I : σ → Prop) (s s' : σ) : Prop := I s → I s'

instance (I : σ → Prop) : IsPreorder σ (Keeps I) where
  refl _ := id
  trans _ _ _ h₁ h₂ := h₂ ∘ h₁

/-- Every call changes the state by `R` at most. -/
def Within (R : σ → σ → Prop) (m : EStateM ε σ α) : Prop := ∀ s, R s (after m s)

section Preorder

variable {R : σ → σ → Prop} [IsPreorder σ R]

theorem Within.pure (a : α) : Within R (pure a : EStateM ε σ α) := fun s => refl_of R s

theorem Within.throw (e : ε) : Within R (throw e : EStateM ε σ α) := fun s => refl_of R s

theorem Within.lift (r : Except ε α) : Within R (lift r : EStateM ε σ α) := by
  intro s
  rw [after_lift]
  exact refl_of R s

theorem Within.bind {m : EStateM ε σ α} {f : α → EStateM ε σ β} (hm : Within R m)
    (hf : ∀ a, Within R (f a)) : Within R (m >>= f) := by
  intro s
  rcases after_bind m f s with h | ⟨a, s₁, _, hs₁, h⟩
  · rw [h]
    exact hm s
  · rw [h]
    exact trans_of R (hs₁ ▸ hm s) (hf a s₁)

end Preorder

/-! ## Postconditions -/

section Ensures

variable {m : EStateM ε σ α} {f : α → EStateM ε σ β} {s : σ} {Q : β → σ → Prop}
  {E : ε → σ → Prop}

/-- From this state, the call returns with `Q` or throws with `E`. -/
def Ensures (m : EStateM ε σ α) (s : σ) (Q : α → σ → Prop) (E : ε → σ → Prop) : Prop :=
  match m.run s with
  | .ok a s' => Q a s'
  | .error e s' => E e s'

theorem ensures_of_ok {Q : α → σ → Prop} {s' : σ} {a : α} (h : m.run s = .ok a s')
    (hQ : Q a s') : Ensures m s Q E := by
  rw [Ensures, h]
  exact hQ

theorem ensures_of_error {Q : α → σ → Prop} {s' : σ} {e : ε} (h : m.run s = .error e s')
    (hE : E e s') : Ensures m s Q E := by
  rw [Ensures, h]
  exact hE

theorem Ensures.of_ok {Q : α → σ → Prop} {s' : σ} {a : α} (h : Ensures m s Q E)
    (hrun : m.run s = .ok a s') : Q a s' := by
  rw [Ensures, hrun] at h
  exact h

theorem Ensures.of_error {Q : α → σ → Prop} {s' : σ} {e : ε} (h : Ensures m s Q E)
    (hrun : m.run s = .error e s') : E e s' := by
  rw [Ensures, hrun] at h
  exact h

theorem ensures_congr {m' : EStateM ε σ α} {Q : α → σ → Prop} (h : m.run s = m'.run s) :
    Ensures m s Q E ↔ Ensures m' s Q E := by
  rw [Ensures, h, Ensures]

theorem Ensures.mono {Q Q' : α → σ → Prop} {E' : ε → σ → Prop} (h : Ensures m s Q E)
    (hQ : ∀ a s', Q a s' → Q' a s') (hE : ∀ e s', E e s' → E' e s') : Ensures m s Q' E' := by
  cases hrun : m.run s with
  | ok a s' => exact ensures_of_ok hrun (hQ a s' (h.of_ok hrun))
  | error e s' => exact ensures_of_error hrun (hE e s' (h.of_error hrun))

theorem Ensures.bind (h : Ensures m s (fun a s₁ => Ensures (f a) s₁ Q E) E) :
    Ensures (m >>= f) s Q E := by
  cases hrun : m.run s with
  | ok a s₁ =>
    have hnext := h.of_ok hrun
    rw [Ensures, run_bind_of_ok hrun]
    exact hnext
  | error e s₁ => exact ensures_of_error (run_bind_of_error hrun f) (h.of_error hrun)

theorem Within.ensures {R : σ → σ → Prop} (h : Within R m) (s : σ) :
    Ensures m s (fun _ s' => R s s') fun _ s' => R s s' := by
  cases hrun : m.run s with
  | ok a s' => exact ensures_of_ok hrun (after_of_ok hrun ▸ h s)
  | error e s' => exact ensures_of_error hrun (after_of_error hrun ▸ h s)

end Ensures

/-! ## Errors that do not end a call -/

section Errors

/-- After one of these errors the second call is tried. -/
def orElse (again : ε → Bool) (m m' : EStateM ε σ α) : EStateM ε σ α := fun s =>
  match m.run s with
  | .ok a s' => .ok a s'
  | .error e s' => if again e then m'.run s' else .error e s'

/-- Some of the errors get an answer. -/
def recover (code : ε → Option α) (m : EStateM ε σ α) : EStateM ε σ α := fun s =>
  match m.run s with
  | .ok a s' => .ok a s'
  | .error e s' =>
    match code e with
    | none => .error e s'
    | some a => .ok a s'

variable {again : ε → Bool} {code : ε → Option α} {m m' : EStateM ε σ α} {s s' : σ}

theorem run_orElse_of_ok {a : α} (h : m.run s = .ok a s') :
    (orElse again m m').run s = .ok a s' := by
  show orElse again m m' s = _
  rw [orElse, h]

theorem run_orElse_of_error {e : ε} (h : m.run s = .error e s') :
    (orElse again m m').run s = if again e then m'.run s' else .error e s' := by
  show orElse again m m' s = _
  rw [orElse, h]

theorem run_recover_of_ok {a : α} (h : m.run s = .ok a s') :
    (recover code m).run s = .ok a s' := by
  show recover code m s = _
  rw [recover, h]

theorem run_recover_of_error {e : ε} (h : m.run s = .error e s') :
    (recover code m).run s =
      match code e with
      | none => .error e s'
      | some a => .ok a s' := by
  show recover code m s = _
  rw [recover, h]

@[simp] theorem after_recover (s : σ) : after (recover code m) s = after m s := by
  cases h : m.run s with
  | ok a s' => rw [after_of_ok (run_recover_of_ok h), after_of_ok h]
  | error e s' =>
    rw [after_of_error h]
    cases hcode : code e with
    | none =>
      refine after_of_error (e := e) ?_
      rw [run_recover_of_error h, hcode]
    | some a =>
      refine after_of_ok (a := a) ?_
      rw [run_recover_of_error h, hcode]

end Errors

/-! ## A state with a second part -/

section Parts

variable {τ : Type}

/-- A call that does not look at the second part of the state. -/
def onFst (m : EStateM ε σ α) : EStateM ε (σ × τ) α := fun s =>
  match m.run s.1 with
  | .ok a s₁ => .ok a (s₁, s.2)
  | .error e s₁ => .error e (s₁, s.2)

theorem run_onFst_of_ok {m : EStateM ε σ α} {s : σ × τ} {s₁ : σ} {a : α}
    (h : m.run s.1 = .ok a s₁) : (onFst m : EStateM ε (σ × τ) α).run s = .ok a (s₁, s.2) := by
  show onFst m s = _
  rw [onFst, h]

theorem run_onFst_of_error {m : EStateM ε σ α} {s : σ × τ} {s₁ : σ} {e : ε}
    (h : m.run s.1 = .error e s₁) : (onFst m : EStateM ε (σ × τ) α).run s = .error e (s₁, s.2) := by
  show onFst m s = _
  rw [onFst, h]

theorem run_onFst_congr {m m' : EStateM ε σ α} {s : σ × τ} (h : m.run s.1 = m'.run s.1) :
    (onFst m : EStateM ε (σ × τ) α).run s = (onFst m').run s := by
  show onFst m s = onFst m' s
  rw [onFst, h, onFst]

theorem run_onFst_get_bind (f : σ → EStateM ε (σ × τ) β) (s : σ × τ) :
    (onFst (getThe σ) >>= f).run s = (f s.1).run s := rfl

theorem Ensures.onFst {m : EStateM ε σ α} {s : σ × τ} {Q : α → σ × τ → Prop}
    {E : ε → σ × τ → Prop}
    (h : Ensures m s.1 (fun a s₁ => Q a (s₁, s.2)) fun e s₁ => E e (s₁, s.2)) :
    Ensures (onFst m) s Q E := by
  cases hrun : m.run s.1 with
  | ok a s₁ => exact ensures_of_ok (run_onFst_of_ok hrun) (h.of_ok hrun)
  | error e s₁ => exact ensures_of_error (run_onFst_of_error hrun) (h.of_error hrun)

/-- On the first part of the state the call does what `m'` does, unless it ends with one of
these errors. -/
def Erases (skip : ε → Prop) (m : EStateM ε (σ × τ) α) (m' : EStateM ε σ α) : Prop :=
  ∀ s, Ensures m s (fun a s' => m'.run s.1 = .ok a s'.1)
    fun e s' => skip e ∨ m'.run s.1 = .error e s'.1

variable {skip : ε → Prop}

theorem erases_onFst (m : EStateM ε σ α) : Erases skip (onFst m : EStateM ε (σ × τ) α) m := by
  intro s
  refine Ensures.onFst ?_
  cases hrun : m.run s.1 with
  | ok a s₁ => exact ensures_of_ok hrun rfl
  | error e s₁ => exact ensures_of_error hrun (Or.inr rfl)

theorem erases_pure (a : α) : Erases skip (pure a : EStateM ε (σ × τ) α) (pure a) := fun _ => rfl

theorem erases_throw (e : ε) :
    Erases skip (throw e : EStateM ε (σ × τ) α) (throw e) := fun _ => Or.inr rfl

/-- On the first part of the state the call changes by `R` at most, unless it ends with one of
these errors. -/
def WithinFst (skip : ε → Prop) (R : σ → σ → Prop) (m : EStateM ε (σ × τ) α) : Prop :=
  ∀ s, Ensures m s (fun _ s' => R s.1 s'.1) fun e s' => skip e ∨ R s.1 s'.1

theorem Erases.within {R : σ → σ → Prop} {m : EStateM ε (σ × τ) α} {m' : EStateM ε σ α}
    (h : Erases skip m m') (hm : Within R m') : WithinFst skip R m := by
  intro s
  refine (h s).mono (fun a s' hrun => ?_) fun e s' he => he.imp_right fun hrun => ?_
  · exact after_of_ok hrun ▸ hm s.1
  · exact after_of_error hrun ▸ hm s.1

theorem WithinFst.bind {R : σ → σ → Prop} [IsPreorder σ R] {m : EStateM ε (σ × τ) α}
    {f : α → EStateM ε (σ × τ) β} (hm : WithinFst skip R m) (hf : ∀ a, WithinFst skip R (f a)) :
    WithinFst skip R (m >>= f) := by
  intro s
  refine Ensures.bind ((hm s).mono (fun a s₁ h₁ => ?_) fun e s₁ he => he)
  exact (hf a s₁).mono (fun b s₂ h₂ => trans_of R h₁ h₂)
    fun e s₂ he => he.imp_right fun h₂ => trans_of R h₁ h₂

theorem Erases.bind {m : EStateM ε (σ × τ) α} {m' : EStateM ε σ α} {f : α → EStateM ε (σ × τ) β}
    {f' : α → EStateM ε σ β} (hm : Erases skip m m') (hf : ∀ a, Erases skip (f a) (f' a)) :
    Erases skip (m >>= f) (m' >>= f') := by
  intro s
  refine Ensures.bind ((hm s).mono (fun a s₁ ha => ?_) fun e s₁ he => ?_)
  · rw [run_bind_of_ok ha]
    exact hf a s₁
  · exact he.imp_right fun h => run_bind_of_error h f'

/-- Calls that leave the first part of the state alone. -/
theorem Erases.then_silent {m n : EStateM ε (σ × τ) Unit} {m' : EStateM ε σ Unit}
    (hm : Erases skip m m') (hn : Erases skip n (pure ())) :
    Erases skip (m >>= fun _ => n) m' := by
  have h := hm.bind fun _ => hn
  rw [bind_pure_unit] at h
  exact h

theorem Erases.silent_then {m : EStateM ε (σ × τ) α} {n : EStateM ε (σ × τ) Unit}
    {m' : EStateM ε σ α} (hn : Erases skip n (pure ())) (hm : Erases skip m m') :
    Erases skip (n >>= fun _ => m) m' := by
  have h := hn.bind fun _ => hm
  rw [pure_bind] at h
  exact h

end Parts

end Effects
