import Mathlib.Data.Nat.Notation
import Mathlib.Logic.Function.Basic
import Spkdfs.Lib.Run

/-!
# Path locks

The class `PathLocks` of `common/pathlocks.cpp`: a `shared_mutex` for each key, and the way in
which the key was locked for the first time.  `unlock` looks at that way, not at the way in
which the key is held now.

The counters are not in the class.  They say how often a key was locked and unlocked, and
whether a mutex was ever unlocked that was not held in that way.  `Balanced` is what they
should say, for the number of times that each key is held.

In a run of calls the flag of a key agrees with the way in which it is held, as long as no key
is locked in both ways (`releases_of_sameMode`).
-/

namespace Spkdfs

/-- A `shared_mutex`, and whether its key was locked for writing at first. -/
structure PathLock where
  exclusive : Bool
  writer : Bool
  readers : ℕ
  deriving DecidableEq, Repr

/-- The mutex is held in the way that `unlock` expects. -/
def PathLock.isHeld (e : PathLock) : Bool :=
  if e.exclusive then e.writer else decide (0 < e.readers)

/-- A release in that way. -/
def PathLock.release (e : PathLock) : PathLock :=
  if e.exclusive then { e with writer := false } else { e with readers := e.readers - 1 }

/-- `PathLocks`. -/
structure PathLocks (κ : Type) where
  locks : κ → Option PathLock
  acquired : κ → ℕ
  released : κ → ℕ
  misused : Bool

namespace PathLocks

variable {κ : Type} [DecidableEq κ]

def empty : PathLocks κ := ⟨fun _ => none, fun _ => 0, fun _ => 0, false⟩

/-- The way in which a key was locked for the first time. -/
def mode (l : PathLocks κ) (key : κ) : Option Bool := (l.locks key).map PathLock.exclusive

/-- The entry of a key, which is made if it is not there. -/
def entry (l : PathLocks κ) (key : κ) (exclusive : Bool) : PathLock :=
  (l.locks key).getD ⟨exclusive, false, 0⟩

/-- A lock was taken. -/
def acquire (l : PathLocks κ) (key : κ) (e : PathLock) : PathLocks κ :=
  { l with
    locks := Function.update l.locks key (some e)
    acquired := Function.update l.acquired key (l.acquired key + 1) }

/-- `PathLocks::read_lock`.  It waits as long as somebody writes. -/
def readLock (l : PathLocks κ) (key : κ) : Option (PathLocks κ) :=
  let e := l.entry key false
  if e.writer then none else some (l.acquire key { e with readers := e.readers + 1 })

/-- `PathLocks::write_lock`.  It waits as long as somebody has the lock. -/
def writeLock (l : PathLocks κ) (key : κ) : Option (PathLocks κ) :=
  let e := l.entry key true
  if e.writer ∨ 0 < e.readers then none else some (l.acquire key { e with writer := true })

/-- `PathLocks::unlock`.  To unlock a mutex that is not held is undefined. -/
def unlock (l : PathLocks κ) (key : κ) : PathLocks κ :=
  match l.locks key with
  | none => l
  | some e =>
    { locks := Function.update l.locks key (some (e.release))
      acquired := l.acquired
      released := Function.update l.released key (l.released key + 1)
      misused := l.misused || !e.isHeld }

/-- How many times the mutex of a key is held. -/
def holders (l : PathLocks κ) (key : κ) : ℕ :=
  match l.locks key with
  | none => 0
  | some e => (if e.writer then 1 else 0) + e.readers

/-! ## Balanced locks -/

/-- How often an entry is held, if it is held in no other way than `unlock` expects. -/
inductive HeldBy : Option PathLock → ℕ → Prop
  | none : HeldBy none 0
  | free : HeldBy (some ⟨true, false, 0⟩) 0
  | writer : HeldBy (some ⟨true, true, 0⟩) 1
  | readers (n : ℕ) : HeldBy (some ⟨false, false, n⟩) n

/-- Each key is held so often, it was locked and unlocked accordingly, and nothing was unlocked
that was not held. -/
structure Balanced (held : κ → ℕ) (l : PathLocks κ) : Prop where
  entries : ∀ key, HeldBy (l.locks key) (held key)
  count : ∀ key, l.acquired key = l.released key + held key
  clean : l.misused = false

omit [DecidableEq κ] in
theorem balanced_empty : Balanced (fun _ => 0) (empty : PathLocks κ) :=
  ⟨fun _ => .none, fun _ => rfl, rfl⟩

variable {held : κ → ℕ} {l l' : PathLocks κ} {key : κ}

omit [DecidableEq κ] in
theorem Balanced.holders_eq (h : Balanced held l) (key : κ) : l.holders key = held key := by
  have hentry := h.entries key
  rw [holders]
  cases hlocks : l.locks key with
  | none =>
    rw [hlocks] at hentry
    generalize held key = n at hentry
    cases hentry
    rfl
  | some e =>
    rw [hlocks] at hentry
    generalize held key = n at hentry
    cases hentry with
    | free => rfl
    | writer => rfl
    | readers => exact Nat.zero_add n

/-- The lemma for both ways of locking. -/
theorem Balanced.acquire (h : Balanced held l) {e : PathLock}
    (he : HeldBy (some e) (held key + 1)) :
    Balanced (Function.update held key (held key + 1)) (l.acquire key e) := by
  refine ⟨fun k => ?_, fun k => ?_, h.clean⟩
  · by_cases hk : k = key
    · subst hk
      simpa only [PathLocks.acquire, Function.update_self] using he
    · simpa only [PathLocks.acquire, Function.update_of_ne hk] using h.entries k
  · by_cases hk : k = key
    · subst hk
      simp only [PathLocks.acquire, Function.update_self, h.count, Nat.add_assoc]
    · simpa only [PathLocks.acquire, Function.update_of_ne hk] using h.count k

/-- A lock for reading, of a key that was locked for reading at first. -/
theorem Balanced.readLock (h : Balanced held l) (hmode : l.mode key ≠ some true)
    (hlock : l.readLock key = some l') :
    Balanced (Function.update held key (held key + 1)) l' := by
  have hentry := h.entries key
  rw [PathLocks.readLock] at hlock
  split at hlock
  · cases hlock
  · cases hlock
    refine h.acquire ?_
    rw [entry]
    cases hlocks : l.locks key with
    | none =>
      rw [hlocks] at hentry
      cases hheld : held key with
      | zero => exact .readers 1
      | succ n =>
        rw [hheld] at hentry
        cases hentry
    | some e =>
      rw [hlocks] at hentry
      rw [mode, hlocks, Option.map_some, ne_eq, Option.some.injEq] at hmode
      rw [Option.getD_some]
      generalize held key = n at hentry ⊢
      cases hentry with
      | free => exact absurd rfl hmode
      | writer => exact absurd rfl hmode
      | readers => exact .readers (n + 1)

/-- A lock for writing, of a key that was locked for writing at first. -/
theorem Balanced.writeLock (h : Balanced held l) (hmode : l.mode key ≠ some false)
    (hlock : l.writeLock key = some l') :
    Balanced (Function.update held key (held key + 1)) l' := by
  have hentry := h.entries key
  rw [PathLocks.writeLock] at hlock
  split at hlock
  · cases hlock
  · rename_i hfree
    cases hlock
    refine h.acquire ?_
    rw [entry] at hfree ⊢
    cases hlocks : l.locks key with
    | none =>
      rw [hlocks] at hentry
      cases hheld : held key with
      | zero => exact .writer
      | succ n =>
        rw [hheld] at hentry
        cases hentry
    | some e =>
      rw [hlocks] at hentry hfree
      rw [mode, hlocks, Option.map_some, ne_eq, Option.some.injEq] at hmode
      rw [Option.getD_some] at hfree ⊢
      generalize held key = n at hentry ⊢
      cases hentry with
      | free => exact .writer
      | writer => exact absurd (Or.inl rfl) hfree
      | readers => exact absurd rfl hmode

/-- A release of a key that is held. -/
theorem Balanced.unlock (h : Balanced held l) {key : κ} (hheld : 0 < held key) :
    Balanced (Function.update held key (held key - 1)) (l.unlock key) := by
  have hentry := h.entries key
  have hcount := h.count key
  rw [PathLocks.unlock]
  cases hlocks : l.locks key with
  | none =>
    rw [hlocks] at hentry
    generalize held key = n at hentry hheld
    cases hentry
    exact absurd hheld (Nat.lt_irrefl 0)
  | some e =>
    rw [hlocks] at hentry
    have hrelease : e.isHeld = true ∧
        HeldBy (some (e.release)) (held key - 1) := by
      generalize held key = n at hentry hheld
      cases hentry with
      | free => exact absurd hheld (Nat.lt_irrefl 0)
      | writer => exact ⟨rfl, .free⟩
      | readers => exact ⟨decide_eq_true hheld, .readers (n - 1)⟩
    refine ⟨fun k => ?_, fun k => ?_, ?_⟩
    · by_cases hk : k = key
      · subst hk
        simpa only [Function.update_self] using hrelease.2
      · simpa only [Function.update_of_ne hk] using h.entries k
    · by_cases hk : k = key
      · subst hk
        simp only [Function.update_self]
        omega
      · simpa only [Function.update_of_ne hk] using h.count k
    · simp only [h.clean, hrelease.1, Bool.not_true, Bool.or_false]

/-- The release of the last lock that was taken. -/
theorem Balanced.release (h : Balanced (Function.update held key (held key + 1)) l) :
    Balanced held (l.unlock key) := by
  have hpos : 0 < Function.update held key (held key + 1) key := by
    rw [Function.update_self]
    exact Nat.succ_pos _
  have hunlock := h.unlock hpos
  rw [Function.update_self, Nat.add_sub_cancel, Function.update_idem,
    Function.update_eq_self] at hunlock
  exact hunlock

/-! ## The ways of locking -/

omit [DecidableEq κ] in
theorem exclusive_entry (l : PathLocks κ) (key : κ) (exclusive : Bool) :
    (l.entry key exclusive).exclusive = (l.mode key).getD exclusive := by
  rw [entry, mode]
  cases l.locks key <;> rfl

theorem mode_acquire (l : PathLocks κ) (key : κ) (e : PathLock) (k : κ) :
    (l.acquire key e).mode k = if k = key then some e.exclusive else l.mode k := by
  rw [mode, acquire]
  by_cases hk : k = key
  · subst hk
    simp
  · simp [hk, mode]

theorem mode_readLock (hlock : l.readLock key = some l') (k : κ) :
    l'.mode k = if k = key then some ((l.mode key).getD false) else l.mode k := by
  rw [readLock] at hlock
  split at hlock
  · cases hlock
  · cases hlock
    rw [mode_acquire, ← exclusive_entry]

theorem mode_writeLock (hlock : l.writeLock key = some l') (k : κ) :
    l'.mode k = if k = key then some ((l.mode key).getD true) else l.mode k := by
  rw [writeLock] at hlock
  split at hlock
  · cases hlock
  · cases hlock
    rw [mode_acquire, ← exclusive_entry]

theorem some_getD_ne {first : Option Bool} {exclusive : Bool} (h : first ≠ some (!exclusive)) :
    some (first.getD exclusive) ≠ some (!exclusive) := by
  cases first with
  | none => cases exclusive <;> decide
  | some first => exact h

/-- A key that was not locked for writing at first is not after a lock for reading. -/
theorem mode_readLock_ne (hlock : l.readLock key = some l') {k : κ} (h : l.mode k ≠ some true) :
    l'.mode k ≠ some true := by
  rw [mode_readLock hlock]
  split
  · rename_i hk
    exact some_getD_ne (hk ▸ h)
  · exact h

theorem mode_writeLock_ne (hlock : l.writeLock key = some l') {k : κ} (h : l.mode k ≠ some false) :
    l'.mode k ≠ some false := by
  rw [mode_writeLock hlock]
  split
  · rename_i hk
    exact some_getD_ne (hk ▸ h)
  · exact h

theorem mode_unlock (l : PathLocks κ) (key k : κ) : (l.unlock key).mode k = l.mode k := by
  rw [unlock]
  cases hlocks : l.locks key with
  | none => rfl
  | some e =>
    rw [mode, mode]
    by_cases hk : k = key
    · subst hk
      rw [hlocks]
      simp only [Function.update_self, Option.map_some, PathLock.release]
      split <;> rfl
    · simp only [Function.update_of_ne hk]

/-! ## Runs -/

/-- A call that returns. -/
inductive Event (κ : Type)
  | readLock (key : κ)
  | writeLock (key : κ)
  | unlock (key : κ)
  deriving DecidableEq

/-- One call.  A lock that has to wait is not taken yet. -/
def step (l : PathLocks κ) : Event κ → Option (PathLocks κ)
  | .readLock key => l.readLock key
  | .writeLock key => l.writeLock key
  | .unlock key => some (l.unlock key)

/-- The way in which the mutex of a key is held now: by a writer, or by readers. -/
def heldMode (l : PathLocks κ) (key : κ) : Option Bool :=
  match l.locks key with
  | none => none
  | some e => if e.writer then some true else if 0 < e.readers then some false else none

/-- `unlock` of a key that is held releases it in that way: it unlocks for writing if the flag
of the key says so, and for reading otherwise. -/
def Releases (l : PathLocks κ) : Prop := ∀ key held, l.heldMode key = some held →
  l.mode key = some held

/-- Only a holder of a key unlocks it. -/
def Event.ByHolder (l : PathLocks κ) : Event κ → Prop
  | .readLock _ | .writeLock _ => True
  | .unlock key => l.heldMode key ≠ none

/-- A key that was locked before is locked in the same way as it was locked at first. -/
def Event.SameMode (l : PathLocks κ) : Event κ → Prop
  | .readLock key => l.mode key ≠ some true
  | .writeLock key => l.mode key ≠ some false
  | .unlock _ => True

instance (l : PathLocks κ) (ev : Event κ) : Decidable (ev.ByHolder l) :=
  match ev with
  | .readLock _ | .writeLock _ => isTrue trivial
  | .unlock _ => inferInstanceAs (Decidable (_ ≠ _))

instance (l : PathLocks κ) (ev : Event κ) : Decidable (ev.SameMode l) :=
  match ev with
  | .readLock _ | .writeLock _ => inferInstanceAs (Decidable (_ ≠ _))
  | .unlock _ => isTrue trivial

section Runs

variable {ev : Event κ}

omit [DecidableEq κ] in
theorem Balanced.releases (h : Balanced held l) : l.Releases := by
  intro key m hm
  have hentry := h.entries key
  rw [heldMode] at hm
  rw [mode]
  cases hlocks : l.locks key with
  | none => simp [hlocks] at hm
  | some e =>
    rw [hlocks] at hentry
    simp only [hlocks] at hm
    generalize held key = n at hentry
    cases hentry with
    | free => simp at hm
    | writer => simpa using hm
    | readers => simp_all

omit [DecidableEq κ] in
theorem Balanced.pos_of_heldMode (h : Balanced held l) {key : κ} (hheld : l.heldMode key ≠ none) :
    0 < held key := by
  have hentry := h.entries key
  rw [heldMode] at hheld
  cases hlocks : l.locks key with
  | none => simp [hlocks] at hheld
  | some e =>
    rw [hlocks] at hentry
    simp only [hlocks] at hheld
    generalize held key = n at hentry
    cases hentry with
    | free => simp at hheld
    | writer => omega
    | readers =>
      by_contra hzero
      simp [hzero] at hheld

/-- A key that was just locked is held in that way. -/
theorem heldMode_readLock (hlock : l.readLock key = some l') : l'.heldMode key = some false := by
  rw [readLock] at hlock
  split at hlock
  · cases hlock
  · rename_i hwriter
    cases hlock
    simp [heldMode, acquire, hwriter]

theorem heldMode_writeLock (hlock : l.writeLock key = some l') : l'.heldMode key = some true := by
  rw [writeLock] at hlock
  split at hlock
  · cases hlock
  · cases hlock
    simp [heldMode, acquire]

theorem balanced_step (h : Balanced held l) (hholder : ev.ByHolder l) (hmode : ev.SameMode l)
    (hstep : step l ev = some l') : ∃ held', Balanced held' l' := by
  cases ev with
  | readLock key => exact ⟨_, h.readLock hmode hstep⟩
  | writeLock key => exact ⟨_, h.writeLock hmode hstep⟩
  | unlock key =>
    cases hstep
    exact ⟨_, h.unlock (h.pos_of_heldMode hholder)⟩

/-- A lock in the other way leaves a key whose release is the wrong one. -/
theorem sameMode_of_releases (hstep : step l ev = some l') (h : l'.Releases) : ev.SameMode l := by
  cases ev with
  | readLock key =>
    intro hmode
    have hflag := h key false (heldMode_readLock hstep)
    rw [mode_readLock hstep, if_pos rfl, hmode] at hflag
    simp at hflag
  | writeLock key =>
    intro hmode
    have hflag := h key true (heldMode_writeLock hstep)
    rw [mode_writeLock hstep, if_pos rfl, hmode] at hflag
    simp at hflag
  | unlock key => trivial

/-- In every run in which no key is locked in both ways, `unlock` releases each key in the way
in which it is held.  A further call keeps this if and only if it locks its key in the way in
which it was locked at first. -/
theorem releases_of_sameMode
    (h : Runs.Reach step (fun l ev => ev.ByHolder l ∧ ev.SameMode l) (empty : PathLocks κ) l) :
    l.Releases ∧ l.misused = false ∧
      ∀ ev l', ev.ByHolder l → step l ev = some l' → (l'.Releases ↔ ev.SameMode l) := by
  have hbalanced : ∃ held, Balanced held l :=
    h.invariant (I := fun l => ∃ held, Balanced held l) ⟨_, balanced_empty⟩
      fun _ _ _ _ hs hok hstep => by
        obtain ⟨held, hs⟩ := hs
        exact balanced_step hs hok.1 hok.2 hstep
  obtain ⟨held, hbalanced⟩ := hbalanced
  refine ⟨hbalanced.releases, hbalanced.clean, fun ev l' hholder hstep => ⟨?_, fun hmode => ?_⟩⟩
  · exact sameMode_of_releases hstep
  · obtain ⟨held', h'⟩ := balanced_step hbalanced hholder hmode hstep
    exact h'.releases

/-- Two readers of one key, and a writer of another one. -/
theorem releases_twoKeys :
    ∃ l : PathLocks String,
      Runs.Reach step (fun l ev => ev.ByHolder l ∧ ev.SameMode l) empty l ∧
        l.heldMode "/a" = some false ∧ l.heldMode "/b" = some true ∧ l.Releases := by
  have hrun : ∃ l : PathLocks String,
      Runs.Reach step (fun l ev => ev.ByHolder l ∧ ev.SameMode l) empty l ∧
        decide (l.heldMode "/a" = some false ∧ l.heldMode "/b" = some true) = true :=
    Runs.exists_reach_of_any_guarded
      [.readLock "/a", .readLock "/a", .unlock "/a", .writeLock "/b", .unlock "/b",
        .writeLock "/b"] (by decide)
  obtain ⟨l, hreach, htest⟩ := hrun
  obtain ⟨ha, hb⟩ := of_decide_eq_true htest
  exact ⟨l, hreach, ha, hb, (releases_of_sameMode hreach).1⟩

/-- A key that was read at first is locked for writing. -/
theorem not_releases_readThenWrite :
    ¬ ∀ l : PathLocks String, Runs.Reach step (fun l ev => ev.ByHolder l) empty l →
      l.Releases := by
  intro h
  have hrun : ∃ l : PathLocks String, Runs.Reach step (fun l ev => ev.ByHolder l) empty l ∧
      decide (l.heldMode "/a" = some true ∧ l.mode "/a" = some false) = true :=
    Runs.exists_reach_of_any_guarded [.readLock "/a", .unlock "/a", .writeLock "/a"] (by decide)
  obtain ⟨l, hreach, htest⟩ := hrun
  obtain ⟨hheld, hmode⟩ := of_decide_eq_true htest
  have hflag := h l hreach "/a" true hheld
  rw [hmode] at hflag
  cases hflag

end Runs

end PathLocks

end Spkdfs
