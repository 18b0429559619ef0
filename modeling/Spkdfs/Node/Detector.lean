import Mathlib.Data.List.Basic
import Spkdfs.Lib.Run

/-!
# The failure detector of a datanode

The leader of the datanodes scans the namenodes every few seconds.  The scans run in the thread
of an `IntervalTimer` (`common/utils.cpp`), and `nn_timer` of `RaftDN` points to it.  `on_apply`
of `node/raft_dn.cpp` starts the timer when the node is the leader, and deletes it when it is
not.

A new timer replaces the pointer to the old one, and the old thread goes on.  `Ready` says when
there is no old thread, and then at most one thread runs at any time (`atMostOne_of_ready`).

Whether the node is the leader is what braft says (`leader_id`).  `RaftDN::leader` answers the
ip of the node also when braft knows no leader.
-/

namespace Spkdfs

/-- The thread of an `IntervalTimer`: it waits and scans, it is in `timeoutFunc` since the scan
has thrown a `TimeoutException`, or it is over. -/
inductive TimerState
  | running
  | callback
  | stopped
  deriving DecidableEq

/-- The timers of a node in the order of their construction, and `nn_timer`. -/
structure Detector where
  timers : List TimerState
  nnTimer : Option ℕ
  deriving DecidableEq

/-- A call of `on_apply`, with the answer of `leader_id`, and what the threads do. -/
inductive DetectorEvent
  | onApply (leaderId : Option String)
  | timeout (i : ℕ)
  | callbackEnds (i : ℕ)
  deriving DecidableEq

/-- `RaftDN::leader`, up to its port. -/
def RaftDN.leader (myIp : String) (leaderId : Option String) : String := leaderId.getD myIp

namespace Detector

def init : Detector := ⟨[], none⟩

/-- `IntervalTimer::~IntervalTimer`, which joins the thread. -/
def deleteTimer (d : Detector) : Detector :=
  match d.nnTimer with
  | none => d
  | some i => ⟨d.timers.set i .stopped, none⟩

/-- `new IntervalTimer`. -/
def newTimer (d : Detector) : Detector := ⟨d.timers ++ [.running], some d.timers.length⟩

/-- The end of `RaftDN::on_apply`. -/
def onApply (myIp : String) (d : Detector) (leaderId : Option String) : Detector :=
  if RaftDN.leader myIp leaderId ≠ myIp then d.deleteTimer else d.newTimer

/-- One event. -/
def step (myIp : String) (d : Detector) : DetectorEvent → Option Detector
  | .onApply leaderId => some (d.onApply myIp leaderId)
  | .timeout i =>
    if d.timers[i]? = some .running then some { d with timers := d.timers.set i .callback }
    else none
  | .callbackEnds i =>
    if d.timers[i]? = some .callback then some { d with timers := d.timers.set i .stopped }
    else none

/-- The thread of the timer is not over. -/
def Active (d : Detector) (i : ℕ) : Prop := ∃ t, d.timers[i]? = some t ∧ t ≠ .stopped

def AtMostOne (d : Detector) : Prop := ∀ i j, d.Active i → d.Active j → i = j

/-- No thread is left. -/
def idle (d : Detector) : Bool := d.timers.all (· = .stopped)

theorem idle_iff {d : Detector} : d.idle = true ↔ ∀ i, ¬ d.Active i := by
  unfold idle Active
  rw [List.all_eq_true]
  constructor
  · rintro h i ⟨t, ht, hne⟩
    exact hne (of_decide_eq_true (h t (List.mem_of_getElem? ht)))
  · intro h t ht
    obtain ⟨i, hi⟩ := List.mem_iff_getElem?.mp ht
    by_contra hne
    exact h i ⟨t, hi, by simpa using hne⟩

/-- What is asked of an event: at most one thread, and none after an `on_apply` of a node that
is not the leader. -/
def Keeps (myIp : String) (ev : DetectorEvent) (d' : Detector) : Prop :=
  d'.AtMostOne ∧ ∀ leaderId, ev = .onApply leaderId → leaderId ≠ some myIp → d'.idle = true

/-- `on_apply` is called while braft knows the leader, and on the leader no thread is left of
the timers before. -/
def Ready (myIp : String) (d : Detector) : DetectorEvent → Prop
  | .onApply leaderId => leaderId ≠ none ∧ (leaderId = some myIp → d.idle = true)
  | .timeout _ | .callbackEnds _ => True

instance (myIp : String) (d : Detector) (ev : DetectorEvent) : Decidable (d.Ready myIp ev) :=
  match ev with
  | .onApply _ => inferInstanceAs (Decidable (_ ∧ _))
  | .timeout _ | .callbackEnds _ => isTrue trivial

/-! ## One event -/

variable {myIp : String} {d d' : Detector} {ev : DetectorEvent} {i : ℕ}

/-- Every thread is the one of `nn_timer`. -/
def Owned (d : Detector) : Prop := ∀ i, d.Active i → d.nnTimer = some i

theorem Owned.atMostOne (h : d.Owned) : d.AtMostOne := by
  intro i j hi hj
  have hsame := (h i hi).symm.trans (h j hj)
  exact Option.some.inj hsame

theorem active_newTimer : d.newTimer.Active i ↔ d.Active i ∨ i = d.timers.length := by
  unfold Active newTimer
  simp only [List.getElem?_append, List.getElem?_singleton]
  constructor
  · rintro ⟨t, ht, hne⟩
    split at ht
    · exact Or.inl ⟨t, ht, hne⟩
    · split at ht
      · exact Or.inr (by omega)
      · cases ht
  · rintro (⟨t, ht, hne⟩ | rfl)
    · refine ⟨t, ?_, hne⟩
      rw [if_pos (List.getElem?_eq_some_iff.mp ht).1, ht]
    · exact ⟨.running, by simp, by decide⟩

/-- A thread whose timer is stopped is over, and no other thread changes. -/
theorem active_of_set_stopped {ptr : Option ℕ} {j : ℕ}
    (h : (⟨d.timers.set i .stopped, ptr⟩ : Detector).Active j) : d.Active j ∧ j ≠ i := by
  obtain ⟨t, ht, hne⟩ := h
  have hji : j ≠ i := by
    rintro rfl
    obtain ⟨hlt, hget⟩ := List.getElem?_eq_some_iff.mp ht
    rw [List.getElem_set_self] at hget
    exact hne hget.symm
  refine ⟨⟨t, ?_, hne⟩, hji⟩
  simpa [List.getElem?_set_ne (Ne.symm hji)] using ht

theorem idle_deleteTimer (h : d.Owned) : d.deleteTimer.idle = true := by
  rw [idle_iff]
  intro j hj
  unfold deleteTimer at hj
  cases hptr : d.nnTimer with
  | none =>
    simp only [hptr] at hj
    have := h j hj
    rw [hptr] at this
    cases this
  | some i =>
    simp only [hptr] at hj
    obtain ⟨hj', hji⟩ := active_of_set_stopped hj
    have := (h j hj').symm.trans hptr
    exact hji (Option.some.inj this)

theorem owned_of_idle (h : d.idle = true) : d.Owned :=
  fun i hi => absurd hi (idle_iff.mp h i)

/-- With no thread left, a new timer is the only one. -/
theorem owned_newTimer (h : d.idle = true) : d.newTimer.Owned := by
  intro i hi
  rcases active_newTimer.mp hi with hold | rfl
  · exact absurd hold (idle_iff.mp h i)
  · rfl

theorem owned_step (h : d.Owned) (hready : d.Ready myIp ev) (hstep : d.step myIp ev = some d') :
    d'.Owned := by
  cases ev with
  | onApply leaderId =>
    cases hstep
    unfold onApply
    split
    · exact owned_of_idle (idle_deleteTimer h)
    · rename_i hleader
      obtain ⟨hknown, hidle⟩ := hready
      obtain ⟨ip, rfl⟩ := Option.ne_none_iff_exists'.mp hknown
      exact owned_newTimer (hidle (by simpa [RaftDN.leader] using hleader))
  | timeout i =>
    simp only [step] at hstep
    split at hstep
    · rename_i hrun
      cases hstep
      rintro j ⟨t, ht, hne⟩
      by_cases hji : j = i
      · subst hji
        exact h j ⟨.running, hrun, by decide⟩
      · exact h j ⟨t, by simpa [List.getElem?_set_ne (Ne.symm hji)] using ht, hne⟩
    · cases hstep
  | callbackEnds i =>
    simp only [step] at hstep
    split at hstep
    · cases hstep
      intro j hj
      exact h j (active_of_set_stopped hj).1
    · cases hstep

/-- A node that is not the leader, and knows who is, deletes its timer. -/
theorem keeps_of_ready (h : d.Owned) (hready : d.Ready myIp ev) (hstep : d.step myIp ev = some d') :
    Keeps myIp ev d' := by
  refine ⟨(owned_step h hready hstep).atMostOne, ?_⟩
  rintro leaderId rfl hother
  obtain ⟨ip, rfl⟩ := Option.ne_none_iff_exists'.mp hready.1
  cases hstep
  rw [onApply, if_pos (by simpa [RaftDN.leader] using hother)]
  exact idle_deleteTimer h

/-- A timer that is started beside another one, or by a node that is not the leader, breaks what
is asked. -/
theorem ready_of_keeps (hstep : d.step myIp ev = some d') (h : Keeps myIp ev d') :
    d.Ready myIp ev := by
  cases ev with
  | timeout i => trivial
  | callbackEnds i => trivial
  | onApply leaderId =>
    cases hstep
    have hnew : ∀ leaderId, RaftDN.leader myIp leaderId = myIp →
        d.onApply myIp leaderId = d.newTimer := fun leaderId hleader => if_neg (by simp [hleader])
    refine ⟨?_, ?_⟩
    · rintro rfl
      have hidle := h.2 none rfl (by simp)
      rw [hnew none rfl] at hidle
      exact idle_iff.mp hidle d.timers.length (active_newTimer.mpr (Or.inr rfl))
    · rintro rfl
      rw [idle_iff]
      intro i hi
      have hone := h.1
      rw [hnew (some myIp) rfl] at hone
      have hlast := hone i d.timers.length (active_newTimer.mpr (Or.inl hi))
        (active_newTimer.mpr (Or.inr rfl))
      obtain ⟨t, ht, _⟩ := hi
      have hlt := (List.getElem?_eq_some_iff.mp ht).1
      omega

/-! ## Runs -/

/-- In every run whose calls of `on_apply` meet the condition, at most one thread is there at any
time.  A further event keeps it so, with no thread after an `on_apply` of a node that is not the
leader, if and only if it meets the condition too. -/
theorem atMostOne_of_ready (h : Runs.Reach (step myIp) (Ready myIp) init d) :
    d.AtMostOne ∧ ∀ ev d', d.step myIp ev = some d' → (Keeps myIp ev d' ↔ d.Ready myIp ev) := by
  have howned : d.Owned :=
    h.invariant (I := Owned) (owned_of_idle rfl) fun _ _ _ _ hs hok hstep =>
      owned_step hs hok hstep
  exact ⟨howned.atMostOne, fun ev d' hstep =>
    ⟨ready_of_keeps hstep, fun hready => keeps_of_ready howned hready hstep⟩⟩

/-- The detector of a leader that finds a loss, and the one that it starts behind it. -/
theorem atMostOne_lossEvents :
    ∃ d, Runs.Reach (step "192.168.88.112") (Ready "192.168.88.112") init d ∧
      d.timers = [.stopped, .running] ∧ d.AtMostOne := by
  have hrun : ∃ d, Runs.Reach (step "192.168.88.112") (Ready "192.168.88.112") init d ∧
      decide (d.timers = [.stopped, .running]) = true :=
    Runs.exists_reach_of_any_guarded
      [.onApply (some "192.168.88.112"), .timeout 0, .callbackEnds 0,
        .onApply (some "192.168.88.112")] (by decide)
  obtain ⟨d, hreach, htimers⟩ := hrun
  exact ⟨d, hreach, of_decide_eq_true htimers, (atMostOne_of_ready hreach).1⟩

/-- Two lists are applied while the node is the leader. -/
theorem not_atMostOne_twice :
    ¬ ∀ (myIp : String) (d : Detector), Runs.Reachable (step myIp) init d →
      d.AtMostOne ∧ ∀ ev d', d.step myIp ev = some d' → Keeps myIp ev d' := by
  intro h
  have hrun : ∃ d, Runs.Reachable (step "192.168.88.112") init d ∧
      decide (d.timers = [.running, .running]) = true :=
    Runs.exists_reachable_of_any
      [.onApply (some "192.168.88.112"), .onApply (some "192.168.88.112")] (by decide)
  obtain ⟨d, hreach, htest⟩ := hrun
  have htimers := of_decide_eq_true htest
  have hactive : d.Active 0 ∧ d.Active 1 := by
    unfold Active
    rw [htimers]
    exact ⟨⟨.running, rfl, by decide⟩, ⟨.running, rfl, by decide⟩⟩
  have hsame := (h "192.168.88.112" d hreach).1 0 1 hactive.1 hactive.2
  omega

end Detector

end Spkdfs
