import Mathlib.Data.List.Perm.Basic
import Spkdfs.Node.Namenode

/-!
# Concurrent requests

A handler makes its checks against the local store, and it proposes its entry
afterwards.  The entry waits in the log until it is committed, and only then
`on_apply` writes it.  So other requests can be checked, proposed and applied
in between.  `Sys.step` has these three moments as three events:

* `prepare` is the part of a handler up to its call of `RaftNN::apply`,
* `propose` is that call, which fixes the place of the entry in the log,
* `apply` is one round of the loop of `RaftNN::on_apply`.  It sends the
  success reply.

A handler may stay between its checks and its proposal for any time, so
`prepared` is a pool and not a queue.  The log is a queue.

`Sys.step_cases` says what a step can do.  The invariants of the later modules
are all of one form: a property of the store, and for each request in flight a
property of that request against the store.  `Sys.inFlight_invariant` is the
induction for this form.
-/

namespace Spkdfs

/-- A request that has passed the checks of its handler, against some store,
with the entry that the handler proposes. -/
structure Task where
  client : ℕ
  request : Request
  entry : Entry
  checked : ∃ db, prepare db request.now request.op = .ok entry

namespace Task

/-- The handler has made its checks against this store. -/
def CheckedIn (t : Task) (db : Store) : Prop :=
  prepare db t.request.now t.request.op = .ok t.entry

theorem entry_type (t : Task) : t.entry.type = t.request.op.opType := by
  obtain ⟨db, hp⟩ := t.checked
  exact (prepare_spec hp).1

theorem entry_path (t : Task) : t.entry.path = t.request.op.target := by
  obtain ⟨db, hp⟩ := t.checked
  exact (prepare_spec hp).2

end Task

/-- A namenode with its requests. -/
structure Sys where
  /-- The store that the handlers read and `on_apply` writes. -/
  db : Store
  /-- The requests that are checked and not proposed yet. -/
  prepared : List Task
  /-- The proposed entries that are not applied yet, in log order. -/
  log : List Task
  /-- The applied requests, oldest first.  These have replied success. -/
  applied : List Task

/-- What can happen next. -/
inductive Event
  | prepare (client : ℕ) (request : Request)
  | propose (i : ℕ)
  | apply
  deriving DecidableEq

namespace Sys

/-- A namenode without requests. -/
def init (db : Store) : Sys := ⟨db, [], [], []⟩

/-- The requests that are checked and not applied yet. -/
def inFlight (s : Sys) : List Task := s.prepared ++ s.log

/-- One step.  A refused request changes nothing.  `none` is an event that is
not enabled, or an entry that stops the process. -/
def step (s : Sys) : Event → Option Sys
  | .prepare client request =>
    match hp : Spkdfs.prepare s.db request.now request.op with
    | .error _ => some s
    | .ok entry => some { s with prepared := s.prepared ++ [⟨client, request, entry, s.db, hp⟩] }
  | .propose i =>
    match s.prepared[i]? with
    | none => none
    | some t => some { s with prepared := s.prepared.eraseIdx i, log := s.log ++ [t] }
  | .apply =>
    match s.log with
    | [] => none
    | t :: rest =>
      match applyEntry s.db t.entry with
      | none => none
      | some db => some { s with db := db, log := rest, applied := s.applied ++ [t] }

/-- An `apply` with a known head of the log. -/
theorem step_apply_cons {s s' : Sys} {t : Task} {rest : List Task} (hlog : s.log = t :: rest)
    (h : s.step .apply = some s') :
    ∃ db, applyEntry s.db t.entry = some db ∧
      s' = { s with db := db, log := rest, applied := s.applied ++ [t] } := by
  simp only [step, hlog] at h
  split at h
  · cases h
  · rename_i db hdb
    exact ⟨db, hdb, (Option.some.inj h).symm⟩

/-- The steps of the system.  A proposal is seen from outside only as a
reordering of the requests in flight. -/
theorem step_cases {s s' : Sys} {ev : Event} (h : s.step ev = some s') :
    s' = s ∨
    (∃ t : Task, ev = .prepare t.client t.request ∧ t.CheckedIn s.db ∧
      s' = { s with prepared := s.prepared ++ [t] }) ∨
    (∃ i, ev = .propose i ∧ s'.db = s.db ∧ s'.applied = s.applied ∧
      s'.inFlight.Perm s.inFlight) ∨
    ∃ t rest db, ev = .apply ∧ s.log = t :: rest ∧ applyEntry s.db t.entry = some db ∧
      s' = { s with db := db, log := rest, applied := s.applied ++ [t] } := by
  cases ev with
  | prepare client request =>
    simp only [step] at h
    split at h
    · exact Or.inl (Option.some.inj h).symm
    · rename_i entry hp
      exact Or.inr (Or.inl ⟨⟨client, request, entry, s.db, hp⟩, rfl, hp, (Option.some.inj h).symm⟩)
  | propose i =>
    simp only [step] at h
    split at h
    · cases h
    · rename_i t ht
      obtain rfl := Option.some.inj h
      refine Or.inr (Or.inr (Or.inl ⟨i, rfl, rfl, rfl, ?_⟩))
      obtain ⟨hi, hget⟩ := List.getElem?_eq_some_iff.mp ht
      have hperm := List.getElem_cons_eraseIdx_perm hi
      rw [hget] at hperm
      show (s.prepared.eraseIdx i ++ (s.log ++ [t])).Perm (s.prepared ++ s.log)
      rw [← List.append_assoc]
      exact (List.perm_append_singleton t _).trans (hperm.append_right s.log)
  | apply =>
    cases hlog : s.log with
    | nil => simp [step, hlog] at h
    | cons t rest =>
      obtain ⟨db, hdb, hs'⟩ := step_apply_cons hlog h
      exact Or.inr (Or.inr (Or.inr ⟨t, rest, db, rfl, rfl, hdb, hs'⟩))

/-- A condition on the `apply` steps: it reads the store, the request that is
applied and the other requests in flight. -/
def OnApply (P : Store → Task → List Task → Prop) (s : Sys) : Event → Prop
  | .apply => ∀ t rest, s.log = t :: rest → P s.db t (s.prepared ++ rest)
  | .prepare _ _ | .propose _ => True

instance (P : Store → Task → List Task → Prop) [∀ db t others, Decidable (P db t others)] (s : Sys)
    (ev : Event) : Decidable (s.OnApply P ev) :=
  match ev, hlog : s.log with
  | .apply, [] => isTrue (by simp [OnApply, hlog])
  | .apply, t :: rest => decidable_of_iff (P s.db t (s.prepared ++ rest)) (by simp [OnApply, hlog])
  | .prepare _ _, _ => isTrue trivial
  | .propose _, _ => isTrue trivial

theorem OnApply.mono {P Q : Store → Task → List Task → Prop}
    (himp : ∀ db t others, P db t others → Q db t others) {s : Sys} {ev : Event}
    (h : s.OnApply P ev) : s.OnApply Q ev := by
  cases ev with
  | apply => exact fun t rest hlog => himp _ _ _ (h t rest hlog)
  | prepare client request => trivial
  | propose i => trivial

/-- A log whose head passes a test. -/
theorem exists_head_of_any {s : Sys} {test : Task → Bool} (h : s.log.head?.any test = true) :
    ∃ t rest, s.log = t :: rest ∧ test t = true := by
  obtain ⟨t, hhead, ht⟩ := (Option.any_eq_true _ _).mp h
  obtain ⟨rest, hlog⟩ := List.head?_eq_some_iff.mp hhead
  exact ⟨t, rest, hlog, ht⟩

theorem head_mem_inFlight {s : Sys} {t : Task} {rest : List Task} (hlog : s.log = t :: rest) :
    t ∈ s.inFlight := by
  rw [inFlight, hlog]
  exact List.mem_append_right _ List.mem_cons_self

theorem mem_inFlight_of_mem_rest {s : Sys} {t q : Task} {rest : List Task}
    (hlog : s.log = t :: rest) (hq : q ∈ s.prepared ++ rest) : q ∈ s.inFlight := by
  rw [inFlight, hlog]
  exact List.mem_append.mpr ((List.mem_append.mp hq).imp_right (List.mem_cons_of_mem t))

/-- The induction over a run, for an invariant that is a property of the store
and of each request in flight.  Only an `apply` changes the store. -/
theorem inFlight_invariant {P : Store → Task → List Task → Prop} {db0 : Store} {I : Store → Prop}
    {Q : Store → Task → Prop} (h0 : I db0)
    (hprep : ∀ db t, I db → t.CheckedIn db → Q db t)
    (happly : ∀ db t others db', P db t others → applyEntry db t.entry = some db' →
      I db → Q db t → I db' ∧ ∀ q ∈ others, Q db q → Q db' q)
    {s : Sys} (h : Runs.Reach step (OnApply P) (init db0) s) :
    I s.db ∧ ∀ q ∈ s.inFlight, Q s.db q := by
  refine h.invariant (I := fun s => I s.db ∧ ∀ q ∈ s.inFlight, Q s.db q)
    ⟨h0, by simp [init, inFlight]⟩ fun s ev s' _ hinv hok hstep => ?_
  obtain ⟨hI, hQ⟩ := hinv
  rcases step_cases hstep with rfl | ⟨t, _, ht, rfl⟩ | ⟨i, _, hdb, _, hperm⟩ |
    ⟨t, rest, db, rfl, hlog, hdb, rfl⟩
  · exact ⟨hI, hQ⟩
  · refine ⟨hI, fun q hq => ?_⟩
    simp only [inFlight, List.mem_append, List.mem_singleton] at hq
    rcases hq with (hq | rfl) | hq
    · exact hQ q (List.mem_append_left _ hq)
    · exact hprep s.db q hI ht
    · exact hQ q (List.mem_append_right _ hq)
  · rw [hdb]
    exact ⟨hI, fun q hq => hQ q (hperm.mem_iff.mp hq)⟩
  · obtain ⟨hI', hQ'⟩ := happly s.db t _ db (hok t rest hlog) hdb hI (hQ t (head_mem_inFlight hlog))
    exact ⟨hI', fun q hq => hQ' q hq (hQ q (mem_inFlight_of_mem_rest hlog hq))⟩

end Sys

end Spkdfs
