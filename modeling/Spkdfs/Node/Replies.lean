import Mathlib.Data.List.Perm.Basic
import Spkdfs.Node.Service

/-!
# Which replies a namenode sends

A call whose handler proposes one entry at most goes through four phases: its
handler runs, its entry waits in the log, its closure waits to be run, and it is
answered.  `Call.Phase` lists them with the place where `done` is.  Every step of
the system either belongs to another call, and changes nothing that a phase reads,
or moves the call along the phases.

This settles the replies of `mkdir`, `rm`, `put` and `put_ok`.  A call of
`update_lock` stays within the phases as long as it proposes one entry at most.
-/

namespace Spkdfs

open RocksDB

/-! ## The parts of the state that belong to a call -/

/-- Dropping an element that a filter drops anyway. -/
theorem filter_eraseIdx_of_neg {α : Type} {q : α → Bool} {l : List α} {j : ℕ} {x : α}
    (hx : l[j]? = some x) (hq : q x = false) : (l.eraseIdx j).filter q = l.filter q := by
  induction l generalizing j with
  | nil => simp at hx
  | cons y l ih =>
    cases j with
    | zero =>
      obtain rfl : y = x := by simpa using hx
      simp [hq]
    | succ j =>
      rw [List.eraseIdx_cons_succ, List.filter_cons, List.filter_cons, ih (by simpa using hx)]

/-- Dropping the only element that a filter keeps. -/
theorem filter_eraseIdx_of_pos {α : Type} {q : α → Bool} {l : List α} {j : ℕ} {x y : α}
    (hx : l[j]? = some x) (hq : q x = true) (hy : l.filter q = [y]) :
    x = y ∧ (l.eraseIdx j).filter q = [] := by
  obtain ⟨hj, hget⟩ := List.getElem?_eq_some_iff.mp hx
  have hperm := (List.getElem_cons_eraseIdx_perm hj).filter q
  rw [hget, List.filter_cons_of_pos hq, hy] at hperm
  have heq := List.perm_singleton.mp hperm
  simpa using heq

/-- The applied entries of a call. -/
def entriesOf (id : ℕ) (history : History) : List Entry :=
  history.filterMap fun x => if x.1 = some id then some x.2 else none

theorem mem_entriesOf {id : ℕ} {history : History} {e : Entry} :
    e ∈ entriesOf id history ↔ (some id, e) ∈ history := by
  simp [entriesOf, List.mem_filterMap]

theorem entriesOf_concat (id : ℕ) (history : History) (k : Option ℕ) (e : Entry) :
    entriesOf id (history ++ [(k, e)]) =
      entriesOf id history ++ if k = some id then [e] else [] := by
  simp only [entriesOf, List.filterMap_append]
  by_cases hk : k = some id <;> simp [hk]

namespace Service

/-- The proposals of a call. -/
def logOf (s : Service) (id : ℕ) : List Proposal := s.log.filter fun p => p.closure.call = id

/-- The closures of a call that are about to be run. -/
def firedOf (s : Service) (id : ℕ) : List CommonClosure := s.fired.filter fun q => q.call = id

end Service

/-! ## The phases of a call -/

namespace Call

/-- Nothing has been sent, thrown or run yet. -/
def Idle (c : Call) : Prop :=
  c.answers = [] ∧ c.threw = false ∧ c.closed = false ∧ c.late = false

/-- The handler has nothing left to propose. -/
def Through (c : Call) : Prop := c.stage = .ready [] ∨ c.stage = .returned

/-- The entry is the one that the handler of the call proposes. -/
def Owns (c : Call) (e : Entry) : Prop :=
  ∃ op db now, c.rpc.rounds = [op] ∧ prepare db now op = .ok e

/-- The phases of a call that proposes one entry at most, with its proposals, its
closures and its applied entries. -/
inductive Phase (id : ℕ) (c : Call) : List Proposal → List CommonClosure → List Entry → Prop
  /-- The handler has not proposed anything. -/
  | handling (hguard : c.doneGuard = true) (hidle : c.Idle) (hsucc : c.response.success = false)
      (hstage : c.stage = .start ∨ c.stage = .ready c.rpc.rounds ∨
        ∃ e, c.stage = .prepared e [] ∧ c.Owns e) : Phase id c [] [] []
  /-- The entry is in the log. -/
  | proposed {e : Entry} (hguard : c.doneGuard = false) (hidle : c.Idle)
      (hsucc : c.response.success = false) (hstage : c.Through) (hown : c.Owns e) :
      Phase id c [⟨⟨id, true⟩, e⟩] [] []
  /-- The closure is about to be run. -/
  | closing {applied : List Entry} (hguard : c.doneGuard = false) (hidle : c.Idle)
      (hstage : c.Through)
      (hsucc : c.response.success = true → ∃ e, c.Owns e ∧ applied = [e])
      (hfail : c.response.success = false → applied = []) : Phase id c [] [⟨id, true⟩] applied
  /-- The response is sent. -/
  | answered {applied : List Entry} {a : Answer} (hguard : c.doneGuard = false)
      (hanswers : c.answers = [a]) (hlate : c.late = false) (hstage : c.Through)
      (hsucc : a.response.success = true → ∃ e, c.Owns e ∧ e ∈ entriesOf id a.history)
      (hfail : a.response.success = false → applied = []) : Phase id c [] [] applied

/-- A handler that returns without `done` changes its stage only. -/
theorem leave_of_not_doneGuard {c : Call} (h : c.doneGuard = false) (history : History) :
    c.leave history = { c with stage := .returned } := by
  simp [leave, h]

/-- A handler that is through does nothing but return. -/
theorem action_of_through {myIp : String} {s : Service} {c : Call} {now : UInt64}
    {fault : Option Exception} {a : Service.Action} (hc : c.Through)
    (ha : Service.action myIp s c now fault = some a) : a = .leave := by
  rcases hc with hstage | hstage
  · simpa [Service.action, hstage, eq_comm] using ha
  · simp [Service.action, hstage] at ha

/-- The actions of a handler that has not proposed anything, in a call that goes
past the checks of its first round only if it has one round. -/
theorem action_of_handling {myIp : String} {s : Service} {c : Call} {now : UInt64}
    {fault : Option Exception} {a : Service.Action}
    (hstage : c.stage = .start ∨ c.stage = .ready c.rpc.rounds ∨
      ∃ e, c.stage = .prepared e [] ∧ c.Owns e)
    (ha : Service.action myIp s c now fault = some a)
    (hone : ∀ e todo, c.stage = .ready c.rpc.rounds → a = .goto (.prepared e todo) →
      c.rpc.rounds.length = 1) :
    (∃ e, a = .throw e) ∨ a = .leave ∨ a = .goto (.ready c.rpc.rounds) ∨
      (∃ e, a = .goto (.prepared e []) ∧ c.Owns e) ∨ ∃ e, a = .propose e [] ∧ c.Owns e := by
  rcases hstage with hstage | hstage | ⟨e, hstage, hown⟩
  · cases fault with
    | some x => exact Or.inl ⟨x, by simpa [Service.action, hstage, eq_comm] using ha⟩
    | none =>
      simp only [Service.action, hstage] at ha
      split at ha
      · exact Or.inl ⟨_, (Option.some.inj ha).symm⟩
      · split at ha
        · exact Or.inl ⟨_, (Option.some.inj ha).symm⟩
        · exact Or.inr (Or.inr (Or.inl (Option.some.inj ha).symm))
  · have hone' := fun e todo => hone e todo hstage
    cases hrounds : c.rpc.rounds with
    | nil =>
      rw [hrounds] at hstage
      exact Or.inr (Or.inl (by simpa [Service.action, hstage, eq_comm] using ha))
    | cons op todo =>
      rw [hrounds] at hstage
      cases fault with
      | some x => exact Or.inl ⟨x, by simpa [Service.action, hstage, eq_comm] using ha⟩
      | none =>
        simp only [Service.action, hstage] at ha
        split at ha
        · exact Or.inl ⟨_, (Option.some.inj ha).symm⟩
        · rename_i e hp
          obtain rfl := Option.some.inj ha
          have hlen := hone' e todo rfl
          rw [hrounds, List.length_cons] at hlen
          obtain rfl : todo = [] := List.length_eq_zero_iff.mp (by omega)
          exact Or.inr (Or.inr (Or.inr (Or.inl ⟨e, rfl, op, s.db, now, hrounds, hp⟩)))
  · cases fault with
    | some x => exact Or.inl ⟨x, by simpa [Service.action, hstage, eq_comm] using ha⟩
    | none =>
      refine Or.inr (Or.inr (Or.inr (Or.inr ⟨e, ?_, hown⟩)))
      simpa [Service.action, hstage, eq_comm] using ha

/-- An action of the handler moves its call along the phases. -/
theorem Phase.run {myIp : String} {s : Service} {id : ℕ} {c : Call} {now : UInt64}
    {fault : Option Exception} {a : Service.Action} {log : List Proposal}
    {fired : List CommonClosure} {applied : List Entry} (h : c.Phase id log fired applied)
    (ha : Service.action myIp s c now fault = some a)
    (hone : ∀ e todo, c.stage = .ready c.rpc.rounds → a = .goto (.prepared e todo) →
      c.rpc.rounds.length = 1) (history : History) :
    (a.run history c).Phase id (log ++ a.proposals id c) fired applied := by
  cases h with
  | handling hguard hidle hsucc hstage =>
    have hanswers : c.answers = [] := hidle.1
    have hlate : c.late = false := hidle.2.2.2
    rcases action_of_handling hstage ha hone with ⟨e, rfl⟩ | rfl | rfl | ⟨e, rfl, hown⟩ |
      ⟨e, rfl, hown⟩
    · -- `done_guard` sends the response that the `catch` clause has written.
      simp only [Service.Action.run, throw, leave, write, hguard, if_true, answer, hanswers]
      exact .answered rfl rfl (by simpa using hlate) (Or.inr rfl) (fun hc => by cases hc)
        fun _ => rfl
    · simp only [Service.Action.run, leave, hguard, if_true, answer, hanswers]
      refine .answered rfl rfl hlate (Or.inr rfl) (fun hc => ?_) fun _ => rfl
      rw [hsucc] at hc
      cases hc
    · exact .handling hguard hidle hsucc (Or.inr (Or.inl rfl))
    · exact .handling hguard hidle hsucc (Or.inr (Or.inr ⟨e, rfl, hown⟩))
    · rw [Service.Action.proposals, hguard]
      exact .proposed rfl hidle hsucc (Or.inl rfl) hown
  | proposed hguard hidle hsucc hstage hown =>
    obtain rfl := action_of_through hstage ha
    rw [Service.Action.run, leave_of_not_doneGuard hguard]
    exact .proposed hguard hidle hsucc (Or.inr rfl) hown
  | closing hguard hidle hstage hsucc hfail =>
    obtain rfl := action_of_through hstage ha
    rw [Service.Action.run, leave_of_not_doneGuard hguard]
    exact .closing hguard hidle (Or.inr rfl) hsucc hfail
  | answered hguard hanswers hlate hstage hsucc hfail =>
    obtain rfl := action_of_through hstage ha
    rw [Service.Action.run, leave_of_not_doneGuard hguard]
    exact .answered hguard hanswers hlate (Or.inr rfl) hsucc hfail

/-- A call with a proposal in the log has nothing else there. -/
theorem Phase.eq_of_mem_log {id : ℕ} {c : Call} {log : List Proposal} {fired : List CommonClosure}
    {applied : List Entry} {p : Proposal} (h : c.Phase id log fired applied) (hp : p ∈ log) :
    log = [p] ∧ fired = [] ∧ applied = [] := by
  cases h with
  | proposed hguard hidle hsucc hstage hown =>
    rw [List.mem_singleton.mp hp]
    exact ⟨rfl, rfl, rfl⟩
  | handling hguard hidle hsucc hstage => cases hp
  | closing hguard hidle hstage hsucc hfail => cases hp
  | answered hguard hanswers hlate hstage hsucc hfail => cases hp

/-- braft rejects the proposal: the response stays as it is. -/
theorem Phase.reject {id : ℕ} {c : Call} {p : Proposal} (h : c.Phase id [p] [] []) :
    c.Phase id [] [p.closure] [] := by
  cases h with
  | proposed hguard hidle hsucc hstage hown =>
    refine .closing hguard hidle hstage (fun hc => ?_) fun _ => rfl
    rw [hsucc] at hc
    cases hc

/-- `on_apply` fails. -/
theorem Phase.applyFail {id : ℕ} {c : Call} {p : Proposal} (h : c.Phase id [p] [] [])
    (e : Exception) : (c.write (.failResponse e)).Phase id [] [p.closure] [] := by
  cases h with
  | proposed hguard hidle hsucc hstage hown =>
    obtain ⟨hanswers, hthrew, hclosed, hlate⟩ := hidle
    have hlate' : (c.write (.failResponse e)).late = false := by simp [write, hanswers, hlate]
    exact .closing hguard ⟨hanswers, hthrew, hclosed, hlate'⟩ hstage (fun hc => by cases hc)
      fun _ => rfl

/-- `on_apply` applies the entry. -/
theorem Phase.applySucc {id : ℕ} {c : Call} {p : Proposal} (h : c.Phase id [p] [] []) :
    (c.write .succResponse).Phase id [] [p.closure] [p.entry] := by
  cases h with
  | proposed hguard hidle hsucc hstage hown =>
    obtain ⟨hanswers, hthrew, hclosed, hlate⟩ := hidle
    have hlate' : (c.write .succResponse).late = false := by simp [write, hanswers, hlate]
    exact .closing hguard ⟨hanswers, hthrew, hclosed, hlate'⟩ hstage (fun _ => ⟨_, hown, rfl⟩)
      fun hc => by cases hc

/-- A call with a closure about to be run has no other one, and that one sends the
response. -/
theorem Phase.eq_of_mem_fired {id : ℕ} {c : Call} {log : List Proposal}
    {fired : List CommonClosure} {applied : List Entry} {q : CommonClosure}
    (h : c.Phase id log fired applied) (hq : q ∈ fired) : fired = [q] := by
  cases h with
  | closing hguard hidle hstage hsucc hfail => rw [List.mem_singleton.mp hq]
  | handling hguard hidle hsucc hstage => cases hq
  | proposed hguard hidle hsucc hstage hown => cases hq
  | answered hguard hanswers hlate hstage hsucc hfail => cases hq

/-- The closure is run. -/
theorem Phase.closure {id : ℕ} {c : Call} {log : List Proposal} {q : CommonClosure}
    {history : History} (h : c.Phase id log [q] (entriesOf id history)) :
    (c.runClosure history q.done).Phase id log [] (entriesOf id history) := by
  generalize happ : entriesOf id history = applied at h
  cases h with
  | closing hguard hidle hstage hsucc hfail =>
    obtain ⟨hanswers, _, _, hlate⟩ := hidle
    have hans : (c.runClosure history true).answers = [⟨c.response, history⟩] := by
      simp [runClosure, answer, hanswers]
    refine .answered hguard hans hlate hstage (fun hc => ?_) hfail
    obtain ⟨e, hown, rfl⟩ := hsucc hc
    refine ⟨e, hown, ?_⟩
    rw [happ]
    exact List.mem_singleton_self e

end Call

/-! ## The phases along a run -/

namespace Service

/-- What a call of the given kind has in the state.  A number without a call has
nothing there. -/
def Status (good : Rpc → Prop) (id : ℕ) (call : Option Call) (log : List Proposal)
    (fired : List CommonClosure) (applied : List Entry) : Prop :=
  match call with
  | none => log = [] ∧ fired = [] ∧ applied = []
  | some c => good c.rpc → c.Phase id log fired applied

/-- Every call of the given kind is in one of the phases. -/
def InPhase (good : Rpc → Prop) (s : Service) : Prop :=
  ∀ id, Status good id s.calls[id]? (s.logOf id) (s.firedOf id) (entriesOf id s.history)

/-- A handler of a call of the given kind goes past the checks of its first round
only if the call has one round. -/
def OneRound (myIp : String) (good : Rpc → Prop) (s : Service) (ev : ServiceEvent) : Prop :=
  ∀ (id : ℕ) (now : UInt64) (fault : Option Exception) (c : Call) (e : Entry) (todo : List Op),
    ev = .handle id now fault → s.calls[id]? = some c → good c.rpc →
    c.stage = .ready c.rpc.rounds →
    action myIp s c now fault = some (.goto (.prepared e todo)) → c.rpc.rounds.length = 1

theorem getElem?_onCall (s : Service) (k id : ℕ) (f : Call → Call) :
    (s.onCall k f).calls[id]? = if k = id then s.calls[id]?.map f else s.calls[id]? := by
  rw [onCall, List.getElem?_modify]
  split <;> simp

/-- A step that touches one call keeps the phases of the others. -/
theorem InPhase.update {good : Rpc → Prop} {s s' : Service} (hs : s.InPhase good) (k : ℕ)
    (hcall : ∀ id, id ≠ k → s'.calls[id]? = s.calls[id]?)
    (hlog : ∀ id, id ≠ k → s'.logOf id = s.logOf id)
    (hfired : ∀ id, id ≠ k → s'.firedOf id = s.firedOf id)
    (hentries : ∀ id, id ≠ k → entriesOf id s'.history = entriesOf id s.history)
    (hself : Status good k s.calls[k]? (s.logOf k) (s.firedOf k) (entriesOf k s.history) →
      Status good k s'.calls[k]? (s'.logOf k) (s'.firedOf k) (entriesOf k s'.history)) :
    s'.InPhase good := by
  intro id
  by_cases hid : id = k
  · subst hid
    exact hself (hs id)
  · rw [hcall id hid, hlog id hid, hfired id hid, hentries id hid]
    exact hs id

theorem inPhase_arrive {good : Rpc → Prop} {s : Service} (hs : s.InPhase good) (rpc : Rpc) :
    { s with calls := s.calls ++ [.new rpc] : Service }.InPhase good := by
  refine hs.update s.calls.length (fun id hid => ?_) (fun _ _ => rfl) (fun _ _ => rfl)
    (fun _ _ => rfl) fun hstatus => ?_
  · show (s.calls ++ [Call.new rpc])[id]? = s.calls[id]?
    rcases Nat.lt_or_gt_of_ne hid with hlt | hgt
    · exact List.getElem?_append_left hlt
    · rw [List.getElem?_eq_none (by simp; omega), List.getElem?_eq_none (by omega)]
  · rw [List.getElem?_eq_none le_rfl] at hstatus
    obtain ⟨hlog, hfired, hentries⟩ := hstatus
    have hcall : (s.calls ++ [Call.new rpc])[s.calls.length]? = some (.new rpc) := by simp
    have hphase : (Call.new rpc).Phase s.calls.length [] [] [] :=
      .handling rfl ⟨rfl, rfl, rfl, rfl⟩ rfl (Or.inl rfl)
    rw [← hlog, ← hfired, ← hentries] at hphase
    show Status good s.calls.length (s.calls ++ [Call.new rpc])[s.calls.length]? _ _ _
    rw [hcall]
    exact fun _ => hphase

theorem inPhase_handle {myIp : String} {good : Rpc → Prop} {s : Service} {id : ℕ} {now : UInt64}
    {fault : Option Exception} {c : Call} {a : Action} (hs : s.InPhase good)
    (hc : s.calls[id]? = some c) (ha : action myIp s c now fault = some a)
    (hok : s.OneRound myIp good (.handle id now fault)) :
    { s.onCall id (a.run s.history) with
      log := s.log ++ a.proposals id c : Service }.InPhase good := by
  refine hs.update id (fun k hk => ?_) (fun k hk => ?_) (fun _ _ => rfl) (fun _ _ => rfl)
    fun hstatus => ?_
  · show (s.onCall id _).calls[k]? = _
    rw [getElem?_onCall, if_neg (Ne.symm hk)]
  · show (s.log ++ a.proposals id c).filter _ = s.log.filter _
    have hnone : (a.proposals id c).filter (fun p => p.closure.call = k) = [] := by
      cases a <;> simp [Action.proposals, Ne.symm hk]
    rw [List.filter_append, hnone, List.append_nil]
  · have hcall : (s.onCall id (a.run s.history)).calls[id]? = some (a.run s.history c) := by
      rw [getElem?_onCall, if_pos rfl, hc]
      rfl
    have hlog : (s.log ++ a.proposals id c).filter (fun p => p.closure.call = id) =
        s.logOf id ++ a.proposals id c := by
      rw [List.filter_append, logOf]
      cases a <;> simp [Action.proposals]
    have hrpc : (a.run s.history c).rpc = c.rpc := by
      cases a with
      | throw e => cases hg : c.doneGuard <;> simp [Action.run, Call.throw, Call.leave, Call.write,
          Call.answer, hg]
      | leave => cases hg : c.doneGuard <;> simp [Action.run, Call.leave, Call.answer, hg]
      | goto stage => rfl
      | propose e todo => rfl
    rw [hc] at hstatus
    show Status good id (s.onCall id _).calls[id]? ((s.log ++ a.proposals id c).filter _) _ _
    rw [hcall, hlog]
    intro hgood
    rw [hrpc] at hgood
    refine (hstatus hgood).run ha (fun e todo hstage hgoto => ?_) s.history
    subst hgoto
    exact hok id now fault c e todo rfl hc hgood hstage ha

/-- The closure of a proposal is fired.  `f` is what happens to the call of the
proposal before. -/
theorem inPhase_fire {good : Rpc → Prop} {s s' : Service} {p : Proposal} {f : Call → Call}
    (hs : s.InPhase good) (hmem : p ∈ s.log) (hrpc : ∀ c, (f c).rpc = c.rpc)
    (hcalls : s'.calls = s.calls.modify p.closure.call f)
    (hlog : ∀ k, k ≠ p.closure.call → s'.logOf k = s.logOf k)
    (hlogSelf : s.logOf p.closure.call = [p] → s'.logOf p.closure.call = [])
    (hfired : s'.fired = s.fired ++ [p.closure])
    (hentries : ∀ k, k ≠ p.closure.call → entriesOf k s'.history = entriesOf k s.history)
    (hphase : ∀ c, c.Phase p.closure.call [p] [] [] → entriesOf p.closure.call s.history = [] →
      (f c).Phase p.closure.call [] [p.closure] (entriesOf p.closure.call s'.history)) :
    s'.InPhase good := by
  have hcall : ∀ k : ℕ, s'.calls[k]? = (s.onCall p.closure.call f).calls[k]? := by
    intro k
    rw [hcalls]
    rfl
  have hown : p ∈ s.logOf p.closure.call := List.mem_filter.mpr ⟨hmem, by simp⟩
  refine hs.update p.closure.call (fun k hk => ?_) hlog (fun k hk => ?_) hentries
    fun hstatus => ?_
  · rw [hcall, getElem?_onCall, if_neg (Ne.symm hk)]
  · rw [firedOf, hfired, List.filter_append, firedOf]
    simp [Ne.symm hk]
  · rw [hcall, getElem?_onCall, if_pos rfl]
    cases hc : s.calls[p.closure.call]? with
    | none =>
      rw [hc] at hstatus
      rw [hstatus.1] at hown
      cases hown
    | some c =>
      rw [hc] at hstatus
      intro hgood
      rw [hrpc] at hgood
      obtain ⟨hlog₁, hfired₁, hentries₁⟩ := (hstatus hgood).eq_of_mem_log hown
      have hbefore := hstatus hgood
      rw [hlog₁, hfired₁, hentries₁] at hbefore
      have hfired' : s'.firedOf p.closure.call = [p.closure] := by
        rw [firedOf, hfired, List.filter_append, ← firedOf, hfired₁]
        simp
      rw [hlogSelf hlog₁, hfired']
      exact hphase c hbefore hentries₁

/-- The proposals of the other calls, and of the call itself, once the head of the
log is taken. -/
theorem filter_log_of_cons {s : Service} {p : Proposal} {rest : List Proposal}
    (hlog : s.log = p :: rest) :
    (∀ k, k ≠ p.closure.call → (rest.filter fun q => q.closure.call = k) = s.logOf k) ∧
      (s.logOf p.closure.call = [p] →
        (rest.filter fun q => q.closure.call = p.closure.call) = []) := by
  refine ⟨fun k hk => ?_, fun hown => ?_⟩
  · rw [logOf, hlog, List.filter_cons_of_neg (by simpa using Ne.symm hk)]
  · rw [logOf, hlog, List.filter_cons_of_pos (by simp)] at hown
    exact List.tail_eq_of_cons_eq hown

theorem inPhase_runClosure {good : Rpc → Prop} {s : Service} {j : ℕ} {q : CommonClosure}
    (hs : s.InPhase good) (hq : s.fired[j]? = some q) :
    { s.onCall q.call (.runClosure s.history q.done) with
      fired := s.fired.eraseIdx j : Service }.InPhase good := by
  have hown : q ∈ s.firedOf q.call := List.mem_filter.mpr ⟨List.mem_of_getElem? hq, by simp⟩
  refine hs.update q.call (fun k hk => ?_) (fun _ _ => rfl) (fun k hk => ?_) (fun _ _ => rfl)
    fun hstatus => ?_
  · show (s.onCall q.call _).calls[k]? = _
    rw [getElem?_onCall, if_neg (Ne.symm hk)]
  · exact filter_eraseIdx_of_neg hq (by simpa using Ne.symm hk)
  · show Status good q.call (s.onCall q.call _).calls[q.call]? _ ((s.fired.eraseIdx j).filter _) _
    rw [getElem?_onCall, if_pos rfl]
    cases hc : s.calls[q.call]? with
    | none =>
      rw [hc] at hstatus
      rw [hstatus.2.1] at hown
      cases hown
    | some c =>
      rw [hc] at hstatus
      intro hgood
      have hrpc : (c.runClosure s.history q.done).rpc = c.rpc := by
        cases hd : q.done <;> simp [Call.runClosure, Call.answer]
      rw [hrpc] at hgood
      have hfired := (hstatus hgood).eq_of_mem_fired hown
      have hbefore := hstatus hgood
      rw [hfired] at hbefore
      rw [(filter_eraseIdx_of_pos hq (by simp) hfired).2]
      exact hbefore.closure

theorem inPhase_step {myIp : String} {good : Rpc → Prop} {s s' : Service} {ev : ServiceEvent}
    (hs : s.InPhase good) (hok : s.OneRound myIp good ev) (h : s.step myIp ev = some s') :
    s'.InPhase good := by
  rcases step_cases h with ⟨rpc, rfl, rfl⟩ | ⟨id, now, fault, c, a, rfl, hc, ha, rfl⟩ |
    ⟨j, p, rfl, hp, rfl⟩ | ⟨p, rest, e, rfl, hlog, rfl⟩ | ⟨p, rest, db, rfl, hlog, hdb, rfl⟩ |
    ⟨entry, db, rfl, hdb, rfl⟩ | ⟨j, q, rfl, hq, rfl⟩ | ⟨leaderId, rfl⟩
  · exact inPhase_arrive hs rpc
  · exact inPhase_handle hs hc ha hok
  · refine inPhase_fire hs (List.mem_of_getElem? hp) (f := fun c => c) (fun _ => rfl) ?_
      (fun k hk => filter_eraseIdx_of_neg hp (by simpa using Ne.symm hk))
      (fun hown => (filter_eraseIdx_of_pos hp (by simp) hown).2) rfl (fun _ _ => rfl) ?_
    · exact (List.modify_id _ _).symm
    · intro c hphase hentries
      show c.Phase p.closure.call [] [p.closure] (entriesOf p.closure.call s.history)
      rw [hentries]
      exact hphase.reject
  · obtain ⟨hother, hself⟩ := filter_log_of_cons hlog
    refine inPhase_fire (f := .write (.failResponse e)) hs (hlog ▸ List.mem_cons_self)
      (fun _ => rfl) rfl hother hself rfl (fun _ _ => rfl) fun c hphase hentries => ?_
    show (c.write _).Phase p.closure.call [] [p.closure] (entriesOf p.closure.call s.history)
    rw [hentries]
    exact hphase.applyFail e
  · obtain ⟨hother, hself⟩ := filter_log_of_cons hlog
    refine inPhase_fire (f := .write .succResponse) hs (hlog ▸ List.mem_cons_self)
      (fun _ => rfl) rfl hother hself rfl (fun k hk => ?_) fun c hphase hentries => ?_
    · rw [entriesOf_concat, if_neg (by simpa using Ne.symm hk), List.append_nil]
    · rw [entriesOf_concat, hentries, if_pos rfl]
      exact hphase.applySucc
  · intro id
    have hentries : entriesOf id (s.history ++ [(none, entry)]) = entriesOf id s.history := by
      rw [entriesOf_concat, if_neg (by simp), List.append_nil]
    show Status good id _ _ _ (entriesOf id (s.history ++ [(none, entry)]))
    rw [hentries]
    exact hs id
  · exact inPhase_runClosure hs hq
  · exact hs

theorem inPhase_of_reach {myIp : String} {good : Rpc → Prop} {db0 : Store}
    {leaderId : Option Node} {s : Service}
    (h : Runs.Reach (step myIp) (OneRound myIp good) (init db0 leaderId) s) : s.InPhase good :=
  h.invariant (fun _ => ⟨rfl, rfl, rfl⟩) fun _ _ _ _ hs hok hstep => inPhase_step hs hok hstep

/-! ## The history -/

/-- The store is what the history makes of the store at the start. -/
theorem onApply_history {myIp : String} {db0 : Store} {leaderId : Option Node} {s : Service}
    (h : Runs.Reachable (step myIp) (init db0 leaderId) s) :
    onApply db0 (s.history.map Prod.snd) = some s.db := by
  refine h.invariant (I := fun s => onApply db0 (s.history.map Prod.snd) = some s.db) rfl ?_
  intro s ev s' _ hs _ hstep
  have happly : ∀ k e db, applyEntry s.db e = some db →
      onApply db0 ((s.history ++ [(k, e)]).map Prod.snd) = some db := by
    intro k e db hdb
    rw [onApply] at hs
    rw [onApply, List.map_append, Runs.run_append, hs]
    simpa using hdb
  rcases step_cases hstep with ⟨rpc, rfl, rfl⟩ | ⟨id, now, fault, c, a, rfl, hc, ha, rfl⟩ |
    ⟨j, p, rfl, hp, rfl⟩ | ⟨p, rest, e, rfl, hlog, rfl⟩ | ⟨p, rest, db, rfl, hlog, hdb, rfl⟩ |
    ⟨entry, db, rfl, hdb, rfl⟩ | ⟨j, q, rfl, hq, rfl⟩ | ⟨leaderId, rfl⟩
  · exact hs
  · exact hs
  · exact hs
  · exact hs
  · exact happly _ _ _ hdb
  · exact happly _ _ _ hdb
  · exact hs
  · exact hs

/-- The history of an answer is the history of the namenode at that time. -/
def AnswersOld (s : Service) : Prop :=
  ∀ c ∈ s.calls, ∀ a ∈ c.answers, a.history <+: s.history

theorem answersOld_onCall {s s' : Service} (hs : s.AnswersOld) {id : ℕ} {f : Call → Call}
    (hcalls : s'.calls = s.calls.modify id f) (hhistory : s.history <+: s'.history)
    (hf : ∀ c, ∀ a ∈ (f c).answers, a ∈ c.answers ∨ a.history = s.history) : s'.AnswersOld := by
  intro c hc a ha
  rw [hcalls] at hc
  obtain ⟨k, hk⟩ := List.mem_iff_getElem?.mp hc
  rw [List.getElem?_modify] at hk
  obtain ⟨c₀, hc₀, rfl⟩ := Option.map_eq_some_iff.mp hk
  have hmem := List.mem_of_getElem? hc₀
  have hold : a ∈ c₀.answers ∨ a.history = s.history := by
    split at ha
    · exact hf c₀ a ha
    · exact Or.inl ha
  rcases hold with ha | ha
  · exact (hs c₀ hmem a ha).trans hhistory
  · rw [ha]
    exact hhistory

theorem mem_answers_leave {history : History} {c : Call} {a : Answer}
    (ha : a ∈ (c.leave history).answers) : a ∈ c.answers ∨ a.history = history := by
  cases hg : c.doneGuard with
  | false =>
    rw [Call.leave_of_not_doneGuard hg] at ha
    exact Or.inl ha
  | true =>
    simp only [Call.leave, hg, if_true, Call.answer, List.mem_append, List.mem_singleton] at ha
    exact ha.imp_right fun h => by rw [h]

theorem answersOld_step {myIp : String} {s s' : Service} {ev : ServiceEvent} (hs : s.AnswersOld)
    (h : s.step myIp ev = some s') : s'.AnswersOld := by
  rcases step_cases h with ⟨rpc, rfl, rfl⟩ | ⟨id, now, fault, c, a, rfl, hc, ha, rfl⟩ |
    ⟨j, p, rfl, hp, rfl⟩ | ⟨p, rest, e, rfl, hlog, rfl⟩ | ⟨p, rest, db, rfl, hlog, hdb, rfl⟩ |
    ⟨entry, db, rfl, hdb, rfl⟩ | ⟨j, q, rfl, hq, rfl⟩ | ⟨leaderId, rfl⟩
  · intro c hc a ha
    rcases List.mem_append.mp hc with hc | hc
    · exact hs c hc a ha
    · rw [List.mem_singleton.mp hc] at ha
      cases ha
  · refine answersOld_onCall hs rfl List.prefix_rfl fun c x hx => ?_
    cases a with
    | throw e => exact mem_answers_leave (c := c.write (.failResponse e)) hx
    | leave => exact mem_answers_leave hx
    | goto stage => exact Or.inl hx
    | propose e todo => exact Or.inl hx
  · exact hs
  · exact answersOld_onCall hs rfl List.prefix_rfl fun c a ha => Or.inl ha
  · exact answersOld_onCall hs rfl (List.prefix_append _ _) fun c a ha => Or.inl ha
  · intro c hc a ha
    exact (hs c hc a ha).trans (List.prefix_append _ _)
  · refine answersOld_onCall hs rfl List.prefix_rfl fun c a ha => ?_
    cases hd : q.done with
    | false =>
      rw [hd] at ha
      exact Or.inl ha
    | true =>
      rw [hd] at ha
      exact (List.mem_append.mp ha).imp_right fun h => by rw [List.mem_singleton.mp h]
  · exact hs

theorem answersOld_of_reach {myIp : String} {db0 : Store} {leaderId : Option Node} {s : Service}
    (h : Runs.Reachable (step myIp) (init db0 leaderId) s) : s.AnswersOld :=
  h.invariant (by simp [AnswersOld, init]) fun _ _ _ _ hs _ hstep => answersOld_step hs hstep

end Service

/-! ## What a client is told -/

/-- The replies to a call are as they should be: there is one at most, a call whose
handler has thrown or whose closure was run has one, and a success reply was sent
behind the apply of the entry that the handler has proposed. -/
structure Acknowledged (s : Service) (id : ℕ) (c : Call) : Prop where
  once : c.answers.length ≤ 1
  answered : c.threw = true ∨ c.closed = true → c.answers ≠ []
  before : ∀ a ∈ c.answers, a.history <+: s.history
  applied : ∀ a ∈ c.answers, a.response.success = true →
    ∃ op ∈ c.rpc.rounds, ∃ e db now, prepare db now op = .ok e ∧ (some id, e) ∈ a.history

/-- Once something has been sent, thrown or run, the response is sent. -/
theorem Call.Phase.idle_or_answered {id : ℕ} {c : Call} {log : List Proposal}
    {fired : List CommonClosure} {applied : List Entry} (h : c.Phase id log fired applied) :
    c.Idle ∨ ∃ a, c.answers = [a] ∧ c.late = false ∧
      (a.response.success = true → ∃ e, c.Owns e ∧ e ∈ entriesOf id a.history) ∧
      (a.response.success = false → applied = []) := by
  cases h with
  | handling hguard hidle hsucc hstage => exact Or.inl hidle
  | proposed hguard hidle hsucc hstage hown => exact Or.inl hidle
  | closing hguard hidle hstage hsucc hfail => exact Or.inl hidle
  | answered hguard hanswers hlate hstage hsucc hfail =>
    exact Or.inr ⟨_, hanswers, hlate, hsucc, hfail⟩

/-- A call whose handler has returned, with nothing left in the log or about to be
run, is answered. -/
theorem Call.Phase.answered_of_returned {id : ℕ} {c : Call} {applied : List Entry}
    (h : c.Phase id [] [] applied) (hstage : c.stage = .returned) : c.answers.length = 1 := by
  cases h with
  | handling hguard hidle hsucc hstage' =>
    rw [hstage] at hstage'
    simp at hstage'
  | answered hguard hanswers hlate hstage hsucc hfail => rw [hanswers, List.length_singleton]

theorem Acknowledged.of_phase {s : Service} {id : ℕ} {c : Call} {log : List Proposal}
    {fired : List CommonClosure} {applied : List Entry} (h : c.Phase id log fired applied)
    (hold : ∀ a ∈ c.answers, a.history <+: s.history) : Acknowledged s id c := by
  rcases h.idle_or_answered with ⟨hanswers, hthrew, hclosed, _⟩ | ⟨a, hanswers, _, hsucc, _⟩
  · refine ⟨by simp [hanswers], by simp [hthrew, hclosed], hold, fun a ha => ?_⟩
    rw [hanswers] at ha
    cases ha
  · refine ⟨by simp [hanswers], by simp [hanswers], hold, fun b hb hs => ?_⟩
    rw [hanswers, List.mem_singleton] at hb
    subst hb
    obtain ⟨e, ⟨op, db, now, hrounds, hp⟩, hmem⟩ := hsucc hs
    exact ⟨op, by simp [hrounds], e, db, now, hp, mem_entriesOf.mp hmem⟩

/-- In every run, every call of `mkdir`, `rm`, `put` or `put_ok` is acknowledged as
it should be, and the history that its answer refers to is what the store of this
replica was made from. -/
theorem acknowledged_of_reachable {myIp : String} {db0 : Store} {leaderId : Option Node}
    {s : Service} (h : Runs.Reachable (Service.step myIp) (.init db0 leaderId) s) :
    onApply db0 (s.history.map Prod.snd) = some s.db ∧
      ∀ (id : ℕ) (c : Call), s.calls[id]? = some c → (∀ paths, c.rpc ≠ .updateLock paths) →
        Acknowledged s id c := by
  refine ⟨Service.onApply_history h, fun id c hc hrpc => ?_⟩
  have hphase : s.InPhase fun rpc => ∀ paths, rpc ≠ .updateLock paths := by
    refine Service.inPhase_of_reach (h.mono fun s ev _ => ?_)
    intro id now fault c e todo _ _ hrpc _ _
    cases hr : c.rpc with
    | updateLock paths => exact absurd hr (hrpc paths)
    | mkdir path => rfl
    | rm path => rfl
    | put path storageType => rfl
    | putOk path filesize sub => rfl
  have hstatus := hphase id
  rw [hc] at hstatus
  exact .of_phase (hstatus hrpc)
    (Service.answersOld_of_reach h c (List.mem_of_getElem? hc))

/-- The events that take a call through its handler, up to its proposal. -/
def proposeEvents (id : ℕ) (now : UInt64) : List ServiceEvent :=
  [.handle id now none, .handle id now none, .handle id now none]

/-- A `mkdir` succeeds, a second one is rejected by braft, and an `rm` comes when
another server leads. -/
def repliesEvents : List ServiceEvent :=
  [.arrive (.mkdir "/a"), .arrive (.mkdir "/b"), .arrive (.rm "/a")] ++ proposeEvents 0 100 ++
    proposeEvents 1 100 ++ [.handle 0 100 none, .apply none, .reject 0, .runClosure 0,
      .runClosure 0, .leaderChange (some ⟨"192.168.88.113", 10001, .unknown⟩), .handle 2 101 none]

/-- The three calls of `repliesEvents` are acknowledged as they should be. -/
theorem acknowledged_repliesEvents :
    ∃ s, Runs.Reachable (Service.step "192.168.88.112") (.init KeyedMap.empty none) s ∧
      (s.calls.map fun c => c.answers.map fun a => a.response) =
        [[⟨true, none⟩], [⟨false, none⟩],
          [⟨false, some ⟨.redirectToMaster, "192.168.88.113"⟩⟩]] ∧
      ∀ (id : ℕ) (c : Call), s.calls[id]? = some c → (∀ paths, c.rpc ≠ .updateLock paths) →
        Acknowledged s id c := by
  have hrun : ∃ s, Runs.Reachable (Service.step "192.168.88.112") (.init KeyedMap.empty none) s ∧
      decide ((s.calls.map fun c => c.answers.map fun a => a.response) =
        [[⟨true, none⟩], [⟨false, none⟩],
          [⟨false, some ⟨.redirectToMaster, "192.168.88.113"⟩⟩]]) = true :=
    Runs.exists_reachable_of_any repliesEvents (by decide +kernel)
  obtain ⟨s, hreach, hanswers⟩ := hrun
  exact ⟨s, hreach, of_decide_eq_true hanswers, (acknowledged_of_reachable hreach).2⟩

/-! ## The replies of `update_lock` -/

/-- An `update_lock` of the paths is all or nothing, and its reply says which: there
is one reply, a success reply was sent behind the apply of an entry for every path,
and with a failure reply no entry of the call is ever applied with its closure.
Nothing is written to the response after it was sent. -/
structure AllOrNothing (s : Service) (id : ℕ) (paths : List String) (c : Call) : Prop where
  once : c.answers.length ≤ 1
  answered : c.stage = .returned → s.logOf id = [] → s.firedOf id = [] → c.answers.length = 1
  success : ∀ a ∈ c.answers, a.response.success = true → ∀ path ∈ paths,
    ∃ e db now, prepare db now (.updateLock path) = .ok e ∧ (some id, e) ∈ a.history
  failure : ∀ a ∈ c.answers, a.response.success = false → ∀ e, (some id, e) ∉ s.history
  inTime : c.late = false

/-- What a round of `update_lock` needs: the request has one path, or the path of
this round is not valid, so that the handler throws. -/
def locksOnePath (s : Service) : ServiceEvent → Bool
  | .handle id _ none =>
    s.calls[id]?.all fun c =>
      match c.rpc, c.stage with
      | .updateLock paths, .ready (op :: _) =>
        decide (paths.length = 1) || !(recordAt s.db op.target).valid
      | _, _ => true
  | _ => true

theorem oneRound_of_locksOnePath {myIp : String} {s : Service} {ev : ServiceEvent}
    (h : locksOnePath s ev = true) :
    s.OneRound myIp (fun rpc => ∃ paths, rpc = .updateLock paths) ev := by
  rintro id now fault c e todo rfl hc ⟨paths, hrpc⟩ hstage ha
  rw [hrpc, Rpc.rounds] at hstage ⊢
  rw [List.length_map]
  cases paths with
  | nil => simp [Service.action, hstage] at ha
  | cons path rest =>
    rw [List.map_cons] at hstage
    cases fault with
    | some x => simp [Service.action, hstage] at ha
    | none =>
      simp only [locksOnePath, hc, Option.all_some, hrpc, hstage, Bool.or_eq_true,
        decide_eq_true_eq, Bool.not_eq_true'] at h
      refine h.resolve_right fun hinvalid => ?_
      simp only [Service.action, hstage] at ha
      split at ha
      · cases ha
      · rename_i e hp
        rw [(prepare_updateLock_eq_ok.mp hp).1] at hinvalid
        cases hinvalid

theorem AllOrNothing.of_phase {s : Service} {id : ℕ} {c : Call} {paths : List String}
    (hrpc : c.rpc = .updateLock paths)
    (h : c.Phase id (s.logOf id) (s.firedOf id) (entriesOf id s.history)) :
    AllOrNothing s id paths c := by
  have hcomplete : c.stage = .returned → s.logOf id = [] → s.firedOf id = [] →
      c.answers.length = 1 := by
    intro hstage hlog hfired
    rw [hlog, hfired] at h
    exact h.answered_of_returned hstage
  rcases h.idle_or_answered with ⟨hanswers, _, _, hlate⟩ | ⟨a, hanswers, hlate, hsucc, hfail⟩
  · have hnone : ∀ a, a ∉ c.answers := by simp [hanswers]
    exact ⟨by simp [hanswers], hcomplete, fun a ha => absurd ha (hnone a),
      fun a ha => absurd ha (hnone a), hlate⟩
  · refine ⟨by simp [hanswers], hcomplete, fun b hb hs path hpath => ?_, fun b hb hf e he => ?_,
      hlate⟩
    · rw [hanswers, List.mem_singleton] at hb
      subst hb
      obtain ⟨e, ⟨op, db, now, hrounds, hp⟩, hmem⟩ := hsucc hs
      rw [hrpc] at hrounds
      have hop : Op.updateLock path ∈ [op] := hrounds ▸ List.mem_map_of_mem hpath
      rw [← List.mem_singleton.mp hop] at hp
      exact ⟨e, db, now, hp, mem_entriesOf.mp hmem⟩
    · rw [hanswers, List.mem_singleton] at hb
      subst hb
      have hmem := mem_entriesOf.mpr he
      rw [hfail hf] at hmem
      cases hmem

/-- In every run in which no handler of `update_lock` proposes a first entry for a
request with further paths, `update_lock` is all or nothing. -/
theorem allOrNothing_of_locksOnePath {myIp : String} {db0 : Store} {leaderId : Option Node}
    {s : Service} (h : Runs.Reach (Service.step myIp) (fun s ev => locksOnePath s ev = true)
      (.init db0 leaderId) s) :
    ∀ (id : ℕ) (c : Call) (paths : List String), s.calls[id]? = some c →
      c.rpc = .updateLock paths → AllOrNothing s id paths c := by
  intro id c paths hc hrpc
  have hphase : s.InPhase fun rpc => ∃ paths, rpc = .updateLock paths :=
    Service.inPhase_of_reach (h.mono fun _ _ hok => oneRound_of_locksOnePath hok)
  have hstatus := hphase id
  rw [hc] at hstatus
  exact .of_phase hrpc (hstatus ⟨paths, hrpc⟩)

/-- A file is put, its lock is refreshed, and a refresh of a path that does not exist
is refused. -/
def refreshedEvents : List ServiceEvent :=
  [.arrive (.put "/f" "RE<3,16>"), .arrive (.updateLock ["/f"]),
    .arrive (.updateLock ["/g", "/f"])] ++ proposeEvents 0 100 ++ [.apply none, .runClosure 0] ++
    proposeEvents 1 110 ++ [.handle 2 110 none, .handle 2 110 none, .apply none, .runClosure 0]

/-- Both refreshes of `refreshedEvents` are all or nothing. -/
theorem allOrNothing_refreshedEvents :
    ∃ (s : Service) (c c' : Call),
      Runs.Reach (Service.step "192.168.88.112") (fun s ev => locksOnePath s ev = true)
        (.init KeyedMap.empty none) s ∧
      s.calls[1]? = some c ∧ (c.answers.map fun a => a.response.success) = [true] ∧
      AllOrNothing s 1 ["/f"] c ∧
      s.calls[2]? = some c' ∧ (c'.answers.map fun a => a.response.success) = [false] ∧
      AllOrNothing s 2 ["/g", "/f"] c' := by
  have hrun : ∃ s, Runs.Reach (Service.step "192.168.88.112")
      (fun s ev => locksOnePath s ev = true) (.init KeyedMap.empty none) s ∧
      ((s.calls[1]?.any fun c => decide (c.rpc = .updateLock ["/f"] ∧
          (c.answers.map fun a => a.response.success) = [true])) &&
        s.calls[2]?.any fun c => decide (c.rpc = .updateLock ["/g", "/f"] ∧
          (c.answers.map fun a => a.response.success) = [false])) = true :=
    Runs.exists_reach_of_any_guarded refreshedEvents (by decide +kernel)
  obtain ⟨s, hreach, htest⟩ := hrun
  obtain ⟨htest, htest'⟩ := Bool.and_eq_true_iff.mp htest
  obtain ⟨c, hc, hdone⟩ := (Option.any_eq_true _ _).mp htest
  obtain ⟨c', hc', hdone'⟩ := (Option.any_eq_true _ _).mp htest'
  obtain ⟨hrpc, hans⟩ := of_decide_eq_true hdone
  obtain ⟨hrpc', hans'⟩ := of_decide_eq_true hdone'
  exact ⟨s, c, c', hreach, hc, hans, allOrNothing_of_locksOnePath hreach 1 c _ hc hrpc, hc', hans',
    allOrNothing_of_locksOnePath hreach 2 c' _ hc' hrpc'⟩

/-- A refresh of two paths of which the second does not exist. -/
def halfRefreshEvents : List ServiceEvent :=
  [.arrive (.put "/f" "RE<3,16>"), .arrive (.updateLock ["/f", "/g"])] ++ proposeEvents 0 100 ++
    [.apply none, .runClosure 0] ++ proposeEvents 1 110 ++ [.apply none, .runClosure 0]

/-- In some run `update_lock` replies success, and the second of its paths was never
refreshed. -/
theorem not_allOrNothing_halfRefreshEvents :
    ¬ ∀ s, Runs.Reachable (Service.step "192.168.88.112") (.init KeyedMap.empty none) s →
      ∀ (id : ℕ) (c : Call) (paths : List String), s.calls[id]? = some c →
        c.rpc = .updateLock paths → paths ≠ [] → AllOrNothing s id paths c := by
  intro h
  have hrun : ∃ s, Runs.Reachable (Service.step "192.168.88.112") (.init KeyedMap.empty none) s ∧
      (s.calls[1]?.any fun c => decide (c.rpc = .updateLock ["/f", "/g"]) &&
        c.answers.any fun a => a.response.success &&
          a.history.all fun x => decide (x.2.path ≠ .set "/g")) = true :=
    Runs.exists_reachable_of_any halfRefreshEvents (by decide +kernel)
  obtain ⟨s, hreach, htest⟩ := hrun
  obtain ⟨c, hc, htest⟩ := (Option.any_eq_true _ _).mp htest
  obtain ⟨hrpc, hany⟩ := Bool.and_eq_true_iff.mp htest
  obtain ⟨a, ha, hsent⟩ := List.any_eq_true.mp hany
  obtain ⟨hsucc, hall⟩ := Bool.and_eq_true_iff.mp hsent
  have hres := h s hreach 1 c _ hc (of_decide_eq_true hrpc) (by simp)
  obtain ⟨e, db, now, hp, hmem⟩ := hres.success a ha hsucc "/g" (by simp)
  exact of_decide_eq_true (List.all_eq_true.mp hall _ hmem) (prepare_spec hp).2

end Spkdfs
