import Spkdfs.Common.Node
import Spkdfs.Node.Namenode

/-!
# The replies of a namenode

The handlers of `node/namenode.cpp` with their replies.  A call carries a
closure `done`, and running `done` sends the response.  The duty to run it moves:

* `done_guard` of the handler runs `done` when the handler returns,
* `done_guard.release()` takes it away from there, and a `CommonClosure` that is
  proposed with the entry gets it,
* `on_apply` runs that closure behind the entry, and braft runs it when the
  proposal is rejected.  In both cases it is run by a thread of its own.

The response itself is shared: the handler, `on_apply` and the sender all hold a
pointer to it.  `CommonClosure::Run` does not look at the status that braft gives
it, so a rejected proposal sends the response as it is.

`Service.step` takes one of these steps at a time.  A handler proposes one entry,
except that of `update_lock`, which has one round of its loop for each path.  The
second `release()` answers a null pointer, so only the first closure of such a
call can send the response.

An exception that the code does not throw by itself (from the database, or from
the text codec of the entry) is a `fault` of the event.
-/

namespace Spkdfs

/-- `message Response`. -/
structure Response where
  success : Bool
  failInfo : Option ErrorMessage
  deriving DecidableEq

namespace Response

/-- A fresh message. -/
def fresh : Response := ⟨false, none⟩

/-- `CommonClosure::succ_response`. -/
def succResponse (r : Response) : Response := { r with success := true }

/-- `fail_response`. -/
def failResponse (e : Exception) (_ : Response) : Response := ⟨false, some e.errorMessage⟩

end Response

/-- A mutating request. -/
inductive Rpc
  | mkdir (path : String)
  | rm (path : String)
  | put (path storageType : String)
  | putOk (path : String) (filesize : UInt64) (sub : List String)
  | updateLock (paths : List String)
  deriving DecidableEq

/-- What the handler of the request proposes, in order. -/
def Rpc.rounds : Rpc → List Op
  | .mkdir path => [.mkdir path]
  | .rm path => [.rm path]
  | .put path storageType => [.put path storageType]
  | .putOk path filesize sub => [.putOk path filesize sub]
  | .updateLock paths => paths.map .updateLock

/-- Where a handler stands. -/
inductive Stage
  | start
  /-- The leader is checked, and these rounds are left. -/
  | ready (todo : List Op)
  /-- The next entry passed its checks and is not proposed yet. -/
  | prepared (entry : Entry) (todo : List Op)
  | returned
  deriving DecidableEq

/-- The entries that `on_apply` has applied without an exception, oldest first,
each with the call whose closure came with it. -/
abbrev History := List (Option ℕ × Entry)

/-- A response as it was sent, with the history up to then. -/
structure Answer where
  response : Response
  history : History
  deriving DecidableEq

/-- A call of a handler. -/
structure Call where
  rpc : Rpc
  stage : Stage
  /-- `done_guard` holds `done`. -/
  doneGuard : Bool
  response : Response
  answers : List Answer
  /-- The handler has thrown. -/
  threw : Bool
  /-- A closure of the call has been run. -/
  closed : Bool
  /-- The response was written after it was sent. -/
  late : Bool
  deriving DecidableEq

/-- `class CommonClosure`: the call whose response it holds, and whether it has
got `done`. -/
structure CommonClosure where
  call : ℕ
  done : Bool
  deriving DecidableEq

/-- A `braft::Task`. -/
structure Proposal where
  closure : CommonClosure
  entry : Entry
  deriving DecidableEq

namespace Call

/-- The call at the start of its handler. -/
def new (rpc : Rpc) : Call where
  rpc := rpc
  stage := .start
  doneGuard := true
  response := .fresh
  answers := []
  threw := false
  closed := false
  late := false

/-- `done->Run()`. -/
def answer (history : History) (c : Call) : Call :=
  { c with answers := c.answers ++ [⟨c.response, history⟩] }

/-- A write to the response. -/
def write (f : Response → Response) (c : Call) : Call :=
  { c with response := f c.response, late := c.late || !c.answers.isEmpty }

/-- The end of the handler, where `done_guard` goes out of scope. -/
def leave (history : History) (c : Call) : Call :=
  let c := if c.doneGuard then c.answer history else c
  { c with doneGuard := false, stage := .returned }

/-- The handler throws: one of its `catch` clauses writes the response, and the
handler ends. -/
def throw (history : History) (e : Exception) (c : Call) : Call :=
  { (c.write (.failResponse e)).leave history with threw := true }

/-- `CommonClosure::Run`. -/
def runClosure (history : History) (done : Bool) (c : Call) : Call :=
  let c := if done then c.answer history else c
  { c with closed := true }

end Call

/-- A namenode with the calls that it serves. -/
structure Service where
  db : Store
  /-- `braft::Node::leader_id`, where `none` is an empty id. -/
  leaderId : Option Node
  calls : List Call
  /-- The proposals that are neither applied nor rejected, in log order. -/
  log : List Proposal
  /-- The closures that a thread is about to run. -/
  fired : List CommonClosure
  history : History

/-- What can happen next. -/
inductive ServiceEvent
  | arrive (rpc : Rpc)
  /-- The handler of a call goes on. -/
  | handle (id : ℕ) (now : UInt64) (fault : Option Exception)
  /-- braft rejects a proposal. -/
  | reject (j : ℕ)
  /-- One round of `on_apply`, with the closure of the proposal. -/
  | apply (fault : Option Exception)
  /-- One round of `on_apply` for an entry that has no closure here. -/
  | applyReplicated (entry : Entry) (fault : Option Exception)
  | runClosure (j : ℕ)
  | leaderChange (leaderId : Option Node)
  deriving DecidableEq

namespace Service

/-- `FLAGS_nn_port`. -/
def nnPort : Int := 10001

/-- `RaftNN::leader`.  Without a known leader it answers this server. -/
def leader (myIp : String) (leaderId : Option Node) : Node :=
  match leaderId with
  | none => ⟨myIp, nnPort, .unknown⟩
  | some node => node

/-- `NamenodeServiceImpl::check_leader`. -/
def checkLeader (myIp : String) (leaderId : Option Node) : Except Exception Unit :=
  let leader := leader myIp leaderId
  if leader.valid = false then .error (.runtime "leader not ready")
  else if leader.ip ≠ myIp then .error (.message ⟨.redirectToMaster, leader.ip⟩)
  else .ok ()

/-- The next action of a handler. -/
inductive Action
  | throw (e : Exception)
  | goto (stage : Stage)
  | propose (entry : Entry) (todo : List Op)
  | leave
  deriving DecidableEq

/-- What the handler of a call does next. -/
def action (myIp : String) (s : Service) (c : Call) (now : UInt64) (fault : Option Exception) :
    Option Action :=
  match c.stage, fault with
  | .returned, _ => none
  | .ready [], _ => some .leave
  | .start, some e | .ready (_ :: _), some e | .prepared _ _, some e => some (.throw e)
  | .start, none =>
    match checkLeader myIp s.leaderId with
    | .error e => some (.throw e)
    | .ok () =>
      if c.rpc.rounds = [] then some (.throw (.runtime "parameter paths required"))
      else some (.goto (.ready c.rpc.rounds))
  | .ready (op :: todo), none =>
    match prepare s.db now op with
    | .error e => some (.throw e)
    | .ok entry => some (.goto (.prepared entry todo))
  | .prepared entry todo, none => some (.propose entry todo)

/-- A namenode without calls. -/
def init (db : Store) (leaderId : Option Node) : Service := ⟨db, leaderId, [], [], [], []⟩

/-- Change one call. -/
def onCall (s : Service) (id : ℕ) (f : Call → Call) : Service :=
  { s with calls := s.calls.modify id f }

/-- What an action does to the call. -/
def Action.run (history : History) : Action → Call → Call
  | .throw e, c => c.throw history e
  | .goto stage, c => { c with stage := stage }
  | .propose _ todo, c => { c with stage := .ready todo, doneGuard := false }
  | .leave, c => c.leave history

/-- What an action of the call `c`, which has the number `id`, proposes.  The new
closure gets what `done_guard` holds. -/
def Action.proposals (id : ℕ) (c : Call) : Action → List Proposal
  | .propose entry _ => [⟨⟨id, c.doneGuard⟩, entry⟩]
  | .throw _ | .goto _ | .leave => []

/-- One step.  `none` is an event that is not enabled, or an entry that stops the
process. -/
def step (myIp : String) (s : Service) : ServiceEvent → Option Service
  | .arrive rpc => some { s with calls := s.calls ++ [.new rpc] }
  | .handle id now fault => do
    let c ← s.calls[id]?
    let a ← action myIp s c now fault
    return { s.onCall id (a.run s.history) with log := s.log ++ a.proposals id c }
  | .reject j => do
    let p ← s.log[j]?
    return { s with log := s.log.eraseIdx j, fired := s.fired ++ [p.closure] }
  | .apply fault =>
    match s.log, fault with
    | [], _ => none
    | p :: rest, some e =>
      some { s.onCall p.closure.call (.write (.failResponse e)) with
        log := rest, fired := s.fired ++ [p.closure] }
    | p :: rest, none => do
      let db ← applyEntry s.db p.entry
      return { s.onCall p.closure.call (.write .succResponse) with
        db := db, log := rest, fired := s.fired ++ [p.closure],
        history := s.history ++ [(some p.closure.call, p.entry)] }
  | .applyReplicated _ (some _) => some s
  | .applyReplicated entry none => do
    let db ← applyEntry s.db entry
    return { s with db := db, history := s.history ++ [(none, entry)] }
  | .runClosure j => do
    let closure ← s.fired[j]?
    return { s.onCall closure.call (.runClosure s.history closure.done) with
      fired := s.fired.eraseIdx j }
  | .leaderChange leaderId => some { s with leaderId := leaderId }

/-! ## The steps -/

/-- What a step can do. -/
theorem step_cases {myIp : String} {s s' : Service} {ev : ServiceEvent}
    (h : s.step myIp ev = some s') :
    (∃ rpc, ev = .arrive rpc ∧ s' = { s with calls := s.calls ++ [.new rpc] }) ∨
    (∃ id now fault c a, ev = .handle id now fault ∧ s.calls[id]? = some c ∧
      action myIp s c now fault = some a ∧
      s' = { s.onCall id (a.run s.history) with log := s.log ++ a.proposals id c }) ∨
    (∃ j p, ev = .reject j ∧ s.log[j]? = some p ∧
      s' = { s with log := s.log.eraseIdx j, fired := s.fired ++ [p.closure] }) ∨
    (∃ p rest e, ev = .apply (some e) ∧ s.log = p :: rest ∧
      s' = { s.onCall p.closure.call (.write (.failResponse e)) with
        log := rest, fired := s.fired ++ [p.closure] }) ∨
    (∃ p rest db, ev = .apply none ∧ s.log = p :: rest ∧ applyEntry s.db p.entry = some db ∧
      s' = { s.onCall p.closure.call (.write .succResponse) with
        db := db, log := rest, fired := s.fired ++ [p.closure],
        history := s.history ++ [(some p.closure.call, p.entry)] }) ∨
    (∃ entry db, ev = .applyReplicated entry none ∧ applyEntry s.db entry = some db ∧
      s' = { s with db := db, history := s.history ++ [(none, entry)] }) ∨
    (∃ j closure, ev = .runClosure j ∧ s.fired[j]? = some closure ∧
      s' = { s.onCall closure.call (.runClosure s.history closure.done) with
        fired := s.fired.eraseIdx j }) ∨
    ∃ leaderId, s' = { s with leaderId := leaderId } := by
  cases ev with
  | arrive rpc => exact Or.inl ⟨rpc, rfl, (Option.some.inj h).symm⟩
  | handle id now fault =>
    obtain ⟨c, hc, h⟩ := Option.bind_eq_some_iff.mp h
    obtain ⟨a, ha, h⟩ := Option.bind_eq_some_iff.mp h
    exact Or.inr (Or.inl ⟨id, now, fault, c, a, rfl, hc, ha, (Option.some.inj h).symm⟩)
  | reject j =>
    obtain ⟨p, hp, h⟩ := Option.bind_eq_some_iff.mp h
    exact Or.inr (Or.inr (Or.inl ⟨j, p, rfl, hp, (Option.some.inj h).symm⟩))
  | apply fault =>
    simp only [step] at h
    split at h
    · cases h
    · rename_i p rest e hlog
      exact Or.inr (Or.inr (Or.inr (Or.inl ⟨p, rest, e, rfl, hlog, (Option.some.inj h).symm⟩)))
    · rename_i p rest hlog
      obtain ⟨db, hdb, h⟩ := Option.bind_eq_some_iff.mp h
      exact Or.inr (Or.inr (Or.inr (Or.inr (Or.inl
        ⟨p, rest, db, rfl, hlog, hdb, (Option.some.inj h).symm⟩))))
  | applyReplicated entry fault =>
    cases fault with
    | some e =>
      exact Or.inr (Or.inr (Or.inr (Or.inr (Or.inr (Or.inr (Or.inr
        ⟨s.leaderId, (Option.some.inj h).symm⟩))))))
    | none =>
      obtain ⟨db, hdb, h⟩ := Option.bind_eq_some_iff.mp h
      exact Or.inr (Or.inr (Or.inr (Or.inr (Or.inr (Or.inl
        ⟨entry, db, rfl, hdb, (Option.some.inj h).symm⟩)))))
  | runClosure j =>
    obtain ⟨closure, hc, h⟩ := Option.bind_eq_some_iff.mp h
    exact Or.inr (Or.inr (Or.inr (Or.inr (Or.inr (Or.inr (Or.inl
      ⟨j, closure, rfl, hc, (Option.some.inj h).symm⟩))))))
  | leaderChange leaderId =>
    exact Or.inr (Or.inr (Or.inr (Or.inr (Or.inr (Or.inr (Or.inr
      ⟨leaderId, (Option.some.inj h).symm⟩))))))

end Service

end Spkdfs
