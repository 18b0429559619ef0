import Mathlib.Logic.Unique

/-!
# Errors

`ERROR_CODE` and `ErrorMessage` of `common/service.proto`, and the two kinds of
exception the server code throws: a `MessageException`, which carries an
`ErrorMessage`, and any other `std::exception`, of which only the text is
read.  `Exception.errorMessage` is what `fail_response` puts into the
`fail_info` of a response.
-/

namespace Spkdfs

/-- `ERROR_CODE`. -/
inductive ErrorCode
  | commonException
  | pathExistsException
  | pathNotExistsException
  | expectedFileException
  | expectedDirException
  | expectedLockConflict
  | redirectToMaster
  | outOfRangeException
  deriving DecidableEq

/-- `ErrorMessage`. -/
structure ErrorMessage where
  code : ErrorCode
  message : String
  deriving DecidableEq

/-- A thrown exception: `MessageException`, or another `std::exception` with
its `what()`. -/
inductive Exception
  | message (errMsg : ErrorMessage)
  | runtime (what : String)
  deriving DecidableEq

/-- The `fail_info` that the two overloads of `fail_response` write. -/
def Exception.errorMessage : Exception → ErrorMessage
  | .message errMsg => errMsg
  | .runtime what => ⟨.commonException, what⟩

/-- How a call can fail to return a value.  `undefined` is behaviour that the
language leaves open, or a failed assertion; `running` is a call that still waits
for something to happen. -/
inductive Abrupt
  | thrown (e : Exception)
  | undefined
  | running
  deriving DecidableEq

/-- A call that throws and is not caught. -/
def rethrow {α : Type} : Except Exception α → Except Abrupt α
  | .ok a => .ok a
  | .error e => .error (.thrown e)

theorem rethrow_eq_ok {α : Type} {x : Except Exception α} {a : α} :
    rethrow x = .ok a ↔ x = .ok a := by
  cases x <;> simp [rethrow]

/-- A computation that returns has returned at every step. -/
theorem bind_eq_ok {ε α β : Type} {x : Except ε α} {f : α → Except ε β} {b : β} :
    (x >>= f) = .ok b ↔ ∃ a, x = .ok a ∧ f a = .ok b := by
  cases x <;> simp [bind, Except.bind]

/-- The same for a check, which returns no value. -/
theorem check_bind_eq_ok {ε β : Type} {x : Except ε Unit} {f : Unit → Except ε β} {b : β} :
    (x >>= f) = .ok b ↔ x = .ok () ∧ f () = .ok b := by
  rw [bind_eq_ok]
  exact Unique.exists_iff

/-- The computation returns, and its value passes a test. -/
def okWith {ε α : Type} (test : α → Bool) : Except ε α → Bool
  | .ok a => test a
  | .error _ => false

theorem okWith_eq_true {ε α : Type} {test : α → Bool} {x : Except ε α} :
    okWith test x = true ↔ ∃ a, x = .ok a ∧ test a = true := by
  cases x <;> simp [okWith]

end Spkdfs
