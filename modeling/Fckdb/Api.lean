import Fckdb.Namespace

/-! # The HTTP surface

What a handler answers when it refuses a request: a status and a message. An engine error becomes one by
its kind (`classify`), or is the process's fault wherever the handler only passes it on. -/

namespace Fckdb

/-- The statuses of refused requests. -/
inductive Status
  | badRequest
  | notFound
  | conflict
  | tooManyRequests
  | internalServerError
  | notImplemented
  | badGateway
  | serviceUnavailable
  deriving DecidableEq, Repr

/-- A refused request. -/
structure AppError where
  status : Status
  msg : String
  deriving DecidableEq, Repr

/-- The caller's mistake. -/
def bad (msg : String) : AppError := ⟨.badRequest, msg⟩

/-- `AppError::from`: an engine error that a handler passes on. -/
def AppError.ofError (e : Error) : AppError := ⟨.internalServerError, e.displayChain⟩

/-- Map an engine error to the right status. -/
def classify (e : Error) : AppError :=
  let status := match e.kindOf with
    | some .unimplemented => Status.notImplemented
    | some .unavailable => .serviceUnavailable
    | some .conflict => .conflict
    | some .upstream => .badGateway
    | some .internal => .internalServerError
    | none => if e.isFault then .internalServerError else .badRequest
  ⟨status, e.displayChain⟩

/-- A program of a handler. -/
def Api (α : Type) : Type := StoreProg (Except AppError α)

namespace Api

variable {α β : Type}

/-- Answer. -/
def ret (a : α) : Api α := Prog.done (.ok a)

/-- Refuse. -/
def fail (e : AppError) : Api α := Prog.done (.error e)

/-- The `?` operator. -/
def andThen (p : Api α) (f : α → Api β) : Api β := Prog.tryBind p f

instance : Monad Api where
  pure := ret
  bind := andThen

/-- A computation without requests. -/
def ofExcept (r : Except AppError α) : Api α := Prog.done r

/-- A call of the engine, its errors mapped. -/
def ofProc (f : Error → AppError) (p : Proc α) : Api α :=
  Prog.bind p fun r => Prog.done (r.mapError f)

end Api

end Fckdb
