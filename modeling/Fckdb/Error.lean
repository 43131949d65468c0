import Mathlib.Init

/-! # Errors

An engine error is a chain: the outermost message first, then what it wraps. Each link says where it
comes from, because that — not its text — decides how a failure is reported. -/

namespace Fckdb

/-- A failure whose status is not the default. -/
inductive Kind
  | unimplemented
  | unavailable
  | conflict
  | upstream
  | internal
  deriving DecidableEq, Repr

/-- What produced one link of an error chain. -/
inductive Source
  /-- `anyhow!`, `bail!`, a context text, or a parse error of a plain crate. -/
  | message
  /-- `error::kinded`. -/
  | kinded (kind : Kind)
  | objectStore
  | io
  | serdeJson
  deriving DecidableEq, Repr

/-- One link of an error chain. -/
structure Cause where
  source : Source
  msg : String
  deriving DecidableEq, Repr

/-- An error: its outermost link and the links under it. -/
structure Error where
  outer : Cause
  under : List Cause
  deriving DecidableEq, Repr

namespace Error

/-- `bail!(msg)`. -/
def bail (msg : String) : Error := ⟨⟨.message, msg⟩, []⟩

/-- `error::kinded(kind, msg)`. -/
def kinded (kind : Kind) (msg : String) : Error := ⟨⟨.kinded kind, msg⟩, []⟩

/-- `object_store::Error`, as `e.into()` or `?` raises it. -/
def objectStore (msg : String) : Error := ⟨⟨.objectStore, msg⟩, []⟩

/-- `e.context(msg)`. -/
def context (e : Error) (msg : String) : Error := ⟨⟨.message, msg⟩, e.outer :: e.under⟩

/-- `format!("{e}")`: the outermost message alone. -/
def display (e : Error) : String := e.outer.msg

/-- `e.chain()`. -/
def chain (e : Error) : List Cause := e.outer :: e.under

/-- `format!("{e:#}")`: the whole chain. -/
def displayChain (e : Error) : String := ": ".intercalate (e.chain.map (·.msg))

/-- The kind attached anywhere in the chain, if any. -/
def kindOf (e : Error) : Option Kind :=
  e.chain.findSome? fun c =>
    match c.source with
    | .kinded kind => some kind
    | _ => none

/-- Whether this failure is the process's fault rather than the caller's. -/
def isFault (e : Error) : Bool :=
  e.chain.any fun c => c.source = .objectStore || c.source = .io || c.source = .serdeJson

end Error

/-- A failure flattened to cross a channel. -/
structure Flat where
  kind : Option Kind
  fault : Bool
  msg : String
  deriving DecidableEq, Repr

namespace Flat

def new (e : Error) : Flat := ⟨e.kindOf, e.isFault, e.displayChain⟩

def intoError (f : Flat) : Error :=
  match f.kind with
  | some kind => .kinded kind f.msg
  | none => if f.fault then .kinded .internal f.msg else .bail f.msg

end Flat

/-- `r.map_err(|e| anyhow!("{text}: {e}"))`. -/
def mapErr {α : Type} (r : Except Error α) (text : String) : Except Error α :=
  match r with
  | .ok a => .ok a
  | .error e => .error (.bail (text ++ ": " ++ e.display))

@[simp] theorem mapErr_eq_ok {α : Type} {r : Except Error α} {text : String} {a : α} :
    mapErr r text = .ok a ↔ r = .ok a := by
  cases r <;> simp [mapErr]

theorem bind_eq_ok {ε α β : Type} {r : Except ε α} {f : α → Except ε β} {b : β} :
    (r >>= f) = .ok b ↔ ∃ a, r = .ok a ∧ f a = .ok b := by
  cases r with
  | ok a => exact ⟨fun h => ⟨a, rfl, h⟩, fun ⟨_, h, hf⟩ => Except.ok.inj h ▸ hf⟩
  | error e => exact ⟨nofun, fun ⟨_, h, _⟩ => nomatch h⟩

theorem map_eq_ok {ε α β : Type} {r : Except ε α} {f : α → β} {b : β} :
    r.map f = .ok b ↔ ∃ a, r = .ok a ∧ f a = b := by
  cases r <;> simp [Except.map]

theorem mapError_eq_ok {ε ε' α : Type} {r : Except ε α} {f : ε → ε'} {a : α} :
    r.mapError f = .ok a ↔ r = .ok a := by
  cases r with
  | error e => exact iff_of_false nofun nofun
  | ok b => exact ⟨fun h => congrArg _ (Except.ok.inj h), fun h => congrArg _ (Except.ok.inj h)⟩

end Fckdb
