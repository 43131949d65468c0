import Fckdb.Crates
import Mathlib.Data.List.Forall2
import Fckdb.Error
import Fckdb.Lib.SortedMap
import Mathlib.Data.List.Lex
import Mathlib.Data.String.Basic

/-! # Typed attribute values

A value is what an attribute of a document holds. `compare` orders two values or says that they are
not comparable; `coerce` reinterprets a value as a declared type. -/

namespace Fckdb

variable [Crates]

/-- An attribute value. `datetime` counts nanoseconds since the epoch. -/
inductive Value
  | null
  | bool (v : Bool)
  | uint (v : UInt64)
  | int (v : Int64)
  | f64 (v : F64)
  | string (v : String)
  | datetime (v : Int64)
  | uuid (v : Uuid)
  | stringArray (v : List String)
  | uintArray (v : List UInt64)
  | intArray (v : List Int64)
  /-- A sparse vector: named dimensions to weights. -/
  | sparse (v : SortedMap String F32)
  deriving DecidableEq

instance : Inhabited Value := ⟨.null⟩

/-- A declared attribute type (the source's `Type`). -/
inductive Ty
  | bool
  | uint
  | int
  | f64
  | string
  | datetime
  | uuid
  | stringArray
  | uintArray
  | intArray
  | sparseF16
  deriving DecidableEq, Repr, Inhabited

/-- The type's name on the wire. -/
def Ty.name : Ty → String
  | .bool => "bool"
  | .uint => "uint"
  | .int => "int"
  | .f64 => "float"
  | .string => "string"
  | .datetime => "datetime"
  | .uuid => "uuid"
  | .stringArray => "[]string"
  | .uintArray => "[]uint"
  | .intArray => "[]int"
  | .sparseF16 => "\x7b\x7df16"

/-- `parse_datetime`: RFC 3339, then a naive datetime, then a bare date. -/
def parseDatetime (s : String) : Except Error Int64 :=
  let ranged (what : String) (n : Option Int64) : Except Error Int64 :=
    match n with
    | some n => .ok n
    | none => .error (.bail (what ++ " " ++ s ++ " is out of nanosecond range"))
  match Crates.parseRfc3339 s with
  | some n => ranged "timestamp" n
  | none =>
    match Crates.parseNaiveDateTime s with
    | some n => ranged "timestamp" n
    | none =>
      match Crates.parseNaiveDate s with
      | some n => ranged "date" n
      | none => .error (.bail ("cannot parse " ++ Crates.debugString s ++ " as a datetime"))

/-- `format_datetime`. -/
def formatDatetime (nanos : Int64) : String := Crates.formatNanos nanos

/-- `i64::try_from(u64)`. -/
def int64TryFrom (u : UInt64) : Except Error Int64 :=
  if u.toNat < 2 ^ 63 then .ok (Int64.ofNat u.toNat)
  else .error (.bail "out of range integral type conversion attempted")

/-- `u64::try_from(i64)`. -/
def uint64TryFrom (i : Int64) : Except Error UInt64 :=
  if 0 ≤ i.toInt then .ok (UInt64.ofNat i.toInt.toNat)
  else .error (.bail "out of range integral type conversion attempted")

/-- Collect the results of a list, the first error winning. -/
def collect {α : Type} : List (Except Error α) → Except Error (List α)
  | [] => .ok []
  | .error e :: _ => .error e
  | .ok a :: rest =>
    match collect rest with
    | .ok as => .ok (a :: as)
    | .error e => .error e

omit [Crates] in
theorem collect_eq_ok {α : Type} {rs : List (Except Error α)} {as : List α} (h : collect rs = .ok as) :
    List.Forall₂ (fun r a => r = .ok a) rs as := by
  induction rs generalizing as with
  | nil =>
      cases h
      exact .nil
  | cons r rs ih =>
      cases r with
      | error e => cases h
      | ok a =>
          rw [collect] at h
          split at h
          · next as' has =>
            cases h
            exact .cons rfl (ih has)
          · cases h

namespace Value

/-- The declared type of a value; `null` has none. -/
def typeOf : Value → Option Ty
  | null => none
  | bool _ => some .bool
  | uint _ => some .uint
  | int _ => some .int
  | f64 _ => some .f64
  | string _ => some .string
  | datetime _ => some .datetime
  | uuid _ => some .uuid
  | stringArray _ => some .stringArray
  | uintArray _ => some .uintArray
  | intArray _ => some .intArray
  | sparse _ => some .sparseF16

/-- Whether this is the absence of a value. -/
def isNull : Value → Bool
  | null => true
  | _ => false

/-- The name of a value's type in error texts. -/
def typeName (v : Value) : String :=
  match v.typeOf with
  | some t => t.name
  | none => "null"

/-- Reinterpret a value as a declared type. -/
def coerce (v : Value) (ty : Ty) : Except Error Value :=
  if v.isNull then .ok null
  else if v.typeOf = some ty then .ok v
  else
    match v, ty with
    | string s, .uuid =>
      match Crates.uuidParse s with
      | .ok u => .ok (uuid u)
      | .error e => .error (.bail e)
    | string s, .datetime => (parseDatetime s).map datetime
    | uint u, .int => (int64TryFrom u).map int
    | uint u, .f64 => .ok (f64 (.ofUInt64 u))
    | int i, .f64 => .ok (f64 (.ofInt64 i))
    | int i, .uint => (uint64TryFrom i).map uint
    | uint u, .datetime => (int64TryFrom u).map datetime
    | uintArray a, .stringArray => .ok (stringArray (a.map (fun u => toString u.toNat)))
    | stringArray [], .uintArray => .ok (uintArray [])
    | stringArray [], .intArray => .ok (intArray [])
    | uintArray a, .intArray => (collect (a.map int64TryFrom)).map intArray
    | v, ty => .error (.bail ("cannot interpret " ++ v.typeName ++ " as " ++ ty.name))

/-- `as_f64`. -/
def asF64 : Value → Option F64
  | uint u => some (.ofUInt64 u)
  | int i => some (.ofInt64 i)
  | f64 f => some f
  | datetime n => some (.ofInt64 n)
  | _ => none

/-- `as_i128`. -/
def asI128 : Value → Option Int
  | uint u => some u.toNat
  | int i => some i.toInt
  | datetime n => some n.toInt
  | _ => none

/-- Ordering for range filters and sorting; `none` means not comparable. -/
def compare : Value → Value → Option Ordering
  | null, null => some .eq
  -- null orders below everything, so sorts are total
  | null, _ => some .lt
  | _, null => some .gt
  | bool a, bool b => some (cmp a.toNat b.toNat)
  | string a, string b => some (cmp a b)
  | uuid a, uuid b => some (cmp (a.bytes.map UInt8.toNat) (b.bytes.map UInt8.toNat))
  | datetime a, datetime b => some (cmp a.toInt b.toInt)
  | stringArray a, stringArray b => some (cmp a b)
  | uintArray a, uintArray b => some (cmp (a.map UInt64.toNat) (b.map UInt64.toNat))
  | intArray a, intArray b => some (cmp (a.map Int64.toInt) (b.map Int64.toInt))
  | sparse _, sparse _ => none
  -- a float operand on either side falls back to `f64`
  | f64 a, b => b.asF64.map a.totalCmp
  | a, f64 b => a.asF64.map (·.totalCmp b)
  | uint a, uint b => some (cmp a.toNat b.toNat)
  | uint a, int b => some (cmp (a.toNat : Int) b.toInt)
  | int a, uint b => some (cmp a.toInt (b.toNat : Int))
  | int a, int b => some (cmp a.toInt b.toInt)
  | _, _ => none

/-- Membership equality: null equals null alone. -/
def equals (a b : Value) : Bool :=
  if a.isNull || b.isNull then a.isNull && b.isNull
  else a.compare b == some .eq

/-- The elements of an array; a scalar yields itself. -/
def elements : Value → List Value
  | stringArray a => a.map string
  | uintArray a => a.map uint
  | intArray a => a.map int
  | other => [other]

/-- The value as text, for the text operators. -/
def asText : Value → Option String
  | string s => some s
  | uuid u => some (Crates.uuidToString u)
  | datetime n => some (formatDatetime n)
  | _ => none

end Value

end Fckdb
