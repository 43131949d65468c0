import Fckdb.Fts
import Mathlib.Data.Prod.Lex
import Mathlib.Order.Lex

/-! # Documents, records and the schema

A document has an id, a vector and typed attributes; a record is a mutation of one. A namespace's
schema is inferred from its writes and enforced on them: `absorb` folds a batch of records into the
schema, coercing the records to it. -/

namespace Fckdb

/-! ## Ids -/

/-- A document id. -/
inductive Id
  | uint (v : UInt64)
  | uuid (v : Uuid)
  | string (v : String)
  deriving DecidableEq

instance : Inhabited Id := ⟨.uint 0⟩

/-- The declared id type of a namespace. -/
inductive IdType
  | uint
  | uuid
  | string
  deriving DecidableEq, Repr, Inhabited

/-- What orders ids: the variant first, then its content. -/
def Id.key : Id → ℕ ×ₗ ℕ ×ₗ List ℕ ×ₗ String
  | .uint v => toLex (0, toLex (v.toNat, toLex ([], "")))
  | .uuid v => toLex (1, toLex (0, toLex (v.bytes.map UInt8.toNat, "")))
  | .string v => toLex (2, toLex (0, toLex ([], v)))

theorem Id.key_injective : Function.Injective Id.key := by
  intro a b h
  cases a with
  | uint a =>
      cases b with
      | uint b =>
          have : a.toNat = b.toNat := congrArg (fun k => (ofLex (ofLex k).2).1) h
          exact congrArg _ (UInt64.toNat_inj.mp this)
      | uuid b => exact absurd (congrArg (fun k => (ofLex k).1) h) (by simp [Id.key])
      | string b => exact absurd (congrArg (fun k => (ofLex k).1) h) (by simp [Id.key])
  | uuid a =>
      cases b with
      | uint b => exact absurd (congrArg (fun k => (ofLex k).1) h) (by simp [Id.key])
      | uuid b =>
          have : a.bytes.map UInt8.toNat = b.bytes.map UInt8.toNat :=
            congrArg (fun k => (ofLex (ofLex (ofLex k).2).2).1) h
          have := List.map_injective_iff.mpr (fun _ _ => UInt8.toNat_inj.mp) this
          obtain ⟨a, ha⟩ := a
          obtain ⟨b, hb⟩ := b
          simp only at this
          subst this
          rfl
      | string b => exact absurd (congrArg (fun k => (ofLex k).1) h) (by simp [Id.key])
  | string a =>
      cases b with
      | uint b => exact absurd (congrArg (fun k => (ofLex k).1) h) (by simp [Id.key])
      | uuid b => exact absurd (congrArg (fun k => (ofLex k).1) h) (by simp [Id.key])
      | string b =>
          exact congrArg _ (congrArg (fun k => (ofLex (ofLex (ofLex k).2).2).2) h : a = b)

/-- Ids are ordered by variant, then by content. -/
instance : LinearOrder Id where
  le a b := a.key ≤ b.key
  lt a b := a.key < b.key
  le_refl a := le_refl a.key
  le_trans _ _ _ := le_trans
  lt_iff_le_not_ge _ _ := lt_iff_le_not_ge
  le_antisymm _ _ h h' := Id.key_injective (le_antisymm h h')
  le_total a b := le_total a.key b.key
  toDecidableLE a b := inferInstanceAs (Decidable (a.key ≤ b.key))
  toDecidableLT a b := inferInstanceAs (Decidable (a.key < b.key))
  toDecidableEq := instDecidableEqId

/-- The name of an id type under `{:?}`. -/
def IdType.debug : IdType → String
  | .uint => "Uint"
  | .uuid => "Uuid"
  | .string => "String"

/-- Digits of a `u64`, most significant first, after the value read so far. -/
def parseDigits : Nat → List Char → Except Error UInt64
  | acc, [] => .ok (UInt64.ofNat acc)
  | acc, c :: cs =>
    if ¬ c.isDigit then .error (.bail "invalid digit found in string")
    else if 2 ^ 64 ≤ acc * 10 + (c.toNat - 48) then
      .error (.bail "number too large to fit in target type")
    else parseDigits (acc * 10 + (c.toNat - 48)) cs

/-- `str::parse::<u64>`. -/
def parseUInt64 (s : String) : Except Error UInt64 :=
  match s.toList with
  | [] => .error (.bail "cannot parse integer from empty string")
  | ['+'] => .error (.bail "invalid digit found in string")
  | '+' :: cs => parseDigits 0 cs
  | cs => parseDigits 0 cs

namespace Id

/-- The type of an id. -/
def typeOf : Id → IdType
  | uint _ => .uint
  | uuid _ => .uuid
  | string _ => .string

variable [Crates]

/-- `{}` of an id. -/
def display : Id → String
  | uint v => toString v.toNat
  | uuid v => Crates.uuidToString v
  | string v => v

/-- `{:?}` of an id. -/
def debug : Id → String
  | uint v => "Uint(" ++ toString v.toNat ++ ")"
  | uuid v => "Uuid(" ++ Crates.uuidToString v ++ ")"
  | string v => "String(" ++ Crates.debugString v ++ ")"

/-- Reinterpret an id as the namespace's declared type. -/
def coerce (id : Id) (ty : IdType) : Except Error Id :=
  if id.typeOf = ty then .ok id
  else
    match id, ty with
    | string s, .uuid =>
      match Crates.uuidParse s with
      | .ok u => .ok (uuid u)
      | .error e => .error (.bail e)
    | string s, .uint => (parseUInt64 s).map uint
    | uint u, .string => .ok (string (toString u.toNat))
    | uuid u, .string => .ok (string (Crates.uuidToString u))
    | v, ty => .error (.bail ("document id " ++ v.debug ++ " is not a " ++ ty.debug))

end Id

/-! ## Distance -/

/-- How similarity is measured in a namespace. -/
inductive DistanceMetric
  | cosineDistance
  | euclideanSquared
  | dotProduct
  deriving DecidableEq, Repr

instance : Inhabited DistanceMetric := ⟨.cosineDistance⟩

/-- The name of a metric under `{:?}`. -/
def DistanceMetric.debug : DistanceMetric → String
  | .cosineDistance => "CosineDistance"
  | .euclideanSquared => "EuclideanSquared"
  | .dotProduct => "DotProduct"

section Distance

variable {S : Type} [Scalar S]

/-- `Iterator::sum`. -/
def scalarSum (xs : List S) : S := xs.foldl Scalar.add Scalar.sumUnit

def dot (a b : List S) : S := scalarSum (List.zipWith Scalar.mul a b)

def norm (a : List S) : S := Scalar.sqrt (dot a a)

/-- Cosine similarity, zero when either vector is. -/
def cosine (a b : List S) : S :=
  let d := Scalar.mul (norm a) (norm b)
  if Scalar.isZero d then Scalar.zero else Scalar.div (dot a b) d

/-- Squared Euclidean distance. -/
def l2sq (a b : List S) : S :=
  scalarSum (List.zipWith (fun x y => Scalar.mul (Scalar.sub x y) (Scalar.sub x y)) a b)

/-- Higher is better. -/
def DistanceMetric.score : DistanceMetric → List S → List S → S
  | .cosineDistance, a, b => cosine a b
  | .euclideanSquared, a, b => Scalar.neg (l2sq a b)
  | .dotProduct, a, b => dot a b

/-- Lower is better. -/
def DistanceMetric.distance : DistanceMetric → List S → List S → S
  | .cosineDistance, a, b => Scalar.sub Scalar.one (cosine a b)
  | .euclideanSquared, a, b => l2sq a b
  | .dotProduct, a, b => Scalar.neg (dot a b)

end Distance

/-! ## Documents and records -/

/-- The attributes of a document. -/
abbrev Attrs := SortedMap String Value

/-- A stored document. -/
structure Doc where
  id : Id
  vector : List F32
  attrs : Attrs
  deriving DecidableEq, Inhabited

/-- A mutation: an upsert, a merge of attributes where `null` removes one, or a tombstone. -/
inductive Record
  | upsert (doc : Doc)
  | patch (id : Id) (attrs : Attrs)
  | delete (id : Id)
  deriving DecidableEq

namespace Record

instance : Inhabited Record := ⟨.delete default⟩

/-- The document a record is about. -/
def id : Record → Id
  | upsert d => d.id
  | patch id _ => id
  | delete id => id

end Record

end Fckdb
