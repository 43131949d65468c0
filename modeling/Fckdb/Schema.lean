import Fckdb.Doc

/-! # The schema of a namespace

Inferred from the first write that carries each piece, then enforced. `absorb` is the only way a
batch of records enters a namespace: it fixes the id type, the dimension and the attribute types the
first time it sees them, and coerces or rejects everything after. -/

namespace Fckdb

/-- How an attribute's text becomes a vector. -/
structure EmbedSpec where
  model : Option String := none
  deriving DecidableEq, Repr, Inhabited

/-- A namespace's declared shape. -/
structure Schema where
  attributes : SortedMap String Ty := .empty
  /-- `none` until the first document fixes it. -/
  idType : Option IdType := none
  distanceMetric : DistanceMetric := .cosineDistance
  dim : Option Nat := none
  /-- Fixed at the first write that asks for it; `none` means one shard. -/
  numShards : Option Nat := none
  fts : FtsSchema := .empty
  embed : SortedMap String EmbedSpec := .empty
  deriving DecidableEq, Inhabited

/-- `PartialEq` of two full-text configurations. -/
def FtsConfig.same (a b : FtsConfig) : Bool :=
  a.tokenizer = b.tokenizer && a.params.k1.feq b.params.k1 && a.params.b.feq b.params.b

/-- Adopt declared settings by key, refusing to change one that is already there. -/
def declareInto {α : Type} (same : α → α → Bool) (conflict : String → α → α → Error) :
    List (String × α) → SortedMap String α → Except Error (SortedMap String α)
  | [], current => .ok current
  | (key, v) :: rest, current =>
    match current.get key with
    | some existing =>
      if same existing v then declareInto same conflict rest (current.insert key v)
      else .error (conflict key existing v)
    | none => declareInto same conflict rest (current.insert key v)

namespace Schema

variable [Crates]

/-- Adopt client-declared attribute types. -/
def declare (s : Schema) (declared : SortedMap String Ty) : Except Error Schema := do
  let attributes ← declareInto (fun a b => a = b)
    (fun key existing ty => .bail ("attribute " ++ Crates.debugString key ++ " is already " ++
      existing.name ++ " and cannot be changed to " ++ ty.name)) declared.entries s.attributes
  return { s with attributes }

/-- Adopt client-declared full-text configuration. -/
def declareFts (s : Schema) (declared : FtsSchema) : Except Error Schema := do
  let fts ← declareInto FtsConfig.same
    (fun key _ _ => .bail ("attribute " ++ Crates.debugString key ++
      " already has a full-text configuration and it cannot be changed in place; copy into a " ++
      "new namespace instead")) declared.entries s.fts
  return { s with fts }

/-- Adopt client-declared auto-embedding. -/
def declareEmbed (s : Schema) (declared : SortedMap String EmbedSpec) : Except Error Schema := do
  let embed ← declareInto (fun a b => a = b)
    (fun key _ _ => .bail ("attribute " ++ Crates.debugString key ++
      " already embeds with a different model; vectors from two models are not comparable, so " ++
      "copy into a new namespace instead")) declared.entries s.embed
  return { s with embed }

/-- Fix the shard count, or reject a change to one already set. -/
def setShards (s : Schema) (requested : Nat) (hasData : Bool) : Except Error Schema :=
  if requested = 0 ∨ 256 < requested then
    .error (.bail ("num_shards must be between 1 and 256, got " ++ toString requested))
  else
    match s.numShards with
    | none =>
      if hasData then
        .error (.bail "num_shards cannot be set on a namespace that already holds data")
      else .ok { s with numShards := some requested }
    | some current =>
      if current = requested then .ok s
      else .error (.bail ("num_shards is " ++ toString current ++ " and cannot be changed to " ++
        toString requested ++ " in place; copy into a new namespace instead"))

/-- Shard count, defaulting to one. -/
def shards (s : Schema) : Nat := s.numShards.getD 1

/-- Adopt a distance metric, or reject a change to one already in use. -/
def setMetric (s : Schema) (requested : DistanceMetric) (hasData : Bool) : Except Error Schema :=
  if hasData then
    if s.distanceMetric = requested then .ok s
    else .error (.bail ("distance_metric is " ++ s.distanceMetric.debug ++
      " and cannot be changed to " ++ requested.debug ++
      " in place; copy into a new namespace instead"))
  else .ok { s with distanceMetric := requested }

/-! ## Absorbing a batch -/

/-- Fix the id type, or coerce the id to it. -/
def absorbId (s : Schema) (id : Id) : Except Error (Schema × Id) :=
  match s.idType with
  | none => .ok ({ s with idType := some id.typeOf }, id)
  | some ty => (mapErr (id.coerce ty) ("namespace ids are declared " ++ ty.debug)).map (s, ·)

/-- Fix the dimension, or check the vector against it. -/
def absorbVector (s : Schema) (vector : List F32) (id : Id) : Except Error Schema :=
  if vector.isEmpty then
    if s.dim.isSome then
      .error (.bail ("document " ++ id.display ++
        " has no vector, but this namespace is vector-indexed"))
    else .ok s
  else do
    let s ← match s.dim with
      | none => pure { s with dim := some vector.length }
      | some dim =>
        if dim ≠ vector.length then
          throw (.bail ("document " ++ id.display ++ " has " ++ toString vector.length ++
            " dimensions, this namespace has " ++ toString dim))
        else pure s
    if vector.any (fun f => !f.isFinite) then
      throw (.bail ("document " ++ id.display ++ " has a non-finite vector component"))
    return s

/-- Fix an attribute's type, or coerce the value to it. A null declares nothing. -/
def absorbValue (types : SortedMap String Ty) (id : Id) (key : String) (value : Value) :
    Except Error (SortedMap String Ty × Value) :=
  match types.get key with
  | some ty =>
    (mapErr (value.coerce ty)
      ("document " ++ id.display ++ ", attribute " ++ Crates.debugString key)).map (types, ·)
  | none =>
    match value.typeOf with
    | some ty => .ok (types.insert key ty, value)
    | none => .ok (types, value)

/-- Absorb the entries of an attribute map, in key order. -/
def absorbEntries (id : Id) : SortedMap String Ty → List (String × Value) →
    Except Error (SortedMap String Ty × List (String × Value))
  | types, [] => .ok (types, [])
  | types, (key, value) :: rest => do
    let (types, value) ← absorbValue types id key value
    let (types, rest) ← absorbEntries id types rest
    return (types, (key, value) :: rest)

/-- Absorb the attributes of one record. -/
def absorbAttrs (s : Schema) (attrs : Attrs) (id : Id) : Except Error (Schema × Attrs) := do
  let (attributes, entries) ← absorbEntries id s.attributes attrs.entries
  return ({ s with attributes }, .ofList entries)

/-- Absorb one record. -/
def absorbRecord (s : Schema) : Record → Except Error (Schema × Record)
  | .upsert doc => do
    let (s, id) ← s.absorbId doc.id
    let s ← s.absorbVector doc.vector id
    let (s, attrs) ← s.absorbAttrs doc.attrs id
    return (s, .upsert { doc with id, attrs })
  | .patch id attrs => do
    let (s, id) ← s.absorbId id
    let (s, attrs) ← s.absorbAttrs attrs id
    return (s, .patch id attrs)
  | .delete id => do
    let (s, id) ← s.absorbId id
    return (s, .delete id)

/-- Fold a batch into the schema, coercing its records. -/
def absorb (s : Schema) : List Record → Except Error (Schema × List Record)
  | [] => .ok (s, [])
  | r :: rs => do
    let (s, r) ← s.absorbRecord r
    let (s, rs) ← s.absorb rs
    return (s, r :: rs)

end Schema

end Fckdb
