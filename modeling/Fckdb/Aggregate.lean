import Fckdb.Doc

/-! # Aggregations

`Count`, `Sum`, `Min`, `Max` and `Avg`, with optional grouping. An `Aggregator` is fed one document at a
time; what it adds up is a parameter, `f64` in the source. -/

namespace Fckdb

/-! ## What is asked for -/

/-- One aggregation. -/
inductive Agg
  /-- Documents, or documents with a value for the attribute. -/
  | count (attr : Option String)
  | sum (attr : String)
  | min (attr : String)
  | max (attr : String)
  | avg (attr : String)
  deriving DecidableEq, Repr

namespace Agg

/-- The attribute an aggregation reads. -/
def attr : Agg → Option String
  | count a => a
  | sum a => some a
  | min a => some a
  | max a => some a
  | avg a => some a

def name : Agg → String
  | count _ => "Count"
  | sum _ => "Sum"
  | min _ => "Min"
  | max _ => "Max"
  | avg _ => "Avg"

end Agg

/-- One grouping key. -/
inductive GroupKey
  | attr (name : String)
  /-- A group for each distinct element of an array. -/
  | forEachUnique (name : String)
  deriving DecidableEq, Repr

namespace GroupKey

/-- The attribute a key reads. -/
def attributeName : GroupKey → String
  | attr a => a
  | forEachUnique a => a

/-- `dedup_by`: drop each element equal to the last one kept. -/
def dedupFrom (last : Value) : List Value → List Value
  | [] => []
  | v :: vs => if v.equals last then dedupFrom last vs else v :: dedupFrom v vs

/-- `dedup_by` on a whole list. -/
def dedup : List Value → List Value
  | [] => []
  | v :: vs => v :: dedupFrom v vs

/-- The values a document contributes for a key. -/
def values (key : GroupKey) (attrs : Attrs) : List Value :=
  let raw := (attrs.get key.attributeName).getD .null
  match key with
  | attr _ => [raw]
  | forEachUnique _ =>
    if raw.isNull then [.null]
    else
      let elements := raw.elements.insertionSort fun a b => (a.compare b).getD .eq ≠ .gt
      let elements := dedup elements
      if elements.isEmpty then [.null] else elements

end GroupKey

/-! ## Numbers -/

/-- What sums are computed in. -/
class Numbers (N : Type) where
  zero : N
  add : N → N → N
  ofUInt64 : UInt64 → N
  ofInt64 : Int64 → N
  ofF64 : F64 → N
  /-- `n.fract() == 0.0 && n.abs() < 9e15`. -/
  isWhole : N → Bool
  /-- `n < 0.0`. -/
  isNegative : N → Bool
  toInt64 : N → Int64
  toUInt64 : N → UInt64
  toF64 : N → F64
  /-- `n / count as f64`. -/
  average : N → Nat → F64

/-- `f64` as a machine float. -/
def F64.toFloat (a : F64) : Float := Float.ofBits a.bits

instance : Numbers F64 where
  zero := ⟨0⟩
  add a b := ⟨(a.toFloat + b.toFloat).toBits⟩
  ofUInt64 := .ofUInt64
  ofInt64 := .ofInt64
  ofF64 a := a
  -- so far from the ends of `i64`, `fract` is what a conversion to it leaves
  isWhole a := a.toFloat.abs < 9e15 && (F64.ofInt64 a.toFloat.toModel.toInt64).toFloat == a.toFloat
  isNegative a := a.toFloat < 0
  toInt64 a := a.toFloat.toModel.toInt64
  toUInt64 a := a.toFloat.toUInt64
  toF64 a := a
  average a count := ⟨(a.toFloat / Float.ofNat count).toBits⟩

variable {N : Type} [Numbers N]

/-- The number a value stands for. -/
def numeric : Value → Option N
  | .uint u => some (Numbers.ofUInt64 u)
  | .int i => some (Numbers.ofInt64 i)
  | .f64 f => some (Numbers.ofF64 f)
  | .datetime n => some (Numbers.ofInt64 n)
  | _ => none

/-! ## One aggregation -/

/-- Running state for one aggregation. -/
structure Accumulator (N : Type) where
  count : Nat
  sum : N
  /-- No value that is not an integer has been summed. -/
  integral : Bool
  /-- Something has been summed. -/
  seen : Bool
  min : Option Value
  max : Option Value

/-- Nothing accumulated. -/
def Accumulator.new : Accumulator N := ⟨0, Numbers.zero, true, false, none, none⟩

/-- Whether a value is an integer. -/
def Value.isInteger : Value → Bool
  | .uint _ => true
  | .int _ => true
  | _ => false

/-- The attribute of a document that an aggregation reads; null when it has none. -/
def Agg.read (agg : Agg) (attrs : Attrs) : Option Value :=
  agg.attr.map fun a => (attrs.get a).getD .null

section Accumulate

variable [Crates]

/-- Add one value to a `Sum` or an `Avg`. -/
def addValue (acc : Accumulator N) (name attr : String) (v : Value) :
    Except Error (Accumulator N) :=
  if v.isNull then .ok acc
  else
    match numeric v with
    | none => .error (.bail (name ++ " needs a numeric attribute; " ++ Crates.debugString attr ++
        " holds a " ++ (v.typeOf.map Ty.name).getD "null"))
    | some n => .ok { acc with
        integral := acc.integral && v.isInteger
        sum := Numbers.add acc.sum n
        count := acc.count + 1
        seen := true }

/-- The better of the best value so far and a new one: the new one if it compares as `wanted`. -/
def better (wanted : Ordering) (best : Option Value) (v : Value) : Option Value :=
  match best with
  | none => some v
  | some current => if v.compare current = some wanted then some v else some current

/-- One document's contribution. -/
def accumulate (acc : Accumulator N) (agg : Agg) (attrs : Attrs) : Except Error (Accumulator N) :=
  let value := (agg.read attrs).getD .null
  match agg with
  | .count none => .ok { acc with count := acc.count + 1 }
  | .count (some _) => .ok (if value.isNull then acc else { acc with count := acc.count + 1 })
  | .sum a => addValue acc agg.name a value
  | .avg a => addValue acc agg.name a value
  -- nulls are skipped, not treated as the smallest value
  | .min _ => .ok (if value.isNull then acc else
      { acc with min := better .lt acc.min value, count := acc.count + 1 })
  | .max _ => .ok (if value.isNull then acc else
      { acc with max := better .gt acc.max value, count := acc.count + 1 })

end Accumulate

/-- The result of an aggregation. -/
def finalize (acc : Accumulator N) : Agg → Value
  | .count _ => .uint (.ofNat acc.count)
  | .sum _ =>
    if !acc.seen then .uint 0
    else if acc.integral && Numbers.isWhole acc.sum then
      if Numbers.isNegative acc.sum then .int (Numbers.toInt64 acc.sum)
      else .uint (Numbers.toUInt64 acc.sum)
    else .f64 (Numbers.toF64 acc.sum)
  | .avg _ => if acc.count = 0 then .null else .f64 (Numbers.average acc.sum acc.count)
  | .min _ => acc.min.getD .null
  | .max _ => acc.max.getD .null

/-! ## Groups -/

/-- `OrderedValue::cmp`: values that do not compare are ordered by the name of their type. -/
def orderValues (a b : Value) : Ordering :=
  match a.compare b with
  | some o => o
  | none => compare ((a.typeOf.map Ty.name).getD "") ((b.typeOf.map Ty.name).getD "")

/-- `Vec<OrderedValue>` as a key: lexicographic. -/
def orderKeys : List Value → List Value → Ordering
  | [], [] => .eq
  | [], _ :: _ => .lt
  | _ :: _, [] => .gt
  | a :: as, b :: bs => (orderValues a b).then (orderKeys as bs)

/-- The running state of the aggregations of one group, in the order of their labels. -/
abbrev Slot (N : Type) := List (String × Accumulator N)

/-- A group: its key and its state. -/
abbrev Group (N : Type) := List Value × Slot N

/-- The cartesian product of each key's values, the first key slowest. -/
def expandKeys (groupBy : List GroupKey) (attrs : Attrs) : List (List Value) :=
  groupBy.foldl (fun combos key =>
    combos.flatMap fun base => (key.values attrs).map fun v => base ++ [v]) [[]]

/-- Change the state under a key of the sorted groups; a key that is not there starts `fresh`. -/
def updateGroup (key : List Value) (fresh : Slot N) (f : Slot N → Except Error (Slot N)) :
    List (Group N) → Except Error (List (Group N))
  | [] => do return [(key, ← f fresh)]
  | (k, slot) :: rest =>
    match orderKeys key k with
    | .lt => do return (key, ← f fresh) :: (k, slot) :: rest
    | .eq => do return (k, ← f slot) :: rest
    | .gt => do return (k, slot) :: (← updateGroup key fresh f rest)

/-- Accumulates aggregates one document at a time. -/
structure Aggregator (N : Type) where
  aggs : SortedMap String Agg
  groupBy : List GroupKey
  /-- By key. -/
  groups : List (Group N)

/-- One grouped result. -/
structure AggregationGroup where
  key : SortedMap String Value
  values : SortedMap String Value
  deriving DecidableEq

namespace Aggregator

/-- An aggregator that has seen nothing. -/
def new (aggs : SortedMap String Agg) (groupBy : List GroupKey) : Except Error (Aggregator N) :=
  if aggs.entries.isEmpty then .error (.bail "aggregate_by requires at least one aggregation")
  else .ok ⟨aggs, groupBy, []⟩

/-- The state of a group nothing was fed to. -/
def fresh (a : Aggregator N) : Slot N := a.aggs.entries.map fun e => (e.1, .new)

/-- The results of a group. -/
def results (a : Aggregator N) (slot : Slot N) : SortedMap String Value :=
  .ofList ((a.aggs.entries.zip slot).map fun e => (e.1.1, finalize e.2.2 e.1.2))

/-- All results: ungrouped ones, or a row for each group. -/
def finish (a : Aggregator N) : SortedMap String Value × List AggregationGroup :=
  if a.groupBy.isEmpty then
    -- one implicit group, there even when nothing was fed
    (a.results ((a.groups.head?.map (·.2)).getD a.fresh), [])
  else
    (.empty, a.groups.map fun g =>
      ⟨.ofList ((a.groupBy.map (·.attributeName)).zip g.1), a.results g.2⟩)

section Feed

variable [Crates]

/-- Accumulate one document into the aggregations of one group, label by label. -/
def accumulateAll (attrs : Attrs) :
    List (String × Agg) → Slot N → Except Error (Slot N)
  | (_, agg) :: aggs, (label, acc) :: slot => do
    let acc ← accumulate acc agg attrs
    let slot ← accumulateAll attrs aggs slot
    return (label, acc) :: slot
  | _, slot => .ok slot

/-- Feed a document to the group of one of its keys. -/
def feedKey (a : Aggregator N) (attrs : Attrs) (key : List Value) : Except Error (Aggregator N) := do
  let groups ← updateGroup key a.fresh (accumulateAll attrs a.aggs.entries) a.groups
  return { a with groups }

/-- Feed a document to every group it belongs to. -/
def feed (a : Aggregator N) (doc : Doc) : Except Error (Aggregator N) :=
  (expandKeys a.groupBy doc.attrs).foldlM (fun a key => a.feedKey doc.attrs key) a

/-- Feed documents one after the other. -/
def feedAll (a : Aggregator N) (docs : List Doc) : Except Error (Aggregator N) := docs.foldlM feed a

end Feed

end Aggregator

variable [Crates]

/-- `aggregate`: all documents at once. -/
def aggregate (N : Type) [Numbers N] (docs : List Doc) (aggs : SortedMap String Agg)
    (groupBy : List GroupKey) : Except Error (SortedMap String Value × List AggregationGroup) := do
  let a : Aggregator N ← Aggregator.new aggs groupBy
  let a ← a.feedAll docs
  return a.finish

end Fckdb
