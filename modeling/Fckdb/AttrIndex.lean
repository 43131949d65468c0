import Fckdb.Filter
import Fckdb.Lib.Search
import Mathlib.Data.Finset.Basic
import Mathlib.Data.Finset.Range

/-! # Inverted attribute indexes

One index per attribute: its values in order, each with the ordinals of the documents that hold it.
For array attributes the keys are elements. `select` answers one comparison, `evaluate` a filter;
`none` means that the index cannot bound the answer. -/

namespace Fckdb

/-- What the index could work out about a filter. -/
structure Selection where
  ordinals : Finset Nat
  /-- False when `ordinals` is only a superset. -/
  exact : Bool
  deriving DecidableEq

/-- An inverted index of one attribute. -/
structure AttrIndex where
  /-- Sorted by value. -/
  entries : List (Value × List Nat)
  /-- The source attribute was an array. -/
  multiValued : Bool
  deriving DecidableEq

/-! ## Building -/

/-- What `{:?}` of a value shows: everything but which NaN a NaN is. -/
def debugKey : Value → Value
  | .f64 f => .f64 (if f.isNaN then .nan else f)
  | .sparse m => .sparse (m.mapValues fun _ w => if w.isNaN then .nan else w)
  | v => v

/-- Whether a value is one of the three array forms. -/
def Value.isArray : Value → Bool
  | .stringArray _ | .uintArray _ | .intArray _ => true
  | _ => false

/-- The values a document is indexed under. -/
def indexParts (v : Value) : List Value := if v.isArray then v.elements else [v]

/-- Add an ordinal under a part: to the entry that prints alike, or as a new entry at the end. -/
def addPart (map : List (Value × List Nat)) (q : Nat × Value) : List (Value × List Nat) :=
  if map.any (fun e => debugKey e.1 = debugKey q.2) then
    map.map fun e => if debugKey e.1 = debugKey q.2 then (e.1, e.2 ++ [q.1]) else e
  else map ++ [(q.2, [q.1])]

/-- `Vec::dedup`. -/
def dedupAdjacent : List Nat → List Nat
  | a :: b :: rest => if a = b then dedupAdjacent (b :: rest) else a :: dedupAdjacent (b :: rest)
  | l => l

@[simp] theorem mem_dedupAdjacent {n : Nat} {l : List Nat} : n ∈ dedupAdjacent l ↔ n ∈ l := by
  induction l with
  | nil => rfl
  | cons a as ih =>
      cases as with
      | nil => rfl
      | cons b bs =>
          rw [dedupAdjacent]
          split_ifs with h
          · rw [ih]; simp [h]
          · rw [List.mem_cons, ih, List.mem_cons (l := b :: bs)]

/-- Not after: the order entries are sorted by. -/
def Value.notAfter (a b : Value) : Prop := (a.compare b).getD .eq ≠ .gt

instance : DecidableRel Value.notAfter := fun a b =>
  inferInstanceAs (Decidable ((a.compare b).getD .eq ≠ .gt))

/-- The pairs of ordinal and part, in the order they are indexed. -/
def indexPairs (values : List (Nat × Value)) : List (Nat × Value) :=
  (values.filter fun p => !p.2.isNull).flatMap fun p => (indexParts p.2).map (p.1, ·)

namespace AttrIndex

/-- Index the values of one attribute, given with the ordinals of their documents. -/
def build (values : List (Nat × Value)) : AttrIndex where
  entries :=
    (((indexPairs values).foldl addPart []).insertionSort (fun a b => a.1.notAfter b.1)).map
      fun e => (e.1, dedupAdjacent (e.2.insertionSort (· ≤ ·)))
  multiValued := values.any fun p => p.2.isArray

/-- Nothing is indexed. -/
def isEmpty (x : AttrIndex) : Bool := x.entries.isEmpty

/-! ## Answering -/

/-- The ordinals of the entry a binary search finds for `needle`; incomparable counts as equal. -/
def lookup (x : AttrIndex) (needle : Value) : Finset Nat :=
  match binarySearchBy (fun e => (e.1.compare needle).getD .eq) x.entries with
  | some i => (((x.entries[i]?).map (·.2)).getD []).toFinset
  | none => ∅

/-- The ordinals of every entry whose value is picked. -/
def pickAll (x : AttrIndex) (pick : Value → Bool) : Finset Nat :=
  ((x.entries.filter fun e => pick e.1).flatMap (·.2)).toFinset

variable [Crates]

/-- The ordinals of every entry whose text a pattern operator's operand matches. -/
def selectPattern (x : AttrIndex) (op : Op) (operand : Value) : Option Selection := do
  let pattern ← operand.asText
  let re ← op.matcher pattern
  return ⟨x.pickAll fun v => (v.asText.map re).getD false, true⟩

/-- The ordinals whose value satisfies `op` against `operand`; `none` means "cannot answer". -/
def select (x : AttrIndex) (op : Op) (operand : Value) : Option Selection :=
  match op with
  | .eq =>
    if x.multiValued || operand.isNull then none
    else some ⟨x.lookup operand, true⟩
  | .gt | .gte | .lt | .lte =>
    if operand.isNull then none
    else some ⟨x.pickAll fun v => ((v.compare operand).map op.accepts).getD false, !x.multiValued⟩
  | .in | .containsAny =>
    some ⟨operand.elements.foldl (fun acc w => acc ∪ x.lookup w) ∅, true⟩
  | .contains =>
    if x.multiValued then some ⟨x.lookup operand, true⟩
    else
      some ⟨x.pickAll fun v =>
        match v.asText, operand.asText with
        | some h, some n => hasSubstring h n
        | _, _ => false, true⟩
  | .glob | .iGlob | .regex => x.selectPattern op operand
  -- negations would need the universe of ordinals, full-text the term index
  | _ => none

end AttrIndex

/-! ## Filters -/

/-- `And`: unanswerable operands drop out; exact only if every operand is answered exactly. -/
def intersectSelections (sels : List (Option Selection)) : Option Selection :=
  (sels.foldl (fun acc sel =>
    match sel with
    | none => acc
    | some sel =>
      some (match acc with
        | none => sel
        | some prev => ⟨prev.ordinals ∩ sel.ordinals, prev.exact && sel.exact⟩)) none).map
    fun s => { s with exact := s.exact && sels.all fun x => (x.map (·.exact)).getD false }

/-- `Or`: one unanswerable operand poisons the union. -/
def unionSelections : List (Option Selection) → Option Selection
  | [] => some ⟨∅, true⟩
  | sel :: rest => do
    let sel ← sel
    let rest ← unionSelections rest
    return ⟨sel.ordinals ∪ rest.ordinals, sel.exact && rest.exact⟩

/-- `Not`: a complement is meaningful against an exact set only. -/
def complementSelection (total : Nat) (sel : Option Selection) : Option Selection := do
  let sel ← sel
  if sel.exact then return ⟨(Finset.range total).filter (· ∉ sel.ordinals), true⟩ else none

variable [Crates]

mutual

/-- Bound a filter using whatever attribute indexes exist. -/
def evaluate (indexes : SortedMap String AttrIndex) (total : Nat) : Filter → Option Selection
  | .cmp key op value => (indexes.get key).bind (·.select op value)
  | .and fs => intersectSelections (evaluateAll indexes total fs)
  | .or fs => unionSelections (evaluateAll indexes total fs)
  | .not f => complementSelection total (evaluate indexes total f)

/-- The answers for the operands of a connective. -/
def evaluateAll (indexes : SortedMap String AttrIndex) (total : Nat) :
    List Filter → List (Option Selection)
  | [] => []
  | f :: fs => evaluate indexes total f :: evaluateAll indexes total fs

end

theorem evaluateAll_eq (indexes : SortedMap String AttrIndex) (total : Nat) (fs : List Filter) :
    evaluateAll indexes total fs = fs.map (evaluate indexes total) := by
  induction fs with
  | nil => rfl
  | cons f fs ih => rw [evaluateAll, ih, List.map_cons]

/-! ## The indexes of a list of documents -/

/-- The values of one attribute, with the ordinals of their documents. -/
def attributeValues (docs : List Doc) (key : String) : List (Nat × Value) :=
  docs.zipIdx.filterMap fun p => (p.1.attrs.get key).map (asU32 p.2, ·)

/-- The index of one attribute over the documents of a segment. -/
def attrIndexOf (docs : List Doc) (key : String) : AttrIndex :=
  .build (attributeValues docs key)

/-- One index per declared attribute that indexes anything. -/
def attrIndexes (attributes : SortedMap String Ty) (docs : List Doc) :
    List (String × AttrIndex) :=
  (attributes.keys.map fun a => (a, attrIndexOf docs a)).filter fun p => !p.2.isEmpty

omit [Crates] in
theorem sorted_attrIndexes (attributes : SortedMap String Ty) (docs : List Doc) :
    (attrIndexes attributes docs).Pairwise (fun a b => a.1 < b.1) := by
  refine List.Pairwise.filter _ ?_
  rw [SortedMap.keys, List.map_map, List.pairwise_map]
  exact attributes.sorted

end Fckdb
