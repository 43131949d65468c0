import Fckdb.Value
import Mathlib.Data.List.Sort

/-! # Sparse-vector index

An inverted list for each named dimension of a sparse-vector attribute. -/

namespace Fckdb

/-- An inverted index of one sparse-vector attribute. -/
structure SparseIndex where
  /-- Sorted by dimension. -/
  dims : List (String × List (Nat × F32))
  docCount : Nat
  deriving DecidableEq

/-- Add the weights of one vector; a zero weight is not stored. -/
def addWeights (postings : SortedMap String (List (Nat × F32))) (ordinal : Nat)
    (vector : SortedMap String F32) : SortedMap String (List (Nat × F32)) :=
  vector.entries.foldl (fun postings e =>
    if F32.feq e.2 ⟨0⟩ then postings
    else postings.insert e.1 (((postings.get e.1).getD []) ++ [(ordinal, e.2)])) postings

namespace SparseIndex

/-- Index the vectors of one attribute, given with the ordinals of their documents. -/
def build (docs : List (Nat × SortedMap String F32)) (docCount : Nat) : SparseIndex where
  dims :=
    (docs.foldl (fun postings d => addWeights postings d.1 d.2) .empty).entries.map
      fun e => (e.1, e.2.insertionSort (fun a b => a.1 ≤ b.1))
  docCount

/-- Nothing is indexed. -/
def isEmpty (x : SparseIndex) : Bool := x.dims.isEmpty

end SparseIndex

end Fckdb
