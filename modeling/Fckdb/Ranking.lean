import Fckdb.Filter
import Fckdb.Lib.Best

/-! # Ranked results

Hits are ordered by score, best first, and by id where scores tie, so that the order does not depend
on how candidates were enumerated. -/

namespace Fckdb

/-- Which attributes a query returns. -/
inductive Include
  | none
  | all
  | only (keys : List String)
  deriving DecidableEq

/-- The attributes of a document that a query returns. -/
def Include.project : Include → Attrs → Attrs
  | none, _ => .empty
  | all, attrs => attrs
  | only keys, attrs => .ofList (keys.filterMap fun k => (attrs.get k).map (k, ·))

/-- One ranked result. -/
structure Hit where
  id : Id
  score : F32
  attrs : Attrs
  deriving DecidableEq, Inhabited

namespace Hit

/-- `b.score.total_cmp(&a.score).then_with(|| a.id.cmp(&b.id))`. -/
def cmp (a b : Hit) : Ordering := (b.score.totalCmp a.score).then (compare a.id b.id)

/-- What hits are sorted by: the score, descending, then the id. -/
def rank (h : Hit) : ℤᵒᵈ ×ₗ Id := toLex (OrderDual.toDual (totalKey 32 h.score.bits.toNat), h.id)

theorem cmp_ne_gt {a b : Hit} : a.cmp b ≠ .gt ↔ a.rank ≤ b.rank := by
  rw [cmp, F32.totalCmp, cmp_eq_compare]
  exact compare_then_ne_gt

/-- Hits of different documents have different ranks. -/
theorem nodup_rank {hits : List Hit} (h : (hits.map Hit.id).Nodup) : (hits.map rank).Nodup := by
  have hid : hits.map Hit.id = (hits.map rank).map fun r => (ofLex r).2 := by
    rw [List.map_map]
    rfl
  rw [hid] at h
  exact h.of_map _

end Hit

/-- Sort hits, best first, and keep `k` of them. -/
def takeBest (k : Nat) (hits : List Hit) : List Hit :=
  (hits.insertionSort fun a b => a.cmp b ≠ .gt).take k

/-- What is kept is the best by rank. -/
theorem takeBest_eq (k : Nat) (hits : List Hit) : takeBest k hits = best Hit.rank k hits := by
  simp only [takeBest, best, ranked, Hit.cmp_ne_gt]

variable [Crates]

/-- `filter.is_none_or(|f| f.matches(..))`. -/
def passes (filter : Option Filter) (fts : FtsSchema) (d : Doc) : Bool :=
  filter.all fun f => f.matches d.attrs fts

/-- The hit of a document for a query vector. -/
def hitOf (vector : List F32) (incl : Include) (metric : DistanceMetric) (d : Doc) : Hit :=
  ⟨d.id, metric.score vector d.vector, incl.project d.attrs⟩

/-- `top_k`: the best hits among the documents that match. -/
def topK (docs : List Doc) (vector : List F32) (k : Nat) (filter : Option Filter)
    (incl : Include) (metric : DistanceMetric) (fts : FtsSchema) : List Hit :=
  takeBest k ((docs.filter (passes filter fts)).map (hitOf vector incl metric))

end Fckdb
