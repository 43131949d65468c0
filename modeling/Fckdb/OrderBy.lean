import Fckdb.FilterIndex
import Fckdb.Ranking

/-! # Results ordered by an attribute

`order_by` sorts documents by one attribute, those without it last, and by id where values tie. On
documents that conform to a schema its comparison is that of a linear order (`exists_orderRank`), so that
what is returned is a function of the set of documents, like the answers of `top_k`
(`ranking_of_set`). -/

namespace Fckdb

/-- What to order by. -/
structure OrderBy where
  «attribute» : String
  descending : Bool

namespace OrderBy

/-- The value a document is ordered by, if it has one. -/
def key (order : OrderBy) (d : Doc) : Option Value :=
  (d.attrs.get order.attribute).filter fun v => !v.isNull

/-- The row of a document: its key and its hit. -/
def row (order : OrderBy) (incl : Include) (d : Doc) : Option Value × Hit :=
  (order.key d, ⟨d.id, ⟨0⟩, incl.project d.attrs⟩)

/-- The comparison of two values in the direction asked for. -/
def base (order : OrderBy) (x y : Value) : Ordering :=
  let base := (x.compare y).getD .eq
  if order.descending then base.swap else base

/-- The comparison of two rows. -/
def compareRows (order : OrderBy) : Option Value × Hit → Option Value × Hit → Ordering
  | (none, ha), (none, hb) => compare ha.id hb.id
  -- missing sorts last regardless of direction
  | (none, _), (some _, _) => .gt
  | (some _, _), (none, _) => .lt
  | (some x, ha), (some y, hb) => (order.base x y).then (compare ha.id hb.id)

end OrderBy

section Ordering

variable [Crates]

/-- `order_by`. -/
def orderBy (docs : List Doc) (order : OrderBy) (topK : Nat) (filter : Option Filter)
    (incl : Include) (fts : FtsSchema) : List Hit :=
  let rows := (docs.filter (passes filter fts)).map (order.row incl)
  ((rows.insertionSort fun a b => order.compareRows a b ≠ .gt).map (·.2)).take topK

end Ordering

/-! ## The order of documents -/

namespace OrderBy

/-- What the first of two values compares as. -/
def first (order : OrderBy) : Ordering := if order.descending then .gt else .lt

/-- The first document stands before the second: its value comes first in the direction asked for, or the
values tie and its id is smaller; a document without a value stands after those with one. -/
def Precedes (order : OrderBy) (a b : Doc) : Prop :=
  match order.key a, order.key b with
  | some x, some y =>
    x.compare y = some order.first ∨ (x.compare y).getD .eq = .eq ∧ a.id < b.id
  | some _, none => True
  | none, some _ => False
  | none, none => a.id < b.id

/-- **Values of one type have a key** by which they are ordered in the direction asked for. -/
theorem exists_baseKey (order : OrderBy) (ty : Ty) :
    ∃ (κ : Type) (_ : LinearOrder κ) (k : Value → κ), ∀ x y, x.typeOf = some ty → y.typeOf = some ty →
      order.base x y = cmp (k x) (k y) := by
  by_cases hty : ty = .sparseF16
  · -- sparse vectors do not compare: they all tie
    subst hty
    refine ⟨Unit, inferInstance, fun _ => (), fun x y hx hy => ?_⟩
    have hnone : x.compare y = none := by
      cases x <;> cases hx
      cases y <;> cases hy
      rfl
    rw [base, hnone]
    cases order.descending <;> rfl
  · obtain ⟨κ, _, k, hk⟩ := Value.exists_compareKey hty
    cases hdirection : order.descending with
    | false =>
        refine ⟨κ, inferInstance, k, fun x y hx hy => ?_⟩
        rw [base, (hk x y hx hy).1, hdirection]
        rfl
    | true =>
        refine ⟨κᵒᵈ, inferInstance, fun v => OrderDual.toDual (k v), fun x y hx hy => ?_⟩
        rw [base, (hk x y hx hy).1, hdirection]
        exact cmp_swap (k x) (k y)

theorem base_eq_iff (order : OrderBy) (x y : Value) :
    (order.base x y = .lt ↔ x.compare y = some order.first) ∧
      (order.base x y = .eq ↔ (x.compare y).getD .eq = .eq) := by
  rw [base, first]
  cases order.descending <;> cases x.compare y with
  | none => simp
  | some o => cases o <;> simp

/-- **Documents that conform to a schema have a rank**: `compareRows` sorts by it, and it is the order in
which documents precede each other. -/
theorem exists_orderRank (order : OrderBy) (incl : Include) {schema : SortedMap String Ty} {docs : List Doc}
    (h : ∀ d ∈ docs, Conforms schema d) :
    ∃ (κ : Type) (_ : LinearOrder κ) (k : Doc → κ), ∀ a ∈ docs, ∀ b ∈ docs,
      (order.compareRows (order.row incl a) (order.row incl b) ≠ .gt ↔
        toLex (k a, a.id) ≤ toLex (k b, b.id)) ∧
      (toLex (k a, a.id) < toLex (k b, b.id) ↔ order.Precedes a b) := by
  obtain ⟨κ, _, k, hk⟩ := order.exists_baseKey ((schema.get order.attribute).getD .bool)
  have htyped : ∀ d ∈ docs, ∀ v, order.key d = some v →
      v.typeOf = some ((schema.get order.attribute).getD .bool) := by
    intro d hd v hv
    obtain ⟨hget, hnull⟩ := Option.filter_eq_some_iff.mp hv
    obtain ⟨ty, hty, htypeOf⟩ := h d hd _ v hget (by simpa using hnull)
    rw [hty, htypeOf, Option.getD_some]
  -- documents without a value come after all keys
  refine ⟨WithTop κ, inferInstance, fun d => (order.key d).elim ⊤ fun v => (k v : WithTop κ),
    fun a ha b hb => ?_⟩
  rw [Prod.Lex.toLex_le_toLex, Prod.Lex.toLex_lt_toLex]
  simp only [row, compareRows, Precedes]
  cases hx : order.key a with
  | none =>
      cases hy : order.key b with
      | none => simp [compare_le_iff_le]
      | some y => simp
  | some x =>
      cases hy : order.key b with
      | none => simp
      | some y =>
          have hbase := hk x y (htyped a ha x hx) (htyped b hb y hy)
          obtain ⟨hlt, heq⟩ := order.base_eq_iff x y
          show ((order.base x y).then (compare a.id b.id) ≠ .gt ↔
              (k x : WithTop κ) < k y ∨ (k x : WithTop κ) = k y ∧ a.id ≤ b.id) ∧
            ((k x : WithTop κ) < k y ∨ (k x : WithTop κ) = k y ∧ a.id < b.id ↔
              x.compare y = some order.first ∨ (x.compare y).getD .eq = .eq ∧ a.id < b.id)
          rw [← hlt, ← heq, hbase, cmp_eq_lt_iff, cmp_eq_eq_iff, WithTop.coe_lt_coe, WithTop.coe_inj]
          refine ⟨?_, Iff.rfl⟩
          rcases lt_trichotomy (k x) (k y) with hk | hk | hk
          · rw [(cmp_eq_lt_iff _ _).mpr hk]
            exact iff_of_true nofun (.inl hk)
          · rw [(cmp_eq_eq_iff _ _).mpr hk]
            simp [Ordering.then, hk, compare_le_iff_le]
          · rw [(cmp_eq_gt_iff _ _).mpr hk]
            simp [Ordering.then, hk.ne', hk.not_gt]

end OrderBy

/-! ## What is returned -/

section Returned

variable [Crates] {docs docs' : List Doc} (filter : Option Filter) (incl : Include) (fts : FtsSchema)

/-- **What `order_by` returns**: the documents that match, each before those it precedes, up to the limit;
whatever the order in which they are given. -/
theorem orderBy_eq (order : OrderBy) {schema : SortedMap String Ty} (h : ∀ d ∈ docs, Conforms schema d)
    (hids : (docs.map Doc.id).Nodup) :
    ∃ sorted : List Doc, sorted.Perm (docs.filter (passes filter fts)) ∧ sorted.Pairwise order.Precedes ∧
      ∀ docs' n, docs.Perm docs' →
        orderBy docs' order n filter incl fts = (sorted.take n).map fun d => (order.row incl d).2 := by
  obtain ⟨κ, _, k, hk⟩ := order.exists_orderRank incl h
  let rank := fun d : Doc => toLex (k d, d.id)
  have hmatching : ∀ d ∈ docs.filter (passes filter fts), d ∈ docs := fun d hd => List.mem_of_mem_filter hd
  have hnodup : ((docs.filter (passes filter fts)).map rank).Nodup := by
    have hsome : ((docs.filter (passes filter fts)).map Doc.id).Nodup :=
      hids.sublist (List.filter_sublist.map Doc.id)
    have hid : (docs.filter (passes filter fts)).map Doc.id =
        ((docs.filter (passes filter fts)).map rank).map fun r => (ofLex r).2 := by
      rw [List.map_map]
      rfl
    rw [hid] at hsome
    exact hsome.of_map _
  refine ⟨ranked rank (docs.filter (passes filter fts)), ranked_perm rank _, ?_, fun docs' n hperm => ?_⟩
  · refine (ranked_pairwise hnodup).imp_of_mem fun {a b} ha hb hlt => ?_
    have ha := hmatching a ((ranked_perm rank _).mem_iff.mp ha)
    have hb := hmatching b ((ranked_perm rank _).mem_iff.mp hb)
    exact (hk a ha b hb).2.mp hlt
  · have hmatching' : ∀ d ∈ docs'.filter (passes filter fts), d ∈ docs := fun d hd =>
      hperm.mem_iff.mpr (List.mem_of_mem_filter hd)
    have hsort : (ranked rank (docs'.filter (passes filter fts))).map (order.row incl) =
        ((docs'.filter (passes filter fts)).map (order.row incl)).insertionSort
          fun a b => order.compareRows a b ≠ .gt :=
      List.map_insertionSort _ _ _ _ fun a ha b hb => (hk a (hmatching' a ha) b (hmatching' b hb)).1.symm
    rw [orderBy, ← hsort, ← ranked_eq_of_perm hnodup (hperm.filter _), List.map_map, List.map_take]
    rfl

theorem topK_perm (hids : (docs.map Doc.id).Nodup) (hperm : docs.Perm docs') (vector : List F32) (k : Nat)
    (metric : DistanceMetric) :
    topK docs' vector k filter incl metric fts = topK docs vector k filter incl metric fts := by
  have hhits : (((docs.filter (passes filter fts)).map (hitOf vector incl metric)).map Hit.id).Nodup := by
    rw [List.map_map]
    exact hids.sublist (List.filter_sublist.map Doc.id)
  rw [topK, topK, takeBest_eq, takeBest_eq]
  exact (best_perm (Hit.nodup_rank hhits) ((hperm.filter _).map _)).symm

/-- **Ranking is a function of the document set**: both rankings are the same for every order of the
documents, what is ordered by an attribute is in the order of `Precedes`, and a smaller limit gives a prefix. -/
theorem ranking_of_set {schema : SortedMap String Ty} (h : ∀ d ∈ docs, Conforms schema d)
    (hids : (docs.map Doc.id).Nodup) :
    (∀ order : OrderBy,
      (∀ docs' n, docs.Perm docs' →
        orderBy docs' order n filter incl fts = orderBy docs order n filter incl fts) ∧
      (∃ sorted : List Doc, sorted.Perm (docs.filter (passes filter fts)) ∧
        sorted.Pairwise order.Precedes ∧
        ∀ n, orderBy docs order n filter incl fts = (sorted.take n).map fun d => (order.row incl d).2) ∧
      ∀ n m, n ≤ m →
        orderBy docs order n filter incl fts = (orderBy docs order m filter incl fts).take n) ∧
    ∀ vector metric,
      (∀ docs' k, docs.Perm docs' →
        topK docs' vector k filter incl metric fts = topK docs vector k filter incl metric fts) ∧
      ∀ n m, n ≤ m →
        topK docs vector n filter incl metric fts = (topK docs vector m filter incl metric fts).take n := by
  constructor
  · intro order
    obtain ⟨sorted, hperm, hsorted, heq⟩ := orderBy_eq filter incl fts order h hids
    refine ⟨fun docs' n hp => ?_, ⟨sorted, hperm, hsorted, fun n => heq docs n (.refl _)⟩, fun n m hnm => ?_⟩
    · rw [heq docs' n hp, heq docs n (.refl _)]
    · rw [heq docs n (.refl _), heq docs m (.refl _), ← List.map_take, List.take_take, Nat.min_eq_left hnm]
  · intro vector metric
    refine ⟨fun docs' k hp => topK_perm filter incl fts hids hp vector k metric, fun n m hnm => ?_⟩
    rw [topK, topK, takeBest, takeBest, List.take_take, Nat.min_eq_left hnm]

end Returned

/-- Three documents, of which one has no rank. -/
theorem ranking_of_set_three :
    let _ := Crates.inert
    let ranked (id rank : UInt64) : Doc := ⟨.uint id, [], SortedMap.empty.insert "rank" (.uint rank)⟩
    let docs := [Doc.mk (.uint 1) [] .empty, ranked 2 7, ranked 3 7]
    (∀ order : OrderBy,
      (∀ docs' n, docs.Perm docs' → orderBy docs' order n none .all .empty = orderBy docs order n none .all .empty) ∧
      (∃ sorted : List Doc, sorted.Perm (docs.filter (passes none .empty)) ∧
        sorted.Pairwise order.Precedes ∧
        ∀ n, orderBy docs order n none .all .empty = (sorted.take n).map fun d => (order.row .all d).2) ∧
      ∀ n m, n ≤ m → orderBy docs order n none .all .empty = (orderBy docs order m none .all .empty).take n) ∧
    ∀ vector metric,
      (∀ docs' k, docs.Perm docs' →
        topK docs' vector k none .all metric .empty = topK docs vector k none .all metric .empty) ∧
      ∀ n m, n ≤ m →
        topK docs vector n none .all metric .empty = (topK docs vector m none .all metric .empty).take n := by
  intro _ ranked docs
  have hranked (id rank : UInt64) : Conforms (SortedMap.empty.insert "rank" .uint) (ranked id rank) := by
    intro key v hget _
    rw [SortedMap.get_insert] at hget
    split_ifs at hget with hkey
    · cases hget
      exact ⟨.uint, by rw [← hkey, SortedMap.get_insert_self], rfl⟩
    · cases hget
  have hconforms : ∀ d ∈ docs, Conforms (SortedMap.empty.insert "rank" .uint) d := by
    refine List.forall_mem_cons.mpr ⟨fun _ _ hget => (nomatch hget), ?_⟩
    exact List.forall_mem_cons.mpr ⟨hranked 2 7, List.forall_mem_singleton.mpr (hranked 3 7)⟩
  exact ranking_of_set none .all .empty hconforms (by decide)

end Fckdb
