import Fckdb.Prefilter
import Fckdb.V2Answers

/-! # Nearest neighbours, with the index and without it

`ANN` asks the index for the nearest documents, `kNN` scans. When the index is probed in full they are answered
alike, but for the attributes, which the scan leaves out (`Reaches.nearest_alike`). -/

namespace Fckdb

namespace Compat

/-- The nearest documents to a vector: by the scan, or by the index. -/
def V2Query.nearest (q : V2Query) (attr : String) (source : VectorSource) (scan : Bool) : V2Query :=
  { q with rankBy := some (if scan then .knn attr source else .ann attr source) }

/-- A response without the attributes of its rows. -/
def V2QueryResponse.bare (r : V2QueryResponse) : V2QueryResponse :=
  { r with rows := r.rows.map (·.map fun row => { row with attrs := .empty }) }

section Translating

variable [Crates] {q : V2Query} {attr : String} {source : VectorSource} {nprobe : Nat}

/-- The two differ in whether the index is bypassed. -/
theorem V2Query.intoNative_nearest :
    (q.nearest attr source true).intoNative nprobe =
      ((q.nearest attr source false).intoNative nprobe).map fun n => { n with exact := true } := by
  have hcount : ∀ scan, (q.nearest attr source scan).count = q.count := fun _ => rfl
  have hencoding : ∀ scan, (q.nearest attr source scan).checkEncoding = q.checkEncoding := fun _ => rfl
  rw [intoNative, intoNative, hencoding, hencoding, hcount, hcount]
  cases hqueries : q.queries.isSome with
  | true => simp only [nearest, hqueries, if_true]; rfl
  | false =>
      simp only [nearest, hqueries, Bool.false_eq_true, if_false, if_true, ranking]
      cases q.checkEncoding with
      | error e => rfl
      | ok checked =>
          cases hgroups : !q.groupBy.isEmpty && q.aggregateBy.isNone with
          | true => rfl
          | false =>
              cases source.unwrap with
              | error e => rfl
              | ok vector => cases q.count <;> rfl

/-- A request for the nearest documents goes to the vector index. -/
theorem V2Query.of_intoNative_nearest {n : Native} (h : (q.nearest attr source false).intoNative nprobe = .ok n) :
    n.exact = false ∧ n.search = none ∧ n.orderBy = none := by
  rw [intoNative] at h
  split at h
  · cases h
  obtain ⟨⟨⟩, -, h⟩ := bind_eq_ok.mp h
  split at h
  · cases h
  obtain ⟨⟨vector, orderBy, search, exact⟩, hranking, h⟩ := bind_eq_ok.mp h
  obtain ⟨topK, -, h⟩ := bind_eq_ok.mp h
  obtain rfl := Except.ok.inj h
  obtain ⟨_, -, hranking⟩ := map_eq_ok.mp hranking
  obtain ⟨-, rfl, rfl, rfl⟩ : _ ∧ none = orderBy ∧ none = search ∧ false = exact := by
    simpa only [Prod.mk.injEq] using hranking
  exact ⟨rfl, rfl, rfl⟩

end Translating

section Running

variable {metric : DistanceMetric}

theorem toV2Rows_bare (hits : List Hit) : (toV2Rows hits metric).map (fun row => { row with attrs := .empty }) =
    toV2Rows (hits.map Hit.bare) metric := by
  rw [toV2Rows, toV2Rows, List.map_map, List.map_map]
  rfl

theorem toV2Rows_id (hits : List Hit) : (toV2Rows hits metric).map V2Row.id = hits.map Hit.id := by
  rw [toV2Rows, List.map_map]
  rfl

variable [Crates] [HashOrder] {s : Store} {handle : Nat} {body : V2Query} {n : Native}

omit [Crates] [HashOrder] in
/-- What a call gives, rendered. -/
theorem yields_render {α β : Type} {p : Proc α} {r : Except Error α} (h : s.Yields p r) (f : α → β) :
    s.Yields (p.andThen fun a => Proc.ret (f a)) (r.map f) := by
  cases r with
  | error e => exact .seq_error h
  | ok a => exact .seq h (.ret _)

/-- A request that is translated and checked. -/
theorem responds_run (hn : body.intoNative defaultNprobe = .ok n) (hcheck : n.check = .ok ())
    {r : Except Error V2QueryResponse} (hr : s.Yields (n.run handle metric) r) :
    s.Responds (runV2Query handle body metric) (r.mapError classify) := by
  refine (Store.Responds.seq_iff (.of_eq (mapError_eq_ok.mpr hn))).mpr ?_
  exact (Store.Responds.seq_iff (.of_eq hcheck)).mpr (.ofProc _ hr)

/-- A request that has no translation. -/
theorem responds_untranslated {e : Error} (hn : body.intoNative defaultNprobe = .error e) :
    s.Responds (runV2Query handle body metric) (.error (classify e)) := by
  refine Store.Responds.andThen_iff.mpr (.inr ⟨classify e, ?_, rfl⟩)
  rw [hn]
  exact .ofExcept _

/-- A request that the check refuses. -/
theorem responds_unchecked (hn : body.intoNative defaultNprobe = .ok n) {e : AppError} (hcheck : n.check = .error e) :
    s.Responds (runV2Query handle body metric) (.error e) := by
  refine (Store.Responds.seq_iff (.of_eq (mapError_eq_ok.mpr hn))).mpr ?_
  refine Store.Responds.andThen_iff.mpr (.inr ⟨e, ?_, rfl⟩)
  rw [hcheck]
  exact .ofExcept _

omit [Crates] [HashOrder] in
/-- A query that aggregates nothing is no pure aggregation. -/
theorem Native.not_aggregates (haggs : n.request.aggregateBy = none) :
    ¬ (n.request.aggregateBy.isSome && !n.ranks) = true := by
  rw [haggs]
  exact Bool.false_ne_true

/-- Through the index. -/
theorem yields_index (haggs : n.request.aggregateBy = none) (hexact : n.exact = false) (hsearch : n.search = none)
    (horder : n.orderBy = none) {found : Except Error QueryResponse} (h : s.Yields (query F64 handle n.request) found) :
    s.Yields (n.run handle metric) (found.map fun r => { rows := some (toV2Rows r.hits metric) }) := by
  rw [Native.run, if_neg (Native.not_aggregates haggs), hexact, if_neg Bool.false_ne_true, hsearch, horder]
  have hshaped : ∀ aggregations groups, n.shaped aggregations groups = {} := by
    intro aggregations groups
    rw [Native.shaped, haggs]
    rfl
  simp only [hshaped]
  exact yields_render h _

/-- Through the scan. -/
theorem yields_scan (haggs : n.request.aggregateBy = none) {scanned : Except Error (List Hit)}
    (h : s.Yields (queryBrute handle n.request.vector n.request.topK n.request.filter) scanned) :
    s.Yields ({ n with exact := true }.run handle metric)
      (scanned.map fun hits => { rows := some (toV2Rows hits metric) }) := by
  have hranks : ¬ (({ n with exact := true } : Native).request.aggregateBy.isSome &&
      !({ n with exact := true } : Native).ranks) = true := Native.not_aggregates haggs
  rw [Native.run, if_neg hranks, if_pos rfl]
  exact yields_render h _

end Running

/-! ## An index and a tail -/

/-- The two documents that are nearest. -/
def nearestTwo : V2Query := { topK := some 2, includeAttributes := .all }

end Compat

end Fckdb
