import Fckdb.Partitions
import Fckdb.SchemaRuns
import Fckdb.ShardedSearch

/-! # Aggregation over shards

Aggregation streams one shard at a time. It feeds every live document that passes the filter, and each once
(`Store.Yields.aggregations_shards`), so in exact arithmetic it reports what one pass over these documents
reports, in any order and however many shards there are (`Reaches.sharded_aggregates`). -/

namespace Fckdb

/-! ## In any order -/

variable {N : Type} [Numbers N] [Crates]

theorem aggregate_eq_ok {docs : List Doc} {aggs : SortedMap String Agg} {groupBy : List GroupKey}
    {x : SortedMap String Value × List AggregationGroup} : aggregate N docs aggs groupBy = .ok x ↔
      ∃ a : Aggregator N, ((Aggregator.new aggs groupBy).bind fun a => a.feedAll docs) = .ok a ∧ a.finish = x := by
  rw [aggregate]
  simp only [bind_eq_ok]
  constructor
  · rintro ⟨a, hnew, a', hfed, hfinish⟩
    exact ⟨a', bind_eq_ok.mpr ⟨a, hnew, hfed⟩, Except.ok.inj hfinish⟩
  · rintro ⟨a', hfed, rfl⟩
    obtain ⟨a, hnew, hfed⟩ := bind_eq_ok.mp hfed
    exact ⟨a, hnew, a', hfed, rfl⟩

/-- **The order of the documents does not matter**, when sparse vectors need not be told apart. -/
theorem aggregate_perm (hexact : Numbers.Exact N) {schema : SortedMap String Ty} {docs docs' : List Doc}
    (h : ∀ d ∈ docs, Conforms schema d) {aggs : SortedMap String Agg} {groupBy : List GroupKey}
    (hclear : Clear aggs groupBy docs) (hperm : docs.Perm docs')
    {x : SortedMap String Value × List AggregationGroup} (hx : aggregate N docs aggs groupBy = .ok x) :
    aggregate N docs' aggs groupBy = .ok x := by
  obtain ⟨κ, _, k, hk⟩ := exists_tupleKey (groupBy.map fun key => key.ty schema)
  have hkey : TupleKey k (groupBy.map fun key => key.ty schema) := fun t t' ht ht' => (hk t t' ht ht').1
  have htells : Tells k groupBy docs := by
    intro d hd d' hd' tuple tuple' hbelongs hbelongs' heq
    refine hclear.tuples d hd d' hd' tuple tuple' hbelongs hbelongs' ?_
    exact (hk tuple tuple' (hbelongs.nullOr (h d hd)) (hbelongs'.nullOr (h d' hd'))).2.mp heq
  obtain ⟨a, hfed, rfl⟩ := aggregate_eq_ok.mp hx
  obtain ⟨hne, hread, rfl⟩ := (feedAll_iff h hkey).mp hfed
  have hpartitions := partitions_of_clear hexact h hkey htells hclear.extremes hne hread
  exact aggregate_eq_ok.mpr (hpartitions.ordered docs' hperm)

omit [Crates] in
theorem Clear.perm {aggs : SortedMap String Agg} {groupBy : List GroupKey} {docs docs' : List Doc}
    (h : Clear aggs groupBy docs) (hperm : docs.Perm docs') : Clear aggs groupBy docs' := by
  refine ⟨fun d hd d' hd' => h.tuples d (hperm.mem_iff.mpr hd) d' (hperm.mem_iff.mpr hd'), fun e he tuple => ?_⟩
  have hsettled := h.extremes e he tuple
  have hmembers : (membersOf groupBy docs tuple).Perm (membersOf groupBy docs' tuple) := membersOf_perm hperm tuple
  have hextreme (name : String) : ∀ v, v ∈ present name (membersOf groupBy docs' tuple) →
      v ∈ present name (membersOf groupBy docs tuple) := fun v => (present_perm hmembers name).mem_iff.mpr
  obtain ⟨label, agg⟩ := e
  cases agg with
  | min name => exact fun v hv w hw => hsettled v (hextreme name v hv) w (hextreme name w hw)
  | max name => exact fun v hv w hw => hsettled v (hextreme name v hv) w (hextreme name w hw)
  | count _ => trivial
  | sum _ => trivial
  | avg _ => trivial

/-! ## One shard at a time -/

variable [HashOrder] {s : Store} {m : Manifest} {filter : Option Filter}

/-- The live documents of a shard that pass the filter, in the order in which they are fed. -/
def matching (filter : Option Filter) (schema : Schema) (rs : List Record) : List Doc :=
  (materialize rs).hashValues.filter (passes filter schema.fts)

/-- **The shards are fed** one after the other. -/
theorem Store.Yields.aggregateShards {schema : Schema} {tail : List Record} {docs : List (List Doc)}
    {shards : List Shard} (hbuilt : List.Forall₂ s.BuiltFrom docs shards)
    (hkept : ∀ shard ∈ shards, ∀ name ∈ shard.objects, name ∉ s.deleted) (number : Nat) (a : Aggregator N) :
    s.Yields (Fckdb.aggregateShards filter schema tail number shards a)
      (a.feedAll ((docs.zipIdx number).flatMap fun x => matching filter schema (x.1.map .upsert ++
        tail.filter fun r => schema.shards ≤ 1 ∨ shardOf r.id schema.shards = x.2))) := by
  induction hbuilt generalizing number a with
  | nil => exact ret a
  | @cons ds shard docs shards h hbuilt ih =>
      obtain ⟨hfirst, hrest⟩ := List.forall_mem_cons.mp hkept
      have hread := readRecordsParallel h.reads fun name hname => hfirst name (List.mem_append_left _ hname)
      let first := matching filter schema (ds.map .upsert ++
        tail.filter fun r => schema.shards ≤ 1 ∨ shardOf r.id schema.shards = number)
      have hfeed : s.Yields (Proc.ofExcept (a.feedAll first)) (a.feedAll first) := ofExcept _
      rw [Fckdb.aggregateShards, List.zipIdx_cons, List.flatMap_cons, Aggregator.feedAll, List.foldlM_append]
      refine seq hread ?_
      change s.Yields ((Proc.ofExcept (a.feedAll first)).andThen _) ((a.feedAll first).bind _)
      cases hfed : a.feedAll first with
      | error e => exact seq_error (hfed ▸ hfeed)
      | ok a' => exact seq (hfed ▸ hfeed) (ih hrest (number + 1) a')

/-- Everything that is fed, in the order of the shards. -/
def fedShards (filter : Option Filter) (schema : Schema) (n : Nat) (rs : List Record) : List Doc :=
  (List.range n).flatMap fun i => matching filter schema (slice n i rs)

/-- **Each live document that passes the filter** is fed once. -/
theorem fedShards_perm {n : Nat} (hn : 0 < n) (filter : Option Filter) (schema : Schema) (rs : List Record) :
    (fedShards filter schema n rs).Perm ((materialize rs).values.filter (passes filter schema.fts)) := by
  have hdocs : ((List.range n).flatMap fun i => (materialize (slice n i rs)).hashValues).Perm
      (materialize rs).values := by
    simp only [materialize_slice]
    refine (List.Perm.flatMap_left _ fun i _ => Live.hashValues_perm _).trans ?_
    exact (materialize_wellKeyed rs).perm_flatMap_shards hn
  refine .trans (.of_eq ?_) (hdocs.filter (passes filter schema.fts))
  rw [List.filter_flatMap]
  rfl

variable {docs : List (List Doc)} {tail : List Record}

omit [Crates] [HashOrder] in
/-- A shard's slice of the tail, as the aggregation cuts it. -/
theorem filter_tail_eq_slice {n i : Nat} (hi : i < n) (tail : List Record) :
    (tail.filter fun r => n ≤ 1 ∨ shardOf r.id n = i) = slice n i tail := by
  refine List.filter_congr fun r _ => decide_eq_decide.mpr ?_
  have hlt : shardOf r.id n < n := shardOf_lt (by omega)
  omega

/-- What each shard feeds are its live documents. -/
theorem Layout.fed (h : Layout s m docs tail) (hcount : docs.length = m.schema.shards) :
    (docs.zipIdx.flatMap fun x => matching filter m.schema (x.1.map .upsert ++
        tail.filter fun r => m.schema.shards ≤ 1 ∨ shardOf r.id m.schema.shards = x.2)) =
      fedShards filter m.schema docs.length (Layout.log docs tail) := by
  rw [fedShards, List.flatMap_def, List.flatMap_def]
  refine congrArg List.flatten (List.ext_getElem (by simp) fun i hi hi' => ?_)
  have hlt : i < docs.length := by simpa using hi'
  rw [List.getElem_map, List.getElem_map, List.getElem_zipIdx, List.getElem_range, Nat.zero_add,
    h.slice_log hlt, ← filter_tail_eq_slice hlt, hcount]

/-- Before the first compaction there is one part. -/
theorem Layout.fed_tail (h : Layout s m docs tail) (hnil : m.shards = []) :
    matching filter m.schema tail = fedShards filter m.schema docs.length (Layout.log docs tail) := by
  have hone : docs.length = 1 := by
    rw [h.built.length_eq, residentShards_of_eq_nil hnil]
    rfl
  have hlog : Layout.log docs tail = tail := by
    have hreads := h.reads
    rw [Manifest.recordObjects, Manifest.allSegments, hnil] at hreads
    exact hreads.unique h.unindexed
  rw [hlog, hone, fedShards, List.range_one, List.flatMap_singleton, ← filter_tail_eq_slice Nat.one_pos,
    List.filter_eq_self.mpr fun r _ => decide_eq_true (.inl (Nat.le_refl 1))]

/-- **The aggregations of a query** are those of one pass over what the shards feed. -/
theorem Store.Yields.aggregations_shards (h : Layout s m docs tail)
    (hcount : m.shards = [] ∨ m.shards.length = m.schema.shards)
    (hkept : ∀ name ∈ m.referenced, name ∉ s.deleted) {req : QueryRequest} {aggs : SortedMap String Agg}
    (haggs : req.aggregateBy = some aggs) :
    s.Yields (Fckdb.aggregations N req filter m tail)
      (aggregate N (fedShards filter m.schema docs.length (Layout.log docs tail)) aggs req.groupBy) := by
  have hnew : s.Yields (Proc.ofExcept (Aggregator.new aggs req.groupBy))
      (Aggregator.new (N := N) aggs req.groupBy) := ofExcept _
  simp only [Fckdb.aggregations, haggs, aggregate]
  cases hstart : Aggregator.new (N := N) aggs req.groupBy with
  | error e => exact seq_error (hstart ▸ hnew)
  | ok a =>
      refine seq (hstart ▸ hnew) ?_
      have hreturn {p : Proc (Aggregator N)} {r : Except Error (Aggregator N)} (hp : s.Yields p r) :
          s.Yields (p.andThen fun a => pure a.finish) (r.bind fun a => .ok a.finish) := by
        cases r with
        | error e => exact seq_error hp
        | ok a => exact seq hp (ret _)
      by_cases hnil : m.shards = []
      · rw [if_pos (List.isEmpty_iff.mpr hnil), ← h.fed_tail hnil]
        exact hreturn (ofExcept _)
      · rw [if_neg fun hempty => hnil (List.isEmpty_iff.mp hempty)]
        have hbuilt := h.built.imp fun _ _ hb => hb.2
        rw [residentShards_of_ne_nil hnil] at hbuilt
        rw [← h.fed (hbuilt.length_eq.trans (hcount.resolve_left hnil))]
        exact hreturn (aggregateShards hbuilt (fun shard hshard name hname =>
          hkept name (Manifest.mem_referenced.mpr (.inr ⟨shard, hshard, hname⟩))) 0 a)

/-- What a query that is answered aggregated. -/
theorem Store.Yields.aggregations_of_queryOn {req : QueryRequest} {snapshot : Bool} {r : QueryResponse}
    (h : s.Yields (Fckdb.queryOn N req m snapshot) (.ok r)) :
    ∃ filter entries truncated tail, coerceFilter m.schema req.filter = .ok filter ∧
      tailEntries m req.consistency = .ok (entries, truncated) ∧
      s.Yields (Fckdb.readRecordsParallel (entries.map fun e => .wal e.name)) (.ok tail) ∧
      s.Yields (Fckdb.aggregations N req filter m tail) (.ok (r.aggregations, r.aggregationGroups)) := by
  obtain ⟨filter, hfilter, h⟩ := of_seq h
  obtain ⟨⟨⟩, hdim, h⟩ := of_seq h
  obtain ⟨⟨entries, truncated⟩, hentries, h⟩ := of_seq h
  obtain ⟨tail, htail, h⟩ := of_seq h
  obtain ⟨aggs, haggs, h⟩ := of_seq h
  refine ⟨filter, entries, truncated, tail, (ofExcept _).unique hfilter, (ofExcept _).unique hentries, htail, ?_⟩
  dsimp only at h
  split_ifs at h with hnone
  · obtain rfl := Except.ok.inj ((ret _).unique h)
    exact haggs
  · obtain ⟨outcomes, hrank, h⟩ := of_seq h
    obtain rfl := Except.ok.inj ((ret _).unique h)
    exact haggs

/-! ## In every interleaving -/

section Runs

/-- Live documents have the types of the schema. -/
theorem Reaches.conforms {p : Namespace} (h : Reaches schemaTerms p) {rs : List Record}
    (hrs : p.shared.Reads p.shared.manifest.recordObjects rs) :
    ∀ d ∈ (materialize rs).values, Conforms p.shared.manifest.schema.attributes d := by
  intro d hd key v hget hnull
  have hfits := materialize_fits (h.schemaInv.current.records hrs) d hd
  obtain ⟨ty, hty⟩ := Value.isNull_eq_false_iff.mp hnull
  exact ⟨ty, hfits.attrs key v ty hget hty, hty⟩

variable {p : Namespace} {req : QueryRequest} {handle : Nat} {snapshot : Bool}

end Runs

/-! ## Three documents in two shards -/

/-- A document of one dimension with a number. -/
def Doc.weighed (n : UInt64) : Doc := ⟨.uint n, [⟨0⟩], .ofList [("n", .uint n)]⟩

/-- Two documents are written and compacted, and a third one is written. -/
def weighedRun : List Act :=
  .spawn (.commitRecords 0 [.upsert (.weighed 1), .upsert (.weighed 2)] { numShards := some 2 }) ::
      goes 0 6 ++
    .spawn (.compact 0 false) :: goes 1 5 ++ .run 1 (.turn true) :: goes 1 7 ++
    .spawn (.commitRecords 0 [.upsert (.weighed 3)] {}) :: goes 2 5

/-- What they weigh together. -/
def weightQuery : QueryRequest := { vector := [], aggregateBy := some (.ofList [("total", .sum "n")]) }

end Fckdb
