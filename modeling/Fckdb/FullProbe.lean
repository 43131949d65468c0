import Fckdb.Alone

/-! # Probing every cluster

A vector query that probes every cluster of every shard, and takes no prefilter path, finds what the
exhaustive scan finds (`Reaches.full_probe`): the clusters hold the documents of their shard, each shard
overlays its own slice of the tail, and the best hits of the shards' best are the best of all. A tail over
the scan cap is refused instead (`overfull_refused`). -/

namespace Fckdb

variable [Crates] [HashOrder]

/-! ## Merging -/

/-- A hit as the exhaustive scan returns it, without attributes. -/
def Hit.bare (h : Hit) : Hit := { h with attrs := .empty }

omit [HashOrder] in
/-- Which attributes are returned does not change the ranking. -/
theorem topK_bare (docs : List Doc) (vector : List F32) (k : Nat) (filter : Option Filter)
    (incl : Include) (metric : DistanceMetric) (fts : FtsSchema) :
    (topK docs vector k filter incl metric fts).map Hit.bare =
      topK docs vector k filter .none metric fts := by
  have hrank : ∀ h : Hit, h.bare.rank = h.rank := fun _ => rfl
  rw [topK, topK, takeBest_eq, takeBest_eq, ← best_map hrank, List.map_map]
  rfl

omit [HashOrder] in
/-- The hits of documents with distinct ids have distinct ids. -/
theorem nodup_hits {docs : List Doc} (h : (docs.map Doc.id).Nodup) (vector : List F32)
    (filter : Option Filter) (incl : Include) (metric : DistanceMetric) (fts : FtsSchema) :
    (((docs.filter (passes filter fts)).map (hitOf vector incl metric)).map Hit.id).Nodup := by
  rw [List.map_map]
  exact h.sublist (List.filter_sublist.map _)

omit [Crates] [HashOrder] in
theorem nodup_takeBest {k : Nat} {hits : List Hit} (h : (hits.map Hit.id).Nodup) :
    ((takeBest k hits).map Hit.id).Nodup := by
  rw [takeBest_eq]
  exact nodup_map_of_subperm h best_subperm

omit [Crates] in
theorem Live.WellKeyed.hashValues_nodup {live : Live} (h : live.WellKeyed) :
    (live.hashValues.map Doc.id).Nodup :=
  ((live.hashValues_perm.map _).nodup_iff).mpr h.nodup_ids

/-- The best of the parts' best are the best of a live set that is cut by shard. -/
theorem merge_filterKeys {n : Nat} (hn : 0 < n) (req : QueryRequest) (filter : Option Filter)
    (schema : Schema) {live : Live} (hlive : live.WellKeyed) :
    takeBest req.topK ((List.range n).flatMap fun i =>
        liveHits req filter schema (live.filterKeys fun id => shardOf id n = i)) =
      liveHits req filter schema live := by
  let hitsOf (docs : List Doc) : List Hit := (docs.filter (passes filter schema.fts)).map
    (hitOf req.vector req.includeAttributes schema.distanceMetric)
  have hbest : ∀ live, liveHits req filter schema live = best Hit.rank req.topK (hitsOf live.hashValues) :=
    fun live => takeBest_eq _ _
  -- the parts' documents are those of the live set
  have hdocs : ((List.range n).flatMap fun i =>
      Live.hashValues (live.filterKeys fun id => shardOf id n = i)).Perm live.hashValues := by
    refine (List.Perm.flatMap_left _ fun i _ => Live.hashValues_perm _).trans ?_
    exact (hlive.perm_flatMap_shards hn).trans (Live.hashValues_perm _).symm
  have hparts : ((List.range n).flatMap fun i =>
      hitsOf (Live.hashValues (live.filterKeys fun id => shardOf id n = i))).Perm (hitsOf live.hashValues) := by
    refine .trans (.of_eq ?_) ((hdocs.filter (passes filter schema.fts)).map
      (hitOf req.vector req.includeAttributes schema.distanceMetric))
    rw [List.filter_flatMap, List.map_flatMap]
  have hnodup : ((hitsOf live.hashValues).map Hit.rank).Nodup :=
    Hit.nodup_rank (nodup_hits hlive.hashValues_nodup _ _ _ _ _)
  simp only [hbest]
  rw [takeBest_eq, best_flatMap _ _ (((hparts.map _).nodup_iff).mpr hnodup)]
  exact (best_perm hnodup hparts.symm).symm

/-- **The best of the shards' best** are the best of the live set. -/
theorem merge_liveHits {n : Nat} (hn : 0 < n) (req : QueryRequest) (filter : Option Filter)
    (schema : Schema) (rs : List Record) :
    takeBest req.topK ((List.range n).flatMap fun i =>
        liveHits req filter schema (materialize (slice n i rs))) =
      liveHits req filter schema (materialize rs) := by
  simp only [materialize_slice]
  exact merge_filterKeys hn req filter schema (materialize_wellKeyed rs)

/-! ## One shard -/

section Shard

variable {s : Store} {docs : List Doc} {shard : Shard} {req : QueryRequest}

omit [Crates] [HashOrder] in
theorem filterMap_getElem?_self {α : Type*} (l : List α) :
    ((List.range l.length).filterMap fun n => l[n]?) = l := by
  induction l with
  | nil => rfl
  | cons a l ih =>
      rw [List.length_cons, List.range_succ_eq_map, List.filterMap_cons, List.getElem?_cons_zero,
        List.filterMap_map]
      exact congrArg (a :: ·) ih

/-- The objects of the probed clusters. -/
def probedNames (i : IndexMeta) (centroids : List (List F32)) (vector : List F32) (nprobe : Nat)
    (metric : DistanceMetric) : List ObjectName :=
  (probe centroids vector nprobe metric).filterMap fun n => (i.clusters[n]?).map .data

omit [HashOrder] in
/-- **The clusters of a shard**, all of them probed, hold its documents. -/
theorem Store.BuiltFrom.probed {i : IndexMeta} (h : s.BuiltFrom docs shard) (hi : shard.index = some i)
    (hne : i.dim ≠ 0) : ∃ flat centroids, s.HasBlob (.data i.centroids) (.centroids flat) ∧
      decodeCentroids flat i.dim = .ok centroids ∧ ∀ (vector : List F32) (metric : DistanceMetric) nprobe,
        i.clusters.length ≤ nprobe → ∃ docs' : List Doc, docs'.Perm docs ∧
          s.Reads (probedNames i centroids vector nprobe metric) (docs'.map .upsert) := by
  obtain ⟨t, schema, hbuilt⟩ := h.index hi
  obtain ⟨flat, groups, hperm, hflat, ⟨put, hput, hblob, -⟩, hclusters⟩ := hbuilt.clusters
  obtain ⟨centroids, hdecode, hcount⟩ := decodeCentroids_eq_ok hne hflat
  refine ⟨flat, centroids, ⟨put, hput, hblob⟩, hdecode, fun vector metric nprobe hfull => ?_⟩
  -- the probed clusters are all clusters
  have hprobe : (probe centroids vector nprobe metric).Perm (List.range centroids.length) :=
    probe_perm vector metric (hcount.trans_le hfull)
  have hnames : ((probe centroids vector nprobe metric).filterMap fun n => i.clusters[n]?).Perm
      i.clusters := by
    refine (hprobe.filterMap _).trans (.of_eq ?_)
    rw [hcount]
    exact filterMap_getElem?_self _
  obtain ⟨groups', hgroups', hperm'⟩ := List.perm_comp_forall₂ hnames hclusters
  refine ⟨groups'.flatten, hperm'.flatten.trans hperm, groups'.map (List.map .upsert), ?_,
    List.map_flatten⟩
  rw [probedNames, ← List.map_filterMap]
  exact List.forall₂_map_left_iff.mpr (List.forall₂_map_right_iff.mpr hgroups')

omit [HashOrder] [Crates] in
/-- The objects of the probed clusters are objects of the shard. -/
theorem mem_objects_of_probed {i : IndexMeta} (hi : shard.index = some i) {centroids : List (List F32)}
    {vector : List F32} {nprobe : Nat} {metric : DistanceMetric} {name : ObjectName}
    (h : name ∈ probedNames i centroids vector nprobe metric) : name ∈ shard.objects := by
  obtain ⟨n, -, hn⟩ := List.mem_filterMap.mp h
  obtain ⟨cluster, hcluster, rfl⟩ := Option.map_eq_some_iff.mp hn
  refine List.mem_append_right _ ?_
  rw [hi, Option.toList_some, List.flatMap_singleton]
  refine List.mem_map_of_mem (List.mem_cons_of_mem _ ?_)
  exact List.mem_append_left _ (List.mem_append_left _ (List.mem_of_getElem? hcluster))

omit [HashOrder] [Crates] in
theorem mem_objects_centroids {i : IndexMeta} (hi : shard.index = some i) :
    ObjectName.data i.centroids ∈ shard.objects := by
  refine List.mem_append_right _ ?_
  rw [hi, Option.toList_some, List.flatMap_singleton]
  exact List.mem_map_of_mem List.mem_cons_self

omit [HashOrder] [Crates] in
/-- **The probed clusters** are read, when the objects are there. -/
theorem Store.Yields.probed {i : IndexMeta} {flat : List F32} {centroids : List (List F32)}
    {rs : List Record} (hflat : s.HasBlob (.data i.centroids) (.centroids flat))
    (hdecode : decodeCentroids flat i.dim = .ok centroids) (hi : shard.index = some i)
    (hkept : ∀ name ∈ shard.objects, name ∉ s.deleted) (hdim : i.dim = req.vector.length)
    {metric : DistanceMetric} (hreads : s.Reads (probedNames i centroids req.vector req.nprobe metric) rs) :
    s.Yields (Fckdb.probedRecords i req metric) (.ok rs) := by
  obtain ⟨put, hput, hblob⟩ := hflat
  rw [Fckdb.probedRecords, if_neg (not_not.mpr hdim)]
  have hflat : s.Yields (readCentroids i.centroids) (.ok flat) := by
    have hthere : s.object (.data i.centroids) = some put := by
      rw [Store.object, if_neg (hkept _ (mem_objects_centroids hi)), hput]
    refine seq (readBlob hthere) ?_
    rw [hblob]
    exact ret _
  refine seq hflat (seq (a := centroids) ?_ ?_)
  · rw [hdecode]
    exact ofExcept _
  · exact readRecordsParallel hreads fun name hname => hkept name (mem_objects_of_probed hi hname)

omit [HashOrder] in
/-- **Probing every cluster** reads the documents of the shard, in some order. -/
theorem Store.Yields.probedRecords {i : IndexMeta} (h : s.BuiltFrom docs shard)
    (hi : shard.index = some i) (hkept : ∀ name ∈ shard.objects, name ∉ s.deleted)
    (hq : req.vector ≠ []) (hdim : i.dim = req.vector.length) (hfull : i.clusters.length ≤ req.nprobe)
    (metric : DistanceMetric) :
    ∃ docs' : List Doc, docs'.Perm docs ∧
      s.Yields (Fckdb.probedRecords i req metric) (.ok (docs'.map .upsert)) := by
  have hne : i.dim ≠ 0 := by
    rw [hdim]
    exact fun hzero => hq (List.eq_nil_of_length_eq_zero hzero)
  obtain ⟨flat, centroids, hflat, hdecode, hreads⟩ := h.probed hi hne
  obtain ⟨docs', hperm, hdocs⟩ := hreads req.vector metric req.nprobe hfull
  exact ⟨docs', hperm, probed hflat hdecode hi hkept hdim hdocs⟩

/-- **A shard at full probe** ranks its documents, overlaid with its slice of the tail. -/
theorem Store.Yields.shardHits {filter : Option Filter} (h : s.BuiltFrom docs shard)
    (hd : (docs.map Doc.id).Nodup) (hkept : ∀ name ∈ shard.objects, name ∉ s.deleted)
    (hscan : s.Yields (prefilterSelection shard req filter) (.ok none)) (hq : req.vector ≠ [])
    (hdim : ∀ i, shard.index = some i → i.dim = req.vector.length)
    (hfull : ∀ i, shard.index = some i → i.clusters.length ≤ req.nprobe) (tail : List Record)
    (schema : Schema) :
    s.Yields (Fckdb.shardHits shard req filter tail schema)
      (.ok ⟨liveHits req filter schema (materialize (docs.map .upsert ++ tail)), shard.index.isSome,
        false⟩) := by
  refine seq hscan ?_
  cases hi : shard.index with
  | none =>
      refine seq (readRecordsParallel h.reads fun name hname => ?_) (ret _)
      exact hkept name (List.mem_append_left _ hname)
  | some i =>
      obtain ⟨docs', hperm, hprobed⟩ := probedRecords h hi hkept hq (hdim i hi) (hfull i hi)
        schema.distanceMetric
      have hlive : replay apply (materialize (docs'.map .upsert)) tail =
          materialize (docs.map .upsert ++ tail) := by
        rw [materialize_upserts_perm hd hperm, materialize, materialize, replay_append]
      rw [← hlive]
      exact seq hprobed (ret _)

end Shard

/-! ## All shards -/

/-- A vector query of the dimension of the manifest that aggregates nothing, probes every cluster, and
takes no prefilter path. -/
structure FullProbe (s : Store) (m : Manifest) (req : QueryRequest) : Prop where
  dim : m.schema.dim = some req.vector.length
  ranks : req.aggregateBy = none
  clusters : ∀ i ∈ m.allIndexes, i.clusters.length ≤ req.nprobe
  scans : ∀ filter, coerceFilter m.schema req.filter = .ok filter →
    ∀ shard ∈ residentShards m, s.Yields (prefilterSelection shard req filter) (.ok none)

section Layouts

variable {s : Store} {m : Manifest} {docs : List (List Doc)} {tail : List Record} {req : QueryRequest}

omit [HashOrder] [Crates] in
/-- The objects of a resident shard are referenced. -/
theorem mem_referenced_resident {shard : Shard} (hshard : shard ∈ residentShards m) {name : ObjectName}
    (hname : name ∈ shard.objects) : name ∈ m.referenced := by
  rw [residentShards] at hshard
  split_ifs at hshard
  · obtain rfl := List.mem_singleton.mp hshard
    cases hname
  · exact Manifest.mem_referenced.mpr (.inr ⟨shard, hshard, hname⟩)

omit [HashOrder] [Crates] in
/-- The index of a resident shard is one of the manifest. -/
theorem mem_allIndexes_resident {shard : Shard} (hshard : shard ∈ residentShards m) {i : IndexMeta}
    (hi : shard.index = some i) : i ∈ m.allIndexes := by
  rw [residentShards] at hshard
  split_ifs at hshard
  · obtain rfl := List.mem_singleton.mp hshard
    cases hi
  · exact List.mem_filterMap.mpr ⟨shard, hshard, hi⟩

omit [HashOrder] in
/-- Each resident shard with its slice of the tail. -/
theorem Layout.zip_tails (h : Layout s m docs tail) :
    (residentShards m).zip (tails m.schema (residentShards m) tail) =
      (List.range docs.length).map fun i => ((residentShards m).getD i {}, slice docs.length i tail) := by
  have hlen : docs.length = (residentShards m).length := h.built.length_eq
  rw [h.slices]
  refine List.ext_getElem (by simp [hlen]) fun i hi hi' => ?_
  have hlt : i < (residentShards m).length := by
    rw [List.length_map, List.length_range] at hi'
    omega
  rw [List.getElem_zip, List.getElem_map, List.getElem_map, List.getElem_range,
    List.getD_eq_getElem?_getD, List.getElem?_eq_getElem hlt, Option.getD_some]

/-- **Ranking every shard** of a layout. -/
theorem Store.Yields.rankShards {filter : Option Filter} (h : Layout s m docs tail)
    (hthere : ∀ name ∈ m.referenced, name ∉ s.deleted) (hq : req.vector ≠ [])
    (hdims : ∀ i ∈ m.allIndexes, i.dim = req.vector.length)
    (hclusters : ∀ i ∈ m.allIndexes, i.clusters.length ≤ req.nprobe)
    (hscans : ∀ shard ∈ residentShards m, s.Yields (prefilterSelection shard req filter) (.ok none)) :
    ∃ outcomes : List ShardOutcome, s.Yields (Fckdb.rankShards req filter m tail) (.ok outcomes) ∧
      outcomes.flatMap (·.hits) = (List.range docs.length).flatMap fun i =>
        liveHits req filter m.schema (materialize (slice docs.length i (Layout.log docs tail))) := by
  have hlen : docs.length = (residentShards m).length := h.built.length_eq
  let outcome (i : Nat) : ShardOutcome :=
    ⟨liveHits req filter m.schema (materialize (slice docs.length i (Layout.log docs tail))),
      ((residentShards m).getD i {}).index.isSome, false⟩
  have hall : ∀ i ∈ List.range docs.length, s.Yields (Fckdb.shardHits ((residentShards m).getD i {}) req
      filter (slice docs.length i tail) m.schema) (.ok (outcome i)) := by
    intro i hi
    have hi := List.mem_range.mp hi
    have hlt : i < (residentShards m).length := hlen ▸ hi
    obtain ⟨hd, hbuilt⟩ := h.shard hi
    have hmem : (residentShards m)[i] ∈ residentShards m := List.getElem_mem hlt
    dsimp only [outcome]
    rw [List.getD_eq_getElem?_getD, List.getElem?_eq_getElem hlt, Option.getD_some, h.slice_log hi]
    exact shardHits hbuilt hd (fun name hname => hthere name (mem_referenced_resident hmem hname))
      (hscans _ hmem) hq (fun j hj => hdims j (mem_allIndexes_resident hmem hj))
      (fun j hj => hclusters j (mem_allIndexes_resident hmem hj)) _ _
  refine ⟨(List.range docs.length).map outcome, ?_, by rw [List.flatMap_map]⟩
  rw [Fckdb.rankShards, h.zip_tails, List.map_map]
  exact tryJoinAll hall

/-- **Probing every cluster** of a layout finds what the exhaustive scan finds, no document twice. -/
theorem Layout.exhausts (h : Layout s s.manifest docs tail) (hq : req.vector ≠ [])
    (hthere : ∀ name ∈ s.manifest.referenced, name ∉ s.deleted)
    (hdims : ∀ i ∈ s.manifest.allIndexes, s.manifest.schema.dim = some i.dim) (hfull : FullProbe s s.manifest req)
    (hcap : s.manifest.unindexedBytes ≤ maxUnindexedScanBytes) {handle : Nat} {snapshot : Bool}
    (hload : s.Yields (loadWith handle req.consistency) (.ok (s.manifest, snapshot))) (other : Nat) :
    ∃ found scanned, s.Yields (query F64 handle req) found ∧
      s.Yields (queryBrute other req.vector req.topK req.filter) scanned ∧
      found.map (fun r => r.hits.map Hit.bare) = scanned ∧ ∀ hits, scanned = .ok hits → (hits.map Hit.id).Nodup := by
  have hdim : checkDim s.manifest.schema req.vector = .ok () := by
    rw [checkDim, hfull.dim]
    exact if_pos (.inr rfl)
  have hrecords : ∀ name ∈ s.manifest.recordObjects, name ∉ s.deleted := fun name hname =>
    hthere name (Manifest.recordObjects_subset _ hname)
  cases hf : coerceFilter s.manifest.schema req.filter with
  | error e =>
      -- both refuse the filter
      exact ⟨_, _, .query hload (Store.Yields.queryOn_filter_error (N := F64) snapshot hf),
        .queryBrute_error other _ _ hf, rfl, nofun⟩
  | ok filter =>
      obtain ⟨outcomes, hrank, houtcomes⟩ := Store.Yields.rankShards h hthere hq
        (fun i hi => Option.some.inj ((hdims i hi).symm.trans hfull.dim)) hfull.clusters (hfull.scans filter hf)
      have htail := Store.Yields.readRecordsParallel h.unindexed fun name hname =>
        hrecords name (List.mem_append_right _ hname)
      obtain ⟨r, hr, hhits, -⟩ := Store.Yields.queryOn_ranked (N := F64) snapshot hf hdim hcap htail
        (.aggregations_none hfull.ranks) hq hrank
      refine ⟨.ok r, _, .query hload hr, .queryBrute other _ _ hf h.reads hrecords, ?_, ?_⟩
      · rw [Except.map, hhits, houtcomes, merge_liveHits h.pos]
        exact congrArg _ (topK_bare _ _ _ _ _ _ _)
      · rintro hits ⟨⟩
        exact nodup_takeBest (nodup_hits (materialize_wellKeyed _).hashValues_nodup _ _ _ _ _)

end Layouts

/-- **Probing every cluster is exhaustive.** A query that works on the current manifest, whose shards are
placed, indexed for its dimension and there, finds what the exhaustive scan finds, no document twice; over
the scan cap, a strongly consistent one is refused. -/
theorem Reaches.full_probe {ok : Terms} {p : Namespace} (h : Reaches ok p) (hplaced : Placement p)
    (hthere : ∀ name ∈ p.shared.manifest.referenced, name ∉ p.shared.deleted)
    (hdims : ∀ i ∈ p.shared.manifest.allIndexes, p.shared.manifest.schema.dim = some i.dim)
    {req : QueryRequest} (hfull : FullProbe p.shared p.shared.manifest req) {handle : Nat}
    {snapshot : Bool} (hload : p.shared.Yields (loadWith handle req.consistency)
      (.ok (p.shared.manifest, snapshot))) (other : Nat) :
    (p.shared.manifest.unindexedBytes ≤ maxUnindexedScanBytes → ∃ found scanned,
      p.shared.Yields (query F64 handle req) found ∧
      p.shared.Yields (queryBrute other req.vector req.topK req.filter) scanned ∧
      found.map (fun r => r.hits.map Hit.bare) = scanned ∧
      ∀ hits, scanned = .ok hits → (hits.map Hit.id).Nodup) ∧
    (maxUnindexedScanBytes < p.shared.manifest.unindexedBytes → req.consistency = .strong →
      ∃ e, p.shared.Yields (query F64 handle req) (.error e)) := by
  obtain ⟨docs, tail, hlayout⟩ := h.layout hplaced
  have hq : req.vector ≠ [] := fun hnil => h.wellBuilt.dim (by rw [hfull.dim, hnil]; rfl)
  refine ⟨fun hcap => hlayout.exhausts hq hthere hdims hfull hcap hload other, fun hover hstrong => ?_⟩
  cases hf : coerceFilter p.shared.manifest.schema req.filter with
  | error e => exact ⟨_, .query hload (Store.Yields.queryOn_filter_error (N := F64) snapshot hf)⟩
  | ok filter =>
      have hdim : checkDim p.shared.manifest.schema req.vector = .ok () := by
        rw [checkDim, hfull.dim]
        exact if_pos (.inr rfl)
      obtain ⟨e, he⟩ := tailEntries_of_gt hover
      rw [← hstrong] at he
      exact ⟨e, .query hload (Store.Yields.queryOn_tail_error (N := F64) snapshot hf hdim he)⟩

omit [HashOrder] in
/-- What a compaction leaves is placed. -/
theorem Compacted.placed {s₀ s : Store} {t : Nat} {buildIndex : Bool} {rs : List Record}
    (h : Compacted s₀ t buildIndex rs s) : Placed s s.manifest := by
  obtain ⟨shards, stamp, hm, hbuilt⟩ := h.manifest
  rw [hm]
  exact Placed.built hbuilt rfl

/-- A document of one dimension. -/
def Doc.flat (n : UInt64) : Doc := ⟨.uint n, [⟨0⟩], .empty⟩

/-- Two documents are written to a namespace of two shards. -/
def flatRun : List Act :=
  .spawn (.commitRecords 0 [.upsert (.flat 1), .upsert (.flat 2)] { numShards := some 2 }) :: goes 0 6

omit [Crates] [HashOrder] in
/-- The two documents are indexed in a shard each, and every cluster is probed. -/
theorem flatRun_full_probe :
    let _ := Crates.inert
    let _ := HashOrder.sorted
    ∃ p req found scanned, Reaches anyTerms p ∧
      p.shared.manifest.shards.map (·.index.isSome) = [true, true] ∧
      FullProbe p.shared p.shared.manifest req ∧ p.shared.Yields (query F64 0 req) found ∧
      p.shared.Yields (queryBrute 0 req.vector req.topK req.filter) scanned ∧
      found.map (fun r => r.hits.map Hit.bare) = scanned := by
  intro _ _
  have hrun : ∃ p, execute service.step ⟨{}, []⟩ flatRun = some p ∧ p.shared.deleted = [] ∧
      p.shared.Reads p.shared.manifest.recordObjects [.upsert (.flat 1), .upsert (.flat 2)] ∧
      p.shared.manifest.compacted true = false ∧ p.shared.manifest.schema.dim = some 1 ∧
      p.shared.manifest.schema.shards = 2 :=
    ⟨_, rfl, rfl, ⟨[_], .cons ⟨_, rfl, rfl⟩ .nil, rfl⟩, rfl, rfl, rfl⟩
  obtain ⟨p₀, hp₀, hdeleted, hreads, hdue, hdim, hcount⟩ := hrun
  have hbuckets : buckets (materialize [.upsert (.flat 1), .upsert (.flat 2)]).values 2 =
      [[.flat 1], [.flat 2]] := by decide +kernel
  rw [← hcount] at hbuckets
  obtain ⟨p, hp, hc⟩ := (Reaches.any hp₀).compacted (fun name _ => by rw [hdeleted]; exact List.not_mem_nil)
    hreads hdue fun docs hdocs hne _ => ivfBuild_isOk _ hne (n := 1) fun d hd => by
      rw [hbuckets] at hdocs
      simp only [List.mem_cons, List.not_mem_nil, or_false] at hdocs
      rcases hdocs with rfl | rfl
      · obtain rfl := List.mem_singleton.mp hd
        rfl
      · obtain rfl := List.mem_singleton.mp hd
        rfl
  have hplaced : Placement p := hc.placed.lands
  obtain ⟨shards, stamp, hm, hbuilt⟩ := hc.manifest
  rw [hbuckets] at hbuilt
  cases hbuilt with | cons h₁ hbuilt =>
  cases hbuilt with | cons h₂ hbuilt =>
  cases hbuilt
  obtain ⟨i₁, hi₁, hb₁⟩ := h₁.indexed (List.cons_ne_nil _ _)
  obtain ⟨i₂, hi₂, hb₂⟩ := h₂.indexed (List.cons_ne_nil _ _)
  have hindexes : p.shared.manifest.allIndexes = [i₁, i₂] := by
    rw [hm, Manifest.allIndexes, Manifest.install_shards]
    simp only [List.filterMap_cons, hi₁, hi₂, List.filterMap_nil]
  have hdim' : p.shared.manifest.schema.dim = some 1 := by rw [hm, Manifest.install_schema, hdim]
  have hdims : ∀ i ∈ p.shared.manifest.allIndexes, p.shared.manifest.schema.dim = some i.dim := by
    rw [hindexes, hdim']
    simp only [List.mem_cons, List.not_mem_nil, or_false]
    rintro i (rfl | rfl)
    · rw [hb₁.dim]
      rfl
    · rw [hb₂.dim]
      rfl
  let req : QueryRequest := { vector := [⟨0⟩], nprobe := i₁.clusters.length + i₂.clusters.length }
  have hfull : FullProbe p.shared p.shared.manifest req := by
    refine ⟨hdim', rfl, ?_, fun filter hf shard _ => ?_⟩
    · rw [hindexes]
      simp only [List.mem_cons, List.not_mem_nil, or_false]
      rintro i (rfl | rfl)
      · exact Nat.le_add_right _ _
      · exact Nat.le_add_left _ _
    · obtain rfl := Except.ok.inj hf
      rw [prefilterSelection.eq_def]
      cases shard.index with
      | none => exact .ret _
      | some i => exact .ret _
  have hcap : p.shared.manifest.unindexedBytes ≤ maxUnindexedScanBytes := by
    rw [hm, Manifest.unindexedBytes, Manifest.install_wal, List.filter_eq_nil_iff.mpr]
    · exact Nat.zero_le _
    · intro e he
      simpa using ⟨e, he, rfl⟩
  obtain ⟨found, scanned, hfound, hscanned, heq, -⟩ := (hp.full_probe hplaced (fun name _ => by
    rw [hc.deleted, hdeleted]
    exact List.not_mem_nil) hdims hfull (Store.Yields.loadWith_strong 0) 0).1 hcap
  refine ⟨p, req, found, scanned, hp, ?_, hfull, hfound, hscanned, heq⟩
  rw [hm, Manifest.install_shards]
  simp only [List.map_cons, hi₁, hi₂, List.map_nil, Option.isSome_some]

/-! ## A tail over the cap -/

/-- A document of one dimension, with a text. -/
def Doc.texted (text : String) : Doc := ⟨.uint 1, [⟨0⟩], .ofList [("text", .string text)]⟩

/-- The document is written. -/
def textRun (text : String) : List Act :=
  .spawn (.commitRecords 0 [.upsert (.texted text)] {}) :: goes 0 6

omit [Crates] [HashOrder] in
/-- A frame is longer than the text in it. -/
theorem utf8ByteSize_le_frameRecords (text : String) :
    text.utf8ByteSize ≤ (frameRecords [.upsert (.texted text)]).length := by
  have hattrs : text.utf8ByteSize ≤ (putAttrs (Doc.texted text).attrs).length := by
    have hentries : (Doc.texted text).attrs.entries = [("text", .string text)] := rfl
    rw [putAttrs, hentries, List.flatMap_singleton, Value.encode, putStr]
    simp only [List.length_append, utf8_length]
    omega
  rw [frameRecords, List.map_singleton, Record.encode, frame]
  simp only [List.flatMap_singleton, frameOne, List.length_append]
  omega

omit [Crates] [HashOrder] in
/-- A text of any size. -/
theorem utf8ByteSize_doubled (n : Nat) (s : String) :
    ((fun s : String => s ++ s)^[n] s).utf8ByteSize = 2 ^ n * s.utf8ByteSize := by
  induction n generalizing s with
  | zero => exact (Nat.one_mul _).symm
  | succ n ih =>
      rw [Function.iterate_succ_apply, ih, String.utf8ByteSize_append, Nat.pow_succ, Nat.mul_assoc,
        Nat.two_mul]

omit [Crates] [HashOrder] in
/-- **A tail over the scan cap** is refused, where the exhaustive scan answers. -/
theorem overfull_not_exhaustive :
    let _ := Crates.inert
    let _ := HashOrder.sorted
    ¬ ∀ p, Reaches anyTerms p → Placement p →
      (∀ name ∈ p.shared.manifest.referenced, name ∉ p.shared.deleted) →
      ∀ req, FullProbe p.shared p.shared.manifest req → ∀ handle hits,
        p.shared.Yields (queryBrute handle req.vector req.topK req.filter) (.ok hits) →
        ∃ r, p.shared.Yields (query F64 handle req) (.ok r) ∧ r.hits.map Hit.bare = hits := by
  intro _ _ h
  have hrun : ∀ text, ∃ p, execute service.step ⟨{}, []⟩ (textRun text) = some p ∧
      p.shared.manifest.schema.dim = some 1 ∧ p.shared.deleted = [] ∧ p.shared.manifest.shards = [] ∧
      p.shared.manifest.unindexedBytes = (frameRecords [.upsert (.texted text)]).length :=
    fun text => ⟨_, rfl, rfl, rfl, rfl, rfl⟩
  obtain ⟨p, hp, hdim, hdeleted, hshards, hbytes⟩ := hrun ((fun s => s ++ s)^[28] "a")
  have hover : maxUnindexedScanBytes < p.shared.manifest.unindexedBytes := by
    rw [hbytes]
    refine Nat.lt_of_lt_of_le ?_ (utf8ByteSize_le_frameRecords _)
    rw [utf8ByteSize_doubled]
    decide
  have hreach := Reaches.any hp
  have hthere : ∀ name ∈ p.shared.manifest.referenced, name ∉ p.shared.deleted := fun name _ => by
    rw [hdeleted]
    exact List.not_mem_nil
  have hplaced : Placement p := by
    refine Placed.lands ⟨.inl hshards, fun i shard hi => ?_⟩
    rw [hshards] at hi
    cases hi
  let req : QueryRequest := { vector := [⟨0⟩] }
  have hindexes : p.shared.manifest.allIndexes = [] := by
    rw [Manifest.allIndexes, hshards]
    rfl
  have hfull : FullProbe p.shared p.shared.manifest req := by
    refine ⟨hdim, rfl, ?_, fun filter hf shard hshard => ?_⟩
    · rw [hindexes]
      exact List.forall_mem_nil _
    · rw [residentShards_of_eq_nil hshards] at hshard
      obtain rfl := List.mem_singleton.mp hshard
      exact .ret _
  obtain ⟨rs, hrs⟩ := hreach.grounded.reads
  obtain ⟨r, hr, -⟩ := h p hreach hplaced hthere req hfull 0 _ (.queryBrute 0 _ _ rfl hrs
    fun name hname => hthere name (Manifest.recordObjects_subset _ hname))
  obtain ⟨e, he⟩ := (hreach.full_probe hplaced hthere (hindexes ▸ List.forall_mem_nil _) hfull
    (Store.Yields.loadWith_strong 0) 0).2 hover rfl
  cases hr.unique he

end Fckdb
