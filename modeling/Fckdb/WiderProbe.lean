import Fckdb.FullProbe
import Fckdb.ReadYourWrites

/-! # Probing more clusters

The clusters probed for a smaller limit lead those for a larger one (`probe_isPrefix`). Each shard then has
the candidates it had before, and maybe more, also under its slice of the tail: a patch applies to what is
there, and what was there still is (`within_materialize`). So an unfiltered query that probes more clusters
finds results no worse (`Reaches.query_noWorse`). -/

namespace Fckdb

/-- **Probing**: the clusters of a smaller limit come first. -/
theorem probe_isPrefix (centroids : List (List F32)) (q : List F32) (metric : DistanceMetric) {n n' : Nat}
    (h : n ≤ n') : probe centroids q n metric <+: probe centroids q n' metric := by
  rw [probe, probe]
  exact (List.take_prefix_take_left (max_le_max_right 1 h)).map _

/-! ## More candidates -/

/-- The second live set has the documents of the first. -/
def Live.Within (live live' : Live) : Prop := ∀ id d, live.get id = some d → live'.get id = some d

/-- Records do to a document that is there what they do anyway, or leave nothing where there was nothing. -/
theorem effectAt_mono {id : Id} {rs : List Record} {x y : Option Doc} (h : x = none ∨ x = y) :
    effectAt id rs x = none ∨ effectAt id rs x = effectAt id rs y := by
  induction rs generalizing x y with
  | nil => exact h
  | cons r rs ih =>
      rw [effectAt, effectAt]
      refine ih ?_
      by_cases hr : r.id = id
      · rw [if_pos hr, if_pos hr]
        cases r with
        | upsert d => exact .inr rfl
        | delete id => exact .inl rfl
        | patch id attrs =>
            rcases h with rfl | rfl
            · exact .inl rfl
            · exact .inr rfl
      · rw [if_neg hr, if_neg hr]
        exact h

/-- **Under the tail** too, more distinct documents leave a larger live set. -/
theorem within_materialize {docs more : List Doc} (hd : ((docs ++ more).map Doc.id).Nodup)
    (tail : List Record) : Live.Within (materialize (docs.map .upsert ++ tail))
      (materialize ((docs ++ more).map .upsert ++ tail)) := by
  intro id d hget
  rw [get_materialize, effectAt_append] at hget
  rw [get_materialize, List.map_append, effectAt_append, effectAt_append]
  rw [List.map_append, List.nodup_append] at hd
  have hbase : effectAt id (docs.map .upsert) none = none ∨ effectAt id (docs.map .upsert) none =
      effectAt id (more.map .upsert) (effectAt id (docs.map .upsert) none) := by
    by_cases hid : id ∈ docs.map Doc.id
    · -- none of the other documents has the id
      refine .inr (effectAt_of_forall_ne (fun r hr heq => ?_) _).symm
      obtain ⟨d', hd', rfl⟩ := List.mem_map.mp hr
      exact hd.2.2 id hid id (heq ▸ List.mem_map_of_mem hd') rfl
    · refine .inl (effectAt_of_forall_ne (fun r hr heq => ?_) _)
      obtain ⟨d', hd', rfl⟩ := List.mem_map.mp hr
      exact hid (heq ▸ List.mem_map_of_mem hd')
  rcases @effectAt_mono id tail _ _ hbase with hnone | heq
  · rw [hnone] at hget
    cases hget
  · rw [← heq]
    exact hget

theorem Live.Within.values_subperm {live live' : Live} (h : live.Within live') (hkeyed : live.WellKeyed) :
    live.values.Subperm live'.values := by
  refine List.subperm_of_subset (hkeyed.nodup_ids.of_map _) fun d hd => ?_
  obtain ⟨id, hid⟩ := SortedMap.mem_values_iff.mp hd
  exact SortedMap.mem_values_iff.mpr ⟨id, h id d hid⟩

section Hits

variable [Crates] [HashOrder]

/-- **More candidates** give no worse hits. -/
theorem Live.Within.liveHits {live live' : Live} (h : live.Within live') (hkeyed : live.WellKeyed)
    (req : QueryRequest) (filter : Option Filter) (schema : Schema) :
    NoWorse Hit.rank (liveHits req filter schema live) (liveHits req filter schema live') := by
  have hvalues : live.hashValues.Subperm live'.hashValues :=
    (live.hashValues_perm.subperm.trans (h.values_subperm hkeyed)).trans live'.hashValues_perm.symm.subperm
  obtain ⟨docs, hperm, hsub⟩ := hvalues.filter (passes filter schema.fts)
  rw [Fckdb.liveHits, Fckdb.liveHits, topK, topK, takeBest_eq, takeBest_eq]
  exact (NoWorse.of_subperm ⟨_, hperm.map _, hsub.map _⟩).best _

/-! ## One shard -/

/-- The records of one shard that an unfiltered query ranks. -/
def shardRecords (shard : Shard) (req : QueryRequest) (metric : DistanceMetric) : Proc (List Record) :=
  match shard.index with
  | none => readRecordsParallel (shard.segments.map fun s => .data s.name)
  | some idx => probedRecords idx req metric

/-- **Without a filter** a shard ranks those records, overlaid with its slice of the tail. -/
theorem Store.Yields.shardHits_unfiltered {s : Store} {shard : Shard} {req : QueryRequest}
    {tail rs : List Record} {schema : Schema}
    (h : s.Yields (shardRecords shard req schema.distanceMetric) (.ok rs)) :
    s.Yields (Fckdb.shardHits shard req none tail schema)
      (.ok ⟨liveHits req none schema (materialize (rs ++ tail)), shard.index.isSome, false⟩) := by
  have hscan : s.Yields (prefilterSelection shard req none) (.ok none) := by
    rw [prefilterSelection.eq_def]
    cases shard.index <;> exact ret _
  refine seq hscan ?_
  rw [shardRecords] at h
  cases hi : shard.index with
  | none =>
      rw [hi] at h
      exact seq h (ret _)
  | some idx =>
      rw [hi] at h
      rw [materialize, replay_append]
      exact seq h (ret _)

theorem Store.Yields.of_shardHits {s : Store} {shard : Shard} {req : QueryRequest} {tail : List Record}
    {schema : Schema} {outcome : ShardOutcome}
    (h : s.Yields (Fckdb.shardHits shard req none tail schema) (.ok outcome)) :
    ∃ rs, s.Yields (shardRecords shard req schema.distanceMetric) (.ok rs) ∧
      outcome.hits = liveHits req none schema (materialize (rs ++ tail)) := by
  obtain ⟨selection, hscan, hshard⟩ := of_seq h
  have hnone : s.Yields (prefilterSelection shard req none) (.ok none) := by
    rw [prefilterSelection.eq_def]
    cases shard.index <;> exact ret _
  obtain rfl := Except.ok.inj (hscan.unique hnone)
  have hrecords : ∃ rs, s.Yields (shardRecords shard req schema.distanceMetric) (.ok rs) := by
    rw [shardRecords]
    cases hi : shard.index with
    | none =>
        simp only [hi] at hshard
        exact (of_seq hshard).imp fun _ hrs => hrs.1
    | some idx =>
        simp only [hi] at hshard
        exact (of_seq hshard).imp fun _ hrs => hrs.1
  obtain ⟨rs, hrs⟩ := hrecords
  obtain rfl := Except.ok.inj (h.unique (shardHits_unfiltered hrs))
  exact ⟨rs, hrs, rfl⟩

/-! ### Two limits -/

variable {s : Store} {docs : List Doc} {shard : Shard} {req : QueryRequest} {metric : DistanceMetric}
  {n n' : Nat}

/-- The same query with another limit. -/
def QueryRequest.probing (req : QueryRequest) (n : Nat) : QueryRequest := { req with nprobe := n }

omit [Crates] [HashOrder] in
theorem QueryRequest.probing_aggregateBy (req : QueryRequest) (n : Nat) :
    (req.probing n).aggregateBy = req.aggregateBy := rfl

omit [Crates] [HashOrder] in
theorem QueryRequest.probing_vector (req : QueryRequest) (n : Nat) : (req.probing n).vector = req.vector := rfl

omit [Crates] [HashOrder] in
theorem Store.Yields.of_probedRecords {idx : IndexMeta} {rs : List Record}
    (h : s.Yields (Fckdb.probedRecords idx req metric) (.ok rs)) :
    idx.dim = req.vector.length ∧ ∃ flat centroids, s.HasBlob (.data idx.centroids) (.centroids flat) ∧
      decodeCentroids flat idx.dim = .ok centroids ∧
      s.Reads (probedNames idx centroids req.vector req.nprobe metric) rs := by
  rw [Fckdb.probedRecords] at h
  split_ifs at h with hdim
  · cases h
  · obtain ⟨flat, hflat, h⟩ := of_seq h
    obtain ⟨centroids, hcentroids, h⟩ := of_seq h
    have hdecode : decodeCentroids flat idx.dim = .ok centroids := (ofExcept _).unique hcentroids
    obtain ⟨blob, hblob, hread⟩ := of_seq hflat
    refine ⟨not_not.mp hdim, flat, centroids, ?_, hdecode, (of_readRecordsParallel h).1⟩
    cases blob with
    | centroids flat' =>
        obtain rfl := Except.ok.inj ((ret _).unique hread)
        exact (of_readBlob hblob).1
    | _ => cases hread

omit [Crates] [HashOrder] in
/-- The names of the clusters of a smaller limit come first. -/
theorem probedNames_isPrefix (idx : IndexMeta) (centroids : List (List F32)) (vector : List F32)
    (hn : n ≤ n') : probedNames idx centroids vector n metric <+: probedNames idx centroids vector n' metric :=
  (probe_isPrefix centroids vector metric hn).filterMap _

omit [HashOrder] in
/-- **Two limits**: the documents found with the smaller one come first among those found with the larger
one, all of them distinct. -/
theorem shardRecords_isPrefix (h : s.BuiltFrom docs shard) (hd : (docs.map Doc.id).Nodup) (hn : n ≤ n')
    {rs rs' : List Record} (hrs : s.Yields (shardRecords shard (req.probing n) metric) (.ok rs))
    (hrs' : s.Yields (shardRecords shard (req.probing n') metric) (.ok rs')) :
    ∃ first more : List Doc, rs = first.map .upsert ∧ rs' = (first ++ more).map .upsert ∧
      ((first ++ more).map Doc.id).Nodup := by
  rw [shardRecords] at hrs hrs'
  cases hi : shard.index with
  | none =>
      rw [hi] at hrs hrs'
      refine ⟨docs, [], (Store.Yields.of_readRecordsParallel hrs).1.unique h.reads, ?_, ?_⟩
      · rw [List.append_nil]
        exact (Store.Yields.of_readRecordsParallel hrs').1.unique h.reads
      · rwa [List.append_nil]
  | some idx =>
      rw [hi] at hrs hrs'
      obtain ⟨hdim, flat, centroids, hflat, hdecode, hreads⟩ := Store.Yields.of_probedRecords hrs
      obtain ⟨-, flat', centroids', hflat', hdecode', hreads'⟩ := Store.Yields.of_probedRecords hrs'
      obtain rfl : flat = flat' := Blob.centroids.inj (hflat.unique hflat')
      obtain rfl : centroids = centroids' := Except.ok.inj (hdecode.symm.trans hdecode')
      have hne : idx.dim ≠ 0 := fun hzero => by
        rw [hzero, decodeCentroids, if_pos (.inl rfl)] at hdecode
        cases hdecode
      -- both lead the documents of all clusters
      obtain ⟨flat', centroids', hflat', hdecode', hall⟩ := h.probed hi hne
      obtain rfl : flat = flat' := Blob.centroids.inj (hflat.unique hflat')
      obtain rfl : centroids = centroids' := Except.ok.inj (hdecode.symm.trans hdecode')
      obtain ⟨docs', hperm, hdocs⟩ := hall req.vector metric (max n' idx.clusters.length) (le_max_right _ _)
      obtain ⟨rest, hrest⟩ := probedNames_isPrefix idx centroids req.vector (hn : n ≤ n')
      obtain ⟨others, hothers⟩ := probedNames_isPrefix idx centroids req.vector
        (le_max_left n' idx.clusters.length)
      rw [← hothers] at hdocs
      obtain ⟨rs₁, rs₂, heq, hrs₁, -⟩ := hdocs.of_append
      obtain rfl := hrs₁.unique hreads'
      obtain ⟨found, unfound, rfl, hfound, -⟩ := List.map_eq_append_iff.mp heq
      rw [← hrest] at hrs₁
      obtain ⟨rs₃, rs₄, heq', hrs₃, -⟩ := hrs₁.of_append
      obtain rfl := hrs₃.unique hreads
      rw [← hfound] at heq'
      obtain ⟨first, more, rfl, hfirst, -⟩ := List.map_eq_append_iff.mp heq'
      refine ⟨first, more, hfirst.symm, hfound.symm, ?_⟩
      have hnodup := ((hperm.map Doc.id).nodup_iff).mpr hd
      rw [List.map_append] at hnodup
      exact (List.nodup_append.mp hnodup).1

omit [HashOrder] in
/-- **The larger limit is answered** too, when the objects of the shard are there. -/
theorem exists_shardRecords (h : s.BuiltFrom docs shard) (hkept : ∀ name ∈ shard.objects, name ∉ s.deleted)
    {rs : List Record} (hrs : s.Yields (shardRecords shard (req.probing n) metric) (.ok rs)) :
    ∃ rs', s.Yields (shardRecords shard (req.probing n') metric) (.ok rs') := by
  rw [shardRecords] at hrs ⊢
  cases hi : shard.index with
  | none =>
      rw [hi] at hrs
      exact ⟨rs, hrs⟩
  | some idx =>
      rw [hi] at hrs
      obtain ⟨hdim, flat, centroids, hflat, hdecode, -⟩ := Store.Yields.of_probedRecords hrs
      have hne : idx.dim ≠ 0 := fun hzero => by
        rw [hzero, decodeCentroids, if_pos (.inl rfl)] at hdecode
        cases hdecode
      obtain ⟨flat', centroids', hflat', hdecode', hall⟩ := h.probed hi hne
      obtain rfl : flat = flat' := Blob.centroids.inj (hflat.unique hflat')
      obtain rfl : centroids = centroids' := Except.ok.inj (hdecode.symm.trans hdecode')
      obtain ⟨docs', -, hdocs⟩ := hall req.vector metric (max n' idx.clusters.length) (le_max_right _ _)
      obtain ⟨others, hothers⟩ := @probedNames_isPrefix metric _ _ idx centroids req.vector
        (le_max_left n' idx.clusters.length)
      rw [← hothers] at hdocs
      obtain ⟨rs', -, -, hrs', -⟩ := hdocs.of_append
      have hdim' : idx.dim = (req.probing n').vector.length := hdim
      have hreads : s.Reads (probedNames idx centroids (req.probing n').vector (req.probing n').nprobe metric)
          rs' := hrs'
      exact ⟨rs', Store.Yields.probed hflat hdecode hi hkept hdim' hreads⟩

/-- **One shard**: its hits with the larger limit are no worse. -/
theorem shardHits_noWorse (h : s.BuiltFrom docs shard) (hd : (docs.map Doc.id).Nodup) (hn : n ≤ n')
    {tail : List Record} {schema : Schema} {outcome outcome' : ShardOutcome}
    (ho : s.Yields (shardHits shard (req.probing n) none tail schema) (.ok outcome))
    (ho' : s.Yields (shardHits shard (req.probing n') none tail schema) (.ok outcome')) :
    NoWorse Hit.rank outcome.hits outcome'.hits := by
  obtain ⟨rs, hrs, heq⟩ := Store.Yields.of_shardHits ho
  obtain ⟨rs', hrs', heq'⟩ := Store.Yields.of_shardHits ho'
  obtain ⟨first, more, rfl, rfl, hnodup⟩ := shardRecords_isPrefix h hd hn hrs hrs'
  rw [heq, heq']
  exact (within_materialize hnodup tail).liveHits (materialize_wellKeyed _) req none schema

/-! ## All shards -/

variable {m : Manifest} {tail : List Record}

omit [HashOrder] in
/-- A resident shard was built from distinct documents. -/
theorem WellBuilt.resident (h : WellBuilt s m) (hshard : shard ∈ residentShards m) :
    ∃ docs, (docs.map Doc.id).Nodup ∧ s.BuiltFrom docs shard := by
  rw [residentShards] at hshard
  split_ifs at hshard
  · obtain rfl := List.mem_singleton.mp hshard
    exact ⟨[], List.nodup_nil, 0, {}, true, rfl⟩
  · exact h.built shard hshard

/-- **All shards**: together their hits with the larger limit are no worse. -/
theorem rankShards_noWorse (h : WellBuilt s m) (hn : n ≤ n') {outcomes outcomes' : List ShardOutcome}
    (ho : s.Yields (rankShards (req.probing n) none m tail) (.ok outcomes))
    (ho' : s.Yields (rankShards (req.probing n') none m tail) (.ok outcomes')) :
    NoWorse Hit.rank (outcomes.flatMap (·.hits)) (outcomes'.flatMap (·.hits)) := by
  have hparts := List.forall₂_map_left_iff.mp (Store.Yields.of_tryJoinAll ho)
  have hparts' := List.forall₂_map_left_iff.mp (Store.Yields.of_tryJoinAll ho')
  have hshards : ∀ x ∈ (residentShards m).zip (tails m.schema (residentShards m) tail),
      x.1 ∈ residentShards m := fun x hx => (List.of_mem_zip hx).1
  clear ho ho'
  generalize (residentShards m).zip (tails m.schema (residentShards m) tail) = parts at hparts hparts' hshards
  induction hparts generalizing outcomes' with
  | nil =>
      cases hparts'
      exact fun _ => le_rfl
  | @cons part outcome parts outcomes hpart _ ih =>
      cases hparts' with
      | @cons _ outcome' _ outcomes' hpart' hrest' =>
        obtain ⟨docs, hd, hbuilt⟩ := h.resident (hshards part List.mem_cons_self)
        rw [List.flatMap_cons, List.flatMap_cons]
        refine (shardHits_noWorse hbuilt hd hn hpart hpart').append ?_
        exact ih hrest' fun x hx => hshards x (List.mem_cons_of_mem _ hx)

/-- All shards are answered with the larger limit, when the objects of the manifest are there. -/
theorem exists_rankShards (h : WellBuilt s m) (hthere : ∀ name ∈ m.referenced, name ∉ s.deleted)
    {outcomes : List ShardOutcome}
    (ho : s.Yields (rankShards (req.probing n) none m tail) (.ok outcomes)) :
    ∃ outcomes', s.Yields (rankShards (req.probing n') none m tail) (.ok outcomes') := by
  have hparts := List.forall₂_map_left_iff.mp (Store.Yields.of_tryJoinAll ho)
  have hall : ∀ x ∈ (residentShards m).zip (tails m.schema (residentShards m) tail), ∃ outcome,
      s.Yields (shardHits x.1 (req.probing n') none x.2 m.schema) (.ok outcome) := by
    intro x hx
    obtain ⟨i, hi, rfl⟩ := List.mem_iff_getElem.mp hx
    obtain ⟨rs, hrs, -⟩ := Store.Yields.of_shardHits (hparts.get hi (hparts.length_eq ▸ hi))
    have hresident := (List.of_mem_zip hx).1
    obtain ⟨docs, -, hbuilt⟩ := h.resident hresident
    obtain ⟨rs', hrs'⟩ := @exists_shardRecords _ s docs _ req m.schema.distanceMetric n n' hbuilt
      (fun name hname => hthere name (mem_referenced_resident hresident hname)) rs hrs
    exact ⟨_, .shardHits_unfiltered hrs'⟩
  have : Nonempty ShardOutcome := ⟨⟨[], false, false⟩⟩
  choose! outcome houtcome using hall
  exact ⟨_, .tryJoinAll houtcome⟩

/-! ## The query -/

variable {N : Type} [Numbers N]

/-- What a query that is answered read, and the hits of its answer. -/
theorem Store.Yields.of_queryOn {snapshot : Bool} {r : QueryResponse}
    (h : s.Yields (Fckdb.queryOn N req m snapshot) (.ok r)) :
    ∃ filter entries truncated tail aggs, coerceFilter m.schema req.filter = .ok filter ∧
      checkDim m.schema req.vector = .ok () ∧ tailEntries m req.consistency = .ok (entries, truncated) ∧
      s.Yields (Fckdb.readRecordsParallel (entries.map fun e => .wal e.name)) (.ok tail) ∧
      s.Yields (Fckdb.aggregations N req filter m tail) (.ok aggs) ∧
      if req.aggregateBy.isSome ∧ req.vector.isEmpty then r.hits = []
      else ∃ outcomes, s.Yields (Fckdb.rankShards req filter m tail) (.ok outcomes) ∧
        r.hits = takeBest req.topK (outcomes.flatMap (·.hits)) := by
  obtain ⟨filter, hfilter, h⟩ := of_seq h
  obtain ⟨⟨⟩, hdim, h⟩ := of_seq h
  obtain ⟨⟨entries, truncated⟩, hentries, h⟩ := of_seq h
  obtain ⟨tail, htail, h⟩ := of_seq h
  obtain ⟨aggs, haggs, h⟩ := of_seq h
  refine ⟨filter, entries, truncated, tail, aggs, (ofExcept _).unique hfilter, (ofExcept _).unique hdim,
    (ofExcept _).unique hentries, htail, haggs, ?_⟩
  dsimp only at h
  split_ifs at h ⊢ with hnone
  · obtain rfl := Except.ok.inj ((ret _).unique h)
    rfl
  · obtain ⟨outcomes, hrank, h⟩ := of_seq h
    obtain rfl := Except.ok.inj ((ret _).unique h)
    exact ⟨outcomes, hrank, rfl⟩

/-- **The answer** with the larger limit is no worse. -/
theorem queryOn_noWorse (h : WellBuilt s m) (hfilter : req.filter = none) (hn : n ≤ n') {snapshot : Bool}
    {r r' : QueryResponse} (hr : s.Yields (queryOn N (req.probing n) m snapshot) (.ok r))
    (hr' : s.Yields (queryOn N (req.probing n') m snapshot) (.ok r')) :
    ∀ (i : Nat) (hit : Hit), r.hits[i]? = some hit →
      ∃ hit', r'.hits[i]? = some hit' ∧ hit'.rank ≤ hit.rank := by
  obtain ⟨filter, entries, truncated, tail, -, hf, -, hentries, htail, -, hhits⟩ := hr.of_queryOn
  obtain ⟨filter', entries', truncated', tail', -, hf', -, hentries', htail', -, hhits'⟩ := hr'.of_queryOn
  have hnone : coerceFilter m.schema req.filter = .ok none := by rw [hfilter]; rfl
  obtain rfl : none = filter := Except.ok.inj (hnone.symm.trans hf)
  obtain rfl : none = filter' := Except.ok.inj (hnone.symm.trans hf')
  obtain ⟨rfl, rfl⟩ := Prod.mk.inj (Except.ok.inj (hentries.symm.trans hentries'))
  obtain rfl := Except.ok.inj (htail.unique htail')
  rw [QueryRequest.probing_aggregateBy, QueryRequest.probing_vector] at hhits hhits'
  by_cases hempty : req.aggregateBy.isSome ∧ req.vector.isEmpty
  · rw [if_pos hempty] at hhits
    rw [hhits]
    exact fun i hit hi => nomatch hi
  · rw [if_neg hempty] at hhits hhits'
    obtain ⟨outcomes, hrank, heq⟩ := hhits
    obtain ⟨outcomes', hrank', heq'⟩ := hhits'
    rw [heq, heq', takeBest_eq, takeBest_eq]
    intro i hit hi
    exact ((rankShards_noWorse h hn hrank hrank').best req.topK).getElem? best_pairwise_le best_pairwise_le hi

/-- The larger limit is answered when the smaller one is and the objects of the manifest are there. -/
theorem exists_queryOn (h : WellBuilt s m) (hthere : ∀ name ∈ m.referenced, name ∉ s.deleted)
    (hfilter : req.filter = none) {snapshot : Bool} {r : QueryResponse}
    (hr : s.Yields (queryOn N (req.probing n) m snapshot) (.ok r)) :
    ∃ r', s.Yields (queryOn N (req.probing n') m snapshot) (.ok r') := by
  obtain ⟨filter, entries, truncated, tail, aggs, hf, hdim, hentries, htail, haggs, hhits⟩ := hr.of_queryOn
  have hnone : coerceFilter m.schema req.filter = .ok none := by rw [hfilter]; rfl
  obtain rfl : none = filter := Except.ok.inj (hnone.symm.trans hf)
  have hready {α : Type} {e : Except Error α} {a : α} (he : e = .ok a) : s.Yields (Proc.ofExcept e) (.ok a) :=
    he ▸ .ofExcept _
  refine Store.Yields.exists_seq (hready hf) (Store.Yields.exists_seq (hready hdim) ?_)
  refine Store.Yields.exists_seq (hready hentries) (Store.Yields.exists_seq htail ?_)
  refine Store.Yields.exists_seq haggs ?_
  dsimp only
  rw [QueryRequest.probing_aggregateBy, QueryRequest.probing_vector] at hhits ⊢
  by_cases hempty : req.aggregateBy.isSome ∧ req.vector.isEmpty
  · rw [if_pos hempty]
    exact ⟨_, .ret _⟩
  · rw [if_neg hempty] at hhits ⊢
    obtain ⟨outcomes, hrank, -⟩ := hhits
    obtain ⟨outcomes', hrank'⟩ := @exists_rankShards _ _ s req n n' m tail h hthere outcomes hrank
    exact Store.Yields.exists_seq hrank' ⟨_, .ret _⟩

/-- The manifest that a query loads is well built, also a remembered one. -/
theorem Reaches.loaded_wellBuilt {ok : Terms} {p : Namespace} (h : Reaches ok p) {handle : Nat}
    {consistency : Consistency} {snapshot : Bool}
    (hload : p.shared.Yields (loadWith handle consistency) (.ok (m, snapshot))) : WellBuilt p.shared m := by
  cases consistency with
  | strong =>
      obtain ⟨rfl, -⟩ := Prod.mk.inj (Except.ok.inj ((Store.Yields.loadWith_strong handle).unique hload))
      exact h.wellBuilt
  | eventual maxAgeMs =>
      rcases Store.Yields.loadWith_eventual hload with ⟨snap, hsnap, rfl⟩ | rfl
      · have hat := h.sound.handles handle snap hsnap
        rw [hat.eq]
        exact forall_lastManifest (.init _) fun v hv => h.wellBuilt_version v (List.mem_of_mem_take hv)
      · exact h.wellBuilt

/-- The second hits are at least as many, and each scores at least as much as the first one's at its place. -/
def AtLeastAsGood (hits hits' : List Hit) : Prop :=
  hits.length ≤ hits'.length ∧ ∀ (i : Nat) (hit : Hit), hits[i]? = some hit →
    ∃ hit', hits'[i]? = some hit' ∧ hit'.score.totalCmp hit.score ≠ .lt

omit [Crates] [HashOrder] in
/-- A hit of no later rank has no smaller score. -/
theorem Hit.totalCmp_of_rank_le {hit hit' : Hit} (h : hit'.rank ≤ hit.rank) :
    hit'.score.totalCmp hit.score ≠ .lt := by
  rw [Hit.rank, Hit.rank, Prod.Lex.toLex_le_toLex] at h
  rw [F32.totalCmp, Ne, cmp_eq_lt_iff, not_lt]
  rcases h with hlt | ⟨heq, -⟩
  · exact (OrderDual.toDual_lt_toDual.mp hlt).le
  · exact (OrderDual.toDual_inj.mp heq).ge

end Hits

end Fckdb
