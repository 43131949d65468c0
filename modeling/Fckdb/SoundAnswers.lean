import Fckdb.Lib.Drawn
import Fckdb.OrderedQuery
import Fckdb.ShardedSearch

/-! # Sound answers

A shard answers from its attribute index, from the clusters around the query, from an inverted index, or from every
document. Whichever it is, its hits are of live documents that match, each once, and so is what is merged from all
shards. -/

namespace Fckdb

/-! ## Hits of a live set -/

section Hits

variable [Crates]

/-- The live documents that pass a filter. -/
def Live.passing (live : Live) (filter : Option Filter) (fts : FtsSchema) : List Doc :=
  live.values.filter (passes filter fts)

/-- What was left out of a live set only makes fewer documents pass. -/
theorem Live.Within.passing {live live' : Live} (h : live.Within live') (hkeyed : live.WellKeyed)
    (filter : Option Filter) (fts : FtsSchema) : (live.passing filter fts).Subperm (live'.passing filter fts) :=
  (h.values_subperm hkeyed).filter _

/-- The row is of the document, with the attributes asked for. -/
def ShowsAttrs (incl : Include) (d : Doc) (id : Id) (attrs : Attrs) : Prop :=
  id = d.id ∧ attrs = incl.project d.attrs

variable [HashOrder] {filter : Option Filter} {fts : FtsSchema}

/-- **The exhaustive scan** of a live set. -/
theorem drawn_topK (live : Live) (vector : List F32) (k : Nat) (incl : Include) (metric : DistanceMetric) :
    Drawn (fun d h => h = hitOf vector incl metric d) (live.passing filter fts)
      (topK live.hashValues vector k filter incl metric fts) := by
  have hall : Drawn (fun d h => h = hitOf vector incl metric d) (live.hashValues.filter (passes filter fts))
      ((live.hashValues.filter (passes filter fts)).map (hitOf vector incl metric)) := .map _ fun _ _ => rfl
  rw [topK, takeBest_eq]
  exact (hall.subperm best_subperm).mono ((live.hashValues_perm.filter _).subperm)

/-- **The order by an attribute** of a live set. -/
theorem drawn_orderBy (live : Live) (order : OrderBy) (k : Nat) (incl : Include) :
    Drawn (fun d h => h = (order.row incl d).2) (live.passing filter fts)
      (orderBy live.hashValues order k filter incl fts) := by
  let rows := (live.hashValues.filter (passes filter fts)).map (order.row incl)
  have hall : Drawn (fun d r => r = order.row incl d) (live.hashValues.filter (passes filter fts)) rows :=
    .map _ fun _ _ => rfl
  have hsorted : Drawn (fun d h => h = (order.row incl d).2) (live.hashValues.filter (passes filter fts))
      ((rows.insertionSort fun a b => order.compareRows a b ≠ .gt).map (·.2)) :=
    (hall.subperm (List.perm_insertionSort _ _).subperm).render _ fun _ _ h => h ▸ rfl
  exact (hsorted.subperm (List.take_sublist k _).subperm).mono ((live.hashValues_perm.filter _).subperm)

end Hits

/-! ## The overlay of a search -/

section Overlay

variable [Crates] {S : Type} {ask : Ask} {rescore : Doc → Option S} {docs : List Doc} {tail : List Record}
  {scored : List (Nat × S)}

/-- The hits of an overlay are of different documents, whatever the scores. -/
theorem nodup_overlayHits (hd : (docs.map Doc.id).Nodup) (hscored : (scored.map (·.1)).Nodup) :
    ((overlayHits ask scored rescore (docs.map .upsert) tail).map ScoredHit.id).Nodup := by
  have hkeyed := materialize_wellKeyed (docs.map .upsert ++ tail)
  rw [overlayHits, List.map_append, List.map_filterMap, List.map_filterMap]
  refine List.Nodup.append ?_ ((List.nodup_dedup _).filterMap ?_) ?_
  · -- the id gives the ordinal
    refine List.pairwise_filterMap.mpr ((List.pairwise_map.mp hscored).imp fun {p p'} hne id hid id' hid' heq => ?_)
    obtain ⟨h, hh, rfl⟩ := Option.map_eq_some_iff.mp hid
    obtain ⟨h', hh', rfl⟩ := Option.map_eq_some_iff.mp hid'
    obtain ⟨d, hu, hpush⟩ := Option.bind_eq_some_iff.mp hh
    obtain ⟨d', hu', hpush'⟩ := Option.bind_eq_some_iff.mp hh'
    obtain ⟨ho, -⟩ := (untouched_eq_some hd).mp hu
    obtain ⟨ho', -⟩ := (untouched_eq_some hd).mp hu'
    refine hne (ordinal_unique hd ho ho' ?_)
    rw [← (pushHit_eq_some hpush).1, ← (pushHit_eq_some hpush').1, heq]
  · intro id id' i hi hi'
    obtain ⟨h, hh, rfl⟩ := Option.map_eq_some_iff.mp hi
    obtain ⟨h', hh', heq⟩ := Option.map_eq_some_iff.mp hi'
    obtain ⟨d, hget, hscore⟩ := Option.bind_eq_some_iff.mp hh
    obtain ⟨d', hget', hscore'⟩ := Option.bind_eq_some_iff.mp hh'
    obtain ⟨x, -, hpush⟩ := Option.bind_eq_some_iff.mp hscore
    obtain ⟨x', -, hpush'⟩ := Option.bind_eq_some_iff.mp hscore'
    rw [← hkeyed id d hget, ← hkeyed id' d' hget', ← (pushHit_eq_some hpush).1, ← (pushHit_eq_some hpush').1, heq]
  · -- the tail touched the document, or not
    intro i hleft hright
    obtain ⟨p, -, hp⟩ := List.mem_filterMap.mp hleft
    obtain ⟨h, hh, rfl⟩ := Option.map_eq_some_iff.mp hp
    obtain ⟨d, hu, hpush⟩ := Option.bind_eq_some_iff.mp hh
    obtain ⟨id, htouched, hp'⟩ := List.mem_filterMap.mp hright
    obtain ⟨h', hh', heq⟩ := Option.map_eq_some_iff.mp hp'
    obtain ⟨d', hget, hscore⟩ := Option.bind_eq_some_iff.mp hh'
    obtain ⟨x, -, hpush'⟩ := Option.bind_eq_some_iff.mp hscore
    refine ((untouched_eq_some hd).mp hu).2 ?_
    rwa [← (pushHit_eq_some hpush).1, ← heq, (pushHit_eq_some hpush').1, hkeyed id d' hget]

/-- What is pushed is a document that passes. -/
theorem shows_pushHit {d : Doc} {x : S} {h : ScoredHit S} (hh : pushHit ask d x = some h) :
    passes ask.filter ask.fts d = true ∧ ShowsAttrs ask.includeAttributes d h.id h.attrs := by
  rw [pushHit] at hh
  split_ifs at hh with hpasses
  obtain rfl := Option.some.inj hh
  exact ⟨hpasses, rfl, rfl⟩

/-- **The overlay of a search**: its hits are of live documents. -/
theorem drawn_overlayHits (hd : (docs.map Doc.id).Nodup) (hscored : (scored.map (·.1)).Nodup) :
    Drawn (fun d h => ShowsAttrs ask.includeAttributes d h.id h.attrs)
      ((materialize (docs.map .upsert ++ tail)).passing ask.filter ask.fts)
      (overlayHits ask scored rescore (docs.map .upsert) tail) := by
  refine .of_nodup Doc.id (nodup_overlayHits hd hscored) fun h hh => ?_
  have hshown {id : Id} {d : Doc} {x : S} (hget : (materialize (docs.map .upsert ++ tail)).get id = some d)
      (hpush : pushHit ask d x = some h) :
      ∃ d ∈ (materialize (docs.map .upsert ++ tail)).passing ask.filter ask.fts,
        ShowsAttrs ask.includeAttributes d h.id h.attrs ∧ h.id = d.id := by
    obtain ⟨hpasses, hshows⟩ := shows_pushHit hpush
    exact ⟨d, List.mem_filter.mpr ⟨SortedMap.mem_values_iff.mpr ⟨id, hget⟩, hpasses⟩, hshows, hshows.1⟩
  rcases List.mem_append.mp hh with hleft | hright
  · obtain ⟨p, -, hp⟩ := List.mem_filterMap.mp hleft
    obtain ⟨d, hu, hpush⟩ := Option.bind_eq_some_iff.mp hp
    obtain ⟨ho, huntouched⟩ := (untouched_eq_some hd).mp hu
    refine @hshown d.id d p.2 ?_ hpush
    rw [get_materialize_untouched hd huntouched, find?_id_eq_some hd]
    exact ⟨List.mem_of_getElem? ho, rfl⟩
  · obtain ⟨id, -, hp⟩ := List.mem_filterMap.mp hright
    obtain ⟨d, hget, hscore⟩ := Option.bind_eq_some_iff.mp hp
    obtain ⟨x, -, hpush⟩ := Option.bind_eq_some_iff.mp hscore
    exact hshown hget hpush

end Overlay

/-- A full-text index scores an ordinal once. -/
theorem FtsIndex.nodup_scored [Crates] {S : Type} [Score S] (x : FtsIndex) (query : String) :
    ((x.score query : List (Nat × S)).map (·.1)).Nodup := by
  rw [score]
  split_ifs
  · exact List.nodup_nil
  · exact nodup_rankOrdinals _

/-! ## One shard -/

section Shard

variable [Crates] {s : Store} {docs : List Doc} {shard : Shard} {filter : Option Filter} {tail : List Record}
  {schema : Schema}

/-- **The probed clusters** hold some of the documents of the shard. -/
theorem Store.BuiltFrom.probed_some {idx : IndexMeta} {req : QueryRequest} {metric : DistanceMetric}
    (h : s.BuiltFrom docs shard) (hi : shard.index = some idx) {rs : List Record}
    (hrs : s.Yields (probedRecords idx req metric) (.ok rs)) :
    ∃ first more : List Doc, rs = first.map .upsert ∧ (first ++ more).Perm docs := by
  obtain ⟨hdim, flat, centroids, hflat, hdecode, hreads⟩ := Store.Yields.of_probedRecords hrs
  have hne : idx.dim ≠ 0 := fun hzero => by
    rw [hzero, decodeCentroids, if_pos (.inl rfl)] at hdecode
    cases hdecode
  obtain ⟨flat', centroids', hflat', hdecode', hall⟩ := h.probed hi hne
  obtain rfl : flat = flat' := Blob.centroids.inj (hflat.unique hflat')
  obtain rfl : centroids = centroids' := Except.ok.inj (hdecode.symm.trans hdecode')
  -- they lead the documents of all clusters
  obtain ⟨docs', hperm, hdocs⟩ := hall req.vector metric (max req.nprobe idx.clusters.length) (le_max_right _ _)
  obtain ⟨others, hothers⟩ : probedNames idx centroids req.vector req.nprobe metric <+:
      probedNames idx centroids req.vector (max req.nprobe idx.clusters.length) metric :=
    probedNames_isPrefix idx centroids req.vector (le_max_left _ _)
  rw [← hothers] at hdocs
  obtain ⟨rs₁, rs₂, heq, hrs₁, -⟩ := hdocs.of_append
  obtain rfl := hrs₁.unique hreads
  obtain ⟨first, more, rfl, hfirst, -⟩ := List.map_eq_append_iff.mp heq
  exact ⟨first, more, hfirst.symm, hperm⟩

variable [HashOrder]

/-- **A shard ranks some of its live documents**, on whatever path. -/
theorem Store.Yields.within_shardHits {req : QueryRequest} {outcome : ShardOutcome} (h : s.BuiltFrom docs shard)
    (hd : (docs.map Doc.id).Nodup) (hr : s.Yields (Fckdb.shardHits shard req filter tail schema) (.ok outcome)) :
    ∃ live : Live, live.WellKeyed ∧ live.Within (materialize (docs.map .upsert ++ tail)) ∧
      outcome.hits = liveHits req filter schema live := by
  obtain ⟨pick, -, hr⟩ := hr.of_seq
  cases pick with
  | some sel =>
      -- the attribute index picks the candidates
      obtain ⟨records, hrecords, hret⟩ := hr.of_seq
      obtain rfl := h.reads.unique (of_readRecordsParallel hrecords).1
      obtain rfl := Except.ok.inj ((ret _).unique hret)
      have hcandidates := candidates_eq hd sel tail
      refine ⟨candidates docs (some sel) tail, ?_, fun id d hget => ?_, rfl⟩
      · rw [hcandidates]
        exact (materialize_wellKeyed _).filterKeys _
      · rw [hcandidates, SortedMap.get_filterKeys] at hget
        split_ifs at hget
        exact hget
  | none =>
      cases hi : shard.index with
      | none =>
          -- every document is scanned
          simp only [hi] at hr
          obtain ⟨records, hrecords, hret⟩ := hr.of_seq
          obtain rfl := h.reads.unique (of_readRecordsParallel hrecords).1
          obtain rfl := Except.ok.inj ((ret _).unique hret)
          exact ⟨_, materialize_wellKeyed _, fun _ _ hget => hget, rfl⟩
      | some idx =>
          -- the clusters around the query are
          simp only [hi] at hr
          obtain ⟨records, hrecords, hret⟩ := hr.of_seq
          obtain ⟨first, more, rfl, hperm⟩ := h.probed_some hi hrecords
          obtain rfl := Except.ok.inj ((ret _).unique hret)
          have hnodup : ((first ++ more).map Doc.id).Nodup := ((hperm.map Doc.id).nodup_iff).mpr hd
          have hwhole : materialize ((first ++ more).map .upsert ++ tail) =
              materialize (docs.map .upsert ++ tail) := by
            have hdocs := materialize_upserts_perm hd hperm
            rw [materialize, materialize] at hdocs ⊢
            rw [replay_append, replay_append, hdocs]
          have hfirst : replay apply (materialize (first.map .upsert)) tail =
              materialize (first.map .upsert ++ tail) := by rw [materialize, materialize, replay_append]
          refine ⟨_, ?_, ?_, rfl⟩
          · rw [hfirst]
            exact materialize_wellKeyed _
          · rw [hfirst, ← hwhole]
            exact within_materialize hnodup tail

/-- **The hits of a shard** are of its live documents. -/
theorem Store.Yields.drawn_shardHits {req : QueryRequest} {outcome : ShardOutcome} (h : s.BuiltFrom docs shard)
    (hd : (docs.map Doc.id).Nodup) (hr : s.Yields (Fckdb.shardHits shard req filter tail schema) (.ok outcome)) :
    Drawn (fun d h => h = hitOf req.vector req.includeAttributes schema.distanceMetric d)
      ((materialize (docs.map .upsert ++ tail)).passing filter schema.fts) outcome.hits := by
  obtain ⟨live, hkeyed, hwithin, hhits⟩ := within_shardHits h hd hr
  rw [hhits]
  exact (drawn_topK live req.vector req.topK _ _).mono (hwithin.passing hkeyed _ _)

omit [HashOrder] in
/-- **The hits of a search of a shard** are of its live documents. -/
theorem Store.Yields.drawn_shardSearch {S : Type} [Score S] {req : SearchRequest} {outcome : SearchOutcome S}
    (h : s.BuiltFrom docs shard) (hd : (docs.map Doc.id).Nodup)
    (hr : s.Yields (Fckdb.shardSearch S shard req filter tail schema) (.ok outcome)) :
    Drawn (fun d h => ShowsAttrs req.includeAttributes d h.id h.attrs)
      ((materialize (docs.map .upsert ++ tail)).passing filter schema.fts) outcome.hits := by
  have hranked {hits : List (ScoredHit S)} (hdrawn : Drawn (fun d h => ShowsAttrs req.includeAttributes d h.id h.attrs)
      ((materialize (docs.map .upsert ++ tail)).passing filter schema.fts) hits) :
      Drawn (fun d h => ShowsAttrs req.includeAttributes d h.id h.attrs)
        ((materialize (docs.map .upsert ++ tail)).passing filter schema.fts)
        (SearchOutcome.ranked hits req.topK true).hits :=
    hdrawn.subperm ((List.take_sublist _ _).subperm.trans (List.perm_insertionSort _ _).subperm)
  rw [Fckdb.shardSearch] at hr
  cases hsearch : req.search with
  | sparse attr vector =>
      simp only [hsearch] at hr
      cases hi : shard.index with
      | none =>
          simp only [hi] at hr
          cases (fail _).unique hr
      | some idx =>
          simp only [hi] at hr
          cases hattr : idx.sparse.get attr with
          | none =>
              simp only [hattr] at hr
              cases (fail _).unique hr
          | some name =>
              simp only [hattr] at hr
              obtain ⟨index, -, hr⟩ := hr.of_seq
              obtain ⟨records, hrecords, hret⟩ := hr.of_seq
              obtain rfl := h.reads.unique (of_readRecordsParallel hrecords).1
              obtain rfl := Except.ok.inj ((ret _).unique hret)
              exact hranked (@drawn_overlayHits _ S (req.ask filter schema) (sparseScore attr vector) _ _ _ hd
                (nodup_rankOrdinals _))
  | text attr query =>
      simp only [hsearch] at hr
      cases hi : shard.index with
      | none =>
          simp only [hi] at hr
          cases (fail _).unique hr
      | some idx =>
          simp only [hi] at hr
          cases hattr : idx.fts.get attr with
          | none =>
              simp only [hattr] at hr
              cases (fail _).unique hr
          | some name =>
              simp only [hattr] at hr
              obtain ⟨index, -, hr⟩ := hr.of_seq
              obtain ⟨records, hrecords, hret⟩ := hr.of_seq
              obtain rfl := h.reads.unique (of_readRecordsParallel hrecords).1
              obtain rfl := Except.ok.inj ((ret _).unique hret)
              exact hranked (@drawn_overlayHits _ S (req.ask filter schema) (textScore index attr query) _ _ _ hd
                (FtsIndex.nodup_scored index query))

end Shard

/-! ## All shards -/

section Query

variable [Crates] {s : Store} {m : Manifest} {docs : List (List Doc)} {tail : List Record} {filter : Option Filter}
  {fts : FtsSchema}

/-- **What all shards answer** is drawn from the live set, if what each answers is from its part. -/
theorem Layout.drawn_shards {β γ : Type} {of : Doc → γ → Prop} {rows : β → List γ} {outs : List β}
    (h : Layout s m docs tail) (part : Shard → List Record → Proc β)
    (houts : s.Yields (.tryJoinAll (((residentShards m).zip (tails m.schema (residentShards m) tail)).map fun x =>
      part x.1 x.2)) (.ok outs))
    (hpart : ∀ ds shard slice out, s.BuiltFrom ds shard → (ds.map Doc.id).Nodup →
      s.Yields (part shard slice) (.ok out) →
        Drawn of ((materialize (ds.map .upsert ++ slice)).passing filter fts) (rows out)) :
    Drawn of ((materialize (Layout.log docs tail)).passing filter fts) (outs.flatMap rows) := by
  have hlen : docs.length = (residentShards m).length := h.built.length_eq
  have hkeyed := materialize_wellKeyed (Layout.log docs tail)
  let sliced (i : Nat) : Live := materialize (slice docs.length i (Layout.log docs tail))
  rw [h.zip_tails, List.map_map] at houts
  have hparts := List.forall₂_map_left_iff.mp houts.of_tryJoinAll
  have hdrawn : List.Forall₂ (fun i out => Drawn of ((sliced i).passing filter fts) (rows out))
      (List.range docs.length) outs := by
    refine List.forall₂_iff_get.mpr ⟨hparts.length_eq, fun i hrange hi => ?_⟩
    have hlt : i < docs.length := by rwa [List.length_range] at hrange
    have hyields := hparts.get hrange hi
    rw [List.get_eq_getElem, List.getElem_range, Function.comp, List.getD_eq_getElem?_getD,
      List.getElem?_eq_getElem (hlen ▸ hlt), Option.getD_some] at hyields
    rw [List.get_eq_getElem, List.getElem_range]
    dsimp only [sliced]
    rw [h.slice_log hlt]
    exact hpart _ _ _ _ (h.shard hlt).2 (h.shard hlt).1 hyields
  -- the parts of the live set are the live set
  refine (Drawn.flatMap hdrawn).mono (List.Perm.subperm ?_)
  refine .trans (.of_eq ?_) ((hkeyed.perm_flatMap_shards h.pos).filter (passes filter fts))
  rw [List.filter_flatMap]
  refine List.flatMap_congr fun i _ => ?_
  dsimp only [sliced]
  rw [materialize_slice]
  rfl

variable [HashOrder]

/-- All shards of a ranked query. -/
theorem Layout.drawn_rankShards {req : QueryRequest} {outcomes : List ShardOutcome} (h : Layout s m docs tail)
    (hrank : s.Yields (rankShards req filter m tail) (.ok outcomes)) :
    Drawn (fun d h => h = hitOf req.vector req.includeAttributes m.schema.distanceMetric d)
      ((materialize (Layout.log docs tail)).passing filter m.schema.fts) (outcomes.flatMap (·.hits)) :=
  h.drawn_shards (fun shard slice => shardHits shard req filter slice m.schema) hrank
    fun _ _ _ _ hbuilt hd hyields => Store.Yields.drawn_shardHits hbuilt hd hyields

omit [HashOrder] in
/-- All shards of a search. -/
theorem Layout.drawn_searchShards {S : Type} [Score S] {req : SearchRequest} {outcomes : List (SearchOutcome S)}
    (h : Layout s m docs tail) (hsearch : s.Yields (searchShards S req filter m tail) (.ok outcomes)) :
    Drawn (fun d h => ShowsAttrs req.includeAttributes d h.id h.attrs)
      ((materialize (Layout.log docs tail)).passing filter m.schema.fts) (outcomes.flatMap (·.hits)) :=
  h.drawn_shards (fun shard slice => shardSearch S shard req filter slice m.schema) hsearch
    fun _ _ _ _ hbuilt hd hyields => Store.Yields.drawn_shardSearch hbuilt hd hyields

/-! ## The queries -/

omit [Crates] [HashOrder] in
/-- A prefix that is not cut short is the whole tail. -/
theorem walPrefixFrom_whole {cap acc : Nat} {es : List WalEntry}
    (h : (Manifest.walPrefixFrom cap acc es).2 = false) : (Manifest.walPrefixFrom cap acc es).1 = es := by
  induction es generalizing acc with
  | nil => rfl
  | cons e es ih =>
      rw [Manifest.walPrefixFrom] at h ⊢
      split_ifs at h ⊢ with hover
      exact congrArg (e :: ·) (ih h)

omit [Crates] [HashOrder] in
/-- **A strongly consistent answer** has read the whole tail. -/
theorem tailEntries_strong {entries : List WalEntry} {truncated : Bool}
    (h : tailEntries m .strong = .ok (entries, truncated)) : entries = m.wal := by
  rw [tailEntries] at h
  dsimp only at h
  split_ifs at h with hcut
  obtain ⟨rfl, rfl⟩ := Prod.mk.inj (Except.ok.inj h)
  refine walPrefixFrom_whole (Bool.eq_false_iff.mpr fun htrue => hcut ⟨htrue, rfl⟩)

/-- The rows are of live documents that match, each once, and at most `k`. -/
structure SoundRows {γ : Type} (s : Store) (rs : List Record) (request : Option Filter) (k : Nat) (of : Doc → γ → Prop)
    (rows : List γ) : Prop where
  drawn : ∃ filter, coerceFilter s.manifest.schema request = .ok filter ∧
    Drawn of ((materialize rs).passing filter s.manifest.schema.fts) rows
  within : rows.length ≤ k

omit [HashOrder] in
/-- The rows rendered. -/
theorem SoundRows.render {γ δ : Type} {s : Store} {rs : List Record} {request : Option Filter} {k : Nat}
    {of : Doc → γ → Prop} {of' : Doc → δ → Prop} {rows : List γ} (h : SoundRows s rs request k of rows) (f : γ → δ)
    (hof : ∀ d row, of d row → of' d (f row)) : SoundRows s rs request k of' (rows.map f) := by
  obtain ⟨filter, hfilter, hdrawn⟩ := h.drawn
  exact ⟨⟨filter, hfilter, hdrawn.render f hof⟩, (List.length_map f).trans_le h.within⟩

variable {N : Type} [Numbers N] {handle : Nat}

/-- **A vector query**, through whatever its shards take. -/
theorem Layout.sound_query (h : Layout s s.manifest docs tail) {req : QueryRequest} (hstrong : req.consistency = .strong)
    {r : QueryResponse} (hr : s.Yields (query N handle req) (.ok r)) :
    SoundRows s (Layout.log docs tail) req.filter req.topK
      (fun d h => h = hitOf req.vector req.includeAttributes s.manifest.schema.distanceMetric d) r.hits := by
  obtain ⟨⟨m, snapshot⟩, hload, hr⟩ := hr.of_seq
  rw [hstrong] at hload
  obtain ⟨rfl, rfl⟩ := Prod.mk.inj (Except.ok.inj ((Store.Yields.loadWith_strong handle).unique hload))
  obtain ⟨filter, entries, truncated, tail', aggs, hfilter, -, hentries, htail, -, hhits⟩ := hr.of_queryOn
  rw [hstrong] at hentries
  obtain rfl := tailEntries_strong hentries
  obtain rfl := h.unindexed.unique (Store.Yields.of_readRecordsParallel htail).1
  split_ifs at hhits with haggs
  · rw [hhits]
    exact ⟨⟨filter, hfilter, .nil _ _⟩, Nat.zero_le _⟩
  · obtain ⟨outcomes, hrank, hhits⟩ := hhits
    rw [takeBest_eq] at hhits
    rw [hhits]
    exact ⟨⟨filter, hfilter, (h.drawn_rankShards hrank).subperm best_subperm⟩, List.length_take_le _ _⟩

/-- **A search**. -/
theorem Layout.sound_search {S : Type} [Score S] (h : Layout s s.manifest docs tail) {req : SearchRequest}
    (hstrong : req.consistency = .strong) {r : SearchResponse S}
    (hr : s.Yields (Fckdb.search S N handle req) (.ok r)) :
    SoundRows s (Layout.log docs tail) req.filter req.topK
      (fun d h => ShowsAttrs req.includeAttributes d h.id h.attrs) r.hits := by
  obtain ⟨⟨m, snapshot⟩, hload, hr⟩ := hr.of_seq
  rw [hstrong] at hload
  obtain ⟨rfl, rfl⟩ := Prod.mk.inj (Except.ok.inj ((Store.Yields.loadWith_strong handle).unique hload))
  obtain ⟨filter, hfilter, hr⟩ := hr.of_seq
  obtain ⟨⟨⟩, -, hr⟩ := hr.of_seq
  obtain ⟨⟨entries, truncated⟩, hentries, hr⟩ := hr.of_seq
  obtain ⟨tail', htail, hr⟩ := hr.of_seq
  obtain ⟨aggs, -, hr⟩ := hr.of_seq
  obtain ⟨outcomes, hshards, hret⟩ := hr.of_seq
  rw [hstrong] at hentries
  obtain rfl := tailEntries_strong ((Store.Yields.ofExcept _).unique hentries)
  obtain rfl := h.unindexed.unique (Store.Yields.of_readRecordsParallel htail).1
  obtain rfl := Except.ok.inj ((Store.Yields.ret _).unique hret)
  refine ⟨⟨filter, (Store.Yields.ofExcept _).unique hfilter, ?_⟩, List.length_take_le _ _⟩
  exact (h.drawn_searchShards hshards).subperm
    ((List.take_sublist _ _).subperm.trans (List.perm_insertionSort _ _).subperm)

/-- **An ordered query**. -/
theorem Layout.sound_ordered (h : Layout s s.manifest docs tail) {req : QueryRequest} {order : OrderBy}
    (hstrong : req.consistency = .strong) {r : OrderedResponse}
    (hr : s.Yields (queryOrdered N handle req (some order)) (.ok r)) :
    SoundRows s (Layout.log docs tail) req.filter req.topK
      (fun d h => h = (order.row req.includeAttributes d).2) r.hits := by
  obtain ⟨⟨m, snapshot⟩, hload, hr⟩ := hr.of_seq
  rw [hstrong] at hload
  obtain ⟨rfl, rfl⟩ := Prod.mk.inj (Except.ok.inj ((Store.Yields.loadWith_strong handle).unique hload))
  obtain ⟨filter, entries, truncated, tail', live, hfilter, hentries, htail, hlive, -, hhits⟩ := hr.of_orderedOn
  rw [hstrong] at hentries
  obtain rfl := tailEntries_strong hentries
  obtain rfl := h.unindexed.unique (Store.Yields.of_readRecordsParallel htail).1
  obtain ⟨segments, hsegments, hret⟩ := hlive.of_seq
  obtain rfl := Except.ok.inj ((Store.Yields.ret _).unique hret)
  have hlog : segments ++ tail = Layout.log docs tail :=
    ((Store.Yields.of_readRecordsParallel hsegments).1.append h.unindexed).unique h.reads
  rw [hhits, hlog]
  refine ⟨⟨filter, hfilter, drawn_orderBy _ order _ _⟩, List.length_take_le _ _⟩

/-- **The exhaustive scan**. -/
theorem Layout.sound_queryBrute (h : Layout s s.manifest docs tail) {vector : List F32} {k : Nat}
    {filter : Option Filter} {hits : List Hit} (hr : s.Yields (queryBrute handle vector k filter) (.ok hits)) :
    SoundRows s (Layout.log docs tail) filter k
      (fun d h => h = hitOf vector .none s.manifest.schema.distanceMetric d) hits := by
  obtain ⟨⟨m, version⟩, hload, hr⟩ := hr.of_seq
  obtain ⟨rfl, -⟩ := Prod.mk.inj (Except.ok.inj ((Store.Yields.load handle).unique hload))
  obtain ⟨coerced, hcoerced, hr⟩ := hr.of_seq
  obtain ⟨⟨version', records⟩, hrecords, hret⟩ := hr.of_seq
  obtain ⟨⟨m', version''⟩, hload', hrecords⟩ := hrecords.of_seq
  obtain ⟨rfl, -⟩ := Prod.mk.inj (Except.ok.inj ((Store.Yields.load handle).unique hload'))
  obtain ⟨records', hreads, hpair⟩ := hrecords.of_seq
  obtain ⟨rfl, rfl⟩ := Prod.mk.inj (Except.ok.inj ((Store.Yields.ret _).unique hpair))
  obtain rfl := Except.ok.inj ((Store.Yields.ret _).unique hret)
  obtain rfl := h.reads.unique (Store.Yields.of_readRecordsParallel hreads).1
  refine ⟨⟨coerced, (Store.Yields.ofExcept _).unique hcoerced, drawn_topK _ _ _ _ _⟩, ?_⟩
  exact List.length_take_le _ _

end Query

end Fckdb
