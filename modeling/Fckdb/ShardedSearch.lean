import Fckdb.ExhaustiveSearch
import Fckdb.Prefilter

/-! # Search over shards

A search is answered if and only if every shard has the index of the attribute, so one shard without a document
that has the attribute refuses for all. What it answers does not depend on how many shards there are: a
sparse search ranks the live documents (`Reaches.sharded_sparse`), and a full-text search ranks each by the
statistics of the shard it hashes to (`Reaches.sharded_text`), in exact arithmetic. -/

namespace Fckdb

/-! ## Tokens -/

/-- A list has no more pieces that are not empty than elements. -/
theorem length_splitOnP_le {α : Type*} (p : α → Bool) (l : List α) :
    ((l.splitOnP p).filter (· ≠ [])).length ≤ l.length := by
  induction l with
  | nil => exact Nat.le_refl _
  | cons a l ih =>
      rw [List.splitOnP_cons_eq_if_modifyHead, List.length_cons]
      split_ifs with ha
      · rw [List.filter_cons_of_neg (by simp)]
        exact Nat.le_succ_of_le ih
      · cases hl : l.splitOnP p with
        | nil => exact absurd hl (List.splitOnP_ne_nil p l)
        | cons piece pieces =>
            rw [hl] at ih
            have hrest : (pieces.filter (· ≠ [])).length ≤ ((piece :: pieces).filter (· ≠ [])).length :=
              ((List.sublist_cons_self _ _).filter _).length_le
            rw [List.modifyHead_cons, List.filter_cons_of_pos (by simp), List.length_cons]
            exact Nat.succ_le_succ (hrest.trans ih)

variable [Crates]

/-- A text has no more tokens than characters. -/
theorem Tokenizer.length_tokenize_le (t : Tokenizer) (text : String) : (t.tokenize text).length ≤ text.length :=
  calc (t.tokenize text).length
      ≤ ((text.toList.splitOnP fun c => !Crates.isAlphanumeric c).filter (· ≠ [])).length := by
        rw [tokenize]
        exact (List.length_filterMap_le _ _).trans_eq (List.length_map _)
    _ ≤ text.toList.length := length_splitOnP_le _ _

/-! ## Merging -/

/-- A shard scores its documents, and the best of the shards' best are the best of the live set. -/
theorem merge_scoredHits {n : Nat} (hn : 0 < n) (ask : Ask) (rescore : Nat → Doc → Option ℝ) (k : Nat)
    {live : Live} (hlive : live.WellKeyed) :
    takeBestScored k ((List.range n).flatMap fun i => takeBestScored k
        (scoredHits ask (rescore i) (live.filterKeys fun id => shardOf id n = i))) =
      takeBestScored k (scoredHits ask (fun d => rescore (shardOf d.id n) d) live) := by
  have hparts : ((List.range n).flatMap fun i =>
      scoredHits ask (rescore i) (live.filterKeys fun id => shardOf id n = i)).Perm
        (scoredHits ask (fun d => rescore (shardOf d.id n) d) live) := by
    refine .trans (.of_eq ?_) ((hlive.perm_flatMap_shards hn).filterMap _)
    rw [List.filterMap_flatMap]
    refine List.flatMap_congr fun i _ => List.filterMap_congr fun d hd => ?_
    -- a document of the shard hashes to it
    rw [hlive.values_filterKeys, List.mem_filter, decide_eq_true_eq] at hd
    rw [← hd.2]
  have hnodup := ScoredHit.nodup_rank (nodup_scoredHits ask (fun d => rescore (shardOf d.id n) d) hlive)
  simp only [takeBestScored_eq]
  rw [best_flatMap _ _ (((hparts.map _).nodup_iff).mpr hnodup)]
  exact (best_perm hnodup hparts.symm).symm

/-! ## The query -/

variable [HashOrder]

section Query

variable {S N : Type} [Score S] [Numbers N] {s : Store} {m : Manifest} {req : SearchRequest}
  {filter : Option Filter} {docs : List (List Doc)} {tail : List Record}

/-- A search that is refused for no other reason than an index. -/
structure Searches (s : Store) (m : Manifest) (req : SearchRequest) (filter : Option Filter) : Prop where
  there : ∀ name ∈ m.referenced, name ∉ s.deleted
  capped : m.unindexedBytes ≤ maxUnindexedScanBytes
  fits : coerceFilter m.schema req.filter = .ok filter
  dim : checkDim m.schema req.vector = .ok ()
  ranks : req.aggregateBy = none

/-- The shard has the index of the attribute that is searched. -/
def Search.indexedIn : Search → Shard → Bool
  | .sparse attr _, shard => (shard.index.bind (·.sparse.get attr)).isSome
  | .text attr _, shard => (shard.index.bind (·.fts.get attr)).isSome

omit [HashOrder] in
/-- A shard without the index refuses. -/
theorem Store.Yields.indexed_of_shardSearch {shard : Shard} {schema : Schema} {outcome : SearchOutcome S}
    (h : s.Yields (Fckdb.shardSearch S shard req filter tail schema) (.ok outcome)) :
    req.search.indexedIn shard = true := by
  rw [Fckdb.shardSearch] at h
  cases hsearch : req.search with
  | sparse attr vector =>
      simp only [hsearch] at h
      cases hi : shard.index with
      | none =>
          rw [hi] at h
          cases (fail _).unique h
      | some idx =>
          cases hattr : idx.sparse.get attr with
          | none =>
              simp only [hi, hattr] at h
              cases (fail _).unique h
          | some name => rw [Search.indexedIn, hi, Option.bind_some, hattr, Option.isSome_some]
  | text attr query =>
      simp only [hsearch] at h
      cases hi : shard.index with
      | none =>
          rw [hi] at h
          cases (fail _).unique h
      | some idx =>
          cases hattr : idx.fts.get attr with
          | none =>
              simp only [hi, hattr] at h
              cases (fail _).unique h
          | some name => rw [Search.indexedIn, hi, Option.bind_some, hattr, Option.isSome_some]

/-- **A search that is answered** is answered by every shard. -/
theorem Store.Yields.indexed_of_searchOn (h : Layout s m docs tail) (hcap : m.unindexedBytes ≤ maxUnindexedScanBytes)
    {snapshot : Bool} {r : SearchResponse S} (hr : s.Yields (searchOn S N req m snapshot) (.ok r)) :
    ∀ shard ∈ residentShards m, req.search.indexedIn shard = true := by
  obtain ⟨filter, -, hr⟩ := hr.of_seq
  obtain ⟨⟨⟩, -, hr⟩ := hr.of_seq
  obtain ⟨⟨entries, truncated⟩, hentries, hr⟩ := hr.of_seq
  obtain ⟨tail', htail, hr⟩ := hr.of_seq
  obtain ⟨aggs, -, hr⟩ := hr.of_seq
  obtain ⟨outcomes, hshards, -⟩ := hr.of_seq
  -- the whole tail is read
  rw [tailEntries_of_le hcap] at hentries
  obtain ⟨rfl, rfl⟩ := Prod.mk.inj (Except.ok.inj ((ofExcept _).unique hentries).symm)
  obtain rfl := h.unindexed.unique (of_readRecordsParallel htail).1
  rw [Fckdb.searchShards, h.zip_tails, List.map_map] at hshards
  have hparts := List.forall₂_map_left_iff.mp hshards.of_tryJoinAll
  intro shard hshard
  obtain ⟨i, hi, rfl⟩ := List.mem_iff_getElem.mp hshard
  have hlt : i < (List.range docs.length).length := by
    rw [List.length_range, h.built.length_eq]
    exact hi
  have hpart := hparts.get hlt (hparts.length_eq ▸ hlt)
  rw [List.get_eq_getElem, List.getElem_range, Function.comp, List.getD_eq_getElem?_getD,
    List.getElem?_eq_getElem hi, Option.getD_some] at hpart
  exact hpart.indexed_of_shardSearch

/-- **A search is answered** when every shard answers. -/
theorem Store.Yields.searchOn_shards (h : Layout s m docs tail) (hs : Searches s m req filter)
    (snapshot : Bool) {outcome : Nat → SearchOutcome S}
    (hall : ∀ i < docs.length, s.Yields (Fckdb.shardSearch S ((residentShards m).getD i {}) req filter
      (slice docs.length i tail) m.schema) (.ok (outcome i))) :
    ∃ r, s.Yields (searchOn S N req m snapshot) (.ok r) ∧
      r.hits = takeBestScored req.topK ((List.range docs.length).flatMap fun i => (outcome i).hits) := by
  have hshards : s.Yields (Fckdb.searchShards S req filter m tail)
      (.ok ((List.range docs.length).map outcome)) := by
    rw [Fckdb.searchShards, h.zip_tails, List.map_map]
    exact tryJoinAll fun i hi => hall i (List.mem_range.mp hi)
  have htail := readRecordsParallel h.unindexed fun name hname =>
    hs.there name (Manifest.mem_referenced.mpr (.inl hname))
  have hentries := tailEntries_of_le hs.capped req.consistency
  have hready {α : Type} {e : Except Error α} {a : α} (he : e = .ok a) : s.Yields (Proc.ofExcept e) (.ok a) :=
    he ▸ .ofExcept _
  refine ⟨_, seq (hready hs.fits) (seq (hready hs.dim) (seq (hready hentries) (seq htail
    (seq (aggregations_none hs.ranks) (seq hshards (ret _)))))), ?_⟩
  dsimp only
  rw [List.flatMap_map]

/-- **The answer of the shards**: each ranks the hits of its live set by a score of its own. -/
theorem Store.Yields.searchOn_scored {req : SearchRequest} (h : Layout s m docs tail)
    (hs : Searches s m req filter) (snapshot : Bool) {rescore : Nat → Doc → Option ℝ}
    (hall : ∀ i (hi : i < docs.length), ∃ hits, s.Yields (Fckdb.shardSearch ℝ ((residentShards m).getD i {}) req
        filter (slice docs.length i tail) m.schema) (.ok (.ranked hits req.topK true)) ∧
      hits.Perm (scoredHits (req.ask filter m.schema) (rescore i)
        (materialize (docs[i].map .upsert ++ slice docs.length i tail)))) :
    ∃ r, s.Yields (searchOn ℝ N req m snapshot) (.ok r) ∧
      r.hits = takeBestScored req.topK (scoredHits (req.ask filter m.schema)
        (fun d => rescore (shardOf d.id docs.length) d) (materialize (Layout.log docs tail))) := by
  have hkeyed := materialize_wellKeyed (Layout.log docs tail)
  have houtcomes : ∀ i, ∃ outcome : SearchOutcome ℝ, i < docs.length →
      s.Yields (Fckdb.shardSearch ℝ ((residentShards m).getD i {}) req filter (slice docs.length i tail)
        m.schema) (.ok outcome) ∧
      outcome.hits = takeBestScored req.topK (scoredHits (req.ask filter m.schema) (rescore i)
        ((materialize (Layout.log docs tail)).filterKeys fun id => shardOf id docs.length = i)) := by
    intro i
    by_cases hi : i < docs.length
    · obtain ⟨hits, hyields, hperm⟩ := hall i hi
      refine ⟨_, fun _ => ⟨hyields, ?_⟩⟩
      rw [← h.slice_log hi, materialize_slice] at hperm
      have hnodup := ScoredHit.nodup_rank (nodup_scoredHits (req.ask filter m.schema) (rescore i)
        (hkeyed.filterKeys fun id => shardOf id docs.length = i))
      rw [SearchOutcome.ranked, takeBestScored_eq, takeBestScored_eq, best_perm hnodup hperm.symm]
    · exact ⟨⟨[], false, false⟩, fun hlt => absurd hlt hi⟩
  choose outcome houtcome using houtcomes
  obtain ⟨r, hr, hhits⟩ := searchOn_shards (N := N) h hs snapshot fun i hi => (houtcome i hi).1
  refine ⟨r, hr, ?_⟩
  rw [hhits, ← merge_scoredHits h.pos _ rescore _ hkeyed]
  refine congrArg _ (List.flatMap_congr fun i hi => ?_)
  exact (houtcome i (List.mem_range.mp hi)).2

end Query

/-! ## In every interleaving -/

section Runs

omit [HashOrder] in
theorem IndexBuilt.docs {s : Store} {t : Nat} {schema : Schema} {docs : List Doc} {i : IndexMeta}
    (h : IndexBuilt s t schema docs i) : i.docs = docs.length := by
  obtain ⟨flat, groups, centroids, names, -, -, -, rfl⟩ := h
  rfl

variable {N : Type} [Numbers N] {ok : Terms} {p : Namespace} {req : SearchRequest} {filter : Option Filter}
  {handle : Nat} {snapshot : Bool}

/-- **A search over shards**, each of which scores in its own way. -/
theorem Layout.searched {s : Store} {m : Manifest} {docs : List (List Doc)} {tail : List Record}
    (h : Layout s m docs tail) (hload : s.Yields (loadWith handle req.consistency) (.ok (m, snapshot)))
    (hs : Searches s m req filter) (rescore : Nat → Doc → Option ℝ)
    (hall : (∀ shard ∈ residentShards m, req.search.indexedIn shard = true) → ∀ i (hi : i < docs.length), ∃ hits,
      s.Yields (shardSearch ℝ ((residentShards m).getD i {}) req filter (slice docs.length i tail) m.schema)
        (.ok (.ranked hits req.topK true)) ∧
      hits.Perm (scoredHits (req.ask filter m.schema) (rescore i)
        (materialize (docs[i].map .upsert ++ slice docs.length i tail)))) :
    ((∃ r, s.Yields (search ℝ N handle req) (.ok r)) ↔
      ∀ shard ∈ residentShards m, req.search.indexedIn shard = true) ∧
    ∀ r rs, s.Yields (search ℝ N handle req) (.ok r) → s.Reads m.recordObjects rs →
      r.hits = takeBestScored req.topK (scoredHits (req.ask filter m.schema)
        (fun d => rescore (shardOf d.id (residentShards m).length) d) (materialize rs)) ∧
      (r.hits.map ScoredHit.id).Nodup := by
  have hlen : docs.length = (residentShards m).length := h.built.length_eq
  have hindexed : ∀ r, s.Yields (search ℝ N handle req) (.ok r) →
      ∀ shard ∈ residentShards m, req.search.indexedIn shard = true := by
    intro r hr
    obtain ⟨⟨m', snapshot'⟩, hloaded, hanswer⟩ := hr.of_seq
    obtain ⟨rfl, rfl⟩ := Prod.mk.inj (Except.ok.inj (hload.unique hloaded))
    exact hanswer.indexed_of_searchOn h hs.capped
  have hanswered (hindexed : ∀ shard ∈ residentShards m, req.search.indexedIn shard = true) :
      ∃ r, s.Yields (search ℝ N handle req) (.ok r) ∧ r.hits = takeBestScored req.topK
        (scoredHits (req.ask filter m.schema) (fun d => rescore (shardOf d.id docs.length) d)
          (materialize (Layout.log docs tail))) := by
    obtain ⟨r, hr, hhits⟩ := Store.Yields.searchOn_scored (N := N) h hs snapshot (hall hindexed)
    exact ⟨r, .seq hload hr, hhits⟩
  refine ⟨⟨fun hr => hr.elim hindexed, fun hevery => (hanswered hevery).imp fun r hr => hr.1⟩, ?_⟩
  intro r rs hr hrs
  obtain ⟨r', hr', hhits⟩ := hanswered (hindexed r hr)
  obtain rfl := Except.ok.inj (hr.unique hr')
  obtain rfl := hrs.unique h.reads
  rw [hhits, hlen, takeBestScored_eq]
  exact ⟨rfl, nodup_map_of_subperm (nodup_scoredHits _ _ (materialize_wellKeyed _)) best_subperm⟩

omit [HashOrder] in
/-- A shard of a layout, and the index that it has. -/
theorem Layout.indexed {s : Store} {m : Manifest} {docs : List (List Doc)} {tail : List Record}
    (h : Layout s m docs tail) (hs : Searches s m req filter) {i : Nat} (hi : i < docs.length) :
    ∃ shard ∈ residentShards m, (residentShards m)[i]? = some shard ∧ (docs[i].map Doc.id).Nodup ∧
      s.BuiltFrom docs[i] shard ∧ (∀ name ∈ shard.objects, name ∉ s.deleted) ∧
      ∀ idx ∈ shard.index, idx ∈ m.allIndexes ∧ idx.docs = docs[i].length := by
  have hlt : i < (residentShards m).length := h.built.length_eq ▸ hi
  have hmem : (residentShards m)[i] ∈ residentShards m := List.getElem_mem hlt
  obtain ⟨hd, hb⟩ := h.shard hi
  refine ⟨_, hmem, List.getElem?_eq_getElem hlt, hd, hb,
    fun name hname => hs.there name (mem_referenced_resident hmem hname), fun idx hidx => ?_⟩
  obtain ⟨t, schema, hbuilt⟩ := hb.index hidx
  exact ⟨mem_allIndexes_resident hmem hidx, hbuilt.docs⟩

/-- The index that an object holds. -/
def Blob.fts? : Blob → Option FtsIndex
  | .fts x => some x
  | _ => none

/-- The full-text index of an attribute in a shard. -/
def Store.ftsOf (s : Store) (attr : String) (shard : Shard) : Option FtsIndex :=
  (shard.index.bind (·.fts.get attr)).bind fun name => (s.written (.data name)).bind (·.blob.fts?)

/-- What a document scores for a text in its shard. -/
def Store.shardScore {S : Type} [Score S] (s : Store) (attr query : String) (shard : Shard) (d : Doc) : Option S :=
  (s.ftsOf attr shard).bind fun x => textScore x attr query d

end Runs

/-! ## Two documents in two shards -/

/-- Two documents are written to a namespace of two shards. -/
def soughtPairRun : List Act :=
  .spawn (.commitRecords 0 [.upsert (.sought 1), .upsert (.sought 2)]
    { numShards := some 2, declaredFts := .ofList [("t", .plain)] }) :: goes 0 6

omit [Crates] [HashOrder] in
/-- The document's vector and its text are indexed. -/
theorem IndexBuilt.sought_indexed {s : Store} {t : Nat} {schema : Schema} {n : UInt64} {i : IndexMeta}
    {shard : Shard} {search : Search} :
    let _ := Crates.inert
    IndexBuilt s t schema (soughtDocs n []) i → schema.attributes = .ofList [("s", .sparseF16), ("t", .string)] →
      schema.fts = .ofList [("t", .plain)] → shard.index = some i →
      search ∈ [Search.sparse "s" soughtVector, .text "t" "fox"] → search.indexedIn shard = true := by
  intro _ hb hattributes hfts hi hsearch
  simp only [List.mem_cons, List.not_mem_nil, or_false] at hsearch
  rcases hsearch with rfl | rfl
  · rw [Search.indexedIn, hi, Option.bind_some]
    exact hb.sought_sparse hattributes
  · obtain ⟨name, hname, -⟩ := hb.sought_fts hfts
    rw [Search.indexedIn, hi, Option.bind_some, hname, Option.isSome_some]

omit [Crates] [HashOrder] in
/-- **The run, compacted**: each document is indexed in a shard of its own. -/
theorem soughtPairRun_searched :
    let _ := Crates.inert
    let _ := HashOrder.sorted
    ∃ p, Reaches anyTerms p ∧ Placement p ∧ p.shared.manifest.shards.length = 2 ∧
      p.shared.Reads p.shared.manifest.recordObjects [.upsert (.sought 1), .upsert (.sought 2)] ∧
      (∀ idx ∈ p.shared.manifest.allIndexes, idx.docs ≤ 2 ^ 32) ∧
      ∀ search ∈ [Search.sparse "s" soughtVector, .text "t" "fox"],
        Searches p.shared p.shared.manifest (.plain search) none ∧
        ∀ shard ∈ residentShards p.shared.manifest, search.indexedIn shard = true := by
  intro _ _
  have hrun : ∃ p, execute service.step ⟨{}, []⟩ soughtPairRun = some p ∧ p.shared.deleted = [] ∧
      p.shared.Reads p.shared.manifest.recordObjects [.upsert (.sought 1), .upsert (.sought 2)] ∧
      p.shared.manifest.compacted true = false ∧
      p.shared.manifest.schema.attributes = .ofList [("s", .sparseF16), ("t", .string)] ∧
      p.shared.manifest.schema.fts = .ofList [("t", .plain)] ∧
      p.shared.manifest.schema.shards = 2 ∧ p.shared.manifest.schema.dim = some 1 :=
    ⟨_, rfl, rfl, ⟨[_], .cons ⟨_, rfl, rfl⟩ .nil, rfl⟩, rfl, rfl, rfl, rfl, rfl⟩
  obtain ⟨p₀, hp₀, hdeleted, hreads, hdue, hattributes, hfts, hcount, hdim⟩ := hrun
  have hbuckets : buckets (materialize [.upsert (.sought 1), .upsert (.sought 2)]).values 2 =
      [soughtDocs 1 [], soughtDocs 2 []] := by decide +kernel
  rw [← hcount] at hbuckets
  obtain ⟨p, hp, hc⟩ := (Reaches.any hp₀).compacted (fun name _ => by rw [hdeleted]; exact List.not_mem_nil)
    hreads hdue fun docs hdocs hne _ => ivfBuild_isOk _ hne (n := 1) fun d hd => by
      rw [hbuckets] at hdocs
      simp only [List.mem_cons, List.not_mem_nil, or_false] at hdocs
      rcases hdocs with rfl | rfl
      · obtain rfl := List.mem_singleton.mp hd
        rfl
      · obtain rfl := List.mem_singleton.mp hd
        rfl
  have hplaced : Placement p := hc.placed.lands
  obtain ⟨shards, stamp, hm, hbuilt⟩ := hc.manifest
  rw [hbuckets] at hbuilt
  cases hbuilt with | @cons _ shard₁ _ _ h₁ hbuilt =>
  cases hbuilt with | @cons _ shard₂ _ _ h₂ hbuilt =>
  cases hbuilt
  obtain ⟨i₁, hi₁, hb₁⟩ := h₁.indexed (List.cons_ne_nil _ _)
  obtain ⟨i₂, hi₂, hb₂⟩ := h₂.indexed (List.cons_ne_nil _ _)
  have hshards : p.shared.manifest.shards = [shard₁, shard₂] := by
    rw [hm, Manifest.install_shards]
  have hwal : p.shared.manifest.wal = [] := by
    rw [hm, Manifest.install_wal, List.filter_eq_nil_iff]
    intro e he
    simpa using ⟨e, he, rfl⟩
  refine ⟨p, hp, hplaced, by rw [hshards]; rfl, ?_, ?_, fun search hsearch => ⟨⟨fun name _ => ?_, ?_, rfl, ?_,
    rfl⟩, ?_⟩⟩
  · rw [Manifest.recordObjects, Manifest.allSegments, hshards, hwal, List.map_nil, List.append_nil]
    simp only [List.flatMap_cons, List.flatMap_nil, List.append_nil, List.map_append]
    exact (Store.BuiltFrom.reads ⟨_, _, _, h₁⟩).append (Store.BuiltFrom.reads ⟨_, _, _, h₂⟩)
  · rw [Manifest.allIndexes, hshards]
    simp only [List.filterMap_cons, hi₁, hi₂, List.filterMap_nil, List.mem_cons, List.not_mem_nil, or_false]
    rintro idx (rfl | rfl)
    · rw [hb₁.docs]
      decide
    · rw [hb₂.docs]
      decide
  · rw [hc.deleted, hdeleted]
    exact List.not_mem_nil
  · rw [Manifest.unindexedBytes, hwal]
    exact Nat.zero_le _
  · rw [checkDim, hm, Manifest.install_schema, hdim]
    exact if_pos (.inl rfl)
  · rw [residentShards_of_ne_nil (by rw [hshards]; exact List.cons_ne_nil _ _), hshards]
    simp only [List.mem_cons, List.not_mem_nil, or_false]
    rintro shard (rfl | rfl)
    · exact hb₁.sought_indexed hattributes hfts hi₁ hsearch
    · exact hb₂.sought_indexed hattributes hfts hi₂ hsearch

end Fckdb
