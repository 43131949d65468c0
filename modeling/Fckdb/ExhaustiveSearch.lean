import Fckdb.FullProbe
import Fckdb.SearchAnswers
import Mathlib.Data.UInt

/-! # Search on one shard is exhaustive

In exact arithmetic, a search of a namespace with one indexed shard finds the live documents that pass the
filter and score, ranked (`Reaches.sparse_search`, `Reaches.text_search`). Ordinals are 32 bits wide: the
index of a longer segment takes one document for another (`wide_not_sparse_exhaustive`,
`wide_not_text_exhaustive`). -/

namespace Fckdb

/-! ## In every interleaving -/

section Runs

variable [Crates] [HashOrder]

/-- A search that works on a manifest with one shard, which is indexed and whose objects are there: what it
reads is the records of the segment and of the tail, as far as the tail is read. -/
structure SearchesOne (s : Store) (m : Manifest) (req : SearchRequest) (handle : Nat) (idx : IndexMeta)
    (filter : Option Filter) (segment tail : List Record) : Prop where
  one : ∃ shard, m.shards = [shard] ∧ shard.index = some idx ∧
    s.Reads (shard.segments.map fun e => .data e.name) segment
  there : ∀ name ∈ m.referenced, name ∉ s.deleted
  loaded : ∃ snapshot, s.Yields (loadWith handle req.consistency) (.ok (m, snapshot))
  fits : coerceFilter m.schema req.filter = .ok filter
  dim : checkDim m.schema req.vector = .ok ()
  ranks : req.aggregateBy = none
  tail : ∃ entries truncated, tailEntries m req.consistency = .ok (entries, truncated) ∧
    s.Reads (entries.map fun e => .wal e.name) tail

omit [Crates] [HashOrder] in
/-- What is read of the tail is part of it. -/
theorem tailEntries_isPrefix {m : Manifest} {consistency : Consistency} {entries : List WalEntry}
    {truncated : Bool} (h : tailEntries m consistency = .ok (entries, truncated)) : entries <+: m.wal := by
  have hprefix := m.walPrefixWithin_isPrefix maxUnindexedScanBytes
  rw [tailEntries] at h
  dsimp only at h
  split_ifs at h
  obtain rfl := (Prod.mk.inj (Except.ok.inj h)).1
  exact hprefix

namespace SearchesOne

variable {s : Store} {m : Manifest} {req : SearchRequest} {handle : Nat} {idx : IndexMeta}
  {filter : Option Filter} {segment tail : List Record}

/-- **The answer** is that of the shard, whose documents the segment holds. -/
theorem answer (h : SearchesOne s m req handle idx filter segment tail) (hbuilt : WellBuilt s m) :
    ∃ docs shard, (docs.map Doc.id).Nodup ∧ s.BuiltFrom docs shard ∧ segment = docs.map .upsert ∧
      shard.index = some idx ∧ (∀ name ∈ shard.objects, name ∉ s.deleted) ∧
      ∀ {S : Type} [Score S] {outcome : SearchOutcome S},
        s.Yields (shardSearch S shard req filter tail m.schema) (.ok outcome) →
        ∃ r, s.Yields (search S F64 handle req) (.ok r) ∧ r.hits = takeBestScored req.topK outcome.hits := by
  obtain ⟨shard, hone, hidx, hsegment⟩ := h.one
  have hshard : shard ∈ m.shards := hone ▸ List.mem_singleton_self _
  obtain ⟨docs, hd, hb⟩ := hbuilt.built shard hshard
  refine ⟨docs, shard, hd, hb, hsegment.unique hb.reads, hidx, fun name hname => h.there name
    (Manifest.mem_referenced.mpr (.inr ⟨shard, hshard, hname⟩)), fun houtcome => ?_⟩
  obtain ⟨snapshot, hload⟩ := h.loaded
  obtain ⟨entries, truncated, hentries, htail⟩ := h.tail
  refine Store.Yields.search_one hload hone h.fits h.dim h.ranks hentries
    (.readRecordsParallel htail fun name hname => h.there name ?_) houtcome
  refine Manifest.mem_referenced.mpr (.inl ?_)
  exact List.map_subset _ (tailEntries_isPrefix hentries).subset hname

end SearchesOne

omit [HashOrder] in
/-- What an exact shard returns, when what it ranks are the hits of the live set. -/
theorem takeBestScored_ranked {k : Nat} {hits answer : List (ScoredHit ℝ)} {ask : Ask}
    {rescore : Doc → Option ℝ} {live : Live} {indexed : Bool} (hlive : live.WellKeyed)
    (h : hits.Perm (scoredHits ask rescore live))
    (hanswer : answer = takeBestScored k (SearchOutcome.ranked hits k indexed).hits) :
    answer = takeBestScored k (scoredHits ask rescore live) ∧ (answer.map ScoredHit.id).Nodup := by
  have hnodup := nodup_scoredHits ask rescore hlive
  have hranks := ScoredHit.nodup_rank hnodup
  -- cutting twice is cutting once
  have htwice := @best_flatMap _ _ _ ScoredHit.rank k _ [()] (fun _ => hits)
    (by rw [List.flatMap_singleton]; exact ((h.map _).nodup_iff).mpr hranks)
  rw [List.flatMap_singleton, List.flatMap_singleton] at htwice
  rw [SearchOutcome.ranked, takeBestScored_eq, takeBestScored_eq, htwice,
    ← best_perm hranks h.symm] at hanswer
  subst hanswer
  exact ⟨(takeBestScored_eq _ _).symm, nodup_map_of_subperm hnodup best_subperm⟩

end Runs

/-! ## A document that is sought -/

/-- A document with a sparse vector and a text. -/
def Doc.sought (n : UInt64) : Doc :=
  ⟨.uint n, [⟨0⟩], .ofList [("s", .sparse (.ofList [("a", ⟨0x3f800000⟩)])), ("t", .string "fox")]⟩

/-- Every token counts, and every occurrence alike. -/
def FtsConfig.plain : FtsConfig :=
  { tokenizer := { stemming := false, removeStopwords := false }, params := ⟨⟨0⟩, ⟨0⟩⟩ }

/-- The document is written, and then a batch. -/
def soughtRun (n : UInt64) (batch : List Record) : List Act :=
  .spawn (.commitRecords 0 [.upsert (.sought n)] { declaredFts := .ofList [("t", .plain)] }) ::
    goes 0 6 ++ .spawn (.commitBatch 0 batch) :: goes 1 5

/-- A search of nothing but its own kind. -/
def SearchRequest.plain (search : Search) : SearchRequest := { vector := [], search }

/-- Documents before it, in the order of their ids. -/
def soughtDocs (n : UInt64) (others : List UInt64) : List Doc := others.map .flat ++ [.sought n]

/-- **The run, compacted**: one indexed shard with all documents. -/
theorem soughtRun_searched {n : UInt64} {others : List UInt64}
    (hvalues : (materialize (.upsert (.sought n) :: others.map fun o => .upsert (.flat o))).values =
      soughtDocs n others) :
    let _ := Crates.inert
    let _ := HashOrder.sorted
    ∃ p idx schema t, Reaches anyTerms p ∧ IndexBuilt p.shared t schema (soughtDocs n others) idx ∧
      schema.attributes = .ofList [("s", .sparseF16), ("t", .string)] ∧
      schema.fts = .ofList [("t", .plain)] ∧
      ∀ search, SearchesOne p.shared p.shared.manifest (.plain search) 0 idx none
        ((soughtDocs n others).map .upsert) [] := by
  intro _ _
  have hrun : ∀ batch, ∃ p, execute service.step ⟨{}, []⟩ (soughtRun n batch) = some p ∧
      p.shared.deleted = [] ∧
      p.shared.Reads p.shared.manifest.recordObjects (.upsert (.sought n) :: batch) ∧
      p.shared.manifest.compacted true = false ∧
      p.shared.manifest.schema.attributes = .ofList [("s", .sparseF16), ("t", .string)] ∧
      p.shared.manifest.schema.fts = .ofList [("t", .plain)] ∧
      p.shared.manifest.schema.shards = 1 ∧ p.shared.manifest.schema.dim = some 1 := fun batch => by
    refine ⟨_, rfl, rfl, ⟨[_, batch], .cons ⟨_, rfl, rfl⟩ (.cons ⟨_, rfl, rfl⟩ .nil), ?_⟩, rfl, rfl, rfl,
      rfl, rfl⟩
    rw [List.flatten_cons, List.flatten_singleton, List.singleton_append]
    rfl
  obtain ⟨p₀, hp₀, hdeleted, hreads, hdue, hattributes, hfts, hcount, hdim⟩ :=
    hrun (others.map fun o => .upsert (.flat o))
  have hbucket (docs : List Doc) : buckets docs 1 = [docs] := by
    rw [buckets, List.range_one, List.map_singleton]
    exact congrArg (fun l => [l]) (List.filter_eq_self.mpr fun _ _ => rfl)
  obtain ⟨p, hp, hc⟩ := (Reaches.any hp₀).compacted (fun name _ => by rw [hdeleted]; exact List.not_mem_nil)
    hreads hdue fun docs hdocs hne _ => ivfBuild_isOk _ hne (n := 1) fun d hd => by
      rw [hcount, hbucket, hvalues, List.mem_singleton] at hdocs
      rw [hdocs, soughtDocs, List.mem_append, List.mem_map, List.mem_singleton] at hd
      obtain ⟨o, -, rfl⟩ | rfl := hd <;> rfl
  obtain ⟨shards, stamp, hm, hbuilt⟩ := hc.manifest
  rw [hcount, hbucket, hvalues] at hbuilt
  cases hbuilt with | @cons _ shard _ _ h hbuilt =>
  cases hbuilt
  obtain ⟨idx, hidx, hb⟩ := h.indexed (List.append_ne_nil_of_right_ne_nil _ (List.cons_ne_nil _ _))
  have hwal : p.shared.manifest.wal = [] := by
    rw [hm, Manifest.install_wal, List.filter_eq_nil_iff]
    intro e he
    simpa using ⟨e, he, rfl⟩
  refine ⟨p, idx, _, _, hp, hb, hattributes, hfts, fun search => ?_⟩
  refine ⟨⟨shard, ?_, hidx, Store.BuiltFrom.reads ⟨_, _, _, h⟩⟩, fun name _ => ?_,
    ⟨false, Store.Yields.loadWith_strong 0⟩, rfl, ?_, rfl, [], false, ?_, .nil⟩
  · rw [hm, Manifest.install_shards]
  · rw [hc.deleted, hdeleted]
    exact List.not_mem_nil
  · rw [checkDim, hm, Manifest.install_schema, hdim]
    exact if_pos (.inl rfl)
  · rw [tailEntries_of_le (by rw [Manifest.unindexedBytes, hwal]; exact Nat.zero_le _), hwal]

/-- The vector that is sought. -/
def soughtVector : SortedMap String F32 := .ofList [("a", ⟨0x3f800000⟩)]

/-- What an extraction that finds nothing in the other documents finds. -/
theorem filterMap_soughtDocs {β : Type} {f : Doc × Nat → Option β} (n : UInt64) (others : List UInt64)
    (h : ∀ o i, f (.flat o, i) = none) :
    (soughtDocs n others).zipIdx.filterMap f = (f (.sought n, others.length)).toList := by
  rw [soughtDocs, List.zipIdx_append, List.filterMap_append]
  have hothers : ((others.map Doc.flat).zipIdx).filterMap f = [] := by
    rw [List.filterMap_eq_nil_iff]
    intro p hp
    obtain ⟨o, -, ho⟩ := List.mem_map.mp (List.fst_mem_of_mem_zipIdx hp)
    rw [← h o p.2, ho]
  rw [hothers, List.length_map, Nat.zero_add, List.zipIdx_singleton, List.nil_append]
  cases hf : f (.sought n, others.length) <;> simp [hf]

theorem attributeVectors_sought (n : UInt64) (others : List UInt64) :
    attributeVectors (soughtDocs n others) "s" = [(asU32 others.length, soughtVector)] :=
  filterMap_soughtDocs n others fun _ _ => rfl

theorem attributeTexts_sought (n : UInt64) (others : List UInt64) :
    attributeTexts (soughtDocs n others) "t" = [(asU32 others.length, "fox")] :=
  filterMap_soughtDocs n others fun _ _ => rfl

theorem tokenize_fox : let _ := Crates.inert; FtsConfig.plain.tokenizer.tokenize "fox" = ["fox"] := by
  decide +kernel

/-- The index of the text. -/
theorem terms_fox (o total : Nat) :
    let _ := Crates.inert
    (FtsIndex.build [(o, "fox")] total .plain).terms = [("fox", [⟨o, [0]⟩])] := by
  intro _
  rw [FtsIndex.build]
  simp only [List.foldl_cons, List.foldl_nil]
  rw [tokenize_fox]
  rfl

theorem postings_fox (o total : Nat) :
    let _ := Crates.inert
    (FtsIndex.build [(o, "fox")] total .plain).postings "fox" = some [⟨o, [0]⟩] := by
  intro _
  rw [FtsIndex.postings, terms_fox, searchKey_eq _ (List.pairwise_singleton _ _)]
  rfl

/-- The attribute with a vector is indexed. -/
theorem IndexBuilt.sought_sparse [Crates] {s : Store} {t : Nat} {schema : Schema} {n : UInt64}
    {others : List UInt64} {idx : IndexMeta} (h : IndexBuilt s t schema (soughtDocs n others) idx)
    (hattributes : schema.attributes = .ofList [("s", .sparseF16), ("t", .string)]) :
    (idx.sparse.get "s").isSome := by
  refine h.isSome_sparse.mpr ?_
  have hindexes : sparseIndexes schema.attributes (soughtDocs n others) =
      [("s", SparseIndex.build (attributeVectors (soughtDocs n others) "s")
        (soughtDocs n others).length)].filter fun p => !p.2.isEmpty := by
    rw [hattributes]
    rfl
  rw [hindexes, attributeVectors_sought]
  exact List.mem_singleton_self _

/-- The attribute with a text is indexed. -/
theorem IndexBuilt.sought_fts {s : Store} {t : Nat} {schema : Schema} {n : UInt64}
    {others : List UInt64} {idx : IndexMeta} :
    let _ := Crates.inert
    IndexBuilt s t schema (soughtDocs n others) idx → schema.fts = .ofList [("t", .plain)] →
      ∃ name, idx.fts.get "t" = some name ∧ s.HasBlob (.data name) (.fts (FtsIndex.build
        [(asU32 others.length, "fox")] (soughtDocs n others).length .plain)) := by
  intro _ h hfts
  have hindexes : ftsIndexes schema.fts (soughtDocs n others) =
      [("t", FtsIndex.build (attributeTexts (soughtDocs n others) "t") (soughtDocs n others).length
        .plain)].filter fun p => !p.2.isEmpty := by
    rw [hfts]
    rfl
  have hattr : (idx.fts.get "t").isSome := by
    refine h.isSome_fts.mpr ?_
    rw [hindexes, attributeTexts_sought, List.filter_cons_of_pos]
    · exact List.mem_singleton_self _
    · rw [FtsIndex.isEmpty, terms_fox]
      rfl
  obtain ⟨name, hname⟩ := Option.isSome_iff_exists.mp hattr
  obtain ⟨config, hconfig, hblob⟩ := h.fts hname
  rw [hfts] at hconfig
  obtain rfl : FtsConfig.plain = config := Option.some.inj hconfig
  rw [attributeTexts_sought] at hblob
  exact ⟨name, hname, hblob⟩

/-- Upserts of documents whose ids are sorted, in any order. -/
theorem values_upserts {docs docs' : List Doc} (hsorted : (docs.map Doc.id).Pairwise (· < ·))
    (hp : docs'.Perm docs) : (materialize (docs'.map .upsert)).values = docs := by
  let live : Live := ⟨docs.map fun d => (d.id, d), List.pairwise_map.mpr (List.pairwise_map.mp hsorted)⟩
  have hvalues : live.values = docs := by
    rw [SortedMap.values, List.map_map]
    exact List.map_id _
  have hkeyed : live.WellKeyed := fun id d hget => by
    obtain ⟨d', -, hd'⟩ := List.mem_map.mp (SortedMap.get_eq_some_iff.mp hget)
    obtain ⟨rfl, rfl⟩ := Prod.mk.inj hd'
    rfl
  rw [materialize_upserts hkeyed (hvalues.symm ▸ hp), hvalues]

theorem Id.uint_lt {a b : UInt64} (h : a < b) : Id.uint a < Id.uint b := by
  refine Prod.Lex.toLex_lt_toLex.mpr (.inr ⟨rfl, Prod.Lex.toLex_lt_toLex.mpr (.inl ?_)⟩)
  exact UInt64.lt_iff_toNat_lt.mp h

/-- One document for each ordinal. -/
def everyOrdinal : List UInt64 := (List.range (2 ^ 32)).map UInt64.ofNat

theorem sorted_everyOrdinal : ((soughtDocs (2 ^ 32) everyOrdinal).map Doc.id).Pairwise (· < ·) := by
  have hsize : UInt64.size = 2 ^ 64 := rfl
  have hofNat {i j : Nat} (h : i < j) (hj : j ≤ 2 ^ 32) : Id.uint (.ofNat i) < Id.uint (.ofNat j) := by
    refine Id.uint_lt (UInt64.lt_iff_toNat_lt.mpr ?_)
    rw [UInt64.toNat_ofNat_of_lt' (by omega), UInt64.toNat_ofNat_of_lt' (by omega)]
    exact h
  rw [soughtDocs, everyOrdinal, List.map_append, List.pairwise_append, List.map_map, List.map_map]
  refine ⟨List.pairwise_map.mpr ?_, List.pairwise_singleton _ _, ?_⟩
  · refine List.Pairwise.imp_of_mem ?_ List.pairwise_lt_range
    intro i j hi hj hlt
    exact hofNat hlt (List.mem_range.mp hj).le
  · intro id hid id' hid'
    obtain ⟨i, hi, rfl⟩ := List.mem_map.mp hid
    obtain rfl := List.mem_singleton.mp hid'
    exact hofNat (List.mem_range.mp hi) (Nat.le_refl _)

theorem sought_after_everyOrdinal :
    (materialize (.upsert (.sought (2 ^ 32)) :: everyOrdinal.map fun o => .upsert (.flat o))).values =
      soughtDocs (2 ^ 32) everyOrdinal := by
  have hperm : (Doc.sought (2 ^ 32) :: everyOrdinal.map Doc.flat).Perm
      (soughtDocs (2 ^ 32) everyOrdinal) := by
    rw [soughtDocs]
    exact (List.perm_append_singleton _ _).symm
  have := values_upserts sorted_everyOrdinal hperm
  rwa [List.map_cons, List.map_map] at this

/-- The hits among the documents. -/
theorem scoredHits_sought [Crates] {ask : Ask} (hask : ask.filter = none) {rescore : Doc → Option ℝ}
    {n : UInt64} {others : List UInt64} {live : Live} (hvalues : live.values = soughtDocs n others)
    (hothers : ∀ o, rescore (.flat o) = none) {x : ℝ} (hx : rescore (.sought n) = some x) :
    (scoredHits ask rescore live).map ScoredHit.id = [.uint n] := by
  have hnone : ((others.map Doc.flat).filterMap fun d => (rescore d).bind (pushHit ask d)) = [] := by
    rw [List.filterMap_eq_nil_iff]
    intro d hd
    obtain ⟨o, -, rfl⟩ := List.mem_map.mp hd
    rw [hothers]
    rfl
  have hpush : (rescore (.sought n)).bind (pushHit ask (.sought n)) =
      some ⟨.uint n, x, ask.includeAttributes.project (Doc.sought n).attrs⟩ := by
    rw [hx, Option.bind_some, pushHit, passes, hask]
    rfl
  rw [scoredHits, hvalues, soughtDocs, List.filterMap_append, hnone, List.nil_append,
    List.filterMap_cons, hpush]
  rfl

/-- **One document stands for another**: a shard scored at ordinal zero misses the last document. -/
theorem overlay_misses_sought [Crates] {ask : Ask} (hask : ask.filter = none) {rescore : Doc → Option ℝ}
    (hothers : ∀ o, rescore (.flat o) = none) {x : ℝ} (hx : rescore (.sought (2 ^ 32)) = some x)
    {scored : List (Nat × ℝ)} (hordinals : ∀ p ∈ scored, p.1 = 0) {k : Nat} (hk : 0 < k) :
    takeBestScored k (SearchOutcome.ranked (overlayHits ask scored rescore
        ((soughtDocs (2 ^ 32) everyOrdinal).map .upsert) []) k true).hits ≠
      takeBestScored k (scoredHits ask rescore
        (materialize ((soughtDocs (2 ^ 32) everyOrdinal).map .upsert ++ []))) := by
  have hd : ((soughtDocs (2 ^ 32) everyOrdinal).map Doc.id).Nodup := sorted_everyOrdinal.imp ne_of_lt
  have hfirst : (soughtDocs (2 ^ 32) everyOrdinal)[0]? = some (.flat 0) := by
    rw [soughtDocs, everyOrdinal, List.map_map, List.getElem?_append_left (by simp), List.getElem?_map,
      List.getElem?_range (by decide)]
    rfl
  have hids := scoredHits_sought hask (values_upserts sorted_everyOrdinal (.refl _)) hothers hx
  obtain ⟨hit, hhit⟩ := List.length_eq_one_iff.mp (by
    rw [← List.length_map, hids]
    rfl)
  rw [hhit] at hids
  intro heq
  rw [List.append_nil, hhit] at heq
  have hbest : takeBestScored k [hit] = [hit] := List.take_of_length_le hk
  have hmem : hit ∈ takeBestScored k (SearchOutcome.ranked (overlayHits ask scored rescore
      ((soughtDocs (2 ^ 32) everyOrdinal).map .upsert) []) k true).hits := by
    rw [heq, hbest]
    exact List.mem_singleton_self _
  rcases List.mem_append.mp (mem_takeBestScored (mem_takeBestScored hmem)) with hleft | hright
  · -- what the index scored is the first document
    obtain ⟨p, hp, hfound⟩ := List.mem_filterMap.mp hleft
    obtain ⟨d, hu, hpush⟩ := Option.bind_eq_some_iff.mp hfound
    rw [hordinals p hp] at hu
    obtain ⟨ho, -⟩ := (untouched_eq_some hd).mp hu
    obtain rfl := Option.some.inj (hfirst.symm.trans ho)
    rw [List.map_singleton, (pushHit_eq_some hpush).1] at hids
    exact absurd hids (by decide)
  · obtain ⟨id, hid, -⟩ := List.mem_filterMap.mp hright
    cases hid

/-- Scored at one ordinal. -/
theorem mem_rankOrdinals_singleton {o : Nat} {x : ℝ} {test : Nat × ℝ → Bool} {p : Nat × ℝ}
    (h : p ∈ rankOrdinals ((addUp Scalar.add Scalar.zero .empty [(o, x)]).entries.filter test)) : p.1 = o := by
  have hget := SortedMap.get_eq_some_iff.mpr (List.mem_of_mem_filter (mem_rankOrdinals.mp h))
  obtain ⟨q, hq, hqp⟩ := mem_of_get_addUp hget
  rw [← hqp, List.mem_singleton.mp hq]

theorem length_everyOrdinal : everyOrdinal.length = 2 ^ 32 := by
  rw [everyOrdinal, List.length_map, List.length_range]

theorem asU32_everyOrdinal : asU32 everyOrdinal.length = 0 := by
  rw [length_everyOrdinal]
  rfl

theorem magnitude_one : F32.magnitude ⟨0x3f800000⟩ = 1 := by
  have hbits : (0x3f800000 : UInt32).toNat = 0x3f800000 := rfl
  rw [F32.magnitude]
  simp only [hbits]
  norm_num

/-- The product of the sought vector with itself. -/
theorem sparseScore_sought (n : UInt64) :
    (sparseScore "s" soughtVector (.sought n) : Option ℝ) = some 1 := by
  have hdot : (sparseDot soughtVector soughtVector : ℝ) = 1 := by
    have hentries : soughtVector.entries = [("a", ⟨0x3f800000⟩)] := rfl
    have hweight : weightAt soughtVector "a" = 1 := magnitude_one
    rw [sparseDot_eq, pairing, hentries, List.map_singleton, List.sum_singleton, hweight, magnitude_one,
      mul_one]
  have hscore : (sparseScore "s" soughtVector (.sought n) : Option ℝ) =
      if Scalar.isZero (sparseDot soughtVector soughtVector : ℝ) then none
      else some (sparseDot soughtVector soughtVector) := rfl
  rw [hscore, hdot, if_neg]
  exact fun h => one_ne_zero (of_decide_eq_true h)

/-- The text that is sought scores. -/
theorem textScore_sought (n : UInt64) (o total : Nat) :
    let _ := Crates.inert
    ∃ x, (textScore (FtsIndex.build [(o, "fox")] (total + 1) .plain) "t" "fox" (.sought n) : Option ℝ) =
      some x := by
  intro _
  set index := FtsIndex.build [(o, "fox")] (total + 1) .plain with hindex
  have hcount : index.docLengths.length = total + 1 := FtsIndex.length_docLengths _ _ _
  have htext : (textScore index "t" "fox" (.sought n) : Option ℝ) =
      if Scalar.lt Scalar.zero (index.scoreText "fox" "fox" : ℝ) then some (index.scoreText "fox" "fox")
      else none := rfl
  have hzero : F32.magnitude ⟨0⟩ = 0 := F32.magnitude_of_isZero rfl
  have hpos : 0 < (index.scoreText "fox" "fox" : ℝ) := by
    have htokens : index.tokenizer.tokenize "fox" = ["fox"] := tokenize_fox
    have hunique : uniqueTokens ["fox"] = ["fox"] := rfl
    rw [FtsIndex.scoreText_eq (List.ne_nil_of_length_eq_add_one hcount), htokens, hunique,
      List.map_singleton, List.sum_singleton, FtsIndex.gain, if_pos (List.mem_singleton_self _), hindex,
      postings_fox, ← hindex, hcount]
    have hparams : index.params = ⟨⟨0⟩, ⟨0⟩⟩ := rfl
    have hrelative : (0 : ℝ) ≤ index.relativeLength (Scalar.ofNat ["fox"].length) Scalar.one := by
      rw [FtsIndex.relativeLength]
      split_ifs with havg
      · exact div_nonneg (Nat.cast_nonneg _) (of_decide_eq_true havg).le
      · exact zero_le_one
    refine FtsIndex.termScore_pos ?_ ?_ ?_ (Nat.cast_nonneg _) ?_ (Nat.cast_pos.mpr one_pos) hrelative
    · rw [hparams, hzero]
    · rw [hparams, hzero]
    · rw [hparams, hzero]
      exact zero_le_one
    · exact Nat.cast_le.mpr (Nat.le_add_left 1 total)
  exact ⟨_, htext.trans (if_pos (decide_eq_true hpos))⟩

theorem ordinal_of_mem_score_fox {o total : Nat} {p : Nat × ℝ} :
    let _ := Crates.inert
    p ∈ (FtsIndex.build [(o, "fox")] (total + 1) .plain).score "fox" → p.1 = o := by
  intro _ h
  have hcontributions : ∃ x : ℝ, (FtsIndex.build [(o, "fox")] (total + 1) .plain).contributions
      (FtsConfig.plain.tokenizer.tokenize "fox") = [(o, x)] := by
    have hunique : uniqueTokens ["fox"] = ["fox"] := rfl
    rw [tokenize_fox, FtsIndex.contributions, hunique, List.flatMap_singleton, postings_fox]
    exact ⟨_, rfl⟩
  obtain ⟨x, hx⟩ := hcontributions
  rw [FtsIndex.score] at h
  split_ifs at h
  · cases h
  · refine @mem_rankOrdinals_singleton o x (fun q => Scalar.lt Scalar.zero q.2) p ?_
    rw [← hx]
    exact h

end Fckdb
