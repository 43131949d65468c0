import Fckdb.SchemaRuns
import Fckdb.WiderProbe

/-! # The prefilter path

A selective filter is answered from the attribute index: the documents at the ordinals that it selects are
overlaid with the tail and ranked. The tail may patch a document that the selection left out, and a patch of
what is not there is lost. So such a document is overlooked even if it matches now (`patched_overlooked`), and
the query finds what the exhaustive scan finds if and only if every overlooked match ranks after `top_k` others
(`Reaches.prefiltered_iff`). -/

namespace Fckdb

/-! ## One shard -/

/-- The record only changes a document that is there. -/
def Record.isPatch : Record → Bool
  | .patch _ _ => true
  | _ => false

/-- A segment has a document with the id, which is not at one of the ordinals, and the tail does not write or
delete it. -/
def Overlooked (docs : List Doc) (ordinals : Finset Nat) (tail : List Record) (id : Id) : Prop :=
  (∃ x ∈ docs.zipIdx, x.1.id = id ∧ x.2 ∉ ordinals) ∧ ∀ r ∈ tail, r.id = id → r.isPatch = true

instance (docs : List Doc) (ordinals : Finset Nat) (tail : List Record) (id : Id) :
    Decidable (Overlooked docs ordinals tail id) := inferInstanceAs (Decidable (_ ∧ _))

/-- The documents of a segment that a query ranks: all of them, or those selected. -/
def candidates (docs : List Doc) (pick : Option Selection) (tail : List Record) : Live :=
  match pick with
  | none => materialize (docs.map .upsert ++ tail)
  | some sel => replay apply (materialize (upsertsAt (docs.map .upsert) sel.ordinals)) tail

/-- Patches alone leave nothing where there was nothing. -/
theorem effectAt_patches_none {id : Id} {rs : List Record} (h : ∀ r ∈ rs, r.id = id → r.isPatch = true) :
    effectAt id rs none = none := by
  induction rs with
  | nil => rfl
  | cons r rs ih =>
      obtain ⟨hfirst, hrest⟩ := List.forall_mem_cons.mp h
      rw [effectAt]
      split_ifs with hid
      · cases r with
        | patch i attrs => exact ih hrest
        | upsert d => cases hfirst hid
        | delete i => cases hfirst hid
      · exact ih hrest

/-- A write or a deletion settles what is there after it. -/
theorem effectAt_settled {id : Id} {rs : List Record} (h : ¬ ∀ r ∈ rs, r.id = id → r.isPatch = true)
    (x y : Option Doc) : effectAt id rs x = effectAt id rs y := by
  induction rs generalizing x y with
  | nil => exact absurd (List.forall_mem_nil _) h
  | cons r rs ih =>
      rw [effectAt, effectAt]
      by_cases hrest : ∀ r ∈ rs, r.id = id → r.isPatch = true
      · -- it is this one
        have hfirst : ¬ (r.id = id → r.isPatch = true) := fun hfirst =>
          h (List.forall_mem_cons.mpr ⟨hfirst, hrest⟩)
        obtain ⟨hid, hpatch⟩ := Classical.not_imp.mp hfirst
        rw [if_pos hid, if_pos hid]
        cases r with
        | patch i attrs => exact absurd rfl hpatch
        | upsert d => rfl
        | delete i => rfl
      · exact ih hrest _ _

/-- What is picked are upserts of documents of the segment. -/
theorem upsertsAt_upserts (docs : List Doc) (ordinals : Finset Nat) :
    upsertsAt (docs.map .upsert) ordinals =
      ((ordinals.sort (· ≤ ·)).filterMap fun o => docs[o]?).map .upsert := by
  rw [upsertsAt, List.map_filterMap]
  refine List.filterMap_congr fun o _ => ?_
  rw [List.getElem?_map]
  cases docs[o]? <;> rfl

/-- An id is at one ordinal. -/
theorem ordinal_unique {docs : List Doc} (hd : (docs.map Doc.id).Nodup) {o o' : Nat} {d d' : Doc}
    (ho : docs[o]? = some d) (ho' : docs[o']? = some d') (hid : d.id = d'.id) : o = o' := by
  have hlt : o < (docs.map Doc.id).length := by
    rw [List.length_map]
    exact (List.getElem?_eq_some_iff.mp ho).1
  refine (List.getElem?_inj hlt hd).mp ?_
  rw [List.getElem?_map, List.getElem?_map, ho, ho', Option.map_some, Option.map_some, hid]

/-- The documents that are picked have distinct ids. -/
theorem nodup_picked {docs : List Doc} (hd : (docs.map Doc.id).Nodup) (ordinals : Finset Nat) :
    (((ordinals.sort (· ≤ ·)).filterMap fun o => docs[o]?).map Doc.id).Nodup := by
  rw [List.map_filterMap]
  refine (Finset.sort_nodup _ _).filterMap fun o o' id ho ho' => ?_
  obtain ⟨d, hod, rfl⟩ := Option.map_eq_some_iff.mp ho
  obtain ⟨d', hod', hid⟩ := Option.map_eq_some_iff.mp ho'
  exact ordinal_unique hd hod hod' hid.symm

/-- **The candidates** are the live documents that are not overlooked. -/
theorem candidates_eq {docs : List Doc} (hd : (docs.map Doc.id).Nodup) (sel : Selection) (tail : List Record) :
    candidates docs (some sel) tail = (materialize (docs.map .upsert ++ tail)).filterKeys fun id =>
      ¬ Overlooked docs sel.ordinals tail id := by
  let picked := (sel.ordinals.sort (· ≤ ·)).filterMap fun o => docs[o]?
  have hpicked : (picked.map Doc.id).Nodup := nodup_picked hd sel.ordinals
  have hmem {d : Doc} : d ∈ picked ↔ ∃ o ∈ sel.ordinals, docs[o]? = some d := by
    rw [List.mem_filterMap]
    simp only [Finset.mem_sort]
  ext1 id
  rw [SortedMap.get_filterKeys, candidates, get_replay, upsertsAt_upserts, get_materialize, get_materialize,
    effectAt_append, effectAt_upserts hpicked, effectAt_upserts hd, Option.or_none, Option.or_none]
  by_cases hpatches : ∀ r ∈ tail, r.id = id → r.isPatch = true
  · by_cases hleft : ∃ x ∈ docs.zipIdx, x.1.id = id ∧ x.2 ∉ sel.ordinals
    · -- the document is not there, and patches do not make it
      have hover : Overlooked docs sel.ordinals tail id := ⟨hleft, hpatches⟩
      rw [if_neg (by simpa using hover)]
      have hnone : picked.find? (fun d => d.id = id) = none := by
        rw [List.find?_eq_none]
        intro d hdmem hid
        obtain ⟨o, ho, hod⟩ := hmem.mp hdmem
        obtain ⟨⟨d', o'⟩, hx, hid', hout⟩ := hleft
        have hod' : docs[o']? = some d' := List.mem_zipIdx_iff_getElem?.mp hx
        exact hout (ordinal_unique hd hod hod' ((of_decide_eq_true hid).trans hid'.symm) ▸ ho)
      rw [hnone]
      exact effectAt_patches_none hpatches
    · rw [if_pos (by simpa using fun h : Overlooked docs sel.ordinals tail id => hleft h.1)]
      -- it is picked if it is there
      congr 1
      apply Option.ext
      intro d
      rw [find?_id_eq_some hpicked, find?_id_eq_some hd, hmem]
      constructor
      · rintro ⟨⟨o, -, ho⟩, hid⟩
        exact ⟨List.mem_of_getElem? ho, hid⟩
      · rintro ⟨hdmem, hid⟩
        obtain ⟨o, ho⟩ := List.mem_iff_getElem?.mp hdmem
        refine ⟨⟨o, ?_, ho⟩, hid⟩
        by_contra hout
        exact hleft ⟨(d, o), List.mem_zipIdx_iff_getElem?.mpr ho, hid, hout⟩
  · rw [if_pos (by simpa using fun h : Overlooked docs sel.ordinals tail id => hpatches h.2)]
    exact effectAt_settled hpatches _ _

/-! ## All shards -/

/-- The shard of the id overlooks it. -/
def OverlookedIn (docs : List (List Doc)) (picks : Nat → Option Selection) (tail : List Record) (id : Id) :
    Prop :=
  ∃ ds ∈ docs[shardOf id docs.length]?, ∃ sel ∈ picks (shardOf id docs.length),
    Overlooked ds sel.ordinals tail id

instance (docs : List (List Doc)) (picks : Nat → Option Selection) (tail : List Record) (id : Id) :
    Decidable (OverlookedIn docs picks tail id) :=
  inferInstanceAs (Decidable (∃ ds ∈ docs[shardOf id docs.length]?, ∃ sel ∈ picks (shardOf id docs.length), _))

/-- Only the records with the id matter. -/
theorem overlooked_slice {docs : List Doc} {ordinals : Finset Nat} {tail : List Record} {id : Id} {n i : Nat}
    (hid : shardOf id n = i) :
    Overlooked docs ordinals (slice n i tail) id ↔ Overlooked docs ordinals tail id := by
  refine and_congr_right fun _ => ⟨fun h r hr hrid => h r ?_ hrid, fun h r hr => h r (List.mem_of_mem_filter hr)⟩
  exact List.mem_filter.mpr ⟨hr, decide_eq_true (hrid ▸ hid)⟩

section Layouts

variable [Crates] {s : Store} {m : Manifest} {docs : List (List Doc)} {tail : List Record}

/-- **The candidates of a shard** are its live documents that are not overlooked. -/
theorem Layout.candidates (h : Layout s m docs tail) (picks : Nat → Option Selection) {i : Nat}
    (hi : i < docs.length) : Fckdb.candidates docs[i] (picks i) (slice docs.length i tail) =
      ((materialize (Layout.log docs tail)).filterKeys fun id => ¬ OverlookedIn docs picks tail id).filterKeys
        fun id => shardOf id docs.length = i := by
  have hshard : materialize (docs[i].map .upsert ++ slice docs.length i tail) =
      (materialize (Layout.log docs tail)).filterKeys fun id => shardOf id docs.length = i := by
    rw [← h.slice_log hi, materialize_slice]
  have hover {id : Id} (hid : shardOf id docs.length = i) :
      OverlookedIn docs picks tail id ↔ ∃ sel ∈ picks i, Overlooked docs[i] sel.ordinals tail id := by
    rw [OverlookedIn, hid, List.getElem?_eq_getElem hi]
    simp only [Option.mem_some_iff, exists_eq_left']
  ext1 id
  cases hpick : picks i with
  | none =>
      rw [Fckdb.candidates, hshard]
      simp only [SortedMap.get_filterKeys]
      refine if_ctx_congr Iff.rfl (fun hid => ?_) fun _ => rfl
      rw [if_pos]
      rw [decide_eq_true_eq, hover (of_decide_eq_true hid), hpick]
      rintro ⟨sel, hsel, -⟩
      cases hsel
  | some sel =>
      rw [candidates_eq (h.shard hi).1, hshard]
      simp only [SortedMap.get_filterKeys]
      by_cases hid : shardOf id docs.length = i
      · rw [if_pos (decide_eq_true hid), if_pos (decide_eq_true hid)]
        refine if_congr ?_ rfl rfl
        rw [decide_eq_true_eq, decide_eq_true_eq, overlooked_slice hid, hover hid, hpick]
        simp only [Option.mem_some_iff, exists_eq_left']
      · have hno : ¬ decide (shardOf id docs.length = i) = true := by simpa using hid
        rw [if_neg hno, if_neg hno]
        exact ite_self _

variable [HashOrder] {req : QueryRequest} {filter : Option Filter}

/-- **A shard that prefilters**, or has no index, ranks its candidates. -/
theorem Store.Yields.of_shardHits_picked {docs : List Doc} {shard : Shard} (h : s.BuiltFrom docs shard)
    {tail : List Record} {schema : Schema} {outcome : ShardOutcome}
    (hhits : s.Yields (Fckdb.shardHits shard req filter tail schema) (.ok outcome))
    (hpre : shard.index.isSome = true → ¬ s.Yields (prefilterSelection shard req filter) (.ok none)) :
    ∃ pick, s.Yields (prefilterSelection shard req filter) (.ok pick) ∧
      outcome.hits = liveHits req filter schema (Fckdb.candidates docs pick tail) := by
  obtain ⟨pick, hpick, hhits⟩ := hhits.of_seq
  refine ⟨pick, hpick, ?_⟩
  cases pick with
  | some sel =>
      obtain ⟨records, hrecords, hret⟩ := hhits.of_seq
      obtain rfl := h.reads.unique (of_readRecordsParallel hrecords).1
      obtain rfl := Except.ok.inj ((ret _).unique hret)
      rfl
  | none =>
      cases hi : shard.index with
      | some idx => exact absurd hpick (hpre (by rw [hi]; rfl))
      | none =>
          simp only [hi] at hhits
          obtain ⟨records, hrecords, hret⟩ := hhits.of_seq
          obtain rfl := h.reads.unique (of_readRecordsParallel hrecords).1
          obtain rfl := Except.ok.inj ((ret _).unique hret)
          rfl

/-- **All shards**: together they rank the live documents that are not overlooked. -/
theorem Store.Yields.of_rankShards_picked (h : Layout s m docs tail) {outcomes : List ShardOutcome}
    (hrank : s.Yields (Fckdb.rankShards req filter m tail) (.ok outcomes))
    (hpre : ∀ shard ∈ residentShards m, shard.index.isSome = true →
      ¬ s.Yields (prefilterSelection shard req filter) (.ok none)) :
    ∃ picks : Nat → Option Selection,
      (∀ i shard, (residentShards m)[i]? = some shard →
        s.Yields (prefilterSelection shard req filter) (.ok (picks i))) ∧
      takeBest req.topK (outcomes.flatMap (·.hits)) = liveHits req filter m.schema
        ((materialize (Layout.log docs tail)).filterKeys fun id => ¬ OverlookedIn docs picks tail id) := by
  have hlen : docs.length = (residentShards m).length := h.built.length_eq
  rw [Fckdb.rankShards, h.zip_tails, List.map_map] at hrank
  have hparts := List.forall₂_map_left_iff.mp hrank.of_tryJoinAll
  have hcount : outcomes.length = docs.length := by rw [← hparts.length_eq, List.length_range]
  have hpicked : ∀ i, ∃ pick, ∀ shard, (residentShards m)[i]? = some shard →
      s.Yields (prefilterSelection shard req filter) (.ok pick) ∧
      ∀ (hi : i < docs.length), (outcomes.getD i ⟨[], false, false⟩).hits = liveHits req filter m.schema
        (Fckdb.candidates docs[i] pick (slice docs.length i tail)) := by
    intro i
    cases hget : (residentShards m)[i]? with
    | none =>
        refine ⟨none, fun shard hshard => ?_⟩
        cases hshard
    | some shard =>
        obtain ⟨hlt, rfl⟩ := List.getElem?_eq_some_iff.mp hget
        have hi : i < docs.length := hlen ▸ hlt
        have hpart := hparts.get (by rwa [List.length_range]) (hcount ▸ hi)
        rw [List.get_eq_getElem, List.getElem_range, Function.comp, List.getD_eq_getElem?_getD,
          List.getElem?_eq_getElem hlt, Option.getD_some] at hpart
        obtain ⟨pick, hpick, hhits⟩ := of_shardHits_picked (h.shard hi).2 hpart (hpre _ (List.getElem_mem hlt))
        refine ⟨pick, fun shard hshard => ?_⟩
        obtain rfl := Option.some.inj hshard
        refine ⟨hpick, fun hi => ?_⟩
        rw [List.getD_eq_getElem?_getD, List.getElem?_eq_getElem (hcount ▸ hi), Option.getD_some]
        exact hhits
  choose picks hpicks using hpicked
  refine ⟨picks, fun i shard hshard => (hpicks i shard hshard).1, ?_⟩
  have hhits : outcomes.flatMap (·.hits) = (List.range docs.length).flatMap fun i =>
      liveHits req filter m.schema (((materialize (Layout.log docs tail)).filterKeys fun id =>
        ¬ OverlookedIn docs picks tail id).filterKeys fun id => shardOf id docs.length = i) := by
    have hmap : outcomes = (List.range docs.length).map fun i => outcomes.getD i ⟨[], false, false⟩ := by
      refine List.ext_getElem (by simp [hcount]) fun i hi hi' => ?_
      rw [List.getElem_map, List.getElem_range, List.getD_eq_getElem?_getD, List.getElem?_eq_getElem hi,
        Option.getD_some]
    rw [hmap, List.flatMap_map]
    refine List.flatMap_congr fun i hi => ?_
    have hi := List.mem_range.mp hi
    have hlt : i < (residentShards m).length := hlen ▸ hi
    rw [(hpicks i _ (List.getElem?_eq_getElem hlt)).2 hi, h.candidates picks hi]
  rw [hhits, merge_filterKeys h.pos _ _ _ ((materialize_wellKeyed _).filterKeys _)]

end Layouts

/-! ## The query -/

section Query

variable [Crates]

/-- How many live documents that pass the filter rank before `d`. -/
def rankedBefore (vector : List F32) (filter : Option Filter) (schema : Schema) (live : Live) (d : Doc) : Nat :=
  (live.values.filter (passes filter schema.fts)).countP fun d' =>
    (hitOf vector .none schema.distanceMetric d').rank < (hitOf vector .none schema.distanceMetric d).rank

variable [HashOrder]

/-- **Some of the live documents have the same best hits** if and only if whatever is left out ranks after
enough others. -/
theorem topK_filterKeys_iff {live : Live} (hlive : live.WellKeyed) (keep : Id → Bool) (vector : List F32)
    (k : Nat) (filter : Option Filter) (schema : Schema) :
    topK (Live.hashValues (live.filterKeys keep)) vector k filter .none schema.distanceMetric schema.fts =
        topK live.hashValues vector k filter .none schema.distanceMetric schema.fts ↔
      ∀ d ∈ live.values, passes filter schema.fts d = true → keep d.id = false →
        k ≤ rankedBefore vector filter schema live d := by
  let hitsOf (docs : List Doc) : List Hit := (docs.filter (passes filter schema.fts)).map
    (hitOf vector .none schema.distanceMetric)
  have htop {some : Live} (hsome : some.WellKeyed) :
      topK some.hashValues vector k filter .none schema.distanceMetric schema.fts =
        best Hit.rank k (hitsOf some.values) := by
    rw [topK, takeBest_eq]
    refine best_perm (Hit.nodup_rank (nodup_hits hsome.hashValues_nodup _ _ _ _ _)) ?_
    exact ((some.hashValues_perm).filter _).map _
  have hkept : hitsOf (SortedMap.values (live.filterKeys keep)) =
      (hitsOf live.values).filter fun h => keep h.id := by
    rw [hlive.values_filterKeys, List.filter_map]
    dsimp only [hitsOf]
    rw [List.filter_comm]
    rfl
  rw [htop (hlive.filterKeys keep), htop hlive, hkept,
    best_filter_eq_iff (Hit.nodup_rank (nodup_hits hlive.nodup_ids _ _ _ _ _)), List.forall_mem_map]
  simp only [List.mem_filter, and_imp, List.countP_map]
  exact Iff.rfl

variable {N : Type} [Numbers N]

/-- Every shard that has an index answers by its attribute indexes. -/
def Prefilters (s : Store) (m : Manifest) (req : QueryRequest) : Prop :=
  ∀ filter, coerceFilter m.schema req.filter = .ok filter → ∀ shard ∈ residentShards m,
    shard.index.isSome = true → ¬ s.Yields (prefilterSelection shard req filter) (.ok none)

/-- What a query of a manifest goes by: its filter, the segments, the tail, and what each shard selects. -/
structure Picks (s : Store) (m : Manifest) (req : QueryRequest) (filter : Option Filter)
    (docs : List (List Doc)) (tail : List Record) (picks : Nat → Option Selection) : Prop where
  coerced : coerceFilter m.schema req.filter = .ok filter
  layout : Layout s m docs tail
  picked : ∀ i shard, (residentShards m)[i]? = some shard →
    s.Yields (prefilterSelection shard req filter) (.ok (picks i))

/-- **The answer** of a query whose indexed shards all prefilter: the best of the live documents that are not
overlooked. -/
theorem Layout.hits_of_queryOn {s : Store} {m : Manifest} {docs : List (List Doc)} {tail : List Record}
    (h : Layout s m docs tail) (hcap : m.unindexedBytes ≤ maxUnindexedScanBytes) {req : QueryRequest}
    (hranks : req.aggregateBy = none ∨ req.vector ≠ []) {snapshot : Bool} {r : QueryResponse}
    (hr : s.Yields (queryOn N req m snapshot) (.ok r)) (hpre : Prefilters s m req) :
    ∃ filter picks, Picks s m req filter docs tail picks ∧ r.hits.map Hit.bare =
      topK (Live.hashValues ((materialize (Layout.log docs tail)).filterKeys fun id =>
        ¬ OverlookedIn docs picks tail id)) req.vector req.topK filter .none m.schema.distanceMetric
        m.schema.fts := by
  obtain ⟨filter, entries, truncated, tail', aggs, hf, -, hentries, htail, -, hhits⟩ := hr.of_queryOn
  rw [tailEntries_of_le hcap] at hentries
  obtain ⟨rfl, rfl⟩ := Prod.mk.inj (Except.ok.inj hentries)
  obtain rfl := h.unindexed.unique (Store.Yields.of_readRecordsParallel htail).1
  have hdoes : ¬ (req.aggregateBy.isSome ∧ req.vector.isEmpty) := by
    rintro ⟨haggs, hvector⟩
    rcases hranks with hnone | hne
    · rw [hnone] at haggs
      cases haggs
    · exact hne (List.isEmpty_iff.mp hvector)
  rw [if_neg hdoes] at hhits
  obtain ⟨outcomes, hrank, hhits⟩ := hhits
  obtain ⟨picks, hpicks, hbest⟩ := Store.Yields.of_rankShards_picked h hrank (hpre filter hf)
  refine ⟨filter, picks, ⟨hf, h, hpicks⟩, ?_⟩
  rw [hhits, hbest]
  exact topK_bare _ _ _ _ _ _ _

end Query

/-! ## A document that a patch moves into the filter -/

/-- A document of one dimension with a tag. -/
def Doc.tagged (n : UInt64) (tag : String) : Doc := ⟨.uint n, [⟨0⟩], .ofList [("tag", .string tag)]⟩

/-- A red document is written and indexed, and then `records`. -/
def taggedRun (records : List Record) : List Act :=
  .spawn (.commitRecords 0 [.upsert (.tagged 1 "red")] {}) :: goes 0 6 ++
    .spawn (.compact 0 true) :: goes 1 7 ++ turns 1 2 ++ goes 1 6 ++
    .spawn (.commitRecords 0 records {}) :: goes 2 5

instance [Crates] (s : Store) (p : Proc (Option Selection)) : Decidable (s.Yields p (.ok none)) :=
  decidable_of_iff ((Prog.eval s.peek p).any fun r => r.toOption.any (·.isNone)) (by
    rw [Store.Yields, Option.any_eq_true]
    constructor
    · rintro ⟨r, hr, hnone⟩
      cases r with
      | error e => cases hnone
      | ok pick =>
          obtain rfl := Option.isNone_iff_eq_none.mp hnone
          exact hr
    · exact fun hr => ⟨_, hr, rfl⟩)

instance [Crates] [HashOrder] (s : Store) (m : Manifest) (req : QueryRequest) : Decidable (Prefilters s m req) :=
  decidable_of_iff (∀ filter ∈ (coerceFilter m.schema req.filter).toOption, ∀ shard ∈ residentShards m,
      shard.index.isSome = true → ¬ s.Yields (prefilterSelection shard req filter) (.ok none)) (by
    refine forall_congr' fun filter => imp_congr_left ?_
    cases coerceFilter m.schema req.filter with
    | error e => exact iff_of_false nofun nofun
    | ok f => rw [Except.toOption, Option.mem_some_iff, Except.ok.injEq])

/-- What is blue. -/
def blueQuery : QueryRequest := { vector := [⟨0⟩], filter := some (.cmp "tag" .eq (.string "blue")) }

/-- The answers of a query and of the exhaustive scan. -/
def Store.answers [Crates] [HashOrder] (s : Store) (req : QueryRequest) :
    Option (Except Error QueryResponse × Except Error (List Hit)) := do
  let found ← Prog.eval s.peek (query F64 0 req)
  let scanned ← Prog.eval s.peek (queryBrute 0 req.vector req.topK req.filter)
  return (found, scanned)

theorem Store.answers_eq_some [Crates] [HashOrder] {s : Store} {req : QueryRequest}
    {x : Except Error QueryResponse × Except Error (List Hit)} (h : s.answers req = some x) :
    s.Yields (query F64 0 req) x.1 ∧ s.Yields (queryBrute 0 req.vector req.topK req.filter) x.2 := by
  obtain ⟨found, hfound, h⟩ := Option.bind_eq_some_iff.mp h
  obtain ⟨scanned, hscanned, h⟩ := Option.bind_eq_some_iff.mp h
  obtain rfl := Option.some.inj h
  exact ⟨hfound, hscanned⟩

/-- **A document that a patch moves into the filter is overlooked.** -/
theorem patched_overlooked :
    let _ := Crates.inert
    let _ := HashOrder.sorted
    ¬ ∀ p req r, Reaches anyTerms p → p.shared.manifest.schema.dim = some req.vector.length →
      p.shared.Yields (query F64 0 req) (.ok r) → r.prefiltered = true →
      p.shared.Yields (queryBrute 0 req.vector req.topK req.filter) (.ok (r.hits.map Hit.bare)) := by
  intro _ _ h
  have hrun : (execute service.step ⟨{}, []⟩
      (taggedRun [.patch (.uint 1) (.ofList [("tag", .string "blue")])])).any (fun p =>
        p.shared.manifest.schema.dim = some 1 ∧ (p.shared.answers blueQuery).any fun x =>
          (x.1.toOption.any fun r => r.prefiltered && r.hits.isEmpty) &&
            x.2.toOption.any fun hits => !hits.isEmpty) = true := by
    decide +kernel
  obtain ⟨p, hp, hfound⟩ := (Option.any_eq_true _ _).mp hrun
  obtain ⟨hdim, hanswers⟩ := of_decide_eq_true hfound
  obtain ⟨⟨found, scanned⟩, hyields, hanswers⟩ := (Option.any_eq_true _ _).mp hanswers
  obtain ⟨hfound, hscanned⟩ := Store.answers_eq_some hyields
  obtain ⟨hfew, hmore⟩ := (Bool.and_eq_true _ _).mp hanswers
  cases found with
  | error e => cases hfew
  | ok r =>
      obtain ⟨hpre, hnone⟩ := (Bool.and_eq_true _ _).mp hfew
      have hsame := (h p blueQuery r (Reaches.any hp) hdim hfound hpre).unique hscanned
      rw [← hsame, List.isEmpty_iff.mp hnone] at hmore
      cases hmore

end Fckdb
