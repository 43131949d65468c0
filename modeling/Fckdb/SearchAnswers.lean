import Fckdb.ExactScores
import Fckdb.IndexObjects
import Fckdb.RankedSearch

/-! # What a shard answers to a search

What the index scored and the tail left alone, and what the tail touched, are together the hits of the live
set (`overlayHits_perm`). -/

namespace Fckdb

/-! ## Ranking -/

section Ranking

/-- What hits are sorted by: the score, descending, then the id. -/
noncomputable def ScoredHit.rank (h : ScoredHit ℝ) : ℝᵒᵈ ×ₗ Id := toLex (OrderDual.toDual h.score, h.id)

theorem takeBestScored_eq (k : Nat) (hits : List (ScoredHit ℝ)) :
    takeBestScored k hits = best ScoredHit.rank k hits := by
  have hcmp (a b : ScoredHit ℝ) : a.cmp b ≠ .gt ↔ a.rank ≤ b.rank := compare_then_ne_gt
  simp only [takeBestScored, best, ranked, hcmp]

theorem mem_takeBestScored {k : Nat} {hits : List (ScoredHit ℝ)} {h : ScoredHit ℝ}
    (hh : h ∈ takeBestScored k hits) : h ∈ hits := by
  rw [takeBestScored_eq] at hh
  exact best_subset hh

theorem ScoredHit.nodup_rank {hits : List (ScoredHit ℝ)} (h : (hits.map ScoredHit.id).Nodup) :
    (hits.map rank).Nodup := by
  have hid : hits.map ScoredHit.id = (hits.map rank).map fun r => (ofLex r).2 := by
    rw [List.map_map]
    rfl
  rw [hid] at h
  exact h.of_map _

end Ranking

/-! ## The overlay -/

section Overlay

variable [Crates] {S : Type} {ask : Ask} {rescore : Doc → Option S}

/-- The hits among live documents. -/
def scoredHits (ask : Ask) (rescore : Doc → Option S) (live : Live) : List (ScoredHit S) :=
  live.values.filterMap fun d => (rescore d).bind (pushHit ask d)

theorem pushHit_eq_some {d : Doc} {x : S} {h : ScoredHit S} (hh : pushHit ask d x = some h) :
    h.id = d.id ∧ h.score = x := by
  rw [pushHit] at hh
  split_ifs at hh
  obtain rfl := Option.some.inj hh
  exact ⟨rfl, rfl⟩

omit [Crates] in
/-- Parts of elements with different keys, under the same keys. -/
theorem nodup_filterMap {α β κ : Type*} {f : α → Option β} {key : α → κ} {key' : β → κ}
    (hkey : ∀ a b, f a = some b → key' b = key a) {l : List α} (hl : (l.map key).Nodup) :
    ((l.filterMap f).map key').Nodup := by
  refine hl.sublist ?_
  induction l with
  | nil => exact List.Sublist.refl _
  | cons a l ih =>
      have ih := ih (List.nodup_cons.mp hl).2
      cases hf : f a with
      | none =>
          rw [List.filterMap_cons_none hf]
          exact ih.cons _
      | some b =>
          rw [List.filterMap_cons_some hf, List.map_cons, List.map_cons, hkey a b hf]
          exact ih.cons_cons _

/-- The hits of a live set are of different documents. -/
theorem nodup_scoredHits (ask : Ask) (rescore : Doc → Option S) {live : Live} (h : live.WellKeyed) :
    ((scoredHits ask rescore live).map ScoredHit.id).Nodup := by
  refine @nodup_filterMap _ _ _ _ Doc.id _ (fun d hit hhit => ?_) _ h.nodup_ids
  obtain ⟨x, -, hpush⟩ := Option.bind_eq_some_iff.mp hhit
  exact (pushHit_eq_some hpush).1

omit [Crates] in
theorem mem_touchedIds {tail : List Record} {id : Id} : id ∈ touchedIds tail ↔ ∃ r ∈ tail, r.id = id := by
  rw [touchedIds, List.mem_dedup, List.mem_map]

omit [Crates] in
/-- What the tail does not touch is as it is stored. -/
theorem get_materialize_untouched {docs : List Doc} (hd : (docs.map Doc.id).Nodup) {tail : List Record}
    {id : Id} (hid : id ∉ touchedIds tail) :
    (materialize (docs.map .upsert ++ tail)).get id = docs.find? fun d => d.id = id := by
  rw [get_materialize, effectAt_append, effectAt_upserts hd, Option.or_none]
  exact effectAt_of_forall_ne (fun r hr hrid => hid (mem_touchedIds.mpr ⟨r, hr, hrid⟩)) _

omit [Crates] in
/-- A document at an ordinal that the tail left alone. -/
theorem untouched_eq_some {docs : List Doc} (hd : (docs.map Doc.id).Nodup) {tail : List Record} {o : Nat}
    {d : Doc} : untouched (docs.map .upsert) o (touchedIds tail) (materialize (docs.map .upsert ++ tail)) =
      some d ↔ docs[o]? = some d ∧ d.id ∉ touchedIds tail := by
  rw [untouched, List.getElem?_map]
  cases ho : docs[o]? with
  | none => simp
  | some indexed =>
      have hfind : docs.find? (fun d => d.id = indexed.id) = some indexed :=
        (find?_id_eq_some hd).mpr ⟨List.mem_of_getElem? ho, rfl⟩
      simp only [Option.map_some, Option.some.injEq]
      split_ifs with htouched
      · refine iff_of_false nofun ?_
        rintro ⟨rfl, hnot⟩
        exact hnot htouched
      · rw [get_materialize_untouched hd htouched, hfind, Option.some.injEq]
        exact ⟨fun h => ⟨h, h ▸ htouched⟩, fun h => h.1⟩

variable {docs : List Doc} (hd : (docs.map Doc.id).Nodup) (tail : List Record) {scored : List (Nat × S)}
  (hscored : ∀ o x, (o, x) ∈ scored ↔ ∃ d, docs[o]? = some d ∧ rescore d = some x)

include hd hscored

theorem mem_overlayHits {h : ScoredHit S} :
    h ∈ overlayHits ask scored rescore (docs.map .upsert) tail ↔
      h ∈ scoredHits ask rescore (materialize (docs.map .upsert ++ tail)) := by
  have hkeyed := materialize_wellKeyed (docs.map .upsert ++ tail)
  simp only [overlayHits, scoredHits, List.mem_append, List.mem_filterMap, Option.bind_eq_some_iff,
    Prod.exists, untouched_eq_some hd, hscored]
  constructor
  · rintro (⟨o, x, ⟨d, ho, hx⟩, d', ⟨ho', huntouched⟩, hpush⟩ | ⟨id, -, d, hget, x, hx, hpush⟩)
    · obtain rfl := Option.some.inj (ho.symm.trans ho')
      refine ⟨d, SortedMap.mem_values_iff.mpr ⟨d.id, ?_⟩, x, hx, hpush⟩
      rw [get_materialize_untouched hd huntouched, find?_id_eq_some hd]
      exact ⟨List.mem_of_getElem? ho, rfl⟩
    · exact ⟨d, SortedMap.mem_values_iff.mpr ⟨id, hget⟩, x, hx, hpush⟩
  · rintro ⟨d, hmem, x, hx, hpush⟩
    obtain ⟨id, hget⟩ := SortedMap.mem_values_iff.mp hmem
    obtain rfl := hkeyed id d hget
    by_cases htouched : d.id ∈ touchedIds tail
    · exact .inr ⟨d.id, htouched, d, hget, x, hx, hpush⟩
    · rw [get_materialize_untouched hd htouched, find?_id_eq_some hd] at hget
      obtain ⟨o, ho⟩ := List.mem_iff_getElem?.mp hget.1
      exact .inl ⟨o, x, ⟨d, ho, hx⟩, d, ⟨ho, htouched⟩, hpush⟩

/-- **The overlay is exhaustive**: what an index scored and the tail left alone, and what the tail
touched, are together the hits of the live set. -/
theorem overlayHits_perm (hnodup : scored.Nodup) :
    (overlayHits ask scored rescore (docs.map .upsert) tail).Perm
      (scoredHits ask rescore (materialize (docs.map .upsert ++ tail))) := by
  have hkeyed := materialize_wellKeyed (docs.map .upsert ++ tail)
  refine (List.perm_ext_iff_of_nodup ?_ (nodup_scoredHits ask rescore hkeyed).of_map).mpr
    fun h => mem_overlayHits hd tail hscored
  rw [overlayHits]
  refine List.Nodup.append (hnodup.filterMap ?_) ((List.nodup_dedup _).filterMap ?_) ?_
  · -- the id of a hit gives the ordinal
    intro p p' h hp hp'
    obtain ⟨d, hu, hpush⟩ := Option.bind_eq_some_iff.mp hp
    obtain ⟨d', hu', hpush'⟩ := Option.bind_eq_some_iff.mp hp'
    obtain ⟨ho, -⟩ := (untouched_eq_some hd).mp hu
    obtain ⟨ho', -⟩ := (untouched_eq_some hd).mp hu'
    obtain ⟨hid, hx⟩ := pushHit_eq_some hpush
    obtain ⟨hid', hx'⟩ := pushHit_eq_some hpush'
    have hlt : p.1 < (docs.map Doc.id).length := by
      rw [List.length_map]
      exact (List.getElem?_eq_some_iff.mp ho).1
    refine Prod.ext ((List.getElem?_inj hlt hd).mp ?_) (hx.symm.trans hx')
    rw [List.getElem?_map, List.getElem?_map, ho, ho', Option.map_some, Option.map_some, ← hid, ← hid']
  · intro id id' h hp hp'
    obtain ⟨d, hget, hscore⟩ := Option.bind_eq_some_iff.mp hp
    obtain ⟨d', hget', hscore'⟩ := Option.bind_eq_some_iff.mp hp'
    obtain ⟨x, -, hpush⟩ := Option.bind_eq_some_iff.mp hscore
    obtain ⟨x', -, hpush'⟩ := Option.bind_eq_some_iff.mp hscore'
    rw [← hkeyed id d hget, ← hkeyed id' d' hget', ← (pushHit_eq_some hpush).1, (pushHit_eq_some hpush').1]
  · -- the tail touched the document, or not
    intro h hleft hright
    obtain ⟨p, -, hp⟩ := List.mem_filterMap.mp hleft
    obtain ⟨d, hu, hpush⟩ := Option.bind_eq_some_iff.mp hp
    obtain ⟨id, htouched, hp'⟩ := List.mem_filterMap.mp hright
    obtain ⟨d', hget, hscore⟩ := Option.bind_eq_some_iff.mp hp'
    obtain ⟨x, -, hpush'⟩ := Option.bind_eq_some_iff.mp hscore
    refine ((untouched_eq_some hd).mp hu).2 ?_
    rwa [← (pushHit_eq_some hpush).1, (pushHit_eq_some hpush').1, hkeyed id d' hget]

end Overlay

/-! ## One shard -/

section Shard

variable [Crates] {S : Type} [Score S] {s : Store} {docs : List Doc} {shard : Shard} {idx : IndexMeta}
  {req : SearchRequest} {attr : String} {name : DataName}

/-- A shard with the index of the attribute answers a sparse search. -/
theorem Store.Yields.shardSearch_sparse (h : s.BuiltFrom docs shard)
    (hkept : ∀ name ∈ shard.objects, name ∉ s.deleted) (hi : shard.index = some idx)
    (hattr : idx.sparse.get attr = some name) {vector : SortedMap String F32}
    (hsearch : req.search = .sparse attr vector) (filter : Option Filter) (tail : List Record)
    (schema : Schema) :
    s.Yields (Fckdb.shardSearch S shard req filter tail schema) (.ok (.ranked (sparseHits
      (req.ask filter schema) (SparseIndex.build (attributeVectors docs attr) docs.length) attr vector
      (docs.map .upsert) tail) req.topK true)) := by
  obtain ⟨t, built, hbuilt⟩ := h.index hi
  have hindex : s.Yields (Fckdb.readSparseIndex name)
      (.ok (SparseIndex.build (attributeVectors docs attr) docs.length)) :=
    seq (readHeld (hbuilt.sparse hattr)
      (hkept _ (mem_objects_of_index hi (mem_objects_of_sparse hattr)))) (ret _)
  simp only [Fckdb.shardSearch, hsearch, hi, hattr]
  exact seq hindex (seq (readRecordsParallel h.reads fun name hname =>
    hkept name (List.mem_append_left _ hname)) (ret _))

/-- A shard with the index of the attribute answers a full-text search. -/
theorem Store.Yields.shardSearch_text (h : s.BuiltFrom docs shard)
    (hkept : ∀ name ∈ shard.objects, name ∉ s.deleted) (hi : shard.index = some idx)
    (hattr : idx.fts.get attr = some name) {x : FtsIndex} (hx : s.HasBlob (.data name) (.fts x))
    {query : String} (hsearch : req.search = .text attr query) (filter : Option Filter)
    (tail : List Record) (schema : Schema) :
    s.Yields (Fckdb.shardSearch S shard req filter tail schema) (.ok (.ranked (textHits
      (req.ask filter schema) x attr query (docs.map .upsert) tail) req.topK true)) := by
  have hindex : s.Yields (Fckdb.readFtsIndex name) (.ok x) :=
    seq (readHeld hx (hkept _ (mem_objects_of_index hi (mem_objects_of_fts hattr)))) (ret _)
  simp only [Fckdb.shardSearch, hsearch, hi, hattr]
  exact seq hindex (seq (readRecordsParallel h.reads fun name hname =>
    hkept name (List.mem_append_left _ hname)) (ret _))

variable [HashOrder] {N : Type} [Numbers N] {m : Manifest} {f : Option Filter}

/-- **A search of one shard** is answered by the shard. -/
theorem Store.Yields.search_one {handle : Nat} {snapshot truncated : Bool} {entries : List WalEntry}
    {tail : List Record} {outcome : SearchOutcome S}
    (hload : s.Yields (loadWith handle req.consistency) (.ok (m, snapshot)))
    (hone : m.shards = [shard]) (hf : coerceFilter m.schema req.filter = .ok f)
    (hdim : checkDim m.schema req.vector = .ok ()) (haggs : req.aggregateBy = none)
    (hentries : tailEntries m req.consistency = .ok (entries, truncated))
    (htail : s.Yields (Fckdb.readRecordsParallel (entries.map fun e => .wal e.name)) (.ok tail))
    (hshard : s.Yields (Fckdb.shardSearch S shard req f tail m.schema) (.ok outcome)) :
    ∃ r, s.Yields (Fckdb.search S N handle req) (.ok r) ∧ r.hits = takeBestScored req.topK outcome.hits := by
  have hshards : s.Yields (Fckdb.searchShards S req f m tail) (.ok [outcome]) := by
    rw [Fckdb.searchShards, residentShards_of_ne_nil (hone ▸ List.cons_ne_nil _ _), tails, hone,
      if_pos (.inr (Nat.le_refl 1))]
    exact @tryJoinAll _ _ _ [()] (fun _ => Fckdb.shardSearch S shard req f tail m.schema)
      (fun _ => outcome) fun _ _ => hshard
  have hanswer : s.Yields (Fckdb.searchOn S N req m snapshot) (.ok
      { hits := takeBestScored req.topK ([outcome].flatMap (·.hits))
        consistent := !snapshot && !truncated
        indexed := [outcome].any (·.indexed)
        prefiltered := [outcome].all (·.prefiltered)
        aggregations := .empty
        aggregationGroups := []
        unindexedRecords := (entries.map (·.records)).sum
        unindexedBytes := (entries.map (·.bytes)).sum }) := by
    refine seq (a := f) ?_ (seq (a := ()) ?_ (seq (a := (entries, truncated)) ?_ (seq htail
      (seq (aggregations_none haggs) (seq hshards (ret _))))))
    · rw [hf]
      exact ofExcept _
    · rw [hdim]
      exact ofExcept _
    · rw [hentries]
      exact ofExcept _
  refine ⟨_, seq hload hanswer, ?_⟩
  dsimp only
  rw [List.flatMap_singleton]

end Shard

end Fckdb
