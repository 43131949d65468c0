import Fckdb.Quiet
import Fckdb.Sharding

/-! # Queries on a quiet store

What the parts of a query compute when nobody writes: the manifest, the tail within the scan cap, the
shards' documents, and the exhaustive scan. `Layout` says which documents each resident shard and which
records the tail of a manifest has; a placed manifest has a layout (`Reaches.layout`). -/

namespace Fckdb

/-! ## The scan cap -/

theorem walPrefixFrom_of_le {cap : Nat} {es : List WalEntry} {acc : Nat}
    (h : acc + (es.map (·.bytes)).sum ≤ cap) : Manifest.walPrefixFrom cap acc es = (es, false) := by
  induction es generalizing acc with
  | nil => rfl
  | cons e es ih =>
      rw [List.map_cons, List.sum_cons] at h
      rw [Manifest.walPrefixFrom, if_neg (by omega), ih (by omega)]

theorem walPrefixFrom_of_gt {cap : Nat} {es : List WalEntry} {acc : Nat} (hacc : acc ≤ cap)
    (h : cap < acc + (es.map (·.bytes)).sum) : (Manifest.walPrefixFrom cap acc es).2 = true := by
  induction es generalizing acc with
  | nil =>
      rw [List.map_nil, List.sum_nil] at h
      omega
  | cons e es ih =>
      rw [List.map_cons, List.sum_cons] at h
      rw [Manifest.walPrefixFrom]
      split_ifs with hlarge
      · rfl
      · exact ih (by omega) (by omega)

/-- A tail within the cap is read whole. -/
theorem tailEntries_of_le {m : Manifest} (h : m.unindexedBytes ≤ maxUnindexedScanBytes)
    (consistency : Consistency) : tailEntries m consistency = .ok (m.wal, false) := by
  rw [tailEntries, Manifest.walPrefixWithin, walPrefixFrom_of_le (by rwa [Nat.zero_add])]
  exact if_neg (fun h => nomatch h.1)

/-- **Over the cap** a strongly consistent query is refused. -/
theorem tailEntries_of_gt {m : Manifest} (h : maxUnindexedScanBytes < m.unindexedBytes) :
    ∃ e, tailEntries m .strong = .error e := by
  have htruncated : (m.walPrefixWithin maxUnindexedScanBytes).2 = true :=
    walPrefixFrom_of_gt (Nat.zero_le _) (by rwa [Nat.zero_add])
  exact ⟨_, if_pos ⟨htruncated, rfl⟩⟩

/-! ## Layouts -/

section Layouts

variable [Crates]

/-- What a manifest stands for: the documents of each resident shard, which hash to it, and the records of
the tail. -/
structure Layout (s : Store) (m : Manifest) (docs : List (List Doc)) (tail : List Record) : Prop where
  built : List.Forall₂ (fun ds shard => (ds.map Doc.id).Nodup ∧ s.BuiltFrom ds shard) docs
    (residentShards m)
  hashed : ∀ i (hi : i < docs.length), ∀ d ∈ docs[i], shardOf d.id docs.length = i
  unindexed : s.Reads (m.wal.map fun e => .wal e.name) tail
  slices : tails m.schema (residentShards m) tail =
    (List.range docs.length).map fun i => slice docs.length i tail

namespace Layout

variable {s : Store} {m : Manifest} {docs : List (List Doc)} {tail : List Record}

/-- All records of a layout. -/
abbrev log (docs : List (List Doc)) (tail : List Record) : List Record :=
  docs.flatten.map .upsert ++ tail

theorem pos (h : Layout s m docs tail) : 0 < docs.length := by
  rw [h.built.length_eq, residentShards]
  split_ifs with hempty
  · exact Nat.one_pos
  · exact List.length_pos_of_ne_nil fun hnil => hempty (List.isEmpty_iff.mpr hnil)

/-- The documents of shard `i`. -/
theorem shard (h : Layout s m docs tail) {i : Nat} (hi : i < docs.length) :
    (docs[i].map Doc.id).Nodup ∧
      s.BuiltFrom docs[i] ((residentShards m).get ⟨i, h.built.length_eq ▸ hi⟩) :=
  h.built.get hi (h.built.length_eq ▸ hi)

omit [Crates] in
/-- The segments of the resident shards are those of the manifest. -/
theorem segments_eq (m : Manifest) : m.allSegments = (residentShards m).flatMap (·.segments) := by
  rw [Manifest.allSegments, residentShards]
  split_ifs with hempty
  · rw [List.isEmpty_iff.mp hempty]
    rfl
  · rfl

/-- **A full read** finds the records of the layout. -/
theorem reads (h : Layout s m docs tail) : s.Reads m.recordObjects (log docs tail) := by
  refine Store.Reads.append ?_ h.unindexed
  rw [segments_eq]
  have hbuilt := h.built
  clear h
  generalize residentShards m = shards at hbuilt ⊢
  induction hbuilt with
  | nil => exact .nil
  | cons hb _ ih =>
      rw [List.flatMap_cons, List.map_append, List.flatten_cons, List.map_append]
      exact hb.2.reads.append ih

end Layout

/-- **The records of shard `i`**: its documents and its slice of the tail. -/
theorem Layout.slice_log {s : Store} {m : Manifest} {docs : List (List Doc)} {tail : List Record}
    (h : Layout s m docs tail) {i : Nat} (hi : i < docs.length) :
    slice docs.length i (Layout.log docs tail) =
      docs[i].map .upsert ++ slice docs.length i tail := by
  rw [Layout.log, slice, List.filter_append, List.filter_map]
  congr 2
  have := @filter_flatten _ (fun d : Doc => shardOf d.id docs.length) docs 0
    (fun j hj d hd => (h.hashed j hj d hd).trans (Nat.zero_add j).symm) i hi
  rw [Nat.zero_add] at this
  exact this

omit [Crates] in
theorem forall₂_of_exists {α β : Type*} {R : α → β → Prop} {l : List β} (h : ∀ b ∈ l, ∃ a, R a b) :
    ∃ as, List.Forall₂ R as l := by
  induction l with
  | nil => exact ⟨[], .nil⟩
  | cons b l ih =>
      obtain ⟨a, ha⟩ := h b List.mem_cons_self
      obtain ⟨as, has⟩ := ih fun b' hb' => h b' (List.mem_cons_of_mem _ hb')
      exact ⟨a :: as, .cons ha has⟩

/-- The documents a shard was built from are stored in its segment. -/
theorem Store.BuiltFrom.stored {s : Store} {docs : List Doc} {shard : Shard}
    (h : s.BuiltFrom docs shard) {d : Doc} (hd : d ∈ docs) :
    ∃ name ∈ shard.objects, ∃ put, s.written name = some put ∧ d.id ∈ put.blob.storedIds := by
  obtain ⟨t, schema, buildIndex, h⟩ := h
  obtain ⟨rfl, -⟩ | ⟨seg, ⟨put, hput, hblob, -⟩, hseg⟩ := h.segment
  · cases hd
  · refine ⟨.data seg, List.mem_append_left _ (hseg ▸ List.mem_singleton_self _), put, hput, ?_⟩
    rw [hblob, storedIds_upserts]
    exact List.mem_map_of_mem hd

omit [Crates] in
theorem residentShards_of_eq_nil {m : Manifest} (h : m.shards = []) : residentShards m = [{}] := by
  rw [residentShards, h]
  rfl

omit [Crates] in
theorem residentShards_of_ne_nil {m : Manifest} (h : m.shards ≠ []) : residentShards m = m.shards := by
  rw [residentShards, if_neg fun hempty => h (List.isEmpty_iff.mp hempty)]

variable [HashOrder]

/-- **A placed manifest has a layout.** -/
theorem Reaches.layout {ok : Terms} {p : Namespace} (h : Reaches ok p) (hplaced : Placement p) :
    ∃ docs tail, Layout p.shared p.shared.manifest docs tail := by
  obtain ⟨tail, htail⟩ := Store.reads_of_forall fun name hname =>
    h.grounded.records name (List.mem_append_right _ hname)
  have hslices := hplaced.slices tail
  by_cases hnil : p.shared.manifest.shards = []
  · -- one implicit shard takes everything
    rw [residentShards_of_eq_nil hnil] at hslices
    refine ⟨[[]], tail, ?_, fun i hi d hd => ?_, htail, ?_⟩
    · rw [residentShards_of_eq_nil hnil]
      exact .cons ⟨.nil, 0, {}, false, by rw [ShardBuilt, if_pos rfl]⟩ .nil
    · obtain rfl : i = 0 := Nat.lt_one_iff.mp hi
      cases hd
    · rw [residentShards_of_eq_nil hnil]
      exact hslices
  · obtain ⟨docs, hdocs⟩ := forall₂_of_exists h.wellBuilt.built
    have hlen : docs.length = p.shared.manifest.shards.length := hdocs.length_eq
    rw [residentShards_of_ne_nil hnil] at hslices
    refine ⟨docs, tail, ?_, fun i hi d hd => ?_, htail, ?_⟩
    · rw [residentShards_of_ne_nil hnil]
      exact hdocs
    · have hlt : i < p.shared.manifest.shards.length := hlen ▸ hi
      obtain ⟨name, hname, put, hput, hid⟩ := (hdocs.get hi hlt).2.stored hd
      obtain ⟨put', hput', hids⟩ := hplaced.placed i _ (List.getElem?_eq_getElem hlt) name hname
      obtain rfl := Option.some.inj (hput.symm.trans hput')
      rw [hlen, hplaced.count.resolve_left hnil]
      exact hids d.id hid
    · rw [residentShards_of_ne_nil hnil, hlen]
      exact hslices

end Layouts

/-! ## Queries -/

namespace Store.Yields

variable [Crates] [HashOrder] {s : Store}

omit [Crates] [HashOrder] in
/-- A strongly consistent query works on the current manifest. -/
theorem loadWith_strong (handle : Nat) :
    s.Yields (loadWith handle .strong) (.ok (s.manifest, false)) :=
  seq (ret none) (seq (load handle) (ret _))

/-- **The exhaustive scan.** -/
theorem queryBrute {filter f : Option Filter} {rs : List Record} (handle : Nat) (vector : List F32)
    (k : Nat) (hf : coerceFilter s.manifest.schema filter = .ok f)
    (hreads : s.Reads s.manifest.recordObjects rs)
    (hkept : ∀ name ∈ s.manifest.recordObjects, name ∉ s.deleted) :
    s.Yields (Fckdb.queryBrute handle vector k filter) (.ok (topK (materialize rs).hashValues vector k f
      .none s.manifest.schema.distanceMetric s.manifest.schema.fts)) := by
  obtain ⟨version, hall⟩ := allRecords handle hreads hkept
  refine seq (load handle) (seq (a := f) ?_ (seq hall (ret _)))
  rw [hf]
  exact ofExcept _

theorem queryBrute_error {filter : Option Filter} {e : Error} (handle : Nat) (vector : List F32)
    (k : Nat) (hf : coerceFilter s.manifest.schema filter = .error e) :
    s.Yields (Fckdb.queryBrute handle vector k filter) (.error e) := by
  refine seq (load handle) (seq_error ?_)
  rw [hf]
  exact ofExcept _

variable {N : Type} [Numbers N] {m : Manifest} {req : QueryRequest} {f : Option Filter}

theorem query {handle : Nat} {snapshot : Bool} {r : Except Error QueryResponse}
    (hload : s.Yields (loadWith handle req.consistency) (.ok (m, snapshot)))
    (h : s.Yields (queryOn N req m snapshot) r) : s.Yields (Fckdb.query N handle req) r :=
  seq hload h

theorem queryOn_filter_error {e : Error} (snapshot : Bool)
    (hf : coerceFilter m.schema req.filter = .error e) :
    s.Yields (Fckdb.queryOn N req m snapshot) (.error e) := by
  refine seq_error ?_
  rw [hf]
  exact ofExcept _

/-- Over the cap. -/
theorem queryOn_tail_error {e : Error} (snapshot : Bool)
    (hf : coerceFilter m.schema req.filter = .ok f) (hdim : checkDim m.schema req.vector = .ok ())
    (htail : tailEntries m req.consistency = .error e) :
    s.Yields (Fckdb.queryOn N req m snapshot) (.error e) := by
  refine seq (a := f) ?_ (seq (a := ()) ?_ (seq_error ?_))
  · rw [hf]
    exact ofExcept _
  · rw [hdim]
    exact ofExcept _
  · rw [htail]
    exact ofExcept _

/-- **A ranked query** merges what its shards found. -/
theorem queryOn_ranked {tail : List Record} {aggs : SortedMap String Value × List AggregationGroup}
    {outcomes : List ShardOutcome} (snapshot : Bool) (hf : coerceFilter m.schema req.filter = .ok f)
    (hdim : checkDim m.schema req.vector = .ok ()) (hcap : m.unindexedBytes ≤ maxUnindexedScanBytes)
    (htail : s.Yields (Fckdb.readRecordsParallel (m.wal.map fun e => .wal e.name)) (.ok tail))
    (haggs : s.Yields (Fckdb.aggregations N req f m tail) (.ok aggs)) (hvector : req.vector ≠ [])
    (hrank : s.Yields (rankShards req f m tail) (.ok outcomes)) :
    ∃ r : QueryResponse, s.Yields (Fckdb.queryOn N req m snapshot) (.ok r) ∧
      r.hits = takeBest req.topK (outcomes.flatMap (·.hits)) ∧
      r.prefiltered = outcomes.all (·.prefiltered) := by
  have hanswer : s.Yields (Fckdb.queryOn N req m snapshot) (.ok
      { hits := takeBest req.topK (outcomes.flatMap (·.hits))
        consistent := !snapshot && !false
        indexed := outcomes.any (·.indexed)
        prefiltered := outcomes.all (·.prefiltered)
        aggregations := aggs.1
        aggregationGroups := aggs.2
        unindexedRecords := (m.wal.map (·.records)).sum
        unindexedBytes := (m.wal.map (·.bytes)).sum }) := by
    refine seq (a := f) ?_ (seq (a := ()) ?_ (seq (a := (m.wal, false)) ?_ (seq htail
      (seq haggs ?_))))
    · rw [hf]
      exact ofExcept _
    · rw [hdim]
      exact ofExcept _
    · rw [tailEntries_of_le hcap]
      exact ofExcept _
    · dsimp only
      rw [if_neg fun h => hvector (List.isEmpty_iff.mp h.2)]
      exact seq hrank (ret _)
  exact ⟨_, hanswer, rfl, rfl⟩

/-- Without aggregations there is nothing to aggregate. -/
theorem aggregations_none {tail : List Record} (h : req.aggregateBy = none) :
    s.Yields (Fckdb.aggregations N req f m tail) (.ok (.empty, [])) := by
  rw [Fckdb.aggregations, h]
  exact ret _

end Store.Yields

end Fckdb
