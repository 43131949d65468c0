import Fckdb.References
import Fckdb.Lib.Best

/-! # Documents over shards

The records of a namespace fall apart by shard, and each shard materializes its own: together they are
the live set (`Live.WellKeyed.perm_flatMap_shards`). In every interleaving a shard of the current manifest
was built from documents with distinct ids (`Reaches.wellBuilt`), which its segment and the clusters of its
index hold. -/

namespace Fckdb

/-! ## Slices of a log -/

/-- The records that belong to shard `i` of `n`. -/
def slice (n i : Nat) (rs : List Record) : List Record := rs.filter fun r => shardOf r.id n = i

/-- **A shard's live set** has the documents that hash to it. -/
theorem materialize_slice (n i : Nat) (rs : List Record) :
    materialize (slice n i rs) = (materialize rs).filterKeys fun id => shardOf id n = i := by
  ext1 id
  rw [SortedMap.get_filterKeys, get_materialize, get_materialize]
  by_cases h : shardOf id n = i
  · rw [if_pos (decide_eq_true h), slice, effectAt_filter]
    rintro r - rfl
    exact decide_eq_true h
  · rw [if_neg (by simpa using h)]
    refine effectAt_of_forall_ne (fun r hr hid => h ?_) none
    rw [← hid]
    exact of_decide_eq_true (List.mem_filter.mp hr).2

/-- **The shards together** have every live document, once. -/
theorem Live.WellKeyed.perm_flatMap_shards {live : Live} (h : live.WellKeyed) {n : Nat} (hn : 0 < n) :
    ((List.range n).flatMap fun i => SortedMap.values (live.filterKeys fun id => shardOf id n = i)).Perm
      live.values := by
  simp only [h.values_filterKeys]
  exact perm_flatMap_filter (fun d : Doc => shardOf d.id n) fun d _ => shardOf_lt hn

/-- The same upserts of distinct documents, in any order. -/
theorem materialize_upserts_perm {docs docs' : List Doc} (hd : (docs.map Doc.id).Nodup)
    (hp : docs'.Perm docs) : materialize (docs'.map .upsert) = materialize (docs.map .upsert) := by
  have hd' : (docs'.map Doc.id).Nodup := ((hp.map Doc.id).nodup_iff).mpr hd
  ext1 id
  rw [get_materialize, get_materialize, effectAt_upserts hd, effectAt_upserts hd']
  congr 1
  apply Option.ext
  intro d
  rw [find?_id_eq_some hd, find?_id_eq_some hd', hp.mem_iff]

/-! ## What the objects of a shard hold -/

section Built

variable [Crates]

/-- The shard was built from these documents. -/
def Store.BuiltFrom (s : Store) (docs : List Doc) (shard : Shard) : Prop :=
  ∃ t schema buildIndex, ShardBuilt s t schema docs buildIndex shard

variable {s : Store} {docs : List Doc} {shard : Shard}

/-- The segment of a shard holds its documents. -/
theorem Store.BuiltFrom.reads (h : s.BuiltFrom docs shard) :
    s.Reads (shard.segments.map fun e => .data e.name) (docs.map .upsert) := by
  obtain ⟨t, schema, buildIndex, h⟩ := h
  obtain ⟨rfl, rfl⟩ | ⟨seg, hw, hseg⟩ := h.segment
  · exact .nil
  · rw [hseg]
    exact hw.hasRecords.reads

/-- The index of a shard is built from its documents. -/
theorem Store.BuiltFrom.index (h : s.BuiltFrom docs shard) {i : IndexMeta} (hi : shard.index = some i) :
    ∃ t schema, IndexBuilt s t schema docs i := by
  obtain ⟨t, schema, buildIndex, h⟩ := h
  rw [ShardBuilt] at h
  by_cases hnil : docs = []
  · rw [if_pos hnil] at h
    rw [h] at hi
    cases hi
  · rw [if_neg hnil] at h
    obtain ⟨seg, index, -, rfl, hindex⟩ := h
    cases buildIndex with
    | false => cases hindex.symm.trans hi
    | true =>
        obtain ⟨j, hj, hbuilt⟩ := hindex
        obtain rfl := Option.some.inj (hj.symm.trans hi)
        exact ⟨t, schema, hbuilt⟩

/-- Documents that are indexed have an index, of their dimension. -/
theorem ShardBuilt.indexed {t : Nat} {schema : Schema} (h : ShardBuilt s t schema docs true shard)
    (hne : docs ≠ []) : ∃ i, shard.index = some i ∧ IndexBuilt s t schema docs i := by
  rw [ShardBuilt, if_neg hne] at h
  obtain ⟨seg, index, -, rfl, i, hi, hbuilt⟩ := h
  exact ⟨i, hi, hbuilt⟩

theorem IndexBuilt.dim {t : Nat} {schema : Schema} {i : IndexMeta} (h : IndexBuilt s t schema docs i) :
    i.dim = (docs.headD default).vector.length := by
  obtain ⟨flat, groups, centroids, names, -, -, -, rfl⟩ := h
  rfl

/-- **The clusters of an index** hold its documents, each the documents of one group. -/
theorem IndexBuilt.clusters {t : Nat} {schema : Schema} {i : IndexMeta}
    (h : IndexBuilt s t schema docs i) :
    ∃ flat groups, groups.flatten.Perm docs ∧ flat.length = i.clusters.length * i.dim ∧
      s.Wrote t (.data i.centroids) (.centroids flat) ∧
      List.Forall₂ (fun name group => s.HasRecords (.data name) (List.map .upsert group)) i.clusters
        groups := by
  obtain ⟨flat, groups, centroids, names, hbuild, hcentroids, hnames, rfl⟩ := h
  -- the clusters come first among what was written
  have htake := List.forall₂_take groups.length hnames
  rw [indexWrites, List.append_assoc, List.take_left' (List.length_map _)] at htake
  have hclusters : List.Forall₂ (fun name group => s.HasRecords (.data name) (List.map .upsert group))
      (names.take groups.length) groups := by
    rw [List.forall₂_map_left_iff] at htake
    exact htake.flip.imp fun _ _ hw => Store.Wrote.hasRecords hw
  refine ⟨flat, groups, ivfBuild_perm hbuild, ?_, hcentroids, hclusters⟩
  have hlen : (names.take groups.length).length = groups.length := hclusters.length_eq
  rw [ivfBuild_length hbuild]
  exact congrArg (· * _) hlen.symm

end Built

/-! ## In every interleaving -/

/-- Every shard of the manifest was built from documents with distinct ids, and a dimension that is fixed
is not zero. -/
structure WellBuilt [Crates] (s : Store) (m : Manifest) : Prop where
  built : ∀ shard ∈ m.shards, ∃ docs, (docs.map Doc.id).Nodup ∧ s.BuiltFrom docs shard
  dim : m.schema.dim ≠ some 0

namespace WellBuilt

variable [Crates] {s s' : Store} {m : Manifest}

theorem init (s : Store) : WellBuilt s {} := ⟨nofun, nofun⟩

theorem grows {who : Nat → Prop} (h : WellBuilt s m) (hg : Grows who s s') : WellBuilt s' m where
  built shard hshard := by
    obtain ⟨docs, hd, t, schema, buildIndex, hb⟩ := h.built shard hshard
    exact ⟨docs, hd, t, schema, buildIndex, hg.shardBuilt hb⟩
  dim := h.dim

theorem install (h : WellBuilt s m) {t : Nat} {schema : Schema} {buildIndex : Bool} {rs : List Record}
    {count : Nat} {shards : List Shard} {consumed : List WalName} {now : Nat}
    (built : List.Forall₂ (fun docs shard => ShardBuilt s t schema docs buildIndex shard)
      (buckets (materialize rs).values count) shards) :
    WellBuilt s (m.install consumed shards now) where
  built shard hshard := by
    obtain ⟨i, hi, rfl⟩ := List.mem_iff_getElem.mp hshard
    have hb := built.get (by rw [built.length_eq]; exact hi) hi
    refine ⟨_, ?_, t, schema, buildIndex, hb⟩
    -- a bucket has some of the live documents
    simp only [List.get_eq_getElem, buckets, List.getElem_map]
    exact (materialize_wellKeyed rs).nodup_ids.sublist (List.filter_sublist.map _)
  dim := h.dim

end WellBuilt

/-- **The shards of every manifest are well built**, in every interleaving. -/
theorem Reaches.wellBuilt_version [Crates] [HashOrder] {ok : Terms} {p : Namespace} (h : Reaches ok p) :
    ∀ v ∈ p.shared.versions, WellBuilt p.shared v.manifest := by
  refine h.version_invariant .init (fun _ _ _ _ hm hg => hm.grows hg) ?_ ?_
  · intro s t call prepare schema batch uuid now hm asked prepared stored
    refine ⟨hm.built, ?_⟩
    -- only a commit of records changes the schema
    cases call with
    | commitRecords handle records config =>
        cases asked
        exact Schema.absorb_dim_ne_zero (prepareRecords_eq_ok prepared).1 hm.dim
    | commitBatch handle batch =>
        cases asked
        cases prepared
        exact hm.dim
    | _ => cases asked
  · intro s t buildIndex m records shards now hm built distinct
    exact hm.install built

/-- The shards of the current manifest are. -/
theorem Reaches.wellBuilt [Crates] [HashOrder] {ok : Terms} {p : Namespace} (h : Reaches ok p) :
    WellBuilt p.shared p.shared.manifest :=
  forall_lastManifest (.init _) fun v hv => h.wellBuilt_version v (List.mem_of_mem_drop hv)

end Fckdb
