import Fckdb.ExhaustiveSearch
import Fckdb.PrefixReads
import Mathlib.Algebra.BigOperators.Group.Finset.Basic

/-! # The accounts of a manifest

A manifest records how many documents its objects hold and how large they are, so that nothing has to
be fetched to know it. In every interleaving the sizes are those of the objects, and the totals are
their sums; the counts of WAL entries and segments are kept in 32 bits, and are right as long as they
fit (`Reaches.accounts_iff`). -/

namespace Fckdb

/-! ## What the objects hold -/

/-- The number of records of an object. -/
def Blob.count : Blob → Nat
  | .records rs => rs.length
  | _ => 0

namespace Store

/-- The size of the object under a name. -/
def sizeOf (s : Store) (name : ObjectName) : Nat :=
  ((s.written name).map (·.blob.size)).getD 0

/-- The number of records under a name. -/
def countOf (s : Store) (name : ObjectName) : Nat :=
  ((s.written name).map (·.blob.count)).getD 0

variable {s : Store} {name : ObjectName} {blob : Blob}

theorem HasBlob.sizeOf (h : s.HasBlob name blob) : s.sizeOf name = blob.size := by
  obtain ⟨p, hp, rfl⟩ := h
  rw [Store.sizeOf, hp]
  rfl

theorem HasBlob.countOf (h : s.HasBlob name blob) : s.countOf name = blob.count := by
  obtain ⟨p, hp, rfl⟩ := h
  rw [Store.countOf, hp]
  rfl

end Store

theorem Grows.hasBlob {who : Nat → Prop} {s s' : Store} (h : Grows who s s') {name : ObjectName}
    {blob : Blob} (hb : s.HasBlob name blob) : s'.HasBlob name blob := by
  obtain ⟨p, hp, hblob⟩ := hb
  exact ⟨p, h.written hp, hblob⟩

/-- What the manifest says of an index is so: its clusters and its ids object hold as many documents as
it says, their vectors and the centroids have its dimension, and its size is that of its objects. -/
structure IndexAccounts (s : Store) (i : IndexMeta) : Prop where
  documents : ∃ groups ids idsName,
    List.Forall₂ (fun name group => s.HasBlob (.data name) (upserts group)) i.clusters groups ∧
    i.ids = some idsName ∧ s.HasBlob (.data idsName) (.ids ids) ∧
    i.docs = groups.flatten.length ∧ i.docs = ids.length ∧
    ∀ d ∈ groups.flatten, d.vector.length = i.dim
  centroids : ∃ flat, s.HasBlob (.data i.centroids) (.centroids flat) ∧
    flat.length = i.clusters.length * i.dim
  bytes : i.bytes = (i.objects.map fun name => s.sizeOf (.data name)).sum

/-- **The manifest's numbers** are those of the objects it names. -/
structure Accounts (s : Store) (m : Manifest) : Prop where
  wal : ∀ e ∈ m.wal, ∃ rs, s.HasBlob (.wal e.name) (.records rs) ∧ e.records = rs.length ∧
    e.bytes = (Blob.records rs).size
  segments : ∀ e ∈ m.allSegments, ∃ docs, s.HasBlob (.data e.name) (upserts docs) ∧
    e.docs = docs.length ∧ e.bytes = (upserts docs).size
  indexes : ∀ i ∈ m.allIndexes, IndexAccounts s i
  unindexed : m.unindexedBytes = ∑ name ∈ m.walObjects.toFinset, s.sizeOf name
  total : m.totalBytes = ∑ name ∈ m.referenced.toFinset, s.sizeOf name

/-- No WAL entry and no segment has more records than 32 bits can count. -/
def CountsFit (s : Store) (m : Manifest) : Prop :=
  ∀ name ∈ m.walObjects ++ m.segmentObjects, s.countOf name < 2 ^ 32

instance (s : Store) (m : Manifest) : Decidable (CountsFit s m) :=
  inferInstanceAs (Decidable (∀ name ∈ _, _))

/-! ## An index that was built -/

section Built

variable [Crates] {s : Store} {t : Nat} {schema : Schema} {docs : List Doc} {groups : List (List Doc)}
  {centroids : DataName} {names : List DataName}

omit [Crates] in
/-- The values of a map from sorted keys. -/
theorem values_ofList_zip {κ ν : Type} [LinearOrder κ] {ks : List κ} (h : ks.Pairwise (· < ·))
    (vs : List ν) : (SortedMap.ofList (ks.zip vs)).values = vs.take ks.length := by
  have hsorted : (ks.zip vs).Pairwise (fun a b => a.1 < b.1) := by
    induction ks generalizing vs with
    | nil => exact .nil
    | cons k ks ih =>
        cases vs with
        | nil => exact .nil
        | cons v vs =>
            rw [List.pairwise_cons] at h
            exact .cons (fun e he => h.1 _ (List.of_mem_zip he).1) (ih h.2 vs)
  rw [SortedMap.values, SortedMap.entries_ofList hsorted, map_snd_zip_eq_take]

/-- **The objects of an index** are the centroids and everything that was written after them. -/
theorem objects_indexMeta {dim bytes : Nat}
    (hlen : names.length = (indexWrites docs groups schema).length) :
    (indexMeta docs dim bytes groups schema centroids names).objects = centroids :: names := by
  have hattrs := values_ofList_zip (List.pairwise_map.mpr (sorted_attrIndexes schema.attributes docs))
    ((names.drop groups.length).drop 1)
  have hfts := values_ofList_zip (List.pairwise_map.mpr (sorted_ftsIndexes schema.fts docs))
    (((names.drop groups.length).drop 1).drop ((attrIndexes schema.attributes docs).map (·.1)).length)
  have hsparse := values_ofList_zip
    (List.pairwise_map.mpr (sorted_sparseIndexes schema.attributes docs))
    (((names.drop groups.length).drop 1).drop (((attrIndexes schema.attributes docs).map (·.1)).length +
      ((ftsIndexes schema.fts docs).map (·.1)).length))
  have hids : (names.drop groups.length).head?.toList = (names.drop groups.length).take 1 := by
    cases names.drop groups.length <;> rfl
  rw [IndexMeta.objects, indexMeta]
  dsimp only
  -- the sparse indexes take what is left
  rw [hattrs, hfts, hsparse, hids, List.take_of_length_le (i := (List.map _ (sparseIndexes _ _)).length),
    ← List.drop_drop, List.append_assoc (List.take _ _) (List.take _ _) (List.drop _ _),
    List.take_append_drop, List.take_append_drop, List.cons_append, List.cons_append, List.append_assoc,
    List.take_append_drop, List.take_append_drop]
  simp only [indexWrites, List.length_append, List.length_map, List.length_singleton] at hlen
  simp only [List.length_drop, List.length_map]
  omega

variable {i : IndexMeta}

omit [Crates] in
/-- Objects that were written have the sizes of what was written. -/
theorem sizes_of_wrote {ws : List Write}
    (h : List.Forall₂ (fun w name => s.Wrote t (.data name) w.blob) ws names) :
    (names.map fun name => s.sizeOf (.data name)) = ws.map (·.blob.size) := by
  induction h with
  | nil => rfl
  | cons hw _ ih => rw [List.map_cons, List.map_cons, ih, hw.hasBlob.sizeOf]

/-- The documents of an index have vectors of its dimension. -/
theorem IndexBuilt.vectors (h : IndexBuilt s t schema docs i) :
    i.docs = docs.length ∧ ∀ d ∈ docs, d.vector.length = i.dim := by
  have hdim := h.dim
  obtain ⟨flat, groups, centroids, names, hbuild, -, -, rfl⟩ := h
  exact ⟨rfl, fun d hd => (ivfBuild_dim hbuild d hd).trans hdim.symm⟩

/-- **The accounts of an index** that was built. -/
theorem IndexBuilt.accounts (h : IndexBuilt s t schema docs i) : IndexAccounts s i where
  documents := by
    obtain ⟨hdocs, hvectors⟩ := h.vectors
    obtain ⟨idsName, hids, hstored⟩ := h.ids
    obtain ⟨flat, groups, hperm, -, -, hclusters⟩ := h.clusters
    refine ⟨groups, _, idsName, hclusters, hids, hstored, ?_, ?_, fun d hd => ?_⟩
    · rw [hdocs, hperm.length_eq]
    · rw [hdocs, List.length_map]
    · exact hvectors d (hperm.subset hd)
  centroids := by
    obtain ⟨flat, groups, -, hflat, hcentroids, -⟩ := h.clusters
    exact ⟨flat, hcentroids.hasBlob, hflat⟩
  bytes := by
    obtain ⟨flat, groups, centroids, names, -, hcentroids, hnames, rfl⟩ := h
    rw [objects_indexMeta hnames.length_eq.symm, List.map_cons, List.sum_cons, sizes_of_wrote hnames,
      hcentroids.hasBlob.sizeOf]
    rfl

omit [Crates] in
/-- The records of an object, counted. -/
theorem Store.HasRecords.countOf {name : ObjectName} {rs : List Record} (h : s.HasRecords name rs) :
    s.countOf name = rs.length := by
  obtain ⟨p, hp, hb⟩ := h
  exact Store.HasBlob.countOf ⟨p, hp, hb⟩

/-- **The segments of a shard** that was built: their sizes, and as much of their counts as 32 bits hold. -/
theorem Store.BuiltFrom.segments {shard : Shard} (h : s.BuiltFrom docs shard) {e : SegmentEntry}
    (he : e ∈ shard.segments) : s.HasBlob (.data e.name) (upserts docs) ∧ e.docs = asU32 docs.length ∧
      e.bytes = (upserts docs).size := by
  obtain ⟨t, schema, buildIndex, h⟩ := h
  rw [ShardBuilt] at h
  by_cases hnil : docs = []
  · rw [if_pos hnil] at h
    rw [h] at he
    cases he
  · rw [if_neg hnil] at h
    obtain ⟨seg, index, hw, rfl, -⟩ := h
    obtain rfl := List.mem_singleton.mp he
    exact ⟨hw.hasBlob, rfl, rfl⟩

end Built

/-! ## What is referenced, once -/

namespace Manifest

/-- What a manifest references, by shard. -/
theorem referenced_perm (m : Manifest) :
    m.referenced.Perm (m.walObjects ++ m.shards.flatMap Shard.objects) := by
  have hsegments : m.allSegments.map (fun e => ObjectName.data e.name) =
      m.shards.flatMap fun shard => shard.segments.map fun e => .data e.name := List.map_flatMap
  have hindexes : (m.allIndexes.flatMap fun i => i.objects.map ObjectName.data) =
      m.shards.flatMap fun shard => shard.index.toList.flatMap fun i => i.objects.map .data := by
    rw [allIndexes, List.filterMap_eq_flatMap_toList, List.flatMap_assoc]
  rw [referenced, List.append_assoc, hsegments, hindexes]
  exact (List.flatMap_append_perm _ _ _).append_left _

end Manifest

/-- What every commit and install keeps: the numbers of the WAL entries are those of their objects, as much
of the counts as 32 bits hold; the entries are in order; and no object belongs to two shards. -/
structure Tallied (s : Store) (m : Manifest) : Prop where
  wal : ∀ e ∈ m.wal, ∃ rs, s.HasRecords (.wal e.name) rs ∧ e.records = asU32 rs.length ∧
    e.bytes = (Blob.records rs).size
  ordered : m.wal.Pairwise fun a b => a.name.seq < b.name.seq
  next : ∀ e ∈ m.wal, e.name.seq < m.nextSeq
  distinct : (m.shards.flatMap Shard.objects).Nodup

namespace Tallied

variable {s s' : Store} {m : Manifest}

theorem init (s : Store) : Tallied s {} := ⟨nofun, .nil, nofun, List.nodup_nil⟩

theorem grows {who : Nat → Prop} (h : Tallied s m) (hg : Grows who s s') : Tallied s' m where
  wal e he := by
    obtain ⟨rs, hrs, hcount, hsize⟩ := h.wal e he
    exact ⟨rs, hg.hasRecords hrs, hcount, hsize⟩
  ordered := h.ordered
  next := h.next
  distinct := h.distinct

/-- A commit adds an entry after the others. -/
theorem push (h : Tallied s m) {schema : Schema} {uuid : Nat} {batch : List Record} {now : Nat}
    (hstored : s.HasRecords (.wal ⟨m.nextSeq, uuid⟩) batch) :
    Tallied s (m.push schema ⟨m.nextSeq, uuid⟩ batch now) where
  wal e he := by
    rw [Manifest.push_wal] at he
    rcases List.mem_append.mp he with he | he
    · exact h.wal e he
    · obtain rfl := List.mem_singleton.mp he
      exact ⟨batch, hstored, rfl, rfl⟩
  ordered := by
    rw [Manifest.push_wal]
    refine List.pairwise_append.mpr ⟨h.ordered, List.pairwise_singleton _ _, fun e he e' he' => ?_⟩
    obtain rfl := List.mem_singleton.mp he'
    exact h.next e he
  next e he := by
    rw [Manifest.push_wal] at he
    rw [Manifest.push_nextSeq]
    rcases List.mem_append.mp he with he | he
    · exact Nat.lt_succ_of_lt (h.next e he)
    · obtain rfl := List.mem_singleton.mp he
      exact Nat.lt_succ_self _
  distinct := h.distinct

/-- An install keeps some of the entries, and has new shards. -/
theorem install (h : Tallied s m) {shards : List Shard} (hd : (shards.flatMap Shard.objects).Nodup)
    (consumed : List WalName) (now : Nat) : Tallied s (m.install consumed shards now) where
  wal e he := h.wal e (List.mem_of_mem_filter he)
  ordered := h.ordered.filter _
  next e he := h.next e (List.mem_of_mem_filter he)
  distinct := hd

end Tallied

theorem Reaches.tallied [Crates] [HashOrder] {ok : Terms} {p : Namespace} (h : Reaches ok p) :
    Tallied p.shared p.shared.manifest := by
  refine h.manifest_invariant .init (fun _ _ _ _ hm hg => hm.grows hg) ?_ ?_
  · intro s t call prepare schema batch uuid now hm asked prepared stored
    exact hm.push stored.hasRecords
  · intro s t buildIndex m records shards now hm built distinct
    exact hm.install distinct _ _

/-- The objects of the WAL have different names. -/
theorem Tallied.nodup_walObjects {s : Store} {m : Manifest} (h : Tallied s m) : m.walObjects.Nodup := by
  refine List.pairwise_map.mpr (h.ordered.imp fun {a b} hlt heq => ?_)
  rw [ObjectName.wal.inj heq] at hlt
  exact hlt.false

/-- **No object is referenced twice.** -/
theorem Tallied.nodup_referenced {s : Store} {m : Manifest} (h : Tallied s m) : m.referenced.Nodup := by
  refine m.referenced_perm.nodup_iff.mpr (List.nodup_append.mpr ⟨h.nodup_walObjects, h.distinct, ?_⟩)
  rintro _ hwal _ hobject rfl
  obtain ⟨e, -, rfl⟩ := List.mem_map.mp hwal
  obtain ⟨shard, -, hmem⟩ := List.mem_flatMap.mp hobject
  rcases List.mem_append.mp hmem with hmem | hmem
  · obtain ⟨seg, -, hseg⟩ := List.mem_map.mp hmem
    cases hseg
  · obtain ⟨i, -, hi⟩ := List.mem_flatMap.mp hmem
    obtain ⟨name, -, hname⟩ := List.mem_map.mp hi
    cases hname

/-! ## The numbers of a manifest -/

section Numbers

variable [Crates] {s : Store} {m : Manifest}

/-- The indexes of a manifest are accounted for. -/
theorem WellBuilt.indexAccounts (h : WellBuilt s m) : ∀ i ∈ m.allIndexes, IndexAccounts s i := by
  intro i hi
  obtain ⟨shard, hshard, hindex⟩ := List.mem_filterMap.mp hi
  obtain ⟨docs, -, hb⟩ := h.built shard hshard
  obtain ⟨t, schema, hbuilt⟩ := hb.index hindex
  exact hbuilt.accounts

/-- The segments of a manifest: their sizes, and as much of their counts as 32 bits hold. -/
theorem WellBuilt.segments (h : WellBuilt s m) : ∀ e ∈ m.allSegments, ∃ docs,
    s.HasBlob (.data e.name) (upserts docs) ∧ e.docs = asU32 docs.length ∧
      e.bytes = (upserts docs).size := by
  intro e he
  obtain ⟨shard, hshard, hmem⟩ := List.mem_flatMap.mp he
  obtain ⟨docs, -, hb⟩ := h.built shard hshard
  exact ⟨docs, hb.segments hmem⟩

omit [Crates] in
/-- **The sizes** that the entries record. -/
theorem Tallied.walSizes (h : Tallied s m) :
    (m.wal.map (·.bytes)) = m.walObjects.map s.sizeOf := by
  rw [Manifest.walObjects, List.map_map]
  refine List.map_congr_left fun e he => ?_
  obtain ⟨rs, hrs, -, hsize⟩ := h.wal e he
  obtain ⟨p, hp, hb⟩ := hrs
  rw [Function.comp, Store.HasBlob.sizeOf ⟨p, hp, hb⟩, hsize]

/-- The sum of the sizes of the referenced objects. -/
theorem Tallied.totalBytes (h : Tallied s m) (hb : WellBuilt s m) :
    m.totalBytes = (m.referenced.map s.sizeOf).sum := by
  have hsegments : m.allSegments.map (·.bytes) =
      (m.allSegments.map fun e => ObjectName.data e.name).map s.sizeOf := by
    rw [List.map_map]
    refine List.map_congr_left fun e he => ?_
    obtain ⟨docs, hdocs, -, hsize⟩ := hb.segments e he
    rw [Function.comp, hdocs.sizeOf, hsize]
  have hindexes : (m.allIndexes.map (·.bytes)).sum =
      ((m.allIndexes.flatMap fun i => i.objects.map ObjectName.data).map s.sizeOf).sum := by
    rw [List.map_flatMap, List.flatMap_def, List.sum_flatten, List.map_map]
    refine congrArg List.sum (List.map_congr_left fun i hi => ?_)
    rw [(hb.indexAccounts i hi).bytes, Function.comp, List.map_map]
    rfl
  rw [Manifest.totalBytes, Manifest.unindexedBytes, Manifest.segmentBytes, Manifest.indexBytes,
    h.walSizes, hsegments, hindexes, Manifest.referenced, List.map_append, List.map_append,
    List.sum_append, List.sum_append, Manifest.walObjects]

/-- **The accounts are right** exactly when the counts fit. -/
theorem Tallied.accounts (h : Tallied s m) (hb : WellBuilt s m) : Accounts s m ↔ CountsFit s m := by
  constructor
  · intro ha name hname
    rcases List.mem_append.mp hname with hwal | hseg
    · obtain ⟨e, he, rfl⟩ := List.mem_map.mp hwal
      obtain ⟨rs, hrs, hcount, -⟩ := h.wal e he
      obtain ⟨rs', hrs', hcount', -⟩ := ha.wal e he
      rw [hrs'.countOf, Blob.count, ← hcount', hcount]
      exact Nat.mod_lt _ (by decide)
    · obtain ⟨e, he, rfl⟩ := List.mem_map.mp hseg
      obtain ⟨docs, hdocs, hcount, -⟩ := hb.segments e he
      obtain ⟨docs', hdocs', hcount', -⟩ := ha.segments e he
      rw [hdocs'.countOf, upserts, Blob.count, List.length_map, ← hcount', hcount]
      exact Nat.mod_lt _ (by decide)
  · intro hfit
    refine ⟨fun e he => ?_, fun e he => ?_, hb.indexAccounts, ?_, ?_⟩
    · obtain ⟨rs, hrs, hcount, hsize⟩ := h.wal e he
      have hlt := hfit _ (List.mem_append_left _ (List.mem_map_of_mem he))
      rw [hrs.countOf] at hlt
      exact ⟨rs, hrs, hcount.trans (asU32_of_lt hlt), hsize⟩
    · obtain ⟨docs, hdocs, hcount, hsize⟩ := hb.segments e he
      have hlt := hfit _ (List.mem_append_right _ (List.mem_map_of_mem he))
      rw [hdocs.countOf, upserts, Blob.count, List.length_map] at hlt
      exact ⟨docs, hdocs, hcount.trans (asU32_of_lt hlt), hsize⟩
    · rw [Manifest.unindexedBytes, h.walSizes, List.sum_toFinset _ h.nodup_walObjects]
    · rw [h.totalBytes hb, List.sum_toFinset _ h.nodup_referenced]

end Numbers

/-- **The manifest's numbers are right, in every interleaving**, exactly when no WAL entry and no segment has
more records than 32 bits can count. -/
theorem Reaches.accounts_iff [Crates] [HashOrder] {ok : Terms} {p : Namespace} (h : Reaches ok p) :
    Accounts p.shared p.shared.manifest ↔ CountsFit p.shared p.shared.manifest :=
  h.tallied.accounts h.wellBuilt

theorem steadyRun_accounts :
    let _ := Crates.inert
    let _ := HashOrder.sorted
    ∃ p, execute service.step ⟨{}, []⟩ steadyRun = some p ∧ p.shared.manifest.wal.length = 1 ∧
      p.shared.manifest.shards.length = 1 ∧ Accounts p.shared p.shared.manifest := by
  intro _ _
  have hrun : (execute service.step ⟨{}, []⟩ steadyRun).any (fun p => p.shared.manifest.wal.length = 1 ∧
      p.shared.manifest.shards.length = 1 ∧ CountsFit p.shared p.shared.manifest) = true := by
    decide +kernel
  obtain ⟨p, hp, hp'⟩ := (Option.any_eq_true _ _).mp hrun
  obtain ⟨hwal, hshards, hfit⟩ := of_decide_eq_true hp'
  exact ⟨p, hp, hwal, hshards, (Reaches.accounts_iff (.any hp)).mpr hfit⟩

/-! ## More documents than 32 bits can count -/

/-- **A segment of 2^32 + 1 documents** is recorded as one document. -/
theorem wide_segment_not_accounts :
    let _ := Crates.inert
    let _ := HashOrder.sorted
    ∃ p, Reaches anyTerms p ∧ ¬ Accounts p.shared p.shared.manifest := by
  intro _ _
  obtain ⟨p, idx, schema, t, hp, -, -, -, hone⟩ := soughtRun_searched sought_after_everyOrdinal
  refine ⟨p, hp, fun ha => ?_⟩
  obtain ⟨shard, hshards, -, hreads⟩ := (hone (.sparse "s" soughtVector)).one
  have hshard : shard ∈ p.shared.manifest.shards := hshards ▸ List.mem_singleton_self _
  obtain ⟨docs, -, hb⟩ := hp.wellBuilt.built shard hshard
  have hlen : everyOrdinal.length < docs.length := by
    have hdocs := congrArg List.length (hreads.unique hb.reads)
    rw [List.length_map, List.length_map, soughtDocs, List.length_append, List.length_map,
      List.length_singleton] at hdocs
    omega
  rw [length_everyOrdinal] at hlen
  -- the shard has a segment, as it has documents
  obtain ⟨t', schema', buildIndex, hbuilt⟩ := hb
  obtain ⟨rfl, -⟩ | ⟨seg, hseg, hsegments⟩ := hbuilt.segment
  · exact absurd hlen (Nat.not_lt_zero _)
  · have hobject : ObjectName.data seg ∈ p.shared.manifest.segmentObjects := by
      rw [Manifest.segmentObjects, Manifest.allSegments, hshards, List.flatMap_singleton, hsegments]
      exact List.mem_singleton_self _
    have hcount := (hp.tallied.accounts hp.wellBuilt).mp ha _ (List.mem_append_right _ hobject)
    rw [hseg.hasBlob.countOf, upserts, Blob.count, List.length_map] at hcount
    exact hcount.not_gt hlen

end Fckdb
