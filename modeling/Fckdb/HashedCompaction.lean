import Fckdb.AttrIndexSpec
import Fckdb.Lib.Hashing
import Fckdb.Sharding
import Fckdb.TextMatch

/-! # What a compaction writes

A compaction collects the live set, the postings of each full-text attribute and those of each sparse
attribute in hash maps. Here it is with the orders in which these are gone through, and they make no
difference (`compaction_deterministic`). -/

namespace Fckdb

/-! ## The builders -/

/-- `per_doc`: the positions of each token. -/
def perDoc (tokens : List String) : SortedMap String (List Nat) :=
  tokens.zipIdx.foldl (fun acc p => acc.insert p.1 ((acc.get p.1).getD [] ++ [asU32 p.2])) .empty

section Builders

variable [Crates] (o : Iterations)

/-- `FtsIndex::build`: the positions of the `n`-th text are in hash map `n + 1`, and all postings in hash
map `0`. -/
def FtsIndex.buildHashed (docs : List (Nat × String)) (totalDocs : Nat) (config : FtsConfig) : FtsIndex :=
  let postings : SortedMap String (List Posting) := docs.zipIdx.foldl (fun acc d =>
    (o.iter (d.2 + 1) (perDoc (config.tokenizer.tokenize d.1.2))).foldl (fun acc e =>
      acc.insert e.1 ((acc.get e.1).getD [] ++ [⟨d.1.1, e.2⟩])) acc) .empty
  let docLengths := docs.foldl (fun acc d =>
    acc.set d.1 (asU32 (config.tokenizer.tokenize d.2).length)) (List.replicate totalDocs 0)
  { terms := ((o.iter 0 postings).insertionSort fun a b => a.1 ≤ b.1).map fun t =>
      (t.1, t.2.insertionSort fun a b => a.ordinal ≤ b.ordinal)
    docLengths
    avgdl := if docLengths.isEmpty then Scalar.zero
      else Scalar.div (Scalar.ofNat docLengths.sum) (Scalar.ofNat docLengths.length)
    tokenizer := config.tokenizer
    params := config.params }

omit [Crates] in
/-- `SparseIndex::build`. -/
def SparseIndex.buildHashed (docs : List (Nat × SortedMap String F32)) (docCount : Nat) : SparseIndex where
  dims :=
    ((o.iter 0 (docs.foldl (fun postings d => addWeights postings d.1 d.2) .empty)).insertionSort
      fun a b => a.1 ≤ b.1).map fun e => (e.1, e.2.insertionSort fun a b => a.1 ≤ b.1)
  docCount

omit [Crates] in
theorem SparseIndex.buildHashed_eq (docs : List (Nat × SortedMap String F32)) (docCount : Nat) :
    buildHashed o docs docCount = build docs docCount := by
  rw [buildHashed, o.sort_iter]
  rfl

omit [Crates] in
/-- The positions of the tokens that occur. -/
theorem get_perDoc (tokens : List String) (token : String) :
    (perDoc tokens).get token = if token ∈ tokens then some (positionsOf tokens token) else none := by
  have hfile : perDoc tokens = fileAll .empty (tokens.zipIdx.map fun p => (p.1, asU32 p.2)) := by
    rw [perDoc, fileAll, List.foldl_map]
  have hjoin : perDoc tokens = joinAll (fun p : String × Nat => p.1)
      (fun entry p => entry.getD [] ++ [asU32 p.2]) .empty tokens.zipIdx := rfl
  have hsome : ((perDoc tokens).get token).isSome = true ↔ token ∈ tokens := by
    rw [hjoin, isSome_get_joinAll]
    constructor
    · rintro ⟨p, hp, rfl⟩
      exact List.fst_mem_of_mem_zipIdx hp
    · intro hmem
      obtain ⟨i, hi⟩ := List.mem_iff_getElem?.mp hmem
      exact ⟨(token, i), List.mk_mem_zipIdx_iff_getElem?.mpr hi, rfl⟩
  have hget : ((perDoc tokens).get token).getD [] = positionsOf tokens token := by
    rw [hfile, get_fileAll, SortedMap.get_empty, Option.getD_none, List.nil_append, List.filter_map,
      List.map_map, positionsOf]
    rfl
  cases h : (perDoc tokens).get token with
  | none => rw [if_neg fun hmem => by simpa [h] using hsome.mpr hmem]
  | some l =>
      rw [h, Option.getD_some] at hget
      rw [if_pos (hsome.mp (by rw [h]; rfl)), hget]

omit [Crates] in
/-- One document's tokens, each with its positions. -/
theorem perDoc_perm (tokens : List String) : (perDoc tokens).entries.Perm
    (tokens.dedup.map fun token => (token, positionsOf tokens token)) := by
  refine (List.perm_ext_iff_of_nodup (perDoc tokens).nodup_entries
    ((List.nodup_dedup tokens).map fun a b h => (Prod.mk.inj h).1)).mpr fun e => ?_
  rw [← SortedMap.get_eq_some_iff (k := e.1) (v := e.2), get_perDoc]
  simp only [List.mem_map, List.mem_dedup]
  constructor
  · intro h
    split_ifs at h with hmem
    exact ⟨e.1, hmem, by rw [Option.some.inj h]⟩
  · rintro ⟨token, hmem, rfl⟩
    rw [if_pos hmem]

theorem FtsIndex.buildHashed_eq (docs : List (Nat × String)) (totalDocs : Nat) (config : FtsConfig) :
    buildHashed o docs totalDocs config = build docs totalDocs config := by
  -- the postings of one document are filed in any order
  have hdoc (acc : SortedMap String (List Posting)) (i n : Nat) (tokens : List String) :
      (o.iter i (perDoc tokens)).foldl (fun acc e =>
        acc.insert e.1 ((acc.get e.1).getD [] ++ [⟨n, e.2⟩])) acc = addPostings acc n tokens := by
    have hfile (l : List (String × List Nat)) : l.foldl (fun acc e =>
        acc.insert e.1 ((acc.get e.1).getD [] ++ [⟨n, e.2⟩])) acc =
          fileAll acc (l.map fun e => (e.1, (⟨n, e.2⟩ : Posting))) := by
      rw [fileAll, List.foldl_map]
    have hperm := ((o.perm i (perDoc tokens)).trans (perDoc_perm tokens)).map
      fun e => (e.1, (⟨n, e.2⟩ : Posting))
    rw [hfile, fileAll_perm acc hperm, fileAll, List.foldl_map, List.foldl_map]
    · rfl
    · rw [List.map_map, List.map_map]
      exact (List.nodup_dedup tokens).map fun a b h => h
  have hpostings (acc : SortedMap String (List Posting)) (start : Nat) :
      (docs.zipIdx start).foldl (fun acc d =>
        (o.iter (d.2 + 1) (perDoc (config.tokenizer.tokenize d.1.2))).foldl (fun acc e =>
          acc.insert e.1 ((acc.get e.1).getD [] ++ [⟨d.1.1, e.2⟩])) acc) acc =
        docs.foldl (fun acc d => addPostings acc d.1 (config.tokenizer.tokenize d.2)) acc := by
    induction docs generalizing acc start with
    | nil => rfl
    | cons d docs ih => rw [List.zipIdx_cons, List.foldl_cons, List.foldl_cons, ih, hdoc]
  rw [buildHashed, hpostings, o.sort_iter]
  rfl

end Builders

/-! ## The objects of a shard -/

/-- The orders of a compaction: of the live set, and of each attribute's postings in each shard. -/
structure CompactionOrders where
  live : Iterations
  fts : Nat → String → Iterations
  sparse : Nat → String → Iterations

/-- The objects of an index, with the attributes they are for. -/
structure IndexObjects where
  centroids : List F32
  clusters : List (List Doc)
  ids : List Id
  attributes : List (String × AttrIndex)
  fts : List (String × FtsIndex)
  sparse : List (String × SparseIndex)
  deriving DecidableEq

/-- The objects of a shard: a segment, and perhaps an index. -/
structure ShardObjects where
  segment : List Record
  index : Option IndexObjects
  deriving DecidableEq

/-- The objects as they are written: the segment and the centroids first, the others all at once. -/
def ShardObjects.writes (x : ShardObjects) : List Write :=
  ⟨.bin, .records x.segment⟩ :: match x.index with
    | none => []
    | some i => ⟨.cen, .centroids i.centroids⟩ :: (i.clusters.map (fun g => ⟨.clu, upserts g⟩) ++
        [⟨.ids, .ids i.ids⟩] ++ (i.attributes.map (fun p => ⟨.att, .attr p.2⟩) ++
          i.fts.map (fun p => ⟨.fts, .fts p.2⟩) ++ i.sparse.map fun p => ⟨.spx, .sparse p.2⟩))

/-- Their bytes. -/
def ShardObjects.bytes (x : ShardObjects) : List (Ext × Bytes) := x.writes.map fun w => (w.ext, w.blob.encode)

section Objects

variable [Crates] (o : CompactionOrders) (shard : Nat) (docs : List Doc) (schema : Schema)

/-- The index objects of shard number `shard`. -/
def indexObjects (flat : List F32) (groups : List (List Doc)) : IndexObjects where
  centroids := flat
  clusters := groups
  ids := docs.map Doc.id
  attributes := attrIndexes schema.attributes docs
  fts := (schema.fts.entries.map fun e => (e.1, FtsIndex.buildHashed (o.fts shard e.1)
    (attributeTexts docs e.1) docs.length e.2)).filter fun p => !p.2.isEmpty
  sparse := ((schema.attributes.entries.filter fun e => e.2 = .sparseF16).map fun e =>
    (e.1, SparseIndex.buildHashed (o.sparse shard e.1) (attributeVectors docs e.1) docs.length)).filter
      fun p => !p.2.isEmpty

/-- `build_shard`: the objects of shard number `shard`. -/
def shardObjects (buildIndex : Bool) : Except Error (Option ShardObjects) := do
  if docs = [] then return none
  else if buildIndex then
    let (flat, groups) ← ivfBuild docs
      ((IvfParams.forDocs docs.length).withMetric schema.distanceMetric)
    return some ⟨docs.map .upsert, some (indexObjects o shard docs schema flat groups)⟩
  else return some ⟨docs.map .upsert, none⟩

/-- `compact`: the documents of the live set, sorted by their ids. -/
def sortedDocs (live : Live) : List Doc :=
  ((o.live.iter 0 live).map (·.2)).insertionSort fun a b => a.id ≤ b.id

/-- **`compact`**: the objects of each shard. -/
def compactionObjects (records : List Record) (buildIndex : Bool) :
    List (Except Error (Option ShardObjects)) :=
  (buckets (sortedDocs o (materialize records)) schema.shards).zipIdx.map fun b =>
    shardObjects o b.2 b.1 schema buildIndex

/-! ## The orders do not matter -/

omit [Crates] in
/-- **The documents are those of the live set**, in the order of their ids. -/
theorem sortedDocs_eq {live : Live} (h : live.WellKeyed) : sortedDocs o live = live.values := by
  refine insertionSort_of_perm ((o.live.perm 0 live).map _) (List.pairwise_map.mpr ?_)
  refine live.sorted.imp_of_mem fun {a b} ha hb hlt => ?_
  rw [h a.1 a.2 (SortedMap.get_eq_some_iff.mpr ha), h b.1 b.2 (SortedMap.get_eq_some_iff.mpr hb)]
  exact hlt

/-- The objects of an index are those that are built in the order of the keys. -/
theorem indexObjects_eq (flat : List F32) (groups : List (List Doc)) :
    indexObjects o shard docs schema flat groups = ⟨flat, groups, docs.map Doc.id,
      attrIndexes schema.attributes docs, ftsIndexes schema.fts docs,
      sparseIndexes schema.attributes docs⟩ := by
  simp only [indexObjects, FtsIndex.buildHashed_eq, SparseIndex.buildHashed_eq]
  rfl

/-- **A shard's objects do not depend on the orders.** -/
theorem shardObjects_eq (o' : CompactionOrders) (shard' : Nat) (buildIndex : Bool) :
    shardObjects o shard docs schema buildIndex = shardObjects o' shard' docs schema buildIndex := by
  simp only [shardObjects, indexObjects_eq]

end Objects

/-! ## What the ordinals address -/

/-- The ordinal `n` is of one document, in the segment and in the ids, and it is one for which `P` holds.
A shard of more documents than an ordinal can count still has a document there, maybe another one. -/
def ShardObjects.Addresses (x : ShardObjects) (ids : List Id) (n : Nat) (P : Doc → Prop) : Prop :=
  ∃ d, x.segment[n]? = some (.upsert d) ∧ ids[n]? = some d.id ∧ (x.segment.length ≤ 2 ^ 32 → P d)

section Numbered

variable [Crates]

/-- **One numbering**: the segment holds documents, the ids object their ids, and every ordinal of an
index addresses a document that has what it is filed under. -/
structure ShardObjects.Numbered (x : ShardObjects) (i : IndexObjects) : Prop where
  ids : i.ids = x.segment.map Record.id
  attributes : ∀ p ∈ i.attributes, ∀ e ∈ p.2.entries, ∀ n ∈ e.2, x.Addresses i.ids n fun d =>
    ∃ v part, d.attrs.get p.1 = some v ∧ part ∈ indexParts v ∧ debugKey part = debugKey e.1
  fts : ∀ p ∈ i.fts, p.2.docLengths.length = x.segment.length ∧ ∀ e ∈ p.2.terms, ∀ posting ∈ e.2,
    x.Addresses i.ids posting.ordinal fun d => ∃ text, textOf p.1 d = some text ∧
      e.1 ∈ p.2.tokenizer.tokenize text ∧
      posting.positions = positionsOf (p.2.tokenizer.tokenize text) e.1
  sparse : ∀ p ∈ i.sparse, ∀ e ∈ p.2.dims, ∀ posting ∈ e.2, x.Addresses i.ids posting.1 fun d =>
    ∃ v, vectorOf p.1 d = some v ∧ v.get e.1 = some posting.2

variable {docs : List Doc} {n : Nat}

omit [Crates] in
/-- An ordinal that was taken of a document addresses one. -/
theorem exists_ordinal {α : Type} {f : Doc → Option α} {a : α}
    (h : (n, a) ∈ docs.zipIdx.filterMap fun p => (f p.1).map (asU32 p.2, ·)) :
    ∃ d, docs[n]? = some d ∧ (docs.length ≤ 2 ^ 32 → f d = some a) := by
  obtain ⟨⟨d, i⟩, hp, heq⟩ := List.mem_filterMap.mp h
  obtain ⟨a, ha, heq⟩ := Option.map_eq_some_iff.mp heq
  obtain ⟨rfl, rfl⟩ := Prod.mk.inj heq
  have hd : docs[i]? = some d := List.mk_mem_zipIdx_iff_getElem?.mp hp
  have hi : i < docs.length := (List.getElem?_eq_some_iff.mp hd).1
  have hn : asU32 i < docs.length := (Nat.mod_le i _).trans_lt hi
  refine ⟨docs[asU32 i], List.getElem?_eq_getElem hn, fun hlen => ?_⟩
  have hsame : docs[asU32 i]? = some d := by rw [asU32_of_lt (hi.trans_le hlen), hd]
  rw [List.getElem?_eq_getElem hn] at hsame
  rw [Option.some.inj hsame, ha]

omit [Crates] in
/-- It is one numbering for the segment and the ids. -/
theorem addresses_of_mem {α : Type} {f : Doc → Option α} {a : α} {index : Option IndexObjects}
    (h : (n, a) ∈ docs.zipIdx.filterMap fun p => (f p.1).map (asU32 p.2, ·)) {P : Doc → Prop}
    (hP : ∀ d, f d = some a → P d) :
    (⟨docs.map .upsert, index⟩ : ShardObjects).Addresses (docs.map Doc.id) n P := by
  obtain ⟨d, hd, hf⟩ := exists_ordinal h
  refine ⟨d, ?_, ?_, fun hlen => hP d (hf ?_)⟩
  · rw [List.getElem?_map, hd]
    rfl
  · rw [List.getElem?_map, hd]
    rfl
  · rwa [List.length_map] at hlen

/-! ### What an entry is about -/

omit [Crates] in
/-- An ordinal of an attribute index was given with a value that has the part it is filed under. -/
theorem AttrIndex.mem_entries {key : String} {e : Value × List Nat} (he : e ∈ (attrIndexOf docs key).entries)
    (hn : n ∈ e.2) : ∃ v part, (n, v) ∈ attributeValues docs key ∧ part ∈ indexParts v ∧
      debugKey part = debugKey e.1 := by
  obtain ⟨part, hpart, hfirst⟩ := (AttrIndex.mem_entry_ords he).mp hn
  obtain ⟨p, hp, hmap⟩ := List.mem_flatMap.mp hpart
  obtain ⟨part', hmem, heq⟩ := List.mem_map.mp hmap
  obtain ⟨rfl, rfl⟩ := Prod.mk.inj heq
  exact ⟨p.2, part', List.mem_of_mem_filter hp, hmem, by rw [← hfirst, debugKey_firstAlike]⟩

omit [Crates] in
/-- A posting of a sparse index was given with a vector that has its weight. -/
theorem SparseIndex.mem_dims {vectors : List (Nat × SortedMap String F32)} {count : Nat}
    {e : String × List (Nat × F32)} (he : e ∈ (build vectors count).dims) {p : Nat × F32} (hp : p ∈ e.2) :
    ∃ v, (p.1, v) ∈ vectors ∧ v.get e.1 = some p.2 := by
  rw [build_dims] at he
  obtain ⟨f, hf, rfl⟩ := List.mem_map.mp he
  have hfiled := mem_of_mem_fileAll hf ((List.perm_insertionSort _ _).mem_iff.mp hp)
  obtain ⟨d, hd, hw⟩ := List.mem_flatMap.mp hfiled
  obtain ⟨w, hentry, heq⟩ := List.mem_map.mp hw
  obtain ⟨hdim, heq⟩ := Prod.mk.inj heq
  subst heq
  exact ⟨d.2, hd, hdim ▸ SortedMap.get_eq_some_iff.mpr (List.mem_of_mem_filter hentry)⟩

/-- A posting of a full-text index was given with a text that has the term where it says. -/
theorem FtsIndex.mem_terms {texts : List (Nat × String)} {total : Nat} {config : FtsConfig}
    {e : String × List Posting} (he : e ∈ (build texts total config).terms) {p : Posting} (hp : p ∈ e.2) :
    ∃ text, (p.ordinal, text) ∈ texts ∧ e.1 ∈ config.tokenizer.tokenize text ∧
      p.positions = positionsOf (config.tokenizer.tokenize text) e.1 := by
  rw [build_terms] at he
  obtain ⟨f, hf, rfl⟩ := List.mem_map.mp he
  have hfiled := mem_of_mem_fileAll hf ((List.perm_insertionSort _ _).mem_iff.mp hp)
  obtain ⟨d, hd, hoccurs⟩ := List.mem_flatMap.mp hfiled
  obtain ⟨token, htoken, heq⟩ := List.mem_map.mp hoccurs
  obtain ⟨hterm, rfl⟩ := Prod.mk.inj heq
  subst hterm
  exact ⟨d.2, hd, List.mem_dedup.mp htoken, rfl⟩

/-- **The objects of a shard have one numbering.** -/
theorem shardObjects_numbered {o : CompactionOrders} {shard : Nat} {schema : Schema} {buildIndex : Bool}
    {x : ShardObjects} {i : IndexObjects} (h : shardObjects o shard docs schema buildIndex = .ok (some x))
    (hi : x.index = some i) : x.Numbered i := by
  -- there is an index of some documents
  have hx : ∃ flat groups, x = ⟨docs.map .upsert, some ⟨flat, groups, docs.map Doc.id,
      attrIndexes schema.attributes docs, ftsIndexes schema.fts docs,
      sparseIndexes schema.attributes docs⟩⟩ := by
    rw [shardObjects] at h
    split_ifs at h with hnil hbuild
    · cases h
    · obtain ⟨⟨flat, groups⟩, -, h⟩ := bind_eq_ok.mp h
      obtain rfl := Option.some.inj (Except.ok.inj h)
      exact ⟨flat, groups, by rw [indexObjects_eq]⟩
    · obtain rfl := Option.some.inj (Except.ok.inj h)
      cases hi
  obtain ⟨flat, groups, rfl⟩ := hx
  obtain rfl := Option.some.inj hi
  refine ⟨?_, fun p hp e he n hn => ?_, fun p hp => ⟨?_, fun e he posting hposting => ?_⟩,
    fun p hp e he posting hposting => ?_⟩
  · dsimp only
    rw [List.map_map]
    rfl
  · obtain ⟨key, -, rfl⟩ := List.mem_map.mp (List.mem_of_mem_filter hp)
    obtain ⟨v, part, hv, hpart, hkey⟩ := AttrIndex.mem_entries he hn
    exact addresses_of_mem hv fun d hd => ⟨v, part, hd, hpart, hkey⟩
  · obtain ⟨c, -, rfl⟩ := List.mem_map.mp (List.mem_of_mem_filter hp)
    dsimp only
    rw [FtsIndex.length_docLengths, List.length_map]
  · obtain ⟨c, -, rfl⟩ := List.mem_map.mp (List.mem_of_mem_filter hp)
    obtain ⟨text, htext, hterm, hpositions⟩ := FtsIndex.mem_terms he hposting
    exact addresses_of_mem htext fun d hd => ⟨text, hd, hterm, hpositions⟩
  · obtain ⟨c, -, rfl⟩ := List.mem_map.mp (List.mem_of_mem_filter hp)
    obtain ⟨v, hv, hw⟩ := SparseIndex.mem_dims he hposting
    have hvector : attributeVectors docs c.1 = docs.zipIdx.filterMap fun p =>
        (vectorOf c.1 p.1).map (asU32 p.2, ·) := by
      refine List.filterMap_congr fun p _ => ?_
      rw [vectorOf]
      cases p.1.attrs.get c.1 with
      | none => rfl
      | some v => cases v <;> rfl
    rw [hvector] at hv
    exact addresses_of_mem hv fun d hd => ⟨v, hd, hw⟩

end Numbered

/-! ## Compactions -/

section Compactions

variable [Crates]

/-- **A shard that a compaction built** holds these objects and no others. -/
theorem ShardBuilt.holds {s : Store} {t : Nat} {schema : Schema} {docs : List Doc} {buildIndex : Bool}
    {shard : Shard} (h : ShardBuilt s t schema docs buildIndex shard) (o : CompactionOrders) (i : Nat) :
    ∃ x, shardObjects o i docs schema buildIndex = .ok x ∧
      ∃ names, List.Forall₂ (fun w name => s.Wrote t (.data name) w.blob)
        (x.toList.flatMap ShardObjects.writes) names ∧
        ∀ name ∈ shard.objects, ∃ n ∈ names, name = .data n := by
  rw [ShardBuilt] at h
  rw [shardObjects]
  split_ifs at h ⊢ with hnil hbuild
  · subst h
    exact ⟨none, rfl, [], .nil, fun _ hname => absurd hname List.not_mem_nil⟩
  · obtain ⟨seg, index, hseg, rfl, i, rfl, flat, groups, centroids, names, hivf, hcen, hnames, rfl⟩ := h
    rw [hivf]
    refine ⟨_, rfl, seg :: centroids :: names, ?_, ?_⟩
    · rw [indexObjects_eq, Option.toList_some, List.flatMap_singleton]
      exact .cons hseg (.cons hcen hnames)
    · intro name hname
      rcases List.mem_append.mp hname with hmem | hmem
      · obtain rfl := List.mem_singleton.mp hmem
        exact ⟨seg, List.mem_cons_self, rfl⟩
      · rw [Option.toList_some, List.flatMap_singleton] at hmem
        obtain ⟨n, hn, rfl⟩ := List.mem_map.mp hmem
        refine ⟨n, List.mem_cons_of_mem _ ?_, rfl⟩
        rcases mem_objects_indexMeta hn with rfl | hmem
        · exact List.mem_cons_self
        · exact List.mem_cons_of_mem _ hmem
  · obtain ⟨seg, index, hseg, rfl, rfl⟩ := h
    refine ⟨_, rfl, [seg], ?_, ?_⟩
    · rw [Option.toList_some, List.flatMap_singleton]
      exact .cons hseg .nil
    · intro name hname
      obtain rfl := List.mem_singleton.mp hname
      exact ⟨seg, List.mem_cons_self, rfl⟩

/-- The bytes of the objects of each shard. -/
def compactionBytes (o : CompactionOrders) (schema : Schema) (records : List Record) (buildIndex : Bool) :
    List (Except Error (Option (List (Ext × Bytes)))) :=
  (compactionObjects o schema records buildIndex).map fun r => r.map fun x => x.map ShardObjects.bytes

/-- **What a compaction writes depends only on the live set**: records that stand for the same documents
become the same bytes, whatever the orders in which the hash maps are gone through, and the objects of
each shard have one numbering. -/
theorem compaction_deterministic {records records' : List Record}
    (hlive : materialize records = materialize records') (o o' : CompactionOrders) (schema : Schema)
    (buildIndex : Bool) :
    compactionBytes o schema records buildIndex = compactionBytes o' schema records' buildIndex ∧
      ∀ x i, .ok (some x) ∈ compactionObjects o schema records buildIndex → x.index = some i →
        x.Numbered i := by
  refine ⟨?_, fun x i hx hi => ?_⟩
  · rw [compactionBytes, compactionBytes, compactionObjects, compactionObjects,
      sortedDocs_eq o (materialize_wellKeyed records), sortedDocs_eq o' (materialize_wellKeyed records'),
      hlive]
    congr 1
    exact List.map_congr_left fun b _ => shardObjects_eq o b.2 b.1 schema o' b.2 buildIndex
  · obtain ⟨b, -, hb⟩ := List.mem_map.mp hx
    exact shardObjects_numbered hb hi

end Compactions

/-- A document with a text and a sparse vector. -/
def Doc.described (n : UInt64) (text : String) (weights : SortedMap String F32) : Doc :=
  ⟨.uint n, [⟨0⟩], .ofList [("text", .string text), ("weights", .sparse weights)]⟩

/-- Full-text search in one attribute, sparse search in another. -/
def describedSchema : Schema :=
  { attributes := .ofList [("text", .string), ("weights", .sparseF16)]
    fts := .ofList [("text", {})] }

/-- Two documents, written in either order, and hash maps that go up or down. -/
theorem described_deterministic :
    let _ := Crates.inert
    let first := Doc.described 1 "rose red" (.ofList [("x", ⟨0x3f800000⟩), ("y", ⟨0x3f800000⟩)])
    let second := Doc.described 2 "red sea" (.ofList [("y", ⟨0x40000000⟩)])
    let up : CompactionOrders := ⟨.ascending, fun _ _ => .ascending, fun _ _ => .ascending⟩
    let down : CompactionOrders := ⟨.descending, fun _ _ => .descending, fun _ _ => .descending⟩
    compactionBytes up describedSchema [.upsert first, .upsert second] true =
      compactionBytes down describedSchema [.upsert second, .upsert first] true := by
  intro _ first second up down
  exact (compaction_deterministic (by decide +kernel) up down describedSchema true).1

end Fckdb
