import Fckdb.Fts
import Fckdb.IndexFormat
import Fckdb.Namespace

/-! # Compaction

`compact` folds the records into one segment for each shard, builds the indexes, and installs the new
shards if the old ones are still in place. -/

namespace Fckdb

/-! ## The indexes of a segment -/

/-- The texts of one attribute, with the ordinals of their documents. -/
def attributeTexts (docs : List Doc) (key : String) : List (Nat × String) :=
  docs.zipIdx.filterMap fun p =>
    ((p.1.attrs.get key).bind attributeText).map (asU32 p.2, ·)

/-- The sparse vectors of one attribute, with the ordinals of their documents. -/
def attributeVectors (docs : List Doc) (key : String) : List (Nat × SortedMap String F32) :=
  docs.zipIdx.filterMap fun p =>
    match p.1.attrs.get key with
    | some (.sparse v) => some (asU32 p.2, v)
    | _ => none

/-- One sparse index per sparse attribute that indexes anything. -/
def sparseIndexes (attributes : SortedMap String Ty) (docs : List Doc) :
    List (String × SparseIndex) :=
  ((attributes.entries.filter fun e => e.2 = .sparseF16).map fun e =>
    (e.1, SparseIndex.build (attributeVectors docs e.1) docs.length)).filter fun p => !p.2.isEmpty

theorem sorted_sparseIndexes (attributes : SortedMap String Ty) (docs : List Doc) :
    (sparseIndexes attributes docs).Pairwise (fun a b => a.1 < b.1) :=
  .filter _ (List.pairwise_map.mpr (attributes.sorted.filter _))

variable [Crates]

/-- One full-text index per enabled attribute that indexes anything. -/
def ftsIndexes (fts : FtsSchema) (docs : List Doc) : List (String × FtsIndex) :=
  (fts.entries.map fun e =>
    (e.1, FtsIndex.build (attributeTexts docs e.1) docs.length e.2)).filter fun p => !p.2.isEmpty

theorem sorted_ftsIndexes (fts : FtsSchema) (docs : List Doc) :
    (ftsIndexes fts docs).Pairwise (fun a b => a.1 < b.1) :=
  .filter _ (List.pairwise_map.mpr fts.sorted)

/-! ## Building a shard -/

/-- An object to write: its extension and contents. -/
structure Write where
  ext : Ext
  blob : Blob

/-- PUT a data object under a fresh name. -/
def putData (w : Write) : Proc DataName := do
  let uuid ← putNew (fun u => .data ⟨u, w.ext⟩) w.blob
  return ⟨uuid, w.ext⟩

/-- A segment of upserts. -/
def upserts (docs : List Doc) : Blob := .records (docs.map .upsert)

/-- The objects written all at once after the centroids: the clusters, the ids, and the attribute,
full-text and sparse indexes. -/
def indexWrites (docs : List Doc) (groups : List (List Doc)) (schema : Schema) : List Write :=
  groups.map (fun g => ⟨.clu, upserts g⟩) ++ [⟨.ids, .ids (docs.map Doc.id)⟩] ++
    ((attrIndexes schema.attributes docs).map (fun p => ⟨.att, .attr p.2⟩) ++
      (ftsIndexes schema.fts docs).map (fun p => ⟨.fts, .fts p.2⟩) ++
      (sparseIndexes schema.attributes docs).map fun p => ⟨.spx, .sparse p.2⟩)

/-- The bytes of an object. -/
def Blob.encode : Blob → Bytes
  | .records rs => frameRecords rs
  | .centroids flat => flat.flatMap putF32
  | .ids xs => xs.flatMap Id.encode
  | .attr x => x.encode
  | .fts x => x.encodeWith x.tokenizer.toVec
  | .sparse x => x.encode

/-- The size of an object. -/
def Blob.size (blob : Blob) : Nat := blob.encode.length

/-- The total size of the objects of an index. -/
def indexBytes (docs : List Doc) (flat : List F32) (groups : List (List Doc)) (schema : Schema) :
    Nat :=
  (Blob.centroids flat).size + ((indexWrites docs groups schema).map (·.blob.size)).sum

/-- The index that names what was written. -/
def indexMeta (docs : List Doc) (dim bytes : Nat) (groups : List (List Doc)) (schema : Schema)
    (centroids : DataName) (names : List DataName) : IndexMeta :=
  let clusters := names.take groups.length
  let names := names.drop groups.length
  let ids := names.head?
  let names := names.drop 1
  let attrs := (attrIndexes schema.attributes docs).map (·.1)
  let fts := (ftsIndexes schema.fts docs).map (·.1)
  let sparse := (sparseIndexes schema.attributes docs).map (·.1)
  { dim
    centroids
    clusters
    docs := docs.length
    bytes
    ids
    attributes := .ofList (attrs.zip names)
    fts := .ofList (fts.zip (names.drop attrs.length))
    sparse := .ofList (sparse.zip (names.drop (attrs.length + fts.length))) }

/-- Write one shard's segment and indexes. -/
def buildShard (docs : List Doc) (buildIndex : Bool) (schema : Schema) : Proc Shard := do
  match docs with
  | [] => return {}
  | first :: _ =>
    let seg ← putData ⟨.bin, upserts docs⟩
    let segments : List SegmentEntry :=
      [⟨seg, (frameRecords (docs.map .upsert)).length, asU32 docs.length⟩]
    if buildIndex then
      let (flat, groups) ← .ofExcept
        (ivfBuild docs ((IvfParams.forDocs docs.length).withMetric schema.distanceMetric))
      let centroids ← putData ⟨.cen, .centroids flat⟩
      let names ← .tryJoinAll ((indexWrites docs groups schema).map putData)
      return ⟨segments, some (indexMeta docs first.vector.length
        (indexBytes docs flat groups schema) groups schema centroids names)⟩
    else return ⟨segments, none⟩

/-! ## Compacting -/

/-- What a compaction reports. -/
structure CompactResponse where
  recordsIn : Nat
  docsOut : Nat
  walConsumed : Nat
  clusters : Nat
  casAttempts : Nat
  deriving DecidableEq, Repr

/-- The manifest with the consumed entries gone and the new shards in place. -/
def Manifest.install (m : Manifest) (consumed : List WalName) (shards : List Shard) (now : Nat) :
    Manifest :=
  { m with wal := m.wal.filter fun e => e.name ∉ consumed, shards }.stamp now false

omit [Crates] in
@[simp] theorem Manifest.install_nextSeq (m : Manifest) (consumed : List WalName)
    (shards : List Shard) (now : Nat) : (m.install consumed shards now).nextSeq = m.nextSeq := rfl

omit [Crates] in
@[simp] theorem Manifest.install_wal (m : Manifest) (consumed : List WalName) (shards : List Shard)
    (now : Nat) : (m.install consumed shards now).wal =
      m.wal.filter fun e => e.name ∉ consumed := rfl

omit [Crates] in
@[simp] theorem Manifest.install_shards (m : Manifest) (consumed : List WalName)
    (shards : List Shard) (now : Nat) : (m.install consumed shards now).shards = shards := rfl

omit [Crates] in
@[simp] theorem Manifest.install_schema (m : Manifest) (consumed : List WalName)
    (shards : List Shard) (now : Nat) : (m.install consumed shards now).schema = m.schema := rfl

/-- Install the new shards, if the shards are still the ones they were built from. -/
def installLoop (handle : Nat) (base read : Option Nat) (consumed : List WalName)
    (consumedShards newShards : List Shard) : (left : Nat) → (attempt : Nat) → Proc Nat
  | 0, _ => .fail (.kinded .unavailable ("compaction could not commit after " ++
      toString maxCasAttempts ++ " attempts"))
  | left + 1, attempt => do
    let (current, version) ← load handle
    if current.shards ≠ consumedShards then
      .fail (.kinded .unavailable
        "another compaction committed concurrently; discarding this one")
    else
      let stamp ← now .stamp
      -- entries that arrived while compacting stay
      let current := current.install consumed newShards stamp
      match ← putManifest current (modeOf version) (.compaction base read) with
      | some v =>
        remember handle current (some v)
        return attempt
      | none => installLoop handle base read consumed consumedShards newShards left (attempt + 1)

/-- The documents of each shard, in id order. -/
def buckets (docs : List Doc) (count : Nat) : List (List Doc) :=
  (List.range count).map fun i => docs.filter fun d => shardOf d.id count = i

/-- The number of clusters of a list of shards. -/
def clusterCount (shards : List Shard) : Nat :=
  ((shards.filterMap (·.index)).map (·.clusters.length)).sum

/-- Nothing to fold and nothing to build. -/
def Manifest.compacted (m : Manifest) (buildIndex : Bool) : Bool :=
  let indexesPresent := !m.shards.isEmpty && m.shards.all fun s => s.index.isSome
  m.wal.isEmpty && (indexesPresent || !buildIndex) && !m.shards.isEmpty

/-- `compact`. -/
def compact (handle : Nat) (buildIndex : Bool) : Proc CompactResponse := do
  let (m, base) ← load handle
  if m.compacted buildIndex then
    return ⟨0, (m.allSegments.map (·.docs)).sum, 0, clusterCount m.shards, 0⟩
  else
    let consumed := m.wal.map (·.name)
    let (read, records) ← allRecords handle
    let docs := (materialize records).values
    let newShards ← .tryJoinAll ((buckets docs m.schema.shards).map fun bucket =>
      buildShard bucket buildIndex m.schema)
    let attempts ← installLoop handle base read consumed m.shards newShards maxCasAttempts 1
    return ⟨records.length, docs.length, consumed.length, clusterCount newShards, attempts⟩

end Fckdb
