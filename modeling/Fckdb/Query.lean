import Fckdb.Aggregate
import Fckdb.HashOrder
import Fckdb.Namespace
import Fckdb.Ranking
import Mathlib.Data.Finset.Sort

/-! # Queries

`query` ranks by vector similarity and aggregates; `query_brute` is the exhaustive scan it is measured
against. A ranked query goes through each shard with that shard's slice of the unindexed tail, by one of
three paths: the attribute index picks the candidates, the clusters around the query do, or every
document is scanned. -/

namespace Fckdb

/-! ## Requests and responses -/

/-- How fresh an answer has to be. -/
inductive Consistency
  | strong
  /-- From a snapshot no older than `maxAgeMs`. -/
  | eventual (maxAgeMs : Nat)
  deriving DecidableEq, Repr

/-- A query: a ranking by vector, aggregations, or both. -/
structure QueryRequest where
  vector : List F32
  topK : Nat := 10
  filter : Option Filter := none
  /-- Clusters to probe. -/
  nprobe : Nat := 8
  consistency : Consistency := .strong
  includeAttributes : Include := .none
  aggregateBy : Option (SortedMap String Agg) := none
  groupBy : List GroupKey := []

/-- The answer to a query. -/
structure QueryResponse where
  hits : List Hit
  consistent : Bool
  /-- The vector index was used. -/
  indexed : Bool
  /-- Every shard was answered from its attribute index and scored exactly. -/
  prefiltered : Bool
  aggregations : SortedMap String Value
  aggregationGroups : List AggregationGroup
  unindexedRecords : Nat
  unindexedBytes : Nat
  deriving DecidableEq

/-- `MAX_UNINDEXED_SCAN_BYTES`. -/
def maxUnindexedScanBytes : Nat := 128 * 2 ^ 20

/-- `WRITE_BACKPRESSURE_BYTES`. -/
def writeBackpressureBytes : Nat := maxUnindexedScanBytes / 2

/-! ## The prefilter -/

/-- `PREFILTER_MAX_CANDIDATES`. -/
def prefilterMaxCandidates : Nat := 8192

/-- `PREFILTER_SURVIVOR_MARGIN`. -/
def prefilterSurvivorMargin : Nat := 4

/-- Whether to scan the candidates of a filter exactly rather than probe clusters. -/
def shouldPrefilter (candidates docs clusters nprobe topK : Nat) : Bool :=
  if candidates > prefilterMaxCandidates then false
  else if clusters = 0 ∨ docs = 0 then true
  else
    let probedDocs := max (min (docs * max nprobe 1) (2 ^ 64 - 1) / clusters) 1
    if candidates ≤ probedDocs then true
    else
      let selectivity := Float.ofNat candidates / Float.ofNat docs
      let expectedSurvivors := Float.ofNat probedDocs * selectivity
      decide (expectedSurvivors < Float.ofNat (max topK 1 * prefilterSurvivorMargin))

namespace Filter

mutual

/-- The attributes a filter reads. -/
def keys : Filter → List String
  | and fs => keysAll fs
  | or fs => keysAll fs
  | not f => keys f
  | cmp key _ _ => [key]

/-- The attributes the operands of a connective read. -/
def keysAll : List Filter → List String
  | [] => []
  | f :: fs => keys f ++ keysAll fs

end

end Filter

/-- An attribute index from its object. -/
def readAttrIndex (name : DataName) : Proc AttrIndex := do
  match ← readBlob (.data name) with
  | .attr x => return x
  | _ => .fail (.bail "not an attribute index")

/-- The flattened centroids from their object. -/
def readCentroids (name : DataName) : Proc (List F32) := do
  match ← readBlob (.data name) with
  | .centroids flat => return flat
  | _ => .fail (.bail "not a centroid blob")

/-- The indexed attributes a filter reads, with their objects. -/
def indexTargets (idx : IndexMeta) (filter : Filter) : List (String × DataName) :=
  (filter.keys.insertionSort (· ≤ ·)).dedup.filterMap fun k => (idx.attributes.get k).map (k, ·)

/-- The attribute indexes a filter reads. -/
def loadAttrIndexes (idx : IndexMeta) (filter : Filter) : Proc (SortedMap String AttrIndex) := do
  let targets := indexTargets idx filter
  let indexes ← .tryJoinAll (targets.map fun t => readAttrIndex t.2)
  return .ofList ((targets.map (·.1)).zip indexes)

/-- The upserts at the chosen ordinals of a segment. -/
def upsertsAt (records : List Record) (ordinals : Finset Nat) : List Record :=
  (ordinals.sort (· ≤ ·)).filterMap fun o =>
    match records[o]? with
    | some (Record.upsert d) => some (Record.upsert d)
    | _ => none

/-! ## One shard -/

/-- What one shard contributed to a ranked query. -/
structure ShardOutcome where
  hits : List Hit
  indexed : Bool
  prefiltered : Bool

variable [Crates] [HashOrder]

/-- The hits among the documents of a live set. -/
def liveHits (req : QueryRequest) (filter : Option Filter) (schema : Schema) (live : Live) : List Hit :=
  topK live.hashValues req.vector req.topK filter req.includeAttributes schema.distanceMetric schema.fts

/-- The selection a query scans exactly, if it should. -/
def prefilterSelection (shard : Shard) (req : QueryRequest) (filter : Option Filter) :
    Proc (Option Selection) :=
  match shard.index, filter with
  | some idx, some f =>
    if idx.ids.isNone then return none
    else do
      let indexes ← loadAttrIndexes idx f
      match evaluate indexes (asU32 idx.docs) f with
      | none => return none
      | some sel =>
        if shouldPrefilter sel.ordinals.card idx.docs idx.clusters.length req.nprobe req.topK then
          return some sel
        else return none
  | _, _ => return none

/-- The records of the probed clusters. -/
def probedRecords (idx : IndexMeta) (req : QueryRequest) (metric : DistanceMetric) :
    Proc (List Record) :=
  if idx.dim ≠ req.vector.length then
    .fail (.bail ("query has " ++ toString req.vector.length ++ " dims, index has " ++
      toString idx.dim))
  else do
    let flat ← readCentroids idx.centroids
    let centroids ← .ofExcept (decodeCentroids flat idx.dim)
    let probed := probe centroids req.vector req.nprobe metric
    readRecordsParallel (probed.filterMap fun i => (idx.clusters[i]?).map .data)

/-- Rank one shard's documents, overlaid with its slice of the tail. -/
def shardHits (shard : Shard) (req : QueryRequest) (filter : Option Filter) (tail : List Record)
    (schema : Schema) : Proc ShardOutcome := do
  let segments := shard.segments.map fun s => ObjectName.data s.name
  match ← prefilterSelection shard req filter with
  | some sel =>
    let records ← readRecordsParallel segments
    let candidates := replay apply (materialize (upsertsAt records sel.ordinals)) tail
    return ⟨liveHits req filter schema candidates, true, true⟩
  | none =>
    match shard.index with
    | none =>
      let records ← readRecordsParallel segments
      return ⟨liveHits req filter schema (materialize (records ++ tail)), false, false⟩
    | some idx =>
      let records ← probedRecords idx req schema.distanceMetric
      return ⟨liveHits req filter schema (replay apply (materialize records) tail), true, false⟩

/-! ## Aggregating -/

section Aggregating

variable {N : Type} [Numbers N]

/-- Feed the matching documents of each shard, from shard `number` on, one shard at a time. -/
def aggregateShards (filter : Option Filter) (schema : Schema) (tail : List Record) :
    (number : Nat) → List Shard → Aggregator N → Proc (Aggregator N)
  | _, [], a => return a
  | number, shard :: rest, a => do
    let records ← readRecordsParallel (shard.segments.map fun s => .data s.name)
    -- this shard's slice of the tail
    let slice := tail.filter fun r => schema.shards ≤ 1 ∨ shardOf r.id schema.shards = number
    let docs := (materialize (records ++ slice)).hashValues.filter (passes filter schema.fts)
    let a ← .ofExcept (a.feedAll docs)
    aggregateShards filter schema tail (number + 1) rest a

/-- The aggregations of a query. -/
def aggregations (N : Type) [Numbers N] (req : QueryRequest) (filter : Option Filter) (m : Manifest)
    (tail : List Record) : Proc (SortedMap String Value × List AggregationGroup) :=
  match req.aggregateBy with
  | none => return (.empty, [])
  | some aggs => do
    let a : Aggregator N ← .ofExcept (Aggregator.new aggs req.groupBy)
    if m.shards.isEmpty then
      -- never compacted: everything lives in the tail
      let docs := (materialize tail).hashValues.filter (passes filter m.schema.fts)
      let a ← .ofExcept (a.feedAll docs)
      return a.finish
    else
      let a ← aggregateShards filter m.schema tail 0 m.shards a
      return a.finish

end Aggregating

/-! ## The query -/

/-- The remembered manifest, if the requested consistency allows it. -/
def cachedManifest (handle : Nat) : Consistency → Proc (Option Manifest)
  | .strong => return none
  | .eventual maxAgeMs => do
    let (snapshot, time) ← viewHandle handle
    return snapshot.bind fun s =>
      if time - s.takenAt ≤ maxAgeMs * 10 ^ 6 then some s.manifest else none

/-- The manifest under the requested consistency, and whether it came from a snapshot. -/
def loadWith (handle : Nat) (consistency : Consistency) : Proc (Manifest × Bool) := do
  match ← cachedManifest handle consistency with
  | some m => return (m, true)
  | none =>
    let (m, _) ← load handle
    return (m, false)

/-- The filter of a query, coerced to the schema. -/
def coerceFilter (schema : Schema) : Option Filter → Except Error (Option Filter)
  | none => .ok none
  | some f => (f.coerce schema.attributes).map some

/-- A query vector must have the namespace's dimension. -/
def checkDim (schema : Schema) (vector : List F32) : Except Error Unit :=
  match schema.dim with
  | none => .ok ()
  | some dim =>
    if vector.isEmpty ∨ vector.length = dim then .ok ()
    else .error (.bail ("query vector has " ++ toString vector.length ++
      " dimensions, this namespace has " ++ toString dim))

/-- The part of the unindexed tail to read, and whether it is cut short. -/
def tailEntries (m : Manifest) (consistency : Consistency) : Except Error (List WalEntry × Bool) :=
  let (entries, truncated) := m.walPrefixWithin maxUnindexedScanBytes
  if truncated ∧ consistency = .strong then
    .error (.kinded .unavailable ("unindexed WAL is " ++ toString m.unindexedBytes ++
      " bytes, over the " ++ toString maxUnindexedScanBytes ++
      " byte scan cap; a strongly consistent answer is not available until compaction catches up. " ++
      "Retry with eventual consistency or compact this namespace."))
  else .ok (entries, truncated)

/-- The shards a ranked query goes through: one implicit empty shard before the first compaction. -/
def residentShards (m : Manifest) : List Shard := if m.shards.isEmpty then [{}] else m.shards

/-- The tail, partitioned as the shards are. -/
def tails (schema : Schema) (resident : List Shard) (tail : List Record) : List (List Record) :=
  if schema.shards ≤ 1 ∨ resident.length ≤ 1 then [tail]
  else (List.range resident.length).map fun number =>
    tail.filter fun r => shardOf r.id schema.shards = number

/-- Rank every shard. -/
def rankShards (req : QueryRequest) (filter : Option Filter) (m : Manifest) (tail : List Record) :
    Proc (List ShardOutcome) :=
  let resident := residentShards m
  .tryJoinAll ((resident.zip (tails m.schema resident tail)).map fun s =>
    shardHits s.1 req filter s.2 m.schema)

/-- A query on a given manifest. -/
def queryOn (N : Type) [Numbers N] (req : QueryRequest) (m : Manifest) (fromSnapshot : Bool) :
    Proc QueryResponse := do
  let filter ← .ofExcept (coerceFilter m.schema req.filter)
  let () ← .ofExcept (checkDim m.schema req.vector)
  let (entries, truncated) ← .ofExcept (tailEntries m req.consistency)
  let tail ← readRecordsParallel (entries.map fun e => .wal e.name)
  let (aggregations, groups) ← aggregations N req filter m tail
  let respond (hits : List Hit) (indexed prefiltered : Bool) : QueryResponse :=
    { hits
      consistent := !fromSnapshot && !truncated
      indexed
      prefiltered
      aggregations
      aggregationGroups := groups
      unindexedRecords := (entries.map (·.records)).sum
      unindexedBytes := (entries.map (·.bytes)).sum }
  -- a request that only aggregates has nothing to rank
  if req.aggregateBy.isSome ∧ req.vector.isEmpty then return respond [] false false
  else
    let outcomes ← rankShards req filter m tail
    return respond (takeBest req.topK (outcomes.flatMap (·.hits))) (outcomes.any (·.indexed))
      (outcomes.all (·.prefiltered))

/-- `query`. -/
def query (N : Type) [Numbers N] (handle : Nat) (req : QueryRequest) : Proc QueryResponse := do
  let (m, fromSnapshot) ← loadWith handle req.consistency
  queryOn N req m fromSnapshot

/-- `query_brute`: every live document. -/
def queryBrute (handle : Nat) (vector : List F32) (k : Nat) (filter : Option Filter) :
    Proc (List Hit) := do
  let (m, _) ← load handle
  let filter ← .ofExcept (coerceFilter m.schema filter)
  let (_, records) ← allRecords handle
  return topK (materialize records).hashValues vector k filter .none m.schema.distanceMetric
    m.schema.fts

end Fckdb
