import Fckdb.Query
import Fckdb.Scoring

/-! # Search queries

`query` when the request ranks by a sparse vector or by text. Each shard answers from its index for what
the tail left alone, and scores what the tail touched again; a shard without the index refuses. -/

namespace Fckdb

/-! ## Requests and responses -/

/-- What a search ranks by. -/
inductive Search
  | sparse (attr : String) (vector : SortedMap String F32)
  | text (attr query : String)

/-- A query that ranks by a sparse vector or by text. -/
structure SearchRequest extends QueryRequest where
  search : Search

/-- The answer to a search. -/
structure SearchResponse (S : Type) where
  hits : List (ScoredHit S)
  consistent : Bool
  indexed : Bool
  prefiltered : Bool
  aggregations : SortedMap String Value
  aggregationGroups : List AggregationGroup
  unindexedRecords : Nat
  unindexedBytes : Nat

/-- What one shard contributed to a search. -/
structure SearchOutcome (S : Type) where
  hits : List (ScoredHit S)
  indexed : Bool
  prefiltered : Bool

section Outcome

variable {S : Type} [Score S]

/-- `ShardOutcome::ranked`. -/
def SearchOutcome.ranked (hits : List (ScoredHit S)) (topK : Nat) (indexed : Bool) : SearchOutcome S :=
  ⟨takeBestScored topK hits, indexed, false⟩

end Outcome

/-! ## One shard -/

/-- A sparse index from its object. -/
def readSparseIndex (name : DataName) : Proc SparseIndex := do
  match ← readBlob (.data name) with
  | .sparse x => return x
  | _ => .fail (.bail "truncated sparse index")

/-- A full-text index from its object. -/
def readFtsIndex (name : DataName) : Proc FtsIndex := do
  match ← readBlob (.data name) with
  | .fts x => return x
  | _ => .fail (.bail "truncated full-text index")

variable [Crates]

/-- What a request asks of each document. -/
def SearchRequest.ask (req : SearchRequest) (filter : Option Filter) (schema : Schema) : Ask :=
  ⟨filter, req.includeAttributes, schema.fts⟩

/-- Rank one shard's documents for a search, overlaid with its slice of the tail. -/
def shardSearch (S : Type) [Score S] (shard : Shard) (req : SearchRequest) (filter : Option Filter)
    (tail : List Record) (schema : Schema) : Proc (SearchOutcome S) :=
  let segments := shard.segments.map fun s => ObjectName.data s.name
  match req.search with
  | .sparse attr vector =>
    match shard.index with
    | none => .fail (.bail "sparse search needs an index; namespace has not been compacted yet")
    | some idx =>
      match idx.sparse.get attr with
      | none => .fail (.bail ("attribute " ++ Crates.debugString attr ++ " is not a sparse vector"))
      | some object => do
        let index ← readSparseIndex object
        let records ← readRecordsParallel segments
        return .ranked (sparseHits (req.ask filter schema) index attr vector records tail) req.topK true
  | .text attr query =>
    match shard.index with
    | none => .fail (.bail "full-text search needs an index; namespace has not been compacted yet")
    | some idx =>
      match idx.fts.get attr with
      | none =>
        .fail (.bail ("attribute " ++ Crates.debugString attr ++ " is not enabled for full-text search"))
      | some object => do
        let fts ← readFtsIndex object
        let records ← readRecordsParallel segments
        return .ranked (textHits (req.ask filter schema) fts attr query records tail) req.topK true

/-! ## The query -/

variable [HashOrder]

/-- Search every shard. -/
def searchShards (S : Type) [Score S] (req : SearchRequest) (filter : Option Filter) (m : Manifest)
    (tail : List Record) : Proc (List (SearchOutcome S)) :=
  let resident := residentShards m
  .tryJoinAll ((resident.zip (tails m.schema resident tail)).map fun s =>
    shardSearch S s.1 req filter s.2 m.schema)

/-- A search on a given manifest. -/
def searchOn (S N : Type) [Score S] [Numbers N] (req : SearchRequest) (m : Manifest)
    (fromSnapshot : Bool) : Proc (SearchResponse S) := do
  let filter ← .ofExcept (coerceFilter m.schema req.filter)
  let () ← .ofExcept (checkDim m.schema req.vector)
  let (entries, truncated) ← .ofExcept (tailEntries m req.consistency)
  let tail ← readRecordsParallel (entries.map fun e => .wal e.name)
  let (aggregations, groups) ← aggregations N req.toQueryRequest filter m tail
  let outcomes ← searchShards S req filter m tail
  return {
    hits := takeBestScored req.topK (outcomes.flatMap (·.hits))
    consistent := !fromSnapshot && !truncated
    indexed := outcomes.any (·.indexed)
    prefiltered := outcomes.all (·.prefiltered)
    aggregations
    aggregationGroups := groups
    unindexedRecords := (entries.map (·.records)).sum
    unindexedBytes := (entries.map (·.bytes)).sum }

/-- `query`, for a search. -/
def search (S N : Type) [Score S] [Numbers N] (handle : Nat) (req : SearchRequest) :
    Proc (SearchResponse S) := do
  let (m, fromSnapshot) ← loadWith handle req.consistency
  searchOn S N req m fromSnapshot

end Fckdb
