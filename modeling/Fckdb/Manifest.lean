import Fckdb.AttrIndex
import Fckdb.Ivf
import Fckdb.RecordCodec
import Fckdb.Schema
import Fckdb.Sparse

/-! # Manifests

The commit point of a namespace: the WAL in order, the shards with their segments and indexes, and the
schema. Objects are immutable; a name carries the UUID drawn for it, and a UUID is the number of UUIDs
drawn before it, as they never repeat. -/

namespace Fckdb

/-! ## Object names -/

/-- The file extension of a data object. -/
inductive Ext
  | bin
  | cen
  | clu
  | ids
  | att
  | fts
  | spx
  deriving DecidableEq, Repr

/-- `{seq:010}-{uuid}.bin`. -/
structure WalName where
  seq : Nat
  uuid : Nat
  deriving DecidableEq, Repr

/-- `{uuid}.{ext}`. -/
structure DataName where
  uuid : Nat
  ext : Ext
  deriving DecidableEq, Repr

/-- The path of an object under the namespace's prefix. -/
inductive ObjectName
  | wal (name : WalName)
  | data (name : DataName)
  deriving DecidableEq, Repr

/-- The UUID in a name. -/
def ObjectName.uuid : ObjectName → Nat
  | wal name => name.uuid
  | data name => name.uuid

/-! ## The manifest -/

/-- One committed batch. -/
structure WalEntry where
  name : WalName
  bytes : Nat
  records : Nat
  deriving DecidableEq, Repr

/-- One compacted segment. -/
structure SegmentEntry where
  name : DataName
  bytes : Nat
  docs : Nat
  deriving DecidableEq, Repr

/-- Where the indexes of a shard live. -/
structure IndexMeta where
  dim : Nat
  centroids : DataName
  /-- One object per cluster; the position matches the centroid order. -/
  clusters : List DataName
  docs : Nat
  /-- The total size of the objects. -/
  bytes : Nat
  ids : Option DataName
  attributes : SortedMap String DataName
  fts : SortedMap String DataName
  sparse : SortedMap String DataName
  deriving DecidableEq

/-- The data of one shard. -/
structure Shard where
  segments : List SegmentEntry := []
  index : Option IndexMeta := none
  deriving DecidableEq, Inhabited

/-- The commit point of a namespace. -/
structure Manifest where
  nextSeq : Nat := 0
  wal : List WalEntry := []
  shards : List Shard := []
  schema : Schema := {}
  createdAt : Option Nat := none
  lastWriteAt : Option Nat := none
  updatedAt : Option Nat := none
  deriving DecidableEq, Inhabited

/-- Eat the bytes of an id into an FNV-1a hash. -/
def fnv1a (bytes : List UInt8) : UInt64 :=
  bytes.foldl (fun hash b => (hash ^^^ b.toUInt64) * 0x100000001b3) 0xcbf29ce484222325

/-- The bytes of an id that are hashed. -/
def Id.hashBytes : Id → List UInt8
  | .uint v => leBytes 8 v.toNat
  | .uuid u => u.bytes
  | .string s => utf8 s

/-- Which shard a document belongs to. -/
def shardOf (id : Id) (numShards : Nat) : Nat :=
  if numShards ≤ 1 then 0 else (fnv1a id.hashBytes).toNat % numShards

theorem shardOf_lt {id : Id} {numShards : Nat} (h : 0 < numShards) : shardOf id numShards < numShards := by
  unfold shardOf
  split_ifs
  · exact h
  · exact Nat.mod_lt _ h

/-- `timestamp_nanos_opt`. -/
def timestampNanosOpt (nanos : Nat) : Option Nat := if nanos < 2 ^ 63 then some nanos else none

/-- The objects an index consists of. -/
def IndexMeta.objects (i : IndexMeta) : List DataName :=
  i.centroids :: i.clusters ++ i.ids.toList ++
    (i.attributes.values ++ i.fts.values ++ i.sparse.values)

/-- The objects of a shard. -/
def Shard.objects (shard : Shard) : List ObjectName :=
  shard.segments.map (fun e => .data e.name) ++ shard.index.toList.flatMap fun i => i.objects.map .data

namespace Manifest

/-- Whether anything has ever been written. -/
def hasData (m : Manifest) : Bool := !m.wal.isEmpty || m.shards.any fun s => !s.segments.isEmpty

/-- Every segment across every shard. -/
def allSegments (m : Manifest) : List SegmentEntry := m.shards.flatMap (·.segments)

/-- Every shard index that exists. -/
def allIndexes (m : Manifest) : List IndexMeta := m.shards.filterMap (·.index)

/-- Record when the manifest was written. -/
def stamp (m : Manifest) (now : Nat) (wroteData : Bool) : Manifest :=
  let now := timestampNanosOpt now
  { m with
    createdAt := m.createdAt.or now
    updatedAt := now
    lastWriteAt := if wroteData then now else m.lastWriteAt }

/-- The size of the unindexed tail. -/
def unindexedBytes (m : Manifest) : Nat := (m.wal.map (·.bytes)).sum

/-- How many records the unindexed tail has. -/
def unindexedRecords (m : Manifest) : Nat := (m.wal.map (·.records)).sum

/-- The size of the segments. -/
def segmentBytes (m : Manifest) : Nat := (m.allSegments.map (·.bytes)).sum

/-- The size of the indexes. -/
def indexBytes (m : Manifest) : Nat := (m.allIndexes.map (·.bytes)).sum

/-- The size of everything. -/
def totalBytes (m : Manifest) : Nat := m.unindexedBytes + m.segmentBytes + m.indexBytes

/-- Every object this manifest keeps alive. -/
def referenced (m : Manifest) : List ObjectName :=
  m.wal.map (fun e => .wal e.name) ++ m.allSegments.map (fun s => .data s.name) ++
    m.allIndexes.flatMap fun i => i.objects.map .data

/-- The longest prefix of WAL entries that fits in `cap` bytes, `acc` of them already taken. -/
def walPrefixFrom (cap : Nat) : Nat → List WalEntry → List WalEntry × Bool
  | _, [] => ([], false)
  | acc, e :: es =>
    if acc + e.bytes > cap then ([], true)
    else
      let (taken, truncated) := walPrefixFrom cap (acc + e.bytes) es
      (e :: taken, truncated)

/-- The longest prefix of the WAL that fits in `cap` bytes, and whether anything was left out. -/
def walPrefixWithin (m : Manifest) (cap : Nat) : List WalEntry × Bool := walPrefixFrom cap 0 m.wal

theorem walPrefixFrom_isPrefix (cap acc : Nat) (es : List WalEntry) :
    (walPrefixFrom cap acc es).1 <+: es := by
  induction es generalizing acc with
  | nil => exact List.nil_prefix
  | cons e es ih =>
      rw [walPrefixFrom]
      split_ifs
      · exact List.nil_prefix
      · exact List.prefix_cons_inj e |>.mpr (ih _)

/-- What fits under the cap is a prefix of the WAL. -/
theorem walPrefixWithin_isPrefix (m : Manifest) (cap : Nat) :
    (m.walPrefixWithin cap).1 <+: m.wal := walPrefixFrom_isPrefix cap 0 m.wal

@[simp] theorem stamp_wal (m : Manifest) (now : Nat) (w : Bool) : (m.stamp now w).wal = m.wal := rfl

@[simp] theorem stamp_shards (m : Manifest) (now : Nat) (w : Bool) :
    (m.stamp now w).shards = m.shards := rfl

@[simp] theorem stamp_schema (m : Manifest) (now : Nat) (w : Bool) :
    (m.stamp now w).schema = m.schema := rfl

@[simp] theorem stamp_nextSeq (m : Manifest) (now : Nat) (w : Bool) :
    (m.stamp now w).nextSeq = m.nextSeq := rfl

end Manifest

end Fckdb
