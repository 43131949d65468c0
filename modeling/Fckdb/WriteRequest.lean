import Fckdb.Api
import Fckdb.FilterIndex
import Fckdb.GroupCommit
import Fckdb.Json

/-! # Write requests

A write request has rows, columns and filters. `assemble` expands every form into records, in a fixed
order; the two filters are resolved to ids before anything is written. -/

namespace Fckdb

/-! ## The request -/

/-- One row of a patch. -/
structure PatchRow where
  id : Id
  attrs : Attrs

/-- A patch of every document that a filter matches. -/
structure FilterPatch where
  filters : Filter
  patch : Attrs

/-- Column-oriented documents: each key is a column. -/
abbrev Columns := SortedMap String (List Json)

structure WriteRequest where
  upsert : List Doc := []
  patch : List PatchRow := []
  delete : List Id := []
  upsertColumns : Option Columns := none
  patchColumns : Option Columns := none
  deleteByFilter : Option Filter := none
  patchByFilter : Option FilterPatch := none
  distanceMetric : Option DistanceMetric := none

def WriteRequest.isEmpty (r : WriteRequest) : Bool :=
  r.upsert.isEmpty && r.patch.isEmpty && r.delete.isEmpty && r.upsertColumns.isNone &&
    r.patchColumns.isNone && r.deleteByFilter.isNone && r.patchByFilter.isNone

/-! ## Columns -/

/-- One document pulled out of a column layout. -/
structure Row where
  id : Id
  vector : Option (List F32)
  attrs : Attrs

section Columns

variable [Crates] [SerdeJson]

/-- How `serde` names what it did not expect. -/
def Json.unexpected : Json → String
  | .null => "null"
  | .bool b => "boolean `" ++ toString b ++ "`"
  | .number (.float f h) => "floating point `" ++ SerdeJson.display (.number (.float f h)) ++ "`"
  | .number n => "integer `" ++ SerdeJson.display (.number n) ++ "`"
  | .string s => "string " ++ Crates.debugString s
  | .array _ => "sequence"
  | .object _ => "map"

/-- `invalid type` of `serde`. -/
def Json.invalidType (raw : Json) (expected : String) : Error :=
  ⟨⟨.serdeJson, "invalid type: " ++ raw.unexpected ++ ", expected " ++ expected⟩, []⟩

/-- `Deserialize` of an id. -/
def Id.ofJson : Json → Except Error Id
  | .number n =>
    match n.asU64 with
    | some u => .ok (.uint u)
    | none => .error ⟨⟨.serdeJson, "a numeric document id must be a u64"⟩, []⟩
  | .string s => .ok (.string s)
  | other => .error ⟨⟨.serdeJson, "a document id must be a number or a string, got " ++
      SerdeJson.display other⟩, []⟩

/-- `Deserialize` of an `f32`. -/
def F32.ofJson : Json → Except Error F32
  | .number (.posInt u) => .ok ⟨(Float32.Model.ofUInt64 u).toBits⟩
  | .number (.negInt i _) => .ok ⟨(Float32.Model.ofInt64 i).toBits⟩
  | .number (.float f _) => .ok f.toF32
  | other => .error (other.invalidType "f32")

/-- `Deserialize` of a vector. -/
def vectorOfJson : Json → Except Error (List F32)
  | .array items => collect (items.map F32.ofJson)
  | other => .error (other.invalidType "a sequence")

/-- The attributes of one row: a null is none. -/
def rowAttrs (i : Nat) : List (String × List Json) → Except Error (List (String × Value))
  | [] => .ok []
  | (name, col) :: rest =>
    if name = "id" ∨ name = "vector" then rowAttrs i rest
    else do
      let value ← mapErr (fromJson (col.getD i .null))
        ("row " ++ toString i ++ ", column " ++ Crates.debugString name)
      let attrs ← rowAttrs i rest
      return if value.isNull then attrs else (name, value) :: attrs

/-- The vector of one row: a null is none. -/
def rowVector (i : Nat) : Option Json → Except Error (Option (List F32))
  | none => .ok none
  | some .null => .ok none
  | some raw => (mapErr (vectorOfJson raw) ("row " ++ toString i ++ " vector")).map some

/-- One row of some columns. -/
def Columns.row (c : Columns) (ids : List Json) (i : Nat) : Except Error Row := do
  let id ← mapErr (Id.ofJson (ids.getD i .null)) ("row " ++ toString i)
  let vector ← rowVector i ((c.get "vector").map (·.getD i .null))
  let attrs ← rowAttrs i c.entries
  return ⟨id, vector, .ofList attrs⟩

/-- Transpose columns into rows. -/
def Columns.transpose (c : Columns) : Except Error (List Row) :=
  match c.get "id" with
  | none => .error (.bail "column writes require an `id` column")
  | some ids =>
    match c.entries.find? fun e => e.2.length ≠ ids.length with
    | some (name, col) => .error (.bail ("column " ++ Crates.debugString name ++ " has " ++
        toString col.length ++ " values but `id` has " ++ toString ids.length ++
        "; every column must be the same length"))
    | none => collect ((List.range ids.length).map (c.row ids))

/-- The documents of some rows; each needs a vector. -/
def rowDocs : List Row → Except AppError (List Record)
  | [] => .ok []
  | row :: rows =>
    match row.vector with
    | none => .error (bad ("upsert_columns: document " ++ row.id.display ++ " has no vector"))
    | some vector => do
      let docs ← rowDocs rows
      return .upsert ⟨row.id, vector, row.attrs⟩ :: docs

/-- The documents of column upserts. -/
def Columns.upserts (c : Columns) : Except AppError (List Record) := do
  let rows ← c.transpose.mapError fun e => bad ("upsert_columns: " ++ e.display)
  rowDocs rows

/-- The patches of columns. -/
def Columns.patches (c : Columns) : Except AppError (List Record) :=
  if (c.get "vector").isSome then
    .error (bad "vectors cannot be patched; upsert the whole document")
  else do
    let rows ← c.transpose.mapError fun e => bad ("patch_columns: " ++ e.display)
    return rows.map fun row => .patch row.id row.attrs

end Columns

/-! ## Filters -/

/-- `MAX_DELETE_BY_FILTER_ROWS`. -/
def maxDeleteByFilterRows : Nat := 5000000

/-- `MAX_PATCH_BY_FILTER_ROWS`. -/
def maxPatchByFilterRows : Nat := 50000

/-- `load_ids`. -/
def loadIds (idx : IndexMeta) : Proc (List Id) :=
  match idx.ids with
  | none => return []
  | some name => do
    match ← readBlob (.data name) with
    | .ids ids => return ids
    | _ => .fail (.bail "not an ids object")

/-- Sort the matches, and keep as many as the cap allows. -/
def capped (matched : List Id) (cap : Nat) : List Id × Bool :=
  let matched := matched.insertionSort (· ≤ ·)
  (matched.take cap, cap < matched.length)

section Matching

variable [Crates]

/-- The ids that the attribute indexes of the shards select, if each answers exactly. -/
def indexedMatches (filter : Filter) : List Shard → Proc (Option (List Id))
  | [] => return some []
  | shard :: rest =>
    match shard.index with
    | none => return none
    | some idx => do
      let indexes ← loadAttrIndexes idx filter
      match evaluate indexes (asU32 idx.docs) filter with
      | none => return none
      | some sel =>
        if sel.exact then
          let ids ← loadIds idx
          let more ← indexedMatches filter rest
          return more.map (idsAt ids sel ++ ·)
        else return none

/-- Whether every document of a manifest is covered by an index with ids. -/
def Manifest.covered (m : Manifest) : Bool :=
  m.wal.isEmpty && !m.shards.isEmpty && m.shards.all fun s => s.index.any (·.ids.isSome)

/-- What the indexes select, if they cover everything and answer exactly. -/
def indexedIds (m : Manifest) (filter : Filter) : Proc (Option (List Id)) :=
  if m.covered then indexedMatches filter m.shards else return none

variable [HashOrder]

/-- `ids_matching`. -/
def idsMatching (handle : Nat) (filter : Filter) (cap : Nat) : Proc (List Id × Bool) := do
  let (m, _) ← load handle
  let filter ← .ofExcept (filter.coerce m.schema.attributes)
  match ← indexedIds m filter with
  | some matched => return capped matched cap
  | none =>
    let (_, records) ← allRecords handle
    let live := (materialize records).hashValues
    return capped ((live.filter fun d => filter.matches d.attrs m.schema.fts).map Doc.id) cap

end Matching

/-! ## Assembling -/

/-- What a write request expands to. -/
structure Plan where
  records : List Record
  upserted : Nat
  patched : Nat
  deleted : Nat
  remaining : Bool

section Assemble

variable [Crates] [HashOrder]

/-- What `delete_by_filter` deletes. -/
def filterDeletes (handle : Nat) : Option Filter → Api (List Id × Bool)
  | none => return ([], false)
  | some filter => .ofProc .ofError (idsMatching handle filter maxDeleteByFilterRows)

/-- What `patch_by_filter` patches. -/
def filterPatches (handle : Nat) : Option FilterPatch → Api (List Record × Bool)
  | none => return ([], false)
  | some fp =>
    if fp.patch.entries.isEmpty then .fail (bad "patch_by_filter requires a non-empty patch")
    else do
      let (ids, more) ← .ofProc .ofError (idsMatching handle fp.filters maxPatchByFilterRows)
      return (ids.map fun id => .patch id fp.patch, more)

/-- The documents of row upserts. -/
def rowUpserts : List Doc → Except AppError (List Record)
  | [] => .ok []
  | doc :: docs =>
    if doc.vector.isEmpty then .error (bad ("document " ++ doc.id.display ++ " has no vector"))
    else do
      let rest ← rowUpserts docs
      return .upsert doc :: rest

variable [SerdeJson]

/-- The records of some columns, if there are any. -/
def columnRecords (expand : Columns → Except AppError (List Record)) :
    Option Columns → Except AppError (List Record)
  | none => .ok []
  | some c => expand c

/-- The records of every write form in order, once the filters are resolved. -/
def WriteRequest.plan (body : WriteRequest) (deletes : List Id × Bool) (patches : List Record × Bool) :
    Except AppError Plan := do
  let columnUpserts ← columnRecords Columns.upserts body.upsertColumns
  let columnPatches ← columnRecords Columns.patches body.patchColumns
  let upserts ← rowUpserts body.upsert
  let records := deletes.1.map .delete ++ patches.1 ++ columnUpserts ++ columnPatches ++ upserts ++
    body.patch.map (fun p => .patch p.id p.attrs) ++ body.delete.map .delete
  if records.isEmpty then throw (bad "write matched no documents and contained no rows")
  else return {
    records
    upserted := columnUpserts.length + upserts.length
    patched := patches.1.length + columnPatches.length + body.patch.length
    deleted := deletes.1.length + body.delete.length
    remaining := deletes.2 || patches.2 }

/-- Expand every write form into records. -/
def assemble (handle : Nat) (body : WriteRequest) : Api Plan := do
  let deletes ← filterDeletes handle body.deleteByFilter
  let patches ← filterPatches handle body.patchByFilter
  .ofExcept (body.plan deletes patches)

/-! ## The handler -/

/-- How the committer cuts the records that one request sends into batches. -/
structure Cut where
  batches : List Record → List (List Record)
  flatten : ∀ rs, (batches rs).flatten = rs
  nonempty : ∀ rs, ∀ b ∈ batches rs, b ≠ []

/-- All records in one batch. -/
def Cut.whole : Cut where
  batches rs := if rs.isEmpty then [] else [rs]
  flatten rs := by
    cases rs with
    | nil => rfl
    | cons r rs => exact List.append_nil _
  nonempty rs b hb := by
    cases rs with
    | nil => cases hb
    | cons r rs =>
        obtain rfl := List.mem_singleton.mp hb
        exact List.cons_ne_nil _ _

/-- The replies to the records of some batches, committed one after the other. -/
def commitBatches (handle : Nat) (config : WriteConfig) :
    List (List Record) → Proc (List (Except Flat Nat))
  | [] => return []
  | batch :: rest => do
    let result ← .ofProg (commitRecords handle batch config)
    let replies ← commitBatches handle config rest
    return batch.map (fun _ => commitReply result) ++ replies

/-- The replies one after the other, up to the first error. -/
def awaitReplies : Nat → List (Except Flat Nat) → Except Error Nat
  | seq, [] => .ok seq
  | _, .ok seq :: rest => awaitReplies seq rest
  | _, .error e :: _ => .error e.intoError

/-- `write_all`, with no other writer at the committer. -/
def writeAll (handle : Nat) (cut : Cut) (records : List Record) (config : WriteConfig) : Proc Nat := do
  let replies ← commitBatches handle config (cut.batches records)
  .ofExcept (awaitReplies 0 replies)

structure WriteResponse where
  seq : Nat
  records : Nat
  rowsUpserted : Nat
  rowsPatched : Nat
  rowsDeleted : Nat
  /-- A filter hit its cap, and more documents match. -/
  rowsRemaining : Bool

/-- The refusal of a write under backpressure. -/
def backpressure (unindexed : Nat) : AppError :=
  ⟨.tooManyRequests, "unindexed tail is " ++ toString unindexed ++ " bytes, at or over the " ++
    toString writeBackpressureBytes ++
    " byte write limit; compaction has been triggered, retry shortly"⟩

/-- Refuse a request without any write form. -/
def WriteRequest.check (body : WriteRequest) : Except AppError Unit :=
  if body.isEmpty then
    .error (bad ("write requires at least one of: upsert, patch, delete, upsert_columns, " ++
      "patch_columns, delete_by_filter, patch_by_filter"))
  else .ok ()

/-- Refuse a write while the tail is too long. -/
def checkTail (m : Manifest) : Except AppError Unit :=
  if writeBackpressureBytes ≤ m.unindexedBytes then .error (backpressure m.unindexedBytes) else .ok ()

/-- `write`: a write request on a namespace. -/
def write (handle : Nat) (cut : Cut) (body : WriteRequest) : Api WriteResponse := do
  .ofExcept body.check
  let (m, _) ← .ofProc .ofError (load handle)
  .ofExcept (checkTail m)
  let plan ← assemble handle body
  let seq ← .ofProc classify (writeAll handle cut plan.records { metric := body.distanceMetric })
  return ⟨seq, plan.records.length, plan.upserted, plan.patched, plan.deleted, plan.remaining⟩

end Assemble

end Fckdb
