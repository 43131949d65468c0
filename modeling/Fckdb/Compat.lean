import Fckdb.WriteRequest

/-! # The `/v2` write

The compatible surface translates a write into the native request. Rows that come without a vector are embedded
first: their texts are sent to the embedding endpoint in one call, and the vectors put back by row. -/

namespace Fckdb

/-! ## Embedding -/

/-- `Embedder::embed`: the vectors of a batch of texts in order, by a model or the default one. -/
abbrev Embedder := List String → Option String → Except Error (List (List F32))

/-- The endpoint's failure. -/
def upstream (e : Error) : Error := .kinded .upstream e.displayChain

/-- `embed_many`. -/
def embedMany (embedder : Option Embedder) (texts : List String) (model : Option String) :
    Except Error (List (List F32)) :=
  if texts.isEmpty then .ok []
  else
    match embedder with
    | none => .error (.kinded .unimplemented ("native embedding is not configured; set FCKDB_EMBED_URL to an " ++
        "OpenAI-compatible /v1/embeddings endpoint, or send vectors instead"))
    | some embed => (embed texts model).mapError upstream

namespace Compat

/-! ## Requests -/

/-- A row: every field but the id and the vector is an attribute. -/
structure Row where
  id : Id
  vector : Option (List F32) := none
  attrs : Attrs

/-- `full_text_search`: a flag, or a configuration. -/
inductive FullText
  | enabled (on : Bool)
  | config (c : FtsConfig)

/-- The configuration asked for. -/
def FullText.toConfig : FullText → Option FtsConfig
  | enabled true => some {}
  | enabled false => none
  | config c => some c

/-- One attribute's declared schema. -/
structure SchemaAttr where
  ty : Ty
  fullTextSearch : Option FullText := none
  /-- Embed this attribute's text into the document's vector on write. -/
  embed : Option EmbedSpec := none

structure V2Write where
  upsertRows : List Row := []
  upsertColumns : Option Columns := none
  patchRows : List Row := []
  patchColumns : Option Columns := none
  deletes : List Id := []
  deleteByFilter : Option Filter := none
  patchByFilter : Option FilterPatch := none
  distanceMetric : Option DistanceMetric := none
  schema : Option (SortedMap String SchemaAttr) := none
  /-- The shard count of `sharding`. -/
  numShards : Option Nat := none

namespace V2Write

def isEmpty (body : V2Write) : Bool :=
  body.upsertRows.isEmpty && body.patchRows.isEmpty && body.deletes.isEmpty && body.upsertColumns.isNone &&
    body.patchColumns.isNone && body.deleteByFilter.isNone && body.patchByFilter.isNone

/-- What is declared of every attribute, read by `f`. -/
def declared {α : Type} (body : V2Write) (f : SchemaAttr → Option α) : SortedMap String α :=
  match body.schema with
  | some attrs => .ofList (attrs.entries.filterMap fun e => (f e.2).map (e.1, ·))
  | none => .empty

/-- Declared attribute types. -/
def declaredTypes (body : V2Write) : SortedMap String Ty := body.declared fun a => some a.ty

/-- Attributes the client asked to embed. -/
def declaredEmbed (body : V2Write) : SortedMap String EmbedSpec := body.declared SchemaAttr.embed

/-- Attributes the client enabled for full-text search. -/
def declaredFts (body : V2Write) : FtsSchema := body.declared fun a => a.fullTextSearch.bind FullText.toConfig

/-- The settings that the write carries. -/
def config (body : V2Write) : WriteConfig where
  metric := body.distanceMetric
  declaredTypes := body.declaredTypes
  declaredFts := body.declaredFts
  numShards := body.numShards
  declaredEmbed := body.declaredEmbed

end V2Write

/-! ## Embedding rows -/

/-- The text of a row: that of the first attribute to embed that has one. -/
def Row.text (embed : SortedMap String EmbedSpec) (row : Row) : Option String :=
  embed.keys.findSome? fun key => (row.attrs.get key).bind attributeText

/-- The rows that need a vector, each with its text. An explicit vector is never made again. -/
def rowsNeedingEmbedding (rows : List Row) (embed : SortedMap String EmbedSpec) : List (Nat × String) :=
  if embed.entries.isEmpty then []
  else (rows.zipIdx.filter fun p => p.1.vector.isNone).filterMap fun p => (p.1.text embed).map (p.2, ·)

/-- Attach produced vectors to the rows that asked for them. -/
def attachVectors (rows : List Row) : List (Nat × List F32) → List Row
  | [] => rows
  | (index, vector) :: resolved =>
    attachVectors (rows.modify index fun row => { row with vector := some vector }) resolved

/-- A call of the embedding endpoint: the texts with the rows they are of, the model, and the answer. -/
structure EmbedCall where
  slots : List (Nat × String)
  model : Option String
  vectors : List (List F32)

namespace V2Write

/-- The specs to embed by: those that the write declares, or else those of the schema. -/
def embedSpec (body : V2Write) (schema : Schema) : SortedMap String EmbedSpec :=
  if body.declaredEmbed.entries.isEmpty then schema.embed else body.declaredEmbed

/-- The model of the first spec. -/
def embedModel (body : V2Write) (schema : Schema) : Option String :=
  (body.embedSpec schema).values.head?.bind EmbedSpec.model

/-- The one call that embeds the rows. -/
def embedCall (embedder : Option Embedder) (schema : Schema) (body : V2Write) : Except Error EmbedCall := do
  let slots := rowsNeedingEmbedding body.upsertRows (body.embedSpec schema)
  let vectors ← embedMany embedder (slots.map (·.2)) (body.embedModel schema)
  return ⟨slots, body.embedModel schema, vectors⟩

/-- The rows with the vectors that were made. -/
def embedded (body : V2Write) (call : EmbedCall) : V2Write :=
  { body with upsertRows := attachVectors body.upsertRows ((call.slots.map (·.1)).zip call.vectors) }

end V2Write

/-! ## Translating -/

variable [Crates]

/-- The documents of rows that all have a vector. -/
def rowDocs : List Row → Except Error (List Doc)
  | [] => .ok []
  | row :: rows =>
    match row.vector with
    | none => .error (.bail ("upsert_rows: document " ++ row.id.display ++ " has no vector"))
    | some vector => do
      let docs ← rowDocs rows
      return ⟨row.id, vector, row.attrs⟩ :: docs

/-- Translate into the native request. -/
def V2Write.intoNative (body : V2Write) : Except Error WriteRequest := do
  let upsert ← rowDocs body.upsertRows
  return {
    upsert
    patch := body.patchRows.map fun row => ⟨row.id, row.attrs⟩
    delete := body.deletes
    upsertColumns := body.upsertColumns
    patchColumns := body.patchColumns
    deleteByFilter := body.deleteByFilter
    patchByFilter := body.patchByFilter
    distanceMetric := body.distanceMetric }

/-- Counts, each only if the operation was asked for. -/
structure V2WriteResponse where
  rowsAffected : Nat
  rowsUpserted : Option Nat
  rowsPatched : Option Nat
  rowsDeleted : Option Nat
  rowsRemaining : Option Bool

/-- `rows_*` of a response. -/
def V2Write.response (body : V2Write) (plan : Plan) : V2WriteResponse where
  rowsAffected := plan.upserted + plan.patched + plan.deleted
  rowsUpserted := if !body.upsertRows.isEmpty || body.upsertColumns.isSome then some plan.upserted else none
  rowsPatched :=
    if !body.patchRows.isEmpty || body.patchColumns.isSome || body.patchByFilter.isSome then some plan.patched
    else none
  rowsDeleted := if !body.deletes.isEmpty || body.deleteByFilter.isSome then some plan.deleted else none
  rowsRemaining := if body.deleteByFilter.isSome || body.patchByFilter.isSome then some plan.remaining else none

/-- Refuse a request without any operation. -/
def V2Write.check (body : V2Write) : Except AppError Unit :=
  if body.isEmpty then .error (bad "write requires at least one row, column, or filter operation") else .ok ()

/-- `v2_write`: a compatible write on a namespace. -/
def v2Write [HashOrder] [SerdeJson] (embedder : Option Embedder) (handle : Nat) (cut : Cut)
    (body : V2Write) : Api V2WriteResponse := do
  .ofExcept body.check
  let (m, _) ← .ofProc .ofError (load handle)
  .ofExcept (checkTail m)
  let call ← .ofExcept ((body.embedCall embedder m.schema).mapError classify)
  let native ← .ofExcept ((body.embedded call).intoNative.mapError classify)
  let plan ← assemble handle native
  let _ ← .ofProc classify (writeAll handle cut plan.records body.config)
  return body.response plan

end Compat

end Fckdb
