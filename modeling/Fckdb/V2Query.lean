import Fckdb.Auth
import Fckdb.Compat
import Fckdb.Fusion
import Fckdb.OrderedQuery
import Fckdb.RankedSearch

/-! # The `/v2` query

The compatible surface translates a query into the native request, runs it, and shapes the answer: a similarity
becomes a distance, a relevance stays what it is, an order by an attribute has neither. A multi-query runs its
sub-queries at once and answers them in order, or fuses their rows. -/

namespace Fckdb

namespace Compat

/-! ## Requests -/

/-- Where a query's vector comes from. -/
inductive VectorSource
  | literal (vector : List F32)
  /-- To be produced by an embedding model. -/
  | embed (text : String) (model : Option String)

/-- How a query ranks. -/
inductive RankBy
  /-- Approximate nearest neighbours. -/
  | ann (attr : String) (source : VectorSource)
  /-- The same ranking, without the index. -/
  | knn (attr : String) (source : VectorSource)
  | order (attr : String) (descending : Bool)
  | bm25 (attr query : String)
  | sparseKnn (attr : String) (vector : SortedMap String F32)
  /-- Recognised but not implemented. -/
  | unsupported (function : String)

/-- How the result lists of a multi-query are combined. -/
inductive RerankBy
  | rrf (k : F32)

inductive ConsistencyLevel
  | strong
  | eventual
  deriving DecidableEq, Repr

/-- A query; one with `queries` is a multi-query. -/
structure V2Query where
  rankBy : Option RankBy := none
  topK : Option Nat := none
  /-- The total of `limit`. -/
  limit : Option Nat := none
  filters : Option Filter := none
  includeAttributes : Include := .none
  consistency : Option ConsistencyLevel := none
  vectorEncoding : Option String := none
  queries : Option (List V2Query) := none
  rerankBy : Option RerankBy := none
  aggregateBy : Option (SortedMap String Agg) := none
  groupBy : List GroupKey := []

/-- `DEFAULT_NPROBE`. -/
def defaultNprobe : Nat := 8

/-- `EVENTUAL_MAX_AGE_MS`. -/
def eventualMaxAgeMs : Nat := 3600000

/-- `MAX_SUBQUERIES`. -/
def maxSubqueries : Nat := 16

/-- `RRF_K`. -/
def rrfK : F32 := ⟨0x42700000⟩

/-! ## Parsing -/

section Parsing

variable [Crates] [SerdeJson]

/-- The value of a field of an object. -/
def field (name : String) : Json → Option Json
  | .object fields => (fields.find? (·.1 = name)).map (·.2)
  | _ => none

/-- `Deserialize` of a sparse vector. -/
def sparseVectorOfJson : Json → Except Error (SortedMap String F32)
  | .object fields =>
    (collect (fields.map fun e => (F32.ofJson e.2).map (e.1, ·))).map .ofList
  | other => .error (other.invalidType "a map")

/-- `parse_vector_source`: a literal vector, or an `Embed`. -/
def parseVectorSource (raw : Json) (func : String) : Except Error VectorSource :=
  match raw with
  | .array (.string "Embed" :: rest) =>
    match rest.head?.bind Json.asStr with
    | none => .error (.bail "Embed expects the text to embed as a string")
    | some text =>
      if (trim text).isEmpty then .error (.bail "Embed was given empty text")
      else .ok (.embed text ((rest[1]?.bind (field "model")).bind Json.asStr))
  | _ =>
    match vectorOfJson raw with
    | .ok vector => .ok (.literal vector)
    | .error _ => .error (.bail ("rank_by " ++ func ++ " expects an array of numbers or an Embed"))

/-- The attribute that a ranking names. -/
def rankAttribute (raw : Json) : Except Error String :=
  match raw.asStr with
  | some attr => .ok attr
  | none => .error (.bail "rank_by attribute must be a string")

/-- The two-element form: an order by an attribute. -/
def parseOrder (attr : String) (raw : Json) : Except Error RankBy :=
  match raw.asStr with
  | none => .error (.bail "rank_by direction must be \"asc\" or \"desc\"")
  | some direction =>
    if direction = "asc" then .ok (.order attr false)
    else if direction = "desc" then .ok (.order attr true)
    else if direction ∈ ["ANN", "kNN", "BM25", "SparseKNN"] then
      .error (.bail ("rank_by " ++ direction ++ " requires an argument: [attribute, \"" ++ direction ++ "\", …]"))
    else .ok (.unsupported direction)

/-- The three-element form: a function with its argument. -/
def parseFunction (attr func : String) (raw : Json) : Except Error RankBy :=
  if func = "SparseKNN" then
    match sparseVectorOfJson raw with
    | .ok vector => .ok (.sparseKnn attr vector)
    | .error _ => .error (.bail "rank_by SparseKNN expects an object of dimension weights")
  else if func = "BM25" then
    match raw.asStr with
    | some query => .ok (.bm25 attr query)
    | none => .error (.bail "rank_by BM25 expects a query string")
  else if func = "ANN" then (parseVectorSource raw func).map (.ann attr)
  else if func = "kNN" then (parseVectorSource raw func).map (.knn attr)
  else .ok (.unsupported func)

/-- `parse_rank_by`. -/
def parseRankBy : Json → Except Error RankBy
  | .array [raw, direction] => do parseOrder (← rankAttribute raw) direction
  | .array [raw, func, argument] => do
    let attr ← rankAttribute raw
    match func.asStr with
    | some func => parseFunction attr func argument
    | none => .error (.bail "rank_by function must be a string")
  | .array items =>
    .error (.bail ("rank_by must be [attribute, function, argument], got " ++ toString items.length ++ " elements"))
  | other => .error (.bail ("rank_by must be an array, got " ++ SerdeJson.display other))

/-- `Deserialize` of a `rerank_by`. -/
def parseRerankBy : Json → Except Error RerankBy
  | .array items =>
    match items.head?.bind Json.asStr with
    | some func =>
      if func = "RRF" then
        let k := (((items[1]?.bind (field "k")).bind Json.asF64).map F64.toF32).getD rrfK
        if Scalar.lt k Scalar.zero || Scalar.isZero k then .error (.bail "RRF k must be positive")
        else .ok (.rrf k)
      else .error (.bail ("rerank function " ++ Crates.debugString func ++ " is not implemented"))
    | none => .error (.bail "rerank_by must name a function")
  | other => .error (.bail ("rerank_by must be an array, got " ++ SerdeJson.display other))

/-- Where the vector of a ranking comes from, if it ranks by one. -/
def RankBy.source : RankBy → Option VectorSource
  | ann _ source => some source
  | knn _ source => some source
  | _ => none

/-- The vector of a ranking is parsed from its argument. -/
theorem source_of_parseRankBy {raw : Json} {rankBy : RankBy} {source : VectorSource}
    (h : parseRankBy raw = .ok rankBy) (hrank : rankBy.source = some source) :
    ∃ argument func, parseVectorSource argument func = .ok source := by
  rw [parseRankBy.eq_def] at h
  split at h
  · -- the two-element form has no vector
    obtain ⟨attr, -, h⟩ := bind_eq_ok.mp h
    rw [parseOrder] at h
    split at h
    · cases h
    split_ifs at h <;> cases h <;> cases hrank
  · rename_i argument
    obtain ⟨attr, -, h⟩ := bind_eq_ok.mp h
    split at h
    · rename_i func _
      rw [parseFunction] at h
      split_ifs at h
      · split at h <;> cases h
        cases hrank
      · split at h <;> cases h
        cases hrank
      · obtain ⟨parsed, hparsed, rfl⟩ := map_eq_ok.mp h
        obtain rfl := Option.some.inj hrank
        exact ⟨argument, func, hparsed⟩
      · obtain ⟨parsed, hparsed, rfl⟩ := map_eq_ok.mp h
        obtain rfl := Option.some.inj hrank
        exact ⟨argument, func, hparsed⟩
      · cases h
        cases hrank
    · cases h
  · cases h
  · cases h

end Parsing

/-! ## Translating -/

namespace VectorSource

/-- The vector, once it is there. -/
def unwrap : VectorSource → Except Error (List F32)
  | literal vector => .ok vector
  | embed _ _ => .error (.bail "this query needs an embedding that was never resolved")

/-- The text to embed, with the model. -/
def pending : VectorSource → Option (String × Option String)
  | literal _ => none
  | embed text model => some (text, model)

/-- A text that is parsed is not blank. -/
theorem not_blank_of_parse [Crates] [SerdeJson] {raw : Json} {func : String} {source : VectorSource}
    (h : parseVectorSource raw func = .ok source) {text : String} {model : Option String}
    (hpending : source.pending = some (text, model)) : (trim text).isEmpty = false := by
  rw [parseVectorSource.eq_def] at h
  split at h
  · split at h
    · cases h
    split_ifs at h with hblank
    obtain rfl := Except.ok.inj h
    obtain ⟨rfl, -⟩ := Prod.mk.inj (Option.some.inj hpending)
    exact Bool.eq_false_iff.mpr hblank
  · split at h
    · obtain rfl := Except.ok.inj h
      cases hpending
    · cases h

end VectorSource

/-- What a query asks of the engine. -/
structure Native where
  request : QueryRequest
  orderBy : Option OrderBy := none
  search : Option Search := none
  /-- The index is bypassed. -/
  exact : Bool := false

/-- The query ranks documents. -/
def Native.ranks (n : Native) : Bool := !n.request.vector.isEmpty || n.search.isSome || n.orderBy.isSome

namespace V2Query

/-- `pending_embed`: the text to embed. -/
def pendingEmbed (q : V2Query) : Option (String × Option String) :=
  match q.rankBy with
  | some (.ann _ source) => source.pending
  | some (.knn _ source) => source.pending
  | _ => none

/-- `resolve_embed`: put the vector in the place of its text. -/
def resolveEmbed (q : V2Query) (vector : List F32) : V2Query :=
  match q.rankBy with
  | some (.ann attr _) => { q with rankBy := some (.ann attr (.literal vector)) }
  | some (.knn attr _) => { q with rankBy := some (.knn attr (.literal vector)) }
  | _ => q

/-- A text that a request asks to embed is not blank. -/
theorem text_not_blank [Crates] [SerdeJson] {raw : Json} {rankBy : RankBy} (h : parseRankBy raw = .ok rankBy)
    {q : V2Query} (hq : q.rankBy = some rankBy) {text : String} {model : Option String}
    (hpending : q.pendingEmbed = some (text, model)) : (trim text).isEmpty = false := by
  rw [pendingEmbed, hq] at hpending
  cases rankBy with
  | ann | knn =>
      obtain ⟨argument, func, hsource⟩ := source_of_parseRankBy h rfl
      exact VectorSource.not_blank_of_parse hsource hpending
  | order | bm25 | sparseKnn | unsupported => cases hpending

/-- `split_multi`: the sub-queries of a multi-query, how to fuse them, and the limit of the fused list. -/
def splitMulti (q : V2Query) : Except Error (Option (List V2Query × Option RerankBy × Nat)) :=
  match q.queries with
  | none => .ok none
  | some queries =>
    if q.rankBy.isSome || q.aggregateBy.isSome || q.filters.isSome then
      .error (.bail "`queries` is mutually exclusive with the ordinary query fields")
    else if queries.isEmpty then .error (.bail "`queries` must contain at least one sub-query")
    else if queries.length > maxSubqueries then
      .error (.bail ("at most " ++ toString maxSubqueries ++ " sub-queries per request, got " ++
        toString queries.length))
    else
      -- the first sub-query that is refused decides
      match queries.find? fun sub => sub.consistency.isSome || sub.vectorEncoding.isSome || sub.queries.isSome with
      | some sub =>
        if sub.consistency.isSome || sub.vectorEncoding.isSome then
          .error (.bail "consistency and vector_encoding belong on the root object")
        else .error (.bail "sub-queries cannot themselves be multi-queries")
      | none => .ok (some (queries, q.rerankBy, (q.topK.or q.limit).getD 10))

/-- The consistency that is asked for. -/
def freshness (q : V2Query) : Consistency :=
  match q.consistency with
  | some .eventual => .eventual eventualMaxAgeMs
  | _ => .strong

/-- `top_k`, an alias of the limit; the two must not disagree. -/
def askedTopK (q : V2Query) : Except Error Nat :=
  match q.topK, q.limit with
  | some a, some l =>
    if a ≠ l then .error (.bail ("top_k (" ++ toString a ++ ") and limit.total (" ++ toString l ++ ") disagree"))
    else .ok a
  | some a, none => .ok a
  | none, some l => .ok l
  | none, none => .ok 10

/-- How many rows are asked for. -/
def count (q : V2Query) : Except Error Nat := do
  let topK ← q.askedTopK
  if topK = 0 ∨ topK > 10000 then .error (.bail "top_k must be between 1 and 10,000")
  else return topK

variable [Crates]

/-- The vector of a ranking, the attribute to order by, what to search for, and whether the index is bypassed. -/
def ranking : RankBy → Except Error (List F32 × Option OrderBy × Option Search × Bool)
  | .ann _ source => source.unwrap.map (·, none, none, false)
  | .knn _ source => source.unwrap.map (·, none, none, true)
  | .order attr descending => .ok ([], some ⟨attr, descending⟩, none, false)
  | .bm25 attr query => .ok ([], none, some (.text attr query), false)
  | .sparseKnn attr vector => .ok ([], none, some (.sparse attr vector), false)
  | .unsupported func =>
    .error (.kinded .unimplemented ("rank_by function " ++ Crates.debugString func ++ " is not implemented"))

/-- A `vector_encoding` other than `float` is not implemented. -/
def checkEncoding (q : V2Query) : Except Error Unit :=
  match q.vectorEncoding with
  | some enc =>
    if enc ≠ "float" then
      .error (.kinded .unimplemented ("vector_encoding " ++ Crates.debugString enc ++
        " is not implemented; only \"float\" is supported"))
    else .ok ()
  | none => .ok ()

/-- `into_native`. -/
def intoNative (q : V2Query) (nprobe : Nat) : Except Error Native := do
  if q.queries.isSome then
    .error (.bail "`queries` must be handled as a multi-query, not converted directly")
  else
    q.checkEncoding
    if !q.groupBy.isEmpty && q.aggregateBy.isNone then .error (.bail "group_by requires aggregate_by")
    else
      match q.rankBy with
      | none =>
        -- a pure aggregation ranks nothing
        if q.aggregateBy.isSome then
          return { request := { vector := [], topK := 1, filter := q.filters, nprobe, consistency := q.freshness,
                                aggregateBy := q.aggregateBy, groupBy := q.groupBy } }
        else .error (.bail "rank_by is required")
      | some rankBy =>
        let (vector, orderBy, search, exact) ← ranking rankBy
        let topK ← q.count
        return { request := { vector, topK, filter := q.filters, nprobe, consistency := q.freshness,
                              includeAttributes := q.includeAttributes, aggregateBy := q.aggregateBy,
                              groupBy := q.groupBy }
                 orderBy, search, exact }

end V2Query

/-! ## Responses -/

/-- `AggregationGroup::flatten`: key and values in one object. -/
def flatten (g : AggregationGroup) : SortedMap String Value := .ofList (g.key.entries ++ g.values.entries)

structure V2QueryResponse where
  /-- Left out of a pure aggregation. -/
  rows : Option (List (V2Row F32)) := none
  /-- Only without groups. -/
  aggregations : Option (SortedMap String Value) := none
  /-- Only with groups. -/
  aggregationGroups : Option (List (SortedMap String Value)) := none

/-- What a query is answered. -/
inductive V2Answer
  | single (response : V2QueryResponse)
  | multi (results : List V2QueryResponse)

/-- `to_v2_aggregations`. -/
def toV2Aggregations (aggregations : SortedMap String Value) (groups : List AggregationGroup) (grouped : Bool) :
    V2QueryResponse :=
  if grouped then { aggregationGroups := some (groups.map flatten) } else { aggregations := some aggregations }

/-- The distance that a similarity stands for: the nearer, the smaller. -/
def distance (metric : DistanceMetric) (score : F32) : F32 :=
  match metric with
  | .cosineDistance => Scalar.sub Scalar.one score
  | .euclideanSquared => Scalar.neg score
  | .dotProduct => Scalar.neg score

/-- `to_v2_rows`. -/
def toV2Rows (hits : List Hit) (metric : DistanceMetric) : List (V2Row F32) :=
  hits.map fun h => ⟨h.id, some (distance metric h.score), h.attrs⟩

/-- `to_v2_score_rows`: a relevance stays what it is. -/
def toV2ScoreRows (hits : List (ScoredHit F32)) : List (V2Row F32) := hits.map fun h => ⟨h.id, some h.score, h.attrs⟩

/-- `to_v2_ordered_rows`. -/
def toV2OrderedRows (hits : List Hit) : List (V2Row F32) := hits.map fun h => ⟨h.id, none, h.attrs⟩

/-! ## Running -/

variable [Crates] [HashOrder]

namespace Native

/-- A vector that ranks has finite components. -/
def check (n : Native) : Except AppError Unit :=
  if !n.ranks && n.request.aggregateBy.isNone then .error (bad "rank_by vector must be non-empty and finite")
  else if n.request.vector.any (!·.isFinite) then .error (bad "rank_by vector must be non-empty and finite")
  else .ok ()

/-- The aggregations of a query that has some, shaped. -/
def shaped (n : Native) (aggregations : SortedMap String Value) (groups : List AggregationGroup) : V2QueryResponse :=
  if n.request.aggregateBy.isSome then toV2Aggregations aggregations groups (!n.request.groupBy.isEmpty) else {}

/-- Run a query of the engine. -/
def run (n : Native) (handle : Nat) (metric : DistanceMetric) : Proc V2QueryResponse :=
  if n.request.aggregateBy.isSome && !n.ranks then do
    -- a pure aggregation reports no rows
    let r ← query F64 handle n.request
    return n.shaped r.aggregations r.aggregationGroups
  else if n.exact then do
    let hits ← queryBrute handle n.request.vector n.request.topK n.request.filter
    return { rows := some (toV2Rows hits metric) }
  else
    match n.search, n.orderBy with
    | some search, _ => do
      let r ← Fckdb.search F32 F64 handle ⟨n.request, search⟩
      return { n.shaped r.aggregations r.aggregationGroups with rows := some (toV2ScoreRows r.hits) }
    | none, some order => do
      let r ← queryOrdered F64 handle n.request (some order)
      return { n.shaped r.aggregations r.aggregationGroups with rows := some (toV2OrderedRows r.hits) }
    | none, none => do
      let r ← query F64 handle n.request
      return { n.shaped r.aggregations r.aggregationGroups with rows := some (toV2Rows r.hits metric) }

end Native

/-- `run_v2_query`. -/
def runV2Query (handle : Nat) (body : V2Query) (metric : DistanceMetric) : Api V2QueryResponse := do
  let native ← .ofExcept ((body.intoNative defaultNprobe).mapError classify)
  .ofExcept native.check
  .ofProc classify (native.run handle metric)

/-! ## The handler -/

/-- `embed_one`. -/
def embedOne (embedder : Option Embedder) (text : String) (model : Option String) : Except Error (List F32) :=
  match embedder with
  | none => .error (.kinded .unimplemented ("native embedding is not configured; set FCKDB_EMBED_URL to an " ++
      "OpenAI-compatible /v1/embeddings endpoint, or send a vector instead"))
  | some embed =>
    match (embed [text] model).mapError upstream with
    | .error e => .error e
    | .ok vectors =>
      match vectors.getLast? with
      | some vector => .ok vector
      | none => .error (.kinded .upstream "embedding endpoint returned nothing")

/-- Put produced vectors in the place of the texts of the sub-queries. -/
def resolveAll (subqueries : List V2Query) : List (Nat × List F32) → List V2Query
  | [] => subqueries
  | (index, vector) :: resolved => resolveAll (subqueries.modify index (·.resolveEmbed vector)) resolved

/-- The texts to embed, with the sub-queries that they are of. -/
def pendingTexts (subqueries : List V2Query) : List (Nat × String × Option String) :=
  subqueries.zipIdx.filterMap fun p => p.1.pendingEmbed.map (p.2, ·)

/-- Embed the texts of all sub-queries in one call. -/
def embedSubqueries (embedder : Option Embedder) (subqueries : List V2Query) : Except AppError (List V2Query) :=
  match pendingTexts subqueries with
  | [] => .ok subqueries
  | (index, text, model) :: rest =>
    let pending := (index, text, model) :: rest
    if pending.any fun p => p.2.2 ≠ model then
      .error (bad "sub-queries must request the same embedding model")
    else do
      let vectors ← (embedMany embedder (pending.map fun p => p.2.1) model).mapError classify
      return resolveAll subqueries ((pending.map (·.1)).zip vectors)

/-- Embed the text of a query, if it has one. -/
def embedQuery (embedder : Option Embedder) (q : V2Query) : Except AppError V2Query :=
  match q.pendingEmbed with
  | none => .ok q
  | some (text, model) => ((embedOne embedder text model).mapError classify).map q.resolveEmbed

/-- `join_all` of handlers, then all answers or the first refusal in the order of the list. -/
def joinApi {α : Type} (ps : List (Api α)) : Api (List α) :=
  Prog.bind (Prog.joinAll Request.choose id ps) fun rs => Prog.done (rs.mapM id)

/-- Fuse the rows of the sub-queries, if that is asked for. -/
def fuseResults (rerank : Option RerankBy) (limit : Nat) (results : List V2QueryResponse) : Except AppError V2Answer :=
  match rerank with
  | none => .ok (.multi results)
  | some (.rrf k) =>
    let lists := results.filterMap (·.rows)
    if lists.isEmpty then .error (bad "rerank_by needs sub-queries that return rows")
    else .ok (.single { rows := some (Fckdb.rrf lists k limit) })

/-- `v2_query`. -/
def v2Query (embedder : Option Embedder) (handle : Nat) (body : V2Query) : Api V2Answer := do
  match ← .ofExcept (body.splitMulti.mapError classify) with
  | some (subqueries, rerank, limit) =>
    let subqueries ← .ofExcept (embedSubqueries embedder subqueries)
    let (m, _) ← .ofProc .ofError (load handle)
    -- consistency is a property of the request
    let results ← joinApi (subqueries.map fun sub =>
      runV2Query handle { sub with consistency := body.consistency } m.schema.distanceMetric)
    .ofExcept (fuseResults rerank limit results)
  | none =>
    let body ← .ofExcept (embedQuery embedder body)
    let (m, _) ← .ofProc .ofError (load handle)
    let response ← runV2Query handle body m.schema.distanceMetric
    return .single response

end Compat

end Fckdb
