import Fckdb.ExhaustiveSearch
import Fckdb.Lib.Asks

/-! # What a query reads

A query on a manifest reads objects that the manifest references, and nothing else (`queryOn_reads`). So its
answer is a function of the manifest and of the contents of these objects (`Proc.Reads.asks`, `Prog.Asks.eval_congr`). -/

namespace Fckdb

/-- A call that reads objects under names in `P`, one after the other or side by side, and asks for nothing else. -/
inductive Proc.Reads (P : ObjectName → Prop) : {α : Type} → Proc α → Prop
  | done {α : Type} (r : Except Error α) : Reads P (.done r)
  | get {name : ObjectName} (h : P name) : Reads P (readBlob name)
  | seq {α β : Type} {p : Proc α} {f : α → Proc β} (hp : Reads P p) (hf : ∀ a, Reads P (f a)) :
      Reads P (p.andThen f)
  | tryJoinAll {α : Type} {ps : List (Proc α)} (h : ∀ p ∈ ps, Reads P p) : Reads P (Proc.tryJoinAll ps)

namespace Proc.Reads

variable {α β : Type} {P : ObjectName → Prop}

/-- A computation first: it asks for nothing. -/
theorem ofExcept {r : Except Error α} {f : α → Proc β} (h : ∀ a, r = .ok a → (f a).Reads P) :
    ((Proc.ofExcept r).andThen f).Reads P := by
  cases r with
  | error e => exact .done (.error e)
  | ok a => exact h a rfl

/-- The requests of a reader. -/
def Asked (P : ObjectName → Prop) : Request → Prop
  | .get name => P name
  | .choose => True
  | _ => False

theorem asks {p : Proc α} (h : p.Reads P) : Prog.Asks (Asked P) p := by
  induction h with
  | done r => trivial
  | get h => exact .call h
  | seq _ _ hp hf => exact .tryBind hp hf
  | tryJoinAll _ h => exact .tryBind (.bind (.joinAll trivial h) fun _ => trivial) fun _ => trivial

end Proc.Reads

section Readers

variable {m : Manifest}

theorem readBlob_reads {name : ObjectName} (h : name ∈ m.referenced) : (readBlob name).Reads (· ∈ m.referenced) :=
  .get h

theorem readRecordsParallel_reads {names : List ObjectName} (h : ∀ name ∈ names, name ∈ m.referenced) :
    (readRecordsParallel names).Reads (· ∈ m.referenced) := by
  refine .seq (.tryJoinAll fun p hp => ?_) fun _ => .done _
  obtain ⟨name, hname, rfl⟩ := List.mem_map.mp hp
  refine .seq (readBlob_reads (h name hname)) fun blob => ?_
  cases blob <;> exact .done _

variable [Crates] [HashOrder] {shard : Shard} {req : QueryRequest} {filter : Option Filter}

omit [Crates] [HashOrder] in
/-- The indexes of the attributes that a filter reads. -/
theorem loadAttrIndexes_reads (h : ∀ name ∈ shard.objects, name ∈ m.referenced) {idx : IndexMeta}
    (hi : shard.index = some idx) (f : Filter) : (loadAttrIndexes idx f).Reads (· ∈ m.referenced) := by
  refine .seq (.tryJoinAll fun p hp => ?_) fun _ => .done _
  obtain ⟨target, htarget, rfl⟩ := List.mem_map.mp hp
  obtain ⟨attr, -, hget⟩ := List.mem_filterMap.mp htarget
  obtain ⟨name, hname, rfl⟩ := Option.map_eq_some_iff.mp hget
  refine .seq (readBlob_reads (h _ (mem_objects_of_index hi (mem_objects_of_attr hname)))) fun blob => ?_
  cases blob <;> exact .done _

omit [HashOrder] in
theorem prefilterSelection_reads (h : ∀ name ∈ shard.objects, name ∈ m.referenced) :
    (prefilterSelection shard req filter).Reads (· ∈ m.referenced) := by
  rw [prefilterSelection.eq_def]
  cases hi : shard.index with
  | none => exact .done _
  | some idx =>
      cases filter with
      | none => exact .done _
      | some f =>
          dsimp only
          split_ifs
          · exact .done _
          · refine .seq (loadAttrIndexes_reads h hi f) fun indexes => ?_
            cases evaluate indexes (asU32 idx.docs) f with
            | none => exact .done _
            | some sel =>
                dsimp only
                split_ifs <;> exact .done _

omit [Crates] [HashOrder] in
theorem probedRecords_reads (h : ∀ name ∈ shard.objects, name ∈ m.referenced) {idx : IndexMeta}
    (hi : shard.index = some idx) (metric : DistanceMetric) : (probedRecords idx req metric).Reads (· ∈ m.referenced) := by
  rw [probedRecords]
  split_ifs
  · exact .done _
  · have hcentroids : (readCentroids idx.centroids).Reads (· ∈ m.referenced) := by
      refine .seq (readBlob_reads (h _ (mem_objects_centroids hi))) fun blob => ?_
      cases blob <;> exact .done _
    refine .seq hcentroids fun flat => .seq (.done _) fun centroids => ?_
    exact readRecordsParallel_reads fun name hname => h name (mem_objects_of_probed hi hname)

/-- The objects of a shard are read, and no others. -/
theorem shardHits_reads (h : ∀ name ∈ shard.objects, name ∈ m.referenced) (tail : List Record) (schema : Schema) :
    (shardHits shard req filter tail schema).Reads (· ∈ m.referenced) := by
  have hsegments : (readRecordsParallel (shard.segments.map fun s => .data s.name)).Reads (· ∈ m.referenced) :=
    readRecordsParallel_reads fun name hname => h name (List.mem_append_left _ hname)
  refine .seq (prefilterSelection_reads h) fun pick => ?_
  cases pick with
  | some sel => exact .seq hsegments fun _ => .done _
  | none =>
      cases hi : shard.index with
      | none => exact .seq hsegments fun _ => .done _
      | some idx => exact .seq (probedRecords_reads h hi _) fun _ => .done _

theorem rankShards_reads (tail : List Record) : (rankShards req filter m tail).Reads (· ∈ m.referenced) := by
  refine .tryJoinAll fun p hp => ?_
  obtain ⟨⟨shard, slice⟩, hshard, rfl⟩ := List.mem_map.mp hp
  exact shardHits_reads (fun name hname => mem_referenced_resident (List.of_mem_zip hshard).1 hname) _ _

variable {N : Type} [Numbers N]

theorem aggregateShards_reads {schema : Schema} {tail : List Record} {shards : List Shard}
    (h : ∀ shard ∈ shards, ∀ name ∈ shard.objects, name ∈ m.referenced) (number : Nat) (a : Aggregator N) :
    (aggregateShards filter schema tail number shards a).Reads (· ∈ m.referenced) := by
  induction shards generalizing number a with
  | nil => exact .done _
  | cons shard shards ih =>
      obtain ⟨hfirst, hrest⟩ := List.forall_mem_cons.mp h
      refine .seq (readRecordsParallel_reads fun name hname => hfirst name (List.mem_append_left _ hname)) ?_
      exact fun records => .seq (.done _) fun a => ih hrest (number + 1) a

theorem aggregations_reads (tail : List Record) : (aggregations N req filter m tail).Reads (· ∈ m.referenced) := by
  rw [aggregations.eq_def]
  cases req.aggregateBy with
  | none => exact .done _
  | some aggs =>
      refine .seq (.done _) fun a => ?_
      split_ifs
      · exact .seq (.done _) fun _ => .done _
      · refine .seq (aggregateShards_reads (fun shard hshard name hname => ?_) 0 a) fun _ => .done _
        exact Manifest.mem_referenced.mpr (.inr ⟨shard, hshard, hname⟩)

/-- **A query on a manifest** reads objects that the manifest references, and nothing else. -/
theorem queryOn_reads (snapshot : Bool) : (queryOn N req m snapshot).Reads (· ∈ m.referenced) := by
  refine .seq (.done _) fun filter => .seq (.done _) fun _ => .ofExcept fun x hx => ?_
  have htail : (readRecordsParallel (x.1.map fun e => .wal e.name)).Reads (· ∈ m.referenced) :=
    readRecordsParallel_reads fun name hname => Manifest.mem_referenced.mpr
      (.inl (List.map_subset _ (tailEntries_isPrefix hx).subset hname))
  refine .seq htail fun tail => .seq (aggregations_reads tail) fun aggs => ?_
  dsimp only
  split_ifs
  · exact .done _
  · exact .seq (rankShards_reads tail) fun outcomes => .done _

/-! ## Searches -/

variable {S : Type} [Score S] {search : SearchRequest}

omit [HashOrder] in
theorem shardSearch_reads (h : ∀ name ∈ shard.objects, name ∈ m.referenced) (tail : List Record) (schema : Schema) :
    (shardSearch S shard search filter tail schema).Reads (· ∈ m.referenced) := by
  have hsegments : (readRecordsParallel (shard.segments.map fun s => .data s.name)).Reads (· ∈ m.referenced) :=
    readRecordsParallel_reads fun name hname => h name (List.mem_append_left _ hname)
  rw [shardSearch.eq_def]
  cases search.search with
  | sparse attr vector =>
      cases hi : shard.index with
      | none => exact .done _
      | some idx =>
          cases hattr : idx.sparse.get attr with
          | none => simp only [hattr]; exact .done _
          | some name =>
              simp only [hattr]
              have hindex : (readSparseIndex name).Reads (· ∈ m.referenced) := by
                refine .seq (readBlob_reads (h _ (mem_objects_of_index hi (mem_objects_of_sparse hattr))))
                  fun blob => ?_
                cases blob <;> exact .done _
              exact .seq hindex fun _ => .seq hsegments fun _ => .done _
  | text attr query =>
      cases hi : shard.index with
      | none => exact .done _
      | some idx =>
          cases hattr : idx.fts.get attr with
          | none => simp only [hattr]; exact .done _
          | some name =>
              simp only [hattr]
              have hindex : (readFtsIndex name).Reads (· ∈ m.referenced) := by
                refine .seq (readBlob_reads (h _ (mem_objects_of_index hi (mem_objects_of_fts hattr))))
                  fun blob => ?_
                cases blob <;> exact .done _
              exact .seq hindex fun _ => .seq hsegments fun _ => .done _

/-- **A search on a manifest** reads objects that the manifest references, and nothing else. -/
theorem searchOn_reads (snapshot : Bool) : (searchOn S N search m snapshot).Reads (· ∈ m.referenced) := by
  refine .seq (.done _) fun filter => .seq (.done _) fun _ => .ofExcept fun x hx => ?_
  have htail : (readRecordsParallel (x.1.map fun e => .wal e.name)).Reads (· ∈ m.referenced) :=
    readRecordsParallel_reads fun name hname => Manifest.mem_referenced.mpr
      (.inl (List.map_subset _ (tailEntries_isPrefix hx).subset hname))
  refine .seq htail fun tail => .seq (aggregations_reads tail) fun aggs => .seq (.tryJoinAll ?_) fun _ => .done _
  intro p hp
  obtain ⟨⟨shard, slice⟩, hshard, rfl⟩ := List.mem_map.mp hp
  exact shardSearch_reads (fun name hname => mem_referenced_resident (List.of_mem_zip hshard).1 hname) _ _

end Readers

end Fckdb
