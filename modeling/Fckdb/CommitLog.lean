import Fckdb.CallMoves
import Fckdb.Quiet
import Fckdb.SchemaFrame

/-! # The commit log

The commits of a namespace in the order in which they won. Every version of the manifest stands for a
prefix of them: its segments hold the first `folded` commits, its WAL keeps those from `retired` on, and
the two overlap (`Logged`). A commit and an install keep this; an install can break it only if its
guard, which compares shards, mistakes one hollow manifest for another. -/

namespace Fckdb

/-! ## Logs and manifests -/

/-- The records of some commits, in order. -/
def batchesOf (log : List Commit) : List Record := log.flatMap (·.batch)

/-- A snapshot of the first `j` commits, then the commits from `k ≤ j` on. -/
theorem materialize_window (log : List Commit) {k j : Nat} (h : k ≤ j) :
    replay apply (materialize (batchesOf (log.take j))) (batchesOf (log.drop k)) =
      materialize (batchesOf log) :=
  apply_replayIdempotent.window_blocks Commit.batch .empty log h

/-- How many commits are no longer in the WAL. -/
def Manifest.retired (m : Manifest) : Nat := m.nextSeq - m.wal.length

/-- The objects of the segments. -/
def Manifest.segmentObjects (m : Manifest) : List ObjectName := m.allSegments.map fun s => .data s.name

/-- The objects of the WAL. -/
def Manifest.walObjects (m : Manifest) : List ObjectName := m.wal.map fun e => .wal e.name

/-- Shards without a segment: all documents were deleted before the last compaction. -/
def Manifest.Hollow (m : Manifest) : Prop := m.shards ≠ [] ∧ m.allSegments = []

instance (m : Manifest) : Decidable m.Hollow := inferInstanceAs (Decidable (_ ∧ _))

/-- The number of versions that the compaction which wrote a version had read. -/
def Version.read? (v : Version) : Option Nat :=
  match v.reason with
  | .commit _ => none
  | .compaction _ read => some (seen read)

/-- The number of versions that the last compaction had read. -/
def lastRead (vs : List Version) : Nat := ((vs.filterMap Version.read?).getLast?).getD 0

/-- How many commits the segments hold. -/
def folded (vs : List Version) : Nat := (logOf (vs.take (lastRead vs))).length

@[simp] theorem lastRead_append (vs : List Version) (v : Version) :
    lastRead (vs ++ [v]) = v.read?.getD (lastRead vs) := by
  rw [lastRead, List.filterMap_append, List.filterMap_cons, List.filterMap_nil]
  cases v.read? with
  | none => simp [lastRead]
  | some n => simp

/-- The commits of a prefix of the history are a prefix of the commits. -/
theorem logOf_take (vs : List Version) (n : Nat) :
    logOf (vs.take n) = (logOf vs).take (logOf (vs.take n)).length :=
  List.prefix_iff_eq_take.mp (logOf_take_isPrefix vs n)

theorem length_logOf_take_le {vs : List Version} {n n' : Nat} (h : n ≤ n') :
    (logOf (vs.take n)).length ≤ (logOf (vs.take n')).length := by
  have hp : vs.take n <+: vs.take n' := List.take_prefix_take_left h
  exact (hp.filterMap _).length_le

/-! ## What a version of the manifest stands for -/

/-- The last of the versions `vs` keeps the commits: its WAL is the end of the log and its segments the
beginning, with nothing missing in between. -/
structure Logged (s : Store) (vs : List Version) : Prop where
  nextSeq : (lastManifest vs).nextSeq = (logOf vs).length
  seqs : (logOf vs).map Commit.seq = List.range (logOf vs).length
  batches : ∀ c ∈ logOf vs, s.HasRecords (.wal c.entry.name) c.batch
  wal : (lastManifest vs).wal = ((logOf vs).drop (lastManifest vs).retired).map Commit.entry
  read_le : lastRead vs ≤ vs.length
  overlap : (lastManifest vs).retired ≤ folded vs
  segments : ∃ rs, s.Reads (lastManifest vs).segmentObjects rs ∧
    materialize rs = materialize (batchesOf ((logOf vs).take (folded vs)))
  /-- A segment was written by a thread that wrote a version. -/
  owned : ∀ name ∈ (lastManifest vs).segmentObjects, ∃ v ∈ vs, ∃ blob, s.Wrote v.thread name blob
  counted : 0 < (lastManifest vs).schema.shards

namespace Logged

variable {s s' : Store} {vs : List Version}

theorem init : Logged s [] where
  nextSeq := rfl
  seqs := rfl
  batches := nofun
  wal := rfl
  read_le := Nat.le_refl _
  overlap := Nat.le_refl _
  segments := ⟨[], .nil, rfl⟩
  owned := nofun
  counted := Nat.one_pos

theorem grows {who : Nat → Prop} (h : Logged s vs) (hg : Grows who s s') : Logged s' vs where
  nextSeq := h.nextSeq
  seqs := h.seqs
  batches c hc := hg.hasRecords (h.batches c hc)
  wal := h.wal
  read_le := h.read_le
  overlap := h.overlap
  segments := by
    obtain ⟨rs, hrs, hm⟩ := h.segments
    exact ⟨rs, hg.reads hrs, hm⟩
  owned name hname := by
    obtain ⟨v, hv, blob, hw⟩ := h.owned name hname
    exact ⟨v, hv, blob, hg.wrote hw⟩
  counted := h.counted

theorem retired_le (h : Logged s vs) : (lastManifest vs).retired ≤ (logOf vs).length :=
  h.nextSeq ▸ Nat.sub_le _ _

theorem folded_le (vs : List Version) : folded vs ≤ (logOf vs).length :=
  (logOf_take_isPrefix vs _).length_le

/-- The entries of the log have distinct names. -/
theorem nodup_names (h : Logged s vs) : ((logOf vs).map fun c => c.entry.name).Nodup := by
  have hseqs : ((logOf vs).map Commit.seq).Nodup := h.seqs ▸ List.nodup_range
  have hmap : (logOf vs).map Commit.seq = ((logOf vs).map fun c => c.entry.name).map (·.seq) := by
    rw [List.map_map]
    rfl
  exact (hmap ▸ hseqs).of_map _

/-- Commits whose batches are stored can be read. -/
theorem reads_batches {log : List Commit} (h : ∀ c ∈ log, s.HasRecords (.wal c.entry.name) c.batch) :
    s.Reads ((log.map Commit.entry).map fun e => .wal e.name) (batchesOf log) := by
  induction log with
  | nil => exact .nil
  | cons c log ih =>
      exact (h c List.mem_cons_self).reads.append (ih fun x hx => h x (List.mem_cons_of_mem _ hx))

/-- **A full read** finds the segments and the WAL. -/
theorem full (h : Logged s vs) : ∃ rs, s.Reads (lastManifest vs).recordObjects rs ∧
    materialize rs = materialize (batchesOf (logOf vs)) := by
  obtain ⟨rs, hrs, hm⟩ := h.segments
  have hwal : s.Reads (lastManifest vs).walObjects
      (batchesOf ((logOf vs).drop (lastManifest vs).retired)) := by
    rw [Manifest.walObjects, h.wal]
    exact reads_batches fun c hc => h.batches c ((List.drop_sublist _ _).subset hc)
  refine ⟨_, hrs.append hwal, ?_⟩
  rw [materialize, replay_append]
  show replay apply (materialize rs) _ = _
  rw [hm, materialize_window _ h.overlap]

/-- What a full read finds stands for the whole log. -/
theorem materialize_full (h : Logged s vs) {rs : List Record}
    (hrs : s.Reads (lastManifest vs).recordObjects rs) :
    materialize rs = materialize (batchesOf (logOf vs)) := by
  obtain ⟨rs', hrs', hm⟩ := h.full
  exact hrs.unique hrs' ▸ hm

/-! ## One more version -/

/-- How many commits the segments hold after one more version. -/
theorem folded_append (h : Logged s vs) {v : Version} :
    folded (vs ++ [v]) = match v.read? with
      | none => folded vs
      | some n => (logOf ((vs ++ [v]).take n)).length := by
  rw [folded, lastRead_append]
  cases v.read? with
  | none => rw [Option.getD_none, List.take_append_of_le_length h.read_le, folded]
  | some n => rfl

/-- **A commit** appends its batch. -/
theorem commit (h : Logged s vs) {schema : Schema} {batch : List Record} {uuid now t time : Nat}
    (hstored : s.HasRecords (.wal ⟨(lastManifest vs).nextSeq, uuid⟩) batch) (hcount : 0 < schema.shards) :
    Logged s (vs ++ [⟨(lastManifest vs).push schema ⟨(lastManifest vs).nextSeq, uuid⟩ batch now, t,
      .commit batch, time⟩]) := by
  generalize hm : lastManifest vs = m at *
  have hnext := h.nextSeq
  have hwal := h.wal
  rw [hm] at hnext hwal
  have hlen : m.wal.length ≤ m.nextSeq := by
    have := congrArg List.length hwal
    rw [List.length_map, List.length_drop, ← hnext] at this
    omega
  generalize hv : (⟨m.push schema ⟨m.nextSeq, uuid⟩ batch now, t, .commit batch, time⟩ : Version) = v
  have hlog : logOf (vs ++ [v]) = logOf vs ++
      [⟨t, ⟨⟨m.nextSeq, uuid⟩, (frameRecords batch).length, asU32 batch.length⟩, batch⟩] := by
    rw [logOf_append, ← hv]
    congr 1
    rw [logOf, List.filterMap_cons, Version.commit?, Manifest.push_wal, List.getLast?_concat]
    rfl
  have hret : (lastManifest (vs ++ [v])).retired = m.retired := by
    rw [lastManifest_append, ← hv, Manifest.retired, Manifest.retired, Manifest.push_nextSeq,
      Manifest.push_wal, List.length_append, List.length_singleton, Nat.add_sub_add_right]
  have hfolded : folded (vs ++ [v]) = folded vs := by
    rw [h.folded_append, ← hv]
    rfl
  have hsegs : (lastManifest (vs ++ [v])).segmentObjects = m.segmentObjects := by
    rw [lastManifest_append, ← hv]
    rfl
  refine ⟨?_, ?_, ?_, ?_, ?_, ?_, ?_, ?_, ?_⟩
  · rw [hlog, lastManifest_append, ← hv, Manifest.push_nextSeq, hnext, List.length_append]
    rfl
  · rw [hlog, List.map_append, h.seqs, List.length_append, List.length_singleton, List.range_succ,
      ← hnext]
    rfl
  · rw [hlog]
    intro c hc
    rcases List.mem_append.mp hc with hc | hc
    · exact h.batches c hc
    · obtain rfl := List.mem_singleton.mp hc
      exact hstored
  · have hle : m.retired ≤ (logOf vs).length := hnext ▸ Nat.sub_le _ _
    rw [hret, hlog, List.drop_append_of_le_length hle, List.map_append, ← hwal, lastManifest_append,
      ← hv, Manifest.push_wal]
    rfl
  · rw [lastRead_append, List.length_append, ← hv]
    exact h.read_le.trans (Nat.le_add_right _ _)
  · rw [hret, hfolded]
    exact hm ▸ h.overlap
  · obtain ⟨rs, hrs, hmat⟩ := h.segments
    refine ⟨rs, hsegs ▸ hm ▸ hrs, ?_⟩
    rw [hmat, hfolded, hlog, List.take_append_of_le_length (folded_le vs)]
  · intro name hname
    rw [hsegs, ← hm] at hname
    obtain ⟨v', hv', hw⟩ := h.owned name hname
    exact ⟨v', List.mem_append_left _ hv', hw⟩
  · rw [lastManifest_append, ← hv, Manifest.push_schema]
    exact hcount

end Logged

/-! ## New shards -/

section Install

variable [Crates] {s : Store} {vs : List Version} {t : Nat} {schema : Schema} {buildIndex : Bool}
  {shards : List Shard}

omit [Crates] in
/-- Every document has one bucket. -/
theorem buckets_perm (docs : List Doc) {count : Nat} (h : 0 < count) :
    (buckets docs count).flatten.Perm docs := by
  rw [buckets, ← List.flatMap_def]
  exact perm_flatMap_filter (fun d : Doc => shardOf d.id count) fun _ _ => shardOf_lt h

/-- A shard that was built is empty, or has one segment. -/
theorem ShardBuilt.segment {docs : List Doc} {shard : Shard}
    (h : ShardBuilt s t schema docs buildIndex shard) :
    docs = [] ∧ shard = {} ∨ ∃ seg, s.Wrote t (.data seg) (upserts docs) ∧
      shard.segments.map (fun e => ObjectName.data e.name) = [.data seg] := by
  rw [ShardBuilt] at h
  by_cases hnil : docs = []
  · rw [if_pos hnil] at h
    exact .inl ⟨hnil, h⟩
  · rw [if_neg hnil] at h
    obtain ⟨seg, index, hw, rfl, -⟩ := h
    exact .inr ⟨seg, hw, rfl⟩

/-- The segments of shards that were built hold the documents. -/
theorem reads_built {dss : List (List Doc)}
    (h : List.Forall₂ (fun docs shard => ShardBuilt s t schema docs buildIndex shard) dss shards) :
    s.Reads ((shards.flatMap (·.segments)).map fun e => .data e.name) (dss.flatten.map .upsert) := by
  induction h with
  | nil => exact .nil
  | cons hb _ ih =>
      rw [List.flatMap_cons, List.map_append, List.flatten_cons, List.map_append]
      refine Store.Reads.append ?_ ih
      obtain ⟨rfl, rfl⟩ | ⟨seg, hw, hseg⟩ := hb.segment
      · exact .nil
      · rw [hseg]
        exact hw.hasRecords.reads

/-- Their segments were written by the thread that built them. -/
theorem wrote_built {dss : List (List Doc)}
    (h : List.Forall₂ (fun docs shard => ShardBuilt s t schema docs buildIndex shard) dss shards)
    {name : ObjectName} (hname : name ∈ (shards.flatMap (·.segments)).map fun e => .data e.name) :
    ∃ blob, s.Wrote t name blob := by
  induction h with
  | nil => cases hname
  | cons hb _ ih =>
      rw [List.flatMap_cons, List.map_append] at hname
      rcases List.mem_append.mp hname with hmem | hmem
      · obtain ⟨rfl, rfl⟩ | ⟨seg, hw, hseg⟩ := hb.segment
        · cases hmem
        · rw [hseg] at hmem
          obtain rfl := List.mem_singleton.mp hmem
          exact ⟨_, hw⟩
      · exact ih hmem

/-- **What a compaction builds stands for the records it read.** -/
theorem materialize_built {records : List Record} {count : Nat} (hcount : 0 < count)
    (h : List.Forall₂ (fun docs shard => ShardBuilt s t schema docs buildIndex shard)
      (buckets (materialize records).values count) shards) :
    ∃ rs, s.Reads ((shards.flatMap (·.segments)).map fun e => .data e.name) rs ∧
      materialize rs = materialize records :=
  ⟨_, reads_built h, materialize_upserts (materialize_wellKeyed records) (buckets_perm _ hcount)⟩

namespace Logged

variable {base read : Option Nat} {m : Manifest} {records : List Record}

omit [Crates] in
/-- The WAL after an install: the entries that neither were retired before nor were there when the
compaction began. -/
theorem install_wal (shards : List Shard) (now : Nat) (hall : ∀ n, Logged s (vs.take n)) (hm : m = lastManifest (vs.take (seen base)))
    (hmono : m.retired ≤ (lastManifest vs).retired) :
    ((lastManifest vs).install (m.wal.map (·.name)) shards now).wal =
      ((logOf vs).drop (max (lastManifest vs).retired (logOf (vs.take (seen base))).length)).map
        Commit.entry := by
  have h : Logged s vs := vs.take_length ▸ hall vs.length
  have hconsumed : m.wal.map (·.name) =
      (((logOf vs).take (logOf (vs.take (seen base))).length).drop m.retired).map
        fun c => c.entry.name := by
    have hwal := (hall (seen base)).wal
    rw [← hm, logOf_take vs (seen base)] at hwal
    rw [hwal, List.map_map]
    rfl
  rw [Manifest.install_wal, hconsumed, h.wal, List.filter_map]
  congr 1
  exact filter_drop_window _ h.nodup_names hmono

omit [Crates] in
theorem install_retired (shards : List Shard) (now : Nat) (hall : ∀ n, Logged s (vs.take n))
    (hm : m = lastManifest (vs.take (seen base))) (hmono : m.retired ≤ (lastManifest vs).retired) :
    ((lastManifest vs).install (m.wal.map (·.name)) shards now).retired =
      max (lastManifest vs).retired (logOf (vs.take (seen base))).length := by
  have h : Logged s vs := vs.take_length ▸ hall vs.length
  have hle := h.retired_le
  have hbase := (logOf_take_isPrefix vs (seen base)).length_le
  rw [Manifest.retired, install_wal shards now hall hm hmono, Manifest.install_nextSeq, h.nextSeq,
    List.length_map, List.length_drop]
  omega

/-- **An install** keeps the log, if what it retires it has read. -/
theorem install (now time : Nat) (hall : ∀ n, Logged s (vs.take n)) (hm : m = lastManifest (vs.take (seen base)))
    (hlater : seen base ≤ seen read) (hknown : seen read ≤ vs.length)
    (hmono : m.retired ≤ (lastManifest vs).retired)
    (hread : (lastManifest vs).retired ≤ (logOf (vs.take (seen read))).length)
    (hrecords : s.Reads (lastManifest (vs.take (seen read))).recordObjects records)
    (hbuilt : List.Forall₂ (fun docs shard => ShardBuilt s t m.schema docs buildIndex shard)
      (buckets (materialize records).values m.schema.shards) shards) :
    Logged s (vs ++ [⟨(lastManifest vs).install (m.wal.map (·.name)) shards now, t,
      .compaction base read, time⟩]) := by
  have h : Logged s vs := vs.take_length ▸ hall vs.length
  have hbase := (logOf_take_isPrefix vs (seen base)).length_le
  have hretired := install_retired shards now hall hm hmono
  have hwal := install_wal shards now hall hm hmono
  generalize hv : (⟨(lastManifest vs).install (m.wal.map (·.name)) shards now, t,
    .compaction base read, time⟩ : Version) = v
  have hman : lastManifest (vs ++ [v]) = (lastManifest vs).install (m.wal.map (·.name)) shards now := by
    rw [lastManifest_append, ← hv]
  have hlog : logOf (vs ++ [v]) = logOf vs := by
    rw [logOf_append, ← hv]
    exact List.append_nil _
  have hlast : lastRead (vs ++ [v]) = seen read := by
    rw [lastRead_append, ← hv]
    rfl
  have hfolded : folded (vs ++ [v]) = (logOf (vs.take (seen read))).length := by
    rw [folded, hlast, List.take_append_of_le_length hknown]
  have hsegs : (lastManifest (vs ++ [v])).segmentObjects =
      (shards.flatMap (·.segments)).map fun e => .data e.name := by
    rw [hman]
    rfl
  refine ⟨?_, ?_, ?_, ?_, ?_, ?_, ?_, ?_, ?_⟩
  · rw [hlog, hman, Manifest.install_nextSeq, h.nextSeq]
  · rw [hlog, h.seqs]
  · rw [hlog]
    exact h.batches
  · rw [hlog, hman, hretired, hwal]
  · rw [hlast, List.length_append]
    exact hknown.trans (Nat.le_add_right _ _)
  · rw [hman, hretired, hfolded]
    exact max_le hread (length_logOf_take_le hlater)
  · obtain ⟨rs, hrs, hmat⟩ := materialize_built (hm ▸ (hall (seen base)).counted) hbuilt
    refine ⟨rs, hsegs ▸ hrs, ?_⟩
    rw [hmat, (hall (seen read)).materialize_full hrecords, hfolded, hlog, ← logOf_take]
  · intro name hname
    rw [hsegs] at hname
    obtain ⟨blob, hw⟩ := wrote_built hbuilt hname
    refine ⟨v, List.mem_append_right _ (List.mem_singleton_self v), blob, ?_⟩
    rw [← hv]
    exact hw
  · rw [hman, Manifest.install_schema]
    exact h.counted

end Logged

end Install

end Fckdb
