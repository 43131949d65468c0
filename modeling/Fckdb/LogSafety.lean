import Fckdb.CommitLog

/-! # The live set is the fold of the commits

Under any interleaving of commits and compactions the current manifest stands for all commits that won,
in the order of their sequence numbers, if every install over hollow shards has read what is retired
(`Reaches.logSafe`). Without that condition a document that was deleted can come back
(`resurrected_not_logSafe`): two hollow manifests have equal shards. -/

namespace Fckdb

/-! ## The invariant -/

/-- Every version of the manifest keeps the commits, and retires more and more of them. -/
structure LogInv (s : Store) : Prop where
  dropped : s.dropped = 0
  deleted : s.deleted = []
  logged : ∀ n, Logged s (s.versions.take n)
  /-- Shards with a segment tell how much is retired. -/
  guarded : ∀ n n', n ≤ n' → ¬ (lastManifest (s.versions.take n)).Hollow →
    (lastManifest (s.versions.take n)).shards = (lastManifest (s.versions.take n')).shards →
    (lastManifest (s.versions.take n)).retired = (lastManifest (s.versions.take n')).retired
  monotone : ∀ n n', n ≤ n' →
    (lastManifest (s.versions.take n)).retired ≤ (lastManifest (s.versions.take n')).retired

namespace LogInv

variable {s s' : Store}

theorem init : LogInv {} where
  dropped := rfl
  deleted := rfl
  logged n := by
    rw [List.take_nil]
    exact .init
  guarded n n' _ _ _ := by rw [List.take_nil, List.take_nil]
  monotone n n' _ := by rw [List.take_nil, List.take_nil]

theorem manifest_eq (h : LogInv s) : s.manifest = lastManifest s.versions := by
  rw [Store.manifest, h.dropped, List.drop_zero]

theorem current (h : LogInv s) : Logged s s.versions :=
  s.versions.take_length ▸ h.logged s.versions.length

/-- A step that writes no manifest and deletes nothing. -/
theorem grows {who : Nat → Prop} (h : LogInv s) (hg : Grows who s s') (hv : s'.versions = s.versions)
    (hdel : s'.deleted = s.deleted) (hdrop : s'.dropped = s.dropped) : LogInv s' where
  dropped := hdrop.trans h.dropped
  deleted := hdel.trans h.deleted
  logged n := hv ▸ (h.logged n).grows hg
  guarded := hv ▸ h.guarded
  monotone := hv ▸ h.monotone

/-- One more version. -/
theorem push {who : Nat → Prop} {v : Version} (h : LogInv s) (hg : Grows who s (s.push v))
    (hlog : Logged s (s.versions ++ [v])) (hmono : s.manifest.retired ≤ v.manifest.retired)
    (hguard : ∀ n, ¬ (lastManifest (s.versions.take n)).Hollow →
      (lastManifest (s.versions.take n)).shards = v.manifest.shards →
      (lastManifest (s.versions.take n)).retired = v.manifest.retired) : LogInv (s.push v) := by
  -- a prefix of the longer history is an old one, or all of it
  have htake : ∀ n, (s.push v).versions.take n = s.versions.take n ∧ n ≤ s.versions.length ∨
      (s.push v).versions.take n = s.versions ++ [v] ∧ s.versions.length < n := by
    intro n
    rcases Nat.lt_or_ge s.versions.length n with hlt | hle
    · exact .inr ⟨List.take_of_length_le (by rw [Store.push, List.length_append]; exact hlt), hlt⟩
    · exact .inl ⟨List.take_append_of_le_length hle, hle⟩
  refine ⟨h.dropped, h.deleted, fun n => ?_, fun n n' hn hnot heq => ?_, fun n n' hn => ?_⟩
  · rcases htake n with ⟨ht, -⟩ | ⟨ht, -⟩
    · exact ht ▸ (h.logged n).grows hg
    · exact ht ▸ hlog.grows hg
  · rcases htake n with ⟨ht, hle⟩ | ⟨ht, hlt⟩
    · rw [ht] at hnot heq ⊢
      rcases htake n' with ⟨ht', -⟩ | ⟨ht', -⟩
      · rw [ht'] at heq ⊢
        exact h.guarded n n' hn hnot heq
      · rw [ht', lastManifest_append] at heq ⊢
        exact hguard n hnot heq
    · rcases htake n' with ⟨-, hle'⟩ | ⟨ht', -⟩
      · omega
      · rw [ht, ht']
  · rcases htake n with ⟨ht, hle⟩ | ⟨ht, hlt⟩
    · rw [ht]
      rcases htake n' with ⟨ht', -⟩ | ⟨ht', -⟩
      · exact ht' ▸ h.monotone n n' hn
      · rw [ht', lastManifest_append]
        refine le_trans ?_ hmono
        rw [h.manifest_eq]
        conv_rhs => rw [← s.versions.take_length]
        exact h.monotone n _ hle
    · rcases htake n' with ⟨-, hle'⟩ | ⟨ht', -⟩
      · omega
      · rw [ht, ht']

end LogInv

/-! ## Steps -/

/-- An install over hollow shards has read what is retired: no other compaction has removed an entry
from the WAL that this one does not know. -/
def Store.InstallReads (s : Store) (base read : Option Nat) : Prop :=
  (s.manifestAt base).Hollow → s.manifest.retired ≤ (s.manifestAt read).nextSeq

/-- The calls that delete nothing. -/
def Call.Keeps : Call → Prop
  | .gc _ _ => False
  | .destroy _ => False
  | _ => True

instance : DecidablePred Call.Keeps
  | .gc _ _ => isFalse id
  | .destroy _ => isFalse id
  | .commitRecords _ _ _ => isTrue trivial
  | .commitBatch _ _ => isTrue trivial
  | .compact _ _ => isTrue trivial
  | .query _ _ => isTrue trivial

section Safe

variable [Crates] [HashOrder]

omit [HashOrder] in
/-- What a commit makes of a schema has a shard. -/
theorem Call.prepare_shards {call : Call} {prepare : Manifest → Except Error (Schema × List Record)}
    (hcall : call.prepare = some prepare) {m : Manifest} {schema : Schema} {batch : List Record}
    (h : prepare m = .ok (schema, batch)) (hm : 0 < m.schema.shards) : 0 < schema.shards := by
  cases call with
  | commitRecords handle records config =>
      cases hcall
      obtain ⟨habsorb, hshards⟩ := prepareRecords_eq_ok h
      rw [Schema.shards, (Schema.absorb_extends habsorb).numShards, Schema.configured]
      cases hn : config.numShards with
      | none => exact hm
      | some n => exact (hshards n hn).1
  | commitBatch handle batch =>
      cases hcall
      cases h
      exact hm
  | _ => cases hcall

omit [HashOrder] in
/-- **A commit keeps the commits.** -/
theorem LogInv.commit {s : Store} {t : Nat} {call : Call} (h : LogInv s)
    {prepare : Manifest → Except Error (Schema × List Record)} {schema : Schema} {batch : List Record}
    {uuid now : Nat} (asked : call.prepare = some prepare)
    (prepared : prepare s.manifest = .ok (schema, batch))
    (stored : s.Wrote t (.wal ⟨s.manifest.nextSeq, uuid⟩) (.records batch))
    (hg : Grows (· = t) s (s.push ⟨s.manifest.push schema ⟨s.manifest.nextSeq, uuid⟩ batch now, t,
      .commit batch, s.clock⟩)) :
    LogInv (s.push ⟨s.manifest.push schema ⟨s.manifest.nextSeq, uuid⟩ batch now, t, .commit batch,
      s.clock⟩) := by
  have hman := h.manifest_eq
  have hret : (s.manifest.push schema ⟨s.manifest.nextSeq, uuid⟩ batch now).retired =
      s.manifest.retired := by
    rw [Manifest.retired, Manifest.retired, Manifest.push_nextSeq, Manifest.push_wal,
      List.length_append, List.length_singleton, Nat.add_sub_add_right]
  refine h.push hg ?_ (hret ▸ Nat.le_refl _) fun n hnot heq => ?_
  · have hcount := Call.prepare_shards asked prepared (hman ▸ h.current.counted)
    rw [hman] at stored ⊢
    exact h.current.commit stored.hasRecords hcount
  · -- the shards are those of the current manifest
    rw [hret, hman]
    have htake : s.versions.take (max n s.versions.length) = s.versions :=
      List.take_of_length_le (le_max_right _ _)
    conv_rhs => rw [← htake]
    refine h.guarded n _ (le_max_left _ _) hnot ?_
    rw [htake, ← hman]
    exact heq

omit [HashOrder] in
/-- No earlier version has the shards that a thread without a version has just built, unless both are
hollow. -/
theorem LogInv.shards_fresh {s : Store} {t : Nat} (h : LogInv s) (first : s.writtenBy t = [])
    {schema : Schema} {buildIndex : Bool} {dss : List (List Doc)} {shards : List Shard}
    (hdss : dss ≠ [])
    (built : List.Forall₂ (fun docs shard => ShardBuilt s t schema docs buildIndex shard) dss shards)
    {n : Nat} (heq : (lastManifest (s.versions.take n)).shards = shards) :
    (lastManifest (s.versions.take n)).Hollow := by
  refine ⟨fun hnil => hdss ?_, ?_⟩
  · rw [hnil] at heq
    rw [← heq] at built
    exact List.forall₂_nil_right_iff.mp built
  · rw [List.eq_nil_iff_forall_not_mem]
    intro e he
    have hmem : ObjectName.data e.name ∈ (lastManifest (s.versions.take n)).segmentObjects :=
      List.mem_map_of_mem he
    obtain ⟨v, hv, blob, hw⟩ := (h.logged n).owned _ hmem
    rw [Manifest.segmentObjects, Manifest.allSegments, heq] at hmem
    obtain ⟨blob', hw'⟩ := wrote_built built hmem
    -- the segment names its writer, which has a version already
    have hmine : v ∈ s.writtenBy t :=
      List.mem_filter.mpr ⟨(List.take_sublist _ _).subset hv, decide_eq_true (hw.thread_eq hw')⟩
    rw [first] at hmine
    cases hmine

omit [HashOrder] in
/-- **An install keeps the commits**, if it has read what is retired. -/
theorem LogInv.install {s : Store} {t : Nat} (h : LogInv s) {buildIndex : Bool}
    {base read : Option Nat} {m : Manifest} {records : List Record} {shards : List Shard} {now : Nat}
    (based : s.At m base) (later : s.Since (seen base) read) (known : seen read ≤ s.versions.length)
    (documents : s.Reads (s.manifestAt read).recordObjects records)
    (built : List.Forall₂ (fun docs shard => ShardBuilt s t m.schema docs buildIndex shard)
      (buckets (materialize records).values m.schema.shards) shards)
    (same : s.manifest.shards = m.shards) (first : s.writtenBy t = [])
    (hreads : s.InstallReads base read)
    (hg : Grows (· = t) s (s.push ⟨s.manifest.install (m.wal.map (·.name)) shards now, t,
      .compaction base read, s.clock⟩)) :
    LogInv (s.push ⟨s.manifest.install (m.wal.map (·.name)) shards now, t, .compaction base read,
      s.clock⟩) := by
  have hman := h.manifest_eq
  have hbase : m = lastManifest (s.versions.take (seen base)) := based.eq
  have hlater : seen base ≤ seen read :=
    later.resolve_right (by rw [h.dropped]; exact Nat.lt_irrefl _)
  have htake : s.versions.take s.versions.length = s.versions := s.versions.take_length
  have hmono : m.retired ≤ (lastManifest s.versions).retired := by
    rw [hbase]
    conv_rhs => rw [← htake]
    exact h.monotone _ _ based.le
  -- the guard: shards with a segment are still those the compaction started from
  have hread : (lastManifest s.versions).retired ≤ (logOf (s.versions.take (seen read))).length := by
    rw [← (h.logged (seen read)).nextSeq]
    by_cases hhollow : m.Hollow
    · have := hreads (based.eq ▸ hhollow)
      rwa [hman] at this
    · have heq := h.guarded (seen base) s.versions.length based.le (hbase ▸ hhollow)
        (by rw [htake, ← hbase, ← hman, same])
      rw [htake, ← hbase] at heq
      rw [← heq, (h.logged (seen read)).nextSeq]
      refine le_trans ?_ (length_logOf_take_le hlater)
      exact hbase ▸ (h.logged (seen base)).retired_le
  have hlog := Logged.install now s.clock h.logged hbase hlater known hmono hread documents built
  refine h.push hg (hman ▸ hlog) ?_ fun n hnot heq => absurd ?_ hnot
  · rw [hman, Logged.install_retired shards now h.logged hbase hmono]
    exact le_max_left _ _
  · refine h.shards_fresh first ?_ built heq
    rw [buckets, Ne, List.map_eq_nil_iff, List.range_eq_nil]
    exact (hbase ▸ (h.logged (seen base)).counted).ne'

omit [HashOrder] in
/-- **A move keeps the commits**, if an install has read what is retired. -/
theorem LogInv.move {ok : Terms} {t : Nat} {call : Call} {s s' : Store} (h : LogInv s)
    (hg : Guar ok t call s s') (hcall : call.Keeps)
    (hop : ∀ m mode base read, ok.op t s (.putManifest m mode (.compaction base read)) →
      s.admits mode = true → s.InstallReads base read) : LogInv s' := by
  obtain ⟨hgrows, hmove⟩ := hg
  cases hmove with
  | calm hv hdel hdrop _ => exact h.grows hgrows hv hdel hdrop
  | commit prepare schema batch uuid now mode asked prepared stored first allowed admitted result =>
      subst result
      exact h.commit asked prepared stored hgrows
  | install handle buildIndex base read m records shards now mode asked based later known documents
      built distinct same first allowed admitted result =>
      subst result
      exact h.install based later known documents built same first
        (hop _ _ _ _ allowed admitted) hgrows
  | delete handle _ _ _ _ _ _ asked =>
      rw [asked] at hcall
      exact hcall.elim
  | drop handle asked =>
      rw [asked] at hcall
      exact hcall.elim
  | list handle _ asked =>
      rw [asked] at hcall
      exact hcall.elim
  | wipe handle _ asked =>
      rw [asked] at hcall
      exact hcall.elim

/-! ## Runs -/

/-- Runs of calls that delete nothing, in which an install over hollow shards has read what is
retired. -/
def logTerms : Terms where
  call := Call.Keeps
  op
    | _, s, .putManifest _ mode (.compaction base read) => s.admits mode = true → s.InstallReads base read
    | _, _, _ => True
  env _ _ := True

theorem Reaches.logInv {p : Namespace} (h : Reaches logTerms p) : LogInv p.shared := by
  refine h.store_invariant .init (fun t call s s' hcall hg hs => ?_) fun s nanos hs => ?_
  · exact hs.move hg hcall fun _ _ _ _ hop hadm => hop hadm
  · exact hs.grows (tick_rely rfl 0) rfl rfl rfl

/-- The commits of one thread. -/
def Store.commitsOf (s : Store) (t : Nat) : List Commit := s.commits.filter fun c => c.thread = t

omit [Crates] [HashOrder] in
theorem commit?_thread {v : Version} {c : Commit} (h : v.commit? = some c) : c.thread = v.thread := by
  rw [Version.commit?] at h
  split at h
  · obtain ⟨entry, -, rfl⟩ := Option.map_eq_some_iff.mp h
    rfl
  · cases h

omit [Crates] [HashOrder] in
theorem commit?_reason {v : Version} {c : Commit} (h : v.commit? = some c) :
    v.reason = .commit c.batch := by
  rw [Version.commit?] at h
  split at h
  · next batch hreason =>
    obtain ⟨entry, -, rfl⟩ := Option.map_eq_some_iff.mp h
    exact hreason
  · cases h

omit [Crates] [HashOrder] in
/-- The commits of a thread are those of the versions it wrote. -/
theorem Store.commitsOf_eq (s : Store) (t : Nat) : s.commitsOf t = logOf (s.writtenBy t) := by
  rw [commitsOf, commits, writtenBy]
  induction s.versions with
  | nil => rfl
  | cons v vs ih =>
      rw [logOf, List.filterMap_cons]
      cases hc : v.commit? with
      | none =>
          by_cases hv : v.thread = t
          · rw [List.filter_cons_of_pos (by simpa using hv), logOf, List.filterMap_cons, hc]
            exact ih
          · rw [List.filter_cons_of_neg (by simpa using hv)]
            exact ih
      | some c =>
          have hct := commit?_thread hc
          by_cases hv : v.thread = t
          · rw [List.filter_cons_of_pos (a := v) (by simpa using hv), logOf, List.filterMap_cons, hc]
            dsimp only
            rw [List.filter_cons_of_pos (by simpa [hct] using hv)]
            exact congrArg (c :: ·) ih
          · dsimp only
            rw [List.filter_cons_of_neg (a := v) (by simpa using hv),
              List.filter_cons_of_neg (by simpa [hct] using hv)]
            exact ih

/-- The call of a commit's thread made its batch. -/
def Namespace.Prepared (p : Namespace) : Prop :=
  ∀ c ∈ p.shared.commits, ∃ th prepare m schema, p.threads[c.thread]? = some th ∧
    th.call.prepare = some prepare ∧ prepare m = .ok (schema, c.batch)

omit [HashOrder] in
/-- A move adds at most one commit, made by its call. -/
theorem Move.commits {ok : Terms} {t : Nat} {call : Call} {s s' : Store} (h : Move ok t call s s') :
    s'.commits = s.commits ∨ ∃ c prepare m schema, s'.commits = s.commits ++ [c] ∧ c.thread = t ∧
      call.prepare = some prepare ∧ prepare m = .ok (schema, c.batch) := by
  cases h with
  | calm hv => exact .inl (by rw [Store.commits, hv, Store.commits])
  | commit prepare schema batch uuid now mode asked prepared stored first allowed admitted result =>
      refine .inr ⟨⟨t, ⟨⟨s.manifest.nextSeq, uuid⟩, (frameRecords batch).length, asU32 batch.length⟩,
        batch⟩, prepare, s.manifest, schema, ?_, rfl, asked, prepared⟩
      rw [result, Store.commits, Store.push, logOf_append]
      congr 1
      rw [logOf, List.filterMap_cons, Version.commit?, Manifest.push_wal, List.getLast?_concat]
      rfl
  | install handle buildIndex base read m records shards now mode asked based later known documents
      built distinct same first allowed admitted result =>
      refine .inl ?_
      rw [result, Store.commits, Store.push, logOf_append]
      exact List.append_nil _
  | delete _ _ _ _ _ _ _ _ _ _ _ _ _ _ result => exact .inl (by rw [result]; rfl)
  | drop _ _ _ result => exact .inl (by rw [result]; rfl)
  | list _ _ _ _ _ result => exact .inl (by rw [result]; rfl)
  | wipe _ _ _ _ result => exact .inl (by rw [result]; rfl)

/-- **Every commit was made by the call of its thread.** -/
theorem Reaches.prepared {ok : Terms} {p : Namespace} (h : Reaches ok p) : p.Prepared := by
  refine h.invariant nofun (fun p call _ hp c hc => ?_) (fun p t th prog s' hth hg hp c hc => ?_)
    fun p nanos hp => hp
  · obtain ⟨th, prepare, m, schema, hth, hprep⟩ := hp c hc
    exact ⟨th, prepare, m, schema, List.getElem?_append_left
      (List.getElem?_eq_some_iff.mp hth).1 ▸ hth, hprep⟩
  · -- a step of a thread leaves the calls alone
    have hkeep : ∀ (u : Nat) (thu : Thread Request Request.Answer Call Outcome),
        p.threads[u]? = some thu →
        ∃ thu', (p.threads.set t { th with prog })[u]? = some thu' ∧ thu'.call = thu.call := by
      intro u thu hu
      by_cases hut : t = u
      · subst hut
        obtain rfl := Option.some.inj (hth.symm.trans hu)
        exact ⟨_, List.getElem?_set_self (List.getElem?_eq_some_iff.mp hth).1, rfl⟩
      · exact ⟨thu, (List.getElem?_set_ne hut).trans hu, rfl⟩
    rcases hg.2.commits with heq | ⟨c', prepare, m, schema, heq, hct, hprep⟩
    · have hc : c ∈ p.shared.commits := heq ▸ hc
      obtain ⟨thu, prepare, m, schema, hu, hprep⟩ := hp c hc
      obtain ⟨thu', hu', hcall⟩ := hkeep _ _ hu
      exact ⟨thu', prepare, m, schema, hu', hcall ▸ hprep⟩
    · have hc : c ∈ p.shared.commits ++ [c'] := heq ▸ hc
      rcases List.mem_append.mp hc with hc | hc
      · obtain ⟨thu, prepare, m, schema, hu, hprep⟩ := hp c hc
        obtain ⟨thu', hu', hcall⟩ := hkeep _ _ hu
        exact ⟨thu', prepare, m, schema, hu', hcall ▸ hprep⟩
      · obtain rfl := List.mem_singleton.mp hc
        obtain ⟨thu', hu', hcall⟩ := hkeep _ _ hth
        exact ⟨thu', prepare, m, schema, hct ▸ hu', hcall ▸ hprep⟩

/-- **Commit-log safety.** Reading the current manifest gives the fold of the commits that won, whose
sequence numbers are `0, 1, 2, …`; an acknowledged commit is there exactly once, with its number, and a
failed one is not. -/
structure LogSafe (p : Namespace) : Prop where
  live : ∀ handle, ∃ version records, p.shared.Yields (allRecords handle) (.ok (version, records)) ∧
    materialize records = materialize (batchesOf p.shared.commits)
  seqs : p.shared.commits.map Commit.seq = List.range p.shared.commits.length
  stored : ∀ c ∈ p.shared.commits, p.shared.HasRecords (.wal c.entry.name) c.batch
  prepared : p.Prepared
  acknowledged : ∀ t th seq attempts, p.threads[t]? = some th →
    th.prog = .done (.committed (.ok (seq, attempts))) →
    ∃ c, p.shared.commitsOf t = [c] ∧ c.seq = seq
  failed : ∀ t th e, p.threads[t]? = some th → th.prog = .done (.committed (.error e)) →
    p.shared.commitsOf t = []

/-- **The live set is the fold of the commits** in every interleaving, if every install over hollow
shards has read what is retired. -/
theorem Reaches.logSafe {p : Namespace} (h : Reaches logTerms p) : LogSafe p := by
  have hinv := h.logInv
  have hlog := hinv.current
  refine ⟨fun handle => ?_, hlog.seqs, hlog.batches, h.prepared, fun t th seq attempts hth hdone => ?_,
    fun t th e hth hdone => ?_⟩
  · obtain ⟨rs, hrs, hmat⟩ := hlog.full
    rw [← hinv.manifest_eq] at hrs
    obtain ⟨version, hyields⟩ := Store.Yields.allRecords handle hrs fun name _ hdel => by
      rw [hinv.deleted] at hdel
      cases hdel
    exact ⟨version, rs, hyields, hmat⟩
  · obtain ⟨i, ⟨v, c, -, hv, hc, hseq⟩, -⟩ := h.returned hth hdone
    refine ⟨c, ?_, hseq⟩
    rw [Store.commitsOf_eq, hv, logOf, List.filterMap_cons, hc]
    rfl
  · rw [Store.commitsOf_eq, show p.shared.writtenBy t = [] from h.returned hth hdone]
    rfl

end Safe

instance (s : Store) (base read : Option Nat) : Decidable (s.InstallReads base read) :=
  inferInstanceAs (Decidable (_ → _))

instance (call : Call) : Decidable (logTerms.call call) := inferInstanceAs (Decidable call.Keeps)

instance (t : Nat) (s : Store) : (r : Request) → Decidable (logTerms.op t s r)
  | .putManifest _ mode (.compaction base read) =>
    inferInstanceAs (Decidable (s.admits mode = true → s.InstallReads base read))
  | .putManifest _ _ (.commit _) => isTrue trivial
  | .getManifest | .putNew _ _ | .get _ | .delete _ | .list _ | .next _ | .deleteManifest | .listAll
  | .nextAny | .now _ | .view _ | .remember _ _ _ | .forget _ | .choose => isTrue trivial

instance (s : Store) (nanos : Nat) : Decidable (logTerms.env s nanos) := isTrue trivial

/-- A document without attributes. -/
def Doc.bare (n : UInt64) : Doc := ⟨.uint n, [], .empty⟩

/-- A document is written and compacted while another one is written. -/
def steadyRun : List Act :=
  .spawn (.commitBatch 0 [.upsert (.bare 1)]) :: goes 0 6 ++
    .spawn (.compact 0 false) :: goes 1 5 ++
    .spawn (.commitBatch 0 [.upsert (.bare 2)]) :: goes 2 5 ++ goes 1 6

theorem steadyRun_logSafe :
    let _ := Crates.inert
    let _ := HashOrder.sorted
    ∃ p, execute service.step ⟨{}, []⟩ steadyRun = some p ∧ p.shared.commits.length = 2 ∧
      p.shared.manifest.shards.length = 1 ∧ LogSafe p := by
  intro _ _
  have hrun : (execute service.step ⟨{}, []⟩ steadyRun).any
      (fun p => p.shared.commits.length = 2 ∧ p.shared.manifest.shards.length = 1) = true := by
    decide +kernel
  obtain ⟨p, hp, hcounts⟩ := (Option.any_eq_true _ _).mp hrun
  have hallowed : Allowed service.step (fun p a => logTerms.Meets p a) ⟨{}, []⟩ steadyRun := by
    decide +kernel
  obtain ⟨hcommits, hshards⟩ := of_decide_eq_true hcounts
  exact ⟨p, hp, hcommits, hshards, Reaches.logSafe (Reachable.init.execute hallowed hp)⟩

/-! ## Hollow shards -/

/-- Runs of calls that delete nothing. -/
def keepTerms : Terms where
  call := Call.Keeps
  op _ _ _ := True
  env _ _ := True

instance (call : Call) : Decidable (keepTerms.call call) := inferInstanceAs (Decidable call.Keeps)

instance (t : Nat) (s : Store) (r : Request) : Decidable (keepTerms.op t s r) := isTrue trivial

instance (s : Store) (nanos : Nat) : Decidable (keepTerms.env s nanos) := isTrue trivial

/-- An empty namespace is compacted, and a document written. A compaction reads it; before it installs,
the document is deleted and another compaction leaves hollow shards again. -/
def resurrection : List Act :=
  .spawn (.compact 0 false) :: goes 0 6 ++
    .spawn (.commitBatch 0 [.upsert (.bare 1)]) :: goes 1 5 ++
    .spawn (.compact 0 false) :: goes 2 5 ++
    .spawn (.commitBatch 0 [.delete (.uint 1)]) :: goes 3 5 ++
    .spawn (.compact 0 false) :: goes 4 4 ++ .run 4 (.turn true) :: goes 4 7 ++ goes 2 6

/-- A full read finds other documents than the commits left. -/
def Namespace.differs (p : Namespace) : Bool :=
  match Prog.eval p.shared.peek (allRecords 0) with
  | some (.ok (_, records)) =>
    (materialize records).keys ≠ (materialize (batchesOf p.shared.commits)).keys
  | _ => true

theorem LogSafe.not_differs [Crates] [HashOrder] {p : Namespace} (h : LogSafe p) : p.differs = false := by
  obtain ⟨version, records, hyields, hmat⟩ := h.live 0
  rw [Namespace.differs, show Prog.eval p.shared.peek (allRecords 0) = _ from hyields]
  simp only [hmat, ne_eq, not_true_eq_false, decide_false]

/-- **A deleted document comes back**: both hollow manifests have one empty shard. -/
theorem resurrected_not_logSafe :
    let _ := Crates.inert
    let _ := HashOrder.sorted
    ¬ ∀ p, Reaches keepTerms p → LogSafe p := by
  intro _ _ h
  have hrun : (execute service.step ⟨{}, []⟩ resurrection).any Namespace.differs = true := by
    decide +kernel
  obtain ⟨p, hp, hdiffers⟩ := (Option.any_eq_true _ _).mp hrun
  have hallowed : Allowed service.step (fun p a => keepTerms.Meets p a) ⟨{}, []⟩ resurrection := by
    decide +kernel
  have hsafe := h p (Reachable.init.execute hallowed hp)
  exact Bool.noConfusion (hsafe.not_differs.symm.trans hdiffers)

end Fckdb
