import Fckdb.LogSafety

/-! # Reads bounded to a prefix of the WAL

A read that takes the segments and a prefix of the WAL sees the live set after some commit if the segments
hold at most one commit that the WAL still has, that is, if at most one commit lands between the two
reads of the manifest that a compaction makes (`Reaches.prefixSafe`). Otherwise an older WAL record
can be applied over a newer document of a segment (`doubled_not_prefixSafe`). -/

namespace Fckdb

/-! ## One commit of overlap -/

/-- An install on what `base` and `read` stand for folds at most one commit that it does not retire. -/
def Store.InstallsClosely (s : Store) (base read : Option Nat) : Prop :=
  (s.manifestAt read).nextSeq ≤ max s.manifest.retired (s.manifestAt base).nextSeq + 1

/-- Runs in which, besides, an install folds at most one commit that it does not retire. -/
def prefixTerms : Terms where
  call := Call.Keeps
  op
    | _, s, .putManifest _ mode (.compaction base read) => s.admits mode = true →
      s.InstallReads base read ∧ s.InstallsClosely base read
    | _, _, _ => True
  env _ _ := True

/-- The segments hold at most one commit that the WAL still has. -/
def LogInv.Close (s : Store) : Prop := folded s.versions ≤ s.manifest.retired + 1

section Prefix

variable [Crates] [HashOrder]

omit [HashOrder] in
/-- **A move keeps the overlap small.** -/
theorem LogInv.close_move {ok : Terms} {t : Nat} {call : Call} {s s' : Store} (h : LogInv s)
    (hclose : LogInv.Close s) (hg : Guar ok t call s s') (hcall : call.Keeps)
    (hop : ∀ m mode base read, ok.op t s (.putManifest m mode (.compaction base read)) →
      s.admits mode = true → s.InstallsClosely base read) : LogInv.Close s' := by
  obtain ⟨hgrows, hmove⟩ := hg
  have hman := h.manifest_eq
  cases hmove with
  | calm hv hdel hdrop _ =>
      rw [LogInv.Close, Store.manifest, hv, hdrop]
      exact hclose
  | commit prepare schema batch uuid now mode asked prepared stored first allowed admitted result =>
      subst result
      have hfolded : folded (s.versions ++ [⟨s.manifest.push schema ⟨s.manifest.nextSeq, uuid⟩ batch
          now, t, .commit batch, s.clock⟩]) = folded s.versions := h.current.folded_append
      rw [LogInv.Close, Store.push, hfolded, Store.manifest, h.dropped, List.drop_zero,
        lastManifest_append]
      refine hclose.trans (Nat.add_le_add_right ?_ 1)
      rw [Manifest.retired, Manifest.retired, Manifest.push_nextSeq, Manifest.push_wal,
        List.length_append, List.length_singleton, Nat.add_sub_add_right]
  | install handle buildIndex base read m records shards now mode asked based later known documents
      built distinct same first allowed admitted result =>
      subst result
      have hbase : m = lastManifest (s.versions.take (seen base)) := based.eq
      have hmono : m.retired ≤ (lastManifest s.versions).retired := by
        rw [hbase]
        conv_rhs => rw [← s.versions.take_length]
        exact h.monotone _ _ based.le
      have hfolded : folded (s.versions ++ [⟨s.manifest.install (m.wal.map (·.name)) shards now, t,
          .compaction base read, s.clock⟩]) = (logOf (s.versions.take (seen read))).length := by
        rw [h.current.folded_append]
        exact congrArg (fun vs => (logOf vs).length) (List.take_append_of_le_length known)
      have hret := Logged.install_retired shards now h.logged hbase hmono
      have hbound : (s.manifestAt read).nextSeq ≤
          max s.manifest.retired (s.manifestAt base).nextSeq + 1 := hop _ _ _ _ allowed admitted
      rw [Store.manifestAt, Store.manifestAt, (h.logged (seen read)).nextSeq,
        (h.logged (seen base)).nextSeq, hman] at hbound
      rw [LogInv.Close, Store.push, hfolded, Store.manifest, h.dropped, List.drop_zero,
        lastManifest_append, hman, hret]
      exact hbound
  | delete handle _ _ _ _ _ _ asked =>
      rw [asked] at hcall
      exact hcall.elim
  | drop handle asked =>
      rw [asked] at hcall
      exact hcall.elim
  | list handle _ asked =>
      rw [asked] at hcall
      exact hcall.elim
  | wipe handle _ asked =>
      rw [asked] at hcall
      exact hcall.elim

theorem Reaches.close {p : Namespace} (h : Reaches prefixTerms p) :
    LogInv p.shared ∧ LogInv.Close p.shared := by
  refine h.store_invariant (J := fun s => LogInv s ∧ LogInv.Close s) ⟨.init, Nat.zero_le _⟩
    (fun t call s s' hcall hg hs => ?_) fun s nanos hs => ?_
  · exact ⟨hs.1.move hg hcall fun _ _ _ _ hop hadm => (hop hadm).1,
      hs.1.close_move hs.2 hg hcall fun _ _ _ _ hop hadm => (hop hadm).2⟩
  · exact ⟨hs.1.grows (tick_rely rfl 0) rfl rfl rfl, hs.2⟩

/-! ## What such a read sees -/

/-- The objects of a read that takes the segments and some WAL entries. -/
def Manifest.prefixObjects (m : Manifest) (entries : List WalEntry) : List ObjectName :=
  m.segmentObjects ++ entries.map fun e => .wal e.name

/-- Every read bounded to a prefix of the WAL finds its objects and sees the live set after the first
`n` commits, for some `n`. -/
def PrefixSafe (p : Namespace) : Prop :=
  ∀ cap, ∃ rs, p.shared.Yields (readRecordsParallel
      (p.shared.manifest.prefixObjects (p.shared.manifest.walPrefixWithin cap).1)) (.ok rs) ∧
    ∃ n ≤ p.shared.commits.length,
      materialize rs = materialize (batchesOf (p.shared.commits.take n))

/-- **A bounded read sees a past state** in every interleaving, if at most one commit lands between the
two reads of each compaction that installs. -/
theorem Reaches.prefixSafe {p : Namespace} (h : Reaches prefixTerms p) : PrefixSafe p := by
  intro cap
  obtain ⟨hinv, hclose⟩ := h.close
  have hlog := hinv.current
  rw [LogInv.Close] at hclose
  rw [Manifest.prefixObjects]
  rw [hinv.manifest_eq] at hclose ⊢
  obtain ⟨rs, hrs, hmat⟩ := hlog.segments
  -- the prefix, as a part of the log
  obtain ⟨n, hn⟩ : ∃ n, ((lastManifest p.shared.versions).walPrefixWithin cap).1 =
      (((logOf p.shared.versions).drop (lastManifest p.shared.versions).retired).take n).map
        Commit.entry := by
    obtain ⟨rest, hrest⟩ := (lastManifest p.shared.versions).walPrefixWithin_isPrefix cap
    refine ⟨((lastManifest p.shared.versions).walPrefixWithin cap).1.length, ?_⟩
    rw [List.map_take, ← hlog.wal]
    conv_rhs => rw [← hrest]
    rw [List.take_left]
  rw [hn]
  generalize hk : (lastManifest p.shared.versions).retired = k at *
  have hwal : p.shared.Reads (((((logOf p.shared.versions).drop k).take n).map Commit.entry).map
      fun e => .wal e.name) (batchesOf (((logOf p.shared.versions).drop k).take n)) :=
    Logged.reads_batches fun c hc =>
      hlog.batches c ((List.drop_sublist _ _).subset ((List.take_sublist _ _).subset hc))
  refine ⟨_, Store.Yields.readRecordsParallel (hrs.append hwal) fun name _ hdel => ?_, ?_⟩
  · rw [hinv.deleted] at hdel
    cases hdel
  have happend : materialize (rs ++ batchesOf (((logOf p.shared.versions).drop k).take n)) =
      replay apply (materialize rs) (batchesOf (((logOf p.shared.versions).drop k).take n)) :=
    replay_append _ _ _ _
  rw [happend, hmat]
  cases n with
  | zero =>
      -- an empty prefix: what the segments hold
      refine ⟨folded p.shared.versions, Logged.folded_le _, ?_⟩
      rw [List.take_zero]
      rfl
  | succ n =>
      -- the prefix reaches beyond what the segments hold
      have hreach : folded p.shared.versions ≤ k + (n + 1) := by omega
      have hwindow := materialize_window ((logOf p.shared.versions).take (k + (n + 1)))
        (k := k) (j := folded p.shared.versions) (hk ▸ hlog.overlap)
      rw [List.take_take, Nat.min_eq_left hreach, List.drop_take, Nat.add_sub_cancel_left] at hwindow
      rw [hwindow]
      rcases Nat.le_total (k + (n + 1)) (logOf p.shared.versions).length with hle | hle
      · exact ⟨_, hle, rfl⟩
      · refine ⟨_, Nat.le_refl _, ?_⟩
        rw [List.take_of_length_le hle]
        exact congrArg (fun log => materialize (batchesOf log)) List.take_length.symm

end Prefix

instance (s : Store) (base read : Option Nat) : Decidable (s.InstallsClosely base read) :=
  inferInstanceAs (Decidable (_ ≤ _))

instance (call : Call) : Decidable (prefixTerms.call call) := inferInstanceAs (Decidable call.Keeps)

instance (t : Nat) (s : Store) : (r : Request) → Decidable (prefixTerms.op t s r)
  | .putManifest _ mode (.compaction base read) => inferInstanceAs (Decidable (s.admits mode = true →
      s.InstallReads base read ∧ s.InstallsClosely base read))
  | .putManifest _ _ (.commit _) => isTrue trivial
  | .getManifest | .putNew _ _ | .get _ | .delete _ | .list _ | .next _ | .deleteManifest | .listAll
  | .nextAny | .now _ | .view _ | .remember _ _ _ | .forget _ | .choose => isTrue trivial

instance (s : Store) (nanos : Nat) : Decidable (prefixTerms.env s nanos) := isTrue trivial

theorem steadyRun_prefixSafe :
    let _ := Crates.inert
    let _ := HashOrder.sorted
    ∃ p, execute service.step ⟨{}, []⟩ steadyRun = some p ∧ p.shared.manifest.wal.length = 1 ∧
      p.shared.manifest.shards.length = 1 ∧ PrefixSafe p := by
  intro _ _
  have hrun : (execute service.step ⟨{}, []⟩ steadyRun).any
      (fun p => p.shared.manifest.wal.length = 1 ∧ p.shared.manifest.shards.length = 1) = true := by
    decide +kernel
  obtain ⟨p, hp, hcounts⟩ := (Option.any_eq_true _ _).mp hrun
  have hallowed : Allowed service.step (fun p a => prefixTerms.Meets p a) ⟨{}, []⟩ steadyRun := by
    decide +kernel
  obtain ⟨hwal, hshards⟩ := of_decide_eq_true hcounts
  exact ⟨p, hp, hwal, hshards, Reaches.prefixSafe (Reachable.init.execute hallowed hp)⟩

/-! ## Two commits of overlap -/

/-- A compaction loads the manifest of an empty namespace; a document is written, and rewritten together
with another one, before the compaction reads the records. -/
def doubledRun : List Act :=
  .spawn (.compact 0 false) :: goes 0 1 ++
    .spawn (.commitBatch 0 [.upsert (.bare 1)]) :: goes 1 6 ++
    .spawn (.commitBatch 0 [.upsert ⟨.uint 1, [⟨0⟩], .empty⟩, .upsert (.bare 2)]) :: goes 2 5 ++
    goes 0 2 ++ .run 0 (.turn true) :: goes 0 8

/-- The first batch of `doubledRun` fits under this cap, and the second one does not. -/
def doubledCap : Nat := (frameRecords [.upsert (.bare 1)]).length

/-- A read under the cap sees no state after a commit. -/
def Namespace.seesNoState (cap : Nat) (p : Namespace) : Bool :=
  match Prog.eval p.shared.peek (readRecordsParallel
      (p.shared.manifest.prefixObjects (p.shared.manifest.walPrefixWithin cap).1)) with
  | some (.ok rs) => (List.range (p.shared.commits.length + 1)).all fun n =>
      (materialize rs).entries ≠ (materialize (batchesOf (p.shared.commits.take n))).entries
  | _ => true

theorem PrefixSafe.sees {p : Namespace} (h : PrefixSafe p) (cap : Nat) :
    p.seesNoState cap = false := by
  obtain ⟨rs, hyields, n, hn, hmat⟩ := h cap
  rw [Namespace.seesNoState, show Prog.eval p.shared.peek _ = _ from hyields]
  refine List.all_eq_false.mpr ⟨n, List.mem_range.mpr (Nat.lt_succ_of_le hn), ?_⟩
  simp only [hmat, ne_eq, not_true_eq_false, decide_false, not_false_eq_true, Bool.false_eq_true]

/-- **An older record is applied over a newer document**: the segment holds both writes, and the WAL
keeps both. -/
theorem doubled_not_prefixSafe :
    let _ := Crates.inert
    let _ := HashOrder.sorted
    ¬ ∀ p, Reaches keepTerms p → PrefixSafe p := by
  intro _ _ h
  have hrun : (execute service.step ⟨{}, []⟩ doubledRun).any (Namespace.seesNoState doubledCap) =
      true := by decide +kernel
  obtain ⟨p, hp, hsees⟩ := (Option.any_eq_true _ _).mp hrun
  have hallowed : Allowed service.step (fun p a => keepTerms.Meets p a) ⟨{}, []⟩ doubledRun := by
    decide +kernel
  have hsafe := h p (Reachable.init.execute hallowed hp)
  exact Bool.noConfusion ((hsafe.sees doubledCap).symm.trans hsees)

end Fckdb
