import Fckdb.FullProbe
import Fckdb.Serial

/-! # Compacting twice

A compaction leaves no tail, and an index in every shard that has documents. The next one has nothing to
do if that is every shard. A shard without documents looks unfinished, so a namespace that has one is
rebuilt by every compaction (`Reaches.recompact_iff`). -/

namespace Fckdb

/-! ## Threads and their objects -/

/-- A request writes at most one object, as its thread. -/
theorem Store.exec_puts {t : Nat} {s s' : Store} {r : Request} {c : Choice} {x : r.Answer}
    (h : s.exec t r c = some (s', x)) {put : Put} (hput : put ∈ s'.puts) : put ∈ s.puts ∨ put.thread = t := by
  cases r with
  | putNew path blob =>
      cases c with
      | go =>
          cases h
          rcases List.mem_append.mp hput with hold | hnew
          · exact .inl hold
          · exact .inr (List.mem_singleton.mp hnew ▸ rfl)
      | _ => cases h <;> exact .inl hput
  | _ =>
      refine .inl ?_
      cases c <;> rw [exec.eq_def] at h <;> dsimp only at h <;> (repeat' split at h) <;> cases h <;> exact hput

section Reaches

variable [Crates] [HashOrder] {ok : Terms} {p : Namespace}

/-- **Every object was written by a thread of the run.** -/
theorem Reaches.puts_spawned (h : Reaches ok p) : ∀ put ∈ p.shared.puts, put.thread < p.threads.length := by
  refine Reachable.invariant (I := fun p => ∀ put ∈ p.shared.puts, put.thread < p.threads.length)
    (List.forall_mem_nil _) (fun p a p' _ hp _ hs => ?_) h
  cases a with
  | spawn call =>
      obtain rfl := Option.some.inj hs
      rw [List.length_append]
      exact fun put hput => (hp put hput).trans (Nat.lt_succ_self _)
  | env nanos =>
      obtain rfl := Option.some.inj hs
      exact hp
  | run t c =>
      obtain ⟨th, op, next, s', x, hth, -, hx, rfl⟩ := service.step_run_cases hs
      rw [List.length_set]
      intro put hput
      rcases Store.exec_puts hx hput with hold | rfl
      · exact hp put hold
      · exact (List.getElem?_eq_some_iff.mp hth).1

/-- **A schema has a shard.** -/
theorem Reaches.shards_pos (h : Reaches ok p) : 0 < p.shared.manifest.schema.shards := by
  refine h.manifest_invariant (J := fun _ m => 0 < m.schema.shards) (fun _ => Nat.one_pos)
    (fun _ _ _ _ h _ => h) ?_ fun _ _ _ _ _ _ _ h _ _ => h
  exact fun s t call prepare schema batch uuid now hm hcall hprepared _ =>
    Call.prepare_shards hcall hprepared hm

end Reaches

/-! ## Runs of a compaction -/

/-- The store after a thread that is alone has installed shards. -/
def Store.installed (s : Store) (t handle : Nat) (base read : Option Nat) (consumed : List WalName)
    (shards : List Shard) : Store :=
  let m := s.manifest.install consumed shards s.clock
  ((s.loaded handle).push ⟨m, t, .compaction base read, s.clock⟩).setHandle handle
    (some ⟨m, some s.versions.length, s.clock⟩)

section Runs

variable {α : Type} {t handle : Nat} {s s' : Store} {P : Store → Prop} {p : Proc α} {Q : α → Store → Prop}

/-- What a thread does that does not fail. -/
theorem Runs.of_alone {r : Except Error α} (h : Alone t P p Q) (hs : P s) (hrun : Runs t p s s' r) :
    Calm s s' ∧ ∃ a, r = .ok a ∧ Q a s' := by
  obtain ⟨hcalm, hpost⟩ := Prog.Safe.of_run Calm.refl Calm.refl (fun _ _ _ => Calm.trans) (fun _ _ h => h)
    (fun _ _ _ _ h => h) (h s hs) hrun
  cases r with
  | error e => exact hpost.elim
  | ok a => exact ⟨hcalm, a, rfl, hpost⟩

/-- Loading the commit point is a calm step. -/
theorem Store.loaded_calm (s : Store) (handle : Nat) : Calm s (s.loaded handle) :=
  (Runs.of_alone (Alone.load handle) (Calm.refl s) (Runs.load (t := 0))).1

theorem Store.loaded_clock (s : Store) (handle : Nat) : (s.loaded handle).clock = s.clock := by
  rw [loaded]
  split <;> rfl

theorem Store.loaded_base (s : Store) (handle : Nat) : (s.loaded handle).base = s.base := by
  rw [base, base, loaded_current, loaded_manifest]

/-- A thread that is alone finishes. -/
theorem Runs.total (t : Nat) (p : StoreProg α) (s : Store) : ∃ s' a, Runs t p s s' a := by
  induction p generalizing s with
  | done a => exact ⟨s, a, done a⟩
  | ask op next ih =>
      obtain ⟨s₁, x, hx⟩ := s.exec_choice t op
      obtain ⟨s', a, hrun⟩ := ih x s₁
      exact ⟨s', a, Option.bind_eq_some_iff.mpr ⟨(s₁, x), hx, hrun⟩⟩

variable [Crates] [HashOrder]

/-- What a thread does whose steps are calm. -/
theorem Runs.of_calmly {r : Except Error α} (h : Calmly anyTerms t P p Q) (hs : P s)
    (hrun : Runs t p s s' r) : Calm s s' ∧ ∀ a, r = .ok a → Q a s' := by
  obtain ⟨hcalm, hpost⟩ := Prog.Safe.of_run Grows.refl Calm.refl (fun _ _ _ => Calm.trans) (fun _ _ h => h)
    (fun _ op _ _ h => ⟨trivial, op.choice, h⟩) (h s hs) hrun
  refine ⟨hcalm, ?_⟩
  rintro a rfl
  exact hpost

omit [Crates] [HashOrder] in
/-- **Installing shards alone**: the first attempt succeeds. -/
theorem Runs.installLoop (base read : Option Nat) (consumed : List WalName) (shards : List Shard)
    (left attempt : Nat) :
    Runs t (Fckdb.installLoop handle base read consumed s.manifest.shards shards (left + 1) attempt) s
      (s.installed t handle base read consumed shards) (.ok attempt) := by
  let m := s.manifest.install consumed shards s.clock
  let loaded := s.loaded handle
  refine seq load ?_
  dsimp only [Store.base]
  rw [if_neg (not_not.mpr rfl)]
  have hclock : loaded.clock = s.clock := s.loaded_clock handle
  have hversions : loaded.versions = s.versions := (s.loaded_calm handle).versions
  have hnow : Runs t (now .stamp) loaded loaded (.ok loaded.clock) := rfl
  refine seq hnow ?_
  have hadmits : loaded.admits (modeOf (s.current.map (·.2))) = true := by
    rw [← s.loaded_current handle]
    cases hcurrent : loaded.current with
    | none => exact (Store.current_eq_none hcurrent).2
    | some x => exact (Store.current_eq_some hcurrent).2
  have hput : Runs t (putManifest m (modeOf (s.current.map (·.2))) (.compaction base read)) loaded
      (loaded.push ⟨m, t, .compaction base read, loaded.clock⟩) (.ok (some loaded.versions.length)) :=
    Option.bind_eq_some_iff.mpr ⟨_, if_pos hadmits, rfl⟩
  rw [hclock, hversions] at hput
  rw [hclock]
  refine seq hput ?_
  have hremember : Runs t (remember handle m (some s.versions.length))
      (loaded.push ⟨m, t, .compaction base read, s.clock⟩)
      ((loaded.push ⟨m, t, .compaction base read, s.clock⟩).setHandle handle
        (some ⟨m, some s.versions.length, loaded.clock⟩)) (.ok ()) := rfl
  rw [hclock] at hremember
  exact seq hremember (done _)

/-- **A compaction that is due, alone**: it builds a shard for each bucket, and installs them. -/
theorem Runs.of_compact {buildIndex : Bool} {rs : List Record} {resp : CompactResponse}
    (hreads : s.Reads s.manifest.recordObjects rs) (hdue : s.manifest.compacted buildIndex = false)
    (h : Runs t (Fckdb.compact handle buildIndex) s s' (.ok resp)) :
    ∃ s₁ shards, Calm s s₁ ∧
      List.Forall₂ (fun docs shard => ShardBuilt s₁ t s.manifest.schema docs buildIndex shard)
        (buckets (materialize rs).values s.manifest.schema.shards) shards ∧
      s' = s₁.installed t handle s.base.2 s.base.2 (s.manifest.wal.map (·.name)) shards := by
  obtain ⟨s₁, x, hload, h⟩ := of_seq h
  obtain ⟨rfl, hx⟩ := unique hload load
  obtain rfl := Except.ok.inj hx
  dsimp only [Store.base] at h
  rw [if_neg (by rw [hdue]; exact Bool.false_ne_true)] at h
  obtain ⟨s₂, ⟨read, records⟩, hall, h⟩ := of_seq h
  -- the records that are read are those of the manifest
  have hrecords : Calm s s₂ ∧ read = s.base.2 ∧ records = rs := by
    obtain ⟨s₃, y, hload, hall⟩ := of_seq hall
    obtain ⟨rfl, hy⟩ := unique hload load
    obtain rfl := Except.ok.inj hy
    rw [Store.loaded_base] at hall
    obtain ⟨s₄, records', hread, hret⟩ := of_seq hall
    obtain ⟨rfl, heq⟩ := unique hret (done _)
    obtain ⟨rfl, rfl⟩ := Prod.mk.inj (Except.ok.inj heq)
    obtain ⟨hcalm, hrs⟩ := of_calmly (Calmly.readRecordsParallel _) trivial hread
    have hcalm := ((s.loaded_calm handle).trans (Store.loaded_calm _ handle)).trans hcalm
    exact ⟨hcalm, rfl, (hrs _ rfl).unique (hcalm.grows.reads hreads)⟩
  obtain ⟨hcalm, rfl, rfl⟩ := hrecords
  obtain ⟨s₃, shards, hbuild, h⟩ := of_seq h
  obtain ⟨hcalm', hbuilt⟩ := of_calmly (Calmly.tryJoinAll (P := fun _ => True)
    (Q := fun docs shard s₁ => ShardBuilt s₁ t s.manifest.schema docs buildIndex shard)
    (fun _ _ _ _ h => h.shardBuilt) fun docs _ => Calmly.buildShard docs buildIndex s.manifest.schema)
    trivial hbuild
  have hcalm := hcalm.trans hcalm'
  obtain ⟨s₄, attempts, hinstall, hret⟩ := of_seq h
  obtain ⟨rfl, -⟩ := unique hret (done _)
  rw [← hcalm.manifest] at hinstall
  obtain ⟨rfl, -⟩ := unique hinstall (installLoop _ _ _ _ 99 1)
  refine ⟨s₃, shards, hcalm, hbuilt _ rfl, ?_⟩
  rw [hcalm.manifest]
  rfl

/-! ## What is left to do -/

omit [Crates] [HashOrder] in
/-- **Installing** grows the store by a version. -/
theorem Store.Sound.installed (h : s.Sound) (t handle : Nat) (base read : Option Nat)
    (consumed : List WalName) (shards : List Shard) :
    Grows (fun _ => True) s (s.installed t handle base read consumed shards) ∧
      (s.installed t handle base read consumed shards).manifest =
        s.manifest.install consumed shards s.clock := by
  let v : Version := ⟨s.manifest.install consumed shards s.clock, t, .compaction base read, s.clock⟩
  have hloaded := s.loaded_calm handle
  have hsound := hloaded.grows.sound h
  have hpush : Grows (fun _ => True) (s.loaded handle) ((s.loaded handle).push v) :=
    Grows.push trivial (s.loaded_clock handle).le
  have hremember : Calm ((s.loaded handle).push v) (s.installed t handle base read consumed shards) := by
    refine Calmly.setHandle_calm fun snap hsnap => ?_
    obtain rfl := Option.some.inj hsnap
    have hat := (s.loaded handle).at_push v
    rwa [hloaded.versions] at hat
  refine ⟨((hloaded.grows.mono fun _ => False.elim).trans hpush).trans
    (hremember.grows.mono fun _ => False.elim), ?_⟩
  rw [hremember.manifest, Store.push_manifest hsound.dropped]

omit [Crates] [HashOrder] in
theorem Store.installed_versions (t handle : Nat) (base read : Option Nat) (consumed : List WalName)
    (shards : List Shard) : (s.installed t handle base read consumed shards).versions.length =
      s.versions.length + 1 := by
  show ((s.loaded handle).versions ++ [_]).length = _
  rw [(s.loaded_calm handle).versions, List.length_append, List.length_singleton]

omit [Crates] [HashOrder] in
theorem Store.installed_deleted (t handle : Nat) (base read : Option Nat) (consumed : List WalName)
    (shards : List Shard) : (s.installed t handle base read consumed shards).deleted = s.deleted :=
  (s.loaded_calm handle).deleted

omit [HashOrder] in
/-- A shard is indexed if it has documents. -/
theorem ShardBuilt.isSome_index {schema : Schema} {docs : List Doc} {shard : Shard}
    (h : ShardBuilt s t schema docs true shard) : shard.index.isSome = true ↔ docs ≠ [] := by
  constructor
  · rintro hindex rfl
    rw [ShardBuilt, if_pos rfl] at h
    rw [h] at hindex
    cases hindex
  · intro hne
    obtain ⟨i, hi, -⟩ := h.indexed hne
    rw [hi]
    rfl

omit [Crates] [HashOrder] in
/-- All that a compaction knew of is folded. -/
theorem Manifest.install_folded (m : Manifest) (shards : List Shard) (now : Nat) :
    (m.install (m.wal.map (·.name)) shards now).wal = [] := by
  rw [install_wal, List.filter_eq_nil_iff]
  intro e he
  simpa using ⟨e, he, rfl⟩

omit [HashOrder] in
/-- Shards are all indexed if they all have documents. -/
theorem all_indexed_iff {schema : Schema} {dss : List (List Doc)} {shards : List Shard}
    (h : List.Forall₂ (fun docs shard => ShardBuilt s t schema docs true shard) dss shards) :
    (shards.all fun shard => shard.index.isSome) = true ↔ ∀ docs ∈ dss, docs ≠ [] := by
  induction h with
  | nil => exact iff_of_true rfl nofun
  | cons hb _ ih => rw [List.all_cons, Bool.and_eq_true, ih, hb.isSome_index, List.forall_mem_cons]

omit [HashOrder] in
/-- What was built could be clustered. -/
theorem exists_ivfBuild {schema : Schema} {dss : List (List Doc)} {shards : List Shard}
    (h : List.Forall₂ (fun docs shard => ShardBuilt s t schema docs true shard) dss shards) :
    ∀ docs ∈ dss, docs ≠ [] → ∃ x, ivfBuild docs
      ((IvfParams.forDocs docs.length).withMetric schema.distanceMetric) = .ok x := by
  induction h with
  | nil => exact nofun
  | cons hb _ ih =>
      refine List.forall_mem_cons.mpr ⟨fun hne => ?_, ih⟩
      obtain ⟨i, -, flat, groups, centroids, names, hivf, -⟩ := hb.indexed hne
      exact ⟨(flat, groups), hivf⟩

variable {s₀ : Store} {rs : List Record}

omit [HashOrder] in
/-- **What a compaction leaves is finished** if no shard is empty. -/
theorem Compacted.finished_iff (h : Compacted s₀ t true rs s) (hpos : 0 < s₀.manifest.schema.shards) :
    s.manifest.compacted true = true ↔
      ∀ docs ∈ buckets (materialize rs).values s₀.manifest.schema.shards, docs ≠ [] := by
  obtain ⟨shards, stamp, hm, hbuilt⟩ := h.manifest
  have hne : shards.isEmpty = false := by
    have hlen := hbuilt.length_eq
    rw [buckets, List.length_map, List.length_range] at hlen
    cases shards with
    | nil => exact absurd hlen hpos.ne'
    | cons shard shards => rfl
  have hindexed : s.manifest.compacted true = shards.all fun shard => shard.index.isSome := by
    rw [hm, Manifest.compacted, Manifest.install_folded, Manifest.install_shards, hne]
    simp
  rw [hindexed]
  exact all_indexed_iff hbuilt

omit [HashOrder] in
/-- **What a compaction leaves stands for the same documents.** -/
theorem Compacted.reads (h : Compacted s₀ t buildIndex rs s) (hpos : 0 < s₀.manifest.schema.shards) :
    ∃ rs', s.Reads s.manifest.recordObjects rs' ∧ materialize rs' = materialize rs := by
  obtain ⟨shards, stamp, hm, hbuilt⟩ := h.manifest
  rw [hm, Manifest.recordObjects, Manifest.install_folded, List.map_nil, List.append_nil]
  exact materialize_built hpos hbuilt

/-- **A compaction that is due leaves everything in shards.** -/
theorem Runs.compacted {resp : CompactResponse} (hs : s₀.Sound)
    (hreads : s₀.Reads s₀.manifest.recordObjects rs) (hdue : s₀.manifest.compacted buildIndex = false)
    (h : Runs t (Fckdb.compact handle buildIndex) s₀ s (.ok resp)) :
    Compacted s₀ t buildIndex rs s ∧ Grows (fun _ => True) s₀ s ∧
      s.versions.length = s₀.versions.length + 1 := by
  obtain ⟨s₁, shards, hcalm, hbuilt, rfl⟩ := h.of_compact hreads hdue
  obtain ⟨hgrows, hm⟩ := (hcalm.grows.sound hs).installed t handle s₀.base.2 s₀.base.2
    (s₀.manifest.wal.map (·.name)) shards
  refine ⟨⟨⟨shards, s₁.clock, by rw [hm, hcalm.manifest], hbuilt.imp fun _ _ => hgrows.shardBuilt⟩, ?_⟩,
    (hcalm.grows.mono fun _ => False.elim).trans hgrows, ?_⟩
  · rw [Store.installed_deleted, hcalm.deleted]
  · rw [Store.installed_versions, hcalm.versions]

omit [HashOrder] in
/-- A compaction that is due, alone, succeeds if every bucket can be clustered. -/
theorem Runs.compact_ok (t handle : Nat) (hs : s.Sound) (hreads : s.Reads s.manifest.recordObjects rs)
    (hkept : ∀ name ∈ s.manifest.recordObjects, name ∉ s.deleted)
    (hdue : s.manifest.compacted buildIndex = false)
    (hbuild : ∀ docs ∈ buckets (materialize rs).values s.manifest.schema.shards, docs ≠ [] →
      buildIndex = true → ∃ x, ivfBuild docs ((IvfParams.forDocs docs.length).withMetric
        s.manifest.schema.distanceMetric) = .ok x) :
    ∃ s' resp, Runs t (Fckdb.compact handle buildIndex) s s' (.ok resp) := by
  obtain ⟨s', r, hrun⟩ := total t (Fckdb.compact handle buildIndex) s
  obtain ⟨-, hpost⟩ := Prog.Safe.of_run (R := fun _ _ => True) Calm.refl (fun _ => trivial)
    (fun _ _ _ _ _ => trivial) (fun _ _ _ => trivial) (fun _ _ _ _ h => h)
    (Finishes.compact hs hreads hkept hdue hbuild handle s (Calm.refl s)) hrun
  cases r with
  | error e => exact hpost.elim
  | ok resp => exact ⟨s', resp, hrun⟩

omit [Crates] [HashOrder] in
/-- A compaction that is not due succeeds. -/
theorem Runs.exists_compact_finished [Crates] (t handle : Nat) (hdone : s.manifest.compacted buildIndex = true) :
    ∃ resp, Runs t (Fckdb.compact handle buildIndex) s (s.loaded handle) (.ok resp) := by
  refine ⟨⟨0, (s.manifest.allSegments.map (·.docs)).sum, 0, clusterCount s.manifest.shards, 0⟩, seq load ?_⟩
  dsimp only [Store.base]
  rw [if_pos hdone]
  exact done _

omit [Crates] [HashOrder] in
/-- **A compaction that is not due only loads.** -/
theorem Runs.compact_finished [Crates] {r : Except Error CompactResponse}
    (hdone : s.manifest.compacted buildIndex = true)
    (h : Runs t (Fckdb.compact handle buildIndex) s s' r) : s' = s.loaded handle := by
  obtain ⟨resp, hcompact⟩ := exists_compact_finished t handle hdone
  exact (unique h hcompact).1

end Runs

/-! ## Compacting again -/

/-- No object and no manifest was written or deleted. -/
structure Store.Undisturbed (s s' : Store) : Prop where
  puts : s'.puts = s.puts
  versions : s'.versions = s.versions
  deleted : s'.deleted = s.deleted
  dropped : s'.dropped = s.dropped

theorem Store.loaded_undisturbed (s : Store) (handle : Nat) : s.Undisturbed (s.loaded handle) := by
  rw [loaded]
  split
  · exact ⟨rfl, rfl, rfl, rfl⟩
  · exact ⟨rfl, rfl, rfl, rfl⟩

section Again

variable [Crates] [HashOrder] {ok : Terms} {p : Namespace} {rs : List Record} {handle handle' t' : Nat}
  {s₁ s₂ s₃ : Store} {resp : CompactResponse} {r : Except Error CompactResponse}

/-- **A compaction that is due again** succeeds, and writes a version. -/
theorem Compacted.again {s₀ : Store} {t : Nat} (h : Compacted s₀ t true rs s₂) (hs : s₂.Sound)
    (hpos : 0 < s₀.manifest.schema.shards) (hkept : ∀ name ∈ s₂.manifest.recordObjects, name ∉ s₂.deleted)
    (hdue : s₂.manifest.compacted true = false) (hrun : Runs t' (compact handle' true) s₂ s₃ r) :
    s₃.versions.length = s₂.versions.length + 1 := by
  obtain ⟨rs', hreads, hlive⟩ := h.reads hpos
  have hbuild : ∀ docs ∈ buckets (materialize rs').values s₂.manifest.schema.shards, docs ≠ [] →
      true = true → ∃ x, ivfBuild docs ((IvfParams.forDocs docs.length).withMetric
        s₂.manifest.schema.distanceMetric) = .ok x := by
    obtain ⟨shards, stamp, hm, hbuilt⟩ := h.manifest
    rw [hlive, hm, Manifest.install_schema]
    exact fun docs hdocs hne _ => exists_ivfBuild hbuilt docs hdocs hne
  obtain ⟨s', resp, hok⟩ := Runs.compact_ok t' handle' hs hreads hkept hdue hbuild
  obtain ⟨rfl, rfl⟩ := Runs.unique hrun hok
  exact (hrun.compacted hs hreads hdue).2.2

/-- **New shards were not deleted** before they were written. -/
theorem Reaches.kept_compacted (h : Reaches ok p) (hc : Compacted p.shared p.threads.length true rs s₂)
    (hgrows : Grows (fun _ => True) p.shared s₂) :
    ∀ name ∈ s₂.manifest.recordObjects, name ∉ s₂.deleted := by
  intro name hname hdel
  obtain ⟨shards, stamp, hm, hbuilt⟩ := hc.manifest
  rw [hm, Manifest.recordObjects, Manifest.install_folded, List.map_nil, List.append_nil] at hname
  obtain ⟨blob, put, hput, -, hthread⟩ := wrote_built hbuilt hname
  -- what was deleted was written by an earlier thread
  rw [hc.deleted] at hdel
  obtain ⟨put', hput'⟩ := h.gone_written (.inl hdel)
  obtain rfl := Option.some.inj (hput.symm.trans (hgrows.written hput'))
  have hmem : put ∈ p.shared.puts := by
    obtain ⟨hat, -⟩ := Option.filter_eq_some_iff.mp hput'
    exact List.mem_of_getElem? hat
  exact (h.puts_spawned put hmem).ne hthread

/-- **A compaction that was due, twice**: the second one changes nothing if no shard is empty. -/
theorem Reaches.recompact_due (h : Reaches ok p)
    (hreads : p.shared.Reads p.shared.manifest.recordObjects rs)
    (hdue : p.shared.manifest.compacted true = false)
    (hfirst : Runs p.threads.length (compact handle true) p.shared s₁ (.ok resp)) (hcalm : Calm s₁ s₂)
    (hsecond : Runs t' (compact handle' true) s₂ s₃ r) : s₂.Undisturbed s₃ ↔
      ∀ docs ∈ buckets (materialize rs).values p.shared.manifest.schema.shards, docs ≠ [] := by
  obtain ⟨hc, hgrows, -⟩ := hfirst.compacted h.sound hreads hdue
  have hc := Compacted.stable _ _ hcalm hc
  have hgrows := hgrows.trans (hcalm.grows.mono fun _ => False.elim)
  rw [← hc.finished_iff h.shards_pos]
  cases hdue' : s₂.manifest.compacted true with
  | true =>
      obtain rfl := hsecond.compact_finished hdue'
      exact iff_of_true (s₂.loaded_undisturbed handle') rfl
  | false =>
      have hagain := hc.again (hgrows.sound h.sound) h.shards_pos (h.kept_compacted hc hgrows) hdue' hsecond
      refine iff_of_false (fun hsame => ?_) Bool.false_ne_true
      rw [hsame.versions] at hagain
      exact absurd hagain (Nat.lt_succ_self _).ne

/-- **Compacting twice**, with nothing but reads in between: the second compaction changes nothing if the
first one found nothing to do, or if every shard holds a document. -/
theorem Reaches.recompact_iff (h : Reaches ok p)
    (hreads : p.shared.Reads p.shared.manifest.recordObjects rs)
    (hfirst : Runs p.threads.length (compact handle true) p.shared s₁ (.ok resp)) (hcalm : Calm s₁ s₂)
    (hsecond : Runs t' (compact handle' true) s₂ s₃ r) :
    s₂.Undisturbed s₃ ↔ p.shared.manifest.compacted true = true ∨
      ∀ docs ∈ buckets (materialize rs).values p.shared.manifest.schema.shards, docs ≠ [] := by
  cases hdue : p.shared.manifest.compacted true with
  | true =>
      obtain rfl := hfirst.compact_finished hdue
      have hdone : s₂.manifest.compacted true = true := by
        rw [hcalm.manifest, Store.loaded_manifest, hdue]
      obtain rfl := hsecond.compact_finished hdone
      exact iff_of_true (s₂.loaded_undisturbed handle') (.inl rfl)
  | false =>
      rw [h.recompact_due hreads hdue hfirst hcalm hsecond]
      exact ⟨.inr, fun hor => hor.resolve_left Bool.false_ne_true⟩

end Again

/-! ## Two shards -/

/-- What a namespace of two shards looks like after documents of one dimension were written to it. -/
structure Freshly [Crates] (docs : List Doc) (p : Namespace) : Prop where
  deleted : p.shared.deleted = []
  reads : p.shared.Reads p.shared.manifest.recordObjects (docs.map .upsert)
  due : p.shared.manifest.compacted true = false
  shards : p.shared.manifest.schema.shards = 2
  flat : ∀ d ∈ (materialize (docs.map .upsert)).values, d.vector.length = 1

/-- It can be compacted twice. -/
theorem Freshly.compact_twice [Crates] [HashOrder] {docs : List Doc} {p : Namespace} (h : Freshly docs p)
    (hp : Reaches anyTerms p) : ∃ s₁ resp s₂ r,
      Runs p.threads.length (compact 0 true) p.shared s₁ (.ok resp) ∧
      Runs (p.threads.length + 1) (compact 0 true) s₁ s₂ r := by
  obtain ⟨s₁, resp, hfirst⟩ := Runs.compact_ok p.threads.length 0 hp.sound h.reads
    (fun name _ => by rw [h.deleted]; exact List.not_mem_nil) h.due fun bucket hbucket hne _ =>
      ivfBuild_isOk _ hne (n := 1) fun d hd => by
        obtain ⟨i, -, rfl⟩ := List.mem_map.mp hbucket
        exact h.flat d (List.mem_of_mem_filter hd)
  obtain ⟨s₂, r, hsecond⟩ := Runs.total (p.threads.length + 1) (compact 0 true) s₁
  exact ⟨s₁, resp, s₂, r, hfirst, hsecond⟩

/-- With a document in each shard, the second compaction changes nothing. -/
theorem flatRun_recompact :
    let _ := Crates.inert
    let _ := HashOrder.sorted
    ∃ p s₁ resp s₂ r, Reaches anyTerms p ∧
      Runs p.threads.length (compact 0 true) p.shared s₁ (.ok resp) ∧
      Runs (p.threads.length + 1) (compact 0 true) s₁ s₂ r ∧ s₁.Undisturbed s₂ := by
  intro _ _
  have hrun : ∃ p, execute service.step ⟨{}, []⟩ flatRun = some p ∧ Freshly [.flat 1, .flat 2] p :=
    ⟨_, rfl, rfl, ⟨[_], .cons ⟨_, rfl, rfl⟩ .nil, rfl⟩, rfl, rfl, by decide +kernel⟩
  obtain ⟨p, hp, hfresh⟩ := hrun
  have hp := Reaches.any hp
  obtain ⟨s₁, resp, s₂, r, hfirst, hsecond⟩ := hfresh.compact_twice hp
  refine ⟨p, s₁, resp, s₂, r, hp, hfirst, hsecond, ?_⟩
  refine (hp.recompact_iff hfresh.reads hfirst (Calm.refl s₁) hsecond).mpr (.inr ?_)
  rw [hfresh.shards]
  decide +kernel

/-- A document is written to a namespace of two shards. -/
def lopsidedRun : List Act :=
  .spawn (.commitRecords 0 [.upsert (.flat 1)] { numShards := some 2 }) :: goes 0 6

/-- With an empty shard, the second compaction writes everything again. -/
theorem lopsidedRun_not_undisturbed :
    let _ := Crates.inert
    let _ := HashOrder.sorted
    ¬ ∀ p s₁ resp s₂ r, Reaches anyTerms p →
      Runs p.threads.length (compact 0 true) p.shared s₁ (.ok resp) →
      Runs (p.threads.length + 1) (compact 0 true) s₁ s₂ r → s₁.Undisturbed s₂ := by
  intro _ _ hall
  have hrun : ∃ p, execute service.step ⟨{}, []⟩ lopsidedRun = some p ∧ Freshly [.flat 1] p :=
    ⟨_, rfl, rfl, ⟨[_], .cons ⟨_, rfl, rfl⟩ .nil, rfl⟩, rfl, rfl, by decide +kernel⟩
  obtain ⟨p, hp, hfresh⟩ := hrun
  have hp := Reaches.any hp
  obtain ⟨s₁, resp, s₂, r, hfirst, hsecond⟩ := hfresh.compact_twice hp
  have hsame := hall p s₁ resp s₂ r hp hfirst hsecond
  have hfull := (hp.recompact_due hfresh.reads hfresh.due hfirst (Calm.refl s₁) hsecond).mp hsame
  rw [hfresh.shards] at hfull
  revert hfull
  decide +kernel

end Fckdb
