import Fckdb.Delivery

/-! # The settings of coalesced requests

A commit takes one configuration, the first of its batch that is not empty. The settings of a request
that was answered `Ok` are in force if those of each request in its batch were among them, or were in
force before (`GroupCommit.Reached.keepsSettings`); else they may be dropped
(`GroupCommit.dropped_not_keepsSettings`). -/

namespace Fckdb

/-- All settings of a configuration are in force. -/
structure WriteConfig.InForce (c : WriteConfig) (s : Schema) : Prop where
  metric : ∀ metric ∈ c.metric, s.distanceMetric = metric
  types : ∀ e ∈ c.declaredTypes.entries, s.attributes.get e.1 = some e.2
  fts : ∀ e ∈ c.declaredFts.entries, s.fts.get e.1 = some e.2
  shards : ∀ n ∈ c.numShards, s.numShards = some n
  embed : ∀ e ∈ c.declaredEmbed.entries, s.embed.get e.1 = some e.2

/-- A setting is the `chosen` one, or it is in force and no other one is chosen. -/
def Stays {α : Type} (v : α) (chosen current : Option α) : Prop :=
  chosen = some v ∨ chosen = none ∧ current = some v

instance {α : Type} [DecidableEq α] (v : α) (chosen current : Option α) :
    Decidable (Stays v chosen current) := inferInstanceAs (Decidable (_ ∨ _))

theorem Stays.or {α : Type} {v : α} {chosen current : Option α} (h : Stays v chosen current) :
    chosen.or current = some v := by
  rcases h with rfl | ⟨rfl, rfl⟩
  · rfl
  · rfl

/-- Each setting of a configuration is one of the `chosen` configuration, or it is in force and not changed
by that. -/
structure WriteConfig.Within (c chosen : WriteConfig) (s : Schema) : Prop where
  metric : ∀ metric ∈ c.metric, Stays metric chosen.metric (some s.distanceMetric)
  types : ∀ e ∈ c.declaredTypes.entries,
    Stays e.2 (chosen.declaredTypes.get e.1) (s.attributes.get e.1)
  fts : ∀ e ∈ c.declaredFts.entries, Stays e.2 (chosen.declaredFts.get e.1) (s.fts.get e.1)
  shards : ∀ n ∈ c.numShards, Stays n chosen.numShards s.numShards
  embed : ∀ e ∈ c.declaredEmbed.entries, Stays e.2 (chosen.declaredEmbed.get e.1) (s.embed.get e.1)

namespace WriteConfig

variable {c chosen : WriteConfig} {s s' : Schema}

/-- **Adopting the chosen configuration** puts the settings within it in force. -/
theorem Within.configured (h : c.Within chosen s) : c.InForce (s.configured chosen) := by
  have hmap {ν : Type} {m declared : SortedMap String ν} {e : String × ν}
      (he : Stays e.2 (declared.get e.1) (m.get e.1)) :
      (m.insertAll declared.entries).get e.1 = some e.2 := by
    rw [SortedMap.get_insertAll declared.sorted]
    exact he.or
  refine ⟨fun metric hm => ?_, fun e he => hmap (h.types e he), fun e he => hmap (h.fts e he),
    fun n hn => (h.shards n hn).or, fun e he => hmap (h.embed e he)⟩
  have hor := (h.metric metric hm).or
  rw [Option.or_some] at hor
  exact Option.some.inj hor

/-- A batch leaves the settings in force. -/
theorem InForce.extends (h : c.InForce s) (hs : s.Extends s') : c.InForce s' :=
  ⟨fun metric hm => hs.distanceMetric.trans (h.metric metric hm),
    fun e he => hs.attributes _ _ (h.types e he), fun e he => hs.fts ▸ h.fts e he,
    fun n hn => hs.numShards.trans (h.shards n hn), fun e he => hs.embed ▸ h.embed e he⟩

end WriteConfig

namespace GroupCommit

section Runs

variable [Crates] [HashOrder] {g : GroupCommit}

/-- Runs in which, when the commit of a batch wins, the settings of each of its requests are among the
chosen ones, or in force. -/
def settingsTerms : GroupTerms
  | g, .run (.run t _) => ∀ call m mode batch next,
      g.space.threads[t]? = some ⟨call, .ask (.putManifest m mode (.commit batch)) next⟩ →
      g.space.shared.admits mode = true → ∀ waiters, (t, waiters) ∈ g.batches → ∀ q ∈ waiters,
        q.config.Within (batchConfig waiters) g.space.shared.manifest.schema
  | _, _ => True

/-- **No settings are dropped**: those of a request that was answered `Ok` are in force in the manifest
that its batch committed. -/
def KeepsSettings (g : GroupCommit) : Prop :=
  ∀ w ∈ g.writers, ∀ ticket ∈ w.waits, ∀ seq, (ticket, .ok seq) ∈ g.replies →
    ∃ t waiters q v c, (t, waiters) ∈ g.batches ∧ q ∈ waiters ∧ q.ticket = ticket ∧
      v ∈ g.space.shared.versions ∧ v.thread = t ∧ v.commit? = some c ∧ c.seq = seq ∧
      w.config.InForce v.manifest.schema

/-- The versions that batches wrote have the settings of their requests in force. -/
def Configured (g : GroupCommit) : Prop :=
  ∀ v ∈ g.space.shared.versions, ∀ batch, v.reason = .commit batch → ∀ waiters,
    (v.thread, waiters) ∈ g.batches → ∀ q ∈ waiters, q.config.InForce v.manifest.schema

/-- **A step keeps the settings.** -/
theorem Configured.step {g' : GroupCommit} {a : GroupAction} (h : g.Configured) (ht : g.Tidy)
    (hspace : Reaches freeTerms g.space) (hok : settingsTerms g a) (hs : g.Stepped a g') :
    g'.Configured := by
  rcases hs.space with ⟨heq, hb⟩ | ⟨b, rfl, hstep, hb⟩ | ⟨waiters, rfl, hstep, hb⟩
  · rw [Configured, heq, hb]
    exact h
  · have hfree : freeTerms.Meets g.space b := terms_free g (.run b)
    rw [Configured, hb]
    rcases hspace.step_versions hfree hstep with
      hv | ⟨t, c, v, call, mode, next, rfl, hth, hadm, hvt, hpush, hprep⟩
    · rw [hv]
      exact h
    · intro v' hv' batch hreason waiters hmem q hq
      rw [hpush] at hv'
      rcases List.mem_append.mp hv' with hv' | hv'
      · exact h v' hv' batch hreason waiters hmem q hq
      · -- the new version was committed with the chosen configuration
        obtain rfl := List.mem_singleton.mp hv'
        rw [hvt] at hmem
        rw [hreason] at hth
        have hwithin := hok call _ mode batch next hth hadm waiters hmem q hq
        obtain ⟨prepare, hask, hprepared⟩ := hprep batch hreason
        obtain ⟨th, hth', hcall⟩ := ht.calls _ hmem
        obtain rfl := Option.some.inj (hth.symm.trans hth')
        obtain rfl : call = _ := hcall
        cases hask
        exact hwithin.configured.extends (Schema.absorb_extends (prepareRecords_eq_ok hprepared).1)
  · -- the new thread wrote nothing yet
    have hspawned := hspace.authored.spawned
    obtain heq := Option.some.inj hstep
    rw [Configured, ← heq, hb]
    intro v hv batch hreason waiters' hmem q hq
    rcases List.mem_append.mp hmem with hmem | hmem
    · exact h v hv batch hreason waiters' hmem q hq
    · have hthread : v.thread = g.space.threads.length :=
        congrArg Prod.fst (List.mem_singleton.mp hmem)
      exact absurd (hspawned v hv) (hthread ▸ Nat.lt_irrefl _)

/-- **Settings are kept** in every interleaving, if no batch has a request with others. -/
theorem Reached.keepsSettings {handle : Nat} {p : Namespace} (hp : Reaches freeTerms p)
    (h : Reached settingsTerms handle p g) : g.KeepsSettings := by
  have hfree : Reached (terms freeTerms) handle p g := h.mono fun g a _ => terms_free g a
  have ht := h.tidy
  have hspace := hfree.space hp
  have hconfigured : g.Configured := by
    refine h.invariant (I := Configured) (fun v _ batch _ waiters hb => (List.not_mem_nil hb).elim) ?_
    intro g a g' hg hI hok hs
    have hspace := Reached.space hp (Reachable.mono (fun g a _ => terms_free g a) hg)
    exact hI.step (Reached.tidy hg) hspace hok (stepped hs)
  intro w hw ticket hticket seq hreply
  obtain ⟨t, waiters, q, hb, hq, hqt, hres⟩ := ht.own hreply
  obtain ⟨c, hc, hct, hseq⟩ := commitReply_wrote hspace hres
  obtain ⟨v, hv, hcv⟩ := List.mem_filterMap.mp hc
  -- the channel is that of the request
  obtain ⟨n, hn⟩ := List.mem_iff_getElem?.mp hticket
  obtain ⟨q', hq', hq't, -, hconfig⟩ := (h.waits w hw).sent n ticket hn
  obtain rfl := ht.ticket_inj (mem_items hb hq) hq' (hqt.trans hq't.symm)
  have hvt : v.thread = t := (commit?_thread hcv).symm.trans hct
  have hforce := hconfigured v hv c.batch (commit?_reason hcv) waiters (hvt ▸ hb) q hq
  exact ⟨t, waiters, q, v, c, hb, hq, hqt, hv, hvt, hcv, hseq, hconfig ▸ hforce⟩

end Runs

instance (c chosen : WriteConfig) (s : Schema) : Decidable (c.Within chosen s) :=
  decidable_of_iff (((∀ metric ∈ c.metric, Stays metric chosen.metric (some s.distanceMetric)) ∧
      ∀ n ∈ c.numShards, Stays n chosen.numShards s.numShards) ∧
    (∀ e ∈ c.declaredTypes.entries, Stays e.2 (chosen.declaredTypes.get e.1) (s.attributes.get e.1)) ∧
    (∀ e ∈ c.declaredFts.entries, Stays e.2 (chosen.declaredFts.get e.1) (s.fts.get e.1)) ∧
    ∀ e ∈ c.declaredEmbed.entries, Stays e.2 (chosen.declaredEmbed.get e.1) (s.embed.get e.1))
    ⟨fun ⟨⟨hm, hn⟩, ht, hf, he⟩ => ⟨hm, ht, hf, hn, he⟩,
      fun h => ⟨⟨h.metric, h.shards⟩, h.types, h.fts, h.embed⟩⟩

instance (g : GroupCommit) : (a : GroupAction) → Decidable (settingsTerms g a)
  | .run (.run t _) =>
    match hth : g.space.threads[t]? with
    | none => isTrue fun _ _ _ _ _ hask => nomatch hth.symm.trans hask
    | some ⟨_, .done _⟩ => isTrue fun _ _ _ _ _ hask => nomatch hth.symm.trans hask
    | some ⟨_, .ask (.putManifest _ mode (.commit _)) _⟩ =>
      decidable_of_iff (g.space.shared.admits mode = true → ∀ b ∈ g.batches, b.1 = t → ∀ q ∈ b.2,
          q.config.Within (batchConfig b.2) g.space.shared.manifest.schema)
        ⟨fun h _ _ _ _ _ hask hadm waiters hb q hq => by
          cases hth.symm.trans hask
          exact h hadm _ hb rfl q hq,
        fun h hadm b hb ht q hq => h _ _ _ _ _ hth hadm b.2 (ht ▸ hb) q hq⟩
    | some ⟨_, .ask (.putManifest _ _ (.compaction _ _)) _⟩ | some ⟨_, .ask .getManifest _⟩
    | some ⟨_, .ask (.putNew _ _) _⟩ | some ⟨_, .ask (.get _) _⟩ | some ⟨_, .ask (.delete _) _⟩
    | some ⟨_, .ask (.list _) _⟩ | some ⟨_, .ask (.next _) _⟩ | some ⟨_, .ask .deleteManifest _⟩
    | some ⟨_, .ask .listAll _⟩ | some ⟨_, .ask .nextAny _⟩ | some ⟨_, .ask (.now _) _⟩
    | some ⟨_, .ask (.view _) _⟩ | some ⟨_, .ask (.remember _ _ _) _⟩ | some ⟨_, .ask (.forget _) _⟩
    | some ⟨_, .ask .choose _⟩ => isTrue fun _ _ _ _ _ hask => nomatch hth.symm.trans hask
  | .run (.spawn _) | .run (.env _) | .write _ _ | .send _ | .receive | .commit | .finish | .reply =>
    isTrue trivial

/-- Two requests with settings share a batch; the second one's are among the first one's. -/
def agreedRun : List GroupAction :=
  [.write [.upsert (.bare 1)] { metric := some .euclideanSquared, numShards := some 4 },
    .write [.upsert (.bare 2)] { numShards := some 4 }, .send 0, .send 1] ++ commits 2 6 0

theorem agreedRun_keepsSettings :
    let _ := Crates.inert
    let _ := HashOrder.sorted
    ∃ g, execute step (start 0 ⟨{}, []⟩) agreedRun = some g ∧
      g.space.shared.manifest.schema.numShards = some 4 ∧ g.KeepsSettings := by
  intro _ _
  have hrun : (execute step (start 0 ⟨{}, []⟩) agreedRun).any
      (fun g => g.space.shared.manifest.schema.numShards = some 4) = true := by decide +kernel
  obtain ⟨g, hg, hshards⟩ := (Option.any_eq_true _ _).mp hrun
  have hallowed : Allowed step settingsTerms (start 0 ⟨{}, []⟩) agreedRun := by decide +kernel
  exact ⟨g, hg, of_decide_eq_true hshards,
    Reached.keepsSettings .init (Reachable.init.execute hallowed hg)⟩

/-! ## A dropped setting -/

/-- Two requests with different settings share a batch. -/
def droppedRun : List GroupAction :=
  [.write [.upsert (.bare 1)] { metric := some .euclideanSquared },
    .write [.upsert (.bare 2)] { numShards := some 4 }, .send 0, .send 1] ++ commits 2 6 0

/-- The second request, for four shards, was answered `Ok`, and no version has them. -/
def dropped (g : GroupCommit) : Bool :=
  match g.writers, g.replies with
  | [_, w], [_, (ticket, .ok _)] => ticket ∈ w.waits && w.config.numShards = some 4 &&
      g.space.shared.versions.all fun v => v.manifest.schema.numShards = none
  | _, _ => false

/-- **The shard count that a request asked for is dropped.** -/
theorem dropped_not_keepsSettings :
    let _ := Crates.inert
    let _ := HashOrder.sorted
    ¬ ∀ g, Reached (terms freeTerms) 0 ⟨{}, []⟩ g → g.KeepsSettings := by
  intro _ _ h
  have hrun : (execute step (start 0 ⟨{}, []⟩) droppedRun).any dropped = true := by decide +kernel
  obtain ⟨g, hg, hdropped⟩ := (Option.any_eq_true _ _).mp hrun
  have hkeeps := h g (Reachable.init.execute (Allowed.of_forall terms_free _ _) hg)
  rw [dropped] at hdropped
  split at hdropped
  · next w' w r ticket seq hwriters hreplies =>
    simp only [Bool.and_eq_true, decide_eq_true_eq, List.all_eq_true] at hdropped
    obtain ⟨⟨hticket, hfour⟩, hnone⟩ := hdropped
    obtain ⟨t, waiters, q, v, c, -, -, -, hv, -, -, -, hforce⟩ := hkeeps w (by simp [hwriters]) ticket
      hticket seq (by simp [hreplies])
    cases (hforce.shards 4 hfour).symm.trans (hnone v hv)
  · cases hdropped

end GroupCommit

end Fckdb
