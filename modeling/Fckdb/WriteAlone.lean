import Fckdb.IndexObjects
import Fckdb.Serial
import Fckdb.WriteRequest

/-! # Write requests of one writer

What a request does when nobody else writes: however the committer cuts its records into batches, they are
accepted if the schema absorbs them one after the other, and the namespace then has them after those
it had (`Runs.writeAll`, `Runs.of_writeAll`). -/

namespace Fckdb

/-! ## One batch after another -/

section Prepare

variable [Crates]

/-- A schema absorbs a list of records in parts. -/
theorem Schema.absorb_append (s : Schema) (a b : List Record) :
    s.absorb (a ++ b) = (s.absorb a).bind fun x => (x.1.absorb b).map fun y => (y.1, x.2 ++ y.2) := by
  induction a generalizing s with
  | nil =>
      show s.absorb b = (s.absorb b).map fun y => (y.1, [] ++ y.2)
      cases s.absorb b <;> rfl
  | cons r a ih =>
      rw [List.cons_append, absorb, absorb]
      cases s.absorbRecord r with
      | error e => rfl
      | ok x =>
          show (x.1.absorb (a ++ b)).bind _ = _
          rw [ih]
          show _ = ((x.1.absorb a).bind _).bind _
          cases x.1.absorb a with
          | error e => rfl
          | ok y =>
              show ((y.1.absorb b).map _).bind _ = (y.1.absorb b).map _
              cases y.1.absorb b <;> rfl

/-- The schema that the records of a write start from. -/
def Schema.adopt (s : Schema) (metric : Option DistanceMetric) (hasData : Bool) : Except Error Schema :=
  metric.elim (.ok s) (s.setMetric · hasData)

/-- A write with a metric only. -/
theorem prepareRecords_metric (records : List Record) (metric : Option DistanceMetric) (m : Manifest) :
    prepareRecords records { metric := metric } m =
      (m.schema.adopt metric m.hasData).bind (·.absorb records) := by
  cases metric with
  | none => rfl
  | some metric =>
      show (m.schema.setMetric metric m.hasData).bind _ = (m.schema.setMetric metric m.hasData).bind _
      cases m.schema.setMetric metric m.hasData <;> rfl

omit [Crates] in
/-- A metric that was adopted is kept, and adopted again. -/
theorem Schema.adopt_again {s σ σ' : Schema} {metric : Option DistanceMetric} {hasData : Bool}
    (h : s.adopt metric hasData = .ok σ) (hext : σ.Extends σ') : σ'.adopt metric true = .ok σ' := by
  cases metric with
  | none => rfl
  | some metric =>
      obtain rfl := setMetric_eq_ok h
      show σ'.setMetric metric true = .ok σ'
      rw [setMetric, if_pos rfl, if_pos hext.distanceMetric]

variable {metric : Option DistanceMetric} {a b : List Record} {m m₁ : Manifest} {σ₁ σ₂ : Schema}
  {rs₁ rs : List Record}

/-- **Records in two batches** are accepted as in one. -/
theorem prepareRecords_append (ha : prepareRecords a { metric := metric } m = .ok (σ₁, rs₁))
    (hs : m₁.schema = σ₁) (hdata : m₁.hasData = true) :
    prepareRecords (a ++ b) { metric := metric } m = .ok (σ₂, rs) ↔
      ∃ rs₂, prepareRecords b { metric := metric } m₁ = .ok (σ₂, rs₂) ∧ rs = rs₁ ++ rs₂ := by
  rw [prepareRecords_metric] at ha
  obtain ⟨σ, hσ, ha⟩ := bind_eq_ok.mp ha
  rw [prepareRecords_metric, prepareRecords_metric, hσ, hs, hdata,
    Schema.adopt_again hσ (Schema.absorb_extends ha)]
  show σ.absorb (a ++ b) = _ ↔ ∃ rs₂, σ₁.absorb b = _ ∧ _
  rw [Schema.absorb_append, ha]
  show (σ₁.absorb b).map (fun y => (y.1, rs₁ ++ y.2)) = _ ↔ _
  rw [map_eq_ok]
  constructor
  · rintro ⟨⟨σ', rs₂⟩, hb, heq⟩
    obtain ⟨rfl, rfl⟩ := Prod.mk.inj heq
    exact ⟨rs₂, hb, rfl⟩
  · rintro ⟨rs₂, hb, rfl⟩
    exact ⟨(σ₂, rs₂), hb, rfl⟩

/-- The first of two batches is accepted if both are in one. -/
theorem prepareRecords_left (h : prepareRecords (a ++ b) { metric := metric } m = .ok (σ₂, rs)) :
    ∃ σ₁ rs₁, prepareRecords a { metric := metric } m = .ok (σ₁, rs₁) := by
  rw [prepareRecords_metric] at h ⊢
  obtain ⟨σ, hσ, h⟩ := bind_eq_ok.mp h
  rw [Schema.absorb_append] at h
  obtain ⟨x, hx, -⟩ := bind_eq_ok.mp h
  rw [hσ]
  exact ⟨x.1, x.2, hx⟩

end Prepare

/-! ## Committing -/

/-- A namespace that one writer has written to: its records, which are there, and its handle. -/
structure Written (handle : Nat) (l : Ledger) (s : Store) : Prop where
  settled : Settled handle s
  carries : Carries l s
  tail : s.manifest.wal ≠ []

theorem Written.hasData {handle : Nat} {l : Ledger} {s : Store} (h : Written handle l s) :
    s.manifest.hasData = true := by
  rw [Manifest.hasData, List.isEmpty_eq_false_iff.mpr h.tail]
  rfl

/-- A commit leaves the namespace written to. -/
theorem Written.committed {t handle : Nat} {l : Ledger} {s : Store} {schema : Schema}
    {batch : List Record} (h : Carries l s) :
    Written handle ⟨schema, l.log ++ batch⟩ (s.committed t handle schema batch) := by
  refine ⟨.committed h.dropped, h.committed, ?_⟩
  rw [Store.committed_manifest h.dropped, Store.pushed, Manifest.push_wal]
  exact List.append_ne_nil_of_right_ne_nil _ (List.cons_ne_nil _ _)

theorem awaitReplies_ok (seq n : Nat) {records : List Record} (h : records ≠ []) (rest : List (Except Flat Nat)) :
    awaitReplies seq (records.map (fun _ => .ok n) ++ rest) = awaitReplies n rest := by
  induction records generalizing seq with
  | nil => exact absurd rfl h
  | cons r records ih =>
      rw [List.map_cons, List.cons_append, awaitReplies]
      cases records with
      | nil => rfl
      | cons r' records => exact ih n (List.cons_ne_nil _ _)

theorem awaitReplies_error (seq : Nat) (e : Flat) {records : List Record} (h : records ≠ [])
    (rest : List (Except Flat Nat)) :
    awaitReplies seq (records.map (fun _ => .error e) ++ rest) = .error e.intoError := by
  cases records with
  | nil => exact absurd rfl h
  | cons r records => rfl

/-- Records that are not none are cut into some batches. -/
theorem Cut.ne_nil (cut : Cut) {records : List Record} (h : records ≠ []) :
    cut.batches records ≠ [] := by
  intro hnil
  refine h ?_
  rw [← cut.flatten records, hnil]
  rfl

namespace Runs

variable [Crates] {t handle : Nat} {metric : Option DistanceMetric} {s s' : Store} {l : Ledger}
  {records : List Record} {batches : List (List Record)} {schema : Schema} {batch : List Record}

/-- `commit_records`, accepted. -/
theorem commitRecords (h : Settled handle s)
    (hp : prepareRecords records { metric := metric } s.manifest = .ok (schema, batch)) :
    Runs t (Fckdb.commitRecords handle records { metric := metric }) s
      (s.committed t handle schema batch) (.ok (s.manifest.nextSeq, 1)) :=
  commitLoop h hp

/-- **Batches that are accepted** in one are accepted one after the other. -/
theorem commitBatches (hne : ∀ b ∈ batches, b ≠ []) (hbatches : batches ≠ []) (h : Settled handle s)
    (hl : Carries l s)
    (hp : prepareRecords batches.flatten { metric := metric } s.manifest = .ok (schema, batch)) :
    ∃ s' replies, Runs t (Fckdb.commitBatches handle { metric := metric } batches) s s' (.ok replies) ∧
      (∀ seq, ∃ n, awaitReplies seq replies = .ok n) ∧ Written handle ⟨schema, l.log ++ batch⟩ s' := by
  induction batches generalizing s l batch with
  | nil => exact absurd rfl hbatches
  | cons b batches ih =>
      rw [List.flatten_cons] at hp
      obtain ⟨σ₁, rs₁, hb⟩ := prepareRecords_left hp
      have hwritten : Written handle ⟨σ₁, l.log ++ rs₁⟩ (s.committed t handle σ₁ rs₁) := .committed hl
      have hcommit : Runs t (Proc.ofProg (Fckdb.commitRecords handle b { metric := metric })) s
          (s.committed t handle σ₁ rs₁) (.ok (.ok (s.manifest.nextSeq, 1))) :=
        bind (commitRecords h hb) (done _)
      have hb' := hne b List.mem_cons_self
      cases batches with
      | nil =>
          rw [List.flatten_nil, List.append_nil, hb] at hp
          cases hp
          refine ⟨_, _, seq hcommit (seq (done _) (done _)), fun seq => ⟨s.manifest.nextSeq, ?_⟩,
            hwritten⟩
          exact awaitReplies_ok seq _ hb' []
      | cons b' batches =>
          obtain ⟨rs₂, hrest, rfl⟩ :=
            (prepareRecords_append hb hwritten.carries.schema hwritten.hasData).mp hp
          obtain ⟨s', replies, hruns, hreplies, hw⟩ := ih (fun c hc => hne c (List.mem_cons_of_mem _ hc))
            (List.cons_ne_nil _ _) hwritten.settled hwritten.carries hrest
          refine ⟨s', _, seq hcommit (seq hruns (done _)), fun seq => ?_, ?_⟩
          · obtain ⟨n, hn⟩ := hreplies s.manifest.nextSeq
            exact ⟨n, (awaitReplies_ok seq _ hb' replies).trans hn⟩
          · rwa [List.append_assoc] at hw

/-- The first of some batches that went well was accepted, and the others went on from there. -/
theorem of_commitBatches_cons {config : WriteConfig} {b : List Record} (hb : b ≠ []) (h : Settled handle s)
    {replies : List (Except Flat Nat)}
    (hruns : Runs t (Fckdb.commitBatches handle config (b :: batches)) s s' (.ok replies)) {seq n : Nat}
    (hreplies : awaitReplies seq replies = .ok n) :
    ∃ σ rs rest, prepareRecords b config s.manifest = .ok (σ, rs) ∧
      Runs t (Fckdb.commitBatches handle config batches) (s.committed t handle σ rs) s' (.ok rest) ∧
      awaitReplies s.manifest.nextSeq rest = .ok n := by
  obtain ⟨s₁, result, hcommit, hruns⟩ := of_seq hruns
  obtain ⟨s₂, rest, hrest, hruns⟩ := of_seq hruns
  obtain ⟨rfl, hr⟩ := unique hruns (done _)
  obtain rfl := Except.ok.inj hr
  cases hp : prepareRecords b config s.manifest with
  | error e =>
      -- a refused batch is reported
      have herror : Runs t (Proc.ofProg (Fckdb.commitRecords handle b config)) s s (.ok (.error e)) :=
        bind (commitLoop_error h hp) (done _)
      obtain ⟨-, hr⟩ := unique hcommit herror
      obtain rfl := Except.ok.inj hr
      rw [commitReply, awaitReplies_error _ _ hb] at hreplies
      cases hreplies
  | ok x =>
      obtain ⟨σ, rs⟩ := x
      have hok : Runs t (Proc.ofProg (Fckdb.commitRecords handle b config)) s
          (s.committed t handle σ rs) (.ok (.ok (s.manifest.nextSeq, 1))) :=
        bind (commitLoop h hp) (done _)
      obtain ⟨rfl, hr⟩ := unique hcommit hok
      obtain rfl := Except.ok.inj hr
      rw [commitReply, awaitReplies_ok _ _ hb] at hreplies
      exact ⟨σ, rs, rest, rfl, hrest, hreplies⟩

/-- Batches that are accepted one after the other are accepted in one. -/
theorem of_commitBatches (hne : ∀ b ∈ batches, b ≠ []) (hbatches : batches ≠ [])
    (h : Settled handle s) (hl : Carries l s) {replies : List (Except Flat Nat)}
    (hruns : Runs t (Fckdb.commitBatches handle { metric := metric } batches) s s' (.ok replies))
    {seq n : Nat} (hreplies : awaitReplies seq replies = .ok n) :
    ∃ schema batch, prepareRecords batches.flatten { metric := metric } s.manifest =
      .ok (schema, batch) := by
  induction batches generalizing s l seq replies with
  | nil => exact absurd rfl hbatches
  | cons b batches ih =>
      obtain ⟨σ₁, rs₁, rest, hb, hrest, hreplies⟩ :=
        of_commitBatches_cons (hne b List.mem_cons_self) h hruns hreplies
      have hwritten : Written handle ⟨σ₁, l.log ++ rs₁⟩ (s.committed t handle σ₁ rs₁) := .committed hl
      cases batches with
      | nil => exact ⟨σ₁, rs₁, by rwa [List.flatten_cons, List.flatten_nil, List.append_nil]⟩
      | cons b' batches =>
          obtain ⟨σ₂, rs₂, h₂⟩ := ih (fun c hc => hne c (List.mem_cons_of_mem _ hc))
            (List.cons_ne_nil _ _) hwritten.settled hwritten.carries hrest hreplies
          exact ⟨σ₂, rs₁ ++ rs₂,
            (prepareRecords_append hb hwritten.carries.schema hwritten.hasData).mpr ⟨rs₂, h₂, rfl⟩⟩

variable {cut : Cut}

/-- **A write that is accepted**, however it is cut into batches. -/
theorem writeAll (hne : records ≠ []) (h : Settled handle s) (hl : Carries l s)
    (hp : prepareRecords records { metric := metric } s.manifest = .ok (schema, batch)) :
    ∃ s' n, Runs t (Fckdb.writeAll handle cut records { metric := metric }) s s' (.ok n) ∧
      Written handle ⟨schema, l.log ++ batch⟩ s' := by
  rw [← cut.flatten records] at hp
  obtain ⟨s', replies, hruns, hreplies, hw⟩ :=
    commitBatches (t := t) (cut.nonempty records) (cut.ne_nil hne) h hl hp
  obtain ⟨n, hn⟩ := hreplies 0
  refine ⟨s', n, seq hruns ?_, hw⟩
  show Runs t (Proc.ofExcept (awaitReplies 0 replies)) s' s' (.ok n)
  rw [hn]
  exact done _

/-- A write that went well was accepted. -/
theorem of_writeAll (hne : records ≠ []) (h : Settled handle s) (hl : Carries l s) {n : Nat}
    (hruns : Runs t (Fckdb.writeAll handle cut records { metric := metric }) s s' (.ok n)) :
    ∃ schema batch, prepareRecords records { metric := metric } s.manifest = .ok (schema, batch) ∧
      Written handle ⟨schema, l.log ++ batch⟩ s' := by
  obtain ⟨s₁, replies, hbatches, hawait⟩ := of_seq hruns
  have hreplies : awaitReplies 0 replies = .ok n := (unique hawait (done _)).2.symm
  obtain ⟨schema, batch, hp⟩ :=
    of_commitBatches (cut.nonempty records) (cut.ne_nil hne) h hl hbatches hreplies
  rw [cut.flatten] at hp
  obtain ⟨s'', n', hruns', hw⟩ : ∃ s' n,
      Runs t (Fckdb.writeAll handle cut records { metric := metric }) s s' (.ok n) ∧
        Written handle ⟨schema, l.log ++ batch⟩ s' := writeAll hne h hl hp
  obtain ⟨rfl, -⟩ := unique hruns hruns'
  exact ⟨schema, batch, hp, hw⟩

end Runs

/-! ## Resolving filters -/

section Resolved

variable [Crates] [HashOrder]

/-- The ids of the live documents that a filter matches. -/
def Ledger.scan (l : Ledger) (f : Filter) : List Id :=
  ((materialize l.log).hashValues.filter fun d => f.matches d.attrs l.schema.fts).map Doc.id

omit [HashOrder] in
/-- What the attribute indexes select, if they cover everything and answer exactly. -/
def Store.indexed (s : Store) (f : Filter) : Option (List Id) :=
  if s.manifest.covered then
    match Prog.eval s.glance (indexedMatches f s.manifest.shards) with
    | some (.ok answer) => answer
    | _ => none
  else none

omit [HashOrder] in
/-- The indexes that filters read are there. -/
def Store.Searchable (s : Store) : Prop :=
  s.manifest.covered = true →
    ∀ f, ∃ answer, s.Gives (indexedMatches f s.manifest.shards) (.ok answer)

/-- The ids that a filter finds: by the indexes, or else by the scan. -/
def Store.found (s : Store) (l : Ledger) (f : Filter) : List Id := (s.indexed f).getD (l.scan f)

/-- What `ids_matching` answers. -/
def Store.resolved (s : Store) (l : Ledger) (f : Filter) (cap : Nat) : Except Error (List Id × Bool) :=
  (f.coerce l.schema.attributes).map fun f => capped (s.found l f) cap

/-- The ids that `delete_by_filter` deletes. -/
def Store.deletes (s : Store) (l : Ledger) : Option Filter → Except AppError (List Id × Bool)
  | none => .ok ([], false)
  | some f => (s.resolved l f maxDeleteByFilterRows).mapError .ofError

/-- The patches of `patch_by_filter`. -/
def Store.patches (s : Store) (l : Ledger) : Option FilterPatch → Except AppError (List Record × Bool)
  | none => .ok ([], false)
  | some fp =>
    if fp.patch.entries.isEmpty then .error (bad "patch_by_filter requires a non-empty patch")
    else ((s.resolved l fp.filters maxPatchByFilterRows).mapError .ofError).map fun x =>
      (x.1.map fun id => .patch id fp.patch, x.2)

variable [SerdeJson]

/-- What a request expands to. -/
def Store.plan (s : Store) (l : Ledger) (body : WriteRequest) : Except AppError Plan := do
  let deletes ← s.deletes l body.deleteByFilter
  let patches ← s.patches l body.patchByFilter
  body.plan deletes patches

omit [HashOrder] in
/-- A plan has records. -/
theorem WriteRequest.plan_ne_nil {body : WriteRequest} {deletes : List Id × Bool}
    {patches : List Record × Bool} {plan : Plan} (h : body.plan deletes patches = .ok plan) :
    plan.records ≠ [] := by
  obtain ⟨columnUpserts, -, h⟩ := bind_eq_ok.mp h
  obtain ⟨columnPatches, -, h⟩ := bind_eq_ok.mp h
  obtain ⟨upserts, -, h⟩ := bind_eq_ok.mp h
  dsimp only at h
  split_ifs at h with hempty
  cases h
  exact fun hnil => hempty (List.isEmpty_iff.mpr hnil)

theorem Store.plan_ne_nil {s : Store} {l : Ledger} {body : WriteRequest} {plan : Plan}
    (h : s.plan l body = .ok plan) : plan.records ≠ [] := by
  obtain ⟨deletes, -, h⟩ := bind_eq_ok.mp h
  obtain ⟨patches, -, h⟩ := bind_eq_ok.mp h
  exact WriteRequest.plan_ne_nil h

end Resolved

namespace Runs

variable [Crates] [HashOrder] {t handle : Nat} {s s' : Store} {l : Ledger}

/-- **`ids_matching`** changes nothing. -/
theorem idsMatching (h : Settled handle s) (hl : Carries l s) (hs : s.Searchable) (f : Filter) (cap : Nat) :
    Runs t (Fckdb.idsMatching handle f cap) s s (s.resolved l f cap) := by
  refine seq (load_settled h) ?_
  rw [Store.resolved, ← hl.schema]
  show Runs t (Prog.tryBind (Prog.done (f.coerce s.manifest.schema.attributes)) _) s s _
  cases f.coerce s.manifest.schema.attributes with
  | error e => exact seq_error (done _)
  | ok f =>
      refine seq (done _) ?_
      have hindexed : Runs t (indexedIds s.manifest f) s s (.ok (s.indexed f)) := by
        rw [indexedIds, Store.indexed]
        by_cases hcovered : s.manifest.covered = true
        · obtain ⟨answer, hanswer⟩ := hs hcovered f
          rw [if_pos hcovered, if_pos hcovered,
            show Prog.eval s.glance (indexedMatches f s.manifest.shards) = some (.ok answer) from hanswer]
          exact of_gives hanswer
        · rw [if_neg hcovered, if_neg hcovered]
          exact done _
      refine seq hindexed ?_
      show Runs t _ s s (Except.ok (capped (s.found l f) cap))
      rw [Store.found]
      cases s.indexed f with
      | some matched => exact done _
      | none =>
          refine seq (allRecords h hl) ?_
          rw [Ledger.scan, ← hl.schema]
          exact done _

omit [Crates] [HashOrder] in
/-- A call of the engine. -/
theorem ofProc {α : Type} {f : Error → AppError} {p : Proc α} {r : Except Error α} (h : Runs t p s s' r) :
    Runs t (Api.ofProc f p) s s' (r.mapError f) :=
  bind h (done _)

omit [Crates] [HashOrder] in
theorem of_ofProc {α : Type} {f : Error → AppError} {p : Proc α} {a : α}
    (h : Runs t (Api.ofProc f p) s s' (.ok a)) : Runs t p s s' (.ok a) := by
  obtain ⟨s₁, r, hp, hdone⟩ := of_bind h
  obtain ⟨rfl, hr⟩ := unique hdone (done _)
  exact mapError_eq_ok.mp hr.symm ▸ hp

variable [SerdeJson]

/-- **`assemble`** changes nothing. -/
theorem assemble (h : Settled handle s) (hl : Carries l s) (hs : s.Searchable) (body : WriteRequest) :
    Runs t (Fckdb.assemble handle body) s s (s.plan l body) := by
  have hdeletes : Runs t (filterDeletes handle body.deleteByFilter) s s
      (s.deletes l body.deleteByFilter) := by
    cases body.deleteByFilter with
    | none => exact done _
    | some f => exact ofProc (idsMatching h hl hs f _)
  have hpatches : Runs t (filterPatches handle body.patchByFilter) s s
      (s.patches l body.patchByFilter) := by
    cases body.patchByFilter with
    | none => exact done _
    | some fp =>
        rw [filterPatches, Store.patches]
        split_ifs
        · exact done _
        · have hids := ofProc (f := .ofError) (idsMatching (t := t) h hl hs fp.filters maxPatchByFilterRows)
          cases hr : (s.resolved l fp.filters maxPatchByFilterRows).mapError AppError.ofError with
          | error e => exact seq_error (hr ▸ hids)
          | ok x => exact seq (hr ▸ hids) (done _)
  rw [Store.plan]
  cases hd : s.deletes l body.deleteByFilter with
  | error e => exact seq_error (hd ▸ hdeletes)
  | ok deletes =>
      refine seq (hd ▸ hdeletes) ?_
      cases hp : s.patches l body.patchByFilter with
      | error e => exact seq_error (hp ▸ hpatches)
      | ok patches => exact seq (hp ▸ hpatches) (done _)

end Runs

/-! ## Indexes that are there -/

section Searchable

variable [Crates] {s : Store} {docs : List Doc} {shard : Shard} {i : IndexMeta}

/-- The attribute indexes that a filter reads are loaded. -/
theorem Store.Gives.loadAttrIndexes (h : s.BuiltFrom docs shard) (hi : shard.index = some i)
    (hkept : ∀ name ∈ shard.objects, name ∉ s.deleted) (f : Filter) :
    ∃ indexes, s.Gives (Fckdb.loadAttrIndexes i f) (.ok indexes) := by
  obtain ⟨t, schema, hbuilt⟩ := h.index hi
  have hread : ∀ target ∈ indexTargets i f, ∃ x, s.Gives (readAttrIndex target.2) (.ok x) := by
    intro target htarget
    obtain ⟨key, -, hkey⟩ := List.mem_filterMap.mp htarget
    obtain ⟨name, hname, rfl⟩ := Option.map_eq_some_iff.mp hkey
    obtain ⟨x, -, hblob⟩ := hbuilt.attribute hname
    exact ⟨x, seq (readHeld hblob (hkept _ (mem_objects_of_index hi (mem_objects_of_attr hname))))
      (ret _)⟩
  have : Nonempty AttrIndex := ⟨.build []⟩
  choose! x hx using hread
  exact ⟨_, seq (tryJoinAll hx) (ret _)⟩

/-- The indexes of shards that were built answer. -/
theorem Store.Gives.indexedMatches {shards : List Shard}
    (h : ∀ shard ∈ shards, ∃ docs, s.BuiltFrom docs shard)
    (hkept : ∀ shard ∈ shards, ∀ name ∈ shard.objects, name ∉ s.deleted) (f : Filter) :
    ∃ answer, s.Gives (Fckdb.indexedMatches f shards) (.ok answer) := by
  induction shards with
  | nil => exact ⟨_, ret _⟩
  | cons shard shards ih =>
      obtain ⟨docs, hbuilt⟩ := h shard List.mem_cons_self
      have hthere := hkept shard List.mem_cons_self
      obtain ⟨more, hmore⟩ := ih (fun sh hsh => h sh (List.mem_cons_of_mem _ hsh))
        fun sh hsh => hkept sh (List.mem_cons_of_mem _ hsh)
      rw [Fckdb.indexedMatches]
      cases hi : shard.index with
      | none => exact ⟨_, ret _⟩
      | some i =>
          obtain ⟨indexes, hindexes⟩ := loadAttrIndexes hbuilt hi hthere f
          obtain ⟨t, schema, hindex⟩ := hbuilt.index hi
          obtain ⟨name, hname, hblob⟩ := hindex.ids
          have hids : s.Gives (loadIds i) (.ok (docs.map Doc.id)) := by
            rw [loadIds, hname]
            exact seq (readHeld hblob (hthere _ (mem_objects_of_index hi (mem_objects_of_ids hname))))
              (ret _)
          cases hsel : evaluate indexes (asU32 i.docs) f with
          | none =>
              refine ⟨none, seq hindexes ?_⟩
              rw [hsel]
              exact ret _
          | some sel =>
              cases hexact : sel.exact with
              | true =>
                  refine ⟨more.map (idsAt (docs.map Doc.id) sel ++ ·), seq hindexes ?_⟩
                  simp only [hsel, hexact, if_true]
                  exact seq hids (seq hmore (ret _))
              | false =>
                  refine ⟨none, seq hindexes ?_⟩
                  simp only [hsel, hexact, Bool.false_eq_true, if_false]
                  exact ret _

/-- **The indexes of a namespace are there** if the objects of its manifest are. -/
theorem Reaches.searchable [HashOrder] {ok : Terms} {p : Namespace} (h : Reaches ok p)
    (hkept : ∀ name ∈ p.shared.manifest.referenced, name ∉ p.shared.deleted) : p.shared.Searchable := by
  intro _ f
  refine Store.Gives.indexedMatches (fun shard hshard => ?_) (fun shard hshard name hname => ?_) f
  · obtain ⟨docs, -, hbuilt⟩ := h.wellBuilt.built shard hshard
    exact ⟨docs, hbuilt⟩
  · exact hkept name (Manifest.mem_referenced.mpr (.inr ⟨shard, hshard, hname⟩))

end Searchable

/-! ## A whole request -/

section Loaded

variable [Crates] {s : Store} {handle : Nat}

omit [Crates] in
/-- Fetching the commit point changes no object. -/
theorem Store.loaded_glance (s : Store) (handle : Nat) : (s.loaded handle).glance = s.glance := by
  rw [loaded]
  split <;> rfl

theorem Store.loaded_indexed (s : Store) (handle : Nat) (f : Filter) :
    (s.loaded handle).indexed f = s.indexed f := by
  rw [indexed, indexed, loaded_manifest, loaded_glance]

theorem Store.Searchable.loaded (h : s.Searchable) (handle : Nat) : (s.loaded handle).Searchable := by
  rw [Searchable, loaded_manifest]
  intro hcovered f
  obtain ⟨answer, hanswer⟩ := h hcovered f
  refine ⟨answer, ?_⟩
  rwa [Gives, loaded_glance]

variable [HashOrder] [SerdeJson]

theorem Store.loaded_plan (s : Store) (handle : Nat) (l : Ledger) (body : WriteRequest) :
    (s.loaded handle).plan l body = s.plan l body := by
  have hresolved : (s.loaded handle).resolved = s.resolved := by
    funext l f cap
    simp only [resolved, found, loaded_indexed]
  have hdeletes : (s.loaded handle).deletes = s.deletes := by
    funext l f
    cases f with
    | none => rfl
    | some f => rw [deletes, deletes, hresolved]
  have hpatches : (s.loaded handle).patches = s.patches := by
    funext l fp
    cases fp with
    | none => rfl
    | some fp => rw [patches, patches, hresolved]
  rw [plan, plan, hdeletes, hpatches]

end Loaded

/-- A handle that remembers nothing of a namespace that is gone. -/
def Coherent (handle : Nat) (s : Store) : Prop := s.current = none → s.handles handle = none

namespace Runs

variable [Crates] [HashOrder] [SerdeJson] {t handle : Nat} {s s' : Store} {l : Ledger} {cut : Cut}
  {body : WriteRequest} {plan : Plan} {schema : Schema} {batch : List Record}

omit [Crates] [HashOrder] [SerdeJson] in
/-- A pure part that went well, and what follows it. -/
theorem of_ofExcept {α β : Type} {r : Except AppError α} {f : α → Api β} {b : β}
    (h : Runs t ((Api.ofExcept r).andThen f) s s' (.ok b)) :
    ∃ a, r = .ok a ∧ Runs t (f a) s s' (.ok b) := by
  obtain ⟨s₁, a, hr, hf⟩ := of_seq h
  obtain ⟨rfl, ha⟩ := unique hr (done _)
  exact ⟨a, ha.symm, hf⟩

omit [Crates] [HashOrder] [SerdeJson] in
/-- A check that is passed, and what it says of the outcome otherwise. -/
theorem of_check {α : Type} {c : Except AppError Unit} {f : Unit → Api α} {a : α}
    (h : Runs t ((Api.ofExcept c).andThen f) s s' (.ok a)) : c = .ok () ∧ Runs t (f ()) s s' (.ok a) := by
  obtain ⟨u, hc, hf⟩ := of_ofExcept h
  exact ⟨hc, hf⟩

omit [Crates] [HashOrder] [SerdeJson] in
theorem check {α : Type} {c : Except AppError Unit} {f : Unit → Api α} {r : Except AppError α}
    (hc : c = .ok ()) (h : Runs t (f ()) s s' r) : Runs t ((Api.ofExcept c).andThen f) s s' r := by
  refine seq (a := ()) ?_ h
  rw [hc]
  exact done _

/-- **A request that is accepted**: it has a plan, and its records are absorbed. -/
theorem write (hc : Coherent handle s) (hl : Carries l s) (hs : s.Searchable)
    (hbody : body.check = .ok ()) (hroom : checkTail s.manifest = .ok ())
    (hplan : s.plan l body = .ok plan)
    (hp : prepareRecords plan.records { metric := body.distanceMetric } s.manifest = .ok (schema, batch)) :
    ∃ s' resp, Runs t (Fckdb.write handle cut body) s s' (.ok resp) ∧
      resp.rowsRemaining = plan.remaining ∧ Written handle ⟨schema, l.log ++ batch⟩ s' := by
  have hsettled : Settled handle (s.loaded handle) := .of_loaded hc
  have hassemble := assemble (t := t) hsettled (hl.loaded handle) (hs.loaded handle) body
  rw [Store.loaded_plan, hplan] at hassemble
  rw [← Store.loaded_manifest s handle] at hp
  obtain ⟨s', n, hwrite, hw⟩ : ∃ s' n,
      Runs t (Fckdb.writeAll handle cut plan.records { metric := body.distanceMetric }) (s.loaded handle) s'
        (.ok n) ∧ Written handle ⟨schema, l.log ++ batch⟩ s' :=
    writeAll (Store.plan_ne_nil hplan) hsettled (hl.loaded handle) hp
  refine ⟨s', ⟨n, plan.records.length, plan.upserted, plan.patched, plan.deleted, plan.remaining⟩,
    check hbody (seq (ofProc load) (check hroom ?_)), rfl, hw⟩
  exact seq hassemble (seq (ofProc hwrite) (done _))

/-- What a request that was accepted did. -/
theorem of_write (hc : Coherent handle s) (hl : Carries l s) (hs : s.Searchable) {resp : WriteResponse}
    (h : Runs t (Fckdb.write handle cut body) s s' (.ok resp)) :
    body.check = .ok () ∧ checkTail s.manifest = .ok () ∧
      ∃ plan schema batch, s.plan l body = .ok plan ∧
        prepareRecords plan.records { metric := body.distanceMetric } s.manifest = .ok (schema, batch) ∧
        resp.rowsRemaining = plan.remaining ∧ Written handle ⟨schema, l.log ++ batch⟩ s' := by
  have hsettled : Settled handle (s.loaded handle) := .of_loaded hc
  obtain ⟨hbody, h⟩ := of_check h
  obtain ⟨s₁, base, hload, h⟩ := of_seq h
  obtain ⟨rfl, hbase⟩ := unique (of_ofProc hload) load
  obtain rfl := Except.ok.inj hbase
  obtain ⟨hroom, h⟩ := of_check h
  obtain ⟨s₂, plan, hassemble, h⟩ := of_seq h
  obtain ⟨rfl, hplan⟩ := unique hassemble (assemble hsettled (hl.loaded handle) (hs.loaded handle) body)
  rw [Store.loaded_plan] at hplan
  obtain ⟨s₃, n, hwrite, h⟩ := of_seq h
  obtain ⟨rfl, hresp⟩ := unique h (done _)
  obtain rfl := Except.ok.inj hresp
  obtain ⟨schema, batch, hp, hw⟩ :=
    of_writeAll (Store.plan_ne_nil hplan.symm) hsettled (hl.loaded handle) (of_ofProc hwrite)
  rw [Store.loaded_manifest] at hp
  exact ⟨hbody, hroom, plan, schema, batch, hplan.symm, hp, rfl, hw⟩

end Runs

end Fckdb
