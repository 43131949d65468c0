import Fckdb.TypedRecords

/-! # The schema along a run

In every run of writes and compactions each manifest stands for records that fit its schema, and the
schemas of later manifests keep what was set (`Reaches.schemaSound`). Full-text configurations are compared
with `PartialEq`: a declaration that only changes the sign of a zero is adopted, and replaces the one that
is there (`resigned_not_schemaSound`). -/

namespace Fckdb

/-! ## Manifests along a history -/

/-- The manifest after the first `n` versions. -/
def Store.after (s : Store) (n : Nat) : Manifest := lastManifest (s.versions.take n)

theorem Store.after_length (s : Store) : s.after s.versions.length = lastManifest s.versions := by
  rw [after, List.take_length]

theorem Store.after_push (s : Store) (v : Version) (n : Nat) :
    (s.push v).after n = if n ≤ s.versions.length then s.after n else v.manifest := by
  rw [after, push]
  split_ifs with hn
  · rw [List.take_append_of_le_length hn, after]
  · rw [List.take_of_length_le (by rw [List.length_append, List.length_singleton]; omega),
      lastManifest_append]

/-- The objects that a manifest references were written, and fit its schema. -/
def Store.Fits (s : Store) (m : Manifest) : Prop :=
  ∀ name ∈ m.referenced, ∃ put, s.written name = some put ∧ put.blob.Fits m.schema

namespace Store.Fits

variable {s s' : Store} {m : Manifest}

theorem init (s : Store) : s.Fits {} := nofun

theorem grows {who : Nat → Prop} (h : s.Fits m) (hg : Grows who s s') : s'.Fits m := by
  intro name hname
  obtain ⟨put, hput, hfits⟩ := h name hname
  exact ⟨put, hg.written hput, hfits⟩

theorem push (h : s.Fits m) {schema : Schema} {wal : WalName} {batch : List Record} {now : Nat}
    (hkept : m.schema.Kept FtsConfig.Alike schema) (hbatch : ∀ r ∈ batch, schema.Fits r)
    (hstored : s.HasRecords (.wal wal) batch) : s.Fits (m.push schema wal batch now) := by
  intro name hname
  rcases Manifest.mem_referenced_push hname with hold | rfl
  · obtain ⟨put, hput, hfits⟩ := h name hold
    exact ⟨put, hput, hfits.kept hkept⟩
  · obtain ⟨put, hput, hblob⟩ := hstored
    rw [Manifest.push_schema]
    exact ⟨put, hput, hblob ▸ hbatch⟩

/-- The records that a manifest stands for fit. -/
theorem records (h : s.Fits m) {records : List Record} (hreads : s.Reads m.recordObjects records) :
    ∀ r ∈ records, m.schema.Fits r := by
  obtain ⟨rss, hrss, rfl⟩ := hreads
  intro r hr
  obtain ⟨rs, hrs, hr⟩ := List.mem_flatten.mp hr
  obtain ⟨n, hn, rfl⟩ := List.mem_iff_getElem.mp hrs
  have hlen := hrss.length_eq
  obtain ⟨put, hput, hfits⟩ := h _ (m.recordObjects_subset (List.getElem_mem (hlen ▸ hn)))
  obtain ⟨put', hput', hblob⟩ := hrss.get (hlen ▸ hn) hn
  obtain rfl := Option.some.inj (hput.symm.trans hput')
  rw [hblob] at hfits
  exact hfits r hr

theorem install [Crates] (h : s.Fits m) {t : Nat} {schema : Schema} {buildIndex : Bool}
    {dss : List (List Doc)} {shards : List Shard} {consumed : List WalName} {now : Nat}
    (hdocs : ∀ ds ∈ dss, ∀ d ∈ ds, m.schema.Fits (.upsert d))
    (built : List.Forall₂ (fun docs shard => ShardBuilt s t schema docs buildIndex shard) dss shards) :
    s.Fits (m.install consumed shards now) := by
  intro name hname
  rw [Manifest.install_schema]
  rcases Manifest.mem_referenced_install hname with hwal | ⟨shard, hshard, hobject⟩
  · exact h name (Manifest.mem_referenced.mpr (.inl hwal))
  · obtain ⟨n, hn, rfl⟩ := List.mem_iff_getElem.mp hshard
    have hlt : n < dss.length := built.length_eq ▸ hn
    obtain ⟨blob, ⟨put, hput, hblob, -⟩, hof⟩ := (built.get hlt hn).of_mem_objects hobject
    exact ⟨put, hput, hblob ▸ hof.fits (hdocs _ (List.getElem_mem hlt))⟩

end Store.Fits

/-! ## The invariant -/

/-- Every manifest of the history fits its schema, and keeps what the earlier ones have set. -/
structure SchemaInv (s : Store) : Prop where
  dropped : s.dropped = 0
  fits : ∀ n, s.Fits (s.after n)
  kept : ∀ i j, i ≤ j → (s.after i).schema.Kept FtsConfig.Alike (s.after j).schema
  metric : ∀ n, (s.after n).hasData = true →
    (s.after (n + 1)).schema.distanceMetric = (s.after n).schema.distanceMetric

namespace SchemaInv

variable {s s' : Store}

theorem init : SchemaInv {} where
  dropped := rfl
  fits n := by
    rw [Store.after, List.take_nil]
    exact .init _
  kept i j _ := by
    rw [Store.after, Store.after, List.take_nil, List.take_nil]
    exact .refl _
  metric n _ := by rw [Store.after, Store.after, List.take_nil, List.take_nil]

theorem manifest_eq (h : SchemaInv s) : s.manifest = s.after s.versions.length := by
  rw [Store.manifest, h.dropped, List.drop_zero, Store.after_length]

theorem current (h : SchemaInv s) : s.Fits s.manifest := h.manifest_eq ▸ h.fits _

theorem grows {who : Nat → Prop} (h : SchemaInv s) (hg : Grows who s s') (hv : s'.versions = s.versions)
    (hdrop : s'.dropped = s.dropped) : SchemaInv s' := by
  have hafter (n : Nat) : s'.after n = s.after n := by rw [Store.after, hv, Store.after]
  refine ⟨hdrop.trans h.dropped, fun n => ?_, fun i j hij => ?_, fun n => ?_⟩
  · rw [hafter]
    exact (h.fits n).grows hg
  · rw [hafter, hafter]
    exact h.kept i j hij
  · rw [hafter, hafter]
    exact h.metric n

/-- **One more version** that fits and keeps what is set. -/
theorem push {who : Nat → Prop} {v : Version} (h : SchemaInv s) (hg : Grows who s (s.push v))
    (hfits : s.Fits v.manifest) (hkept : s.manifest.schema.Kept FtsConfig.Alike v.manifest.schema)
    (hmetric : s.manifest.hasData = true →
      v.manifest.schema.distanceMetric = s.manifest.schema.distanceMetric) : SchemaInv (s.push v) := by
  have hman := h.manifest_eq
  refine ⟨h.dropped, fun n => ?_, fun i j hij => ?_, fun n hdata => ?_⟩
  · rw [Store.after_push]
    split_ifs
    · exact (h.fits n).grows hg
    · exact hfits.grows hg
  · rw [Store.after_push, Store.after_push]
    split_ifs with hi hj hj
    · exact h.kept i j hij
    · -- from an old manifest to the new one
      exact (hman ▸ h.kept i _ hi).trans hkept
    · omega
    · exact .refl _
  · rw [Store.after_push] at hdata ⊢
    rw [Store.after_push]
    rcases Nat.lt_trichotomy n s.versions.length with hlt | rfl | hlt
    · rw [if_pos hlt.le] at hdata ⊢
      rw [if_pos (Nat.succ_le_of_lt hlt)]
      exact h.metric n hdata
    · rw [if_pos (Nat.le_refl _), ← hman] at hdata ⊢
      rw [if_neg (Nat.not_succ_le_self _)]
      exact hmetric hdata
    · rw [if_neg (Nat.not_le.mpr hlt), if_neg (Nat.not_le.mpr (Nat.lt_succ_of_lt hlt))]

variable [Crates] [HashOrder]

omit [HashOrder] in
/-- **A move keeps the schema sound**, unless it is of a commit of records as they come, or of a
destroy. -/
theorem move {ok : Terms} {t : Nat} {call : Call} (h : SchemaInv s) (hg : Guar ok t call s s')
    (hcommit : ∀ handle batch, call ≠ .commitBatch handle batch)
    (hdestroy : ∀ handle, call ≠ .destroy handle) : SchemaInv s' := by
  obtain ⟨hgrows, hmove⟩ := hg
  have hman := h.manifest_eq
  cases hmove with
  | calm hv _ hdrop _ => exact h.grows hgrows hv hdrop
  | commit prepare schema batch uuid now mode asked prepared stored first allowed admitted result =>
      subst result
      cases call with
      | commitRecords handle records config =>
          cases asked
          obtain ⟨hkept, hbatch, hmetric⟩ := prepareRecords_kept prepared
          exact h.push hgrows (h.current.push hkept hbatch stored.hasRecords) hkept hmetric
      | commitBatch handle batch => exact absurd rfl (hcommit handle batch)
      | _ => cases asked
  | install handle buildIndex base read m records shards now mode asked based later known documents
      built distinct same first allowed admitted result =>
      subst result
      -- the documents were read from an earlier manifest, whose schema is kept
      have hread : s.manifestAt read = s.after (seen read) := rfl
      have hkept : (s.after (seen read)).schema.Kept FtsConfig.Alike s.manifest.schema :=
        hman ▸ h.kept _ _ known
      have hdocs := materialize_fits ((h.fits (seen read)).records (hread ▸ documents))
      refine h.push hgrows (h.current.install (fun ds hds d hd => ?_) built) (.refl _) fun _ => rfl
      obtain ⟨i, -, rfl⟩ := List.mem_map.mp hds
      exact (hdocs d (List.mem_of_mem_filter hd)).kept hkept
  | delete _ _ _ _ _ _ _ _ _ _ _ _ _ _ result =>
      subst result
      exact h.grows hgrows rfl rfl
  | drop handle asked => exact absurd asked (hdestroy handle)
  | list _ _ _ _ _ result =>
      subst result
      exact h.grows hgrows rfl rfl
  | wipe _ _ _ _ result =>
      subst result
      exact h.grows hgrows rfl rfl

end SchemaInv

/-! ## Runs -/

/-- Runs of `commit_records`, `compact`, `gc` and queries. -/
def schemaTerms : Terms where
  call
    | .commitBatch _ _ => False
    | .destroy _ => False
    | _ => True
  op _ _ _ := True
  env _ _ := True

/-- **Schema soundness and monotonicity.** In every manifest of the history each object that it references
holds records, and ids, that fit its schema; later manifests keep what earlier ones have set, with full-text
configurations compared by `alike`; the metric is the same from one manifest to a later one if all in
between have data; and a commit that was refused wrote no manifest. -/
structure SchemaSound (alike : FtsConfig → FtsConfig → Prop) (p : Namespace) : Prop where
  fits : ∀ n, ∀ name ∈ (p.shared.after n).referenced, ∃ put, p.shared.written name = some put ∧
    put.blob.Fits (p.shared.after n).schema
  kept : ∀ i j, i ≤ j → (p.shared.after i).schema.Kept alike (p.shared.after j).schema
  metric : ∀ i j, i ≤ j → (∀ k, i ≤ k → k < j → (p.shared.after k).hasData = true) →
    (p.shared.after j).schema.distanceMetric = (p.shared.after i).schema.distanceMetric
  refused : ∀ t th e, p.threads[t]? = some th → th.prog = .done (.committed (.error e)) →
    p.shared.writtenBy t = []

section Runs

variable [Crates] [HashOrder]

theorem Reaches.schemaInv {p : Namespace} (h : Reaches schemaTerms p) : SchemaInv p.shared := by
  refine h.store_invariant .init (fun t call s s' hcall hg hs => ?_) fun s nanos hs => ?_
  · refine hs.move hg (fun handle batch heq => ?_) fun handle heq => ?_
    · rw [heq] at hcall
      exact hcall
    · rw [heq] at hcall
      exact hcall
  · exact hs.grows (tick_rely rfl 0) rfl rfl

/-- **The schema is sound along every run**, and only grows. -/
theorem Reaches.schemaSound {p : Namespace} (h : Reaches schemaTerms p) :
    SchemaSound FtsConfig.Alike p := by
  have hinv := h.schemaInv
  refine ⟨hinv.fits, hinv.kept, fun i j hij hdata => ?_, fun t th e hth hdone => h.returned hth hdone⟩
  induction j, hij using Nat.le_induction with
  | base => rfl
  | succ j hij ih =>
      calc (p.shared.after (j + 1)).schema.distanceMetric
          = (p.shared.after j).schema.distanceMetric :=
            hinv.metric j (hdata j hij (Nat.lt_succ_self j))
        _ = (p.shared.after i).schema.distanceMetric :=
            ih fun k hk hlt => hdata k hk (Nat.lt_succ_of_lt hlt)

end Runs

instance (call : Call) : Decidable (schemaTerms.call call) :=
  match call with
  | .commitBatch _ _ | .destroy _ => isFalse id
  | .commitRecords _ _ _ | .compact _ _ | .gc _ _ | .query _ _ => isTrue trivial

instance (t : Nat) (s : Store) (r : Request) : Decidable (schemaTerms.op t s r) := isTrue trivial

instance (s : Store) (nanos : Nat) : Decidable (schemaTerms.env s nanos) := isTrue trivial

/-- A thread takes its own turn where parts of it are interleaved, and makes its next request. -/
def turns (t n : Nat) : List Act := (List.replicate n [.run t (.turn true), .run t .go]).flatten

/-- A patch loses its race and is prepared again for a newer schema; a batch with a value of another type is
refused; and a compaction builds an index. -/
def typedRun : List Act :=
  .spawn (.commitRecords 0 [.upsert ⟨.uint 1, [], .ofList [("a", .uint 1)]⟩]
      { metric := some .euclideanSquared, declaredTypes := .ofList [("b", .string)] }) :: goes 0 6 ++
    .spawn (.commitRecords 1 [.patch (.string "1") (.ofList [("b", .string "x")])] {}) :: goes 1 4 ++
    .spawn (.commitRecords 0 [.upsert ⟨.uint 2, [], .ofList [("a", .int 5)]⟩] {}) :: goes 2 5 ++
    goes 1 9 ++
    .spawn (.commitRecords 0 [.upsert ⟨.uint 3, [], .ofList [("a", .string "no")]⟩] {}) :: goes 3 1 ++
    .spawn (.compact 0 true) :: goes 4 4 ++ turns 4 2 ++ goes 4 3 ++ turns 4 3 ++ goes 4 6

theorem typedRun_schemaSound :
    let _ := Crates.inert
    let _ := HashOrder.sorted
    ∃ p, execute service.step ⟨{}, []⟩ typedRun = some p ∧
      p.shared.versions.map (·.thread) = [0, 2, 1, 4] ∧
      p.shared.manifest.schema.attributes = .ofList [("a", .uint), ("b", .string)] ∧
      SchemaSound FtsConfig.Alike p := by
  intro _ _
  have hrun : (execute service.step ⟨{}, []⟩ typedRun).any
      (fun p => p.shared.versions.map (·.thread) = [0, 2, 1, 4] ∧
        p.shared.manifest.schema.attributes = .ofList [("a", .uint), ("b", .string)]) = true := by
    decide +kernel
  obtain ⟨p, hp, hfound⟩ := (Option.any_eq_true _ _).mp hrun
  have hallowed : Allowed service.step (fun p a => schemaTerms.Meets p a) ⟨{}, []⟩ typedRun := by
    decide +kernel
  obtain ⟨hthreads, htypes⟩ := of_decide_eq_true hfound
  exact ⟨p, hp, hthreads, htypes, Reaches.schemaSound (Reachable.init.execute hallowed hp)⟩

/-! ## The sign of a zero -/

/-- A full-text configuration with `k1` a zero. -/
def FtsConfig.zeroK1 (bits : UInt32) : FtsConfig := { params := { k1 := ⟨bits⟩, b := ⟨0⟩ } }

/-- A full-text configuration is declared, and again with the other zero. -/
def resignedRun : List Act :=
  .spawn (.commitRecords 0 [.upsert (.bare 1)] { declaredFts := .ofList [("t", .zeroK1 0)] }) ::
      goes 0 6 ++
    .spawn (.commitRecords 0 [.upsert (.bare 2)]
      { declaredFts := .ofList [("t", .zeroK1 0x80000000)] }) :: goes 1 5

/-- **A full-text configuration is replaced** by one that equals it under `PartialEq`. -/
theorem resigned_not_schemaSound :
    let _ := Crates.inert
    let _ := HashOrder.sorted
    ¬ ∀ p, Reaches schemaTerms p → SchemaSound Eq p := by
  intro _ _ h
  have hrun : (execute service.step ⟨{}, []⟩ resignedRun).any
      (fun p => (p.shared.after 1).schema.fts.get "t" = some (.zeroK1 0) ∧
        (p.shared.after 2).schema.fts.get "t" = some (.zeroK1 0x80000000)) = true := by
    decide +kernel
  obtain ⟨p, hp, hfound⟩ := (Option.any_eq_true _ _).mp hrun
  have hallowed : Allowed service.step (fun p a => schemaTerms.Meets p a) ⟨{}, []⟩ resignedRun := by
    decide +kernel
  obtain ⟨hfirst, hsecond⟩ := of_decide_eq_true hfound
  obtain ⟨c, hc, rfl⟩ := ((h p (Reachable.init.execute hallowed hp)).kept 1 2 (by decide)).fts _ _ hfirst
  exact absurd (hc.symm.trans hsecond) (by decide)

end Fckdb
