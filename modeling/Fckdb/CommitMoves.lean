import Fckdb.Names

/-! # The moves of a commit and of a compaction

Every request of a commit or a compaction is a `Move`. A commit ends with its one version written, or
with none; a compaction ends with one, or none. -/

namespace Fckdb

open Prog

variable [Crates] [HashOrder] {ok : Terms} {t : Nat} {call : Call} {α β : Type} {P R : Store → Prop}
  {Q : α → Store → Prop} {Q' : β → Store → Prop} {E : Store → Prop}

/-! ## Commits -/

/-- Thread `t` has written no manifest yet. -/
def Idle (t : Nat) (s : Store) : Prop := s.Sound ∧ s.writtenBy t = []

/-- Thread `t` has written one manifest, the version number `i`, for a commit with this sequence
number. -/
def Pushed (t seq i : Nat) (s : Store) : Prop :=
  ∃ v c, s.versions[i]? = some v ∧ s.writtenBy t = [v] ∧ v.commit? = some c ∧ c.seq = seq

/-- Thread `t` has written one manifest, for a commit with this sequence number, and the handle has
remembered it. -/
def Committed (t handle seq : Nat) (s : Store) : Prop :=
  ∃ i, Pushed t seq i s ∧ i < s.published handle

omit [HashOrder] [Crates] in
theorem stable_idle : Stable (Rely t) (Idle t) :=
  fun _ _ h hs => ⟨h.sound hs.1, (h.writtenBy fun h => h rfl).trans hs.2⟩

omit [HashOrder] [Crates] in
theorem stable_pushed (seq i : Nat) : Stable (Rely t) (Pushed t seq i) := by
  rintro s s' h ⟨v, c, hi, hv, hs⟩
  obtain ⟨hlt, rfl⟩ := List.getElem?_eq_some_iff.mp hi
  exact ⟨_, c, List.prefix_iff_getElem?.mp h.isPrefix i hlt,
    (h.writtenBy fun h => h rfl).trans hv, hs⟩

omit [HashOrder] [Crates] in
theorem stable_committed (handle seq : Nat) : Stable (Rely t) (Committed t handle seq) := by
  rintro s s' h ⟨i, hi, hpub⟩
  exact ⟨i, stable_pushed seq i s s' h hi, hpub.trans_le (h.published handle)⟩

omit [HashOrder] [Crates] in
theorem Grows.push {who : Nat → Prop} {s : Store} {v : Version} (hw : who v.thread)
    (ht : s.clock ≤ v.time) : Grows who s (s.push v) := by
  refine ⟨⟨[v], rfl, ?_⟩, List.prefix_rfl, List.prefix_rfl, Nat.le_refl _, List.prefix_rfl,
    Nat.le_refl _, fun _ => Nat.le_refl _,
    fun h => ⟨fun handle snap hs => ?_, h.dropped.trans (by simp [Store.push])⟩⟩
  · rintro _ hv
    obtain rfl := List.mem_singleton.mp hv
    exact ⟨hw, ht⟩
  · obtain ⟨hle, heq⟩ := h.handles handle snap hs
    refine ⟨hle.trans (by simp [Store.push]), heq.trans ?_⟩
    rw [Store.manifestAt, Store.manifestAt, Store.push, List.take_append_of_le_length hle]

omit [HashOrder] [Crates] in
theorem Store.writtenBy_push (s : Store) (v : Version) :
    (s.push v).writtenBy v.thread = s.writtenBy v.thread ++ [v] := by
  simp [Store.writtenBy, Store.push]

omit [HashOrder] [Crates] in
theorem Store.at_push (s : Store) (v : Version) :
    (s.push v).At v.manifest (some s.versions.length) := by
  refine ⟨by simp [seen, Store.push], ?_⟩
  rw [Store.manifestAt, Store.push, List.take_of_length_le (by simp [seen]), lastManifest_append]

omit [HashOrder] [Crates] in
/-- A conditional PUT is admitted on the current manifest. -/
theorem Store.At.current {s : Store} {m : Manifest} {version : Option Nat} (h : s.At m version)
    (hadm : s.admits (modeOf version) = true) : m = s.manifest := by
  rw [h.eq, Store.manifestAt, Store.manifest]
  cases version with
  | none =>
      have hle : s.versions.length ≤ s.dropped := of_decide_eq_true hadm
      rw [List.drop_of_length_le hle]
      rfl
  | some v =>
      obtain ⟨hlt, hlen⟩ := Bool.and_eq_true_iff.mp hadm
      have hlt := of_decide_eq_true hlt
      have hlen : s.versions.length = v + 1 := of_decide_eq_true hlen
      rw [seen, ← hlen, List.take_length, lastManifest, lastManifest, List.getLast?_drop,
        if_neg (Nat.not_le.mpr hlt)]

/-- **A conditional PUT of the manifest**: a move if it is admitted. -/
theorem Does.putManifest {m : Manifest} {mode : PutMode} {reason : Reason} {W : Nat → Store → Prop}
    (hP : Stable (Rely t) P) (hW : ∀ v, Stable (Rely t) (W v))
    (hmove : ∀ s, P s → s.admits mode = true → ok.op t s (.putManifest m mode reason) →
      Move ok t call s (s.push ⟨m, t, reason, s.clock⟩) ∧
        W s.versions.length (s.push ⟨m, t, reason, s.clock⟩)) :
    Does ok t call P (Fckdb.putManifest m mode reason)
      (fun o s => match o with | none => P s | some v => s.At m (some v) ∧ W v s) P := by
  refine Triple.call (Request.putManifest m mode reason) hP (stable_ends (fun o => ?_) hP) ?_
  · cases o with
    | none => exact hP
    | some v => exact (stable_at m (some v)).and (hW v)
  · rintro s s' x hs ⟨hok, c, hx⟩
    cases c <;> try cases hx
    · have hx : (if s.admits mode = true then
          some (s.push ⟨m, t, reason, s.clock⟩, Except.ok (some s.versions.length))
          else some (s, .ok none)) = some (s', x) := hx
      split_ifs at hx with hadm
      · cases hx
        obtain ⟨hm, hw⟩ := hmove s hs hadm hok
        exact ⟨⟨Grows.push rfl (Nat.le_refl _), hm⟩, s.at_push _, hw⟩
      · cases hx
        exact ⟨Calm.guar (Calm.refl _), hs⟩
    · exact ⟨Calm.guar (Calm.refl _), hs⟩

theorem Calmly.commitGuess (handle : Nat) (optimistic : Bool) :
    Calmly ok t Store.Sound (Fckdb.commitGuess handle optimistic) fun o s =>
      ∀ b, o = some b → s.At b.1 b.2 := by
  rw [Fckdb.commitGuess]
  split
  · refine Calmly.seq (Calmly.viewHandle handle).calmly fun x => ?_
    refine Calmly.ret (fun s s' h hx snap hs => h.keeps_at (hx snap hs)) fun s h b hb => ?_
    obtain ⟨snap, hsnap, hb⟩ := Option.bind_eq_some_iff.mp hb
    obtain ⟨v, hv, rfl⟩ := Option.map_eq_some_iff.mp hb
    exact hv ▸ h snap hsnap
  · exact Calmly.ret (fun _ _ h => h.sound) fun _ _ => nofun

/-- What an attempt starts from is a manifest of the history. -/
theorem Calmly.commitBase (handle : Nat) (optimistic : Bool) :
    Calmly ok t Store.Sound (Fckdb.commitBase handle optimistic) fun x s => s.At x.1 x.2 := by
  refine Calmly.seq (Calmly.commitGuess handle optimistic) fun o => ?_
  cases o with
  | some base => exact Calmly.ret (fun s s' h hb b hs => h.keeps_at (hb b hs)) fun s h => h base rfl
  | none => exact (Calmly.load handle 0).conseq (fun _ _ => Nat.zero_le _) fun
    | .ok _, _, h => h.1
    | .error _, _, h => h

/-- **One attempt to commit.** -/
theorem Does.commitAttempt {prepare : Manifest → Except Error (Schema × List Record)}
    (hask : call.prepare = some prepare) (handle : Nat) (optimistic : Bool) :
    Does ok t call (Idle t) (Fckdb.commitAttempt handle prepare optimistic)
      (fun o s => match o with | none => Idle t s | some seq => Committed t handle seq s) (Idle t) := by
  have hidle := stable_idle (t := t)
  refine .after hidle (Calmly.commitBase handle optimistic) (fun _ h => h.1) (fun _ h => h) ?_
  rintro ⟨m, version⟩
  have hbase := (stable_at (t := t) m version).and hidle
  -- the schema and the batch depend on the manifest alone
  refine .seq (Q := fun x s => prepare m = .ok x ∧ s.At m version ∧ Idle t s)
    (.ofExcept hbase (fun x s hx h => ⟨hx, h⟩) fun _ h => h.2) ?_
  rintro ⟨schema, batch⟩
  have hprep : Stable (Rely t) fun s => prepare m = .ok (schema, batch) ∧ s.At m version ∧ Idle t s :=
    Stable.and (fun _ _ _ h => h) hbase
  refine .after hprep (Calmly.putNew (f := fun u => .wal ⟨m.nextSeq, u⟩) (fun _ => rfl)
    (.records batch)) (fun _ _ => trivial) (fun _ h => h.2.2) fun uuid => ?_
  have hstored : Stable (Rely t) fun s => s.Wrote t (.wal ⟨m.nextSeq, uuid⟩) (.records batch) ∧
      prepare m = .ok (schema, batch) ∧ s.At m version ∧ Idle t s :=
    Stable.and (fun _ _ h hs => h.wrote hs) hprep
  refine .afterSure hstored (Calmly.now .stamp stable_true) (fun _ _ => trivial) fun stamp => ?_
  -- the conditional PUT succeeds only if `m` is still the current manifest
  have hput : Does ok t call (fun s => s.Wrote t (.wal ⟨m.nextSeq, uuid⟩) (.records batch) ∧
      prepare m = .ok (schema, batch) ∧ s.At m version ∧ Idle t s)
      (Fckdb.putManifest (m.push schema ⟨m.nextSeq, uuid⟩ batch stamp) (modeOf version) (.commit batch))
      (fun o s => match o with
        | none => Idle t s
        | some v => s.At (m.push schema ⟨m.nextSeq, uuid⟩ batch stamp) (some v) ∧
            Pushed t m.nextSeq v s) (Idle t) := by
    refine (Does.putManifest hstored (stable_pushed m.nextSeq) ?_).conseq (fun _ h => h) ?_
    · rintro s ⟨hw, hpre, hat, -, hfirst⟩ hadm hok
      obtain rfl := hat.current hadm
      refine ⟨.commit prepare schema batch uuid stamp _ hask hpre hw hfirst hok hadm rfl, ?_⟩
      have hmine := s.writtenBy_push ⟨s.manifest.push schema ⟨s.manifest.nextSeq, uuid⟩ batch stamp, t,
        .commit batch, s.clock⟩
      rw [hfirst] at hmine
      refine ⟨_, ⟨t, ⟨⟨s.manifest.nextSeq, uuid⟩, (frameRecords batch).length, asU32 batch.length⟩,
        batch⟩, List.getElem?_concat_length, hmine, ?_, rfl⟩
      rw [Version.commit?, Manifest.push_wal, List.getLast?_concat]
      rfl
    · rintro (e | _ | v) s h
      · exact h.2.2.2
      · exact h.2.2.2
      · exact h
  refine .seq (hput.conseq (fun _ h => h.2) fun _ _ h => h) ?_
  rintro (_ | v)
  · exact .afterSure hidle (Calmly.forgetSnapshot handle) (fun _ _ => trivial) fun _ =>
      .ret (stable_true.and hidle) fun _ h => h.2
  · have hdone := (stable_at (t := t) (m.push schema ⟨m.nextSeq, uuid⟩ batch stamp) (some v)).and
      (stable_pushed m.nextSeq v)
    refine .afterSure hdone (Calmly.remember handle _ _) (fun _ h => h.1) fun _ => .ret ?_
      fun _ h => ⟨v, h.2.2, h.1⟩
    exact Stable.and (fun _ _ h hs => hs.trans (h.published handle)) hdone

/-- **A commit**: it ends with its one version written, or with none. -/
theorem Does.commitLoop {prepare : Manifest → Except Error (Schema × List Record)}
    (hask : call.prepare = some prepare) (handle left attempt : Nat) (optimistic : Bool) :
    Does ok t call (Idle t) (Fckdb.commitLoop handle prepare left attempt optimistic)
      (fun x s => Committed t handle x.1 s) (Idle t) := by
  induction left generalizing attempt optimistic with
  | zero => exact .fail stable_idle fun _ h => h
  | succ left ih =>
      refine .seq (Does.commitAttempt hask handle optimistic) ?_
      rintro (_ | seq)
      · exact ih (attempt + 1) false
      · exact .ret (stable_committed handle seq) fun _ h => h

/-! ## Compactions -/

namespace Calmly

/-- A calm program, then another; what held before still holds. -/
theorem after {p : Proc α} {f : α → Proc β} (hR : Stable (Rely t) R) (h : Calmly ok t P p Q)
    (hP : ∀ s, R s → P s) (hf : ∀ a, Calmly ok t (fun s => Q a s ∧ R s) (f a) Q') :
    Calmly ok t R (p.andThen f) Q' :=
  .seq ((h.keep hR).conseq (fun s h => ⟨hP s h, h⟩) fun _ _ h => h) hf

theorem putData (w : Write) :
    Calmly ok t (fun _ => True) (Fckdb.putData w) fun name s => s.Wrote t (.data name) w.blob :=
  seq (putNew (f := fun u => .data ⟨u, w.ext⟩) (fun _ => rfl) w.blob) fun _ =>
    ret (fun _ _ h hs => h.wrote hs) fun _ h => h

/-- **Building a shard.** -/
theorem buildShard (docs : List Doc) (buildIndex : Bool) (schema : Schema) :
    Calmly ok t (fun _ => True) (Fckdb.buildShard docs buildIndex schema) fun shard s =>
      ShardBuilt s t schema docs buildIndex shard := by
  cases docs with
  | nil => exact ret stable_true fun s _ => by rw [ShardBuilt, if_pos rfl]
  | cons first rest =>
      refine seq (putData ⟨.bin, upserts (first :: rest)⟩) fun seg => ?_
      have hseg := stable_wrote (t := t) t (.data seg) (upserts (first :: rest))
      cases buildIndex with
      | false =>
          refine ret hseg fun s h => ?_
          rw [ShardBuilt, if_neg (List.cons_ne_nil _ _)]
          exact ⟨seg, none, h, rfl, rfl⟩
      | true =>
          refine seq (Q := fun x s => ivfBuild (first :: rest) ((IvfParams.forDocs
            (first :: rest).length).withMetric schema.distanceMetric) = .ok x ∧
            s.Wrote t (.data seg) (upserts (first :: rest)))
            (ofExcept hseg fun x s hx h => ⟨hx, h⟩) ?_
          rintro ⟨flat, groups⟩
          have hivf := Stable.and (P := fun _ => ivfBuild (first :: rest) ((IvfParams.forDocs
            (first :: rest).length).withMetric schema.distanceMetric) = .ok (flat, groups))
            (fun _ _ _ h => h) hseg
          refine after hivf (putData ⟨.cen, .centroids flat⟩) (fun _ _ => trivial) fun centroids => ?_
          have hcen := (stable_wrote t (.data centroids) (.centroids flat)).and hivf
          -- the remaining objects are written side by side
          refine after hcen (tryJoinAll (Q := fun w name s => s.Wrote t (.data name) w.blob)
            (fun w name => stable_wrote t (.data name) w.blob) fun w _ => putData w)
            (fun _ _ => trivial) fun names => ?_
          have hall : Stable (Rely t) fun s => List.Forall₂
              (fun w name => s.Wrote t (.data name) w.blob)
              (indexWrites (first :: rest) groups schema) names :=
            fun _ _ h hs => hs.imp fun _ _ => h.wrote
          refine ret (hall.and hcen) fun s h => ?_
          obtain ⟨hnames, hc, hb, hs⟩ := h
          rw [ShardBuilt, if_neg (List.cons_ne_nil _ _)]
          exact ⟨seg, _, hs, rfl, _, rfl, flat, groups, centroids, names, hb, hc, hnames, rfl⟩

end Calmly

/-- Thread `t` has written no manifest but for a compaction. -/
def Folded (t : Nat) (s : Store) : Prop :=
  ∀ v ∈ s.writtenBy t, ∃ base read, v.reason = .compaction base read

omit [HashOrder] [Crates] in
theorem stable_folded : Stable (Rely t) (Folded t) := by
  intro s s' h hs v hv
  rw [h.writtenBy fun h => h rfl] at hv
  exact hs v hv

omit [HashOrder] [Crates] in
theorem Idle.folded {s : Store} (h : Idle t s) : Folded t s := by
  intro v hv
  rw [h.2] at hv
  cases hv

/-- What a compaction knows when it installs its shards. -/
structure Ready (t : Nat) (buildIndex : Bool) (base read : Option Nat) (m : Manifest)
    (records : List Record) (shards : List Shard) (s : Store) : Prop where
  based : s.At m base
  later : s.Since (seen base) read
  known : seen read ≤ s.versions.length
  documents : s.Reads (s.manifestAt read).recordObjects records
  built : List.Forall₂ (fun docs shard => ShardBuilt s t m.schema docs buildIndex shard)
    (buckets (materialize records).values m.schema.shards) shards
  distinct : (shards.flatMap Shard.objects).Nodup

omit [HashOrder] in
theorem stable_ready {buildIndex : Bool} {base read : Option Nat} {m : Manifest}
    {records : List Record} {shards : List Shard} :
    Stable (Rely t) (Ready t buildIndex base read m records shards) := by
  intro s s' h hs
  refine ⟨h.keeps_at hs.based, h.since hs.later, hs.known.trans h.length_le, ?_, ?_, hs.distinct⟩
  · rw [h.manifestAt hs.known]
    exact h.reads hs.documents
  · exact hs.built.imp fun _ _ => h.shardBuilt

/-- **Installing**: one version is written, if the shards are still in place. -/
theorem Does.installLoop {handle : Nat} {buildIndex : Bool} (hcall : call = .compact handle buildIndex)
    {base read : Option Nat} {m : Manifest} {shards : List Shard} (records : List Record)
    (left attempt : Nat) :
    Does ok t call (fun s => Ready t buildIndex base read m records shards s ∧ Idle t s)
      (Fckdb.installLoop handle base read (m.wal.map (·.name)) m.shards shards left attempt)
      (fun _ s => Folded t s) (Folded t) := by
  have hready : Stable (Rely t) fun s => Ready t buildIndex base read m records shards s ∧ Idle t s :=
    stable_ready.and stable_idle
  induction left generalizing attempt with
  | zero => exact .fail hready fun _ h => h.2.folded
  | succ left ih =>
      refine .after hready (Calmly.load handle 0) (fun _ _ => Nat.zero_le _) (fun _ h => h.2.folded) ?_
      rintro ⟨current, version⟩
      have hloaded := Stable.and (P := fun s => s.At current version ∧ s.Since 0 version)
        (fun _ _ h hs => ⟨h.keeps_at hs.1, h.since hs.2⟩) hready
      dsimp only
      split_ifs with hsame
      · exact .fail hloaded fun _ h => h.2.2.folded
      rw [not_not] at hsame
      refine .afterSure hloaded (Calmly.now .stamp stable_true) (fun _ _ => trivial) fun stamp => ?_
      have hput : Does ok t call
          (fun s => (s.At current version ∧ s.Since 0 version) ∧
            Ready t buildIndex base read m records shards s ∧ Idle t s)
          (Fckdb.putManifest (current.install (m.wal.map (·.name)) shards stamp) (modeOf version)
            (.compaction base read))
          (fun o s => match o with
            | none => Ready t buildIndex base read m records shards s ∧ Idle t s
            | some v => s.At (current.install (m.wal.map (·.name)) shards stamp) (some v) ∧ Folded t s)
          (Folded t) := by
        refine (Does.putManifest hloaded (fun _ => stable_folded) ?_).conseq (fun _ h => h) ?_
        · rintro s ⟨⟨hat, -⟩, hr, hidle⟩ hadm hok
          obtain rfl := hat.current hadm
          refine ⟨.install handle buildIndex base read m records shards stamp _ hcall hr.based hr.later
            hr.known hr.documents hr.built hr.distinct hsame hidle.2 hok hadm rfl, fun v hv => ?_⟩
          have hmine := s.writtenBy_push ⟨s.manifest.install (m.wal.map (·.name)) shards stamp, t,
            .compaction base read, s.clock⟩
          rw [hidle.2] at hmine
          obtain rfl := List.mem_singleton.mp (hmine ▸ hv)
          exact ⟨base, read, rfl⟩
        · rintro (e | _ | v) s h
          · exact h.2.2.folded
          · exact h.2
          · exact h
      refine .seq (hput.conseq (fun _ h => h.2) fun _ _ h => h) ?_
      rintro (_ | v)
      · exact ih (attempt + 1)
      · have hdone := (stable_at (t := t) (current.install (m.wal.map (·.name)) shards stamp)
          (some v)).and stable_folded
        refine .afterSure hdone (Calmly.remember handle _ _) (fun _ h => h.1) fun _ => .ret ?_
          fun _ h => h.2.2
        exact Stable.and (fun _ _ h hs => hs.trans (h.published handle)) hdone

/-- **A compaction**: it writes no manifest, or one. -/
theorem Does.compact {handle : Nat} {buildIndex : Bool} (hcall : call = .compact handle buildIndex) :
    Does ok t call (Idle t) (Fckdb.compact handle buildIndex) (fun _ s => Folded t s) (Folded t) := by
  have hidle := stable_idle (t := t)
  refine .after hidle (Calmly.load handle 0) (fun _ _ => Nat.zero_le _) (fun _ h => h.folded) ?_
  rintro ⟨m, base⟩
  have hbase := Stable.and (P := fun s => s.At m base ∧ s.Since 0 base)
    (fun _ _ h hs => ⟨h.keeps_at hs.1, h.since hs.2⟩) hidle
  dsimp only
  split_ifs with hdone
  · exact .ret hbase fun _ h => h.2.folded
  refine .after hbase (Calmly.allRecords handle (seen base)) (fun _ h => h.1.1.le)
    (fun _ h => h.2.folded) ?_
  rintro ⟨read, records⟩
  have hread : Stable (Rely t) fun s => (s.Since (seen base) read ∧ seen read ≤ s.versions.length ∧
      s.Reads (s.manifestAt read).recordObjects records) ∧
      (s.At m base ∧ s.Since 0 base) ∧ Idle t s := by
    refine Stable.and (fun s s' h hs => ⟨h.since hs.1, hs.2.1.trans h.length_le, ?_⟩) hbase
    rw [h.manifestAt hs.2.1]
    exact h.reads hs.2.2
  have hparts := (@Calmly.tryJoinAll _ _ ok t _ (fun _ => True) _ (buckets (materialize records).values m.schema.shards)
    _ (fun docs shard s => ShardBuilt s t m.schema docs buildIndex shard)
    (fun _ _ _ _ h => h.shardBuilt) fun docs _ => Calmly.buildShard docs buildIndex m.schema).nodup
    (Proc.Draws.tryJoinAll fun p hp => by
      obtain ⟨docs, -, rfl⟩ := List.mem_map.mp hp
      exact draws_buildShard docs buildIndex m.schema)
  refine .after hread hparts (fun _ _ => trivial) (fun _ h => h.2.2.folded) fun shards => ?_
  refine .seq ((Does.installLoop hcall records maxCasAttempts 1).conseq (fun s h => ?_) fun _ _ h => h)
    fun attempts => .ret stable_folded fun _ h => h
  obtain ⟨⟨hbuilt, hdistinct⟩, ⟨hlater, hknown, hdocs⟩, ⟨hat, -⟩, hi⟩ := h
  exact ⟨⟨hat, hlater, hknown, hdocs, hbuilt, nodup_objects hdistinct⟩, hi⟩

end Fckdb
