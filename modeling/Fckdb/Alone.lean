import Fckdb.QuietQuery
import Fckdb.Solo

/-! # Compacting without contention

A compaction that runs alone, on a store that fails no request, succeeds when every bucket can be
clustered, and leaves a manifest without a tail whose shards hold the live documents (`Reaches.compacted`). -/

namespace Fckdb

open Prog

/-! ## Running alone -/

/-- How the requests of a thread that is alone are answered: none is failed by the store, and the first
part of a `join_all` goes on first. -/
def Request.choice : Request → Choice
  | .choose => .turn true
  | .list _ | .listAll => .count 0
  | .next _ | .nextAny => .fail ""
  | _ => .go

theorem Store.exec_choice (t : Nat) (s : Store) (r : Request) :
    ∃ s' x, s.exec t r r.choice = some (s', x) := by
  cases r with
  | putManifest m mode reason =>
      by_cases h : s.admits mode = true
      · exact ⟨_, _, if_pos h⟩
      · exact ⟨_, _, if_neg h⟩
  | get name =>
      show ∃ s' x, s.exec t (.get name) .go = some (s', x)
      rw [Store.exec]
      cases s.object name with
      | none => exact ⟨_, _, rfl⟩
      | some p => exact ⟨_, _, rfl⟩
  | _ => exact ⟨_, _, rfl⟩

/-- The steps of a thread that is alone. -/
def Goes (t : Nat) (s : Store) (r : Request) (s' : Store) (x : r.Answer) : Prop :=
  s.exec t r r.choice = some (s', x)

/-- **A thread that is alone finishes.** -/
theorem Reaches.finish [Crates] [HashOrder] {rely guar : Store → Store → Prop} (hrefl : ∀ s, rely s s)
    {post : Outcome → Store → Prop} {t : Nat} {call : Call} {prog : StoreProg Outcome} {s : Store}
    (hsafe : Safe (Goes t) rely guar post prog s)
    {threads : List (Thread Request Request.Answer Call Outcome)} (hth : threads[t]? = some ⟨call, prog⟩)
    (h : Reaches anyTerms ⟨s, threads⟩) :
    ∃ s' r, Reaches anyTerms ⟨s', threads.set t ⟨call, .done r⟩⟩ ∧ post r s' := by
  induction prog generalizing s threads with
  | done r =>
      obtain ⟨hlt, hself⟩ := List.getElem?_eq_some_iff.mp hth
      refine ⟨s, r, ?_, hsafe s (hrefl s)⟩
      rwa [← hself, List.set_getElem_self]
  | ask op next ih =>
      obtain ⟨s₁, x, hx⟩ := s.exec_choice t op
      have hlt : t < threads.length := (List.getElem?_eq_some_iff.mp hth).1
      have hstep : service.step ⟨s, threads⟩ (.run t op.choice) =
          some ⟨s₁, threads.set t ⟨call, next x⟩⟩ := by
        simp only [System.step, hth]
        exact congrArg (Option.map _) hx
      have hat : (threads.set t ⟨call, next x⟩)[t]? = some ⟨call, next x⟩ :=
        List.getElem?_set_self hlt
      obtain ⟨s', r, hreach, hpost⟩ := ih x (hsafe s (hrefl s) s₁ x hx).2 hat
        (h.step (.run t op.choice) (fun _ _ _ _ _ => trivial) hstep)
      exact ⟨s', r, by rwa [List.set_set] at hreach, hpost⟩

/-! ## Triples -/

theorem Calm.trans {a b c : Store} (h : Calm a b) (h' : Calm b c) : Calm a c :=
  ⟨h.grows.trans h'.grows, h'.deleted.trans h.deleted, h'.dropped.trans h.dropped,
    h'.listed.trans h.listed⟩

/-- Calm steps keep the manifest. -/
theorem Calm.manifest {a b : Store} (h : Calm a b) : b.manifest = a.manifest := by
  rw [Store.manifest, Store.manifest, h.versions, h.dropped]

/-- A triple of a thread that is alone and writes no manifest; it does not fail. -/
abbrev Alone (t : Nat) {α : Type} (P : Store → Prop) (p : Proc α) (Q : α → Store → Prop) : Prop :=
  Triple (Goes t) Calm Calm P p (Ends Q fun _ => False)

/-- The manifest and its version token. -/
def Store.base (s : Store) : Manifest × Option Nat := (s.manifest, s.current.map (·.2))

namespace Alone

variable {t : Nat} {α β : Type} {P : Store → Prop} {Q : α → Store → Prop} {Q' : β → Store → Prop}
  {s₀ : Store}

theorem stable : Stable Calm (Calm s₀) := fun _ _ h hs => hs.trans h

theorem stable_and {R : Store → Prop} (hR : Stable Calm R) : Stable Calm fun s => R s ∧ Calm s₀ s :=
  hR.and stable

theorem stable_ends (hQ : ∀ a, Stable Calm (Q a)) : ∀ r, Stable Calm (Ends Q (fun _ => False) r)
  | .ok a => hQ a
  | .error _ => fun _ _ _ h => h

theorem seq {p : Proc α} {f : α → Proc β} (h : Alone t P p Q) (hf : ∀ a, Alone t (Q a) (f a) Q') :
    Alone t P (p.andThen f) Q' :=
  Triple.tryBind Calm.refl h hf fun _ _ h => h

theorem ret {a : α} (hP : Stable Calm P) (h : ∀ s, P s → Q a s) : Alone t P (Proc.ret a) Q :=
  Triple.done hP h

theorem conseq {p : Proc α} {P' : Store → Prop} {Q' : α → Store → Prop} (h : Alone t P p Q)
    (hP : ∀ s, P' s → P s) (hQ : ∀ a s, Q a s → Q' a s) : Alone t P' p Q' := by
  refine Triple.conseq h hP ?_
  rintro (e | a) s hs
  · exact hs
  · exact hQ a s hs

/-- A stable fact is kept. -/
theorem keep {p : Proc α} {R : Store → Prop} (h : Alone t P p Q) (hR : Stable Calm R) :
    Alone t (fun s => P s ∧ R s) p (fun a s => Q a s ∧ R s) := by
  refine (Triple.frame hR (fun _ _ h => h) h).conseq (fun _ h => h) ?_
  rintro (e | a) s hs
  · exact hs.1
  · exact hs

theorem ofProg {p : StoreProg α} (h : Triple (Goes t) Calm Calm P p Q) : Alone t P (Proc.ofProg p) Q :=
  fun s hs => (h s hs).bind fun _ _ h' => h'

/-- **`join_all`**: parts side by side. -/
theorem tryJoinAll {ι : Type} {is : List ι} {body : ι → Proc α} {Q : ι → α → Store → Prop}
    (hQ : ∀ i a, Stable Calm (Q i a)) (h : ∀ i ∈ is, Alone t P (body i) (Q i)) :
    Alone t P (Proc.tryJoinAll (is.map body)) fun as s => List.Forall₂ (fun i a => Q i a s) is as := by
  have hjoin : Alone t P (Proc.joinAll (is.map body)) fun rs s =>
      List.Forall₂ (fun i r => Ends (Q i) (fun _ => False) r s) is rs :=
    ofProg fun s hs => Safe.joinAll Calm.refl (fun _ _ _ => Calm.trans) (fun _ _ h => h)
      (fun a b x hx => by cases hx; exact ⟨rfl, Calm.refl _⟩) fun i hi => h i hi s hs
  refine seq hjoin fun rs s hs => ?_
  -- every part ended with its result
  have hok : ∃ as, collect rs = .ok as ∧ List.Forall₂ (fun i a => Q i a s) is as := by
    clear hjoin h
    induction hs with
    | nil => exact ⟨[], rfl, .nil⟩
    | @cons i r is rs hr _ ih =>
        cases r with
        | error e => exact hr.elim
        | ok a =>
            obtain ⟨as, has, hall⟩ := ih
            exact ⟨a :: as, by rw [collect, has], .cons hr hall⟩
  obtain ⟨as, has, hall⟩ := hok
  rw [has]
  exact fun s' hs' => hall.imp fun i a ha => hQ i a s s' hs' ha

/-! ### Reading -/

theorem load (handle : Nat) :
    Alone t (Calm s₀) (Fckdb.load handle) fun x s => x = s₀.base ∧ Calm s₀ s := by
  have hcurrent {s : Store} (h : Calm s₀ s) : s.current = s₀.current := by
    rw [Store.current, Store.current, h.versions, h.dropped]
  refine seq (Q := fun o s => o = s₀.current ∧ Calm s₀ s) (Triple.call Request.getManifest stable
    (stable_ends fun o => stable_and fun _ _ _ h => h) fun s s' x hs hx => ?_) fun o => ?_
  · cases hx
    exact ⟨Calm.refl _, hcurrent hs, hs⟩
  · cases o with
    | none =>
        refine ret (stable_and fun _ _ _ h => h) fun s hs => ⟨?_, hs.2⟩
        rw [Store.base, ← hs.1, (Store.current_eq_none hs.1.symm).1]
        rfl
    | some x =>
        refine seq (Q := fun _ s => some x = s₀.current ∧ Calm s₀ s) (ofProg (Triple.call
          (Request.remember handle x.1 (some x.2)) (stable_and fun _ _ _ h => h)
          (fun _ => stable_and fun _ _ _ h => h) fun s s' y hs hy => ?_)) fun _ => ?_
        · cases hy
          have hcalm : Calm s (s.setHandle handle (some ⟨x.1, some x.2, s.clock⟩)) := by
            refine Calmly.setHandle_calm fun snap hsnap => ?_
            obtain rfl := Option.some.inj hsnap
            have hfound := Calmly.found_current (s := s) (Nat.zero_le _)
            rw [hcurrent hs.2, ← hs.1] at hfound
            exact hfound.1
          exact ⟨hcalm, hs.1, hs.2.trans hcalm⟩
        · refine ret (stable_and fun _ _ _ h => h) fun s hs => ⟨?_, hs.2⟩
          rw [Store.base, ← hs.1, (Store.current_eq_some hs.1.symm).1]
          rfl

theorem readRecordsParallel {names : List ObjectName} {rs : List Record} (h : s₀.Reads names rs)
    (hkept : ∀ name ∈ names, name ∉ s₀.deleted) :
    Alone t (Calm s₀) (Fckdb.readRecordsParallel names) fun rs' s => rs' = rs ∧ Calm s₀ s := by
  have hpart : ∀ name ∈ names, Alone t (Calm s₀) (Fckdb.readRecordsOf name)
      fun batch _ => s₀.HasRecords name batch := by
    intro name hname
    obtain ⟨rss, hrss, -⟩ := h
    obtain ⟨n, hn, rfl⟩ := List.mem_iff_getElem.mp hname
    have hrecords : s₀.HasRecords names[n] _ := hrss.get hn (by rw [← hrss.length_eq]; exact hn)
    obtain ⟨put, hput, hblob⟩ := hrecords
    refine seq (Q := fun b _ => b = put.blob) (Triple.call (Request.get names[n]) stable
      (stable_ends fun b _ _ _ hb => hb) fun s s' x hs hx => ?_) fun b => ?_
    · have hobject : s.object names[n] = some put := by
        rw [Store.object, hs.deleted, if_neg (hkept _ hname), hs.grows.written hput]
      have hx : s.exec t (.get names[n]) .go = some (s', x) := hx
      rw [Store.exec, hobject] at hx
      cases hx
      exact ⟨Calm.refl _, rfl⟩
    · rintro s rfl
      rw [hblob]
      exact fun s' _ => ⟨put, hput, hblob⟩
  refine seq ((tryJoinAll (fun _ _ _ _ _ h => h) hpart).keep stable |>.conseq (fun s hs => ⟨hs, hs⟩)
    fun _ _ h => h) fun rss => ret (stable_and fun _ _ _ h => h) fun s hs => ⟨?_, hs.2⟩
  exact Store.Reads.unique ⟨rss, hs.1, rfl⟩ h

theorem allRecords {rs : List Record} (handle : Nat)
    (h : s₀.Reads s₀.manifest.recordObjects rs)
    (hkept : ∀ name ∈ s₀.manifest.recordObjects, name ∉ s₀.deleted) :
    Alone t (Calm s₀) (Fckdb.allRecords handle) fun x s => x = (s₀.base.2, rs) ∧ Calm s₀ s := by
  refine seq (load handle) fun x => ?_
  by_cases hx : x = s₀.base
  · subst hx
    refine conseq (seq (readRecordsParallel h hkept) fun rs' => ret (Q := fun x s => x = (s₀.base.2, rs) ∧
      Calm s₀ s) (stable_and fun _ _ _ h => h) ?_) (fun s hs => hs.2) fun _ _ h => h
    rintro s ⟨rfl, hs⟩
    exact ⟨rfl, hs⟩
  · exact fun s hs => absurd hs.1 hx

/-! ### Writing -/

/-- A calm program, then another; what held before still holds. -/
theorem after {p : Proc α} {f : α → Proc β} {R : Store → Prop} (hR : Stable Calm R)
    (h : Alone t (Calm s₀) p fun a s => Q a s ∧ Calm s₀ s)
    (hf : ∀ a, Alone t (fun s => (Q a s ∧ R s) ∧ Calm s₀ s) (f a) Q') :
    Alone t (fun s => R s ∧ Calm s₀ s) (p.andThen f) Q' := by
  refine seq ((h.keep hR).conseq (fun s hs => ⟨hs.2, hs.1⟩) fun a s hs => ⟨⟨hs.1.1, hs.2⟩, hs.1.2⟩) hf

theorem putData (w : Write) : Alone t (Calm s₀) (Fckdb.putData w) fun name s =>
    s.Wrote t (.data name) w.blob ∧ Calm s₀ s := by
  have hstored (u : Nat) : Stable Calm fun s => s.Wrote t (.data ⟨u, w.ext⟩) w.blob ∧ Calm s₀ s :=
    stable_and fun _ _ h hs => h.grows.wrote hs
  refine seq (Q := fun u s => s.Wrote t (.data ⟨u, w.ext⟩) w.blob ∧ Calm s₀ s) (Triple.call
    (Request.putNew (fun u => .data ⟨u, w.ext⟩) w.blob) stable (stable_ends hstored)
    fun s s' x hs hx => ?_) fun u => ret (hstored u) fun _ hs => hs
  cases hx
  have hcalm : Calm s { s with puts := s.puts ++ [⟨.data ⟨s.puts.length, w.ext⟩, w.blob, t, s.clock⟩] } :=
    ⟨Grows.of_eq rfl (List.prefix_append _ _) List.prefix_rfl (Nat.le_refl _) (le_max_left _ _)
      List.prefix_rfl (Nat.le_refl _) rfl rfl, rfl, rfl, rfl⟩
  refine ⟨hcalm, ⟨⟨.data ⟨s.puts.length, w.ext⟩, w.blob, t, s.clock⟩, ?_, rfl, rfl⟩, hs.trans hcalm⟩
  rw [Store.written, ObjectName.uuid, List.getElem?_concat_length]
  exact Option.filter_eq_some_iff.mpr ⟨rfl, decide_eq_true rfl⟩

variable [Crates]

/-- **Building a shard** succeeds if its documents can be clustered. -/
theorem buildShard {docs : List Doc} {buildIndex : Bool} {schema : Schema}
    (hbuild : docs ≠ [] → buildIndex = true → ∃ x, ivfBuild docs
      ((IvfParams.forDocs docs.length).withMetric schema.distanceMetric) = .ok x) :
    Alone t (Calm s₀) (Fckdb.buildShard docs buildIndex schema) fun shard s =>
      ShardBuilt s t schema docs buildIndex shard ∧ Calm s₀ s := by
  cases docs with
  | nil => exact ret stable fun s hs => ⟨by rw [ShardBuilt, if_pos rfl], hs⟩
  | cons first rest =>
      refine seq (putData ⟨.bin, upserts (first :: rest)⟩) fun seg => ?_
      have hseg : Stable Calm fun s => s.Wrote t (.data seg) (upserts (first :: rest)) :=
        fun _ _ h hs => h.grows.wrote hs
      cases buildIndex with
      | false =>
          refine ret (stable_and hseg) fun s hs => ⟨?_, hs.2⟩
          rw [ShardBuilt, if_neg (List.cons_ne_nil _ _)]
          exact ⟨seg, none, hs.1, rfl, rfl⟩
      | true =>
          obtain ⟨⟨flat, groups⟩, hivf⟩ := hbuild (List.cons_ne_nil _ _) rfl
          have hclusters : Alone t (fun s => s.Wrote t (.data seg) (upserts (first :: rest)) ∧ Calm s₀ s)
              (Proc.ofExcept (ivfBuild (first :: rest) ((IvfParams.forDocs
                (first :: rest).length).withMetric schema.distanceMetric)))
              fun x s => x = (flat, groups) ∧ s.Wrote t (.data seg) (upserts (first :: rest)) ∧
                Calm s₀ s := by
            rw [hivf]
            exact ret (stable_and hseg) fun s hs => ⟨rfl, hs⟩
          refine seq hclusters fun x => ?_
          by_cases hx : x = (flat, groups)
          · subst hx
            refine conseq (after hseg (putData ⟨.cen, .centroids flat⟩) fun centroids => ?_)
              (fun s hs => hs.2) fun _ _ h => h
            have hcen : Stable Calm fun s => s.Wrote t (.data centroids) (.centroids flat) ∧
                s.Wrote t (.data seg) (upserts (first :: rest)) :=
              Stable.and (fun _ _ h hs => h.grows.wrote hs) hseg
            -- the remaining objects are written side by side
            have hrest : Alone t (Calm s₀) (Proc.tryJoinAll ((indexWrites (first :: rest) groups
                schema).map Fckdb.putData)) fun names s => List.Forall₂
                (fun w name => s.Wrote t (.data name) w.blob) (indexWrites (first :: rest) groups schema)
                names ∧ Calm s₀ s := by
              have hstored (w : Write) (name : DataName) :
                  Stable Calm fun s => s.Wrote t (.data name) w.blob := fun _ _ h hs => h.grows.wrote hs
              refine (tryJoinAll hstored fun w _ => (putData w).conseq (fun _ h => h)
                fun _ _ h => h.1).keep stable |>.conseq (fun s hs => ⟨hs, hs⟩) fun _ _ h => h
            refine after hcen hrest fun names => ret (stable_and (Stable.and
              (fun _ _ h hs => hs.imp fun _ _ => h.grows.wrote) hcen)) fun s hs => ⟨?_, hs.2⟩
            obtain ⟨⟨hnames, hc, hs⟩, -⟩ := hs
            rw [ShardBuilt, if_neg (List.cons_ne_nil _ _)]
            exact ⟨seg, _, hs, rfl, _, rfl, flat, groups, centroids, names, hivf, hc, hnames, rfl⟩
          · exact fun s hs => absurd hs.1 hx

end Alone

/-! ## The compaction -/

section Compaction

variable [Crates]

/-- What a compaction of `s₀` leaves: everything in shards. -/
structure Compacted (s₀ : Store) (t : Nat) (buildIndex : Bool) (rs : List Record) (s : Store) : Prop where
  manifest : ∃ shards stamp, s.manifest =
      s₀.manifest.install (s₀.manifest.wal.map (·.name)) shards stamp ∧
    List.Forall₂ (fun docs shard => ShardBuilt s t s₀.manifest.schema docs buildIndex shard)
      (buckets (materialize rs).values s₀.manifest.schema.shards) shards
  deleted : s.deleted = s₀.deleted

variable {s₀ : Store} {t : Nat} {buildIndex : Bool} {rs : List Record}

theorem Compacted.stable : Stable Calm (Compacted s₀ t buildIndex rs) := by
  rintro s s' h ⟨⟨shards, stamp, hm, hbuilt⟩, hdel⟩
  exact ⟨⟨shards, stamp, h.manifest.trans hm, hbuilt.imp fun _ _ => h.grows.shardBuilt⟩,
    h.deleted.trans hdel⟩

/-- A triple of a thread that is alone; it does not fail. -/
abbrev Finishes (t : Nat) {α : Type} (P : Store → Prop) (p : Proc α) (Q : α → Store → Prop) : Prop :=
  Triple (Goes t) Calm (fun _ _ => True) P p (Ends Q fun _ => False)

omit [Crates] in
theorem Alone.then {α β : Type} {p : Proc α} {f : α → Proc β} {P : Store → Prop}
    {Q : α → Store → Prop} {Q' : β → Store → Prop} (h : Alone t P p Q)
    (hf : ∀ a, Finishes t (Q a) (f a) Q') : Finishes t P (p.andThen f) Q' :=
  Triple.tryBind Calm.refl (h.weaken fun _ _ _ => trivial) hf fun _ _ h => h

/-- **Installing** on the manifest that the compaction started from. -/
theorem Finishes.installLoop (hs₀ : s₀.Sound) (handle : Nat) (read : Option Nat) (shards : List Shard)
    (left attempt : Nat) :
    Finishes t (fun s => List.Forall₂
        (fun docs shard => ShardBuilt s t s₀.manifest.schema docs buildIndex shard)
        (buckets (materialize rs).values s₀.manifest.schema.shards) shards ∧ Calm s₀ s)
      (Fckdb.installLoop handle s₀.base.2 read (s₀.manifest.wal.map (·.name)) s₀.manifest.shards shards
        (left + 1) attempt) fun _ s => Compacted s₀ t buildIndex rs s := by
  have hbuilt : Stable Calm fun s => List.Forall₂
      (fun docs shard => ShardBuilt s t s₀.manifest.schema docs buildIndex shard)
      (buckets (materialize rs).values s₀.manifest.schema.shards) shards :=
    fun _ _ h hs => hs.imp fun _ _ => h.grows.shardBuilt
  refine Alone.then ((Alone.load handle).keep hbuilt |>.conseq (fun _ h => ⟨h.2, h.1⟩) fun _ _ h => h)
    fun x => ?_
  by_cases hx : x = s₀.base
  swap
  · exact fun s hs => absurd hs.1.1 hx
  subst hx
  have hready : Stable Calm fun s => List.Forall₂
      (fun docs shard => ShardBuilt s t s₀.manifest.schema docs buildIndex shard)
      (buckets (materialize rs).values s₀.manifest.schema.shards) shards ∧ Calm s₀ s :=
    Alone.stable_and hbuilt
  dsimp only [Store.base]
  rw [if_neg (not_not.mpr rfl)]
  refine Alone.then (Q := fun _ s => List.Forall₂
      (fun docs shard => ShardBuilt s t s₀.manifest.schema docs buildIndex shard)
      (buckets (materialize rs).values s₀.manifest.schema.shards) shards ∧ Calm s₀ s)
    (Alone.ofProg (Triple.call (Request.now .stamp) ?_ (fun _ => hready) fun s s' x hs hx => ?_))
    fun stamp => ?_
  · exact fun _ _ h hs => ⟨⟨rfl, hs.1.2.trans h⟩, hbuilt _ _ h hs.2⟩
  · cases hx
    exact ⟨Calm.refl _, hs.2, hs.1.2⟩
  -- the shards are in place, and nobody else has written
  let next := s₀.manifest.install (s₀.manifest.wal.map (·.name)) shards stamp
  have hdone (o : Option Nat) : Stable Calm fun s => ∃ v, o = some v ∧ s.At next (some v) ∧
      Compacted s₀ t buildIndex rs s := by
    rintro s s' h ⟨v, hv, hat, hc⟩
    exact ⟨v, hv, h.grows.keeps_at hat, Compacted.stable s s' h hc⟩
  refine Triple.tryBind Calm.refl (Triple.call (Request.putManifest next (modeOf (s₀.current.map (·.2)))
    (.compaction (s₀.current.map (·.2)) read)) hready (Alone.stable_ends hdone) ?_) (fun o => ?_)
    fun _ _ h => h
  · intro s s' x hs hx
    have hadmits : s.admits (modeOf (s₀.current.map (·.2))) = true := by
      have hsame : s.admits = s₀.admits := by
        funext mode
        cases mode <;> simp only [Store.admits, hs.2.versions, hs.2.dropped]
      rw [hsame]
      cases hcurrent : s₀.current with
      | none => exact (Store.current_eq_none hcurrent).2
      | some y => exact (Store.current_eq_some hcurrent).2
    have hx : (if s.admits (modeOf (s₀.current.map (·.2))) = true then
        some (s.push ⟨next, t, .compaction (s₀.current.map (·.2)) read, s.clock⟩,
          Except.ok (some s.versions.length)) else some (s, .ok none)) = some (s', x) := hx
    rw [if_pos hadmits] at hx
    cases hx
    refine ⟨trivial, _, rfl, s.at_push _, ⟨shards, stamp, ?_, ?_⟩, hs.2.deleted⟩
    · exact Store.push_manifest (hs.2.grows.sound hs₀).dropped _
    · have hpush := @Grows.push (fun _ => True) s
        ⟨next, t, .compaction (s₀.current.map (·.2)) read, s.clock⟩ trivial (Nat.le_refl _)
      exact hs.1.imp fun _ _ => hpush.shardBuilt
  · cases o with
    | none => exact fun s ⟨v, hv, _⟩ => nomatch hv
    | some v =>
        refine Alone.then (Q := fun _ s => ∃ v', some v = some v' ∧ s.At next (some v') ∧
          Compacted s₀ t buildIndex rs s) (Alone.ofProg (Triple.call
          (Request.remember handle next (some v)) (hdone _) (fun _ => hdone _) fun s s' x hs hx => ?_))
          fun _ => ?_
        · cases hx
          obtain ⟨v', hv, hat, hc⟩ := hs
          obtain rfl := Option.some.inj hv
          have hcalm : Calm s (s.setHandle handle (some ⟨next, some v, s.clock⟩)) := by
            refine Calmly.setHandle_calm fun snap hsnap => ?_
            obtain rfl := Option.some.inj hsnap
            exact hat
          exact ⟨hcalm, hdone _ _ _ hcalm ⟨v, rfl, hat, hc⟩⟩
        · refine Triple.done (hdone _) fun s hs => ?_
          obtain ⟨-, -, -, hc⟩ := hs
          exact hc

/-- **A compaction without contention** folds everything, if every bucket can be clustered. -/
theorem Finishes.compact (hs₀ : s₀.Sound) (hreads : s₀.Reads s₀.manifest.recordObjects rs)
    (hkept : ∀ name ∈ s₀.manifest.recordObjects, name ∉ s₀.deleted)
    (hdue : s₀.manifest.compacted buildIndex = false)
    (hbuild : ∀ docs ∈ buckets (materialize rs).values s₀.manifest.schema.shards, docs ≠ [] →
      buildIndex = true → ∃ x, ivfBuild docs ((IvfParams.forDocs docs.length).withMetric
        s₀.manifest.schema.distanceMetric) = .ok x) (handle : Nat) :
    Finishes t (Calm s₀) (Fckdb.compact handle buildIndex) fun _ s => Compacted s₀ t buildIndex rs s := by
  refine Alone.then (Alone.load handle) fun x => ?_
  by_cases hx : x = s₀.base
  swap
  · exact fun s hs => absurd hs.1 hx
  subst hx
  dsimp only [Store.base]
  rw [if_neg (by rw [hdue]; exact Bool.false_ne_true)]
  refine Alone.then ((Alone.allRecords handle hreads hkept).conseq (fun _ h => h.2) fun _ _ h => h)
    fun x => ?_
  by_cases hx : x = (s₀.base.2, rs)
  swap
  · exact fun s hs => absurd hs.1 hx
  subst hx
  have hshards : Alone t (Calm s₀) (Proc.tryJoinAll ((buckets (materialize rs).values
      s₀.manifest.schema.shards).map fun bucket => Fckdb.buildShard bucket buildIndex
        s₀.manifest.schema)) fun shards s => List.Forall₂
        (fun docs shard => ShardBuilt s t s₀.manifest.schema docs buildIndex shard)
        (buckets (materialize rs).values s₀.manifest.schema.shards) shards ∧ Calm s₀ s := by
    refine (Alone.tryJoinAll (Q := fun docs shard s =>
      ShardBuilt s t s₀.manifest.schema docs buildIndex shard) (fun _ _ _ _ h => h.grows.shardBuilt)
      fun docs hdocs => (Alone.buildShard (hbuild docs hdocs)).conseq (fun _ h => h)
        fun _ _ h => h.1).keep Alone.stable |>.conseq (fun s hs => ⟨hs, hs⟩) fun _ _ h => h
  refine Alone.then (hshards.conseq (fun _ h => h.2) fun _ _ h => h) fun shards => ?_
  refine Triple.tryBind Calm.refl (Finishes.installLoop hs₀ handle s₀.base.2 shards 99 1) (fun _ => ?_)
    fun _ _ h => h
  exact Triple.done Compacted.stable fun _ h => h

variable [HashOrder]

/-- **Every namespace whose objects are there can be compacted**, if every bucket can be clustered. -/
theorem Reaches.compacted {p : Namespace} (h : Reaches anyTerms p)
    (hthere : ∀ name ∈ p.shared.manifest.recordObjects, name ∉ p.shared.deleted)
    (hreads : p.shared.Reads p.shared.manifest.recordObjects rs)
    (hdue : p.shared.manifest.compacted buildIndex = false)
    (hbuild : ∀ docs ∈ buckets (materialize rs).values p.shared.manifest.schema.shards, docs ≠ [] →
      buildIndex = true → ∃ x, ivfBuild docs ((IvfParams.forDocs docs.length).withMetric
        p.shared.manifest.schema.distanceMetric) = .ok x) :
    ∃ p', Reaches anyTerms p' ∧ Compacted p.shared p.threads.length buildIndex rs p'.shared := by
  let call : Call := .compact 0 buildIndex
  have hspawn : Reaches anyTerms ⟨p.shared, p.threads ++ [⟨call, call.body⟩]⟩ :=
    Reachable.step (.spawn call) h trivial rfl
  have hsafe : Safe (Goes p.threads.length) Calm (fun _ _ => True)
      (fun _ s => Compacted p.shared p.threads.length buildIndex rs s) call.body p.shared := by
    refine ((Finishes.compact h.sound hreads hthere hdue hbuild 0) p.shared (Calm.refl _)).bind
      fun r s hs s' hs' => ?_
    cases r with
    | error e => exact (hs s (Calm.refl s)).elim
    | ok a => exact hs s' hs'
  obtain ⟨s', r, hreach, hpost⟩ := Reaches.finish Calm.refl hsafe (List.getElem?_concat_length) hspawn
  exact ⟨_, hreach, hpost⟩

end Compaction

end Fckdb
