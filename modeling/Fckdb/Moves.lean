import Fckdb.History

/-! # What a step of a call can do

`Move` says everything a step of a thread can do to the store, with what the thread knows when it does
it: commit a batch, install new shards, delete an object, or nothing that matters here. -/

namespace Fckdb

open Prog

/-! ## What a compaction builds -/

section Built

variable [Crates] (s : Store) (t : Nat) (schema : Schema) (docs : List Doc)

/-- `i` is the index that thread `t` wrote for the documents. -/
def IndexBuilt (i : IndexMeta) : Prop :=
  ∃ flat groups centroids names,
    ivfBuild docs ((IvfParams.forDocs docs.length).withMetric schema.distanceMetric) =
      .ok (flat, groups) ∧
    s.Wrote t (.data centroids) (.centroids flat) ∧
    List.Forall₂ (fun w name => s.Wrote t (.data name) w.blob) (indexWrites docs groups schema) names ∧
    i = indexMeta docs (docs.headD default).vector.length (indexBytes docs flat groups schema) groups
      schema centroids names

/-- `shard` is what thread `t` wrote for the documents: nothing, or one segment and perhaps an index. -/
def ShardBuilt (buildIndex : Bool) (shard : Shard) : Prop :=
  if docs = [] then shard = {}
  else ∃ seg index,
    s.Wrote t (.data seg) (upserts docs) ∧
    shard = ⟨[⟨seg, (frameRecords (docs.map .upsert)).length, asU32 docs.length⟩], index⟩ ∧
    if buildIndex then ∃ i, index = some i ∧ IndexBuilt s t schema docs i else index = none

variable {s schema docs} {who : Nat → Prop} {s' : Store} {t} {i : IndexMeta} {shard : Shard}

theorem Grows.indexBuilt (h : Grows who s s') (hi : IndexBuilt s t schema docs i) :
    IndexBuilt s' t schema docs i := by
  obtain ⟨flat, groups, centroids, names, hb, hc, hn, hi⟩ := hi
  exact ⟨flat, groups, centroids, names, hb, h.wrote hc, hn.imp fun _ _ => h.wrote, hi⟩

theorem Grows.shardBuilt (h : Grows who s s') {buildIndex : Bool}
    (hs : ShardBuilt s t schema docs buildIndex shard) :
    ShardBuilt s' t schema docs buildIndex shard := by
  rw [ShardBuilt] at hs ⊢
  by_cases hdocs : docs = []
  · rwa [if_pos hdocs] at hs ⊢
  · rw [if_neg hdocs] at hs ⊢
    obtain ⟨seg, index, hw, hshard, hi⟩ := hs
    refine ⟨seg, index, h.wrote hw, hshard, ?_⟩
    cases buildIndex with
    | false => exact hi
    | true =>
        obtain ⟨i, hindex, hi⟩ := hi
        exact ⟨i, hindex, h.indexBuilt hi⟩

end Built

/-! ## Parts side by side -/

/-- The result of a program meets `Q`, if it has one. -/
def Yields {S α : Type} (Q : α → S → Prop) (r : Except Error α) (s : S) : Prop := ∀ a, r = .ok a → Q a s

theorem stable_yields {S α : Type} {rely : S → S → Prop} {Q : α → S → Prop}
    (hQ : ∀ a, Stable rely (Q a)) (r : Except Error α) : Stable rely (Yields Q r) :=
  fun s s' h hs a ha => hQ a s s' h (hs a ha)

/-- **`join_all`**: parts that tolerate each other's steps, over any state. -/
theorem tryJoinAll_yields {S α ι : Type} {exec : S → (r : Request) → S → r.Answer → Prop}
    {rely guar : S → S → Prop} {P : S → Prop} {is : List ι} {body : ι → Proc α} {Q : ι → α → S → Prop}
    (hrefl : ∀ a, rely a a) (htrans : ∀ a b c, rely a b → rely b c → rely a c)
    (hguar : ∀ a b, guar a b → rely a b)
    (hchoose : ∀ a b x, exec a .choose b x → b = a ∧ guar a b)
    (hQ : ∀ i a, Stable rely (Q i a)) (h : ∀ i ∈ is, Triple exec rely guar P (body i) (Yields (Q i))) :
    Triple exec rely guar P (Proc.tryJoinAll (is.map body))
      (Yields fun as s => List.Forall₂ (fun i a => Q i a s) is as) := by
  have hstable (rs : List (Except Error α)) :
      Stable rely fun s => List.Forall₂ (fun i r => Yields (Q i) r s) is rs :=
    fun s s' hs => List.Forall₂.imp fun i r => stable_yields (hQ i) r s s' hs
  have hjoin : Triple exec rely guar P (Prog.joinAll .choose id (is.map body))
      fun rs s => List.Forall₂ (fun i r => Yields (Q i) r s) is rs :=
    fun s hs => Safe.joinAll hrefl htrans hguar hchoose fun i hi => h i hi s hs
  -- every part ended with its result
  have hall {is : List ι} {rs : List (Except Error α)} {as : List α} {s : S}
      (hrs : List.Forall₂ (fun i r => Yields (Q i) r s) is rs)
      (has : List.Forall₂ (fun r a => r = .ok a) rs as) : List.Forall₂ (fun i a => Q i a s) is as := by
    induction hrs generalizing as with
    | nil =>
        cases has
        exact .nil
    | cons hr _ ih =>
        cases has with
        | cons ha has =>
            subst ha
            exact .cons (hr _ rfl) (ih has)
  have hparts : Triple exec rely guar P (Proc.joinAll (is.map body))
      (Yields fun rs s => List.Forall₂ (fun i r => Yields (Q i) r s) is rs) := by
    refine Triple.bind hrefl hjoin fun rs => Triple.done (hstable rs) fun s hrs rs' heq => ?_
    obtain rfl := Except.ok.inj heq
    exact hrs
  refine Triple.tryBind hrefl hparts (fun rs => ?_) ?_
  · intro s hrs s' hs' as has
    have hrs := hstable rs s s' hs' (hrs rs rfl)
    have hok := collect_eq_ok has
    exact hall hrs hok
  · exact fun e s _ as has => nomatch has

/-! ## Moves -/

variable [Crates] [HashOrder]

/-- **What a step of thread `t` in a call does**, from `s` to `s'`, and what it knows. -/
inductive Move (ok : Terms) (t : Nat) (call : Call) (s s' : Store) : Prop
  /-- No manifest is written or deleted, and no object deleted or listed for deletion. -/
  | calm (versions : s'.versions = s.versions) (deleted : s'.deleted = s.deleted)
      (dropped : s'.dropped = s.dropped) (listed : s'.listed = s.listed)
  /-- A commit: its first version, on the current manifest, with its batch in the store. -/
  | commit (prepare : Manifest → Except Error (Schema × List Record)) (schema : Schema)
      (batch : List Record) (uuid now : Nat) (mode : PutMode)
      (asked : call.prepare = some prepare)
      (prepared : prepare s.manifest = .ok (schema, batch))
      (stored : s.Wrote t (.wal ⟨s.manifest.nextSeq, uuid⟩) (.records batch))
      (first : s.writtenBy t = [])
      (allowed : ok.op t s (.putManifest
        (s.manifest.push schema ⟨s.manifest.nextSeq, uuid⟩ batch now) mode (.commit batch)))
      (admitted : s.admits mode = true)
      (result : s' = s.push ⟨s.manifest.push schema ⟨s.manifest.nextSeq, uuid⟩ batch now, t,
        .commit batch, s.clock⟩)
  /-- An install: shards built from the documents of `read`, which was loaded after `base`, while the
  shards of `base` are still in place. -/
  | install (handle : Nat) (buildIndex : Bool) (base read : Option Nat) (m : Manifest)
      (records : List Record) (shards : List Shard) (now : Nat) (mode : PutMode)
      (asked : call = .compact handle buildIndex)
      (based : s.At m base) (later : s.Since (seen base) read) (known : seen read ≤ s.versions.length)
      (documents : s.Reads (s.manifestAt read).recordObjects records)
      (built : List.Forall₂ (fun docs shard => ShardBuilt s t m.schema docs buildIndex shard)
        (buckets (materialize records).values m.schema.shards) shards)
      (distinct : (shards.flatMap Shard.objects).Nodup)
      (same : s.manifest.shards = m.shards)
      (first : s.writtenBy t = [])
      (allowed : ok.op t s (.putManifest (s.manifest.install (m.wal.map (·.name)) shards now) mode
        (.compaction base read)))
      (admitted : s.admits mode = true)
      (result : s' = s.push ⟨s.manifest.install (m.wal.map (·.name)) shards now, t,
        .compaction base read, s.clock⟩)
  /-- A deletion: the manifest loaded, and the clock read at `s₀`, by a collection that found the object
  unreferenced and old. -/
  | delete (handle grace : Nat) (loaded : Manifest) (version : Option Nat) (s₀ : Store)
      (name : ObjectName) (p : Put)
      (asked : call = .gc handle grace)
      (past : Grows (fun _ => True) s₀ s)
      (known : s₀.At loaded version)
      (allowed : ok.op t s₀ (.now (.cutoff loaded)))
      (unreferenced : name ∉ loaded.referenced)
      (stored : s.written name = some p)
      (old : (p.time : Int) ≤ s₀.clock - fromStd grace)
      (result : s' = { s with deleted := s.deleted ++ [name] })
  /-- The manifest is deleted. -/
  | drop (handle : Nat) (asked : call = .destroy handle) (allowed : ok.op t s .deleteManifest)
      (result : s' = { s with dropped := s.versions.length })
  /-- An object is listed for deletion. -/
  | list (handle : Nat) (name : ObjectName) (asked : call = .destroy handle)
      (allowed : ok.op t s .nextAny) (there : (s.object name).isSome)
      (result : s' = { s with listed := s.listed ++ [name] })
  /-- A listed object is deleted. -/
  | wipe (handle : Nat) (name : ObjectName) (asked : call = .destroy handle)
      (listed : name ∈ s.listed) (result : s' = { s with deleted := s.deleted ++ [name] })

/-- What thread `t` relies on: the others grow the store. -/
abbrev Rely (t : Nat) : Store → Store → Prop := Grows (· ≠ t)

/-- What a step of thread `t` in a call guarantees. -/
def Guar (ok : Terms) (t : Nat) (call : Call) (s s' : Store) : Prop :=
  Grows (· = t) s s' ∧ Move ok t call s s'

/-- A step that writes no manifest and deletes nothing. -/
structure Calm (s s' : Store) : Prop where
  grows : Grows (fun _ => False) s s'
  deleted : s'.deleted = s.deleted
  dropped : s'.dropped = s.dropped
  listed : s'.listed = s.listed

omit [HashOrder] [Crates] in
theorem Calm.rely {s s' : Store} (h : Calm s s') (t : Nat) : Rely t s s' := h.grows.mono fun _ => False.elim

omit [HashOrder] [Crates] in
theorem Calm.versions {s s' : Store} (h : Calm s s') : s'.versions = s.versions := by
  obtain ⟨vs, hvs, hw⟩ := h.grows.versions
  cases vs with
  | nil => simpa using hvs
  | cons v _ => exact (hw v List.mem_cons_self).1.elim

omit [HashOrder] in
theorem Calm.guar {ok : Terms} {t : Nat} {call : Call} {s s' : Store} (h : Calm s s') :
    Guar ok t call s s' := ⟨h.grows.mono fun _ => False.elim, .calm h.versions h.deleted h.dropped h.listed⟩

omit [HashOrder] [Crates] in
theorem Calm.refl (s : Store) : Calm s s := ⟨.refl s, rfl, rfl, rfl⟩

/-! ## Triples -/

/-- A program ends in `Q` with a result, and in `E` with an error. -/
def Ends {α : Type} (Q : α → Store → Prop) (E : Store → Prop) : Except Error α → Store → Prop
  | .ok a, s => Q a s
  | .error _, s => E s

/-- A triple of thread `t` whose steps are all calm. -/
abbrev Calmly (ok : Terms) (t : Nat) {α : Type} (P : Store → Prop) (p : Proc α)
    (Q : α → Store → Prop) : Prop :=
  Triple (service.Answers ok t) (Rely t) Calm P p (Ends Q fun _ => True)

/-- A triple of thread `t` in a call. -/
abbrev Does (ok : Terms) (t : Nat) (call : Call) {α : Type} (P : Store → Prop) (p : Proc α)
    (Q : α → Store → Prop) (E : Store → Prop) : Prop :=
  Triple (service.Answers ok t) (Rely t) (Guar ok t call) P p (Ends Q E)

/-- A triple of thread `t` whose steps are all calm and that does not fail. -/
abbrev Surely (ok : Terms) (t : Nat) {α : Type} (P : Store → Prop) (p : Proc α)
    (Q : α → Store → Prop) : Prop :=
  Triple (service.Answers ok t) (Rely t) Calm P p (Ends Q fun _ => False)

variable {ok : Terms} {t : Nat} {call : Call} {α β : Type} {P R : Store → Prop}
  {Q : α → Store → Prop} {Q' : β → Store → Prop} {E : Store → Prop}

omit [HashOrder] [Crates] in
theorem stable_ends (hQ : ∀ a, Stable (Rely t) (Q a)) (hE : Stable (Rely t) E) :
    ∀ r, Stable (Rely t) (Ends Q E r)
  | .ok a => hQ a
  | .error _ => hE

omit [HashOrder] [Crates] in
theorem stable_true : Stable (Rely t) fun _ => True := fun _ _ _ _ => trivial

omit [HashOrder] [Crates] in
theorem stable_at (m : Manifest) (version : Option Nat) :
    Stable (Rely t) fun s => s.At m version := fun _ _ h => h.keeps_at

omit [HashOrder] [Crates] in
theorem stable_wrote (u : Nat) (name : ObjectName) (blob : Blob) :
    Stable (Rely t) fun s => s.Wrote u name blob := fun _ _ h => h.wrote

omit [HashOrder] [Crates] in
theorem stable_le (k : Nat) : Stable (Rely t) fun s => k ≤ s.versions.length :=
  fun _ _ h hs => hs.trans h.length_le

theorem Does.seq {p : Proc α} {f : α → Proc β} (h : Does ok t call P p Q E)
    (hf : ∀ a, Does ok t call (Q a) (f a) Q' E) : Does ok t call P (p.andThen f) Q' E :=
  Triple.tryBind .refl h hf fun _ _ h => h

/-- A calm program, then the rest of a call: what held before still holds. -/
theorem Does.after {p : Proc α} {f : α → Proc β} (hR : Stable (Rely t) R) (h : Calmly ok t P p Q)
    (hP : ∀ s, R s → P s) (hE : ∀ s, R s → E s)
    (hf : ∀ a, Does ok t call (fun s => Q a s ∧ R s) (f a) Q' E) :
    Does ok t call R (p.andThen f) Q' E := by
  refine .seq (Q := fun a s => Q a s ∧ R s) ?_ hf
  refine ((h.frame hR fun _ _ h => h.rely t).weaken fun _ _ => Calm.guar).conseq
    (fun s h => ⟨hP s h, h⟩) ?_
  rintro (e | a) s hs
  · exact hE s hs.2
  · exact hs

/-- A calm program that does not fail, then the rest of a call. -/
theorem Does.afterSure {p : Proc α} {f : α → Proc β} (hR : Stable (Rely t) R)
    (h : Surely ok t P p Q) (hP : ∀ s, R s → P s)
    (hf : ∀ a, Does ok t call (fun s => Q a s ∧ R s) (f a) Q' E) :
    Does ok t call R (p.andThen f) Q' E := by
  refine .seq (Q := fun a s => Q a s ∧ R s) ?_ hf
  refine ((h.frame hR fun _ _ h => h.rely t).weaken fun _ _ => Calm.guar).conseq
    (fun s h => ⟨hP s h, h⟩) ?_
  rintro (e | a) s hs
  · exact hs.1.elim
  · exact hs

theorem Does.ret {a : α} (hP : Stable (Rely t) P) (h : ∀ s, P s → Q a s) :
    Does ok t call P (Proc.ret a) Q E := Triple.done hP h

theorem Does.ofExcept {r : Except Error α} (hP : Stable (Rely t) P)
    (h : ∀ a s, r = .ok a → P s → Q a s) (hE : ∀ s, P s → E s) :
    Does ok t call P (Proc.ofExcept r) Q E := by
  cases r with
  | ok a => exact Triple.done hP (h a · rfl)
  | error e => exact Triple.done hP hE

theorem Does.fail {e : Error} (hP : Stable (Rely t) P) (h : ∀ s, P s → E s) :
    Does ok t call P (Proc.fail e : Proc α) Q E := Triple.done hP h

theorem Surely.calmly {p : Proc α} (h : Surely ok t P p Q) : Calmly ok t P p Q := by
  refine h.conseq (fun _ h => h) ?_
  rintro (e | a) s hs
  · trivial
  · exact hs

/-- A part that cannot fail. -/
theorem Surely.ofProg {p : StoreProg α}
    (h : Triple (service.Answers ok t) (Rely t) Calm P p Q) : Surely ok t P (Proc.ofProg p) Q :=
  fun s hs => (h s hs).bind fun _ _ h' => h'

namespace Calmly

/-- A stable fact is kept. -/
theorem keep {p : Proc α} (h : Calmly ok t P p Q) (hR : Stable (Rely t) R) :
    Calmly ok t (fun s => P s ∧ R s) p (fun a s => Q a s ∧ R s) := by
  refine (h.frame hR fun _ _ h => h.rely t).conseq (fun _ h => h) ?_
  rintro (e | a) s hs
  · trivial
  · exact hs

theorem seq {p : Proc α} {f : α → Proc β} (h : Calmly ok t P p Q)
    (hf : ∀ a, Calmly ok t (Q a) (f a) Q') : Calmly ok t P (p.andThen f) Q' :=
  Triple.tryBind .refl h hf fun _ _ h => h

theorem ret {a : α} (hP : Stable (Rely t) P) (h : ∀ s, P s → Q a s) :
    Calmly ok t P (Proc.ret a) Q := Triple.done hP h

theorem fail {e : Error} : Calmly ok t P (Proc.fail e : Proc α) Q := fun _ _ _ _ => trivial

/-- A computation without requests. -/
theorem ofExcept {r : Except Error α} (hP : Stable (Rely t) P) (h : ∀ a s, r = .ok a → P s → Q a s) :
    Calmly ok t P (Proc.ofExcept r) Q := by
  cases r with
  | ok a => exact Triple.done hP (h a · rfl)
  | error e => exact fail

/-! ## Single requests -/

/-- One request that changes nothing. -/
theorem ask {r : Request} {post : r.Answer → Store → Prop} (hP : Stable (Rely t) P)
    (hpost : ∀ x, Stable (Rely t) (post x))
    (h : ∀ s c s' x, P s → s.exec t r c = some (s', x) → s' = s ∧ post x s) :
    Triple (service.Answers ok t) (Rely t) Calm P (request r) post := by
  refine Triple.call r hP hpost fun s s' x hs hx => ?_
  obtain ⟨-, c, hx⟩ := hx
  obtain ⟨rfl, hp⟩ := h s c s' x hs hx
  exact ⟨Calm.refl _, hp⟩

/-- What a GET of the manifest finds: a manifest of the history, at least as late as the start. -/
def Found (s : Store) (k : Nat) : Option (Manifest × Nat) → Prop
  | none => s.Since k none
  | some (m, v) => s.At m (some v) ∧ k ≤ v + 1

omit [HashOrder] [Crates] in
theorem found_current {s : Store} {k : Nat} (hk : k ≤ s.versions.length) : Found s k s.current := by
  rw [Store.current]
  by_cases hdrop : s.dropped < s.versions.length
  · rw [if_pos hdrop]
    rcases List.eq_nil_or_concat s.versions with hnil | ⟨vs, v, hvs⟩
    · rw [hnil] at hdrop
      cases hdrop
    · rw [List.concat_eq_append] at hvs
      rw [hvs, List.length_append] at hk
      simp only [hvs, List.getLast?_concat, Option.map_some, List.length_append,
        List.length_singleton, Nat.add_sub_cancel]
      refine ⟨⟨by simp [seen, hvs], ?_⟩, hk⟩
      rw [Store.manifestAt, seen, hvs, List.take_of_length_le (by simp), lastManifest_append]
  · rw [if_neg hdrop]
    show k ≤ 0 ∨ 0 < s.dropped
    omega

theorem getManifest (k : Nat) :
    Calmly ok t (fun s => k ≤ s.versions.length) Fckdb.getManifest fun o s => Found s k o := by
  refine ask (r := .getManifest) (stable_le k) (stable_ends (fun o s s' h hx => ?_) stable_true) ?_
  · match o with
    | none => exact h.since hx
    | some (m, v) => exact ⟨h.keeps_at hx.1, hx.2⟩
  · rintro s c s' x hk hx
    cases c <;> cases hx
    · exact ⟨rfl, found_current hk⟩
    · exact ⟨rfl, trivial⟩

/-- A PUT of a new object. -/
theorem putNew {f : Nat → ObjectName} (hf : ∀ u, (f u).uuid = u) (blob : Blob) :
    Calmly ok t (fun _ => True) (Fckdb.putNew f blob) fun u s => s.Wrote t (f u) blob := by
  refine Triple.call (Request.putNew f blob) stable_true
    (stable_ends (fun u s s' h hx => h.wrote hx) stable_true) ?_
  rintro s s' x - ⟨-, c, hx⟩
  cases c <;> cases hx
  · refine ⟨⟨Grows.of_eq rfl (List.prefix_append _ _) List.prefix_rfl (Nat.le_refl _) (le_max_left _ _)
      List.prefix_rfl (Nat.le_refl _) rfl rfl, rfl, rfl, rfl⟩, ?_⟩
    refine ⟨⟨f s.puts.length, blob, t, s.clock⟩, ?_, rfl, rfl⟩
    rw [Store.written, hf, List.getElem?_concat_length]
    exact Option.filter_eq_some_iff.mpr ⟨rfl, decide_eq_true rfl⟩
  · exact ⟨Calm.refl _, trivial⟩

/-- A GET of an object. -/
theorem readBlob (name : ObjectName) :
    Calmly ok t (fun _ => True) (Fckdb.readBlob name) fun b s =>
      ∃ p, s.written name = some p ∧ p.blob = b := by
  refine ask (r := .get name) stable_true (stable_ends (fun b s s' h hx => ?_) stable_true) ?_
  · obtain ⟨p, hp, hpb⟩ := hx
    exact ⟨p, h.written hp, hpb⟩
  · rintro s c s' x - hx
    cases c <;> try cases hx
    · rw [Store.exec] at hx
      cases hp : s.object name with
      | none =>
          rw [hp] at hx
          cases hx
          exact ⟨rfl, trivial⟩
      | some p =>
          rw [hp] at hx
          cases hx
          refine ⟨rfl, p, ?_, rfl⟩
          rw [Store.object] at hp
          split_ifs at hp
          exact hp
    · exact ⟨rfl, trivial⟩

/-- A reading of the clock, at `s₀`. -/
theorem now (purpose : Clocking) (hP : Stable (Rely t) P) :
    Surely ok t P (Fckdb.now purpose) fun time s =>
      ∃ s₀, P s₀ ∧ Grows (fun _ => True) s₀ s ∧ time = s₀.clock ∧ ok.op t s₀ (.now purpose) := by
  refine .ofProg (Triple.call (Request.now purpose) hP (fun x s s' h hx => ?_) ?_)
  · obtain ⟨s₀, h₀, hg, hx⟩ := hx
    exact ⟨s₀, h₀, hg.trans (h.mono fun _ _ => trivial), hx⟩
  · rintro s s' x hs ⟨hok, c, hx⟩
    cases c <;> cases hx
    exact ⟨Calm.refl _, s, hs, .refl s, rfl, hok⟩

theorem viewHandle (handle : Nat) :
    Surely ok t Store.Sound (Fckdb.viewHandle handle) fun x s =>
      ∀ snap, x.1 = some snap → s.At snap.manifest snap.version := by
  refine .ofProg (ask (fun s s' h => h.sound) (fun x s s' h hx snap hs => h.keeps_at (hx snap hs)) ?_)
  rintro s c s' x hv hx
  cases c <;> cases hx
  exact ⟨rfl, fun snap hs => hv.handles handle snap hs⟩

omit [HashOrder] [Crates] in
/-- A handle may remember a manifest of the history, or forget. -/
theorem setHandle_calm {s : Store} {handle : Nat} {snapshot : Option Snapshot}
    (h : ∀ snap, snapshot = some snap → s.At snap.manifest snap.version) :
    Calm s (s.setHandle handle snapshot) := by
  refine ⟨⟨⟨[], by simp [Store.setHandle], by simp⟩, List.prefix_rfl, List.prefix_rfl,
    Nat.le_refl _, List.prefix_rfl, Nat.le_refl _, fun handle' => ?_, fun hv => ⟨?_, hv.dropped⟩⟩,
    rfl, rfl, rfl⟩
  · simp only [Store.setHandle]
    split_ifs
    · exact le_max_left _ _
    · exact Nat.le_refl _
  intro handle' snap hs
  simp only [Store.setHandle] at hs
  have hat : s.At snap.manifest snap.version := by
    split_ifs at hs
    · exact h snap hs
    · exact hv.handles handle' snap hs
  exact ⟨hat.le, hat.eq⟩

theorem remember (handle : Nat) (m : Manifest) (version : Option Nat) :
    Surely ok t (fun s => s.At m version) (Fckdb.remember handle m version) fun _ s =>
      seen version ≤ s.published handle := by
  refine .ofProg (Triple.call (Request.remember handle m version) (stable_at m version)
    (fun _ _ _ h hs => hs.trans (h.published handle)) ?_)
  rintro s s' x hat ⟨-, c, hx⟩
  cases c <;> cases hx
  refine ⟨setHandle_calm fun snap hs => ?_, ?_⟩
  · obtain rfl := Option.some.inj hs
    exact hat
  · simp [Store.setHandle]

theorem forgetSnapshot (handle : Nat) :
    Surely ok t (fun _ => True) (Fckdb.forgetSnapshot handle) fun _ _ => True := by
  refine .ofProg (Triple.call (Request.forget handle) stable_true (fun _ => stable_true) ?_)
  rintro s s' x - ⟨-, c, hx⟩
  cases c <;> cases hx
  exact ⟨setHandle_calm fun snap hs => (nomatch hs), trivial⟩

/-! ## Reading -/

/-- Fetch the commit point. -/
theorem load (handle k : Nat) :
    Calmly ok t (fun s => k ≤ s.versions.length) (Fckdb.load handle) fun x s =>
      s.At x.1 x.2 ∧ s.Since k x.2 := by
  refine seq (getManifest k) ?_
  rintro (_ | ⟨m, v⟩)
  · refine ret (fun _ _ h hs => h.since hs) fun s (h : s.Since k none) => ?_
    exact ⟨⟨Nat.zero_le _, rfl⟩, h⟩
  · have hstable : Stable (Rely t) fun s => s.At m (some v) ∧ k ≤ v + 1 :=
      fun s s' h hs => ⟨h.keeps_at hs.1, hs.2⟩
    refine seq (((remember handle m (some v)).calmly.keep hstable).conseq (fun s h => ⟨h.1, h⟩)
      fun _ _ h => h) fun _ => ?_
    exact ret (Stable.and (fun _ _ h hs => hs.trans (h.published handle)) hstable)
      fun s h => ⟨h.2.1, .inl h.2.2⟩

/-- **`join_all`**: calm parts side by side. -/
theorem tryJoinAll {ι : Type} {is : List ι} {body : ι → Proc α} {Q : ι → α → Store → Prop}
    (hQ : ∀ i a, Stable (Rely t) (Q i a))
    (h : ∀ i ∈ is, Calmly ok t P (body i) (Q i)) :
    Calmly ok t P (Proc.tryJoinAll (is.map body)) fun as s =>
      List.Forall₂ (fun i a => Q i a s) is as := by
  have hparts := @tryJoinAll_yields _ _ _ _ (Rely t) _ _ _ _ _ (fun s => Grows.refl s) (fun _ _ _ => Grows.trans)
    (fun _ _ (h : Calm _ _) => h.rely t) (fun a b x hx => ?_) hQ
    fun i hi => (h i hi).conseq (fun _ h => h) fun r s hr a ha => ?_
  · refine hparts.conseq (fun _ h => h) ?_
    rintro (e | as) s h
    · trivial
    · exact h as rfl
  · obtain ⟨-, c, hx⟩ := hx
    cases c <;> cases hx
    exact ⟨rfl, Calm.refl _⟩
  · subst ha
    exact hr

theorem readRecordsOf (name : ObjectName) :
    Calmly ok t (fun _ => True) (Fckdb.readRecordsOf name) fun rs s => s.HasRecords name rs := by
  refine seq (readBlob name) fun b => ?_
  cases b with
  | records rs =>
      exact ret (fun s s' h hs => h.hasRecords hs) fun _ h => h
  | _ => exact fail

theorem readRecordsParallel (names : List ObjectName) :
    Calmly ok t (fun _ => True) (Fckdb.readRecordsParallel names) fun rs s => s.Reads names rs := by
  refine seq (tryJoinAll (Q := fun name rs s => s.HasRecords name rs)
    (fun _ _ s s' h hs => h.hasRecords hs) fun name _ => readRecordsOf name) fun rss => ?_
  refine ret (fun s s' h hs => hs.imp fun _ _ => h.hasRecords) fun s h => ⟨rss, h, rfl⟩

/-- A full read, at a version at least as late as the start. -/
theorem allRecords (handle k : Nat) :
    Calmly ok t (fun s => k ≤ s.versions.length) (Fckdb.allRecords handle) fun x s =>
      s.Since k x.1 ∧ seen x.1 ≤ s.versions.length ∧
        s.Reads (s.manifestAt x.1).recordObjects x.2 := by
  refine seq (load handle k) fun ⟨m, version⟩ => ?_
  have hstable : Stable (Rely t) fun s => s.At m version ∧ s.Since k version :=
    fun s s' h hs => ⟨h.keeps_at hs.1, h.since hs.2⟩
  refine seq (((readRecordsParallel m.recordObjects).keep hstable).conseq (fun s h => ⟨trivial, h⟩)
    fun _ _ h => h) fun rs => ?_
  refine ret (Stable.and (fun s s' h hs => h.reads hs) hstable) fun s h => ?_
  obtain ⟨hreads, hat, hk⟩ := h
  exact ⟨hk, hat.le, hat.eq ▸ hreads⟩

end Calmly

end Fckdb
