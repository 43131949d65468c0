import Fckdb.ClearMoves

/-! # The moves of each call

Every request of every call is a `Move`, and each call ends with the manifests it says it wrote. With
rely-guarantee reasoning this holds in every interleaving: `Reaches.invariant` is induction over the
moves of a run. -/

namespace Fckdb

open Prog

variable [Crates] [HashOrder] {ok : Terms} {t : Nat} {call : Call} {α β : Type} {P R : Store → Prop}
  {Q : α → Store → Prop} {Q' : β → Store → Prop} {E : Store → Prop}

/-! ## Queries -/

/-- All steps of a program are calm. -/
abbrev IsCalm (ok : Terms) (t : Nat) (p : Proc α) : Prop :=
  Calmly ok t Store.Sound p fun _ _ => True

namespace IsCalm

omit [HashOrder] [Crates] in
theorem stable_sound : Stable (Rely t) Store.Sound := fun _ _ h => h.sound

theorem of_calmly {p : Proc α} (h : Calmly ok t P p Q) (hP : ∀ s : Store, s.Sound → P s) :
    IsCalm ok t p := by
  refine h.conseq hP ?_
  rintro (e | a) s -
  · trivial
  · trivial

theorem seq {p : Proc α} {f : α → Proc β} (h : IsCalm ok t p) (hf : ∀ a, IsCalm ok t (f a)) :
    IsCalm ok t (p.andThen f) :=
  Calmly.after stable_sound h (fun _ h => h) fun a => (hf a).conseq (fun _ h => h.2) fun _ _ h => h

theorem ret (a : α) : IsCalm ok t (Proc.ret a) := Calmly.ret stable_sound fun _ _ => trivial

theorem fail (e : Error) : IsCalm ok t (Proc.fail e : Proc α) := Calmly.fail

theorem ofExcept (r : Except Error α) : IsCalm ok t (Proc.ofExcept r) :=
  Calmly.ofExcept stable_sound fun _ _ _ _ => trivial

theorem tryJoinAll {ι : Type} {is : List ι} {body : ι → Proc α} (h : ∀ i, IsCalm ok t (body i)) :
    IsCalm ok t (Proc.tryJoinAll (is.map body)) :=
  of_calmly (Calmly.tryJoinAll (Q := fun _ _ _ => True) (fun _ _ => stable_true) fun i _ => h i)
    fun _ h => h

theorem readBlob (name : ObjectName) : IsCalm ok t (Fckdb.readBlob name) :=
  of_calmly (Calmly.readBlob name) fun _ _ => trivial

theorem readRecordsParallel (names : List ObjectName) :
    IsCalm ok t (Fckdb.readRecordsParallel names) :=
  of_calmly (Calmly.readRecordsParallel names) fun _ _ => trivial

theorem load (handle : Nat) : IsCalm ok t (Fckdb.load handle) :=
  of_calmly (Calmly.load handle 0) fun _ _ => Nat.zero_le _

theorem loadAttrIndexes (idx : IndexMeta) (f : Filter) :
    IsCalm ok t (Fckdb.loadAttrIndexes idx f) := by
  refine seq (tryJoinAll fun target => seq (readBlob _) fun b => ?_) fun _ => ret _
  cases b with
  | attr x => exact ret x
  | _ => exact fail _

theorem prefilterSelection (shard : Shard) (req : QueryRequest) (filter : Option Filter) :
    IsCalm ok t (Fckdb.prefilterSelection shard req filter) := by
  rw [Fckdb.prefilterSelection.eq_def]
  split
  · split_ifs
    · exact ret _
    · refine seq (loadAttrIndexes _ _) fun indexes => ?_
      split
      · exact ret _
      · split_ifs
        · exact ret _
        · exact ret _
  · exact ret _

theorem probedRecords (idx : IndexMeta) (req : QueryRequest) (metric : DistanceMetric) :
    IsCalm ok t (Fckdb.probedRecords idx req metric) := by
  rw [Fckdb.probedRecords]
  split_ifs
  · exact fail _
  · refine seq (seq (readBlob _) fun b => ?_) fun flat => seq (ofExcept _) fun centroids =>
      readRecordsParallel _
    cases b with
    | centroids flat => exact ret flat
    | _ => exact fail _

theorem shardHits (shard : Shard) (req : QueryRequest) (filter : Option Filter) (tail : List Record)
    (schema : Schema) : IsCalm ok t (Fckdb.shardHits shard req filter tail schema) := by
  refine seq (prefilterSelection shard req filter) fun sel => ?_
  cases sel with
  | some sel => exact seq (readRecordsParallel _) fun _ => ret _
  | none =>
      dsimp only
      split
      · exact seq (readRecordsParallel _) fun _ => ret _
      · exact seq (probedRecords _ _ _) fun _ => ret _

theorem aggregateShards {N : Type} [Numbers N] (filter : Option Filter) (schema : Schema)
    (tail : List Record) (number : Nat) (shards : List Shard) (a : Aggregator N) :
    IsCalm ok t (Fckdb.aggregateShards filter schema tail number shards a) := by
  induction shards generalizing number a with
  | nil => exact ret a
  | cons shard rest ih =>
      exact seq (readRecordsParallel _) fun _ => seq (ofExcept _) fun a => ih (number + 1) a

theorem aggregations {N : Type} [Numbers N] (req : QueryRequest) (filter : Option Filter)
    (m : Manifest) (tail : List Record) :
    IsCalm ok t (Fckdb.aggregations N req filter m tail) := by
  rw [Fckdb.aggregations]
  split
  · exact ret _
  · refine seq (ofExcept _) fun a => ?_
    dsimp only
    split_ifs
    · exact seq (ofExcept _) fun _ => ret _
    · exact seq (aggregateShards _ _ _ _ _ _) fun _ => ret _

theorem queryOn {N : Type} [Numbers N] (req : QueryRequest) (m : Manifest) (fromSnapshot : Bool) :
    IsCalm ok t (Fckdb.queryOn N req m fromSnapshot) := by
  refine seq (ofExcept _) fun filter => seq (ofExcept _) fun _ => seq (ofExcept _) fun entries =>
    seq (readRecordsParallel _) fun tail => seq (aggregations req filter m tail) fun aggs => ?_
  dsimp only
  split_ifs
  · exact ret _
  · exact seq (tryJoinAll fun _ => shardHits _ _ _ _ _) fun _ => ret _

theorem query {N : Type} [Numbers N] (handle : Nat) (req : QueryRequest) :
    IsCalm ok t (Fckdb.query N handle req) := by
  refine seq (seq ?_ fun cached => ?_) fun m => queryOn req _ _
  · rw [cachedManifest.eq_def]
    split
    · exact ret _
    · exact seq (of_calmly (Calmly.viewHandle handle).calmly fun _ h => h) fun _ => ret _
  · cases cached with
    | some m => exact ret _
    | none => exact seq (load handle) fun _ => ret _

end IsCalm

/-- A query writes nothing. -/
theorem Does.query {N : Type} [Numbers N] (handle : Nat) (req : QueryRequest) :
    Does ok t call (Idle t) (Fckdb.query N handle req) (fun _ s => Idle t s) (Idle t) := by
  refine (((IsCalm.query handle req).frame stable_idle fun _ _ h => h.rely t).weaken
    fun _ _ => Calm.guar).conseq (fun s h => ⟨h.1, h⟩) ?_
  rintro (e | a) s h
  · exact h.2
  · exact h.2

/-! ## Every call, in every interleaving -/

/-- **What a call has written when it returns**: an acknowledged commit one version, a failed one
none, a compaction at most versions of its own, and the other calls none. -/
def Returned (t : Nat) (call : Call) : Outcome → Store → Prop
  | .committed (.ok x), s => Committed t call.handle x.1 s
  | .committed (.error _), s => s.writtenBy t = []
  | .compacted _, s => Folded t s
  | .collected _, s => s.writtenBy t = []
  | .destroyed _, s => s.writtenBy t = []
  | .answered _, s => s.writtenBy t = []

/-- **The program of a call.** -/
theorem body_safe {s : Store} (h : Rely t {} s) :
    Safe (service.Answers ok t) (Rely t) (Guar ok t call) (Returned t call) (service.body call) s := by
  have hidle : Idle t s := stable_idle {} s h ⟨⟨fun _ _ h => (nomatch h), Nat.le_refl _⟩, rfl⟩
  have key {α : Type} {p : Proc α} {f : Except Error α → Outcome} {Q : α → Store → Prop}
      {E : Store → Prop} (hp : Does ok t call (Idle t) p Q E)
      (hf : ∀ r s, Ends Q E r s → Returned t call (f r) s) :
      Safe (service.Answers ok t) (Rely t) (Guar ok t call) (Returned t call)
        (Prog.bind p fun r => .done (f r)) s :=
    (hp s hidle).bind fun r s' hr s'' hs => hf r s'' (hr s'' hs)
  cases call with
  | commitRecords handle records config =>
      refine key (Does.commitLoop rfl handle maxCasAttempts 1 true) ?_
      rintro (e | a) s hs
      · exact hs.2
      · exact hs
  | commitBatch handle batch =>
      refine key (Does.commitLoop rfl handle maxCasAttempts 1 true) ?_
      rintro (e | a) s hs
      · exact hs.2
      · exact hs
  | compact handle buildIndex =>
      refine key (Does.compact rfl) ?_
      rintro (e | a) s hs
      · exact hs
      · exact hs
  | gc handle grace =>
      refine key (Does.gc rfl) ?_
      rintro (e | a) s hs
      · exact hs.2
      · exact hs.2
  | destroy handle =>
      refine key (Does.destroy rfl) ?_
      rintro (e | a) s hs
      · exact hs.2
      · exact hs.2
  | query handle req =>
      refine key (Does.query handle req) ?_
      rintro (e | a) s hs
      · exact hs.2
      · exact hs.2

omit [Crates] [HashOrder] in
/-- Time passing is within every rely. -/
theorem tick_rely {s s' : Store} {nanos : Nat} (h : s.tick nanos = some s') (u : Nat) : Rely u s s' := by
  cases h
  exact Grows.of_eq rfl List.prefix_rfl List.prefix_rfl (Nat.le_refl _) (le_max_left _ _) List.prefix_rfl
    (Nat.le_add_right _ _) rfl rfl

/-- **The contract of the calls.** -/
def contract (ok : Terms) : service.Contract ok {} where
  rely := Rely
  guar := Guar ok
  post t call := Returned t call
  refl _ s := .refl s
  trans _ _ _ _ := Grows.trans
  compat _ _ htu _ _ _ hg := hg.1.mono fun _ hv => hv ▸ htu
  env u _ _ _ _ hs := tick_rely hs u
  start _ _ _ _ hs := body_safe hs

section Runs

variable {p : Namespace} (h : Reaches ok p)
include h

/-- **In every interleaving, a call that returned has written what it says.** -/
theorem Reaches.returned {t : Nat} {th : Thread Request Request.Answer Call Outcome} {r : Outcome}
    (hth : p.threads[t]? = some th) (hr : th.prog = .done r) : Returned t th.call r p.shared := by
  have hsafe := ((contract ok).safe_of_reachable h).2 t th hth
  rw [hr] at hsafe
  exact hsafe p.shared (.refl _)

omit h in
/-- **What a step of the pool is**: a request of a thread, which is a move of its call, or the passing of
time, if any. -/
theorem Reaches.step_guar (h : Reaches ok p) {a : Act} {p' : Namespace} (hok : ok.Meets p a)
    (hs : service.step p a = some p') :
    (∃ t c call op next x, a = .run t c ∧ p.threads[t]? = some ⟨call, .ask op next⟩ ∧
      p.shared.exec t op c = some (p'.shared, x) ∧ Guar ok t call p.shared p'.shared) ∨
      ∃ nanos, p'.shared = { p.shared with clock := p.shared.clock + nanos } := by
  cases a with
  | spawn call =>
      obtain rfl := Option.some.inj hs
      exact .inr ⟨0, rfl⟩
  | run t c =>
      obtain ⟨⟨call, prog⟩, op, next, s', x, hth, hprog, hx, rfl⟩ := service.step_run_cases hs
      dsimp only at hprog
      subst hprog
      have hsafe := ((contract ok).safe_of_reachable h).2 t _ hth
      have hg := (hsafe p.shared (.refl _) s' x ⟨hok _ op next hth rfl, c, hx⟩).1
      exact .inl ⟨t, c, call, op, next, x, rfl, hth, hx, hg⟩
  | env nanos =>
      obtain rfl := Option.some.inj hs
      exact .inr ⟨nanos, rfl⟩

omit h in
/-- Every step grows the store. -/
theorem Reaches.grows_step (h : Reaches ok p) {a : Act} {p' : Namespace} (hok : ok.Meets p a)
    (hs : service.step p a = some p') : Grows (fun _ => True) p.shared p'.shared := by
  rcases h.step_guar hok hs with ⟨t, c, call, op, next, x, -, -, -, hg⟩ | ⟨nanos, heq⟩
  · exact hg.1.mono fun _ _ => trivial
  · exact heq ▸ (tick_rely rfl 0).mono fun _ _ => trivial

/-- **Invariants of the pool**: what calls, moves and the passing of time keep. -/
theorem Reaches.invariant {I : Namespace → Prop} (hinit : I ⟨{}, []⟩)
    (hcall : ∀ p call, ok.call call → I p → I { p with threads := p.threads ++ [⟨call, call.body⟩] })
    (hmove : ∀ p t th prog s', p.threads[t]? = some th → Guar ok t th.call p.shared s' → I p →
      I ⟨s', p.threads.set t { th with prog }⟩)
    (htick : ∀ p nanos, I p → I { p with shared.clock := p.shared.clock + nanos }) : I p := by
  refine (contract ok).pool_invariant hinit hcall hmove (fun p e s' _ hs hI => ?_) h
  cases hs
  exact htick p e hI

/-- **Invariants of the store**: what moves and the passing of time keep. -/
theorem Reaches.store_invariant {J : Store → Prop} (hinit : J {})
    (hmove : ∀ t call s s', ok.call call → Guar ok t call s s' → J s → J s')
    (htick : ∀ s nanos, J s → J { s with clock := s.clock + nanos }) : J p.shared := by
  -- the calls of the threads meet their condition along the run
  refine (h.invariant (I := fun p => J p.shared ∧ ∀ th ∈ p.threads, ok.call th.call) ⟨hinit, nofun⟩
    ?_ ?_ fun p nanos hI => ⟨htick _ _ hI.1, hI.2⟩).1
  · rintro p call hok ⟨hJ, hcalls⟩
    refine ⟨hJ, fun th hth => ?_⟩
    rcases List.mem_append.mp hth with hth | hth
    · exact hcalls th hth
    · obtain rfl := List.mem_singleton.mp hth
      exact hok
  · rintro p t th prog s' hth hg ⟨hJ, hcalls⟩
    have hok := hcalls th (List.mem_of_getElem? hth)
    refine ⟨hmove t th.call _ s' hok hg hJ, fun th' hth' => ?_⟩
    rcases List.mem_or_eq_of_mem_set hth' with hmem | rfl
    · exact hcalls th' hmem
    · exact hok

/-- The handles remember manifests of the history. -/
theorem Reaches.sound : p.shared.Sound := by
  refine h.store_invariant ⟨nofun, Nat.le_refl _⟩ (fun t call s s' _ hg hs => hg.1.sound hs) ?_
  exact fun s nanos hs => (tick_rely rfl 0).sound hs

omit [Crates] [HashOrder] h in
theorem Store.written_of_object {s : Store} {name : ObjectName} {put : Put}
    (h : s.object name = some put) : s.written name = some put := by
  rw [Store.object] at h
  split_ifs at h
  exact h

/-- **Only what was written is listed and deleted.** -/
theorem Reaches.gone_written {name : ObjectName} (hname : name ∈ p.shared.deleted ∨ name ∈ p.shared.listed) :
    ∃ put, p.shared.written name = some put := by
  refine h.store_invariant (J := fun s => ∀ name, name ∈ s.deleted ∨ name ∈ s.listed →
    ∃ put, s.written name = some put) (by simp) (fun t call s s' _ hg hs name hname => ?_)
    (fun s nanos hs name hname => hs name hname) name hname
  have hold (hname : name ∈ s.deleted ∨ name ∈ s.listed) : ∃ put, s'.written name = some put := by
    obtain ⟨put, hput⟩ := hs name hname
    exact ⟨put, hg.1.written hput⟩
  cases hg.2 with
  | calm _ hdel _ hlist => exact hold (hdel ▸ hlist ▸ hname)
  | commit _ _ _ _ _ _ _ _ _ _ _ _ result =>
      subst result
      exact hold hname
  | install _ _ _ _ _ _ _ _ _ _ _ _ _ _ _ _ _ _ _ _ result =>
      subst result
      exact hold hname
  | delete _ _ _ _ _ name' p' _ _ _ _ _ stored _ result =>
      subst result
      rcases hname with hdel | hlist
      · rcases List.mem_append.mp hdel with hdel | hdel
        · exact hold (.inl hdel)
        · exact ⟨p', List.mem_singleton.mp hdel ▸ stored⟩
      · exact hold (.inr hlist)
  | drop _ _ _ result =>
      subst result
      exact hold hname
  | list _ name' _ _ there result =>
      subst result
      rcases hname with hdel | hlist
      · exact hold (.inl hdel)
      · rcases List.mem_append.mp hlist with hlist | hlist
        · exact hold (.inr hlist)
        · obtain ⟨put, hput⟩ := Option.isSome_iff_exists.mp there
          have hput' : s.written name' = some put := Store.written_of_object hput
          exact ⟨put, List.mem_singleton.mp hlist ▸ hput'⟩
  | wipe _ name' _ listed result =>
      subst result
      rcases hname with hdel | hlist
      · rcases List.mem_append.mp hdel with hdel | hdel
        · exact hold (.inl hdel)
        · exact hold (.inr (List.mem_singleton.mp hdel ▸ listed))
      · exact hold (.inr hlist)

end Runs

end Fckdb
