import Fckdb.GroupCommit
import Fckdb.SchemaFrame

/-! # What a committer does

The queue is first in, first out, and every record in it is committed with one batch and gets the reply
of that batch (`Tidy`). The batches are committed one after the other, in the order of the queue
(`InTurn`). -/

namespace Fckdb

/-! ## What threads write -/

/-- What a schema may make of a record. -/
def Record.AbsorbedAs [Crates] (r r' : Record) : Prop :=
  ∃ s s' : Schema, s.absorbRecord r = .ok (s', r')

/-- A batch is absorbed record by record. -/
theorem Schema.absorb_forall₂ [Crates] {s s' : Schema} {rs rs' : List Record}
    (h : s.absorb rs = .ok (s', rs')) : List.Forall₂ Record.AbsorbedAs rs rs' := by
  induction rs generalizing s rs' with
  | nil =>
      cases h
      exact .nil
  | cons r rs ih =>
      obtain ⟨⟨s₁, r₁⟩, h₁, h⟩ := bind_eq_ok.mp h
      obtain ⟨⟨s₂, rs₂⟩, h₂, h⟩ := bind_eq_ok.mp h
      cases h
      exact .cons ⟨s, s₁, h₁⟩ (ih h₂)

section Threads

variable [Crates] [HashOrder] {ok : Terms} {p : Namespace}

omit [HashOrder] in
/-- A move writes no version, or the first one of its thread. -/
theorem Move.versions {t : Nat} {call : Call} {s s' : Store} (h : Move ok t call s s') :
    s'.versions = s.versions ∨ s.writtenBy t = [] ∧ ∃ v, v.thread = t ∧ s' = s.push v ∧
      (∀ c, v.commit? = some c → s.HasRecords (.wal c.entry.name) c.batch) ∧
      ∀ batch, v.reason = .commit batch → ∃ prepare, call.prepare = some prepare ∧
        prepare s.manifest = .ok (v.manifest.schema, batch) := by
  cases h with
  | calm hv => exact .inl hv
  | commit prepare schema batch uuid now mode asked prepared stored first allowed admitted result =>
      refine .inr ⟨first, _, rfl, result, fun c hc => ?_, fun b hb => ?_⟩
      · rw [Version.commit?, Manifest.push_wal, List.getLast?_concat] at hc
        cases hc
        exact stored.hasRecords
      · cases hb
        exact ⟨prepare, asked, prepared⟩
  | install handle buildIndex base read m records shards now mode asked based later known documents
      built distinct same first allowed admitted result =>
      refine .inr ⟨first, _, rfl, result, fun c hc => ?_, fun batch hb => ?_⟩
      · cases hc
      · cases hb
  | delete _ _ _ _ _ _ _ _ _ _ _ _ _ _ result => exact .inl (by rw [result])
  | drop _ _ _ result => exact .inl (by rw [result])
  | list _ _ _ _ _ result => exact .inl (by rw [result])
  | wipe _ _ _ _ result => exact .inl (by rw [result])

/-- Every version was written by a thread, a thread writes at most one, and a commit's is what its call
made of a manifest, with its batch in the store. -/
structure Namespace.Authored (p : Namespace) : Prop where
  spawned : ∀ v ∈ p.shared.versions, v.thread < p.threads.length
  once : ∀ t, (p.shared.writtenBy t).length ≤ 1
  stored : ∀ c ∈ p.shared.commits, p.shared.HasRecords (.wal c.entry.name) c.batch
  prepared : ∀ v ∈ p.shared.versions, ∀ batch, v.reason = .commit batch →
    ∃ th prepare m, p.threads[v.thread]? = some th ∧ th.call.prepare = some prepare ∧
      prepare m = .ok (v.manifest.schema, batch)

theorem Reaches.authored (h : Reaches ok p) : p.Authored := by
  refine h.invariant ⟨List.forall_mem_nil _, fun _ => Nat.zero_le _, List.forall_mem_nil _,
    List.forall_mem_nil _⟩ (fun p call _ hp => ?_)
    (fun p t th prog s' hth hg hp => ?_) fun p nanos hp => ⟨hp.spawned, hp.once, hp.stored, hp.prepared⟩
  · refine ⟨fun v hv => ?_, hp.once, hp.stored, fun v hv batch hb => ?_⟩
    · rw [List.length_append]
      exact (hp.spawned v hv).trans_le (Nat.le_add_right _ _)
    · obtain ⟨th, hth⟩ := hp.prepared v hv batch hb
      exact ⟨th, (List.getElem?_append_left (hp.spawned v hv)).symm ▸ hth⟩
  · obtain ⟨hlt, -⟩ := List.getElem?_eq_some_iff.mp hth
    -- a step of a thread leaves the calls alone
    have hkeep : ∀ (u : Nat) (thu : Thread Request Request.Answer Call Outcome),
        p.threads[u]? = some thu →
        ∃ thu', (p.threads.set t { th with prog })[u]? = some thu' ∧ thu'.call = thu.call := by
      intro u thu hu
      by_cases hut : t = u
      · subst hut
        obtain rfl := Option.some.inj (hth.symm.trans hu)
        exact ⟨_, List.getElem?_set_self hlt, rfl⟩
      · exact ⟨thu, (List.getElem?_set_ne hut).trans hu, rfl⟩
    have hold : ∀ v ∈ p.shared.versions, ∀ batch, v.reason = .commit batch →
        ∃ th' prepare m, (p.threads.set t { th with prog })[v.thread]? = some th' ∧
          th'.call.prepare = some prepare ∧ prepare m = .ok (v.manifest.schema, batch) := by
      intro v hv batch hb
      obtain ⟨thu, prepare, m, hu, hprep⟩ := hp.prepared v hv batch hb
      obtain ⟨thu', hu', hcall⟩ := hkeep _ _ hu
      exact ⟨thu', prepare, m, hu', hcall ▸ hprep⟩
    have hgrows := hg.1
    rcases hg.2.versions with heq | ⟨hfirst, v, hv, rfl, hstored, hprep⟩
    · refine ⟨fun v hv => ?_, fun u => ?_, fun c hc => ?_, fun v hv => hold v (heq ▸ hv)⟩
      · rw [List.length_set]
        exact hp.spawned v (heq ▸ hv)
      · have := hp.once u
        rwa [Store.writtenBy, heq]
      · rw [Store.commits, heq] at hc
        exact hgrows.hasRecords (hp.stored c hc)
    · refine ⟨fun v' hv' => ?_, fun u => ?_, fun c hc => hgrows.hasRecords ?_, fun v' hv' batch hb => ?_⟩
      · rw [List.length_set]
        rcases List.mem_append.mp hv' with hv' | hv'
        · exact hp.spawned v' hv'
        · exact (List.mem_singleton.mp hv' ▸ hv) ▸ hlt
      · by_cases hut : v.thread = u
        · rw [← hut, Store.writtenBy_push, hv, hfirst]
          exact Nat.le_refl 1
        · have hnone : [v].filter (fun v => v.thread = u) = [] := by simp [hut]
          have hold := hp.once u
          rwa [Store.writtenBy, Store.push, List.filter_append, hnone, List.append_nil]
      · obtain ⟨v', hv', hcv⟩ := List.mem_filterMap.mp hc
        rcases List.mem_append.mp hv' with hv' | hv'
        · exact hp.stored c (List.mem_filterMap.mpr ⟨v', hv', hcv⟩)
        · exact hstored c (List.mem_singleton.mp hv' ▸ hcv)
      · rcases List.mem_append.mp hv' with hv' | hv'
        · exact hold v' hv' batch hb
        · obtain rfl := List.mem_singleton.mp hv'
          obtain ⟨prepare, hask, hok⟩ := hprep batch hb
          obtain ⟨thu', hu', hcall⟩ := hkeep _ _ hth
          exact ⟨thu', prepare, _, hv ▸ hu', hcall ▸ hask, hok⟩

omit [Crates] [HashOrder] in
/-- Only an admitted PUT writes a version. -/
theorem Store.exec_push {t : Nat} {s : Store} {v : Version} {r : Request} {c : Choice} {x : r.Answer}
    (h : s.exec t r c = some (s.push v, x)) :
    ∃ mode, r = .putManifest v.manifest mode v.reason ∧ s.admits mode = true := by
  have hlen {s' : Store} {y : r.Answer} (hs : s.exec t r c = some (s', y))
      (hsame : s'.versions = s.versions) : False := by
    obtain ⟨rfl, -⟩ := Prod.mk.inj (Option.some.inj (hs.symm.trans h))
    exact absurd (congrArg List.length hsame) (by simp [Store.push])
  cases r with
  | putManifest m mode reason =>
      cases c with
      | go =>
          have hx : (if s.admits mode = true then
              some (s.push ⟨m, t, reason, s.clock⟩, Except.ok (some s.versions.length))
              else some (s, .ok none)) = some (s.push v, x) := h
          split_ifs at hx with hadm
          · obtain ⟨hs, -⟩ := Prod.mk.inj (Option.some.inj hx)
            obtain ⟨-, hv⟩ := List.append_inj (congrArg Store.versions hs) rfl
            obtain rfl := List.singleton_inj.mp hv
            exact ⟨mode, rfl, hadm⟩
          · exact (hlen (y := .ok none) (if_neg hadm) rfl).elim
      | fail msg => exact (hlen rfl rfl).elim
      | _ => cases h
  | _ =>
      refine (hlen h ?_).elim
      cases c <;> rw [exec.eq_def] at h <;> dsimp only at h <;> (repeat' split at h) <;>
        first | cases h | exact (congrArg (fun r => r.1.versions) (Option.some.inj h)).symm

/-- A step of a namespace writes no version, or one that a thread which has not finished PUT. -/
theorem Reaches.step_versions (h : Reaches ok p) {a : Act} {p' : Namespace} (hok : ok.Meets p a)
    (hs : service.step p a = some p') : p'.shared.versions = p.shared.versions ∨
      ∃ t c v call mode next, a = .run t c ∧
        p.threads[t]? = some ⟨call, .ask (.putManifest v.manifest mode v.reason) next⟩ ∧
        p.shared.admits mode = true ∧ v.thread = t ∧ p'.shared = p.shared.push v ∧
        ∀ batch, v.reason = .commit batch → ∃ prepare, call.prepare = some prepare ∧
          prepare p.shared.manifest = .ok (v.manifest.schema, batch) := by
  rcases h.step_guar hok hs with ⟨t, c, call, op, next, x, rfl, hth, hx, hg⟩ | ⟨nanos, heq⟩
  · refine hg.2.versions.imp_right fun ⟨_, v, hv, hpush, _, hprep⟩ => ?_
    rw [hpush] at hx
    obtain ⟨mode, rfl, hadm⟩ := Store.exec_push hx
    exact ⟨t, c, v, call, mode, next, rfl, hth, hadm, hv, hpush, hprep⟩
  · exact .inl (by rw [heq])

end Threads

/-! ## The queue -/

/-- The records drained so far. -/
def Committer.held : Committer → List Req
  | .draining waiters => waiters
  | _ => []

/-- The records whose commit has begun, with its thread, that were not replied to. -/
def Committer.pending : Committer → List (Nat × Req)
  | .committing waiters t => waiters.map (t, ·)
  | .replying waiters t _ => waiters.map (t, ·)
  | _ => []

namespace GroupCommit

/-- The records sent so far, in order: committed, drained, and queued. -/
def items (g : GroupCommit) : List Req :=
  g.batches.flatMap (·.2) ++ g.committer.held ++ g.queue

/-- The records whose commit has begun, in order, with its thread. -/
def assigned (g : GroupCommit) : List (Nat × Req) :=
  g.batches.flatMap fun b => b.2.map fun w => (b.1, w)

/-- What is being committed is the last batch, and what is replied with is its result. -/
def Busy (g : GroupCommit) : Prop :=
  match g.committer with
  | .committing waiters t => ∃ batches, g.batches = batches ++ [(t, waiters)]
  | .replying _ t r => g.space.commitReply t = some r
  | _ => True

/-- **The queue is first in, first out**, every batch is one commit, and replies pair its result with
its records. -/
structure Tidy (g : GroupCommit) : Prop where
  queued : g.items.map (·.ticket) = List.range g.sent
  calls : ∀ b ∈ g.batches, ∃ th : Thread Request Request.Answer Call Outcome,
    g.space.threads[b.1]? = some th ∧
      th.call = .commitRecords g.handle (b.2.map (·.record)) (batchConfig b.2)
  inTurn : (g.batches.map (·.1)).Pairwise (· < ·)
  paid : ∃ done, g.assigned = done ++ g.committer.pending ∧
    List.Forall₂ (fun a r => a.2.ticket = r.1 ∧ g.space.commitReply a.1 = some r.2) done g.replies
  ended : ∀ b ∈ g.batches, (g.space.commitReply b.1).isSome ∨ g.committer = .committing b.2 b.1
  busy : g.Busy

end GroupCommit

section Steps

variable [Crates] [HashOrder]

omit [Crates] [HashOrder] in
theorem Namespace.commitReply_eq_some {p : Namespace} {t : Nat} {r : Except Flat Nat}
    (h : p.commitReply t = some r) :
    ∃ call res, p.threads[t]? = some ⟨call, .done (.committed res)⟩ ∧ r = Fckdb.commitReply res := by
  rw [commitReply] at h
  split at h
  · next call res hth => exact ⟨call, res, hth, (Option.some.inj h).symm⟩
  · cases h

/-- A commit that has returned stays returned. -/
theorem Namespace.commitReply_step {p p' : Namespace} {a : Act} (h : service.step p a = some p')
    {t : Nat} {r : Except Flat Nat} (hr : p.commitReply t = some r) : p'.commitReply t = some r := by
  obtain ⟨call, res, hth, rfl⟩ := commitReply_eq_some hr
  obtain ⟨th', hth', -, hdone⟩ := service.step_thread h hth
  obtain ⟨call', prog'⟩ := th'
  obtain rfl : prog' = _ := hdone _ rfl
  rw [commitReply, hth']

namespace GroupCommit

variable {g g' : GroupCommit} {a : GroupAction}

omit [Crates] [HashOrder] in
theorem Tidy.start (handle : Nat) (p : Namespace) : (start handle p).Tidy :=
  ⟨rfl, nofun, .nil, ⟨[], rfl, .nil⟩, nofun, trivial⟩

/-- **A step of the namespace.** -/
theorem Tidy.run (h : g.Tidy) {a : Act} {p : Namespace} (hs : service.step g.space a = some p) :
    Tidy { g with space := p } := by
  refine ⟨h.queued, fun b hb => ?_, h.inTurn, ?_, fun b hb => ?_, ?_⟩
  · obtain ⟨th, hth, hcall⟩ := h.calls b hb
    obtain ⟨th', hth', hcall', -⟩ := service.step_thread hs hth
    exact ⟨th', hth', hcall'.trans hcall⟩
  · obtain ⟨done, heq, hpaid⟩ := h.paid
    exact ⟨done, heq, hpaid.imp fun _ _ hr => ⟨hr.1, Namespace.commitReply_step hs hr.2⟩⟩
  · refine (h.ended b hb).imp_left fun hsome => ?_
    obtain ⟨r, hr⟩ := Option.isSome_iff_exists.mp hsome
    exact Option.isSome_iff_exists.mpr ⟨r, Namespace.commitReply_step hs hr⟩
  · have hbusy := h.busy
    rw [Busy] at hbusy ⊢
    dsimp only
    split at hbusy
    · exact hbusy
    · exact Namespace.commitReply_step hs hbusy
    · trivial

omit [Crates] [HashOrder] in
/-- While none is being committed, all batches have returned. -/
theorem Tidy.all_ended (h : g.Tidy) (hc : ∀ waiters t, g.committer ≠ .committing waiters t) :
    ∀ b ∈ g.batches, (g.space.commitReply b.1).isSome :=
  fun b hb => (h.ended b hb).resolve_right (hc _ _)

/-- **What a step of a group is.** -/
inductive Stepped (g : GroupCommit) : GroupAction → GroupCommit → Prop
  | write (records : List Record) (config : WriteConfig) :
      Stepped g (.write records config) { g with writers := g.writers ++ [{ records, config }] }
  | send (i : Nat) (w : Writer) (record : Record) (hw : g.writers[i]? = some w)
      (hr : w.records[w.waits.length]? = some record) :
      Stepped g (.send i) { g with
        writers := g.writers.set i { w with waits := w.waits ++ [g.sent] }
        sent := g.sent + 1
        queue := g.queue ++ [⟨record, w.config, g.sent⟩] }
  | receive (first : Req) (rest : List Req) (hc : g.committer = .idle)
      (hq : g.queue = first :: rest) :
      Stepped g .receive { g with queue := rest, committer := .draining [first] }
  | drain (waiters : List Req) (item : Req) (rest : List Req) (hc : g.committer = .draining waiters)
      (hq : g.queue = item :: rest) (hroom : room waiters = true) :
      Stepped g .receive { g with queue := rest, committer := .draining (waiters ++ [item]) }
  | commit (waiters : List Req) (space : Namespace) (hc : g.committer = .draining waiters)
      (hfull : room waiters = false ∨ g.queue = [])
      (hs : service.step g.space (.spawn (.commitRecords g.handle (waiters.map (·.record))
        (batchConfig waiters))) = some space) :
      Stepped g .commit { g with
        space
        committer := .committing waiters g.space.threads.length
        batches := g.batches ++ [(g.space.threads.length, waiters)] }
  | run (a : Act) (space : Namespace) (hs : service.step g.space a = some space) :
      Stepped g (.run a) { g with space }
  | finish (waiters : List Req) (t : Nat) (r : Except Flat Nat)
      (hc : g.committer = .committing waiters t) (hr : g.space.commitReply t = some r) :
      Stepped g .finish { g with committer := .replying waiters t r }
  | reply (w : Req) (rest : List Req) (t : Nat) (r : Except Flat Nat)
      (hc : g.committer = .replying (w :: rest) t r) :
      Stepped g .reply { g with
        committer := .replying rest t r, replies := g.replies ++ [(w.ticket, r)] }
  | rest (t : Nat) (r : Except Flat Nat) (hc : g.committer = .replying [] t r) :
      Stepped g .reply { g with committer := .idle }

theorem stepped (hs : g.step a = some g') : g.Stepped a g' := by
  cases a with
  | write records config =>
      cases hs
      exact .write records config
  | send i =>
      simp only [GroupCommit.step] at hs
      split at hs
      · cases hs
      next w hw =>
      split at hs
      · cases hs
      next record hr =>
      cases hs
      exact .send i w record hw hr
  | receive =>
      simp only [GroupCommit.step] at hs
      split at hs
      · next first rest hc hq =>
        cases hs
        exact .receive first rest hc hq
      · next waiters item rest hc hq =>
        split_ifs at hs with hroom
        cases hs
        exact .drain waiters item rest hc hq hroom
      · cases hs
  | commit =>
      simp only [GroupCommit.step] at hs
      split at hs
      · next waiters hc =>
        split_ifs at hs with hfull
        cases hs
        refine .commit waiters _ hc ?_ rfl
        rw [Bool.and_eq_true, not_and_or, Bool.not_eq_true] at hfull
        refine hfull.imp_right fun hq => ?_
        rw [Bool.not_eq_true', Bool.not_eq_false, List.isEmpty_iff] at hq
        exact hq
      · cases hs
  | run a =>
      obtain ⟨space, hspace, rfl⟩ := Option.map_eq_some_iff.mp hs
      exact .run a space hspace
  | finish =>
      simp only [GroupCommit.step] at hs
      split at hs
      · next waiters t hc =>
        obtain ⟨r, hr, rfl⟩ := Option.map_eq_some_iff.mp hs
        exact .finish waiters t r hc hr
      · cases hs
  | reply =>
      simp only [GroupCommit.step] at hs
      split at hs
      · next t r hc =>
        cases hs
        exact .rest t r hc
      · next w rest t r hc =>
        cases hs
        exact .reply w rest t r hc
      · cases hs

/-- Only sending adds to what was sent. -/
theorem Stepped.items (hs : g.Stepped a g') :
    (g'.items = g.items ∧ g'.sent = g.sent ∧ ∀ w ∈ g'.writers, w ∈ g.writers ∨ w.waits = []) ∨
    ∃ i w record, g.writers[i]? = some w ∧ w.records[w.waits.length]? = some record ∧
      g'.writers = g.writers.set i { w with waits := w.waits ++ [g.sent] } ∧
      g'.items = g.items ++ [⟨record, w.config, g.sent⟩] ∧ g'.sent = g.sent + 1 := by
  cases hs with
  | send i w record hw hr =>
      exact .inr ⟨i, w, record, hw, hr, rfl, (List.append_assoc _ _ _).symm, rfl⟩
  | write records config =>
      refine .inl ⟨rfl, rfl, fun w hw => ?_⟩
      exact (List.mem_append.mp hw).imp_right fun hw => congrArg Writer.waits (List.mem_singleton.mp hw)
  | receive first rest hc hq => exact .inl ⟨by simp [GroupCommit.items, hc, hq, Committer.held], rfl, fun _ => .inl⟩
  | drain waiters item rest hc hq _ =>
      exact .inl ⟨by simp [GroupCommit.items, hc, hq, Committer.held], rfl, fun _ => .inl⟩
  | commit waiters space hc _ _ => exact .inl ⟨by simp [GroupCommit.items, hc, Committer.held], rfl, fun _ => .inl⟩
  | run a space _ => exact .inl ⟨rfl, rfl, fun _ => .inl⟩
  | finish waiters t r hc _ => exact .inl ⟨by simp [GroupCommit.items, hc, Committer.held], rfl, fun _ => .inl⟩
  | reply w rest t r hc => exact .inl ⟨by simp [GroupCommit.items, hc, Committer.held], rfl, fun _ => .inl⟩
  | rest t r hc => exact .inl ⟨by simp [GroupCommit.items, hc, Committer.held], rfl, fun _ => .inl⟩

/-- Every record has the ticket that counts those sent before it. -/
theorem Tidy.queued_step (h : g.Tidy) (hs : g.Stepped a g') :
    g'.items.map (·.ticket) = List.range g'.sent := by
  rcases hs.items with ⟨hitems, hsent, -⟩ | ⟨i, w, record, -, -, -, hitems, hsent⟩
  · rw [hitems, hsent, h.queued]
  · rw [hitems, hsent, List.range_succ, ← h.queued, List.map_append]
    rfl

theorem Tidy.step (h : g.Tidy) (hs : g.Stepped a g') : g'.Tidy := by
  have hqueued := h.queued_step hs
  cases hs with
  | write records config => exact ⟨hqueued, h.calls, h.inTurn, h.paid, h.ended, h.busy⟩
  | send i w record hw hr =>
      exact ⟨hqueued, h.calls, h.inTurn, h.paid, h.ended, h.busy⟩
  | receive first rest hc hq =>
      have hpaid := h.paid
      rw [hc] at hpaid
      exact ⟨hqueued, h.calls, h.inTurn, hpaid,
        fun b hb => .inl (h.all_ended (by simp [hc]) b hb), trivial⟩
  | drain waiters item rest hc hq hroom =>
      have hpaid := h.paid
      rw [hc] at hpaid
      exact ⟨hqueued, h.calls, h.inTurn, hpaid,
        fun b hb => .inl (h.all_ended (by simp [hc]) b hb), trivial⟩
  | run a space hs => exact h.run hs
  | commit waiters space hc hfull hs =>
      have hrun := h.run hs
      have hidle := hrun.all_ended (show ∀ waiters t, g.committer ≠ .committing waiters t by simp [hc])
      obtain rfl := Option.some.inj hs
      refine ⟨hqueued, fun b hb => ?_, ?_, ?_, fun b hb => ?_, ⟨_, rfl⟩⟩
      · rcases List.mem_append.mp hb with hb | hb
        · exact hrun.calls b hb
        · obtain rfl := List.mem_singleton.mp hb
          exact ⟨_, List.getElem?_concat_length, rfl⟩
      · -- the new thread is the last one
        rw [List.map_append, List.pairwise_append]
        refine ⟨h.inTurn, List.pairwise_singleton _ _, fun t ht u hu => ?_⟩
        obtain ⟨b, hb, rfl⟩ := List.mem_map.mp ht
        obtain rfl := List.mem_singleton.mp hu
        obtain ⟨th, hth, -⟩ := h.calls b hb
        exact (List.getElem?_eq_some_iff.mp hth).1
      · obtain ⟨done, heq, hpaid⟩ := hrun.paid
        refine ⟨done, ?_, hpaid⟩
        rw [show Committer.pending _ = [] from congrArg Committer.pending hc, List.append_nil] at heq
        simp [assigned, Committer.pending] at heq ⊢
        exact heq
      · rcases List.mem_append.mp hb with hb | hb
        · exact .inl (hidle b hb)
        · obtain rfl := List.mem_singleton.mp hb
          exact .inr rfl
  | finish waiters t r hc hr =>
      have hpaid := h.paid
      rw [hc] at hpaid
      refine ⟨hqueued, h.calls, h.inTurn, hpaid, fun b hb => .inl ?_, hr⟩
      · rcases h.ended b hb with hsome | hcom
        · exact hsome
        · obtain ⟨-, ht⟩ := Committer.committing.inj (hc.symm.trans hcom)
          exact ht ▸ Option.isSome_iff_exists.mpr ⟨r, hr⟩
  | reply w rest t r hc =>
      have hbusy : g.space.commitReply t = some r := by
        have hbusy := h.busy
        rwa [Busy, hc] at hbusy
      refine ⟨hqueued, h.calls, h.inTurn, ?_,
        fun b hb => .inl (h.all_ended (by simp [hc]) b hb), hbusy⟩
      obtain ⟨done, heq, hpaid⟩ := h.paid
      refine ⟨done ++ [(t, w)], ?_, List.rel_append hpaid (.cons ⟨rfl, hbusy⟩ .nil)⟩
      rw [hc] at heq
      simpa [assigned, Committer.pending] using heq
  | rest t r hc =>
      obtain ⟨done, heq, hpaid⟩ := h.paid
      rw [hc] at heq
      exact ⟨hqueued, h.calls, h.inTurn, ⟨done, heq, hpaid⟩,
        fun b hb => .inl (h.all_ended (by simp [hc]) b hb), trivial⟩

/-! ## Writers -/

omit [Crates] [HashOrder] in
/-- A ticket is that of one record. -/
theorem Tidy.ticket_inj (h : g.Tidy) {q q' : Req} (hq : q ∈ g.items) (hq' : q' ∈ g.items)
    (heq : q.ticket = q'.ticket) : q = q' := by
  have hnodup : (g.items.map (·.ticket)).Nodup := h.queued ▸ List.nodup_range
  exact List.inj_on_of_nodup_map hnodup hq hq' heq

omit [Crates] [HashOrder] in
/-- The records of batches were sent. -/
theorem mem_items {b : Nat × List Req} {q : Req} (hb : b ∈ g.batches) (hq : q ∈ b.2) : q ∈ g.items :=
  List.mem_append_left _ (List.mem_append_left _ (List.mem_flatMap.mpr ⟨b, hb, hq⟩))

omit [Crates] [HashOrder] in
/-- A writer waits on the channels of its first records, in order. -/
structure Waits (items : List Req) (w : Writer) : Prop where
  le : w.waits.length ≤ w.records.length
  increasing : w.waits.Pairwise (· < ·)
  sent : ∀ (n ticket : Nat), w.waits[n]? = some ticket →
    ∃ q ∈ items, q.ticket = ticket ∧ w.records[n]? = some q.record ∧ q.config = w.config

omit [Crates] [HashOrder] in
theorem Waits.mono {items items' : List Req} {w : Writer} (h : Waits items w)
    (hsub : items ⊆ items') : Waits items' w := by
  refine ⟨h.le, h.increasing, fun n ticket hn => ?_⟩
  obtain ⟨q, hq, hrest⟩ := h.sent n ticket hn
  exact ⟨q, hsub hq, hrest⟩

omit [Crates] [HashOrder] in
theorem Tidy.ticket_lt (h : g.Tidy) {q : Req} (hq : q ∈ g.items) : q.ticket < g.sent :=
  List.mem_range.mp (h.queued ▸ List.mem_map_of_mem hq)

/-- **A step of a group keeps the writers waiting.** -/
theorem Tidy.waits_step (h : g.Tidy) (hw : ∀ w ∈ g.writers, Waits g.items w)
    (hs : g.Stepped a g') : ∀ w ∈ g'.writers, Waits g'.items w := by
  rcases hs.items with ⟨hitems, -, hwriters⟩ | ⟨i, w, record, hi, hr, hwriters, hitems, -⟩
  · intro w' hw'
    rw [hitems]
    rcases hwriters w' hw' with hw' | hnil
    · exact hw w' hw'
    · -- it has sent nothing
      refine ⟨?_, ?_, fun n ticket hn => ?_⟩
      · rw [hnil]
        exact Nat.zero_le _
      · rw [hnil]
        exact .nil
      · rw [hnil] at hn
        cases hn
  · intro w' hw'
    rw [hitems]
    rw [hwriters] at hw'
    have hold := hw w (List.mem_of_getElem? hi)
    rcases List.mem_or_eq_of_mem_set hw' with hw' | rfl
    · exact (hw w' hw').mono (List.subset_append_left _ _)
    · obtain ⟨hlt, -⟩ := List.getElem?_eq_some_iff.mp hr
      refine ⟨?_, ?_, fun n ticket hn => ?_⟩
      · rw [List.length_append]
        exact hlt
      · refine List.pairwise_append.mpr ⟨hold.increasing, List.pairwise_singleton _ _, ?_⟩
        intro k hk k' hk'
        obtain ⟨n, hn⟩ := List.mem_iff_getElem?.mp hk
        obtain ⟨q, hq, rfl, -⟩ := hold.sent n k hn
        exact List.mem_singleton.mp hk' ▸ h.ticket_lt hq
      · rcases Nat.lt_trichotomy n w.waits.length with hlt' | rfl | hgt
        · rw [List.getElem?_append_left hlt'] at hn
          obtain ⟨q, hq, hrest⟩ := hold.sent n ticket hn
          exact ⟨q, List.mem_append_left _ hq, hrest⟩
        · rw [List.getElem?_concat_length] at hn
          exact ⟨_, List.mem_append_right _ List.mem_cons_self, Option.some.inj hn, hr, rfl⟩
        · rw [List.getElem?_eq_none (by simp; omega)] at hn
          cases hn

/-! ## Runs -/

omit [Crates] [HashOrder] in
/-- The batches are committed in the order in which they were drained. -/
def InTurn (g : GroupCommit) : Prop :=
  g.space.shared.versions.Pairwise fun v v' =>
    v.thread ∈ g.batches.map (·.1) → v'.thread ∈ g.batches.map (·.1) → v.thread ≤ v'.thread

/-- Conditions on the namespace, as conditions on the group. -/
def terms (ok : Terms) : GroupTerms
  | g, .run a => ok.Meets g.space a
  | g, .commit => ∀ records config, ok.call (.commitRecords g.handle records config)
  | _, _ => True

variable {ok : Terms} {handle : Nat} {p : Namespace}

/-- A step of a group is a step of its namespace, or leaves it alone. -/
theorem Stepped.space (hs : g.Stepped a g') : g'.space = g.space ∧ g'.batches = g.batches ∨
    (∃ b, a = .run b ∧ service.step g.space b = some g'.space ∧ g'.batches = g.batches) ∨
      ∃ waiters, a = .commit ∧ service.step g.space (.spawn (.commitRecords g.handle
        (waiters.map (·.record)) (batchConfig waiters))) = some g'.space ∧
        g'.batches = g.batches ++ [(g.space.threads.length, waiters)] := by
  cases hs with
  | run b space hs => exact .inr (.inl ⟨b, rfl, hs, rfl⟩)
  | commit waiters space _ _ hs => exact .inr (.inr ⟨waiters, rfl, hs, rfl⟩)
  | _ => exact .inl ⟨rfl, rfl⟩

/-- **A group runs its namespace.** -/
theorem Reached.space (hp : Reaches ok p) (h : Reached (terms ok) handle p g) : Reaches ok g.space := by
  refine h.invariant (I := fun g => Reaches ok g.space) hp fun g a g' _ hg hok hs => ?_
  rcases (stepped hs).space with ⟨heq, -⟩ | ⟨b, rfl, hb, -⟩ | ⟨waiters, rfl, hb, -⟩
  · exact heq ▸ hg
  · exact hg.step b hok hb
  · exact hg.step (.spawn _) (hok _ _) hb

theorem Reached.tidy {ok : GroupTerms} (h : Reached ok handle p g) : g.Tidy :=
  h.invariant (.start handle p) fun _ _ _ _ hg _ hs => hg.step (stepped hs)

theorem Reached.waits {ok : GroupTerms} (h : Reached ok handle p g) :
    ∀ w ∈ g.writers, Waits g.items w :=
  h.invariant (I := fun g => ∀ w ∈ g.writers, Waits g.items w) (fun _ hw => (List.not_mem_nil hw).elim)
    fun _ _ _ hg hw _ hs => (Reached.tidy hg).waits_step hw (stepped hs)

omit [Crates] [HashOrder] in
/-- A batch whose thread has not finished is being committed. -/
theorem Tidy.running (h : g.Tidy) {t : Nat} {call : Call} {op : Request}
    {next : op.Answer → StoreProg Outcome} (hth : g.space.threads[t]? = some ⟨call, .ask op next⟩)
    {waiters : List Req} (hb : (t, waiters) ∈ g.batches) : g.committer = .committing waiters t := by
  refine (h.ended _ hb).resolve_left fun hsome => ?_
  rw [Namespace.commitReply, hth] at hsome
  cases hsome

omit [Crates] [HashOrder] in
/-- A thread that has not finished is not one of a batch, or the latest of them. -/
theorem Tidy.latest (h : g.Tidy) {t : Nat} {call : Call} {op : Request}
    {next : op.Answer → StoreProg Outcome} (hth : g.space.threads[t]? = some ⟨call, .ask op next⟩)
    (ht : t ∈ g.batches.map (·.1)) : ∀ u ∈ g.batches.map (·.1), u ≤ t := by
  obtain ⟨b, hb, rfl⟩ := List.mem_map.mp ht
  have hrunning := h.running hth hb
  have hbusy := h.busy
  rw [Busy, hrunning] at hbusy
  obtain ⟨batches, hbatches⟩ := hbusy
  have hturn := h.inTurn
  rw [hbatches, List.map_append, List.pairwise_append] at hturn
  intro u hu
  rw [hbatches, List.map_append, List.mem_append] at hu
  rcases hu with hu | hu
  · exact (hturn.2.2 u hu b.1 List.mem_cons_self).le
  · exact (List.mem_singleton.mp hu).le

/-- **Batches take turns.** -/
theorem Reached.inTurn (hp : Reaches ok p) (h : Reached (terms ok) handle p g) : g.InTurn := by
  refine h.invariant (I := InTurn) ?_ fun g a g' hg hturn hok hs => ?_
  · exact List.pairwise_of_forall fun _ _ ht => nomatch ht
  have hspace := Reached.space hp hg
  rcases (stepped hs).space with ⟨heq, hb⟩ | ⟨b, rfl, hstep, hb⟩ | ⟨waiters, rfl, hstep, hb⟩
  · rw [InTurn, heq, hb]
    exact hturn
  · rw [InTurn, hb]
    rcases hspace.step_versions hok hstep with
      hv | ⟨t, c, v, call, mode, next, -, hth, -, rfl, hpush, -⟩
    · rw [hv]
      exact hturn
    · rw [hpush]
      refine List.pairwise_append.mpr ⟨hturn, List.pairwise_singleton _ _, fun v₁ _ v₂ hv₂ h₁ h₂ => ?_⟩
      obtain rfl := List.mem_singleton.mp hv₂
      exact (Reached.tidy hg).latest hth h₂ _ h₁
  · -- nothing was written by the new thread
    obtain heq := Option.some.inj hstep
    rw [InTurn, ← heq, hb]
    have hspawned := hspace.authored.spawned
    refine hturn.imp_of_mem fun {v v'} hv hv' hle h₁ h₂ => ?_
    simp only [List.map_append, List.map_cons, List.map_nil, List.mem_append, List.mem_singleton] at h₁ h₂
    rcases h₁ with h₁ | h₁
    · rcases h₂ with h₂ | h₂
      · exact hle h₁ h₂
      · exact absurd (hspawned v' hv') (h₂ ▸ Nat.lt_irrefl _)
    · exact absurd (hspawned v hv) (h₁ ▸ Nat.lt_irrefl _)

end GroupCommit

end Steps

end Fckdb
