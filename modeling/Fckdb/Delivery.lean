import Fckdb.Committer

/-! # Every queued record is committed once

A record that was answered with a sequence number stands in the log once, in the commit with that number;
one that was answered with an error does not stand in the log (`GroupCommit.Reached.delivered`). The log
has the records in the order in which they were sent, and the committer never rests before every record
was answered once. -/

namespace Fckdb

namespace GroupCommit

/-! ## Where records stand -/

section Log

variable [Crates] {g : GroupCommit}

/-- Record number `ticket` stands at position `j` of commit number `i` of the log, as a schema made
it. -/
def Stands (g : GroupCommit) (ticket i j : Nat) : Prop :=
  ∃ c waiters w r, g.space.shared.commits[i]? = some c ∧
    g.space.shared.HasRecords (.wal c.entry.name) c.batch ∧ (c.thread, waiters) ∈ g.batches ∧
    waiters[j]? = some w ∧ w.ticket = ticket ∧ c.batch[j]? = some r ∧ w.record.AbsorbedAs r

omit [Crates] in
/-- A thread commits one batch. -/
theorem Tidy.batch_unique (h : g.Tidy) {t : Nat} {ws ws' : List Req} (hb : (t, ws) ∈ g.batches)
    (hb' : (t, ws') ∈ g.batches) : ws = ws' := by
  have hnodup : (g.batches.map (·.1)).Nodup := h.inTurn.imp fun hlt => hlt.ne
  exact congrArg Prod.snd (List.inj_on_of_nodup_map hnodup hb hb' rfl)

omit [Crates] in
/-- Tickets increase along a batch, and from batch to batch. -/
theorem Tidy.tickets (h : g.Tidy) :
    (∀ b ∈ g.batches, b.2.Pairwise fun w w' => w.ticket < w'.ticket) ∧
      g.batches.Pairwise fun b b' => ∀ w ∈ b.2, ∀ w' ∈ b'.2, w.ticket < w'.ticket := by
  have hall : (g.items.map (·.ticket)).Pairwise (· < ·) := h.queued ▸ List.pairwise_lt_range
  have hitems : g.items.Pairwise fun w w' => w.ticket < w'.ticket := List.pairwise_map.mp hall
  rw [items, List.append_assoc, List.pairwise_append] at hitems
  exact List.pairwise_flatMap.mp hitems.1

omit [Crates] in
/-- The batch of a smaller ticket is committed no later. -/
theorem Tidy.le_of_ticket (h : g.Tidy) {t t' : Nat} {ws ws' : List Req} {w w' : Req}
    (hb : (t, ws) ∈ g.batches) (hb' : (t', ws') ∈ g.batches) (hw : w ∈ ws) (hw' : w' ∈ ws')
    (hlt : w.ticket ≤ w'.ticket) : t ≤ t' := by
  by_contra hgt
  -- both the threads and the tickets increase from batch to batch
  have hboth := (List.pairwise_map.mp h.inTurn).and h.tickets.2
  obtain ⟨n, hn, heq⟩ := List.getElem_of_mem hb
  obtain ⟨n', hn', heq'⟩ := List.getElem_of_mem hb'
  rcases Nat.lt_trichotomy n n' with hnn | rfl | hnn
  · have hthreads := (List.pairwise_iff_getElem.mp hboth n n' hn hn' hnn).1
    rw [heq, heq'] at hthreads
    omega
  · have := (Prod.mk.inj (heq.symm.trans heq')).1
    omega
  · have htickets := (List.pairwise_iff_getElem.mp hboth n' n hn' hn hnn).2
    rw [heq, heq'] at htickets
    have := htickets w' hw' w hw
    omega

/-- A thread commits once. -/
theorem commit_unique (h : g.space.Authored) {i i' : Nat} {c c' : Commit}
    (hi : g.space.shared.commits[i]? = some c) (hi' : g.space.shared.commits[i']? = some c')
    (hthread : c.thread = c'.thread) : i = i' := by
  have hone : (g.space.shared.commitsOf c.thread).length ≤ 1 := by
    rw [Store.commitsOf_eq]
    exact (List.length_filterMap_le _ _).trans (h.once c.thread)
  have hnone : (g.space.shared.commits.filter fun d => d.thread = c.thread).Pairwise
      fun _ _ => False := by
    rw [← Store.commitsOf]
    rcases Nat.le_one_iff_eq_zero_or_eq_one.mp hone with hnil | hsingle
    · rw [List.length_eq_zero_iff.mp hnil]
      exact .nil
    · obtain ⟨d, hd⟩ := List.length_eq_one_iff.mp hsingle
      rw [hd]
      exact List.pairwise_singleton _ _
  have hapart := List.pairwise_iff_getElem.mp (List.pairwise_filter.mp hnone)
  obtain ⟨hlt, heq⟩ := List.getElem?_eq_some_iff.mp hi
  obtain ⟨hlt', heq'⟩ := List.getElem?_eq_some_iff.mp hi'
  rcases Nat.lt_trichotomy i i' with hii | hii | hii
  · exact (hapart i i' hlt hlt' hii (by simp [heq]) (by simp [heq', hthread])).elim
  · exact hii
  · exact (hapart i' i hlt' hlt hii (by simp [heq', hthread]) (by simp [heq])).elim

omit [Crates] in
/-- **The log is in the order of the batches.** -/
theorem InTurn.le (h : g.InTurn) {i i' : Nat} {c c' : Commit}
    (hi : g.space.shared.commits[i]? = some c) (hi' : g.space.shared.commits[i']? = some c')
    (hb : c.thread ∈ g.batches.map (·.1)) (hb' : c'.thread ∈ g.batches.map (·.1)) (hle : i ≤ i') :
    c.thread ≤ c'.thread := by
  have hlog : g.space.shared.commits.Pairwise fun c c' => c.thread ∈ g.batches.map (·.1) →
      c'.thread ∈ g.batches.map (·.1) → c.thread ≤ c'.thread := by
    refine List.pairwise_filterMap.mpr (h.imp fun {v v'} hvv c hc c' hc' hb hb' => ?_)
    rw [commit?_thread hc] at hb ⊢
    rw [commit?_thread hc'] at hb' ⊢
    exact hvv hb hb'
  obtain ⟨hlt, heq⟩ := List.getElem?_eq_some_iff.mp hi
  obtain ⟨hlt', heq'⟩ := List.getElem?_eq_some_iff.mp hi'
  rcases Nat.lt_or_eq_of_le hle with hii | rfl
  · have := List.pairwise_iff_getElem.mp hlog i i' hlt hlt' hii
    rw [heq, heq'] at this
    exact this hb hb'
  · rw [← heq, ← heq']

/-- **The order of the log is the order of sending.** -/
theorem Stands.lt (ht : g.Tidy) (ha : g.space.Authored) (hturn : g.InTurn) {k k' i i' j j' : Nat}
    (h : g.Stands k i j) (h' : g.Stands k' i' j') (hlt : k < k') : i < i' ∨ i = i' ∧ j < j' := by
  obtain ⟨c, ws, w, -, hi, -, hb, hj, rfl, -, -⟩ := h
  obtain ⟨c', ws', w', -, hi', -, hb', hj', rfl, -, -⟩ := h'
  have hmem : c.thread ∈ g.batches.map (·.1) := List.mem_map_of_mem (f := Prod.fst) hb
  have hmem' : c'.thread ∈ g.batches.map (·.1) := List.mem_map_of_mem (f := Prod.fst) hb'
  have hle := ht.le_of_ticket hb hb' (List.mem_of_getElem? hj) (List.mem_of_getElem? hj') hlt.le
  rcases Nat.lt_trichotomy i i' with hii | rfl | hii
  · exact .inl hii
  · -- one batch: the tickets increase along it
    obtain rfl := Option.some.inj (hi.symm.trans hi')
    obtain rfl := ht.batch_unique hb hb'
    refine .inr ⟨rfl, ?_⟩
    by_contra hjj
    obtain ⟨hn, heq⟩ := List.getElem?_eq_some_iff.mp hj
    obtain ⟨hn', heq'⟩ := List.getElem?_eq_some_iff.mp hj'
    rcases Nat.lt_or_eq_of_le (Nat.not_lt.mp hjj) with hjj | rfl
    · have := List.pairwise_iff_getElem.mp (ht.tickets.1 _ hb) j' j hn' hn hjj
      dsimp only at this
      rw [heq, heq'] at this
      omega
    · rw [heq] at heq'
      exact Nat.lt_irrefl _ (heq' ▸ hlt)
  · have heq := Nat.le_antisymm hle (hturn.le hi' hi hmem' hmem hii.le)
    exact absurd (commit_unique ha hi hi' heq) (Nat.ne_of_gt hii)

/-- A record stands in one place. -/
theorem Stands.unique (ht : g.Tidy) (ha : g.space.Authored) {k i i' j j' : Nat}
    (h : g.Stands k i j) (h' : g.Stands k i' j') : i' = i ∧ j' = j := by
  obtain ⟨c, ws, w, -, hi, -, hb, hj, rfl, -, -⟩ := h
  obtain ⟨c', ws', w', -, hi', -, hb', hj', hk, -, -⟩ := h'
  have hmem := List.mem_of_getElem? hj
  have hmem' := List.mem_of_getElem? hj'
  have heq : c.thread = c'.thread := Nat.le_antisymm (ht.le_of_ticket hb hb' hmem hmem' hk.ge)
    (ht.le_of_ticket hb' hb hmem' hmem hk.le)
  obtain rfl : i = i' := commit_unique ha hi hi' heq
  obtain rfl := Option.some.inj (hi.symm.trans hi')
  obtain rfl := ht.batch_unique hb hb'
  refine ⟨rfl, ?_⟩
  have hnodup : (ws.map (·.ticket)).Nodup := List.pairwise_map.mpr ((ht.tickets.1 _ hb).imp fun h => h.ne)
  obtain ⟨hn, rfl⟩ := List.getElem?_eq_some_iff.mp hj
  obtain ⟨hn', rfl⟩ := List.getElem?_eq_some_iff.mp hj'
  have hlen : j < (ws.map (·.ticket)).length := by rwa [List.length_map]
  have hlen' : j' < (ws.map (·.ticket)).length := by rwa [List.length_map]
  have heq : (ws.map (·.ticket))[j'] = (ws.map (·.ticket))[j] := by
    rw [List.getElem_map, List.getElem_map, hk]
  exact hnodup.getElem_inj_iff.mp heq

/-- **A commit of a batch has all its records.** -/
theorem Tidy.absorbed (ht : g.Tidy) (ha : g.space.Authored) {c : Commit} {ws : List Req}
    (hc : c ∈ g.space.shared.commits) (hb : (c.thread, ws) ∈ g.batches) :
    List.Forall₂ Record.AbsorbedAs (ws.map (·.record)) c.batch := by
  obtain ⟨v, hv, hcv⟩ := List.mem_filterMap.mp hc
  obtain ⟨th, prepare, m, hth, hask, hprep⟩ := ha.prepared v hv _ (commit?_reason hcv)
  obtain ⟨th', hth', hcall⟩ := ht.calls _ hb
  rw [← commit?_thread hcv] at hth
  obtain rfl := Option.some.inj (hth.symm.trans hth')
  rw [hcall] at hask
  cases hask
  exact Schema.absorb_forall₂ (prepareRecords_eq_ok hprep).1

/-- Every record of a commit of a batch stands there. -/
theorem Tidy.stands (ht : g.Tidy) (ha : g.space.Authored) {c : Commit} {ws : List Req} {i j : Nat}
    {w : Req} (hi : g.space.shared.commits[i]? = some c) (hb : (c.thread, ws) ∈ g.batches)
    (hj : ws[j]? = some w) : g.Stands w.ticket i j := by
  have hc := List.mem_of_getElem? hi
  have hall := ht.absorbed ha hc hb
  obtain ⟨hlt, rfl⟩ := List.getElem?_eq_some_iff.mp hj
  have hlt' : j < (ws.map (·.record)).length := by rwa [List.length_map]
  have hlen : j < c.batch.length := hall.length_eq ▸ hlt'
  have hone := hall.get hlt' hlen
  rw [List.get_eq_getElem, List.get_eq_getElem, List.getElem_map] at hone
  exact ⟨c, ws, _, _, hi, ha.stored c hc, hb, hj, rfl, List.getElem?_eq_getElem hlen, hone⟩

end Log

/-! ## The committer comes to rest -/

section Rest

variable [Crates] [HashOrder] {g g' : GroupCommit}

/-- The committer's own steps. -/
def Own (g : GroupCommit) : GroupAction → Prop
  | .receive | .commit | .finish | .reply => True
  | .run (.run t _) => ∃ waiters, g.committer = .committing waiters t
  | _ => False

/-- **The committer comes to rest**, whatever the outcomes of its requests, and then every record sent
has been replied to once. -/
inductive Settles : GroupCommit → Prop
  | rest (g : GroupCommit) (idle : g.committer = .idle) (empty : g.queue = [])
      (answered : g.replies.map (·.1) = List.range g.sent) : Settles g
  | step (g : GroupCommit) (enabled : ∃ a g', g.Own a ∧ g.step a = some g')
      (next : ∀ a g', g.Own a → g.step a = some g' → Settles g') : Settles g

/-- What is being committed is the program of a commit. -/
def Shaped (g : GroupCommit) : Prop :=
  ∀ waiters t, g.committer = .committing waiters t → ∃ call, ∃ q : Proc (Nat × Nat),
    g.space.threads[t]? = some ⟨call, Prog.bind q fun r => .done (.committed r)⟩

omit [Crates] [HashOrder] in
/-- Every request can be answered. -/
theorem exec_enabled (t : Nat) (s : Store) (r : Request) : ∃ c, (Store.exec t s r c).isSome := by
  cases r with
  | putManifest m mode reason =>
      refine ⟨.go, ?_⟩
      rw [Store.exec]
      split <;> rfl
  | get name =>
      refine ⟨.go, ?_⟩
      rw [Store.exec]
      split <;> rfl
  | list sub => exact ⟨.count 0, rfl⟩
  | listAll => exact ⟨.count 0, rfl⟩
  | next sub => exact ⟨.fail "", rfl⟩
  | nextAny => exact ⟨.fail "", rfl⟩
  | choose => exact ⟨.turn true, rfl⟩
  | _ => exact ⟨.go, rfl⟩

theorem Shaped.step (h : g.Shaped) {a : GroupAction} (hs : g.Stepped a g') : g'.Shaped := by
  intro waiters t hc
  cases hs with
  | write records config => exact h waiters t hc
  | send i w record _ _ => exact h waiters t hc
  | run a space hs =>
      obtain ⟨call, q, hth⟩ := h waiters t hc
      cases a with
      | spawn call' =>
          obtain rfl := Option.some.inj hs
          exact ⟨call, q, (List.getElem?_append_left (List.getElem?_eq_some_iff.mp hth).1).trans hth⟩
      | env nanos =>
          obtain rfl := Option.some.inj hs
          exact ⟨call, q, hth⟩
      | run u c =>
          obtain ⟨th, op, next, s', x, hu, hprog, -, rfl⟩ := service.step_run_cases hs
          by_cases hut : u = t
          · subst hut
            obtain rfl := Option.some.inj (hu.symm.trans hth)
            cases q with
            | done r => cases hprog
            | ask op' next' =>
                cases hprog
                exact ⟨call, next' x, List.getElem?_set_self (List.getElem?_eq_some_iff.mp hth).1⟩
          · exact ⟨call, q, (List.getElem?_set_ne hut).trans hth⟩
  | commit ws space _ _ hs =>
      obtain rfl := Option.some.inj hs
      obtain ⟨rfl, rfl⟩ := Committer.committing.inj hc
      exact ⟨_, _, List.getElem?_concat_length⟩
  | receive first rest _ _ => cases hc
  | drain ws item rest _ _ _ => cases hc
  | finish ws u r _ _ => cases hc
  | reply w rest u r _ => cases hc
  | rest u r _ => cases hc

omit [Crates] [HashOrder] in
/-- The tickets replied to are those assigned, up to what is pending. -/
theorem Tidy.replied (h : g.Tidy) :
    g.replies.map (·.1) ++ g.committer.pending.map (fun a => a.2.ticket) =
      (g.batches.flatMap (·.2)).map (·.ticket) := by
  obtain ⟨done, heq, hpaid⟩ := h.paid
  have hsame : List.Forall₂ (fun a r => a.2.ticket = r.1) done g.replies := hpaid.imp fun _ _ h => h.1
  have hreplies : done.map (fun a => a.2.ticket) = g.replies.map (·.1) :=
    List.forall₂_eq_eq_eq ▸ List.forall₂_map_left_iff.mpr (List.forall₂_map_right_iff.mpr hsame)
  have hassigned : g.assigned.map (fun a => a.2.ticket) = (g.batches.flatMap (·.2)).map (·.ticket) := by
    simp [assigned, List.map_flatMap, Function.comp_def]
  rw [← hreplies, ← List.map_append, ← heq, hassigned]

omit [Crates] [HashOrder] in
/-- At rest with nothing queued, every record was replied to once. -/
theorem Tidy.answered (h : g.Tidy) (hidle : g.committer = .idle) (hempty : g.queue = []) :
    g.replies.map (·.1) = List.range g.sent := by
  have hreplied := h.replied
  rw [hidle] at hreplied
  have hqueued := h.queued
  rw [items, hidle, hempty, List.append_nil] at hqueued
  simp only [Committer.pending, Committer.held, List.map_nil, List.append_nil] at hreplied hqueued
  rw [hreplied, hqueued]

/-- The states from which the committer settles are shown one phase after the other; `n` bounds the
queue. -/
structure Ready (g : GroupCommit) : Prop where
  tidy : g.Tidy
  shaped : g.Shaped

theorem Ready.step (h : g.Ready) {a : GroupAction} (hs : g.step a = some g') : g'.Ready :=
  ⟨h.tidy.step (stepped hs), h.shaped.step (stepped hs)⟩

/-- What the committer's own step is, from where it is. -/
theorem own_step {a : GroupAction} (hown : g.Own a) (hs : g.step a = some g') :
    match g.committer with
    | .idle => ∃ first rest, g.queue = first :: rest ∧
        g' = { g with queue := rest, committer := .draining [first] }
    | .draining waiters => (∃ item rest, g.queue = item :: rest ∧
          g' = { g with queue := rest, committer := .draining (waiters ++ [item]) }) ∨
        ∃ space t, g' = { g with
          space, committer := .committing waiters t, batches := g.batches ++ [(t, waiters)] }
    | .committing waiters t =>
        (∃ c space, service.step g.space (.run t c) = some space ∧ g' = { g with space }) ∨
          ∃ r, g.space.commitReply t = some r ∧ g' = { g with committer := .replying waiters t r }
    | .replying [] _ _ => g' = { g with committer := .idle }
    | .replying (w :: rest) t r => g' = { g with
        committer := .replying rest t r, replies := g.replies ++ [(w.ticket, r)] } := by
  cases stepped hs with
  | write records config => exact hown.elim
  | send i w record _ _ => exact hown.elim
  | receive first rest hc hq =>
      rw [hc]
      exact ⟨first, rest, hq, rfl⟩
  | drain waiters item rest hc hq _ =>
      rw [hc]
      exact .inl ⟨item, rest, hq, rfl⟩
  | commit waiters space hc _ _ =>
      rw [hc]
      exact .inr ⟨space, _, rfl⟩
  | run b space hspace =>
      cases b with
      | spawn call => exact hown.elim
      | env nanos => exact hown.elim
      | run t c =>
          obtain ⟨waiters, hc⟩ := hown
          rw [hc]
          exact .inl ⟨c, space, hspace, rfl⟩
  | finish waiters t r hc hr =>
      rw [hc]
      exact .inr ⟨r, hr, rfl⟩
  | reply w rest t r hc =>
      rw [hc]
  | rest t r hc =>
      rw [hc]

section Phases

variable {n : Nat} (hless : ∀ g : GroupCommit, g.Ready → g.queue.length < n → Settles g)
include hless

theorem Ready.settles_idle (h : g.Ready) (hn : g.queue.length = n) (hc : g.committer = .idle) :
    Settles g := by
  cases hq : g.queue with
  | nil => exact .rest g hc hq (h.tidy.answered hc hq)
  | cons first rest =>
      have henabled : g.step .receive =
          some { g with queue := rest, committer := .draining [first] } := by
        rw [GroupCommit.step, hc, hq]
      refine .step g ⟨.receive, _, trivial, henabled⟩ fun a g' hown hs => ?_
      have hown := own_step hown hs
      rw [hc] at hown
      obtain ⟨first', rest', hq', rfl⟩ := hown
      rw [hq'] at hn
      exact hless _ (h.step hs) (hn ▸ Nat.lt_succ_self _)

theorem Ready.settles_replying {waiters : List Req} {t : Nat} {r : Except Flat Nat} (h : g.Ready)
    (hn : g.queue.length = n) (hc : g.committer = .replying waiters t r) : Settles g := by
  induction waiters generalizing g with
  | nil =>
      have henabled : g.step .reply = some { g with committer := .idle } := by
        rw [GroupCommit.step, hc]
      refine .step g ⟨.reply, _, trivial, henabled⟩ fun a g' hown hs => ?_
      have hown := own_step hown hs
      rw [hc] at hown
      subst hown
      exact Ready.settles_idle hless (h.step hs) hn rfl
  | cons w rest ih =>
      have henabled : g.step .reply = some { g with
          committer := .replying rest t r, replies := g.replies ++ [(w.ticket, r)] } := by
        rw [GroupCommit.step, hc]
      refine .step g ⟨.reply, _, trivial, henabled⟩ fun a g' hown hs => ?_
      have hown := own_step hown hs
      rw [hc] at hown
      subst hown
      exact ih (h.step hs) hn rfl

/-- The requests of a commit come to an end. -/
theorem Ready.settles_committing {waiters : List Req} {t : Nat} {call : Call} {q : Proc (Nat × Nat)}
    (h : g.Ready) (hn : g.queue.length = n) (hc : g.committer = .committing waiters t)
    (hth : g.space.threads[t]? = some ⟨call, Prog.bind q fun r => .done (.committed r)⟩) :
    Settles g := by
  induction q generalizing g with
  | done r =>
      have hreply : g.space.commitReply t = some (commitReply r) := by
        rw [Namespace.commitReply, hth]
        rfl
      have henabled : g.step .finish =
          some { g with committer := .replying waiters t (commitReply r) } := by
        rw [GroupCommit.step, hc]
        dsimp only
        rw [hreply]
        rfl
      refine .step g ⟨.finish, _, trivial, henabled⟩ fun a g' hown hs => ?_
      have hown := own_step hown hs
      rw [hc] at hown
      rcases hown with ⟨c, space, hstep, -⟩ | ⟨r', -, rfl⟩
      · obtain ⟨th, op, next, s', x, hu, hprog, -⟩ := service.step_run_cases hstep
        obtain rfl := Option.some.inj (hu.symm.trans hth)
        cases hprog
      · exact Ready.settles_replying hless (h.step hs) hn rfl
  | ask op next ih =>
      obtain ⟨c, hx⟩ := exec_enabled t g.space.shared op
      obtain ⟨⟨s', x⟩, hx⟩ := Option.isSome_iff_exists.mp hx
      have hspace : service.step g.space (.run t c) = some ⟨s', g.space.threads.set t
          ⟨call, Prog.bind (next x) fun r => .done (.committed r)⟩⟩ := by
        rw [System.step, hth]
        show (Store.exec t g.space.shared op c).map _ = _
        rw [hx]
        rfl
      refine .step g ⟨.run (.run t c), _, ⟨waiters, hc⟩, congrArg (Option.map _) hspace⟩
        fun a g' hown hs => ?_
      have hown := own_step hown hs
      rw [hc] at hown
      rcases hown with ⟨c', space, hstep, rfl⟩ | ⟨r', hr', -⟩
      · obtain ⟨th, op', next', s'', x', hu, hprog, -, rfl⟩ := service.step_run_cases hstep
        obtain rfl := Option.some.inj (hu.symm.trans hth)
        cases hprog
        exact ih x' (h.step hs) hn rfl (List.getElem?_set_self (List.getElem?_eq_some_iff.mp hth).1)
      · rw [Namespace.commitReply, hth] at hr'
        cases hr'

theorem Ready.settles_draining {waiters : List Req} (h : g.Ready) (hn : g.queue.length = n)
    (hc : g.committer = .draining waiters) : Settles g := by
  have henabled : ∃ a g', g.Own a ∧ g.step a = some g' := by
    by_cases hfull : (room waiters && !g.queue.isEmpty) = true
    · obtain ⟨hroom, hq⟩ := (Bool.and_eq_true _ _).mp hfull
      cases hqueue : g.queue with
      | nil =>
          rw [hqueue] at hq
          cases hq
      | cons item rest =>
          refine ⟨.receive, { g with queue := rest, committer := .draining (waiters ++ [item]) },
            trivial, ?_⟩
          rw [GroupCommit.step, hc, hqueue]
          exact if_pos hroom
    · let call := Call.commitRecords g.handle (waiters.map (·.record)) (batchConfig waiters)
      refine ⟨.commit, { g with
        space := { g.space with threads := g.space.threads ++ [⟨call, call.body⟩] }
        committer := .committing waiters g.space.threads.length
        batches := g.batches ++ [(g.space.threads.length, waiters)] }, trivial, ?_⟩
      rw [GroupCommit.step, hc]
      exact if_neg hfull
  refine .step g henabled fun a g' hown hs => ?_
  have hready := h.step hs
  have hown := own_step hown hs
  rw [hc] at hown
  rcases hown with ⟨item, rest, hq, rfl⟩ | ⟨space, t, rfl⟩
  · rw [hq] at hn
    exact hless _ hready (hn ▸ Nat.lt_succ_self _)
  · obtain ⟨call, q, hth⟩ := hready.shaped waiters t rfl
    exact Ready.settles_committing hless hready hn rfl hth

end Phases

/-- **The committer settles from everywhere.** -/
theorem Ready.settles (h : g.Ready) : Settles g := by
  induction hn : g.queue.length using Nat.strong_induction_on generalizing g with
  | _ n ih =>
      have hless : ∀ g : GroupCommit, g.Ready → g.queue.length < n → Settles g :=
        fun g hg hlt => ih _ hlt hg rfl
      cases hc : g.committer with
      | idle => exact h.settles_idle hless hn hc
      | draining waiters => exact h.settles_draining hless hn hc
      | committing waiters t =>
          obtain ⟨call, q, hth⟩ := h.shaped waiters t hc
          exact h.settles_committing hless hn hc hth
      | replying waiters t r => exact h.settles_replying hless hn hc

end Rest

/-! ## Delivery -/

section Runs

variable [Crates] [HashOrder] {g : GroupCommit}

/-- Conditions that every run meets. -/
def freeTerms : Terms := ⟨fun _ => True, fun _ _ _ => True, fun _ _ => True⟩

/-- **Each record is delivered once.** One that was answered `Ok(seq)` stands in the log once, in the
commit with that number, and one that was answered with an error does not; the log is in the order in
which each writer sent its records, one channel for each; a channel gets at most one reply, its own
batch's, and the committer does not rest before it has. -/
structure Delivered (g : GroupCommit) : Prop where
  answered : ∀ k seq, (k, .ok seq) ∈ g.replies → ∃ i j c, g.space.shared.commits[i]? = some c ∧
    c.seq = seq ∧ g.Stands k i j ∧ ∀ i' j', g.Stands k i' j' → i' = i ∧ j' = j
  rejected : ∀ k e, (k, .error e) ∈ g.replies → ∀ i j, ¬ g.Stands k i j
  inOrder : ∀ k k' i i' j j', g.Stands k i j → g.Stands k' i' j' → k < k' → i < i' ∨ i = i' ∧ j < j'
  channels : ∀ w ∈ g.writers, Waits g.items w
  once : (g.replies.map (·.1)).Nodup
  own : ∀ r ∈ g.replies, ∃ t waiters w, (t, waiters) ∈ g.batches ∧ w ∈ waiters ∧ w.ticket = r.1 ∧
    g.space.commitReply t = some r.2
  settles : g.Settles

omit [Crates] [HashOrder] in
/-- A reply is the result of the batch that its record was in. -/
theorem Tidy.own (h : g.Tidy) {r : Nat × Except Flat Nat} (hr : r ∈ g.replies) :
    ∃ t waiters w, (t, waiters) ∈ g.batches ∧ w ∈ waiters ∧ w.ticket = r.1 ∧
      g.space.commitReply t = some r.2 := by
  obtain ⟨done, heq, hpaid⟩ := h.paid
  obtain ⟨n, hn, rfl⟩ := List.getElem_of_mem hr
  have hn' : n < done.length := hpaid.length_eq ▸ hn
  obtain ⟨hticket, hreply⟩ := hpaid.get hn' hn
  have hmem : done[n] ∈ g.assigned := heq ▸ List.mem_append_left _ (List.getElem_mem hn')
  obtain ⟨⟨t, waiters⟩, hb, hw⟩ := List.mem_flatMap.mp hmem
  obtain ⟨w, hw, hpair⟩ := List.mem_map.mp hw
  rw [List.get_eq_getElem, ← hpair] at hticket hreply
  exact ⟨t, waiters, w, hb, hw, hticket, hreply⟩

omit [Crates] [HashOrder] in
/-- A channel gets at most one reply. -/
theorem Tidy.once (h : g.Tidy) : (g.replies.map (·.1)).Nodup := by
  have hnodup : (g.items.map (·.ticket)).Nodup := h.queued ▸ List.nodup_range
  refine List.Nodup.sublist (List.IsPrefix.sublist ?_) hnodup
  rw [items, List.append_assoc, List.map_append, ← h.replied, List.append_assoc]
  exact List.prefix_append _ _

omit [HashOrder] in
/-- The commits of a batch's thread are those where its records stand. -/
theorem Stands.thread (ht : g.Tidy) {t k i j : Nat} {waiters : List Req} {w : Req}
    (h : g.Stands k i j) (hb : (t, waiters) ∈ g.batches) (hw : w ∈ waiters) (hk : w.ticket = k) :
    ∃ c, g.space.shared.commits[i]? = some c ∧ c.thread = t := by
  obtain ⟨c, ws, w', -, hi, -, hb', hj, rfl, -, -⟩ := h
  have hw' := List.mem_of_getElem? hj
  exact ⟨c, hi, Nat.le_antisymm (ht.le_of_ticket hb' hb hw' hw hk.ge) (ht.le_of_ticket hb hb' hw hw' hk.le)⟩

/-- What a batch's result says about the log. -/
theorem commitReply_wrote {ok : Terms} {p : Namespace} (hp : Reaches ok p) {t : Nat}
    {r : Except Flat Nat} (hr : p.commitReply t = some r) :
    match r with
    | .ok seq => ∃ c ∈ p.shared.commits, c.thread = t ∧ c.seq = seq
    | .error _ => p.shared.commitsOf t = [] := by
  obtain ⟨call, res, hth, rfl⟩ := Namespace.commitReply_eq_some hr
  have hret := hp.returned hth rfl
  cases res with
  | ok x =>
      obtain ⟨i, ⟨v, c, hi, hw, hc, hseq⟩, -⟩ := hret
      have hv : v ∈ p.shared.writtenBy t := hw ▸ List.mem_cons_self
      refine ⟨c, List.mem_filterMap.mpr ⟨v, List.mem_of_getElem? hi, hc⟩, ?_, hseq⟩
      rw [commit?_thread hc]
      exact of_decide_eq_true (List.mem_filter.mp hv).2
  | error e =>
      show p.shared.commitsOf t = []
      rw [Store.commitsOf_eq, show p.shared.writtenBy t = [] from hret]
      rfl

/-- **Delivery.** -/
theorem Reached.delivered {handle : Nat} {p : Namespace} (hp : Reaches freeTerms p)
    (h : Reached (terms freeTerms) handle p g) : g.Delivered := by
  have ht := h.tidy
  have hspace := h.space hp
  have ha := hspace.authored
  refine ⟨fun k seq hk => ?_, fun k e hk i j hs => ?_, fun k k' i i' j j' hs hs' hlt =>
    hs.lt ht ha (h.inTurn hp) hs' hlt, h.waits, ht.once, fun r hr => ht.own hr, ?_⟩
  · obtain ⟨t, waiters, w, hb, hw, hticket, hreply⟩ := ht.own hk
    obtain ⟨c, hc, rfl, hseq⟩ := commitReply_wrote hspace hreply
    obtain ⟨i, hi⟩ := List.mem_iff_getElem?.mp hc
    obtain ⟨j, hj⟩ := List.mem_iff_getElem?.mp hw
    have hstands := ht.stands ha hi hb hj
    dsimp only at hticket
    rw [hticket] at hstands
    exact ⟨i, j, c, hi, hseq, hstands, fun i' j' hs => hstands.unique ht ha hs⟩
  · obtain ⟨t, waiters, w, hb, hw, hticket, hreply⟩ := ht.own hk
    obtain ⟨c, hi, hct⟩ := hs.thread ht hb hw hticket
    have hnone : g.space.shared.commitsOf t = [] := commitReply_wrote hspace hreply
    have hmem : c ∈ g.space.shared.commitsOf t :=
      List.mem_filter.mpr ⟨List.mem_of_getElem? hi, decide_eq_true hct⟩
    rw [hnone] at hmem
    cases hmem
  · refine Ready.settles ⟨ht, ?_⟩
    refine h.invariant (I := Shaped) (fun waiters t hc => ?_) fun _ _ _ _ hg _ hs => hg.step (stepped hs)
    cases (show Committer.idle = .committing waiters t from hc)

omit [Crates] [HashOrder] in
/-- Every step meets the free conditions. -/
theorem terms_free (g : GroupCommit) (a : GroupAction) : terms freeTerms g a := by
  cases a with
  | run b =>
      cases b with
      | spawn call => trivial
      | run t c => exact fun _ _ _ _ _ => trivial
      | env nanos => trivial
  | commit => exact fun _ _ => trivial
  | _ => trivial

end Runs

/-- The committer takes what is queued, commits it in so many requests, and replies. -/
def commits (received requests thread : Nat) : List GroupAction :=
  List.replicate received .receive ++ .commit :: (goes thread requests).map .run ++
    .finish :: List.replicate (received + 1) .reply

/-- Two writers share a batch; a third record follows in its own. -/
def sharedRun : List GroupAction :=
  [.write [.upsert (.bare 1), .upsert (.bare 3)] {}, .write [.upsert (.bare 2)] {}, .send 0, .send 1] ++
    commits 2 6 0 ++ .send 0 :: commits 1 5 1

theorem sharedRun_delivered :
    let _ := Crates.inert
    let _ := HashOrder.sorted
    ∃ g, execute step (start 0 ⟨{}, []⟩) sharedRun = some g ∧
      g.replies.map (·.2.toOption) = [some 0, some 0, some 1] ∧ g.Delivered := by
  intro _ _
  have hrun : (execute step (start 0 ⟨{}, []⟩) sharedRun).any
      (fun g => g.replies.map (·.2.toOption) = [some 0, some 0, some 1]) = true := by
    decide +kernel
  obtain ⟨g, hg, hreplies⟩ := (Option.any_eq_true _ _).mp hrun
  exact ⟨g, hg, of_decide_eq_true hreplies,
    Reached.delivered .init (Reachable.init.execute (Allowed.of_forall terms_free _ _) hg)⟩

end GroupCommit

end Fckdb
