import Fckdb.Delivery
import Fckdb.Quiet
import Fckdb.Solo

/-! # Requests that share a batch

A batch is accepted or rejected as a whole. So each request gets the outcome that it would get alone, and
the live set is the same, if and only if no batch has both a record that would be rejected alone and one
that would be accepted (`GroupCommit.Reached.isolated_iff`). -/

namespace Fckdb

/-! ## Ledgers -/

namespace Ledger

variable [Crates] (l : Ledger)

/-- Each batch is accepted, or each of its records would be rejected alone. -/
def Unmixed : Ledger → List (List Record) → Prop
  | _, [] => True
  | l, batch :: batches => ((l.commit batch).2 = true ∨ ∀ r ∈ batch, (l.commit [r]).2 = false) ∧
      (l.commit batch).1.Unmixed batches

theorem commitAll_append (bs bs' : List (List Record)) :
    l.commitAll (bs ++ bs') = (((l.commitAll bs).1.commitAll bs').1,
      (l.commitAll bs).2 ++ ((l.commitAll bs).1.commitAll bs').2) := by
  induction bs generalizing l with
  | nil => rfl
  | cons b bs ih =>
      rw [List.cons_append, commitAll, ih, commitAll, List.append_assoc]

theorem commitEach_cons (r : Record) (rs : List Record) :
    l.commitEach (r :: rs) = (((l.commit [r]).1.commitEach rs).1,
      (l.commit [r]).2 :: ((l.commit [r]).1.commitEach rs).2) := rfl

theorem commitEach_append (rs rs' : List Record) :
    l.commitEach (rs ++ rs') = (((l.commitEach rs).1.commitEach rs').1,
      (l.commitEach rs).2 ++ ((l.commitEach rs).1.commitEach rs').2) := by
  rw [commitEach, List.map_append, commitAll_append]
  rfl

theorem length_commitEach (rs : List Record) : (l.commitEach rs).2.length = rs.length := by
  induction rs generalizing l with
  | nil => rfl
  | cons r rs ih => rw [commitEach_cons, List.length_cons, List.length_cons, ih]

theorem commit_false {rs : List Record} (h : (l.commit rs).2 = false) : (l.commit rs).1 = l := by
  rw [commit] at h ⊢
  split at h
  · cases h
  · rfl

/-- A batch of one record more. -/
theorem commit_cons (r : Record) (rs : List Record) (h : (l.commit [r]).2 = true) :
    ((l.commit (r :: rs)).2 = ((l.commit [r]).1.commit rs).2) ∧
      ((l.commit (r :: rs)).2 = true → (l.commit (r :: rs)).1 = ((l.commit [r]).1.commit rs).1) := by
  cases hr : l.schema.absorbRecord r with
  | error e =>
      have hone : l.schema.absorb [r] = .error e := by
        rw [Schema.absorb, hr]
        rfl
      rw [commit, hone] at h
      cases h
  | ok x =>
      obtain ⟨s₁, r₁⟩ := x
      have hone : l.schema.absorb [r] = .ok (s₁, [r₁]) := by
        rw [Schema.absorb, hr]
        rfl
      have hmore : l.schema.absorb (r :: rs) =
          (s₁.absorb rs).map fun x => (x.1, r₁ :: x.2) := by
        rw [Schema.absorb, hr]
        show (s₁.absorb rs >>= fun x => pure (x.1, r₁ :: x.2)) = _
        cases s₁.absorb rs <;> rfl
      simp only [commit, hone, hmore]
      cases s₁.absorb rs with
      | error e => exact ⟨rfl, fun h => absurd h Bool.false_ne_true⟩
      | ok x => exact ⟨rfl, fun _ => by simp [Except.map]⟩

theorem commit_cons_rejected (r : Record) (rs : List Record) (h : (l.commit [r]).2 = false) :
    (l.commit (r :: rs)).2 = false := by
  cases hr : l.schema.absorbRecord r with
  | error e =>
      have hmore : l.schema.absorb (r :: rs) = .error e := by
        rw [Schema.absorb, hr]
        rfl
      rw [commit, hmore]
  | ok x =>
      have hone : l.schema.absorb [r] = .ok (x.1, [x.2]) := by
        rw [Schema.absorb, hr]
        rfl
      rw [commit, hone] at h
      cases h

/-- **The records of an accepted batch** are accepted one after the other, with the same result. -/
theorem commitEach_accepted (b : List Record) (h : (l.commit b).2 = true) :
    l.commitEach b = ((l.commit b).1, List.replicate b.length true) := by
  induction b generalizing l with
  | nil => simp [commit, Schema.absorb, commitEach, commitAll]
  | cons r rs ih =>
      cases hr : (l.commit [r]).2 with
      | false => cases (l.commit_cons_rejected r rs hr).symm.trans h
      | true =>
          obtain ⟨hok, heq⟩ := l.commit_cons r rs hr
          rw [commitEach_cons, hr, ih _ (hok ▸ h), heq h]
          rfl

/-- Records that are rejected one after the other are each rejected, and change nothing. -/
theorem commitEach_rejected (b : List Record) :
    ((l.commitEach b).2 = List.replicate b.length false ↔ ∀ r ∈ b, (l.commit [r]).2 = false) ∧
      ((∀ r ∈ b, (l.commit [r]).2 = false) → (l.commitEach b).1 = l) := by
  induction b with
  | nil => exact ⟨⟨nofun, fun _ => rfl⟩, fun _ => rfl⟩
  | cons r rs ih =>
      rw [commitEach_cons, List.length_cons, List.replicate_succ, List.forall_mem_cons]
      constructor
      · constructor
        · intro h
          obtain ⟨hr, hrs⟩ := List.cons.inj h
          rw [l.commit_false hr] at hrs
          exact ⟨hr, ih.1.mp hrs⟩
        · rintro ⟨hr, hrs⟩
          rw [l.commit_false hr, hr, ih.1.mpr hrs]
      · rintro ⟨hr, hrs⟩
        rw [l.commit_false hr]
        exact ih.2 hrs

/-- **Batches are transparent** if and only if none is mixed. -/
theorem unmixed_iff (bs : List (List Record)) :
    (l.Unmixed bs ↔ (l.commitAll bs).2 = (l.commitEach bs.flatten).2) ∧
      (l.Unmixed bs → (l.commitAll bs).1 = (l.commitEach bs.flatten).1) := by
  induction bs generalizing l with
  | nil => exact ⟨⟨fun _ => rfl, fun _ => trivial⟩, fun _ => rfl⟩
  | cons b bs ih =>
      obtain ⟨hiff, heq⟩ := ih (l.commit b).1
      -- what an unmixed batch leaves, its records leave one after the other
      have hfirst (h : (l.commit b).2 = true ∨ ∀ r ∈ b, (l.commit [r]).2 = false) :
          l.commitEach b = ((l.commit b).1, List.replicate b.length (l.commit b).2) := by
        cases hb : (l.commit b).2 with
        | true => exact l.commitEach_accepted b hb
        | false =>
            have hall := h.resolve_left (by simp [hb])
            obtain ⟨hrejected, hsame⟩ := l.commitEach_rejected b
            rw [l.commit_false hb]
            exact Prod.ext (hsame hall) (hrejected.mpr hall)
      rw [Unmixed, List.flatten_cons, commitAll, commitEach_append]
      refine ⟨⟨fun ⟨h, hrest⟩ => ?_, fun h => ?_⟩, fun ⟨h, hrest⟩ => ?_⟩
      · rw [hfirst h]
        exact congrArg (List.replicate b.length (l.commit b).2 ++ ·) (hiff.mp hrest)
      · obtain ⟨hb, hbs⟩ := List.append_inj h (by rw [List.length_replicate, length_commitEach])
        have hunmixed : (l.commit b).2 = true ∨ ∀ r ∈ b, (l.commit [r]).2 = false := by
          cases hv : (l.commit b).2 with
          | true => exact .inl rfl
          | false => exact .inr ((l.commitEach_rejected b).1.mp (hb.symm.trans (by rw [hv])))
        rw [hfirst hunmixed] at hbs
        exact ⟨hunmixed, hiff.mpr hbs⟩
      · rw [hfirst h]
        exact heq hrest

end Ledger

namespace GroupCommit

section Runs

variable [Crates] [HashOrder] {g g' : GroupCommit} {handle : Nat} {l : Ledger}

/-! ## A committer alone -/

/-- Runs in which only the committer is at work on the namespace, no request has a configuration, and the
store fails no request. -/
def soloTerms : GroupTerms
  | _, .write _ config => config.isEmpty = true
  | _, .run (.spawn _) => False
  | _, .run (.run _ c) => c = .go
  | _, _ => True

omit [Crates] [HashOrder] in
theorem batchConfig_empty {waiters : List Req} (h : ∀ q ∈ waiters, q.config.isEmpty = true) :
    batchConfig waiters = {} := by
  have hnone : (waiters.map (·.config)).find? (fun c => !c.isEmpty) = none := by
    rw [List.find?_eq_none]
    intro c hc
    obtain ⟨q, hq, rfl⟩ := List.mem_map.mp hc
    simp [h q hq]
  rw [batchConfig, hnone]
  rfl

/-- The records of each batch. -/
def records (batches : List (Nat × List Req)) : List (List Record) :=
  batches.map fun b => b.2.map (·.record)

/-- The outcomes of the records of the batches, as far as these have returned. -/
def outcomes (p : Namespace) (batches : List (Nat × List Req)) : List (Option Bool) :=
  batches.flatMap fun b => b.2.map fun _ => (p.commitReply b.1).map (·.isOk)

/-- What a commit on the ledger ends with. -/
def Post (handle : Nat) (l : Ledger) (waiters : List Req) : Outcome → Store → Prop
  | .committed r, s => r.isOk = (l.commit (waiters.map (·.record))).2 ∧
      Quiet handle (l.commit (waiters.map (·.record))).1 s
  | _, _ => False

/-- A commit in progress, on the ledger. -/
abbrev Runs (handle : Nat) (l : Ledger) (waiters : List Req) (t : Nat) (prog : StoreProg Outcome)
    (s : Store) : Prop :=
  Prog.Safe (fun s r s' x => Store.exec t s r .go = some (s', x)) Later (fun _ _ => True)
    (Post handle l waiters) prog s

/-- **The namespace holds what the batches make of the ledger**, and their outcomes are those of the
ledger; the commit in progress goes on from there. -/
structure Serial (l : Ledger) (g : GroupCommit) : Prop where
  plain : ∀ w ∈ g.writers, w.config.isEmpty = true
  queued : ∀ q ∈ g.items, q.config.isEmpty = true
  alone : ∀ (u : Nat) (th : Thread Request Request.Answer Call Outcome), g.space.threads[u]? = some th →
    (∃ r, th.prog = .done r) ∨ ∃ waiters, g.committer = .committing waiters u
  state : match g.committer with
    | .committing waiters t => ∃ batches call prog, g.batches = batches ++ [(t, waiters)] ∧
        outcomes g.space batches = (l.commitAll (records batches)).2.map some ∧
        g.space.threads[t]? = some ⟨call, prog⟩ ∧
        Runs g.handle (l.commitAll (records batches)).1 waiters t prog g.space.shared
    | _ => outcomes g.space g.batches = (l.commitAll (records g.batches)).2.map some ∧
        Quiet g.handle (l.commitAll (records g.batches)).1 g.space.shared

/-- What has returned stays as it is. -/
theorem outcomes_step {p p' : Namespace} {a : Act} (hs : service.step p a = some p')
    {batches : List (Nat × List Req)} (h : ∀ b ∈ batches, (p.commitReply b.1).isSome) :
    outcomes p' batches = outcomes p batches := by
  refine List.flatMap_congr fun b hb => ?_
  obtain ⟨r, hr⟩ := Option.isSome_iff_exists.mp (h b hb)
  rw [hr, Namespace.commitReply_step hs hr]

omit [HashOrder] in
theorem commitAll_records (batches : List (Nat × List Req)) (t : Nat) (waiters : List Req) :
    l.commitAll (records (batches ++ [(t, waiters)])) =
      (((l.commitAll (records batches)).1.commit (waiters.map (·.record))).1,
        (l.commitAll (records batches)).2 ++ List.replicate waiters.length
          ((l.commitAll (records batches)).1.commit (waiters.map (·.record))).2) := by
  rw [records, List.map_append, Ledger.commitAll_append]
  simp [Ledger.commitAll, records]

/-- The records of a group have no configuration, in any run. -/
theorem Serial.plain_step (h : g.Serial l) {a : GroupAction} (hok : soloTerms g a)
    (hs : g.Stepped a g') :
    (∀ w ∈ g'.writers, w.config.isEmpty = true) ∧ ∀ q ∈ g'.items, q.config.isEmpty = true := by
  constructor
  · intro w hw
    cases hs with
    | write records config =>
        rcases List.mem_append.mp hw with hw | hw
        · exact h.plain w hw
        · exact List.mem_singleton.mp hw ▸ hok
    | send i w' record hw' _ =>
        rcases List.mem_or_eq_of_mem_set hw with hw | rfl
        · exact h.plain w hw
        · exact h.plain w' (List.mem_of_getElem? hw')
    | _ => exact h.plain w hw
  · intro q hq
    rcases hs.items with ⟨hitems, -⟩ | ⟨i, w, record, hw, -, -, hitems, -⟩
    · exact h.queued q (hitems ▸ hq)
    · rw [hitems] at hq
      rcases List.mem_append.mp hq with hq | hq
      · exact h.queued q hq
      · obtain rfl := List.mem_singleton.mp hq
        exact h.plain w (List.mem_of_getElem? hw)

/-- **A commit begins** from what the namespace holds. -/
theorem runs_body {waiters : List Req} {t : Nat} {s : Store} {config : WriteConfig}
    (hconfig : config = {}) (hs : Quiet handle l s) :
    Runs handle l waiters t (Call.commitRecords handle (waiters.map (·.record)) config).body s := by
  have hprepare : ∀ m, prepareRecords (waiters.map (·.record)) config m =
      m.schema.absorb (waiters.map (·.record)) := by
    subst hconfig
    exact prepareRecords_empty rfl rfl rfl rfl rfl _
  refine Prog.Safe.bind (Solo.commitLoop (t := t) hprepare s hs) fun r s' hr => ?_
  cases r with
  | ok x => exact fun s'' hs'' => ⟨(hr s'' hs'').1.symm, (hr s'' hs'').2⟩
  | error e => exact fun s'' hs'' => ⟨(hr s'' hs'').1.symm, (hr s'' hs'').2⟩

/-- **A step of the namespace.** -/
theorem Serial.run (h : g.Serial l) (ht : g.Tidy) {a : Act} {p : Namespace}
    (hok : soloTerms g (.run a)) (hs : service.step g.space a = some p) :
    Serial l { g with space := p } := by
  cases a with
  | spawn call => exact hok.elim
  | env nanos =>
      have hstate := h.state
      obtain rfl := Option.some.inj hs
      have hlater : Later g.space.shared { g.space.shared with clock := g.space.shared.clock + nanos } :=
        ⟨nanos, rfl⟩
      refine ⟨h.plain, h.queued, h.alone, ?_⟩
      dsimp only
      split at hstate
      · obtain ⟨batches, call, prog, hb, hout, hth, hruns⟩ := hstate
        exact ⟨batches, call, prog, hb, hout, hth, hruns.mono (fun _ _ _ => Later.trans) hlater⟩
      · exact ⟨hstate.1, Quiet.later _ _ hlater hstate.2⟩
  | run u c =>
      obtain rfl : c = .go := hok
      obtain ⟨th, op, next, s', x, hth, hprog, hx, rfl⟩ := service.step_run_cases hs
      -- only the commit in progress can take a step
      rcases h.alone u th hth with ⟨r, hr⟩ | ⟨waiters, hc⟩
      · exact nomatch hprog.symm.trans hr
      have hstate := h.state
      rw [hc] at hstate
      obtain ⟨batches, call, prog, hb, hout, hth', hruns⟩ := hstate
      obtain rfl := Option.some.inj (hth.symm.trans hth')
      obtain rfl : prog = _ := hprog
      have hlt := (List.getElem?_eq_some_iff.mp hth).1
      refine ⟨h.plain, h.queued, fun v thv hv => ?_, ?_⟩
      · by_cases huv : u = v
        · exact .inr ⟨waiters, huv ▸ hc⟩
        · rw [List.getElem?_set_ne huv] at hv
          exact h.alone v thv hv
      · dsimp only
        rw [hc]
        refine ⟨batches, call, _, hb, ?_, List.getElem?_set_self hlt, (hruns _ (.refl _) s' x hx).2⟩
        refine (outcomes_step hs fun b hmem => ?_).trans hout
        have hturn := ht.inTurn
        rw [hb, List.map_append, List.pairwise_append] at hturn
        have hbt := hturn.2.2 b.1 (List.mem_map_of_mem hmem) u List.mem_cons_self
        refine (ht.ended b (hb ▸ List.mem_append_left _ hmem)).resolve_right fun hcom => ?_
        obtain ⟨-, rfl⟩ := Committer.committing.inj (hc.symm.trans hcom)
        exact Nat.lt_irrefl _ hbt

/-- **A step of a group whose committer is alone.** -/
theorem Serial.step (h : g.Serial l) (ht : g.Tidy) {a : GroupAction} (hok : soloTerms g a)
    (hs : g.Stepped a g') : g'.Serial l := by
  obtain ⟨hplain, hqueued⟩ := h.plain_step hok hs
  have hstate := h.state
  cases hs with
  | write records config => exact ⟨hplain, hqueued, h.alone, hstate⟩
  | send i w record _ _ => exact ⟨hplain, hqueued, h.alone, hstate⟩
  | receive first rest hc _ =>
      rw [hc] at hstate
      refine ⟨hplain, hqueued, fun u th hth => ?_, hstate⟩
      exact (h.alone u th hth).imp_right fun ⟨_, hcom⟩ => nomatch hc.symm.trans hcom
  | drain waiters item rest hc _ _ =>
      rw [hc] at hstate
      refine ⟨hplain, hqueued, fun u th hth => ?_, hstate⟩
      exact (h.alone u th hth).imp_right fun ⟨_, hcom⟩ => nomatch hc.symm.trans hcom
  | run b space hs => exact h.run ht hok hs
  | commit waiters space hc _ hs =>
      rw [hc] at hstate
      have hended := ht.all_ended (by simp [hc])
      have hconfig : batchConfig waiters = {} := batchConfig_empty fun q hq => h.queued q (by
        rw [items, hc]
        exact List.mem_append_left _ (List.mem_append_right _ hq))
      have hout := outcomes_step hs hended
      obtain rfl := Option.some.inj hs
      refine ⟨hplain, hqueued, fun u th hth => ?_, _, _, _, rfl, hout.trans hstate.1,
        List.getElem?_concat_length, runs_body hconfig hstate.2⟩
      rcases Nat.lt_trichotomy u g.space.threads.length with hlt | rfl | hgt
      · rw [List.getElem?_append_left hlt] at hth
        exact (h.alone u th hth).imp_right fun ⟨_, hcom⟩ => nomatch hc.symm.trans hcom
      · exact .inr ⟨waiters, rfl⟩
      · rw [List.getElem?_eq_none (by simp; omega)] at hth
        cases hth
  | finish waiters t r hc hr =>
      rw [hc] at hstate
      obtain ⟨batches, call, prog, hb, hout, hth, hruns⟩ := hstate
      -- the commit has returned with the outcome of the ledger
      obtain ⟨call', res, hth', rfl⟩ := Namespace.commitReply_eq_some hr
      cases hth.symm.trans hth'
      obtain ⟨hok, hquiet⟩ : Post g.handle _ waiters (.committed res) _ := hruns _ (.refl _)
      have hisOk : (commitReply res).isOk = res.isOk := by
        cases res <;> rfl
      refine ⟨hplain, hqueued, fun u th hu => ?_, ?_, ?_⟩
      · rcases h.alone u th hu with hdone | ⟨ws, hcom⟩
        · exact .inl hdone
        · obtain ⟨-, rfl⟩ := Committer.committing.inj (hc.symm.trans hcom)
          cases hth.symm.trans hu
          exact .inl ⟨_, rfl⟩
      · show outcomes g.space g.batches = (l.commitAll (records g.batches)).2.map some
        rw [hb, commitAll_records, List.map_append, ← hout]
        simp [outcomes, hr, hisOk, hok, List.map_const']
      · show Quiet g.handle (l.commitAll (records g.batches)).1 g.space.shared
        rw [hb, commitAll_records]
        exact hquiet
  | reply w rest t r hc =>
      rw [hc] at hstate
      refine ⟨hplain, hqueued, fun u th hth => ?_, hstate⟩
      exact (h.alone u th hth).imp_right fun ⟨_, hcom⟩ => nomatch hc.symm.trans hcom
  | rest t r hc =>
      rw [hc] at hstate
      refine ⟨hplain, hqueued, fun u th hth => ?_, hstate⟩
      exact (h.alone u th hth).imp_right fun ⟨_, hcom⟩ => nomatch hc.symm.trans hcom

/-! ## Isolation -/

/-- **Each request is on its own**: its outcome, and the live set, are those of committing each record
alone, in the order of arrival. -/
structure Isolated (l : Ledger) (g : GroupCommit) : Prop where
  outcomes : ∀ ticket, (g.reply ticket).map (·.isOk) =
    (l.commitEach (g.items.map (·.record))).2[ticket]?
  live : ∃ version rs, g.space.shared.Yields (allRecords g.handle) (.ok (version, rs)) ∧
    materialize rs = materialize (l.commitEach (g.items.map (·.record))).1.log

omit [Crates] [HashOrder] in
/-- When all were replied to, the replies are in the order of the tickets. -/
theorem reply_eq (h : g.replies.map (·.1) = List.range g.sent) (ticket : Nat) :
    g.reply ticket = g.replies[ticket]?.map (·.2) := by
  rw [reply]
  congr 1
  have hget : ∀ (n : Nat) (r : Nat × Except Flat Nat), g.replies[n]? = some r → r.1 = n := by
    intro n r hr
    have hn : (g.replies.map (·.1))[n]? = some r.1 := by rw [List.getElem?_map, hr]; rfl
    rw [h] at hn
    obtain ⟨hlt, heq⟩ := List.getElem?_eq_some_iff.mp hn
    rw [← heq, List.getElem_range]
  cases hr : g.replies[ticket]? with
  | none =>
      rw [List.find?_eq_none]
      intro r hmem hticket
      obtain ⟨n, hn⟩ := List.mem_iff_getElem?.mp hmem
      have hn' := hget n r hn
      rw [← hn', of_decide_eq_true hticket] at hn
      cases hr.symm.trans hn
  | some r =>
      cases hfind : g.replies.find? (fun r => r.1 = ticket) with
      | none =>
          have := List.find?_eq_none.mp hfind r (List.mem_of_getElem? hr)
          simp [hget ticket r hr] at this
      | some r' =>
          obtain ⟨n, hn⟩ := List.mem_iff_getElem?.mp (List.mem_of_find?_eq_some hfind)
          have hticket := List.find?_some hfind
          rw [← hget n r' hn, of_decide_eq_true hticket] at hn
          exact hn.symm.trans hr

/-- **In every run the namespace holds what the batches make of the ledger.** -/
theorem Reached.serial {p : Namespace} (hdone : ∀ (u : Nat) (th : Thread Request Request.Answer
    Call Outcome), p.threads[u]? = some th → ∃ r, th.prog = .done r) (hquiet : Quiet handle l p.shared)
    (h : Reached soloTerms handle p g) : g.Serial l := by
  refine h.invariant (I := Serial l) ?_ fun g a g' hg hI hok hs =>
    hI.step (Reached.tidy hg) hok (stepped hs)
  exact ⟨fun _ hw => (List.not_mem_nil hw).elim, fun _ hq => (List.not_mem_nil hq).elim,
    fun u th hth => .inl (hdone u th hth), rfl, hquiet⟩

omit [HashOrder] in
/-- At rest the replies are the outcomes of the ledger. -/
theorem Serial.replies (h : g.Serial l) (ht : g.Tidy) (hidle : g.committer = .idle) :
    g.replies.map (·.2.isOk) = (l.commitAll (records g.batches)).2 := by
  have hstate := h.state
  rw [hidle] at hstate
  obtain ⟨done, heq, hpaid⟩ := ht.paid
  rw [hidle] at heq
  have hdone : g.assigned = done := heq.trans (List.append_nil done)
  have hsame : List.Forall₂ (fun a r => (g.space.commitReply a.1).map (·.isOk) = some r.2.isOk) done
      g.replies := hpaid.imp fun a r hr => by rw [hr.2]; rfl
  have hmap : done.map (fun a => (g.space.commitReply a.1).map (·.isOk)) =
      g.replies.map fun r => some r.2.isOk :=
    List.forall₂_eq_eq_eq ▸ List.forall₂_map_left_iff.mpr (List.forall₂_map_right_iff.mpr hsame)
  have hout : outcomes g.space g.batches =
      g.assigned.map fun a => (g.space.commitReply a.1).map (·.isOk) := by
    simp [GroupCommit.outcomes, assigned, List.map_flatMap, Function.comp_def]
  rw [hdone, hmap, hstate.1] at hout
  refine List.map_injective_iff.mpr (Option.some_injective Bool) ?_
  rw [hout, List.map_map]
  rfl

/-- **Requests that share a batch** are isolated if and only if no batch is mixed. -/
theorem Reached.isolated_iff {p : Namespace} (hdone : ∀ (u : Nat) (th : Thread Request Request.Answer
    Call Outcome), p.threads[u]? = some th → ∃ r, th.prog = .done r) (hquiet : Quiet handle l p.shared)
    (h : Reached soloTerms handle p g) (hidle : g.committer = .idle) (hempty : g.queue = []) :
    g.Isolated l ↔ l.Unmixed (records g.batches) := by
  have ht := h.tidy
  have hserial := h.serial hdone hquiet
  obtain ⟨hiff, hledger⟩ := l.unmixed_iff (records g.batches)
  have hitems : (records g.batches).flatten = g.items.map (·.record) := by
    rw [items, hidle, hempty]
    simp [records, Committer.held, List.flatMap_def, Function.comp_def]
  rw [hitems] at hiff hledger
  have hreplies := hserial.replies ht hidle
  have houtcomes : (∀ ticket, (g.reply ticket).map (·.isOk) =
      (l.commitEach (g.items.map (·.record))).2[ticket]?) ↔
      (l.commitAll (records g.batches)).2 = (l.commitEach (g.items.map (·.record))).2 := by
    rw [← hreplies, List.ext_getElem?_iff]
    refine forall_congr' fun ticket => ?_
    rw [reply_eq (ht.answered hidle hempty), List.getElem?_map, Option.map_map]
    rfl
  refine ⟨fun hi => hiff.mpr (houtcomes.mp hi.outcomes), fun hu => ⟨houtcomes.mpr (hiff.mp hu), ?_⟩⟩
  -- the live set is what the ledger has
  have hstate := hserial.state
  rw [hidle] at hstate
  have hholds := hstate.2.holds
  obtain ⟨version, hyields⟩ := Store.Yields.allRecords g.handle hholds.reads hholds.kept
  exact ⟨version, _, hyields, by rw [hledger hu]⟩

end Runs

instance (g : GroupCommit) : (a : GroupAction) → Decidable (soloTerms g a)
  | .write _ config => inferInstanceAs (Decidable (config.isEmpty = true))
  | .run (.spawn _) => isFalse id
  | .run (.run _ .go) => isTrue rfl
  | .run (.run _ (.fail _)) => isFalse nofun
  | .run (.run _ (.count _)) => isFalse nofun
  | .run (.run _ (.entry _)) => isFalse nofun
  | .run (.run _ .manifestEntry) => isFalse nofun
  | .run (.run _ (.turn _)) => isFalse nofun
  | .run (.env _) => isTrue trivial
  | .send _ | .receive | .commit | .finish | .reply => isTrue trivial

/-- Nothing is left to do. -/
def resting (g : GroupCommit) : Bool :=
  match g.committer, g.queue with
  | .idle, [] => true
  | _, _ => false

theorem of_resting {g : GroupCommit} (h : g.resting = true) : g.committer = .idle ∧ g.queue = [] := by
  rw [resting] at h
  split at h
  · next hidle hempty => exact ⟨hidle, hempty⟩
  · cases h

/-- A namespace without data is quiet. -/
theorem quiet_empty (handle : Nat) : Quiet handle {} {} where
  holds := ⟨rfl, .nil, fun _ hn => (List.not_mem_nil hn).elim, fun _ hn => (List.not_mem_nil hn).elim,
    Nat.le_refl _⟩
  fresh := .inl rfl

/-- A batch of two records, and one that is rejected by itself. -/
def soloRun : List GroupAction :=
  [.write [.delete (.uint 1)] {}, .write [.delete (.uint 2), .delete (.string "a")] {}, .send 0,
    .send 1] ++ commits 2 6 0 ++ .send 1 :: commits 1 1 1

theorem soloRun_isolated :
    let _ := Crates.inert
    let _ := HashOrder.sorted
    ∃ g, execute step (start 0 ⟨{}, []⟩) soloRun = some g ∧
      g.replies.map (·.2.isOk) = [true, true, false] ∧ g.Isolated {} := by
  intro _ _
  have hrun : (execute step (start 0 ⟨{}, []⟩) soloRun).any (fun g =>
      g.resting = true ∧ g.replies.map (·.2.isOk) = [true, true, false] ∧
      g.batches.map (fun b => b.2.map (·.record)) =
        [[.delete (.uint 1), .delete (.uint 2)], [.delete (.string "a")]]) = true := by decide +kernel
  obtain ⟨g, hg, hcheck⟩ := (Option.any_eq_true _ _).mp hrun
  obtain ⟨hrest, hreplies, hbatches⟩ := of_decide_eq_true hcheck
  obtain ⟨hidle, hempty⟩ := of_resting hrest
  have hallowed : Allowed step soloTerms (start 0 ⟨{}, []⟩) soloRun := by decide +kernel
  have hiff := Reached.isolated_iff (l := {}) (fun _ _ hth => (List.not_mem_nil
    (List.mem_of_getElem? hth)).elim) (quiet_empty 0) (Reachable.init.execute hallowed hg) hidle hempty
  refine ⟨g, hg, hreplies, hiff.mpr ?_⟩
  rw [records, hbatches]
  exact ⟨.inl (by decide +kernel), .inr (by decide +kernel), trivial⟩

/-- A record is rejected, and with it the one it shares the batch with. -/
def mixedRun : List GroupAction :=
  [.write [.delete (.uint 1)] {}, .write [.delete (.string "a")] {}, .send 0, .send 1] ++ commits 2 2 0

/-- **A request fails because of another one.** -/
theorem mixedRun_not_isolated :
    let _ := Crates.inert
    let _ := HashOrder.sorted
    ¬ ∀ g, Reached soloTerms 0 ⟨{}, []⟩ g → g.committer = .idle → g.queue = [] → g.Isolated {} := by
  intro _ _ h
  have hrun : (execute step (start 0 ⟨{}, []⟩) mixedRun).any (fun g =>
      g.resting = true ∧ (g.reply 0).map (·.isOk) = some false ∧
      g.items.map (·.record) = [.delete (.uint 1), .delete (.string "a")]) = true := by decide +kernel
  obtain ⟨g, hg, hcheck⟩ := (Option.any_eq_true _ _).mp hrun
  obtain ⟨hrest, hreply, hitems⟩ := of_decide_eq_true hcheck
  obtain ⟨hidle, hempty⟩ := of_resting hrest
  have hallowed : Allowed step soloTerms (start 0 ⟨{}, []⟩) mixedRun := by decide +kernel
  have houtcome := (h g (Reachable.init.execute hallowed hg) hidle hempty).outcomes 0
  rw [hreply, hitems] at houtcome
  exact absurd houtcome (by decide +kernel)

end GroupCommit

end Fckdb
