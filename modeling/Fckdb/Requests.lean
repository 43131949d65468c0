import Fckdb.Delivery

/-! # Whole requests

A request is in one entry of the log or in none, and its `write_all` says which, if the committer never
cuts it: if it never begins to commit with a part of a request (`GroupCommit.Reached.allOrNothing`). It
does when it is faster than the writer, and when the request is longer than a batch
(`GroupCommit.overtaken_not_allOrNothing`). -/

namespace Fckdb

namespace GroupCommit

section Runs

variable [Crates] {g : GroupCommit}

/-- The records have all that was asked for by a writer, or nothing. -/
def KeepsWhole (waiters : List Req) (w : Writer) : Prop :=
  (∃ q ∈ waiters, q.ticket ∈ w.waits) →
    w.waits.length = w.records.length ∧ ∀ ticket ∈ w.waits, ∃ q ∈ waiters, q.ticket = ticket

omit [Crates] in
/-- Runs in which the committer cuts no request: of each request it has all records or none when it begins
to commit. -/
def wholeTerms : GroupTerms
  | g, .commit => ∀ w ∈ g.writers, KeepsWhole g.committer.held w
  | _, _ => True

/-- What a writer has sent stands in entry number `i` of the log, in order. -/
def InEntry (g : GroupCommit) (w : Writer) (i : Nat) : Prop :=
  ∃ js : List Nat, js.Pairwise (· < ·) ∧ List.Forall₂ (fun ticket j => g.Stands ticket i j) w.waits js

/-- **All or nothing.** Of each request the log has all records, in one entry and in order, or none; if
`write_all` returned `Ok`, all, in the entry it names, and if it returned an error, none. -/
structure AllOrNothing (g : GroupCommit) : Prop where
  seen : ∀ w ∈ g.writers, (∀ ticket ∈ w.waits, ∀ i j, ¬ g.Stands ticket i j) ∨
    w.waits.length = w.records.length ∧ ∃ i, g.InEntry w i
  ok : ∀ w ∈ g.writers, ∀ seq, g.returned w = some (.ok seq) → w.waits.length = w.records.length ∧
    ∃ i, g.InEntry w i ∧ ∀ c, g.space.shared.commits[i]? = some c → c.seq = seq
  failed : ∀ w ∈ g.writers, ∀ e, g.returned w = some (.error e) →
    ∀ ticket ∈ w.waits, ∀ i j, ¬ g.Stands ticket i j

/-! ## What `write_all` saw -/

omit [Crates] in
theorem mem_of_reply {ticket : Nat} {r : Except Flat Nat} (h : g.reply ticket = some r) :
    (ticket, r) ∈ g.replies := by
  obtain ⟨⟨k, r'⟩, hfind, hr⟩ := Option.map_eq_some_iff.mp h
  have hfound := List.find?_some hfind
  obtain rfl : k = ticket := of_decide_eq_true hfound
  obtain rfl : r' = r := hr
  exact List.mem_of_find?_eq_some hfind

omit [Crates] in
/-- `Ok` is the reply to the last record. -/
theorem awaitAll_ok {seq seq' : Nat} {waits : List Nat} (h : g.awaitAll seq waits = some (.ok seq'))
    (hne : waits ≠ []) : ∃ ticket ∈ waits, g.reply ticket = some (.ok seq') := by
  induction waits generalizing seq with
  | nil => exact absurd rfl hne
  | cons wait waits ih =>
      rw [awaitAll] at h
      split at h
      · cases h
      · cases h
      next seq₁ hreply =>
      by_cases hnil : waits = []
      · subst hnil
        cases h
        exact ⟨wait, List.mem_cons_self, hreply⟩
      · obtain ⟨ticket, hmem, hticket⟩ := ih h hnil
        exact ⟨ticket, List.mem_cons_of_mem _ hmem, hticket⟩

omit [Crates] in
/-- An error is the reply to a record. -/
theorem awaitAll_error {seq : Nat} {waits : List Nat} {e : Error}
    (h : g.awaitAll seq waits = some (.error e)) :
    ∃ ticket ∈ waits, ∃ f, g.reply ticket = some (.error f) := by
  induction waits generalizing seq with
  | nil => cases h
  | cons wait waits ih =>
      rw [awaitAll] at h
      split at h
      · cases h
      · next f hreply => exact ⟨wait, List.mem_cons_self, f, hreply⟩
      · obtain ⟨ticket, hmem, hticket⟩ := ih h
        exact ⟨ticket, List.mem_cons_of_mem _ hmem, hticket⟩

/-! ## Runs -/

variable [HashOrder]

/-- The batches cut no request. -/
def Whole (g : GroupCommit) : Prop := ∀ b ∈ g.batches, ∀ w ∈ g.writers, KeepsWhole b.2 w

omit [HashOrder] in
/-- A request of which a batch has a part stands with it. -/
theorem Whole.inEntry (h : g.Whole) (ht : g.Tidy) (ha : g.space.Authored) (hturn : g.InTurn)
    {w : Writer} (hw : w ∈ g.writers) (hwaits : Waits g.items w) {ticket i j : Nat}
    (hmem : ticket ∈ w.waits) (hs : g.Stands ticket i j) :
    w.waits.length = w.records.length ∧ g.InEntry w i := by
  obtain ⟨c, ws, q, -, hi, -, hb, hj, rfl, -, -⟩ := hs
  obtain ⟨hfull, hall⟩ := h _ hb w hw ⟨q, List.mem_of_getElem? hj, hmem⟩
  have hplace : ∀ k ∈ w.waits, ∃ n, g.Stands k i n := fun k hk => by
    obtain ⟨q', hq', rfl⟩ := hall k hk
    obtain ⟨n, hn⟩ := List.mem_iff_getElem?.mp hq'
    exact ⟨n, ht.stands ha hi hb hn⟩
  choose! place hstands using hplace
  refine ⟨hfull, w.waits.map place, ?_, ?_⟩
  · -- the writer sent in the order of its channels
    refine List.pairwise_map.mpr (hwaits.increasing.imp_of_mem fun {k k'} hk hk' hlt => ?_)
    rcases (hstands k hk).lt ht ha hturn (hstands k' hk') hlt with hii | ⟨-, hjj⟩
    · exact absurd hii (Nat.lt_irrefl i)
    · exact hjj
  · exact List.forall₂_map_right_iff.mpr (List.forall₂_same.mpr hstands)

/-- **A step cuts no request.** -/
theorem Whole.step {g' : GroupCommit} {a : GroupAction} (h : g.Whole) (ht : g.Tidy)
    (hok : wholeTerms g a) (hs : g.Stepped a g') : g'.Whole := by
  intro b hb w hw
  have hold : ∀ b ∈ g.batches, ∀ q ∈ b.2, q.ticket < g.sent := fun b hb q hq =>
    ht.ticket_lt (mem_items hb hq)
  cases hs with
  | write records config =>
      rcases List.mem_append.mp hw with hw | hw
      · exact h b hb w hw
      · obtain rfl := List.mem_singleton.mp hw
        exact fun ⟨_, _, hq⟩ => nomatch hq
  | send i w' record hw' hr =>
      rcases List.mem_or_eq_of_mem_set hw with hw | rfl
      · exact h b hb w hw
      · -- the new channel is in no batch, and a request in a batch was sent whole
        rintro ⟨q, hq, hmem⟩
        rcases List.mem_append.mp hmem with hmem | hmem
        · obtain ⟨hfull, -⟩ := h b hb w' (List.mem_of_getElem? hw') ⟨q, hq, hmem⟩
          rw [hfull, List.getElem?_eq_none (Nat.le_refl _)] at hr
          cases hr
        · exact absurd (hold b hb q hq) (List.mem_singleton.mp hmem ▸ Nat.lt_irrefl _)
  | commit waiters space hc hfull hs =>
      rcases List.mem_append.mp hb with hb | hb
      · exact h b hb w hw
      · obtain rfl := List.mem_singleton.mp hb
        have hwhole := hok w hw
        rw [hc] at hwhole
        exact hwhole
  | receive first rest _ _ => exact h b hb w hw
  | drain waiters item rest _ _ _ => exact h b hb w hw
  | run a space _ => exact h b hb w hw
  | finish waiters t r _ _ => exact h b hb w hw
  | reply q rest t r _ => exact h b hb w hw
  | rest t r _ => exact h b hb w hw

/-- **A request is written all or nothing**, in every interleaving, if the committer never cuts one. -/
theorem Reached.allOrNothing {handle : Nat} {p : Namespace} (hp : Reaches freeTerms p)
    (h : Reached wholeTerms handle p g) : g.AllOrNothing := by
  have hfree : Reached (terms freeTerms) handle p g := h.mono fun g a _ => terms_free g a
  have ht := h.tidy
  have ha := (hfree.space hp).authored
  have hturn := hfree.inTurn hp
  have hdelivered := hfree.delivered hp
  have hwhole : g.Whole := h.invariant (I := Whole) (fun _ hb => (List.not_mem_nil hb).elim)
    fun _ _ _ hg hI hok hs => hI.step (Reached.tidy hg) hok (stepped hs)
  have hentry {w : Writer} (hw : w ∈ g.writers) {ticket i j : Nat} (hmem : ticket ∈ w.waits)
      (hs : g.Stands ticket i j) := hwhole.inEntry ht ha hturn hw (h.waits w hw) hmem hs
  refine ⟨fun w hw => ?_, fun w hw seq hret => ?_, fun w hw e hret ticket hmem i j hs => ?_⟩
  · by_cases hnone : ∀ ticket ∈ w.waits, ∀ i j, ¬ g.Stands ticket i j
    · exact .inl hnone
    · push Not at hnone
      obtain ⟨ticket, hmem, i, j, hs⟩ := hnone
      exact .inr ((hentry hw hmem hs).imp_right fun hin => ⟨i, hin⟩)
  · rw [returned] at hret
    split_ifs at hret with hfull
    refine ⟨hfull, ?_⟩
    by_cases hnil : w.waits = []
    · refine ⟨g.space.shared.commits.length, ⟨[], .nil, by rw [hnil]; exact .nil⟩, fun c hc => ?_⟩
      rw [List.getElem?_eq_none (Nat.le_refl _)] at hc
      cases hc
    · obtain ⟨ticket, hmem, hreply⟩ := awaitAll_ok hret hnil
      obtain ⟨i, j, c, hi, hseq, hs, -⟩ := hdelivered.answered ticket seq (mem_of_reply hreply)
      refine ⟨i, (hentry hw hmem hs).2, fun c' hc' => ?_⟩
      obtain rfl := Option.some.inj (hi.symm.trans hc')
      exact hseq
  · rw [returned] at hret
    split_ifs at hret with hfull
    obtain ⟨ticket', hmem', f, hreply⟩ := awaitAll_error hret
    -- the rejected record would stand with the others
    obtain ⟨-, js, -, hall⟩ := hentry hw hmem hs
    obtain ⟨n, hn, rfl⟩ := List.getElem_of_mem hmem'
    exact hdelivered.rejected _ f (mem_of_reply hreply) i _ (hall.get hn (hall.length_eq ▸ hn))

end Runs

instance (waiters : List Req) (w : Writer) : Decidable (KeepsWhole waiters w) :=
  inferInstanceAs (Decidable (_ → _))

instance (g : GroupCommit) : (a : GroupAction) → Decidable (wholeTerms g a)
  | .commit => inferInstanceAs (Decidable (∀ w ∈ g.writers, KeepsWhole g.committer.held w))
  | .write _ _ | .send _ | .receive | .run _ | .finish | .reply => isTrue trivial

/-- A request of two records is sent while another one is committed, and follows as a whole. -/
def wholeRun : List GroupAction :=
  [.write [.upsert (.bare 1)] {}, .write [.upsert (.bare 2), .upsert (.bare 3)] {}, .send 0, .receive,
    .commit, .send 1] ++ (goes 0 6).map .run ++ [.finish, .reply, .reply, .send 1] ++ commits 2 5 1

theorem wholeRun_allOrNothing :
    let _ := Crates.inert
    let _ := HashOrder.sorted
    ∃ g, execute step (start 0 ⟨{}, []⟩) wholeRun = some g ∧
      g.writers.map (fun w => (g.returned w).bind (·.toOption)) = [some 0, some 1] ∧
      g.AllOrNothing := by
  intro _ _
  have hrun : (execute step (start 0 ⟨{}, []⟩) wholeRun).any
      (fun g => g.writers.map (fun w => (g.returned w).bind (·.toOption)) = [some 0, some 1]) =
        true := by decide +kernel
  obtain ⟨g, hg, hreturned⟩ := (Option.any_eq_true _ _).mp hrun
  have hallowed : Allowed step wholeTerms (start 0 ⟨{}, []⟩) wholeRun := by decide +kernel
  exact ⟨g, hg, of_decide_eq_true hreturned,
    Reached.allOrNothing .init (Reachable.init.execute hallowed hg)⟩

/-! ## A request that is cut -/

/-- The committer takes the first record of a request before the second one is sent. The first one is
committed; the store fails the commit of the second one. -/
def cutRun : List GroupAction :=
  [.write [.upsert (.bare 1), .upsert (.bare 2)] {}, .send 0] ++ commits 1 6 0 ++
    [.send 0, .receive, .commit, .run (.run 1 .go), .run (.run 1 (.fail "timeout")), .finish, .reply]

/-- The first record was committed, and the request failed. -/
def cut (g : GroupCommit) : Bool :=
  match g.space.shared.commits, g.batches, g.writers with
  | [c], [(t, [q]), _], [w] => c.thread = t && q.ticket ∈ w.waits &&
      (g.returned w).any fun r => !r.isOk
  | _, _, _ => false

/-- **A request that failed is in the log in part.** -/
theorem overtaken_not_allOrNothing :
    let _ := Crates.inert
    let _ := HashOrder.sorted
    ¬ ∀ g, Reached (terms freeTerms) 0 ⟨{}, []⟩ g → g.AllOrNothing := by
  intro _ _ h
  have hrun : (execute step (start 0 ⟨{}, []⟩) cutRun).any cut = true := by decide +kernel
  obtain ⟨g, hg, hcut⟩ := (Option.any_eq_true _ _).mp hrun
  have hreached : Reached (terms freeTerms) 0 ⟨{}, []⟩ g :=
    Reachable.init.execute (Allowed.of_forall terms_free _ _) hg
  rw [cut] at hcut
  split at hcut
  · next c t q b w hcommits hbatches hwriters =>
    simp only [Bool.and_eq_true, decide_eq_true_eq] at hcut
    obtain ⟨⟨hct, hmem⟩, hfailed⟩ := hcut
    obtain ⟨r, hret, hr⟩ := (Option.any_eq_true _ _).mp hfailed
    have hbatch : (c.thread, [q]) ∈ g.batches := by
      rw [hbatches, hct]
      exact List.mem_cons_self
    have hstands : g.Stands q.ticket 0 0 := hreached.tidy.stands (hreached.space .init).authored
      (by rw [hcommits]; rfl) hbatch rfl
    cases r with
    | ok seq => cases hr
    | error e =>
        exact (h g hreached).failed w (by rw [hwriters]; exact List.mem_cons_self) e hret q.ticket hmem
          0 0 hstands
  · cases hcut

end GroupCommit

end Fckdb
