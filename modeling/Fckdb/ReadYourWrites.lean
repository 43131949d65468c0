import Fckdb.LogSafety

/-! # Read your writes on one handle

Once a commit was acknowledged, an eventually consistent query on its handle includes it, if the handle
never goes back: if nothing it remembers is older than what it has remembered before
(`Reaches.reads_own`). A slow load takes it back (`overtaken_not_ownReads`). -/

namespace Fckdb

/-! ## What a manifest includes -/

/-- The manifest includes the commit with this sequence number: in its WAL, or in its segments, which
hold the first `n` commits. -/
def Store.Includes (s : Store) (seq : Nat) (m : Manifest) : Prop :=
  (∃ e ∈ m.wal, e.name.seq = seq) ∨ ∃ n rs, seq < n ∧ n ≤ s.commits.length ∧
    s.Reads m.segmentObjects rs ∧ materialize rs = materialize (batchesOf (s.commits.take n))

theorem Grows.includes {who : Nat → Prop} {s s' : Store} (h : Grows who s s') {seq : Nat}
    {m : Manifest} (hs : s.Includes seq m) : s'.Includes seq m := by
  refine hs.imp_right fun ⟨n, rs, hlt, hn, hrs, hm⟩ => ?_
  have hprefix : s.commits <+: s'.commits := h.isPrefix.filterMap _
  refine ⟨n, rs, hlt, hn.trans hprefix.length_le, h.reads hrs, ?_⟩
  rw [hm]
  congr 2
  rw [List.prefix_iff_eq_take.mp hprefix, List.take_take, Nat.min_eq_left hn]

/-- Version number `i` was written by a commit with this sequence number. -/
def Store.WonAt (s : Store) (seq i : Nat) : Prop :=
  ∃ v c, s.versions[i]? = some v ∧ v.commit? = some c ∧ c.seq = seq

theorem Grows.wonAt {who : Nat → Prop} {s s' : Store} (h : Grows who s s') {seq i : Nat}
    (hs : s.WonAt seq i) : s'.WonAt seq i := by
  obtain ⟨v, c, hi, hc⟩ := hs
  obtain ⟨hlt, rfl⟩ := List.getElem?_eq_some_iff.mp hi
  exact ⟨_, c, List.prefix_iff_getElem?.mp h.isPrefix i hlt, hc⟩

/-- **A version written after a commit includes it.** -/
theorem LogInv.includes {s : Store} (h : LogInv s) {seq i n : Nat} (hw : s.WonAt seq i) (hn : i < n) :
    s.Includes seq (lastManifest (s.versions.take n)) := by
  have hlog := h.logged n
  obtain ⟨v, c, hi, hc, hseq⟩ := hw
  -- the commit is in the log of the version, at its number
  have hmem : c ∈ logOf (s.versions.take n) :=
    List.mem_filterMap.mpr ⟨v, List.mem_of_getElem? ((List.getElem?_take_of_lt hn).trans hi), hc⟩
  obtain ⟨j, hj, rfl⟩ := List.getElem_of_mem hmem
  have hnumber : j = seq := by
    rw [← hseq, ← List.getElem_map Commit.seq (h := by rwa [List.length_map])]
    simp only [hlog.seqs, List.getElem_range]
  subst hnumber
  rcases Nat.lt_or_ge j (lastManifest (s.versions.take n)).retired with hret | hret
  · obtain ⟨rs, hrs, hm⟩ := hlog.segments
    have hfolded := Logged.folded_le (s.versions.take n)
    refine .inr ⟨_, rs, hret.trans_le hlog.overlap,
      hfolded.trans (logOf_take_isPrefix s.versions n).length_le, hrs, ?_⟩
    rw [hm, logOf_take, List.take_take, Nat.min_eq_left hfolded]
    rfl
  · refine .inl ⟨_, ?_, hseq⟩
    rw [hlog.wal]
    refine List.mem_map_of_mem (List.mem_drop_iff_getElem.mpr ?_)
    exact ⟨j - (lastManifest (s.versions.take n)).retired, by omega, by congr 1; omega⟩

/-! ## Handles that do not go back -/

/-- The handles remember the latest version they were given. -/
def Store.Ahead (s : Store) : Prop :=
  ∀ handle snap, s.handles handle = some snap → s.published handle ≤ seen snap.version

/-- A request changes the handles only to remember or to forget. -/
theorem Store.exec_handles {t : Nat} {s s' : Store} {r : Request} {c : Choice} {x : r.Answer}
    (h : s.exec t r c = some (s', x)) :
    s'.handles = s.handles ∧ s'.published = s.published ∨
      (∃ handle m version, r = .remember handle m version ∧
        s' = s.setHandle handle (some ⟨m, version, s.clock⟩)) ∨
      ∃ handle, r = .forget handle ∧ s' = s.setHandle handle none := by
  cases r with
  | remember handle m version =>
      cases c <;> cases h
      exact .inr (.inl ⟨handle, m, version, rfl, rfl⟩)
  | forget handle =>
      cases c <;> cases h
      exact .inr (.inr ⟨handle, rfl, rfl⟩)
  | _ =>
      refine .inl ?_
      cases c <;> rw [exec.eq_def] at h <;> dsimp only at h <;> (repeat' split at h) <;> cases h <;>
        exact ⟨rfl, rfl⟩

/-- Runs of calls that delete nothing, in which an install over hollow shards has read what is retired,
and no handle remembers a version older than one it has remembered. -/
def ownTerms : Terms where
  call := Call.Keeps
  op
    | _, s, .putManifest _ mode (.compaction base read) => s.admits mode = true → s.InstallReads base read
    | _, s, .remember handle _ version => s.published handle ≤ seen version
    | _, _, _ => True
  env _ _ := True

section Runs

variable [Crates] [HashOrder] {p : Namespace}

theorem Reaches.own_log (h : Reaches ownTerms p) : Reaches logTerms p := by
  refine h.mono fun p a hok => hok.mono (fun _ h => h) (fun t s r hr => ?_) fun _ _ h => h
  cases r with
  | putManifest m mode reason =>
      cases reason with
      | commit batch => trivial
      | compaction base read => exact hr
  | _ => trivial

theorem Reaches.ahead (h : Reaches ownTerms p) : p.shared.Ahead := by
  refine Reachable.invariant (I := fun p => p.shared.Ahead) nofun (fun p a p' _ hp hok hs => ?_) h
  cases a with
  | spawn call =>
      obtain rfl := Option.some.inj hs
      exact hp
  | env nanos =>
      obtain rfl := Option.some.inj hs
      exact hp
  | run t c =>
      obtain ⟨th, op, next, s', x, hth, hprog, hx, rfl⟩ := service.step_run_cases hs
      have hallowed := hok th op next hth hprog
      rcases Store.exec_handles hx with ⟨hh, hpub⟩ | ⟨handle, m, version, rfl, rfl⟩ | ⟨handle, rfl, rfl⟩
      · intro handle snap hsnap
        rw [hpub]
        exact hp handle snap (hh ▸ hsnap)
      · -- what is remembered is the latest so far
        have hlatest : p.shared.published handle ≤ seen version := hallowed
        intro handle' snap hsnap
        simp only [Store.setHandle] at hsnap ⊢
        split_ifs at hsnap ⊢ with heq
        · obtain rfl := Option.some.inj hsnap
          exact max_le (heq ▸ hlatest) (Nat.le_refl _)
        · exact hp handle' snap hsnap
      · intro handle' snap hsnap
        simp only [Store.setHandle] at hsnap ⊢
        split_ifs at hsnap ⊢ with heq
        exact hp handle' snap hsnap

/-! ## What a query uses -/

/-- The rest of a query that has chosen its manifest. -/
def queryRest (req : QueryRequest) (m : Manifest) (fromSnapshot : Bool) : StoreProg Outcome :=
  Prog.bind (queryOn F64 req m fromSnapshot) fun r => .done (.answered r)

/-- A query about to load the stored manifest. -/
def Loading (handle : Nat) (req : QueryRequest) (prog : StoreProg Outcome) : Prop :=
  ∃ next, prog = .ask .getManifest next ∧
    (∀ e, next (.error e) = .done (.answered (.error e))) ∧
    next (.ok none) = queryRest req {} false ∧
    ∀ m v, next (.ok (some (m, v))) =
      .ask (.remember handle m (some v)) fun _ => queryRest req m false

/-- A query that has looked at its handle. -/
def queryFrom (handle : Nat) (req : QueryRequest) (cached : Option Manifest) : StoreProg Outcome :=
  Prog.bind (Proc.andThen (match cached with
    | some m => Proc.ret (m, true)
    | none => Proc.andThen (load handle) fun x => Proc.ret (x.1, false)) fun x =>
      queryOn F64 req x.1 x.2) fun r => .done (.answered r)

/-- An eventually consistent query looks at its handle first. -/
theorem body_query {handle maxAgeMs : Nat} {req : QueryRequest}
    (hreq : req.consistency = .eventual maxAgeMs) :
    ∃ next, (Call.query handle req).body = .ask (.view handle) next ∧ ∀ snapshot time,
      (∃ snap, snapshot = some snap ∧ next (snapshot, time) = queryRest req snap.manifest true) ∨
        Loading handle req (next (snapshot, time)) := by
  have hbody : (Call.query handle req).body =
      Prog.bind (Proc.andThen (loadWith handle (.eventual maxAgeMs)) fun x => queryOn F64 req x.1 x.2)
        fun r => .done (.answered r) := by
    rw [← hreq]
    rfl
  refine ⟨_, hbody, fun snapshot time => ?_⟩
  have hload : Loading handle req (queryFrom handle req none) :=
    ⟨_, rfl, fun _ => rfl, rfl, fun _ _ => rfl⟩
  cases snapshot with
  | none => exact .inr hload
  | some snap =>
      -- its age decides
      show (∃ snap', some snap = some snap' ∧
        queryFrom handle req (if time - snap.takenAt ≤ maxAgeMs * 10 ^ 6 then some snap.manifest
          else none) = queryRest req snap'.manifest true) ∨
        Loading handle req (queryFrom handle req (if time - snap.takenAt ≤ maxAgeMs * 10 ^ 6 then
          some snap.manifest else none))
      split_ifs
      · exact .inl ⟨snap, rfl, rfl⟩
      · exact .inr hload

/-- **How far a query has come**: it is asking its handle, or loading, or going on with a manifest that
includes the commit, or it has failed. -/
inductive Uses (s : Store) (seq handle : Nat) (req : QueryRequest) (prog : StoreProg Outcome) : Prop
  | asking (h : prog = (Call.query handle req).body)
  | loading (h : Loading handle req prog)
  | loaded (m : Manifest) (v : Nat) (included : s.Includes seq m)
      (h : prog = .ask (.remember handle m (some v)) fun _ => queryRest req m false)
  | going (m : Manifest) (fromSnapshot : Bool) (included : s.Includes seq m)
      (h : (queryRest req m fromSnapshot).Leads prog)
  | failed (e : Error) (h : prog = .done (.answered (.error e)))

theorem Uses.grows {who : Nat → Prop} {s s' : Store} {seq handle : Nat} {req : QueryRequest}
    {prog : StoreProg Outcome} (hu : Uses s seq handle req prog) (hg : Grows who s s') :
    Uses s' seq handle req prog := by
  cases hu with
  | asking h => exact .asking h
  | loading h => exact .loading h
  | loaded m v hi h => exact .loaded m v (hg.includes hi) h
  | going m fs hi h => exact .going m fs (hg.includes hi) h
  | failed e h => exact .failed e h

/-- **A step of a query** whose handle remembers the commit or a later one. -/
theorem Uses.step {s s' : Store} {seq i handle maxAgeMs t : Nat} {req : QueryRequest}
    (hreq : req.consistency = .eventual maxAgeMs) (hlog : LogInv s) (hsound : s.Sound)
    (hahead : s.Ahead) (hwon : s.WonAt seq i) (hpub : i < s.published handle)
    (hg : Grows (fun _ => True) s s') {r : Request} {next : r.Answer → StoreProg Outcome} {c : Choice}
    {x : r.Answer} (hx : s.exec t r c = some (s', x)) (hu : Uses s seq handle req (.ask r next)) :
    Uses s' seq handle req (next x) := by
  have hlen : i < s.versions.length := by
    obtain ⟨v, -, hi, -⟩ := hwon
    exact (List.getElem?_eq_some_iff.mp hi).1
  cases hu with
  | asking h =>
      obtain ⟨next', hbody, hnext⟩ := body_query hreq
      rw [hbody] at h
      cases h
      cases c <;> cases hx
      rcases hnext (s.handles handle) s.clock with ⟨snap, hsnap, heq⟩ | hload
      · -- the handle remembers the commit
        have hat := hsound.handles handle snap hsnap
        have hincl := hlog.includes hwon (hpub.trans_le (hahead handle snap hsnap))
        rw [heq]
        exact .going snap.manifest true (hat.eq ▸ hincl) .start
      · exact .loading hload
  | loading h =>
      obtain ⟨next', hask, herror, -, hsome⟩ := h
      cases hask
      cases c <;> cases hx
      · -- the stored manifest is the latest
        have hcurrent : s.current = some (s.manifest, s.versions.length - 1) := by
          rw [Store.current, hlog.dropped, if_pos (Nat.zero_lt_of_lt hlen), hlog.manifest_eq,
            lastManifest, List.getLast?_eq_some_getLast (List.ne_nil_of_length_pos
              (Nat.zero_lt_of_lt hlen))]
          rfl
        have hincl := hlog.includes hwon hlen
        rw [List.take_length, ← hlog.manifest_eq] at hincl
        rw [hcurrent, hsome]
        exact .loaded _ _ hincl rfl
      · rw [herror]
        exact .failed _ rfl
  | loaded m v hi h =>
      cases h
      cases c <;> cases hx
      exact .going m false (hg.includes hi) .start
  | going m fs hi h => exact .going m fs (hg.includes hi) (h.answer x)
  | failed e h => cases h

/-! ## Acknowledged commits -/

/-- The commit with this number, through this handle, was acknowledged. -/
def Namespace.Acknowledged (p : Namespace) (handle seq : Nat) : Prop :=
  ∃ (t : Nat) (th : Thread Request Request.Answer Call Outcome) (attempts : Nat)
    (records : List Record) (config : WriteConfig), p.threads[t]? = some th ∧
    th.call = .commitRecords handle records config ∧ th.prog = .done (.committed (.ok (seq, attempts)))

theorem Reaches.acknowledged {ok : Terms} (h : Reaches ok p) {handle seq : Nat}
    (hack : p.Acknowledged handle seq) :
    ∃ i, p.shared.WonAt seq i ∧ i < p.shared.published handle := by
  obtain ⟨t, th, attempts, records, config, hth, hcall, hdone⟩ := hack
  obtain ⟨i, ⟨v, c, hi, -, hc, hseq⟩, hpub⟩ := h.returned hth hdone
  rw [hcall] at hpub
  exact ⟨i, ⟨v, c, hi, hc, hseq⟩, hpub⟩

/-- Every query that starts later on the handle goes by a manifest that includes the commit. -/
theorem Reaches.uses_later (h : Reaches ownTerms p) {handle seq : Nat}
    (hack : p.Acknowledged handle seq) {p' : Namespace}
    (hlater : Reachable service.step (fun p a => ownTerms.Meets p a) p p') :
    Reaches ownTerms p' ∧ (∃ i, p'.shared.WonAt seq i ∧ i < p'.shared.published handle) ∧
      ∀ (u : Nat) (th : Thread Request Request.Answer Call Outcome) (req : QueryRequest)
        (maxAgeMs : Nat), p.threads.length ≤ u → p'.threads[u]? = some th →
        th.call = .query handle req → req.consistency = .eventual maxAgeMs →
        Uses p'.shared seq handle req th.prog := by
  induction hlater with
  | init =>
      refine ⟨h, h.acknowledged hack, fun u th req maxAgeMs hu hth => ?_⟩
      rw [List.getElem?_eq_none hu] at hth
      cases hth
  | @step q q' a _ hok hs ih =>
      obtain ⟨hq, ⟨i, hwon, hpub⟩, hthreads⟩ := ih
      have hg := hq.grows_step hok hs
      refine ⟨Reachable.step a hq hok hs, ⟨i, hg.wonAt hwon, hpub.trans_le (hg.published handle)⟩, ?_⟩
      intro u th req maxAgeMs hu hth hcall hreq
      cases a with
      | env nanos =>
          obtain rfl := Option.some.inj hs
          exact (hthreads u th req maxAgeMs hu hth hcall hreq).grows hg
      | spawn call =>
          obtain rfl := Option.some.inj hs
          rcases Nat.lt_trichotomy u q.threads.length with hlt | rfl | hgt
          · rw [List.getElem?_append_left hlt] at hth
            exact hthreads u th req maxAgeMs hu hth hcall hreq
          · rw [List.getElem?_concat_length] at hth
            obtain rfl := Option.some.inj hth
            exact .asking (congrArg Call.body hcall)
          · rw [List.getElem?_eq_none (by simp; omega)] at hth
            cases hth
      | run t c =>
          obtain ⟨th', r, next, s', x, hth', hprog, hx, rfl⟩ := service.step_run_cases hs
          by_cases hut : t = u
          · subst hut
            rw [List.getElem?_set_self (List.getElem?_eq_some_iff.mp hth').1] at hth
            obtain rfl := Option.some.inj hth
            have huse := hthreads t th' req maxAgeMs hu hth' hcall hreq
            rw [hprog] at huse
            exact huse.step hreq hq.own_log.logInv hq.sound hq.ahead hwon hpub hg hx
          · rw [List.getElem?_set_ne hut] at hth
            exact (hthreads u th req maxAgeMs hu hth hcall hreq).grows hg

/-- **Read your writes.** An eventually consistent query on the handle of an acknowledged commit gets a
manifest that includes it: if it loads now, and, in any interleaving, if it starts later. -/
structure OwnReads (ok : Terms) (p : Namespace) : Prop where
  now : ∀ handle seq, p.Acknowledged handle seq → ∀ maxAgeMs m fromSnapshot,
    p.shared.Yields (loadWith handle (.eventual maxAgeMs)) (.ok (m, fromSnapshot)) →
    p.shared.Includes seq m
  later : ∀ handle seq, p.Acknowledged handle seq → ∀ p',
    Reachable service.step (fun p a => ok.Meets p a) p p' →
    ∀ (u : Nat) (th : Thread Request Request.Answer Call Outcome) (req : QueryRequest)
      (maxAgeMs : Nat), p.threads.length ≤ u → p'.threads[u]? = some th →
      th.call = .query handle req → req.consistency = .eventual maxAgeMs →
      Uses p'.shared seq handle req th.prog

omit [Crates] [HashOrder] in
/-- What an eventually consistent load finds on a quiet store: the handle's snapshot, or the stored
manifest. -/
theorem Store.Yields.loadWith_eventual {s : Store} {handle maxAgeMs : Nat} {m : Manifest}
    {fromSnapshot : Bool} (h : s.Yields (loadWith handle (.eventual maxAgeMs)) (.ok (m, fromSnapshot))) :
    (∃ snap, s.handles handle = some snap ∧ snap.manifest = m) ∨ m = s.manifest := by
  -- the handle is looked at first
  have hview : s.Yields (cachedManifest handle (.eventual maxAgeMs))
      (.ok ((s.handles handle).bind fun snap =>
        if s.clock - snap.takenAt ≤ maxAgeMs * 10 ^ 6 then some snap.manifest else none)) := rfl
  have hloaded : s.Yields (Proc.andThen (Fckdb.load handle)
      fun x : Manifest × Option Nat => Proc.ret (x.1, false)) (.ok (s.manifest, false)) :=
    .seq (.load handle) (.ret _)
  have hfresh : (s.handles handle).bind (fun snap =>
      if s.clock - snap.takenAt ≤ maxAgeMs * 10 ^ 6 then some snap.manifest else none) = none →
      m = s.manifest := by
    intro hnone
    rw [hnone] at hview
    cases h.unique (hview.seq hloaded)
    rfl
  cases hsnap : s.handles handle with
  | none => exact .inr (hfresh (by rw [hsnap]; rfl))
  | some snap =>
      by_cases hage : s.clock - snap.takenAt ≤ maxAgeMs * 10 ^ 6
      · have hcached : s.Yields (cachedManifest handle (.eventual maxAgeMs))
            (.ok (some snap.manifest)) := by
          rw [hsnap, Option.bind_some, if_pos hage] at hview
          exact hview
        cases h.unique (hcached.seq (.ret (snap.manifest, true)))
        exact .inl ⟨snap, rfl, rfl⟩
      · refine .inr (hfresh ?_)
        rw [hsnap, Option.bind_some, if_neg hage]

/-- **Acknowledged commits are read on their handle** in every interleaving, if no handle goes back. -/
theorem Reaches.reads_own (h : Reaches ownTerms p) : OwnReads ownTerms p := by
  refine ⟨fun handle seq hack maxAgeMs m fs hm => ?_, fun handle seq hack p' hlater =>
    (h.uses_later hack hlater).2.2⟩
  obtain ⟨i, hwon, hpub⟩ := h.acknowledged hack
  have hlog := h.own_log.logInv
  rcases hm.loadWith_eventual with ⟨snap, hsnap, rfl⟩ | rfl
  · have hat := h.sound.handles handle snap hsnap
    rw [hat.eq]
    exact hlog.includes hwon (hpub.trans_le (h.ahead handle snap hsnap))
  · obtain ⟨v, c, hi, hc⟩ := hwon
    have hlen := (List.getElem?_eq_some_iff.mp hi).1
    have hincl := hlog.includes ⟨v, c, hi, hc⟩ hlen
    rwa [List.take_length, ← hlog.manifest_eq] at hincl

end Runs

instance (call : Call) : Decidable (ownTerms.call call) := inferInstanceAs (Decidable call.Keeps)

instance (t : Nat) (s : Store) : (r : Request) → Decidable (ownTerms.op t s r)
  | .putManifest _ mode (.compaction base read) =>
    inferInstanceAs (Decidable (s.admits mode = true → s.InstallReads base read))
  | .remember handle _ version => inferInstanceAs (Decidable (s.published handle ≤ seen version))
  | .putManifest _ _ (.commit _) => isTrue trivial
  | .getManifest | .putNew _ _ | .get _ | .delete _ | .list _ | .next _ | .deleteManifest | .listAll
  | .nextAny | .now _ | .view _ | .forget _ | .choose => isTrue trivial

instance (s : Store) (nanos : Nat) : Decidable (ownTerms.env s nanos) := isTrue trivial

/-- The thread has returned from a commit with this number, through this handle. -/
def Namespace.acknowledges (p : Namespace) (t handle seq : Nat) : Bool :=
  match p.threads[t]? with
  | some ⟨.commitRecords h _ _, .done (.committed (.ok (n, _)))⟩ => h = handle && n = seq
  | _ => false

theorem Namespace.acknowledged_of {p : Namespace} {t handle seq : Nat}
    (h : p.acknowledges t handle seq = true) : p.Acknowledged handle seq := by
  rw [acknowledges] at h
  split at h
  · next h' records config n attempts hth =>
    obtain ⟨rfl, rfl⟩ := (Bool.and_eq_true _ _).mp h |>.imp of_decide_eq_true of_decide_eq_true
    exact ⟨t, _, attempts, records, config, hth, rfl, rfl⟩
  · cases h

/-- A strong query loads a manifest while a document is written. It remembers what it loaded before the
commit remembers its own. -/
def ownRun : List Act :=
  .spawn (.commitRecords 0 [.upsert (.bare 1)] {}) :: goes 0 6 ++
    .spawn (.query 0 { vector := [] }) :: goes 1 1 ++
    .spawn (.commitRecords 0 [.upsert (.bare 2)] {}) :: goes 2 4 ++ goes 1 1 ++ goes 2 1

theorem ownRun_reads_own :
    let _ := Crates.inert
    let _ := HashOrder.sorted
    ∃ p : Namespace, execute service.step ⟨{}, []⟩ ownRun = some p ∧ p.Acknowledged 0 1 ∧
      OwnReads ownTerms p := by
  intro _ _
  have hrun : (execute service.step ⟨{}, []⟩ ownRun).any (fun p : Namespace => p.acknowledges 2 0 1) = true := by
    decide +kernel
  obtain ⟨p, hp, hack⟩ := (Option.any_eq_true _ _).mp hrun
  have hallowed : Allowed service.step (fun p a => ownTerms.Meets p a) ⟨{}, []⟩ ownRun := by
    decide +kernel
  exact ⟨p, hp, Namespace.acknowledged_of hack, Reaches.reads_own (Reachable.init.execute hallowed hp)⟩

/-! ## A slow load -/

/-- The same, but the query remembers after the commit. -/
def overtakenRun : List Act :=
  .spawn (.commitRecords 0 [.upsert (.bare 1)] {}) :: goes 0 6 ++
    .spawn (.query 0 { vector := [] }) :: goes 1 1 ++
    .spawn (.commitRecords 0 [.upsert (.bare 2)] {}) :: goes 2 5 ++ goes 1 1

/-- The handle's manifest lacks the commit: it is not in the WAL, and there are no segments. -/
def Namespace.lacks (p : Namespace) (handle seq : Nat) : Bool :=
  match Prog.eval p.shared.peek (loadWith handle (.eventual 0)) with
  | some (.ok (m, _)) => (m.wal.all fun e => e.name.seq ≠ seq) && m.segmentObjects.isEmpty &&
      (List.range (p.shared.commits.length + 1)).all fun n =>
        n ≤ seq || (materialize (batchesOf (p.shared.commits.take n))).keys ≠ []
  | _ => false

theorem OwnReads.not_lacks {ok : Terms} [Crates] [HashOrder] {p : Namespace} (h : OwnReads ok p)
    {handle seq : Nat} (hack : p.Acknowledged handle seq) : p.lacks handle seq = false := by
  rw [Bool.eq_false_iff]
  intro hlacks
  rw [Namespace.lacks] at hlacks
  split at hlacks
  · next m fs hload =>
    simp only [Bool.and_eq_true, List.all_eq_true] at hlacks
    obtain ⟨⟨hwal, hsegments⟩, hfold⟩ := hlacks
    rcases h.now handle seq hack 0 m fs hload with ⟨e, he, heq⟩ | ⟨n, rs, hlt, hn, hrs, hm⟩
    · exact of_decide_eq_true (hwal e he) heq
    · rw [List.isEmpty_iff.mp hsegments] at hrs
      obtain rfl := hrs.unique .nil
      have := hfold n (List.mem_range.mpr (Nat.lt_succ_of_le hn))
      rw [← hm] at this
      simp [Nat.not_le.mpr hlt] at this
      exact this rfl
  · cases hlacks

/-- **A slow load takes the handle back** behind an acknowledged commit. -/
theorem overtaken_not_ownReads :
    let _ := Crates.inert
    let _ := HashOrder.sorted
    ¬ ∀ p, Reaches keepTerms p → OwnReads keepTerms p := by
  intro _ _ h
  have hrun : (execute service.step ⟨{}, []⟩ overtakenRun).any
      (fun p : Namespace => p.acknowledges 2 0 1 && p.lacks 0 1) = true := by
    decide +kernel
  obtain ⟨p, hp, hboth⟩ := (Option.any_eq_true _ _).mp hrun
  have hallowed : Allowed service.step (fun p a => keepTerms.Meets p a) ⟨{}, []⟩ overtakenRun := by
    decide +kernel
  obtain ⟨hack, hlacks⟩ := (Bool.and_eq_true _ _).mp hboth
  have hreads := h p (Reachable.init.execute hallowed hp)
  exact Bool.noConfusion ((hreads.not_lacks (Namespace.acknowledged_of hack)).symm.trans hlacks)

end Fckdb
