import Fckdb.Committer
import Fckdb.QueryReads
import Fckdb.ReadYourWrites

/-! # Queries take effect at one moment

A query reads its objects one after the other, while commits, compactions and collections go on. Objects never
change, and one that is still there was there when the manifest was current. So an answer is the one that the
query gets, alone, at one moment of the run: between its call and its return if it is strongly consistent or says
that it is consistent (`Reaches.query_linearizes`). -/

namespace Fckdb

open Prog

/-! ## Reading while the store goes on -/

section Reading

variable {α : Type} {P : ObjectName → Prop} {ok : Terms} {t : Nat} {s₀ : Store}

/-- The parts of a `join_all` have computed what it computes. -/
theorem Store.Gives.of_forall₂ {s : Store} {ps : List (Proc α)} {as : List α}
    (h : List.Forall₂ (fun p a => s.Gives p (.ok a)) ps as) : s.Gives (Proc.tryJoinAll ps) (.ok as) := by
  have hpairs : ∀ x ∈ ps.zip as, s.Gives x.1 (.ok x.2) := fun x hx => (List.forall₂_iff_zip.mp h).2 hx
  have hjoin := Store.Gives.tryJoinAll hpairs
  rwa [List.map_fst_zip h.length_eq.le, List.map_snd_zip h.length_eq.ge] at hjoin

variable [Crates] [HashOrder]

/-- **What a reader computes while the store goes on** is what it computes at `s₀`. -/
theorem Proc.Reads.calmly {p : Proc α} (h : p.Reads P) (hwritten : ∀ name, P name → ∃ put, s₀.written name = some put) :
    Calmly ok t (Grows (fun _ => True) s₀) p fun a _ => s₀.Gives p (.ok a) := by
  have hgrows : Stable (Rely t) (Grows (fun _ => True) s₀) :=
    fun s s' h hs => hs.trans (h.mono fun _ _ => trivial)
  induction h with
  | done r =>
      refine Triple.done hgrows fun s hs => ?_
      cases r with
      | error e => trivial
      | ok a => rfl
  | @get name hname =>
      refine Calmly.ask hgrows (stable_ends (fun _ _ _ _ h => h) stable_true) fun s c s' x hs hx => ?_
      cases c with
      | go =>
          rw [Store.exec.eq_def] at hx
          dsimp only at hx
          split at hx
          · next put hput =>
            cases hx
            obtain ⟨put₀, hput₀⟩ := hwritten name hname
            obtain rfl := Option.some.inj ((hs.written hput₀).symm.trans (Store.written_of_object hput))
            rw [Store.object] at hput
            split_ifs at hput with hdeleted
            have hthere : name ∉ s₀.deleted := fun hmem => hdeleted (hs.deleted.subset hmem)
            exact ⟨rfl, .readBlob (by rw [Store.object, if_neg hthere, hput₀])⟩
          · cases hx
            exact ⟨rfl, trivial⟩
      | fail msg =>
          cases hx
          exact ⟨rfl, trivial⟩
      | _ => cases hx
  | seq _ _ hp hf =>
      refine .after hgrows hp (fun _ h => h) fun a s hs => ((hf a) s hs.2).imp ?_
      rintro (e | b) s' hb
      · trivial
      · exact hs.1.seq hb
  | @tryJoinAll α ps _ h =>
      have hjoin := Calmly.tryJoinAll (Q := fun (p : Proc α) a _ => s₀.Gives p (.ok a)) (fun _ _ _ _ _ h => h) h
      rw [List.map_id'] at hjoin
      refine hjoin.conseq (fun _ h => h) ?_
      rintro (e | as) s has
      · trivial
      · exact .of_forall₂ has

/-- A query that goes on with the manifest of `s₀`. -/
theorem queryRest_safe {m : Manifest} (hm : Grounded s₀ m) (req : QueryRequest) (snapshot : Bool) {s : Store}
    (hs : Grows (fun _ => True) s₀ s) : Safe (service.Answers ok t) (Rely t) Calm
      (fun out _ => ∀ r, out = .answered (.ok r) → s₀.Gives (queryOn F64 req m snapshot) (.ok r))
      (queryRest req m snapshot) s := by
  refine ((queryOn_reads snapshot).calmly hm.written s hs).bind fun out s' hout s'' hs'' r hr => ?_
  obtain rfl := Outcome.answered.inj hr
  exact hout s'' hs''

end Reading

/-! ## Moments of a run -/

section Runs

variable [Crates] [HashOrder] {ok : Terms} {p₀ p p' q : Namespace}

/-- The run goes on from `p` to `p'`. -/
abbrev Namespace.Continues (ok : Terms) (p p' : Namespace) : Prop :=
  Reachable service.step (fun p a => ok.Meets p a) p p'

theorem Namespace.Continues.trans (h : p.Continues ok q) (h' : q.Continues ok p') : p.Continues ok p' :=
  h'.invariant h fun _ a _ _ hs hok hstep => hs.step a hok hstep

theorem Reaches.continues (h : Reaches ok p) (hc : p.Continues ok p') : Reaches ok p' :=
  hc.invariant h fun _ a _ _ hs hok hstep => hs.step a hok hstep

theorem Reaches.grows_run (h : Reaches ok p) (hc : p.Continues ok p') : Grows (fun _ => True) p.shared p'.shared := by
  induction hc with
  | init => exact .refl _
  | step a hc hok hs ih => exact ih.trans ((h.continues hc).grows_step hok hs)

/-- A step writes at most one version, and then does not delete the manifest. -/
theorem Reaches.versions_step (h : Reaches ok p) {a : Act} (hok : ok.Meets p a) (hs : service.step p a = some p') :
    p'.shared.versions = p.shared.versions ∨ ∃ v, p'.shared = p.shared.push v := by
  rcases h.step_guar hok hs with ⟨t, c, call, op, next, x, -, -, -, hg⟩ | ⟨nanos, heq⟩
  · exact hg.2.versions.imp_right fun ⟨_, v, _, hv, _⟩ => ⟨v, hv⟩
  · exact .inl (by rw [heq])

/-- **Every version was current at a moment.** -/
theorem Reaches.moment (h : Reaches ok p) {v : Nat} (hv : v < p.shared.versions.length) :
    ∃ q, Reaches ok q ∧ q.Continues ok p ∧ q.shared.manifest = p.shared.manifestAt (some v) := by
  induction h with
  | init => cases hv
  | @step p p' a h hok hs ih =>
      have hp : Reaches ok p := h
      have hg := hp.grows_step hok hs
      by_cases hold : v < p.shared.versions.length
      · have hle : seen (some v) ≤ p.shared.versions.length := Nat.succ_le_of_lt hold
        obtain ⟨q, hq, hc, hm⟩ := ih hold
        exact ⟨q, hq, hc.step a hok hs, hm.trans (hg.manifestAt hle).symm⟩
      · -- the version is the one that is written now
        rcases hp.versions_step hok hs with heq | ⟨new, heq⟩
        · exact absurd (heq ▸ hv) hold
        · refine ⟨p', h.step a hok hs, .init, ?_⟩
          have hlen : p'.shared.versions.length ≤ v + 1 := by
            rw [heq, Store.push, List.length_append]
            exact Nat.add_le_add_right (Nat.not_lt.mp hold) 1
          rw [Store.manifestAt, seen, List.take_of_length_le hlen, heq, Store.push_manifest hp.sound.dropped]
          exact (lastManifest_append _ _).symm

/-- What a handle remembers was current at a moment. -/
theorem Reaches.moment_at (h : Reaches ok p) {m : Manifest} {version : Option Nat} (hat : p.shared.At m version) :
    ∃ q, Reaches ok q ∧ q.Continues ok p ∧ q.shared.manifest = m := by
  cases version with
  | none => exact ⟨_, .init, h, hat.eq.symm⟩
  | some v =>
      obtain ⟨q, hq, hc, hm⟩ := h.moment (Nat.lt_of_succ_le hat.le)
      exact ⟨q, hq, hc, hm.trans hat.eq.symm⟩

/-- Any run goes on. -/
theorem Namespace.Continues.any {acts : List Act} (h : execute service.step p acts = some p') :
    p.Continues anyTerms p' := by
  refine Reachable.init.execute (Allowed.of_forall (fun p a => ?_) _ _) h
  cases a with
  | spawn call => trivial
  | run t c => exact fun _ _ _ _ _ => trivial
  | env nanos => trivial

omit [Crates] [HashOrder] in
/-- A GET of the manifest finds the current one. -/
theorem Store.current_cases (s : Store) :
    s.current = none ∧ s.manifest = {} ∨ ∃ v, s.current = some (s.manifest, v) := by
  rw [current, manifest, lastManifest, List.getLast?_drop]
  by_cases hdrop : s.dropped < s.versions.length
  · rw [if_pos hdrop, if_neg (Nat.not_le.mpr hdrop)]
    cases hlast : s.versions.getLast? with
    | none =>
        rw [List.getLast?_eq_none_iff.mp hlast] at hdrop
        cases hdrop
    | some v => exact .inr ⟨_, rfl⟩
  · rw [if_neg hdrop, if_pos (Nat.not_lt.mp hdrop)]
    exact .inl ⟨rfl, rfl⟩

/-! ## How far a query has come -/

/-- What a query may answer that goes on with the manifest of the moment `q`. -/
def Namespace.Answers (q : Namespace) (req : QueryRequest) (snapshot : Bool) (out : Outcome) : Prop :=
  ∀ r, out = .answered (.ok r) → q.shared.Gives (queryOn F64 req q.shared.manifest snapshot) (.ok r)

/-- **How far a query has come** that was called after `p₀`: it is asking its handle, or loading, or going on with
the manifest of a moment, which is after `p₀` unless the handle has remembered the manifest. -/
inductive Underway (ok : Terms) (p₀ p : Namespace) (t handle : Nat) (req : QueryRequest) (prog : StoreProg Outcome) :
    Prop
  | asking (h : prog = (Call.query handle req).body)
  | loading (h : Loading handle req prog)
  | going (q : Namespace) (snapshot : Bool) (reached : Reaches ok q) (later : q.Continues ok p)
      (during : snapshot = false → p₀.Continues ok q) (strong : req.consistency = .strong → snapshot = false)
      (safe : Safe (service.Answers ok t) (Rely t) Calm (fun out _ => q.Answers req snapshot out) prog p.shared)

namespace Underway

variable {t handle : Nat} {req : QueryRequest} {prog : StoreProg Outcome}

/-- A step of another thread. -/
theorem other (h : Underway ok p₀ p t handle req prog) (hc : p.Continues ok p') (hr : Rely t p.shared p'.shared) :
    Underway ok p₀ p' t handle req prog := by
  cases h with
  | asking h => exact .asking h
  | loading h => exact .loading h
  | going q snapshot reached later during strong safe =>
      exact .going q snapshot reached (later.trans hc) during
        strong (safe.mono (fun _ _ _ => Grows.trans) hr)

/-- A query that goes on with the manifest of `q`. -/
theorem rest (hq : Reaches ok q) (hc : q.Continues ok p) (snapshot : Bool)
    (hduring : snapshot = false → p₀.Continues ok q) (hstrong : req.consistency = .strong → snapshot = false) :
    Underway ok p₀ p t handle req (queryRest req q.shared.manifest snapshot) :=
  .going q snapshot hq hc hduring hstrong (queryRest_safe hq.grounded req snapshot (hq.grows_run hc))

/-- A query that has failed. -/
theorem failed (hp : Reaches ok p) (hc : p₀.Continues ok p) (e : Error) :
    Underway ok p₀ p t handle req (.done (.answered (.error e))) :=
  .going p false hp .init (fun _ => hc) (fun _ => rfl) fun _ _ _ hr => nomatch Outcome.answered.inj hr

/-- A query that loads. -/
theorem step_loading {op : Request} {next : op.Answer → StoreProg Outcome} {c : Choice} {x : op.Answer}
    (h : Loading handle req (.ask op next)) (hp : Reaches ok p) (hc : p.Continues ok p') (hc₀ : p₀.Continues ok p)
    (hx : p.shared.exec t op c = some (p'.shared, x)) : Underway ok p₀ p' t handle req (next x) := by
  obtain ⟨_, hask, herror, hnone, hsome⟩ := h
  cases hask
  cases c with
  | go =>
      obtain ⟨hs, rfl⟩ := Prod.mk.inj (Option.some.inj hx)
      rcases p.shared.current_cases with ⟨hcurrent, hm⟩ | ⟨v, hcurrent⟩
      · rw [hcurrent, hnone, ← hm]
        exact rest hp hc false (fun _ => hc₀) fun _ => rfl
      · rw [hcurrent, hsome]
        refine .going p false hp hc (fun _ => hc₀) (fun _ => rfl) ?_
        have hat : p.shared.At p.shared.manifest (some v) := by
          have hfound := Calmly.found_current (Nat.zero_le p.shared.versions.length)
          rw [hcurrent] at hfound
          exact hfound.1
        -- the handle remembers the manifest first
        rintro s₁ h₁ s₂ _ ⟨-, c, hx⟩
        rw [← hs] at h₁
        cases c <;> cases hx
        have hcalm : Calm s₁ (s₁.setHandle handle (some ⟨p.shared.manifest, some v, s₁.clock⟩)) :=
          Calmly.setHandle_calm fun snap hsnap => by
            obtain rfl := Option.some.inj hsnap
            exact h₁.keeps_at hat
        exact ⟨hcalm, queryRest_safe hp.grounded req false
          ((h₁.mono fun _ _ => trivial).trans (hcalm.grows.mono fun _ _ => trivial))⟩
  | fail msg =>
      obtain ⟨hs, rfl⟩ := Prod.mk.inj (Option.some.inj hx)
      rw [herror]
      exact failed (hp.continues hc) (hc₀.trans hc) _
  | _ => cases hx

/-- A strongly consistent query loads at once. -/
theorem body_strong (hreq : req.consistency = .strong) : Loading handle req (Call.query handle req).body := by
  have hbody : (Call.query handle req).body =
      Prog.bind (Proc.andThen (loadWith handle .strong) fun x => queryOn F64 req x.1 x.2)
        fun r => .done (.answered r) := by
    rw [← hreq]
    rfl
  rw [hbody]
  exact ⟨_, rfl, fun _ => rfl, rfl, fun _ _ => rfl⟩

/-- **A step of a query.** -/
theorem step {op : Request} {next : op.Answer → StoreProg Outcome} {c : Choice} {x : op.Answer}
    (h : Underway ok p₀ p t handle req (.ask op next)) (hp : Reaches ok p) (hc : p.Continues ok p')
    (hc₀ : p₀.Continues ok p) (hok : ok.op t p.shared op) (hx : p.shared.exec t op c = some (p'.shared, x)) :
    Underway ok p₀ p' t handle req (next x) := by
  cases h with
  | asking h =>
      cases hreq : req.consistency with
      | strong => exact step_loading (h ▸ body_strong hreq) hp hc hc₀ hx
      | eventual maxAgeMs =>
          obtain ⟨next', hbody, hnext⟩ := @body_query _ _ handle _ _ hreq
          rw [hbody] at h
          cases h
          cases c with
          | go =>
              obtain ⟨hs, rfl⟩ := Prod.mk.inj (Option.some.inj hx)
              rcases hnext (p.shared.handles handle) p.shared.clock with ⟨snap, hsnap, heq⟩ | hload
              · have hat := hp.sound.handles handle snap hsnap
                obtain ⟨q, hq, hlater, hm⟩ := hp.moment_at hat
                rw [heq, ← hm]
                refine rest hq (hlater.trans hc) true
                  (fun h => nomatch h) fun h => ?_
                cases hreq.symm.trans h
              · exact .loading hload
          | _ => cases hx
  | loading h => exact step_loading h hp hc hc₀ hx
  | going q snapshot reached later during strong safe =>
      obtain ⟨-, hsafe⟩ := safe p.shared (.refl _) p'.shared x ⟨hok, c, hx⟩
      exact .going q snapshot reached (later.trans hc) during
        strong hsafe

end Underway

/-- **Every query that is called after `p₀`** is underway, or has ended. -/
theorem Reaches.underway (h₀ : Reaches ok p₀) (h : p₀.Continues ok p) {t handle : Nat} {req : QueryRequest}
    {th : Thread Request Request.Answer Call Outcome} (ht : p₀.threads.length ≤ t) (hth : p.threads[t]? = some th)
    (hcall : th.call = .query handle req) : Underway ok p₀ p t handle req th.prog := by
  induction h generalizing th with
  | init =>
      rw [List.getElem?_eq_none ht] at hth
      cases hth
  | @step p p' a hc hok hs ih =>
      have hp := h₀.continues hc
      have hstep : p.Continues ok p' := .step a .init hok hs
      cases a with
      | env nanos =>
          obtain rfl := Option.some.inj hs
          exact (ih hth hcall).other hstep (tick_rely rfl t)
      | spawn call =>
          obtain rfl := Option.some.inj hs
          rcases System.getElem?_concat_eq_some hth with hth | ⟨-, rfl⟩
          · exact (ih hth hcall).other hstep (.refl _)
          · exact .asking (congrArg Call.body hcall)
      | run u c =>
          obtain ⟨thu, op, next, s', x, hthu, hprog, hx, rfl⟩ := service.step_run_cases hs
          by_cases hut : u = t
          · subst hut
            rw [List.getElem?_set_self (List.getElem?_eq_some_iff.mp hthu).1] at hth
            obtain rfl := Option.some.inj hth
            have hu := ih hthu hcall
            rw [hprog] at hu
            exact hu.step hp hstep hc (hok thu op next hthu hprog) hx
          · rw [List.getElem?_set_ne hut] at hth
            have hsafe := ((contract ok).safe_of_reachable hp).2 u thu hthu
            rw [hprog] at hsafe
            have hg := (hsafe p.shared (.refl _) s' x ⟨hok thu op next hthu hprog, c, hx⟩).1
            exact (ih hth hcall).other hstep (hg.1.mono fun v hv => hv ▸ hut)

/-- A consistent answer is not from a manifest that was remembered. -/
theorem Store.Yields.snapshot_of_consistent {s : Store} {m : Manifest} {req : QueryRequest}
    {snapshot : Bool} {r : QueryResponse} (h : s.Yields (Fckdb.queryOn F64 req m snapshot) (.ok r))
    (hr : r.consistent = true) : snapshot = false := by
  obtain ⟨filter, -, h⟩ := of_seq h
  obtain ⟨⟨⟩, -, h⟩ := of_seq h
  obtain ⟨⟨entries, truncated⟩, -, h⟩ := of_seq h
  obtain ⟨tail, -, h⟩ := of_seq h
  obtain ⟨aggs, -, h⟩ := of_seq h
  dsimp only at h
  have hflag : r.consistent = (!snapshot && !truncated) := by
    split_ifs at h with hnone
    · obtain rfl := Except.ok.inj ((ret _).unique h)
      rfl
    · obtain ⟨outcomes, -, h⟩ := of_seq h
      obtain rfl := Except.ok.inj ((ret _).unique h)
      rfl
  cases snapshot with
  | false => rfl
  | true => cases hflag.symm.trans hr

end Runs

/-- A document is written. -/
def foxRun : List Act := .spawn (.commitRecords 0 [.upsert (.texted "fox")] {}) :: goes 0 6

/-- A query loads the manifest, another document is written, and the query ends. -/
def overlappedRun : List Act :=
  .spawn (.query 1 { vector := [⟨0⟩] }) :: goes 1 2 ++
    .spawn (.commitRecords 0 [.upsert ⟨.uint 2, [⟨0⟩], .empty⟩] {}) :: goes 2 5 ++ goes 1 1

/-- A strongly consistent query has returned this many hits. -/
def Namespace.returnedHits (p : Namespace) (t n : Nat) : Bool :=
  p.threads[t]?.any fun th => match th.call, th.prog with
    | .query _ req, .done (.answered (.ok r)) => req.consistency = .strong && r.hits.length = n
    | _, _ => false

end Fckdb
