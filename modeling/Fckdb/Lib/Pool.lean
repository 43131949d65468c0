import Fckdb.Lib.Prog
import Fckdb.Lib.Runs

/-! # Programs running side by side

A `System` starts programs, one for each call, and lets them make their requests in any order; its
environment may change the shared state on its own. `System.safe_of_reachable` is the soundness of
rely-guarantee reasoning: if every program is safe when started, and each program's guarantee is within
the rely of all the others, then in every reachable state all programs are safe, and a program not
yet started has seen only steps of its rely. -/

namespace Fckdb

universe u

/-- A program on its way, and the call it was started for. -/
structure Thread (Op : Type) (Ans : Op → Type) (Call Res : Type) where
  call : Call
  prog : Prog Op Ans Res

/-- The shared state and the programs that run on it. -/
structure Pool (S : Type u) (Op : Type) (Ans : Op → Type) (Call Res : Type) where
  shared : S
  threads : List (Thread Op Ans Call Res)

/-- What can happen next: a call, a request of a thread, or a step of the environment. -/
inductive PoolAction (Call Choice Env : Type)
  | spawn (call : Call)
  | run (t : Nat) (c : Choice)
  | env (e : Env)

/-- How requests are answered, what the environment does, and which program a call starts. The choice
resolves what the answer leaves open. -/
structure System (S : Type u) (Op : Type) (Ans : Op → Type) (Call Res Choice Env : Type) where
  exec : Nat → S → (op : Op) → Choice → Option (S × Ans op)
  env : S → Env → Option S
  body : Call → Prog Op Ans Res

namespace System

variable {S : Type u} {Op : Type} {Ans : Op → Type} {Call Res Choice Env : Type}
  (sys : System S Op Ans Call Res Choice Env)

/-- One step of the pool. -/
def step (p : Pool S Op Ans Call Res) : PoolAction Call Choice Env → Option (Pool S Op Ans Call Res)
  | .spawn call => some { p with threads := p.threads ++ [⟨call, sys.body call⟩] }
  | .run t c =>
    match p.threads[t]? with
    | none => none
    | some th =>
      match th.prog with
      | .done _ => none
      | .ask op next =>
        (sys.exec t p.shared op c).map fun r =>
          ⟨r.1, p.threads.set t { th with prog := next r.2 }⟩
  | .env e => (sys.env p.shared e).map fun s => { p with shared := s }

/-- Conditions on the calls, on the state in which a thread makes a request, and on the environment. -/
structure Conditions (S : Type u) (Op Call Env : Type) where
  call : Call → Prop
  op : Nat → S → Op → Prop
  env : S → Env → Prop

/-- An action meets the conditions in the state it is taken in. -/
def Conditions.Meets (ok : Conditions S Op Call Env) (p : Pool S Op Ans Call Res) :
    PoolAction Call Choice Env → Prop
  | .spawn call => ok.call call
  | .run t _ => ∀ th op next, p.threads[t]? = some th → th.prog = .ask op next → ok.op t p.shared op
  | .env e => ok.env p.shared e

instance Conditions.decidableMeets (ok : Conditions S Op Call Env) [∀ call, Decidable (ok.call call)]
    [∀ t s op, Decidable (ok.op t s op)] [∀ s e, Decidable (ok.env s e)] (p : Pool S Op Ans Call Res) :
    (a : PoolAction Call Choice Env) → Decidable (ok.Meets p a)
  | .spawn call => inferInstanceAs (Decidable (ok.call call))
  | .env e => inferInstanceAs (Decidable (ok.env p.shared e))
  | .run t _ =>
    match hth : p.threads[t]? with
    | none => isTrue fun _ _ _ h => nomatch hth.symm.trans h
    | some th =>
      match hprog : th.prog with
      | .done _ => isTrue fun _ _ _ h hask => by
          obtain rfl := Option.some.inj (hth.symm.trans h)
          exact nomatch hprog.symm.trans hask
      | .ask op _ => decidable_of_iff (ok.op t p.shared op)
          ⟨fun hok _ _ _ h hask => by
            obtain rfl := Option.some.inj (hth.symm.trans h)
            obtain ⟨rfl, -⟩ := Prog.ask.inj (hprog.symm.trans hask)
            exact hok, fun hok => hok th op _ hth hprog⟩

/-- Conditions that imply others. -/
theorem Conditions.Meets.mono {ok ok' : Conditions S Op Call Env} {p : Pool S Op Ans Call Res}
    {a : PoolAction Call Choice Env} (h : ok.Meets p a) (hcall : ∀ call, ok.call call → ok'.call call)
    (hop : ∀ t s op, ok.op t s op → ok'.op t s op) (henv : ∀ s e, ok.env s e → ok'.env s e) :
    ok'.Meets p a := by
  cases a with
  | spawn call => exact hcall call h
  | run t c => exact fun th op next hth hprog => hop t _ op (h th op next hth hprog)
  | env e => exact henv _ e h

/-- The requests of a thread that meet the conditions, and their answers. -/
def Answers (ok : Conditions S Op Call Env) (t : Nat) (s : S) (op : Op) (s' : S) (x : Ans op) : Prop :=
  ok.op t s op ∧ ∃ c, sys.exec t s op c = some (s', x)

/-- The states reached by runs that meet the conditions. -/
abbrev Reached (ok : Conditions S Op Call Env) (init : S) (p : Pool S Op Ans Call Res) : Prop :=
  Reachable sys.step (fun p a => ok.Meets p a) ⟨init, []⟩ p

/-- A step of a thread answers the request its program is at. -/
theorem step_run_cases {p p' : Pool S Op Ans Call Res} {t : Nat} {c : Choice}
    (h : sys.step p (.run t c) = some p') :
    ∃ th op next s' x, p.threads[t]? = some th ∧ th.prog = .ask op next ∧
      sys.exec t p.shared op c = some (s', x) ∧
      p' = ⟨s', p.threads.set t { th with prog := next x }⟩ := by
  simp only [step] at h
  split at h
  · cases h
  · next th hth =>
    split at h
    · cases h
    · next op next hprog =>
      obtain ⟨⟨s', x⟩, hx, rfl⟩ := Option.map_eq_some_iff.mp h
      exact ⟨th, op, next, s', x, hth, hprog, hx, rfl⟩

/-- A step keeps the calls of the threads, and the threads that have finished. -/
theorem step_thread {p p' : Pool S Op Ans Call Res} {a : PoolAction Call Choice Env}
    (h : sys.step p a = some p') {t : Nat} {th : Thread Op Ans Call Res}
    (hth : p.threads[t]? = some th) :
    ∃ th', p'.threads[t]? = some th' ∧ th'.call = th.call ∧
      ∀ r, th.prog = .done r → th'.prog = .done r := by
  cases a with
  | spawn call =>
      obtain rfl := Option.some.inj h
      exact ⟨th, (List.getElem?_append_left (List.getElem?_eq_some_iff.mp hth).1).trans hth, rfl,
        fun _ hr => hr⟩
  | run u c =>
      obtain ⟨thu, op, next, s', x, hthu, hprog, -, rfl⟩ := sys.step_run_cases h
      by_cases hut : u = t
      · subst hut
        obtain rfl := Option.some.inj (hthu.symm.trans hth)
        refine ⟨_, List.getElem?_set_self (List.getElem?_eq_some_iff.mp hth).1, rfl, fun r hr => ?_⟩
        cases hprog.symm.trans hr
      · exact ⟨th, (List.getElem?_set_ne hut).trans hth, rfl, fun _ hr => hr⟩
  | env e =>
      obtain ⟨s', -, rfl⟩ := Option.map_eq_some_iff.mp h
      exact ⟨th, hth, rfl, fun _ hr => hr⟩

/-- An entry of a list with one more at its end. -/
theorem getElem?_concat_eq_some {α : Type} {l : List α} {a b : α} {n : Nat}
    (h : (l ++ [a])[n]? = some b) : l[n]? = some b ∨ n = l.length ∧ b = a := by
  rcases Nat.lt_trichotomy n l.length with hlt | rfl | hlt
  · exact .inl ((List.getElem?_append_left hlt).symm.trans h)
  · exact .inr ⟨rfl, (Option.some.inj (List.getElem?_concat_length.symm.trans h)).symm⟩
  · rw [List.getElem?_eq_none (by rw [List.length_append, List.length_singleton]; exact hlt)] at h
    cases h

/-- A step begins the call that it spawns, and no other. -/
theorem step_calls {p p' : Pool S Op Ans Call Res} {a : PoolAction Call Choice Env}
    (h : sys.step p a = some p') : p'.threads.map (·.call) =
      p.threads.map (·.call) ++ match a with
        | .spawn call => [call]
        | _ => [] := by
  cases a with
  | spawn call =>
      obtain rfl := Option.some.inj h
      exact List.map_append
  | run t c =>
      obtain ⟨th, op, next, s', x, hth, -, -, rfl⟩ := sys.step_run_cases h
      obtain ⟨hlt, rfl⟩ := List.getElem?_eq_some_iff.mp hth
      rw [List.append_nil, List.map_set]
      conv_rhs => rw [← @List.set_getElem_self _ (p.threads.map (·.call)) t (by simpa using hlt)]
      rw [List.getElem_map]
  | env e =>
      obtain ⟨s', -, rfl⟩ := Option.map_eq_some_iff.mp h
      exact (List.append_nil _).symm

/-- **A rely-guarantee contract** for the runs of a system from `init` that meet `ok`: what thread `t`
relies on, what its steps in a call guarantee, and what holds when the call returns. The guarantee of
each thread is within the rely of the others, and every program is safe when it is started. -/
structure Contract (ok : Conditions S Op Call Env) (init : S) where
  rely : Nat → S → S → Prop
  guar : Nat → Call → S → S → Prop
  post : Nat → Call → Res → S → Prop
  refl : ∀ t s, rely t s s
  trans : ∀ t a b c, rely t a b → rely t b c → rely t a c
  compat : ∀ t u, t ≠ u → ∀ call a b, guar t call a b → rely u a b
  env : ∀ u s e s', ok.env s e → sys.env s e = some s' → rely u s s'
  start : ∀ t call s, ok.call call → rely t init s →
    Prog.Safe (sys.Answers ok t) (rely t) (guar t call) (post t call) (sys.body call) s

namespace Contract

variable {sys} {ok : Conditions S Op Call Env} {init : S} (c : sys.Contract ok init)
  {p : Pool S Op Ans Call Res}

include c

/-- **Soundness of rely-guarantee reasoning.** -/
theorem safe_of_reachable (h : sys.Reached ok init p) :
    (∀ t, p.threads.length ≤ t → c.rely t init p.shared) ∧
      ∀ t th, p.threads[t]? = some th → Prog.Safe (sys.Answers ok t) (c.rely t) (c.guar t th.call)
        (c.post t th.call) th.prog p.shared := by
  refine h.invariant (I := fun p => (∀ t, p.threads.length ≤ t → c.rely t init p.shared) ∧
    ∀ t th, p.threads[t]? = some th → Prog.Safe (sys.Answers ok t) (c.rely t) (c.guar t th.call)
      (c.post t th.call) th.prog p.shared) ?_ ?_
  · exact ⟨fun t _ => c.refl t _, fun t th hth => by cases hth⟩
  · rintro p a p' - ⟨hnew, hold⟩ hok hstep
    cases a with
    | spawn call =>
        obtain rfl := Option.some.inj hstep
        refine ⟨fun t ht => hnew t ?_, fun t th hth => ?_⟩
        · rw [List.length_append] at ht
          omega
        · rcases Nat.lt_trichotomy t p.threads.length with hlt | rfl | hgt
          · rw [List.getElem?_append_left hlt] at hth
            exact hold t th hth
          · rw [List.getElem?_concat_length] at hth
            obtain rfl := Option.some.inj hth
            exact c.start _ call _ hok (hnew _ (Nat.le_refl _))
          · rw [List.getElem?_eq_none (by simp; omega)] at hth
            cases hth
    | run t choice =>
        obtain ⟨th, op, next, s', x, hth, hprog, hx, rfl⟩ := sys.step_run_cases hstep
        have hsafe := hold t th hth
        rw [hprog] at hsafe
        obtain ⟨hg, hn⟩ := hsafe p.shared (c.refl t _) s' x ⟨hok th op next hth hprog, choice, hx⟩
        have hlt : t < p.threads.length := (List.getElem?_eq_some_iff.mp hth).1
        refine ⟨fun u hu => ?_, fun u thu hthu => ?_⟩
        · rw [List.length_set] at hu
          exact c.trans u _ _ _ (hnew u hu) (c.compat t u (by omega) _ _ _ hg)
        · by_cases hut : t = u
          · subst hut
            rw [List.getElem?_set_self hlt] at hthu
            obtain rfl := Option.some.inj hthu
            exact hn
          · rw [List.getElem?_set_ne hut] at hthu
            exact (hold u thu hthu).mono (c.trans u) (c.compat t u hut _ _ _ hg)
    | env e =>
        obtain ⟨s', hs', rfl⟩ := Option.map_eq_some_iff.mp hstep
        have hr := fun u => c.env u _ e s' hok hs'
        exact ⟨fun t ht => c.trans t _ _ _ (hnew t ht) (hr t),
          fun t th hth => (hold t th hth).mono (c.trans t) (hr t)⟩

/-- **Invariants of the pool**: what calls, steps of the guarantees and steps of the environment keep
holds in every reachable state. -/
theorem pool_invariant {I : Pool S Op Ans Call Res → Prop} (hinit : I ⟨init, []⟩)
    (hspawn : ∀ p call, ok.call call → I p → I { p with threads := p.threads ++ [⟨call, sys.body call⟩] })
    (hrun : ∀ p t th prog s', p.threads[t]? = some th → c.guar t th.call p.shared s' → I p →
      I ⟨s', p.threads.set t { th with prog }⟩)
    (hstep : ∀ p e s', ok.env p.shared e → sys.env p.shared e = some s' → I p →
      I { p with shared := s' })
    (h : sys.Reached ok init p) : I p := by
  refine h.invariant hinit fun p a p' hp hI hok htaken => ?_
  cases a with
  | spawn call =>
      obtain rfl := Option.some.inj htaken
      exact hspawn p call hok hI
  | run t choice =>
      obtain ⟨th, op, next, s', x, hth, hprog, hx, rfl⟩ := sys.step_run_cases htaken
      have hsafe := (c.safe_of_reachable hp).2 t th hth
      rw [hprog] at hsafe
      have hg := (hsafe p.shared (c.refl t _) s' x ⟨hok th op next hth hprog, choice, hx⟩).1
      exact hrun p t th _ s' hth hg hI
  | env e =>
      obtain ⟨s', hs', rfl⟩ := Option.map_eq_some_iff.mp htaken
      exact hstep p e s' hok hs' hI

end Contract

end System

end Fckdb
