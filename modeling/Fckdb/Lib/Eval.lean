import Fckdb.Lib.Prog

/-! # Programs that only read

A program whose requests are all answered from a state that nobody changes computes a value: `eval`
runs it against a table of answers. Parts that run side by side then do not notice each other, so their
interleaving computes what they compute one after the other (`eval_interleave`, `eval_joinAll`),
whatever the turns. `run` is for programs that also change the state they are alone with: a program whose
requests leave it as it is ends where it started, with what it computes (`run_of_eval`). -/

namespace Fckdb

namespace Prog

variable {Op : Type} {Ans : Op → Type} {α β : Type}

/-- Run a program against a table of answers; `none` if it asks for what the table does not have. -/
def eval (answer : (op : Op) → Option (Ans op)) : Prog Op Ans α → Option α
  | done a => some a
  | ask op next => (answer op).bind fun x => (next x).eval answer

variable {answer : (op : Op) → Option (Ans op)}

@[simp] theorem eval_done (a : α) : (done a : Prog Op Ans α).eval answer = some a := rfl

@[simp] theorem eval_call (op : Op) : (call op : Prog Op Ans (Ans op)).eval answer = answer op := by
  show ((answer op).bind some) = answer op
  exact Option.bind_fun_some _

/-- **Sequencing**: the second part is computed from the result of the first. -/
theorem eval_bind (p : Prog Op Ans α) (f : α → Prog Op Ans β) :
    (p.bind f).eval answer = (p.eval answer).bind fun a => (f a).eval answer := by
  induction p with
  | done a => rfl
  | ask op next ih =>
      show ((answer op).bind fun x => ((next x).bind f).eval answer) = _
      rw [eval, Option.bind_assoc]
      congr 1
      funext x
      exact ih x

/-- What a program computes from a table, it computes from a larger one. -/
theorem eval_mono {answer' : (op : Op) → Option (Ans op)}
    (h : ∀ op x, answer op = some x → answer' op = some x) {p : Prog Op Ans α} {a : α}
    (hp : p.eval answer = some a) : p.eval answer' = some a := by
  induction p with
  | done b => exact hp
  | ask op next ih =>
      obtain ⟨x, hx, hnext⟩ := Option.bind_eq_some_iff.mp hp
      exact Option.bind_eq_some_iff.mpr ⟨x, h op x hx, ih x hnext⟩

section Run

variable {S : Type} {step : S → (op : Op) → Option (S × Ans op)}

/-- Run a program from a state, each request a step. -/
def run (step : S → (op : Op) → Option (S × Ans op)) : Prog Op Ans α → S → Option (S × α)
  | done a, s => some (s, a)
  | ask op next, s => (step s op).bind fun r => (next r.2).run step r.1

/-- **Sequencing**: the second part runs from where the first one ended. -/
theorem run_bind (p : Prog Op Ans α) (f : α → Prog Op Ans β) (s : S) :
    (p.bind f).run step s = (p.run step s).bind fun r => (f r.2).run step r.1 := by
  induction p generalizing s with
  | done a => rfl
  | ask op next ih =>
      show ((step s op).bind fun r => ((next r.2).bind f).run step r.1) = _
      rw [run, Option.bind_assoc]
      congr 1
      funext r
      exact ih r.2 r.1

/-- **A program that only reads** ends in the state it started from. -/
theorem run_of_eval {s : S} (h : ∀ op x, answer op = some x → step s op = some (s, x))
    {p : Prog Op Ans α} {a : α} (hp : p.eval answer = some a) : p.run step s = some (s, a) := by
  induction p with
  | done b => exact congrArg (Option.map (s, ·)) hp
  | ask op next ih =>
      obtain ⟨x, hx, hnext⟩ := Option.bind_eq_some_iff.mp hp
      exact Option.bind_eq_some_iff.mpr ⟨(s, x), h op x hx, ih x hnext⟩

/-- **A safe program that runs alone** ends in its postcondition, and its steps are within its
guarantee. -/
theorem Safe.of_run {exec : S → (op : Op) → S → Ans op → Prop} {rely guar R : S → S → Prop}
    {post : α → S → Prop} (hrely : ∀ s, rely s s) (hrefl : ∀ s, R s s)
    (htrans : ∀ a b c, R a b → R b c → R a c) (hguar : ∀ a b, guar a b → R a b)
    (hstep : ∀ s op s' x, step s op = some (s', x) → exec s op s' x) {p : Prog Op Ans α} {s s' : S} {a : α}
    (h : Safe exec rely guar post p s) (hrun : p.run step s = some (s', a)) : R s s' ∧ post a s' := by
  induction p generalizing s with
  | done b =>
      obtain ⟨rfl, rfl⟩ := Prod.mk.inj (Option.some.inj hrun)
      exact ⟨hrefl s, h s (hrely s)⟩
  | ask op next ih =>
      obtain ⟨⟨s₁, x⟩, hx, hnext⟩ := Option.bind_eq_some_iff.mp hrun
      obtain ⟨hg, hsafe⟩ := h s (hrely s) s₁ x (hstep s op s₁ x hx)
      obtain ⟨hR, hpost⟩ := ih x hsafe hnext
      exact ⟨htrans _ _ _ (hguar _ _ hg) hR, hpost⟩

end Run

section Interleave

variable {choose : Op} {left : Ans choose → Bool} (hchoose : (answer choose).isSome)
include hchoose

/-- **Concurrency**: side by side, each part computes what it computes alone. -/
theorem eval_interleave (p : Prog Op Ans α) (q : Prog Op Ans β) :
    (interleave choose left p q).eval answer =
      (p.eval answer).bind fun a => (q.eval answer).map fun b => (a, b) := by
  induction p generalizing q with
  | done a =>
      show (q.bind fun b => done (a, b)).eval answer = _
      rw [eval_bind, eval, Option.bind_some, Option.map_eq_bind]
      rfl
  | ask op next ih =>
      -- the second program is walked down while the first one waits at its request
      induction q with
      | done b =>
          show ((answer op).bind fun x => (interleave choose left (next x) (done b)).eval answer) = _
          rw [eval.eq_def answer (ask op next), Option.bind_assoc]
          congr 1
          funext x
          exact ih x (done b)
      | ask op' next' ih' =>
          obtain ⟨c, hc⟩ := Option.isSome_iff_exists.mp hchoose
          have hturn : (interleave choose left (ask op next) (ask op' next')).eval answer =
              (if left c then ask op fun x => interleave choose left (next x) (ask op' next')
                else ask op' fun y => interleave choose left (ask op next) (next' y)).eval answer := by
            show ((answer choose).bind _) = _
            rw [hc]
            rfl
          rw [hturn]
          cases left c with
          | true =>
              show ((answer op).bind fun x => (interleave choose left (next x) (ask op' next')).eval
                answer) = _
              rw [eval.eq_def answer (ask op next), Option.bind_assoc]
              congr 1
              funext x
              exact ih x (ask op' next')
          | false =>
              show ((answer op').bind fun y => (interleave choose left (ask op next) (next' y)).eval
                answer) = _
              -- the two parts commute
              have hparts : (fun y => (interleave choose left (ask op next) (next' y)).eval answer) =
                  fun y => ((ask op next).eval answer).bind fun a =>
                    ((next' y).eval answer).map fun b => (a, b) := funext ih'
              rw [hparts, Option.bind_comm]
              congr 1
              funext a
              rw [eval.eq_def answer (ask op' next'), Option.map_bind]
              rfl

/-- **`join_all`**: all parts compute what they compute alone. -/
theorem eval_joinAll {ι : Type} {is : List ι} {body : ι → Prog Op Ans α} {f : ι → α}
    (h : ∀ i ∈ is, (body i).eval answer = some (f i)) :
    (joinAll choose left (is.map body)).eval answer = some (is.map f) := by
  induction is with
  | nil => rfl
  | cons i is ih =>
      have hrest := ih fun j hj => h j (List.mem_cons_of_mem _ hj)
      show ((interleave choose left (body i) (joinAll choose left (is.map body))).bind
        fun r => done (r.1 :: r.2)).eval answer = _
      rw [eval_bind, eval_interleave hchoose, h i List.mem_cons_self, hrest]
      rfl

/-- What a `join_all` computes are the results of its parts. -/
theorem forall₂_of_eval_joinAll {ps : List (Prog Op Ans α)} {as : List α}
    (h : (joinAll choose left ps).eval answer = some as) :
    List.Forall₂ (fun p a => p.eval answer = some a) ps as := by
  induction ps generalizing as with
  | nil =>
      obtain rfl : [] = as := Option.some.inj h
      exact .nil
  | cons p ps ih =>
      have hparts : ((interleave choose left p (joinAll choose left ps)).bind
          fun r => done (r.1 :: r.2)).eval answer = some as := h
      rw [eval_bind, eval_interleave hchoose] at hparts
      obtain ⟨⟨a, rest⟩, hpair, hcons⟩ := Option.bind_eq_some_iff.mp hparts
      obtain ⟨a', ha, hmap⟩ := Option.bind_eq_some_iff.mp hpair
      obtain ⟨rest', hrest, heq⟩ := Option.map_eq_some_iff.mp hmap
      obtain ⟨rfl, rfl⟩ := Prod.mk.inj heq
      obtain rfl : a' :: rest' = as := Option.some.inj hcons
      exact .cons ha (ih hrest)

end Interleave

end Prog

end Fckdb
