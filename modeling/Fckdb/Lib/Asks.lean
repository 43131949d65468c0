import Fckdb.Lib.Eval

/-! # What a program may ask for

`Asks P p` says that `p` makes no request outside `P`, whatever the answers. So tables that agree on `P` give it
the same result (`Asks.eval_congr`): a program is a function of the part of the state that it may look at. -/

namespace Fckdb

namespace Prog

variable {Op : Type} {Ans : Op → Type} {α β : Type} {P Q : Op → Prop}

/-- All requests of a program are in `P`. -/
def Asks (P : Op → Prop) : Prog Op Ans α → Prop
  | done _ => True
  | ask op next => P op ∧ ∀ x, Asks P (next x)

namespace Asks

theorem done (a : α) : Asks P (Prog.done a : Prog Op Ans α) := trivial

theorem call {op : Op} (h : P op) : Asks P (Prog.call op : Prog Op Ans (Ans op)) := ⟨h, fun _ => trivial⟩

theorem mono (h : ∀ op, P op → Q op) {p : Prog Op Ans α} (hp : p.Asks P) : p.Asks Q := by
  induction p with
  | done a => trivial
  | ask op next ih => exact ⟨h op hp.1, fun x => ih x (hp.2 x)⟩

/-- **Sequencing.** -/
theorem bind {p : Prog Op Ans α} {f : α → Prog Op Ans β} (hp : p.Asks P) (hf : ∀ a, (f a).Asks P) :
    (p.bind f).Asks P := by
  induction p with
  | done a => exact hf a
  | ask op next ih => exact ⟨hp.1, fun x => ih x (hp.2 x)⟩

/-- Sequencing of programs that may fail. -/
theorem tryBind {ε : Type} {p : Prog Op Ans (Except ε α)} {f : α → Prog Op Ans (Except ε β)} (hp : p.Asks P)
    (hf : ∀ a, (f a).Asks P) : (p.tryBind f).Asks P := by
  refine hp.bind fun r => ?_
  cases r with
  | ok a => exact hf a
  | error e => trivial

section Interleave

variable {choose : Op} {left : Ans choose → Bool} (hchoose : P choose)
include hchoose

/-- **Concurrency**: the requests are those of the parts. -/
theorem interleave {p : Prog Op Ans α} {q : Prog Op Ans β} (hp : p.Asks P) (hq : q.Asks P) :
    (Prog.interleave choose left p q).Asks P := by
  induction p generalizing q with
  | done a => exact hq.bind fun b => trivial
  | ask op next ih =>
      -- the second program is walked down while the first one waits at its request
      induction q with
      | done b => exact ⟨hp.1, fun x => ih x (hp.2 x) trivial⟩
      | ask op' next' ih' =>
          refine ⟨hchoose, fun c => ?_⟩
          dsimp only
          split
          · exact ⟨hp.1, fun x => ih x (hp.2 x) hq⟩
          · exact ⟨hq.1, fun y => ih' y (hq.2 y)⟩

theorem joinAll {ps : List (Prog Op Ans α)} (h : ∀ p ∈ ps, p.Asks P) :
    (Prog.joinAll choose left ps).Asks P := by
  induction ps with
  | nil => trivial
  | cons p ps ih =>
      have hrest := ih fun q hq => h q (List.mem_cons_of_mem _ hq)
      exact ((h p List.mem_cons_self).interleave hchoose hrest).bind fun r => trivial

end Interleave

/-- **A program does not notice** what it does not ask for. -/
theorem eval_congr {answer answer' : (op : Op) → Option (Ans op)} (h : ∀ op, P op → answer op = answer' op)
    {p : Prog Op Ans α} (hp : p.Asks P) : p.eval answer = p.eval answer' := by
  induction p with
  | done a => rfl
  | ask op next ih =>
      rw [eval, eval, h op hp.1]
      congr 1
      funext x
      exact ih x (hp.2 x)

end Asks

end Prog

end Fckdb
