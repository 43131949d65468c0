import Mathlib.Data.List.Forall2

/-! # Programs over shared state

A program is a tree of requests to a state that other programs share: each node asks for one atomic
operation and continues with its answer. `Safe` is what a program guarantees when the state may change
between its requests by steps of a *rely*: every request it makes is a step of its *guarantee*, and
its result meets a postcondition. The rules are those of rely-guarantee reasoning: `Safe.bind` for
sequencing, `Safe.interleave` and `Safe.joinAll` for concurrent parts. -/

namespace Fckdb

universe u

/-- A program: finished, or asking for one operation and going on with its answer. -/
inductive Prog (Op : Type) (Ans : Op → Type) (α : Type) : Type
  | done (a : α)
  | ask (op : Op) (next : Ans op → Prog Op Ans α)

namespace Prog

variable {Op : Type} {Ans : Op → Type} {α β γ : Type}

/-- Run one program, then the one its result selects. -/
def bind : Prog Op Ans α → (α → Prog Op Ans β) → Prog Op Ans β
  | done a, f => f a
  | ask op next, f => ask op fun x => (next x).bind f

instance : Monad (Prog Op Ans) where
  pure := done
  bind := bind

/-- Ask for one operation and return its answer. -/
def call (op : Op) : Prog Op Ans (Ans op) := ask op done

@[simp] theorem bind_done (a : α) (f : α → Prog Op Ans β) : (done a).bind f = f a := rfl

@[simp] theorem bind_ask (op : Op) (next : Ans op → Prog Op Ans α) (f : α → Prog Op Ans β) :
    (ask op next).bind f = ask op fun x => (next x).bind f := rfl

/-- Run a program that may fail, then the one its result selects; an error ends both. -/
def tryBind {ε : Type} (p : Prog Op Ans (Except ε α)) (f : α → Prog Op Ans (Except ε β)) :
    Prog Op Ans (Except ε β) :=
  p.bind fun
    | .ok a => f a
    | .error e => done (.error e)

/-- What a program may have come to after some answers. -/
inductive Leads (p : Prog Op Ans α) : Prog Op Ans α → Prop
  | start : Leads p p
  | answer {op : Op} {next : Ans op → Prog Op Ans α} (x : Ans op) (h : Leads p (ask op next)) :
      Leads p (next x)

section Interleave

variable (choose : Op) (left : Ans choose → Bool)

/-- The first program is at a request: finish it when the second is done, else let `choose` say whose
turn it is. -/
def interleaveAt (op : Op) (next : Ans op → Prog Op Ans β → Prog Op Ans γ) :
    Prog Op Ans β → Prog Op Ans γ
  | done b => ask op fun x => next x (done b)
  | ask op' next' => ask choose fun c =>
    if left c then ask op fun x => next x (ask op' next')
    else ask op' fun y => interleaveAt op next (next' y)

/-- **Two programs at once**, their requests in the order `choose` picks. -/
def interleave : Prog Op Ans α → Prog Op Ans β → Prog Op Ans (α × β)
  | done a => fun q => q.bind fun b => done (a, b)
  | ask op next => interleaveAt choose left op fun x => interleave (next x)

/-- `join_all`: all programs at once, the results in the order of the list. -/
def joinAll : List (Prog Op Ans α) → Prog Op Ans (List α)
  | [] => done []
  | p :: ps => (interleave choose left p (joinAll ps)).bind fun r => done (r.1 :: r.2)

end Interleave

/-! ## What a program guarantees -/

section Safe

variable {S : Type u}

/-- **Rely and guarantee**: whatever steps of `rely` happen between them, each request of the program
is answered by a step of `guar`, and when it finishes `post` holds of its result and stays. -/
def Safe (exec : S → (op : Op) → S → Ans op → Prop) (rely guar : S → S → Prop)
    (post : α → S → Prop) : Prog Op Ans α → S → Prop
  | done a, s => ∀ s', rely s s' → post a s'
  | ask op next, s => ∀ s₁, rely s s₁ → ∀ s₂ x, exec s₁ op s₂ x →
      guar s₁ s₂ ∧ Safe exec rely guar post (next x) s₂

variable {exec : S → (op : Op) → S → Ans op → Prop} {rely guar : S → S → Prop}
  {post : α → S → Prop} {post' : β → S → Prop} {p : Prog Op Ans α} {s s' : S}

namespace Safe

/-- Steps of the rely keep a program safe. -/
theorem mono (htrans : ∀ a b c, rely a b → rely b c → rely a c)
    (h : Safe exec rely guar post p s) (hs : rely s s') : Safe exec rely guar post p s' := by
  cases p with
  | done a => exact fun s₁ h₁ => h s₁ (htrans _ _ _ hs h₁)
  | ask op next => exact fun s₁ h₁ => h s₁ (htrans _ _ _ hs h₁)

/-- A program with a stronger postcondition. -/
theorem imp {post₁ : α → S → Prop} (h : Safe exec rely guar post p s)
    (hpost : ∀ a t, post a t → post₁ a t) : Safe exec rely guar post₁ p s := by
  induction p generalizing s with
  | done a => exact fun s₁ h₁ => hpost _ _ (h s₁ h₁)
  | ask op next ih =>
      intro s₁ h₁ s₂ x hx
      obtain ⟨hg, hn⟩ := h s₁ h₁ s₂ x hx
      exact ⟨hg, ih x hn⟩

/-- A program with a weaker guarantee. -/
theorem weaken {guar' : S → S → Prop} (h : Safe exec rely guar post p s)
    (hguar : ∀ a b, guar a b → guar' a b) : Safe exec rely guar' post p s := by
  induction p generalizing s with
  | done a => exact h
  | ask op next ih =>
      intro s₁ h₁ s₂ x hx
      obtain ⟨hg, hn⟩ := h s₁ h₁ s₂ x hx
      exact ⟨hguar _ _ hg, ih x hn⟩

/-- **Frame**: what the rely keeps, and the program's own steps are steps of the rely, holds at its
end if it holds at its start. -/
theorem frame {P : S → Prop} (hP : ∀ a b, rely a b → P a → P b) (hguar : ∀ a b, guar a b → rely a b)
    (h : Safe exec rely guar post p s) (hs : P s) :
    Safe exec rely guar (fun a t => post a t ∧ P t) p s := by
  induction p generalizing s with
  | done a => exact fun s₁ h₁ => ⟨h s₁ h₁, hP _ _ h₁ hs⟩
  | ask op next ih =>
      intro s₁ h₁ s₂ x hx
      obtain ⟨hg, hn⟩ := h s₁ h₁ s₂ x hx
      exact ⟨hg, ih x hn (hP _ _ (hguar _ _ hg) (hP _ _ h₁ hs))⟩

/-- **Sequencing**: the second part starts where the postcondition of the first holds and stays. -/
theorem bind {f : α → Prog Op Ans β} (h : Safe exec rely guar post p s)
    (hf : ∀ a t, (∀ t', rely t t' → post a t') → Safe exec rely guar post' (f a) t) :
    Safe exec rely guar post' (p.bind f) s := by
  induction p generalizing s with
  | done a => exact hf a s h
  | ask op next ih =>
      intro s₁ h₁ s₂ x hx
      obtain ⟨hg, hn⟩ := h s₁ h₁ s₂ x hx
      exact ⟨hg, ih x hn⟩

section Interleave

variable {choose : Op} {left : Ans choose → Bool} (hrefl : ∀ a, rely a a)
  (htrans : ∀ a b c, rely a b → rely b c → rely a c) (hguar : ∀ a b, guar a b → rely a b)
  (hchoose : ∀ a b x, exec a choose b x → b = a ∧ guar a b)

include hrefl htrans hguar hchoose

/-- **Concurrency**: two programs that tolerate each other's steps are safe together. -/
theorem interleave {q : Prog Op Ans β} (hp : Safe exec rely guar post p s)
    (hq : Safe exec rely guar post' q s) :
    Safe exec rely guar (fun r t => post r.1 t ∧ post' r.2 t)
      (Prog.interleave choose left p q) s := by
  induction p generalizing q s with
  | done a =>
      have hstable : ∀ t t', rely t t' → (∀ t'', rely t t'' → post a t'') →
          ∀ t'', rely t' t'' → post a t'' := fun t t' ht h t'' ht' => h t'' (htrans _ _ _ ht ht')
      refine (hq.frame hstable hguar hp).bind fun b t h t' ht' => ?_
      exact ⟨(h t' ht').2 t' (hrefl t'), (h t' ht').1⟩
  | ask op next ih =>
      -- the second program is walked down while the first one waits at its request
      induction q generalizing s with
      | done b =>
          intro s₁ h₁ s₂ x hx
          obtain ⟨hg, hn⟩ := hp s₁ h₁ s₂ x hx
          exact ⟨hg, ih x hn (hq.mono htrans (htrans _ _ _ h₁ (hguar _ _ hg)))⟩
      | ask op' next' ih' =>
          intro s₁ h₁ s₂ c hc
          obtain ⟨rfl, hgc⟩ := hchoose _ _ _ hc
          refine ⟨hgc, ?_⟩
          have hp₁ := hp.mono htrans h₁
          have hq₁ := hq.mono htrans h₁
          dsimp only
          split
          · intro s₃ h₃ s₄ x hx
            obtain ⟨hg, hn⟩ := hp₁ s₃ h₃ s₄ x hx
            exact ⟨hg, ih x hn (hq₁.mono htrans (htrans _ _ _ h₃ (hguar _ _ hg)))⟩
          · intro s₃ h₃ s₄ y hy
            obtain ⟨hg, hn⟩ := hq₁ s₃ h₃ s₄ y hy
            exact ⟨hg, ih' y (hp₁.mono htrans (htrans _ _ _ h₃ (hguar _ _ hg))) hn⟩

/-- **`join_all`**: programs that tolerate each other's steps are safe together. -/
theorem joinAll {ι : Type} {ps : List ι} {body : ι → Prog Op Ans α} {Q : ι → α → S → Prop}
    (h : ∀ i ∈ ps, Safe exec rely guar (Q i) (body i) s) :
    Safe exec rely guar (fun rs t => List.Forall₂ (fun i r => Q i r t) ps rs)
      (Prog.joinAll choose left (ps.map body)) s := by
  induction ps with
  | nil => exact fun t _ => .nil
  | cons i ps ih =>
      have hps := ih fun j hj => h j (List.mem_cons_of_mem _ hj)
      have hboth : Safe exec rely guar (fun r t => Q i r.1 t ∧ List.Forall₂ (fun i r => Q i r t) ps r.2)
          (Prog.interleave choose left (body i) (Prog.joinAll choose left (ps.map body))) s :=
        (h i List.mem_cons_self).interleave hrefl htrans hguar hchoose hps
      exact hboth.bind fun r t hr t' ht' => .cons (hr t' ht').1 (hr t' ht').2

end Interleave

end Safe

/-! ## Triples

`Triple P p Q` is `Safe` from every state where the assertion `P` holds. Assertions are *stable*: the
rely keeps them. -/

/-- An assertion that steps of the rely keep. -/
def Stable (rely : S → S → Prop) (P : S → Prop) : Prop := ∀ s s', rely s s' → P s → P s'

variable {P Q : S → Prop}

theorem Stable.and (hP : Stable rely P) (hQ : Stable rely Q) : Stable rely fun s => P s ∧ Q s :=
  fun s s' h hs => ⟨hP s s' h hs.1, hQ s s' h hs.2⟩

/-- From every state where `P` holds the program is safe and ends with `post`. -/
def Triple (exec : S → (op : Op) → S → Ans op → Prop) (rely guar : S → S → Prop) (P : S → Prop)
    (p : Prog Op Ans α) (post : α → S → Prop) : Prop :=
  ∀ s, P s → Safe exec rely guar post p s

namespace Triple

variable {post₁ : α → S → Prop}

/-- A finished program. -/
theorem done {a : α} {Q : α → S → Prop} (hP : Stable rely P) (h : ∀ s, P s → Q a s) :
    Triple exec rely guar P (done a) Q := fun s hs s' hs' => h s' (hP s s' hs' hs)

/-- One request: its answer, in a state where `P` holds, is within the guarantee and establishes the
postcondition. -/
theorem call (op : Op) {post : Ans op → S → Prop} (hP : Stable rely P)
    (hpost : ∀ x, Stable rely (post x))
    (h : ∀ s s' x, P s → exec s op s' x → guar s s' ∧ post x s') :
    Triple exec rely guar P (Prog.call op) post := by
  intro s hs s₁ h₁ s₂ x hx
  obtain ⟨hg, hq⟩ := h s₁ s₂ x (hP s s₁ h₁ hs) hx
  exact ⟨hg, fun s₃ h₃ => hpost x s₂ s₃ h₃ hq⟩

/-- **Consequence.** -/
theorem conseq {P' : S → Prop} (h : Triple exec rely guar P p post) (hP : ∀ s, P' s → P s)
    (hpost : ∀ a s, post a s → post₁ a s) : Triple exec rely guar P' p post₁ :=
  fun s hs => (h s (hP s hs)).imp hpost

/-- A weaker guarantee. -/
theorem weaken {guar' : S → S → Prop} (h : Triple exec rely guar P p post)
    (hguar : ∀ a b, guar a b → guar' a b) : Triple exec rely guar' P p post :=
  fun s hs => (h s hs).weaken hguar

section Bind

variable (hrefl : ∀ s, rely s s)
include hrefl

/-- **Sequencing.** -/
theorem bind {f : α → Prog Op Ans β} (h : Triple exec rely guar P p post)
    (hf : ∀ a, Triple exec rely guar (post a) (f a) post') :
    Triple exec rely guar P (p.bind f) post' :=
  fun s hs => (h s hs).bind fun a t ht => hf a t (ht t (hrefl t))

/-- **Sequencing of programs that may fail**: an error keeps its postcondition. -/
theorem tryBind {ε : Type} {p : Prog Op Ans (Except ε α)} {f : α → Prog Op Ans (Except ε β)}
    {post : Except ε α → S → Prop} {post' : Except ε β → S → Prop}
    (h : Triple exec rely guar P p post)
    (hf : ∀ a, Triple exec rely guar (post (.ok a)) (f a) post')
    (he : ∀ e s, post (.error e) s → post' (.error e) s) :
    Triple exec rely guar P (p.tryBind f) post' := by
  intro s hs
  refine (h s hs).bind fun r t ht => ?_
  cases r with
  | ok a => exact hf a t (ht t (hrefl t))
  | error e => exact fun t' ht' => he e t' (ht t' ht')

end Bind

/-- What the rely keeps, and the program's own steps are steps of the rely, is kept. -/
theorem frame (hQ : Stable rely Q) (hguar : ∀ a b, guar a b → rely a b)
    (h : Triple exec rely guar P p post) :
    Triple exec rely guar (fun s => P s ∧ Q s) p fun a s => post a s ∧ Q s :=
  fun s hs => (h s hs.1).frame hQ hguar hs.2

end Triple

end Safe

end Prog

end Fckdb
