import Fckdb.Lib.Prog
import Mathlib.Data.List.Perm.Subperm

/-! # What a program draws

Some answers give a program tokens that are drawn for it. A program *draws* the tokens of its result
when it got each of them from an answer of its own, once for each time the result holds it
(`Prog.Draws`); of parts side by side, each has its own answers. As no token is drawn twice, the
tokens of a result are distinct (`Prog.Triple.draws`). -/

namespace Fckdb

universe u

namespace Prog

variable {Op : Type} {Ans : Op → Type} {α β τ : Type}

/-- A request and its answer. -/
abbrev Event (Op : Type) (Ans : Op → Type) : Type := Σ op, Ans op

/-- The program can end with this result after these answers. -/
inductive Runs : Prog Op Ans α → List (Event Op Ans) → α → Prop
  | done (a : α) : Runs (done a) [] a
  | ask {op : Op} {next : Ans op → Prog Op Ans α} (x : Ans op) {tr : List (Event Op Ans)} {a : α}
      (h : Runs (next x) tr a) : Runs (ask op next) (⟨op, x⟩ :: tr) a

/-- The answers of two programs in sequence. -/
theorem Runs.bind {p : Prog Op Ans α} {f : α → Prog Op Ans β} {tr : List (Event Op Ans)} {b : β}
    (h : Runs (p.bind f) tr b) : ∃ tr₁ a tr₂, tr = tr₁ ++ tr₂ ∧ Runs p tr₁ a ∧ Runs (f a) tr₂ b := by
  induction p generalizing tr with
  | done a => exact ⟨[], a, tr, rfl, .done a, h⟩
  | ask op next ih =>
      cases h with
      | ask x h =>
          obtain ⟨tr₁, a, tr₂, rfl, h₁, h₂⟩ := ih x h
          exact ⟨_ :: tr₁, a, tr₂, rfl, .ask x h₁, h₂⟩

variable (draw : Event Op Ans → List τ)

/-- The tokens of the result are held from the start or drawn on the way. -/
def Draws (held : List τ) (tokens : α → List τ) (p : Prog Op Ans α) : Prop :=
  ∀ tr a, Runs p tr a → (tokens a).Subperm (held ++ tr.flatMap draw)

namespace Draws

variable {draw} {held : List τ} {tokens : α → List τ} {tokens' : β → List τ} {p : Prog Op Ans α}

theorem done {a : α} (h : (tokens a).Subperm held) : Draws draw held tokens (done a) := by
  intro tr b hrun
  cases hrun
  rwa [List.flatMap_nil, List.append_nil]

theorem call (op : Op) : Draws draw [] (fun x => draw ⟨op, x⟩) (call op) := by
  intro tr x hrun
  cases hrun with
  | ask x h =>
      cases h
      rw [List.flatMap_singleton]
      exact List.Subperm.refl _

/-- What else is held is still held. -/
theorem frame (more : List τ) (h : Draws draw held tokens p) :
    Draws draw (more ++ held) (fun a => more ++ tokens a) p := by
  intro tr a hrun
  rw [List.append_assoc]
  exact (List.subperm_append_left more).mpr (h tr a hrun)

theorem bind {f : α → Prog Op Ans β} (h : Draws draw held tokens p)
    (hf : ∀ a, Draws draw (tokens a) tokens' (f a)) : Draws draw held tokens' (p.bind f) := by
  intro tr b hrun
  obtain ⟨tr₁, a, tr₂, rfl, h₁, h₂⟩ := hrun.bind
  rw [List.flatMap_append, ← List.append_assoc]
  exact (hf a tr₂ b h₂).trans ((List.subperm_append_right _).mpr (h tr₁ a h₁))

/-- A program that may fail, then one that its result selects; an error holds nothing. -/
theorem tryBind {ε : Type} {p : Prog Op Ans (Except ε α)} {f : α → Prog Op Ans (Except ε β)}
    {tokens : Except ε α → List τ} {tokens' : Except ε β → List τ} (h : Draws draw held tokens p)
    (hf : ∀ a, Draws draw (tokens (.ok a)) tokens' (f a)) (he : ∀ e, tokens' (.error e) = []) :
    Draws draw held tokens' (p.tryBind f) := by
  refine h.bind fun r => ?_
  cases r with
  | ok a => exact hf a
  | error e => exact done (by rw [he]; exact List.nil_subperm)

section Interleave

variable {choose : Op} {left : Ans choose → Bool} (hchoose : ∀ x, draw ⟨choose, x⟩ = [])
include hchoose

/-- **Two programs side by side** share out what is drawn. -/
theorem runs_interleave {p : Prog Op Ans α} {q : Prog Op Ans β} {tr : List (Event Op Ans)}
    {r : α × β} (h : Runs (interleave choose left p q) tr r) :
    ∃ tr₁ tr₂, Runs p tr₁ r.1 ∧ Runs q tr₂ r.2 ∧
      (tr.flatMap draw).Perm (tr₁.flatMap draw ++ tr₂.flatMap draw) := by
  induction p generalizing q tr with
  | done a =>
      obtain ⟨tr₁, b, tr₂, rfl, hq, h⟩ := Runs.bind h
      cases h
      exact ⟨[], tr₁, .done a, hq, by rw [List.append_nil]; exact List.Perm.refl _⟩
  | ask op next ih =>
      -- the second program is walked down while the first one waits at its request
      induction q generalizing tr with
      | done b =>
          cases h with
          | ask x h =>
              obtain ⟨tr₁, tr₂, h₁, h₂, hperm⟩ := ih x h
              exact ⟨_ :: tr₁, tr₂, .ask x h₁, h₂, by
                simpa only [List.flatMap_cons, List.append_assoc] using hperm.append_left _⟩
      | ask op' next' ih' =>
          cases h with
          | ask c h =>
              rw [List.flatMap_cons, hchoose, List.nil_append]
              dsimp only at h
              split at h
              · cases h with
                | ask x h =>
                    obtain ⟨tr₁, tr₂, h₁, h₂, hperm⟩ := ih x h
                    exact ⟨_ :: tr₁, tr₂, .ask x h₁, h₂, by
                      simpa only [List.flatMap_cons, List.append_assoc] using hperm.append_left _⟩
              · cases h with
                | ask y h =>
                    obtain ⟨tr₁, tr₂, h₁, h₂, hperm⟩ := ih' y h
                    refine ⟨tr₁, _ :: tr₂, h₁, .ask y h₂, ?_⟩
                    rw [List.flatMap_cons, List.flatMap_cons]
                    exact (hperm.append_left _).trans (List.perm_append_comm_assoc _ _ _)

/-- **`join_all`**: each part draws the tokens of its own result. -/
theorem joinAll {ps : List (Prog Op Ans α)} (h : ∀ p ∈ ps, Draws draw [] tokens p) :
    Draws draw [] (fun rs : List α => rs.flatMap tokens) (Prog.joinAll choose left ps) := by
  induction ps with
  | nil => exact done List.nil_subperm
  | cons p ps ih =>
      rw [List.forall_mem_cons] at h
      intro tr rs hrun
      obtain ⟨tr₁, r, tr₂, rfl, hboth, hdone⟩ := Runs.bind hrun
      cases hdone
      obtain ⟨trp, trs, hp, hps, hperm⟩ := runs_interleave hchoose hboth
      rw [List.append_nil]
      exact ((h.1 _ _ hp).append (ih h.2 _ _ hps)).trans hperm.symm.subperm

end Interleave

end Draws

/-! ## Tokens are drawn once -/

section Safe

variable {S : Type u} {draw} {exec : S → (op : Op) → S → Ans op → Prop} {rely guar : S → S → Prop}
  {post : α → S → Prop} {P : S → Prop} {p : Prog Op Ans α} {tokens : α → List τ}
  {I : List τ → S → Prop}

/-- What holds of the tokens drawn so far, and is kept by every request, holds at the end. -/
theorem Safe.runs (hstable : ∀ l, Stable rely (I l))
    (hexec : ∀ l s op s' x, I l s → exec s op s' x → I (l ++ draw ⟨op, x⟩) s')
    {s : S} (h : Safe exec rely guar post p s) {l : List τ} (hl : I l s) :
    Safe exec rely guar (fun a s => post a s ∧ ∃ tr, Runs p tr a ∧ I (l ++ tr.flatMap draw) s) p s := by
  induction p generalizing s l with
  | done a =>
      intro s' hs
      refine ⟨h s' hs, [], .done a, ?_⟩
      rw [List.flatMap_nil, List.append_nil]
      exact hstable l s s' hs hl
  | ask op next ih =>
      intro s₁ hs₁ s₂ x hx
      obtain ⟨hg, hn⟩ := h s₁ hs₁ s₂ x hx
      refine ⟨hg, (ih x hn (hexec l s₁ op s₂ x (hstable l s s₁ hs₁ hl) hx)).imp ?_⟩
      rintro a s ⟨hpost, tr, hrun, htr⟩
      refine ⟨hpost, _ :: tr, .ask x hrun, ?_⟩
      rwa [List.flatMap_cons, ← List.append_assoc]

/-- **The tokens of a result** are some of a list that no request has spoiled. -/
theorem Triple.draws (hinit : ∀ s, I [] s) (hstable : ∀ l, Stable rely (I l))
    (hexec : ∀ l s op s' x, I l s → exec s op s' x → I (l ++ draw ⟨op, x⟩) s')
    (hp : Draws draw [] tokens p) (h : Triple exec rely guar P p post) :
    Triple exec rely guar P p fun a s => post a s ∧ ∃ l, (tokens a).Subperm l ∧ I l s := by
  intro s hs
  refine (Safe.runs hstable hexec (h s hs) (hinit s)).imp ?_
  rintro a s ⟨hpost, tr, hrun, htr⟩
  exact ⟨hpost, _, hp tr a hrun, htr⟩

end Safe

end Prog

end Fckdb
