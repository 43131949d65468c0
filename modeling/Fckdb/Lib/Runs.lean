import Mathlib.Logic.Basic

/-! # Runs of a transition system

A system is a partial step function `step : S → A → Option S`; `none` means the action is not enabled.
`Reachable step ok init s` says that `s` is reached from `init` by a run *each of whose steps meets*
the condition `ok` on the state before it and its action. Unconditional reachability is `ok = True`. -/

namespace Fckdb

universe u v

variable {S : Type u} {A : Type v}

/-- The states reached from `init` by runs all of whose steps meet `ok`. -/
inductive Reachable (step : S → A → Option S) (ok : S → A → Prop) (init : S) : S → Prop
  | init : Reachable step ok init init
  | step {s s' : S} (a : A) (reached : Reachable step ok init s) (allowed : ok s a)
      (taken : step s a = some s') : Reachable step ok init s'

/-- Execute a list of actions, `none` as soon as one of them is not enabled. -/
def execute (step : S → A → Option S) : S → List A → Option S
  | s, [] => some s
  | s, a :: as => (step s a).bind fun s' => execute step s' as

/-- Each action of the list meets `ok` in the state it is taken in. -/
def Allowed (step : S → A → Option S) (ok : S → A → Prop) : S → List A → Prop
  | _, [] => True
  | s, a :: as => ok s a ∧ ∀ s', step s a = some s' → Allowed step ok s' as

instance Allowed.decidable {step : S → A → Option S} {ok : S → A → Prop} [∀ s a, Decidable (ok s a)] :
    (s : S) → (as : List A) → Decidable (Allowed step ok s as)
  | _, [] => isTrue trivial
  | s, a :: as =>
    match h : step s a with
    | none => decidable_of_iff (ok s a) ⟨fun hok => ⟨hok, fun s' hs => nomatch h.symm.trans hs⟩, And.left⟩
    | some s' =>
      have : Decidable (Allowed step ok s' as) := Allowed.decidable s' as
      decidable_of_iff (ok s a ∧ Allowed step ok s' as)
        ⟨fun hok => ⟨hok.1, fun s₁ hs => Option.some.inj (h.symm.trans hs) ▸ hok.2⟩,
          fun hok => ⟨hok.1, hok.2 s' h⟩⟩

namespace Reachable

variable {step : S → A → Option S} {ok ok' : S → A → Prop} {init s : S}

/-- **Invariant rule**: what holds initially and is kept by every allowed step from a reachable state
holds in every reachable state. -/
theorem invariant {I : S → Prop} (hinit : I init)
    (hstep : ∀ s a s', Reachable step ok init s → I s → ok s a → step s a = some s' → I s')
    (h : Reachable step ok init s) : I s := by
  induction h with
  | init => exact hinit
  | step a reached allowed taken ih => exact hstep _ a _ reached ih allowed taken

/-- A weaker condition allows at least the same runs. -/
theorem mono (himp : ∀ s a, ok s a → ok' s a) (h : Reachable step ok init s) :
    Reachable step ok' init s := by
  induction h with
  | init => exact .init
  | step a _ allowed taken ih => exact ih.step a (himp _ _ allowed) taken

/-- Executing a list of allowed actions from a reachable state reaches its result. -/
theorem execute {as : List A} {s' : S} (h : Reachable step ok init s)
    (hallowed : Allowed step ok s as) (hrun : Fckdb.execute step s as = some s') :
    Reachable step ok init s' := by
  induction as generalizing s with
  | nil =>
      rw [Fckdb.execute, Option.some.injEq] at hrun
      exact hrun ▸ h
  | cons a as ih =>
      obtain ⟨s₁, hs₁, hrun⟩ := Option.bind_eq_some_iff.mp hrun
      exact ih (h.step a hallowed.1 hs₁) (hallowed.2 s₁ hs₁) hrun

end Reachable

/-- Actions that are allowed in any state. -/
theorem Allowed.of_mem {step : S → A → Option S} {ok : S → A → Prop} {as : List A}
    (h : ∀ a ∈ as, ∀ s, ok s a) (s : S) : Allowed step ok s as := by
  induction as generalizing s with
  | nil => trivial
  | cons a as ih =>
      exact ⟨h a List.mem_cons_self s, fun s' _ => ih (fun b hb => h b (List.mem_cons_of_mem a hb)) s'⟩

/-- When every step is allowed, so is every list of actions. -/
theorem Allowed.of_forall {step : S → A → Option S} {ok : S → A → Prop} (h : ∀ s a, ok s a)
    (s : S) (as : List A) : Allowed step ok s as := .of_mem (fun a _ s => h s a) s

end Fckdb
