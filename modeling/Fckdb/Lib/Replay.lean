import Mathlib.Data.List.Basic
import Mathlib.Data.List.TakeDrop
import Mathlib.Data.List.Nodup
import Mathlib.Tactic.SplitIfs

/-! # Replaying a log twice

A log is a list of records acting on a state. A store that folds a prefix of its log into a snapshot
but keeps some of the folded records in the log applies those records *twice* when it is read. This is
harmless exactly when replaying is idempotent (`ReplayIdempotent`), which holds when the records act
key by key through functions that are constant, the identity, or an idempotent update of a value
already there (`Overlay`). -/

namespace Fckdb

universe u v w

variable {σ : Type u} {ρ : Type v}

/-- Apply the records of a log in order. -/
def replay (act : σ → ρ → σ) (s : σ) (log : List ρ) : σ := log.foldl act s

section Replay

variable (act : σ → ρ → σ)

@[simp] theorem replay_nil (s : σ) : replay act s [] = s := rfl

@[simp] theorem replay_cons (s : σ) (r : ρ) (log : List ρ) :
    replay act s (r :: log) = replay act (act s r) log := rfl

theorem replay_append (s : σ) (xs ys : List ρ) :
    replay act s (xs ++ ys) = replay act (replay act s xs) ys := List.foldl_append

/-- Applying a run of records a second time, right after the first, changes nothing. -/
def ReplayIdempotent : Prop :=
  ∀ (s : σ) (xs : List ρ), replay act (replay act s xs) xs = replay act s xs

/-- **Overlapping window**: a snapshot of the first `j` records followed by the records from `k ≤ j`
on is the whole log. -/
theorem ReplayIdempotent.window {act : σ → ρ → σ} (h : ReplayIdempotent act) (s : σ) (log : List ρ)
    {k j : Nat} (hkj : k ≤ j) :
    replay act (replay act s (log.take j)) (log.drop k) = replay act s log := by
  -- `log = before ++ (both ++ after)`, where `both` is what snapshot and tail share
  have hj : log.drop k = (log.drop k).take (j - k) ++ log.drop j := by
    conv_lhs => rw [← List.take_append_drop (j - k) (log.drop k), List.drop_drop]
    rw [show k + (j - k) = j by omega]
  have hb : log.take j = log.take k ++ (log.drop k).take (j - k) := by
    conv_lhs => rw [show j = k + (j - k) by omega, List.take_add]
  have hlog : log = log.take k ++ ((log.drop k).take (j - k) ++ log.drop j) := by
    rw [← hj, List.take_append_drop]
  generalize log.take k = before at *
  generalize (log.drop k).take (j - k) = both at *
  generalize log.drop j = after at *
  rw [hb, hj, hlog]
  simp only [replay_append]
  rw [h]

/-- Replaying blocks of records is replaying their records. -/
theorem replay_flatMap {β : Type w} (f : β → List ρ) (s : σ) (blocks : List β) :
    replay act s (blocks.flatMap f) = replay (fun s b => replay act s (f b)) s blocks := by
  induction blocks generalizing s with
  | nil => rfl
  | cons b blocks ih => rw [List.flatMap_cons, replay_append, ih, replay_cons]

/-- **Overlapping window of blocks**: a snapshot of the first `j` blocks followed by the blocks from
`k ≤ j` on is the whole log. -/
theorem ReplayIdempotent.window_blocks {act : σ → ρ → σ} (h : ReplayIdempotent act) {β : Type w}
    (f : β → List ρ) (s : σ) (blocks : List β) {k j : Nat} (hkj : k ≤ j) :
    replay act (replay act s ((blocks.take j).flatMap f)) ((blocks.drop k).flatMap f) =
      replay act s (blocks.flatMap f) := by
  have hblocks : ReplayIdempotent fun s b => replay act s (f b) := fun s bs => by
    rw [← replay_flatMap, ← replay_flatMap, h]
  simp only [replay_flatMap]
  exact hblocks.window s blocks hkj

end Replay

/-! ## Windows of a log -/

/-- **Retaining**: the entries from the `k`-th on, less those of the window from the `a`-th to the
`n`-th, are the entries after both. -/
theorem filter_drop_window {α : Type u} {β : Type v} [DecidableEq β] (f : α → β) {l : List α}
    (hl : (l.map f).Nodup) {a k n : Nat} (ha : a ≤ k) :
    (l.drop k).filter (fun x => f x ∉ ((l.take n).drop a).map f) = l.drop (max k n) := by
  have hk : max k n = k + (n - k) := by omega
  rw [hk, ← List.take_append_drop (n - k) (l.drop k), List.filter_append, List.drop_drop]
  have hwindow : ((l.drop k).take (n - k)).filter
      (fun x => f x ∉ ((l.take n).drop a).map f) = [] := by
    refine List.filter_eq_nil_iff.mpr fun x hx => ?_
    rw [← List.drop_take] at hx
    have hmem : x ∈ (l.take n).drop a := (List.drop_sublist_drop_left _ ha).subset hx
    rw [decide_eq_true_eq, not_not]
    exact List.mem_map_of_mem hmem
  have hafter : (l.drop (k + (n - k))).filter
      (fun x => f x ∉ ((l.take n).drop a).map f) = l.drop (k + (n - k)) := by
    refine List.filter_eq_self.mpr fun x hx => ?_
    have hx : x ∈ l.drop n := (List.drop_sublist_drop_left _ (by omega)).subset hx
    rw [← List.take_append_drop n l, List.map_append] at hl
    refine decide_eq_true fun hmem => ?_
    obtain ⟨y, hy, hyx⟩ := List.mem_map.mp hmem
    have hy : f y ∈ (l.take n).map f := List.mem_map_of_mem ((List.drop_sublist _ _).subset hy)
    exact (List.disjoint_of_nodup_append hl) (hyx ▸ hy) (List.mem_map_of_mem hx)
  rw [hwindow, hafter, List.nil_append]

/-- **Buckets**: sorting the elements into numbered buckets keeps them all, once each. -/
theorem perm_flatMap_filter {α : Type u} (f : α → Nat) {n : Nat} {l : List α}
    (h : ∀ x ∈ l, f x < n) : ((List.range n).flatMap fun i => l.filter (f · = i)).Perm l := by
  induction n generalizing l with
  | zero =>
      cases l with
      | nil => exact .refl _
      | cons x _ => exact absurd (h x List.mem_cons_self) (Nat.not_lt_zero _)
  | succ n ih =>
      rw [List.range_succ, List.flatMap_append, List.flatMap_singleton]
      -- the buckets below `n` only see the elements below `n`
      have hbelow : (List.range n).flatMap (fun i => l.filter (f · = i)) =
          (List.range n).flatMap fun i => (l.filter (f · < n)).filter (f · = i) := by
        refine List.flatMap_congr fun i hi => ?_
        rw [List.filter_filter]
        refine List.filter_congr fun x _ => ?_
        have := List.mem_range.mp hi
        by_cases hx : f x = i
        · simp [hx, this]
        · simp [hx]
      have hlast : l.filter (f · = n) = l.filter (fun x => !decide (f x < n)) := by
        refine List.filter_congr fun x hx => ?_
        have := h x hx
        rw [← decide_not]
        exact decide_eq_decide.mpr (by omega)
      rw [hbelow, hlast]
      refine ((ih fun x hx => ?_).append_right _).trans (List.filter_append_perm _ l)
      exact of_decide_eq_true (List.mem_filter.mp hx).2

/-- Elements that are filed by number are found by it. -/
theorem filter_flatten {α : Type u} (f : α → Nat) {ls : List (List α)} {start : Nat}
    (h : ∀ j (hj : j < ls.length), ∀ x ∈ ls[j], f x = start + j) {i : Nat} (hi : i < ls.length) :
    ls.flatten.filter (f · = start + i) = ls[i] := by
  induction ls generalizing start i with
  | nil => cases hi
  | cons l ls ih =>
      have hfirst : ∀ x ∈ l, f x = start := h 0 (Nat.zero_lt_succ _)
      have hrest : ∀ j (hj : j < ls.length), ∀ x ∈ ls[j], f x = start + 1 + j := fun j hj x hx => by
        rw [h (j + 1) (Nat.succ_lt_succ hj) x hx]
        omega
      rw [List.flatten_cons, List.filter_append]
      cases i with
      | zero =>
          rw [Nat.add_zero, List.filter_eq_self.mpr fun x hx => decide_eq_true (hfirst x hx),
            List.filter_eq_nil_iff.mpr, List.append_nil]
          · rfl
          · intro x hx
            obtain ⟨l', hl', hx⟩ := List.mem_flatten.mp hx
            obtain ⟨j, hj, rfl⟩ := List.mem_iff_getElem.mp hl'
            have := hrest j hj x hx
            simp only [decide_eq_true_eq]
            omega
      | succ i =>
          have hnone : l.filter (fun x => f x = start + (i + 1)) = [] := by
            refine List.filter_eq_nil_iff.mpr fun x hx => ?_
            have := hfirst x hx
            simp only [decide_eq_true_eq]
            omega
          have hstart : start + (i + 1) = start + 1 + i := by omega
          rw [hnone, List.nil_append, List.getElem_cons_succ, hstart]
          exact ih hrest (Nat.lt_of_succ_lt_succ hi)

/-! ## Functions that are the identity or constant -/

variable {α : Type w}

/-- A function that ignores its argument or returns it. -/
def ConstOrId (f : α → α) : Prop := (∃ c, ∀ x, f x = c) ∨ ∀ x, f x = x

theorem ConstOrId.const (c : α) : ConstOrId (fun _ : α => c) := Or.inl ⟨c, fun _ => rfl⟩

theorem ConstOrId.id : ConstOrId (fun x : α => x) := Or.inr fun _ => rfl

theorem ConstOrId.comp {f g : α → α} (hg : ConstOrId g) (hf : ConstOrId f) :
    ConstOrId (fun x => g (f x)) := by
  rcases hg with ⟨c, hc⟩ | hg
  · exact Or.inl ⟨c, fun x => hc (f x)⟩
  · rcases hf with ⟨c, hc⟩ | hf
    · exact Or.inl ⟨c, fun x => (hg _).trans (hc x)⟩
    · exact Or.inr fun x => (hg _).trans (hf x)

theorem ConstOrId.idem {f : α → α} (h : ConstOrId f) (x : α) : f (f x) = f x := by
  rcases h with ⟨c, hc⟩ | h
  · rw [hc, hc]
  · rw [h]

/-! ## Overlays: replace, remove, keep, or update what is there -/

/-- An action on an optional value: it sets or clears it whatever it was, or updates a present value
by a function of the class `U`. -/
def Overlay (U : (α → α) → Prop) (f : Option α → Option α) : Prop :=
  (∃ c, ∀ x, f x = c) ∨ ∃ g, U g ∧ ∀ x, f x = x.map g

/-- Overlays compose when their updates do. -/
theorem Overlay.comp {U : (α → α) → Prop} (hU : ∀ g f, U g → U f → U (fun x => g (f x)))
    {g f : Option α → Option α} (hg : Overlay U g) (hf : Overlay U f) :
    Overlay U (fun x => g (f x)) := by
  rcases hg with ⟨c, hc⟩ | ⟨u, hu, hg⟩
  · exact Or.inl ⟨c, fun x => hc (f x)⟩
  · rcases hf with ⟨c, hc⟩ | ⟨v, hv, hf⟩
    · exact Or.inl ⟨c.map u, fun x => (hg _).trans (congrArg _ (hc x))⟩
    · refine Or.inr ⟨_, hU u v hu hv, fun x => ?_⟩
      show g (f x) = _
      rw [hg, hf, Option.map_map]
      rfl

/-- An overlay whose updates are idempotent is idempotent. -/
theorem Overlay.idem {U : (α → α) → Prop} (hU : ∀ g, U g → ∀ x, g (g x) = g x)
    {f : Option α → Option α} (h : Overlay U f) (x : Option α) : f (f x) = f x := by
  rcases h with ⟨c, hc⟩ | ⟨g, hg, hf⟩
  · rw [hc, hc]
  · rw [hf, hf, Option.map_map]
    congr 1
    exact funext fun y => hU g hg y

end Fckdb
