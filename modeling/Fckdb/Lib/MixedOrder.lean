import Mathlib.Order.Compare
import Mathlib.Order.Monotone.Basic
import Mathlib.Order.Defs.LinearOrder
import Mathlib.Order.Lattice

/-! # Orders that are partly approximate

Exact elements are compared with each other exactly, and with approximate ones through a monotone map into
their order. Three elements are then ordered consistently unless the map takes two different exact elements to
the approximate one among them (`chained_mixedCmp_iff`). -/

namespace Fckdb

universe u v w

/-- What comparisons of `a` with `b` and `b` with `c` leave for `a` and `c`: at most is transitive, strictly if
either is strict, and equality is. -/
def Chained (p q r : Ordering) : Prop :=
  p ≠ .gt → q ≠ .gt → r ≠ .gt ∧ (p = .lt ∨ q = .lt → r = .lt) ∧ (p = .eq → q = .eq → r = .eq)

/-- The three comparisons may be made in three orders. -/
theorem chained_iff {κ : Type u} {ι : Type v} {τ : Type w} [LinearOrder κ] [LinearOrder ι] [LinearOrder τ]
    {x y : κ} {x' y' : ι} {x'' y'' : τ} : Chained (cmp x y) (cmp x' y') (cmp x'' y'') ↔
      (x ≤ y → x' ≤ y' → x'' ≤ y'' ∧ (x < y ∨ x' < y' → x'' < y'') ∧ (x = y → x' = y' → x'' = y'')) := by
  rw [Chained, ne_eq, ne_eq, ne_eq, cmp_eq_gt_iff, cmp_eq_gt_iff, cmp_eq_gt_iff, cmp_eq_lt_iff, cmp_eq_lt_iff,
    cmp_eq_lt_iff, cmp_eq_eq_iff, cmp_eq_eq_iff, cmp_eq_eq_iff, not_lt, not_lt, not_lt]

/-- A linear order is consistent. -/
theorem chained_cmp {κ : Type u} [LinearOrder κ] (x y z : κ) : Chained (cmp x y) (cmp y z) (cmp x z) := by
  refine chained_iff.mpr fun hxy hyz => ⟨hxy.trans hyz, ?_, Eq.trans⟩
  rintro (hlt | hlt)
  · exact hlt.trans_le hyz
  · exact hxy.trans_lt hlt

variable {α : Type u} {β : Type v} [LinearOrder α] [LinearOrder β] (approximate : α → β)

/-- Exact elements among themselves, approximate ones with anything. -/
def mixedCmp : α ⊕ β → α ⊕ β → Ordering
  | .inl x, .inl y => cmp x y
  | .inl x, .inr w => cmp (approximate x) w
  | .inr v, .inl y => cmp v (approximate y)
  | .inr v, .inr w => cmp v w

theorem mixedCmp_swap (s t : α ⊕ β) : mixedCmp approximate t s = (mixedCmp approximate s t).swap := by
  rcases s with x | v <;> rcases t with y | w <;> exact (cmp_swap _ _).symm

/-- An approximate element stands for two exact ones that differ, in an arrangement that shows it. -/
inductive Conflates : α ⊕ β → α ⊕ β → α ⊕ β → Prop
  | first {x y : α} {v : β} (h : x < y) (hx : approximate x = v) (hy : approximate y = v) :
      Conflates (.inr v) (.inl x) (.inl y)
  | middle {x y : α} {v : β} (h : x ≠ y) (hx : approximate x = v) (hy : approximate y = v) :
      Conflates (.inl x) (.inr v) (.inl y)
  | last {x y : α} {v : β} (h : x < y) (hx : approximate x = v) (hy : approximate y = v) :
      Conflates (.inl x) (.inl y) (.inr v)

variable {approximate}

/-- **Three elements are ordered consistently unless two of them are merged.** -/
theorem chained_mixedCmp_iff (hmono : Monotone approximate) (s t u : α ⊕ β) :
    Chained (mixedCmp approximate s t) (mixedCmp approximate t u) (mixedCmp approximate s u) ↔
      ¬ Conflates approximate s t u := by
  rcases s with x | v <;> rcases t with y | v' <;> rcases u with z | v''
  case inl.inl.inl => exact iff_of_true (chained_cmp x y z) nofun
  case inl.inr.inr => exact iff_of_true (chained_cmp _ v' v'') nofun
  case inr.inl.inr => exact iff_of_true (chained_cmp v _ v'') nofun
  case inr.inr.inl => exact iff_of_true (chained_cmp v v' _) nofun
  case inr.inr.inr => exact iff_of_true (chained_cmp v v' v'') nofun
  case inr.inl.inl =>
    refine chained_iff.trans ⟨fun h hmerges => ?_, fun h hle hle' => ⟨hle.trans (hmono hle'), ?_, ?_⟩⟩
    · cases hmerges with
      | first hlt hx hy => exact ((h hx.ge hlt.le).2.1 (.inr hlt)).ne hy.symm
    · rintro (hlt | hlt)
      · exact hlt.trans_le (hmono hle')
      · refine (hle.trans (hmono hle')).lt_of_ne fun heq => h (.first hlt ?_ heq.symm)
        exact le_antisymm ((hmono hle').trans_eq heq.symm) hle
    · rintro heq rfl
      exact heq
  case inl.inr.inl =>
    refine chained_iff.trans ⟨fun h hmerges => ?_, fun h hle hle' => ⟨?_, ?_, ?_⟩⟩
    · cases hmerges with
      | middle hne hx hy => exact hne ((h hx.le hy.ge).2.2 hx hy.symm)
    · refine le_of_not_gt fun hgt => h (.middle hgt.ne' ?_ ?_)
      · exact le_antisymm hle (hle'.trans (hmono hgt.le))
      · exact le_antisymm ((hmono hgt.le).trans hle) hle'
    · refine fun hstrict => lt_of_not_ge fun hge => ?_
      rcases hstrict with hlt | hlt
      · exact (hlt.trans_le (hle'.trans (hmono hge))).false
      · exact (hlt.trans_le ((hmono hge).trans hle)).false
    · exact fun heq heq' => of_not_not fun hne => h (.middle hne heq heq'.symm)
  case inl.inl.inr =>
    refine chained_iff.trans ⟨fun h hmerges => ?_, fun h hle hle' => ⟨(hmono hle).trans hle', ?_, ?_⟩⟩
    · cases hmerges with
      | last hlt hx hy => exact ((h hlt.le hy.le).2.1 (.inl hlt)).ne hx
    · rintro (hlt | hlt)
      · refine ((hmono hle).trans hle').lt_of_ne fun heq => h (.last hlt heq ?_)
        exact le_antisymm hle' (heq.symm.trans_le (hmono hle))
      · exact (hmono hle).trans_lt hlt
    · rintro rfl heq
      exact heq

end Fckdb
