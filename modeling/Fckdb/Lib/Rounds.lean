import Mathlib.Data.Finset.Card
import Mathlib.Data.Finset.Max

/-! # Working through a set in rounds

Each round treats the first elements of a set, as many as a cap allows; of those, some stay in the set and some leave
it. An element that has at least the cap of staying ones before it is never treated (`not_treated`); if there is
none, the set shrinks in every round that leaves something over (`card_leftAfter_add_le`), so that the rounds come to
an end. If nothing stays, the first `n` rounds treat the first `n * cap` elements (`treated_iff`). -/

namespace Fckdb

universe u

variable {α : Type u} [LinearOrder α] {cap : Nat} {stays : α → Bool} {s : Finset α} {x : α}

/-- How many elements come before. -/
def before (s : Finset α) (x : α) : Nat := {y ∈ s | y < x}.card

/-- How many of those stay when they are treated. -/
def staying (stays : α → Bool) (s : Finset α) (x : α) : Nat := {y ∈ s | y < x ∧ stays y = true}.card

/-- The first elements, as many as the cap allows. -/
def firsts (cap : Nat) (s : Finset α) : Finset α := {x ∈ s | before s x < cap}

/-- What a round leaves: those that stay, and those it did not treat. -/
def leftOver (cap : Nat) (stays : α → Bool) (s : Finset α) : Finset α := {x ∈ s | x ∈ firsts cap s → stays x = true}

/-- What some rounds leave. -/
def leftAfter (cap : Nat) (stays : α → Bool) : Nat → Finset α → Finset α
  | 0, s => s
  | n + 1, s => leftOver cap stays (leftAfter cap stays n s)

/-- Some of these rounds treats the element. -/
def Treated (cap : Nat) (stays : α → Bool) (n : Nat) (s : Finset α) (x : α) : Prop :=
  ∃ k < n, x ∈ firsts cap (leftAfter cap stays k s)

theorem mem_firsts : x ∈ firsts cap s ↔ x ∈ s ∧ before s x < cap := Finset.mem_filter

theorem mem_leftOver : x ∈ leftOver cap stays s ↔ x ∈ s ∧ (x ∈ firsts cap s → stays x = true) := Finset.mem_filter

theorem leftOver_subset : leftOver cap stays s ⊆ s := Finset.filter_subset _ _

theorem staying_le_before : staying stays s x ≤ before s x :=
  Finset.card_le_card (Finset.monotone_filter_right _ fun _ _ h => h.1)

/-- Staying elements stay. -/
theorem staying_leftOver : staying stays (leftOver cap stays s) x = staying stays s x := by
  rw [staying, staying]
  congr 1
  ext y
  simp only [Finset.mem_filter, mem_leftOver]
  exact ⟨fun h => ⟨h.1.1, h.2⟩, fun h => ⟨⟨h.1, fun _ => h.2.2⟩, h.2⟩⟩

theorem staying_leftAfter (n : Nat) : staying stays (leftAfter cap stays n s) x = staying stays s x := by
  induction n with
  | zero => rfl
  | succ n ih => exact staying_leftOver.trans ih

/-- **An element behind too many that stay** is never treated. -/
theorem not_treated (h : cap ≤ staying stays s x) (n : Nat) : ¬ Treated cap stays n s x := by
  rintro ⟨k, -, hx⟩
  have hle : staying stays s x ≤ before (leftAfter cap stays k s) x := by
    rw [← @staying_leftAfter _ _ cap stays s x k]
    exact staying_le_before
  exact absurd (h.trans hle) (Nat.not_le.mpr (mem_firsts.mp hx).2)

theorem leftAfter_subset (n : Nat) : leftAfter cap stays n s ⊆ s := by
  induction n with
  | zero => exact Finset.Subset.refl _
  | succ n ih => exact leftOver_subset.trans ih

/-- What is no longer there was treated. -/
theorem treated_of_not_mem {n : Nat} (hx : x ∈ s) (h : x ∉ leftAfter cap stays n s) : Treated cap stays n s x := by
  induction n with
  | zero => exact absurd hx h
  | succ n ih =>
      by_cases hn : x ∈ leftAfter cap stays n s
      · refine ⟨n, Nat.lt_succ_self n, ?_⟩
        by_contra hnot
        exact h (mem_leftOver.mpr ⟨hn, fun hfirst => absurd hfirst hnot⟩)
      · obtain ⟨k, hk, hfirst⟩ := ih hn
        exact ⟨k, Nat.lt_succ_of_lt hk, hfirst⟩

theorem treated_succ {n : Nat} :
    Treated cap stays (n + 1) s x ↔ Treated cap stays n s x ∨ x ∈ firsts cap (leftAfter cap stays n s) := by
  constructor
  · rintro ⟨k, hk, hx⟩
    rcases Nat.lt_succ_iff_lt_or_eq.mp hk with hk | rfl
    · exact .inl ⟨k, hk, hx⟩
    · exact .inr hx
  · rintro (⟨k, hk, hx⟩ | hx)
    · exact ⟨k, Nat.lt_succ_of_lt hk, hx⟩
    · exact ⟨n, Nat.lt_succ_self n, hx⟩

theorem mem_of_treated {n : Nat} (h : Treated cap stays n s x) : x ∈ s := by
  obtain ⟨k, -, hx⟩ := h
  exact leftAfter_subset k (mem_firsts.mp hx).1

/-- What was treated is left if it stays. -/
theorem mem_leftAfter {n : Nat} :
    x ∈ leftAfter cap stays n s ↔ x ∈ s ∧ (Treated cap stays n s x → stays x = true) := by
  induction n with
  | zero => exact ⟨fun hx => ⟨hx, fun ⟨k, hk, _⟩ => absurd hk (Nat.not_lt_zero k)⟩, fun h => h.1⟩
  | succ n ih =>
      rw [leftAfter, mem_leftOver, ih, treated_succ, or_imp, and_assoc]

/-- The first elements are all of them if the cap allows it. -/
theorem firsts_eq_self (h : s.card ≤ cap) : firsts cap s = s := by
  refine Finset.filter_true_of_mem fun x hx => lt_of_lt_of_le ?_ h
  exact Finset.card_lt_card (Finset.filter_ssubset.mpr ⟨x, hx, lt_irrefl x⟩)

/-- **A round that the cap does not cut** treats all that have not been. -/
theorem treated_all {n : Nat} (h : (leftAfter cap stays n s).card ≤ cap) (hx : x ∈ s) :
    Treated cap stays (n + 1) s x := by
  by_cases hn : x ∈ leftAfter cap stays n s
  · exact treated_succ.mpr (.inr (by rwa [firsts_eq_self h]))
  · exact treated_succ.mpr (.inl (treated_of_not_mem hx hn))

/-- If not all are treated, one is left over. -/
theorem exists_not_mem_firsts (h : cap < s.card) : ∃ x ∈ s, x ∉ firsts cap s := by
  have hne : s.Nonempty := Finset.card_pos.mp (Nat.zero_lt_of_lt h)
  refine ⟨s.max' hne, s.max'_mem hne, fun hfirst => ?_⟩
  have hbefore : before s (s.max' hne) = s.card - 1 := by
    rw [before, ← Finset.card_erase_of_mem (s.max'_mem hne)]
    congr 1
    ext y
    rw [Finset.mem_filter, Finset.mem_erase]
    exact ⟨fun hy => ⟨hy.2.ne, hy.1⟩, fun hy => ⟨hy.2, lt_of_le_of_ne (s.le_max' y hy.2) hy.1⟩⟩
  have := (mem_firsts.mp hfirst).2
  omega

/-- **A round that leaves something over** makes the set smaller, unless too many stay. -/
theorem card_leftOver_lt (hstays : ∀ x ∈ s, staying stays s x < cap) (h : cap < s.card) :
    (leftOver cap stays s).card < s.card := by
  obtain ⟨x, hx, hnot⟩ := exists_not_mem_firsts h
  refine Finset.card_lt_card (Finset.filter_ssubset.mpr ?_)
  -- otherwise all those before an element that is left over stay
  by_contra hall
  have hlow : ∃ y ∈ s, y ∉ firsts cap s ∧ ∀ z ∈ s, z < y → z ∈ firsts cap s := by
    have hne : {y ∈ s | y ∉ firsts cap s}.Nonempty := ⟨x, Finset.mem_filter.mpr ⟨hx, hnot⟩⟩
    obtain ⟨hy, hyfirst⟩ := Finset.mem_filter.mp (Finset.min'_mem _ hne)
    refine ⟨_, hy, hyfirst, fun z hz hlt => ?_⟩
    by_contra hzfirst
    exact absurd hlt (not_lt.mpr (Finset.min'_le _ z (Finset.mem_filter.mpr ⟨hz, hzfirst⟩)))
  obtain ⟨y, hy, hyfirst, hbelow⟩ := hlow
  have hsame : staying stays s y = before s y := by
    rw [staying, before]
    congr 1
    refine Finset.filter_congr fun z hz => ⟨fun h => h.1, fun hlt => ⟨hlt, ?_⟩⟩
    by_contra hstay
    exact hall ⟨z, hz, fun himp => hstay (himp (hbelow z hz hlt))⟩
  have hge : ¬ before s y < cap := fun hlt => hyfirst (mem_firsts.mpr ⟨hy, hlt⟩)
  exact hge (hsame ▸ hstays y hy)

/-- **Rounds that all leave something over** are at most as many as the elements, unless too many stay. -/
theorem card_leftAfter_add_le {n : Nat} (hstays : ∀ x ∈ s, staying stays s x < cap)
    (h : ∀ k < n, cap < (leftAfter cap stays k s).card) : (leftAfter cap stays n s).card + n ≤ s.card := by
  induction n with
  | zero => exact Nat.le_refl _
  | succ n ih =>
      have hshrinks : (leftAfter cap stays (n + 1) s).card < (leftAfter cap stays n s).card := by
        refine card_leftOver_lt (fun x hx => ?_) (h n (Nat.lt_succ_self n))
        rw [staying_leftAfter]
        exact hstays x (leftAfter_subset n hx)
      have := ih fun k hk => h k (Nat.lt_succ_of_lt hk)
      omega

/-! ## Rounds that nothing stays in -/

theorem card_firsts (cap : Nat) (s : Finset α) : (firsts cap s).card = min cap s.card := by
  induction s using Finset.induction_on_max with
  | empty => exact (Nat.min_zero cap).symm
  | insert a t hmax ih =>
      have hnot : a ∉ t := fun ha => lt_irrefl a (hmax a ha)
      have hbefore (y : α) (hy : y ∈ t) : before (insert a t) y = before t y := by
        rw [before, before, Finset.filter_insert, if_neg (not_lt.mpr (hmax y hy).le)]
      have hlast : before (insert a t) a = t.card := by
        rw [before, Finset.filter_insert, if_neg (lt_irrefl a), Finset.filter_true_of_mem hmax]
      have hrest : {y ∈ t | before (insert a t) y < cap} = firsts cap t :=
        Finset.filter_congr fun y hy => by rw [hbefore y hy]
      rw [firsts, Finset.filter_insert, hlast, hrest, Finset.card_insert_of_notMem hnot]
      split_ifs with hcap
      · rw [Finset.card_insert_of_notMem fun ha => hnot (mem_firsts.mp ha).1, ih]
        omega
      · rw [ih]
        omega

theorem firsts_nonempty (hcap : 0 < cap) (hs : s.Nonempty) : (firsts cap s).Nonempty := by
  rw [← Finset.card_pos, card_firsts]
  exact lt_min hcap (Finset.card_pos.mpr hs)

/-- What nothing stays of are the elements after the first. -/
theorem leftOver_eq_sdiff (cap : Nat) (s : Finset α) : leftOver cap (fun _ => false) s = s \ firsts cap s := by
  ext x
  rw [mem_leftOver, Finset.mem_sdiff]
  exact and_congr_right fun _ => ⟨fun h hx => Bool.noConfusion (h hx), fun h hx => absurd hx h⟩

theorem card_leftAfter (n : Nat) : (leftAfter cap (fun _ => false) n s).card = s.card - n * cap := by
  induction n with
  | zero => rw [Nat.zero_mul, Nat.sub_zero, leftAfter]
  | succ n ih =>
      have hsub : firsts cap (leftAfter cap (fun _ => false) n s) ⊆ leftAfter cap (fun _ => false) n s :=
        Finset.filter_subset _ _
      rw [leftAfter, leftOver_eq_sdiff, Finset.card_sdiff_of_subset hsub, card_firsts, ih, Nat.succ_mul]
      omega

/-- What comes before an element that is left. -/
theorem before_leftOver (cap : Nat) (s : Finset α) (x : α) :
    before (leftOver cap (fun _ => false) s) x = before s x - cap := by
  have hfirsts : {y ∈ firsts cap s | y < x} = firsts cap {y ∈ s | y < x} := by
    ext y
    simp only [Finset.mem_filter, mem_firsts, before]
    constructor
    · rintro ⟨⟨hy, hlt⟩, hyx⟩
      exact ⟨⟨hy, hyx⟩, lt_of_le_of_lt (Finset.card_le_card fun z hz => by
        simp only [Finset.mem_filter] at hz ⊢
        exact ⟨hz.1.1, hz.2⟩) hlt⟩
    · rintro ⟨⟨hy, hyx⟩, hlt⟩
      refine ⟨⟨hy, lt_of_le_of_lt (Finset.card_le_card fun z hz => ?_) hlt⟩, hyx⟩
      simp only [Finset.mem_filter] at hz ⊢
      exact ⟨⟨hz.1, hz.2.trans hyx⟩, hz.2⟩
  have hsplit : {y ∈ s \ firsts cap s | y < x} = {y ∈ s | y < x} \ firsts cap {y ∈ s | y < x} := by
    rw [← hfirsts]
    ext y
    simp only [Finset.mem_filter, Finset.mem_sdiff]
    tauto
  have hsub : firsts cap {y ∈ s | y < x} ⊆ {y ∈ s | y < x} := Finset.filter_subset _ _
  rw [leftOver_eq_sdiff, before, hsplit, Finset.card_sdiff_of_subset hsub, card_firsts, before]
  omega

theorem before_leftAfter (n : Nat) : before (leftAfter cap (fun _ => false) n s) x = before s x - n * cap := by
  induction n with
  | zero => rw [Nat.zero_mul, Nat.sub_zero, leftAfter]
  | succ n ih => rw [leftAfter, before_leftOver, ih, Nat.succ_mul, Nat.sub_sub]

/-- **The first rounds treat the first elements.** -/
theorem treated_iff {n : Nat} : Treated cap (fun _ => false) n s x ↔ x ∈ s ∧ before s x < n * cap := by
  induction n with
  | zero =>
      rw [Nat.zero_mul]
      exact ⟨fun ⟨k, hk, _⟩ => absurd hk (Nat.not_lt_zero k), fun h => absurd h.2 (Nat.not_lt_zero _)⟩
  | succ n ih =>
      rw [treated_succ, mem_firsts, before_leftAfter, ih, Nat.succ_mul]
      constructor
      · rintro (⟨hx, hlt⟩ | ⟨hx, hlt⟩)
        · exact ⟨hx, hlt.trans_le (Nat.le_add_right _ _)⟩
        · exact ⟨leftAfter_subset n hx, by omega⟩
      · rintro ⟨hx, hlt⟩
        by_cases hn : before s x < n * cap
        · exact .inl ⟨hx, hn⟩
        · refine .inr ⟨?_, by omega⟩
          by_contra hnot
          exact hn (ih.mp (treated_of_not_mem hx hnot)).2

end Fckdb
