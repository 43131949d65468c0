import Mathlib.Data.List.Count
import Mathlib.Data.List.Sort
import Mathlib.Data.Prod.Lex

/-! # The best of a list

The `k` best elements of a list by a rank. Where ranks tell the elements apart, the best do not depend on
the order of the list (`best_perm`), and a list may be cut into parts, each part cut to its best, and the
remains merged: the best of the merge are the best of all (`best_flatMap`). -/

namespace Fckdb

universe u v w

/-! ## Leading parts of nested lists -/

section Lists

variable {α : Type u}

/-- What leads a list leads each part of it that contains it. -/
theorem mem_take_of_sublist {u s : List α} (h : u.Sublist s) (hs : s.Nodup) {k : Nat} {x : α}
    (hx : x ∈ s.take k) (hu : x ∈ u) : x ∈ u.take k := by
  induction h generalizing k with
  | slnil => exact hx
  | cons a h ih =>
      cases k with
      | zero => cases hx
      | succ k =>
        rw [List.nodup_cons] at hs
        rw [List.take_succ_cons, List.mem_cons] at hx
        rcases hx with rfl | hx
        · exact absurd (h.subset hu) hs.1
        · exact List.take_subset_take_left _ k.le_succ (ih hs.2 hx hu)
  | cons_cons a h ih =>
      cases k with
      | zero => cases hx
      | succ k =>
        rw [List.nodup_cons] at hs
        rw [List.take_succ_cons, List.mem_cons] at hx ⊢
        rcases hx with rfl | hx
        · exact .inl rfl
        · have hne : x ≠ a := fun h => hs.1 (h ▸ List.mem_of_mem_take hx)
          exact .inr (ih hs.2 hx ((List.mem_cons.mp hu).resolve_left hne))

/-- A part that contains what leads the list is led by it. -/
theorem take_eq_of_sublist {t s : List α} (h : t.Sublist s) (hs : s.Nodup) {k : Nat}
    (hk : s.take k ⊆ t) : t.take k = s.take k := by
  induction h generalizing k with
  | slnil => rfl
  | cons a h ih =>
      cases k with
      | zero => rfl
      | succ k =>
        rw [List.nodup_cons] at hs
        rw [List.take_succ_cons, List.cons_subset] at hk
        exact absurd (h.subset hk.1) hs.1
  | cons_cons a h ih =>
      cases k with
      | zero => rfl
      | succ k =>
        rw [List.nodup_cons] at hs
        rw [List.take_succ_cons, List.cons_subset] at hk
        rw [List.take_succ_cons, List.take_succ_cons, ih hs.2 fun x hx => ?_]
        have hne : x ≠ a := fun h => hs.1 (h ▸ List.mem_of_mem_take hx)
        exact (List.mem_cons.mp (hk.2 hx)).resolve_left hne

end Lists

theorem subperm_append {α : Type u} {l₁ l₂ l₁' l₂' : List α} (h : l₁.Subperm l₁') (h' : l₂.Subperm l₂') :
    (l₁ ++ l₂).Subperm (l₁' ++ l₂') :=
  ((List.subperm_append_right l₂).mpr h).trans ((List.subperm_append_left l₁').mpr h')

/-! ## The best -/

variable {α : Type u} {κ : Type v} [LinearOrder κ] (rank : α → κ)

/-- The list in the order of the ranks. -/
def ranked (l : List α) : List α := l.insertionSort (rank · ≤ rank ·)

/-- The `k` elements of the least ranks. -/
def best (k : Nat) (l : List α) : List α := (ranked rank l).take k

theorem ranked_perm (l : List α) : (ranked rank l).Perm l := List.perm_insertionSort _ l

variable {rank} {k : Nat} {l l' : List α}

theorem best_subset : best rank k l ⊆ l := fun _ hx =>
  (ranked_perm rank l).subset (List.mem_of_mem_take hx)

theorem best_subperm : (best rank k l).Subperm l :=
  (List.take_sublist k _).subperm.trans (ranked_perm rank l).subperm

omit [LinearOrder κ] in
/-- A part of a list whose elements have different ranks is such a list. -/
theorem nodup_map_of_subperm (h : (l'.map rank).Nodup) (hl : l.Subperm l') : (l.map rank).Nodup := by
  obtain ⟨l'', hp, hs⟩ := hl
  exact ((hp.map rank).nodup_iff).mp (h.sublist (hs.map rank))

/-- The list is in order. -/
theorem ranked_pairwise_le (l : List α) : (ranked rank l).Pairwise (rank · ≤ rank ·) := by
  have : IsTrans α (rank · ≤ rank ·) := ⟨fun _ _ _ => le_trans⟩
  have : Std.Total (α := α) (rank · ≤ rank ·) := ⟨fun _ _ => le_total _ _⟩
  exact List.pairwise_insertionSort (rank · ≤ rank ·) l

/-- Elements of different ranks stand in strict order. -/
theorem ranked_pairwise (h : (l.map rank).Nodup) :
    (ranked rank l).Pairwise (rank · < rank ·) := by
  have hne : (ranked rank l).Pairwise (rank · ≠ rank ·) := by
    rw [← ((ranked_perm rank l).map rank).nodup_iff] at h
    exact List.pairwise_map.mp h
  exact ((ranked_pairwise_le l).and hne).imp fun h => lt_of_le_of_ne h.1 h.2

theorem ranked_nodup (h : (l.map rank).Nodup) : (ranked rank l).Nodup :=
  (ranked_pairwise h).imp fun {a b} (hlt : rank a < rank b) (heq : a = b) =>
    lt_irrefl _ (heq ▸ hlt : rank b < rank b)

/-- What is ranked keeps its order in what contains it. -/
theorem ranked_sublist (h : (l'.map rank).Nodup) (hl : l.Subperm l') :
    (ranked rank l).Sublist (ranked rank l') := by
  have : Std.Antisymm (α := α) (rank · < rank ·) := ⟨fun _ _ h h' => absurd h (lt_asymm h')⟩
  have hsub : (ranked rank l).Subperm (ranked rank l') :=
    (ranked_perm rank l).subperm_right.mpr hl |>.trans (ranked_perm rank l').symm.subperm
  exact List.sublist_of_subperm_of_pairwise hsub
    (ranked_pairwise (nodup_map_of_subperm h hl)) (ranked_pairwise h)

/-- The best are in order. -/
theorem best_pairwise_le : (best rank k l).Pairwise (rank · ≤ rank ·) :=
  (ranked_pairwise_le l).sublist (List.take_sublist k _)

/-- The best stand in strict order. -/
theorem best_pairwise (h : (l.map rank).Nodup) : (best rank k l).Pairwise (rank · < rank ·) :=
  (ranked_pairwise h).sublist (List.take_sublist k _)

/-- What is cut off is cut off at the limit, and after all that is kept. -/
theorem best_of_not_mem (h : (l.map rank).Nodup) {x : α} (hx : x ∈ l) (hcut : x ∉ best rank k l) :
    (best rank k l).length = k ∧ ∀ y ∈ best rank k l, rank y < rank x := by
  have hsplit : (ranked rank l).take k ++ (ranked rank l).drop k = ranked rank l := List.take_append_drop _ _
  have hrest : x ∈ (ranked rank l).drop k := by
    have hmem : x ∈ ranked rank l := (ranked_perm rank l).mem_iff.mpr hx
    rw [← hsplit, List.mem_append] at hmem
    exact hmem.resolve_left hcut
  constructor
  · have hlength := List.length_pos_of_mem hrest
    rw [List.length_drop] at hlength
    rw [best, List.length_take]
    omega
  · have hpairs := ranked_pairwise h
    rw [← hsplit, List.pairwise_append] at hpairs
    exact fun y hy => hpairs.2.2 y hy x hrest

/-- An element is among the best if few come before it. -/
theorem mem_best_iff (h : (l.map rank).Nodup) {x : α} :
    x ∈ best rank k l ↔ x ∈ l ∧ l.countP (rank · < rank x) < k := by
  constructor
  · intro hx
    refine ⟨best_subset hx, ?_⟩
    have hsplit : best rank k l ++ (ranked rank l).drop k = ranked rank l := List.take_append_drop _ _
    have hpairs := ranked_pairwise h
    rw [← hsplit, List.pairwise_append] at hpairs
    -- nothing that is cut off comes before it
    have hrest : ((ranked rank l).drop k).countP (rank · < rank x) = 0 :=
      List.countP_eq_zero.mpr fun y hy => by simpa using (hpairs.2.2 x hx y hy).le
    have hself : (best rank k l).countP (rank · < rank x) < (best rank k l).length :=
      List.countP_lt_length_iff.mpr ⟨x, hx, by simp⟩
    calc l.countP (rank · < rank x)
        = (best rank k l).countP (rank · < rank x) := by
          rw [← (ranked_perm rank l).countP_eq, ← hsplit, List.countP_append, hrest, Nat.add_zero]
      _ < (best rank k l).length := hself
      _ ≤ k := List.length_take_le _ _
  · rintro ⟨hx, hfew⟩
    by_contra hcut
    obtain ⟨hlength, hbefore⟩ := best_of_not_mem h hx hcut
    have hall : (best rank k l).countP (rank · < rank x) = k := by
      rw [List.countP_eq_length.mpr fun y hy => decide_eq_true (hbefore y hy), hlength]
    have hmany : (best rank k l).countP (rank · < rank x) ≤ l.countP (rank · < rank x) :=
      best_subperm.countP_le _
    rw [hall] at hmany
    exact absurd hmany (Nat.not_le.mpr hfew)

/-- **What passes a test has the same best** if and only if whatever fails it comes after enough others. -/
theorem best_filter_eq_iff (h : (l.map rank).Nodup) {p : α → Bool} :
    best rank k (l.filter p) = best rank k l ↔ ∀ x ∈ l, p x = false → k ≤ l.countP (rank · < rank x) := by
  constructor
  · intro heq x hx hp
    by_contra hfew
    have hbest : x ∈ best rank k l := (mem_best_iff h).mpr ⟨hx, Nat.not_le.mp hfew⟩
    rw [← heq] at hbest
    exact Bool.false_ne_true (hp.symm.trans (List.mem_filter.mp (best_subset hbest)).2)
  · intro hlate
    refine take_eq_of_sublist (ranked_sublist h List.filter_sublist.subperm) (ranked_nodup h) fun x hx => ?_
    obtain ⟨hmem, hfew⟩ := (mem_best_iff h).mp hx
    refine (ranked_perm rank _).mem_iff.mpr (List.mem_filter.mpr ⟨hmem, ?_⟩)
    cases hp : p x with
    | true => rfl
    | false => exact absurd (hlate x hmem hp) (Nat.not_le.mpr hfew)

/-- A list that is in order is not reordered. -/
theorem best_eq_take (h : l.Pairwise (rank · ≤ rank ·)) : best rank k l = l.take k := by
  rw [best, ranked, h.insertionSort_eq]

/-- **The order of the list does not matter.** -/
theorem ranked_eq_of_perm (h : (l.map rank).Nodup) (hp : l.Perm l') : ranked rank l = ranked rank l' := by
  have h' : (l'.map rank).Nodup := ((hp.map rank).nodup_iff).mp h
  refine (ranked_sublist h' hp.subperm).eq_of_length ?_
  rw [(ranked_perm rank l).length_eq, (ranked_perm rank l').length_eq, hp.length_eq]

theorem best_perm (h : (l.map rank).Nodup) (hp : l.Perm l') : best rank k l = best rank k l' := by
  rw [best, best, ranked_eq_of_perm h hp]

/-- **Cutting one part to its best** loses none of the best of all. -/
theorem best_append (h : ((l ++ l').map rank).Nodup) :
    best rank k (best rank k l ++ l') = best rank k (l ++ l') := by
  have hsub : (best rank k l ++ l').Subperm (l ++ l') :=
    subperm_append best_subperm (List.Subperm.refl l')
  refine take_eq_of_sublist (ranked_sublist h hsub) (ranked_nodup h) fun x hx => ?_
  rw [(ranked_perm rank _).mem_iff, List.mem_append]
  have hmem := (ranked_perm rank _).subset (List.mem_of_mem_take hx)
  rcases List.mem_append.mp hmem with hl | hl'
  · refine .inl (mem_take_of_sublist (ranked_sublist h ?_) (ranked_nodup h) hx ?_)
    · exact (List.sublist_append_left l l').subperm
    · exact (ranked_perm rank l).mem_iff.mpr hl
  · exact .inr hl'

theorem flatMap_best_subperm {ι : Type w} (is : List ι) (part : ι → List α) :
    (is.flatMap fun i => best rank k (part i)).Subperm (is.flatMap part) := by
  induction is with
  | nil => exact List.Subperm.refl _
  | cons i is ih => exact subperm_append best_subperm ih

/-- **Merging**: the best of the parts' best are the best of all. -/
theorem best_flatMap {ι : Type w} (is : List ι) (part : ι → List α)
    (h : ((is.flatMap part).map rank).Nodup) :
    best rank k (is.flatMap fun i => best rank k (part i)) = best rank k (is.flatMap part) := by
  -- the parts are restored one after the other, behind those that are whole again
  have key : ∀ front : List α, ((front ++ is.flatMap part).map rank).Nodup →
      best rank k (front ++ is.flatMap fun i => best rank k (part i)) =
        best rank k (front ++ is.flatMap part) := by
    clear h
    induction is with
    | nil => exact fun _ _ => rfl
    | cons i is ih =>
        intro front hfront
        have hrest : (is.flatMap fun i => best rank k (part i)).Subperm (is.flatMap part) :=
          flatMap_best_subperm is part
        have hwhole : ((front ++ part i ++ is.flatMap part).map rank).Nodup := by
          rwa [List.append_assoc]
        have hpart : ((part i ++ (front ++ is.flatMap fun i => best rank k (part i))).map rank).Nodup := by
          refine nodup_map_of_subperm hwhole ?_
          rw [← List.append_assoc]
          exact subperm_append List.perm_append_comm.subperm hrest
        calc best rank k (front ++ (best rank k (part i) ++ is.flatMap fun i => best rank k (part i)))
            = best rank k (best rank k (part i) ++
                (front ++ is.flatMap fun i => best rank k (part i))) := by
              refine (best_perm ?_ (List.perm_append_comm_assoc _ _ _)).symm
              exact nodup_map_of_subperm hpart (subperm_append best_subperm (.refl _))
          _ = best rank k (part i ++ (front ++ is.flatMap fun i => best rank k (part i))) :=
              best_append hpart
          _ = best rank k (front ++ part i ++ is.flatMap fun i => best rank k (part i)) := by
              rw [List.append_assoc]
              exact best_perm hpart (List.perm_append_comm_assoc _ _ _)
          _ = best rank k (front ++ part i ++ is.flatMap part) := ih _ hwhole
          _ = best rank k (front ++ (part i ++ is.flatMap part)) := by rw [List.append_assoc]
  exact key [] h

/-- A change that keeps the ranks. -/
theorem best_map {β : Type w} {rank' : β → κ} {f : α → β} (h : ∀ a, rank' (f a) = rank a) :
    best rank' k (l.map f) = (best rank k l).map f := by
  have hsort : (ranked rank l).map f = ranked rank' (l.map f) :=
    List.map_insertionSort (r := (rank · ≤ rank ·)) (s := (rank' · ≤ rank' ·)) f l
      fun a _ b _ => by rw [h, h]
  rw [best, ← hsort, best, List.map_take]

/-- What a comparison in descending order, then by a second key, sorts by. -/
theorem compare_then_ne_gt {β : Type v} {γ : Type w} [LinearOrder β] [LinearOrder γ] {x y : β} {i j : γ} :
    (compare y x).then (compare i j) ≠ .gt ↔
      toLex (OrderDual.toDual x, i) ≤ toLex (OrderDual.toDual y, j) := by
  rw [Prod.Lex.toLex_le_toLex, OrderDual.toDual_lt_toDual, OrderDual.toDual_inj]
  rcases lt_trichotomy y x with hlt | rfl | hgt
  · rw [compare_lt_iff_lt.mpr hlt]
    simp [Ordering.then, hlt]
  · rw [compare_eq_iff_eq.mpr rfl]
    simp [Ordering.then, compare_le_iff_le]
  · rw [compare_gt_iff_gt.mpr hgt]
    simp [Ordering.then, hgt.ne, hgt.not_gt]

/-- The comparison of pairs: the first key, then the second. -/
theorem cmp_toLex {β : Type v} {γ : Type w} [LinearOrder β] [LinearOrder γ] (x y : β) (i j : γ) :
    cmp (toLex (x, i)) (toLex (y, j)) = (cmp x y).then (cmp i j) := by
  rcases lt_trichotomy x y with hlt | rfl | hgt
  · rw [(cmp_eq_lt_iff x y).mpr hlt]
    exact (cmp_eq_lt_iff _ _).mpr (Prod.Lex.toLex_lt_toLex.mpr (.inl hlt))
  · rw [cmp_self_eq_eq, Ordering.then]
    rcases lt_trichotomy i j with hlt | rfl | hgt
    · rw [(cmp_eq_lt_iff i j).mpr hlt, cmp_eq_lt_iff]
      exact Prod.Lex.toLex_lt_toLex.mpr (.inr ⟨rfl, hlt⟩)
    · rw [cmp_self_eq_eq, cmp_self_eq_eq]
    · rw [(cmp_eq_gt_iff i j).mpr hgt, cmp_eq_gt_iff]
      exact Prod.Lex.toLex_lt_toLex.mpr (.inr ⟨rfl, hgt⟩)
  · rw [(cmp_eq_gt_iff x y).mpr hgt]
    exact (cmp_eq_gt_iff _ _).mpr (Prod.Lex.toLex_lt_toLex.mpr (.inl hgt))

section Comparing

variable {l₁ l₁' l₂ l₂' : List α}

/-! ## Comparing lists -/

/-- In a list that is in order, the place of an element tells how many ranks are reached. -/
theorem lt_countP_iff (h : l.Pairwise (rank · ≤ rank ·)) {i : Nat} {x : κ} :
    i < l.countP (rank · ≤ x) ↔ ∃ a, l[i]? = some a ∧ rank a ≤ x := by
  induction l generalizing i with
  | nil => exact iff_of_false (Nat.not_lt_zero i) (by rintro ⟨a, ha, -⟩; cases ha)
  | cons a l ih =>
      obtain ⟨hfirst, hrest⟩ := List.pairwise_cons.mp h
      by_cases ha : rank a ≤ x
      · rw [List.countP_cons, if_pos (decide_eq_true ha)]
        cases i with
        | zero => exact iff_of_true (Nat.succ_pos _) ⟨a, rfl, ha⟩
        | succ i => rw [Nat.add_lt_add_iff_right, ih hrest, List.getElem?_cons_succ]
      · -- nothing after it reaches the rank either
        have hnone : ∀ b ∈ a :: l, ¬ rank b ≤ x := by
          refine List.forall_mem_cons.mpr ⟨ha, fun b hb hle => ha ((hfirst b hb).trans hle)⟩
        have hzero : (a :: l).countP (rank · ≤ x) = 0 :=
          List.countP_eq_zero.mpr fun b hb => by simpa using hnone b hb
        rw [hzero]
        refine iff_of_false (Nat.not_lt_zero i) ?_
        rintro ⟨b, hb, hle⟩
        exact hnone b (List.mem_of_getElem? hb) hle

/-- **The second list is no worse**: as many of its elements reach each rank. -/
def NoWorse (rank : α → κ) (l l' : List α) : Prop :=
  ∀ x, l.countP (rank · ≤ x) ≤ l'.countP (rank · ≤ x)

theorem NoWorse.of_subperm (h : l.Subperm l') : NoWorse rank l l' := fun _ => h.countP_le _

theorem NoWorse.append (h : NoWorse rank l₁ l₁') (h' : NoWorse rank l₂ l₂') :
    NoWorse rank (l₁ ++ l₂) (l₁' ++ l₂') := fun x => by
  rw [List.countP_append, List.countP_append]
  exact Nat.add_le_add (h x) (h' x)

/-- The best that reach a rank are at most `k` of those that do. -/
theorem lt_countP_best {i : Nat} {x : κ} :
    i < (best rank k l).countP (rank · ≤ x) ↔ i < k ∧ i < l.countP (rank · ≤ x) := by
  have hsorted := @ranked_pairwise_le _ _ _ rank l
  rw [lt_countP_iff best_pairwise_le, ← (ranked_perm rank l).countP_eq, lt_countP_iff hsorted, best, List.getElem?_take]
  split_ifs with hi
  · exact (and_iff_right hi).symm
  · exact iff_of_false (by rintro ⟨a, ha, -⟩; cases ha) fun h => hi h.1

/-- **The best of a list that is no worse** are no worse. -/
theorem NoWorse.best (h : NoWorse rank l l') (k : Nat) : NoWorse rank (best rank k l) (best rank k l') := by
  intro x
  refine le_of_forall_lt fun i hi => ?_
  rw [lt_countP_best] at hi ⊢
  exact ⟨hi.1, hi.2.trans_le (h x)⟩

/-- **Place by place**: at each place of what is in order, what is no worse has an element as good. -/
theorem NoWorse.getElem? (h : NoWorse rank l l') (hl : l.Pairwise (rank · ≤ rank ·))
    (hl' : l'.Pairwise (rank · ≤ rank ·)) {i : Nat} {a : α} (ha : l[i]? = some a) :
    ∃ a', l'[i]? = some a' ∧ rank a' ≤ rank a := by
  have hi := (lt_countP_iff hl).mpr ⟨a, ha, le_rfl⟩
  exact (lt_countP_iff hl').mp (hi.trans_le (h (rank a)))

end Comparing

end Fckdb
