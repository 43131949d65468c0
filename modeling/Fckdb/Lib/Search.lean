import Mathlib.Data.List.Sort

/-! # Searching a sorted list

`binarySearchBy` probes a list with a three-way comparison and narrows a window, as slice binary
searches do: where several elements compare equal it may return any of them. On a list that is
ascending for the probe it finds an equal element exactly when there is one (`binarySearchBy_isSome`).
The list comes from a stable sort by a comparison that need only be an order *on the elements of the
list* (`pairwise_insertionSort_of_mem`). -/

namespace Fckdb

universe u

variable {α : Type u}

/-! ## Sorting by a comparison that is an order on the elements -/

/-- Inserting into a list that is in order for `r` keeps it in order. -/
theorem pairwise_orderedInsert_of_mem {r : α → α → Prop} [DecidableRel r] {a : α} {l : List α}
    (total : ∀ x ∈ l, r a x ∨ r x a) (trans : ∀ x ∈ l, ∀ y ∈ l, r a x → r x y → r a y)
    (h : l.Pairwise r) : (l.orderedInsert r a).Pairwise r := by
  induction l with
  | nil => simp
  | cons b bs ih =>
      rw [List.pairwise_cons] at h
      rw [List.orderedInsert_cons]
      split_ifs with hab
      · refine List.pairwise_cons.mpr ⟨fun x hx => ?_, List.pairwise_cons.mpr h⟩
        rcases List.mem_cons.mp hx with rfl | hx
        · exact hab
        · exact trans b List.mem_cons_self x (List.mem_cons_of_mem _ hx) hab (h.1 x hx)
      · refine List.pairwise_cons.mpr ⟨fun x hx => ?_, ?_⟩
        · rcases (List.mem_orderedInsert r).mp hx with rfl | hx
          · exact (total b List.mem_cons_self).resolve_left hab
          · exact h.1 x hx
        · exact ih (fun x hx => total x (List.mem_cons_of_mem _ hx))
            (fun x hx y hy => trans x (List.mem_cons_of_mem _ hx) y (List.mem_cons_of_mem _ hy)) h.2

/-- **Sorting is sorted** for a relation that is total and transitive on the list. -/
theorem pairwise_insertionSort_of_mem {r : α → α → Prop} [DecidableRel r] {l : List α}
    (total : ∀ x ∈ l, ∀ y ∈ l, r x y ∨ r y x)
    (trans : ∀ x ∈ l, ∀ y ∈ l, ∀ z ∈ l, r x y → r y z → r x z) :
    (l.insertionSort r).Pairwise r := by
  induction l with
  | nil => simp
  | cons a as ih =>
      have hmem : ∀ x ∈ as.insertionSort r, x ∈ a :: as := fun x hx =>
        List.mem_cons_of_mem _ ((List.perm_insertionSort r as).mem_iff.mp hx)
      have hs := ih (fun x hx y hy => total x (List.mem_cons_of_mem _ hx) y (List.mem_cons_of_mem _ hy))
        (fun x hx y hy z hz => trans x (List.mem_cons_of_mem _ hx) y (List.mem_cons_of_mem _ hy) z
          (List.mem_cons_of_mem _ hz))
      exact pairwise_orderedInsert_of_mem (fun x hx => total a List.mem_cons_self x (hmem x hx))
        (fun x hx y hy => trans a List.mem_cons_self x (hmem x hx) y (hmem y hy)) hs

/-! ## Binary search -/

/-- The probe at an index; past the end it is `gt`. -/
def probeAt (p : α → Ordering) (l : List α) (i : Nat) : Ordering :=
  match l[i]? with
  | some a => p a
  | none => .gt

/-- Narrow the window `[base, base + size)` down to one element. -/
def searchLoop (p : α → Ordering) (l : List α) : Nat → Nat → Nat → Nat
  | 0, _, base => base
  | fuel + 1, size, base =>
    if size ≤ 1 then base
    else searchLoop p l fuel (size - size / 2)
      (if probeAt p l (base + size / 2) = .gt then base else base + size / 2)

/-- `slice::binary_search_by`, the index of an element that compares equal. -/
def binarySearchBy (p : α → Ordering) (l : List α) : Option Nat :=
  if l.isEmpty then none
  else
    let base := searchLoop p l l.length l.length 0
    if probeAt p l base = .eq then some base else none

/-- The list is ascending for the probe: first the smaller, then the equal, then the larger. -/
def Ascending (p : α → Ordering) (l : List α) : Prop :=
  l.Pairwise fun a b => (p a = .gt → p b = .gt) ∧ (p b = .lt → p a = .lt)

/-- What the probe says of an element is what it says of its index. -/
theorem probeAt_eq_iff {p : α → Ordering} {l : List α} {i : Nat} :
    probeAt p l i = .eq ↔ ∃ a, l[i]? = some a ∧ p a = .eq := by
  unfold probeAt
  cases l[i]? <;> simp

/-- An equal element is at an index where the probe is equal. -/
theorem exists_probeAt {p : α → Ordering} {l : List α} {a : α} (ha : a ∈ l) (h : p a = .eq) :
    ∃ i, probeAt p l i = .eq := by
  obtain ⟨i, hi⟩ := List.getElem?_of_mem ha
  exact ⟨i, probeAt_eq_iff.mpr ⟨a, hi, h⟩⟩

namespace Ascending

variable {p : α → Ordering} {l : List α}

theorem lt_of_lt (h : Ascending p l) {i j : Nat} (hij : i ≤ j) (hj : probeAt p l j = .lt) :
    probeAt p l i = .lt := by
  rcases hij.lt_or_eq with hij | rfl
  · unfold probeAt at hj ⊢
    have hjl : j < l.length := by
      by_contra hle
      rw [List.getElem?_eq_none (not_lt.mp hle)] at hj
      cases hj
    rw [List.getElem?_eq_getElem hjl] at hj
    rw [List.getElem?_eq_getElem (hij.trans hjl)]
    exact (List.pairwise_iff_getElem.mp h i j _ _ hij).2 hj
  · exact hj

theorem gt_of_gt (h : Ascending p l) {i j : Nat} (hij : i ≤ j) (hi : probeAt p l i = .gt) :
    probeAt p l j = .gt := by
  rcases hij.lt_or_eq with hij | rfl
  · unfold probeAt at hi ⊢
    by_cases hjl : j < l.length
    · rw [List.getElem?_eq_getElem hjl]
      rw [List.getElem?_eq_getElem (hij.trans hjl)] at hi
      exact (List.pairwise_iff_getElem.mp h i j _ _ hij).1 hi
    · rw [List.getElem?_eq_none (not_lt.mp hjl)]
  · exact hi

/-- The window keeps the last element that is not larger. -/
theorem searchLoop_spec (h : Ascending p l) {fuel size base : Nat} (hf : size ≤ fuel)
    (hs : 1 ≤ size) (hlo : base = 0 ∨ probeAt p l base ≠ .gt)
    (hhi : ∀ i, base + size ≤ i → probeAt p l i = .gt) :
    (searchLoop p l fuel size base = 0 ∨ probeAt p l (searchLoop p l fuel size base) ≠ .gt) ∧
      ∀ i, searchLoop p l fuel size base < i → probeAt p l i = .gt := by
  induction fuel generalizing size base with
  | zero => omega
  | succ fuel ih =>
      rw [searchLoop]
      split_ifs with h1 hgt
      · exact ⟨hlo, fun i hi => hhi i (by omega)⟩
      · exact ih (by omega) (by omega) hlo fun i hi => h.gt_of_gt (by omega) hgt
      · exact ih (by omega) (by omega) (Or.inr hgt) fun i hi => hhi i (by omega)

/-- **A hit when there is one**: on an ascending list the search ends on an equal element if the
list has any. -/
theorem binarySearchBy_isSome (h : Ascending p l) {a : α} (ha : a ∈ l) (hp : p a = .eq) :
    (binarySearchBy p l).isSome := by
  have hne : l.isEmpty = false := by cases l <;> simp_all
  have hlen : 1 ≤ l.length := List.length_pos_of_mem ha
  obtain ⟨hlo, hhi⟩ := h.searchLoop_spec (le_refl l.length) hlen (Or.inl rfl) (fun i hi => by
    rw [probeAt, List.getElem?_eq_none (by omega)])
  obtain ⟨e, he⟩ := exists_probeAt ha hp
  have hle : e ≤ searchLoop p l l.length l.length 0 := by
    by_contra hlt
    rw [hhi e (not_le.mp hlt)] at he
    cases he
  have hbase : probeAt p l (searchLoop p l l.length l.length 0) = .eq := by
    rcases hlo with h0 | hgt
    · have : e = 0 := by omega
      rw [h0, ← this, he]
    · cases hb : probeAt p l (searchLoop p l l.length l.length 0) with
      | lt => rw [h.lt_of_lt hle hb] at he; cases he
      | eq => rfl
      | gt => exact absurd hb hgt
  simp [binarySearchBy, hne, hbase]

end Ascending

/-- What the search returns compares equal. -/
theorem eq_of_binarySearchBy {p : α → Ordering} {l : List α} {i : Nat}
    (h : binarySearchBy p l = some i) : ∃ a, l[i]? = some a ∧ p a = .eq := by
  rw [binarySearchBy] at h
  split_ifs at h
  dsimp only at h
  split_ifs at h with hp
  obtain rfl := Option.some.inj h
  exact probeAt_eq_iff.mp hp

end Fckdb
