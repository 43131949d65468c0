import Fckdb.Lib.Postings

/-! # Going through hash maps

A hash map is what it holds. It is gone through in some order, which may be another one for each map
(`Iterations`). Sorting the entries by their keys forgets the order (`Iterations.sort_iter`), and so does
filing them elsewhere (`fileAll_perm`). -/

namespace Fckdb

universe u v

/-! ## Sorting by a key -/

section Sorting

variable {κ : Type u} [LinearOrder κ] {α : Type v} {key : α → κ} {l l' : List α}

/-- **Sorting a rearrangement** of a list that ascends in a key gives the list back. -/
theorem insertionSort_of_perm (h : l.Perm l') (hl' : l'.Pairwise fun a b => key a < key b) :
    l.insertionSort (fun a b => key a ≤ key b) = l' := by
  have hsorted : (l.insertionSort fun a b => key a ≤ key b).Pairwise fun a b => key a ≤ key b :=
    pairwise_insertionSort_of_mem (fun _ _ _ _ => le_total _ _) fun _ _ _ _ _ _ => le_trans
  have hperm : (l.insertionSort fun a b => key a ≤ key b).Perm l' := (List.perm_insertionSort _ l).trans h
  -- elements of one key are one element
  have hnodup : (l'.map key).Nodup := List.pairwise_map.mpr (hl'.imp ne_of_lt)
  refine List.Perm.eq_of_pairwise (fun a b ha hb hab hba => ?_) hsorted (hl'.imp le_of_lt) hperm
  exact List.inj_on_of_nodup_map hnodup (hperm.mem_iff.mp ha) hb (le_antisymm hab hba)

end Sorting

/-! ## Filing entries -/

section Filing

variable {κ : Type u} [LinearOrder κ] {α : Type v}

/-- **The order does not matter** where a key is filed under once. -/
theorem fileAll_perm (m : SortedMap κ (List α)) {l l' : List (κ × α)} (h : l.Perm l')
    (hnodup : (l'.map (·.1)).Nodup) : fileAll m l = fileAll m l' := by
  refine h.foldl_eq' (fun e he e' he' m => ?_) m
  by_cases heq : e = e'
  · rw [heq]
  have hne : e.1 ≠ e'.1 := fun hkey =>
    heq (List.inj_on_of_nodup_map hnodup (h.mem_iff.mp he) (h.mem_iff.mp he') hkey)
  refine SortedMap.ext_get fun k => ?_
  rw [SortedMap.get_insert_of_ne _ _ hne, SortedMap.get_insert_of_ne _ _ hne.symm]
  simp only [SortedMap.get_insert]
  split_ifs with h₁ h₂
  · exact absurd (h₂.trans h₁.symm) hne
  · rfl
  · rfl
  · rfl

/-- What is filed was listed. -/
theorem mem_of_mem_fileAll {l : List (κ × α)} {e : κ × List α} (he : e ∈ (fileAll .empty l).entries)
    {a : α} (ha : a ∈ e.2) : (e.1, a) ∈ l := by
  have hget := get_fileAll .empty l e.1
  rw [SortedMap.get_eq_some_iff.mpr he, SortedMap.get_empty, Option.getD_some, Option.getD_none,
    List.nil_append] at hget
  rw [hget] at ha
  obtain ⟨p, hp, rfl⟩ := List.mem_map.mp ha
  obtain ⟨hmem, hkey⟩ := List.mem_filter.mp hp
  rwa [← of_decide_eq_true hkey]

end Filing

/-! ## Orders -/

/-- **The orders in which hash maps are gone through**: each map, known by a number and by what it
holds, in an order of its own. -/
structure Iterations where
  iter : {κ ν : Type} → [LinearOrder κ] → Nat → SortedMap κ ν → List (κ × ν)
  perm : ∀ {κ ν : Type} [LinearOrder κ] (i : Nat) (m : SortedMap κ ν), (iter i m).Perm m.entries

namespace Iterations

/-- In the order of the keys. -/
def ascending : Iterations where
  iter _ m := m.entries
  perm _ m := .refl m.entries

/-- Against the order of the keys. -/
def descending : Iterations where
  iter _ m := m.entries.reverse
  perm _ m := m.entries.reverse_perm

variable (o : Iterations) {κ ν : Type} [LinearOrder κ]

/-- **Sorted by their keys**, the entries are in one order. -/
theorem sort_iter (i : Nat) (m : SortedMap κ ν) :
    (o.iter i m).insertionSort (fun a b => a.1 ≤ b.1) = m.entries :=
  insertionSort_of_perm (o.perm i m) m.sorted

end Iterations

end Fckdb
