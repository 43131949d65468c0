import Fckdb.Lib.Search
import Fckdb.Lib.SortedMap
import Mathlib.Algebra.BigOperators.Group.List.Basic
import Mathlib.Order.Compare

/-! # Inverted lists and accumulators

An inverted index files values under keys, and a search adds up what the lists it opens contribute to
each target. `get_fileAll` says what is filed under a key, `get_joinAll` what has been joined there,
`getD_addUp` what a target is owed, and `searchKey_eq` that a binary search over the sorted keys is a
look-up. -/

namespace Fckdb

universe u v w

/-! ## Filing -/

section Filing

variable {κ : Type u} [LinearOrder κ] {α : Type v}

/-- Append each value to the list under its key. -/
def fileAll (m : SortedMap κ (List α)) (l : List (κ × α)) : SortedMap κ (List α) :=
  l.foldl (fun m e => m.insert e.1 ((m.get e.1).getD [] ++ [e.2])) m

theorem fileAll_append (m : SortedMap κ (List α)) (l l' : List (κ × α)) :
    fileAll m (l ++ l') = fileAll (fileAll m l) l' := List.foldl_append

/-- **What is filed under a key**: the values listed with it, in order. -/
theorem get_fileAll (m : SortedMap κ (List α)) (l : List (κ × α)) (k : κ) :
    ((fileAll m l).get k).getD [] = (m.get k).getD [] ++ (l.filter (·.1 = k)).map (·.2) := by
  induction l generalizing m with
  | nil => rw [fileAll, List.foldl_nil, List.filter_nil, List.map_nil, List.append_nil]
  | cons e l ih =>
      rw [fileAll, List.foldl_cons]
      refine (ih _).trans ?_
      rw [SortedMap.get_insert]
      by_cases h : e.1 = k
      · rw [if_pos h, List.filter_cons_of_pos (by simpa using h), h, Option.getD_some, List.map_cons,
          List.append_assoc, List.singleton_append]
      · rw [if_neg h, List.filter_cons_of_neg (by simpa using h)]

end Filing

/-! ## Joining -/

section Joining

variable {κ : Type u} [LinearOrder κ] {ν : Type v} {α : Type w}

/-- Each element joins what is under its key. -/
def joinAll (key : α → κ) (join : Option ν → α → ν) (m : SortedMap κ ν) (l : List α) : SortedMap κ ν :=
  l.foldl (fun m a => m.insert (key a) (join (m.get (key a)) a)) m

/-- **What is under a key**: what the elements of that key have joined, one after the other. -/
theorem get_joinAll (key : α → κ) (join : Option ν → α → ν) (m : SortedMap κ ν) (l : List α) (k : κ) :
    (joinAll key join m l).get k =
      (l.filter (key · = k)).foldl (fun entry a => some (join entry a)) (m.get k) := by
  induction l generalizing m with
  | nil => rfl
  | cons a l ih =>
      refine (ih _).trans ?_
      rw [SortedMap.get_insert]
      by_cases h : key a = k
      · rw [if_pos h, List.filter_cons_of_pos (by simpa using h), h]
        rfl
      · rw [if_neg h, List.filter_cons_of_neg (by simpa using h)]

/-- The keys are those of the elements. -/
theorem isSome_get_joinAll {key : α → κ} {join : Option ν → α → ν} {l : List α} {k : κ} :
    ((joinAll key join .empty l).get k).isSome ↔ ∃ a ∈ l, key a = k := by
  have hsome (l : List α) (v : ν) : (l.foldl (fun entry a => some (join entry a)) (some v)).isSome := by
    induction l generalizing v with
    | nil => rfl
    | cons a l ih => exact ih (join (some v) a)
  have hmem : (∃ a ∈ l, key a = k) ↔ l.filter (key · = k) ≠ [] := by
    simp [List.filter_eq_nil_iff]
  rw [get_joinAll, hmem]
  cases l.filter (key · = k) with
  | nil => exact iff_of_false nofun (fun h => h rfl)
  | cons a l => exact iff_of_true (hsome l _) (List.cons_ne_nil a l)

end Joining

/-! ## Searching by key -/

section Searching

variable {κ : Type u} [LinearOrder κ] {ν : Type v}

/-- The value under a key of a sorted list of pairs, by binary search. -/
def searchKey (k : κ) (l : List (κ × ν)) : Option ν :=
  (binarySearchBy (fun e => compare e.1 k) l).bind fun i => (l[i]?).map (·.2)

/-- **The search is a look-up.** -/
theorem searchKey_eq (k : κ) {l : List (κ × ν)} (h : l.Pairwise fun a b => a.1 < b.1) :
    searchKey k l = SortedMap.lookupIn k l := by
  have hasc : Ascending (fun e : κ × ν => compare e.1 k) l := by
    refine h.imp fun {a b} hab => ⟨fun ha => ?_, fun hb => ?_⟩
    · exact compare_gt_iff_gt.mpr ((compare_gt_iff_gt.mp ha).trans hab)
    · exact compare_lt_iff_lt.mpr (hab.trans (compare_lt_iff_lt.mp hb))
  apply Option.ext
  intro v
  rw [SortedMap.lookupIn_eq_some_iff h, searchKey, Option.bind_eq_some_iff]
  constructor
  · rintro ⟨i, hi, hv⟩
    obtain ⟨e, he, heq⟩ := eq_of_binarySearchBy hi
    rw [he] at hv
    cases hv
    rw [← compare_eq_iff_eq.mp heq]
    exact List.mem_of_getElem? he
  · intro hmem
    have hsome := hasc.binarySearchBy_isSome hmem (compare_eq_iff_eq.mpr rfl)
    obtain ⟨i, hi⟩ := Option.isSome_iff_exists.mp hsome
    obtain ⟨e, he, heq⟩ := eq_of_binarySearchBy hi
    refine ⟨i, hi, ?_⟩
    have hkey : e.1 = k := compare_eq_iff_eq.mp heq
    have hv : SortedMap.lookupIn k l = some e.2 :=
      (SortedMap.lookupIn_eq_some_iff h).mpr (hkey ▸ List.mem_of_getElem? he)
    rw [(SortedMap.lookupIn_eq_some_iff h).mpr hmem] at hv
    rw [he, Option.map_some, Option.some.inj hv]

/-- In an ascending list of keys a binary search finds just the members. -/
theorem isSome_binarySearchBy_compare {k : κ} {l : List κ} (h : l.Pairwise (· < ·)) :
    (binarySearchBy (compare · k) l).isSome = true ↔ k ∈ l := by
  have hasc : Ascending (compare · k) l := by
    refine h.imp fun {a b} hab => ⟨fun ha => ?_, fun hb => ?_⟩
    · exact compare_gt_iff_gt.mpr ((compare_gt_iff_gt.mp ha).trans hab)
    · exact compare_lt_iff_lt.mpr (hab.trans (compare_lt_iff_lt.mp hb))
  constructor
  · intro hsome
    obtain ⟨i, hi⟩ := Option.isSome_iff_exists.mp hsome
    obtain ⟨e, he, heq⟩ := eq_of_binarySearchBy hi
    rw [← compare_eq_iff_eq.mp heq]
    exact List.mem_of_getElem? he
  · exact fun hmem => hasc.binarySearchBy_isSome hmem (compare_eq_iff_eq.mpr rfl)

end Searching

/-! ## Accumulating -/

section Accumulating

variable {κ : Type u} [LinearOrder κ]

/-- Add each contribution to the total of its target. -/
def addUp {S : Type v} (add : S → S → S) (zero : S) (acc : SortedMap κ S) (l : List (κ × S)) :
    SortedMap κ S :=
  l.foldl (fun acc p => acc.insert p.1 (add ((acc.get p.1).getD zero) p.2)) acc

variable {M : Type v} [AddCommMonoid M]

/-- What a list contributes to a target. -/
def share (l : List (κ × M)) (k : κ) : M := ((l.filter (·.1 = k)).map (·.2)).sum

@[simp] theorem share_nil (k : κ) : share ([] : List (κ × M)) k = 0 := rfl

theorem share_cons (p : κ × M) (l : List (κ × M)) (k : κ) :
    share (p :: l) k = (if p.1 = k then p.2 else 0) + share l k := by
  rw [share, share]
  split_ifs with h
  · rw [List.filter_cons_of_pos (by simpa using h), List.map_cons, List.sum_cons]
  · rw [List.filter_cons_of_neg (by simpa using h), zero_add]

theorem share_append (l l' : List (κ × M)) (k : κ) : share (l ++ l') k = share l k + share l' k := by
  rw [share, List.filter_append, List.map_append, List.sum_append]
  rfl

theorem share_flatMap {ι : Type w} (is : List ι) (f : ι → List (κ × M)) (k : κ) :
    share (is.flatMap f) k = (is.map fun i => share (f i) k).sum := by
  induction is with
  | nil => rfl
  | cons i is ih => rw [List.flatMap_cons, share_append, ih, List.map_cons, List.sum_cons]

theorem share_perm {l l' : List (κ × M)} (h : l.Perm l') (k : κ) : share l k = share l' k :=
  ((h.filter _).map _).sum_eq

/-- A list without the target contributes nothing to it. -/
theorem share_eq_zero {l : List (κ × M)} {k : κ} (h : ∀ p ∈ l, p.1 ≠ k) : share l k = 0 := by
  rw [share, List.filter_eq_nil_iff.mpr fun p hp => by simpa using h p hp]
  rfl

/-- **The accumulator** holds what each target is owed. -/
theorem getD_addUp (acc : SortedMap κ M) (l : List (κ × M)) (k : κ) :
    ((addUp (· + ·) 0 acc l).get k).getD 0 = (acc.get k).getD 0 + share l k := by
  induction l generalizing acc with
  | nil => rw [addUp, List.foldl_nil, share_nil, add_zero]
  | cons p l ih =>
      rw [addUp, List.foldl_cons]
      refine (ih _).trans ?_
      rw [SortedMap.get_insert, share_cons]
      by_cases h : p.1 = k
      · rw [if_pos h, if_pos h, h, Option.getD_some, add_assoc]
      · rw [if_neg h, if_neg h, zero_add]

/-- Only targets of contributions are in the accumulator. -/
theorem mem_of_get_addUp {S : Type v} {add : S → S → S} {zero : S} {l : List (κ × S)} {k : κ}
    {x : S} (h : (addUp add zero .empty l).get k = some x) : ∃ p ∈ l, p.1 = k := by
  have hbound : ∀ (l : List (κ × S)) (acc : SortedMap κ S),
      (addUp add zero acc l).get k = some x → (∃ y, acc.get k = some y) ∨ ∃ p ∈ l, p.1 = k := by
    intro l
    induction l with
    | nil => exact fun acc h => .inl ⟨x, h⟩
    | cons p l ih =>
        intro acc h
        rcases ih _ h with ⟨y, hy⟩ | ⟨q, hq, hk⟩
        · rw [SortedMap.get_insert] at hy
          by_cases hp : p.1 = k
          · exact .inr ⟨p, List.mem_cons_self, hp⟩
          · rw [if_neg hp] at hy
            exact .inl ⟨y, hy⟩
        · exact .inr ⟨q, List.mem_cons_of_mem _ hq, hk⟩
  exact (hbound l .empty h).resolve_left fun ⟨y, hy⟩ => nomatch hy

end Accumulating

end Fckdb
