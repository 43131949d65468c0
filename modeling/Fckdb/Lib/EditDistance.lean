import Mathlib.Algebra.Order.Group.Nat
import Mathlib.Data.List.Basic
import Mathlib.Order.MinMax

/-! # Edit distance

The least number of insertions, deletions and substitutions that make one list of another
(`editDistance_le_iff`). Edits can be read from either end (`Edits.reverse`) and cut where the first list
is cut (`Edits.split`), so that a table of the distances of the prefixes can be filled row by row
(`editDistance_concat`). -/

namespace Fckdb

universe u

variable {α : Type u}

/-- Edits that make the second list of the first, and how many. -/
inductive Edits : List α → List α → Nat → Prop
  | nil : Edits [] [] 0
  | keep {as bs : List α} {n : Nat} (a : α) (h : Edits as bs n) : Edits (a :: as) (a :: bs) n
  | substitute {as bs : List α} {n : Nat} (a b : α) (h : Edits as bs n) :
      Edits (a :: as) (b :: bs) (n + 1)
  | delete {as bs : List α} {n : Nat} (a : α) (h : Edits as bs n) : Edits (a :: as) bs (n + 1)
  | insert {as bs : List α} {n : Nat} (b : α) (h : Edits as bs n) : Edits as (b :: bs) (n + 1)

namespace Edits

variable {as as' bs bs' : List α} {n m : Nat}

theorem append (h : Edits as bs n) (h' : Edits as' bs' m) : Edits (as ++ as') (bs ++ bs') (n + m) := by
  induction h with
  | nil => rwa [Nat.zero_add]
  | keep a _ ih => exact .keep a ih
  | substitute a b _ ih =>
      rw [Nat.add_right_comm]
      exact .substitute a b ih
  | delete a _ ih =>
      rw [Nat.add_right_comm]
      exact .delete a ih
  | insert b _ ih =>
      rw [Nat.add_right_comm]
      exact .insert b ih

/-- Edits from the other end. -/
theorem reverse (h : Edits as bs n) : Edits as.reverse bs.reverse n := by
  induction h with
  | nil => exact .nil
  | keep a _ ih =>
      rw [List.reverse_cons, List.reverse_cons]
      exact ih.append (.keep a .nil)
  | substitute a b _ ih =>
      rw [List.reverse_cons, List.reverse_cons]
      exact ih.append (.substitute a b .nil)
  | @delete as bs n a _ ih =>
      rw [List.reverse_cons, ← List.append_nil bs.reverse]
      exact ih.append (.delete a .nil)
  | @insert as bs n b _ ih =>
      rw [List.reverse_cons, ← List.append_nil as.reverse]
      exact ih.append (.insert b .nil)

/-- **Edits are cut** where the first list is. -/
theorem split (h : Edits (as ++ as') bs n) :
    ∃ bs₁ bs₂ n₁ n₂, bs = bs₁ ++ bs₂ ∧ n = n₁ + n₂ ∧ Edits as bs₁ n₁ ∧ Edits as' bs₂ n₂ := by
  have hfront {bs : List α} {n : Nat} (h : Edits as' bs n) :
      ∃ bs₁ bs₂ n₁ n₂, bs = bs₁ ++ bs₂ ∧ n = n₁ + n₂ ∧ Edits [] bs₁ n₁ ∧ Edits as' bs₂ n₂ :=
    ⟨[], bs, 0, n, rfl, (Nat.zero_add n).symm, .nil, h⟩
  generalize hl : as ++ as' = l at h
  induction h generalizing as with
  | nil =>
      obtain ⟨rfl, rfl⟩ := List.append_eq_nil_iff.mp hl
      exact hfront .nil
  | keep c h ih =>
      rcases List.append_eq_cons_iff.mp hl with ⟨rfl, rfl⟩ | ⟨as, rfl, rfl⟩
      · exact hfront (.keep c h)
      · obtain ⟨bs₁, bs₂, n₁, n₂, rfl, rfl, h₁, h₂⟩ := ih rfl
        exact ⟨c :: bs₁, bs₂, n₁, n₂, rfl, rfl, .keep c h₁, h₂⟩
  | substitute c b h ih =>
      rcases List.append_eq_cons_iff.mp hl with ⟨rfl, rfl⟩ | ⟨as, rfl, rfl⟩
      · exact hfront (.substitute c b h)
      · obtain ⟨bs₁, bs₂, n₁, n₂, rfl, rfl, h₁, h₂⟩ := ih rfl
        exact ⟨b :: bs₁, bs₂, n₁ + 1, n₂, rfl, Nat.add_right_comm .., .substitute c b h₁, h₂⟩
  | delete c h ih =>
      rcases List.append_eq_cons_iff.mp hl with ⟨rfl, rfl⟩ | ⟨as, rfl, rfl⟩
      · exact hfront (.delete c h)
      · obtain ⟨bs₁, bs₂, n₁, n₂, rfl, rfl, h₁, h₂⟩ := ih rfl
        exact ⟨bs₁, bs₂, n₁ + 1, n₂, rfl, Nat.add_right_comm .., .delete c h₁, h₂⟩
  | insert b h ih =>
      obtain ⟨bs₁, bs₂, n₁, n₂, rfl, rfl, h₁, h₂⟩ := ih hl
      exact ⟨b :: bs₁, bs₂, n₁ + 1, n₂, rfl, Nat.add_right_comm .., .insert b h₁, h₂⟩

/-- An edit changes the length by one at most. -/
theorem length_le (h : Edits as bs n) : as.length ≤ bs.length + n ∧ bs.length ≤ as.length + n := by
  induction h with
  | nil => exact ⟨Nat.le_refl 0, Nat.le_refl 0⟩
  | keep a _ ih =>
      rw [List.length_cons, List.length_cons]
      omega
  | substitute a b _ ih =>
      rw [List.length_cons, List.length_cons]
      omega
  | delete a _ ih =>
      rw [List.length_cons]
      omega
  | insert b _ ih =>
      rw [List.length_cons]
      omega

/-- Everything is inserted. -/
theorem of_nil (bs : List α) : Edits [] bs bs.length := by
  induction bs with
  | nil => exact .nil
  | cons b bs ih => exact .insert b ih

/-- Everything is deleted. -/
theorem to_nil (as : List α) : Edits as [] as.length := by
  induction as with
  | nil => exact .nil
  | cons a as ih => exact .delete a ih

end Edits

/-! ## The least number of edits -/

variable [DecidableEq α]

/-- The Levenshtein distance. -/
def editDistance : List α → List α → Nat
  | [], bs => bs.length
  | as, [] => as.length
  | a :: as, b :: bs =>
    min (min (editDistance as (b :: bs) + 1) (editDistance (a :: as) bs + 1))
      (editDistance as bs + if a ≠ b then 1 else 0)
termination_by as bs => as.length + bs.length

@[simp] theorem editDistance_nil_left (bs : List α) : editDistance [] bs = bs.length := by
  rw [editDistance]

@[simp] theorem editDistance_nil_right (as : List α) : editDistance as [] = as.length := by
  cases as <;> rw [editDistance]
  exact nofun

theorem editDistance_cons (a b : α) (as bs : List α) : editDistance (a :: as) (b :: bs) =
    min (min (editDistance as (b :: bs) + 1) (editDistance (a :: as) bs + 1))
      (editDistance as bs + if a ≠ b then 1 else 0) := by
  rw [editDistance]

theorem edits_editDistance (as bs : List α) : Edits as bs (editDistance as bs) := by
  fun_induction editDistance as bs with
  | case1 bs => exact .of_nil bs
  | case2 as _ => exact .to_nil as
  | case3 a as b bs hdelete hinsert hrest =>
      have hkeep : Edits (a :: as) (b :: bs) (editDistance as bs + if a ≠ b then 1 else 0) := by
        by_cases hab : a = b
        · subst hab
          rw [if_neg (not_not_intro rfl)]
          exact .keep a hrest
        · rw [if_pos hab]
          exact .substitute a b hrest
      -- the least of the three is one of them
      rcases min_choice (min (editDistance as (b :: bs) + 1) (editDistance (a :: as) bs + 1))
        (editDistance as bs + if a ≠ b then 1 else 0) with h | h
      · rw [h]
        rcases min_choice (editDistance as (b :: bs) + 1) (editDistance (a :: as) bs + 1) with h | h
        · rw [h]
          exact .delete a hdelete
        · rw [h]
          exact .insert b hinsert
      · rw [h]
        exact hkeep

theorem editDistance_delete_le (a : α) (as bs : List α) :
    editDistance (a :: as) bs ≤ editDistance as bs + 1 := by
  cases bs with
  | nil => exact (editDistance_nil_right (a :: as)).le.trans_eq (by rw [editDistance_nil_right, List.length_cons])
  | cons b bs =>
      rw [editDistance_cons]
      exact (min_le_left _ _).trans (min_le_left _ _)

theorem editDistance_insert_le (b : α) (as bs : List α) :
    editDistance as (b :: bs) ≤ editDistance as bs + 1 := by
  cases as with
  | nil => exact (editDistance_nil_left (b :: bs)).le.trans_eq (by rw [editDistance_nil_left, List.length_cons])
  | cons a as =>
      rw [editDistance_cons]
      exact (min_le_left _ _).trans (min_le_right _ _)

/-- No edits do with less. -/
theorem Edits.editDistance_le {as bs : List α} {n : Nat} (h : Edits as bs n) : editDistance as bs ≤ n := by
  induction h with
  | nil => exact (editDistance_nil_left []).le
  | @keep as bs n a _ ih =>
      rw [editDistance_cons, if_neg (not_not_intro rfl)]
      exact (min_le_right _ _).trans ih
  | @substitute as bs n a b _ ih =>
      rw [editDistance_cons]
      refine (min_le_right _ _).trans (Nat.add_le_add ih ?_)
      split <;> decide
  | delete a _ ih => exact (editDistance_delete_le ..).trans (Nat.succ_le_succ ih)
  | insert b _ ih => exact (editDistance_insert_le ..).trans (Nat.succ_le_succ ih)

/-- **The distance is the least number of edits.** -/
theorem editDistance_le_iff {as bs : List α} {n : Nat} :
    editDistance as bs ≤ n ↔ ∃ m ≤ n, Edits as bs m :=
  ⟨fun h => ⟨_, h, edits_editDistance as bs⟩, fun ⟨_, hm, h⟩ => h.editDistance_le.trans hm⟩

/-! ## From the other end -/

theorem editDistance_reverse (as bs : List α) :
    editDistance as.reverse bs.reverse = editDistance as bs := by
  refine le_antisymm (edits_editDistance as bs).reverse.editDistance_le ?_
  have h := (edits_editDistance as.reverse bs.reverse).reverse.editDistance_le
  rwa [List.reverse_reverse, List.reverse_reverse] at h

/-- **The recurrence** of the table of prefixes. -/
theorem editDistance_concat (a b : α) (as bs : List α) : editDistance (as ++ [a]) (bs ++ [b]) =
    min (min (editDistance as (bs ++ [b]) + 1) (editDistance (as ++ [a]) bs + 1))
      (editDistance as bs + if a ≠ b then 1 else 0) := by
  rw [← editDistance_reverse (as ++ [a]), ← editDistance_reverse as (bs ++ [b]),
    ← editDistance_reverse (as ++ [a]) bs, ← editDistance_reverse as bs, List.reverse_concat,
    List.reverse_concat, editDistance_cons]

/-- The first part of a list is nearer to some prefix than the list is to the other. -/
theorem exists_prefix_editDistance_le (as as' bs : List α) :
    ∃ bs₁ bs₂, bs = bs₁ ++ bs₂ ∧ editDistance as bs₁ ≤ editDistance (as ++ as') bs := by
  obtain ⟨bs₁, bs₂, n₁, n₂, rfl, hn, h₁, -⟩ := (edits_editDistance (as ++ as') bs).split
  exact ⟨bs₁, bs₂, rfl, h₁.editDistance_le.trans (hn ▸ Nat.le_add_right n₁ n₂)⟩

end Fckdb
