import Fckdb.Fts
import Fckdb.Lib.EditDistance

/-! # The edit budget

Row `i` of the table that `levenshteinWithin` fills holds the distances of the first `i` characters to every
prefix of the second word (`tableRow`). The least of a row is at most the answer, as the edits of the whole word
are cut after its first `i` characters, so that giving up on a row is giving up on the word. -/

namespace Fckdb

section Table

variable {α : Type} [DecidableEq α]

/-- The distances of a word to the second one's prefixes that are longer than `done`. -/
def cellsFrom (as : List α) : List α → List α → List Nat
  | _, [] => []
  | done, b :: bs => editDistance as (done ++ [b]) :: cellsFrom as (done ++ [b]) bs

/-- The distances of a word to every prefix of the second one. -/
def tableRow (as bs : List α) : List Nat := editDistance as [] :: cellsFrom as [] bs

theorem getLast?_cellsFrom (as done bs : List α) :
    (editDistance as done :: cellsFrom as done bs).getLast? = some (editDistance as (done ++ bs)) := by
  induction bs generalizing done with
  | nil => rw [cellsFrom, List.append_nil, List.getLast?_singleton]
  | cons b bs ih => rw [cellsFrom, List.getLast?_cons_cons, ih, List.append_assoc, List.singleton_append]

/-- The last cell is the distance to the whole word. -/
theorem getLast?_tableRow (as bs : List α) : (tableRow as bs).getLast? = some (editDistance as bs) :=
  getLast?_cellsFrom as [] bs

theorem mem_cellsFrom (as done bs₁ bs₂ : List α) :
    editDistance as (done ++ bs₁) ∈ editDistance as done :: cellsFrom as done (bs₁ ++ bs₂) := by
  induction bs₁ generalizing done with
  | nil =>
      rw [List.append_nil]
      exact List.mem_cons_self
  | cons b bs₁ ih =>
      have h := ih (done ++ [b])
      rw [List.append_assoc, List.singleton_append] at h
      exact List.mem_cons_of_mem _ h

/-- Every prefix has its cell. -/
theorem mem_tableRow (as bs₁ bs₂ : List α) : editDistance as bs₁ ∈ tableRow as (bs₁ ++ bs₂) :=
  mem_cellsFrom as [] bs₁ bs₂

/-- The least of a row is at most the distance that the last row ends with. -/
theorem min?_tableRow_le (as as' bs : List α) :
    (tableRow as bs).min?.getD 0 ≤ editDistance (as ++ as') bs := by
  obtain ⟨bs₁, bs₂, rfl, hle⟩ := exists_prefix_editDistance_le as as' bs
  obtain ⟨least, hleast⟩ : ∃ least, (tableRow as (bs₁ ++ bs₂)).min? = some least := ⟨_, List.min?_cons'⟩
  rw [hleast, Option.getD_some]
  exact ((List.min?_eq_some_iff.mp hleast).2 _ (mem_tableRow as bs₁ bs₂)).trans hle

/-- The first row counts. -/
theorem tableRow_nil (bs : List α) : tableRow [] bs = List.range (bs.length + 1) := by
  have hcells : ∀ done : List α,
      cellsFrom [] done bs = (List.range bs.length).map (done.length + 1 + ·) := by
    induction bs with
    | nil => exact fun _ => rfl
    | cons b bs ih =>
        intro done
        rw [cellsFrom, ih, editDistance_nil_left, List.length_append, List.length_singleton,
          List.length_cons, List.range_succ_eq_map, List.map_cons, List.map_map, Nat.add_zero]
        refine congrArg _ (List.map_congr_left fun i _ => ?_)
        exact (Nat.add_assoc ..).trans (congrArg _ (Nat.add_comm 1 i))
  rw [tableRow, hcells, editDistance_nil_left, List.range_succ_eq_map]
  exact congrArg _ (List.map_congr_left fun i _ => Nat.add_comm 1 i)

/-- The words of lengths too far apart are. -/
theorem length_gap_le_editDistance (as bs : List α) :
    as.length - bs.length + (bs.length - as.length) ≤ editDistance as bs := by
  have := (edits_editDistance as bs).length_le
  omega

end Table

/-- **One row of the table** from the row above. -/
theorem levenshteinRow_eq (as : List Char) (a : Char) (done bs : List Char) :
    levenshteinRow a bs (editDistance (as ++ [a]) done) (editDistance as done) (cellsFrom as done bs)
      = cellsFrom (as ++ [a]) done bs := by
  induction bs generalizing done with
  | nil => rfl
  | cons b bs ih =>
      rw [cellsFrom, cellsFrom, levenshteinRow, ← editDistance_concat, ih]

/-- The rows that are left decide on the whole word. -/
theorem levenshteinRows_eq (bs : List Char) (max : Nat) (as rest : List Char) :
    levenshteinRows bs max (as.length + 1) rest (tableRow as bs)
      = decide (editDistance (as ++ rest) bs ≤ max) := by
  induction rest generalizing as with
  | nil => rw [levenshteinRows, getLast?_tableRow, Option.getD_some, List.append_nil]
  | cons a rest ih =>
      have hrow : (as.length + 1) :: levenshteinRow a bs (as.length + 1) ((tableRow as bs).headD 0)
          (tableRow as bs).tail = tableRow (as ++ [a]) bs := by
        have hfirst : editDistance (as ++ [a]) [] = as.length + 1 := by
          rw [editDistance_nil_right, List.length_append, List.length_singleton]
        rw [← hfirst]
        exact congrArg _ (levenshteinRow_eq as a [] bs)
      have hlength : (as ++ [a]).length = as.length + 1 := List.length_append
      have hword : as ++ a :: rest = (as ++ [a]) ++ rest := by
        rw [List.append_assoc, List.singleton_append]
      rw [levenshteinRows, hrow, hword]
      split
      · rename_i hover
        exact (decide_eq_false (hover.trans_le (min?_tableRow_le ..)).not_ge).symm
      · rw [← hlength]
        exact ih (as ++ [a])

/-- **Bounded edit distance**: neither the shortcut on the lengths nor giving up on a row changes the answer. -/
theorem levenshteinWithin_iff (a b : String) (max : Nat) :
    levenshteinWithin a b max = true ↔ editDistance a.toList b.toList ≤ max := by
  rw [levenshteinWithin]
  split
  · rename_i hgap
    exact iff_of_false Bool.false_ne_true (hgap.trans_le (length_gap_le_editDistance ..)).not_ge
  · rw [← tableRow_nil]
    exact (iff_of_eq (congrArg (· = true) (levenshteinRows_eq b.toList max [] a.toList))).trans
      decide_eq_true_iff

example : levenshteinWithin "kitten" "sitting" 3 = true ∧ levenshteinWithin "kitten" "sitting" 2 = false := by
  decide

end Fckdb
