import Mathlib.Data.List.Basic

/-! # Files

A file of fixed length with positioned reads and writes: what a write leaves alone, and what it is
read back as. -/

namespace Fckdb

universe u

variable {α : Type u}

/-- Read `len` items at `off`; `none` when the file ends before. -/
def readAt (file : List α) (off len : Nat) : Option (List α) :=
  if ((file.drop off).take len).length = len then some ((file.drop off).take len) else none

/-- Write `data` at `start`. -/
def writeAt (file data : List α) (start : Nat) : List α :=
  file.take start ++ data ++ file.drop (start + data.length)

theorem length_writeAt {file data : List α} {start : Nat} (h : start + data.length ≤ file.length) :
    (writeAt file data start).length = file.length := by
  rw [writeAt, List.length_append, List.length_append, List.length_take, List.length_drop,
    Nat.min_eq_left (Nat.le_trans (Nat.le_add_right _ _) h)]
  exact Nat.add_sub_cancel' h

/-- The items after a write: those written, and the old ones elsewhere. -/
theorem getElem?_writeAt {file data : List α} {start : Nat} (h : start + data.length ≤ file.length)
    (i : Nat) : (writeAt file data start)[i]? =
      if start ≤ i ∧ i < start + data.length then data[i - start]? else file[i]? := by
  have hstart : (file.take start).length = start := by
    rw [List.length_take]
    exact Nat.min_eq_left (Nat.le_trans (Nat.le_add_right _ _) h)
  have hfront : (file.take start ++ data).length = start + data.length := by
    rw [List.length_append, hstart]
  rw [writeAt]
  by_cases hi : i < start + data.length
  · rw [List.getElem?_append_left (hfront ▸ hi)]
    by_cases hs : start ≤ i
    · rw [if_pos ⟨hs, hi⟩, List.getElem?_append_right (hstart.symm ▸ hs), hstart]
    · rw [if_neg (fun hc => hs hc.1), List.getElem?_append_left (hstart.symm ▸ Nat.lt_of_not_le hs),
        List.getElem?_take_of_lt (Nat.lt_of_not_le hs)]
  · rw [if_neg (fun hc => hi hc.2), List.getElem?_append_right (hfront ▸ Nat.le_of_not_lt hi), hfront,
      List.getElem?_drop, Nat.add_sub_cancel' (Nat.le_of_not_lt hi)]

/-- A read inside the file succeeds. -/
theorem readAt_of_le {file : List α} {off len : Nat} (h : off + len ≤ file.length) :
    readAt file off len = some ((file.drop off).take len) := by
  rw [readAt, if_pos]
  rw [List.length_take, List.length_drop]
  omega

theorem length_of_readAt {file data : List α} {off len : Nat} (h : readAt file off len = some data) :
    data.length = len := by
  rw [readAt] at h
  split_ifs at h with hlen
  · exact Option.some.inj h ▸ hlen

/-- What was written is read back. -/
theorem readAt_writeAt_self {file data : List α} {start : Nat}
    (h : start + data.length ≤ file.length) :
    readAt (writeAt file data start) start data.length = some data := by
  rw [readAt_of_le (by rwa [length_writeAt h])]
  congr 1
  refine List.ext_getElem? fun i => ?_
  by_cases hi : i < data.length
  · rw [List.getElem?_take_of_lt hi, List.getElem?_drop, getElem?_writeAt h,
      if_pos ⟨Nat.le_add_right _ _, Nat.add_lt_add_left hi _⟩, Nat.add_sub_cancel_left]
  · rw [List.getElem?_eq_none (Nat.le_of_not_lt hi), List.getElem?_eq_none]
    exact Nat.le_trans (List.length_take_le _ _) (Nat.le_of_not_lt hi)

/-- A write elsewhere is not seen by a read. -/
theorem readAt_writeAt_of_disjoint {file data : List α} {start off len : Nat}
    (h : start + data.length ≤ file.length)
    (hdisjoint : ∀ i, off ≤ i → i < off + len → ¬ (start ≤ i ∧ i < start + data.length)) :
    readAt (writeAt file data start) off len = readAt file off len := by
  have hsame : ((writeAt file data start).drop off).take len = (file.drop off).take len := by
    refine List.ext_getElem? fun i => ?_
    by_cases hi : i < len
    · rw [List.getElem?_take_of_lt hi, List.getElem?_take_of_lt hi, List.getElem?_drop,
        List.getElem?_drop, getElem?_writeAt h,
        if_neg (hdisjoint (off + i) (Nat.le_add_right _ _) (Nat.add_lt_add_left hi _))]
    · rw [List.getElem?_eq_none, List.getElem?_eq_none]
      · exact Nat.le_trans (List.length_take_le _ _) (Nat.le_of_not_lt hi)
      · exact Nat.le_trans (List.length_take_le _ _) (Nat.le_of_not_lt hi)
  rw [readAt, readAt, hsame]

end Fckdb
