import Fckdb.AttrIndex
import Fckdb.ValueOrder

/-! # What an attribute index holds

The entries of a built index group the indexed parts by what they print as; each entry is keyed by
the first such part (`firstAlike`). Picking entries by a predicate therefore picks the documents with
a part whose representative satisfies it (`mem_pickAll_build`), and looking up a comparable value
finds the documents whose representative it is (`mem_lookup_build`). -/

namespace Fckdb

/-- The first indexed part that prints like `p`. -/
def firstAlike (ps : List (Nat × Value)) (p : Value) : Value :=
  ((ps.find? fun q => debugKey q.2 = debugKey p).map (·.2)).getD p

theorem debugKey_firstAlike (ps : List (Nat × Value)) (p : Value) :
    debugKey (firstAlike ps p) = debugKey p := by
  unfold firstAlike
  cases h : ps.find? fun q => debugKey q.2 = debugKey p with
  | none => rfl
  | some q => simpa using List.find?_some h

theorem firstAlike_congr {ps : List (Nat × Value)} {o : Nat} {p p' : Value} (hp : (o, p) ∈ ps)
    (h : debugKey p = debugKey p') : firstAlike ps p = firstAlike ps p' := by
  unfold firstAlike
  rw [← h]
  cases hf : ps.find? fun q => debugKey q.2 = debugKey p with
  | none =>
      have hno : debugKey p ≠ debugKey p := by simpa using List.find?_eq_none.mp hf _ hp
      exact absurd rfl hno
  | some q => rfl

theorem firstAlike_mem {ps : List (Nat × Value)} {o : Nat} {p : Value} (hp : (o, p) ∈ ps) :
    ∃ o', (o', firstAlike ps p) ∈ ps := by
  unfold firstAlike
  cases hf : ps.find? fun q => debugKey q.2 = debugKey p with
  | none => exact ⟨o, hp⟩
  | some q => exact ⟨q.1, List.mem_of_find?_eq_some hf⟩

/-- The entries group the parts by what they print as, each under its first one. -/
structure Grouped (ps : List (Nat × Value)) (entries : List (Value × List Nat)) : Prop where
  key : ∀ e ∈ entries, ∃ o, ps.find? (fun q => debugKey q.2 = debugKey e.1) = some (o, e.1)
  ords : ∀ e ∈ entries, ∀ o, o ∈ e.2 ↔ ∃ p, (o, p) ∈ ps ∧ debugKey p = debugKey e.1
  covers : ∀ q ∈ ps, ∃ e ∈ entries, debugKey e.1 = debugKey q.2

namespace Grouped

theorem nil : Grouped [] [] := ⟨by simp, by simp, by simp⟩

/-- Adding one part keeps the entries grouped. -/
theorem addPart {ps : List (Nat × Value)} {map : List (Value × List Nat)} (h : Grouped ps map)
    (q : Nat × Value) : Grouped (ps ++ [q]) (Fckdb.addPart map q) := by
  obtain ⟨o, v⟩ := q
  have hold : ∀ e ∈ map, ∃ o', (ps ++ [(o, v)]).find? (fun q => debugKey q.2 = debugKey e.1) =
      some (o', e.1) := fun e he => by
    obtain ⟨o', ho'⟩ := h.key e he
    exact ⟨o', by rw [List.find?_append, ho', Option.some_or]⟩
  have hiff : ∀ (w : Value) (o' : Nat), (∃ p, (o', p) ∈ ps ++ [(o, v)] ∧ debugKey p = debugKey w) ↔
      (∃ p, (o', p) ∈ ps ∧ debugKey p = debugKey w) ∨ (o' = o ∧ debugKey v = debugKey w) := by
    intro w o'
    simp only [List.mem_append, List.mem_singleton, Prod.mk.injEq]
    constructor
    · rintro ⟨p, hp | ⟨rfl, rfl⟩, hk⟩
      · exact Or.inl ⟨p, hp, hk⟩
      · exact Or.inr ⟨rfl, hk⟩
    · rintro (⟨p, hp, hk⟩ | ⟨rfl, hk⟩)
      · exact ⟨p, Or.inl hp, hk⟩
      · exact ⟨v, Or.inr ⟨rfl, rfl⟩, hk⟩
  by_cases hany : map.any (fun e => debugKey e.1 = debugKey v)
  · rw [Fckdb.addPart, if_pos hany]
    obtain ⟨e₀, he₀, hk₀⟩ := List.any_eq_true.mp hany
    have hk₀ : debugKey e₀.1 = debugKey v := of_decide_eq_true hk₀
    refine ⟨fun e he => ?_, fun e he o' => ?_, fun q hq => ?_⟩
    · obtain ⟨e', he', rfl⟩ := List.mem_map.mp he
      have := hold e' he'
      split_ifs <;> exact this
    · obtain ⟨e', he', rfl⟩ := List.mem_map.mp he
      split_ifs with hk
      · rw [List.mem_append, List.mem_singleton, h.ords e' he', hiff]
        simp [hk]
      · rw [h.ords e' he', hiff]
        simp [Ne.symm hk]
    · have hq : ∃ e ∈ map, debugKey e.1 = debugKey q.2 := by
        rcases List.mem_append.mp hq with hq | hq
        · exact h.covers q hq
        · obtain rfl := List.mem_singleton.mp hq
          exact ⟨e₀, he₀, hk₀⟩
      obtain ⟨e, he, hk⟩ := hq
      refine ⟨_, List.mem_map_of_mem he, ?_⟩
      split_ifs <;> exact hk
  · rw [Fckdb.addPart, if_neg hany]
    have hnew : ∀ e ∈ map, debugKey e.1 ≠ debugKey v := fun e he hk =>
      hany (List.any_eq_true.mpr ⟨e, he, decide_eq_true hk⟩)
    have hnone : ∀ q ∈ ps, debugKey q.2 ≠ debugKey v := fun q hq hk => by
      obtain ⟨e, he, hk'⟩ := h.covers q hq
      exact hnew e he (hk'.trans hk)
    refine ⟨fun e he => ?_, fun e he o' => ?_, fun q hq => ?_⟩
    · rcases List.mem_append.mp he with he | he
      · exact hold e he
      · obtain rfl := List.mem_singleton.mp he
        refine ⟨o, ?_⟩
        rw [List.find?_append, List.find?_eq_none.mpr (fun q hq => by simpa using hnone q hq)]
        simp
    · rcases List.mem_append.mp he with he | he
      · rw [h.ords e he, hiff]
        simp [Ne.symm (hnew e he)]
      · obtain rfl := List.mem_singleton.mp he
        rw [hiff, List.mem_singleton]
        constructor
        · rintro rfl
          exact Or.inr ⟨rfl, rfl⟩
        · rintro (⟨p, hp, hk⟩ | ⟨rfl, -⟩)
          · exact absurd hk (hnone _ hp)
          · rfl
    · rcases List.mem_append.mp hq with hq | hq
      · obtain ⟨e, he, hk⟩ := h.covers q hq
        exact ⟨e, List.mem_append_left _ he, hk⟩
      · obtain rfl := List.mem_singleton.mp hq
        exact ⟨_, List.mem_append_right _ (List.mem_singleton_self _), rfl⟩

/-- Folding in all parts groups them. -/
theorem foldl (ps : List (Nat × Value)) : Grouped ps (ps.foldl Fckdb.addPart []) := by
  suffices ∀ done map, Grouped done map → ∀ todo,
      Grouped (done ++ todo) (todo.foldl Fckdb.addPart map) from this [] [] nil ps
  intro done map h todo
  induction todo generalizing done map with
  | nil => simpa using h
  | cons q todo ih => simpa using ih (done ++ [q]) _ (h.addPart q)

end Grouped

namespace AttrIndex

/-- The entries of a built index are those of the fold, reordered and with sorted ordinals. -/
theorem mem_entries_build {values : List (Nat × Value)} {e : Value × List Nat} :
    e ∈ (build values).entries ↔ ∃ e' ∈ (indexPairs values).foldl addPart [],
      e = (e'.1, dedupAdjacent (e'.2.insertionSort (· ≤ ·))) := by
  rw [build, List.mem_map]
  constructor
  · rintro ⟨e', he', rfl⟩
    exact ⟨e', (List.perm_insertionSort _ _).mem_iff.mp he', rfl⟩
  · rintro ⟨e', he', rfl⟩
    exact ⟨e', (List.perm_insertionSort _ _).mem_iff.mpr he', rfl⟩

theorem build_grouped (values : List (Nat × Value)) :
    Grouped (indexPairs values) (build values).entries := by
  have h := Grouped.foldl (indexPairs values)
  refine ⟨fun e he => ?_, fun e he o => ?_, fun q hq => ?_⟩
  · obtain ⟨e', he', rfl⟩ := mem_entries_build.mp he
    exact h.key e' he'
  · obtain ⟨e', he', rfl⟩ := mem_entries_build.mp he
    rw [mem_dedupAdjacent, (List.perm_insertionSort _ _).mem_iff]
    exact h.ords e' he' o
  · obtain ⟨e, he, hk⟩ := h.covers q hq
    exact ⟨_, mem_entries_build.mpr ⟨e, he, rfl⟩, hk⟩

/-- An entry is keyed by an indexed part that is the first of those printing alike. -/
theorem entry_key {values : List (Nat × Value)} {e : Value × List Nat}
    (he : e ∈ (build values).entries) :
    ∃ o, (o, e.1) ∈ indexPairs values ∧ firstAlike (indexPairs values) e.1 = e.1 := by
  obtain ⟨o, ho⟩ := (build_grouped values).key e he
  exact ⟨o, List.mem_of_find?_eq_some ho, by rw [firstAlike, ho]; rfl⟩

/-- An entry's ordinals are those of the parts it represents. -/
theorem mem_entry_ords {values : List (Nat × Value)} {e : Value × List Nat}
    (he : e ∈ (build values).entries) {o : Nat} :
    o ∈ e.2 ↔ ∃ p, (o, p) ∈ indexPairs values ∧ firstAlike (indexPairs values) p = e.1 := by
  obtain ⟨o', hmem, hfirst⟩ := entry_key he
  rw [(build_grouped values).ords e he]
  constructor
  · rintro ⟨p, hp, hk⟩
    exact ⟨p, hp, (firstAlike_congr hp hk).trans hfirst⟩
  · rintro ⟨p, hp, hk⟩
    exact ⟨p, hp, by rw [← hk, debugKey_firstAlike]⟩

/-- Every part is represented by an entry. -/
theorem exists_entry {values : List (Nat × Value)} {o : Nat} {p : Value}
    (hp : (o, p) ∈ indexPairs values) :
    ∃ e ∈ (build values).entries, e.1 = firstAlike (indexPairs values) p ∧ o ∈ e.2 := by
  obtain ⟨e, he, hk⟩ := (build_grouped values).covers _ hp
  obtain ⟨o', hmem, hfirst⟩ := entry_key he
  have hrep : e.1 = firstAlike (indexPairs values) p := by rw [← hfirst, firstAlike_congr hmem hk]
  exact ⟨e, he, hrep, (mem_entry_ords he).mpr ⟨p, hp, hrep.symm⟩⟩

/-- An index is empty exactly when there is no part to index. -/
theorem isEmpty_build {values : List (Nat × Value)} :
    (build values).isEmpty = true ↔ indexPairs values = [] := by
  rw [isEmpty, List.isEmpty_iff]
  constructor
  · intro h
    by_contra hne
    obtain ⟨q, hq⟩ := List.exists_mem_of_ne_nil _ hne
    obtain ⟨e, he, -⟩ := exists_entry (o := q.1) (p := q.2) hq
    rw [h] at he
    cases he
  · intro h
    by_contra hne
    obtain ⟨e, he⟩ := List.exists_mem_of_ne_nil _ hne
    obtain ⟨o, hmem, -⟩ := entry_key he
    rw [h] at hmem
    cases hmem

/-- **Picking** entries picks the documents with a part whose representative is picked. -/
theorem mem_pickAll_build {values : List (Nat × Value)} {pick : Value → Bool} {o : Nat} :
    o ∈ (build values).pickAll pick ↔
      ∃ p, (o, p) ∈ indexPairs values ∧ pick (firstAlike (indexPairs values) p) = true := by
  rw [pickAll, List.mem_toFinset, List.mem_flatMap]
  constructor
  · rintro ⟨e, he, ho⟩
    obtain ⟨he, hpick⟩ := List.mem_filter.mp he
    obtain ⟨p, hp, hrep⟩ := (mem_entry_ords he).mp ho
    exact ⟨p, hp, by rw [hrep]; exact hpick⟩
  · rintro ⟨p, hp, hpick⟩
    obtain ⟨e, he, hrep, ho⟩ := exists_entry hp
    exact ⟨e, List.mem_filter.mpr ⟨he, by rw [hrep]; exact hpick⟩, ho⟩

/-! ## Searching -/

/-- The parts are of one type, so the entries' keys are. -/
theorem typeOf_entry {values : List (Nat × Value)} {ty : Ty}
    (h : ∀ q ∈ indexPairs values, q.2.typeOf = some ty) {e : Value × List Nat}
    (he : e ∈ (build values).entries) : e.1.typeOf = some ty := by
  obtain ⟨o, hmem, -⟩ := entry_key he
  exact h _ hmem

/-- The entries are sorted, when the parts are of one ordered type. -/
theorem entries_sorted {values : List (Nat × Value)} {ty : Ty} (hty : ty ≠ .sparseF16)
    (h : ∀ q ∈ indexPairs values, q.2.typeOf = some ty) :
    (build values).entries.Pairwise fun a b => a.1.notAfter b.1 := by
  obtain ⟨κ, _, k, hk⟩ := Value.exists_compareKey hty
  have htype : ∀ e ∈ (indexPairs values).foldl addPart [], e.1.typeOf = some ty := fun e he => by
    obtain ⟨o, ho⟩ := (Grouped.foldl (indexPairs values)).key e he
    exact h _ (List.mem_of_find?_eq_some ho)
  have hle : ∀ a b : Value, a.typeOf = some ty → b.typeOf = some ty →
      (a.notAfter b ↔ k a ≤ k b) := fun a b ha hb => by
    rw [Value.notAfter, (hk a b ha hb).1, Option.getD_some, Ne, cmp_eq_gt_iff, not_lt]
  rw [build]
  refine List.pairwise_map.mpr (pairwise_insertionSort_of_mem ?_ ?_)
  · intro x hx y hy
    rw [hle _ _ (htype x hx) (htype y hy), hle _ _ (htype y hy) (htype x hx)]
    exact le_total _ _
  · intro x hx y hy z hz
    rw [hle _ _ (htype x hx) (htype y hy), hle _ _ (htype y hy) (htype z hz),
      hle _ _ (htype x hx) (htype z hz)]
    exact le_trans

/-- Entries of one ordered type ascend for a probe with a value of that type. -/
theorem entries_ascending {values : List (Nat × Value)} {ty : Ty} (hty : ty ≠ .sparseF16)
    (h : ∀ q ∈ indexPairs values, q.2.typeOf = some ty) {w : Value} (hw : w.typeOf = some ty) :
    Ascending (fun e => (e.1.compare w).getD .eq) (build values).entries := by
  obtain ⟨κ, _, k, hk⟩ := Value.exists_compareKey hty
  refine (entries_sorted hty h).imp_of_mem fun {a b} ha hb hab => ?_
  have ta := typeOf_entry h ha
  have tb := typeOf_entry h hb
  rw [Value.notAfter, (hk _ _ ta tb).1, Option.getD_some, Ne, cmp_eq_gt_iff, not_lt] at hab
  dsimp only
  rw [(hk _ _ ta hw).1, (hk _ _ tb hw).1, Option.getD_some, Option.getD_some, cmp_eq_lt_iff, cmp_eq_lt_iff,
    cmp_eq_gt_iff, cmp_eq_gt_iff]
  exact ⟨fun h => h.trans_le hab, fun h => hab.trans_lt h⟩

/-- **Looking up** a value of the parts' own type finds the documents it represents. -/
theorem mem_lookup_build {values : List (Nat × Value)} {ty : Ty} (hty : ty ≠ .sparseF16)
    (h : ∀ q ∈ indexPairs values, q.2.typeOf = some ty) {w : Value} (hw : w.typeOf = some ty)
    {o : Nat} : o ∈ (build values).lookup w ↔
      ∃ p, (o, p) ∈ indexPairs values ∧ firstAlike (indexPairs values) p = w := by
  have heq : ∀ e ∈ (build values).entries, ((e.1.compare w).getD .eq = .eq ↔ e.1 = w) := by
    intro e he
    rw [← Value.compare_eq_some_eq hty (typeOf_entry h he) hw]
    obtain ⟨κ, _, k, hk⟩ := Value.exists_compareKey hty
    rw [(hk _ _ (typeOf_entry h he) hw).1, Option.getD_some, Option.some.injEq]
  unfold lookup
  constructor
  · intro ho
    split at ho
    · next i hi =>
      obtain ⟨e, hget, hp⟩ := eq_of_binarySearchBy hi
      rw [hget, Option.map_some, Option.getD_some, List.mem_toFinset] at ho
      have hmem := List.mem_of_getElem? hget
      obtain ⟨p, hp', hrep⟩ := (mem_entry_ords hmem).mp ho
      exact ⟨p, hp', hrep.trans ((heq e hmem).mp hp)⟩
    · cases ho
  · rintro ⟨p, hp, hrep⟩
    obtain ⟨e, he, hkey, ho⟩ := exists_entry hp
    have hw' : e.1 = w := hkey.trans hrep
    have hsome := (entries_ascending hty h hw).binarySearchBy_isSome he ((heq e he).mpr hw')
    obtain ⟨i, hi⟩ := Option.isSome_iff_exists.mp hsome
    rw [hi]
    obtain ⟨e', hget, hp'⟩ := eq_of_binarySearchBy hi
    have hmem := List.mem_of_getElem? hget
    simp only [hget, Option.map_some, Option.getD_some, List.mem_toFinset]
    exact (mem_entry_ords hmem).mpr ⟨p, hp, by rw [hrep, (heq e' hmem).mp hp']⟩

/-- **A value comparable with no key** hits an arbitrary entry of a non-empty index. -/
theorem lookup_incomparable {values : List (Nat × Value)} {w : Value}
    (hne : indexPairs values ≠ [])
    (h : ∀ q ∈ indexPairs values, q.2.compare w = none) : ∃ o, o ∈ (build values).lookup w := by
  have heq : ∀ e ∈ (build values).entries, (e.1.compare w).getD .eq = .eq := fun e he => by
    obtain ⟨o, hmem, -⟩ := entry_key he
    rw [h _ hmem]
    rfl
  obtain ⟨q, hq⟩ := List.exists_mem_of_ne_nil _ hne
  obtain ⟨e, he, -, -⟩ := exists_entry (o := q.1) (p := q.2) hq
  have hasc : Ascending (fun e => (e.1.compare w).getD .eq) (build values).entries :=
    List.pairwise_of_forall_mem_list fun a ha b hb => by simp [heq a ha, heq b hb]
  obtain ⟨i, hi⟩ := Option.isSome_iff_exists.mp (hasc.binarySearchBy_isSome he (heq e he))
  obtain ⟨e', hget, -⟩ := eq_of_binarySearchBy hi
  have hmem := List.mem_of_getElem? hget
  obtain ⟨o, ho, hfirst⟩ := entry_key hmem
  refine ⟨o, ?_⟩
  rw [lookup, hi]
  simp only [hget, Option.map_some, Option.getD_some, List.mem_toFinset]
  exact (mem_entry_ords hmem).mpr ⟨_, ho, hfirst⟩

/-- Null is above no key, so it is never found. -/
theorem lookup_null {values : List (Nat × Value)}
    (h : ∀ q ∈ indexPairs values, q.2.isNull = false) : (build values).lookup .null = ∅ := by
  unfold lookup
  split
  · next i hi =>
    obtain ⟨e, hget, hp⟩ := eq_of_binarySearchBy hi
    obtain ⟨o, hmem, -⟩ := entry_key (List.mem_of_getElem? hget)
    have hn := h _ hmem
    have hgt : e.1.compare .null = some .gt := by
      revert hn
      cases e.1 <;> simp [Value.isNull, Value.compare]
    rw [hgt] at hp
    cases hp
  · rfl

end AttrIndex

end Fckdb
