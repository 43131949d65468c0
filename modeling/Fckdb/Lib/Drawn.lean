import Mathlib.Data.List.Forall2
import Mathlib.Data.List.Nodup
import Mathlib.Data.List.Perm.Subperm

/-! # Rows drawn from a list

Each row is of an element of the list, and no element is drawn twice. What selects, sorts, cuts and merges rows
keeps that, so an answer put together from parts is drawn from what the parts were drawn from. -/

namespace Fckdb

universe u v w

variable {α : Type u} {β : Type v} {γ : Type w} {of : α → β → Prop} {l l' : List α} {rows rows' : List β}

/-- **The rows are drawn from the list**: each is of another of its elements. -/
def Drawn (of : α → β → Prop) (l : List α) (rows : List β) : Prop :=
  ∃ picked : List α, picked.Subperm l ∧ List.Forall₂ of picked rows

/-- Rows have the keys of what they are of. -/
theorem map_key_eq {κ : Type*} {key : α → κ} {key' : β → κ} (hof : ∀ a b, of a b → key' b = key a)
    (h : List.Forall₂ of l rows) : rows.map key' = l.map key := by
  induction h with
  | nil => rfl
  | cons hab _ ih => rw [List.map_cons, List.map_cons, hof _ _ hab, ih]

namespace Drawn

theorem nil (of : α → β → Prop) (l : List α) : Drawn of l [] := ⟨[], List.nil_subperm, .nil⟩

/-- A longer list has the rows of a shorter one. -/
theorem mono (h : Drawn of l rows) (hl : l.Subperm l') : Drawn of l' rows := by
  obtain ⟨picked, hpicked, hrows⟩ := h
  exact ⟨picked, hpicked.trans hl, hrows⟩

theorem imp {of' : α → β → Prop} (h : Drawn of l rows) (hof : ∀ a b, of a b → of' a b) : Drawn of' l rows := by
  obtain ⟨picked, hpicked, hrows⟩ := h
  exact ⟨picked, hpicked, hrows.imp hof⟩

/-- **Some of the rows**, in any order. -/
theorem subperm (h : Drawn of l rows) (hrows : rows'.Subperm rows) : Drawn of l rows' := by
  obtain ⟨picked, hpicked, hall⟩ := h
  obtain ⟨some, hperm, hsub⟩ := hrows
  obtain ⟨chosen, hchosen, hchosenSub⟩ : ∃ chosen, List.Forall₂ of chosen some ∧ chosen.Sublist picked := by
    clear hperm hpicked
    induction hsub generalizing picked with
    | slnil =>
        cases hall
        exact ⟨[], .nil, .slnil⟩
    | cons b _ ih =>
        cases hall with | cons hab hrest =>
        obtain ⟨chosen, hchosen, hsub⟩ := ih _ hrest
        exact ⟨chosen, hchosen, hsub.cons _⟩
    | cons_cons b _ ih =>
        cases hall with | cons hab hrest =>
        obtain ⟨chosen, hchosen, hsub⟩ := ih _ hrest
        exact ⟨_ :: chosen, .cons hab hchosen, hsub.cons_cons _⟩
  obtain ⟨reordered, hreordered, hperm'⟩ := List.perm_comp_forall₂ hperm.symm hchosen.flip
  exact ⟨reordered, hperm'.subperm.trans (hchosenSub.subperm.trans hpicked), hreordered.flip⟩

/-- The rows of two lists. -/
theorem append (h : Drawn of l rows) (h' : Drawn of l' rows') : Drawn of (l ++ l') (rows ++ rows') := by
  obtain ⟨picked, hpicked, hrows⟩ := h
  obtain ⟨picked', hpicked', hrows'⟩ := h'
  exact ⟨picked ++ picked', hpicked.append hpicked', List.rel_append hrows hrows'⟩

/-- **The rows of many lists** together. -/
theorem flatMap {ι κ : Type*} {is : List ι} {ks : List κ} {lists : ι → List α} {rows : κ → List β}
    (h : List.Forall₂ (fun i k => Drawn of (lists i) (rows k)) is ks) :
    Drawn of (is.flatMap lists) (ks.flatMap rows) := by
  induction h with
  | nil => exact nil of []
  | cons hik _ ih =>
      rw [List.flatMap_cons, List.flatMap_cons]
      exact hik.append ih

/-- A row of each element. -/
theorem map (f : α → β) (hof : ∀ a ∈ l, of a (f a)) : Drawn of l (l.map f) :=
  ⟨l, List.Subperm.refl l, List.forall₂_map_right_iff.mpr (List.forall₂_same.mpr hof)⟩

/-- The rows rendered. -/
theorem render {of' : α → γ → Prop} (h : Drawn of l rows) (f : β → γ) (hof : ∀ a b, of a b → of' a (f b)) :
    Drawn of' l (rows.map f) := by
  obtain ⟨picked, hpicked, hrows⟩ := h
  exact ⟨picked, hpicked, List.forall₂_map_right_iff.mpr (hrows.imp hof)⟩

/-- Every row is of an element. -/
theorem exists_of (h : Drawn of l rows) {b : β} (hb : b ∈ rows) : ∃ a ∈ l, of a b := by
  obtain ⟨picked, hpicked, hrows⟩ := h
  obtain ⟨n, hn, rfl⟩ := List.mem_iff_getElem.mp hb
  have hlt : n < picked.length := hrows.length_eq ▸ hn
  exact ⟨picked[n], hpicked.subset (List.getElem_mem hlt), hrows.get hlt hn⟩

/-- **Rows with different keys**, each of an element with its key. -/
theorem of_nodup {κ : Type*} (key : α → κ) {key' : β → κ} (hkeys : (rows.map key').Nodup)
    (h : ∀ b ∈ rows, ∃ a ∈ l, of a b ∧ key' b = key a) : Drawn of l rows := by
  obtain ⟨picked, hpicked⟩ : ∃ picked : List α, List.Forall₂ (fun a b => a ∈ l ∧ of a b ∧ key' b = key a) picked
      rows := by
    clear hkeys
    induction rows with
    | nil => exact ⟨[], .nil⟩
    | cons b rows ih =>
        obtain ⟨a, ha⟩ := h b List.mem_cons_self
        obtain ⟨picked, hpicked⟩ := ih fun b' hb' => h b' (List.mem_cons_of_mem _ hb')
        exact ⟨a :: picked, .cons ha hpicked⟩
  rw [map_key_eq (fun _ _ hab => hab.2.2) hpicked] at hkeys
  refine ⟨picked, List.subperm_of_subset (List.Nodup.of_map key hkeys) fun a ha => ?_, hpicked.imp fun _ _ hab => hab.2.1⟩
  obtain ⟨n, hn, rfl⟩ := List.mem_iff_getElem.mp ha
  exact (hpicked.get hn (hpicked.length_eq ▸ hn)).1

end Drawn

end Fckdb
