import Fckdb.AttrIndexSpec

/-! # Selections that bound a filter

A selection *bounds* a set of documents when it holds every one of them, and only them if it is
flagged exact. No answer bounds everything, and the connectives of `evaluate` keep bounds: the
complement, the union and the intersection of selections bound the complement, union and
intersection of the sets (`Bounds.complement`, `Bounds.union`, `Bounds.intersect`). -/

namespace Fckdb

/-! ## Bounds and the connectives -/

/-- A selection over `n` documents bounds the set `m`: it contains `m`, and is `m` if exact. -/
def Bounds (n : Nat) (m : Nat → Prop) (sel : Option Selection) : Prop :=
  ∀ s, sel = some s → (∀ i, i < n → m i → i ∈ s.ordinals) ∧
    (s.exact = true → ∀ i ∈ s.ordinals, i < n ∧ m i)

namespace Bounds

variable {n : Nat}

/-- No answer bounds everything. -/
theorem none {m : Nat → Prop} : Bounds n m none := fun _ h => by cases h

theorem congr {m m' : Nat → Prop} {sel : Option Selection} (h : ∀ i, i < n → (m i ↔ m' i))
    (hb : Bounds n m sel) : Bounds n m' sel := fun s hs => by
  obtain ⟨hsup, hex⟩ := hb s hs
  refine ⟨fun i hi hm => hsup i hi ((h i hi).mpr hm), fun he i hi => ?_⟩
  obtain ⟨hlt, hm⟩ := hex he i hi
  exact ⟨hlt, (h i hlt).mp hm⟩

theorem complement {m : Nat → Prop} {sel : Option Selection} (h : Bounds n m sel) :
    Bounds n (fun i => ¬ m i) (complementSelection n sel) := by
  intro s hs
  cases sel with
  | none => cases hs
  | some sel =>
      obtain ⟨hsup, hex⟩ := h sel rfl
      simp only [complementSelection, Option.bind_eq_bind, Option.bind_some] at hs
      split_ifs at hs with he
      obtain rfl := Option.some.inj hs
      simp only [Finset.mem_filter, Finset.mem_range]
      exact ⟨fun i hi hm => ⟨hi, fun hmem => hm (hex he i hmem).2⟩,
        fun _ i hi => ⟨hi.1, fun hm => hi.2 (hsup i hi.1 hm)⟩⟩

theorem union {ms : List (Nat → Prop)} {sels : List (Option Selection)}
    (h : List.Forall₂ (Bounds n) ms sels) :
    Bounds n (fun i => ∃ m ∈ ms, m i) (unionSelections sels) := by
  induction h with
  | nil =>
      intro s hs
      obtain rfl := Option.some.inj hs
      exact ⟨fun i _ ⟨m, hm, _⟩ => absurd hm List.not_mem_nil,
        fun _ i hi => absurd hi (Finset.notMem_empty i)⟩
  | @cons m sel ms sels hb _ ih =>
      intro s hs
      cases sel with
      | none => cases hs
      | some sel =>
          cases hrest : unionSelections sels with
          | none => simp [unionSelections, hrest] at hs
          | some rest =>
              simp only [unionSelections, hrest, Option.bind_eq_bind, Option.bind_some] at hs
              obtain rfl := Option.some.inj hs
              obtain ⟨hsup, hex⟩ := hb sel rfl
              obtain ⟨hsup', hex'⟩ := ih rest hrest
              refine ⟨fun i hi ⟨m', hm', hmi⟩ => ?_, fun he i hi => ?_⟩
              · rcases List.mem_cons.mp hm' with rfl | hm'
                · exact Finset.mem_union_left _ (hsup i hi hmi)
                · exact Finset.mem_union_right _ (hsup' i hi ⟨m', hm', hmi⟩)
              · obtain ⟨he₁, he₂⟩ := Bool.and_eq_true_iff.mp he
                rcases Finset.mem_union.mp hi with hi | hi
                · obtain ⟨hlt, hm⟩ := hex he₁ i hi
                  exact ⟨hlt, m, List.mem_cons_self, hm⟩
                · obtain ⟨hlt, m', hm', hmi⟩ := hex' he₂ i hi
                  exact ⟨hlt, m', List.mem_cons_of_mem _ hm', hmi⟩

/-- The running intersection of `And`, before its exactness is settled. -/
def intersectStep (acc sel : Option Selection) : Option Selection :=
  match sel with
  | .none => acc
  | some sel =>
    some (match acc with
      | .none => sel
      | some prev => ⟨prev.ordinals ∩ sel.ordinals, prev.exact && sel.exact⟩)

/-- What the running intersection is after some operands: the common ordinals of those answered. -/
theorem mem_intersect_foldl {sels : List (Option Selection)} {acc : Option Selection}
    {s : Selection} (h : sels.foldl intersectStep acc = some s) (i : Nat) :
    i ∈ s.ordinals ↔ (∀ a, acc = some a → i ∈ a.ordinals) ∧
      ∀ sel, some sel ∈ sels → i ∈ sel.ordinals := by
  induction sels generalizing acc with
  | nil =>
      obtain rfl : acc = some s := h
      simp
  | cons x xs ih =>
      rw [List.foldl_cons] at h
      rw [ih h]
      cases x with
      | none => simp [intersectStep]
      | some x => cases acc <;> simp [intersectStep, and_assoc]

/-- `And` answers only if it started with an answer or some operand has one. -/
theorem exists_of_intersect_foldl {sels : List (Option Selection)} {s : Selection}
    (h : sels.foldl intersectStep .none = some s) : ∃ sel, some sel ∈ sels := by
  by_contra hno
  have hall : ∀ x ∈ sels, x = .none := fun x hx => by
    cases x with
    | none => rfl
    | some x => exact absurd ⟨x, hx⟩ hno
  have hfold : sels.foldl intersectStep .none = .none := by
    clear h hno
    induction sels with
    | nil => rfl
    | cons x xs ih =>
        rw [List.foldl_cons, hall x List.mem_cons_self]
        exact ih fun y hy => hall y (List.mem_cons_of_mem _ hy)
  rw [hfold] at h
  cases h

theorem intersect {ms : List (Nat → Prop)} {sels : List (Option Selection)}
    (h : List.Forall₂ (Bounds n) ms sels) :
    Bounds n (fun i => ∀ m ∈ ms, m i) (intersectSelections sels) := by
  intro s hs
  obtain ⟨s', hs', rfl⟩ := Option.map_eq_some_iff.mp hs
  have hmem := mem_intersect_foldl hs'
  refine ⟨fun i hi hm => (hmem i).mpr ⟨by simp, fun sel hsel => ?_⟩, fun he i hi => ?_⟩
  · obtain ⟨k, hk, hget⟩ := List.getElem_of_mem hsel
    have hkm : k < ms.length := h.length_eq ▸ hk
    have hb := List.forall₂_iff_get.mp h |>.2 k hkm hk
    exact (hb sel hget).1 i hi (hm _ (List.getElem_mem hkm))
  · obtain ⟨-, hall⟩ := Bool.and_eq_true_iff.mp he
    have hin := ((hmem i).mp hi).2
    have hbound : ∀ sel, some sel ∈ sels → sel.exact = true := fun sel hsel => by
      simpa using List.all_eq_true.mp hall _ hsel
    obtain ⟨sel₀, hsel₀⟩ := exists_of_intersect_foldl hs'
    have hlt : i < n := by
      obtain ⟨k, hk, hget⟩ := List.getElem_of_mem hsel₀
      have hkm : k < ms.length := h.length_eq ▸ hk
      exact ((List.forall₂_iff_get.mp h |>.2 k hkm hk sel₀ hget).2 (hbound _ hsel₀) i
        (hin _ hsel₀)).1
    refine ⟨hlt, fun m hm => ?_⟩
    obtain ⟨k, hk, rfl⟩ := List.getElem_of_mem hm
    have hks : k < sels.length := h.length_eq ▸ hk
    cases hsel : sels[k] with
    | none =>
        have := List.all_eq_true.mp hall _ (List.getElem_mem hks)
        rw [hsel] at this
        cases this
    | some sel =>
        have hsm : some sel ∈ sels := hsel ▸ List.getElem_mem hks
        exact ((List.forall₂_iff_get.mp h |>.2 k hk hks sel hsel).2 (hbound _ hsm) i
          (hin _ hsm)).2

end Bounds

end Fckdb
