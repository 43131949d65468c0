import Fckdb.IndexParts

/-! # Membership in a list of literals

`In` is the disjunction of `Eq` over the elements of its list wherever the coerced elements can be
packed into an array of their own type. The other types lose them: their elements become a list of
renderings, which equals no stored value, and a list of signed integers is not coerced element by
element at all (`in_isSomeEq_iff`). -/

namespace Fckdb

section Lists

variable [Crates]

/-! ## Lists of operands -/

omit [Crates] in
theorem collect_of_forall₂ {α : Type} {rs : List (Except Error α)} {as : List α}
    (h : List.Forall₂ (fun r a => r = .ok a) rs as) : collect rs = .ok as := by
  induction h with
  | nil => rfl
  | cons hr _ ih => rw [hr, collect, ih]

omit [Crates] in
/-- What the elements are coerced to is what some element is coerced to. -/
theorem mem_iff_of_forall₂ {α β : Type} {f : α → Except Error β} {as : List α} {bs : List β}
    (h : List.Forall₂ (fun a b => f a = .ok b) as bs) (b : β) :
    b ∈ bs ↔ ∃ a ∈ as, f a = .ok b := by
  induction h with
  | nil => simp
  | cons ha _ ih =>
      rw [List.mem_cons, ih]
      simp only [List.mem_cons, exists_eq_or_imp, ha, Except.ok.injEq]
      exact or_congr_left eq_comm

namespace Value

omit [Crates] in
/-- The elements of a list literal are strings and integers. -/
theorem typeOf_element {v e : Value} (hv : v.isArray = true) (he : e ∈ v.elements) :
    e.isArray = false ∧ e.isNull = false ∧ e.typeOf ≠ some .sparseF16 := by
  cases v <;> cases hv <;> simp only [elements, List.mem_map] at he <;>
    obtain ⟨x, -, rfl⟩ := he <;> exact ⟨rfl, rfl, by simp [typeOf]⟩

/-- Lists of strings and of unsigned integers are coerced element by element. -/
theorem coerceOperand_list {v : Value} (hv : v.isArray = true) (hint : v.typeOf ≠ some .intArray)
    (ty : Ty) : coerceOperand v ty =
      (collect (v.elements.map (·.coerce ty))).map (pack · ty) := by
  cases v <;> cases hv
  case stringArray a => rw [coerceOperand, elements, List.map_map]; rfl
  case uintArray a => rw [coerceOperand, elements, List.map_map]; rfl
  case intArray a => exact absurd rfl hint

theorem coerceOperand_scalar {v : Value} (hv : v.isArray = false) (ty : Ty) :
    coerceOperand v ty = v.coerce ty := by
  cases v <;> first | rfl | cases hv

/-- A list of signed integers is no operand of a scalar attribute. -/
theorem coerceOperand_intArray {v : Value} (hv : v.typeOf = some .intArray) {ty : Ty}
    (hty : ty.isArray = false) (w : Value) : coerceOperand v ty ≠ .ok w := by
  cases v <;> cases hv
  intro h
  replace h : (intArray _).coerce ty = .ok w := h
  cases converts_of_coerce h with
  | self ht =>
      cases ht
      cases hty

/-- Packing keeps the elements of a type that has an array form. -/
theorem elements_pack {ty : Ty} (hp : ty.packs = true) {ws : List Value}
    (hws : ∀ w ∈ ws, w.typeOf = some ty) : (pack ws ty).elements = ws := by
  cases ty <;> cases hp <;> rw [pack, elements]
  case string =>
    rw [List.map_map]
    refine (List.map_congr_left fun w hw => ?_).trans (List.map_id ws)
    have := hws w hw
    cases w <;> cases this
    rfl
  all_goals
    induction ws with
    | nil => rfl
    | cons w ws ih =>
        have hw := hws w List.mem_cons_self
        have ih := ih fun w hw => hws w (List.mem_cons_of_mem _ hw)
        cases w <;> cases hw
        exact congrArg _ ih

/-- A list of renderings holds no value of a type without an array form. -/
theorem equals_pack {ty : Ty} (hp : ty.packs = false) (ws : List Value) {v e : Value}
    (hv : v.isNull = true ∨ v.typeOf = some ty) (he : e ∈ (pack ws ty).elements) :
    v.equals e = false := by
  have hs : e.typeOf = some .string := by
    cases ty <;> cases hp <;> simp only [pack, elements, List.mem_map] at he <;>
      obtain ⟨s, -, rfl⟩ := he <;> rfl
  rcases hv with hn | ht
  · rw [equals, hn, isNull_of_typeOf hs]
    rfl
  · exact equals_of_compare (isNull_of_typeOf ht) (compare_string ht hp hs)

/-- A value that is not null is coerced to a value of the type. -/
theorem typeOf_of_coerce {v w : Value} {ty : Ty} (hv : v.isNull = false)
    (h : v.coerce ty = .ok w) : w.typeOf = some ty := by
  cases converts_of_coerce h with
  | null => cases hv
  | self ht => exact ht
  | _ => rfl

/-- Nothing but a sparse vector is coerced to one. -/
theorem coerce_ne_sparse {v w : Value} {ty : Ty} (hv : v.isNull = false)
    (hs : v.typeOf ≠ some .sparseF16) (h : v.coerce ty = .ok w) : ty ≠ .sparseF16 := by
  rintro rfl
  cases converts_of_coerce h with
  | null => cases hv
  | self ht => exact hs ht

omit [Crates] in
/-- A stored value equals an operand of its type exactly when it is the operand. -/
theorem equals_stored {v w : Value} {ty : Ty} (hv : v.isNull = true ∨ v.typeOf = some ty)
    (hs : ty ≠ .sparseF16) (hw : w.typeOf = some ty) : v.equals w = true ↔ v = w := by
  rcases hv with hn | ht
  · rw [equals, hn, isNull_of_typeOf hw]
    refine ⟨fun h => absurd h Bool.false_ne_true, ?_⟩
    rintro rfl
    rw [isNull_of_typeOf hw] at hn
    cases hn
  · exact equals_iff hs ht hw

end Value

/-! ## Filters with a list -/

/-- Some element of the list, as the operand of `Eq`, is accepted and matches. -/
def SomeEqMatches (schema : SortedMap String Ty) (key : String) (literal : Value) (attrs : Attrs)
    (fts : FtsSchema) : Prop :=
  ∃ e ∈ literal.elements, ∃ f, (Filter.cmp key .eq e).coerce schema = .ok f ∧
    f.matches attrs fts = true

/-- `In` with the list is accepted and matches when some `Eq` does, and `NotIn` when none does. -/
def InIsSomeEq (schema : SortedMap String Ty) (key : String) (literal : Value) (attrs : Attrs)
    (fts : FtsSchema) : Prop :=
  (∃ f, (Filter.cmp key .in literal).coerce schema = .ok f ∧
    (f.matches attrs fts = true ↔ SomeEqMatches schema key literal attrs fts)) ∧
  ∃ f, (Filter.cmp key .notIn literal).coerce schema = .ok f ∧
    (f.matches attrs fts = true ↔ ¬ SomeEqMatches schema key literal attrs fts)

variable {schema : SortedMap String Ty} {key : String} {ty : Ty}

theorem coerceCmp_eq_ok {op : Op} {v w : Value} (hkey : schema.get key = some ty)
    (hop : (op.isFullText || op.isPattern) = false) (hv : v.isNull = false) :
    Filter.coerceCmp schema key op v = .ok w ↔ coerceOperand v (op.target ty) = .ok w := by
  rw [Filter.coerceCmp, hkey]
  simp only [hop, hv, Bool.false_eq_true, if_false]
  exact mapErr_eq_ok

theorem coerce_cmp_eq_ok {op : Op} {v : Value} {f : Filter} (hkey : schema.get key = some ty)
    (hop : (op.isFullText || op.isPattern) = false) (hv : v.isNull = false) :
    (Filter.cmp key op v).coerce schema = .ok f ↔
      ∃ w, coerceOperand v (op.target ty) = .ok w ∧ .cmp key op w = f := by
  rw [Filter.coerce, map_eq_ok]
  simp only [coerceCmp_eq_ok hkey hop hv]

variable (hkey : schema.get key = some ty) (hscalar : ty.isArray = false) {literal : Value}
  (hlist : literal.isArray = true) {attrs : Attrs}
  (hdoc : ((attrs.get key).getD .null).isNull = true ∨
    ((attrs.get key).getD .null).typeOf = some ty) (fts : FtsSchema)

include hkey hlist hdoc in
/-- `Eq` with an element matches the documents that hold what the element is coerced to. -/
theorem someEqMatches_iff : SomeEqMatches schema key literal attrs fts ↔
    ∃ e ∈ literal.elements, e.coerce ty = .ok ((attrs.get key).getD .null) := by
  refine exists_congr fun e => and_congr_right fun he => ?_
  obtain ⟨harr, hnull, hsparse⟩ := Value.typeOf_element hlist he
  have hcoerce : ∀ f, (Filter.cmp key .eq e).coerce schema = .ok f ↔
      ∃ w, e.coerce ty = .ok w ∧ .cmp key .eq w = f := fun f => by
    rw [coerce_cmp_eq_ok hkey rfl hnull, Value.coerceOperand_scalar harr]
    rfl
  simp only [hcoerce]
  constructor
  · rintro ⟨f, ⟨w, hw, rfl⟩, hf⟩
    have heq := (Value.equals_stored hdoc (Value.coerce_ne_sparse hnull hsparse hw)
      (Value.typeOf_of_coerce hnull hw)).mp hf
    rwa [heq]
  · intro hw
    exact ⟨_, ⟨_, hw, rfl⟩, (Value.equals_stored hdoc (Value.coerce_ne_sparse hnull hsparse hw)
      (Value.typeOf_of_coerce hnull hw)).mpr rfl⟩

include hkey hlist in
/-- The elements that coerce on their own coerce as a list, unless they are signed integers. -/
theorem exists_coerceOperand (hint : literal.typeOf ≠ some .intArray)
    (helems : ∀ e ∈ literal.elements, ∃ f, (Filter.cmp key .eq e).coerce schema = .ok f) :
    ∃ ws, List.Forall₂ (fun e w => e.coerce ty = .ok w) literal.elements ws ∧
      coerceOperand literal ty = .ok (pack ws ty) := by
  have hex : ∀ e ∈ literal.elements, ∃ w, e.coerce ty = .ok w := by
    intro e he
    obtain ⟨harr, hnull, -⟩ := Value.typeOf_element hlist he
    obtain ⟨f, hf⟩ := helems e he
    obtain ⟨w, hw, -⟩ := (coerce_cmp_eq_ok hkey rfl hnull).mp hf
    rw [Value.coerceOperand_scalar harr] at hw
    exact ⟨w, hw⟩
  obtain ⟨ws, hws⟩ : ∃ ws, List.Forall₂ (fun e w => e.coerce ty = .ok w) literal.elements ws := by
    generalize literal.elements = es at hex
    induction es with
    | nil => exact ⟨[], .nil⟩
    | cons e es ih =>
        obtain ⟨w, hw⟩ := hex e List.mem_cons_self
        obtain ⟨ws, hws⟩ := ih fun e he => hex e (List.mem_cons_of_mem _ he)
        exact ⟨w :: ws, .cons hw hws⟩
  refine ⟨ws, hws, ?_⟩
  rw [Value.coerceOperand_list hlist hint, collect_of_forall₂ (List.forall₂_map_left_iff.mpr hws)]
  rfl

include hkey hscalar hlist hdoc in
/-- **`In` is the disjunction of `Eq`, and `NotIn` its negation, exactly when** the list is not one of
signed integers and either the type has an array form or no element is the document's value. -/
theorem in_isSomeEq_iff
    (helems : ∀ e ∈ literal.elements, ∃ f, (Filter.cmp key .eq e).coerce schema = .ok f) :
    InIsSomeEq schema key literal attrs fts ↔ literal.typeOf ≠ some .intArray ∧
      (ty.packs = true ∨ ∀ e ∈ literal.elements, e.coerce ty ≠ .ok ((attrs.get key).getD .null)) := by
  have hnull : literal.isNull = false := by
    cases literal <;> first | rfl | cases hlist
  have htarget : elementType ty = ty := by
    cases ty <;> first | rfl | cases hscalar
  have hin : ∀ f, (Filter.cmp key .in literal).coerce schema = .ok f ↔
      ∃ w, coerceOperand literal ty = .ok w ∧ .cmp key .in w = f := fun f => by
    rw [coerce_cmp_eq_ok hkey rfl hnull, Op.target, htarget]
  have hnotIn : ∀ f, (Filter.cmp key .notIn literal).coerce schema = .ok f ↔
      ∃ w, coerceOperand literal ty = .ok w ∧ .cmp key .notIn w = f := fun f => by
    rw [coerce_cmp_eq_ok hkey rfl hnull, Op.target, htarget]
  by_cases hint : literal.typeOf = some .intArray
  · refine iff_of_false ?_ fun h => h.1 hint
    rintro ⟨⟨f, hf, -⟩, -⟩
    obtain ⟨w, hw, -⟩ := (hin f).mp hf
    exact Value.coerceOperand_intArray hint hscalar w hw
  obtain ⟨ws, hws, hpack⟩ := exists_coerceOperand hkey hlist hint helems
  set actual := (attrs.get key).getD .null with hactual
  have hiff : InIsSomeEq schema key literal attrs fts ↔
      ((pack ws ty).elements.any (actual.equals ·) = true ↔
        SomeEqMatches schema key literal attrs fts) := by
    have hmatch : ∀ op, (Filter.cmp key op (pack ws ty)).matches attrs fts =
        matchesCmp attrs fts key op (pack ws ty) := fun op => by rw [Filter.matches]
    have hyes : matchesCmp attrs fts key .in (pack ws ty) =
        (pack ws ty).elements.any (actual.equals ·) := rfl
    have hno : matchesCmp attrs fts key .notIn (pack ws ty) =
        !(pack ws ty).elements.any (actual.equals ·) := rfl
    simp only [InIsSomeEq, hin, hnotIn, hpack, Except.ok.injEq, exists_eq_left', hmatch, hyes, hno,
      Bool.not_eq_true', ← Bool.not_eq_true, not_iff_not, and_self]
  rw [hiff, someEqMatches_iff hkey hlist hdoc, ← hactual]
  have htyped : ∀ w ∈ ws, w.typeOf = some ty ∧ ty ≠ .sparseF16 := by
    intro w hw
    obtain ⟨e, he, hew⟩ := (mem_iff_of_forall₂ hws w).mp hw
    obtain ⟨-, hnull, hsparse⟩ := Value.typeOf_element hlist he
    exact ⟨Value.typeOf_of_coerce hnull hew, Value.coerce_ne_sparse hnull hsparse hew⟩
  cases hp : ty.packs with
  | true =>
      -- the list is an array of the coerced elements
      rw [Value.elements_pack hp fun w hw => (htyped w hw).1, ← mem_iff_of_forall₂ hws]
      refine iff_of_true (List.any_eq_true.trans ⟨?_, fun h => ⟨_, h, ?_⟩⟩) ⟨hint, Or.inl rfl⟩
      · rintro ⟨w, hw, heq⟩
        rwa [(Value.equals_stored hdoc (htyped w hw).2 (htyped w hw).1).mp heq]
      · exact (Value.equals_stored hdoc (htyped _ h).2 (htyped _ h).1).mpr rfl
  | false =>
      -- the list is an array of renderings, which matches nothing
      have hnone : (pack ws ty).elements.any (actual.equals ·) = false :=
        List.any_eq_false.mpr fun e he => Bool.eq_false_iff.mp (Value.equals_pack hp ws hdoc he)
      rw [hnone]
      simp only [Bool.false_eq_true, false_iff, false_or, not_exists, not_and, hint, ne_eq,
        not_false_eq_true, true_and]

end Lists

/-- `In [1, 2]` on an integer attribute. -/
theorem in_two_integers : let _ := Crates.inert
    InIsSomeEq (SortedMap.empty.insert "n" .int) "n" (.uintArray [1, 2])
      (SortedMap.empty.insert "n" (.int 2)) .empty := by
  intro _
  refine (@in_isSomeEq_iff _ _ _ .int rfl rfl _ rfl _ (Or.inr rfl) .empty fun e he => ?_).mpr
    ⟨by decide, Or.inl rfl⟩
  simp only [Value.elements, List.map_cons, List.map_nil, List.mem_cons, List.not_mem_nil,
    or_false] at he
  rcases he with rfl | rfl <;> exact ⟨_, rfl⟩

/-- `In [1]` on a float attribute does not match `1.0`, and `In [-1]` on an integer attribute is
refused. -/
theorem in_loses_elements : let _ := Crates.inert
    ((∃ f, (Filter.cmp "x" .eq (.uint 1)).coerce (SortedMap.empty.insert "x" .f64) = .ok f) ∧
      ¬ InIsSomeEq (SortedMap.empty.insert "x" .f64) "x" (.uintArray [1])
        (SortedMap.empty.insert "x" (.f64 (.ofUInt64 1))) .empty) ∧
    ((∃ f, (Filter.cmp "n" .eq (.int (-1))).coerce (SortedMap.empty.insert "n" .int) = .ok f) ∧
      ¬ InIsSomeEq (SortedMap.empty.insert "n" .int) "n" (.intArray [-1])
        (SortedMap.empty.insert "n" (.int (-1))) .empty) := by
  intro _
  refine ⟨⟨⟨_, rfl⟩, fun h => ?_⟩, ⟨_, rfl⟩, fun h => ?_⟩
  · obtain ⟨⟨f, hf, hiff⟩, -⟩ := h
    obtain rfl := Except.ok.inj hf
    refine absurd (hiff.mpr ⟨.uint 1, List.mem_singleton.mpr rfl, _, rfl, ?_⟩) (by decide +kernel)
    decide +kernel
  · obtain ⟨⟨f, hf, -⟩, -⟩ := h
    cases hf

end Fckdb
