import Fckdb.Bounds
import Fckdb.Coercion

/-! # What is compared in an index

The operand of a comparison that `Filter.coerce` accepted is null, of the target type, or a list
(`Coerced`); the keys of an attribute's index are parts of the documents' values, of the element
type of the declared type (`Typed.typeOf_part`). -/

namespace Fckdb

/-- Whether a declared type is one of the three array types. -/
def Ty.isArray : Ty → Bool
  | .stringArray | .uintArray | .intArray => true
  | _ => false

/-- Whether a list of values of this type is packed into an array that keeps their type. -/
def Ty.packs : Ty → Bool
  | .string | .uint | .int => true
  | _ => false

/-- `>`, `>=`, `<` and `<=`. -/
def Op.isRange : Op → Bool
  | .gt | .gte | .lt | .lte => true
  | _ => false

/-- The operators that look up each element of their operand. -/
def Op.isMember : Op → Bool
  | .in | .containsAny => true
  | _ => false

/-- The operators that match a pattern. -/
def Op.isMatch : Op → Bool
  | .glob | .iGlob | .regex => true
  | _ => false

/-- The operators an index can answer. -/
def Op.isIndexed (op : Op) : Bool :=
  op == .eq || op.isRange || op.isMember || op == .contains || op.isMatch

namespace Op

variable {op : Op}

theorem isIndexed_iff : op.isIndexed = true ↔ op = .eq ∨ op.isRange = true ∨
    op.isMember = true ∨ op = .contains ∨ op.isMatch = true := by
  simp [isIndexed, or_assoc]

theorem isIndexed_of_isRange (h : op.isRange = true) : op.isIndexed = true := by
  cases op <;> first | rfl | cases h

theorem isIndexed_of_isMember (h : op.isMember = true) : op.isIndexed = true := by
  cases op <;> first | rfl | cases h

theorem isIndexed_of_isMatch (h : op.isMatch = true) : op.isIndexed = true := by
  cases op <;> first | rfl | cases h

theorem isRange_of_isMember (h : op.isMember = true) : op.isRange = false := by
  cases op <;> first | rfl | cases h

theorem isMatch_of_isMember (h : op.isMember = true) : op.isMatch = false := by
  cases op <;> first | rfl | cases h

theorem isRange_of_isMatch (h : op.isMatch = true) : op.isRange = false := by
  cases op <;> first | rfl | cases h

end Op

/-! ## What the operands of an accepted filter look like -/

namespace Value

theorem isArray_of_typeOf {v : Value} {ty : Ty} (h : v.typeOf = some ty) :
    v.isArray = ty.isArray := by
  cases v <;> cases h <;> rfl

theorem elements_of_isArray {v : Value} (h : v.isArray = false) : v.elements = [v] := by
  cases v <;> first | rfl | cases h

theorem indexParts_of_isArray {v : Value} (h : v.isArray = false) : indexParts v = [v] := by
  rw [indexParts, h]
  rfl

theorem indexParts_eq_elements (v : Value) : indexParts v = v.elements := by
  cases h : v.isArray with
  | true => rw [indexParts, h]; rfl
  | false => rw [indexParts_of_isArray h, elements_of_isArray h]

/-- The elements of a value have the element type of its type. -/
theorem typeOf_elements {v e : Value} {ty : Ty} (h : v.typeOf = some ty) (he : e ∈ v.elements) :
    e.typeOf = some (elementType ty) := by
  cases v <;> cases h <;> simp only [elements, List.mem_map, List.mem_singleton] at he
  case stringArray | uintArray | intArray => obtain ⟨x, -, rfl⟩ := he; rfl
  all_goals subst he; rfl

/-- Nothing compares with an array but an array and null. -/
theorem compare_array {v w : Value} (hv : v.isNull = false) (h : v.isArray = false)
    (hw : w.isArray = true) : v.compare w = none := by
  cases w <;> cases hw <;> cases v <;> first | rfl | simp_all [isNull, isArray]

theorem array_compare {v w : Value} (hv : v.isArray = true) (h : w.isArray = false)
    (hw : w.isNull = false) : v.compare w = none := by
  cases v <;> cases hv <;> cases w <;> first | rfl | simp_all [isNull, isArray]

/-- Only strings compare with strings, and null. -/
theorem compare_string {v e : Value} {ty : Ty} (hv : v.typeOf = some ty) (h : ty.packs = false)
    (he : e.typeOf = some .string) : v.compare e = none := by
  cases e <;> cases he
  cases v <;> cases hv <;> first | rfl | cases h

theorem compare_sparse {v w : Value} (hv : v.typeOf = some .sparseF16) (hw : w.isNull = false) :
    v.compare w = none := by
  cases v <;> cases hv
  cases w <;> first | rfl | cases hw

theorem equals_of_compare {v w : Value} (hv : v.isNull = false) (h : v.compare w = none) :
    v.equals w = false := by
  rw [equals, hv, h]
  cases w.isNull <;> rfl

end Value

/-- What a coerced operand may be: null, a value of the target type, or a list whose elements have
the target type if it has an array form, and are renderings if not. -/
def Coerced (target : Ty) (w : Value) : Prop :=
  w.isNull = true ∨ w.typeOf = some target ∨
    (w.isArray = true ∧
      ∀ e ∈ w.elements, e.typeOf = some (if target.packs then target else .string))

/-- A type with an array form is the type of all elements of a coerced operand. -/
theorem Coerced.typeOf_elements {ty : Ty} {w e : Value} (hc : Coerced ty w)
    (hp : ty.packs = true) (hw : w.isNull = false) (he : e ∈ w.elements) : e.typeOf = some ty := by
  rcases hc with hn | ht | ⟨-, hall⟩
  · rw [hw] at hn; cases hn
  · have hs : elementType ty = ty := by cases ty <;> first | rfl | cases hp
    rw [Value.typeOf_elements ht he, hs]
  · simpa [hp] using hall e he

/-- The elements of a coerced operand are comparable with the stored values, or none is. -/
theorem Coerced.elements_cases {ty : Ty} {w : Value} (hc : Coerced ty w)
    (hty : ty.isArray = false) (hw : w.isNull = false) :
    (∀ e ∈ w.elements, e.typeOf = some ty ∧ ty ≠ .sparseF16) ∨
      (w.elements ≠ [] ∧ (∀ e ∈ w.elements, e.typeOf = some ty → ty = .sparseF16) ∧
        ∀ e ∈ w.elements, ∀ v : Value, v.typeOf = some ty → v.compare e = none) := by
  rcases hc with hn | ht | ⟨-, he⟩
  · rw [hw] at hn; cases hn
  · have helem := Value.elements_of_isArray ((Value.isArray_of_typeOf ht).trans hty)
    by_cases hs : ty = .sparseF16
    · refine Or.inr ⟨by rw [helem]; exact List.cons_ne_nil _ _, fun _ _ _ => hs, fun e he v hv => ?_⟩
      rw [helem, List.mem_singleton] at he
      exact he ▸ Value.compare_sparse (hs ▸ hv) hw
    · refine Or.inl fun e he => ?_
      rw [helem, List.mem_singleton] at he
      exact he ▸ ⟨ht, hs⟩
  · cases hp : ty.packs with
    | true =>
        refine Or.inl fun e hmem => ⟨by simpa [hp] using he e hmem, ?_⟩
        rintro rfl
        cases hp
    | false =>
        simp only [hp, Bool.false_eq_true, if_false] at he
        by_cases hne : w.elements = []
        · exact Or.inl fun e hmem => absurd hmem (hne ▸ List.not_mem_nil)
        · refine Or.inr ⟨hne, fun e hmem ht => ?_, fun e hmem v hv =>
            Value.compare_string hv hp (he e hmem)⟩
          obtain rfl := Option.some.inj (ht.symm.trans (he e hmem))
          cases hp

section Coerce

variable [Crates]

theorem coerced_pack (values : List Value) (target : Ty) : Coerced target (pack values target) := by
  refine Or.inr (Or.inr ?_)
  cases target <;> refine ⟨rfl, fun e he => ?_⟩ <;>
    simp only [pack, Value.elements, List.mem_map] at he <;> obtain ⟨x, -, rfl⟩ := he <;> rfl

theorem coerceOperand_coerced {v w : Value} {target : Ty}
    (h : coerceOperand v target = .ok w) : Coerced target w := by
  unfold coerceOperand at h
  split at h
  · next items =>
    cases hp : collect (items.map fun s => (Value.string s).coerce target) with
    | error e => rw [hp] at h; cases h
    | ok vs =>
        rw [hp] at h
        obtain rfl := Except.ok.inj h
        exact coerced_pack vs target
  · next items =>
    cases hp : collect (items.map fun u => (Value.uint u).coerce target) with
    | error e => rw [hp] at h; cases h
    | ok vs =>
        rw [hp] at h
        obtain rfl := Except.ok.inj h
        exact coerced_pack vs target
  · exact (Value.typeOf_coerce h).imp id Or.inl

/-- The operand of an accepted comparison on a declared attribute is coerced, unless the operator
takes its operand as text. -/
theorem coerceCmp_coerced {schema : SortedMap String Ty} {key : String} {op : Op} {v w : Value}
    {ty : Ty} (hkey : schema.get key = some ty) (hop : op.isIndexed = true)
    (h : Filter.coerceCmp schema key op v = .ok w) : op.isMatch = true ∨ Coerced (op.target ty) w := by
  have hft : op.isFullText = false := by cases op <;> first | rfl | cases hop
  have hpat : op.isPattern = op.isMatch := by cases op <;> first | rfl | cases hop
  simp only [Filter.coerceCmp, hkey, hft, hpat, Bool.false_or] at h
  cases hm : op.isMatch with
  | true => exact Or.inl rfl
  | false =>
      right
      rw [hm] at h
      simp only [Bool.false_eq_true, if_false] at h
      split_ifs at h with hn
      · obtain rfl := Except.ok.inj h
        exact Or.inl rfl
      · cases hp : coerceOperand v (op.target ty) with
        | error e => rw [hp] at h; cases h
        | ok w' =>
            rw [hp] at h
            obtain rfl := Except.ok.inj h
            exact coerceOperand_coerced hp

end Coerce

/-! ## The parts of an attribute -/

section Parts

variable {docs : List Doc} {key : String} {ty : Ty}

/-- A value some document gives an attribute. -/
def Holds (docs : List Doc) (key : String) (v : Value) : Prop :=
  v.isNull = false ∧ ∃ d ∈ docs, d.attrs.get key = some v

/-- Some document puts a part into the index of an attribute. -/
def Indexed (docs : List Doc) (key : String) : Prop := ∃ v, Holds docs key v ∧ indexParts v ≠ []

/-- The parts an attribute is indexed under, with the ordinals of their documents. -/
def parts (docs : List Doc) (key : String) : List (Nat × Value) :=
  indexPairs (attributeValues docs key)

/-- The part that keys the entry of `p`. -/
def representative (docs : List Doc) (key : String) (p : Value) : Value :=
  firstAlike (parts docs key) p

theorem mem_attributeValues (hlen : docs.length < 2 ^ 32) {o : Nat} {v : Value} :
    (o, v) ∈ attributeValues docs key ↔ ∃ d, docs[o]? = some d ∧ d.attrs.get key = some v := by
  simp only [attributeValues, List.mem_filterMap, Option.map_eq_some_iff, Prod.mk.injEq,
    Prod.exists, List.mk_mem_zipIdx_iff_getElem?]
  constructor
  · rintro ⟨d, i, hd, v', hv, rfl, rfl⟩
    obtain ⟨hi, -⟩ := List.getElem?_eq_some_iff.mp hd
    rw [asU32_of_lt (hi.trans hlen)]
    exact ⟨d, hd, hv⟩
  · rintro ⟨d, hd, hv⟩
    obtain ⟨hi, -⟩ := List.getElem?_eq_some_iff.mp hd
    exact ⟨d, o, hd, v, hv, asU32_of_lt (hi.trans hlen), rfl⟩

theorem mem_parts (hlen : docs.length < 2 ^ 32) {o : Nat} {p : Value} :
    (o, p) ∈ parts docs key ↔ ∃ d v, docs[o]? = some d ∧ d.attrs.get key = some v ∧
      v.isNull = false ∧ p ∈ indexParts v := by
  simp only [parts, indexPairs, List.mem_flatMap, List.mem_filter, List.mem_map, Prod.mk.injEq,
    Prod.exists, Bool.not_eq_true']
  constructor
  · rintro ⟨o', v, ⟨hv, hn⟩, p', hp, rfl, rfl⟩
    obtain ⟨d, hd, hget⟩ := (mem_attributeValues hlen).mp hv
    exact ⟨d, v, hd, hget, hn, hp⟩
  · rintro ⟨d, v, hd, hget, hn, hp⟩
    exact ⟨o, v, ⟨(mem_attributeValues hlen).mpr ⟨d, hd, hget⟩, hn⟩, p, hp, rfl, rfl⟩

theorem parts_ne_nil (hlen : docs.length < 2 ^ 32) : parts docs key ≠ [] ↔ Indexed docs key := by
  constructor
  · intro h
    obtain ⟨⟨o, p⟩, hp⟩ := List.exists_mem_of_ne_nil _ h
    obtain ⟨d, v, hd, hget, hn, hpv⟩ := (mem_parts hlen).mp hp
    exact ⟨v, ⟨hn, d, List.mem_of_getElem? hd, hget⟩, List.ne_nil_of_mem hpv⟩
  · rintro ⟨v, ⟨hn, d, hd, hget⟩, hne⟩
    obtain ⟨o, ho⟩ := List.mem_iff_getElem?.mp hd
    obtain ⟨p, hp⟩ := List.exists_mem_of_ne_nil _ hne
    exact List.ne_nil_of_mem ((mem_parts hlen).mpr ⟨d, v, ho, hget, hn, hp⟩)

/-- A list of documents whose values of one attribute have its declared type. -/
structure Typed (docs : List Doc) (key : String) (ty : Ty) : Prop where
  lt : docs.length < 2 ^ 32
  typeOf : ∀ v, Holds docs key v → v.typeOf = some ty

namespace Typed

variable (h : Typed docs key ty)

include h

theorem typeOf_part {o : Nat} {p : Value} (hp : (o, p) ∈ parts docs key) :
    p.typeOf = some (elementType ty) := by
  obtain ⟨d, v, hd, hget, hn, hpv⟩ := (mem_parts h.lt).mp hp
  rw [Value.indexParts_eq_elements] at hpv
  exact Value.typeOf_elements (h.typeOf v ⟨hn, d, List.mem_of_getElem? hd, hget⟩) hpv

theorem typeOf_representative {o : Nat} {p : Value} (hp : (o, p) ∈ parts docs key) :
    (representative docs key p).typeOf = some (elementType ty) := by
  obtain ⟨o', ho'⟩ := firstAlike_mem hp
  exact h.typeOf_part ho'

/-- A part is its own representative, unless it may be a NaN. -/
theorem representative_eq {o : Nat} {p : Value} (hp : (o, p) ∈ parts docs key)
    (hf : elementType ty ≠ .f64) (hs : elementType ty ≠ .sparseF16) :
    representative docs key p = p := by
  have hk : debugKey (representative docs key p) = debugKey p := debugKey_firstAlike _ _
  have ht := h.typeOf_part hp
  have ht' := h.typeOf_representative hp
  revert hk ht ht'
  generalize representative docs key p = q
  intro hk ht ht'
  have hid : ∀ x : Value, x.typeOf = some (elementType ty) → debugKey x = x := fun x hx => by
    cases x <;> first | rfl | (exact absurd (Option.some.inj hx).symm (by assumption))
  rw [hid q ht', hid p ht] at hk
  exact hk

/-- The parts of a scalar attribute are the values themselves. -/
theorem mem_parts_scalar (hty : ty.isArray = false) {o : Nat} {p : Value} :
    (o, p) ∈ parts docs key ↔
      ∃ d, docs[o]? = some d ∧ d.attrs.get key = some p ∧ p.isNull = false := by
  rw [mem_parts h.lt]
  constructor
  · rintro ⟨d, v, hd, hget, hn, hp⟩
    have ha := Value.isArray_of_typeOf (h.typeOf v ⟨hn, d, List.mem_of_getElem? hd, hget⟩)
    rw [Value.indexParts_of_isArray (ha.trans hty), List.mem_singleton] at hp
    exact hp ▸ ⟨d, hd, hget, hn⟩
  · rintro ⟨d, hd, hget, hn⟩
    have ha := Value.isArray_of_typeOf (h.typeOf p ⟨hn, d, List.mem_of_getElem? hd, hget⟩)
    exact ⟨d, p, hd, hget, hn, by
      rw [Value.indexParts_of_isArray (ha.trans hty)]; exact List.mem_singleton_self p⟩

theorem multiValued_eq (hne : Indexed docs key) :
    (attrIndexOf docs key).multiValued = ty.isArray := by
  rw [attrIndexOf, AttrIndex.build]
  cases hty : ty.isArray with
  | true =>
      obtain ⟨v, hv, -⟩ := hne
      obtain ⟨hn, d, hd, hget⟩ := hv
      obtain ⟨o, ho⟩ := List.mem_iff_getElem?.mp hd
      refine List.any_eq_true.mpr ⟨(o, v), (mem_attributeValues h.lt).mpr ⟨d, ho, hget⟩, ?_⟩
      rw [Value.isArray_of_typeOf (h.typeOf v ⟨hn, d, hd, hget⟩), hty]
  | false =>
      refine List.any_eq_false.mpr ?_
      rintro ⟨o, v⟩ hv
      obtain ⟨d, ho, hget⟩ := (mem_attributeValues h.lt).mp hv
      cases hn : v.isNull with
      | true => rw [Value.eq_null_of_isNull hn]; simp [Value.isArray]
      | false =>
          rw [Value.isArray_of_typeOf (h.typeOf v ⟨hn, d, List.mem_of_getElem? ho, hget⟩), hty]
          simp

end Typed

end Parts

end Fckdb
