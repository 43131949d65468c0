import Fckdb.IndexFlaws

/-! # Comparisons of array attributes

The parts of an array attribute are its elements. The index answers about elements where the scan
compares whole arrays (`Typed.bounds_member_array`, `Typed.bounds_range_array`,
`Typed.bounds_match_array`) or does not look into the array (`Typed.bounds_contains_array`). -/

namespace Fckdb

variable [Crates]

omit [Crates] in
/-- The element types of arrays have array forms, so they are no floats and no sparse vectors. -/
theorem packs_elementType {ty : Ty} (hty : ty.isArray = true) :
    (elementType ty).packs = true ∧ (elementType ty).isArray = false ∧ elementType ty ≠ .f64 ∧
      elementType ty ≠ .sparseF16 := by
  cases ty <;> first | decide | cases hty

omit [Crates] in
/-- An array shares an element with a list of values of its element type. -/
theorem containsAny_iff {ty : Ty} {v w : Value} (hty : ty.isArray = true) (hv : v.typeOf = some ty)
    (hw : ∀ e ∈ w.elements, e.typeOf = some (elementType ty)) :
    containsAny v w = true ↔ ∃ p ∈ v.elements, p ∈ w.elements := by
  have hs := (packs_elementType hty).2.2.2
  simp only [containsAny, List.any_eq_true]
  constructor
  · rintro ⟨e, he, p, hp, heq⟩
    obtain rfl := (Value.equals_iff hs (Value.typeOf_elements hv hp) (hw e he)).mp heq
    exact ⟨p, hp, he⟩
  · rintro ⟨p, hp, he⟩
    exact ⟨p, he, p, hp, (Value.equals_iff hs (hw p he) (hw p he)).mpr rfl⟩

/-- Signed arrays contain nothing; the others contain their elements. -/
theorem eval_contains_array {ty : Ty} {v w : Value} (hty : ty.isArray = true)
    (hv : v.typeOf = some ty) :
    eval v .contains w = (ty ≠ .intArray && v.elements.any (·.equals w)) := by
  simp only [eval]
  unfold contains
  cases v <;> cases hv <;> first | rfl | cases hty

variable {docs : List Doc} {key : String} {ty : Ty} (h : Typed docs key ty)
  (hty : ty.isArray = true) (hi : Indexed docs key) {op : Op} {w : Value}

include h hty

omit [Crates] in
/-- The parts of an array attribute are its elements, each its own representative. -/
theorem Typed.representative_element {o : Nat} {p : Value} (hp : (o, p) ∈ parts docs key) :
    firstAlike (parts docs key) p = p :=
  h.representative_eq hp (packs_elementType hty).2.2.1 (packs_elementType hty).2.2.2

omit [Crates] in
/-- Looking up a value of the element type finds the arrays that hold it. -/
theorem Typed.mem_lookup_element (hw : w.typeOf = some (elementType ty)) {o : Nat} :
    o ∈ (attrIndexOf docs key).lookup w ↔ (o, w) ∈ parts docs key := by
  have hs := (packs_elementType hty).2.2.2
  rw [attrIndexOf, AttrIndex.mem_lookup_build hs (fun q hq => h.typeOf_part hq) hw]
  constructor
  · rintro ⟨p, hp, hr⟩
    obtain rfl := (h.representative_element hty hp).symm.trans hr
    exact hp
  · exact fun hp => ⟨w, hp, h.representative_element hty hp⟩

include hi

theorem Typed.bounds_eq_array :
    Bounds docs.length (Answers docs key .eq w) ((attrIndexOf docs key).select .eq w) ↔
      ¬ Flaw docs key ty .eq w := by
  simp only [AttrIndex.select, h.multiValued_eq hi, hty, Bool.true_or, if_true]
  refine iff_of_true Bounds.none ?_
  rintro (⟨hs, _, _, _⟩ | ⟨hm, _, _, _, _⟩ | ⟨hm, _, _, _⟩ | _ | _ | _ | ⟨hm, _, _, _, _⟩ |
    ⟨hm, _, _, _, _⟩ | ⟨_, rfl, _, _⟩)
  · rw [hty] at hs; cases hs
  all_goals first | cases hm | cases hty

theorem Typed.bounds_range_array (hop : op.isRange = true) (hc : Coerced ty w) :
    Bounds docs.length (Answers docs key op w) ((attrIndexOf docs key).select op w) ↔
      ¬ Flaw docs key ty op w := by
  have hindexed := Op.isIndexed_of_isRange hop
  rw [AttrIndex.select_range hop, h.multiValued_eq hi, hty]
  have hflaw : Flaw docs key ty op w ↔ ∃ v, Holds docs key v ∧ eval v op w = true := by
    constructor
    · intro hf
      cases hf with
      | eqIncomparable => cases hop
      | memberIncomparable hm => rw [Op.isRange_of_isMember hm] at hop; cases hop
      | memberNull hm => rw [Op.isRange_of_isMember hm] at hop; cases hop
      | arrayIn | arrayContainsInts | arrayContainsList => cases hop
      | arrayMatch hm => rw [Op.isRange_of_isMatch hm] at hop; cases hop
      | arrayRange _ _ hv he => exact ⟨_, hv, he⟩
      | nan _ hf => rw [hf] at hty; cases hty
    · rintro ⟨v, hv, he⟩
      exact .arrayRange hop hty hv he hi
  rw [hflaw]
  cases hw : w.isNull with
  | true =>
      obtain rfl := Value.eq_null_of_isNull hw
      refine iff_of_true Bounds.none ?_
      rintro ⟨v, hv, he⟩
      rw [eval_with_null hindexed hv.1] at he
      cases he
  | false =>
      have ha : w.isArray = true := by
        rcases hc with hn | ht | ⟨ha, -⟩
        · rw [hw] at hn; cases hn
        · rw [Value.isArray_of_typeOf ht, hty]
        · exact ha
      have hnull : eval .null op w = false := eval_null hindexed fun _ => hw
      have hempty : ∀ o, o ∉ (attrIndexOf docs key).pickAll
          fun v => ((v.compare w).map op.accepts).getD false := fun o ho => by
        obtain ⟨p, hp, he⟩ := AttrIndex.mem_pickAll_build.mp ho
        have ht := h.typeOf_representative hp
        have hc := Value.compare_array (Value.isNull_of_typeOf ht)
          ((Value.isArray_of_typeOf ht).trans (packs_elementType hty).2.1) ha
        rw [representative, parts] at hc
        rw [hc] at he
        cases he
      constructor
      · rintro hb ⟨v, ⟨hn, d, hd, hget⟩, he⟩
        obtain ⟨o, ho⟩ := List.mem_iff_getElem?.mp hd
        exact hempty o ((hb _ rfl).1 o (List.getElem?_eq_some_iff.mp ho).1
          ((answers_iff hnull).mpr ⟨d, v, ho, hget, hn, he⟩))
      · rintro hno s hs
        obtain rfl := Option.some.inj hs
        refine ⟨fun o _ ha => ?_, fun he => by cases he⟩
        obtain ⟨d, v, ho, hget, hn, he⟩ := (answers_iff hnull).mp ha
        exact absurd ⟨v, ⟨hn, d, List.mem_of_getElem? ho, hget⟩, he⟩ hno

omit hi in
theorem Typed.bounds_member_array (hop : op.isMember = true) (hc : Coerced (elementType ty) w)
    (hw : w.isNull = false) :
    Bounds docs.length (Answers docs key op w) ((attrIndexOf docs key).select op w) ↔
      ¬ Flaw docs key ty op w := by
  have hnull : eval .null op w = false := eval_null (Op.isIndexed_of_isMember hop) fun _ => hw
  have helem : ∀ e ∈ w.elements, e.typeOf = some (elementType ty) := fun e he =>
    hc.typeOf_elements (packs_elementType hty).1 hw he
  have hflaw : Flaw docs key ty op w ↔
      op = .in ∧ ∃ v, Holds docs key v ∧ containsAny v w = true := by
    constructor
    · intro hf
      cases hf with
      | eqIncomparable | arrayContainsInts | arrayContainsList => cases hop
      | memberIncomparable _ _ hne hno =>
          obtain ⟨e, he⟩ := List.exists_mem_of_ne_nil _ hne
          rw [hno e he (helem e he)] at hty
          cases hty
      | memberNull => cases hw
      | arrayIn _ hv he => exact ⟨rfl, _, hv, he⟩
      | arrayMatch hm => rw [Op.isMatch_of_isMember hop] at hm; cases hm
      | arrayRange hr => rw [Op.isRange_of_isMember hop] at hr; cases hr
      | nan _ hf => rw [hf] at hty; cases hty
    · rintro ⟨rfl, v, hv, he⟩
      exact .arrayIn hty hv he
  have hsel : ∀ o, o ∈ w.elements.foldl (fun acc w => acc ∪ (attrIndexOf docs key).lookup w) ∅ ↔
      ∃ d v, docs[o]? = some d ∧ d.attrs.get key = some v ∧ v.isNull = false ∧
        containsAny v w = true := fun o => by
    rw [AttrIndex.mem_foldl_lookup, or_iff_right (Finset.notMem_empty o)]
    constructor
    · rintro ⟨e, he, ho⟩
      rw [h.mem_lookup_element hty (helem e he), mem_parts h.lt] at ho
      obtain ⟨d, v, ho, hget, hn, hp⟩ := ho
      have hv := h.typeOf v ⟨hn, d, List.mem_of_getElem? ho, hget⟩
      rw [Value.indexParts_eq_elements] at hp
      exact ⟨d, v, ho, hget, hn, (containsAny_iff hty hv helem).mpr ⟨e, hp, he⟩⟩
    · rintro ⟨d, v, ho, hget, hn, he⟩
      have hv := h.typeOf v ⟨hn, d, List.mem_of_getElem? ho, hget⟩
      obtain ⟨p, hp, he⟩ := (containsAny_iff hty hv helem).mp he
      refine ⟨p, he, (h.mem_lookup_element hty (helem p he)).mpr ((mem_parts h.lt).mpr ?_)⟩
      exact ⟨d, v, ho, hget, hn, by rw [Value.indexParts_eq_elements]; exact hp⟩
  rw [AttrIndex.select_member hop, hflaw]
  by_cases hin : op = .in
  · subst hin
    have hno : ∀ o, ¬ Answers docs key .in w o := fun o => not_answers hnull fun v hv => by
      refine List.any_eq_false.mpr fun e he => ?_
      have ht := helem e he
      rw [Value.equals_of_compare hv.1 (Value.array_compare
        ((Value.isArray_of_typeOf (h.typeOf v hv)).trans hty)
        ((Value.isArray_of_typeOf ht).trans (packs_elementType hty).2.1)
        (Value.isNull_of_typeOf ht))]
      exact Bool.false_ne_true
    rw [Bounds.exact_iff]
    constructor
    · rintro ⟨-, hex⟩ ⟨-, v, ⟨hn, d, hd, hget⟩, he⟩
      obtain ⟨o, ho⟩ := List.mem_iff_getElem?.mp hd
      exact hno o (hex o ((hsel o).mpr ⟨d, v, ho, hget, hn, he⟩)).2
    · intro hf
      refine ⟨fun o _ ha => absurd ha (hno o), fun o ho => ?_⟩
      obtain ⟨d, v, ho, hget, hn, he⟩ := (hsel o).mp ho
      exact absurd ⟨rfl, v, ⟨hn, d, List.mem_of_getElem? ho, hget⟩, he⟩ hf
  · have hany : op = .containsAny := by cases op <;> first | rfl | exact absurd rfl hin | cases hop
    subst hany
    refine iff_of_true (Bounds.exact_iff.mpr ⟨fun o _ ha => ?_, fun o ho => ?_⟩) fun hf => hin hf.1
    · exact (hsel o).mpr ((answers_iff hnull).mp ha)
    · obtain ⟨d, v, ho', hget, hn, he⟩ := (hsel o).mp ho
      exact ⟨(List.getElem?_eq_some_iff.mp ho').1,
        (answers_iff hnull).mpr ⟨d, v, ho', hget, hn, he⟩⟩

theorem Typed.bounds_contains_array (hc : Coerced (elementType ty) w) :
    Bounds docs.length (Answers docs key .contains w)
      ((attrIndexOf docs key).select .contains w) ↔ ¬ Flaw docs key ty .contains w := by
  have hnull : eval .null .contains w = false := rfl
  simp only [AttrIndex.select, h.multiValued_eq hi, hty, if_true]
  have hflaw : Flaw docs key ty .contains w ↔
      (ty = .intArray ∧ ∃ v, Holds docs key v ∧ w ∈ indexParts v) ∨
        (w.isNull = false ∧ w.typeOf ≠ some (elementType ty)) := by
    constructor
    · intro hf
      cases hf with
      | memberIncomparable hm | memberNull hm | arrayMatch hm | arrayRange hm => cases hm
      | arrayContainsInts hint hv he => exact Or.inl ⟨hint, _, hv, he⟩
      | arrayContainsList _ hw hne => exact Or.inr ⟨hw, hne⟩
      | nan _ hf => rw [hf] at hty; cases hty
    · rintro (⟨hint, v, hv, he⟩ | ⟨hw, hne⟩)
      · exact .arrayContainsInts hint hv he
      · exact .arrayContainsList hty hw hne hi
  rw [hflaw]
  by_cases hw : w.typeOf = some (elementType ty)
  · have hlook : ∀ o, o ∈ (attrIndexOf docs key).lookup w ↔ _ := fun o =>
      (h.mem_lookup_element hty hw).trans (mem_parts h.lt)
    have hs := (packs_elementType hty).2.2.2
    have hmem : ∀ v, Holds docs key v →
        (eval v .contains w = true ↔ ty ≠ .intArray ∧ w ∈ indexParts v) := fun v hv => by
      have ht := h.typeOf v hv
      rw [eval_contains_array hty ht, Bool.and_eq_true, decide_eq_true_eq, List.any_eq_true,
        Value.indexParts_eq_elements]
      refine and_congr_right fun _ => ⟨?_, fun hw' => ⟨w, hw', (Value.equals_iff hs hw hw).mpr rfl⟩⟩
      rintro ⟨p, hp, he⟩
      obtain rfl := (Value.equals_iff hs (Value.typeOf_elements ht hp) hw).mp he
      exact hp
    rw [Bounds.exact_iff]
    constructor
    · rintro ⟨-, hex⟩ (⟨hint, v, hv, he⟩ | ⟨-, hne⟩)
      · obtain ⟨hn, d, hd, hget⟩ := hv
        obtain ⟨o, ho⟩ := List.mem_iff_getElem?.mp hd
        have ha := (hex o ((hlook o).mpr ⟨d, v, ho, hget, hn, he⟩)).2
        obtain ⟨d', v', ho', hget', hn', he'⟩ := (answers_iff hnull).mp ha
        exact ((hmem v' ⟨hn', d', List.mem_of_getElem? ho', hget'⟩).mp he').1 hint
      · exact hne hw
    · intro hf
      refine ⟨fun o _ ha => ?_, fun o ho => ?_⟩
      · obtain ⟨d, v, ho, hget, hn, he⟩ := (answers_iff hnull).mp ha
        exact (hlook o).mpr ⟨d, v, ho, hget, hn,
          ((hmem v ⟨hn, d, List.mem_of_getElem? ho, hget⟩).mp he).2⟩
      · obtain ⟨d, v, ho', hget, hn, hp⟩ := (hlook o).mp ho
        have hv : Holds docs key v := ⟨hn, d, List.mem_of_getElem? ho', hget⟩
        refine ⟨(List.getElem?_eq_some_iff.mp ho').1, (answers_iff hnull).mpr
          ⟨d, v, ho', hget, hn, (hmem v hv).mpr ⟨fun hint => hf ?_, hp⟩⟩⟩
        exact Or.inl ⟨hint, v, hv, hp⟩
  · cases hn : w.isNull with
    | true =>
        obtain rfl := Value.eq_null_of_isNull hn
        have hlook : (attrIndexOf docs key).lookup .null = ∅ :=
          AttrIndex.lookup_null fun q hq => Value.isNull_of_typeOf (h.typeOf_part hq)
        rw [hlook]
        refine iff_of_true (Bounds.exact_iff.mpr ⟨fun o _ ha => ?_, fun o ho => ?_⟩) ?_
        · exact absurd ha (not_answers hnull fun v hv => eval_with_null rfl hv.1)
        · exact absurd ho (Finset.notMem_empty o)
        · rintro (⟨-, v, hv, he⟩ | ⟨h', -⟩)
          · rw [Value.indexParts_eq_elements] at he
            cases Value.typeOf_elements (h.typeOf v hv) he
          · cases h'
    | false =>
        have ha : w.isArray = true := by
          rcases hc with hn' | ht | ⟨ha, -⟩
          · rw [hn] at hn'; cases hn'
          · exact absurd ht hw
          · exact ha
        have hinc : ∀ p : Value, p.typeOf = some (elementType ty) → p.compare w = none :=
          fun p hp => Value.compare_array (Value.isNull_of_typeOf hp)
            ((Value.isArray_of_typeOf hp).trans (packs_elementType hty).2.1) ha
        obtain ⟨o, ho⟩ := AttrIndex.lookup_incomparable ((parts_ne_nil h.lt).mpr hi)
          fun q hq => hinc q.2 (h.typeOf_part hq)
        have hno : ¬ Answers docs key .contains w o := not_answers hnull fun v hv => by
          have ht := h.typeOf v hv
          rw [eval_contains_array hty ht, List.any_eq_false.mpr, Bool.and_false]
          intro p hp
          have hpt := Value.typeOf_elements ht hp
          rw [Value.equals_of_compare (Value.isNull_of_typeOf hpt) (hinc p hpt)]
          exact Bool.false_ne_true
        exact iff_of_false (Bounds.not_of_spurious ho hno) (not_not_intro (Or.inr ⟨rfl, hw⟩))

omit hi in
theorem Typed.bounds_match_array (hop : op.isMatch = true) :
    Bounds docs.length (Answers docs key op w) ((attrIndexOf docs key).select op w) ↔
      ¬ Flaw docs key ty op w := by
  have hflaw : Flaw docs key ty op w ↔
      ∃ v p, Holds docs key v ∧ p ∈ indexParts v ∧ eval p op w = true := by
    constructor
    · intro hf
      cases hf with
      | eqIncomparable | arrayIn | arrayContainsInts | arrayContainsList => cases hop
      | memberIncomparable hm => rw [Op.isMatch_of_isMember hm] at hop; cases hop
      | memberNull hm => rw [Op.isMatch_of_isMember hm] at hop; cases hop
      | arrayMatch _ _ hv hp he => exact ⟨_, _, hv, hp, he⟩
      | arrayRange hr => rw [Op.isRange_of_isMatch hop] at hr; cases hr
      | nan _ hf => rw [hf] at hty; cases hty
    · rintro ⟨v, p, hv, hp, he⟩
      exact .arrayMatch hop hty hv hp he
  have hnull : eval .null op w = false := by rw [eval_match hop]; rfl
  have hno : ∀ o, ¬ Answers docs key op w o := fun o => not_answers hnull fun v hv => by
    have ht := (Value.isArray_of_typeOf (h.typeOf v hv)).trans hty
    rw [eval_match hop, matchesPattern]
    cases v <;> first | rfl | cases ht
  rw [hflaw]
  rcases AttrIndex.selectPattern_cases (attrIndexOf docs key) hop w with ⟨hs, hf⟩ | hs
  · rw [hs]
    refine iff_of_true Bounds.none ?_
    rintro ⟨v, p, -, -, he⟩
    rw [hf] at he
    cases he
  · rw [hs, Bounds.exact_iff]
    constructor
    · rintro ⟨-, hex⟩ ⟨v, p, ⟨hn, d, hd, hget⟩, hp, he⟩
      obtain ⟨o, ho⟩ := List.mem_iff_getElem?.mp hd
      have hpart : (o, p) ∈ parts docs key := (mem_parts h.lt).mpr ⟨d, v, ho, hget, hn, hp⟩
      refine hno o (hex o (AttrIndex.mem_pickAll_build.mpr ⟨p, hpart, ?_⟩)).2
      have hr := h.representative_element hty hpart
      rw [parts] at hr
      rw [hr]
      exact he
    · intro hf
      refine ⟨fun o _ ha => absurd ha (hno o), fun o ho => ?_⟩
      obtain ⟨p, hp, he⟩ := AttrIndex.mem_pickAll_build.mp ho
      have hr := h.representative_element hty hp
      rw [parts] at hr
      rw [hr] at he
      obtain ⟨d, v, ho, hget, hn, hpv⟩ := (mem_parts h.lt).mp hp
      exact absurd ⟨v, p, ⟨hn, d, List.mem_of_getElem? ho, hget⟩, hpv, he⟩ hf

end Fckdb
