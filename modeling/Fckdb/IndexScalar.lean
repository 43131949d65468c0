import Fckdb.IndexFlaws

/-! # Comparisons of scalar attributes

The parts of a scalar attribute are its values, so an entry of the index answers for the values that
print like its key. The index and the scan part where a look-up compares incomparable values
(`Typed.bounds_eq`, `Typed.bounds_member`) and where a NaN answers for another
(`Typed.bounds_pointwise`). -/

namespace Fckdb

variable [Crates]

omit [Crates] in
theorem elementType_of_isArray {ty : Ty} (h : ty.isArray = false) : elementType ty = ty := by
  cases ty <;> first | rfl | cases h

variable {docs : List Doc} {key : String} {ty : Ty} (h : Typed docs key ty)
  (hty : ty.isArray = false) {op : Op} {w : Value}

include h hty

/-- What the representatives select bounds the answers exactly if they answer like the values. -/
theorem Typed.bounds_pointwise {S : Finset Nat}
    (hS : ∀ o, o ∈ S ↔ ∃ p, (o, p) ∈ parts docs key ∧
      eval (representative docs key p) op w = true)
    (hnull : eval .null op w = false) :
    Bounds docs.length (Answers docs key op w) (some ⟨S, true⟩) ↔
      ∀ v, Holds docs key v → eval v op w = eval (representative docs key v) op w := by
  rw [Bounds.exact_iff]
  constructor
  · rintro ⟨hsup, hex⟩ v ⟨hn, d, hd, hget⟩
    obtain ⟨o, ho⟩ := List.mem_iff_getElem?.mp hd
    obtain ⟨hlt, -⟩ := List.getElem?_eq_some_iff.mp ho
    have hpart : (o, v) ∈ parts docs key := (h.mem_parts_scalar hty).mpr ⟨d, ho, hget, hn⟩
    have hans : Answers docs key op w o ↔ eval v op w = true := by
      simp only [Answers, ho, Option.some.injEq, exists_eq_left', hget, Option.getD_some]
    have hsel : o ∈ S ↔ eval (representative docs key v) op w = true := by
      rw [hS]
      constructor
      · rintro ⟨p, hp, he⟩
        obtain ⟨d', ho', hget', -⟩ := (h.mem_parts_scalar hty).mp hp
        obtain rfl := Option.some.inj (ho'.symm.trans ho)
        obtain rfl := Option.some.inj (hget'.symm.trans hget)
        exact he
      · exact fun he => ⟨v, hpart, he⟩
    rw [Bool.eq_iff_iff, ← hans, ← hsel]
    exact ⟨hsup o hlt, fun hmem => (hex o hmem).2⟩
  · intro hall
    have hiff : ∀ o, o ∈ S ↔ Answers docs key op w o := fun o => by
      rw [hS, answers_iff hnull]
      constructor
      · rintro ⟨p, hp, he⟩
        obtain ⟨d, ho, hget, hn⟩ := (h.mem_parts_scalar hty).mp hp
        refine ⟨d, p, ho, hget, hn, ?_⟩
        rw [hall p ⟨hn, d, List.mem_of_getElem? ho, hget⟩]
        exact he
      · rintro ⟨d, v, ho, hget, hn, he⟩
        refine ⟨v, (h.mem_parts_scalar hty).mpr ⟨d, ho, hget, hn⟩, ?_⟩
        rw [← hall v ⟨hn, d, List.mem_of_getElem? ho, hget⟩]
        exact he
    refine ⟨fun o _ => (hiff o).mpr, fun o ho => ?_⟩
    obtain ⟨d, hd, he⟩ := (hiff o).mp ho
    exact ⟨(List.getElem?_eq_some_iff.mp hd).1, d, hd, he⟩

/-- Where the operand is comparable, only NaNs can part the index from the scan. -/
theorem Typed.not_flaw_iff (hop : op.isIndexed = true)
    (heq : op = .eq → w.isNull = true ∨ w.typeOf = some ty ∧ ty ≠ .sparseF16)
    (hmem : op.isMember = true →
      w.isNull = false ∧ ∀ e ∈ w.elements, e.typeOf = some ty ∧ ty ≠ .sparseF16) :
    ¬ Flaw docs key ty op w ↔
      ∀ v, Holds docs key v → eval v op w = eval (representative docs key v) op w := by
  constructor
  · intro hno v hv
    by_cases hf : ty = .f64
    · by_contra hne
      exact hno (.nan hop hf hv hne)
    · obtain ⟨hn, d, hd, hget⟩ := hv
      obtain ⟨o, ho⟩ := List.mem_iff_getElem?.mp hd
      have hpart : (o, v) ∈ parts docs key := (h.mem_parts_scalar hty).mpr ⟨d, ho, hget, hn⟩
      have helem := elementType_of_isArray hty
      by_cases hs : ty = .sparseF16
      · have hr := h.typeOf_representative hpart
        rw [helem, hs] at hr
        rw [eval_sparse hop (hs ▸ h.typeOf v ⟨hn, d, hd, hget⟩), eval_sparse hop hr]
      · rw [h.representative_eq hpart (by rwa [helem]) (by rwa [helem])]
  · rintro hall (⟨_, hw, hc, _⟩ | ⟨hm, hw, hne, hc, _⟩ | ⟨hm, _, _, _⟩ | ⟨ha, _, _⟩ | ⟨ha, _, _⟩ |
      ⟨ha, _, _, _⟩ | ⟨_, ha, _, _, _⟩ | ⟨_, ha, _, _, _⟩ | ⟨_, _, hv, he⟩)
    · rcases heq rfl with hn | ⟨ht, hs⟩
      · rw [hw] at hn; cases hn
      · exact hs (hc ht)
    · obtain ⟨e, he⟩ := List.exists_mem_of_ne_nil _ hne
      obtain ⟨ht, hs⟩ := (hmem hm).2 e he
      exact hs (hc e he (by rw [elementType_of_isArray hty]; exact ht))
    · exact absurd (hmem hm).1 (by simp [Value.isNull])
    · rw [hty] at ha; cases ha
    · rw [ha] at hty; cases hty
    · rw [hty] at ha; cases ha
    · rw [hty] at ha; cases ha
    · rw [hty] at ha; cases ha
    · exact he (hall _ hv)

/-- A value and its representative answer a comparison with null alike. -/
theorem Typed.eval_representative_null (hop : op.isIndexed = true) (v : Value)
    (hv : Holds docs key v) : eval v op .null = eval (representative docs key v) op .null := by
  obtain ⟨hn, d, hd, hget⟩ := hv
  obtain ⟨o, ho⟩ := List.mem_iff_getElem?.mp hd
  have hr := h.typeOf_representative ((h.mem_parts_scalar hty).mpr ⟨d, ho, hget, hn⟩)
  rw [eval_with_null hop hn, eval_with_null hop (Value.isNull_of_typeOf hr)]

variable (hi : Indexed docs key)

include hi

omit [Crates] in
/-- A look-up of values that compare with no part finds something. -/
theorem Typed.lookup_spurious (hc : ∀ v : Value, v.typeOf = some ty → v.compare w = none) :
    ∃ o, o ∈ (attrIndexOf docs key).lookup w := by
  refine AttrIndex.lookup_incomparable ((parts_ne_nil h.lt).mpr hi) fun q hq => hc q.2 ?_
  rw [← elementType_of_isArray hty]
  exact h.typeOf_part hq

theorem Typed.bounds_eq (hc : Coerced ty w) :
    Bounds docs.length (Answers docs key .eq w) ((attrIndexOf docs key).select .eq w) ↔
      ¬ Flaw docs key ty .eq w := by
  simp only [AttrIndex.select, h.multiValued_eq hi, hty, Bool.false_or]
  cases hw : w.isNull with
  | true =>
      obtain rfl := Value.eq_null_of_isNull hw
      rw [if_pos rfl, h.not_flaw_iff hty rfl (fun _ => Or.inl hw) (fun hm => by cases hm)]
      exact iff_of_true Bounds.none (h.eval_representative_null hty rfl)
  | false =>
      rw [if_neg Bool.false_ne_true]
      by_cases hcomp : w.typeOf = some ty ∧ ty ≠ .sparseF16
      · rw [h.not_flaw_iff hty rfl (fun _ => Or.inr hcomp) (fun hm => by cases hm)]
        refine h.bounds_pointwise hty (fun o => ?_) (eval_null rfl fun _ => hw)
        have hpart : ∀ q ∈ parts docs key, q.2.typeOf = some ty := fun q hq =>
          elementType_of_isArray hty ▸ h.typeOf_part hq
        rw [attrIndexOf, AttrIndex.mem_lookup_build hcomp.2 hpart hcomp.1]
        refine exists_congr fun p => and_congr_right fun hp => ?_
        have hr := h.typeOf_representative hp
        rw [elementType_of_isArray hty] at hr
        exact (Value.equals_iff hcomp.2 hr hcomp.1).symm
      · have hinc : ∀ v : Value, v.typeOf = some ty → v.compare w = none := fun v hv => by
          rcases hc with hn | ht | ⟨ha, -⟩
          · rw [hw] at hn; cases hn
          · by_cases hs : ty = .sparseF16
            · exact Value.compare_sparse (hs ▸ hv) hw
            · exact absurd ⟨ht, hs⟩ hcomp
          · exact Value.compare_array (Value.isNull_of_typeOf hv)
              ((Value.isArray_of_typeOf hv).trans hty) ha
        obtain ⟨o, ho⟩ := h.lookup_spurious hty hi hinc
        have hno : ¬ Answers docs key .eq w o := not_answers (eval_null rfl fun _ => hw)
          fun v hv => Value.equals_of_compare hv.1 (hinc v (h.typeOf v hv))
        exact iff_of_false (Bounds.not_of_spurious ho hno) (not_not_intro
          (.eqIncomparable hty hw (fun ht => by_contra fun hs => hcomp ⟨ht, hs⟩) hi))

theorem Typed.bounds_member (hop : op.isMember = true) (hc : Coerced ty w)
    (hw : w.isNull = false) :
    Bounds docs.length (Answers docs key op w) ((attrIndexOf docs key).select op w) ↔
      ¬ Flaw docs key ty op w := by
  have hindexed := Op.isIndexed_of_isMember hop
  have hnull : eval .null op w = false := eval_null hindexed fun _ => hw
  rw [AttrIndex.select_member hop]
  rcases hc.elements_cases hty hw with hcomp | ⟨hne, hc', hinc⟩
  · have heq : op = .eq → w.isNull = true ∨ w.typeOf = some ty ∧ ty ≠ .sparseF16 := by
      rintro rfl
      cases hop
    rw [h.not_flaw_iff hty hindexed heq (fun _ => ⟨hw, hcomp⟩)]
    refine h.bounds_pointwise hty (fun o => ?_) hnull
    have hpart : ∀ q ∈ parts docs key, q.2.typeOf = some ty := fun q hq =>
      elementType_of_isArray hty ▸ h.typeOf_part hq
    have heval : ∀ p, (o, p) ∈ parts docs key →
        (eval (representative docs key p) op w = true ↔
          representative docs key p ∈ w.elements) := fun p hp =>
      eval_member hop (elementType_of_isArray hty ▸ h.typeOf_representative hp) hty hcomp
    rw [AttrIndex.mem_foldl_lookup, or_iff_right (Finset.notMem_empty o)]
    constructor
    · rintro ⟨e, he, ho⟩
      obtain ⟨p, hp, hr⟩ := (AttrIndex.mem_lookup_build (hcomp e he).2 hpart (hcomp e he).1).mp ho
      refine ⟨p, hp, (heval p hp).mpr ?_⟩
      rw [representative, parts, hr]
      exact he
    · rintro ⟨p, hp, he⟩
      have hmem := (heval p hp).mp he
      exact ⟨_, hmem, (AttrIndex.mem_lookup_build (hcomp _ hmem).2 hpart (hcomp _ hmem).1).mpr
        ⟨p, hp, rfl⟩⟩
  · obtain ⟨e, he⟩ := List.exists_mem_of_ne_nil _ hne
    obtain ⟨o, ho⟩ := h.lookup_spurious hty hi (hinc e he)
    have hno : ¬ Answers docs key op w o := not_answers hnull fun v hv =>
      eval_member_incomparable hop hv.1 ((Value.isArray_of_typeOf (h.typeOf v hv)).trans hty)
        fun e he => hinc e he v (h.typeOf v hv)
    refine iff_of_false (Bounds.not_of_spurious
      (AttrIndex.mem_foldl_lookup.mpr (Or.inr ⟨e, he, ho⟩)) hno) (not_not_intro ?_)
    exact .memberIncomparable hop hw hne
      (fun e he ht => hc' e he (elementType_of_isArray hty ▸ ht)) hi

theorem Typed.bounds_range (hop : op.isRange = true) :
    Bounds docs.length (Answers docs key op w) ((attrIndexOf docs key).select op w) ↔
      ¬ Flaw docs key ty op w := by
  have hindexed := Op.isIndexed_of_isRange hop
  have heq : op ≠ .eq := by rintro rfl; cases hop
  have hmem : ¬ op.isMember = true := fun hm => by
    rw [Op.isRange_of_isMember hm] at hop
    cases hop
  rw [h.not_flaw_iff hty hindexed (fun he => absurd he heq) (fun hm => absurd hm hmem),
    AttrIndex.select_range hop, h.multiValued_eq hi, hty]
  cases hw : w.isNull with
  | true =>
      obtain rfl := Value.eq_null_of_isNull hw
      exact iff_of_true Bounds.none (h.eval_representative_null hty hindexed)
  | false =>
      rw [if_neg Bool.false_ne_true]
      refine h.bounds_pointwise hty (fun o => ?_) (eval_null hindexed fun _ => hw)
      rw [attrIndexOf, AttrIndex.mem_pickAll_build]
      refine exists_congr fun p => and_congr_right fun hp => ?_
      have hr := Value.isNull_of_typeOf (h.typeOf_representative hp)
      exact (Bool.eq_iff_iff.mp (eval_range hop hr hw)).symm

theorem Typed.bounds_contains :
    Bounds docs.length (Answers docs key .contains w)
      ((attrIndexOf docs key).select .contains w) ↔ ¬ Flaw docs key ty .contains w := by
  rw [h.not_flaw_iff hty rfl (fun he => by cases he) (fun hm => by cases hm)]
  simp only [AttrIndex.select, h.multiValued_eq hi, hty, Bool.false_eq_true, if_false]
  refine h.bounds_pointwise hty (fun o => ?_) (by rfl)
  rw [attrIndexOf, AttrIndex.mem_pickAll_build]
  refine exists_congr fun p => and_congr_right fun hp => ?_
  have hr := Value.isArray_of_typeOf (h.typeOf_representative hp)
  rw [elementType_of_isArray hty, hty] at hr
  exact (Bool.eq_iff_iff.mp (eval_contains_scalar hr)).symm

omit hi in
theorem Typed.bounds_match (hop : op.isMatch = true) :
    Bounds docs.length (Answers docs key op w) ((attrIndexOf docs key).select op w) ↔
      ¬ Flaw docs key ty op w := by
  have hindexed := Op.isIndexed_of_isMatch hop
  have heq : op ≠ .eq := by rintro rfl; cases hop
  have hmem : ¬ op.isMember = true := fun hm => by
    rw [Op.isMatch_of_isMember hm] at hop
    cases hop
  rw [h.not_flaw_iff hty hindexed (fun he => absurd he heq) (fun hm => absurd hm hmem)]
  rcases AttrIndex.selectPattern_cases (attrIndexOf docs key) hop w with ⟨hs, hf⟩ | hs
  · rw [hs]
    exact iff_of_true Bounds.none fun v _ => by rw [hf, hf]
  · rw [hs]
    refine h.bounds_pointwise hty (fun o => ?_) ?_
    · rw [attrIndexOf, AttrIndex.mem_pickAll_build]
      rfl
    · rw [eval_match hop]
      rfl

end Fckdb
