import Fckdb.IndexParts

/-! # One comparison against the index

`AttrIndex.select` answers one comparison. Over documents that conform to a schema the answer bounds
the documents whose value satisfies the comparison, except where the comparison has a `Flaw`: the
exact list of the kinds of comparison on which the index and the scan part. -/

namespace Fckdb

variable [Crates]

/-- **The comparisons on which the index and the scan part**, for an attribute declared `ty`. -/
inductive Flaw (docs : List Doc) (key : String) (ty : Ty) : Op → Value → Prop
  /-- Equality with a value that compares with no stored one hits an arbitrary entry. -/
  | eqIncomparable {w : Value} (hty : ty.isArray = false) (hw : w.isNull = false)
      (hc : w.typeOf = some ty → ty = .sparseF16) (hi : Indexed docs key) : Flaw docs key ty .eq w
  /-- So does membership in a list of such values. -/
  | memberIncomparable {op : Op} {w : Value} (hop : op.isMember = true) (hw : w.isNull = false)
      (hne : w.elements ≠ []) (hc : ∀ e ∈ w.elements, e.typeOf = some (elementType ty) → ty = .sparseF16)
      (hi : Indexed docs key) : Flaw docs key ty op w
  /-- An absent value is a member of null, but is not indexed. -/
  | memberNull {op : Op} {d : Doc} (hop : op.isMember = true) (hd : d ∈ docs)
      (hget : ((d.attrs.get key).getD .null).isNull = true) (hi : Indexed docs key) :
      Flaw docs key ty op .null
  /-- `In` compares a whole array with the operand's elements, the index its elements. -/
  | arrayIn {w v : Value} (hty : ty.isArray = true) (hv : Holds docs key v)
      (he : containsAny v w = true) : Flaw docs key ty .in w
  /-- `Contains` does not look into signed arrays, the index does. -/
  | arrayContainsInts {w v : Value} (hty : ty = .intArray) (hv : Holds docs key v)
      (he : w ∈ indexParts v) : Flaw docs key ty .contains w
  /-- No element compares with a list. -/
  | arrayContainsList {w : Value} (hty : ty.isArray = true) (hw : w.isNull = false)
      (hc : w.typeOf ≠ some (elementType ty)) (hi : Indexed docs key) : Flaw docs key ty .contains w
  /-- A pattern is matched with no array, but with the elements in the index. -/
  | arrayMatch {op : Op} {w v p : Value} (hop : op.isMatch = true) (hty : ty.isArray = true)
      (hv : Holds docs key v) (hp : p ∈ indexParts v) (he : eval p op w = true) :
      Flaw docs key ty op w
  /-- A range compares whole arrays, the index their elements. -/
  | arrayRange {op : Op} {w v : Value} (hop : op.isRange = true) (hty : ty.isArray = true)
      (hv : Holds docs key v) (he : eval v op w = true) (hi : Indexed docs key) :
      Flaw docs key ty op w
  /-- NaNs share an entry though their total order tells them apart. -/
  | nan {op : Op} {w v : Value} (hop : op.isIndexed = true) (hty : ty = .f64)
      (hv : Holds docs key v) (he : eval v op w ≠ eval (representative docs key v) op w) :
      Flaw docs key ty op w

/-- The documents whose value satisfies a comparison. -/
def Answers (docs : List Doc) (key : String) (op : Op) (w : Value) (i : Nat) : Prop :=
  ∃ d, docs[i]? = some d ∧ eval ((d.attrs.get key).getD .null) op w = true

/-- Where an absent value does not answer, an answer is a value that does. -/
theorem answers_iff {docs : List Doc} {key : String} {op : Op} {w : Value} {o : Nat}
    (hnull : eval .null op w = false) : Answers docs key op w o ↔ ∃ d v, docs[o]? = some d ∧
      d.attrs.get key = some v ∧ v.isNull = false ∧ eval v op w = true := by
  constructor
  · rintro ⟨d, ho, he⟩
    cases hget : d.attrs.get key with
    | none =>
        rw [hget, Option.getD_none, hnull] at he
        cases he
    | some v =>
        rw [hget, Option.getD_some] at he
        cases hn : v.isNull with
        | true =>
            rw [Value.eq_null_of_isNull hn, hnull] at he
            cases he
        | false => exact ⟨d, v, ho, hget, hn, he⟩
  · rintro ⟨d, v, ho, hget, -, he⟩
    exact ⟨d, ho, by rw [hget]; exact he⟩

/-- Where no value answers, nothing does. -/
theorem not_answers {docs : List Doc} {key : String} {op : Op} {w : Value} {o : Nat}
    (hnull : eval .null op w = false) (hv : ∀ v, Holds docs key v → eval v op w = false) :
    ¬ Answers docs key op w o := by
  rw [answers_iff hnull]
  rintro ⟨d, v, ho, hget, hn, he⟩
  rw [hv v ⟨hn, d, List.mem_of_getElem? ho, hget⟩] at he
  cases he

namespace Bounds

variable {n : Nat} {m : Nat → Prop} {S : Finset Nat}

omit [Crates] in
theorem exact_iff : Bounds n m (some ⟨S, true⟩) ↔
    (∀ i, i < n → m i → i ∈ S) ∧ ∀ i ∈ S, i < n ∧ m i := by
  constructor
  · intro h
    obtain ⟨hsup, hex⟩ := h _ rfl
    exact ⟨hsup, hex rfl⟩
  · rintro ⟨hsup, hex⟩ s hs
    obtain rfl := Option.some.inj hs
    exact ⟨hsup, fun _ => hex⟩

omit [Crates] in
/-- An exact selection of something that is not there bounds nothing. -/
theorem not_of_spurious {i : Nat} (hi : i ∈ S) (hm : ¬ m i) : ¬ Bounds n m (some ⟨S, true⟩) :=
  fun h => hm ((exact_iff.mp h).2 i hi).2

end Bounds

/-! ## Evaluating one operator -/

section Eval

variable {v w : Value} {op : Op} {ty : Ty}

/-- An indexable operator holds of no absent value, unless it tests membership of null. -/
theorem eval_null (hop : op.isIndexed = true) (hw : op = .eq ∨ op.isMember = true → w.isNull = false) :
    eval .null op w = false := by
  have hne : w.isNull = false → Value.equals .null w = false := fun h => by
    rw [Value.equals, h]; rfl
  have helem : w.isNull = false → w.elements.any (Value.equals .null) = false := fun h => by
    refine List.any_eq_false.mpr fun e he => ?_
    obtain ⟨ty, hty⟩ := Value.isNull_eq_false_iff.mp h
    have hn := Value.isNull_of_typeOf (Value.typeOf_elements hty he)
    rw [Value.equals, hn]
    simp [Value.isNull]
  cases op with
  | eq => exact hne (hw (Or.inl rfl))
  | «in» => exact helem (hw (Or.inr rfl))
  | containsAny =>
      rw [eval, containsAny, ← helem (hw (Or.inr rfl))]
      refine List.any_congr rfl fun e => ?_
      simp [Value.elements]
  | gt | gte | lt | lte | contains | glob | iGlob | regex => rfl
  | _ => cases hop

/-- Nothing but null satisfies a comparison with null. -/
theorem eval_with_null (hop : op.isIndexed = true) (hv : v.isNull = false) :
    eval v op .null = false := by
  have hne : ∀ x : Value, x.isNull = false → x.equals .null = false := fun x hx => by
    rw [Value.equals, hx]; rfl
  have helem : ∀ x ∈ v.elements, x.isNull = false := fun x hx => by
    obtain ⟨ty, hty⟩ := Value.isNull_eq_false_iff.mp hv
    exact Value.isNull_of_typeOf (Value.typeOf_elements hty hx)
  cases op with
  | eq => exact hne v hv
  | «in» => simp [eval, Value.elements, hne v hv]
  | containsAny =>
      simp only [eval, containsAny, Value.elements, List.any_cons, List.any_nil, Bool.or_false]
      exact List.any_eq_false.mpr fun x hx => by simp [hne x (helem x hx)]
  | gt | gte | lt | lte => simp [eval, evalRange, Value.isNull]
  | contains =>
      have hany : v.elements.any (·.equals .null) = false :=
        List.any_eq_false.mpr fun x hx => by simp [hne x (helem x hx)]
      simp only [eval]
      unfold contains
      split
      · exact hany
      · exact hany
      · cases v.asText <;> rfl
  | glob | iGlob | regex => simp only [eval, matchesPattern]; cases v.asText <;> rfl
  | _ => cases hop

/-- A range operator compares. -/
theorem eval_range (hop : op.isRange = true) (hv : v.isNull = false) (hw : w.isNull = false) :
    eval v op w = ((v.compare w).map op.accepts).getD false := by
  have h : eval v op w = evalRange v w op.accepts := by cases op <;> first | rfl | cases hop
  rw [h, evalRange, hv, hw]
  cases v.compare w <;> rfl

/-- Membership in a list of values of the stored type is membership. -/
theorem eval_member (hop : op.isMember = true) (hv : v.typeOf = some ty) (hty : ty.isArray = false)
    (hw : ∀ e ∈ w.elements, e.typeOf = some ty ∧ ty ≠ .sparseF16) :
    eval v op w = true ↔ v ∈ w.elements := by
  have hany : w.elements.any (v.equals ·) = true ↔ v ∈ w.elements := by
    rw [List.any_eq_true]
    constructor
    · rintro ⟨e, he, h⟩
      exact (Value.equals_iff (hw e he).2 hv (hw e he).1).mp h ▸ he
    · intro h
      exact ⟨v, h, (Value.equals_iff (hw v h).2 hv hv).mpr rfl⟩
  have helem : v.elements = [v] :=
    Value.elements_of_isArray ((Value.isArray_of_typeOf hv).trans hty)
  cases op with
  | «in» => exact hany
  | containsAny => simpa [eval, containsAny, helem] using hany
  | _ => cases hop

/-- No value is a member of a list it compares with no element of. -/
theorem eval_member_incomparable (hop : op.isMember = true) (hv : v.isNull = false)
    (ha : v.isArray = false) (hw : ∀ e ∈ w.elements, v.compare e = none) : eval v op w = false := by
  have hne : ∀ e ∈ w.elements, v.equals e = false := fun e he =>
    Value.equals_of_compare hv (hw e he)
  cases op with
  | «in» => exact List.any_eq_false.mpr fun e he => by simp [hne e he]
  | containsAny =>
      refine List.any_eq_false.mpr fun e he => ?_
      simp [Value.elements_of_isArray ha, hne e he]
  | _ => cases hop

/-- `Contains` on anything but an array looks for text. -/
theorem eval_contains_scalar (hv : v.isArray = false) :
    eval v .contains w = match v.asText, w.asText with
      | some h, some n => hasSubstring h n
      | _, _ => false := by
  simp only [eval]
  unfold contains
  cases v <;> first | rfl | cases hv

/-- A pattern operator needs the text of both sides and a pattern that compiles. -/
theorem eval_match (hop : op.isMatch = true) : eval v op w = matchesPattern op v w := by
  cases op <;> first | rfl | cases hop

/-- Sparse vectors satisfy no indexable operator. -/
theorem eval_sparse (hop : op.isIndexed = true) (hv : v.typeOf = some .sparseF16) :
    eval v op w = false := by
  have hn := Value.isNull_of_typeOf hv
  have hne : ∀ x : Value, v.equals x = false := fun x => by
    cases hx : x.isNull with
    | true => rw [Value.equals, hn, hx]; rfl
    | false => exact Value.equals_of_compare hn (Value.compare_sparse hv hx)
  have helem : v.elements = [v] := Value.elements_of_isArray (Value.isArray_of_typeOf hv)
  have htext : v.asText = none := by cases v <;> first | rfl | cases hv
  cases op with
  | eq => exact hne w
  | «in» => simp [eval, hne]
  | containsAny => simp [eval, containsAny, helem, hne]
  | gt | gte | lt | lte =>
      cases hw : w.isNull with
      | true => simp [eval, evalRange, hw]
      | false => simp [eval, evalRange, Value.compare_sparse hv hw]
  | contains =>
      rw [eval_contains_scalar (Value.isArray_of_typeOf hv), htext]
  | glob | iGlob | regex => simp only [eval, matchesPattern, htext]
  | _ => cases hop

end Eval

/-! ## Selecting -/

namespace AttrIndex

omit [Crates] in
/-- The union of the look-ups of some elements. -/
theorem mem_foldl_lookup {x : AttrIndex} {ws : List Value} {S : Finset Nat} {o : Nat} :
    o ∈ ws.foldl (fun acc w => acc ∪ x.lookup w) S ↔ o ∈ S ∨ ∃ w ∈ ws, o ∈ x.lookup w := by
  induction ws generalizing S with
  | nil => simp
  | cons w ws ih => rw [List.foldl_cons, ih, Finset.mem_union]; simp [or_assoc]

variable {x : AttrIndex} {op : Op} {w : Value}

theorem select_of_not_indexed (hop : op.isIndexed = false) : x.select op w = none := by
  cases op <;> first | rfl | cases hop

theorem select_range (hop : op.isRange = true) :
    x.select op w = if w.isNull then none
      else some ⟨x.pickAll fun v => ((v.compare w).map op.accepts).getD false, !x.multiValued⟩ := by
  cases op <;> first | rfl | cases hop

theorem select_member (hop : op.isMember = true) :
    x.select op w = some ⟨w.elements.foldl (fun acc w => acc ∪ x.lookup w) ∅, true⟩ := by
  cases op <;> first | rfl | cases hop

theorem select_match (hop : op.isMatch = true) : x.select op w = x.selectPattern op w := by
  cases op <;> first | rfl | cases hop

/-- A pattern operator is not answered, and then holds of nothing, or picks what it matches. -/
theorem selectPattern_cases (x : AttrIndex) (hop : op.isMatch = true) (w : Value) :
    (x.select op w = none ∧ ∀ v, eval v op w = false) ∨
      x.select op w = some ⟨x.pickAll fun v => eval v op w, true⟩ := by
  rw [select_match hop, selectPattern]
  simp only [eval_match hop, matchesPattern]
  cases w.asText with
  | none => exact Or.inl ⟨rfl, fun v => by cases v.asText <;> rfl⟩
  | some pattern =>
      cases hre : op.matcher pattern with
      | none => exact Or.inl ⟨by simp [hre], fun v => by cases v.asText <;> simp [hre]⟩
      | some re =>
          refine Or.inr ?_
          simp only [Option.bind_eq_bind, Option.bind_some, hre]
          congr 3
          funext v
          cases v.asText <;> simp [hre]

end AttrIndex

/-- Membership of null is answered with nothing, and holds of the absent values. -/
theorem Typed.bounds_member_null {docs : List Doc} {key : String} {ty : Ty}
    (h : Typed docs key ty) (hi : Indexed docs key) {op : Op} (hop : op.isMember = true) :
    Bounds docs.length (Answers docs key op .null) ((attrIndexOf docs key).select op .null) ↔
      ¬ Flaw docs key ty op .null := by
  have hindexed := Op.isIndexed_of_isMember hop
  have hlook : (attrIndexOf docs key).lookup .null = ∅ :=
    AttrIndex.lookup_null fun q hq => Value.isNull_of_typeOf (h.typeOf_part hq)
  have hans : ∀ o, Answers docs key op .null o ↔
      ∃ d, docs[o]? = some d ∧ ((d.attrs.get key).getD .null).isNull = true := fun o => by
    refine exists_congr fun d => and_congr_right fun _ => ?_
    cases hn : ((d.attrs.get key).getD .null).isNull with
    | true =>
        rw [Value.eq_null_of_isNull hn]
        refine iff_of_true ?_ rfl
        cases op <;> first | rfl | cases hop
    | false => simp [eval_with_null hindexed hn]
  have hsel : ∀ o, o ∉ Value.null.elements.foldl
      (fun acc w => acc ∪ (attrIndexOf docs key).lookup w) ∅ := fun o ho => by
    rcases AttrIndex.mem_foldl_lookup.mp ho with ho | ⟨w, hw, ho⟩
    · exact absurd ho (Finset.notMem_empty o)
    · rw [List.mem_singleton.mp hw, hlook] at ho
      exact absurd ho (Finset.notMem_empty o)
  rw [AttrIndex.select_member hop, Bounds.exact_iff]
  simp only [hsel, hans]
  constructor
  · rintro ⟨hno, -⟩ hf
    cases hf with
    | eqIncomparable _ hw => cases hw
    | memberIncomparable _ hw => cases hw
    | memberNull _ hd hget =>
        obtain ⟨o, ho⟩ := List.mem_iff_getElem?.mp hd
        exact hno o (List.getElem?_eq_some_iff.mp ho).1 ⟨_, ho, hget⟩
    | arrayIn _ hv he =>
        have hf : eval _ .containsAny .null = false := eval_with_null rfl hv.1
        rw [eval, he] at hf
        cases hf
    | arrayContainsInts => cases hop
    | arrayContainsList => cases hop
    | arrayMatch hm => rw [Op.isMatch_of_isMember hop] at hm; cases hm
    | arrayRange hr => rw [Op.isRange_of_isMember hop] at hr; cases hr
    | nan _ hty hv he =>
        obtain ⟨hn, d, hd, hget⟩ := hv
        obtain ⟨o, ho⟩ := List.mem_iff_getElem?.mp hd
        have hr := h.typeOf_representative
          ((h.mem_parts_scalar (hty ▸ rfl)).mpr ⟨d, ho, hget, hn⟩)
        exact he (by rw [eval_with_null hindexed hn,
          eval_with_null hindexed (Value.isNull_of_typeOf hr)])
  · rintro hno
    refine ⟨fun o _ ⟨d, ho, hget⟩ => hno (.memberNull hop (List.mem_of_getElem? ho) hget hi),
      fun o ho => ho.elim⟩

end Fckdb
