import Fckdb.IndexScalar
import Fckdb.IndexArray
import Mathlib.Data.Finset.Sort

/-! # The attribute index against the scan

Two evaluators of one filter language: `evaluate` over the attribute indexes of some documents and
`Filter.matches` over the documents. Whatever is built from comparisons without a `Flaw` is bounded by
what `evaluate` selects, and a comparison with one is not (`agrees_iff_flawless`). -/

namespace Fckdb

/-! ## The ordinals of a selection -/

/-- The ids `ids_matching` reads at the selected ordinals. -/
def idsAt (ids : List Id) (sel : Selection) : List Id :=
  (sel.ordinals.sort (· ≤ ·)).filterMap (ids[·]?)

/-- Picking the elements at ordinals is filtering, when the ordinals are those that pass. -/
theorem filterMap_getElem?_range {α : Type} (l : List α) (p : Nat → Bool) (q : α → Bool)
    (h : ∀ i a, l[i]? = some a → p i = q a) :
    ((List.range l.length).filter p).filterMap (l[·]?) = l.filter q := by
  induction l using List.reverseRecOn with
  | nil => rfl
  | append_singleton l a ih =>
      have hlast : (l ++ [a])[l.length]? = some a := by simp
      have hbefore : ((List.range l.length).filter p).filterMap ((l ++ [a])[·]?) =
          ((List.range l.length).filter p).filterMap (l[·]?) :=
        List.filterMap_congr fun i hi => by
          rw [List.getElem?_append_left (List.mem_range.mp (List.mem_filter.mp hi).1)]
      rw [List.length_append, List.length_singleton, List.range_succ, List.filter_append,
        List.filterMap_append, List.filter_append, hbefore, ih fun i b hb => h i b ?_]
      · rw [List.filter_singleton, List.filter_singleton, h _ _ hlast]
        cases q a <;> simp
      · rw [List.getElem?_append_left (List.getElem?_eq_some_iff.mp hb).1, hb]

/-- An exact selection of the documents that pass picks their ids in order. -/
theorem idsAt_eq {docs : List Doc} {sel : Selection} {q : Doc → Bool}
    (h : ∀ i, i ∈ sel.ordinals ↔ ∃ d, docs[i]? = some d ∧ q d = true) :
    idsAt (docs.map Doc.id) sel = (docs.filter q).map Doc.id := by
  have hset : sel.ordinals =
      ((List.range docs.length).filter fun i => decide (i ∈ sel.ordinals)).toFinset := by
    ext i
    rw [List.mem_toFinset, List.mem_filter, List.mem_range, decide_eq_true_eq, iff_and_self]
    intro hi
    obtain ⟨d, hd, -⟩ := (h i).mp hi
    exact (List.getElem?_eq_some_iff.mp hd).1
  have hsort : sel.ordinals.sort (· ≤ ·) =
      (List.range docs.length).filter fun i => decide (i ∈ sel.ordinals) := by
    conv_lhs => rw [hset]
    exact (List.toFinset_sort (· ≤ ·) (List.nodup_range.filter _)).mpr
      (List.pairwise_le_range.filter _)
  have hq : ∀ i d, docs[i]? = some d → decide (i ∈ sel.ordinals) = q d := fun i d hd => by
    rw [Bool.eq_iff_iff, decide_eq_true_eq, h]
    exact ⟨fun ⟨d', hd', hq'⟩ => Option.some.inj (hd'.symm.trans hd) ▸ hq', fun hq' => ⟨d, hd, hq'⟩⟩
  rw [idsAt, hsort, ← filterMap_getElem?_range docs _ q hq, List.map_filterMap]
  simp only [List.getElem?_map]

/-! ## The indexes of a segment -/

/-- Every value of a document has the type its attribute is declared with. -/
def Conforms (schema : SortedMap String Ty) (d : Doc) : Prop :=
  ∀ key v, d.attrs.get key = some v → v.isNull = false →
    ∃ ty, schema.get key = some ty ∧ v.typeOf = some ty

/-- The index of an attribute is there if the attribute is declared and indexes anything. -/
theorem get_attrIndexes (schema : SortedMap String Ty) {docs : List Doc}
    (hlen : docs.length < 2 ^ 32) (key : String) (x : AttrIndex) :
    (SortedMap.ofList (attrIndexes schema docs)).get key = some x ↔
      (∃ ty, schema.get key = some ty) ∧ Indexed docs key ∧ x = attrIndexOf docs key := by
  have hsorted := sorted_attrIndexes schema docs
  have hempty : (attrIndexOf docs key).isEmpty = false ↔ Indexed docs key := by
    rw [← parts_ne_nil hlen, ← not_iff_not, Bool.not_eq_false, attrIndexOf,
      AttrIndex.isEmpty_build, Ne, not_not]
    rfl
  rw [SortedMap.ofList, SortedMap.get_insertAll hsorted, SortedMap.get_empty, Option.or_none,
    SortedMap.lookupIn_eq_some_iff hsorted, attrIndexes, List.mem_filter, List.mem_map]
  simp only [Prod.mk.injEq, Bool.not_eq_true']
  constructor
  · rintro ⟨⟨a, ha, rfl, rfl⟩, he⟩
    obtain ⟨⟨k, ty⟩, hmem, rfl⟩ := List.mem_map.mp ha
    exact ⟨⟨ty, SortedMap.get_eq_some_iff.mpr hmem⟩, hempty.mp he, rfl⟩
  · rintro ⟨⟨ty, hty⟩, hi, rfl⟩
    exact ⟨⟨key, List.mem_map.mpr ⟨_, SortedMap.get_eq_some_iff.mp hty, rfl⟩, rfl, rfl⟩,
      hempty.mpr hi⟩

/-- The values of a declared attribute have its type, those of an undeclared one are null. -/
theorem Conforms.typed {schema : SortedMap String Ty} {docs : List Doc}
    (hlen : docs.length < 2 ^ 32) (hconf : ∀ d ∈ docs, Conforms schema d) {key : String} {ty : Ty}
    (hty : schema.get key = some ty) : Typed docs key ty := by
  refine ⟨hlen, fun v ⟨hn, d, hd, hget⟩ => ?_⟩
  obtain ⟨ty', hty', ht⟩ := hconf d hd key v hget hn
  obtain rfl := Option.some.inj (hty'.symm.trans hty)
  exact ht

/-! ## Built filters -/

/-- Filters built with `And`, `Or` and `Not` from a set of comparisons. -/
inductive Filter.BuiltFrom (L : String → Op → Value → Prop) : Filter → Prop
  | and {fs : List Filter} (h : ∀ f ∈ fs, BuiltFrom L f) : BuiltFrom L (.and fs)
  | or {fs : List Filter} (h : ∀ f ∈ fs, BuiltFrom L f) : BuiltFrom L (.or fs)
  | not {f : Filter} (h : BuiltFrom L f) : BuiltFrom L (.not f)
  | cmp {key : String} {op : Op} {w : Value} (h : L key op w) : BuiltFrom L (.cmp key op w)

theorem Filter.BuiltFrom.inter {L L' : String → Op → Value → Prop} {f : Filter}
    (h : f.BuiltFrom L) (h' : f.BuiltFrom L') :
    f.BuiltFrom fun key op w => L key op w ∧ L' key op w := by
  induction h with
  | and _ ih =>
      cases h' with
      | and h' => exact .and fun f hf => ih f hf (h' f hf)
  | or _ ih =>
      cases h' with
      | or h' => exact .or fun f hf => ih f hf (h' f hf)
  | not _ ih =>
      cases h' with
      | not h' => exact .not (ih h')
  | cmp h =>
      cases h' with
      | cmp h' => exact .cmp ⟨h, h'⟩

section

variable [Crates]

/-! ## One comparison -/

/-- **A comparison is bounded exactly when it has no flaw.** -/
theorem Typed.bounds_select_iff {docs : List Doc} {key : String} {ty : Ty} {op : Op} {w : Value}
    (h : Typed docs key ty) (hi : Indexed docs key)
    (hc : op.isIndexed = true → op.isMatch = true ∨ Coerced (op.target ty) w) :
    Bounds docs.length (Answers docs key op w) ((attrIndexOf docs key).select op w) ↔
      ¬ Flaw docs key ty op w := by
  cases hop : op.isIndexed with
  | false =>
      rw [AttrIndex.select_of_not_indexed hop]
      refine iff_of_true Bounds.none fun hf => ?_
      cases hf with
      | eqIncomparable | arrayIn | arrayContainsInts | arrayContainsList => cases hop
      | memberIncomparable hm => rw [Op.isIndexed_of_isMember hm] at hop; cases hop
      | memberNull hm => rw [Op.isIndexed_of_isMember hm] at hop; cases hop
      | arrayMatch hm => rw [Op.isIndexed_of_isMatch hm] at hop; cases hop
      | arrayRange hm => rw [Op.isIndexed_of_isRange hm] at hop; cases hop
      | nan hm => rw [hm] at hop; cases hop
  | true =>
      rcases Op.isIndexed_iff.mp hop with rfl | hr | hm | rfl | hm
      · have hc : Coerced ty w := (hc rfl).resolve_left nofun
        cases hty : ty.isArray with
        | true => exact h.bounds_eq_array hty hi
        | false => exact h.bounds_eq hty hi hc
      · cases hty : ty.isArray with
        | true =>
            have htarget : op.target ty = ty := by cases op <;> first | rfl | cases hr
            have hnot : ¬ op.isMatch = true := fun hm => by
              rw [Op.isRange_of_isMatch hm] at hr
              cases hr
            exact h.bounds_range_array hty hi hr (htarget ▸ (hc hop).resolve_left hnot)
        | false => exact h.bounds_range hty hi hr
      · have htarget : op.target ty = elementType ty := by cases op <;> first | rfl | cases hm
        have hnot : ¬ op.isMatch = true := fun hm' => by
          rw [Op.isMatch_of_isMember hm] at hm'
          cases hm'
        have hc : Coerced (elementType ty) w := htarget ▸ (hc hop).resolve_left hnot
        cases hw : w.isNull with
        | true =>
            obtain rfl := Value.eq_null_of_isNull hw
            exact h.bounds_member_null hi hm
        | false =>
            cases hty : ty.isArray with
            | true => exact h.bounds_member_array hty hm hc hw
            | false => exact h.bounds_member hty hi hm (elementType_of_isArray hty ▸ hc) hw
      · have hc : Coerced (elementType ty) w := (hc rfl).resolve_left nofun
        cases hty : ty.isArray with
        | true => exact h.bounds_contains_array hty hi hc
        | false => exact h.bounds_contains hty hi
      · cases hty : ty.isArray with
        | true => exact h.bounds_match_array hty hm
        | false => exact h.bounds_match hty hm

/-- A flaw needs an indexed value. -/
theorem Flaw.indexed {docs : List Doc} {key : String} {ty : Ty} {op : Op} {w : Value}
    (h : Typed docs key ty) (hf : Flaw docs key ty op w) : Indexed docs key := by
  have hpart : ∀ {v p : Value}, Holds docs key v → p ∈ indexParts v → Indexed docs key :=
    fun hv hp => ⟨_, hv, List.ne_nil_of_mem hp⟩
  cases hf with
  | eqIncomparable _ _ _ hi | memberIncomparable _ _ _ _ hi | memberNull _ _ _ hi => exact hi
  | arrayContainsList _ _ _ hi | arrayRange _ _ _ _ hi => exact hi
  | arrayIn _ hv he =>
      obtain ⟨e, -, he⟩ := List.any_eq_true.mp he
      obtain ⟨p, hp, -⟩ := List.any_eq_true.mp he
      exact hpart hv (by rw [Value.indexParts_eq_elements]; exact hp)
  | arrayContainsInts _ hv he => exact hpart hv he
  | arrayMatch _ _ hv hp => exact hpart hv hp
  | nan _ hty hv =>
      have ha := Value.isArray_of_typeOf (h.typeOf _ hv)
      rw [hty] at ha
      exact ⟨_, hv, by rw [Value.indexParts_of_isArray ha]; exact List.cons_ne_nil _ _⟩

/-! ## Filters -/

/-- The comparisons `Filter.coerce` makes of accepted ones. -/
def CoercedCmp (schema : SortedMap String Ty) (key : String) (op : Op) (w : Value) : Prop :=
  ∃ w₀, Filter.coerceCmp schema key op w₀ = .ok w

theorem Filter.coerceAll_forall₂ {schema : SortedMap String Ty} {fs₀ fs : List Filter}
    (h : coerceAll schema fs₀ = .ok fs) :
    List.Forall₂ (fun f₀ f => coerce schema f₀ = .ok f) fs₀ fs := by
  induction fs₀ generalizing fs with
  | nil =>
      obtain rfl := Except.ok.inj h
      exact .nil
  | cons f₀ fs₀ ih =>
      simp only [coerceAll] at h
      cases hf : coerce schema f₀ with
      | error e => rw [hf] at h; cases h
      | ok f =>
          cases hfs : coerceAll schema fs₀ with
          | error e => rw [hf, hfs] at h; cases h
          | ok fs' =>
              rw [hf, hfs] at h
              obtain rfl := Except.ok.inj h
              exact .cons hf (ih hfs)

/-- An accepted filter is built from coerced comparisons. -/
theorem Filter.coerce_builtFrom {schema : SortedMap String Ty} (f₀ : Filter) {f : Filter}
    (h : f₀.coerce schema = .ok f) : f.BuiltFrom (CoercedCmp schema) := by
  have hall : ∀ fs₀ : List Filter, (∀ f₀ ∈ fs₀, ∀ f, f₀.coerce schema = .ok f →
      f.BuiltFrom (CoercedCmp schema)) → ∀ fs, coerceAll schema fs₀ = .ok fs →
      ∀ f ∈ fs, f.BuiltFrom (CoercedCmp schema) := fun fs₀ ih fs hfs f hf => by
    obtain ⟨i, hi, rfl⟩ := List.getElem_of_mem hf
    have hr := Filter.coerceAll_forall₂ hfs
    have hi₀ : i < fs₀.length := hr.length_eq ▸ hi
    exact ih _ (List.getElem_mem hi₀) _ ((List.forall₂_iff_get.mp hr).2 i hi₀ hi)
  induction f₀ using Filter.induct generalizing f with
  | and fs₀ ih =>
      rw [coerce] at h
      obtain ⟨fs, hfs, rfl⟩ := map_eq_ok.mp h
      exact .and (hall fs₀ (fun f₀ hf₀ f => ih f₀ hf₀) fs hfs)
  | or fs₀ ih =>
      rw [coerce] at h
      obtain ⟨fs, hfs, rfl⟩ := map_eq_ok.mp h
      exact .or (hall fs₀ (fun f₀ hf₀ f => ih f₀ hf₀) fs hfs)
  | not f₀ ih =>
      rw [coerce] at h
      obtain ⟨f', hf', rfl⟩ := map_eq_ok.mp h
      exact .not (ih hf')
  | cmp key op w₀ =>
      rw [coerce] at h
      obtain ⟨w, hw, rfl⟩ := map_eq_ok.mp h
      exact .cmp ⟨w₀, hw⟩

/-- The documents a filter matches, by ordinal. -/
def MatchesAt (fts : FtsSchema) (docs : List Doc) (f : Filter) (i : Nat) : Prop :=
  ∃ d, docs[i]? = some d ∧ f.matches d.attrs fts = true

/-- The connectives keep bounds, so what bounds the comparisons bounds the filter. -/
theorem Filter.BuiltFrom.bounds {indexes : SortedMap String AttrIndex} {fts : FtsSchema}
    {docs : List Doc} {L : String → Op → Value → Prop}
    (hL : ∀ key op w, L key op w → Bounds docs.length (MatchesAt fts docs (.cmp key op w))
      (evaluate indexes docs.length (.cmp key op w))) {f : Filter} (hf : f.BuiltFrom L) :
    Bounds docs.length (MatchesAt fts docs f) (evaluate indexes docs.length f) := by
  have hall : ∀ fs : List Filter, (∀ f ∈ fs, Bounds docs.length (MatchesAt fts docs f)
      (evaluate indexes docs.length f)) → List.Forall₂ (Bounds docs.length)
      (fs.map (MatchesAt fts docs)) (evaluateAll indexes docs.length fs) := fun fs ih => by
    rw [evaluateAll_eq, List.forall₂_map_left_iff, List.forall₂_map_right_iff, List.forall₂_same]
    exact ih
  induction hf with
  | @and fs _ ih =>
      rw [evaluate]
      refine (Bounds.intersect (hall fs ih)).congr fun i hi => ?_
      simp only [List.forall_mem_map, MatchesAt, «matches», matchesAll_eq, List.all_eq_true,
        List.getElem?_eq_getElem hi, Option.some.injEq, exists_eq_left']
  | @or fs _ ih =>
      rw [evaluate]
      refine (Bounds.union (hall fs ih)).congr fun i hi => ?_
      simp only [List.mem_map, exists_exists_and_eq_and, MatchesAt, «matches», matchesAny_eq,
        List.any_eq_true, List.getElem?_eq_getElem hi, Option.some.injEq, exists_eq_left']
  | @not f _ ih =>
      rw [evaluate]
      refine ih.complement.congr fun i hi => ?_
      simp only [MatchesAt, «matches», List.getElem?_eq_getElem hi, Option.some.injEq,
        exists_eq_left', Bool.not_eq_true', Bool.not_eq_true]
  | cmp h => exact hL _ _ _ h

/-- What `evaluate` selects on the indexes of some documents agrees with the scan: the selection
holds every match and, if exact, only matches, so that the ids it picks are those of the scan. -/
def Agrees (schema : SortedMap String Ty) (fts : FtsSchema) (docs : List Doc) (f : Filter) : Prop :=
  ∀ sel, evaluate (.ofList (attrIndexes schema docs)) (asU32 docs.length) f = some sel →
    (∀ i d, docs[i]? = some d → f.matches d.attrs fts = true → i ∈ sel.ordinals) ∧
      (sel.exact = true →
        (∀ i ∈ sel.ordinals, ∃ d, docs[i]? = some d ∧ f.matches d.attrs fts = true) ∧
        idsAt (docs.map Doc.id) sel = (docs.filter fun d => f.matches d.attrs fts).map Doc.id)

/-- Agreement is the selection's bounding the matches. -/
theorem agrees_iff_bounds {schema : SortedMap String Ty} {fts : FtsSchema} {docs : List Doc}
    (hlen : docs.length < 2 ^ 32) {f : Filter} : Agrees schema fts docs f ↔
      Bounds docs.length (MatchesAt fts docs f)
        (evaluate (.ofList (attrIndexes schema docs)) docs.length f) := by
  rw [Agrees, asU32_of_lt hlen]
  refine forall_congr' fun sel => imp_congr_right fun _ => ⟨?_, ?_⟩
  · rintro ⟨hsup, hex⟩
    refine ⟨fun i _ ⟨d, hd, hm⟩ => hsup i d hd hm, fun he i hi => ?_⟩
    obtain ⟨d, hd, hm⟩ := (hex he).1 i hi
    exact ⟨(List.getElem?_eq_some_iff.mp hd).1, d, hd, hm⟩
  · rintro ⟨hsup, hex⟩
    have hsup' : ∀ i d, docs[i]? = some d → f.matches d.attrs fts = true → i ∈ sel.ordinals :=
      fun i d hd hm => hsup i (List.getElem?_eq_some_iff.mp hd).1 ⟨d, hd, hm⟩
    refine ⟨hsup', fun he => ⟨fun i hi => (hex he i hi).2, idsAt_eq fun i => ?_⟩⟩
    exact ⟨fun hi => (hex he i hi).2, fun ⟨d, hd, hm⟩ => hsup' i d hd hm⟩

/-- One accepted comparison is bounded exactly when it has no flaw. -/
theorem bounds_cmp_iff {schema : SortedMap String Ty} {fts : FtsSchema} {docs : List Doc}
    (hlen : docs.length < 2 ^ 32) (hconf : ∀ d ∈ docs, Conforms schema d) {key : String} {op : Op}
    {w : Value} (hc : CoercedCmp schema key op w) :
    Bounds docs.length (MatchesAt fts docs (.cmp key op w))
        (evaluate (.ofList (attrIndexes schema docs)) docs.length (.cmp key op w)) ↔
      ∀ ty, schema.get key = some ty → ¬ Flaw docs key ty op w := by
  rw [evaluate]
  cases hx : (SortedMap.ofList (attrIndexes schema docs)).get key with
  | none =>
      refine iff_of_true Bounds.none fun ty hty hf => ?_
      have hi := hf.indexed (Conforms.typed hlen hconf hty)
      rw [(get_attrIndexes schema hlen key _).mpr ⟨⟨ty, hty⟩, hi, rfl⟩] at hx
      cases hx
  | some x =>
      obtain ⟨⟨ty, hty⟩, hi, rfl⟩ := (get_attrIndexes schema hlen key x).mp hx
      obtain ⟨w₀, hw₀⟩ := hc
      have hiff := (Conforms.typed hlen hconf hty).bounds_select_iff hi
        (fun hop => coerceCmp_coerced hty hop hw₀)
      have hall : (∀ ty', schema.get key = some ty' → ¬ Flaw docs key ty' op w) ↔
          ¬ Flaw docs key ty op w :=
        ⟨fun h => h ty hty, fun h ty' hty' => Option.some.inj (hty.symm.trans hty') ▸ h⟩
      rw [hall, ← hiff, Option.bind_some]
      -- full-text operators are evaluated elsewhere, and never answered by this index
      cases hft : op.isFullText with
      | true =>
          have hop : op.isIndexed = false := by cases op <;> first | rfl | cases hft
          rw [AttrIndex.select_of_not_indexed hop]
          exact iff_of_true Bounds.none Bounds.none
      | false =>
          have hm : MatchesAt fts docs (.cmp key op w) = Answers docs key op w := by
            funext i
            simp [MatchesAt, Answers, Filter.matches, matchesCmp, hft]
          rw [hm]

/-- **The index agrees with the scan exactly away from the flaws.** For documents that conform to a
schema and any set of comparisons: every accepted filter built from them agrees with the scan if and
only if none of them has a flaw. -/
theorem agrees_iff_flawless (schema : SortedMap String Ty) (fts : FtsSchema) (docs : List Doc)
    (hlen : docs.length < 2 ^ 32) (hconf : ∀ d ∈ docs, Conforms schema d)
    (L : String → Op → Value → Prop) :
    (∀ f₀ f : Filter, f₀.coerce schema = .ok f → f.BuiltFrom L → Agrees schema fts docs f) ↔
      ∀ key op w₀ w ty, Filter.coerceCmp schema key op w₀ = .ok w → L key op w →
        schema.get key = some ty → ¬ Flaw docs key ty op w := by
  constructor
  · intro h key op w₀ w ty hw hL hty
    have hcoerce : (Filter.cmp key op w₀).coerce schema = .ok (.cmp key op w) := by
      rw [Filter.coerce, hw]
      rfl
    have hb := (agrees_iff_bounds hlen).mp (h _ _ hcoerce (.cmp hL))
    exact (bounds_cmp_iff hlen hconf ⟨w₀, hw⟩).mp hb ty hty
  · intro h f₀ f hf hL
    rw [agrees_iff_bounds hlen]
    refine ((Filter.coerce_builtFrom f₀ hf).inter hL).bounds ?_
    rintro key op w ⟨⟨w₀, hw⟩, hw'⟩
    exact (bounds_cmp_iff hlen hconf ⟨w₀, hw⟩).mpr fun ty hty => h key op w₀ w ty hw hw' hty

end

/-! ## A flaw and a flawless filter -/

/-- A document with one tag, in a schema where tags are strings. -/
def tagged (id : UInt64) (v : Value) : Doc := ⟨.uint id, [], SortedMap.empty.insert "tag" v⟩

theorem conforms_tagged {id : UInt64} {v : Value} {ty : Ty} (h : v.typeOf = some ty) :
    Conforms (SortedMap.empty.insert "tag" ty) (tagged id v) := by
  intro key v' hv' _
  rw [tagged, SortedMap.get_insert] at hv'
  rw [SortedMap.get_insert]
  split_ifs at hv' ⊢ with hk
  · obtain rfl := Option.some.inj hv'
    exact ⟨ty, rfl, h⟩
  · cases hv'

/-- **A document is picked that does not match**: `In` finds the element of an array in the index,
while the scan compares the whole array. -/
theorem arrayIn_not_agrees :
    let _ := Crates.inert
    let schema : SortedMap String Ty := SortedMap.empty.insert "tag" .stringArray
    let docs := [tagged 1 (.stringArray ["red"])]
    let f := Filter.cmp "tag" .in (.stringArray ["red"])
    (∀ d ∈ docs, Conforms schema d) ∧ f.coerce schema = .ok f ∧
      evaluate (.ofList (attrIndexes schema docs)) 1 f = some ⟨{0}, true⟩ ∧
      docs.all (fun d => f.matches d.attrs .empty) = false ∧ ¬ Agrees schema .empty docs f := by
  intro _ schema docs f
  have hconf : ∀ d ∈ docs, Conforms schema d := fun d hd => by
    obtain rfl := List.mem_singleton.mp hd
    exact conforms_tagged rfl
  have heval : evaluate (.ofList (attrIndexes schema docs)) 1 f = some ⟨{0}, true⟩ := by
    decide
  have hno : docs.all (fun d => f.matches d.attrs .empty) = false := by decide
  refine ⟨hconf, by rfl, heval, hno, fun h => ?_⟩
  obtain ⟨d, hd, hm⟩ := ((h _ heval).2 rfl).1 0 (Finset.mem_singleton_self 0)
  obtain ⟨d', hd', hm'⟩ := List.all_eq_false.mp hno
  obtain rfl := List.mem_singleton.mp hd'
  obtain rfl := Option.some.inj hd
  exact hm' hm

/-- Documents that are not red are picked by the index as by the scan. -/
theorem notRed_agrees :
    let _ := Crates.inert
    Agrees (SortedMap.empty.insert "tag" .string) .empty
      [tagged 1 (.string "red"), tagged 2 (.string "green")]
      (.not (.cmp "tag" .eq (.string "red"))) := by
  intro _
  have hconf : ∀ d ∈ [tagged 1 (.string "red"), tagged 2 (.string "green")],
      Conforms (SortedMap.empty.insert "tag" .string) d := fun d hd => by
    rcases List.mem_pair.mp hd with rfl | rfl <;> exact conforms_tagged rfl
  refine (agrees_iff_flawless _ .empty _ (by decide) hconf
    fun key op w => key = "tag" ∧ op = .eq ∧ w = .string "red").mpr ?_
      (.not (.cmp "tag" .eq (.string "red"))) _ rfl (.not (.cmp ⟨rfl, rfl, rfl⟩))
  rintro key op w₀ w ty - ⟨rfl, rfl, rfl⟩ hty hf
  obtain rfl := Option.some.inj hty
  cases hf with
  | eqIncomparable _ _ hc => cases hc rfl
  | memberIncomparable hm => cases hm
  | arrayMatch hm => cases hm
  | arrayRange hm => cases hm
  | nan _ hty => cases hty

end Fckdb
