import Fckdb.Aggregate
import Fckdb.FilterIndex
import Fckdb.Lib.Best
import Mathlib.Data.Prod.Lex

/-! # Group keys

A document belongs to the groups of its key tuples: one value for each group key, of an array each of its
elements. `expand_keys` lists these tuples, each once (`mem_expandKeys`, `nodup_expandKeys`), and the order
that groups are kept in is linear on the tuples of documents that conform to a schema, but for sparse
vectors, which it does not tell apart (`exists_tupleKey`). -/

namespace Fckdb

/-- The document has this value for the key: that of the attribute; for an array taken apart, each of its
elements, and null if there is none. -/
def GroupKey.Has (key : GroupKey) (attrs : Attrs) (v : Value) : Prop :=
  let raw := (attrs.get key.attributeName).getD .null
  match key with
  | .attr _ => v = raw
  | .forEachUnique _ =>
    if raw.isNull = true ∨ raw.elements = [] then v = .null else v ∈ raw.elements

/-- The document belongs to the group of a tuple. -/
def Belongs (groupBy : List GroupKey) (attrs : Attrs) (tuple : List Value) : Prop :=
  List.Forall₂ (fun (key : GroupKey) v => key.Has attrs v) groupBy tuple

/-! ## Types of keys -/

/-- Null, or a value of the type. -/
def NullOr (ty : Ty) (v : Value) : Prop := v = .null ∨ v.typeOf = some ty

/-- Both are sparse vectors. -/
def BothSparse (v w : Value) : Prop := v.typeOf = some .sparseF16 ∧ w.typeOf = some .sparseF16

/-- The type of the values that a key has. -/
def GroupKey.ty (key : GroupKey) (schema : SortedMap String Ty) : Ty :=
  let declared := (schema.get key.attributeName).getD .bool
  match key with
  | .attr _ => declared
  | .forEachUnique _ => elementType declared

/-- An attribute of a conforming document is null or of its type. -/
theorem Conforms.nullOr {schema : SortedMap String Ty} {d : Doc} (h : Conforms schema d) (name : String) :
    NullOr ((schema.get name).getD .bool) ((d.attrs.get name).getD .null) := by
  cases hget : d.attrs.get name with
  | none => exact .inl rfl
  | some v =>
      cases hnull : v.isNull with
      | true => exact .inl (Value.eq_null_of_isNull hnull)
      | false =>
          obtain ⟨ty, hty, htype⟩ := h name v hget hnull
          rw [hty]
          exact .inr htype

theorem GroupKey.Has.nullOr {schema : SortedMap String Ty} {d : Doc} (h : Conforms schema d)
    {key : GroupKey} {v : Value} (hv : key.Has d.attrs v) : NullOr (key.ty schema) v := by
  cases key with
  | attr name =>
      obtain rfl : v = _ := hv
      exact h.nullOr name
  | forEachUnique name =>
      rw [GroupKey.Has] at hv
      split_ifs at hv with hnone
      · exact .inl hv
      · rcases h.nullOr name with hnull | htype
        · rw [GroupKey.attributeName, hnull] at hnone
          exact absurd (.inl rfl) hnone
        · exact .inr (Value.typeOf_elements htype hv)

/-! ## The values of a key -/

section Distinct

variable {κ : Type} [LinearOrder κ] {k : Value → κ} {l : List Value}

/-- Elements equal to the last one kept stand right after it in a sorted list: dropping them there drops
them everywhere. -/
theorem dedupFrom_sorted {last : Value} (hsorted : (last :: l).Pairwise (k · ≤ k ·))
    (hequals : ∀ v ∈ last :: l, ∀ w ∈ last :: l, v.equals w = true ↔ v = w)
    (hinj : ∀ v ∈ last :: l, ∀ w ∈ last :: l, k v = k w → v = w) :
    (GroupKey.dedupFrom last l).Nodup ∧ ∀ v, v ∈ GroupKey.dedupFrom last l ↔ v ∈ l ∧ v ≠ last := by
  induction l generalizing last with
  | nil => exact ⟨List.nodup_nil, fun v => by simp [GroupKey.dedupFrom]⟩
  | cons a l ih =>
      have ha : a ∈ last :: a :: l := List.mem_cons_of_mem _ List.mem_cons_self
      have hlast : last ∈ last :: a :: l := List.mem_cons_self
      obtain ⟨hfirst, hrest⟩ := List.pairwise_cons.mp hsorted
      rw [GroupKey.dedupFrom]
      by_cases heq : a = last
      · subst heq
        have hsub : ∀ v, v ∈ a :: l → v ∈ a :: a :: l := fun v hv => List.mem_cons_of_mem _ hv
        obtain ⟨hnodup, hmem⟩ := ih hrest (fun v hv w hw => hequals v (hsub v hv) w (hsub w hw))
          fun v hv w hw => hinj v (hsub v hv) w (hsub w hw)
        rw [if_pos ((hequals a ha a hlast).mpr rfl)]
        refine ⟨hnodup, fun v => (hmem v).trans ?_⟩
        rw [List.mem_cons]
        exact ⟨fun h => ⟨.inr h.1, h.2⟩, fun h => ⟨h.1.resolve_left h.2, h.2⟩⟩
      · have hsub : ∀ v, v ∈ a :: l → v ∈ last :: a :: l := fun v hv => List.mem_cons_of_mem _ hv
        obtain ⟨hnodup, hmem⟩ := ih hrest (fun v hv w hw => hequals v (hsub v hv) w (hsub w hw))
          fun v hv w hw => hinj v (hsub v hv) w (hsub w hw)
        rw [if_neg (mt (hequals a ha last hlast).mp heq)]
        refine ⟨List.nodup_cons.mpr ⟨fun h => ((hmem a).mp h).2 rfl, hnodup⟩, fun v => ?_⟩
        rw [List.mem_cons, List.mem_cons, hmem]
        -- past a larger element, none equals the last one
        have hpast : ∀ v ∈ l, v ≠ last := by
          rintro v hv rfl
          have hle := (List.pairwise_cons.mp hrest).1 v hv
          exact heq (hinj a ha v hlast (le_antisymm hle (hfirst a List.mem_cons_self)))
        constructor
        · rintro (rfl | ⟨hv, -⟩)
          · exact ⟨.inl rfl, heq⟩
          · exact ⟨.inr hv, hpast v hv⟩
        · rintro ⟨rfl | hv, -⟩
          · exact .inl rfl
          · by_cases hva : v = a
            · exact .inl hva
            · exact .inr ⟨hv, hva⟩

/-- **Sorted, `dedup` keeps each element once.** -/
theorem dedup_sorted (hsorted : l.Pairwise (k · ≤ k ·))
    (hequals : ∀ v ∈ l, ∀ w ∈ l, v.equals w = true ↔ v = w)
    (hinj : ∀ v ∈ l, ∀ w ∈ l, k v = k w → v = w) :
    (GroupKey.dedup l).Nodup ∧ ∀ v, v ∈ GroupKey.dedup l ↔ v ∈ l := by
  cases l with
  | nil => exact ⟨List.nodup_nil, fun _ => Iff.rfl⟩
  | cons a l =>
      obtain ⟨hnodup, hmem⟩ := dedupFrom_sorted hsorted hequals hinj
      refine ⟨List.nodup_cons.mpr ⟨fun h => ((hmem a).mp h).2 rfl, hnodup⟩, fun v => ?_⟩
      rw [GroupKey.dedup, List.mem_cons, List.mem_cons, hmem]
      by_cases hva : v = a <;> simp [hva]

end Distinct

/-- The distinct elements of a value of some type. -/
theorem dedup_elements {raw : Value} {ty : Ty} (h : raw.typeOf = some ty) :
    let sorted := raw.elements.insertionSort fun a b => (a.compare b).getD .eq ≠ .gt
    (GroupKey.dedup sorted).Nodup ∧ ∀ v, v ∈ GroupKey.dedup sorted ↔ v ∈ raw.elements := by
  intro sorted
  by_cases harray : ty.isArray = true
  · have hty : elementType ty ≠ .sparseF16 := (packs_elementType harray).2.2.2
    have htyped : ∀ v ∈ raw.elements, v.typeOf = some (elementType ty) := fun v hv =>
      Value.typeOf_elements h hv
    obtain ⟨κ, _, k, hk⟩ := Value.exists_compareKey hty
    have hsort : sorted = ranked k raw.elements := by
      have hle : ∀ a ∈ raw.elements, ∀ b ∈ raw.elements,
          ((a.compare b).getD .eq ≠ .gt ↔ k a ≤ k b) := fun a ha b hb => by
        rw [(hk a b (htyped a ha) (htyped b hb)).1, Option.getD_some, Ne, cmp_eq_gt_iff, not_lt]
      have hmap := List.map_insertionSort (fun a b : Value => (a.compare b).getD .eq ≠ .gt) (k · ≤ k ·) id
        raw.elements hle
      rwa [List.map_id, List.map_id] at hmap
    have hmem : ∀ v, v ∈ sorted ↔ v ∈ raw.elements := fun v => (List.perm_insertionSort _ _).mem_iff
    have hdedup := @dedup_sorted κ _ k sorted (hsort ▸ ranked_pairwise_le raw.elements)
      (fun v hv w hw => Value.equals_iff hty (htyped v ((hmem v).mp hv)) (htyped w ((hmem w).mp hw)))
      (fun v hv w hw => (hk v w (htyped v ((hmem v).mp hv)) (htyped w ((hmem w).mp hw))).2)
    exact ⟨hdedup.1, fun v => (hdedup.2 v).trans (hmem v)⟩
  · -- a scalar is its one element
    have hscalar : raw.elements = [raw] := by cases raw <;> cases h <;> first | rfl | exact absurd rfl harray
    have hsort : sorted = [raw] := by
      show raw.elements.insertionSort _ = [raw]
      rw [hscalar]
      rfl
    rw [hsort, hscalar]
    exact ⟨List.nodup_singleton raw, fun _ => Iff.rfl⟩

/-- The values of an attribute taken apart. -/
theorem uniqueValues_spec {raw : Value} {ty : Ty} (h : NullOr ty raw) :
    let values := if raw.isNull then [.null] else
      let elements := GroupKey.dedup (raw.elements.insertionSort fun a b => (a.compare b).getD .eq ≠ .gt)
      if elements.isEmpty then [.null] else elements
    values.Nodup ∧ ∀ v, v ∈ values ↔
      if raw.isNull = true ∨ raw.elements = [] then v = .null else v ∈ raw.elements := by
  intro values
  rcases h with rfl | htype
  · exact ⟨List.nodup_singleton _, fun v => List.mem_singleton⟩
  · obtain ⟨hnodup, hmem⟩ := dedup_elements htype
    have hnull : raw.isNull = false := Value.isNull_of_typeOf htype
    generalize hsorted : raw.elements.insertionSort (fun a b => (a.compare b).getD .eq ≠ .gt) = sorted at *
    by_cases hnone : raw.elements = []
    · have hempty : GroupKey.dedup sorted = [] :=
        List.eq_nil_iff_forall_not_mem.mpr fun v hv => by simpa [hnone] using (hmem v).mp hv
      have hvalues : values = [.null] := by simp [values, hnull, hsorted, hempty]
      rw [hvalues]
      refine ⟨List.nodup_singleton _, fun v => ?_⟩
      rw [if_pos (Or.inr hnone)]
      exact List.mem_singleton
    · have hsome : GroupKey.dedup sorted ≠ [] := by
        obtain ⟨v, hv⟩ := List.exists_mem_of_ne_nil _ hnone
        exact List.ne_nil_of_mem ((hmem v).mpr hv)
      have hvalues : values = GroupKey.dedup sorted := by simp [values, hnull, hsorted, hsome]
      rw [hvalues]
      refine ⟨hnodup, fun v => ?_⟩
      rw [if_neg (by simp [hnull, hnone])]
      exact hmem v

/-- **The values of a key** are those the document has, each once. -/
theorem GroupKey.values_spec {schema : SortedMap String Ty} {d : Doc} (h : Conforms schema d) (key : GroupKey) :
    (key.values d.attrs).Nodup ∧ ∀ v, v ∈ key.values d.attrs ↔ key.Has d.attrs v := by
  cases key with
  | attr name => exact ⟨List.nodup_singleton _, fun v => List.mem_singleton⟩
  | forEachUnique name => exact uniqueValues_spec (h.nullOr name)

/-! ## The tuples of a document -/

/-- The tuples that extend some others by the next keys. -/
theorem mem_expandFrom {attrs : Attrs} (keys : List GroupKey) (combos : List (List Value)) (tuple : List Value) :
    tuple ∈ keys.foldl (fun combos key =>
        combos.flatMap fun base => (key.values attrs).map fun v => base ++ [v]) combos ↔
      ∃ base ∈ combos, ∃ rest, List.Forall₂ (fun (key : GroupKey) v => v ∈ key.values attrs) keys rest ∧
        tuple = base ++ rest := by
  induction keys generalizing combos with
  | nil =>
      constructor
      · exact fun h => ⟨tuple, h, [], .nil, (List.append_nil _).symm⟩
      · rintro ⟨base, hbase, rest, hrest, rfl⟩
        cases hrest
        rwa [List.append_nil]
  | cons key keys ih =>
      refine (ih _).trans ?_
      constructor
      · rintro ⟨base, hbase, rest, hrest, rfl⟩
        obtain ⟨base', hbase', hmem⟩ := List.mem_flatMap.mp hbase
        obtain ⟨v, hv, rfl⟩ := List.mem_map.mp hmem
        exact ⟨base', hbase', v :: rest, .cons hv hrest, by rw [List.append_assoc, List.singleton_append]⟩
      · rintro ⟨base, hbase, rest, hrest, rfl⟩
        cases hrest with
        | cons hv hrest =>
          refine ⟨_, List.mem_flatMap.mpr ⟨base, hbase, List.mem_map.mpr ⟨_, hv, rfl⟩⟩, _, hrest, ?_⟩
          rw [List.append_assoc, List.singleton_append]

theorem nodup_expandFrom {attrs : Attrs} (keys : List GroupKey)
    (hkeys : ∀ key ∈ keys, (key.values attrs).Nodup) (combos : List (List Value)) (hcombos : combos.Nodup) :
    (keys.foldl (fun combos key =>
      combos.flatMap fun base => (key.values attrs).map fun v => base ++ [v]) combos).Nodup := by
  induction keys generalizing combos with
  | nil => exact hcombos
  | cons key keys ih =>
      refine ih (fun k hk => hkeys k (List.mem_cons_of_mem _ hk)) _ (List.nodup_flatMap.mpr ⟨fun base _ => ?_, ?_⟩)
      · exact (hkeys key List.mem_cons_self).map fun v w h =>
          List.singleton_injective (List.append_cancel_left h)
      · refine hcombos.imp fun {base base'} hne tuple h h' => ?_
        obtain ⟨v, -, rfl⟩ := List.mem_map.mp h
        obtain ⟨w, -, heq⟩ := List.mem_map.mp h'
        exact hne (List.append_inj_left' heq.symm rfl)

/-- **The tuples of a document** are those it belongs to the groups of, each once. -/
theorem mem_expandKeys {schema : SortedMap String Ty} {d : Doc} (h : Conforms schema d)
    (groupBy : List GroupKey) (tuple : List Value) :
    tuple ∈ expandKeys groupBy d.attrs ↔ Belongs groupBy d.attrs tuple := by
  have hvalues (key : GroupKey) (v : Value) := (key.values_spec h).2 v
  rw [expandKeys, mem_expandFrom, Belongs]
  simp only [hvalues, List.mem_singleton, exists_eq_left, List.nil_append, exists_eq_right']

theorem nodup_expandKeys {schema : SortedMap String Ty} {d : Doc} (h : Conforms schema d)
    (groupBy : List GroupKey) : (expandKeys groupBy d.attrs).Nodup :=
  nodup_expandFrom groupBy (fun key _ => (key.values_spec h).1) _ (List.nodup_singleton _)

/-- The tuples of a conforming document have the types of the keys. -/
theorem Belongs.nullOr {schema : SortedMap String Ty} {d : Doc} (h : Conforms schema d)
    {groupBy : List GroupKey} {tuple : List Value} (hbelongs : Belongs groupBy d.attrs tuple) :
    List.Forall₂ NullOr (groupBy.map fun key => key.ty schema) tuple :=
  List.forall₂_map_left_iff.mpr (hbelongs.imp fun _ _ hv => hv.nullOr h)

/-! ## The order of tuples -/

theorem orderValues_of_compare {v w : Value} {o : Ordering} (h : v.compare w = some o) :
    orderValues v w = o := by rw [orderValues, h]

/-- **Values of one type, with null, have a key** by which they are ordered; it tells them apart, sparse
vectors excepted. -/
theorem exists_valueKey (ty : Ty) :
    ∃ (κ : Type) (_ : LinearOrder κ) (k : Value → κ), ∀ v w, NullOr ty v → NullOr ty w →
      orderValues v w = cmp (k v) (k w) ∧ (k v = k w ↔ v = w ∨ BothSparse v w) := by
  have hleft : ∀ {w : Value}, w.typeOf = some ty → Value.null.compare w = some .lt := by
    intro w hw
    cases w <;> first | rfl | cases hw
  have hright : ∀ {v : Value}, v.typeOf = some ty → v.compare .null = some .gt := by
    intro v hv
    cases v <;> first | rfl | cases hv
  have hne : ∀ {v : Value}, v.typeOf = some ty → v ≠ .null := fun hv hnull => by
    rw [hnull] at hv
    cases hv
  have hnot : ∀ {v : Value}, ¬ BothSparse .null v ∧ ¬ BothSparse v .null := ⟨nofun, nofun⟩
  -- the key of a typed value, above that of null
  suffices hkey : ∃ (κ : Type) (_ : LinearOrder κ) (k : Value → κ), ∀ v w, v.typeOf = some ty →
      w.typeOf = some ty → orderValues v w = cmp (k v) (k w) ∧ (k v = k w ↔ v = w ∨ BothSparse v w) by
    obtain ⟨κ, _, k, hk⟩ := hkey
    refine ⟨WithBot κ, inferInstance, fun v => if v = .null then ⊥ else (k v : WithBot κ), fun v w hv hw => ?_⟩
    dsimp only
    rcases hv with rfl | hv <;> rcases hw with rfl | hw
    · rw [if_pos rfl]
      exact ⟨(cmp_self_eq_eq _).symm, by simp⟩
    · rw [if_pos rfl, if_neg (hne hw), orderValues_of_compare (hleft hw)]
      refine ⟨((cmp_eq_lt_iff _ _).mpr (WithBot.bot_lt_coe _)).symm, ?_⟩
      exact iff_of_false WithBot.bot_ne_coe (not_or.mpr ⟨(hne hw).symm, hnot.1⟩)
    · rw [if_pos rfl, if_neg (hne hv), orderValues_of_compare (hright hv)]
      refine ⟨((cmp_eq_gt_iff _ _).mpr (WithBot.bot_lt_coe _)).symm, ?_⟩
      exact iff_of_false WithBot.coe_ne_bot (not_or.mpr ⟨hne hv, hnot.2⟩)
    · rw [if_neg (hne hv), if_neg (hne hw), WithBot.coe_inj]
      refine ⟨(hk v w hv hw).1.trans ?_, (hk v w hv hw).2⟩
      simp [cmp, cmpUsing, WithBot.coe_lt_coe]
  by_cases hty : ty = .sparseF16
  · subst hty
    refine ⟨Unit, inferInstance, fun _ => (), fun v w hv hw => ⟨?_, iff_of_true rfl (.inr ⟨hv, hw⟩)⟩⟩
    have hnone : v.compare w = none := by
      cases v <;> cases hv
      cases w <;> cases hw
      rfl
    rw [orderValues, hnone, hv, hw]
    exact compare_eq_iff_eq.mpr rfl
  · obtain ⟨κ, _, k, hk⟩ := Value.exists_compareKey hty
    refine ⟨κ, inferInstance, k, fun v w hv hw => ?_⟩
    obtain ⟨hcompare, hinj⟩ := hk v w hv hw
    refine ⟨orderValues_of_compare hcompare, fun heq => .inl (hinj heq), ?_⟩
    rintro (rfl | hsparse)
    · rfl
    · exact absurd (Option.some.inj (hv.symm.trans hsparse.1)) hty

/-- Two tuples that are equal but for sparse vectors. -/
def SameButSparse (tuple tuple' : List Value) : Prop :=
  List.Forall₂ (fun v w => v = w ∨ BothSparse v w) tuple tuple'

/-- **The order of groups.** On the tuples of conforming documents it is that of a key which tells them
apart, but for sparse vectors. -/
theorem exists_tupleKey (tys : List Ty) :
    ∃ (κ : Type) (_ : LinearOrder κ) (k : List Value → κ), ∀ tuple tuple',
      List.Forall₂ NullOr tys tuple → List.Forall₂ NullOr tys tuple' →
      orderKeys tuple tuple' = cmp (k tuple) (k tuple') ∧
        (k tuple = k tuple' ↔ SameButSparse tuple tuple') := by
  induction tys with
  | nil =>
      refine ⟨Unit, inferInstance, fun _ => (), fun tuple tuple' h h' => ?_⟩
      cases h
      cases h'
      exact ⟨rfl, iff_of_true rfl .nil⟩
  | cons ty tys ih =>
      obtain ⟨κ, _, k, hk⟩ := exists_valueKey ty
      obtain ⟨κ', _, k', hk'⟩ := ih
      refine ⟨κ ×ₗ κ', inferInstance, fun tuple => toLex (k (tuple.headD .null), k' tuple.tail),
        fun tuple tuple' h h' => ?_⟩
      cases h with
      | cons hv hrest =>
        cases h' with
        | cons hw hrest' =>
          obtain ⟨hfirst, hsame⟩ := hk _ _ hv hw
          obtain ⟨hnext, hsame'⟩ := hk' _ _ hrest hrest'
          constructor
          · rw [orderKeys, hfirst, hnext]
            exact (cmp_toLex _ _ _ _).symm
          · rw [toLex_inj, Prod.mk.injEq, SameButSparse, List.forall₂_cons]
            exact and_congr hsame hsame'

end Fckdb
