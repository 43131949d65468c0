import Fckdb.Coercion
import Fckdb.Grouping
import Mathlib.Data.List.MinMax

/-! # The partition of the documents

The groups of an aggregation are the tuples that occur, each fed the documents that belong to it, in any
order of the documents (`Partitions`), exactly when the tuples and the extremes asked for do not depend on
telling sparse vectors apart (`partitions_iff`). -/

namespace Fckdb

/-! ## Extremes -/

/-- The extreme that a list of values leaves. -/
def extreme (wanted : Ordering) (values : List Value) : Option Value := values.foldl (better wanted) none

/-- **Values of one type have a key** by which they are extreme; it tells them apart, sparse vectors
excepted. -/
theorem exists_wantedKey (ty : Ty) {wanted : Ordering} (hwanted : wanted ≠ .eq) :
    ∃ (κ : Type) (_ : LinearOrder κ) (k : Value → κ), ∀ v w, v.typeOf = some ty → w.typeOf = some ty →
      (v.compare w = some wanted ↔ k v < k w) ∧ (k v = k w → v = w ∨ BothSparse v w) := by
  by_cases hty : ty = .sparseF16
  · -- sparse vectors do not compare: none is more extreme
    subst hty
    refine ⟨Unit, inferInstance, fun _ => (), fun v w hv hw => ⟨?_, fun _ => .inr ⟨hv, hw⟩⟩⟩
    have hnone : v.compare w = none := by
      cases v <;> cases hv
      cases w <;> cases hw
      rfl
    rw [hnone]
    exact iff_of_false nofun (lt_irrefl _)
  · obtain ⟨κ, _, k, hk⟩ := Value.exists_compareKey hty
    cases wanted with
    | lt =>
        refine ⟨κ, inferInstance, k, fun v w hv hw => ⟨?_, fun heq => .inl ((hk v w hv hw).2 heq)⟩⟩
        rw [(hk v w hv hw).1, Option.some.injEq, cmp_eq_lt_iff]
    | eq => exact absurd rfl hwanted
    | gt =>
        refine ⟨κᵒᵈ, inferInstance, fun v => OrderDual.toDual (k v), fun v w hv hw =>
          ⟨?_, fun heq => .inl ((hk v w hv hw).2 (OrderDual.toDual_inj.mp heq))⟩⟩
        rw [(hk v w hv hw).1, Option.some.injEq, cmp_eq_gt_iff, OrderDual.toDual_lt_toDual]

theorem extreme_concat (wanted : Ordering) (values : List Value) (v : Value) :
    extreme wanted (values ++ [v]) = better wanted (extreme wanted values) v := List.foldl_concat ..

/-- The extreme is the first value with the least key. -/
theorem extreme_eq_argmin {κ : Type} [LinearOrder κ] {k : Value → κ} {wanted : Ordering}
    {values : List Value} (hk : ∀ v ∈ values, ∀ w ∈ values, v.compare w = some wanted ↔ k v < k w) :
    extreme wanted values = values.argmin k := by
  induction values using List.reverseRecOn with
  | nil => rfl
  | append_singleton values v ih =>
      have hleft : ∀ w, w ∈ values → w ∈ values ++ [v] := fun w hw => List.mem_append_left _ hw
      have hv : v ∈ values ++ [v] := List.mem_append_right _ (List.mem_singleton_self v)
      rw [extreme_concat, List.argmin_concat, ih fun w hw w' hw' => hk w (hleft w hw) w' (hleft w' hw')]
      cases hbest : values.argmin k with
      | none => rfl
      | some m =>
          have hm : m ∈ values := List.argmin_mem hbest
          show (if v.compare m = some wanted then some v else some m) = if k v < k m then some v else some m
          simp only [hk v hv m (hleft m hm)]

/-- What is least by a key that tells the elements apart does not depend on their order. -/
theorem argmin_perm {α κ : Type} [LinearOrder κ] [DecidableEq α] {k : α → κ} {l l' : List α}
    (hinj : ∀ a ∈ l, ∀ b ∈ l, k a = k b → a = b) (h : l.Perm l') : l.argmin k = l'.argmin k := by
  apply Option.ext
  intro m
  have hfirst : ∀ l'' : List α, l.Perm l'' → (l''.argmin k = some m ↔ m ∈ l ∧ ∀ a ∈ l, k m ≤ k a) := by
    intro l'' h''
    rw [List.argmin_eq_some_iff, ← h''.mem_iff]
    constructor
    · rintro ⟨hm, hle, -⟩
      exact ⟨hm, fun a ha => hle a (h''.mem_iff.mp ha)⟩
    · rintro ⟨hm, hle⟩
      refine ⟨hm, fun a ha => hle a (h''.mem_iff.mpr ha), fun a ha hge => ?_⟩
      have hal := h''.mem_iff.mpr ha
      rw [hinj a hal m hm (le_antisymm hge (hle a hal))]
  exact (hfirst l (.refl l)).trans (hfirst l' h).symm

section Values

variable {values values' : List Value} {ty : Ty} {wanted : Ordering}

/-- **The extreme does not depend on the order**, when the sparse vectors are all equal. -/
theorem extreme_perm (hwanted : wanted ≠ .eq) (htyped : ∀ v ∈ values, v.typeOf = some ty)
    (hsettled : ∀ v ∈ values, ∀ w ∈ values, BothSparse v w → v = w) (h : values.Perm values') :
    extreme wanted values = extreme wanted values' := by
  obtain ⟨κ, _, k, hk⟩ := exists_wantedKey ty hwanted
  have hmem : ∀ v, v ∈ values' → v.typeOf = some ty := fun v hv => htyped v (h.mem_iff.mpr hv)
  rw [extreme_eq_argmin fun v hv w hw => (hk v w (htyped v hv) (htyped w hw)).1,
    extreme_eq_argmin fun v hv w hw => (hk v w (hmem v hv) (hmem w hw)).1]
  refine argmin_perm (fun v hv w hw heq => ?_) h
  exact ((hk v w (htyped v hv) (htyped w hw)).2 heq).elim id (hsettled v hv w hw)

/-- Of sparse vectors the first one fed stays. -/
theorem extreme_sparse {v : Value} (hv : v.typeOf = some .sparseF16)
    (hvalues : ∀ w ∈ values, w.typeOf = some .sparseF16) (wanted : Ordering) :
    extreme wanted (v :: values) = some v := by
  show values.foldl (better wanted) (some v) = some v
  induction values with
  | nil => rfl
  | cons w values ih =>
      have hnone : w.compare v = none := by
        have hw := hvalues w List.mem_cons_self
        cases w <;> cases hw
        cases v <;> cases hv
        rfl
      rw [List.foldl_cons, better, hnone, if_neg nofun]
      exact ih fun w hw => hvalues w (List.mem_cons_of_mem _ hw)

end Values

/-! ## What a group adds up to -/

/-- The values that documents have for an attribute. -/
def present (name : String) (fed : List Attrs) : List Value :=
  (fed.map fun attrs => (attrs.get name).getD .null).filter fun v => !v.isNull

/-- The extreme asked for does not depend on telling sparse vectors apart. -/
def Agg.Settled (agg : Agg) (fed : List Attrs) : Prop :=
  match agg with
  | .min name | .max name => ∀ v ∈ present name fed, ∀ w ∈ present name fed, BothSparse v w → v = w
  | _ => True

variable {N : Type} [Numbers N]

/-- Exact arithmetic: what numbers add up to does not depend on their order. -/
structure Numbers.Exact (N : Type) [Numbers N] : Prop where
  add_right_comm : ∀ a b c : N, Numbers.add (Numbers.add a b) c = Numbers.add (Numbers.add a c) b

/-- The rationals, in which an `f64` is the number it stands for. -/
@[reducible] def Numbers.rationals : Numbers ℚ where
  zero := 0
  add := (· + ·)
  ofUInt64 u := u.toNat
  ofInt64 i := i.toInt
  ofF64 a := a.number.getD 0
  isWhole q := q.den = 1 && |q| < 9000000000000000
  isNegative q := q < 0
  toInt64 q := .ofInt q.num
  toUInt64 q := .ofNat q.num.toNat
  toF64 q := ⟨(Float.ofInt q.num / Float.ofNat q.den).toBits⟩
  average q count := ⟨(Float.ofInt q.num / Float.ofNat (q.den * count)).toBits⟩

theorem Numbers.exact_rationals : @Numbers.Exact ℚ .rationals :=
  let _ := Numbers.rationals
  ⟨fun a b c => add_right_comm a b c⟩

theorem present_concat (name : String) (fed : List Attrs) (attrs : Attrs) :
    present name (fed ++ [attrs]) = present name fed ++
      if ((attrs.get name).getD .null).isNull then [] else [(attrs.get name).getD .null] := by
  rw [present, List.map_append, List.filter_append, ← present, List.map_singleton, List.filter_singleton]
  cases ((attrs.get name).getD .null).isNull <;> rfl

theorem accumulated_min (name : String) (fed : List Attrs) :
    accumulated N (.min name) fed =
      { Accumulator.new with min := extreme .lt (present name fed), count := (present name fed).length } := by
  induction fed using List.reverseRecOn with
  | nil => rfl
  | append_singleton fed attrs ih =>
      have hread : ((Agg.min name).read attrs).getD .null = (attrs.get name).getD .null := rfl
      rw [accumulated_concat, ih, Accumulator.step, hread, present_concat]
      cases ((attrs.get name).getD .null).isNull with
      | true => rw [if_pos rfl, if_pos rfl, List.append_nil]
      | false =>
          rw [if_neg Bool.false_ne_true, if_neg Bool.false_ne_true, extreme_concat, List.length_append]
          rfl

theorem accumulated_max (name : String) (fed : List Attrs) :
    accumulated N (.max name) fed =
      { Accumulator.new with max := extreme .gt (present name fed), count := (present name fed).length } := by
  induction fed using List.reverseRecOn with
  | nil => rfl
  | append_singleton fed attrs ih =>
      have hread : ((Agg.max name).read attrs).getD .null = (attrs.get name).getD .null := rfl
      rw [accumulated_concat, ih, Accumulator.step, hread, present_concat]
      cases ((attrs.get name).getD .null).isNull with
      | true => rw [if_pos rfl, if_pos rfl, List.append_nil]
      | false =>
          rw [if_neg Bool.false_ne_true, if_neg Bool.false_ne_true, extreme_concat, List.length_append]
          rfl

/-- Added up exactly, two values may change places. -/
theorem Accumulator.addStep_comm (hexact : Numbers.Exact N) (acc : Accumulator N) (v w : Value) :
    (acc.addStep v).addStep w = (acc.addStep w).addStep v := by
  cases hv : numeric (N := N) v with
  | none => simp only [addStep, hv]
  | some a =>
      cases hw : numeric (N := N) w with
      | none => simp only [addStep, hv, hw]
      | some b =>
          simp only [addStep, hv, hw, hexact.add_right_comm acc.sum a b]
          rw [Bool.and_right_comm]

/-- Counted or added up, two documents may change places. -/
theorem Accumulator.step_comm (hexact : Numbers.Exact N) {agg : Agg} (hmin : ∀ name, agg ≠ .min name)
    (hmax : ∀ name, agg ≠ .max name) (acc : Accumulator N) (x y : Attrs) :
    (acc.step agg x).step agg y = (acc.step agg y).step agg x := by
  have hadd : ∀ v w : Value,
      (if w.isNull then if v.isNull then acc else acc.addStep v
        else (if v.isNull then acc else acc.addStep v).addStep w) =
      if v.isNull then if w.isNull then acc else acc.addStep w
        else (if w.isNull then acc else acc.addStep w).addStep v := by
    intro v w
    cases v.isNull <;> cases w.isNull <;> first | rfl | exact addStep_comm hexact acc v w
  cases agg with
  | count attr =>
      cases attr with
      | none => rfl
      | some name =>
          simp only [step]
          cases (((Agg.count (some name)).read x).getD .null).isNull <;>
            cases (((Agg.count (some name)).read y).getD .null).isNull <;> rfl
  | sum name => exact hadd _ _
  | avg name => exact hadd _ _
  | min name => exact absurd rfl (hmin name)
  | max name => exact absurd rfl (hmax name)

theorem present_perm {fed fed' : List Attrs} (h : fed.Perm fed') (name : String) :
    (present name fed).Perm (present name fed') := (h.map _).filter _

/-- **What documents add up to does not depend on their order**, in exact arithmetic. -/
theorem accumulated_perm (hexact : Numbers.Exact N) {agg : Agg} {fed fed' : List Attrs}
    (htyped : ∀ name, ∃ ty, ∀ v ∈ present name fed, v.typeOf = some ty) (hsettled : agg.Settled fed)
    (h : fed.Perm fed') : accumulated N agg fed = accumulated N agg fed' := by
  have hcommute : (∀ name, agg ≠ .min name) → (∀ name, agg ≠ .max name) →
      accumulated N agg fed = accumulated N agg fed' := fun hmin hmax =>
    h.foldl_eq' (fun x _ y _ acc => Accumulator.step_comm hexact hmin hmax acc x y) _
  cases agg with
  | count attr => exact hcommute nofun nofun
  | sum name => exact hcommute nofun nofun
  | avg name => exact hcommute nofun nofun
  | min name =>
      obtain ⟨ty, hty⟩ := htyped name
      rw [accumulated_min, accumulated_min, extreme_perm (by decide : Ordering.lt ≠ .eq) hty hsettled (present_perm h name),
        (present_perm h name).length_eq]
  | max name =>
      obtain ⟨ty, hty⟩ := htyped name
      rw [accumulated_max, accumulated_max, extreme_perm (by decide : Ordering.gt ≠ .eq) hty hsettled (present_perm h name),
        (present_perm h name).length_eq]

/-! ## The groups of documents -/

instance (key : GroupKey) (attrs : Attrs) (v : Value) : Decidable (key.Has attrs v) :=
  match key with
  | .attr name => inferInstanceAs (Decidable (v = (attrs.get name).getD .null))
  | .forEachUnique name =>
    inferInstanceAs (Decidable (if ((attrs.get name).getD .null).isNull = true ∨
      ((attrs.get name).getD .null).elements = [] then v = .null else v ∈ ((attrs.get name).getD .null).elements))

instance (groupBy : List GroupKey) (attrs : Attrs) (tuple : List Value) :
    Decidable (Belongs groupBy attrs tuple) :=
  inferInstanceAs (Decidable (List.Forall₂ (fun (key : GroupKey) v => key.Has attrs v) groupBy tuple))

/-- The documents that belong to a group, in their order. -/
def membersOf (groupBy : List GroupKey) (docs : List Doc) (tuple : List Value) : List Attrs :=
  (docs.filter fun d => Belongs groupBy d.attrs tuple).map (·.attrs)

/-- The aggregator has partitioned the documents. -/
structure Partitions [Crates] (aggs : SortedMap String Agg) (groupBy : List GroupKey) (docs : List Doc)
    (a : Aggregator N) : Prop where
  /-- The groups are the tuples that occur. -/
  tuples : ∀ tuple, tuple ∈ a.groups.map (·.1) ↔ ∃ d ∈ docs, Belongs groupBy d.attrs tuple
  /-- Each is there once. -/
  once : (a.groups.map (·.1)).Nodup
  /-- Each was fed the documents that belong to it, and each of them once. -/
  fed : ∀ g ∈ a.groups, (membersOf groupBy docs g.1).foldlM
    (fun slot attrs => Aggregator.accumulateAll attrs aggs.entries slot) a.fresh = .ok g.2
  /-- In any other order of the documents the result is the same. -/
  ordered : ∀ docs', docs.Perm docs' → ∃ a' : Aggregator N,
    ((Aggregator.new aggs groupBy).bind fun a => a.feedAll docs') = .ok a' ∧ a'.finish = a.finish

/-- Neither the tuples nor the extremes depend on telling sparse vectors apart. -/
structure Clear (aggs : SortedMap String Agg) (groupBy : List GroupKey) (docs : List Doc) : Prop where
  tuples : ∀ d ∈ docs, ∀ d' ∈ docs, ∀ tuple tuple', Belongs groupBy d.attrs tuple →
    Belongs groupBy d'.attrs tuple' → SameButSparse tuple tuple' → tuple = tuple'
  extremes : ∀ e ∈ aggs.entries, ∀ tuple, e.2.Settled (membersOf groupBy docs tuple)

theorem mem_fedBy {schema : SortedMap String Ty} {groupBy : List GroupKey} {docs : List Doc}
    (h : ∀ d ∈ docs, Conforms schema d) {p : List Value × Attrs} :
    p ∈ fedBy groupBy docs ↔ ∃ d ∈ docs, Belongs groupBy d.attrs p.1 ∧ p.2 = d.attrs := by
  rw [fedBy, List.mem_flatMap]
  constructor
  · rintro ⟨d, hd, hp⟩
    obtain ⟨tuple, htuple, rfl⟩ := List.mem_map.mp hp
    exact ⟨d, hd, (mem_expandKeys (h d hd) groupBy tuple).mp htuple, rfl⟩
  · rintro ⟨d, hd, hbelongs, hattrs⟩
    exact ⟨d, hd, List.mem_map.mpr ⟨p.1, (mem_expandKeys (h d hd) groupBy p.1).mpr hbelongs, hattrs ▸ rfl⟩⟩

section Keyed

variable {κ : Type} [LinearOrder κ] {k : List Value → κ} {schema : SortedMap String Ty}
  {groupBy : List GroupKey} {docs : List Doc}

/-- **What was fed to the key of a tuple** are the members of its group, when the key tells it from the
other tuples. -/
theorem fed_of_key (h : ∀ d ∈ docs, Conforms schema d) {tuple : List Value}
    (hk : ∀ d ∈ docs, ∀ tuple', Belongs groupBy d.attrs tuple' → (k tuple' = k tuple ↔ tuple' = tuple)) :
    ((fedBy groupBy docs).filter (k ·.1 = k tuple)).map (·.2) = membersOf groupBy docs tuple := by
  induction docs with
  | nil => rfl
  | cons d docs ih =>
      have hd := h d List.mem_cons_self
      have hrest := ih (fun d hd => h d (List.mem_cons_of_mem _ hd))
        fun d hd => hk d (List.mem_cons_of_mem _ hd)
      have hfirst : (expandKeys groupBy d.attrs).filter (fun tuple' => decide (k tuple' = k tuple)) =
          (expandKeys groupBy d.attrs).filter (fun tuple' => decide (tuple' = tuple)) := by
        refine List.filter_congr fun tuple' htuple' => decide_eq_decide.mpr ?_
        exact hk d List.mem_cons_self tuple' ((mem_expandKeys hd groupBy tuple').mp htuple')
      have hcons : fedBy groupBy (d :: docs) = (expandKeys groupBy d.attrs).map (·, d.attrs) ++ fedBy groupBy docs :=
        List.flatMap_cons
      have hcount : (expandKeys groupBy d.attrs).count tuple =
          if Belongs groupBy d.attrs tuple then 1 else 0 := by
        rw [(nodup_expandKeys hd groupBy).count]
        simp only [mem_expandKeys hd]
      rw [hcons, List.filter_append, List.map_append, hrest, List.filter_map, List.map_map]
      show ((expandKeys groupBy d.attrs).filter fun tuple' => decide (k tuple' = k tuple)).map _ ++ _ = _
      rw [hfirst, List.filter_eq, hcount, membersOf, membersOf, List.filter_cons]
      split_ifs with hbelongs hdecide hdecide
      · rfl
      · exact absurd (decide_eq_true hbelongs) hdecide
      · exact absurd (of_decide_eq_true hdecide) hbelongs
      · rfl

theorem membersOf_perm {docs' : List Doc} (h : docs.Perm docs') (tuple : List Value) :
    (membersOf groupBy docs tuple).Perm (membersOf groupBy docs' tuple) := (h.filter _).map _

/-- What members have for an attribute is of its type. -/
theorem typeOf_present (h : ∀ d ∈ docs, Conforms schema d) {tuple : List Value} (name : String) :
    ∃ ty, ∀ v ∈ present name (membersOf groupBy docs tuple), v.typeOf = some ty := by
  refine ⟨(schema.get name).getD .bool, fun v hv => ?_⟩
  obtain ⟨hv, hnull⟩ := List.mem_filter.mp hv
  obtain ⟨attrs, hattrs, rfl⟩ := List.mem_map.mp hv
  obtain ⟨d, hd, rfl⟩ := List.mem_map.mp hattrs
  refine ((h d (List.mem_filter.mp hd).1).nullOr name).resolve_left fun hv => ?_
  rw [hv] at hnull
  cases hnull

theorem exists_belongs (groupBy : List GroupKey) (attrs : Attrs) : ∃ tuple, Belongs groupBy attrs tuple := by
  have hvalue : ∀ key : GroupKey, ∃ v, key.Has attrs v := by
    intro key
    cases key with
    | attr name => exact ⟨_, rfl⟩
    | forEachUnique name =>
        let raw := (attrs.get name).getD .null
        show ∃ v, if raw.isNull = true ∨ raw.elements = [] then v = .null else v ∈ raw.elements
        split_ifs with hnone
        · exact ⟨_, rfl⟩
        · exact List.exists_mem_of_ne_nil _ (not_or.mp hnone).2
  induction groupBy with
  | nil => exact ⟨[], .nil⟩
  | cons key groupBy ih =>
      obtain ⟨v, hv⟩ := hvalue key
      obtain ⟨tuple, htuple⟩ := ih
      exact ⟨v :: tuple, .cons hv htuple⟩

section States

variable {aggs : SortedMap String Agg}

/-- The groups that were fed, by their keys. -/
def keyed (N : Type) [Numbers N] (k : List Value → κ) (aggs : SortedMap String Agg)
    (fed : List (List Value × Attrs)) : SortedMap κ (Group N) :=
  (grouped k fed).mapValues fun _ e => (e.1, slotOf N aggs.entries e.2)

theorem groups_stateOf (fed : List (List Value × Attrs)) :
    (stateOf N k aggs groupBy fed).groups = (keyed N k aggs fed).values := by
  rw [SortedMap.values, keyed, SortedMap.mapValues, List.map_map]
  rfl

/-- **Feeding documents that conform to a schema.** -/
theorem feedAll_iff [Crates] (h : ∀ d ∈ docs, Conforms schema d)
    (hk : TupleKey k (groupBy.map fun key => key.ty schema)) {a : Aggregator N} :
    ((Aggregator.new aggs groupBy).bind fun a => a.feedAll docs) = .ok a ↔
      aggs.entries ≠ [] ∧ (∀ d ∈ docs, ∀ e ∈ aggs.entries, e.2.Readable N d.attrs) ∧
        a = stateOf N k aggs groupBy (fedBy groupBy docs) := by
  rw [Aggregator.new]
  cases hnone : aggs.entries.isEmpty with
  | true =>
      rw [if_pos rfl]
      exact iff_of_false nofun fun h => h.1 (List.isEmpty_iff.mp hnone)
  | false =>
      have hne : aggs.entries ≠ [] := fun h => by
        rw [h] at hnone
        cases hnone
      rw [if_neg Bool.false_ne_true]
      have htuples : ∀ d ∈ docs, ∀ tuple ∈ expandKeys groupBy d.attrs,
          List.Forall₂ NullOr (groupBy.map fun key => key.ty schema) tuple := fun d hd tuple htuple =>
        ((mem_expandKeys (h d hd) groupBy tuple).mp htuple).nullOr (h d hd)
      have hsome : ∀ d ∈ docs, expandKeys groupBy d.attrs ≠ [] := fun d hd => by
        obtain ⟨tuple, htuple⟩ := exists_belongs groupBy d.attrs
        exact List.ne_nil_of_mem ((mem_expandKeys (h d hd) groupBy tuple).mpr htuple)
      show (stateOf N k aggs groupBy []).feedAll docs = .ok a ↔ _
      rw [feedAll_eq_ok_iff hk htuples hsome fun _ hp => absurd hp List.not_mem_nil, List.nil_append]
      exact (and_iff_right hne).symm

/-- The key tells apart the tuples that occur. -/
def Tells (k : List Value → κ) (groupBy : List GroupKey) (docs : List Doc) : Prop :=
  ∀ d ∈ docs, ∀ d' ∈ docs, ∀ tuple tuple', Belongs groupBy d.attrs tuple → Belongs groupBy d'.attrs tuple' →
    k tuple = k tuple' → tuple = tuple'

omit [LinearOrder κ] in
theorem Tells.perm {docs' : List Doc} (h : Tells k groupBy docs) (hperm : docs.Perm docs') :
    Tells k groupBy docs' := fun d hd d' hd' =>
  h d (hperm.mem_iff.mpr hd) d' (hperm.mem_iff.mpr hd')

/-- The tuple of a group occurs. -/
theorem occurs_of_get_keyed (h : ∀ d ∈ docs, Conforms schema d) {key : κ} {g : Group N}
    (hget : (keyed N k aggs (fedBy groupBy docs)).get key = some g) :
    k g.1 = key ∧ ∃ d ∈ docs, Belongs groupBy d.attrs g.1 := by
  rw [keyed, SortedMap.get_mapValues] at hget
  obtain ⟨⟨tuple, fed⟩, hentry, rfl⟩ := Option.map_eq_some_iff.mp hget
  obtain ⟨hkey, ⟨p, hp, htuple⟩, -⟩ := get_grouped hentry
  obtain ⟨d, hd, hbelongs, -⟩ := (mem_fedBy h).mp hp
  exact ⟨hkey, d, hd, htuple ▸ hbelongs⟩

/-- **The groups**, by a key that tells their tuples apart. -/
theorem get_keyed_iff (h : ∀ d ∈ docs, Conforms schema d) (htells : Tells k groupBy docs) {key : κ}
    {g : Group N} : (keyed N k aggs (fedBy groupBy docs)).get key = some g ↔
      (∃ d ∈ docs, Belongs groupBy d.attrs g.1) ∧ k g.1 = key ∧
        g.2 = slotOf N aggs.entries (membersOf groupBy docs g.1) := by
  have hmembers : ∀ d ∈ docs, ∀ tuple, Belongs groupBy d.attrs tuple →
      ((fedBy groupBy docs).filter (k ·.1 = k tuple)).map (·.2) = membersOf groupBy docs tuple :=
    fun d hd tuple hbelongs => fed_of_key h fun d' hd' tuple' hbelongs' =>
      ⟨htells d' hd' d hd tuple' tuple hbelongs' hbelongs, fun heq => heq ▸ rfl⟩
  constructor
  · intro hget
    obtain ⟨hkey, d, hd, hbelongs⟩ := occurs_of_get_keyed h hget
    refine ⟨⟨d, hd, hbelongs⟩, hkey, ?_⟩
    rw [keyed, SortedMap.get_mapValues] at hget
    obtain ⟨⟨tuple, fed⟩, hentry, rfl⟩ := Option.map_eq_some_iff.mp hget
    obtain ⟨-, -, rfl⟩ := get_grouped hentry
    dsimp only at hkey hbelongs ⊢
    rw [← hkey, hmembers d hd tuple hbelongs]
  · rintro ⟨⟨d, hd, hbelongs⟩, rfl, hslot⟩
    have hsome : ((grouped k (fedBy groupBy docs)).get (k g.1)).isSome :=
      isSome_get_grouped.mpr ⟨(g.1, d.attrs), (mem_fedBy h).mpr ⟨d, hd, hbelongs, rfl⟩, rfl⟩
    obtain ⟨⟨tuple, fed⟩, hentry⟩ := Option.isSome_iff_exists.mp hsome
    obtain ⟨hkey, ⟨p, hp, htuple⟩, rfl⟩ := get_grouped hentry
    obtain ⟨d', hd', hbelongs', -⟩ := (mem_fedBy h).mp hp
    obtain rfl : tuple = g.1 := htells d' hd' d hd tuple g.1 (htuple ▸ hbelongs') hbelongs hkey
    rw [keyed, SortedMap.get_mapValues, hentry, Option.map_some, hmembers d hd g.1 hbelongs, ← hslot]

theorem slotOf_perm {docs' : List Doc} (hexact : Numbers.Exact N) (h : ∀ d ∈ docs, Conforms schema d)
    {tuple : List Value} (hsettled : ∀ e ∈ aggs.entries, e.2.Settled (membersOf groupBy docs tuple))
    (hperm : docs.Perm docs') :
    slotOf N aggs.entries (membersOf groupBy docs tuple) =
      slotOf N aggs.entries (membersOf groupBy docs' tuple) := by
  refine List.map_congr_left fun e he => ?_
  rw [accumulated_perm hexact (typeOf_present h) (hsettled e he) (membersOf_perm hperm tuple)]

/-- **The groups do not depend on the order of the documents.** -/
theorem keyed_perm {docs' : List Doc} (hexact : Numbers.Exact N) (h : ∀ d ∈ docs, Conforms schema d)
    (htells : Tells k groupBy docs)
    (hsettled : ∀ e ∈ aggs.entries, ∀ tuple, e.2.Settled (membersOf groupBy docs tuple))
    (hperm : docs.Perm docs') :
    keyed N k aggs (fedBy groupBy docs) = keyed N k aggs (fedBy groupBy docs') := by
  have h' : ∀ d ∈ docs', Conforms schema d := fun d hd => h d (hperm.mem_iff.mpr hd)
  ext1 key
  apply Option.ext
  intro g
  rw [get_keyed_iff h htells, get_keyed_iff h' (htells.perm hperm),
    slotOf_perm hexact h (fun e he => hsettled e he g.1) hperm]
  simp only [hperm.mem_iff]

theorem foldlM_accumulateAll [Crates] {aggs : List (String × Agg)} {fed : List Attrs}
    (h : ∀ attrs ∈ fed, ∀ e ∈ aggs, e.2.Readable N attrs) (fed₀ : List Attrs) :
    fed.foldlM (fun slot attrs => Aggregator.accumulateAll attrs aggs slot) (slotOf N aggs fed₀) =
      .ok (slotOf N aggs (fed₀ ++ fed)) := by
  induction fed generalizing fed₀ with
  | nil => rw [List.append_nil]; rfl
  | cons attrs fed ih =>
      rw [List.foldlM_cons, accumulateAll_eq (h attrs List.mem_cons_self)]
      refine (ih (fun attrs hattrs => h attrs (List.mem_cons_of_mem _ hattrs)) _).trans ?_
      rw [List.append_assoc, List.singleton_append]

theorem mem_groups_iff {fed : List (List Value × Attrs)} {g : Group N} :
    g ∈ (stateOf N k aggs groupBy fed).groups ↔ ∃ key, (keyed N k aggs fed).get key = some g := by
  rw [groups_stateOf, SortedMap.mem_values_iff]

/-- **The group of a tuple that occurs.** -/
theorem mem_groups (h : ∀ d ∈ docs, Conforms schema d) (htells : Tells k groupBy docs) {tuple : List Value}
    (hoccurs : ∃ d ∈ docs, Belongs groupBy d.attrs tuple) :
    (tuple, slotOf N aggs.entries (membersOf groupBy docs tuple)) ∈
      (stateOf N k aggs groupBy (fedBy groupBy docs)).groups := by
  have hget : (keyed N k aggs (fedBy groupBy docs)).get (k tuple) =
      some (tuple, slotOf N aggs.entries (membersOf groupBy docs tuple)) :=
    (get_keyed_iff h htells).mpr ⟨hoccurs, rfl, rfl⟩
  exact mem_groups_iff.mpr ⟨_, hget⟩

/-- Each group is there once. -/
theorem nodup_groups (h : ∀ d ∈ docs, Conforms schema d) :
    ((stateOf N k aggs groupBy (fedBy groupBy docs)).groups.map (·.1)).Nodup := by
  rw [groups_stateOf, SortedMap.values, List.map_map]
  refine List.pairwise_map.mpr ((keyed N k aggs (fedBy groupBy docs)).sorted.imp_of_mem ?_)
  intro e e' he he' hlt heq
  have hkey := (occurs_of_get_keyed h (SortedMap.get_eq_some_iff.mpr he)).1
  have hkey' := (occurs_of_get_keyed h (SortedMap.get_eq_some_iff.mpr he')).1
  refine hlt.ne ?_
  calc e.1 = k e.2.1 := hkey.symm
    _ = k e'.2.1 := congrArg k heq
    _ = e'.1 := hkey'

/-- **When sparse vectors need not be told apart**, the groups partition the documents. -/
theorem partitions_of_clear [Crates] (hexact : Numbers.Exact N) (h : ∀ d ∈ docs, Conforms schema d)
    (hk : TupleKey k (groupBy.map fun key => key.ty schema)) (htells : Tells k groupBy docs)
    (hsettled : ∀ e ∈ aggs.entries, ∀ tuple, e.2.Settled (membersOf groupBy docs tuple))
    (hne : aggs.entries ≠ []) (hread : ∀ d ∈ docs, ∀ e ∈ aggs.entries, e.2.Readable N d.attrs) :
    Partitions aggs groupBy docs (stateOf N k aggs groupBy (fedBy groupBy docs)) where
  tuples tuple := by
    rw [List.mem_map]
    constructor
    · rintro ⟨g, hg, rfl⟩
      obtain ⟨key, hget⟩ := mem_groups_iff.mp hg
      exact ((get_keyed_iff h htells).mp hget).1
    · exact fun hoccurs => ⟨_, mem_groups h htells hoccurs, rfl⟩
  once := nodup_groups h
  fed g hg := by
    obtain ⟨key, hget⟩ := mem_groups_iff.mp hg
    obtain ⟨-, -, hslot⟩ := (get_keyed_iff h htells).mp hget
    rw [hslot]
    refine (foldlM_accumulateAll (fun attrs hattrs => ?_) []).trans (by rw [List.nil_append])
    obtain ⟨d, hd, rfl⟩ := List.mem_map.mp hattrs
    exact hread d (List.mem_filter.mp hd).1
  ordered docs' hperm := by
    have h' : ∀ d ∈ docs', Conforms schema d := fun d hd => h d (hperm.mem_iff.mpr hd)
    have hread' : ∀ d ∈ docs', ∀ e ∈ aggs.entries, e.2.Readable N d.attrs := fun d hd =>
      hread d (hperm.mem_iff.mpr hd)
    refine ⟨_, (feedAll_iff h' hk).mpr ⟨hne, hread', rfl⟩, congrArg Aggregator.finish ?_⟩
    have hgroups : (stateOf N k aggs groupBy (fedBy groupBy docs')).groups =
        (stateOf N k aggs groupBy (fedBy groupBy docs)).groups := by
      rw [groups_stateOf, groups_stateOf, keyed_perm hexact h htells hsettled hperm]
    exact congrArg (Aggregator.mk aggs groupBy) hgroups

/-! ## What results tell -/

theorem results_slotOf (groups : List (Group N)) (fed : List Attrs) :
    (Aggregator.mk aggs groupBy groups).results (slotOf N aggs.entries fed) =
      aggs.mapValues fun _ agg => finalize (accumulated N agg fed) agg := by
  rw [Aggregator.results, slotOf, ← List.map_prod_left_eq_zip, List.map_map]
  exact SortedMap.ofList_entries (aggs.mapValues fun _ agg => finalize (accumulated N agg fed) agg)

end States

end Keyed

/-- **What groups report** can be read off the result. -/
theorem results_of_finish {a b : Aggregator N} (hby : a.groupBy = b.groupBy)
    (htuples : a.groups.map (·.1) = b.groups.map (·.1)) (honce : (a.groups.map (·.1)).Nodup)
    (hempty : a.groupBy = [] → ∀ tuple ∈ a.groups.map (·.1), tuple = []) (hfinish : a.finish = b.finish)
    {tuple : List Value} {slot slot' : Slot N} (hslot : (tuple, slot) ∈ a.groups)
    (hslot' : (tuple, slot') ∈ b.groups) : a.results slot = b.results slot' := by
  rw [Aggregator.finish, Aggregator.finish, ← hby] at hfinish
  have honce' : (b.groups.map (·.1)).Nodup := htuples ▸ honce
  cases hnone : a.groupBy.isEmpty with
  | true =>
      -- there is one group, that of the empty tuple
      have hone : ∀ groups : List (Group N), (groups.map (·.1)).Nodup →
          (∀ tuple ∈ groups.map (·.1), tuple = []) → ∀ g ∈ groups, groups.head? = some g := by
        intro groups honce hall g hg
        obtain ⟨first, rest, rfl⟩ := List.exists_cons_of_ne_nil (List.ne_nil_of_mem hg)
        rcases List.mem_cons.mp hg with rfl | hrest
        · rfl
        · have hmem : g.1 ∈ rest.map (·.1) := List.mem_map_of_mem hrest
          have hfirst := hall first.1 List.mem_cons_self
          have hsame := hall g.1 (List.mem_cons_of_mem _ hmem)
          rw [List.map_cons, List.nodup_cons, hfirst, ← hsame] at honce
          exact absurd hmem honce.1
      have hall := hempty (List.isEmpty_iff.mp hnone)
      rw [hnone, hone _ honce hall _ hslot, hone _ honce' (htuples ▸ hall) _ hslot'] at hfinish
      exact (Prod.mk.inj hfinish).1
  | false =>
      rw [hnone] at hfinish
      have hresults : a.groups.map (fun g => a.results g.2) = b.groups.map fun g => b.results g.2 := by
        have hvalues := congrArg (List.map AggregationGroup.values) (Prod.mk.inj hfinish).2
        rwa [List.map_map, List.map_map] at hvalues
      have hpairs : a.groups.map (fun g => (g.1, a.results g.2)) = b.groups.map fun g => (g.1, b.results g.2) := by
        rw [← List.zip_map', ← List.zip_map', htuples, hresults]
      have hmem : (tuple, a.results slot) ∈ b.groups.map fun g => (g.1, b.results g.2) :=
        hpairs ▸ List.mem_map.mpr ⟨_, hslot, rfl⟩
      obtain ⟨g, hg, heq⟩ := List.mem_map.mp hmem
      obtain ⟨htuple, hsame⟩ := Prod.mk.inj heq
      have hfound : g = (tuple, slot') := List.inj_on_of_nodup_map honce' hg hslot' htuple
      rw [← hsame, hfound]

section Back

variable {κ : Type} [LinearOrder κ] {k : List Value → κ} {schema : SortedMap String Ty}
  {groupBy : List GroupKey} {aggs : SortedMap String Agg} {docs docs' : List Doc}

/-- The tuples of the groups do not depend on the order of the documents. -/
theorem tuples_perm (h : ∀ d ∈ docs, Conforms schema d) (htells : Tells k groupBy docs)
    (hperm : docs.Perm docs') :
    (stateOf N k aggs groupBy (fedBy groupBy docs)).groups.map (·.1) =
      (stateOf N k aggs groupBy (fedBy groupBy docs')).groups.map (·.1) := by
  have h' : ∀ d ∈ docs', Conforms schema d := fun d hd => h d (hperm.mem_iff.mpr hd)
  have hsame : (keyed N k aggs (fedBy groupBy docs)).mapValues (fun _ g => g.1) =
      (keyed N k aggs (fedBy groupBy docs')).mapValues fun _ g => g.1 := by
    ext1 key
    apply Option.ext
    intro tuple
    rw [SortedMap.get_mapValues, SortedMap.get_mapValues, Option.map_eq_some_iff, Option.map_eq_some_iff]
    simp only [get_keyed_iff h htells, get_keyed_iff h' (htells.perm hperm), hperm.mem_iff]
    constructor
    · rintro ⟨g, ⟨hoccurs, hkey, -⟩, rfl⟩
      exact ⟨(g.1, slotOf N aggs.entries (membersOf groupBy docs' g.1)), ⟨hoccurs, hkey, rfl⟩, rfl⟩
    · rintro ⟨g, ⟨hoccurs, hkey, -⟩, rfl⟩
      exact ⟨(g.1, slotOf N aggs.entries (membersOf groupBy docs g.1)), ⟨hoccurs, hkey, rfl⟩, rfl⟩
  have hvalues := congrArg SortedMap.values hsame
  rw [SortedMap.values, SortedMap.values, SortedMap.mapValues, SortedMap.mapValues, List.map_map,
    List.map_map] at hvalues
  rw [groups_stateOf, groups_stateOf, SortedMap.values, SortedMap.values, List.map_map, List.map_map]
  exact hvalues

/-- **Results that are the same** report the same for each tuple. -/
theorem results_perm (h : ∀ d ∈ docs, Conforms schema d) (htells : Tells k groupBy docs)
    (hperm : docs.Perm docs')
    (hfinish : (stateOf N k aggs groupBy (fedBy groupBy docs)).finish =
      (stateOf N k aggs groupBy (fedBy groupBy docs')).finish)
    {tuple : List Value} (hoccurs : ∃ d ∈ docs, Belongs groupBy d.attrs tuple) {label : String} {agg : Agg}
    (hagg : (label, agg) ∈ aggs.entries) :
    finalize (accumulated N agg (membersOf groupBy docs tuple)) agg =
      finalize (accumulated N agg (membersOf groupBy docs' tuple)) agg := by
  have h' : ∀ d ∈ docs', Conforms schema d := fun d hd => h d (hperm.mem_iff.mpr hd)
  have hoccurs' : ∃ d ∈ docs', Belongs groupBy d.attrs tuple := by
    simpa only [← hperm.mem_iff] using hoccurs
  have hempty : groupBy = [] → ∀ tuple ∈ (stateOf N k aggs groupBy (fedBy groupBy docs)).groups.map (·.1),
      tuple = [] := by
    rintro rfl tuple htuple
    obtain ⟨g, hg, rfl⟩ := List.mem_map.mp htuple
    obtain ⟨key, hget⟩ := mem_groups_iff.mp hg
    obtain ⟨-, d, -, hbelongs⟩ := occurs_of_get_keyed h hget
    exact List.forall₂_nil_left_iff.mp hbelongs
  have hslot := @mem_groups N _ κ _ k schema groupBy docs aggs h htells tuple hoccurs
  have hslot' := @mem_groups N _ κ _ k schema groupBy docs' aggs h' (htells.perm hperm) tuple hoccurs'
  have hresults := @results_of_finish N _ (stateOf N k aggs groupBy (fedBy groupBy docs))
    (stateOf N k aggs groupBy (fedBy groupBy docs')) rfl (tuples_perm h htells hperm) (nodup_groups h) hempty
    hfinish _ _ _ hslot hslot'
  have hreported := (results_slotOf _ _).symm.trans (hresults.trans (results_slotOf _ _))
  have hget : aggs.get label = some agg := SortedMap.get_eq_some_iff.mpr hagg
  have hlabel := congrArg (SortedMap.get · label) hreported
  simp only [SortedMap.get_mapValues, hget, Option.map_some, Option.some.injEq] at hlabel
  exact hlabel

/-- Of sparse vectors an extreme reports the first. -/
theorem finalize_first {agg : Agg} {name : String} (hagg : agg = .min name ∨ agg = .max name)
    {attrs : Attrs} {rest : List Attrs} (hv : ((attrs.get name).getD .null).typeOf = some .sparseF16)
    (hrest : ∀ w ∈ present name rest, w.typeOf = some .sparseF16) :
    finalize (accumulated N agg (attrs :: rest)) agg = (attrs.get name).getD .null := by
  have hpresent : present name (attrs :: rest) = (attrs.get name).getD .null :: present name rest := by
    rw [present, List.map_cons, List.filter_cons_of_pos]
    · rfl
    · rw [Value.isNull_of_typeOf hv]
      rfl
  rcases hagg with rfl | rfl
  · rw [accumulated_min, hpresent, extreme_sparse hv hrest]
    rfl
  · rw [accumulated_max, hpresent, extreme_sparse hv hrest]
    rfl

/-- An element can be moved to the front. -/
theorem exists_perm_cons {α : Type} {a : α} {l : List α} (h : a ∈ l) : ∃ rest, l.Perm (a :: rest) := by
  obtain ⟨left, right, rfl⟩ := List.append_of_mem h
  exact ⟨left ++ right, List.perm_middle⟩

/-- **Where the result is the same in any order**, no extreme depends on telling sparse vectors apart. -/
theorem settled_of_ordered [Crates] (h : ∀ d ∈ docs, Conforms schema d)
    (hk : TupleKey k (groupBy.map fun key => key.ty schema)) (htells : Tells k groupBy docs)
    {result : SortedMap String Value × List AggregationGroup}
    (hordered : ∀ docs', docs.Perm docs' → ∃ a' : Aggregator N,
      ((Aggregator.new aggs groupBy).bind fun a => a.feedAll docs') = .ok a' ∧ a'.finish = result)
    {label : String} {agg : Agg} (hagg : (label, agg) ∈ aggs.entries) {name : String}
    (hextreme : agg = .min name ∨ agg = .max name) {tuple : List Value} {v w : Value}
    (hv : v ∈ present name (membersOf groupBy docs tuple))
    (hw : w ∈ present name (membersOf groupBy docs tuple)) (hsparse : BothSparse v w) : v = w := by
  obtain ⟨ty, hty⟩ : ∃ ty, ∀ v ∈ present name (membersOf groupBy docs tuple), v.typeOf = some ty :=
    typeOf_present h name
  obtain rfl : ty = .sparseF16 := Option.some.inj ((hty v hv).symm.trans hsparse.1)
  -- with the document of a value first, it is the value reported
  have hfirst : ∀ v ∈ present name (membersOf groupBy docs tuple), ∃ docs', docs.Perm docs' ∧
      finalize (accumulated N agg (membersOf groupBy docs' tuple)) agg = v ∧
        ∃ d ∈ docs', Belongs groupBy d.attrs tuple := by
    intro v hv
    have htype := hty v hv
    obtain ⟨attrs, hattrs, rfl⟩ := List.mem_map.mp (List.mem_filter.mp hv).1
    obtain ⟨d, hmember, rfl⟩ := List.mem_map.mp hattrs
    obtain ⟨hd, hbelongs⟩ := List.mem_filter.mp hmember
    obtain ⟨rest, hperm⟩ := exists_perm_cons hd
    have hmembers : membersOf groupBy (d :: rest) tuple = d.attrs :: membersOf groupBy rest tuple := by
      rw [membersOf, List.filter_cons, if_pos hbelongs]
      rfl
    refine ⟨d :: rest, hperm, ?_, d, List.mem_cons_self, of_decide_eq_true hbelongs⟩
    rw [hmembers]
    refine finalize_first hextreme htype fun w hw => hty w ?_
    have hmoved : (membersOf groupBy docs tuple).Perm (d.attrs :: membersOf groupBy rest tuple) :=
      hmembers ▸ membersOf_perm hperm tuple
    obtain ⟨hread, hnull⟩ := List.mem_filter.mp hw
    exact (present_perm hmoved name).mem_iff.mpr (List.mem_filter.mpr ⟨List.mem_cons_of_mem _ hread, hnull⟩)
  obtain ⟨docs₁, hperm₁, hreport₁, hoccurs₁⟩ := hfirst v hv
  obtain ⟨docs₂, hperm₂, hreport₂, -⟩ := hfirst w hw
  have h₁ : ∀ d ∈ docs₁, Conforms schema d := fun d hd => h d (hperm₁.mem_iff.mpr hd)
  have h₂ : ∀ d ∈ docs₂, Conforms schema d := fun d hd => h d (hperm₂.mem_iff.mpr hd)
  obtain ⟨a₁, hfed₁, hfinish₁⟩ := hordered docs₁ hperm₁
  obtain ⟨a₂, hfed₂, hfinish₂⟩ := hordered docs₂ hperm₂
  obtain ⟨-, -, rfl⟩ := (feedAll_iff h₁ hk).mp hfed₁
  obtain ⟨-, -, rfl⟩ := (feedAll_iff h₂ hk).mp hfed₂
  rw [← hreport₁, ← hreport₂]
  exact results_perm h₁ (htells.perm hperm₁) (hperm₁.symm.trans hperm₂) (hfinish₁.trans hfinish₂.symm)
    hoccurs₁ hagg

end Back

/-! ## Exactly when -/

/-- **Grouping partitions the documents** exactly when neither tuples nor extremes depend on telling sparse
vectors apart: the order groups are kept in, and the one extremes are taken by, do not. -/
theorem partitions_iff [Crates] (hexact : Numbers.Exact N) {schema : SortedMap String Ty} {docs : List Doc}
    (h : ∀ d ∈ docs, Conforms schema d) {aggs : SortedMap String Agg} {groupBy : List GroupKey}
    {a : Aggregator N} (hfed : ((Aggregator.new aggs groupBy).bind fun a => a.feedAll docs) = .ok a) :
    Partitions aggs groupBy docs a ↔ Clear aggs groupBy docs := by
  obtain ⟨κ, _, k, hk⟩ := exists_tupleKey (groupBy.map fun key => key.ty schema)
  have hkey : TupleKey k (groupBy.map fun key => key.ty schema) := fun t t' ht ht' => (hk t t' ht ht').1
  have hsame : ∀ d ∈ docs, ∀ d' ∈ docs, ∀ tuple tuple', Belongs groupBy d.attrs tuple →
      Belongs groupBy d'.attrs tuple' → (k tuple = k tuple' ↔ SameButSparse tuple tuple') :=
    fun d hd d' hd' tuple tuple' hbelongs hbelongs' =>
      (hk tuple tuple' (hbelongs.nullOr (h d hd)) (hbelongs'.nullOr (h d' hd'))).2
  obtain ⟨hne, hread, rfl⟩ := (feedAll_iff h hkey).mp hfed
  constructor
  · intro hpartitions
    have htuples : ∀ d ∈ docs, ∀ d' ∈ docs, ∀ tuple tuple', Belongs groupBy d.attrs tuple →
        Belongs groupBy d'.attrs tuple' → SameButSparse tuple tuple' → tuple = tuple' := by
      intro d hd d' hd' tuple tuple' hbelongs hbelongs' hsparse
      -- both have a group, and one key has one group
      have hgroup : ∀ tuple, (∃ d ∈ docs, Belongs groupBy d.attrs tuple) →
          ∃ slot, (keyed N k aggs (fedBy groupBy docs)).get (k tuple) = some (tuple, slot) := by
        intro tuple hoccurs
        obtain ⟨⟨_, slot⟩, hg, rfl⟩ := List.mem_map.mp ((hpartitions.tuples tuple).mpr hoccurs)
        obtain ⟨key, hget⟩ := mem_groups_iff.mp hg
        obtain ⟨rfl, -⟩ := occurs_of_get_keyed h hget
        exact ⟨slot, hget⟩
      obtain ⟨slot, hslot⟩ := hgroup tuple ⟨d, hd, hbelongs⟩
      obtain ⟨slot', hslot'⟩ := hgroup tuple' ⟨d', hd', hbelongs'⟩
      rw [(hsame d hd d' hd' tuple tuple' hbelongs hbelongs').mpr hsparse, hslot'] at hslot
      exact (congrArg Prod.fst (Option.some.inj hslot)).symm
    have htells : Tells k groupBy docs := fun d hd d' hd' tuple tuple' hbelongs hbelongs' heq =>
      htuples d hd d' hd' tuple tuple' hbelongs hbelongs'
        ((hsame d hd d' hd' tuple tuple' hbelongs hbelongs').mp heq)
    refine ⟨htuples, ?_⟩
    rintro ⟨label, agg⟩ hagg tuple
    cases agg with
    | min name =>
        exact fun v hv w hw => settled_of_ordered h hkey htells hpartitions.ordered hagg (.inl rfl) hv hw
    | max name =>
        exact fun v hv w hw => settled_of_ordered h hkey htells hpartitions.ordered hagg (.inr rfl) hv hw
    | count _ => trivial
    | sum _ => trivial
    | avg _ => trivial
  · intro hclear
    have htells : Tells k groupBy docs := fun d hd d' hd' tuple tuple' hbelongs hbelongs' heq =>
      hclear.tuples d hd d' hd' tuple tuple' hbelongs hbelongs'
        ((hsame d hd d' hd' tuple tuple' hbelongs hbelongs').mp heq)
    exact partitions_of_clear hexact h hkey htells hclear.extremes hne hread

/-- Documents counted by the elements of their tags. -/
theorem partitions_iff_tags :
    let _ := Crates.inert
    let _ := Numbers.rationals
    let tagged (id : UInt64) (tags : List String) : Doc :=
      ⟨.uint id, [], SortedMap.empty.insert "tags" (.stringArray tags)⟩
    let docs := [tagged 1 ["red", "blue", "red"], tagged 2 [], tagged 3 ["red"]]
    let aggs := SortedMap.empty.insert "n" (.count none)
    ∃ a : Aggregator ℚ, ((Aggregator.new aggs [.forEachUnique "tags"]).bind fun a => a.feedAll docs) = .ok a ∧
      a.groups.map (·.1) = [[.null], [.string "blue"], [.string "red"]] ∧
      (Partitions aggs [.forEachUnique "tags"] docs a ↔ Clear aggs [.forEachUnique "tags"] docs) := by
  intro _ _ tagged docs aggs
  have hconforms : ∀ d ∈ docs, Conforms (SortedMap.empty.insert "tags" .stringArray) d := by
    have htagged (id : UInt64) (tags : List String) :
        Conforms (SortedMap.empty.insert "tags" .stringArray) (tagged id tags) := by
      intro key v hget _
      rw [SortedMap.get_insert] at hget
      split_ifs at hget with hkey
      · cases hget
        exact ⟨.stringArray, by rw [← hkey, SortedMap.get_insert_self], rfl⟩
      · cases hget
    refine List.forall_mem_cons.mpr ⟨htagged _ _, List.forall_mem_cons.mpr ⟨htagged _ _, ?_⟩⟩
    exact List.forall_mem_singleton.mpr (htagged _ _)
  refine ⟨_, rfl, by decide +kernel, ?_⟩
  exact partitions_iff Numbers.exact_rationals hconforms rfl

/-- **Sparse vectors collapse into one group**: no group goes by the second vector. -/
theorem sparse_keys_not_partitioned :
    let _ := Crates.inert
    let _ := Numbers.rationals
    let weighing (id : UInt64) (term : String) : Doc :=
      ⟨.uint id, [], SortedMap.empty.insert "terms" (.sparse (SortedMap.empty.insert term ⟨0x3f800000⟩))⟩
    let docs := [weighing 1 "cat", weighing 2 "dog"]
    let aggs := SortedMap.empty.insert "n" (.count none)
    (∀ d ∈ docs, Conforms (SortedMap.empty.insert "terms" .sparseF16) d) ∧
      ∃ a : Aggregator ℚ, ((Aggregator.new aggs [.attr "terms"]).bind fun a => a.feedAll docs) = .ok a ∧
        ¬ Partitions aggs [.attr "terms"] docs a := by
  intro _ _ weighing docs aggs
  constructor
  · have hweighing (id : UInt64) (term : String) :
        Conforms (SortedMap.empty.insert "terms" .sparseF16) (weighing id term) := by
      intro key v hget _
      rw [SortedMap.get_insert] at hget
      split_ifs at hget with hkey
      · cases hget
        exact ⟨.sparseF16, by rw [← hkey, SortedMap.get_insert_self], rfl⟩
      · cases hget
    exact List.forall_mem_cons.mpr ⟨hweighing _ _, List.forall_mem_singleton.mpr (hweighing _ _)⟩
  · have htuples : (((Aggregator.new aggs [.attr "terms"]).bind fun a => a.feedAll docs).map
        fun a : Aggregator ℚ => a.groups.map (·.1)) =
          .ok [[.sparse (SortedMap.empty.insert "cat" ⟨0x3f800000⟩)]] := by decide +kernel
    cases hfed : ((Aggregator.new aggs [.attr "terms"]).bind fun a => a.feedAll docs :
        Except Error (Aggregator ℚ)) with
    | error err =>
        rw [hfed] at htuples
        cases htuples
    | ok a =>
        rw [hfed] at htuples
        refine ⟨a, rfl, fun h => ?_⟩
        have hgroup := (h.tuples [.sparse (SortedMap.empty.insert "dog" ⟨0x3f800000⟩)]).mpr
          ⟨weighing 2 "dog", List.mem_cons_of_mem _ List.mem_cons_self, .cons rfl .nil⟩
        have hone : a.groups.map (·.1) = _ := Except.ok.inj htuples
        rw [hone] at hgroup
        exact absurd hgroup (by decide +kernel)

end Fckdb
