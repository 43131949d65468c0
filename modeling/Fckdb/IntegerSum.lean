import Fckdb.Partitions
import Fckdb.Lib.IntegerSums

/-! # Sums of integers

`Sum` adds integers up as `f64` numbers and reports an integer when what it has is a whole number below
`9e15`. Integers and partial sums of more than 53 significant bits are rounded on the way, and what that
adds is reported with the sum: it is exact when the roundings cancel (`sum_exact_iff`), as they do when
there are none (`sum_exact_of_small`). -/

namespace Fckdb

open Float.Model Binary64

/-! ## Whole numbers -/

/-- The `f64` is this integer. -/
def F64.Whole (a : F64) (z : ℤ) : Prop :=
  Integral (UnpackedFloat.unpack Format.binary64 a.bits.toBitVec) z

namespace F64.Whole

variable {a b : F64} {y z : ℤ}

theorem toFloat (h : a.Whole z) : Integral a.toFloat.toModel.unpack z := by
  have hsame : a.toFloat.toModel.unpack = UnpackedFloat.unpack Format.binary64 a.bits.toBitVec :=
    h.unpack_pack
  rw [hsame]
  exact h

theorem of_pack {f : UnpackedFloat} (h : Integral f z) : F64.Whole ⟨(Float.Model.pack f).toBits⟩ z := by
  have hsame : UnpackedFloat.unpack Format.binary64 (Float.Model.pack f).toBits.toBitVec = f := h.unpack_pack
  rw [F64.Whole, hsame]
  exact h

theorem zero : (Numbers.zero : F64).Whole 0 := Integral.zero .positive

theorem ofInt64 (i : Int64) : (F64.ofInt64 i).Whole (Binary64.nearest i.toInt) := by
  have hlo := i.le_toInt
  have hhi := i.toInt_lt
  have hsmall : i.toInt.natAbs < 2 ^ 64 := by omega
  exact of_pack (integral_ofInt hsmall)

theorem ofUInt64 (u : UInt64) : (F64.ofUInt64 u).Whole (Binary64.nearest u.toNat) := by
  have hlt := u.toNat_lt
  have hsmall : (u.toNat : ℤ).natAbs < 2 ^ 64 := by omega
  exact of_pack (integral_ofInt hsmall)

theorem add (ha : a.Whole y) (hb : b.Whole z) (h : (y + z).natAbs < 2 ^ 256) :
    (Numbers.add a b).Whole (Binary64.nearest (y + z)) := of_pack (ha.toFloat.add hb.toFloat h)

theorem lt_iff {x x' : Float} (h : Integral x.toModel.unpack y) (h' : Integral x'.toModel.unpack z) :
    x < x' ↔ y < z := by
  show decide (UnpackedFloat.lt x.toModel.unpack x'.toModel.unpack = true) = true ↔ _
  rw [decide_eq_true_iff, UnpackedFloat.lt, h.compare h', beq_iff_eq, Option.some.injEq, compare_lt_iff_lt]

theorem beq_iff {x x' : Float} (h : Integral x.toModel.unpack y) (h' : Integral x'.toModel.unpack z) :
    (x == x') = true ↔ y = z := by
  show UnpackedFloat.beq x.toModel.unpack x'.toModel.unpack = true ↔ _
  rw [UnpackedFloat.beq, h.compare h', beq_iff_eq, Option.some.injEq, compare_eq_iff_eq]

theorem limit : Integral (9e15 : Float).toModel.unpack 9000000000000000 := by
  have hbits : (9e15 : Float).toModel.toBits = 0x433ff973cafa8000 := by decide +kernel
  have hunpack : (9e15 : Float).toModel.unpack = .finite .positive 9000000000000000 0 (by decide) := by
    rw [Float.Model.unpack, hbits]
    rfl
  rw [hunpack]
  exact .finite (n := 9000000000000000) .positive (by decide) (by decide +kernel) (by decide) (by decide)
    (by norm_num)

theorem isNegative_iff (h : a.Whole z) : Numbers.isNegative a = true ↔ z < 0 := by
  have hzero : Integral (0 : Float).toModel.unpack 0 := by
    have hbits : (0 : Float).toModel.toBits = 0 := by decide +kernel
    have hunpack : (0 : Float).toModel.unpack = .zero .positive := by
      rw [Float.Model.unpack, hbits]
      rfl
    rw [hunpack]
    exact .zero .positive
  show decide (a.toFloat < 0) = true ↔ _
  rw [decide_eq_true_iff, lt_iff h.toFloat hzero]

theorem toInt_toInt64 (h : a.Whole z) (hz : |z| < 9000000000000000) :
    (Numbers.toInt64 a).toInt = z := by
  obtain ⟨hlo, hhi⟩ := abs_lt.mp hz
  have hmin : Int64.minValue.toInt = -9223372036854775808 := by decide
  have hmax : Int64.maxValue.toInt = 9223372036854775807 := by decide
  show (Int64.ofIntClamp (a.toFloat.toModel.unpack.toInt _ _)).toInt = z
  rw [h.toFloat.toInt, Int64.toInt_ofIntClamp (by omega) (by omega)]

theorem toNat_toUInt64 (h : a.Whole z) (hneg : 0 ≤ z) (hz : |z| < 9000000000000000) :
    ((Numbers.toUInt64 a).toNat : ℤ) = z := by
  obtain ⟨-, hhi⟩ := abs_lt.mp hz
  show ((UInt64.ofNatClamp (a.toFloat.toModel.unpack.toInt _ _).toNat).toNat : ℤ) = z
  rw [h.toFloat.toInt, UInt64.toNat_ofNatClamp_of_lt, Int.toNat_of_nonneg hneg]
  rw [UInt64.size]
  omega

/-- **Whole numbers are reported as integers** below `9e15`. -/
theorem isWhole_iff (h : a.Whole z) : Numbers.isWhole a = true ↔ |z| < 9000000000000000 := by
  show (decide (a.toFloat.abs < 9e15) && (F64.ofInt64 (Numbers.toInt64 a)).toFloat == a.toFloat) = true ↔ _
  have habs : Integral a.toFloat.abs.toModel.unpack |z| := by
    have hsame : a.toFloat.abs.toModel.unpack = a.toFloat.toModel.unpack.abs := h.toFloat.abs.unpack_pack
    rw [hsame]
    exact h.toFloat.abs
  rw [Bool.and_eq_true, decide_eq_true_iff, lt_iff habs limit]
  refine and_iff_left_of_imp fun hz => ?_
  have hback := (ofInt64 (Numbers.toInt64 a)).toFloat
  rw [h.toInt_toInt64 hz] at hback
  exact (beq_iff hback h.toFloat).mpr h.nearest_eq

end F64.Whole

/-! ## What is summed -/

/-- The integer a value is. -/
def Value.integer : Value → Option ℤ
  | .uint u => some u.toNat
  | .int i => some i.toInt
  | _ => none

/-- The values are these integers. -/
def Integers (vs : List Value) (zs : List ℤ) : Prop := List.Forall₂ (fun v z => v.integer = some z) vs zs

theorem Integers.unique {vs : List Value} {zs zs' : List ℤ} (h : Integers vs zs) (h' : Integers vs zs') :
    zs = zs' := by
  induction h generalizing zs' with
  | nil =>
      cases h'
      rfl
  | cons hv _ ih =>
      cases h' with
      | cons hv' hrest => rw [Option.some.inj (hv.symm.trans hv'), ih hrest]

theorem exists_integers {vs : List Value} : vs.all Value.isInteger = true ↔ ∃ zs, Integers vs zs := by
  induction vs with
  | nil => exact iff_of_true rfl ⟨[], .nil⟩
  | cons v vs ih =>
      rw [List.all_cons, Bool.and_eq_true, ih]
      constructor
      · rintro ⟨hv, zs, hzs⟩
        cases v with
        | uint u => exact ⟨u.toNat :: zs, .cons rfl hzs⟩
        | int i => exact ⟨i.toInt :: zs, .cons rfl hzs⟩
        | _ => cases hv
      · rintro ⟨zs, hzs⟩
        cases hzs with
        | @cons _ z _ zs hv hrest =>
            refine ⟨?_, zs, hrest⟩
            cases v with
            | uint u => rfl
            | int i => rfl
            | _ => cases hv

/-- An integer is added as the number nearest to it. -/
theorem numeric_integer {v : Value} {z : ℤ} (h : v.integer = some z) :
    z.natAbs ≤ 2 ^ 64 ∧ ∃ n : F64, numeric v = some n ∧ n.Whole (Binary64.nearest z) := by
  cases v with
  | uint u =>
      cases h
      have hlt := u.toNat_lt
      exact ⟨by omega, _, rfl, .ofUInt64 u⟩
  | int i =>
      cases h
      have hlo := i.le_toInt
      have hhi := i.toInt_lt
      exact ⟨by omega, _, rfl, .ofInt64 i⟩
  | _ => cases h

/-! ## Adding up -/

/-- **A sum adds up** the values that are present. -/
theorem accumulated_sum {N : Type} [Numbers N] (name : String) (fed : List Attrs) :
    accumulated N (.sum name) fed = (present name fed).foldl Accumulator.addStep .new := by
  induction fed using List.reverseRecOn with
  | nil => rfl
  | append_singleton fed attrs ih =>
      have hread : ((Agg.sum name).read attrs).getD .null = (attrs.get name).getD .null := rfl
      rw [accumulated_concat, ih, Accumulator.step, hread, present_concat]
      cases ((attrs.get name).getD .null).isNull with
      | true => rw [if_pos rfl, if_pos rfl, List.append_nil]
      | false => rw [if_neg Bool.false_ne_true, if_neg Bool.false_ne_true, List.foldl_concat]

/-- What numbers leave in the flags. -/
theorem foldl_addStep_flags {N : Type} [Numbers N] {vs : List Value}
    (h : ∀ v ∈ vs, (numeric (N := N) v).isSome) (acc : Accumulator N) :
    (vs.foldl Accumulator.addStep acc).integral = (acc.integral && vs.all Value.isInteger) ∧
      (vs.foldl Accumulator.addStep acc).seen = (acc.seen || !vs.isEmpty) := by
  induction vs generalizing acc with
  | nil => exact ⟨(Bool.and_true _).symm, (Bool.or_false _).symm⟩
  | cons v vs ih =>
      obtain ⟨hv, hrest⟩ := List.forall_mem_cons.mp h
      obtain ⟨n, hn⟩ := Option.isSome_iff_exists.mp hv
      obtain ⟨hintegral, hseen⟩ := ih hrest (acc.addStep v)
      rw [List.foldl_cons, hintegral, hseen, List.all_cons, Accumulator.addStep, hn]
      exact ⟨Bool.and_assoc .., by rw [Bool.true_or]; exact (Bool.or_true _).symm⟩

/-- **Integers add up to the rounded sum.** -/
theorem whole_foldl {vs : List Value} {zs : List ℤ} (h : Integers vs zs) {acc : Accumulator F64} {r : ℤ}
    (hsum : acc.sum.Whole r) (hr : r.natAbs ≤ 2 ^ 118) :
    (vs.foldl Accumulator.addStep acc).sum.Whole (zs.foldl addRounded r) := by
  induction h generalizing acc r with
  | nil => exact hsum
  | @cons v z vs zs hv _ ih =>
      obtain ⟨hz, n, hn, hwhole⟩ := numeric_integer hv
      obtain ⟨hnext, hbound⟩ := natAbs_addRounded_le hr hz
      have hstep : (acc.addStep v).sum = Numbers.add acc.sum n := by rw [Accumulator.addStep, hn]
      refine ih ?_ hnext
      rw [hstep]
      exact hsum.add hwhole (hbound.trans_lt (by decide))

/-! ## What is reported -/

/-- An integer that is reported is the sum of the integers that were summed, and of nothing else. -/
def ExactSum (reported : Value) (summed : List Value) : Prop :=
  ∀ z, reported.integer = some z → ∃ zs, Integers summed zs ∧ zs.sum = z

/-- The roundings of a sum of integers cancel, or leave it too large to be reported as an integer. -/
def RoundingsCancel (summed : List Value) : Prop :=
  ∀ zs, Integers summed zs → drift 0 zs = 0 ∨ 9000000000000000 ≤ |zs.sum + drift 0 zs|

theorem integer_finalize {acc : Accumulator F64} {s : ℤ} (hseen : acc.seen = true)
    (hintegral : acc.integral = true) (hsum : acc.sum.Whole s) (name : String) :
    (finalize acc (.sum name)).integer = if |s| < 9000000000000000 then some s else none := by
  rw [finalize, hseen, hintegral, Bool.true_and]
  by_cases hs : |s| < 9000000000000000
  · rw [if_neg nofun, if_pos (hsum.isWhole_iff.mpr hs), if_pos hs]
    split
    · exact congrArg some (hsum.toInt_toInt64 hs)
    · next hneg =>
        exact congrArg some (hsum.toNat_toUInt64 (Int.not_lt.mp fun h => hneg (hsum.isNegative_iff.mpr h)) hs)
  · rw [if_neg nofun, if_neg fun h => hs (hsum.isWhole_iff.mp h), if_neg hs]
    rfl

/-- **A sum is exact when its roundings cancel.** -/
theorem exactSum_iff {vs : List Value} (h : ∀ v ∈ vs, (numeric (N := F64) v).isSome) (name : String) :
    ExactSum (finalize (vs.foldl Accumulator.addStep (.new : Accumulator F64)) (.sum name)) vs ↔
      RoundingsCancel vs := by
  obtain ⟨hintegral, hseen⟩ := foldl_addStep_flags h (.new : Accumulator F64)
  cases vs with
  | nil =>
      refine iff_of_true (fun z hz => ⟨[], .nil, Option.some.inj hz⟩) fun zs hzs => ?_
      cases hzs
      exact .inl rfl
  | cons v vs =>
      have hsome : (List.foldl Accumulator.addStep (.new : Accumulator F64) (v :: vs)).seen = true := hseen
      cases hall : (v :: vs).all Value.isInteger with
      | true =>
          obtain ⟨zs, hzs⟩ := exists_integers.mp hall
          have hsum := @whole_foldl _ _ hzs .new _ .zero (by decide)
          rw [hall] at hintegral
          rw [ExactSum, RoundingsCancel, integer_finalize hsome hintegral hsum, foldl_addRounded, zero_add]
          constructor
          · intro hexact zs' hzs'
            obtain rfl := hzs.unique hzs'
            by_cases hs : |zs.sum + drift 0 zs| < 9000000000000000
            · obtain ⟨zs', hzs', hreported⟩ := hexact _ (if_pos hs)
              obtain rfl := hzs.unique hzs'
              exact .inl (by omega)
            · exact .inr (Int.not_lt.mp hs)
          · intro hcancel z hz
            split at hz
            · next hs =>
                have hzero := (hcancel zs hzs).resolve_right (Int.not_le.mpr hs)
                rw [hzero, add_zero] at hz
                exact ⟨zs, hzs, Option.some.inj hz⟩
            · cases hz
      | false =>
          rw [hall] at hintegral
          refine iff_of_true (fun z hz => ?_) fun zs hzs => ?_
          · rw [finalize, hsome, hintegral] at hz
            cases hz
          · rw [exists_integers.mpr ⟨zs, hzs⟩] at hall
            cases hall

/-! ## Documents -/

section Documents

variable {docs : List Doc} {aggs : SortedMap String Agg}

/-- Without a key there is one group. -/
theorem entries_grouped (p : List Value × Attrs) (fed : List (List Value × Attrs)) :
    (grouped (fun _ => ()) (p :: fed)).entries = [((), p.1, (p :: fed).map (·.2))] := by
  induction fed using List.reverseRecOn with
  | nil => rfl
  | append_singleton fed q ih =>
      have hnext : grouped (fun _ => ()) (p :: (fed ++ [q])) = (grouped (fun _ => ()) (p :: fed)).insert ()
          (joinGroup ((grouped (fun _ => ()) (p :: fed)).get ()) q) := List.foldl_concat ..
      have hget : (grouped (fun _ => ()) (p :: fed)).get () = some (p.1, (p :: fed).map (·.2)) :=
        SortedMap.get_eq_some_iff.mpr (ih ▸ List.mem_singleton_self _)
      rw [hnext, hget, SortedMap.insert]
      show SortedMap.insertIn () _ (grouped (fun _ => ()) (p :: fed)).entries = _
      rw [ih, ← List.cons_append, List.map_append]
      rfl

theorem fedBy_ungrouped (docs : List Doc) : fedBy [] docs = docs.map fun d => ([], d.attrs) := by
  induction docs with
  | nil => rfl
  | cons d docs ih =>
      rw [List.map_cons, ← ih]
      rfl

theorem finish_ungrouped (N : Type) [Numbers N] (docs : List Doc) (aggs : SortedMap String Agg) :
    (stateOf N (fun _ => ()) aggs [] (fedBy [] docs)).finish.1 =
      aggs.mapValues fun _ agg => finalize (accumulated N agg (docs.map (·.attrs))) agg := by
  rw [fedBy_ungrouped]
  cases docs with
  | nil => exact results_slotOf (N := N) [] []
  | cons d docs =>
      rw [List.map_cons, stateOf, entries_grouped]
      have hfed : ((([] : List Value), d.attrs) :: docs.map fun d => ([], d.attrs)).map (·.2) =
          (d :: docs).map (·.attrs) := congrArg (d.attrs :: ·) (List.map_map ..)
      rw [hfed]
      exact results_slotOf _ _

variable [Crates]

/-- **Ungrouped results** are of all documents. -/
theorem aggregate_ungrouped {N : Type} [Numbers N] {results : SortedMap String Value}
    {groups : List AggregationGroup} (h : aggregate N docs aggs [] = .ok (results, groups)) :
    (∀ d ∈ docs, ∀ e ∈ aggs.entries, e.2.Readable N d.attrs) ∧
      results = aggs.mapValues fun _ agg => finalize (accumulated N agg (docs.map (·.attrs))) agg := by
  obtain ⟨a, hnew, h⟩ := bind_eq_ok.mp h
  obtain ⟨a', hfed, h⟩ := bind_eq_ok.mp h
  rw [Aggregator.new] at hnew
  split at hnew
  · cases hnew
  cases hnew
  have hkey : TupleKey (fun _ => ()) [] := by
    intro tuple tuple' ht ht'
    cases ht
    cases ht'
    rfl
  have htuples : ∀ d ∈ docs, ∀ tuple ∈ expandKeys [] d.attrs, List.Forall₂ NullOr [] tuple :=
    fun _ _ tuple htuple => List.mem_singleton.mp htuple ▸ .nil
  obtain ⟨hread, rfl⟩ := (feedAll_eq_ok_iff (k := fun _ => ()) hkey htuples
    (fun _ _ => List.cons_ne_nil _ _) (List.forall_mem_nil _)).mp hfed
  rw [← (Prod.mk.inj (Except.ok.inj h)).1]
  exact ⟨hread, finish_ungrouped N docs aggs⟩

/-- **What a sum reports** of the documents: what their numbers add up to. -/
theorem get_sum {results : SortedMap String Value} {groups : List AggregationGroup}
    (h : aggregate F64 docs aggs [] = .ok (results, groups)) {label attr : String}
    (hsum : aggs.get label = some (.sum attr)) :
    (∀ v ∈ present attr (docs.map (·.attrs)), (numeric (N := F64) v).isSome) ∧
      results.get label = some (finalize
        ((present attr (docs.map (·.attrs))).foldl Accumulator.addStep (.new : Accumulator F64)) (.sum attr)) := by
  obtain ⟨hread, rfl⟩ := aggregate_ungrouped h
  constructor
  · intro v hv
    obtain ⟨hmem, hnull⟩ := List.mem_filter.mp hv
    obtain ⟨attrs, hattrs, rfl⟩ := List.mem_map.mp hmem
    obtain ⟨d, hd, rfl⟩ := List.mem_map.mp hattrs
    refine (hread d hd _ (SortedMap.get_eq_some_iff.mp hsum)).resolve_left fun hv => ?_
    have hv : (d.attrs.get attr).getD .null = .null := hv
    rw [hv] at hnull
    cases hnull
  · rw [SortedMap.get_mapValues, hsum, ← accumulated_sum]
    rfl

/-- Small integers are summed exactly, whatever their order. -/
theorem sum_exact_of_small {results : SortedMap String Value} {groups : List AggregationGroup}
    (h : aggregate F64 docs aggs [] = .ok (results, groups)) {label attr : String}
    (hsum : aggs.get label = some (.sum attr))
    (hsmall : ∀ zs, Integers (present attr (docs.map (·.attrs))) zs → (zs.map Int.natAbs).sum ≤ 2 ^ 53)
    {reported : Value} (hreported : results.get label = some reported) :
    ExactSum reported (present attr (docs.map (·.attrs))) := by
  obtain ⟨hnumeric, hget⟩ := get_sum h hsum
  obtain rfl := Option.some.inj (hget.symm.trans hreported)
  refine (exactSum_iff hnumeric attr).mpr fun zs hzs => .inl (drift_eq_zero ?_)
  rw [Int.natAbs_zero, Nat.zero_add]
  exact hsmall zs hzs

/-- **A reported sum is exact** exactly when its roundings cancel. -/
theorem sum_exact_iff {results : SortedMap String Value} {groups : List AggregationGroup}
    (h : aggregate F64 docs aggs [] = .ok (results, groups)) {label attr : String}
    (hsum : aggs.get label = some (.sum attr)) :
    (∀ reported, results.get label = some reported →
      ExactSum reported (present attr (docs.map (·.attrs)))) ↔
        RoundingsCancel (present attr (docs.map (·.attrs))) := by
  obtain ⟨hnumeric, hget⟩ := get_sum h hsum
  rw [hget, ← exactSum_iff hnumeric attr]
  exact ⟨fun hexact => hexact _ rfl, fun hexact _ hreported => Option.some.inj hreported ▸ hexact⟩

end Documents

/-- Three prices and a document without one. -/
theorem sum_exact_iff_prices :
    let _ := Crates.inert
    let priced (id : UInt64) (price : Value) : Doc := ⟨.uint id, [], SortedMap.empty.insert "price" price⟩
    let docs := [priced 1 (.uint 10), priced 2 (.int (-20)), priced 3 .null, priced 4 (.uint 45)]
    let aggs := SortedMap.empty.insert "s" (.sum "price")
    ∃ results groups, aggregate F64 docs aggs [] = .ok (results, groups) ∧
      results.get "s" = some (.uint 35) ∧
      ((∀ reported, results.get "s" = some reported →
        ExactSum reported (present "price" (docs.map (·.attrs)))) ↔
          RoundingsCancel (present "price" (docs.map (·.attrs)))) := by
  intro _ priced docs aggs
  have hget : (aggregate F64 docs aggs []).toOption.bind (·.1.get "s") = some (.uint 35) := by
    decide +kernel
  cases h : aggregate F64 docs aggs [] with
  | error err =>
      rw [h] at hget
      cases hget
  | ok r =>
      rw [h] at hget
      exact ⟨r.1, r.2, rfl, hget, sum_exact_iff h rfl⟩

/-- **One is lost** beside `2^53`: the partial sum is rounded, and zero is reported. -/
theorem lost_one_not_exact :
    let _ := Crates.inert
    let counting (id : UInt64) (n : Value) : Doc := ⟨.uint id, [], SortedMap.empty.insert "n" n⟩
    let docs := [counting 1 (.int 9007199254740992), counting 2 (.uint 1), counting 3 (.int (-9007199254740992))]
    let aggs := SortedMap.empty.insert "s" (.sum "n")
    ∃ results groups, aggregate F64 docs aggs [] = .ok (results, groups) ∧
      results.get "s" = some (.uint 0) ∧
      Integers (present "n" (docs.map (·.attrs))) [9007199254740992, 1, -9007199254740992] ∧
      ¬ ExactSum (.uint 0) (present "n" (docs.map (·.attrs))) := by
  intro _ counting docs aggs
  have hget : (aggregate F64 docs aggs []).toOption.bind (·.1.get "s") = some (.uint 0) := by
    decide +kernel
  have hzs : Integers (present "n" (docs.map (·.attrs))) [9007199254740992, 1, -9007199254740992] :=
    .cons rfl (.cons rfl (.cons rfl .nil))
  cases h : aggregate F64 docs aggs [] with
  | error err =>
      rw [h] at hget
      cases hget
  | ok r =>
      rw [h] at hget
      refine ⟨r.1, r.2, rfl, hget, hzs, fun hexact => ?_⟩
      obtain ⟨zs, hzs', hzero⟩ := hexact 0 rfl
      rw [← hzs.unique hzs'] at hzero
      exact absurd hzero (by decide)

end Fckdb
