import Fckdb.ValueOrder
import Fckdb.Lib.IntegerOrder
import Fckdb.Lib.MixedOrder

/-! # The laws of `Value::compare`

`compare` is reversed by swapping its arguments and is transitive on values that it compares, with one
exception: it compares integers exactly and integers with floats as floats, so that an `f64` equals every
integer that is converted to it, of which it orders no two. -/

namespace Fckdb

open Float.Model Binary64

/-- The `total_cmp` key of an integer as `f64`. -/
def floatKey (z : ℤ) : ℤ := bitsKey (Binary64.nearest z)

theorem floatKey_mono : Monotone floatKey := bitsKey_mono.comp nearest_mono

/-- The key of an integer's bits. -/
theorem totalKey_ofInt {z : ℤ} (h : z.natAbs < 2 ^ 64) :
    totalKey 64 (Float.Model.pack (UnpackedFloat.ofInt Format.binary64 z)).toBits.toNat
      = floatKey z := by
  rcases eq_or_ne z 0 with rfl | hz
  · decide +kernel
  · have hne : Binary64.nearest z ≠ 0 := by
      rw [← Int.natAbs_ne_zero, natAbs_nearest, ne_eq, rounded_eq_zero]
      exact Int.natAbs_ne_zero.mpr hz
    have hintegral := integral_ofInt h
    rw [floatKey]
    generalize Binary64.nearest z = y at hintegral hne ⊢
    generalize UnpackedFloat.ofInt Format.binary64 z = f at hintegral ⊢
    cases hintegral with
    | zero s => exact absurd rfl hne
    | @finite s m n e hm hlog hlo hhi hn =>
        have hbits : (Float.Model.pack (.finite s m e hm)).toBits.toNat =
            s.toBitVec.toNat * 2 ^ 63 + magnitude n := toNat_pack hm hlog hlo hhi hn
        have hlog' := log2_scaled hm.ne' hn
        have hsmall := magnitude_lt (n := n) (by omega)
        have hpos := pos_of_scaled hm hn
        rw [hbits, totalKey, bitsKey]
        cases s with
        | positive =>
            have hsign : (UnpackedFloat.Sign.toBitVec .positive).toNat = 0 := rfl
            have habs : (signum .positive * (n : ℤ)).natAbs = n := by
              rw [signum, one_mul, Int.natAbs_natCast]
            rw [hsign, habs, if_pos (by omega), if_neg (by rw [signum]; omega)]
            omega
        | negative =>
            have hsign : (UnpackedFloat.Sign.toBitVec .negative).toNat = 1 := rfl
            have habs : (signum .negative * (n : ℤ)).natAbs = n := by
              rw [signum, neg_one_mul, Int.natAbs_neg, Int.natAbs_natCast]
            rw [hsign, habs, if_neg (by omega), if_pos (by rw [signum]; omega)]
            omega

theorem F64.totalKey_ofInt64 (i : Int64) : totalKey 64 (F64.ofInt64 i).bits.toNat = floatKey i.toInt := by
  have hlo := i.le_toInt
  have hhi := i.toInt_lt
  exact totalKey_ofInt (by omega)

theorem F64.totalKey_ofUInt64 (u : UInt64) : totalKey 64 (F64.ofUInt64 u).bits.toNat = floatKey u.toNat := by
  have hlt := u.toNat_lt
  exact totalKey_ofInt (by omega)

namespace Value

/-- Where a value stands among the numbers: integers exactly, floats by the key of their bits. -/
def scale : Value → Option (ℤ ⊕ ℤ)
  | uint u => some (.inl u.toNat)
  | int i => some (.inl i.toInt)
  | datetime n => some (.inl n.toInt)
  | f64 f => some (.inr (totalKey 64 f.bits.toNat))
  | _ => none

theorem scale_of_asI128 {v : Value} {x : ℤ} (h : v.asI128 = some x) : v.scale = some (.inl x) := by
  cases v <;> cases h <;> rfl

theorem floatKey_of_asI128 {v : Value} {x : ℤ} {f : F64} (h : v.asI128 = some x) (hf : v.asF64 = some f) :
    floatKey x = totalKey 64 f.bits.toNat := by
  cases v with
  | uint u =>
      cases h
      cases hf
      exact (F64.totalKey_ofUInt64 u).symm
  | int i =>
      cases h
      cases hf
      exact (F64.totalKey_ofInt64 i).symm
  | datetime n =>
      cases h
      cases hf
      exact (F64.totalKey_ofInt64 n).symm
  | _ => cases h

theorem scale_cases {v : Value} {s : ℤ ⊕ ℤ} (h : v.scale = some s) :
    (∃ x, v.asI128 = some x ∧ s = .inl x) ∨ ∃ f, v = f64 f ∧ s = .inr (totalKey 64 f.bits.toNat) := by
  cases v with
  | uint u => exact .inl ⟨_, rfl, (Option.some.inj h).symm⟩
  | int i => exact .inl ⟨_, rfl, (Option.some.inj h).symm⟩
  | datetime n => exact .inl ⟨_, rfl, (Option.some.inj h).symm⟩
  | f64 f => exact .inr ⟨f, rfl, (Option.some.inj h).symm⟩
  | _ => cases h

/-- Integers are compared exactly. -/
theorem compare_of_asI128 {a b : Value} {x y : ℤ} {o : Ordering} (ha : a.asI128 = some x)
    (hb : b.asI128 = some y) (h : a.compare b = some o) : o = cmp x y := by
  have hnat (m n : Nat) : cmp m n = cmp (m : ℤ) n := by
    simp only [cmp, cmpUsing, Int.ofNat_lt]
  cases a with
  | uint u =>
      cases b with
      | uint v =>
          cases ha
          cases hb
          exact (Option.some.inj h).symm.trans (hnat _ _)
      | int j =>
          cases ha
          cases hb
          exact (Option.some.inj h).symm
      | datetime m => cases h
      | _ => cases hb
  | int i =>
      cases b with
      | uint v =>
          cases ha
          cases hb
          exact (Option.some.inj h).symm
      | int j =>
          cases ha
          cases hb
          exact (Option.some.inj h).symm
      | datetime m => cases h
      | _ => cases hb
  | datetime n =>
      cases b with
      | datetime m =>
          cases ha
          cases hb
          exact (Option.some.inj h).symm
      | uint v => cases h
      | int j => cases h
      | _ => cases hb
  | _ => cases ha

/-- `compare` on numbers is the mixed order. -/
theorem compare_of_scale {a b : Value} {s t : ℤ ⊕ ℤ} {o : Ordering} (ha : a.scale = some s)
    (hb : b.scale = some t) (h : a.compare b = some o) : o = mixedCmp floatKey s t := by
  rcases scale_cases ha with ⟨x, hx, rfl⟩ | ⟨f, rfl, rfl⟩
  · rcases scale_cases hb with ⟨y, hy, rfl⟩ | ⟨g, rfl, rfl⟩
    · exact compare_of_asI128 hx hy h
    · have hcmp : a.compare (f64 g) = a.asF64.map (·.totalCmp g) := by
        cases a <;> first | rfl | cases hx
      obtain ⟨f, hf, rfl⟩ := Option.map_eq_some_iff.mp (hcmp.symm.trans h)
      rw [mixedCmp, floatKey_of_asI128 hx hf]
      rfl
  · rcases scale_cases hb with ⟨y, hy, rfl⟩ | ⟨g, rfl, rfl⟩
    · have hcmp : (f64 f).compare b = b.asF64.map f.totalCmp := by
        cases b <;> first | rfl | cases hy
      obtain ⟨g, hg, rfl⟩ := Option.map_eq_some_iff.mp (hcmp.symm.trans h)
      rw [mixedCmp, floatKey_of_asI128 hy hg]
      rfl
    · exact (Option.some.inj h).symm

/-- What is compared is of one type or both numbers, or one of them is null. -/
theorem compare_cases {a b : Value} {o : Ordering} (h : a.compare b = some o) :
    a = null ∨ b = null ∨ (a.scale.isSome ∧ b.scale.isSome) ∨
      ∃ ty, ty ≠ .sparseF16 ∧ a.scale = none ∧ b.scale = none ∧ a.typeOf = some ty ∧ b.typeOf = some ty := by
  cases a <;> cases b <;> first
    | exact .inl rfl
    | exact .inr (.inl rfl)
    | exact .inr (.inr (.inl ⟨rfl, rfl⟩))
    | exact .inr (.inr (.inr ⟨_, by decide, rfl, rfl, rfl, rfl⟩))
    | cases h

/-- Swapping the arguments of `compare` reverses it. -/
theorem compare_swap (a b : Value) : b.compare a = (a.compare b).map Ordering.swap := by
  cases a <;> cases b <;> first | rfl | exact congrArg some (cmp_swap _ _).symm

/-! ## Three values -/

/-- `compare` on three values: it is reversed by swapping, and what it says of them is consistent. -/
structure LawfulAt (a b c : Value) : Prop where
  swap : b.compare a = (a.compare b).map Ordering.swap
  chained : ∀ {p q r : Ordering}, a.compare b = some p → b.compare c = some q → a.compare c = some r →
    Chained p q r

/-- Two integers of one kind, related as given, that convert to one `f64`. -/
structure MergedBy (R : ℤ → ℤ → Prop) (f : F64) (a b : Value) : Prop where
  left : a.asF64 = some f
  right : b.asF64 = some f
  kind : a.typeOf = some .datetime ↔ b.typeOf = some .datetime
  apart : ∃ x y, a.asI128 = some x ∧ b.asI128 = some y ∧ R x y

/-- One of the three is an `f64` that both others convert to, and these are in an order that shows it. -/
inductive Merged : Value → Value → Value → Prop
  | first {f : F64} {b c : Value} (h : MergedBy (· < ·) f b c) : Merged (f64 f) b c
  | middle {f : F64} {a c : Value} (h : MergedBy (· ≠ ·) f a c) : Merged a (f64 f) c
  | last {f : F64} {a b : Value} (h : MergedBy (· < ·) f a b) : Merged a b (f64 f)

/-- Three numbers are ordered consistently unless the float among them merges the others. -/
theorem chained_iff_of_scale {a b c : Value} {s t u : ℤ ⊕ ℤ} {p q r : Ordering} (ha : a.scale = some s)
    (hb : b.scale = some t) (hc : c.scale = some u) (hab : a.compare b = some p) (hbc : b.compare c = some q)
    (hac : a.compare c = some r) : Chained p q r ↔ ¬ Conflates floatKey s t u := by
  rw [compare_of_scale ha hb hab, compare_of_scale hb hc hbc, compare_of_scale ha hc hac]
  exact chained_mixedCmp_iff floatKey_mono s t u

theorem asI128_of_scale {v : Value} {x : ℤ} (h : v.scale = some (.inl x)) : v.asI128 = some x := by
  rcases scale_cases h with ⟨y, hy, heq⟩ | ⟨f, -, heq⟩
  · cases heq
    exact hy
  · cases heq

/-- The key tells which float an integer converts to. -/
theorem asF64_of_floatKey {v : Value} {x : ℤ} {f : F64} (h : v.asI128 = some x)
    (hkey : floatKey x = totalKey 64 f.bits.toNat) : v.asF64 = some f := by
  obtain ⟨g, hg⟩ : ∃ g, v.asF64 = some g := by
    cases v <;> first | exact ⟨_, rfl⟩ | cases h
  have hbits := totalKey_inj ((floatKey_of_asI128 h hg).symm.trans hkey)
  rw [hg]
  exact congrArg (fun bits => some (F64.mk bits)) (UInt64.toNat_inj.mp hbits)

/-- Integers are compared when they are of one kind. -/
theorem exists_compare_iff {a b : Value} {x y : ℤ} (ha : a.asI128 = some x) (hb : b.asI128 = some y) :
    (∃ o, a.compare b = some o) ↔ (a.typeOf = some .datetime ↔ b.typeOf = some .datetime) := by
  cases a <;> first
    | cases ha; done
    | cases b <;> first
      | cases hb; done
      | exact iff_of_true ⟨_, rfl⟩ (iff_of_true rfl rfl)
      | exact iff_of_true ⟨_, rfl⟩ (iff_of_false nofun nofun)
      | exact iff_of_false nofun fun h => absurd (h.mp rfl) nofun
      | exact iff_of_false nofun fun h => absurd (h.mpr rfl) nofun

theorem exists_compare_f64 {a : Value} {x : ℤ} (f : F64) (ha : a.asI128 = some x) :
    (∃ o, (f64 f).compare a = some o) ∧ ∃ o, a.compare (f64 f) = some o := by
  cases a <;> first | exact ⟨⟨_, rfl⟩, ⟨_, rfl⟩⟩ | cases ha

theorem f64_of_scale {v : Value} {k : ℤ} (h : v.scale = some (.inr k)) :
    ∃ f, v = f64 f ∧ k = totalKey 64 f.bits.toNat := by
  rcases scale_cases h with ⟨x, -, heq⟩ | ⟨f, rfl, heq⟩
  · cases heq
  · exact ⟨f, rfl, Sum.inr.inj heq⟩

/-- Integers that are compared are merged by the float that both their keys are of. -/
theorem MergedBy.of_keys {R : ℤ → ℤ → Prop} {a b : Value} {x y : ℤ} {f : F64} {o : Ordering}
    (ha : a.scale = some (.inl x)) (hb : b.scale = some (.inl y)) (hab : a.compare b = some o) (h : R x y)
    (hx : floatKey x = totalKey 64 f.bits.toNat) (hy : floatKey y = totalKey 64 f.bits.toNat) :
    MergedBy R f a b := by
  have ha := asI128_of_scale ha
  have hb := asI128_of_scale hb
  exact ⟨asF64_of_floatKey ha hx, asF64_of_floatKey hb hy, (exists_compare_iff ha hb).mp ⟨o, hab⟩,
    x, y, ha, hb, h⟩

/-- The values that are merged are found from their keys. -/
theorem merged_of_conflates {a b c : Value} {s t u : ℤ ⊕ ℤ} {p q r : Ordering} (ha : a.scale = some s)
    (hb : b.scale = some t) (hc : c.scale = some u) (hab : a.compare b = some p) (hbc : b.compare c = some q)
    (hac : a.compare c = some r) (h : Conflates floatKey s t u) : Merged a b c := by
  cases h with
  | @first x y v hlt hx hy =>
      obtain ⟨f, rfl, rfl⟩ := f64_of_scale ha
      exact .first (.of_keys hb hc hbc hlt hx hy)
  | @middle x y v hne hx hy =>
      obtain ⟨f, rfl, rfl⟩ := f64_of_scale hb
      exact .middle (.of_keys ha hc hac hne hx hy)
  | @last x y v hlt hx hy =>
      obtain ⟨f, rfl, rfl⟩ := f64_of_scale hc
      exact .last (.of_keys ha hb hab hlt hx hy)

/-- Merged integers are not ordered consistently. -/
theorem LawfulAt.not_merged {a b c : Value} (h : LawfulAt a b c) : ¬ Merged a b c := by
  intro hmerged
  cases hmerged with
  | @first f b c h' =>
      obtain ⟨hb, hc, hkind, x, y, hx, hy, hlt⟩ := h'
      obtain ⟨⟨p, hp⟩, -⟩ := exists_compare_f64 f hx
      obtain ⟨⟨r, hr⟩, -⟩ := exists_compare_f64 f hy
      obtain ⟨q, hq⟩ := (exists_compare_iff hx hy).mpr hkind
      exact (chained_iff_of_scale rfl (scale_of_asI128 hx) (scale_of_asI128 hy) hp hq hr).mp
        (h.chained hp hq hr) (.first hlt (floatKey_of_asI128 hx hb) (floatKey_of_asI128 hy hc))
  | @middle f a c h' =>
      obtain ⟨ha, hc, hkind, x, y, hx, hy, hne⟩ := h'
      obtain ⟨-, p, hp⟩ := exists_compare_f64 f hx
      obtain ⟨⟨q, hq⟩, -⟩ := exists_compare_f64 f hy
      obtain ⟨r, hr⟩ := (exists_compare_iff hx hy).mpr hkind
      exact (chained_iff_of_scale (scale_of_asI128 hx) rfl (scale_of_asI128 hy) hp hq hr).mp
        (h.chained hp hq hr) (.middle hne (floatKey_of_asI128 hx ha) (floatKey_of_asI128 hy hc))
  | @last f a b h' =>
      obtain ⟨ha, hb, hkind, x, y, hx, hy, hlt⟩ := h'
      obtain ⟨-, q, hq⟩ := exists_compare_f64 f hy
      obtain ⟨-, r, hr⟩ := exists_compare_f64 f hx
      obtain ⟨p, hp⟩ := (exists_compare_iff hx hy).mpr hkind
      exact (chained_iff_of_scale (scale_of_asI128 hx) (scale_of_asI128 hy) rfl hp hq hr).mp
        (h.chained hp hq hr) (.last hlt (floatKey_of_asI128 hx ha) (floatKey_of_asI128 hy hb))

theorem null_compare (v : Value) : null.compare v = some (if v.isNull then .eq else .lt) := by
  cases v <;> rfl

theorem compare_null (v : Value) : v.compare null = some (if v.isNull then .eq else .gt) := by
  cases v <;> rfl

/-- Null is below everything else. -/
theorem chained_of_null {a b c : Value} {p q r : Ordering} (hnull : a = null ∨ b = null ∨ c = null)
    (hab : a.compare b = some p) (hbc : b.compare c = some q) (hac : a.compare c = some r) :
    Chained p q r := by
  rcases hnull with rfl | rfl | rfl
  · rw [null_compare] at hab hac
    cases hb : b.isNull with
    | true =>
        rw [hb] at hab
        rw [eq_null_of_isNull hb, null_compare, hac] at hbc
        cases hab
        cases hbc
        exact fun _ hr => ⟨hr, Or.rec nofun id, fun _ => id⟩
    | false =>
        rw [hb] at hab
        cases hab
        cases hc : c.isNull with
        | true =>
            rw [eq_null_of_isNull hc, compare_null, hb] at hbc
            cases hbc
            exact fun _ hq => absurd rfl hq
        | false =>
            rw [hc] at hac
            cases hac
            exact fun _ _ => ⟨nofun, fun _ => rfl, nofun⟩
  · rw [compare_null] at hab
    rw [null_compare] at hbc
    cases ha : a.isNull with
    | true =>
        rw [ha] at hab
        rw [eq_null_of_isNull ha, null_compare, hbc] at hac
        cases hab
        cases hac
        exact fun _ hr => ⟨hr, Or.rec nofun id, fun _ => id⟩
    | false =>
        rw [ha] at hab
        cases hab
        exact fun hp => absurd rfl hp
  · rw [compare_null] at hbc hac
    cases hb : b.isNull with
    | true =>
        rw [hb] at hbc
        rw [eq_null_of_isNull hb, compare_null, hac] at hab
        cases hbc
        cases hab
        exact fun hr _ => ⟨hr, Or.rec id nofun, fun h _ => h⟩
    | false =>
        rw [hb] at hbc
        cases hbc
        exact fun _ hq => absurd rfl hq

/-- **The laws of `compare`**: they hold of three values unless one is an `f64` that merges the others. -/
theorem lawfulAt_iff (a b c : Value) : LawfulAt a b c ↔ ¬ Merged a b c := by
  refine ⟨LawfulAt.not_merged, fun h => ⟨compare_swap a b, fun {p q r} hab hbc hac => ?_⟩⟩
  by_cases hnull : a = null ∨ b = null ∨ c = null
  · exact chained_of_null hnull hab hbc hac
  · obtain ⟨ha, hb, hc⟩ := not_or.mp hnull |>.imp id not_or.mp
    rcases (((compare_cases hab).resolve_left ha).resolve_left hb) with ⟨hs, ht⟩ | ⟨ty, hty, -, hb', hta, htb⟩
    · rcases (((compare_cases hbc).resolve_left hb).resolve_left hc) with ⟨-, hu⟩ | ⟨_, -, ht', -⟩
      · obtain ⟨s, hs⟩ := Option.isSome_iff_exists.mp hs
        obtain ⟨t, ht⟩ := Option.isSome_iff_exists.mp ht
        obtain ⟨u, hu⟩ := Option.isSome_iff_exists.mp hu
        exact (chained_iff_of_scale hs ht hu hab hbc hac).mpr fun hm => h (merged_of_conflates hs ht hu hab hbc hac hm)
      · rw [ht'] at ht
        cases ht
    · rcases (((compare_cases hbc).resolve_left hb).resolve_left hc) with ⟨ht, -⟩ | ⟨_, -, -, -, htb', htc⟩
      · rw [hb'] at ht
        cases ht
      · cases htb.symm.trans htb'
        obtain ⟨κ, _, k, hk⟩ := exists_compareKey hty
        obtain rfl := Option.some.inj (hab.symm.trans (hk a b hta htb).1)
        obtain rfl := Option.some.inj (hbc.symm.trans (hk b c htb htc).1)
        obtain rfl := Option.some.inj (hac.symm.trans (hk a c hta htc).1)
        exact chained_cmp (k a) (k b) (k c)

/-- `2^53 + 1` and `2^53` are both equal to the float `2^53`, and differ. -/
theorem not_lawfulAt : ¬ ∀ a b c : Value, LawfulAt a b c := by
  intro h
  have hab : (uint 9007199254740993).compare (f64 ⟨0x4340000000000000⟩) = some .eq := by decide +kernel
  have hbc : (f64 ⟨0x4340000000000000⟩).compare (uint 9007199254740992) = some .eq := by decide +kernel
  have hac : (uint 9007199254740993).compare (uint 9007199254740992) = some .gt := by decide +kernel
  exact ((h _ _ _).chained hab hbc hac nofun nofun).1 rfl

end Value

end Fckdb
