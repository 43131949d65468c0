import Fckdb.ValueOrder
import Fckdb.Lib.Binary64

/-! # Coercion

`Value.coerce` gives null, the value itself, or one of a few conversions (`Converts`). What a value
denotes (`Denotes`) is kept by all of them but one: an integer of more than 53 significant bits is
rounded on its way to `f64`. -/

namespace Fckdb

namespace Value

section Converts

variable [Crates]

/-- What `coerce` can do. -/
inductive Converts : Value → Ty → Value → Prop
  | null (ty : Ty) : Converts .null ty .null
  | self {v : Value} {ty : Ty} (h : v.typeOf = some ty) : Converts v ty v
  | uuid {s : String} {u : Uuid} (h : Crates.uuidParse s = .ok u) :
      Converts (.string s) .uuid (.uuid u)
  | datetime {s : String} {n : Int64} (h : parseDatetime s = .ok n) :
      Converts (.string s) .datetime (.datetime n)
  | uintInt {u : UInt64} {i : Int64} (h : int64TryFrom u = .ok i) : Converts (.uint u) .int (.int i)
  | uintF64 (u : UInt64) : Converts (.uint u) .f64 (.f64 (.ofUInt64 u))
  | intF64 (i : Int64) : Converts (.int i) .f64 (.f64 (.ofInt64 i))
  | intUint {i : Int64} {u : UInt64} (h : uint64TryFrom i = .ok u) :
      Converts (.int i) .uint (.uint u)
  | uintDatetime {u : UInt64} {n : Int64} (h : int64TryFrom u = .ok n) :
      Converts (.uint u) .datetime (.datetime n)
  | decimals (a : List UInt64) :
      Converts (.uintArray a) .stringArray (.stringArray (a.map fun u => toString u.toNat))
  | noUints : Converts (.stringArray []) .uintArray (.uintArray [])
  | noInts : Converts (.stringArray []) .intArray (.intArray [])
  | uintsInts {a : List UInt64} {b : List Int64} (h : collect (a.map int64TryFrom) = .ok b) :
      Converts (.uintArray a) .intArray (.intArray b)

/-- A value of the type is its own coercion. -/
theorem coerce_of_typeOf {v : Value} {ty : Ty} (h : v.typeOf = some ty) : v.coerce ty = .ok v := by
  rw [coerce.eq_def, isNull_of_typeOf h, if_neg Bool.false_ne_true, if_pos h]

/-- **All that `coerce` does.** -/
theorem converts_of_coerce {v w : Value} {ty : Ty} (h : v.coerce ty = .ok w) :
    Converts v ty w := by
  by_cases ht : v.typeOf = some ty
  · rw [coerce_of_typeOf ht] at h
    cases h
    exact .self ht
  cases v with
  | null =>
      cases h
      exact .null ty
  | string s =>
      cases ty with
      | string => exact absurd rfl ht
      | uuid =>
          have hnull : ¬ (string s).isNull = true := Bool.false_ne_true
          rw [coerce.eq_def, if_neg hnull, if_neg ht] at h
          dsimp only at h
          split at h
          · next u hu =>
            cases h
            exact .uuid hu
          · cases h
      | datetime =>
          obtain ⟨n, hn, rfl⟩ := map_eq_ok.mp h
          exact .datetime hn
      | _ => cases h
  | uint u =>
      cases ty with
      | uint => exact absurd rfl ht
      | int =>
          obtain ⟨i, hi, rfl⟩ := map_eq_ok.mp h
          exact .uintInt hi
      | f64 =>
          cases h
          exact .uintF64 u
      | datetime =>
          obtain ⟨n, hn, rfl⟩ := map_eq_ok.mp h
          exact .uintDatetime hn
      | _ => cases h
  | int i =>
      cases ty with
      | int => exact absurd rfl ht
      | uint =>
          obtain ⟨u, hu, rfl⟩ := map_eq_ok.mp h
          exact .intUint hu
      | f64 =>
          cases h
          exact .intF64 i
      | _ => cases h
  | uintArray a =>
      cases ty with
      | uintArray => exact absurd rfl ht
      | stringArray =>
          cases h
          exact .decimals a
      | intArray =>
          obtain ⟨b, hb, rfl⟩ := map_eq_ok.mp h
          exact .uintsInts hb
      | _ => cases h
  | stringArray a =>
      cases a with
      | nil =>
          cases ty with
          | stringArray => exact absurd rfl ht
          | uintArray =>
              cases h
              exact .noUints
          | intArray =>
              cases h
              exact .noInts
          | _ => cases h
      | cons s a =>
          cases ty with
          | stringArray => exact absurd rfl ht
          | _ => cases h
  | _ => cases ty <;> first | exact absurd rfl ht | cases h

/-- Coercing to a type gives null or a value of the type. -/
theorem typeOf_coerce {v w : Value} {ty : Ty} (h : v.coerce ty = .ok w) :
    w.isNull = true ∨ w.typeOf = some ty := by
  cases converts_of_coerce h with
  | null => exact Or.inl rfl
  | self ht => exact Or.inr ht
  | _ => exact Or.inr rfl

/-- Coercing again changes nothing. -/
theorem coerce_coerce {v w : Value} {ty : Ty} (h : v.coerce ty = .ok w) : w.coerce ty = .ok w := by
  rcases typeOf_coerce h with hn | ht
  · rw [eq_null_of_isNull hn]
    rfl
  · exact coerce_of_typeOf ht

end Converts

end Value

/-! ## The number a bit pattern stands for -/

/-- The number an `f64` stands for; the infinities and NaNs stand for none. -/
def F64.number (a : F64) : Option ℚ :=
  Binary64.number (.unpack Float.Model.Format.binary64 a.bits.toBitVec)

theorem F64.number_ofUInt64 (u : UInt64) :
    (F64.ofUInt64 u).number = some (Binary64.rounded u.toNat : ℚ) := by
  have h := Binary64.number_ofInt (z := (u.toNat : ℤ)) u.toNat_lt
  rw [Int.natAbs_natCast] at h
  refine h.trans (congrArg some ?_)
  rcases Nat.eq_zero_or_pos u.toNat with hu | hu
  · rw [hu]
    decide +kernel
  · rw [Int.sign_eq_one_of_pos (by omega), Int.cast_one, one_mul]

theorem F64.number_ofInt64 (i : Int64) :
    (F64.ofInt64 i).number = some ((i.toInt.sign : ℚ) * Binary64.rounded i.toInt.natAbs) := by
  have hlo := i.le_toInt
  have hhi := i.toInt_lt
  exact Binary64.number_ofInt (by omega)

/-! ## What a value denotes -/

namespace Value

/-- The value denotes these numbers: a number denotes itself, a datetime its nanoseconds, an array
the numbers of its elements, and strings the naturals they write in decimal. -/
inductive Denotes : Value → List ℚ → Prop
  | uint (u : UInt64) : Denotes (.uint u) [(u.toNat : ℚ)]
  | int (i : Int64) : Denotes (.int i) [(i.toInt : ℚ)]
  | f64 (f : F64) {q : ℚ} (h : f.number = some q) : Denotes (.f64 f) [q]
  | datetime (n : Int64) : Denotes (.datetime n) [(n.toInt : ℚ)]
  | uintArray (a : List UInt64) : Denotes (.uintArray a) (a.map fun u => (u.toNat : ℚ))
  | intArray (a : List Int64) : Denotes (.intArray a) (a.map fun i => (i.toInt : ℚ))
  | decimals (a : List ℕ) : Denotes (.stringArray (a.map toString)) (a.map Nat.cast)

theorem toString_injective : Function.Injective (toString : ℕ → String) := by
  intro a b h
  have h : a.repr.toList = b.repr.toList := congrArg String.toList h
  rw [Nat.toList_repr, Nat.toList_repr] at h
  rw [← Nat.ofDigitChars_toDigits (n := a) (b := 10) (by decide) (by decide), h,
    Nat.ofDigitChars_toDigits (by decide) (by decide)]

/-- A value denotes its numbers and no others. -/
theorem Denotes.unique {v : Value} {ns ms : List ℚ} (h : v.Denotes ns) (h' : v.Denotes ms) :
    ns = ms := by
  cases h with
  | f64 f hq =>
      cases h' with
      | f64 _ hq' => rw [Option.some.inj (hq.symm.trans hq')]
  | decimals a =>
      generalize hs : Value.stringArray (a.map toString) = v at h'
      cases h' with
      | decimals b =>
          have := List.map_injective_iff.mpr toString_injective (Value.stringArray.inj hs)
          rw [this]
      | _ => cases hs
  | _ => cases h'; rfl

variable [Crates]

omit [Crates] in
/-- No sparse vector denotes a number. -/
theorem Denotes.exists_typeOf {v : Value} {ns : List ℚ} (h : v.Denotes ns) :
    ∃ ty, v.typeOf = some ty ∧ ty ≠ .sparseF16 := by
  cases h <;> exact ⟨_, rfl, by decide⟩

/-! ## Conversions that lose nothing -/

/-- Coercing `v` to `ty` gives null or a value of the type, which denotes what `v` denotes and is
its own coercion. -/
def Kept (v : Value) (ty : Ty) : Prop :=
  ∀ v', v.coerce ty = .ok v' → (v' = .null ∨ v'.typeOf = some ty) ∧
    (∀ ns, v.Denotes ns → v'.Denotes ns) ∧ v'.coerce ty = .ok v'

/-- Coercing `v` and `w`, of one type, tells the numbers they denote apart. -/
def KeptApart (v w : Value) (ty : Ty) : Prop :=
  ∀ v' w' ns ms, v.typeOf = w.typeOf → v.Denotes ns → w.Denotes ms → ns ≠ ms →
    v.coerce ty = .ok v' → w.coerce ty = .ok w' → v' ≠ w' ∧ v'.equals w' = false

/-- An integer on its way to `f64` has at most 53 significant bits. -/
def FitsF64 : Value → Ty → Prop
  | .uint u, .f64 => Binary64.Significant u.toNat
  | .int i, .f64 => Binary64.Significant i.toInt.natAbs
  | _, _ => True

omit [Crates] in
theorem int64TryFrom_eq_ok {u : UInt64} {i : Int64} (h : int64TryFrom u = .ok i) :
    i.toInt = u.toNat := by
  rw [int64TryFrom] at h
  split_ifs at h with hu
  cases h
  exact Int64.toInt_ofNat_of_lt hu

omit [Crates] in
theorem uint64TryFrom_eq_ok {i : Int64} {u : UInt64} (h : uint64TryFrom i = .ok u) :
    (u.toNat : ℤ) = i.toInt := by
  rw [uint64TryFrom] at h
  split_ifs at h with hi
  cases h
  have hlt := i.toInt_lt
  have hbound : i.toInt.toNat < UInt64.size := by
    rw [show UInt64.size = 2 ^ 64 from rfl]
    omega
  rw [UInt64.toNat_ofNat_of_lt' hbound]
  exact Int.toNat_of_nonneg hi

omit [Crates] in
theorem collect_int64TryFrom {a : List UInt64} {b : List Int64}
    (h : collect (a.map int64TryFrom) = .ok b) :
    b.map (fun i => (i.toInt : ℚ)) = a.map fun u => (u.toNat : ℚ) := by
  replace h := List.forall₂_map_left_iff.mp (collect_eq_ok h)
  induction h with
  | nil => rfl
  | cons hi _ ih =>
      rw [List.map_cons, List.map_cons, ih, int64TryFrom_eq_ok hi, Int.cast_natCast]

/-- **What coercion gives denotes the same numbers**, integers that do not fit an `f64` apart. -/
theorem denotes_coerce {v w : Value} {ty : Ty} {ns : List ℚ} (hfit : v.FitsF64 ty)
    (hns : v.Denotes ns) (h : v.coerce ty = .ok w) : w.Denotes ns := by
  cases converts_of_coerce h with
  | self _ => exact hns
  | null | uuid _ | datetime _ => cases hns
  | uintInt hi | uintDatetime hi =>
      cases hns
      rw [← Int.cast_natCast, ← int64TryFrom_eq_ok hi]
      constructor
  | uintF64 u =>
      cases hns
      exact .f64 _ ((F64.number_ofUInt64 u).trans
        (congrArg some (congrArg Nat.cast ((Binary64.rounded_eq_iff _).mpr hfit))))
  | intF64 i =>
      cases hns
      exact .f64 _ ((F64.number_ofInt64 i).trans
        (congrArg some ((Binary64.sign_mul_rounded_eq_iff _).mpr hfit)))
  | intUint hu =>
      cases hns
      rw [← uint64TryFrom_eq_ok hu, Int.cast_natCast]
      exact .uint _
  | decimals a =>
      cases hns
      have hs : a.map (fun u => toString u.toNat) = (a.map UInt64.toNat).map toString :=
        (List.map_map ..).symm
      have hn : a.map (fun u => (u.toNat : ℚ)) = (a.map UInt64.toNat).map Nat.cast :=
        (List.map_map ..).symm
      rw [hs, hn]
      exact .decimals _
  | noUints =>
      rw [hns.unique (.decimals [])]
      exact .uintArray []
  | noInts =>
      rw [hns.unique (.decimals [])]
      exact .intArray []
  | uintsInts hb =>
      cases hns
      rw [← collect_int64TryFrom hb]
      exact .intArray _

theorem kept_of_fits {v : Value} {ty : Ty} (hfit : v.FitsF64 ty) : Kept v ty := fun _ h =>
  ⟨(typeOf_coerce h).imp eq_null_of_isNull id, fun _ hns => denotes_coerce hfit hns h,
    coerce_coerce h⟩

/-- A conversion to `f64` that keeps the number was of one that fits. -/
theorem fits_of_kept {v : Value} {ty : Ty} (h : Kept v ty) : v.FitsF64 ty := by
  cases v with
  | uint u =>
      cases ty with
      | f64 =>
          obtain ⟨-, hkeep, -⟩ := h _ rfl
          have hq := (F64.number_ofUInt64 u).symm
          cases hkeep _ (.uint u) with
          | f64 _ h =>
              exact (Binary64.rounded_eq_iff _).mp (Nat.cast_injective (Option.some.inj (hq.trans h)))
      | _ => trivial
  | int i =>
      cases ty with
      | f64 =>
          obtain ⟨-, hkeep, -⟩ := h _ rfl
          have hq := (F64.number_ofInt64 i).symm
          cases hkeep _ (.int i) with
          | f64 _ h => exact (Binary64.sign_mul_rounded_eq_iff _).mp (Option.some.inj (hq.trans h))
      | _ => trivial
  | _ => trivial

/-- **Values that denote different numbers stay apart** when both are kept. -/
theorem keptApart_of_kept {v w : Value} {ty : Ty} (hv : Kept v ty) (hw : Kept w ty) :
    KeptApart v w ty := by
  intro v' w' ns ms _ hns hms hne hv' hw'
  obtain ⟨htv, hkv, -⟩ := hv v' hv'
  obtain ⟨htw, hkw, -⟩ := hw w' hw'
  have hdiff : v' ≠ w' := by
    rintro rfl
    exact hne ((hkv ns hns).unique (hkw ms hms))
  obtain ⟨ty₁, hty₁, hs⟩ := (hkv ns hns).exists_typeOf
  obtain ⟨ty₂, hty₂, -⟩ := (hkw ms hms).exists_typeOf
  refine ⟨hdiff, Bool.eq_false_iff.mpr fun heq => hdiff ?_⟩
  have h₁ : ty₁ = ty := by
    rcases htv with rfl | htv
    · cases hty₁
    · exact Option.some.inj (hty₁.symm.trans htv)
  have h₂ : ty₂ = ty := by
    rcases htw with rfl | htw
    · cases hty₂
    · exact Option.some.inj (hty₂.symm.trans htw)
  subst h₁ h₂
  exact (equals_iff hs hty₁ hty₂).mp heq

/-- **Coercion loses nothing exactly when no integer of more than 53 significant bits becomes an
`f64`.** -/
theorem coerce_lossless_iff (v w : Value) (ty : Ty) :
    (Kept v ty ∧ Kept w ty ∧ KeptApart v w ty) ↔ v.FitsF64 ty ∧ w.FitsF64 ty :=
  ⟨fun ⟨hv, hw, _⟩ => ⟨fits_of_kept hv, fits_of_kept hw⟩,
    fun ⟨hv, hw⟩ => ⟨kept_of_fits hv, kept_of_fits hw,
      keptApart_of_kept (kept_of_fits hv) (kept_of_fits hw)⟩⟩

end Value

/-- `2 ^ 53 + 1` becomes `2 ^ 53`. -/
theorem uint_rounded_as_f64 :
    let _ := Crates.inert
    (Value.uint 9007199254740993).coerce .f64 = (Value.uint 9007199254740992).coerce .f64 ∧
      ¬ Value.Kept (.uint 9007199254740993) .f64 ∧
      ¬ Value.KeptApart (.uint 9007199254740993) (.uint 9007199254740992) .f64 := by
  intro _
  have hsame : F64.ofUInt64 9007199254740993 = F64.ofUInt64 9007199254740992 := by decide +kernel
  have hlong : ¬ Binary64.Significant (9007199254740993 : UInt64).toNat := by decide +kernel
  refine ⟨congrArg (fun f => Except.ok (Value.f64 f)) hsame, fun h => ?_, fun h => ?_⟩
  · exact hlong (Value.fits_of_kept h)
  · refine (h _ _ _ _ rfl (.uint _) (.uint _) ?_ rfl rfl).1 (congrArg _ hsame)
    decide +kernel

end Fckdb
