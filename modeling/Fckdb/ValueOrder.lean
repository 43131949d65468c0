import Fckdb.Value

/-! # Values of one type are linearly ordered

`Value.compare` relates values of different types in places, but within one declared type (sparse
vectors apart) it is the comparison of a linear order that tells values apart. -/

namespace Fckdb

namespace Value

theorem map_toNat_injective₈ : Function.Injective (List.map UInt8.toNat) :=
  List.map_injective_iff.mpr fun _ _ => UInt8.toNat_inj.mp

theorem map_toNat_injective₆₄ : Function.Injective (List.map UInt64.toNat) :=
  List.map_injective_iff.mpr fun _ _ => UInt64.toNat_inj.mp

theorem map_toInt_injective₆₄ : Function.Injective (List.map Int64.toInt) :=
  List.map_injective_iff.mpr fun _ _ => Int64.toInt_inj.mp

/-! ## Keys

What `compare` compares of two values of one type. -/

def natKey : Value → ℕ
  | bool v => v.toNat
  | uint v => v.toNat
  | _ => 0

def intKey : Value → ℤ
  | int v => v.toInt
  | f64 v => totalKey 64 v.bits.toNat
  | datetime v => v.toInt
  | _ => 0

def textKey : Value → String
  | string v => v
  | _ => ""

def natsKey : Value → List ℕ
  | uuid v => v.bytes.map UInt8.toNat
  | uintArray v => v.map UInt64.toNat
  | _ => []

def intsKey : Value → List ℤ
  | intArray v => v.map Int64.toInt
  | _ => []

def textsKey : Value → List String
  | stringArray v => v
  | _ => []

/-- **Within a type, `compare` is a linear order's comparison.** -/
theorem exists_compareKey {ty : Ty} (hty : ty ≠ .sparseF16) :
    ∃ (κ : Type) (_ : LinearOrder κ) (k : Value → κ), ∀ a b, a.typeOf = some ty →
      b.typeOf = some ty → a.compare b = some (cmp (k a) (k b)) ∧ (k a = k b → a = b) := by
  cases ty with
  | bool =>
      refine ⟨ℕ, inferInstance, natKey, fun a b ha hb => ?_⟩
      cases a <;> cases ha
      cases b <;> cases hb
      refine ⟨rfl, fun h => ?_⟩
      next u v => cases u <;> cases v <;> first | rfl | cases h
  | uint =>
      refine ⟨ℕ, inferInstance, natKey, fun a b ha hb => ?_⟩
      cases a <;> cases ha
      cases b <;> cases hb
      exact ⟨rfl, fun h => congrArg _ (UInt64.toNat_inj.mp h)⟩
  | int =>
      refine ⟨ℤ, inferInstance, intKey, fun a b ha hb => ?_⟩
      cases a <;> cases ha
      cases b <;> cases hb
      exact ⟨rfl, fun h => congrArg _ (Int64.toInt_inj.mp h)⟩
  | f64 =>
      refine ⟨ℤ, inferInstance, intKey, fun a b ha hb => ?_⟩
      cases a <;> cases ha
      cases b <;> cases hb
      exact ⟨rfl, fun h => congrArg _ (F64.totalCmp_eq_eq.mp ((cmp_eq_eq_iff _ _).mpr h))⟩
  | string =>
      refine ⟨String, inferInstance, textKey, fun a b ha hb => ?_⟩
      cases a <;> cases ha
      cases b <;> cases hb
      exact ⟨rfl, fun h => congrArg _ h⟩
  | datetime =>
      refine ⟨ℤ, inferInstance, intKey, fun a b ha hb => ?_⟩
      cases a <;> cases ha
      cases b <;> cases hb
      exact ⟨rfl, fun h => congrArg _ (Int64.toInt_inj.mp h)⟩
  | uuid =>
      refine ⟨List ℕ, inferInstance, natsKey, fun a b ha hb => ?_⟩
      cases a <;> cases ha
      cases b <;> cases hb
      refine ⟨by rw [Value.compare]; congr, fun h => ?_⟩
      next u v =>
        obtain ⟨u, hu⟩ := u
        obtain ⟨v, hv⟩ := v
        obtain rfl := map_toNat_injective₈ h
        rfl
  | stringArray =>
      refine ⟨List String, inferInstance, textsKey, fun a b ha hb => ?_⟩
      cases a <;> cases ha
      cases b <;> cases hb
      exact ⟨by rw [Value.compare]; congr, fun h => congrArg _ h⟩
  | uintArray =>
      refine ⟨List ℕ, inferInstance, natsKey, fun a b ha hb => ?_⟩
      cases a <;> cases ha
      cases b <;> cases hb
      exact ⟨by rw [Value.compare]; congr, fun h => congrArg _ (map_toNat_injective₆₄ h)⟩
  | intArray =>
      refine ⟨List ℤ, inferInstance, intsKey, fun a b ha hb => ?_⟩
      cases a <;> cases ha
      cases b <;> cases hb
      exact ⟨by rw [Value.compare]; congr, fun h => congrArg _ (map_toInt_injective₆₄ h)⟩
  | sparseF16 => exact absurd rfl hty

/-- Values of one type compare equal exactly when they are the same value. -/
theorem compare_eq_some_eq {a b : Value} {ty : Ty} (hty : ty ≠ .sparseF16)
    (ha : a.typeOf = some ty) (hb : b.typeOf = some ty) : a.compare b = some .eq ↔ a = b := by
  obtain ⟨κ, _, k, hk⟩ := exists_compareKey hty
  obtain ⟨hc, hinj⟩ := hk a b ha hb
  rw [hc, Option.some.injEq, cmp_eq_eq_iff]
  exact ⟨hinj, fun h => h ▸ rfl⟩

/-- Only null has no type. -/
theorem isNull_eq_false_iff {v : Value} : v.isNull = false ↔ ∃ ty, v.typeOf = some ty := by
  cases v <;> simp [isNull, typeOf]

theorem isNull_of_typeOf {v : Value} {ty : Ty} (h : v.typeOf = some ty) : v.isNull = false :=
  isNull_eq_false_iff.mpr ⟨ty, h⟩

theorem eq_null_of_isNull {v : Value} (h : v.isNull = true) : v = null := by
  cases v <;> simp_all [isNull]

/-- `equals` on values of one type is equality. -/
theorem equals_iff {a b : Value} {ty : Ty} (hty : ty ≠ .sparseF16) (ha : a.typeOf = some ty)
    (hb : b.typeOf = some ty) : a.equals b = true ↔ a = b := by
  rw [equals, isNull_of_typeOf ha, isNull_of_typeOf hb]
  simp only [Bool.or_self, Bool.false_eq_true, if_false, beq_iff_eq]
  exact compare_eq_some_eq hty ha hb

end Value

end Fckdb
