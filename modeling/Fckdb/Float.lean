import Mathlib.Order.Compare
import Mathlib.Order.Defs.LinearOrder
import Mathlib.Algebra.Order.Ring.Int

/-! # Floating-point numbers

`f32` and `f64` are their bit patterns: storage and comparison (`total_cmp`) are exact functions of
the bits, and arithmetic is IEEE arithmetic on the numbers the bits stand for. Code that only
computes (distances, sums) is written once over a `Scalar`. -/

namespace Fckdb

/-- `f32`. -/
structure F32 where
  bits : UInt32
  deriving DecidableEq, Repr, Inhabited

/-- `f64`. -/
structure F64 where
  bits : UInt64
  deriving DecidableEq, Repr, Inhabited

/-! ## The total order on bit patterns -/

/-- The signed integer whose order is IEEE `totalOrder` on `width`-bit patterns: negative patterns
come first, in reverse. -/
def totalKey (width bits : Nat) : Int :=
  if bits < 2 ^ (width - 1) then bits else ((2 ^ (width - 1) : Nat) : Int) - 1 - bits

/-- The key tells bit patterns apart. -/
theorem totalKey_inj {width a b : Nat} (h : totalKey width a = totalKey width b) : a = b := by
  unfold totalKey at h
  generalize 2 ^ (width - 1) = half at h
  split_ifs at h <;> omega

/-- `f32::total_cmp`. -/
def F32.totalCmp (a b : F32) : Ordering :=
  cmp (totalKey 32 a.bits.toNat) (totalKey 32 b.bits.toNat)

/-- `f64::total_cmp`. -/
def F64.totalCmp (a b : F64) : Ordering :=
  cmp (totalKey 64 a.bits.toNat) (totalKey 64 b.bits.toNat)

/-- `total_cmp` is `Equal` on identical bits only. -/
@[simp] theorem F32.totalCmp_eq_eq {a b : F32} : a.totalCmp b = .eq ↔ a = b := by
  rw [F32.totalCmp, cmp_eq_eq_iff]
  refine ⟨fun h => ?_, fun h => h ▸ rfl⟩
  obtain ⟨a⟩ := a
  obtain ⟨b⟩ := b
  exact congrArg _ (UInt32.toNat_inj.mp (totalKey_inj h))

/-- `total_cmp` is `Equal` on identical bits only. -/
@[simp] theorem F64.totalCmp_eq_eq {a b : F64} : a.totalCmp b = .eq ↔ a = b := by
  rw [F64.totalCmp, cmp_eq_eq_iff]
  refine ⟨fun h => ?_, fun h => h ▸ rfl⟩
  obtain ⟨a⟩ := a
  obtain ⟨b⟩ := b
  exact congrArg _ (UInt64.toNat_inj.mp (totalKey_inj h))

/-- `f32::is_finite`: the exponent is not all ones. -/
def F32.isFinite (a : F32) : Bool := a.bits.toNat / 2 ^ 23 % 2 ^ 8 ≠ 2 ^ 8 - 1

/-- `f32::is_nan`. -/
def F32.isNaN (a : F32) : Bool := !a.isFinite && a.bits.toNat % 2 ^ 23 ≠ 0

/-- `f64::is_nan`. -/
def F64.isNaN (a : F64) : Bool :=
  a.bits.toNat / 2 ^ 52 % 2 ^ 11 = 2 ^ 11 - 1 ∧ a.bits.toNat % 2 ^ 52 ≠ 0

/-- `f32::NAN`, the pattern every NaN prints as. -/
def F32.nan : F32 := ⟨0x7fc00000⟩

/-- `f64::NAN`, the pattern every NaN prints as. -/
def F64.nan : F64 := ⟨0x7ff8000000000000⟩

/-- `u64 as f64`. -/
def F64.ofUInt64 (n : UInt64) : F64 := ⟨n.toFloat.toBits⟩

/-- `i64 as f64`. -/
def F64.ofInt64 (n : Int64) : F64 := ⟨(Float.Model.ofInt64 n).toBits⟩

/-- `±0.0`. -/
def F32.isZero (a : F32) : Bool := a.bits.toNat % 2 ^ 31 = 0

/-- IEEE equality of two `f32`: a NaN equals nothing, and the zeros equal each other. -/
def F32.feq (a b : F32) : Bool :=
  !a.isNaN && !b.isNaN && (a.bits == b.bits || (a.isZero && b.isZero))

theorem F32.isZero_of_feq {a : F32} (h : a.feq ⟨0⟩ = true) : a.isZero = true := by
  obtain ⟨-, h⟩ := Bool.and_eq_true_iff.mp h
  rcases Bool.or_eq_true_iff.mp h with h | h
  · obtain ⟨bits⟩ := a
    obtain rfl : bits = 0 := beq_iff_eq.mp h
    rfl
  · exact (Bool.and_eq_true_iff.mp h).1

/-! ## Arithmetic -/

/-- What the vector code computes with. -/
class Scalar (S : Type) where
  zero : S
  /-- What an empty `Iterator::sum` gives; for floats it is `-0.0`, the unit of addition. -/
  sumUnit : S
  one : S
  infinity : S
  add : S → S → S
  sub : S → S → S
  mul : S → S → S
  div : S → S → S
  neg : S → S
  sqrt : S → S
  lt : S → S → Bool
  isZero : S → Bool
  ofNat : Nat → S

/-- An operation of `Float32` on bit patterns. -/
def F32.lift (op : Float32 → Float32 → Float32) (a b : F32) : F32 :=
  ⟨(op (.ofBits a.bits) (.ofBits b.bits)).toBits⟩

instance : Scalar F32 where
  zero := ⟨0⟩
  sumUnit := ⟨0x80000000⟩
  one := ⟨0x3f800000⟩
  infinity := ⟨0x7f800000⟩
  add := F32.lift (· + ·)
  sub := F32.lift (· - ·)
  mul := F32.lift (· * ·)
  div := F32.lift (· / ·)
  neg a := ⟨a.bits ^^^ 0x80000000⟩
  sqrt a := ⟨(Float32.ofBits a.bits).sqrt.toBits⟩
  lt a b := decide (Float32.ofBits a.bits < Float32.ofBits b.bits)
  isZero a := Float32.ofBits a.bits == 0
  ofNat n := ⟨(Float32.ofNat n).toBits⟩

end Fckdb
