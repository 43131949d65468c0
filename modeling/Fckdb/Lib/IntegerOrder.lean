import Fckdb.Lib.IntegerSums

/-! # Integers in order as `binary64` numbers

Rounding to 53 significant bits goes to a multiple of the last bit's power that is not further than half of it
away (`rounded_near`), so that it keeps the order of the integers (`nearest_mono`). The bits of an integral
float, read as a number, are the magnitude of the integer, below the sign bit (`toNat_pack`). -/

namespace Fckdb

open Float.Model Float.Model.UnpackedFloat

namespace Binary64

/-! ## Rounding keeps the order -/

/-- The bit that decides, and what is dropped behind it. -/
theorem roundedMantissa_near (a : Nat) (sticky : Bool) :
    2 * ExtendedMantissa.roundedMantissa ⟨a / 2, a % 2 != 0, sticky⟩ ≤ a + 1 ∧
      (a ≤ 2 * ExtendedMantissa.roundedMantissa ⟨a / 2, a % 2 != 0, sticky⟩ ∨
        a = 2 * ExtendedMantissa.roundedMantissa ⟨a / 2, a % 2 != 0, sticky⟩ + 1 ∧ sticky = false) := by
  rcases Nat.mod_two_eq_zero_or_one a with ha | ha
  · have hround : ExtendedMantissa.roundedMantissa ⟨a / 2, a % 2 != 0, sticky⟩ = a / 2 := by
      rw [ha]
      cases sticky <;> rfl
    rw [hround]
    omega
  · have hbounds : a / 2 ≤ ExtendedMantissa.roundedMantissa ⟨a / 2, a % 2 != 0, sticky⟩ ∧
        ExtendedMantissa.roundedMantissa ⟨a / 2, a % 2 != 0, sticky⟩ ≤ a / 2 + 1 :=
      roundedMantissa_bounds ⟨a / 2, a % 2 != 0, sticky⟩
    cases sticky with
    | false =>
        refine ⟨by omega, ?_⟩
        rcases hbounds.1.eq_or_lt with heq | hlt
        · exact .inr ⟨by omega, rfl⟩
        · exact .inl (by omega)
    | true =>
        have hround : ExtendedMantissa.roundedMantissa ⟨a / 2, a % 2 != 0, true⟩ = a / 2 + 1 := by
          rw [ha]
          rfl
        rw [hround]
        omega

/-- Dropped bits are rounded by half a step at most. -/
theorem roundedMantissa_shift_near (n k : Nat) :
    2 * (whole n >>> k).roundedMantissa * 2 ^ k ≤ 2 * n + 2 ^ k ∧
      2 * n ≤ 2 * (whole n >>> k).roundedMantissa * 2 ^ k + 2 ^ k := by
  cases k with
  | zero =>
      have hwhole : (whole n >>> 0).roundedMantissa = n := rfl
      rw [hwhole]
      omega
  | succ k =>
      have hn := Nat.div_add_mod n (2 ^ k)
      have hlt := Nat.mod_lt n (Nat.two_pow_pos k)
      have hdvd := (residue_shift n k).mp
      have hshift : whole n >>> (k + 1) =
          ⟨n / 2 ^ k / 2, n / 2 ^ k % 2 != 0, residue (whole n >>> k)⟩ := by
        rw [shift_succ, ExtendedMantissa.shiftRightOne, mantissa_shift]
        rfl
      obtain ⟨hle, hge⟩ := roundedMantissa_near (n / 2 ^ k) (residue (whole n >>> k))
      rw [hshift, Nat.pow_succ]
      generalize ExtendedMantissa.roundedMantissa _ = r at *
      generalize 2 ^ k = p at *
      constructor
      · calc 2 * r * (p * 2) ≤ (n / p + 1) * (p * 2) := Nat.mul_le_mul_right _ hle
          _ = 2 * (p * (n / p)) + p * 2 := by ring
          _ ≤ 2 * n + p * 2 := by omega
      · rcases hge with hge | ⟨hge, hsticky⟩
        · calc 2 * n ≤ n / p * (p * 2) + p * 2 := by
                have hdouble : n / p * (p * 2) = 2 * (p * (n / p)) := by ring
                omega
            _ ≤ 2 * r * (p * 2) + p * 2 := Nat.add_le_add_right (Nat.mul_le_mul_right _ hge) _
        · -- halfway: nothing is dropped behind the bit that decides
          have hzero := Nat.mod_eq_zero_of_dvd (hdvd hsticky)
          calc 2 * n = 2 * (p * (2 * r + 1)) := by
                rw [← hge]
                omega
            _ = 2 * r * (p * 2) + p * 2 := by ring
            _ ≤ 2 * r * (p * 2) + p * 2 := Nat.le_refl _

theorem two_pow_le_rounded {n : Nat} (hn : n ≠ 0) : 2 ^ n.log2 ≤ rounded n := by
  rcases Nat.le_total n.log2 52 with hsmall | hbig
  · rw [(rounded_eq_iff n).mpr (significant_of_log2_le hsmall)]
    exact Nat.log2_self_le hn
  · calc 2 ^ n.log2 = 2 ^ 52 * 2 ^ (n.log2 - 52) := by
          rw [← Nat.pow_add, Nat.add_sub_cancel' hbig]
      _ ≤ rounded n := Nat.mul_le_mul_right _ ((le_div_of_log2 hbig).trans (significand_bounds n).1)

/-- **Rounding keeps the order.** -/
theorem rounded_mono : Monotone rounded := by
  intro n n' hle
  rcases hle.eq_or_lt with rfl | hlt
  · exact le_refl _
  · rcases eq_or_ne n 0 with rfl | hn
    · exact Nat.zero_le _
    · have hn' : n' ≠ 0 := (Nat.zero_lt_of_lt hlt).ne'
      have hlog : n.log2 ≤ n'.log2 := (Nat.le_log2 hn').mpr ((Nat.log2_self_le hn).trans hle)
      rcases hlog.eq_or_lt with heq | hlt'
      · obtain ⟨hup, -⟩ := roundedMantissa_shift_near n (n.log2 - 52)
        obtain ⟨-, hdown⟩ := roundedMantissa_shift_near n' (n.log2 - 52)
        rw [rounded, rounded, significand, significand, ← heq]
        refine Nat.mul_le_mul_right _ (Nat.le_of_not_lt fun hgt => ?_)
        -- a step apart, the two would lie on both sides of the middle
        generalize (whole n >>> (n.log2 - 52)).roundedMantissa = r at *
        generalize (whole n' >>> (n.log2 - 52)).roundedMantissa = r' at *
        generalize 2 ^ (n.log2 - 52) = p at *
        have hstep : 2 * (r' + 1) * p ≤ 2 * r * p := Nat.mul_le_mul_right _ (Nat.mul_le_mul_left 2 hgt)
        have hsplit : 2 * (r' + 1) * p = 2 * r' * p + 2 * p := by ring
        omega
      · calc rounded n ≤ 2 ^ (n.log2 + 1) := rounded_le_two_pow n
          _ ≤ 2 ^ n'.log2 := Nat.pow_le_pow_right Nat.two_pos hlt'
          _ ≤ rounded n' := two_pow_le_rounded hn'

theorem rounded_eq_zero {n : Nat} : rounded n = 0 ↔ n = 0 := by
  refine ⟨fun h => ?_, by rintro rfl; rfl⟩
  by_contra hn
  exact absurd (h ▸ two_pow_le_rounded hn) (Nat.two_pow_pos _).not_ge

/-- **Rounding of signed integers keeps the order.** -/
theorem nearest_mono : Monotone nearest := by
  have hnonneg {z : ℤ} (hz : 0 ≤ z) : nearest z = rounded z.natAbs := by
    rcases hz.eq_or_lt with rfl | hz
    · rfl
    · rw [nearest, Int.sign_eq_one_of_pos hz, one_mul]
  have hneg {z : ℤ} (hz : z < 0) : nearest z = -rounded z.natAbs := by
    rw [nearest, Int.sign_eq_neg_one_of_neg hz, neg_one_mul]
  intro y z hle
  rcases lt_or_ge y 0 with hy | hy
  · rw [hneg hy]
    rcases lt_or_ge z 0 with hz | hz
    · have h := rounded_mono (show z.natAbs ≤ y.natAbs by omega)
      rw [hneg hz]
      omega
    · rw [hnonneg hz]
      omega
  · have h := rounded_mono (show y.natAbs ≤ z.natAbs by omega)
    rw [hnonneg hy, hnonneg (hy.trans hle)]
    omega

/-! ## The bits of an integer -/

/-- The exponent and the fraction of a positive integer, as one number. -/
def magnitude (n : Nat) : Nat := if n = 0 then 0 else (n.log2 + 1022) * 2 ^ 52 + n * 2 ^ 52 / 2 ^ n.log2

/-- The fraction has 53 bits. -/
theorem fraction_bounds {n : Nat} (hn : n ≠ 0) :
    2 ^ 52 ≤ n * 2 ^ 52 / 2 ^ n.log2 ∧ n * 2 ^ 52 / 2 ^ n.log2 < 2 ^ 53 := by
  constructor
  · rw [Nat.le_div_iff_mul_le (Nat.two_pow_pos _), Nat.mul_comm]
    exact Nat.mul_le_mul_right _ (Nat.log2_self_le hn)
  · rw [Nat.div_lt_iff_lt_mul (Nat.two_pow_pos _)]
    have h := Nat.mul_lt_mul_of_pos_right (Nat.lt_log2_self (n := n)) (Nat.two_pow_pos 52)
    rw [Nat.pow_succ] at h
    omega

/-- There is room for the sign bit. -/
theorem magnitude_lt {n : Nat} (h : n.log2 ≤ 1023) : magnitude n < 2 ^ 63 := by
  rw [magnitude]
  split
  · decide
  · next hn =>
    have := (fraction_bounds hn).2
    omega

theorem magnitude_mono : Monotone magnitude := by
  intro n n' hle
  rcases eq_or_ne n 0 with rfl | hn
  · exact Nat.zero_le _
  · have hn' : n' ≠ 0 := ((Nat.pos_of_ne_zero hn).trans_le hle).ne'
    have hlog : n.log2 ≤ n'.log2 := (Nat.le_log2 hn').mpr ((Nat.log2_self_le hn).trans hle)
    rw [magnitude, magnitude, if_neg hn, if_neg hn']
    rcases hlog.eq_or_lt with heq | hlt
    · rw [← heq]
      exact Nat.add_le_add_left (Nat.div_le_div_right (Nat.mul_le_mul_right _ hle)) _
    · -- the next exponent starts where the last one ends
      have hupper := (fraction_bounds hn).2
      have hlower := (fraction_bounds hn').1
      omega

theorem toNat_packComponents (s : Sign) (e : BitVec 11) (m : BitVec 52) :
    (packComponents Format.binary64 s e m).toNat =
      s.toBitVec.toNat * 2 ^ 63 + e.toNat * 2 ^ 52 + m.toNat := by
  have hcat {i j : Nat} (x : BitVec i) (y : BitVec j) : (x ++ y).toNat = x.toNat * 2 ^ j + y.toNat := by
    rw [BitVec.toNat_append, ← Nat.shiftLeft_add_eq_or_of_lt y.isLt, Nat.shiftLeft_eq]
  show (s.toBitVec ++ e ++ m).toNat = _
  rw [hcat, hcat]
  ring

/-- **The bits of a finite float that is an integer.** -/
theorem toNat_pack {s : Sign} {m n : Nat} {e : ℤ} (h : 0 < m) (hm : m.log2 = 52) (hlo : -52 ≤ e)
    (hhi : e ≤ 971) (hn : (m : ℚ) * 2 ^ e = n) :
    (UnpackedFloat.pack Format.binary64 (.finite s m e h)).toNat =
      s.toBitVec.toNat * 2 ^ 63 + magnitude n := by
  have hn0 : n ≠ 0 := (pos_of_scaled h hn).ne'
  have hlog := log2_scaled h.ne' hn
  have hbounds := (Nat.log2_eq_iff h.ne').mp hm
  have hfraction : n * 2 ^ 52 / 2 ^ n.log2 = m := by
    rcases scaled_cases hn with ⟨k, rfl, rfl⟩ | ⟨k, rfl, rfl⟩
    · have hk : (m * 2 ^ k).log2 = k + 52 := by omega
      rw [hk, Nat.pow_add, Nat.mul_assoc, Nat.mul_div_cancel m (Nat.mul_pos (Nat.two_pow_pos k) (Nat.two_pow_pos 52))]
    · have hk : 52 = k + n.log2 := by omega
      calc n * 2 ^ 52 / 2 ^ n.log2 = n * 2 ^ k * 2 ^ n.log2 / 2 ^ n.log2 := by
            rw [Nat.mul_assoc, ← Nat.pow_add, ← hk]
        _ = n * 2 ^ k := Nat.mul_div_cancel _ (Nat.two_pow_pos _)
  have hexponent : (BitVec.ofNat 11 (e + 1075).toNat).toNat = n.log2 + 1023 := by
    rw [BitVec.toNat_ofNat]
    omega
  have hmantissa : (BitVec.ofNat 52 m).toNat = m - 2 ^ 52 := by
    rw [BitVec.toNat_ofNat]
    omega
  rw [pack_finite h hm (by omega) hhi, toNat_packComponents, magnitude, if_neg hn0, hexponent, hmantissa,
    hfraction]
  omega

/-- Where the `total_cmp` key of an integer lies: the negatives come first, in reverse. -/
def bitsKey (z : ℤ) : ℤ := if z < 0 then -1 - magnitude z.natAbs else magnitude z.natAbs

theorem bitsKey_mono : Monotone bitsKey := by
  intro y z hle
  rw [bitsKey, bitsKey]
  split
  · split
    · have h := magnitude_mono (show z.natAbs ≤ y.natAbs by omega)
      omega
    · omega
  · rw [if_neg (by omega)]
    exact_mod_cast magnitude_mono (show y.natAbs ≤ z.natAbs by omega)

end Binary64

end Fckdb
