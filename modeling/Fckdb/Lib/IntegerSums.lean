import Fckdb.Lib.Binary64

/-! # Sums of integers in `binary64`

On integral floats the core model adds, compares and truncates as on the integers they are, sums rounded to
the nearest integer of 53 significant bits (`Integral.add`). Added up one after the other, integers leave
their sum and what the roundings added to it (`running_eq`). -/

namespace Fckdb

open Float.Model Float.Model.UnpackedFloat

namespace Binary64

/-! ## Adding -/

theorem nearest_eq_iff (z : ℤ) : nearest z = z ↔ Significant z.natAbs := by
  rw [← sign_mul_rounded_eq_iff, nearest]
  exact_mod_cast Iff.rfl

/-- An integral float is not rounded. -/
theorem Integral.nearest_eq {f : UnpackedFloat} {z : ℤ} (h : Integral f z) : nearest z = z := by
  rw [nearest_eq_iff]
  cases h with
  | zero s => decide
  | @finite s m n e h hm hlo hhi hn =>
      have hm' : rounded m = m := by
        rw [rounded_eq_iff, Significant, hm]
        exact one_dvd m
      have hn' : rounded n = n := by
        have hscaled := rounded_scaled hn
        rw [hm', hn] at hscaled
        exact_mod_cast hscaled.symm
      have habs : (signum s * n).natAbs = n := by cases s <;> simp [signum]
      rwa [habs, ← rounded_eq_iff]

/-- Shifting a mantissa to a smaller exponent keeps the number. -/
theorem apply_shiftLeft (s : Sign) (m : Nat) {e t : ℤ} (h : t ≤ e) :
    ((s.apply (m <<< (e - t).toNat : Nat) : ℤ) : ℚ) * 2 ^ t = signum s * (m * 2 ^ e) := by
  obtain ⟨k, rfl⟩ : ∃ k : Nat, e = t + k := ⟨(e - t).toNat, by omega⟩
  have hshift : (t + k - t).toNat = k := by omega
  rw [hshift, Nat.shiftLeft_eq, zpow_add₀ two_ne_zero, zpow_natCast]
  cases s <;> simp only [Sign.apply, signum] <;> push_cast <;> ring

/-- **Integral floats add** to the float nearest to the sum. -/
theorem Integral.add {x y : UnpackedFloat} {a b : ℤ} (hx : Integral x a) (hy : Integral y b)
    (h : (a + b).natAbs < 2 ^ 256) :
    Integral (UnpackedFloat.add Format.binary64 x y) (nearest (a + b)) := by
  have ha := hx.nearest_eq
  have hb := hy.nearest_eq
  cases hx with
  | zero s =>
      rw [zero_add, hb]
      cases hy with
      | zero s' =>
          rw [UnpackedFloat.add]
          split <;> exact .zero _
      | finite s' hm hlog hlo hhi hn => exact .finite s' hm hlog hlo hhi hn
  | @finite s m n e hm hlog hlo hhi hn =>
      cases hy with
      | zero s' =>
          rw [add_zero, ha]
          exact .finite s hm hlog hlo hhi hn
      | @finite s' m' n' e' hm' hlog' hlo' hhi' hn' =>
          refine integral_normalize .positive (le_min hlo hlo') ?_ h
          rw [Int.cast_add, add_mul, apply_shiftLeft s m (min_le_left e e'),
            apply_shiftLeft s' m' (min_le_right e e'), hn, hn']
          push_cast
          rfl

/-! ## Comparing -/

/-- The larger exponent makes the larger number. -/
theorem lt_of_exponent_lt {m m' n n' : Nat} {e e' : ℤ} (hm : m.log2 = 52) (hm' : m'.log2 = 52)
    (h : (m : ℚ) * 2 ^ e = n) (h' : (m' : ℚ) * 2 ^ e' = n') (hlt : e < e') : n < n' := by
  have hpos : m ≠ 0 := by
    rintro rfl
    exact absurd hm (by decide)
  have hpos' : m' ≠ 0 := by
    rintro rfl
    exact absurd hm' (by decide)
  have hlog := log2_scaled hpos h
  have hlog' := log2_scaled hpos' h'
  rcases eq_or_ne n' 0 with rfl | hne
  · rw [Nat.cast_zero] at h'
    exact absurd h' (mul_ne_zero (Nat.cast_ne_zero.mpr hpos') (zpow_ne_zero _ two_ne_zero))
  · exact Nat.lt_of_lt_of_le (Nat.lt_log2_self.trans_le (Nat.pow_le_pow_right Nat.two_pos (by omega)))
      (Nat.log2_self_le hne)

theorem compare_scaled {m m' n n' : Nat} {e e' : ℤ} (hm : m.log2 = 52) (hm' : m'.log2 = 52)
    (h : (m : ℚ) * 2 ^ e = n) (h' : (m' : ℚ) * 2 ^ e' = n') :
    (compare e e').then (compare m m') = compare n n' := by
  rcases lt_trichotomy e e' with hlt | rfl | hgt
  · rw [compare_lt_iff_lt.mpr hlt, compare_lt_iff_lt.mpr (lt_of_exponent_lt hm hm' h h' hlt)]
    rfl
  · have hpow : (0 : ℚ) < 2 ^ e := zpow_pos two_pos e
    have hscale : (m < m' ↔ n < n') ∧ (m = m' ↔ n = n') := by
      rw [← Nat.cast_lt (α := ℚ) (m := n), ← Nat.cast_inj (R := ℚ) (m := n), ← h, ← h',
        mul_lt_mul_iff_left₀ hpow, mul_left_inj' hpow.ne', Nat.cast_lt, Nat.cast_inj]
      exact ⟨Iff.rfl, Iff.rfl⟩
    rw [compare_eq_iff_eq.mpr rfl]
    show compare m m' = _
    rcases lt_trichotomy m m' with hlt | heq | hgt
    · rw [compare_lt_iff_lt.mpr hlt, compare_lt_iff_lt.mpr (hscale.1.mp hlt)]
    · rw [compare_eq_iff_eq.mpr heq, compare_eq_iff_eq.mpr (hscale.2.mp heq)]
    · have hn : n' < n := (Nat.lt_or_gt_of_ne fun hn => hgt.ne' (hscale.2.mpr hn)).resolve_left
        fun hn => hgt.not_gt (hscale.1.mpr hn)
      rw [compare_gt_iff_gt.mpr hgt, compare_gt_iff_gt.mpr hn]
  · rw [compare_gt_iff_gt.mpr hgt, compare_gt_iff_gt.mpr (lt_of_exponent_lt hm' hm h' h hgt)]
    rfl

/-- A normal number is not zero. -/
theorem pos_of_scaled {m n : Nat} {e : ℤ} (hm : 0 < m) (h : (m : ℚ) * 2 ^ e = n) : 0 < n := by
  rw [← Nat.cast_pos (α := ℚ), ← h]
  exact mul_pos (Nat.cast_pos.mpr hm) (zpow_pos two_pos e)

theorem compare_natCast (n n' : Nat) : compare (n : ℤ) n' = compare n n' := by
  rcases lt_trichotomy n n' with h | rfl | h
  · rw [compare_lt_iff_lt.mpr h, compare_lt_iff_lt.mpr (Int.ofNat_lt.mpr h)]
  · rw [compare_eq_iff_eq.mpr rfl, compare_eq_iff_eq.mpr rfl]
  · rw [compare_gt_iff_gt.mpr h, compare_gt_iff_gt.mpr (Int.ofNat_lt.mpr h)]

theorem compare_neg (a b : ℤ) : compare (-a) (-b) = (compare a b).swap := by
  rcases lt_trichotomy a b with h | rfl | h
  · rw [compare_lt_iff_lt.mpr h, compare_gt_iff_gt.mpr (neg_lt_neg h)]
    rfl
  · rw [compare_eq_iff_eq.mpr rfl, compare_eq_iff_eq.mpr rfl]
    rfl
  · rw [compare_gt_iff_gt.mpr h, compare_lt_iff_lt.mpr (neg_lt_neg h)]
    rfl

/-- **Integral floats compare** as the integers they are. -/
theorem Integral.compare {x y : UnpackedFloat} {a b : ℤ} (hx : Integral x a) (hy : Integral y b) :
    x.compare y = some (compare a b) := by
  cases hx with
  | zero s =>
      cases hy with
      | zero s' => cases s <;> cases s' <;> rfl
      | @finite s' m' n' e' hm' hlog' hlo' hhi' hn' =>
          have hpos := pos_of_scaled hm' hn'
          cases s' with
          | positive => exact congrArg some (compare_lt_iff_lt.mpr (by simp [signum, hpos])).symm
          | negative => exact congrArg some (compare_gt_iff_gt.mpr (by simp [signum, hpos])).symm
  | @finite s m n e hm hlog hlo hhi hn =>
      have hpos := pos_of_scaled hm hn
      cases hy with
      | zero s' =>
          cases s with
          | positive => exact congrArg some (compare_gt_iff_gt.mpr (by simp [signum, hpos])).symm
          | negative => exact congrArg some (compare_lt_iff_lt.mpr (by simp [signum, hpos])).symm
      | @finite s' m' n' e' hm' hlog' hlo' hhi' hn' =>
          have hpos' := pos_of_scaled hm' hn'
          have hsame := compare_scaled hlog hlog' hn hn'
          cases s with
          | positive =>
              cases s' with
              | positive =>
                  rw [UnpackedFloat.compare, hsame, ← compare_natCast, signum, one_mul, one_mul]
              | negative =>
                  refine congrArg some (compare_gt_iff_gt.mpr ?_).symm
                  simp only [signum]
                  omega
          | negative =>
              cases s' with
              | positive =>
                  refine congrArg some (compare_lt_iff_lt.mpr ?_).symm
                  simp only [signum]
                  omega
              | negative =>
                  rw [UnpackedFloat.compare, hsame, ← compare_natCast, signum, neg_one_mul, neg_one_mul,
                    compare_neg]

/-! ## Truncating -/

/-- The absolute value of an integral float. -/
theorem Integral.abs {f : UnpackedFloat} {z : ℤ} (h : Integral f z) : Integral f.abs |z| := by
  cases h with
  | zero s => exact .zero .positive
  | @finite s m n e hm hlog hlo hhi hn =>
      have habs : |signum s * (n : ℤ)| = signum .positive * n := by cases s <;> simp [signum]
      rw [habs]
      exact .finite .positive hm hlog hlo hhi hn

/-- **An integral float is truncated** to the integer it is. -/
theorem Integral.toInt {f : UnpackedFloat} {z : ℤ} (h : Integral f z) (lo hi : ℤ) : f.toInt lo hi = z := by
  cases h with
  | zero s => rfl
  | @finite s m n e hm hlog hlo hhi hn =>
      have hmantissa : (shiftToExponent (m <<< (e - 0).toNat) (e - (e - 0).toNat) .exact 0).1.mantissa = n := by
        rw [shiftToExponent, Nat.shiftLeft_eq]
        show (whole (m * 2 ^ (e - 0).toNat) >>> (0 - (e - (e - 0).toNat)).toNat).mantissa = n
        rw [mantissa_shift]
        show m * 2 ^ (e - 0).toNat / 2 ^ (0 - (e - (e - 0).toNat)).toNat = n
        rcases scaled_cases hn with ⟨k, rfl, rfl⟩ | ⟨k, rfl, rfl⟩
        · have hup : ((k : ℤ) - 0).toNat = k := by omega
          have hdown : (0 - ((k : ℤ) - k)).toNat = 0 := by omega
          rw [hup, hdown, Nat.pow_zero, Nat.div_one]
        · have hup : (-(k : ℤ) - 0).toNat = 0 := by omega
          have hdown : (0 - (-(k : ℤ) - (0 : Nat))).toNat = k := by omega
          rw [hup, hdown, Nat.pow_zero, Nat.mul_one, Nat.mul_div_cancel _ (Nat.two_pow_pos k)]
      show s.apply (shiftToExponent (m <<< (e - 0).toNat) (e - (e - 0).toNat) .exact 0).1.mantissa = _
      rw [hmantissa]
      cases s with
      | positive => exact (one_mul _).symm
      | negative => exact (neg_one_mul _).symm

/-! ## Adding up -/

/-- What rounding adds to an integer. -/
def roundOff (z : ℤ) : ℤ := nearest z - z

/-- The next partial sum: the integer is rounded, and so is what it makes of the sum so far. -/
def addRounded (r z : ℤ) : ℤ := nearest (r + nearest z)

/-- What the roundings add to a sum, from a partial sum on. -/
def drift : ℤ → List ℤ → ℤ
  | _, [] => 0
  | r, z :: zs => roundOff z + roundOff (r + nearest z) + drift (addRounded r z) zs

/-- **A rounded sum** is the sum and what the roundings added to it. -/
theorem foldl_addRounded (r : ℤ) (zs : List ℤ) : zs.foldl addRounded r = r + zs.sum + drift r zs := by
  induction zs generalizing r with
  | nil => rw [List.foldl_nil, List.sum_nil, drift, add_zero, add_zero]
  | cons z zs ih =>
      rw [List.foldl_cons, ih, List.sum_cons, drift, roundOff, roundOff, addRounded]
      ring

theorem significant_of_log2_le {n : Nat} (h : n.log2 ≤ 52) : Significant n := by
  rw [Significant, Nat.sub_eq_zero_of_le h]
  exact one_dvd n

/-- Integers up to `2^53` are not rounded. -/
theorem significant_of_le {n : Nat} (h : n ≤ 2 ^ 53) : Significant n := by
  rcases Nat.lt_or_eq_of_le h with hlt | rfl
  · refine significant_of_log2_le ?_
    rcases eq_or_ne n 0 with rfl | hn
    · decide
    · exact Nat.le_of_lt_succ ((Nat.log2_lt hn).mpr hlt)
  · decide +kernel

/-- **Small integers add up exactly**, in any order. -/
theorem drift_eq_zero {r : ℤ} {zs : List ℤ} (h : r.natAbs + (zs.map Int.natAbs).sum ≤ 2 ^ 53) :
    drift r zs = 0 := by
  induction zs generalizing r with
  | nil => rfl
  | cons z zs ih =>
      rw [List.map_cons, List.sum_cons] at h
      have hz : nearest z = z := (nearest_eq_iff z).mpr (significant_of_le (by omega))
      have hr : nearest (r + z) = r + z := (nearest_eq_iff _).mpr (significant_of_le (by omega))
      rw [drift, addRounded, roundOff, roundOff, hz, hr, sub_self, sub_self, ih (by omega), add_zero, add_zero]

/-! ## How far a sum goes -/

theorem rounded_le_two_pow (n : Nat) : rounded n ≤ 2 ^ (n.log2 + 1) := by
  rcases Nat.le_total n.log2 52 with hsmall | hbig
  · rw [(rounded_eq_iff n).mpr (significant_of_log2_le hsmall)]
    exact Nat.lt_log2_self.le
  · calc rounded n ≤ 2 ^ 53 * 2 ^ (n.log2 - 52) :=
          Nat.mul_le_mul_right _ ((significand_bounds n).2.trans (Nat.succ_le_of_lt (div_lt_of_log2 n)))
      _ = 2 ^ (53 + (n.log2 - 52)) := (Nat.pow_add ..).symm
      _ = 2 ^ (n.log2 + 1) := by
          congr 1
          omega

/-- What is little more than a power of two is rounded down to it. -/
theorem rounded_le {n k j : Nat} (hk : 53 ≤ k) (hn : n ≤ 2 ^ k + j) (hj : 2 ^ 53 * j < 2 ^ k) :
    rounded n ≤ 2 ^ k := by
  rcases Nat.lt_or_ge n (2 ^ k) with hlt | hge
  · have hlog : n.log2 + 1 ≤ k := by
      rcases eq_or_ne n 0 with rfl | hn0
      · exact (show 1 ≤ 53 by decide).trans hk
      · exact (Nat.log2_lt hn0).mpr hlt
    exact (rounded_le_two_pow n).trans (Nat.pow_le_pow_right Nat.two_pos hlog)
  · obtain ⟨i, rfl⟩ : ∃ i, k = 53 + i := ⟨k - 53, by omega⟩
    rw [Nat.pow_add] at hn hj hge
    have hfew : j < 2 ^ i := Nat.lt_of_mul_lt_mul_left hj
    have hlog : n.log2 = 53 + i := by
      refine log2_eq (Nat.pow_add .. ▸ hge) ?_
      rw [Nat.add_assoc, Nat.pow_add, Nat.pow_succ]
      omega
    -- the bits after the first are zeros, as far as the one that decides
    have hbits : n / 2 ^ i = 2 ^ 53 :=
      Nat.div_eq_of_lt_le hge (by rw [Nat.succ_mul]; omega)
    have hshift : n.log2 - 52 = i + 1 := by omega
    have hsignificand : significand n = 2 ^ 52 := by
      rw [significand, hshift, shift_succ, ExtendedMantissa.shiftRightOne, mantissa_shift]
      show ExtendedMantissa.roundedMantissa ⟨n / 2 ^ i / 2, n / 2 ^ i % 2 != 0, _⟩ = _
      rw [hbits]
      cases (whole n >>> i).roundBit || (whole n >>> i).stickyBit <;> rfl
    rw [rounded, hsignificand, hshift, ← Nat.pow_add]
    exact Nat.pow_le_pow_right Nat.two_pos (by omega)

theorem natAbs_nearest (z : ℤ) : (nearest z).natAbs = rounded z.natAbs := by
  rcases eq_or_ne z 0 with rfl | hz
  · rfl
  · rw [nearest, Int.natAbs_mul, Int.natAbs_sign_of_ne_zero hz, Nat.one_mul, Int.natAbs_natCast]

/-- **A sum of 64-bit integers stays below `2^118`**: from there on, none of them is enough to move it. -/
theorem natAbs_addRounded_le {r z : ℤ} (hr : r.natAbs ≤ 2 ^ 118) (hz : z.natAbs ≤ 2 ^ 64) :
    (addRounded r z).natAbs ≤ 2 ^ 118 ∧ (r + nearest z).natAbs ≤ 2 ^ 118 + 2 ^ 64 := by
  have hnear : (nearest z).natAbs ≤ 2 ^ 64 := by
    rw [natAbs_nearest]
    exact rounded_le (j := 0) (by decide) hz (by decide)
  have hsum : (r + nearest z).natAbs ≤ 2 ^ 118 + 2 ^ 64 := by omega
  rw [addRounded, natAbs_nearest]
  exact ⟨rounded_le (by decide) hsum (by decide), hsum⟩

end Binary64

end Fckdb
