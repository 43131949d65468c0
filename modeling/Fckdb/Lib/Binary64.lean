import Mathlib

/-! # Integers as `binary64` numbers

The core model of `binary64` rounds exact numbers to 53 significant bits. Read back as rational
numbers, an integer of at most 53 significant bits is kept (`Significant`), and no other is:
rounding moves it (`number_ofInt`, `rounded_eq_iff`). -/

namespace Fckdb

open Float.Model Float.Model.UnpackedFloat

namespace Binary64

/-- `±1`. -/
def signum : Sign → ℤ
  | .positive => 1
  | .negative => -1

/-- The number a float stands for; the infinities and NaN stand for none. -/
def number : UnpackedFloat → Option ℚ
  | .infinity _ => none
  | .notANumber => none
  | .zero _ => some 0
  | .finite s m e _ => some (signum s * (m * 2 ^ e))

/-! ## Dropping bits -/

/-- A mantissa that is all of the number. -/
def whole (m : Nat) : ExtendedMantissa := ⟨m, false, false⟩

/-- Whether bits were dropped that were not all zero. -/
def residue (em : ExtendedMantissa) : Bool := em.roundBit || em.stickyBit

theorem shift_succ (em : ExtendedMantissa) (k : Nat) :
    em >>> (k + 1) = (em >>> k).shiftRightOne := rfl

theorem shift_add (em : ExtendedMantissa) (k j : Nat) : em >>> (k + j) = (em >>> k) >>> j := by
  induction j with
  | zero => rfl
  | succ j ih => rw [Nat.add_succ, shift_succ, ih, ← shift_succ]

theorem mantissa_shift (em : ExtendedMantissa) (k : Nat) :
    (em >>> k).mantissa = em.mantissa / 2 ^ k := by
  induction k with
  | zero => exact (Nat.div_one _).symm
  | succ k ih =>
      rw [shift_succ, ExtendedMantissa.shiftRightOne, ih, Nat.div_div_eq_div_mul, Nat.pow_succ]

/-- Nothing is dropped exactly when the dropped power of two divides the mantissa. -/
theorem residue_shift (m k : Nat) :
    residue (whole m >>> k) = false ↔ 2 ^ k ∣ m := by
  induction k with
  | zero => exact ⟨fun _ => one_dvd m, fun _ => rfl⟩
  | succ k ih =>
      have hstep : residue (whole m >>> (k + 1)) =
          (m / 2 ^ k % 2 != 0 || residue (whole m >>> k)) := by
        rw [shift_succ, residue, ExtendedMantissa.shiftRightOne, mantissa_shift]
        rfl
      rw [hstep, Bool.or_eq_false_iff, ih, bne_eq_false_iff_eq, Nat.pow_succ]
      constructor
      · rintro ⟨heven, q, rfl⟩
        rw [Nat.mul_div_cancel_left q (Nat.two_pow_pos k)] at heven
        exact Nat.mul_dvd_mul_left _ (Nat.dvd_of_mod_eq_zero heven)
      · rintro ⟨q, rfl⟩
        rw [Nat.mul_assoc]
        refine ⟨?_, Dvd.intro _ rfl⟩
        rw [Nat.mul_div_cancel_left _ (Nat.two_pow_pos k), Nat.mul_mod_right]

theorem roundedMantissa_of_residue {em : ExtendedMantissa} (h : residue em = false) :
    em.roundedMantissa = em.mantissa := by
  obtain ⟨m, r, s⟩ := em
  obtain ⟨rfl, rfl⟩ := Bool.or_eq_false_iff.mp h
  rfl

/-- Rounding keeps the mantissa or goes to the next one. -/
theorem roundedMantissa_bounds (em : ExtendedMantissa) :
    em.mantissa ≤ em.roundedMantissa ∧ em.roundedMantissa ≤ em.mantissa + 1 := by
  obtain ⟨m, r, s⟩ := em
  cases r <;> cases s
  · exact ⟨le_refl m, Nat.le_succ m⟩
  · exact ⟨le_refl m, Nat.le_succ m⟩
  · have := Nat.mod_lt m Nat.two_pos
    exact ⟨Nat.le_add_right m _, Nat.add_le_add_left (Nat.le_of_lt_succ this) m⟩
  · exact ⟨Nat.le_succ m, le_refl _⟩

/-! ## Significant bits -/

/-- At most 53 significant bits: the bits beyond the first 53 are zeros. -/
def Significant (n : Nat) : Prop := 2 ^ (n.log2 - 52) ∣ n

instance (n : Nat) : Decidable (Significant n) := inferInstanceAs (Decidable (_ ∣ _))

/-- The first 53 bits, rounded by the rest. -/
def significand (n : Nat) : Nat :=
  (whole n >>> (n.log2 - 52)).roundedMantissa

/-- The `binary64` integer nearest to an integer. -/
def rounded (n : Nat) : Nat := significand n * 2 ^ (n.log2 - 52)

theorem significand_bounds (n : Nat) :
    n / 2 ^ (n.log2 - 52) ≤ significand n ∧ significand n ≤ n / 2 ^ (n.log2 - 52) + 1 := by
  have h := roundedMantissa_bounds (whole n >>> (n.log2 - 52))
  rwa [mantissa_shift] at h

/-- **Rounding keeps the integers of at most 53 significant bits, and no others.** -/
theorem rounded_eq_iff (n : Nat) : rounded n = n ↔ Significant n := by
  refine ⟨fun h => Dvd.intro_left _ h, fun h => ?_⟩
  rw [rounded, significand, roundedMantissa_of_residue ((residue_shift n _).mpr h), mantissa_shift]
  exact Nat.div_mul_cancel h

theorem div_lt_of_log2 (n : Nat) : n / 2 ^ (n.log2 - 52) < 2 ^ 53 := by
  rw [Nat.div_lt_iff_lt_mul (Nat.two_pow_pos _), ← Nat.pow_add]
  exact lt_of_lt_of_le Nat.lt_log2_self (Nat.pow_le_pow_right Nat.two_pos (by omega))

theorem le_div_of_log2 {n : Nat} (h : 52 ≤ n.log2) : 2 ^ 52 ≤ n / 2 ^ (n.log2 - 52) := by
  have hn : n ≠ 0 := by
    rintro rfl
    exact absurd h (by decide)
  rw [Nat.le_div_iff_mul_le (Nat.two_pow_pos _), ← Nat.pow_add, Nat.add_sub_cancel' h]
  exact Nat.log2_self_le hn

theorem log2_eq {m k : Nat} (hlo : 2 ^ k ≤ m) (hhi : m < 2 ^ (k + 1)) : m.log2 = k := by
  have hm : m ≠ 0 := (Nat.lt_of_lt_of_le (Nat.two_pow_pos k) hlo).ne'
  exact (Nat.log2_eq_iff hm).mpr ⟨hlo, hhi⟩

theorem log2_mul_two_pow {n : Nat} (hn : n ≠ 0) (k : Nat) : (n * 2 ^ k).log2 = n.log2 + k := by
  refine log2_eq ?_ ?_
  · rw [Nat.pow_add]
    exact Nat.mul_le_mul_right _ (Nat.log2_self_le hn)
  · rw [Nat.add_right_comm, Nat.pow_add]
    exact Nat.mul_lt_mul_of_pos_right Nat.lt_log2_self (Nat.two_pow_pos k)

/-- Trailing zeros are dropped without a trace. -/
theorem whole_mul_two_pow (n k : Nat) : whole (n * 2 ^ k) >>> k = whole n := by
  have hm := mantissa_shift (whole (n * 2 ^ k)) k
  have hr := (residue_shift (n * 2 ^ k) k).mpr (Dvd.intro_left _ rfl)
  generalize whole (n * 2 ^ k) >>> k = em at hm hr
  obtain ⟨m, r, s⟩ := em
  obtain ⟨rfl, rfl⟩ := Bool.or_eq_false_iff.mp hr
  obtain rfl : m = n := hm.trans (Nat.mul_div_cancel n (Nat.two_pow_pos k))
  rfl

/-- **Rounding does not depend on the scale.** -/
theorem rounded_mul_two_pow (n k : Nat) : rounded (n * 2 ^ k) = rounded n * 2 ^ k := by
  rcases eq_or_ne n 0 with rfl | hn
  · rw [Nat.zero_mul, (rounded_eq_iff 0).mpr (dvd_zero _), Nat.zero_mul]
  rcases Nat.le_total 52 n.log2 with hbig | hsmall
  · have hdropped : n.log2 + k - 52 = k + (n.log2 - 52) := by omega
    rw [rounded, significand, log2_mul_two_pow hn, hdropped, shift_add, whole_mul_two_pow, Nat.pow_add,
      Nat.mul_comm (2 ^ k), ← Nat.mul_assoc]
    rfl
  · have hscaled : Significant (n * 2 ^ k) := by
      rw [Significant, log2_mul_two_pow hn]
      exact (Nat.pow_dvd_pow 2 (by omega)).mul_left n
    have hexact : Significant n := by
      rw [Significant, Nat.sub_eq_zero_of_le hsmall]
      exact one_dvd n
    rw [(rounded_eq_iff _).mpr hscaled, (rounded_eq_iff n).mpr hexact]

theorem sign_mul_rounded_eq_iff (z : ℤ) :
    (z.sign : ℚ) * rounded z.natAbs = z ↔ Significant z.natAbs := by
  rw [← rounded_eq_iff]
  have hz : (z : ℚ) = z.sign * z.natAbs := by
    rw [← Int.cast_natCast z.natAbs, ← Int.cast_mul, Int.sign_mul_natAbs]
  constructor
  · intro h
    rcases eq_or_ne z 0 with rfl | hne
    · rfl
    · have hsign : (z.sign : ℚ) ≠ 0 := Int.cast_ne_zero.mpr (Int.sign_eq_zero_iff_zero.not.mpr hne)
      rw [hz] at h
      exact_mod_cast mul_left_cancel₀ hsign h
  · intro h
    rw [h, ← hz]

/-! ## The core model's rounding of an integer -/

/-- Where the exponent of a number of `e + log2 m + 1` bits goes, subnormals apart. -/
theorem targetExponent_eq {m : Nat} {e : ℤ} (h : -1022 ≤ m.log2 + e) :
    Format.binary64.targetExponent (totalExponent m e) = m.log2 + e - 52 := by
  simp only [Format.targetExponent, totalExponent, Format.mantissaBits, Format.minExponent]
  norm_num
  omega

/-- An exact shift to the target exponent, when the exponent is not above it. -/
theorem shiftToTargetExponent_eq {m : Nat} {e : ℤ} (h : -1022 ≤ m.log2 + e) (hm : 52 ≤ m.log2) :
    shiftToTargetExponent Format.binary64 m e .exact =
      (whole m >>> (m.log2 - 52), e + (m.log2 - 52 : Nat)) := by
  have hshift : ((m.log2 : ℤ) + e - 52 - e).toNat = m.log2 - 52 := by omega
  simp only [shiftToTargetExponent, targetExponent_eq h, shiftToExponent, hshift]
  rfl

/-- The model's rounding, with its second shift named. -/
theorem roundWithAccuracy_of_shift {s : Sign} {m : Nat} {e : ℤ} {em em' : ExtendedMantissa}
    {e₁ e₂ : ℤ} (h₁ : shiftToTargetExponent Format.binary64 m e .exact = (em, e₁))
    (h₂ : shiftToTargetExponent Format.binary64 em.roundedMantissa e₁ .exact = (em', e₂))
    (hpos : 0 < em'.mantissa) :
    roundWithAccuracy Format.binary64 s m e .exact = .finite s em'.mantissa e₂ hpos := by
  rw [roundWithAccuracy, h₁]
  dsimp only
  rw [h₂]
  exact dif_neg hpos.ne'

/-- Rounding a mantissa of at least 53 bits. -/
theorem roundWithAccuracy_eq {m : Nat} {e : ℤ} (s : Sign) (he : -1074 ≤ e) (hm : 52 ≤ m.log2) :
    ∃ m' e', ∃ h : 0 < m', roundWithAccuracy Format.binary64 s m e .exact = .finite s m' e' h ∧
      m'.log2 = 52 ∧ e + (m.log2 - 52 : Nat) ≤ e' ∧ e' ≤ e + (m.log2 - 51 : Nat) ∧
      (m' : ℚ) * 2 ^ e' = significand m * 2 ^ (e + (m.log2 - 52 : Nat)) := by
  have hlo := (le_div_of_log2 hm).trans (significand_bounds m).1
  have hhi : significand m ≤ 2 ^ 53 :=
    (significand_bounds m).2.trans (Nat.succ_le_of_lt (div_lt_of_log2 m))
  have h₁ := shiftToTargetExponent_eq (m := m) (e := e) (by omega) hm
  rcases Nat.lt_or_eq_of_le hhi with hlt | heq
  · -- no carry: the second shift moves nothing
    have hlog : (significand m).log2 = 52 := log2_eq hlo hlt
    have h₂ := shiftToTargetExponent_eq (m := significand m) (e := e + (m.log2 - 52 : Nat))
      (by omega) hlog.ge
    rw [hlog] at h₂
    have hpos : 0 < significand m := Nat.lt_of_lt_of_le (Nat.two_pow_pos 52) hlo
    refine ⟨significand m, e + (m.log2 - 52 : Nat) + (52 - 52 : Nat), hpos,
      roundWithAccuracy_of_shift h₁ h₂ hpos, hlog, by omega, by omega, ?_⟩
    rw [Nat.sub_self, Nat.cast_zero, add_zero]
  · -- the carry makes a 54th bit, and the last one is zero
    have hlog : (significand m).log2 = 53 := by
      rw [heq]
      decide +kernel
    have h₂ := shiftToTargetExponent_eq (m := significand m) (e := e + (m.log2 - 52 : Nat))
      (by omega) (by omega)
    have hm' : (whole (significand m) >>> ((significand m).log2 - 52)).mantissa = 2 ^ 52 := by
      rw [mantissa_shift, hlog, heq]
      decide +kernel
    refine ⟨_, _, hm' ▸ Nat.two_pow_pos 52,
      roundWithAccuracy_of_shift h₁ h₂ (hm' ▸ Nat.two_pow_pos 52), ?_, ?_, ?_, ?_⟩
    · rw [hm']
      decide +kernel
    · omega
    · omega
    · rw [hm', hlog, heq, zpow_add₀ two_ne_zero]
      norm_num
      ring

/-- **The model rounds to 53 significant bits.** -/
theorem round_eq {n : Nat} {e : ℤ} (s : Sign) (hn : n ≠ 0) (he : -52 ≤ e) :
    ∃ m e', ∃ h : 0 < m, UnpackedFloat.round Format.binary64 s n e = .finite s m e' h ∧ m.log2 = 52 ∧
      e + n.log2 - 52 ≤ e' ∧ e' ≤ e + n.log2 - 51 ∧ (m : ℚ) * 2 ^ e' = rounded n * 2 ^ e := by
  rw [UnpackedFloat.round, targetExponent_eq (by omega)]
  rcases Nat.le_total n.log2 52 with hsmall | hbig
  · -- the mantissa is filled up with zeros, so that nothing is rounded
    have hshift : (e - ((n.log2 : ℤ) + e - 52)).toNat = 52 - n.log2 := by omega
    have hlog : (n * 2 ^ (52 - n.log2)).log2 = 52 := by
      rw [log2_mul_two_pow hn, Nat.add_sub_cancel' hsmall]
    have hexact : Significant n := by
      rw [Significant, Nat.sub_eq_zero_of_le hsmall]
      exact one_dvd n
    have hfull : significand (n * 2 ^ (52 - n.log2)) = n * 2 ^ (52 - n.log2) := by
      rw [significand, hlog]
      rfl
    obtain ⟨m, e', h, hr, hm, hlo, hhi, hv⟩ :=
      roundWithAccuracy_eq (m := n * 2 ^ (52 - n.log2)) (e := e - (52 - n.log2 : Nat)) s
        (by omega) hlog.ge
    refine ⟨m, e', h, ?_, hm, by omega, by omega, ?_⟩
    · rw [decreaseExponent, hshift, Nat.shiftLeft_eq]
      exact hr
    · rw [hv, hfull, hlog, (rounded_eq_iff n).mpr hexact, Nat.sub_self]
      push_cast
      rw [add_zero, zpow_sub₀ two_ne_zero, zpow_natCast, mul_assoc, mul_div_cancel₀]
      exact pow_ne_zero _ two_ne_zero
  · -- the mantissa has at least 53 bits already
    have hshift : (e - ((n.log2 : ℤ) + e - 52)).toNat = 0 := by omega
    obtain ⟨m, e', h, hr, hm, hlo, hhi, hv⟩ := roundWithAccuracy_eq (m := n) (e := e) s
      (by omega) hbig
    refine ⟨m, e', h, ?_, hm, by omega, by omega, ?_⟩
    · rw [decreaseExponent, hshift, Nat.shiftLeft_zero, Nat.cast_zero, sub_zero]
      exact hr
    · rw [hv, rounded, zpow_add₀ two_ne_zero, zpow_natCast]
      push_cast
      ring

/-! ## Bit patterns -/

theorem unpackSign_packComponents {spec : Format} {sign : Sign} {exponent mantissa} :
    unpackSign (packComponents spec sign exponent mantissa) = sign.toBitVec := by
  ext i hi
  obtain rfl : i = 0 := by omega
  simp [unpackSign, packComponents, BitVec.getLsbD_eq_getElem, BitVec.getLsbD_append,
    BitVec.getElem_append]

theorem ofBitVec_toBitVec (s : Sign) : Sign.ofBitVec s.toBitVec = s := by
  cases s <;> rfl

/-- The bits of a normal number. -/
theorem pack_finite {s : Sign} {m : Nat} {e : ℤ} (h : 0 < m) (hm : m.log2 = 52) (hlo : -1074 ≤ e)
    (hhi : e ≤ 971) :
    UnpackedFloat.pack Format.binary64 (.finite s m e h) =
      packComponents Format.binary64 s (BitVec.ofNat 11 (e + 1075).toNat) (BitVec.ofNat 52 m) := by
  have hbias : Format.binary64.exponentBias = 1023 := by decide
  have hexp : (e + (1023 : Nat) + (52 : Nat)).toNat = (e + 1075).toNat := by omega
  have hnormal : ¬ 2 ^ 11 ≤ (e + 1075).toNat + 1 := by omega
  simp only [UnpackedFloat.pack, hbias, hexp, hm]
  rw [if_neg hnormal]
  exact if_pos rfl

/-- A normal number is read back from its bits. -/
theorem unpack_pack {s : Sign} {m : Nat} {e : ℤ} (h : 0 < m) (hm : m.log2 = 52) (hlo : -1074 ≤ e)
    (hhi : e ≤ 971) :
    UnpackedFloat.unpack Format.binary64 (UnpackedFloat.pack Format.binary64 (.finite s m e h)) =
      .finite s m e h := by
  have hbias : Format.binary64.exponentBias = 1023 := by decide
  have hpack := pack_finite (s := s) h hm hlo hhi
  generalize hb : (e + 1075).toNat = b at hpack
  have htoNat : (BitVec.ofNat 11 b).toNat = b := by
    rw [BitVec.toNat_ofNat]
    exact Nat.mod_eq_of_lt (by omega)
  have hone : BitVec.ofNat 11 b ≠ -1#11 := fun h => by
    have h := congrArg BitVec.toNat h
    rw [htoNat] at h
    have hall : (-1#11).toNat = 2047 := by decide
    omega
  have hzero : BitVec.ofNat 11 b ≠ 0#11 := fun h => by
    have h := congrArg BitVec.toNat h
    rw [htoNat] at h
    have hnone : (0#11).toNat = 0 := by decide
    omega
  have hmant : (1#1 ++ BitVec.ofNat 52 m).toNat = m := by
    have hbounds := (Nat.log2_eq_iff h.ne').mp hm
    have hhigh : (1#1).toNat = 1 := rfl
    have hlow : (BitVec.ofNat 52 m).toNat = m % 2 ^ 52 := BitVec.toNat_ofNat m 52
    rw [BitVec.toNat_append, hlow,
      ← Nat.shiftLeft_add_eq_or_of_lt (Nat.mod_lt _ (Nat.two_pow_pos 52)), Nat.shiftLeft_eq, hhigh]
    omega
  have hexp : ((BitVec.ofNat 11 b).toNat : ℤ) - ((1023 : Nat) + (52 : Nat)) = e := by
    rw [htoNat]
    omega
  rw [hpack]
  simp only [UnpackedFloat.unpack, unpackExponent_packComponents, unpackMantissa_packComponents,
    unpackSign_packComponents, ofBitVec_toBitVec, hbias]
  rw [if_neg hone, if_neg hzero]
  congr 1

/-! ## Floats that are integers -/

/-- The `binary64` integer nearest to an integer. -/
def nearest (z : ℤ) : ℤ := z.sign * rounded z.natAbs

/-- A float that is an integer: a zero or a normal number. -/
inductive Integral : UnpackedFloat → ℤ → Prop
  | zero (s : Sign) : Integral (.zero s) 0
  | finite (s : Sign) {m n : Nat} {e : ℤ} (h : 0 < m) (hm : m.log2 = 52) (hlo : -52 ≤ e) (hhi : e ≤ 971)
      (hn : (m : ℚ) * 2 ^ e = n) : Integral (.finite s m e h) (signum s * n)

theorem Integral.number {f : UnpackedFloat} {z : ℤ} (h : Integral f z) : number f = some (z : ℚ) := by
  cases h with
  | zero s => rfl
  | finite s h hm hlo hhi hn =>
      rw [Binary64.number, hn]
      push_cast
      rfl

/-- An integral float is read back from its bits. -/
theorem Integral.unpack_pack {f : UnpackedFloat} {z : ℤ} (h : Integral f z) :
    UnpackedFloat.unpack Format.binary64 (UnpackedFloat.pack Format.binary64 f) = f := by
  cases h with
  | zero s => cases s <;> rfl
  | finite s h hm hlo hhi hn => exact Binary64.unpack_pack h hm (by omega) hhi

/-- An integer at some scale has zeros added or dropped. -/
theorem scaled_cases {m n : Nat} {e : ℤ} (h : (m : ℚ) * 2 ^ e = n) :
    (∃ k : Nat, e = k ∧ n = m * 2 ^ k) ∨ ∃ k : Nat, e = -k ∧ m = n * 2 ^ k := by
  obtain ⟨k, rfl | rfl⟩ := e.eq_nat_or_neg
  · rw [zpow_natCast] at h
    exact .inl ⟨k, rfl, by exact_mod_cast h.symm⟩
  · rw [zpow_neg, zpow_natCast, ← div_eq_mul_inv, div_eq_iff (pow_ne_zero _ two_ne_zero)] at h
    exact .inr ⟨k, rfl, by exact_mod_cast h⟩

theorem log2_scaled {m n : Nat} {e : ℤ} (hm : m ≠ 0) (h : (m : ℚ) * 2 ^ e = n) :
    (n.log2 : ℤ) = e + m.log2 := by
  rcases scaled_cases h with ⟨k, rfl, rfl⟩ | ⟨k, rfl, rfl⟩
  · rw [log2_mul_two_pow hm]
    omega
  · rw [log2_mul_two_pow (left_ne_zero_of_mul hm)]
    omega

theorem rounded_scaled {m n : Nat} {e : ℤ} (h : (m : ℚ) * 2 ^ e = n) :
    (rounded m : ℚ) * 2 ^ e = rounded n := by
  rcases scaled_cases h with ⟨k, rfl, rfl⟩ | ⟨k, rfl, rfl⟩
  · rw [rounded_mul_two_pow, zpow_natCast]
    push_cast
    rfl
  · rw [rounded_mul_two_pow, zpow_neg, zpow_natCast, Nat.cast_mul, Nat.cast_pow, Nat.cast_ofNat, mul_assoc,
      mul_inv_cancel₀ (pow_ne_zero _ two_ne_zero), mul_one]

/-- **An integer at some scale is rounded** as the integer it is. -/
theorem integral_round {m n : Nat} {e : ℤ} (s : Sign) (hm : m ≠ 0) (he : -52 ≤ e)
    (h : (m : ℚ) * 2 ^ e = n) (hn : n < 2 ^ 256) :
    Integral (UnpackedFloat.round Format.binary64 s m e) (signum s * rounded n) := by
  obtain ⟨m', e', hpos, hround, hlog, hlo, hhi, hv⟩ := round_eq s hm he
  have hscale := log2_scaled hm h
  have hbound : n.log2 < 256 := by
    rcases eq_or_ne n 0 with rfl | hn0
    · decide
    · exact (Nat.log2_lt hn0).mpr hn
  rw [hround]
  exact .finite s hpos hlog (by omega) (by omega) (hv.trans (rounded_scaled h))

/-- **A signed integer at some scale is rounded** to the nearest integer. -/
theorem integral_normalize {m z : ℤ} {e : ℤ} (s : Sign) (he : -52 ≤ e) (h : (m : ℚ) * 2 ^ e = z)
    (hz : z.natAbs < 2 ^ 256) :
    Integral (UnpackedFloat.normalize Format.binary64 m e s) (nearest z) := by
  have hpow : (0 : ℚ) < 2 ^ e := zpow_pos two_pos e
  rw [UnpackedFloat.normalize]
  rcases lt_trichotomy m 0 with hm | rfl | hm
  · have hneg : z < 0 := by
      rw [← Int.cast_lt_zero (R := ℚ), ← h]
      exact mul_neg_of_neg_of_pos (Int.cast_lt_zero.mpr hm) hpow
    have habs : (((-m).toNat : ℕ) : ℚ) * 2 ^ e = (z.natAbs : ℕ) := by
      have hm' : (((-m).toNat : ℕ) : ℤ) = -m := Int.toNat_of_nonneg (by omega)
      have hz' : ((z.natAbs : ℕ) : ℤ) = -z := by omega
      rw [← Int.cast_natCast, hm', ← Int.cast_natCast z.natAbs, hz', Int.cast_neg, Int.cast_neg, ← h, neg_mul]
    rw [compare_lt_iff_lt.mpr hm, nearest, Int.sign_eq_neg_one_of_neg hneg]
    exact integral_round .negative (by omega) he habs hz
  · have hzero : z = 0 := by
      rw [Int.cast_zero, zero_mul] at h
      exact_mod_cast h.symm
    rw [hzero]
    exact .zero s
  · have hpos : 0 < z := by
      rw [← Int.cast_pos (R := ℚ), ← h]
      exact mul_pos (Int.cast_pos.mpr hm) hpow
    have habs : ((m.toNat : ℕ) : ℚ) * 2 ^ e = (z.natAbs : ℕ) := by
      have hm' : ((m.toNat : ℕ) : ℤ) = m := Int.toNat_of_nonneg hm.le
      have hz' : ((z.natAbs : ℕ) : ℤ) = z := by omega
      rw [← Int.cast_natCast, hm', ← Int.cast_natCast z.natAbs, hz', h]
    rw [compare_gt_iff_gt.mpr hm, nearest, Int.sign_eq_one_of_pos hpos]
    exact integral_round .positive (by omega) he habs hz

/-- A 64-bit integer as a `binary64` number. -/
theorem integral_ofInt {z : ℤ} (h : z.natAbs < 2 ^ 64) :
    Integral (UnpackedFloat.ofInt Format.binary64 z) (nearest z) :=
  integral_normalize .positive (by decide) (by rw [zpow_zero, mul_one])
    (h.trans_le (Nat.pow_le_pow_right Nat.two_pos (by decide)))

/-- **A 64-bit integer as a `binary64` number is the integer rounded.** -/
theorem number_ofInt {z : ℤ} (h : z.natAbs < 2 ^ 64) :
    number (UnpackedFloat.unpack Format.binary64
      (UnpackedFloat.pack Format.binary64 (UnpackedFloat.ofInt Format.binary64 z))) =
      some ((z.sign : ℚ) * rounded z.natAbs) := by
  rw [(integral_ofInt h).unpack_pack, (integral_ofInt h).number, nearest]
  push_cast
  rfl

end Binary64

end Fckdb
