/-
  SeaOfNodes.Proofs.Number.Exact

  A number that a format has a pattern for is rounded to this pattern, whatever coefficient
  and exponent it is given by.  So a double that a narrower format can represent comes back
  from the narrower pattern.
-/
import SeaOfNodes.Number.Binary
import Mathlib.Algebra.Order.Field.Power
import Mathlib.Data.Rat.Cast.Order
import Mathlib.Tactic.FieldSimp
import Mathlib.Tactic.Linarith
import Mathlib.Tactic.Positivity
import Mathlib.Tactic.Ring

namespace SeaOfNodes.Number

/-! ## Numbers with a binary exponent -/

/-- The number `coeff * 2 ^ exp`. -/
def scaled (coeff : Nat) (exp : Int) : ℚ := coeff * (2 : ℚ) ^ exp

theorem two_zpow_pos (e : Int) : 0 < (2 : ℚ) ^ e := zpow_pos (by norm_num) e

theorem two_zpow_toNat {e : Int} (h : 0 ≤ e) : ((2 ^ e.toNat : Nat) : ℚ) = (2 : ℚ) ^ e := by
  obtain ⟨n, rfl⟩ := Int.eq_ofNat_of_zero_le h
  simp

theorem scaled_shift (coeff : Nat) {exp exp' : Int} (h : exp ≤ exp') :
    scaled (coeff * 2 ^ (exp' - exp).toNat) exp = scaled coeff exp' := by
  have hpow : (2 : ℚ) ^ exp' = (2 : ℚ) ^ (exp' - exp) * (2 : ℚ) ^ exp := by
    rw [← zpow_add₀ (by norm_num), Int.sub_add_cancel]
  rw [scaled, scaled, Nat.cast_mul, two_zpow_toNat (by omega), hpow, mul_assoc]

theorem scaled_inj {coeff coeff' : Nat} {exp : Int} : scaled coeff exp = scaled coeff' exp ↔ coeff = coeff' := by
  rw [scaled, scaled, mul_left_inj' (two_zpow_pos exp).ne']
  exact Nat.cast_inj

theorem sameNumber_iff {coeff coeff' : Nat} {exp exp' : Int} :
    sameNumber coeff exp coeff' exp' = true ↔ scaled coeff exp = scaled coeff' exp' := by
  unfold sameNumber
  simp only [Nat.pow_eq]
  split
  · rename_i h
    rw [beq_iff_eq, ← scaled_shift coeff' h, scaled_inj]
  · rename_i h
    rw [beq_iff_eq, ← scaled_shift coeff (Int.le_of_lt (Int.not_le.1 h)), scaled_inj]

/-- A ratio is scaled by a power of two. -/
theorem scaleRatio_spec (num : Nat) {den : Nat} (hden : 0 < den) (exp : Int) :
    0 < (scaleRatio num den exp).2 ∧
      ((scaleRatio num den exp).1 : ℚ) / (scaleRatio num den exp).2 = num / den * (2 : ℚ) ^ exp := by
  unfold scaleRatio
  simp only [Nat.pow_eq]
  split
  · rename_i h
    refine ⟨hden, ?_⟩
    rw [Nat.cast_mul, two_zpow_toNat h]
    ring
  · rename_i h
    refine ⟨by positivity, ?_⟩
    rw [Nat.cast_mul, two_zpow_toNat (by omega), zpow_neg]
    field_simp

theorem two_zpow_log2_le {n : Nat} (hn : 0 < n) : (2 : ℚ) ^ (Nat.log2 n : Int) ≤ n := by
  rw [zpow_natCast]
  exact_mod_cast Nat.log2_self_le hn.ne'

theorem lt_two_zpow_log2 (n : Nat) : (n : ℚ) < (2 : ℚ) ^ (Nat.log2 n + 1 : Int) := by
  have hlt := Nat.lt_log2_self (n := n)
  exact_mod_cast hlt

/-- The binary logarithm of a ratio, rounded down. -/
theorem ratioLog_spec {num den : Nat} (hnum : 0 < num) (hden : 0 < den) :
    (2 : ℚ) ^ ratioLog num den ≤ num / den ∧ (num : ℚ) / den < (2 : ℚ) ^ (ratioLog num den + 1) := by
  have hd : (0 : ℚ) < den := by exact_mod_cast hden
  -- The difference of the logarithms of both numbers is right or one too large.
  generalize he : (Nat.log2 num : Int) - Nat.log2 den = e
  have hlow : (2 : ℚ) ^ (e - 1) ≤ num / den := by
    rw [le_div_iff₀ hd]
    calc (2 : ℚ) ^ (e - 1) * den ≤ (2 : ℚ) ^ (e - 1) * (2 : ℚ) ^ (Nat.log2 den + 1 : Int) :=
          mul_le_mul_of_nonneg_left (lt_two_zpow_log2 den).le (two_zpow_pos _).le
      _ = (2 : ℚ) ^ (Nat.log2 num : Int) := by rw [← zpow_add₀ (by norm_num)]; congr 1; omega
      _ ≤ num := two_zpow_log2_le hnum
  have hhigh : (num : ℚ) / den < (2 : ℚ) ^ (e + 1) := by
    rw [div_lt_iff₀ hd]
    calc (num : ℚ) < (2 : ℚ) ^ (Nat.log2 num + 1 : Int) := lt_two_zpow_log2 num
      _ = (2 : ℚ) ^ (e + 1) * (2 : ℚ) ^ (Nat.log2 den : Int) := by rw [← zpow_add₀ (by norm_num)]; congr 1; omega
      _ ≤ (2 : ℚ) ^ (e + 1) * den := mul_le_mul_of_nonneg_left (two_zpow_log2_le hden) (two_zpow_pos _).le
  obtain ⟨hpos, hratio⟩ := scaleRatio_spec num hden (-e)
  have hpos' : (0 : ℚ) < (scaleRatio num den (-e)).2 := by exact_mod_cast hpos
  have hless : (scaleRatio num den (-e)).1 < (scaleRatio num den (-e)).2 ↔ (num : ℚ) / den < (2 : ℚ) ^ e := by
    rw [← Nat.cast_lt (α := ℚ), ← div_lt_one hpos', hratio, zpow_neg, ← div_eq_mul_inv, div_lt_one (two_zpow_pos e)]
  unfold ratioLog
  simp only [he]
  split
  · rename_i h
    exact ⟨hlow, by rw [Int.sub_add_cancel]; exact hless.1 h⟩
  · rename_i h
    exact ⟨not_lt.1 fun hlt => h (hless.2 hlt), hhigh⟩

/-! ## Patterns of a format -/

namespace Format

/-- A coefficient and an exponent as a format has them: as many bits as there is room for,
    unless the exponent is the least. -/
structure Canonical (f : Format) (coeff : Nat) (exp : Int) : Prop where
  least : f.leastExponent ≤ exp
  fits : coeff < 2 ^ (f.fractionBits + 1)
  full : exp = f.leastExponent ∨ 2 ^ f.fractionBits ≤ coeff

/-- The pattern of a canonical number without its sign. -/
def magnitude (f : Format) (coeff : Nat) (exp : Int) : Nat :=
  (exp - f.leastExponent).toNat * 2 ^ f.fractionBits + coeff

/-- A ratio that is a whole number is rounded to it. -/
theorem roundHalfEven_of_mul {coeff den : Nat} (hden : 0 < den) : roundHalfEven (coeff * den) den = coeff := by
  unfold roundHalfEven
  rw [Nat.mul_div_cancel _ hden, Nat.mul_mod_left]
  rw [if_neg (by omega)]

/-- The last place of a canonical number is where rounding has it. -/
theorem Canonical.unit_eq {f : Format} {coeff : Nat} {exp : Int} (h : f.Canonical coeff exp) {num den : Nat}
    (hnum : 0 < num) (hden : 0 < den) (hratio : (num : ℚ) / den = scaled coeff exp) :
    max (ratioLog num den - f.fractionBits) f.leastExponent = exp := by
  obtain ⟨hlow, hhigh⟩ := ratioLog_spec hnum hden
  rw [hratio] at hlow hhigh
  have hle : ratioLog num den - f.fractionBits ≤ exp := by
    have hcoeff : (coeff : ℚ) < (2 : ℚ) ^ (f.fractionBits + 1 : Int) := by exact_mod_cast h.fits
    have hlt : (2 : ℚ) ^ ratioLog num den < (2 : ℚ) ^ (f.fractionBits + 1 + exp) := by
      rw [zpow_add₀ (by norm_num)]
      exact hlow.trans_lt (mul_lt_mul_of_pos_right hcoeff (two_zpow_pos exp))
    have := (zpow_lt_zpow_iff_right₀ (by norm_num)).1 hlt
    omega
  rcases h.full with hleast | hfull
  · rw [← hleast] at *
    exact max_eq_right hle
  · have hcoeff : (2 : ℚ) ^ (f.fractionBits : Int) ≤ coeff := by
      rw [zpow_natCast]
      exact_mod_cast hfull
    have hlt : (2 : ℚ) ^ (f.fractionBits + exp) < (2 : ℚ) ^ (ratioLog num den + 1) := by
      rw [zpow_add₀ (by norm_num)]
      exact (mul_le_mul_of_nonneg_right hcoeff (two_zpow_pos exp).le).trans_lt hhigh
    have := (zpow_lt_zpow_iff_right₀ (by norm_num)).1 hlt
    have := h.least
    omega

/-- Rounding finds the pattern of a canonical number. -/
theorem Canonical.roundMagnitude_eq {f : Format} {coeff : Nat} {exp : Int} (h : f.Canonical coeff exp) {num den : Nat}
    (hden : 0 < den) (hratio : (num : ℚ) / den = scaled coeff exp) :
    f.roundMagnitude num den = min (f.magnitude coeff exp) f.infinity := by
  have hd : (den : ℚ) ≠ 0 := by exact_mod_cast hden.ne'
  unfold roundMagnitude
  split
  · rename_i hzero
    have hcoeff : coeff = 0 := by
      rw [hzero, Nat.cast_zero, zero_div, scaled, eq_comm, mul_eq_zero] at hratio
      exact_mod_cast hratio.resolve_right (two_zpow_pos exp).ne'
    have hleast : exp = f.leastExponent := h.full.resolve_right (by rw [hcoeff]; simp)
    simp [magnitude, hcoeff, hleast]
  · rename_i hnum
    simp only [h.unit_eq (Nat.pos_of_ne_zero hnum) hden hratio]
    obtain ⟨hpos, hscaled⟩ := scaleRatio_spec num hden (-exp)
    have hpos' : ((scaleRatio num den (-exp)).2 : ℚ) ≠ 0 := by exact_mod_cast hpos.ne'
    have hwhole : (scaleRatio num den (-exp)).1 = coeff * (scaleRatio num den (-exp)).2 := by
      rw [hratio, scaled, mul_assoc, ← zpow_add₀ (by norm_num), Int.add_right_neg, zpow_zero, mul_one,
        div_eq_iff hpos'] at hscaled
      exact_mod_cast hscaled
    rw [hwhole, roundHalfEven_of_mul hpos]
    rfl

/-! ## Parts of a pattern -/

theorem signBit_eq (f : Format) : f.signBit = 2 ^ f.exponentBits * 2 ^ f.fractionBits := Nat.pow_add ..

/-- The pattern of a sign. -/
def signPattern (f : Format) (negative : Bool) : Nat := if negative then f.signBit else 0

/-- A pattern is its sign, its exponent field and its fraction. -/
theorem pattern_eq {f : Format} {bits : Nat} (h : bits < 2 * f.signBit) :
    bits = f.signPattern (bits / f.signBit % 2 = 1)
      + (bits / 2 ^ f.fractionBits % 2 ^ f.exponentBits * 2 ^ f.fractionBits + bits % 2 ^ f.fractionBits) := by
  have hrest : bits % f.signBit = bits / 2 ^ f.fractionBits % 2 ^ f.exponentBits * 2 ^ f.fractionBits
      + bits % 2 ^ f.fractionBits := by
    rw [signBit_eq, Nat.mul_comm, Nat.mod_mul, Nat.add_comm, Nat.mul_comm]
  have hsign : f.signPattern (bits / f.signBit % 2 = 1) = f.signBit * (bits / f.signBit) := by
    have hlt : bits / f.signBit < 2 := (Nat.div_lt_iff_lt_mul (by rw [signBit_eq]; positivity)).2 h
    unfold signPattern
    rcases Nat.le_one_iff_eq_zero_or_eq_one.1 (Nat.lt_succ_iff.1 hlt) with hcase | hcase <;> simp [hcase]
  rw [← hrest, hsign, Nat.div_add_mod]

theorem infinity_lt_signBit (f : Format) : f.infinity < f.signBit := by
  rw [signBit_eq, infinity, topField]
  exact Nat.mul_lt_mul_of_pos_right (Nat.sub_lt (by simp) Nat.one_pos) (by simp)

/-- The sign of a pattern can be read off. -/
theorem sign_signPattern (f : Format) (negative : Bool) {rest : Nat} (h : rest < f.signBit) :
    (f.signPattern negative + rest) / f.signBit % 2 = 1 ↔ negative = true := by
  cases negative with
  | false => simp [signPattern, Nat.div_eq_of_lt h]
  | true =>
      rw [signPattern, if_pos rfl, Nat.add_div_left _ (by omega), Nat.div_eq_of_lt h]
      simp

/-- The magnitude of a number without a leading bit is its fraction. -/
theorem magnitude_least (f : Format) (fraction : Nat) : f.magnitude fraction f.leastExponent = fraction := by
  simp [magnitude]

/-- That of any other has its field above the fraction. -/
theorem magnitude_of_field (f : Format) {field : Nat} (hfield : field ≠ 0) (fraction : Nat) :
    f.magnitude (2 ^ f.fractionBits + fraction) (f.leastExponent + (field - 1 : Nat))
      = field * 2 ^ f.fractionBits + fraction := by
  obtain ⟨below, rfl⟩ := Nat.exists_eq_succ_of_ne_zero hfield
  have hsteps : (f.leastExponent + (below.succ - 1 : Nat) - f.leastExponent).toNat = below := by omega
  rw [magnitude, hsteps, Nat.succ_mul]
  omega

/-- The pattern of a finite number is that of its sign and of its canonical form. -/
theorem eq_of_decode_finite {f : Format} {bits : Nat} (h : bits < 2 * f.signBit) {negative : Bool} {coeff : Nat}
    {exp : Int} (hdecode : f.decode bits = .finite negative coeff exp) :
    f.Canonical coeff exp ∧ f.magnitude coeff exp < f.infinity ∧
      bits = f.signPattern negative + f.magnitude coeff exp := by
  have hpattern := pattern_eq h
  unfold decode at hdecode
  simp only [Nat.pow_eq] at hdecode
  generalize hfield : bits / 2 ^ f.fractionBits % 2 ^ f.exponentBits = field at hpattern hdecode
  generalize hfraction : bits % 2 ^ f.fractionBits = fraction at hpattern hdecode
  have hfits : fraction < 2 ^ f.fractionBits := hfraction ▸ Nat.mod_lt _ (by positivity)
  have htop : field < 2 ^ f.exponentBits := hfield ▸ Nat.mod_lt _ (by positivity)
  split at hdecode
  · split at hdecode <;> cases hdecode
  · rename_i hfinite
    have hmagnitude : field * 2 ^ f.fractionBits + fraction < f.infinity := by
      have hless : field + 1 ≤ f.topField := by
        have : f.topField = 2 ^ f.exponentBits - 1 := rfl
        omega
      calc field * 2 ^ f.fractionBits + fraction < (field + 1) * 2 ^ f.fractionBits := by rw [Nat.succ_mul]; omega
        _ ≤ f.infinity := Nat.mul_le_mul_right _ hless
    have hdouble : 2 ^ (f.fractionBits + 1) = 2 ^ f.fractionBits + 2 ^ f.fractionBits := by
      rw [Nat.pow_succ]
      omega
    -- A field of zero has no leading bit and the exponent of the field of one, so the
    -- magnitudes go on from the one to the other.
    split at hdecode
    · rename_i hzero
      cases hdecode
      have heq : f.magnitude coeff f.leastExponent = field * 2 ^ f.fractionBits + coeff := by
        rw [magnitude_least, hzero, Nat.zero_mul, Nat.zero_add]
      exact ⟨⟨Int.le_refl _, by omega, .inl rfl⟩, heq ▸ hmagnitude, heq ▸ hpattern⟩
    · rename_i hnonzero
      cases hdecode
      have heq := magnitude_of_field f hnonzero fraction
      exact ⟨⟨by omega, by omega, .inr (by omega)⟩, heq ▸ hmagnitude, heq ▸ hpattern⟩

/-- The pattern of an infinity is that of its sign and the greatest magnitude. -/
theorem eq_of_decode_inf {f : Format} {bits : Nat} (h : bits < 2 * f.signBit) {negative : Bool}
    (hdecode : f.decode bits = .inf negative) : bits = f.signPattern negative + f.infinity := by
  have hpattern := pattern_eq h
  unfold decode at hdecode
  simp only [Nat.pow_eq] at hdecode
  split at hdecode
  · rename_i hfield
    split at hdecode
    · rename_i hfraction
      cases hdecode
      rw [hfield, hfraction] at hpattern
      exact hpattern
    · cases hdecode
  · split at hdecode <;> cases hdecode

/-! ## Rounding what a format can represent -/

/-- A number that a pattern stands for is rounded to the pattern, however it is given. -/
theorem roundFloat_of_decode {f : Format} {bits : Nat} (h : bits < 2 * f.signBit) {negative : Bool}
    {coeff coeff' : Nat} {exp exp' : Int} (hdecode : f.decode bits = .finite negative coeff exp)
    (hsame : scaled coeff' exp' = scaled coeff exp) : f.roundFloat negative coeff' exp' = bits := by
  obtain ⟨hcanonical, hless, hbits⟩ := eq_of_decode_finite h hdecode
  obtain ⟨hpos, hratio⟩ := scaleRatio_spec coeff' Nat.one_pos exp'
  have hvalue : ((scaleRatio coeff' 1 exp').1 : ℚ) / (scaleRatio coeff' 1 exp').2 = scaled coeff exp := by
    rw [hratio, Nat.cast_one, div_one]
    exact hsame
  rw [roundFloat]
  change f.round negative (scaleRatio coeff' 1 exp').1 (scaleRatio coeff' 1 exp').2 = bits
  rw [round, hcanonical.roundMagnitude_eq hpos hvalue, Nat.min_eq_left hless.le, hbits]
  rfl

/-- A pattern that represents a number stands for it. -/
theorem represent?_spec {f : Format} {negative : Bool} {coeff bits : Nat} {exp : Int}
    (h : f.represent? negative coeff exp = some bits) :
    bits < 2 * f.signBit ∧ ∃ coeff' exp', f.decode bits = .finite negative coeff' exp' ∧
      scaled coeff' exp' = scaled coeff exp := by
  unfold represent? at h
  simp only at h
  split at h
  · rename_i negative' coeff' exp' hdecode
    split at h
    · rename_i hsame
      cases h
      have hmagnitude : ∀ num den, f.roundMagnitude num den ≤ f.infinity := by
        intro num den
        unfold roundMagnitude
        split
        · exact Nat.zero_le _
        · exact Nat.min_le_right ..
      have hrounded : ∃ rest < f.signBit, f.roundFloat negative coeff exp = f.signPattern negative + rest :=
        ⟨_, (hmagnitude _ _).trans_lt f.infinity_lt_signBit, rfl⟩
      obtain ⟨rest, hrest, heq⟩ := hrounded
      have hlt : f.roundFloat negative coeff exp < 2 * f.signBit := by
        rw [heq, signPattern]
        split <;> omega
      refine ⟨hlt, coeff', exp', ?_, sameNumber_iff.1 hsame⟩
      have hsign : negative' = negative := by
        unfold decode at hdecode
        simp only at hdecode
        split at hdecode
        · split at hdecode <;> cases hdecode
        · split at hdecode <;> cases hdecode <;>
          · rw [heq, Bool.eq_iff_iff, decide_eq_true_iff, sign_signPattern f negative hrest]
      rw [hdecode, hsign]
    · cases h
  · cases h

end Format

/-! ## Doubles in narrower formats -/

namespace Double

theorem bits_lt (d : Double) : d.bits.toNat < 2 * Format.double.signBit := d.bits.toNat_lt

/-- A double that a narrower format represents comes back from the narrower pattern. -/
theorem ofPattern_of_represent? {d : Double} {f : Format} {negative : Bool} {coeff bits : Nat} {exp : Int}
    (hdatum : d.datum = .finite negative coeff exp) (h : f.represent? negative coeff exp = some bits) :
    ofPattern f bits = d := by
  obtain ⟨-, coeff', exp', hdecode, hsame⟩ := Format.represent?_spec h
  have hround := Format.roundFloat_of_decode d.bits_lt hdatum hsame
  unfold ofPattern
  rw [hdecode]
  simp only [hround, UInt64.ofNat_toNat]

theorem infinity_of_datum {d : Double} {negative : Bool} (hdatum : d.datum = .inf negative) : infinity negative = d := by
  have hbits := Format.eq_of_decode_inf d.bits_lt hdatum
  rw [infinity, ← Format.signPattern, ← hbits, UInt64.ofNat_toNat]

end Double

end SeaOfNodes.Number
