import Mathlib.Algebra.Order.Field.Power
import Mathlib.Algebra.Order.Ring.Rat
import Mathlib.Data.Nat.Log
import Mathlib.Tactic.FieldSimp
import Mathlib.Tactic.Linarith
import Mathlib.Tactic.NormNum
import Mathlib.Tactic.Positivity
import Mathlib.Tactic.Ring
import Packrat.Number.Decimal
import Packrat.Number.Shortest

/-!
# Reals and the values that are read as them

Every exact value belongs to one real: the nearest, and of two equally near ones the one with the
even significand. Reading and writing rest on that from two sides.

* **`Binary64.Near`** — the value, counted in quarters of the smallest real, lies in the interval
  that belongs to the real.
* **`Binary64.upperEnd_lt_lowerEnd`** — the intervals of different magnitudes do not overlap. They
  may touch, and then the end belongs to one of them only. So a value is near to one magnitude at
  most (**`pattern_eq_of_near`**).
* **`Binary64.Near.closest`** — what a value is near to is nearest to it.
* **`Binary64.near_shortest`** — what the shortest digits of a real are worth is near to it.
* **`Binary64.isNearest_ofRatio`** — a quotient is read as the real that it is near to, and as
  infinity from half a step above the largest finite real on.
-/

namespace Packrat

namespace Binary64

variable {x y : Binary64}

/-! ## Patterns

Reals are compared by their bits, so that no arithmetic on them is needed. -/

/-- The bits below the sign, read as a number. Magnitudes are in the order of their patterns. -/
def pattern (x : Binary64) : Nat :=
  x.bits.toNat % 2 ^ 63

theorem fractionField_lt (x : Binary64) : x.fractionField < 2 ^ 52 :=
  Nat.mod_lt _ (by decide)

theorem pattern_eq (x : Binary64) : x.pattern = x.exponentField * 2 ^ 52 + x.fractionField := by
  simp only [pattern, exponentField, fractionField, Nat.pow_eq]
  omega

/-- A real is known by its sign and its magnitude. -/
theorem eq_of_pattern_eq (hsign : x.isNegative = y.isNegative) (h : x.pattern = y.pattern) :
    x = y := by
  have hx := x.bits.toNat_lt
  have hy := y.bits.toNat_lt
  have hbits : x.bits.toNat = y.bits.toNat := by
    simp only [isNegative, pattern, Nat.pow_eq, decide_eq_decide] at hsign h
    omega
  cases x
  cases y
  exact congrArg Binary64.mk (UInt64.toNat_inj.1 hbits)

/-- What the fields of a pattern are worth, if they are those of the number that is given. -/
theorem fields_of_toNat {e f : Nat} (h : x.bits.toNat = e * 2 ^ 52 + f) (he : e < 2 ^ 11)
    (hf : f < 2 ^ 52) : x.exponentField = e ∧ x.fractionField = f := by
  simp only [exponentField, fractionField, Nat.pow_eq, h]
  omega

/-! ## Intervals

The interval of a magnitude goes half a step up and half a step down, but only a quarter of it where
the grid below is narrower. Counted in quarters of the smallest real, all ends are whole numbers. -/

/-- A magnitude is its significand times its step. -/
theorem quarters_eq (x : Binary64) : x.quarters = 4 * x.significand * 2 ^ x.scale := by
  rw [quarters, Nat.pow_eq]
  ring

theorem upperEnd_eq (x : Binary64) : x.upperEnd = (4 * x.significand + 2) * 2 ^ x.scale := by
  rw [upperEnd, quarters_eq, Nat.pow_eq]
  ring

/-- By how many quarters of its step the interval of a real goes down. -/
def descent (x : Binary64) : Nat :=
  if x.fractionField = 0 ∧ 1 < x.exponentField then 1 else 2

theorem lowerEnd_eq (x : Binary64) :
    x.lowerEnd = (4 * x.significand - x.descent) * 2 ^ x.scale := by
  rw [lowerEnd, descent, quarters_eq, Nat.pow_eq]
  split
  · rw [Nat.sub_mul, Nat.one_mul]
  · rw [Nat.sub_mul]

/-- Two magnitudes are on one grid, or the grid of the larger one is wider. In that case its
significand has the leading bit. -/
theorem exists_grids (h : x.pattern < y.pattern) :
    ∃ k, y.scale = x.scale + k
      ∧ (k = 0 ∧ x.significand < y.significand ∧ y.descent = 2
        ∨ 0 < k ∧ x.significand < 2 ^ 53
          ∧ (y.significand = 2 ^ 52 ∧ y.descent = 1 ∨ 2 ^ 52 < y.significand ∧ y.descent = 2)) := by
  have hx := x.fractionField_lt
  have hy := y.fractionField_lt
  rw [x.pattern_eq, y.pattern_eq] at h
  refine ⟨y.scale - x.scale, by unfold scale; omega, ?_⟩
  unfold scale significand descent
  simp only [Nat.pow_eq]
  by_cases hscale : y.exponentField - 1 = x.exponentField - 1
  · refine .inl ⟨by omega, ?_, ?_⟩
    · split <;> split <;> omega
    · rw [if_neg]
      omega
  · have hy0 : y.exponentField ≠ 0 := by omega
    refine .inr ⟨by omega, ?_, ?_⟩
    · split <;> omega
    · rw [if_neg hy0]
      split <;> omega

/-- The interval of a smaller magnitude ends before that of a larger one begins. If the two touch,
the significands are of different parity. -/
theorem upperEnd_lt_lowerEnd (h : x.pattern < y.pattern) :
    x.upperEnd < y.lowerEnd
      ∨ x.upperEnd = y.lowerEnd ∧ (x.significand + y.significand) % 2 = 1 := by
  obtain ⟨k, hk, hgrids⟩ := exists_grids h
  have hpos : 0 < 2 ^ x.scale := Nat.two_pow_pos _
  suffices hcoefficients : 4 * x.significand + 2 < (4 * y.significand - y.descent) * 2 ^ k
      ∨ 4 * x.significand + 2 = (4 * y.significand - y.descent) * 2 ^ k
        ∧ (x.significand + y.significand) % 2 = 1 by
    rw [upperEnd_eq, lowerEnd_eq, hk, Nat.pow_add, ← Nat.mul_assoc, Nat.mul_right_comm]
    rcases hcoefficients with hlt | ⟨heq, hparity⟩
    · exact .inl ((Nat.mul_lt_mul_right hpos).2 hlt)
    · exact .inr ⟨congrArg (· * 2 ^ x.scale) heq, hparity⟩
  rcases hgrids with ⟨rfl, _, _⟩ | ⟨hkpos, _, _⟩
  · omega
  · -- a step of the wider grid counts twice at least
    have htwo : (4 * y.significand - y.descent) * 2 ≤ (4 * y.significand - y.descent) * 2 ^ k :=
      Nat.mul_le_mul_left _ (Nat.le_self_pow (by omega) 2)
    omega

/-- From one magnitude to a larger one it is a step of the smaller one at least, and twice as far as
the interval of the larger one goes down. -/
theorem step_le (h : x.pattern < y.pattern) :
    x.quarters + 4 * 2 ^ x.scale ≤ y.quarters
      ∧ x.quarters + 2 * (y.descent * 2 ^ y.scale) ≤ y.quarters := by
  obtain ⟨k, hk, hgrids⟩ := exists_grids h
  suffices hcoefficients : 4 * x.significand + 4 ≤ 4 * y.significand * 2 ^ k
      ∧ 4 * x.significand + 2 * (y.descent * 2 ^ k) ≤ 4 * y.significand * 2 ^ k by
    have hfirst := Nat.mul_le_mul_right (2 ^ x.scale) hcoefficients.1
    have hsecond := Nat.mul_le_mul_right (2 ^ x.scale) hcoefficients.2
    rw [quarters_eq, quarters_eq, hk, Nat.pow_add]
    constructor
    · linarith
    · linarith
  rcases hgrids with ⟨rfl, _, hdescent⟩ | ⟨hkpos, _, _⟩
  · rw [hdescent]
    omega
  · have htwo : 2 ≤ 2 ^ k := Nat.le_self_pow (by omega) 2
    obtain ⟨rest, hrest⟩ : ∃ rest, 4 * y.significand = rest + 2 * y.descent :=
      ⟨4 * y.significand - 2 * y.descent, by omega⟩
    have hwhole : 4 * y.significand * 2 ≤ 4 * y.significand * 2 ^ k := Nat.mul_le_mul_left _ htwo
    have hpart : rest * 2 ≤ rest * 2 ^ k := Nat.mul_le_mul_left _ htwo
    have hsplit : 4 * y.significand * 2 ^ k = rest * 2 ^ k + 2 * (y.descent * 2 ^ k) := by
      rw [hrest]
      ring
    omega

/-- The value, counted in quarters of the smallest real, is as near to the real as to any other. The
ends of the interval belong to it if the significand is even. That the interval reaches just as far
is `Near.closest`. -/
def Near (x : Binary64) (r : ℚ) : Prop :=
  if x.significand % 2 = 0 then x.lowerEnd ≤ r ∧ r ≤ x.upperEnd
  else x.lowerEnd < r ∧ r < x.upperEnd

theorem Near.bounds {r : ℚ} (h : x.Near r) : x.lowerEnd ≤ r ∧ r ≤ x.upperEnd := by
  unfold Near at h
  split at h
  · exact h
  · exact ⟨h.1.le, h.2.le⟩

/-- At an end of its interval a value is near only to an even significand. -/
theorem Near.even {r : ℚ} (h : x.Near r) (hend : r = x.lowerEnd ∨ r = x.upperEnd) :
    x.significand % 2 = 0 := by
  unfold Near at h
  split at h
  · assumption
  · rcases hend with rfl | rfl
    · exact absurd h.1 (lt_irrefl _)
    · exact absurd h.2 (lt_irrefl _)

/-- A value is not near to two magnitudes. -/
theorem not_near_of_pattern_lt {r : ℚ} (h : x.pattern < y.pattern) (hx : x.Near r) :
    ¬y.Near r := by
  intro hy
  have hupper := hx.bounds.2
  have hlower := hy.bounds.1
  rcases upperEnd_lt_lowerEnd h with hlt | ⟨heq, hparity⟩
  · have hends : (x.upperEnd : ℚ) < y.lowerEnd := Nat.cast_lt.2 hlt
    linarith
  · -- the value is where the intervals touch
    have hends : (x.upperEnd : ℚ) = y.lowerEnd := congrArg Nat.cast heq
    have hxeven := hx.even (.inr (by linarith))
    have hyeven := hy.even (.inl (by linarith))
    omega

/-- A value is near to one magnitude at most. -/
theorem pattern_eq_of_near {r : ℚ} (hx : x.Near r) (hy : y.Near r) : x.pattern = y.pattern := by
  rcases Nat.lt_trichotomy x.pattern y.pattern with h | h | h
  · exact absurd hy (not_near_of_pattern_lt h hx)
  · exact h
  · exact absurd hx (not_near_of_pattern_lt h hy)

/-- Magnitudes with the same pattern are the same. -/
theorem quarters_eq_of_pattern_eq (h : x.pattern = y.pattern) : x.quarters = y.quarters := by
  have hx := x.fractionField_lt
  have hy := y.fractionField_lt
  rw [x.pattern_eq, y.pattern_eq] at h
  have hexponent : x.exponentField = y.exponentField := by omega
  have hfraction : x.fractionField = y.fractionField := by omega
  rw [quarters, quarters, significand, significand, scale, scale, hexponent, hfraction]

/-- What lies on this side of the middle between two values is nearer to this one. -/
theorem abs_sub_le_of_middle {r a b m : ℚ} (hab : a < b) (hr : r ≤ m) (hm : 2 * m ≤ a + b) :
    |r - a| ≤ |r - b| ∧ (|r - a| = |r - b| → r = m) := by
  have hb : |r - b| = b - r := by
    rw [abs_sub_comm]
    exact abs_of_nonneg (by linarith)
  rw [hb]
  rcases abs_cases (r - a) with ⟨ha, _⟩ | ⟨ha, _⟩
  · rw [ha]
    exact ⟨by linarith, fun heq => by linarith⟩
  · rw [ha]
    exact ⟨by linarith, fun heq => by linarith⟩

/-- **What a value is near to is nearest to it**: no magnitude is nearer, and if another one is
as near, the significand is even. -/
theorem Near.closest {r : ℚ} (h : x.Near r) (y : Binary64) :
    |r - x.quarters| ≤ |r - y.quarters|
      ∧ (|r - x.quarters| = |r - y.quarters| → x.pattern = y.pattern ∨ x.significand % 2 = 0) := by
  obtain ⟨hlower, hupper⟩ := h.bounds
  rcases Nat.lt_trichotomy x.pattern y.pattern with hlt | heq | hlt
  · -- the upper end is not beyond the middle between the two
    have hpos : (0 : ℚ) < 2 ^ x.scale := by positivity
    have hstep : ((x.quarters + 4 * 2 ^ x.scale : Nat) : ℚ) ≤ y.quarters :=
      Nat.cast_le.2 (step_le hlt).1
    have hend : (x.upperEnd : ℚ) = x.quarters + 2 * 2 ^ x.scale := by
      rw [upperEnd, Nat.pow_eq]
      push_cast
      rfl
    push_cast at hstep
    obtain ⟨hle, htie⟩ := abs_sub_le_of_middle (a := x.quarters) (b := y.quarters) (by linarith)
      hupper (by linarith)
    exact ⟨hle, fun heq => .inr (h.even (.inr (htie heq)))⟩
  · rw [quarters_eq_of_pattern_eq heq]
    exact ⟨le_refl _, fun _ => .inl heq⟩
  · -- nor is the lower end; negation exchanges the two sides
    obtain ⟨width, hwidth⟩ : ∃ width, x.descent * 2 ^ x.scale = width := ⟨_, rfl⟩
    have hstep := (step_le hlt).2
    have hend : x.lowerEnd = x.quarters - width := by
      rw [lowerEnd_eq, quarters_eq, ← hwidth, Nat.sub_mul]
    have hpos : 0 < width := by
      rw [← hwidth]
      exact Nat.mul_pos (by unfold descent; split <;> decide) (Nat.two_pow_pos _)
    rw [hwidth] at hstep
    have hendcast : (x.lowerEnd : ℚ) = x.quarters - width := by
      rw [hend, Nat.cast_sub (by omega)]
    have hstepcast : ((y.quarters + 2 * width : Nat) : ℚ) ≤ x.quarters := Nat.cast_le.2 hstep
    have hposcast : (0 : ℚ) < width := Nat.cast_pos.2 hpos
    push_cast at hstepcast
    obtain ⟨hle, htie⟩ := abs_sub_le_of_middle (r := -r) (a := -x.quarters) (b := -y.quarters)
      (m := -x.lowerEnd) (by linarith) (by linarith) (by linarith)
    rw [neg_sub_neg, neg_sub_neg, abs_sub_comm, abs_sub_comm (y.quarters : ℚ)] at hle htie
    exact ⟨hle, fun heq => .inr (h.even (.inl (neg_inj.1 (htie heq))))⟩

/-- A magnitude is near to itself. -/
theorem near_quarters (x : Binary64) : x.Near x.quarters := by
  have hpos : 0 < 2 ^ x.scale := Nat.two_pow_pos _
  unfold Near
  rw [upperEnd_eq, lowerEnd_eq, quarters_eq]
  split
  · constructor
    · exact Nat.cast_le.2 (Nat.mul_le_mul_right _ (Nat.sub_le _ _))
    · exact Nat.cast_le.2 (Nat.mul_le_mul_right _ (by omega))
  · have hdescent : 0 < x.descent := by
      unfold descent
      split <;> decide
    constructor
    · exact Nat.cast_lt.2 ((Nat.mul_lt_mul_right hpos).2 (by omega))
    · exact Nat.cast_lt.2 ((Nat.mul_lt_mul_right hpos).2 (by omega))

/-- No magnitude but zero is near to zero. -/
theorem significand_eq_zero_of_near (h : x.Near 0) : x.significand = 0 := by
  by_contra hne
  have hlower := h.bounds.1
  rw [lowerEnd_eq] at hlower
  have hdescent : x.descent ≤ 2 := by
    unfold descent
    split <;> decide
  have hpos : 0 < (4 * x.significand - x.descent) * 2 ^ x.scale :=
    Nat.mul_pos (by omega) (Nat.two_pow_pos _)
  have hcast : (0 : ℚ) < ((4 * x.significand - x.descent) * 2 ^ x.scale : Nat) :=
    Nat.cast_pos.2 hpos
  linarith

end Binary64

/-! ## Decimals

The digits of a real are looked for on coarser grids first. Whichever grid they are found on, what
they are worth is in the interval of the real; at last all digits are taken. -/

/-- What a decimal is worth. -/
def Decimal.value (d : Decimal) : ℚ :=
  d.digits * (10 : ℚ) ^ d.exponent

/-- Moving zeros into the exponent does not change what a decimal is worth. -/
theorem Decimal.value_trim (fuel : Nat) (d : Decimal) : (d.trim fuel).value = d.value := by
  induction fuel generalizing d with
  | zero => rfl
  | succ fuel ih =>
    rw [Decimal.trim]
    split
    next hzero =>
      rw [ih]
      have hdigits : d.digits = 10 * (d.digits / 10) := by omega
      have hcast : (d.digits : ℚ) = 10 * (d.digits / 10 : Nat) := by
        conv_lhs => rw [hdigits]
        push_cast
        rfl
      rw [Decimal.value, Decimal.value, hcast, zpow_add_one₀ (by norm_num)]
      ring
    next => rfl

/-- A power of ten, put together from the parts of the exponent above and below zero. -/
theorem zpow_eq_toNat (e : Int) :
    (10 : ℚ) ^ e = (10 : ℚ) ^ e.toNat / (10 : ℚ) ^ (-e).toNat := by
  rcases le_total 0 e with h | h
  · obtain ⟨n, rfl⟩ := Int.eq_ofNat_of_zero_le h
    have hneg : (-(n : Int)).toNat = 0 := by omega
    rw [hneg, Int.toNat_natCast, zpow_natCast, pow_zero, div_one]
  · obtain ⟨n, hn⟩ := Int.eq_ofNat_of_zero_le (Int.neg_nonneg_of_nonpos h)
    obtain rfl : e = -(n : Int) := by omega
    have hpos : (-(n : Int)).toNat = 0 := by omega
    rw [hpos, neg_neg, Int.toNat_natCast, zpow_neg, zpow_natCast, pow_zero, one_div]

namespace Binary64

variable {x : Binary64}

/-- The decimals that are read as a real are those that it is near to. -/
theorem reads_iff_near {d : Nat} {e : Int} :
    x.reads d e = true ↔ x.Near ((⟨d, e⟩ : Decimal).value * quartersPerOne) := by
  have hstretch : (0 : ℚ) < (10 : ℚ) ^ (-e).toNat := by positivity
  have hvalue : (⟨d, e⟩ : Decimal).value * quartersPerOne
      = (d * 10 ^ e.toNat * quartersPerOne : Nat) / (10 : ℚ) ^ (-e).toNat := by
    rw [Decimal.value, zpow_eq_toNat]
    push_cast
    ring
  rw [hvalue, Near, reads]
  simp only [Nat.pow_eq]
  split
  · rw [Bool.and_eq_true, decide_eq_true_eq, decide_eq_true_eq, le_div_iff₀ hstretch,
      div_le_iff₀ hstretch]
    norm_cast
  · rw [Bool.and_eq_true, decide_eq_true_eq, decide_eq_true_eq, lt_div_iff₀ hstretch,
      div_lt_iff₀ hstretch]
    norm_cast

theorem near_onGrid {tie : Tie} {e : Int} {d : Decimal} (h : x.onGrid? tie e = some d) :
    x.Near (d.value * quartersPerOne) := by
  simp only [onGrid?] at h
  split at h
  next hbelow habove =>
    cases h
    refine reads_iff_near.1 ?_
    split
    · exact habove
    · exact hbelow
  next hbelow _ =>
    cases h
    exact reads_iff_near.1 hbelow
  next _ habove =>
    cases h
    exact reads_iff_near.1 habove
  next => cases h

/-- A number over a power of two has as many decimal places as the power says. -/
theorem value_places (q n : Nat) :
    (⟨q * Nat.pow 5 n, -(n : Int)⟩ : Decimal).value * Nat.pow 2 n = q := by
  have hten : (10 : ℚ) = 5 * 2 := by norm_num
  rw [Decimal.value, Nat.pow_eq, Nat.pow_eq, zpow_neg, zpow_natCast, hten, mul_pow]
  push_cast
  field_simp

theorem value_allDigits (x : Binary64) : x.allDigits.value * quartersPerOne = x.quarters := by
  obtain ⟨n, hn⟩ : ∃ n : Nat, 1076 = n := ⟨_, rfl⟩
  have hexponent : (-1076 : Int) = -(n : Int) := by omega
  unfold allDigits quartersPerOne
  rw [hexponent, hn]
  exact value_places x.quarters n

/-- **The shortest digits of a real are worth something near to it.** -/
theorem near_shortest (tie : Tie) (x : Binary64) :
    x.Near ((x.shortest tie).value * quartersPerOne) := by
  rw [shortest, Decimal.value_trim]
  cases hfound : (List.range 17).findSome? fun (n : Nat) =>
      x.onGrid? tie (x.leadingExponent - n) with
  | none =>
    rw [Option.getD_none, value_allDigits]
    exact x.near_quarters
  | some d =>
    obtain ⟨n, _, hn⟩ := List.exists_of_findSome?_eq_some hfound
    exact near_onGrid hn

end Binary64

/-! ## Quotients

A quotient is rounded on the grid that its leading bit puts it on. The carry into the next power of
two is a case of its own: the real then has a coarser step than the grid it was rounded on. -/

/-- Rounding goes to one of the two numbers beside the quotient that is not farther off, and
half-way to the even one. -/
theorem roundHalfEven_spec (a : Nat) {b : Nat} (hb : 0 < b) :
    2 * a ≤ (2 * roundHalfEven a b + 1) * b ∧ 2 * roundHalfEven a b * b ≤ 2 * a + b
      ∧ (2 * a = (2 * roundHalfEven a b + 1) * b ∨ 2 * roundHalfEven a b * b = 2 * a + b →
        roundHalfEven a b % 2 = 0) := by
  have hdiv := Nat.div_add_mod a b
  have hlt := Nat.mod_lt a hb
  simp only [roundHalfEven]
  generalize a / b = q at hdiv
  split
  · have hup : (2 * (q + 1) + 1) * b = 2 * (b * q) + 3 * b := by ring
    have hdown : 2 * (q + 1) * b = 2 * (b * q) + 2 * b := by ring
    omega
  · have hup : (2 * q + 1) * b = 2 * (b * q) + b := by ring
    have hdown : 2 * q * b = 2 * (b * q) := by ring
    omega

namespace Binary64

variable {x : Binary64}

/-- How a number of the smallest reals, given as a quotient, is rounded: the places that it is
shifted by and the significand, with the carry if there is one. -/
structure Rounded (units den shift significand : Nat) : Prop where
  below : 2 * units ≤ (2 * significand + 1) * (den * 2 ^ shift)
  above : 2 * significand * (den * 2 ^ shift) ≤ 2 * units + den * 2 ^ shift
  even : 2 * units = (2 * significand + 1) * (den * 2 ^ shift)
    ∨ 2 * significand * (den * 2 ^ shift) = 2 * units + den * 2 ^ shift → significand % 2 = 0
  fits : units < 2 ^ 53 * (den * 2 ^ shift)
  leads : shift = 0 ∨ 2 ^ 52 * (den * 2 ^ shift) ≤ units

theorem Rounded.bounds {units den shift r : Nat} (h : Rounded units den shift r) (hden : 0 < den) :
    r ≤ 2 ^ 53 ∧ (shift = 0 ∨ 2 ^ 52 ≤ r) := by
  have hpos : 0 < den * 2 ^ shift := Nat.mul_pos hden (Nat.two_pow_pos _)
  obtain ⟨hbelow, habove, _, hfits, hleads⟩ := h
  generalize den * 2 ^ shift = d at *
  constructor
  · have hlt : 2 * r * d < (2 ^ 54 + 1) * d := by omega
    have := Nat.lt_of_mul_lt_mul_right hlt
    omega
  · refine hleads.imp id fun hleads => ?_
    have hle : 2 ^ 53 * d ≤ (2 * r + 1) * d := by omega
    have := Nat.le_of_mul_le_mul_right hle hpos
    omega

theorem exists_rounded (num : Nat) {den n : Nat} (hden : 0 < den) (hn : 1074 = n) :
    ∃ shift r, Rounded (num * Nat.pow 2 n) den shift r
      ∧ ofRatio num den = ⟨(min (shift * Nat.pow 2 52 + r) infinityBits).toUInt64⟩ := by
  generalize hunits : num * Nat.pow 2 n = units
  refine ⟨(units / den).log2 - 52,
    roundHalfEven units (den * Nat.pow 2 ((units / den).log2 - 52)), ?_,
    by rw [ofRatio, hn, hunits]⟩
  generalize hshift : (units / den).log2 - 52 = shift
  have hpos : 0 < den * 2 ^ shift := Nat.mul_pos hden (Nat.two_pow_pos _)
  obtain ⟨hbelow, habove, heven⟩ := roundHalfEven_spec units hpos
  refine ⟨hbelow, habove, heven, ?_, ?_⟩
  · have hlog : units / den < 2 ^ ((units / den).log2 + 1) := Nat.lt_log2_self
    have hpow : 2 ^ ((units / den).log2 + 1) ≤ 2 ^ (53 + shift) :=
      Nat.pow_le_pow_right (by decide) (by omega)
    have hlt : units < 2 ^ (53 + shift) * den :=
      (Nat.div_lt_iff_lt_mul hden).1 (Nat.lt_of_lt_of_le hlog hpow)
    rwa [Nat.pow_add, Nat.mul_assoc, Nat.mul_comm (2 ^ shift)] at hlt
  · rcases Nat.eq_zero_or_pos shift with hzero | hmoved
    · exact .inl hzero
    · have hne : units / den ≠ 0 := by
        intro hzero
        rw [hzero, Nat.log2_zero] at hshift
        omega
      have hlog := Nat.log2_self_le hne
      have hexponent : (units / den).log2 = 52 + shift := by omega
      have hle := (Nat.le_div_iff_mul_le hden).1 (hexponent ▸ hlog)
      rw [Nat.pow_add, Nat.mul_assoc, Nat.mul_comm (2 ^ shift)] at hle
      exact .inr hle

/-- The interval of a real, compared with a quotient. -/
theorem near_div {num den : Nat} (hden : 0 < den)
    (h : x.lowerEnd * den ≤ num ∧ num ≤ x.upperEnd * den)
    (heven : num = x.lowerEnd * den ∨ num = x.upperEnd * den → x.significand % 2 = 0) :
    x.Near ((num : ℚ) / den) := by
  have hpos : (0 : ℚ) < den := Nat.cast_pos.2 hden
  unfold Near
  rw [le_div_iff₀ hpos, div_le_iff₀ hpos, lt_div_iff₀ hpos, div_lt_iff₀ hpos]
  norm_cast
  split
  · exact h
  · omega

/-- Without a carry, the real has the significand that was rounded to. -/
theorem shape_of_bits {shift r : Nat} (hx : x.bits.toNat = shift * 2 ^ 52 + r)
    (hfinite : shift * 2 ^ 52 + r < 2047 * 2 ^ 52) (hlt : r < 2 ^ 53)
    (hleads : shift = 0 ∨ 2 ^ 52 ≤ r) :
    x.significand = r ∧ x.scale = shift ∧ (x.descent = 1 → r = 2 ^ 52 ∧ 0 < shift) := by
  rcases Nat.lt_or_ge r (2 ^ 52) with hsmall | hlarge
  · obtain rfl : shift = 0 := by omega
    obtain ⟨he, hf⟩ := @fields_of_toNat x 0 r hx (by omega) hsmall
    unfold significand scale descent
    rw [he, hf, if_pos rfl, if_neg (by omega)]
    omega
  · have hbits : x.bits.toNat = (shift + 1) * 2 ^ 52 + (r - 2 ^ 52) := by
      rw [hx, Nat.add_one_mul, Nat.add_assoc, Nat.add_sub_cancel' hlarge]
    obtain ⟨he, hf⟩ := fields_of_toNat hbits (by omega) (by omega)
    unfold significand scale descent
    rw [he, hf, if_neg (by omega)]
    simp only [Nat.pow_eq]
    split <;> omega

/-- With a carry, the real is a power of two, and its step is twice that of the grid. -/
theorem shape_of_carry {shift : Nat} (hx : x.bits.toNat = shift * 2 ^ 52 + 2 ^ 53)
    (hfinite : shift * 2 ^ 52 + 2 ^ 53 < 2047 * 2 ^ 52) :
    x.significand = 2 ^ 52 ∧ x.scale = shift + 1 ∧ x.descent = 1 := by
  have hbits : x.bits.toNat = (shift + 2) * 2 ^ 52 + 0 := by
    rw [hx]
    ring
  obtain ⟨he, hf⟩ := fields_of_toNat hbits (by omega) (by omega)
  unfold significand scale descent
  rw [he, hf, if_neg (by omega), if_pos (by omega), Nat.pow_eq]
  omega

theorem descent_cases (x : Binary64) : x.descent = 1 ∨ x.descent = 2 := by
  unfold descent
  split
  · exact .inl rfl
  · exact .inr rfl

/-- What is rounded is near to the real with the pattern that comes out. -/
theorem Rounded.near {units den shift r : Nat} (h : Rounded units den shift r) (hden : 0 < den)
    (hx : x.bits.toNat = shift * 2 ^ 52 + r) (hfinite : shift * 2 ^ 52 + r < 2047 * 2 ^ 52) :
    x.Near ((4 * units : Nat) / (den : ℚ)) := by
  obtain ⟨hle, hleads⟩ := h.bounds hden
  obtain ⟨hbelow, habove, heven, hfits, hleads'⟩ := h
  rcases Nat.lt_or_eq_of_le hle with hlt | rfl
  · obtain ⟨hsignificand, hscale, hdescent⟩ := shape_of_bits hx hfinite hlt hleads
    have hlower : x.lowerEnd * den = (4 * r - x.descent) * (den * 2 ^ shift) := by
      rw [lowerEnd_eq, hsignificand, hscale]
      ring
    have hupper : x.upperEnd * den = 2 * ((2 * r + 1) * (den * 2 ^ shift)) := by
      rw [upperEnd_eq, hsignificand, hscale]
      ring
    rw [Nat.sub_mul] at hlower
    have hfour : 4 * r * (den * 2 ^ shift) = 2 * (2 * r * (den * 2 ^ shift)) := by ring
    generalize den * 2 ^ shift = d at *
    rcases x.descent_cases with hone | htwo
    · obtain ⟨rfl, hmoved⟩ := hdescent hone
      -- at a power of two the steps below are half as wide, but the significand is even
      rw [hone] at hlower
      refine near_div hden (by omega) fun _ => ?_
      rw [hsignificand]
      norm_num
    · rw [htwo] at hlower
      refine near_div hden (by omega) fun hend => ?_
      rw [hsignificand]
      by_cases hzero : r = 0
      · rw [hzero]
      · have hstep : 2 * d ≤ 2 * r * d := Nat.mul_le_mul_right d (by omega)
        exact heven (by omega)
  · -- a carry: the steps of the real are twice those of the grid, and the significand is even
    obtain ⟨hsignificand, hscale, hdescent⟩ := shape_of_carry hx hfinite
    have hlower : x.lowerEnd * den = (2 ^ 55 - 2) * (den * 2 ^ shift) := by
      rw [lowerEnd_eq, hsignificand, hscale, hdescent]
      ring
    have hupper : x.upperEnd * den = (2 ^ 55 + 4) * (den * 2 ^ shift) := by
      rw [upperEnd_eq, hsignificand, hscale]
      ring
    generalize den * 2 ^ shift = d at *
    refine near_div hden (by omega) fun _ => ?_
    rw [hsignificand]
    norm_num

/-- Half a step above the largest finite real. Values from here on are read as infinity. -/
def limit : Nat :=
  (2 ^ 54 - 1) * 2 ^ 970

/-- The steps of a grid, compared with those of another. -/
theorem grid_cases (den top shift : Nat) :
    shift ≤ top ∧ den * 2 ^ shift ≤ den * 2 ^ top
      ∨ shift = top + 1 ∧ den * 2 ^ shift = 2 * (den * 2 ^ top)
      ∨ top + 2 ≤ shift ∧ 4 * (den * 2 ^ top) ≤ den * 2 ^ shift := by
  rcases Nat.lt_trichotomy shift (top + 1) with hshift | rfl | hshift
  · have hle : shift ≤ top := Nat.le_of_lt_succ hshift
    exact .inl ⟨hle, Nat.mul_le_mul_left _ (Nat.pow_le_pow_right (by decide) hle)⟩
  · refine .inr (.inl ⟨rfl, ?_⟩)
    rw [Nat.pow_succ]
    ring
  · obtain ⟨k, rfl⟩ := Nat.exists_eq_add_of_le hshift
    refine .inr (.inr ⟨Nat.le_add_right _ _, ?_⟩)
    have hsteps : den * 2 ^ (top + 1 + 1 + k) = 4 * (den * 2 ^ top) * 2 ^ k := by
      rw [Nat.pow_add, Nat.pow_succ, Nat.pow_succ]
      ring
    rw [hsteps]
    exact Nat.le_mul_of_pos_right _ (Nat.two_pow_pos k)

/-- A bound on a quotient, and the same bound counted in units that are powers of two. -/
theorem lt_mul_pow_iff (num den c m n : Nat) :
    num * Nat.pow 2 n < c * (den * 2 ^ (m + n)) ↔ num < c * 2 ^ m * den := by
  have hunits : c * (den * 2 ^ (m + n)) = c * 2 ^ m * den * Nat.pow 2 n := by
    rw [Nat.pow_eq, Nat.pow_add]
    ring
  rw [hunits]
  exact Nat.mul_lt_mul_right (Nat.two_pow_pos n)

/-- What is rounded has the pattern of a finite real as long as it is below the limit. -/
theorem Rounded.finite_iff {num den m n shift r : Nat}
    (h : Rounded (num * Nat.pow 2 n) den shift r) (hden : 0 < den) (htop : m + n = 2044) :
    shift * 2 ^ 52 + r < 2047 * 2 ^ 52 ↔ num < (2 ^ 54 - 1) * 2 ^ m * den := by
  rw [← lt_mul_pow_iff num den (2 ^ 54 - 1) m n]
  obtain ⟨hle, hleads⟩ := h.bounds hden
  obtain ⟨hbelow, habove, heven, hfits, hleads'⟩ := h
  have hpos : 0 < den * 2 ^ (m + n) := Nat.mul_pos hden (Nat.two_pow_pos _)
  have hgrid := grid_cases den (m + n) shift
  generalize num * Nat.pow 2 n = units at *
  generalize den * 2 ^ (m + n) = l at *
  generalize den * 2 ^ shift = d at *
  rcases hgrid with ⟨hshift, hd⟩ | ⟨hshift, rfl⟩ | ⟨hshift, hd⟩
  · omega
  · rcases Nat.lt_or_eq_of_le hle with hlt | rfl
    · have hcoefficient : (2 * r + 1) * (2 * l) ≤ (2 ^ 54 - 1) * (2 * l) :=
        Nat.mul_le_mul_right _ (by omega)
      -- the last significand is odd, so the tie above it goes up
      have hstrict : 2 * units ≠ (2 ^ 54 - 1) * (2 * l) := by
        intro heq
        have hr : 2 * r + 1 = 2 ^ 54 - 1 :=
          Nat.eq_of_mul_eq_mul_right (by omega) (Nat.le_antisymm hcoefficient (heq ▸ hbelow))
        have heven := heven (.inl (by rw [hr, heq]))
        omega
      omega
    · omega
  · omega

/-- The real is what the value is read as: the one that it is near to, or infinity from the limit
on. -/
def IsNearest (x : Binary64) (v : ℚ) : Prop :=
  x.isNegative = false
    ∧ (x.isFinite = true ∧ v < limit ∧ x.Near (v * quartersPerOne) ∨ x = infinity ∧ limit ≤ v)

theorem IsNearest.isNaN {v : ℚ} (h : x.IsNearest v) : x.isNaN = false := by
  rcases h with ⟨_, ⟨hfinite, _, _⟩ | ⟨rfl, _⟩⟩
  · rw [isFinite, decide_eq_true_eq] at hfinite
    rw [Binary64.isNaN, decide_eq_false hfinite]
    rfl
  · decide

/-- There is one real that a value is read as. -/
theorem IsNearest.unique {v : ℚ} (hx : x.IsNearest v) (hy : y.IsNearest v) : x = y := by
  rcases hx with ⟨hsignx, ⟨_, hltx, hnearx⟩ | ⟨rfl, hlex⟩⟩
  · rcases hy with ⟨hsigny, ⟨_, _, hneary⟩ | ⟨_, hley⟩⟩
    · exact eq_of_pattern_eq (hsignx.trans hsigny.symm) (pattern_eq_of_near hnearx hneary)
    · exact absurd hltx (not_lt.2 hley)
  · rcases hy with ⟨_, ⟨_, hlty, _⟩ | ⟨rfl, _⟩⟩
    · exact absurd hlty (not_lt.2 hlex)
    · rfl

theorem quarters_div (num den : Nat) {n : Nat} (hn : 1074 = n) :
    ((4 * (num * Nat.pow 2 n) : Nat) : ℚ) / den = num / den * quartersPerOne := by
  have hplaces : 1076 = n + 2 := by omega
  unfold quartersPerOne
  rw [hplaces, Nat.pow_eq, Nat.pow_eq, Nat.pow_add]
  push_cast
  ring

/-- **A quotient is read as the real that it is near to**, and as infinity from the limit on. -/
theorem isNearest_ofRatio (num : Nat) {den : Nat} (hden : 0 < den) :
    (ofRatio num den).IsNearest ((num : ℚ) / den) := by
  -- the exponent is not to be computed with
  obtain ⟨n, hn⟩ : ∃ n : Nat, 1074 = n := ⟨_, rfl⟩
  obtain ⟨shift, r, hrounded, hx⟩ := exists_rounded num hden hn
  have hpos : (0 : ℚ) < den := Nat.cast_pos.2 hden
  have hlimit : shift * 2 ^ 52 + r < 2047 * 2 ^ 52 ↔ num < limit * den :=
    hrounded.finite_iff hden (by omega)
  rw [hx]
  by_cases hfinite : shift * 2 ^ 52 + r < 2047 * 2 ^ 52
  · have hbits : (min (shift * Nat.pow 2 52 + r) infinityBits).toUInt64.toNat
        = shift * 2 ^ 52 + r := by
      rw [Nat.pow_eq, Nat.min_eq_left (by rw [infinityBits, Nat.pow_eq]; omega)]
      exact UInt64.toNat_ofNat_of_lt' (by rw [UInt64.size]; omega)
    have hnear := Rounded.near (x := ⟨_⟩) hrounded hden hbits hfinite
    rw [quarters_div num den hn] at hnear
    refine ⟨?_, .inl ⟨?_, ?_, hnear⟩⟩
    · rw [isNegative, hbits, decide_eq_false_iff_not, Nat.pow_eq]
      omega
    · rw [isFinite, exponentField, hbits, decide_eq_true_eq, Nat.pow_eq, Nat.pow_eq]
      omega
    · rw [div_lt_iff₀ hpos]
      exact_mod_cast hlimit.1 hfinite
  · have hbits : min (shift * Nat.pow 2 52 + r) infinityBits = infinityBits := by
      refine Nat.min_eq_right ?_
      rw [infinityBits, Nat.pow_eq]
      omega
    rw [hbits]
    refine ⟨by decide, .inr ⟨rfl, ?_⟩⟩
    rw [le_div_iff₀ hpos]
    exact_mod_cast Nat.le_of_not_lt fun hlt => hfinite (hlimit.2 hlt)

end Binary64

end Packrat
