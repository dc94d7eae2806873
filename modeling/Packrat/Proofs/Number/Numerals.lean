import Packrat.Number.Format
import Packrat.Proofs.Language.Joining
import Packrat.Proofs.Number.Rounding

/-!
# How reals are written

The texts of finite reals, for any format that leaves whole numbers as they are or puts `.0` behind
them.

* **`Numeral`** — digits, with a fraction and a power of ten if there are any. A well-formed one is
  known by its text (**`Numeral.text_inj`**).
* **`Decimal.exists_inFull`**, **`Decimal.exists_scientific`** — the two ways to lay out a decimal
  are numerals that are worth the decimal.
* **`NumberFormat.exists_write`** — a finite real is written as a sign and a numeral near to it.
* **`NumberFormat.write_inj`** — so no two finite reals are written alike: the value of the one text
  is near to both.
-/

namespace Packrat

open Packrat.Language

/-! ## Digits

A number is written with the digits that division by ten gives, and what it is worth is read off
them from the left. -/

theorem decimalValue_eq (cs : List Char) : decimalValue cs = Nat.ofDigitChars 10 cs 0 :=
  rfl

/-- The digits of a number are worth the number. -/
theorem decimalValue_toDigits (n : Nat) : decimalValue (Nat.toDigits 10 n) = n :=
  Nat.ofDigitChars_ten_toDigits

theorem isDecimalDigit_of_mem_toDigits {n : Nat} {c : Char} (h : c ∈ Nat.toDigits 10 n) :
    isDecimalDigit c = true :=
  Nat.isDigit_of_mem_toDigits (by decide) (by decide) h

/-- A number other than zero is not written with a zero in front. -/
theorem head?_toDigits_ne {n : Nat} (hn : n ≠ 0) : (Nat.toDigits 10 n).head? ≠ some '0' := by
  induction n using Nat.strongRecOn with
  | ind n ih =>
    rcases Nat.lt_or_ge n 10 with hlt | hge
    · rw [Nat.toDigits_of_lt_base hlt]
      interval_cases n <;> simp_all
    · rw [Nat.toDigits_of_base_le (by decide) hge,
        List.head?_append_of_ne_nil _ Nat.toDigits_ne_nil]
      exact ih (n / 10) (by omega) (by omega)

/-! ## Numerals

The parts of a numeral can be told apart in its text: digits go on until a point, an exponent or the
end. -/

/-- A fraction, with the point before it if there is one. -/
def fractionText (fraction : List Char) : List Char :=
  if fraction.isEmpty then [] else '.' :: fraction

theorem literalText_eq (whole fraction : List Char) :
    literalText whole fraction = whole ++ fractionText fraction := by
  unfold literalText fractionText
  split
  · exact (List.append_nil whole).symm
  · rfl

/-- A number as it is written, without a sign: a whole part, a fraction, and whether the power of
ten is negative, with the digits of it. -/
structure Numeral where
  whole : List Char
  fraction : List Char
  power : Option (Bool × List Char)

namespace Numeral

/-- How a power of ten is written. -/
def powerText : Option (Bool × List Char) → List Char
  | none => []
  | some (negative, digits) => 'e' :: (if negative then '-' else '+') :: digits

/-- The text of a numeral. -/
def text (n : Numeral) : List Char :=
  literalText n.whole n.fraction ++ powerText n.power

/-- The power of ten. -/
def powerValue : Option (Bool × List Char) → Int
  | none => 0
  | some (negative, digits) => if negative then -decimalValue digits else decimalValue digits

/-- What a numeral is worth. -/
def decimal (n : Numeral) : Decimal :=
  ⟨decimalValue (n.whole ++ n.fraction), powerValue n.power - n.fraction.length⟩

/-- There are digits where there have to be, and no zero stands in front of others. -/
structure WellFormed (n : Numeral) : Prop where
  literal : IsLiteral n.whole n.fraction
  leading : n.whole.head? = some '0' → n.whole = ['0']
  power : ∀ negative digits, n.power = some (negative, digits) →
    digits ≠ [] ∧ ∀ c ∈ digits, isDecimalDigit c = true

theorem halts_powerText (p : Option (Bool × List Char)) : Halts isDecimalDigit (powerText p) := by
  cases p with
  | none => exact halts_nil _
  | some p => exact halts_cons (by decide) _

/-- A power of ten is known by how it is written. -/
theorem powerText_inj {p q : Option (Bool × List Char)} (h : powerText p = powerText q) :
    p = q := by
  match p, q with
  | none, none => rfl
  | none, some _ => cases h
  | some _, none => cases h
  | some (true, ds), some (true, es) => rw [(List.cons.inj (List.cons.inj h).2).2]
  | some (false, ds), some (false, es) => rw [(List.cons.inj (List.cons.inj h).2).2]
  | some (true, _), some (false, _) =>
    have hsign : '-' = '+' := (List.cons.inj (List.cons.inj h).2).1
    exact absurd hsign (by decide)
  | some (false, _), some (true, _) =>
    have hsign : '+' = '-' := (List.cons.inj (List.cons.inj h).2).1
    exact absurd hsign (by decide)

/-- What follows the whole part. -/
def tail (n : Numeral) : List Char :=
  fractionText n.fraction ++ powerText n.power

theorem text_eq (n : Numeral) : n.text = n.whole ++ n.tail := by
  rw [text, tail, literalText_eq, List.append_assoc]

theorem halts_tail (n : Numeral) : Halts isDecimalDigit n.tail := by
  unfold tail fractionText
  split
  · exact halts_powerText n.power
  · exact halts_cons (by decide) _

/-- A point and a power of ten do not begin alike. -/
theorem tail_inj {m n : Numeral} (hm : ∀ c ∈ m.fraction, isDecimalDigit c = true)
    (hn : ∀ c ∈ n.fraction, isDecimalDigit c = true) (h : m.tail = n.tail) :
    m.fraction = n.fraction ∧ m.power = n.power := by
  have hapart {ds : List Char} {p : Option (Bool × List Char)} : powerText p ≠ '.' :: ds := by
    cases p with
    | none => exact nofun
    | some p => exact fun heq => absurd (List.cons.inj heq).1 (by decide)
  unfold tail fractionText at h
  split at h <;> split at h
  next hmnil hnnil =>
    rw [List.isEmpty_iff.1 hmnil, List.isEmpty_iff.1 hnnil]
    exact ⟨rfl, powerText_inj h⟩
  next => exact absurd h hapart
  next => exact absurd h.symm hapart
  next =>
    obtain ⟨hfraction, hpower⟩ := run_append_inj hm hn (halts_powerText _) (halts_powerText _)
      (List.cons.inj h).2
    exact ⟨hfraction, powerText_inj hpower⟩

/-- A well-formed numeral is known by its text. -/
theorem text_inj {m n : Numeral} (hm : m.WellFormed) (hn : n.WellFormed) (h : m.text = n.text) :
    m = n := by
  rw [text_eq, text_eq] at h
  obtain ⟨hwhole, htail⟩ := run_append_inj
    (fun c hc => hm.literal.2 c (List.mem_append_left _ hc))
    (fun c hc => hn.literal.2 c (List.mem_append_left _ hc)) m.halts_tail n.halts_tail h
  obtain ⟨hfraction, hpower⟩ := tail_inj (fun c hc => hm.literal.2 c (List.mem_append_right _ hc))
    (fun c hc => hn.literal.2 c (List.mem_append_right _ hc)) htail
  cases m
  cases n
  cases hwhole
  cases hfraction
  cases hpower
  rfl

/-- A numeral begins with a digit. -/
theorem WellFormed.exists_head {n : Numeral} (h : n.WellFormed) :
    ∃ c cs, n.text = c :: cs ∧ isDecimalDigit c = true := by
  obtain ⟨c, cs, hliteral, hc⟩ := h.literal.exists_head
  exact ⟨c, cs ++ powerText n.power, by rw [text, hliteral]; rfl, hc⟩

/-- The characters that numerals are made of. -/
theorem WellFormed.forall_mem_text {n : Numeral} (h : n.WellFormed) :
    ∀ c ∈ n.text, isDecimalDigit c = true ∨ c ∈ ['.', 'e', '-', '+'] := by
  obtain ⟨⟨_, hdigits⟩, _, hpower⟩ := h
  intro c hc
  rcases List.mem_append.1 hc with hc | hc
  · unfold literalText at hc
    split at hc
    · exact .inl (hdigits c (List.mem_append_left _ hc))
    · rcases List.mem_append.1 hc with hc | hc
      · exact .inl (hdigits c (List.mem_append_left _ hc))
      · rcases List.mem_cons.1 hc with rfl | hc
        · exact .inr (by decide)
        · exact .inl (hdigits c (List.mem_append_right _ hc))
  · match hp : n.power with
    | none =>
      rw [hp] at hc
      cases hc
    | some (negative, digits) =>
      rw [hp] at hc
      rcases List.mem_cons.1 hc with rfl | hc
      · exact .inr (by decide)
      · rcases List.mem_cons.1 hc with rfl | hc
        · cases negative <;> exact .inr (by decide)
        · exact .inl ((hpower negative digits hp).2 c hc)

end Numeral

/-! ## Decimals laid out

A decimal is a run of digits and a power of ten. Where the point stands is a matter of the layout,
and makes no difference to what the numeral is worth. -/

/-- Each zero behind the digits is worth a factor of ten. -/
theorem decimalValue_append_zeros (cs : List Char) (k : Nat) :
    decimalValue (cs ++ List.replicate k '0') = 10 ^ k * decimalValue cs := by
  rw [decimalValue_eq, Nat.ofDigitChars_append, Nat.ofDigitChars_replicate_zero, decimalValue_eq]

/-- Zeros in front of the digits are worth nothing. -/
theorem decimalValue_zeros_append (cs : List Char) (k : Nat) :
    decimalValue (List.replicate k '0' ++ cs) = decimalValue cs := by
  rw [decimalValue_eq, Nat.ofDigitChars_append, Nat.ofDigitChars_replicate_zero, Nat.mul_zero,
    decimalValue_eq]

/-- Zeros behind the digits are worth a power of ten. -/
theorem Decimal.value_zeros (digits k : Nat) (e : Int) :
    (⟨10 ^ k * digits, e - k⟩ : Decimal).value = (⟨digits, e⟩ : Decimal).value := by
  have hten : (10 : ℚ) ≠ 0 := by norm_num
  rw [Decimal.value, Decimal.value, zpow_sub₀ hten, zpow_natCast]
  push_cast
  field_simp

theorem mem_replicate_digit {k : Nat} {c : Char} (h : c ∈ List.replicate k '0') :
    isDecimalDigit c = true := by
  rw [List.eq_of_mem_replicate h]
  decide

namespace Decimal

variable {d : Decimal} {afterWhole : String}

/-- A whole number is its digits with zeros behind them, and perhaps a fraction of nothing. -/
theorem exists_whole (hd : d.digits ≠ 0) (hafter : afterWhole = "" ∨ afterWhole = ".0")
    (he : (-d.exponent).toNat = 0) :
    ∃ n : Numeral, n.WellFormed ∧ (d.inFull afterWhole).toList = n.text
      ∧ n.decimal.value = d.value := by
  obtain ⟨k, hk⟩ : ∃ k : Nat, d.exponent = k := ⟨d.exponent.toNat, by omega⟩
  have hne : Nat.toDigits 10 d.digits ≠ [] := Nat.toDigits_ne_nil
  -- the fraction is one more zero, if there is one
  obtain ⟨fraction, hfraction, htext⟩ : ∃ fraction : List Char,
      fraction = List.replicate fraction.length '0' ∧ ∀ whole : List Char,
        (String.ofList whole ++ afterWhole).toList = literalText whole fraction := by
    rcases hafter with rfl | rfl
    · refine ⟨[], rfl, fun whole => ?_⟩
      rw [String.toList_append, String.toList_ofList]
      exact List.append_nil whole
    · refine ⟨['0'], rfl, fun whole => ?_⟩
      rw [String.toList_append, String.toList_ofList]
      rfl
  refine ⟨⟨Nat.toDigits 10 d.digits ++ List.replicate k '0', fraction, none⟩, ?_, ?_, ?_⟩
  · refine ⟨⟨by simp [hne], fun c hc => ?_⟩, fun hzero => ?_, nofun⟩
    · rcases List.mem_append.1 hc with hc | hc
      · rcases List.mem_append.1 hc with hc | hc
        · exact isDecimalDigit_of_mem_toDigits hc
        · exact mem_replicate_digit hc
      · rw [hfraction] at hc
        exact mem_replicate_digit hc
    · have hhead : (Nat.toDigits 10 d.digits).head? = some '0' := by
        rwa [List.head?_append_of_ne_nil _ hne] at hzero
      exact absurd hhead (head?_toDigits_ne hd)
  · have hzeros : d.exponent.toNat = k := by omega
    simp only [inFull, if_pos he, hzeros]
    rw [htext, Numeral.text, Numeral.powerText, List.append_nil]
  · have hdigits : decimalValue (Nat.toDigits 10 d.digits ++ List.replicate k '0' ++ fraction)
        = 10 ^ (k + fraction.length) * d.digits := by
      rw [hfraction, List.append_assoc, List.replicate_append_replicate, decimalValue_append_zeros,
        decimalValue_toDigits, List.length_replicate]
    have hexponent : Numeral.powerValue none - (fraction.length : Int)
        = d.exponent - ((k + fraction.length : Nat) : Int) := by
      rw [hk, Numeral.powerValue]
      omega
    rw [Numeral.decimal, hdigits, hexponent, value_zeros]

/-- A number that is not whole has its point so many digits before the end as the power of ten
says, with zeros in front if there are too few. -/
theorem exists_broken (hd : d.digits ≠ 0) (he : (-d.exponent).toNat ≠ 0) :
    ∃ n : Numeral, n.WellFormed ∧ (d.inFull afterWhole).toList = n.text
      ∧ n.decimal.value = d.value := by
  obtain ⟨below, hbelow⟩ : ∃ below : Nat, (-d.exponent).toNat = below := ⟨_, rfl⟩
  obtain ⟨digits, hdigits⟩ : ∃ digits, Nat.toDigits 10 d.digits = digits := ⟨_, rfl⟩
  obtain ⟨padded, hpadded⟩ : ∃ padded,
      List.replicate (below + 1 - digits.length) '0' ++ digits = padded := ⟨_, rfl⟩
  have hlength : padded.length = below + 1 - digits.length + digits.length := by
    rw [← hpadded, List.length_append, List.length_replicate]
  have hall : ∀ c ∈ padded, isDecimalDigit c = true := by
    intro c hc
    rw [← hpadded] at hc
    rcases List.mem_append.1 hc with hc | hc
    · exact mem_replicate_digit hc
    · rw [← hdigits] at hc
      exact isDecimalDigit_of_mem_toDigits hc
  -- there is a digit on either side of the point
  have hwhole : padded.take (padded.length - below) ≠ [] := by
    intro hnil
    rcases List.take_eq_nil_iff.1 hnil with hzero | hnil
    · omega
    · rw [hnil, List.length_nil] at hlength
      omega
  have hfraction : padded.drop (padded.length - below) ≠ [] := by
    intro hnil
    have := List.drop_eq_nil_iff.1 hnil
    omega
  refine ⟨⟨padded.take (padded.length - below), padded.drop (padded.length - below), none⟩,
    ⟨⟨hwhole, ?_⟩, fun hzero => ?_, nofun⟩, ?_, ?_⟩
  · rw [List.take_append_drop]
    exact hall
  · rcases Nat.eq_zero_or_pos (below + 1 - digits.length) with hnone | hsome
    · -- without zeros in front the number begins as its digits do
      rw [hnone, List.replicate_zero, List.nil_append, ← hdigits] at hpadded
      rw [List.head?_take, if_neg (by omega), ← hpadded] at hzero
      exact absurd hzero (head?_toDigits_ne hd)
    · obtain ⟨k, hk⟩ : ∃ k, below + 1 - digits.length = k + 1 :=
        ⟨_, (Nat.succ_pred_eq_of_pos hsome).symm⟩
      have hone : padded.length - below = 1 := by omega
      show padded.take (padded.length - below) = ['0']
      rw [hone, ← hpadded, hk]
      rfl
  · simp only [inFull, hbelow, hdigits, hpadded, if_neg (hbelow ▸ he)]
    rw [String.toList_append, String.toList_append, String.toList_ofList, String.toList_ofList,
      Numeral.text, literalText, if_neg (by simpa using hfraction), Numeral.powerText,
      List.append_nil, List.append_assoc, String.toList_ofList]
    rfl
  · have hvalue : decimalValue (padded.take (padded.length - below)
        ++ padded.drop (padded.length - below)) = d.digits := by
      rw [List.take_append_drop, ← hpadded, decimalValue_zeros_append, ← hdigits,
        decimalValue_toDigits]
    have hexponent : Numeral.powerValue none
        - ((padded.drop (padded.length - below)).length : Int) = d.exponent := by
      rw [List.length_drop, Numeral.powerValue]
      omega
    rw [Numeral.decimal, hvalue, hexponent]

/-- Laid out without an exponent, a decimal is a numeral that is worth it. -/
theorem exists_inFull (hd : d.digits ≠ 0) (hafter : afterWhole = "" ∨ afterWhole = ".0") :
    ∃ n : Numeral, n.WellFormed ∧ (d.inFull afterWhole).toList = n.text
      ∧ n.decimal.value = d.value := by
  by_cases he : (-d.exponent).toNat = 0
  · exact exists_whole hd hafter he
  · exact exists_broken hd he

/-- With an exponent, the point stands behind the first digit. -/
theorem exists_scientific (hd : d.digits ≠ 0) :
    ∃ n : Numeral, n.WellFormed ∧ d.scientific.toList = n.text ∧ n.decimal.value = d.value := by
  obtain ⟨digits, hdigits⟩ : ∃ digits, Nat.toDigits 10 d.digits = digits := ⟨_, rfl⟩
  obtain ⟨power, hpower⟩ : ∃ power : Int, d.exponent + (digits.length - 1 : Nat) = power := ⟨_, rfl⟩
  have hall : ∀ c ∈ digits, isDecimalDigit c = true := by
    intro c hc
    rw [← hdigits] at hc
    exact isDecimalDigit_of_mem_toDigits hc
  -- the digit before the point, and those behind it
  obtain ⟨c, cs, rfl⟩ : ∃ c cs, digits = c :: cs :=
    List.exists_cons_of_ne_nil (hdigits ▸ Nat.toDigits_ne_nil)
  refine ⟨⟨[c], cs, some (decide (power < 0), Nat.toDigits 10 power.natAbs)⟩,
    ⟨⟨List.cons_ne_nil _ _, hall⟩, fun hzero => ?_, ?_⟩, ?_, ?_⟩
  · have hhead : (Nat.toDigits 10 d.digits).head? = some '0' := by rwa [hdigits]
    exact absurd hhead (head?_toDigits_ne hd)
  · rintro _ _ ⟨⟩
    exact ⟨Nat.toDigits_ne_nil, fun _ => isDecimalDigit_of_mem_toDigits⟩
  · simp only [scientific, hdigits, hpower, Numeral.text, Numeral.powerText, literalText]
    cases cs with
    | nil => by_cases hneg : power < 0 <;> simp [hneg]
    | cons e es => by_cases hneg : power < 0 <;> simp [hneg]
  · have hvalue : decimalValue ([c] ++ cs) = d.digits := by
      show decimalValue (c :: cs) = _
      rw [← hdigits, decimalValue_toDigits]
    have hexponent : Numeral.powerValue (some (decide (power < 0), Nat.toDigits 10 power.natAbs))
        - (cs.length : Int) = d.exponent := by
      rw [Numeral.powerValue, decimalValue_toDigits, ← hpower]
      simp only [List.length_cons, Nat.add_sub_cancel, decide_eq_true_eq]
      split <;> omega
    rw [Numeral.decimal, hvalue, hexponent]

end Decimal

/-! ## Finite reals

The shortest digits of a real are near to it and to no other magnitude, so their text belongs to one
real and its sign. -/

namespace Binary64

variable {x : Binary64}

theorem quarters_eq_zero (h : x.significand = 0) : x.quarters = 0 := by
  rw [quarters_eq, h, Nat.mul_zero, Nat.zero_mul]

/-- The shortest digits are not all zeros. -/
theorem shortest_digits_ne_zero (tie : Tie) (h : x.significand ≠ 0) :
    (x.shortest tie).digits ≠ 0 := by
  intro hdigits
  have hnear := x.near_shortest tie
  rw [Decimal.value, hdigits, Nat.cast_zero, zero_mul, zero_mul] at hnear
  exact h (significand_eq_zero_of_near hnear)

end Binary64

namespace NumberFormat

variable {f : NumberFormat}

/-- Zero is a numeral, with zeros behind a point or without. -/
theorem wellFormed_zero (k : Nat) : Numeral.WellFormed ⟨['0'], List.replicate k '0', none⟩ := by
  refine ⟨⟨List.cons_ne_nil _ _, fun c hc => ?_⟩, fun _ => rfl, ?_⟩
  · rcases List.mem_cons.1 hc with rfl | hc
    · decide
    · exact mem_replicate_digit hc
  · rintro _ _ ⟨⟩

/-- A magnitude is written as a numeral that is worth a value near to it. -/
theorem exists_numeral (hafter : f.afterWhole = "" ∨ f.afterWhole = ".0") (x : Binary64) :
    ∃ n : Numeral, n.WellFormed ∧ (f.magnitude x).toList = n.text
      ∧ x.Near (n.decimal.value * Binary64.quartersPerOne) := by
  by_cases hzero : x.significand = 0
  · -- zero is a whole number, laid out as one
    have hnear (d : Decimal) (hd : d.digits = 0) :
        x.Near (d.value * Binary64.quartersPerOne) := by
      have hquarters := Binary64.near_quarters x
      rw [Binary64.quarters_eq_zero hzero, Nat.cast_zero] at hquarters
      rw [Decimal.value, hd, Nat.cast_zero, zero_mul, zero_mul]
      exact hquarters
    have hmagnitude : f.magnitude x = "0" ++ f.afterWhole := if_pos hzero
    rcases hafter with h | h
    · refine ⟨_, wellFormed_zero 0, ?_, hnear _ rfl⟩
      rw [hmagnitude, h]
      rfl
    · refine ⟨_, wellFormed_zero 1, ?_, hnear _ rfl⟩
      rw [hmagnitude, h]
      rfl
  · have hdigits := Binary64.shortest_digits_ne_zero f.tie hzero
    have hnear := x.near_shortest f.tie
    obtain ⟨n, hformed, htext, hvalue⟩ : ∃ n : Numeral, n.WellFormed
        ∧ (f.magnitude x).toList = n.text ∧ n.decimal.value = (x.shortest f.tie).value := by
      simp only [magnitude, if_neg hzero]
      split
      · exact Decimal.exists_inFull hdigits hafter
      · exact Decimal.exists_scientific hdigits
    exact ⟨n, hformed, htext, hvalue ▸ hnear⟩

/-- The sign of a real as it is written. -/
def signText (x : Binary64) : List Char :=
  if x.isNegative then ['-'] else []

/-- A finite real is written as a sign and a numeral. -/
theorem exists_write (hafter : f.afterWhole = "" ∨ f.afterWhole = ".0") {x : Binary64}
    (hx : x.isFinite = true) :
    ∃ n : Numeral, n.WellFormed ∧ (f.write x).toList = signText x ++ n.text
      ∧ x.Near (n.decimal.value * Binary64.quartersPerOne) := by
  obtain ⟨n, hformed, htext, hnear⟩ := exists_numeral hafter x
  refine ⟨n, hformed, ?_, hnear⟩
  rw [write, if_pos hx, String.toList_append, htext, signText]
  split <;> rfl

/-- A sign and what is below it are known by their text. -/
theorem signed_text_inj {x y : Binary64} {m n : Numeral} (hm : m.WellFormed) (hn : n.WellFormed)
    (h : signText x ++ m.text = signText y ++ n.text) :
    x.isNegative = y.isNegative ∧ m = n := by
  obtain ⟨c, cs, hmtext, hc⟩ := hm.exists_head
  obtain ⟨d, ds, hntext, hd⟩ := hn.exists_head
  have hapart {c : Char} (hc : isDecimalDigit c = true) : c ≠ '-' := by
    rintro rfl
    exact absurd hc (by decide)
  unfold signText at h
  split at h <;> split at h
  next hx hy => exact ⟨hx.trans hy.symm, Numeral.text_inj hm hn (List.cons.inj h).2⟩
  next =>
    rw [hntext] at h
    exact absurd (List.cons.inj h).1.symm (hapart hd)
  next =>
    rw [hmtext] at h
    exact absurd (List.cons.inj h).1 (hapart hc)
  next hx hy =>
    exact ⟨(Bool.eq_false_iff.2 hx).trans (Bool.eq_false_iff.2 hy).symm, Numeral.text_inj hm hn h⟩

/-- No two finite reals are written alike. -/
theorem write_inj (hafter : f.afterWhole = "" ∨ f.afterWhole = ".0") {x y : Binary64}
    (hx : x.isFinite = true) (hy : y.isFinite = true) (h : f.write x = f.write y) : x = y := by
  obtain ⟨m, hm, hmtext, hxnear⟩ := exists_write hafter hx
  obtain ⟨n, hn, hntext, hynear⟩ := exists_write hafter hy
  rw [h, hntext] at hmtext
  obtain ⟨hsign, rfl⟩ := signed_text_inj hn hm hmtext
  exact Binary64.eq_of_pattern_eq hsign.symm (Binary64.pattern_eq_of_near hxnear hynear)

end NumberFormat

end Packrat
