import Mathlib.Data.UInt
import Mathlib.Tactic.Common

/-!
# Texts in the order of their bytes

A file system compares names by their bytes, and texts are compared here by their characters. In
UTF-8 that comes to the same: of two characters the smaller one has the smaller code, and the codes
differ before either of them ends.

* **`Text.Ordered`** — codes of one length are ordered as the numbers that they stand for: so is the
  first byte, and so is a code with six more bits at its end (`Ordered.more`).
* **`Text.encode_lt`** — the codes of two characters are ordered as the characters, whatever
  follows.
* **`Text.bytes_lt`** — the bytes of two texts are ordered as the texts.
-/

namespace Packrat.Text

/-- The bytes of a text in UTF-8. -/
def bytes (s : String) : List UInt8 :=
  s.toList.flatMap String.utf8EncodeChar

/-! ## Codes

A code is followed from its first byte to its last. What comes first decides, so nothing that
follows the code matters. -/

/-- Bytes are ordered as the numbers that they stand for. -/
theorem ofNat_lt {m n : Nat} (h : m < n) (hn : n < 256) : UInt8.ofNat m < UInt8.ofNat n := by
  rw [UInt8.lt_iff_toNat_lt, UInt8.toNat_ofNat', UInt8.toNat_ofNat']
  omega

/-- The codes of numbers below the bound are ordered as the numbers, whatever follows. -/
def Ordered (bound : Nat) (code : Nat → List UInt8) : Prop :=
  ∀ m n, m < n → n < bound → ∀ as bs, code m ++ as < code n ++ bs

/-- A first byte has some bits of the number, behind others that say how long the code is. -/
theorem ordered_first (size mark : Nat) (h : size + mark ≤ 256) :
    Ordered size fun m => [UInt8.ofNat (m % size + mark)] := by
  intro m n hlt hn as bs
  dsimp only
  rw [Nat.mod_eq_of_lt hn, Nat.mod_eq_of_lt (hlt.trans hn)]
  exact List.cons_lt_cons_iff.2 (.inl (ofNat_lt (by omega) (by omega)))

/-- Six more bits decide only between numbers with the same bits before them. -/
theorem Ordered.more {bound : Nat} {code : Nat → List UInt8} (h : Ordered bound code) :
    Ordered (bound * 64) fun m => code (m / 64) ++ [UInt8.ofNat (m % 64 + 128)] := by
  intro m n hlt hn as bs
  rw [List.append_assoc, List.append_assoc]
  rcases Nat.lt_or_eq_of_le (Nat.div_le_div_right (c := 64) hlt.le) with hbefore | hsame
  · exact h _ _ hbefore (by omega) _ _
  · rw [hsame]
    exact List.append_left_lt
      (List.cons_lt_cons_iff.2 (.inl (ofNat_lt (by omega) (by omega))))

/-- **Codes are ordered as their characters.** A longer code has a greater first byte. -/
theorem encode_lt {c d : Char} (h : c < d) (as bs : List UInt8) :
    String.utf8EncodeChar c ++ as < String.utf8EncodeChar d ++ bs := by
  have hlt : c.val.toNat < d.val.toNat := h
  have hmax : d.val.toNat < 1114112 := by
    rcases d.valid with hd | ⟨_, hd⟩
    · exact hd.trans (by decide)
    · exact hd
  unfold String.utf8EncodeChar
  dsimp only
  generalize c.val.toNat = m at hlt
  generalize d.val.toNat = n at hlt hmax
  have hdiv (k : Nat) : k / 4096 = k / 64 / 64 ∧ k / 262144 = k / 64 / 64 / 64 := by omega
  rw [(hdiv m).1, (hdiv m).2, (hdiv n).1, (hdiv n).2]
  have hlonger {x y : Nat} {xs ys : List UInt8} (hx : x < y) (hy : y < 256) :
      UInt8.ofNat x :: xs ++ as < UInt8.ofNat y :: ys ++ bs :=
    List.cons_lt_cons_iff.2 (.inl (ofNat_lt hx hy))
  have htwo : Ordered 32 _ := ordered_first 32 192 (by decide)
  have hthree : Ordered 16 _ := ordered_first 16 224 (by decide)
  have hfour : Ordered 8 _ := ordered_first 8 240 (by decide)
  split_ifs
  -- all but the codes of one length are told apart by the first byte
  all_goals try first | exact absurd hlt (by omega) | exact hlonger (by omega) (by omega)
  · exact htwo.more m n hlt (by omega) as bs
  · exact hthree.more.more m n hlt (by omega) as bs
  · exact hfour.more.more.more m n hlt (by omega) as bs

/-! ## Texts

The first characters in which two texts differ are those whose codes differ first. -/

/-- **Texts are ordered as their bytes.** -/
theorem bytes_lt {s t : String} (h : s < t) : bytes s < bytes t := by
  have h : s.toList < t.toList := h
  unfold bytes
  generalize s.toList = cs at h
  generalize t.toList = ds at h
  induction cs generalizing ds with
  | nil =>
    cases ds with
    | nil => exact absurd h (List.not_lt_nil _)
    | cons d ds =>
      obtain ⟨b, bs, hcode⟩ := List.exists_cons_of_ne_nil (String.utf8EncodeChar_ne_nil (c := d))
      rw [List.flatMap_cons, hcode]
      exact List.nil_lt_cons _ _
  | cons c cs ih =>
    cases ds with
    | nil => exact absurd h (List.not_lt_nil _)
    | cons d ds =>
      rw [List.flatMap_cons, List.flatMap_cons]
      rcases List.cons_lt_cons_iff.1 h with hlt | ⟨rfl, hlt⟩
      · exact encode_lt hlt _ _
      · exact List.append_left_lt (ih _ hlt)

end Packrat.Text
