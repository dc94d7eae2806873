import Packrat.Proofs.Language.Outline
import Packrat.Tree.Json
import Packrat.Tree.Sexp

/-!
# Numbers beyond the largest real

A number that is too large for any finite real is not rejected: it is read as infinity, for which
neither written form has a number.

* **`Json.IsNumber`** — the numbers of JSON documents; finite reals are written as such
  (**`NumberFormat.isNumber_write`**), and no run of letters is one.
* **`Shown`** — what becomes of a number of a given value: below the limit it is a finite real and
  shown as a number in both forms, from the limit on it is shown as a word.
* **`Module.json_numbers`** — the numbers of the document of a module are its reals.
* **`readModule_reals`** — all of this, for every number of every text that is read as a module.
-/

namespace Packrat

open Packrat.Language

/-! ## Numbers of documents

A number stands in a document as a text. What is a number is said of that text, as JSON has it. -/

namespace Json

/-- The text is a number as JSON has it: a sign or none, and a numeral. -/
def IsNumber (cs : List Char) : Prop :=
  ∃ n : Numeral, n.WellFormed ∧ (cs = n.text ∨ cs = '-' :: n.text)

/-- A number begins with a sign or a digit. -/
theorem IsNumber.exists_head {cs : List Char} (h : IsNumber cs) :
    ∃ c ds, cs = c :: ds ∧ (c = '-' ∨ isDecimalDigit c = true) := by
  obtain ⟨n, hn, rfl | rfl⟩ := h
  · obtain ⟨c, ds, htext, hc⟩ := hn.exists_head
    exact ⟨c, ds, htext, .inr hc⟩
  · exact ⟨_, _, rfl, .inl rfl⟩

/-- What holds of digits, points, signs and the letter of the exponent holds of all characters of a
number. -/
theorem IsNumber.forall_mem {cs : List Char} (h : IsNumber cs) {q : Char → Bool}
    (hq : ∀ c ∈ CharClass.digits.members ++ ['.', 'e', '-', '+'], q c = true) :
    ∀ c ∈ cs, q c = true := by
  have hnumeral {n : Numeral} (hn : n.WellFormed) : ∀ c ∈ n.text, q c = true := by
    intro c hc
    rcases hn.forall_mem_text c hc with hdigit | hother
    · rw [← digits_contains] at hdigit
      exact hq c (List.mem_append_left _ (List.contains_iff_mem.1 hdigit))
    · exact hq c (List.mem_append_right _ hother)
  obtain ⟨n, hn, rfl | rfl⟩ := h
  · exact hnumeral hn
  · exact List.forall_mem_cons.2 ⟨hq '-' (by decide), hnumeral hn⟩

/-- No name is a number. -/
theorem IsNumber.not_isName {cs : List Char} (h : IsNumber cs) : ¬IsName cs := by
  rintro ⟨_, hletters⟩
  obtain ⟨c, ds, rfl, hc⟩ := h.exists_head
  have hletter := hletters c List.mem_cons_self
  rcases hc with rfl | hc
  · exact absurd hletter (by decide)
  · have hall : ∀ d ∈ CharClass.digits.members, d.isAlpha = false :=
      forall_mem_of_all (by decide)
    rw [← digits_contains] at hc
    exact absurd hletter (Bool.eq_false_iff.1 (hall c (List.contains_iff_mem.1 hc)))

mutual

/-- The numbers in a document, as they are written and in their order. -/
def numbers : Json → List String
  | .number written => [written]
  | .string _ => []
  | .array items => numbersOfItems items
  | .object fields => numbersOfFields fields

/-- The numbers in the items of an array. -/
def numbersOfItems : List Json → List String
  | [] => []
  | item :: items => item.numbers ++ numbersOfItems items

/-- The numbers in the fields of an object. -/
def numbersOfFields : List (String × Json) → List String
  | [] => []
  | (_, value) :: fields => value.numbers ++ numbersOfFields fields

end

end Json

/-- A finite real is written as a number. -/
theorem NumberFormat.isNumber_write {f : NumberFormat}
    (hafter : f.afterWhole = "" ∨ f.afterWhole = ".0") {x : Binary64} (hx : x.isFinite = true) :
    Json.IsNumber (f.write x).toList := by
  obtain ⟨n, hn, htext, _⟩ := exists_write hafter hx
  refine ⟨n, hn, ?_⟩
  rw [htext, signText]
  split
  · exact .inr rfl
  · exact .inl rfl

/-! ## Reals of documents

The document of a tree has a number for each real of it, in the order in which the reals are
written. -/

/-- The reals among some items, as they are written in a document. -/
def writtenReals (items : List Item) : List String :=
  (items.filterMap Item.real?).map Json.real.write

theorem writtenReals_append (items more : List Item) :
    writtenReals (items ++ more) = writtenReals items ++ writtenReals more := by
  rw [writtenReals, List.filterMap_append, List.map_append]
  rfl

mutual

theorem Expr.json_numbers : (e : Expr) → e.json.numbers = writtenReals e.items
  | .real x => rfl
  | .ref name => rfl
  | .call callee argument => by
    rw [Expr.items, writtenReals_append, ← callee.json_numbers, ← argument.json_numbers]
    simp only [Expr.json, Json.numbers, Json.numbersOfFields, List.append_nil]
  | .fn param bindings body => by
    have hitems : writtenReals (Expr.fn param bindings body).items
        = writtenReals (Binding.allItems bindings ++ body.items) := rfl
    rw [hitems, writtenReals_append, ← Binding.jsons_numbers bindings, ← body.json_numbers]
    simp only [Expr.json, Json.numbers, Json.numbersOfFields, List.append_nil, List.nil_append]
  | .bin op lhs rhs => by
    rw [Expr.items, writtenReals_append, ← lhs.json_numbers, ← rhs.json_numbers]
    simp only [Expr.json, Json.numbers, Json.numbersOfFields, List.append_nil, List.nil_append]

theorem Binding.json_numbers : (b : Binding) → b.json.numbers = writtenReals b.items
  | .mk name value => by
    have hitems : writtenReals (Binding.mk name value).items = writtenReals value.items := rfl
    rw [hitems, ← value.json_numbers]
    simp only [Binding.json, Json.numbers, Json.numbersOfFields, List.append_nil, List.nil_append]

theorem Binding.jsons_numbers :
    (bs : List Binding) →
      Json.numbersOfItems (Binding.jsons bs) = writtenReals (Binding.allItems bs)
  | [] => rfl
  | b :: bs => by
    rw [Binding.jsons, Json.numbersOfItems, Binding.allItems, writtenReals_append,
      b.json_numbers, Binding.jsons_numbers bs]

end

/-- The numbers of the document of a module are its reals. -/
theorem Module.json_numbers (m : Module) : m.json.numbers = m.reals.map Json.real.write := by
  show Json.numbersOfItems (Binding.jsons m.declarations) ++ [] = _
  rw [List.append_nil, Binding.jsons_numbers]
  rfl

/-! ## What is shown of a number

The limit divides the values in two. It lies half a step above the largest finite real, where the
exponent would have to grow. -/

/-- Below the limit a value is read as a finite real, and only there. -/
theorem Binary64.IsNearest.finite_iff {x : Binary64} {v : ℚ} (h : x.IsNearest v) :
    x.isFinite = true ↔ v < limit := by
  rcases h with ⟨_, ⟨hfinite, hlt, _⟩ | ⟨rfl, hle⟩⟩
  · exact iff_of_true hfinite hlt
  · exact iff_of_false (by decide) (not_lt.2 hle)

/-- From the limit on a value is read as infinity. -/
theorem Binary64.IsNearest.eq_infinity {x : Binary64} {v : ℚ} (h : x.IsNearest v)
    (hv : limit ≤ v) : x = infinity := by
  rcases h with ⟨_, ⟨_, hlt, _⟩ | ⟨hx, _⟩⟩
  · exact absurd hv (not_le.2 hlt)
  · exact hx

/-- What becomes of a number of the given value: below the limit it is a finite real, a number in a
document and no word in an S-expression; from there on it is infinity, which is not a number in a
document and a word like any name in an S-expression. -/
structure Shown (x : Binary64) (v : ℚ) : Prop where
  finite : x.isFinite = true ↔ v < Binary64.limit
  json : Json.IsNumber (Json.real.write x).toList ↔ v < Binary64.limit
  sexp : IsName (Expr.real x).sexp.toList ↔ Binary64.limit ≤ v
  beyond : Binary64.limit ≤ v →
    x = Binary64.infinity ∧ Json.real.write x = "null" ∧ (Expr.real x).sexp = (Expr.ref "inf").sexp

theorem Binary64.IsNearest.shown {x : Binary64} {v : ℚ} (h : x.IsNearest v) : Shown x v := by
  by_cases hv : v < limit
  · have hfinite := h.finite_iff.2 hv
    have hsexp : ¬IsName (Sexp.number.write x).toList :=
      (NumberFormat.isNumber_write (.inl rfl) hfinite).not_isName
    exact ⟨h.finite_iff, iff_of_true (NumberFormat.isNumber_write (.inr rfl) hfinite) hv,
      iff_of_false hsexp (not_le.2 hv), fun hle => absurd hv (not_lt.2 hle)⟩
  · have hle := not_lt.1 hv
    have hfinite := h.finite_iff
    obtain rfl := h.eq_infinity hle
    have hname : IsName "null".toList := by decide
    refine ⟨hfinite, iff_of_false (fun hnumber => hnumber.not_isName hname) hv,
      iff_of_true (by decide) hle, fun _ => ⟨rfl, rfl, rfl⟩⟩

/-- The value of a word that is a number. -/
def Lexeme.value? : Lexeme → Option ℚ
  | .word _ => none
  | .number whole fraction => some (literalValue whole fraction)

/-- The values of the numbers of a text, in their order. -/
def numberValues (cs : List Char) : List ℚ :=
  (lexemes cs).filterMap Lexeme.value?

/-- An item is shown as the value of its word asks for. -/
theorem Item.WrittenAs.shown {item : Item} {l : Lexeme} (h : item.WrittenAs l) :
    Option.Rel Shown item.real? l.value? := by
  cases item with
  | real x =>
    cases l with
    | word letters => exact h.elim
    | number whole fraction => exact .some (Binary64.IsNearest.shown h)
  | keyword =>
    cases l with
    | word letters => exact .none
    | number whole fraction => exact h.elim
  | name s =>
    cases l with
    | word letters => exact .none
    | number whole fraction => exact h.elim

namespace Workspace

/-- **What becomes of the numbers of a text.** If the text is read as a module, the reals of the
module stand for the numbers of the text one by one, and those are shown as numbers whose values
are below the limit, and no others. -/
theorem readModule_reals {w : Workspace} {name text : String} {m : Module}
    (h : (w.readModule name text).1 = .ok (.ok m)) :
    m.json.numbers = m.reals.map Json.real.write
      ∧ List.Forall₂ Shown m.reals (numberValues text.toList) := by
  refine ⟨m.json_numbers, ?_⟩
  exact List.rel_filterMap (fun _ _ hitem => Item.WrittenAs.shown hitem) (writtenAs_of_readModule h)

theorem readModule_shifted_reals :
    (empty.readModule "shifted" "let f = (x) -> let let = x*(x+2)\nlet(x)\n").1
        = .ok (.ok Module.shifted)
      ∧ Module.shifted.json.numbers = Module.shifted.reals.map Json.real.write
      ∧ List.Forall₂ Shown Module.shifted.reals
        (numberValues "let f = (x) -> let let = x*(x+2)\nlet(x)\n".toList) :=
  ⟨readModule_shifted_text, readModule_reals readModule_shifted_text⟩

end Workspace

/-! ## A number that is too large

One text is enough to see it: its only number is a power of ten above the limit. -/

/-- A one and 309 zeros. -/
def hugeDigits : List Char :=
  ['1'] ++ List.replicate 309 '0'

/-- A declaration of the number. -/
def hugeText : String :=
  String.ofList ("let ".toList ++ ("x".toList ++ (" = ".toList ++ (hugeDigits ++ ['\n']))))

/-- What is made of it. -/
def Module.huge : Module :=
  ⟨[.mk "x" (.real Binary64.infinity)]⟩

/-- A one and zeros behind it are worth a power of ten. -/
theorem literalValue_zeros (n : Nat) :
    literalValue (['1'] ++ List.replicate n '0') [] = (10 ^ n : Nat) := by
  have hone : decimalValue ['1'] = 1 := by decide
  rw [literalValue, List.append_nil, decimalValue_append_zeros, hone, Nat.mul_one,
    List.length_nil, Nat.pow_zero, Nat.cast_one, div_one]

theorem ofLiteral_hugeDigits :
    Binary64.ofLiteral? hugeDigits [] = some Binary64.infinity := by
  have hdigits : ∀ c ∈ hugeDigits, isDecimalDigit c = true := by
    intro c hc
    rcases List.mem_append.1 hc with hc | hc
    · rw [List.mem_singleton.1 hc]
      decide
    · exact mem_replicate_digit hc
  obtain ⟨x, hx⟩ := @IsLiteral.exists_value hugeDigits []
    ⟨List.cons_ne_nil _ _, by rwa [List.append_nil]⟩
  have hvalue : literalValue hugeDigits [] = (10 ^ 309 : Nat) := literalValue_zeros 309
  have hlimit : Binary64.limit ≤ 10 ^ 309 := by decide +kernel
  have hle : (Binary64.limit : ℚ) ≤ literalValue hugeDigits [] := by
    rw [hvalue]
    exact_mod_cast hlimit
  exact hx.trans (congrArg some ((isNearest_ofLiteral hx).eq_infinity hle))

/-- The module that is made of the text is a legible one. -/
theorem Module.huge_legible : Module.huge.Legible :=
  ⟨by decide, ⟨_, _, ofLiteral_hugeDigits⟩, trivial⟩

theorem Module.huge_written : Module.huge.Written hugeText.toList := by
  show Module.huge.Written (String.ofList _).toList
  rw [String.toList_ofList]
  exact .cons "x" (.real ofLiteral_hugeDigits) .nil

namespace Workspace

/-- The number is accepted, and shown as `null` in the one form and as a reference to `inf` in the
other. -/
theorem readModule_huge :
    (empty.readModule "test.thunk" hugeText).1 = .ok (.ok Module.huge)
      ∧ (∃ x ∈ Module.huge.reals, x.isFinite = false)
      ∧ (∃ written ∈ Module.huge.json.numbers, ¬Json.IsNumber written.toList)
      ∧ Module.huge.sexp = Module.sexp ⟨[.mk "x" (.ref "inf")]⟩ := by
  have htakes := Module.huge_written.takes_program Module.huge_legible (by decide)
  obtain ⟨w', hread, _⟩ := empty.readModule_of_takes htakes "test.thunk"
  have hnull : ¬Json.IsNumber "null".toList := fun h => h.not_isName (by decide)
  refine ⟨congrArg Prod.fst hread, ⟨Binary64.infinity, ?_, by decide⟩, ⟨"null", ?_, hnull⟩, rfl⟩
  · exact List.mem_singleton.2 rfl
  · exact List.mem_singleton.2 rfl

end Workspace

end Packrat
