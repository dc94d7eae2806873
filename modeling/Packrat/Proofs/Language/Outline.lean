import Packrat.Proofs.Number.Numerals
import Packrat.Proofs.Language.Soundness

/-!
# Modules and the words of their texts

What a module is made of, item by item, is what its text is made of, word by word.

* **`Module.items`** — the names and the reals of a module in the order of the text, with a keyword
  before each binding.
* **`lexemes`** — the runs of letters and the numbers of any text. Nothing is known to it of the
  grammar.
* **`Item.WrittenAs`** — which word an item is written with; a real is the nearest one to the value
  of its number.
* **`Consumes.lexemes_eq`**, **`Phrase.writtenAs`** — the tokens of a text are its words, and the
  items of a tree go with the tokens of its phrase. Both are inductions, on the tokens and on the
  phrase.
* **`readModule_items`** — so the items of a module that has been read are the words of the text.
-/

namespace Packrat

open Packrat.Language

/-! ## The items of a tree

Items are listed in the order in which they are written, which is the order of the parts of a tree.
-/

/-- What there is to be found in a tree. -/
inductive Item where
  /-- The word before a binding. -/
  | keyword
  /-- A name: of a binding, of a parameter, or one that refers to them. -/
  | name (letters : String)
  /-- A real. -/
  | real (value : Binary64)

/-- The name, if the item is one. -/
def Item.name? : Item → Option String
  | .name letters => some letters
  | _ => none

/-- The real, if the item is one. -/
def Item.real? : Item → Option Binary64
  | .real value => some value
  | _ => none

mutual

/-- The items of an expression in the order in which they are written. -/
def Expr.items : Expr → List Item
  | .real x => [.real x]
  | .ref name => [.name name]
  | .call callee argument => callee.items ++ argument.items
  | .fn param bindings body => .name param :: (Binding.allItems bindings ++ body.items)
  | .bin _ lhs rhs => lhs.items ++ rhs.items

/-- The items of a binding. -/
def Binding.items : Binding → List Item
  | .mk name value => .keyword :: .name name :: value.items

/-- The items of some bindings. -/
def Binding.allItems : List Binding → List Item
  | [] => []
  | b :: bs => b.items ++ Binding.allItems bs

end

/-- The items of a module. -/
def Module.items (m : Module) : List Item :=
  Binding.allItems m.declarations

/-- The names in a module: of declarations, bindings and parameters, and all references. -/
def Module.names (m : Module) : List String :=
  m.items.filterMap Item.name?

/-- The reals in a module. -/
def Module.reals (m : Module) : List Binary64 :=
  m.items.filterMap Item.real?

theorem Binding.allItems_append (bs cs : List Binding) :
    Binding.allItems (bs ++ cs) = Binding.allItems bs ++ Binding.allItems cs := by
  induction bs with
  | nil => rfl
  | cons b bs ih => rw [List.cons_append, Binding.allItems, Binding.allItems, ih, List.append_assoc]

theorem Module.mem_names {m : Module} {s : String} : s ∈ m.names ↔ .name s ∈ m.items := by
  rw [names, List.mem_filterMap]
  constructor
  · rintro ⟨item, hitem, hname⟩
    cases item with
    | name letters =>
      cases hname
      exact hitem
    | _ => cases hname
  · exact fun hitem => ⟨_, hitem, rfl⟩

theorem Module.mem_reals {m : Module} {x : Binary64} : x ∈ m.reals ↔ .real x ∈ m.items := by
  rw [reals, List.mem_filterMap]
  constructor
  · rintro ⟨item, hitem, hreal⟩
    cases item with
    | real value =>
      cases hreal
      exact hitem
    | _ => cases hreal
  · exact fun hitem => ⟨_, hitem, rfl⟩

/-! ## The words of a text

A text is cut into words from its beginning, without regard to what they mean. Words are as long as
they can be, as the tokens of a phrase are. -/

/-- A word of a text: letters, or a number. -/
inductive Lexeme where
  | word (letters : List Char)
  | number (whole fraction : List Char)
deriving DecidableEq

namespace Lexeme

/-- How a word is written. -/
def text : Lexeme → List Char
  | .word letters => letters
  | .number whole fraction => literalText whole fraction

/-- Words are made of the characters that they should be. -/
def WellFormed : Lexeme → Prop
  | .word letters => IsName letters
  | .number whole fraction => IsLiteral whole fraction

end Lexeme

/-- A fraction at the beginning of a text, and what follows it; a point without digits behind it is
none. -/
def takeFraction : List Char → List Char × List Char
  | '.' :: cs =>
    if CharClass.digits.leadingRun cs = [] then ([], '.' :: cs)
    else (CharClass.digits.leadingRun cs, CharClass.digits.afterRun cs)
  | cs => ([], cs)

theorem takeFraction_append (cs : List Char) :
    fractionText (takeFraction cs).1 ++ (takeFraction cs).2 = cs := by
  unfold takeFraction
  split
  next cs =>
    split
    next => rfl
    next hne =>
      rw [fractionText, if_neg (by simpa using hne), List.cons_append,
        CharClass.leadingRun_append_afterRun]
  next => rfl

theorem digits_of_mem_takeFraction {cs : List Char} {d : Char} (h : d ∈ (takeFraction cs).1) :
    CharClass.digits.contains d = true := by
  unfold takeFraction at h
  split at h
  next cs =>
    split at h
    next => cases h
    next => exact CharClass.contains_of_mem_leadingRun h
  next => cases h

theorem takeFraction_length_le (cs : List Char) : (takeFraction cs).2.length ≤ cs.length := by
  have hlength := congrArg List.length (takeFraction_append cs)
  rw [List.length_append] at hlength
  omega

theorem afterRun_length_lt {cls : CharClass} {c : Char} (hc : cls.contains c = true)
    (cs : List Char) : (cls.afterRun (c :: cs)).length < (c :: cs).length := by
  rw [CharClass.afterRun, List.dropWhile_cons_of_pos hc, List.length_cons]
  exact Nat.lt_succ_of_le (List.dropWhile_suffix _).length_le

/-- The words of a text in their order, each as long as it can be. What is neither a letter nor part
of a number stands between words. -/
def lexemes : List Char → List Lexeme
  | [] => []
  | c :: cs =>
    if CharClass.letters.contains c = true then
      .word (CharClass.letters.leadingRun (c :: cs))
        :: lexemes (CharClass.letters.afterRun (c :: cs))
    else if CharClass.digits.contains c = true then
      .number (CharClass.digits.leadingRun (c :: cs))
          (takeFraction (CharClass.digits.afterRun (c :: cs))).1
        :: lexemes (takeFraction (CharClass.digits.afterRun (c :: cs))).2
    else lexemes cs
termination_by cs => cs.length
decreasing_by
  · exact afterRun_length_lt ‹_› cs
  · exact Nat.lt_of_le_of_lt (takeFraction_length_le _) (afterRun_length_lt ‹_› cs)
  · exact Nat.lt_succ_self _

/-- The character is not part of any word. -/
def IsOutside (c : Char) : Prop :=
  CharClass.letters.contains c = false ∧ CharClass.digits.contains c = false

instance (c : Char) : Decidable (IsOutside c) :=
  inferInstanceAs (Decidable (_ ∧ _))

theorem isOutside_of_isBlank {c : Char} (h : IsBlank c) : IsOutside c := by
  have hall : ∀ d ∈ [' ', '\n', '\r', '\t'], IsOutside d := forall_mem_of_all (by decide)
  exact hall c h

theorem lexemes_outside {run : List Char} (hrun : ∀ c ∈ run, IsOutside c) (rest : List Char) :
    lexemes (run ++ rest) = lexemes rest := by
  induction run with
  | nil => rfl
  | cons d run ih =>
    obtain ⟨hletter, hdigit⟩ := hrun d List.mem_cons_self
    rw [List.cons_append, lexemes, if_neg (Bool.eq_false_iff.1 hletter),
      if_neg (Bool.eq_false_iff.1 hdigit)]
    exact ih fun c hc => hrun c (List.mem_cons_of_mem d hc)

theorem lexemes_word {run rest : List Char} (hrun : IsName run)
    (hrest : Halts CharClass.letters.contains rest) :
    lexemes (run ++ rest) = .word run :: lexemes rest := by
  obtain ⟨hleading, hafter⟩ := CharClass.leadingRun_append hrun.letters hrest
  obtain ⟨c, cs, rfl⟩ := List.exists_cons_of_ne_nil hrun.1
  rw [List.cons_append] at hleading hafter ⊢
  rw [lexemes, if_pos (hrun.letters c List.mem_cons_self), hleading, hafter]

/-- A point after a fraction, or none, begins no other. -/
theorem takeFraction_eq {fraction rest : List Char}
    (hfraction : ∀ c ∈ fraction, CharClass.digits.contains c = true)
    (hrest : Halts CharClass.digits.contains rest) (hpoint : rest.head? ≠ some '.') :
    takeFraction (fractionText fraction ++ rest) = (fraction, rest) := by
  unfold fractionText
  split
  next hnil =>
    rw [List.isEmpty_iff.1 hnil, List.nil_append]
    unfold takeFraction
    split
    next => exact absurd rfl hpoint
    next => rfl
  next hne =>
    obtain ⟨hleading, hafter⟩ := CharClass.leadingRun_append hfraction hrest
    rw [List.cons_append, takeFraction, hleading, hafter, if_neg (by simpa using hne)]

theorem lexemes_number {whole fraction rest : List Char} (h : IsLiteral whole fraction)
    (hrest : Halts CharClass.digits.contains rest) (hpoint : rest.head? ≠ some '.') :
    lexemes (literalText whole fraction ++ rest) = .number whole fraction :: lexemes rest := by
  obtain ⟨hne, hdigits⟩ := h
  have hwhole : ∀ c ∈ whole, CharClass.digits.contains c = true :=
    fun c hc => (digits_contains c).trans (hdigits c (List.mem_append_left _ hc))
  have hfraction : ∀ c ∈ fraction, CharClass.digits.contains c = true :=
    fun c hc => (digits_contains c).trans (hdigits c (List.mem_append_right _ hc))
  -- the digits before the point end there, or where the number does
  have htail : Halts CharClass.digits.contains (fractionText fraction ++ rest) := by
    unfold fractionText
    split
    · exact hrest
    · exact halts_cons (by decide) _
  obtain ⟨hleading, hafter⟩ := CharClass.leadingRun_append hwhole htail
  have htake := takeFraction_eq hfraction hrest hpoint
  rw [literalText_eq, List.append_assoc]
  obtain ⟨c, cs, rfl⟩ := List.exists_cons_of_ne_nil hne
  -- a word begins with a letter, and a digit is none
  have hletter : CharClass.letters.contains c = false := by
    have hall : ∀ d ∈ CharClass.digits.members, CharClass.letters.contains d = false :=
      forall_mem_of_all (by decide)
    exact hall c (List.contains_iff_mem.1 (hwhole c List.mem_cons_self))
  rw [List.cons_append] at hleading hafter ⊢
  rw [lexemes, if_neg (Bool.eq_false_iff.1 hletter), if_pos (hwhole c List.mem_cons_self), hleading,
    hafter, htake]

/-- Every word of a text is well-formed and occurs in it. -/
theorem mem_lexemes {l : Lexeme} {cs : List Char} (h : l ∈ lexemes cs) :
    l.WellFormed ∧ l.text <:+: cs := by
  fun_induction lexemes cs with
  | case1 => cases h
  | case2 c cs hc ih =>
    have hsplit := CharClass.letters.leadingRun_append_afterRun (c :: cs)
    rcases List.mem_cons.1 h with rfl | h
    · have hne : CharClass.letters.leadingRun (c :: cs) ≠ [] := by
        rw [CharClass.leadingRun, List.takeWhile_cons_of_pos hc]
        exact List.cons_ne_nil _ _
      refine ⟨⟨hne, fun d hd => ?_⟩, ⟨[], _, hsplit⟩⟩
      exact letters_contains d ▸ CharClass.contains_of_mem_leadingRun hd
    · obtain ⟨hformed, hinfix⟩ := ih h
      exact ⟨hformed, hinfix.trans (List.IsSuffix.isInfix ⟨_, hsplit⟩)⟩
  | case3 c cs _ hc ih =>
    have hcut : literalText (CharClass.digits.leadingRun (c :: cs))
        (takeFraction (CharClass.digits.afterRun (c :: cs))).1
        ++ (takeFraction (CharClass.digits.afterRun (c :: cs))).2 = c :: cs := by
      rw [literalText_eq, List.append_assoc, takeFraction_append,
        CharClass.leadingRun_append_afterRun]
    rcases List.mem_cons.1 h with rfl | h
    · have hne : CharClass.digits.leadingRun (c :: cs) ≠ [] := by
        rw [CharClass.leadingRun, List.takeWhile_cons_of_pos hc]
        exact List.cons_ne_nil _ _
      refine ⟨⟨hne, fun d hd => digits_contains d ▸ ?_⟩, ⟨[], _, hcut⟩⟩
      rcases List.mem_append.1 hd with hd | hd
      · exact CharClass.contains_of_mem_leadingRun hd
      · exact digits_of_mem_takeFraction hd
    · obtain ⟨hformed, hinfix⟩ := ih h
      exact ⟨hformed, hinfix.trans (List.IsSuffix.isInfix ⟨_, hcut⟩)⟩
  | case4 c cs _ _ ih =>
    obtain ⟨hformed, hinfix⟩ := ih h
    exact ⟨hformed, hinfix.trans (List.suffix_cons c cs).isInfix⟩

-- a second point begins no fraction of the same number
example : lexemes "let x = 1.5.2".toList
    = [.word "let".toList, .word "x".toList, .number ['1'] ['5'], .number ['2'] []] := by
  decide +kernel

/-! ## Tokens and words

A token is one word, or none if it is a symbol. Blanks and symbols stand between words, so the words
of a stretch of text are those of its tokens. -/

namespace Language

/-- The word that a token is written with, if it is one. -/
def Token.lexeme? : Token → Option Lexeme
  | .keyword => some (.word "let".toList)
  | .name letters => some (.word letters.toList)
  | .number whole fraction => some (.number whole fraction)
  | _ => none

/-- No token begins with a point. -/
theorem Token.WellFormed.head_ne_point {t : Token} (h : t.WellFormed) :
    t.text.head? ≠ some '.' := by
  cases t with
  | name letters =>
    intro hhead
    exact absurd (h.2 '.' (List.mem_of_mem_head? hhead)) (by decide)
  | number whole fraction =>
    obtain ⟨c, cs, htext, hc⟩ := h.exists_head
    intro hhead
    rw [Token.text, htext] at hhead
    cases hhead
    exact absurd hc (by decide)
  | sign op => cases op <;> decide
  | _ => decide

theorem Consumes.head_ne_point {ts : List Token} {cs : List Char} (h : Consumes ts cs []) :
    cs.head? ≠ some '.' := by
  have hblank {blank rest : List Char} (h : ∀ c ∈ blank, IsBlank c)
      (hrest : rest.head? ≠ some '.') : (blank ++ rest).head? ≠ some '.' := by
    cases blank with
    | nil => exact hrest
    | cons c blank =>
      rintro ⟨⟩
      exact absurd (h '.' List.mem_cons_self) (by decide)
  cases h with
  | nil h => exact hblank h nofun
  | cons h ht _ _ =>
    refine hblank h ?_
    rw [List.head?_append_of_ne_nil _ ht.text_ne_nil]
    exact ht.head_ne_point

/-- The words of a text are those of its tokens. -/
theorem Consumes.lexemes_eq {ts : List Token} {cs : List Char} (h : Consumes ts cs []) :
    lexemes cs = ts.filterMap Token.lexeme? := by
  generalize hds : [] = ds at h
  induction h with
  | nil hblank =>
    rw [lexemes_outside fun c hc => isOutside_of_isBlank (hblank c hc), ← hds, lexemes]
    rfl
  | @cons blank t ts cs ds hblank ht hends h ih =>
    subst hds
    rw [lexemes_outside fun c hc => isOutside_of_isBlank (hblank c hc)]
    have hrest := ih rfl
    cases t with
    | keyword =>
      -- the space of the keyword is a blank
      have hkeyword : lexemes ("let".toList ++ (' ' :: cs)) = .word "let".toList :: lexemes cs := by
        have hspace : lexemes ([' '] ++ cs) = lexemes cs :=
          lexemes_outside (forall_mem_of_all (by decide)) cs
        rw [lexemes_word (by decide) (halts_cons (by decide) cs)]
        exact congrArg _ hspace
      refine hkeyword.trans ?_
      rw [hrest]
      rfl
    | name letters =>
      show lexemes (letters.toList ++ cs) = _
      rw [lexemes_word ht hends, hrest]
      rfl
    | number whole fraction =>
      show lexemes (literalText whole fraction ++ cs) = _
      rw [lexemes_number ht hends h.head_ne_point, hrest]
      rfl
    | sign op =>
      rw [lexemes_outside (by cases op <;> exact forall_mem_of_all (by decide)), hrest]
      rfl
    | _ =>
      rw [lexemes_outside (forall_mem_of_all (by decide)), hrest]
      rfl

end Language

/-! ## Items and words

Each rule of the language puts trees together in the order of their phrases, and adds one word at
most. -/

/-- What a number is worth, exactly. -/
def literalValue (whole fraction : List Char) : ℚ :=
  (decimalValue (whole ++ fraction) : ℚ) / (10 ^ fraction.length : Nat)

theorem isNearest_ofLiteral {whole fraction : List Char} {x : Binary64}
    (h : Binary64.ofLiteral? whole fraction = some x) :
    x.IsNearest (literalValue whole fraction) := by
  unfold Binary64.ofLiteral? at h
  split at h
  next => cases h
  next =>
    rw [← Option.some.inj h]
    exact Binary64.isNearest_ofRatio _ (Nat.pow_pos (by decide))

/-- Which word an item is written with. -/
def Item.WrittenAs : Item → Lexeme → Prop
  | .keyword, .word letters => letters = "let".toList
  | .name s, .word letters => letters = s.toList
  | .real x, .number whole fraction => x.IsNearest (literalValue whole fraction)
  | _, _ => False

namespace Language

/-- The items of the tree of a phrase. -/
def Category.items : (k : Category) → k.Tree → List Item
  | .module, m => m.items
  | .bindings, bs => Binding.allItems bs
  | .binding, b => b.items
  | .expression, e => e.items
  | .product, e => e.items
  | .call, e => e.items
  | .atom, e => e.items

/-- Parentheses are no words. -/
theorem filterMap_parenthesised (ts : List Token) :
    ([Token.opening] ++ ts ++ [Token.closing]).filterMap Token.lexeme?
      = ts.filterMap Token.lexeme? := by
  rw [List.filterMap_append, List.filterMap_append]
  exact List.append_nil _

/-- The items of a tree are written as the words of its phrase, one by one. Induction on the phrase:
where trees are put together, so are their words. -/
theorem Phrase.writtenAs {k : Category} {ts : List Token} {t : k.Tree} (h : Phrase k ts t) :
    List.Forall₂ Item.WrittenAs (k.items t) (ts.filterMap Token.lexeme?) := by
  induction h with
  | number hx => exact .cons (isNearest_ofLiteral hx) .nil
  | function _ _ ihbs ihbody =>
    rw [List.filterMap_append, List.filterMap_append]
    exact .cons rfl (List.rel_append ihbs ihbody)
  | group _ ih =>
    rw [filterMap_parenthesised]
    exact ih
  | reference name => exact .cons rfl .nil
  | call _ _ ihcallee ihargument =>
    rw [List.filterMap_append, filterMap_parenthesised]
    exact List.rel_append ihcallee ihargument
  | product _ _ _ ihlhs ihrhs =>
    rw [List.filterMap_append]
    exact List.rel_append ihlhs ihrhs
  | sum _ _ _ ihlhs ihrhs =>
    rw [List.filterMap_append]
    exact List.rel_append ihlhs ihrhs
  | binding _ ih => exact .cons rfl (.cons rfl ih)
  | none => exact .nil
  | @more ts us bs b _ _ ihbs ihb =>
    have hb : Binding.allItems [b] = b.items := List.append_nil _
    show List.Forall₂ _ (Binding.allItems (bs ++ [b])) _
    rw [List.filterMap_append, Binding.allItems_append, hb]
    exact List.rel_append ihbs ihb
  -- what is only given another name is made of the same
  | atom _ ih => exact ih
  | factor _ ih => exact ih
  | term _ ih => exact ih
  | module _ _ ih => exact ih

theorem Phrase.declarations_ne_nil {ts : List Token} {m : Module} (h : Phrase .module ts m) :
    m.declarations ≠ [] := by
  cases h with
  | module _ hne => exact hne

end Language

/-! ## Modules that have been read

The text of a module that has been read is spelled by the tokens of a phrase; the two
correspondences are put together over it. -/

theorem exists_mem_of_forall₂ {α β : Type} {R : α → β → Prop} {as : List α} {bs : List β} {a : α}
    (h : List.Forall₂ R as bs) (ha : a ∈ as) : ∃ b ∈ bs, R a b := by
  induction h with
  | nil => cases ha
  | @cons a' b as bs hab _ ih =>
    rcases List.mem_cons.1 ha with rfl | ha
    · exact ⟨b, List.mem_cons_self, hab⟩
    · obtain ⟨c, hc, hac⟩ := ih ha
      exact ⟨c, List.mem_cons_of_mem _ hc, hac⟩

/-- A name is written as itself. -/
theorem isName_of_writtenAs {s : String} {l : Lexeme} (h : (Item.name s).WrittenAs l)
    (hl : l.WellFormed) : IsName s.toList ∧ l.text = s.toList := by
  cases l with
  | word letters =>
    cases h
    exact ⟨hl, rfl⟩
  | number whole fraction => exact h.elim

theorem isNearest_of_writtenAs {x : Binary64} {l : Lexeme} (h : (Item.real x).WrittenAs l) :
    ∃ v, x.IsNearest v := by
  cases l with
  | word letters => exact h.elim
  | number whole fraction => exact ⟨_, h⟩

namespace Workspace

variable {w : Workspace} {name text : String} {m : Module}

/-- A binding that is named like the keyword is read as any other. -/
theorem readModule_shifted_text :
    (empty.readModule "shifted" "let f = (x) -> let let = x*(x+2)\nlet(x)\n").1
      = .ok (.ok Module.shifted) := by
  have htakes := Module.shifted_written.takes_program Module.shifted_legible (by decide)
  obtain ⟨w', hread, _⟩ := empty.readModule_of_takes htakes "shifted"
  exact congrArg Prod.fst hread

theorem writtenAs_of_readModule (h : (w.readModule name text).1 = .ok (.ok m)) :
    List.Forall₂ Item.WrittenAs m.items (lexemes text.toList) := by
  obtain ⟨ts, hts, hphrase⟩ := exists_tokens_of_readModule h
  rw [hts.lexemes_eq]
  exact hphrase.writtenAs

/-- **The shape of every module that is read.** It declares something; every name in it is a run of
letters that the text contains; every real is a number without a sign; and its names and reals, in
their order and with a keyword before each binding, are the words of the text: nothing is left out,
doubled or exchanged, and each real is the nearest one to the value of its number. -/
theorem readModule_items (h : (w.readModule name text).1 = .ok (.ok m)) :
    m.declarations ≠ []
      ∧ (∀ s ∈ m.names, IsName s.toList ∧ s.toList <:+: text.toList)
      ∧ (∀ x ∈ m.reals, x.isNaN = false ∧ x.isNegative = false)
      ∧ List.Forall₂ Item.WrittenAs m.items (lexemes text.toList) := by
  have hwritten := writtenAs_of_readModule h
  obtain ⟨ts, _, hphrase⟩ := exists_tokens_of_readModule h
  refine ⟨hphrase.declarations_ne_nil, fun s hs => ?_, fun x hx => ?_, hwritten⟩
  · obtain ⟨l, hl, hsl⟩ := exists_mem_of_forall₂ hwritten (Module.mem_names.1 hs)
    obtain ⟨hformed, hinfix⟩ := mem_lexemes hl
    obtain ⟨hname, htext⟩ := isName_of_writtenAs hsl hformed
    exact ⟨hname, htext ▸ hinfix⟩
  · obtain ⟨l, _, hxl⟩ := exists_mem_of_forall₂ hwritten (Module.mem_reals.1 hx)
    obtain ⟨v, hv⟩ := isNearest_of_writtenAs hxl
    exact ⟨hv.isNaN, hv.1⟩

theorem readModule_shifted_items :
    (empty.readModule "shifted" "let f = (x) -> let let = x*(x+2)\nlet(x)\n").1
        = .ok (.ok Module.shifted)
      ∧ Module.shifted.names = ["f", "x", "let", "x", "x", "let", "x"]
      ∧ (∀ s ∈ Module.shifted.names, IsName s.toList
        ∧ s.toList <:+: "let f = (x) -> let let = x*(x+2)\nlet(x)\n".toList)
      ∧ List.Forall₂ Item.WrittenAs Module.shifted.items
        (lexemes "let f = (x) -> let let = x*(x+2)\nlet(x)\n".toList) := by
  obtain ⟨_, hnames, _, hwritten⟩ := readModule_items readModule_shifted_text
  exact ⟨readModule_shifted_text, rfl, hnames, hwritten⟩

end Workspace

end Packrat
