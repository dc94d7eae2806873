import Packrat.Proofs.Language.Phrase
import Packrat.Proofs.Engine.Verdicts

/-!
# How trees are written

The text of a tree, one declaration a line, with no more parentheses than the grammar needs.

* **`Expr.rank`** — how loosely an expression holds together. An operand stands in parentheses if it
  is looser than its place allows (**`Expr.enclosed`**).
* **`Expr.Written`**, **`Binding.AllWritten`**, **`Module.Written`** — a text of a tree. There is
  one for every choice of literals for the reals in it.
* **`Expr.Legible`**, **`Binding.AllLegible`** — a tree that has a text, and that can be told from
  it: the value of the last binding of a function does not run on into the body.
* **`reach`** — which chains go on with the text that follows an expression.
* **`Expr.Written.opens`** — how the text of an expression begins, which is what parsers go by.
-/

namespace Packrat

open Packrat.Language

/-! ## Ranks

Ranks order the expressions by how loosely they hold together: atoms, calls, products, sums and,
loosest of all, functions. -/

/-- How loosely the operation of an operator holds together. -/
def BinOp.rank (op : BinOp) : Nat :=
  if op.isAdditive then 3 else 2

/-- How loosely an expression holds together. -/
def Expr.rank : Expr → Nat
  | .real _ => 0
  | .ref _ => 0
  | .call _ _ => 1
  | .bin op _ _ => op.rank
  -- a function goes on for as long as its body can
  | .fn _ _ _ => 4

theorem BinOp.rank_cases (op : BinOp) : op.rank = 2 ∨ op.rank = 3 := by
  cases op <;> decide

theorem Expr.rank_le (e : Expr) : e.rank ≤ 4 := by
  cases e with
  | bin op lhs rhs =>
    have hcases : (Expr.bin op lhs rhs).rank = 2 ∨ (Expr.bin op lhs rhs).rank = 3 := op.rank_cases
    omega
  | _ => simp [Expr.rank]

/-- The text of an expression where nothing looser than the bound may stand. -/
def Expr.enclosed (e : Expr) (bound : Nat) (text : List Char) : List Char :=
  if e.rank ≤ bound then text else '(' :: (text ++ [')'])

/-! ## Texts

A tree has one text for every choice of literals for its reals. All else is determined, parentheses
included. -/

mutual

/-- The text is one of the expression. -/
inductive Expr.Written : Expr → List Char → Prop where
  | real {x : Binary64} {whole fraction : List Char}
      (hx : Binary64.ofLiteral? whole fraction = some x) :
      Expr.Written (.real x) (literalText whole fraction)
  | ref (name : String) : Expr.Written (.ref name) name.toList
  | call {callee argument : Expr} {t u : List Char} (hcallee : callee.Written t)
      (hargument : argument.Written u) :
      Expr.Written (.call callee argument) (callee.enclosed 1 t ++ '(' :: (u ++ [')']))
  | bin (op : BinOp) {lhs rhs : Expr} {t u : List Char} (hlhs : lhs.Written t)
      (hrhs : rhs.Written u) :
      Expr.Written (.bin op lhs rhs)
        (lhs.enclosed op.rank t ++ (op.symbol.toList ++ rhs.enclosed (op.rank - 1) u))
  | fn (param : String) {bindings : List Binding} {body : Expr} {t u : List Char}
      (hbindings : Binding.AllWritten bindings t) (hbody : body.Written u) :
      Expr.Written (.fn param bindings body)
        ('(' :: (param.toList ++ (") -> ".toList ++ (t ++ u))))

/-- The text is one of the bindings, each on a line of its own. -/
inductive Binding.AllWritten : List Binding → List Char → Prop where
  | nil : Binding.AllWritten [] []
  | cons (name : String) {value : Expr} {bindings : List Binding} {t u : List Char}
      (hvalue : value.Written t) (hbindings : Binding.AllWritten bindings u) :
      Binding.AllWritten (.mk name value :: bindings)
        ("let ".toList ++ (name.toList ++ (" = ".toList ++ (t ++ '\n' :: u))))

end

/-- The text is one of the module. -/
def Module.Written (m : Module) (text : List Char) : Prop :=
  Binding.AllWritten m.declarations text

/-! ## Legible trees

Trees are not all alike readable: some have no text, and of some the text would be read as another
tree. -/

mutual

/-- All names are names, all reals can be written, and the body of a function that has bindings does
not begin with a parenthesis: it would be read as an argument of the last value. -/
def Expr.Legible : Expr → Prop
  | .real x => ∃ whole fraction, Binary64.ofLiteral? whole fraction = some x
  | .ref name => IsName name.toList
  | .call callee argument => callee.Legible ∧ argument.Legible
  | .bin _ lhs rhs => lhs.Legible ∧ rhs.Legible
  | .fn param bindings body =>
    IsName param.toList ∧ Binding.AllLegible bindings ∧ body.Legible
      ∧ (bindings ≠ [] → ∀ text, body.Written text → text.head? ≠ some '(')

/-- The bindings bind names to legible expressions. -/
def Binding.AllLegible : List Binding → Prop
  | [] => True
  | .mk name value :: bindings => IsName name.toList ∧ value.Legible ∧ Binding.AllLegible bindings

end

/-- All declarations of the module are legible. -/
def Module.Legible (m : Module) : Prop :=
  Binding.AllLegible m.declarations

mutual

/-- Whatever is legible can be written. -/
theorem Expr.Legible.exists_written : {e : Expr} → e.Legible → ∃ text, e.Written text
  | .real _, ⟨_, _, hx⟩ => ⟨_, .real hx⟩
  | .ref name, _ => ⟨_, .ref name⟩
  | .call _ _, ⟨hcallee, hargument⟩ =>
    have ⟨_, ht⟩ := hcallee.exists_written
    have ⟨_, hu⟩ := hargument.exists_written
    ⟨_, .call ht hu⟩
  | .bin op _ _, ⟨hlhs, hrhs⟩ =>
    have ⟨_, ht⟩ := hlhs.exists_written
    have ⟨_, hu⟩ := hrhs.exists_written
    ⟨_, .bin op ht hu⟩
  | .fn param _ _, ⟨_, hbindings, hbody, _⟩ =>
    have ⟨_, ht⟩ := hbindings.exists_written
    have ⟨_, hu⟩ := hbody.exists_written
    ⟨_, .fn param ht hu⟩

theorem Binding.AllLegible.exists_written :
    {bs : List Binding} → Binding.AllLegible bs → ∃ text, Binding.AllWritten bs text
  | [], _ => ⟨_, .nil⟩
  | .mk name _ :: _, ⟨_, hvalue, hbindings⟩ =>
    have ⟨_, ht⟩ := hvalue.exists_written
    have ⟨_, hu⟩ := hbindings.exists_written
    ⟨_, .cons name ht hu⟩

end

/-! ## What follows an expression

Only the first character after the blanks decides whether an expression goes on, and with what. -/

/-- The rank of the chain that goes on with the character: one of arguments, of factors or of terms.
No chain goes on with any other character. -/
def pull (c : Char) : Nat :=
  if c = '(' then 1
  else if c ∈ ['*', '/'] then 2
  else if c ∈ ['+', '-'] then 3
  else 4

/-- The rank of the chain that goes on with the text. -/
def reach : List Char → Nat
  | [] => 4
  | c :: _ => pull c

/-- The text begins, if at all, with a character that may follow a name or a number. -/
def Delimits (cs : List Char) : Prop :=
  ∀ c, cs.head? = some c → c ∈ ['\n', '(', ')', '*', '/', '+', '-']

section

variable {c : Char} {cs ds name rest : List Char} {op : BinOp}

theorem pull_eq_four (h : c ∉ ['(', '*', '/', '+', '-']) : pull c = 4 := by
  simp only [List.mem_cons, List.not_mem_nil, not_or, or_false] at h
  simp [pull, h]

theorem mem_of_pull_lt (h : pull c < 4) : c ∈ ['(', '*', '/', '+', '-'] := by
  by_contra hmem
  rw [pull_eq_four hmem] at h
  exact Nat.lt_irrefl 4 h

theorem reach_append (h : reach cs < 4) (ds : List Char) : reach (cs ++ ds) = reach cs := by
  cases cs with
  | nil => exact absurd h (Nat.lt_irrefl 4)
  | cons c cs => rfl

theorem reach_symbol (op : BinOp) (cs : List Char) : reach (op.symbol.toList ++ cs) = op.rank := by
  cases op <;> rfl

theorem exists_symbol (op : BinOp) :
    ∃ c, op.symbol.toList = [c] ∧ pull c = op.rank ∧ c ≠ '.' := by
  cases op with
  | add => exact ⟨'+', rfl, by decide, by decide⟩
  | subtract => exact ⟨'-', rfl, by decide, by decide⟩
  | multiply => exact ⟨'*', rfl, by decide, by decide⟩
  | divide => exact ⟨'/', rfl, by decide, by decide⟩

theorem delimits_cons (h : c ∈ ['\n', '(', ')', '*', '/', '+', '-']) (cs : List Char) :
    Delimits (c :: cs) := by
  rintro _ ⟨⟩
  exact h

theorem delimits_symbol (op : BinOp) (cs : List Char) : Delimits (op.symbol.toList ++ cs) := by
  cases op <;> exact delimits_cons (by decide) cs

theorem exists_of_reach_lt (h : reach cs < 4) :
    ∃ c ds, cs = c :: ds ∧ c ∈ ['(', '*', '/', '+', '-'] := by
  cases cs with
  | nil => exact absurd h (Nat.lt_irrefl 4)
  | cons c cs => exact ⟨c, cs, rfl, mem_of_pull_lt h⟩

theorem delimits_of_reach (h : reach cs < 4) : Delimits cs := by
  have hall : ∀ d ∈ ['(', '*', '/', '+', '-'], d ∈ ['\n', '(', ')', '*', '/', '+', '-'] :=
    forall_mem_of_all (by decide)
  obtain ⟨c, ds, rfl, hc⟩ := exists_of_reach_lt h
  exact delimits_cons (hall c hc) ds

/-- A class that has none of the delimiting characters ends before any of them. -/
theorem Delimits.stops (h : Delimits cs) {cls : CharClass}
    (hcls : ∀ c ∈ ['\n', '(', ')', '*', '/', '+', '-'], cls.contains c = false) : cls.Stops cs :=
  fun c hc => hcls c (h c hc)

theorem Delimits.letters (h : Delimits cs) : CharClass.letters.Stops cs :=
  h.stops (forall_mem_of_all (by decide))

end

/-! ## How expressions begin

To what stands before it, an expression is known by its first characters: what it can be taken for,
and what it goes on with. -/

/-- The text begins with a parenthesis, with a digit, or with a name. It may be no more than a name
only at the lowest rank; otherwise an expression goes on after it. -/
inductive Opens : Nat → List Char → Prop where
  | parenthesis {r : Nat} (cs : List Char) : Opens r ('(' :: cs)
  | digit {r : Nat} {c : Char} (hc : isDecimalDigit c = true) (cs : List Char) : Opens r (c :: cs)
  | name {name : List Char} (hname : IsName name) : Opens 0 name
  | onward {r : Nat} {name rest : List Char} (hname : IsName name) (hrest : reach rest < 4) :
      Opens r (name ++ rest)

section

variable {r s : Nat} {e : Expr} {t u k name rest : List Char}

/-- More text after the beginning, with which an expression goes on. -/
theorem Opens.append (h : Opens r t) (hu : reach u < 4) : Opens s (t ++ u) := by
  cases h with
  | parenthesis cs => exact .parenthesis _
  | digit hc cs => exact .digit hc _
  | name hname => exact .onward hname hu
  | onward hname hrest =>
    rw [List.append_assoc]
    exact .onward hname (reach_append hrest u ▸ hrest)

theorem Opens.enclosed {bound : Nat} (h : Opens e.rank t) : ∃ r, Opens r (e.enclosed bound t) := by
  unfold Expr.enclosed
  split
  · exact ⟨_, h⟩
  · exact ⟨0, .parenthesis _⟩

theorem opens_literal {whole fraction : List Char} (h : IsLiteral whole fraction) :
    Opens r (literalText whole fraction) := by
  obtain ⟨c, cs, heq, hc⟩ := h.exists_head
  rw [heq]
  exact .digit hc cs

/-- The text of a legible expression begins as it should. Induction on the text, along the operands
on the left. -/
theorem Expr.Written.opens : {e : Expr} → {t : List Char} → e.Written t → e.Legible →
    Opens e.rank t
  | _, _, .real hx, _ => opens_literal (isLiteral_of_value hx)
  | _, _, .ref _, hname => .name hname
  | _, _, .call hcallee _, ⟨hlegible, _⟩ =>
    have ⟨_, hopens⟩ := (hcallee.opens hlegible).enclosed
    hopens.append (show 1 < 4 by decide)
  | _, _, .bin op hlhs _, ⟨hlegible, _⟩ =>
    have ⟨_, hopens⟩ := (hlhs.opens hlegible).enclosed
    hopens.append (by rcases op.rank_cases with h | h <;> simp [reach_symbol, h])
  | _, _, .fn _ _ _, _ => .parenthesis _

/-- The first character is no blank, and no expression goes on with it, unless it is a
parenthesis. -/
theorem Opens.exists_head (h : Opens r t) :
    ∃ c cs, t = c :: cs ∧ ¬IsBlank c ∧ (c = '(' ∨ pull c = 4) := by
  have hsolid {c : Char} (hc : c.isAlpha = true ∨ isDecimalDigit c = true) :
      ¬IsBlank c ∧ (c = '(' ∨ pull c = 4) := by
    have hothers : ∀ d ∈ [' ', '\n', '\r', '\t', '(', '*', '/', '+', '-'],
        ¬(d.isAlpha = true ∨ isDecimalDigit d = true) := forall_mem_of_all (by decide)
    have hmem : c ∉ [' ', '\n', '\r', '\t', '(', '*', '/', '+', '-'] := fun h => hothers c h hc
    refine ⟨fun hblank => hmem ?_, .inr (pull_eq_four fun h => hmem ?_)⟩
    · exact List.mem_append_left ['(', '*', '/', '+', '-'] hblank
    · exact List.mem_append_right [' ', '\n', '\r', '\t'] h
  have hnamed {name : List Char} (hname : IsName name) (rest : List Char) :
      ∃ c cs, name ++ rest = c :: cs ∧ ¬IsBlank c ∧ (c = '(' ∨ pull c = 4) := by
    obtain ⟨hne, hletters⟩ := hname
    obtain ⟨c, cs, rfl⟩ := List.exists_cons_of_ne_nil hne
    exact ⟨c, cs ++ rest, rfl, hsolid (.inl (hletters c List.mem_cons_self))⟩
  cases h with
  | parenthesis cs => exact ⟨'(', cs, rfl, by decide, .inl rfl⟩
  | digit hc cs => exact ⟨_, cs, rfl, hsolid (.inr hc)⟩
  | name hname => simpa using hnamed hname []
  | onward hname hrest => exact hnamed hname _

theorem Opens.stops (h : Opens r t) (k : List Char) : CharClass.spaces.Stops (t ++ k) := by
  obtain ⟨c, cs, rfl, hblank, _⟩ := h.exists_head
  rintro _ ⟨⟩
  exact Bool.eq_false_iff.2 fun hc => hblank (spaces_contains.1 hc)

/-- Nothing goes on with a text that does not begin with a parenthesis. -/
theorem Opens.reach_eq (h : Opens r t) (hparen : t.head? ≠ some '(') (k : List Char) :
    reach (t ++ k) = 4 := by
  obtain ⟨c, cs, rfl, _, hc⟩ := h.exists_head
  rcases hc with rfl | hc
  · exact absurd rfl hparen
  · exact hc

/-- Letters before something else are the keyword only if they spell it and a space follows. -/
theorem eq_of_keyword (hname : IsName name) (hrest : CharClass.letters.Stops rest)
    (h : "let ".toList <+: name ++ rest) : name = "let".toList ∧ ∃ more, rest = ' ' :: more := by
  obtain ⟨more, heq⟩ := h
  have hkeyword := @CharClass.leadingRun_append .letters (' ' :: more) "let".toList
    (forall_mem_of_all (by decide)) (.cons (by decide) more)
  have hletters := CharClass.leadingRun_append hname.letters hrest
  rw [← heq] at hletters
  exact ⟨hletters.1.symm.trans hkeyword.1, more, hletters.2.symm.trans hkeyword.2⟩

/-- A name is not taken for the keyword, even if it is spelled like it: no space follows. -/
theorem not_keyword (hname : IsName name) (hrest : Delimits rest) :
    ¬"let ".toList <+: name ++ rest := by
  intro h
  obtain ⟨_, more, rfl⟩ := eq_of_keyword hname hrest.letters h
  exact absurd (hrest ' ' rfl) (by decide)

theorem Opens.not_keyword (h : Opens r t) (hk : Delimits k) : ¬"let ".toList <+: t ++ k := by
  cases h with
  | parenthesis cs => simp [List.cons_prefix_cons]
  | digit hc cs =>
    rintro ⟨more, heq⟩
    obtain rfl : 'l' = _ := (List.cons.inj heq).1
    revert hc
    decide
  | name hname => exact Packrat.not_keyword hname hk
  | onward hname hrest =>
    rw [List.append_assoc]
    refine Packrat.not_keyword hname (delimits_of_reach ?_)
    rwa [reach_append hrest]

end

end Packrat
