import Packrat.Language.Grammar
import Packrat.Proofs.Engine.Verdicts

/-!
# The parts of the grammar

What the grammar of modules is put together from, for all that is proved about it: what is made of
values that have been read, the rule of expressions as it is seen from inside (**`inside`**), the
operators of a level (**`operators`**), and repetitions that may be empty.
-/

namespace Packrat.Language

/-! ## What is made of the parts

The parsers of the grammar give pairs and lists of values, which these functions make trees of. -/

/-- A number whose literal has a value is read as the real with this value. -/
theorem makeNumber_of_value {whole fraction : List Char} {x : Binary64}
    (hx : Binary64.ofLiteral? whole fraction = some x) :
    makeNumber (.pair (.text (String.ofList whole)) (.text (String.ofList fraction)))
      = .ok (.expr (.real x)) := by
  simp only [makeNumber, String.toList_ofList, hx]

/-- One more argument is one more call around what has been read so far. -/
theorem makeCalls_append (callee argument : Expr) (vs : List Value) {e : Expr}
    (he : makeCalls (.pair (.expr callee) (.list vs)) = .expr e) :
    makeCalls (.pair (.expr callee) (.list (vs ++ [.expr argument])))
      = .expr (.call e argument) := by
  simp only [makeCalls, List.foldl_append, List.foldl_cons, List.foldl_nil] at he ⊢
  rw [Value.expr.inj he]

/-- Nothing is lost of bindings that are collected in a list of values. -/
theorem bindingsOf_map (bs : List Binding) : bindingsOf (bs.map Value.binding) = bs := by
  induction bs with
  | nil => rfl
  | cons b bs ih =>
    show b :: bindingsOf (bs.map Value.binding) = _
    rw [ih]

/-! ## Expressions

The name of the rule occurs in the body only, so most of what is proved about expressions is proved
in the context `inside`, and is taken outside once at the end. -/

/-- The rule of expressions, as it is seen from inside. -/
def inside : Context :=
  [(expressionName, sum)]

/-- An atom without the blanks around it. -/
def solid : Blueprint :=
  .alt (.alt (.alt number function) group) reference

/-- A function up to its arrow. -/
def header : Blueprint :=
  .left (.left (.right (.literal "(") name) (.literal ")")) (spaced (.literal "->"))

/-- A binding up to its equals sign. -/
def bindingHead : Blueprint :=
  .left (.right (.literal "let ") (.required "Expected a name after 'let'" name))
    (.required "Expected '=' after the binding name" (.literal "="))

/-- The operators of a level. -/
def operators (ops : List BinOp) : List Operator :=
  ops.map fun op => ⟨op.symbol, makeBinary op⟩

/-- No operator is written as nothing, so that every one of them moves a chain on. -/
theorem symbol_ne_nil (op : BinOp) : op.symbol.toList ≠ [] := by
  cases op <;> decide

/-- The levels of the grammar meet what is asked of the operators of a level. -/
theorem token_ne_nil_of_operators {ops : List BinOp} :
    ∀ operator ∈ operators ops, operator.token.toList ≠ [] := by
  intro operator hmem
  obtain ⟨op, _, rfl⟩ := List.mem_map.1 hmem
  exact symbol_ne_nil op

/-- Sorting the operators of a level makes up no new ones. -/
theorem exists_operator {ops : List BinOp} {index : Nat} {operator : Operator}
    (h : (Operator.longestFirst (operators ops))[index]? = some operator) :
    ∃ op ∈ ops, operator = ⟨op.symbol, makeBinary op⟩ := by
  have hmem := Operator.mem_longestFirst.1 (List.mem_of_getElem? h)
  obtain ⟨op, hop, rfl⟩ := List.mem_map.1 hmem
  exact ⟨op, hop, rfl⟩

section

variable {Γ : Context} {p : Blueprint} {cs ds : List Char} {v : Value} {vs : List Value}

/-- Inside the rule of expressions its name stands for an expression. -/
theorem takes_inner (h : Takes inside sum cs v ds) : Takes inside inner cs v ds :=
  .self rfl h

/-- What is read as an expression inside the rule is read as one outside of it, too. -/
theorem takes_expression (h : Takes inside sum cs v ds) : Takes [] expression cs v ds :=
  .rule h

/-! ## Repetitions that may be empty

The repetition of the engine matches once at least. The grammar wants calls without arguments and
functions without bindings as well, and has the empty list as an alternative. -/

/-- The repetition ends where the parser declines, be it at once. -/
theorem takes_many (h : Steps Γ p cs vs ds) (hend : Declines Γ p ds) :
    Takes Γ (many p) cs (.list vs) ds := by
  by_cases hne : vs = []
  · subst hne
    obtain rfl : ds = cs := h.rest_eq
    exact .alt_second hend.rep (takes_accept _ _)
  · exact (h.takes_rep hend hne).alt_first _

/-- The contract of a repetition that may be empty. The invariant `I` is about the values so far, in
reverse, and the place; each round keeps it and moves on. -/
theorem meets_many {M : Value → List Char → Prop} {N : Prop} {F : String → List Char → Prop}
    {I : List Value → List Char → Prop} {E : List Char → Prop} (hstart : I [] cs)
    (hstep : ∀ vs ds, I vs ds →
      Meets Γ p ds (fun v es => es.length < ds.length ∧ I (v :: vs) es) (E ds) F)
    (hend : ∀ vs ds, I vs ds → E ds → M (.list vs.reverse) ds) : Meets Γ (many p) cs M N F :=
  meets_alt (meets_rep hstart hstep (fun vs ds _ => hend vs ds)
    fun hE => meets_accept (hend [] cs hstart hE))

/-- The same for contracts in which only the messages of failures matter. -/
theorem delivers_many {allowed : List String} {P : Value → List Char → Prop}
    {I : List Value → List Char → Prop} (hstart : I [] cs)
    (hstep : ∀ vs ds, I vs ds →
      Delivers allowed Γ p ds fun v es => es.length < ds.length ∧ I (v :: vs) es)
    (hend : ∀ vs ds, I vs ds → P (.list vs.reverse) ds) : Delivers allowed Γ (many p) cs P :=
  @meets_many Γ p cs P True _ I (fun _ => True) hstart hstep fun vs ds hI _ => hend vs ds hI

end

end Packrat.Language
