import Packrat.Proofs.Language.RoundTrip

/-!
# Flat expressions

An expression without parentheses is a chain of numbers and names, with operators between them and
any blanks around them. The tree of it does not depend on how it is read: the chain is split at the
additive operators, each run between them is folded to the left, and so are the runs.

* **`FlatChain`** — such a chain, with its text and its tree.
* **`Operand.takes_call`** — a number or a name is read up to the blanks behind it.
* **`takes_sum_links`** — the rest of a chain is read, whatever stands before it. Induction on the
  operators that are left.
* **`readWhole_flat`** — the grammar of expressions reads the whole text of a chain as its tree.
-/

namespace Packrat

open Packrat.Language

/-! ## Chains and their trees

The reference knows nothing of parsers: a chain is a list of operators with their operands, and it
is folded twice. -/

/-- Fold a chain of operands to the left. -/
def foldOperands (first : Expr) (steps : List (BinOp × Expr)) : Expr :=
  steps.foldl (fun lhs step => .bin step.1 lhs step.2) first

/-- Split what follows the first operand at the additive operators: the factors before the first of
them, and each of them with the operand behind it and the factors behind that. -/
def splitAdditive :
    List (BinOp × Expr) → List (BinOp × Expr) × List (BinOp × Expr × List (BinOp × Expr))
  | [] => ([], [])
  | (op, e) :: steps =>
    if op.isAdditive then ([], (op, e, (splitAdditive steps).1) :: (splitAdditive steps).2)
    else ((op, e) :: (splitAdditive steps).1, (splitAdditive steps).2)

/-- The tree of a chain: every run of factors is folded to the left, then the runs are. -/
def chainTree (first : Expr) (steps : List (BinOp × Expr)) : Expr :=
  foldOperands (foldOperands first (splitAdditive steps).1)
    ((splitAdditive steps).2.map fun (op, e, factors) => (op, foldOperands e factors))

example (a b c d : Expr) : chainTree a [(.subtract, b), (.divide, c), (.add, d)]
    = .bin .add (.bin .subtract a (.bin .divide b c)) d :=
  rfl

/-! ## Texts

Between any two words there may be blanks of any kind, and none is needed since no operator goes on
with a word. -/

/-- Any blanks, or none. -/
def Blanks := {cs : List Char // ∀ c ∈ cs, IsBlank c}

/-- A literal or a name. -/
inductive Operand where
  | literal (whole fraction : List Char) (h : IsLiteral whole fraction)
  | word (letters : String) (h : IsName letters.toList)

namespace Operand

def text : Operand → List Char
  | .literal whole fraction _ => literalText whole fraction
  | .word letters _ => letters.toList

def tree : Operand → Expr
  | .literal whole fraction h =>
    .real ((Binary64.ofLiteral? whole fraction).get (Option.isSome_iff_exists.2 h.exists_value))
  | .word letters _ => .ref letters

end Operand

/-- An operator with the operand behind it, and the blanks before each of them. -/
structure FlatLink where
  beforeOp : Blanks
  op : BinOp
  beforeOperand : Blanks
  operand : Operand

/-- The text of the links, and the blanks at the end. -/
def FlatLink.text (stop : Blanks) : List FlatLink → List Char
  | [] => stop.1
  | link :: links =>
    link.beforeOp.1 ++ (link.op.symbol.toList
      ++ (link.beforeOperand.1 ++ (link.operand.text ++ text stop links)))

/-- An expression without parentheses, with its blanks. -/
structure FlatChain where
  start : Blanks
  first : Operand
  links : List FlatLink
  stop : Blanks

namespace FlatChain

def text (chain : FlatChain) : List Char :=
  chain.start.1 ++ (chain.first.text ++ FlatLink.text chain.stop chain.links)

def tree (chain : FlatChain) : Expr :=
  chainTree chain.first.tree (chain.links.map fun link => (link.op, link.operand.tree))

end FlatChain

/-! ## Reading

The operators are gone through from the left. Those that multiply go on with the product that is
being read, and those that add end it and begin another one. -/

section

variable {cs₀ cs : List Char} {lhs : Expr}

namespace FlatLink

variable (stop : Blanks) (links : List FlatLink)

/-- Neither a literal nor a name runs on into what follows an operand. -/
theorem head_text {c : Char} (h : (text stop links).head? = some c) :
    c ∈ [' ', '\n', '\r', '\t', '*', '/', '+', '-'] := by
  have hblank {blank : Blanks} (hc : c ∈ blank.1) :
      c ∈ [' ', '\n', '\r', '\t', '*', '/', '+', '-'] :=
    List.mem_append_left ['*', '/', '+', '-'] (blank.2 c hc)
  cases links with
  | nil => exact hblank (List.mem_of_head? h)
  | cons link links =>
    rw [text, List.head?_append, Option.or_eq_some_iff] at h
    rcases h with hhead | ⟨_, hhead⟩
    · exact hblank (List.mem_of_head? hhead)
    · cases hop : link.op <;> rw [hop] at hhead <;> cases hhead <;> decide

theorem stops_text {cls : CharClass}
    (hcls : ∀ c ∈ [' ', '\n', '\r', '\t', '*', '/', '+', '-'], cls.contains c = false) :
    cls.Stops (text stop links) :=
  fun c hc => hcls c (head_text stop links hc)

theorem trimmed_nil : trimmed (text stop []) = [] := by
  have htrimmed : trimmed (stop.1 ++ []) = [] := trimmed_append stop.2 nofun
  rwa [List.append_nil] at htrimmed

theorem trimmed_cons (link : FlatLink) :
    trimmed (text stop (link :: links)) = link.op.symbol.toList
      ++ (link.beforeOperand.1 ++ (link.operand.text ++ text stop links)) := by
  refine trimmed_append link.beforeOp.2 ?_
  cases link.op <;> exact .cons (by decide) _

/-- No argument follows an operand. -/
theorem lt_reach_text : 1 < reach (trimmed (text stop links)) := by
  cases links with
  | nil =>
    rw [trimmed_nil]
    decide
  | cons link links =>
    rw [trimmed_cons, reach_symbol]
    rcases link.op.rank_cases with h | h <;> omega

end FlatLink

namespace Operand

variable (operand : Operand) (stop : Blanks) (links : List FlatLink)

theorem takes_solid : Takes inside solid (operand.text ++ FlatLink.text stop links)
    (.expr operand.tree) (FlatLink.text stop links) := by
  cases operand with
  | literal whole fraction h =>
    have hpoint : ¬".".toList <+: FlatLink.text stop links := by
      rintro ⟨more, hmore⟩
      exact absurd (FlatLink.head_text stop links (congrArg List.head? hmore.symm)) (by decide)
    have hdigits : CharClass.digits.Stops (FlatLink.text stop links) :=
      FlatLink.stops_text stop links (forall_mem_of_all (by decide))
    have hvalue : (Binary64.ofLiteral? whole fraction).isSome = true :=
      Option.isSome_iff_exists.2 h.exists_value
    have hnumber : Takes inside number _ (.expr (.real _)) _ :=
      takes_number (Option.some_get hvalue).symm hdigits hpoint
    exact ((hnumber.alt_first _).alt_first _).alt_first _
  | word letters h =>
    exact takes_word h (FlatLink.stops_text stop links (forall_mem_of_all (by decide)))

theorem stops_append (k : List Char) : CharClass.spaces.Stops (operand.text ++ k) := by
  cases operand with
  | literal whole fraction h =>
    have hopens : Opens 0 (literalText whole fraction) := opens_literal h
    exact hopens.stops k
  | word letters h => exact (Opens.name h).stops k

/-- An operand is read with the blanks around it. -/
theorem takes_call (before : Blanks) :
    Takes inside call (before.1 ++ (operand.text ++ FlatLink.text stop links))
      (.expr operand.tree) (trimmed (FlatLink.text stop links)) := by
  have hatom := takes_atom before.2 (operand.stops_append _) (operand.takes_solid stop links)
  have hcalled : Reached 1 _ operand.tree _ := Takes.reached (r := 0) hatom (by decide)
  exact hcalled.takes (by decide) (stops_trimmed _) (FlatLink.lt_reach_text stop links)

end Operand

/-- Whatever is read as a product at the second place completes an expression that began at the
first. -/
def Completes (cs₀ cs : List Char) (whole : Expr → Expr) : Prop :=
  ∀ e rest, Takes inside product cs (.expr e) rest → Reached 3 cs₀ (whole e) rest

/-- The rest of a chain is read, behind the factors that have been read at the second place. An
additive operator ends them and begins others; any other one goes on with them. -/
theorem takes_sum_links {whole : Expr → Expr} (hwhole : Completes cs₀ cs whole) (stop : Blanks)
    (links : List FlatLink) (h : Reached 2 cs lhs (trimmed (FlatLink.text stop links))) :
    Takes inside sum cs₀
      (.expr (foldOperands
        (whole (foldOperands lhs
          (splitAdditive (links.map fun link => (link.op, link.operand.tree))).1))
        ((splitAdditive (links.map fun link => (link.op, link.operand.tree))).2.map
          fun (op, e, factors) => (op, foldOperands e factors)))) [] := by
  induction links generalizing cs lhs whole with
  | nil =>
    rw [FlatLink.trimmed_nil] at h
    have hproduct : Takes inside product cs (.expr lhs) [] := h.takes (by decide) nofun (by decide)
    exact (hwhole lhs [] hproduct).takes (by decide) nofun (by decide)
  | cons link links ih =>
    rw [FlatLink.trimmed_cons] at h
    have hoperand := link.operand.takes_call stop links link.beforeOperand
    rw [List.map_cons, splitAdditive]
    cases hop : link.op.isAdditive with
    | false =>
      -- the operand is one more factor of the product that is being read
      have hrank : link.op.rank = 2 := by rw [BinOp.rank, hop, if_neg Bool.false_ne_true]
      have hbin : Reached link.op.rank cs (.bin link.op lhs link.operand.tree) _ :=
        Reached.bin link.op (by rwa [hrank]) (by rwa [hrank])
      rw [hrank] at hbin
      simpa [foldOperands] using ih hwhole hbin
    | true =>
      -- the product is over, and what comes behind it is the right operand of another sum
      have hrank : link.op.rank = 3 := by rw [BinOp.rank, hop, if_pos rfl]
      have hproduct : Takes inside product cs (.expr lhs) _ :=
        h.takes (by decide) (by cases link.op <;> exact .cons (by decide) _)
          (by rw [reach_symbol, hrank]; decide)
      have hnext : Completes cs₀ (link.beforeOperand.1 ++ (link.operand.text
          ++ FlatLink.text stop links)) (.bin link.op (whole lhs)) := by
        intro e rest he
        have hbin : Reached link.op.rank cs₀ (.bin link.op (whole lhs) e) rest :=
          Reached.bin link.op (by rw [hrank]; exact hwhole lhs _ hproduct) (by rwa [hrank])
        rwa [hrank] at hbin
      have hfirst : Reached 2 _ link.operand.tree _ := Takes.reached (r := 1) hoperand (by decide)
      simpa [foldOperands] using ih hnext hfirst

end

/-! ## Whole texts

At the end of the text nothing is left to go on with, so what has been read is the whole expression.
-/

/-- **Flat expressions group as they should.** The grammar of expressions, built in any workspace,
reads the whole text of a chain, and what it reads is the tree of the chain. -/
theorem Workspace.readWhole_flat (chain : FlatChain) (w : Workspace) (name : String) :
    ∃ g w₁, w.build expression = (.ok g, w₁)
      ∧ (w₁.readWhole g name (String.ofList chain.text)).1 = .ok (.ok (.expr chain.tree)) := by
  have hfirst := chain.first.takes_call chain.stop chain.links chain.start
  have hwhole : Completes chain.text chain.text id :=
    fun e rest he => Takes.reached (r := 2) he (by decide)
  have hsum : Takes inside sum chain.text (.expr chain.tree) [] :=
    takes_sum_links hwhole chain.stop chain.links (Takes.reached (r := 1) hfirst (by decide))
  have htakes := takes_expression hsum
  rw [← String.toList_ofList (l := chain.text)] at htakes
  exact readWhole_of_takes rfl htakes w name

end Packrat
