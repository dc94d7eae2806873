import Packrat.Proofs.Language.Grammar
import Packrat.Proofs.Language.Reporting
import Packrat.Proofs.Language.Writing

/-!
# Reading undoes writing

The grammar takes what it can get: a call every argument that follows, a chain every operand, a
function every binding before its body. So whether a text is read as the tree that it was written
for is a matter of what stands around it.

* **`Reached`** — an expression of a rank has been read, up to a place where it may still go on. It
  is over where nothing that it goes on with follows (`Reached.takes`), and then it is an operand of
  what is looser (`Reached.mono`).
* **`ReadAt`** — a text is read as an expression wherever it stands, before anything that does not
  go on with it. One lemma for each way of writing an expression; between parentheses, anything can
  follow (`ReadAt.grouped`).
* **`Expr.Written.readAt`** — so it is of every text of a legible expression.
* **`Module.Legible.readModule_written`** — every text of a legible module is read as that module.
-/

namespace Packrat

open Packrat.Language

/-- The text after the blanks at its beginning. -/
def trimmed (cs : List Char) : List Char :=
  CharClass.spaces.afterRun cs

section

variable {Γ : Context} {p : Blueprint} {cs ds blank : List Char} {v : Value}

/-- No blank is left at the beginning. -/
theorem stops_trimmed (cs : List Char) : CharClass.spaces.Stops (trimmed cs) :=
  CharClass.spaces.stops_afterRun cs

theorem trimmed_eq (h : CharClass.spaces.Stops cs) : trimmed cs = cs :=
  h.afterRun_eq

theorem trimmed_trimmed (cs : List Char) : trimmed (trimmed cs) = trimmed cs :=
  trimmed_eq (stops_trimmed cs)

/-- Blanks before a text that begins with none are all that is skipped. -/
theorem trimmed_append (hblank : ∀ c ∈ blank, IsBlank c) (hcs : CharClass.spaces.Stops cs) :
    trimmed (blank ++ cs) = cs :=
  (CharClass.leadingRun_append (fun c hc => spaces_contains.2 (hblank c hc)) hcs).2

theorem trimmed_cons {c : Char} (hc : IsBlank c) (hcs : CharClass.spaces.Stops cs) :
    trimmed (c :: cs) = cs :=
  @trimmed_append cs [c] (List.forall_mem_singleton.2 hc) hcs

/-- With blanks around it a parser takes what it takes, and the blanks. -/
theorem takes_spaced_blank (hblank : ∀ c ∈ blank, IsBlank c) (hcs : CharClass.spaces.Stops cs)
    (h : Takes Γ p cs v ds) : Takes Γ (spaced p) (blank ++ cs) v (trimmed ds) := by
  refine Takes.padded ?_
  have htrimmed : CharClass.spaces.afterRun (blank ++ cs) = cs := trimmed_append hblank hcs
  rwa [htrimmed]

theorem takes_spaced (hcs : CharClass.spaces.Stops cs) (h : Takes Γ p cs v ds) :
    Takes Γ (spaced p) cs v (trimmed ds) :=
  @takes_spaced_blank Γ p cs ds [] v (List.forall_mem_nil _) hcs h

end

/-! ## How far an expression has been read

A call and a chain are taken for finished only where the parser looks for more and finds none. Until
then it is only known up to where they have been read, and that is what the texts of their parts add
up to. -/

/-- An atom and the arguments after it have been read, as one call. -/
def Called (cs : List Char) (e : Expr) (ds : List Char) : Prop :=
  ∃ callee middle vs, Takes inside atom cs (.expr callee) middle
    ∧ Steps inside argument middle vs ds ∧ makeCalls (.pair (.expr callee) (.list vs)) = .expr e

/-- An expression of the rank has been read, and may go on if it can. -/
def Reached : Nat → List Char → Expr → List Char → Prop
  | 0, cs, e, ds => Takes inside atom cs (.expr e) ds
  | 1, cs, e, ds => Called cs e ds
  | 2, cs, e, ds => Chained inside call (operators [.multiply, .divide]) cs (.expr e) ds
  | 3, cs, e, ds => Chained inside product (operators [.add, .subtract]) cs (.expr e) ds
  | _, cs, e, ds => Takes inside sum cs (.expr e) ds

/-- The parser of expressions up to the rank. -/
def parserAt : Nat → Blueprint
  | 0 => atom
  | 1 => call
  | 2 => product
  | _ => sum

section

variable {r s : Nat} {e lhs rhs : Expr} {cs ds es : List Char}

theorem declines_argument (hstops : CharClass.spaces.Stops ds) (hds : 1 < reach ds) :
    Declines inside argument ds := by
  have hparen : ¬"(".toList <+: trimmed ds := by
    rw [trimmed_eq hstops]
    rintro ⟨more, rfl⟩
    exact absurd hds (Nat.lt_irrefl 1)
  exact ((Declines.padded (declines_literal hparen)).right _).left _

/-- A call is over where no argument follows. -/
theorem Called.takes (h : Called cs e ds) (hstops : CharClass.spaces.Stops ds)
    (hds : 1 < reach ds) : Takes inside call cs (.expr e) ds := by
  obtain ⟨callee, middle, vs, hcallee, hsteps, he⟩ := h
  have htakes := (hcallee.seq (takes_many hsteps (declines_argument hstops hds))).map makeCalls
  rwa [he] at htakes

/-- A chain is over where nothing of its rank follows. -/
theorem Chained.takes_of_reach {operand : Blueprint} {ops : List BinOp} {v : Value}
    (h : Chained inside operand (operators ops) cs v ds)
    (hds : ∀ op ∈ ops, op.rank < reach ds) (cached : Bool) :
    Takes inside (.level .left (operators ops) cached operand) cs v ds := by
  refine .level cached (h.takes_chain fun operator hmem es hes => ?_)
  -- no operator stands there at all, whatever may follow
  obtain ⟨op, hop, rfl⟩ := List.mem_map.1 hmem
  have hlt := hds op hop
  rw [hes, reach_symbol] at hlt
  exact absurd hlt (Nat.lt_irrefl _)

/-- What has been read is over where nothing that follows goes on with it. -/
theorem Reached.takes (h : Reached r cs e ds) (hr : r ≤ 3) (hstops : CharClass.spaces.Stops ds)
    (hds : r < reach ds) : Takes inside (parserAt r) cs (.expr e) ds := by
  match r, hr with
  | 0, _ => exact h
  | 1, _ => exact Called.takes h hstops hds
  | 2, _ => exact Chained.takes_of_reach h (by simpa [BinOp.rank, BinOp.isAdditive] using hds) true
  | 3, _ => exact Chained.takes_of_reach h (by simpa [BinOp.rank, BinOp.isAdditive] using hds) true

/-- What has been read as an expression may go on as a looser one. -/
theorem Takes.reached (h : Takes inside (parserAt r) cs (.expr e) ds) (hr : r ≤ 3) :
    Reached (r + 1) cs e ds := by
  match r, hr with
  | 0, _ => exact ⟨e, ds, [], h, .none, rfl⟩
  | 1, _ => exact h.chained
  | 2, _ => exact h.chained
  | 3, _ => exact h

/-- A call goes on with one more argument. -/
theorem Reached.call {a : Expr} (h : Reached 1 cs e ds) (ha : Takes inside argument ds (.expr a) es)
    (hmoved : es ≠ ds) : Reached 1 cs (.call e a) es := by
  obtain ⟨callee, middle, vs, hcallee, hsteps, he⟩ := h
  exact ⟨callee, middle, vs ++ [.expr a], hcallee, hsteps.more ha hmoved,
    makeCalls_append callee a vs he⟩

/-- At most one operator of the language stands at one place. -/
theorem eq_of_symbol_ahead {op other : BinOp}
    (h : other.symbol.toList <+: op.symbol.toList ++ cs) : other = op := by
  obtain ⟨more, heq⟩ := h
  cases op <;> cases other <;> first | rfl | cases heq

/-- The operators of the level that an operator belongs to. -/
def BinOp.peers : BinOp → List BinOp
  | .add | .subtract => [.add, .subtract]
  | .multiply | .divide => [.multiply, .divide]

/-- The parser of a rank of operators is a level over the parser of the rank below. -/
theorem parserAt_rank (op : BinOp) :
    parserAt op.rank = .level .left (operators op.peers) true (parserAt (op.rank - 1)) := by
  cases op <;> rfl

theorem reached_rank (op : BinOp) : Reached op.rank cs e ds =
    Chained inside (parserAt (op.rank - 1)) (operators op.peers) cs (.expr e) ds := by
  cases op <;> rfl

/-- An operator has a number in its level, and none of those before it stands where it does. -/
theorem exists_index_of_symbol (op : BinOp) (ds : List Char) :
    ∃ index : Nat, (Operator.longestFirst (operators op.peers))[index]?
        = some ⟨op.symbol, makeBinary op⟩
      ∧ ∀ (i : Nat) other, i < index →
        (Operator.longestFirst (operators op.peers))[i]? = some other →
          ∀ es, op.symbol.toList ++ ds ≠ other.token.toList ++ es := by
  -- of the two operators of a level, the second is only tried where the first does not stand
  have hsecond (first second : BinOp) (hne : first ≠ second) :
      ∀ (i : Nat) other, i < 1 → (operators [first, second])[i]? = some other →
        ∀ es, second.symbol.toList ++ ds ≠ other.token.toList ++ es := by
    intro i other hi hother es hes
    obtain rfl : i = 0 := by omega
    cases hother
    exact hne (eq_of_symbol_ahead ⟨es, hes.symm⟩)
  cases op with
  | add => exact ⟨0, rfl, nofun⟩
  | subtract => exact ⟨1, rfl, hsecond .add .subtract (by decide)⟩
  | multiply => exact ⟨0, rfl, nofun⟩
  | divide => exact ⟨1, rfl, hsecond .multiply .divide (by decide)⟩

/-- An operation goes on from its left operand, with the operator and the right one. -/
theorem Reached.bin (op : BinOp) (hlhs : Reached op.rank cs lhs (op.symbol.toList ++ ds))
    (hrhs : Takes inside (parserAt (op.rank - 1)) ds (.expr rhs) es) :
    Reached op.rank cs (.bin op lhs rhs) es := by
  obtain ⟨index, hop, hbefore⟩ := exists_index_of_symbol op ds
  rw [reached_rank] at hlhs ⊢
  exact hlhs.more hop rfl (symbol_ne_nil op)
    (fun i other hi hother fs hfs => absurd hfs (hbefore i other hi hother fs)) hrhs

end

/-! ## Texts that are read

What is read where depends on the text behind it, so a text is read at a rank if that goes well
before everything that does not go on with expressions of that rank. -/

/-- Wherever the text stands, with any blanks before it, and before anything that does not go on
with an expression of the rank, it is read as the expression; the blanks after it are skipped. -/
def ReadAt (r : Nat) (e : Expr) (t : List Char) : Prop :=
  ∀ blank k, (∀ c ∈ blank, IsBlank c) → Delimits k → r ≤ reach (trimmed k) →
    Reached r (blank ++ (t ++ k)) e (trimmed k)

section

variable {Γ : Context} {r s : Nat} {e lhs rhs : Expr} {t u k cs ds blank : List Char} {v : Value}

/-- What has been read can stand where a looser expression can, if nothing goes on with that. -/
theorem Reached.mono (h : Reached r cs e ds) (hrs : r ≤ s) (hs : s ≤ 4)
    (hstops : CharClass.spaces.Stops ds) (hreach : s ≤ reach ds) : Reached s cs e ds := by
  induction s, hrs using Nat.le_induction with
  | base => exact h
  | succ s hrs ih =>
    have hreached := ih (Nat.le_of_succ_le hs) (Nat.le_of_succ_le hreach)
    have hle : s ≤ 3 := Nat.le_of_succ_le_succ hs
    exact (hreached.takes hle hstops hreach).reached hle

theorem ReadAt.mono (h : ReadAt r e t) (hrs : r ≤ s) (hs : s ≤ 4) : ReadAt s e t := by
  intro blank k hblank hk hreach
  exact (h blank k hblank hk (Nat.le_trans hrs hreach)).mono hrs hs (stops_trimmed k) hreach

/-- Read at its own rank, a text is read as a whole expression. -/
theorem ReadAt.whole (h : ReadAt e.rank e t) : ReadAt 4 e t :=
  h.mono e.rank_le (Nat.le_refl 4)

/-! ### Atoms

The alternatives of an atom are tried in order, so for each of them the earlier ones have to
decline: a number, a function, a group and at last a reference. -/

theorem takes_atom (hblank : ∀ c ∈ blank, IsBlank c) (hcs : CharClass.spaces.Stops cs)
    (h : Takes inside solid cs v ds) : Takes inside atom (blank ++ cs) v (trimmed ds) :=
  (takes_spaced_blank hblank hcs h).memo none

theorem declines_number (h : CharClass.digits.Stops cs) : Declines Γ number cs :=
  ((declines_chars h).seq _).tryMap _

/-- A number is read as the real that its literal is worth, where neither a digit nor a point
follows. -/
theorem takes_number {whole fraction : List Char} {x : Binary64}
    (hx : Binary64.ofLiteral? whole fraction = some x) (hk : CharClass.digits.Stops k)
    (hpoint : ¬".".toList <+: k) :
    Takes Γ number (literalText whole fraction ++ k) (.expr (.real x)) k := by
  obtain ⟨hne, hdigits⟩ := isLiteral_of_value hx
  have hrun {run : List Char} (hall : ∀ c ∈ run, c ∈ whole ++ fraction) :
      ∀ c ∈ run, CharClass.digits.contains c = true :=
    fun c hc => (digits_contains c).trans (hdigits c (hall c hc))
  have hwhole := hrun fun _ => List.mem_append_left fraction
  unfold literalText
  split
  next hfraction =>
    obtain rfl : fraction = [] := by simpa using hfraction
    refine Takes.tryMap ((takes_chars hne hwhole hk).seq ?_) (makeNumber_of_value hx)
    exact .alt_second ((declines_literal hpoint).right _) (takes_accept _ _)
  next hfraction =>
    have hne' : fraction ≠ [] := by simpa using hfraction
    have hrest := hrun fun _ => List.mem_append_right whole
    rw [List.append_assoc]
    refine Takes.tryMap ((takes_chars hne hwhole ?_).seq (Takes.alt_first ?_ _))
      (makeNumber_of_value hx)
    · exact .cons (by decide) _
    · exact (takes_literal "." (fraction ++ k)).right (takes_chars hne' hrest hk)

theorem readAt_real {whole fraction : List Char} {x : Binary64}
    (hx : Binary64.ofLiteral? whole fraction = some x) :
    ReadAt 0 (.real x) (literalText whole fraction) := by
  intro blank k hblank hk _
  have hopens : Opens 0 _ := opens_literal (isLiteral_of_value hx)
  have hpoint : ¬".".toList <+: k := by
    rintro ⟨more, rfl⟩
    exact absurd (hk '.' rfl) (by decide)
  have hnumber : Takes inside number _ (.expr (.real x)) k :=
    takes_number hx (hk.stops (forall_mem_of_all (by decide))) hpoint
  exact takes_atom hblank (hopens.stops k) (((hnumber.alt_first _).alt_first _).alt_first _)

/-- A name is read with the blanks behind it, where no letter follows. -/
theorem takes_name {s : String} (hs : IsName s.toList) (hds : CharClass.letters.Stops ds) :
    Takes Γ name (s.toList ++ ds) (.text s) (trimmed ds) := by
  have htakes : Takes Γ name (s.toList ++ ds) (.text (String.ofList s.toList)) (trimmed ds) :=
    takes_spaced ((Opens.name hs).stops ds) (takes_chars hs.1 hs.letters hds)
  rwa [String.ofList_toList] at htakes

/-- Without a parenthesis there is neither a function nor a group. -/
theorem declines_function_group (h : ¬"(".toList <+: cs) :
    Declines inside function cs ∧ Declines inside group cs := by
  have hopening (b : Blueprint) : Declines inside (.right (.literal "(") b) cs :=
    (declines_literal h).right b
  exact ⟨(((((hopening _).left _).left _).seq _).seq _).map _, (hopening _).left _⟩

/-- A name is read as a reference, since it begins neither a number nor a function nor a group. -/
theorem takes_word {name : String} (hname : IsName name.toList) (hk : CharClass.letters.Stops k) :
    Takes inside solid (name.toList ++ k) (.expr (.ref name)) k := by
  obtain ⟨c, cs, htext⟩ := List.exists_cons_of_ne_nil hname.1
  have hothers : CharClass.digits.contains c = false ∧ c ≠ '(' := by
    have hall : ∀ d ∈ CharClass.letters.members, CharClass.digits.contains d = false ∧ d ≠ '(' :=
      forall_mem_of_all (by decide)
    exact hall c (List.contains_iff_mem.1 (hname.letters c (htext ▸ List.mem_cons_self)))
  have hnumber : Declines inside number (name.toList ++ k) := by
    rw [htext]
    exact declines_number (.cons hothers.1 _)
  have hopening : ¬"(".toList <+: name.toList ++ k := by
    rw [htext]
    rintro ⟨more, heq⟩
    exact hothers.2 (List.cons.inj heq).1.symm
  obtain ⟨hfunction, hgroup⟩ := declines_function_group hopening
  have hreference : Takes inside reference (name.toList ++ k)
      (.expr (.ref (String.ofList name.toList))) k :=
    (takes_chars hname.1 hname.letters hk).map makeReference
  rw [String.ofList_toList] at hreference
  exact .alt_second ((hnumber.alt hfunction).alt hgroup) hreference

theorem readAt_ref {name : String} (hname : IsName name.toList) :
    ReadAt 0 (.ref name) name.toList :=
  fun _ k hblank hk _ =>
    takes_atom hblank ((Opens.name hname).stops k) (takes_word hname hk.letters)

/-- An expression that is more than a name is not taken for the head of a function when it stands
in parentheses. -/
theorem declines_function_of_opens (h : Opens r t) (hr : r ≠ 0) (k : List Char) :
    Declines inside function ('(' :: (t ++ k)) := by
  have hopening : Takes inside (.literal "(") ('(' :: (t ++ k)) (.text "(") (t ++ k) :=
    takes_literal "(" (t ++ k)
  suffices hhead : Declines inside (.left (.right (.literal "(") name) (.literal ")"))
      ('(' :: (t ++ k)) from (((hhead.left _).seq _).seq _).map _
  have hunnamed (hletters : CharClass.letters.Stops (t ++ k)) :
      Declines inside (.right (.literal "(") name) ('(' :: (t ++ k)) := by
    refine hopening.declines_right (Declines.padded ?_)
    rw [(h.stops k).afterRun_eq]
    exact declines_chars hletters
  cases h with
  | parenthesis cs => exact (hunnamed (.cons (by decide) _)).left _
  | digit hc cs =>
    have hall : ∀ d ∈ CharClass.digits.members, CharClass.letters.contains d = false :=
      forall_mem_of_all (by decide)
    have hdigit := hall _ (List.contains_iff_mem.1 ((digits_contains _).trans hc))
    exact (hunnamed (.cons hdigit _)).left _
  -- a name alone in parentheses could be the parameter of a function
  | name hname => exact absurd rfl hr
  | @onward _ letters rest hname hrest =>
    have hreach : reach (rest ++ k) < 4 := by rwa [reach_append hrest]
    have hnamed := @takes_name inside _ (String.ofList letters) (by rwa [String.toList_ofList])
      (delimits_of_reach hreach).letters
    rw [String.toList_ofList] at hnamed
    rw [List.append_assoc] at hopening ⊢
    -- after the name stands what the expression goes on with, not the closing parenthesis
    refine (hopening.right hnamed).declines_left (declines_literal ?_)
    obtain ⟨c, ds, hrest', hc⟩ := exists_of_reach_lt hreach
    have hall : ∀ d ∈ ['(', '*', '/', '+', '-'], CharClass.spaces.contains d = false ∧ d ≠ ')' :=
      forall_mem_of_all (by decide)
    rw [hrest', trimmed_eq (.cons (hall c hc).1 ds)]
    rintro ⟨more, heq⟩
    exact (hall c hc).2 (List.cons.inj heq).1.symm

/-- What has been opened and filled with an expression is closed by the parenthesis ahead. -/
theorem takes_closed {opening : Blueprint} (message : String)
    (hopening : Takes inside opening cs v ds) (h : Takes inside sum ds (.expr e) (')' :: k)) :
    Takes inside (.left (.right opening inner) (.required message (spaced (.literal ")")))) cs
      (.expr e) (trimmed k) := by
  have hclosing : Takes inside (spaced (.literal ")")) (')' :: k) (.text ")") (trimmed k) :=
    takes_spaced (.cons (by decide) k) (takes_literal ")" k)
  exact (hopening.right (takes_inner h)).left (hclosing.required message)

theorem takes_parenthesised {opening : Blueprint} (message : String)
    (hopening : Takes inside opening cs v (t ++ ')' :: k)) (h : ReadAt 4 e t) :
    Takes inside (.left (.right opening inner) (.required message (spaced (.literal ")")))) cs
      (.expr e) (trimmed k) := by
  have hstops : CharClass.spaces.Stops (')' :: k) := .cons (by decide) k
  have hinner := h [] (')' :: k) (List.forall_mem_nil _) (delimits_cons (by decide) k)
    (trimmed_eq hstops ▸ Nat.le_refl 4)
  rw [trimmed_eq hstops] at hinner
  exact takes_closed message hopening hinner

/-- Between parentheses, any expression is an atom. -/
theorem ReadAt.grouped (h : ReadAt 4 e t) (hopens : Opens r t) (hr : r ≠ 0) :
    ReadAt 0 e ('(' :: (t ++ [')'])) := by
  intro blank k hblank hk _
  have htext : '(' :: (t ++ [')']) ++ k = '(' :: (t ++ ')' :: k) := by simp
  rw [htext, ← trimmed_trimmed k]
  have hopening : Takes inside (.literal "(") ('(' :: (t ++ ')' :: k)) (.text "(")
      (t ++ ')' :: k) := takes_literal "(" _
  have hgroup : Takes inside group ('(' :: (t ++ ')' :: k)) (.expr e) (trimmed k) :=
    takes_parenthesised _ hopening h
  have hnumber : Declines inside number ('(' :: (t ++ ')' :: k)) :=
    declines_number (.cons (by decide) _)
  -- functions are tried before groups
  have hfunction := declines_function_of_opens hopens hr (')' :: k)
  exact takes_atom hblank (.cons (by decide) _)
    ((Takes.alt_second (hnumber.alt hfunction) hgroup).alt_first _)

/-- In parentheses where it needs them, an expression is read at any rank. -/
theorem ReadAt.enclosed (h : ReadAt e.rank e t) (hopens : Opens e.rank t) {bound : Nat}
    (hbound : bound ≤ 4) : ReadAt bound e (e.enclosed bound t) := by
  unfold Expr.enclosed
  split
  next hle => exact h.mono hle hbound
  next hlt => exact (h.whole.grouped hopens (by omega)).mono (Nat.zero_le _) hbound

/-! ### Calls and operations

The first part of the text is read as something that may go on, and so it does. -/

/-- A text that is read as a call goes on with an argument in parentheses. -/
theorem ReadAt.call {callee a : Expr} (hcallee : ReadAt 1 callee t) (ha : ReadAt 4 a u)
    (hopens : Opens r u) : ReadAt 1 (.call callee a) (t ++ '(' :: (u ++ [')'])) := by
  intro blank k hblank hk _
  have htext : (t ++ '(' :: (u ++ [')'])) ++ k = t ++ '(' :: (u ++ ')' :: k) := by simp
  have hstops : CharClass.spaces.Stops ('(' :: (u ++ ')' :: k)) := .cons (by decide) _
  have hreached := hcallee blank ('(' :: (u ++ ')' :: k)) hblank (delimits_cons (by decide) _)
    (trimmed_eq hstops ▸ Nat.le_refl 1)
  rw [trimmed_eq hstops] at hreached
  have hopening : Takes inside (spaced (.literal "(")) ('(' :: (u ++ ')' :: k)) (.text "(")
      (trimmed (u ++ ')' :: k)) := takes_spaced hstops (takes_literal "(" _)
  -- no text of an expression begins with a blank, so nothing of it is skipped here
  rw [trimmed_eq (hopens.stops _)] at hopening
  rw [htext]
  refine hreached.call (takes_parenthesised _ hopening ha) fun heq => ?_
  have hlen : (trimmed k).length ≤ k.length := (List.dropWhile_suffix _).length_le
  rw [heq] at hlen
  simp only [List.length_cons, List.length_append] at hlen
  omega

/-- Two operands with an operator between them are read as the operation, which groups to the left.
-/
theorem ReadAt.bin (op : BinOp) (hlhs : ReadAt op.rank lhs t) (hrhs : ReadAt (op.rank - 1) rhs u) :
    ReadAt op.rank (.bin op lhs rhs) (t ++ (op.symbol.toList ++ u)) := by
  intro blank k hblank hk hreach
  have hrank : op.rank - 1 < op.rank ∧ op.rank - 1 ≤ 3 := by
    rcases op.rank_cases with h | h <;> omega
  have hsymbol : trimmed (op.symbol.toList ++ (u ++ k)) = op.symbol.toList ++ (u ++ k) := by
    cases op <;> exact trimmed_eq (.cons (by decide) _)
  have hleft := hlhs blank (op.symbol.toList ++ (u ++ k)) hblank (delimits_symbol op _)
    (by rw [hsymbol, reach_symbol])
  rw [hsymbol] at hleft
  -- the right operand is over: what follows may at most go on with the whole
  have hright := (hrhs [] k (List.forall_mem_nil _) hk (by omega)).takes hrank.2 (stops_trimmed k)
    (by omega)
  rw [List.append_assoc, List.append_assoc]
  exact hleft.bin op hright

/-! ### Bindings

Declarations and the bindings of functions are read by different parsers, which have in common that
they read a binding wherever its value is read. -/

/-- The parser reads a binding wherever its value is read. -/
def Binds (Γ : Context) (p : Blueprint) : Prop :=
  ∀ (name : String) (value : Expr) (cs ds : List Char), IsName name.toList →
    Takes inside sum (' ' :: cs) (.expr value) (trimmed ds) →
    Takes Γ p ("let ".toList ++ (name.toList ++ (" = ".toList ++ cs))) (.binding (.mk name value))
      (trimmed ds)

theorem takes_binding_head {s : String} (hname : Takes Γ name cs (.text s) ('=' :: ds)) :
    Takes Γ bindingHead ("let ".toList ++ cs) (.text s) ds := by
  have hequals : Takes Γ (.literal "=") ('=' :: ds) (.text "=") ds := takes_literal "=" _
  exact ((takes_literal "let " _).right (hname.required _)).left (hequals.required _)

theorem takes_binding_of {value : Blueprint} {s : String}
    (hname : Takes Γ name cs (.text s) ('=' :: ds)) (h : Takes Γ value ds (.expr e) es) :
    Takes Γ (binding value) ("let ".toList ++ cs) (.binding (.mk s e)) es :=
  ((takes_binding_head hname).seq (h.required _)).map makeBinding

/-- A binding is read as its name and its value are. -/
theorem takes_binding {value : Blueprint} {name : String} (hname : IsName name.toList)
    (h : Takes Γ value (' ' :: cs) (.expr e) ds) :
    Takes Γ (binding value) ("let ".toList ++ (name.toList ++ (" = ".toList ++ cs)))
      (.binding (.mk name e)) ds :=
  takes_binding_of (takes_name hname (.cons (by decide) _)) h

theorem binds_memo : Binds inside (.memo none (binding inner)) :=
  fun _ _ _ _ hname h => (takes_binding hname (takes_inner h)).memo none

theorem binds_spaced : Binds [] (spaced (binding expression)) := by
  intro name value cs ds hname h
  have hbinding := takes_spaced (.cons (by decide) _)
    (takes_binding hname (takes_expression h))
  rwa [trimmed_trimmed] at hbinding

/-- Wherever the text stands, before anything that goes on with no expression, it is read as the
bindings. -/
def AllReadAt (bs : List Binding) (t : List Char) : Prop :=
  ∀ Γ p, Binds Γ p → ∀ k, CharClass.spaces.Stops k → reach k = 4 →
    Steps Γ p (t ++ k) (bs.map .binding) k

theorem allReadAt_nil : AllReadAt [] [] :=
  fun _ _ _ _ _ _ => .none

theorem Binding.AllWritten.stops {bs : List Binding} (h : Binding.AllWritten bs t)
    (hk : CharClass.spaces.Stops k) : CharClass.spaces.Stops (t ++ k) := by
  cases h with
  | nil => exact hk
  | cons name hvalue hbindings => exact .cons (by decide) _

/-- No expression goes on with a binding. -/
theorem Binding.AllWritten.reach_eq {bs : List Binding} (h : Binding.AllWritten bs t)
    (hk : reach k = 4) : reach (t ++ k) = 4 := by
  cases h with
  | nil => exact hk
  | cons name hvalue hbindings => rfl

/-- A binding on a line of its own is read before the others. -/
theorem AllReadAt.cons {name : String} {value : Expr} {bs : List Binding}
    (hname : IsName name.toList) (hvalue : ReadAt 4 value t) (hwritten : Binding.AllWritten bs u)
    (hbs : AllReadAt bs u) :
    AllReadAt (.mk name value :: bs)
      ("let ".toList ++ (name.toList ++ (" = ".toList ++ (t ++ '\n' :: u)))) := by
  intro Γ p hp k hstops hreach
  -- the end of the line is skipped with the value, up to the next binding or the body
  have htrimmed : trimmed ('\n' :: (u ++ k)) = u ++ k :=
    trimmed_cons (by decide) (hwritten.stops hstops)
  have htaken := hvalue [' '] ('\n' :: (u ++ k)) (forall_mem_of_all (by decide))
    (delimits_cons (by decide) _) (by rw [htrimmed, hwritten.reach_eq hreach])
  have hbinding := hp name value (t ++ '\n' :: (u ++ k)) ('\n' :: (u ++ k)) hname htaken
  rw [htrimmed] at hbinding
  simp only [List.append_assoc, List.cons_append]
  refine .cons hbinding (fun heq => ?_) (hbs Γ p hp k hstops hreach)
  have hlen := congrArg List.length heq
  simp only [List.length_append, List.length_cons] at hlen
  omega

/-! ### Functions

The body has no end of its own. It takes all that goes on with it, and before it the bindings take
all that begins with the keyword. -/

/-- Without the keyword ahead there is no binding. -/
theorem declines_binding {value : Blueprint} (h : ¬"let ".toList <+: cs) :
    Declines Γ (binding value) cs :=
  (((((declines_literal h).right _).left _).seq _).map _)

/-- The bindings of a function end where its body begins. -/
theorem takes_bindings {bs : List Binding} (hwritten : Binding.AllWritten bs t)
    (hbs : AllReadAt bs t) (hopens : Opens r u) (hhead : bs ≠ [] → u.head? ≠ some '(')
    (hk : Delimits k) :
    Takes inside (many (.memo none (binding inner))) (t ++ (u ++ k)) (.list (bs.map .binding))
      (u ++ k) := by
  refine takes_many ?_ ((declines_binding (hopens.not_keyword hk)).memo none)
  cases hwritten with
  -- with no value before it, the body may begin with a parenthesis
  | nil => exact .none
  | cons name hvalue hbindings =>
    exact hbs _ _ binds_memo _ (hopens.stops k) (hopens.reach_eq (hhead (List.cons_ne_nil _ _)) k)

/-- A function is its header, its bindings and its body. -/
theorem takes_function_of {param : String} {bs : List Binding} {body : Expr}
    (hheader : Takes inside header cs (.text param) ds)
    (hbindings : Takes inside (many (.memo none (binding inner))) ds (.list (bs.map .binding)) es)
    (hbody : Takes inside sum es (.expr body) k) :
    Takes inside function cs (.expr (.fn param bs body)) k := by
  have htakes :
      Takes inside function cs (.expr (.fn param (bindingsOf (bs.map .binding)) body)) k :=
    ((hheader.seq hbindings).seq ((takes_inner hbody).required _)).map makeFunction
  rwa [bindingsOf_map] at htakes

theorem takes_solid_function (h : Takes inside function ('(' :: cs) v ds) :
    Takes inside solid ('(' :: cs) v ds := by
  have hnumber : Declines inside number ('(' :: cs) := declines_number (.cons (by decide) cs)
  exact ((Takes.alt_second hnumber h).alt_first _).alt_first _

/-- The blanks behind the arrow are skipped with it. -/
theorem takes_header {param : String} (hparam : IsName param.toList) (cs : List Char) :
    Takes inside header ('(' :: (param.toList ++ (") -> ".toList ++ cs))) (.text param)
      (trimmed cs) := by
  have hopening : Takes inside (.literal "(") ('(' :: (param.toList ++ (") -> ".toList ++ cs)))
      (.text "(") (param.toList ++ (") -> ".toList ++ cs)) := takes_literal "(" _
  have hname : Takes inside name (param.toList ++ (") -> ".toList ++ cs)) (.text param)
      (") -> ".toList ++ cs) := takes_name hparam (.cons (by decide) _)
  have hclosing : Takes inside (.literal ")") (") -> ".toList ++ cs) (.text ")")
      (" -> ".toList ++ cs) := takes_literal ")" _
  have harrow : Takes inside (spaced (.literal "->")) (" -> ".toList ++ cs) (.text "->")
      (trimmed (' ' :: cs)) := .padded (takes_literal "->" _)
  exact ((hopening.right hname).left hclosing).left harrow

/-- A function is read as its bindings and its body are, right behind the space after the arrow. -/
theorem takes_function {param : String} {bs : List Binding} {body : Expr}
    (hparam : IsName param.toList) (hcs : CharClass.spaces.Stops cs)
    (hbindings : Takes inside (many (.memo none (binding inner))) cs (.list (bs.map .binding)) ds)
    (hbody : Takes inside sum ds (.expr body) k) :
    Takes inside function ('(' :: (param.toList ++ (") -> ".toList ++ cs)))
      (.expr (.fn param bs body)) k := by
  have hheader := takes_header hparam cs
  rw [trimmed_eq hcs] at hheader
  exact takes_function_of hheader hbindings hbody

/-- A function is an atom, but its body takes all that goes on with an expression. -/
theorem ReadAt.fn {param : String} {bs : List Binding} {body : Expr} (hparam : IsName param.toList)
    (hwritten : Binding.AllWritten bs t) (hbs : AllReadAt bs t) (hbody : ReadAt 4 body u)
    (hopens : Opens r u) (hhead : bs ≠ [] → u.head? ≠ some '(') :
    ReadAt 4 (.fn param bs body) ('(' :: (param.toList ++ (") -> ".toList ++ (t ++ u)))) := by
  intro blank k hblank hk hreach
  simp only [List.append_assoc, List.cons_append]
  have hfunction := takes_function hparam (hwritten.stops (hopens.stops k))
    (takes_bindings hwritten hbs hopens hhead hk) (hbody [] k (List.forall_mem_nil _) hk hreach)
  have hatom := takes_atom hblank (.cons (by decide) _) (takes_solid_function hfunction)
  -- the blanks after the body have been skipped with it
  rw [trimmed_trimmed] at hatom
  exact Reached.mono (r := 0) hatom (Nat.zero_le 4) (Nat.le_refl 4) (stops_trimmed k) hreach

end

/-! ## Expressions

The two theorems follow the texts that are written for a tree. Each way of writing it has its lemma
above. -/

mutual

/-- Every text of a legible expression is read as that expression. Induction on the text, with that
of the bindings in it. -/
theorem Expr.Written.readAt : {e : Expr} → {t : List Char} → e.Written t → e.Legible →
    ReadAt e.rank e t
  | _, _, .real hx, _ => readAt_real hx
  | _, _, .ref _, hname => readAt_ref hname
  | _, _, .call hcallee hargument, ⟨hlegible, hlegible'⟩ =>
    .call ((hcallee.readAt hlegible).enclosed (hcallee.opens hlegible) (by decide))
      (hargument.readAt hlegible').whole (hargument.opens hlegible')
  | _, _, .bin op hlhs hrhs, ⟨hlegible, hlegible'⟩ =>
    have hrank : op.rank ≤ 4 := by rcases op.rank_cases with h | h <;> omega
    .bin op ((hlhs.readAt hlegible).enclosed (hlhs.opens hlegible) hrank)
      ((hrhs.readAt hlegible').enclosed (hrhs.opens hlegible') (by omega))
  | _, _, .fn _ hbindings hbody, ⟨hparam, hlegible, hlegible', hhead⟩ =>
    .fn hparam hbindings (hbindings.allReadAt hlegible) (hbody.readAt hlegible').whole
      (hbody.opens hlegible') fun hne => hhead hne _ hbody

/-- Every text of legible bindings is read as those bindings. -/
theorem Binding.AllWritten.allReadAt : {bs : List Binding} → {t : List Char} →
    Binding.AllWritten bs t → Binding.AllLegible bs → AllReadAt bs t
  | _, _, .nil, _ => allReadAt_nil
  | _, _, .cons _ hvalue hbindings, ⟨hname, hlegible, hlegible'⟩ =>
    .cons hname (hvalue.readAt hlegible).whole hbindings (hbindings.allReadAt hlegible')

end

/-! ## Modules

A module is its declarations, one on each line, and the lines are read one after the other. -/

/-- Declarations up to where the keyword does not stand ahead are a module. -/
theorem Steps.takes_program {cs ds : List Char} {bs : List Binding}
    (h : Steps [] (spaced (binding expression)) cs (bs.map .binding) ds) (hne : bs ≠ [])
    (hend : ¬"let ".toList <+: trimmed ds) : Takes [] program cs (.program ⟨bs⟩) ds := by
  have hdeclines : Declines [] (spaced (binding expression)) ds := .padded (declines_binding hend)
  have htakes : Takes [] program cs (.program ⟨bindingsOf (bs.map .binding)⟩) ds :=
    (h.takes_rep hdeclines (by simpa using hne)).map makeModule
  rwa [bindingsOf_map] at htakes

/-- Every text of a legible module that declares something is read as the module, before anything
that goes on with neither a declaration nor a value. -/
theorem Module.Written.takes_before {m : Module} {text k : List Char} (h : m.Written text)
    (hlegible : m.Legible) (hne : m.declarations ≠ []) (hstops : CharClass.spaces.Stops k)
    (hreach : reach k = 4) (hend : ¬"let ".toList <+: k) :
    Takes [] program (text ++ k) (.program m) k :=
  Steps.takes_program (h.allReadAt hlegible _ _ binds_spaced k hstops hreach) hne
    (by rwa [trimmed_eq hstops])

/-- Every text of a legible module that declares something is read to its end, as the module. -/
theorem Module.Written.takes_program {m : Module} {text : List Char} (h : m.Written text)
    (hlegible : m.Legible) (hne : m.declarations ≠ []) :
    Takes [] program text (.program m) [] := by
  have htakes := h.takes_before hlegible hne (k := []) nofun rfl (by decide)
  rwa [List.append_nil] at htakes

/-- **Reading undoes writing.** A legible module that declares something has a text, and whatever
text of it is read, under whatever name and in whatever workspace, it is read as that module. -/
theorem Module.Legible.readModule_written {m : Module} (hlegible : m.Legible)
    (hne : m.declarations ≠ []) :
    (∃ text : String, m.Written text.toList) ∧
      ∀ (w : Workspace) (name text : String), m.Written text.toList →
        (w.readModule name text).1 = .ok (.ok m) := by
  constructor
  · obtain ⟨text, htext⟩ := Binding.AllLegible.exists_written hlegible
    refine ⟨String.ofList text, ?_⟩
    rwa [String.toList_ofList]
  · intro w name text htext
    obtain ⟨w', hread, _⟩ := w.readModule_of_takes (htext.takes_program hlegible hne) name
    rw [hread]
    rfl

/-- A function with a binding of its own that is named like the keyword. -/
def Module.shifted : Module :=
  ⟨[.mk "f" (.fn "x"
    [.mk "let" (.bin .multiply (.ref "x") (.bin .add (.ref "x") (.real (Binary64.ofRatio 2 1))))]
    (.call (.ref "let") (.ref "x")))]⟩

theorem Module.shifted_legible : Module.shifted.Legible := by
  have hkeyword : IsName "let".toList := by decide
  have hx : IsName "x".toList := by decide
  have hliteral : Binary64.ofLiteral? ['2'] [] = some (Binary64.ofRatio 2 1) := rfl
  have hhead : ∀ text, (Expr.call (.ref "let") (.ref "x")).Written text →
      text.head? ≠ some '(' := by
    rintro _ (_ | _ | ⟨⟨⟩, _⟩)
    exact nofun
  exact ⟨by decide, ⟨hx, ⟨hkeyword, ⟨hx, hx, _, _, hliteral⟩, trivial⟩, ⟨hkeyword, hx⟩,
    fun _ => hhead⟩, trivial⟩

theorem Module.shifted_written :
    Module.shifted.Written "let f = (x) -> let let = x*(x+2)\nlet(x)\n".toList := by
  have hliteral : Binary64.ofLiteral? ['2'] [] = some (Binary64.ofRatio 2 1) := rfl
  have hvalue := Expr.Written.bin .multiply (.ref "x") (.bin .add (.ref "x") (.real hliteral))
  exact .cons "f" (.fn "x" (.cons "let" hvalue .nil) (.call (.ref "let") (.ref "x"))) .nil

/-- The keyword, a name that is spelled like it, a group and a literal, in one text. -/
theorem Module.readModule_shifted :
    Module.shifted.Legible
      ∧ Module.shifted.Written "let f = (x) -> let let = x*(x+2)\nlet(x)\n".toList
      ∧ (Workspace.empty.readModule "shifted" "let f = (x) -> let let = x*(x+2)\nlet(x)\n").1
        = .ok (.ok Module.shifted) := by
  refine ⟨Module.shifted_legible, Module.shifted_written, ?_⟩
  exact (Module.shifted_legible.readModule_written (by decide)).2 _ _ _ Module.shifted_written

end Packrat
