import Packrat.Proofs.Level.LeftAssociative

/-!
# What a right-associative level comes to

A right-associative level collects operands that an operator stands behind, each together with that
operator, and then wants one operand more. Each of the pairs is a choice among operators that have
been sorted by length, every one of which reads the operand anew; and if the last operand is
missing, all that has been collected is given up for a single operand at the beginning.

* **`Operator.ahead?`** — the operator at a cursor: of those with the longest token that stands
  there, the first one given. Whether an operand follows makes no difference to it.
* **`Operator.RightLevel`** — the reference: what the level comes to at a cursor, given what the
  operand comes to at each. Pairs are collected as long as there are any (`Operator.Collects`), and
  are combined from the right with the operand that is behind them.
* **`Tells.gathers`** — the steps of the level collect the pairs that the reference does.
* **`Workspace.parse_right_level`** — a parse with a level, cached or not, comes to what the
  reference says. If it breaks a contract, the operand does: the repetition in the level is never
  the one that is stalled.
-/

namespace Packrat

/-! ## The reference

Here, too, the reference is stated over a function that says what the operand comes to at each
cursor. The operands that are collected depend on which operators stand behind them, and not on what
comes after those. -/

namespace Operator

/-- The operator that stands at the cursor: the first one given of those with the longest token. -/
def ahead? (ops : List Operator) (c : Cursor) : Option Operator :=
  foremost? (fun op => c.startsWith op.token.toList) ops

/-- The operands from a cursor on that an operator stands behind, with those operators, and the
cursor behind the last of them. -/
inductive Collects (ops : List Operator) (operand : Cursor → Outcome) :
    Cursor → List (Value × Operator) → Cursor → Prop where
  | stop {c : Cursor} (h : ∀ v d, operand c = .matched v d → ahead? ops d = none) :
      Collects ops operand c [] c
  | more {c d e : Cursor} {v : Value} {op : Operator} {pairs : List (Value × Operator)}
      (hv : operand c = .matched v d) (hop : ahead? ops d = some op)
      (h : Collects ops operand (d.past op.token) pairs e) :
      Collects ops operand c ((v, op) :: pairs) e

/-- Combine the operands that have been collected with a last one, from the right. -/
def group (pairs : List (Value × Operator)) (last : Value) : Value :=
  pairs.foldr (fun pair rhs => pair.2.reduce pair.1 rhs) last

/-- What becomes of the operands that have been collected: without a last one, there is but what
the single operand comes to; a hard failure of the last one, or a fault, stands. -/
def conclude (pairs : List (Value × Operator)) (single : Outcome) : Outcome → Outcome
  | .matched last next => .matched (group pairs last) next
  | .noMatch => single
  | o => o

/-- What a right-associative level comes to. -/
def RightLevel (ops : List Operator) (operand : Cursor → Outcome) (c : Cursor) (o : Outcome) :
    Prop :=
  ∃ pairs d, Collects ops operand c pairs d ∧ o = conclude pairs (operand c) (operand d)

variable {ops : List Operator} {operand : Cursor → Outcome} {c d d' : Cursor} {o o' : Outcome}
  {pairs pairs' : List (Value × Operator)}

/-- What is collected from a cursor on, and where that ends, is determined. -/
theorem Collects.unique (h : Collects ops operand c pairs d)
    (h' : Collects ops operand c pairs' d') : pairs = pairs' ∧ d = d' := by
  induction h generalizing pairs' with
  | stop hstop =>
    cases h' with
    | stop _ => exact ⟨rfl, rfl⟩
    | more hv hop _ => cases (hstop _ _ hv).symm.trans hop
  | more hv hop _ ih =>
    cases h' with
    | stop hstop => cases (hstop _ _ hv).symm.trans hop
    | more hv' hop' h' =>
      cases hv.symm.trans hv'
      cases hop.symm.trans hop'
      obtain ⟨rfl, rfl⟩ := ih h'
      exact ⟨rfl, rfl⟩

theorem RightLevel.unique (h : RightLevel ops operand c o) (h' : RightLevel ops operand c o') :
    o = o' := by
  obtain ⟨pairs, d, hpairs, rfl⟩ := h
  obtain ⟨pairs', d', hpairs', rfl⟩ := h'
  obtain ⟨rfl, rfl⟩ := hpairs.unique hpairs'
  rfl

/-- The operator ahead has a number among the sorted ones, and its token stands at the cursor; the
tokens of those before it do not. -/
theorem exists_index_of_ahead? {op : Operator} (h : ahead? ops c = some op) :
    ∃ index : Nat, (longestFirst ops)[index]? = some op ∧ op.token.toList <+: c.rest
      ∧ ∀ (i : Nat) other, i < index → (longestFirst ops)[i]? = some other →
        ¬other.token.toList <+: c.rest := by
  obtain ⟨index, hindex, hstarts, hothers⟩ := exists_index_of_foremost? h
  refine ⟨index, hindex, List.isPrefixOf_iff_prefix.1 hstarts, fun i other hi hother hbegins => ?_⟩
  exact Bool.false_ne_true
    ((hothers i other hi hother).symm.trans (List.isPrefixOf_iff_prefix.2 hbegins))

/-- If no operator is ahead, no token stands at the cursor. -/
theorem not_prefix_of_ahead? (h : ahead? ops c = none) :
    ∀ op ∈ ops, ¬op.token.toList <+: c.rest := by
  intro op hop hbegins
  exact Bool.false_ne_true
    ((not_qualifies_of_foremost? h op hop).symm.trans (List.isPrefixOf_iff_prefix.2 hbegins))

/-! ## Steps

A step reads the operand anew for each operator that is tried. All these readings come to the same,
so a step is taken just where the reference collects a pair. -/

/-- The steps of a right-associative level: an operand and the operator after it. -/
def openings (ops : List Operator) (operand : Blueprint) : Blueprint :=
  .firstOf (ops.zipIdx.map fun (op, index) => Assoc.right.link operand index op.token)

/-- The fold of the level combines the first operand with what comes of the others. -/
theorem foldRight_cons {index : Nat} {op : Operator} (hop : ops[index]? = some op)
    (lhs last : Value) (vs : List Value) :
    foldRight ops (.pair (.list (.pair (.number index) lhs :: vs)) last)
      = op.reduce lhs (foldRight ops (.pair (.list vs) last)) := by
  simp only [foldRight, List.foldr_cons, apply, hop]

end Operator

/-- The steps that a level has taken collect the pairs, up to the rest of the text. -/
def Gathered (Γ : Context) (operand : Blueprint) (ops : List Operator) (cs : List Char)
    (pairs : List (Value × Operator)) (ds : List Char) : Prop :=
  ∃ vs, Steps Γ (Operator.openings (Operator.longestFirst ops) operand) cs vs ds
    ∧ ∀ last, Operator.foldRight (Operator.longestFirst ops) (.pair (.list vs) last)
      = Operator.group pairs last

section

variable {Γ : Context} {operand : Blueprint} {ops : List Operator} {op : Operator} {s : Source}
  {f : Cursor → Outcome} {cs ds es : List Char} {v : Value} {u : Verdict}
  {pairs : List (Value × Operator)}

/-- No step is taken where every operator declines. -/
theorem declines_openings (h : ∀ op ∈ ops, Declines Γ (.left operand (.literal op.token)) ds) :
    Declines Γ (Operator.openings ops operand) ds :=
  declines_links .right fun op hop _ => (h op hop).map _

theorem Declines.openings (h : Declines Γ operand ds) (ops : List Operator) :
    Declines Γ (Operator.openings ops operand) ds :=
  declines_openings fun _ _ => h.left _

theorem Takes.declines_openings (h : Takes Γ operand ds v es)
    (hstop : ∀ op ∈ ops, ¬op.token.toList <+: es) :
    Declines Γ (Operator.openings ops operand) ds :=
  Packrat.declines_openings fun op hop => h.declines_left (declines_literal (hstop op hop))

/-- Where the operand aborts, so do the steps, unless there are no operators. -/
theorem Aborts.openings (h : Aborts Γ operand ds u) (ops : List Operator) :
    Declines Γ (Operator.openings ops operand) ds
      ∨ Aborts Γ (Operator.openings ops operand) ds u := by
  cases ops with
  | nil => exact Or.inl (declines_never Γ ds)
  | cons op ops => exact Or.inr ((((h.seq _).map _).map _).alt_first _)

/-- A step is taken with the first operator that stands behind the operand. -/
theorem Takes.openings {index : Nat} (h : Takes Γ operand cs v (op.token.toList ++ es))
    (hop : ops[index]? = some op)
    (hbefore : ∀ (i : Nat) other, i < index → ops[i]? = some other →
      ¬other.token.toList <+: op.token.toList ++ es) :
    Takes Γ (Operator.openings ops operand) cs (.pair (.number index) v) es := by
  have hlink : Takes Γ (Assoc.right.link operand index op.token) cs (.pair (.number index) v) es :=
    (h.left (takes_literal op.token es)).map _
  refine links_induction (R := fun p => Takes Γ p cs _ es) .right (fun _ b h => h.alt_first b)
    (fun _ _ ha hb => .alt_second ha hb) hop (fun i other hi hother => ?_) hlink
  exact (h.declines_left (declines_literal (hbefore i other hi hother))).map _

/-! ## What has been gathered

The steps carry the numbers of their operators, the pairs the operators themselves. `Gathered` says
that folding the one comes to the same as grouping the other, whatever the last operand is. -/

/-- Where no step is taken, nothing is collected. -/
theorem gathered_nil (Γ : Context) (operand : Blueprint) (ops : List Operator) (cs : List Char) :
    Gathered Γ operand ops cs [] cs :=
  ⟨[], .none, fun _ => rfl⟩

/-- A pair before the others. -/
theorem Gathered.cons {index : Nat} (h : Gathered Γ operand ops es pairs ds)
    (hop : (Operator.longestFirst ops)[index]? = some op) (hmoved : es ≠ cs)
    (hv : Takes Γ (Operator.openings (Operator.longestFirst ops) operand) cs
      (.pair (.number index) v) es) : Gathered Γ operand ops cs ((v, op) :: pairs) ds := by
  obtain ⟨vs, hsteps, hgroup⟩ := h
  refine ⟨_ :: vs, hsteps.cons hv hmoved, fun last => ?_⟩
  rw [Operator.foldRight_cons hop, hgroup]
  rfl

/-- With a last operand that no operator stands behind, the chain ends. -/
theorem Gathered.takes_chain (h : Gathered Γ operand ops cs pairs ds) (hv : Takes Γ operand ds v es)
    (hstop : ∀ op ∈ ops, ¬op.token.toList <+: es) :
    Takes Γ (Assoc.right.chain operand (Operator.longestFirst ops)) cs
      (Operator.group pairs v) es := by
  obtain ⟨vs, hsteps, hgroup⟩ := h
  have hdeclines : Declines Γ (Operator.openings (Operator.longestFirst ops) operand) ds :=
    hv.declines_openings fun op hop => hstop op (Operator.mem_longestFirst.1 hop)
  rw [← hgroup]
  by_cases hne : vs = []
  · -- nothing has been collected: the chain declines and the operand is read by itself
    subst hne
    obtain rfl : ds = cs := hsteps.rest_eq
    exact .alt_second ((hdeclines.rep.seq _).map _) hv
  · exact (((hsteps.takes_rep hdeclines hne).seq hv).map _).alt_first _

/-- Without a last operand, all is given up for the single operand. -/
theorem Gathered.comes_single (h : Gathered Γ operand ops cs pairs ds)
    (hnone : Declines Γ operand ds) (hu : (Goal.parse Γ operand cs).Comes u) :
    (Goal.parse Γ (Assoc.right.chain operand (Operator.longestFirst ops)) cs).Comes u := by
  obtain ⟨vs, hsteps, _⟩ := h
  have hdeclines := hnone.openings (Operator.longestFirst ops)
  refine Declines.comes_alt (.map ?_ _) hu
  by_cases hne : vs = []
  · subst hne
    obtain rfl : ds = cs := hsteps.rest_eq
    exact hdeclines.rep.seq _
  · exact (hsteps.takes_rep hdeclines hne).declines_seq hnone

/-- What the operand aborts with behind the pairs, the chain aborts with. -/
theorem Gathered.aborts_chain (h : Gathered Γ operand ops cs pairs ds)
    (hu : Aborts Γ operand ds u) :
    Aborts Γ (Assoc.right.chain operand (Operator.longestFirst ops)) cs u := by
  obtain ⟨vs, hsteps, _⟩ := h
  rcases hu.openings (Operator.longestFirst ops) with hdeclines | haborts
  · -- there are no operators
    by_cases hne : vs = []
    · subst hne
      obtain rfl : ds = cs := hsteps.rest_eq
      exact hu.alt_second ((hdeclines.rep.seq _).map _)
    · exact (((hsteps.takes_rep hdeclines hne).aborts_seq hu).map _).alt_first _
  · exact (((hsteps.aborts_rep haborts).seq _).map _).alt_first _

/-- **The steps of a level collect the pairs that the reference does.** Induction on the length of
the text ahead: no token is empty, so each pair moves on. -/
theorem Tells.gathers (htokens : ∀ op ∈ ops, op.token.toList ≠ []) (hf : Tells Γ operand s f)
    (hcs : cs <:+ s.text) :
    ∃ pairs ds, ds <:+ s.text ∧ Operator.Collects ops f (s.before cs) pairs (s.before ds)
      ∧ Gathered Γ operand ops cs pairs ds
      ∧ ∀ v es, Takes Γ operand ds v es → ∀ op ∈ ops, ¬op.token.toList <+: es := by
  induction hlen : cs.length using Nat.strong_induction_on generalizing cs with
  | _ n ih =>
    obtain ⟨u, hu, htold⟩ := hf cs hcs
    -- nothing more is collected where the operand does not match, or no operator is behind it
    have hends (hstop : ∀ v d, f (s.before cs) = .matched v d → Operator.ahead? ops d = none)
        (hlast : ∀ v es, Takes Γ operand cs v es → ∀ op ∈ ops, ¬op.token.toList <+: es) :
        ∃ pairs ds, ds <:+ s.text ∧ Operator.Collects ops f (s.before cs) pairs (s.before ds)
          ∧ Gathered Γ operand ops cs pairs ds
          ∧ ∀ v es, Takes Γ operand ds v es → ∀ op ∈ ops, ¬op.token.toList <+: es :=
      ⟨[], cs, hcs, .stop hstop, gathered_nil Γ operand ops cs, hlast⟩
    by_cases hmatched : ∃ v ds, u = .matched v ds
    · obtain ⟨v, ds, rfl⟩ := hmatched
      have hv : Takes Γ operand cs v ds := hu.yields_matched
      cases hahead : Operator.ahead? ops (s.before ds) with
      | none =>
        refine hends (fun v' d hd => ?_) fun v' es hv' => ?_
        · cases htold.symm.trans hd
          exact hahead
        · cases Goal.yields_unique hv hv'
          exact Operator.not_prefix_of_ahead? hahead
      | some op =>
        obtain ⟨index, hop, ⟨es, rfl⟩, hbefore⟩ := Operator.exists_index_of_ahead? hahead
        have hshorter : es.length < cs.length := by
          have hle := hv.suffix.length_le
          have hpos := List.length_pos_of_ne_nil (Operator.token_ne_nil_of_getElem? htokens hop)
          rw [List.length_append] at hle
          omega
        have hinside := hv.suffix.trans hcs
        obtain ⟨pairs, ds, hds, hcollects, hgathered, hlast⟩ :=
          ih es.length (hlen ▸ hshorter) ((List.suffix_append _ _).trans hinside) rfl
        have hmoved : es ≠ cs := by
          rintro rfl
          exact Nat.lt_irrefl _ hshorter
        refine ⟨(v, op) :: pairs, ds, hds, .more htold hahead ?_,
          hgathered.cons hop hmoved (hv.openings hop hbefore), hlast⟩
        rwa [Source.past_before hinside]
    · refine hends (fun v d hd => ?_) fun v es hv => ?_
      · rw [htold] at hd
        cases u with
        | matched v ds => exact absurd ⟨v, ds, rfl⟩ hmatched
        | _ => cases hd
      · exact absurd ⟨v, es, Goal.comes_unique hu (Course.Yields.comes hv)⟩ hmatched

/-- **A level comes to what the reference says**, inside any rules. -/
theorem Tells.realizes_right (htokens : ∀ op ∈ ops, op.token.toList ≠ [])
    (hf : Tells Γ operand s f) (hcs : cs <:+ s.text) :
    (Goal.parse Γ (Assoc.right.chain operand (Operator.longestFirst ops)) cs).Realizes s f
      (Operator.RightLevel ops f (s.before cs)) := by
  obtain ⟨pairs, ds, hds, hcollects, hgathered, hstop⟩ := hf.gathers htokens hcs
  obtain ⟨u, hu, hlast⟩ := hf ds hds
  have hlevel : Operator.RightLevel ops f (s.before cs)
      (Operator.conclude pairs (f (s.before cs)) (u.outcome s)) :=
    ⟨pairs, s.before ds, hcollects, by rw [hlast]⟩
  cases u with
  | matched last es =>
    have htakes := hu.yields_matched
    exact ⟨_, (hgathered.takes_chain htakes (hstop last es htakes)).comes, hlevel, nofun⟩
  | noMatch =>
    obtain ⟨single, hsingle, hfirst⟩ := hf cs hcs
    refine ⟨single, hgathered.comes_single hu.yields_noMatch hsingle, hfirst ▸ hlevel,
      fun fault hfault => ⟨cs, hcs, hfirst.trans hfault⟩⟩
  | failed message rest =>
    exact ⟨_, (hgathered.aborts_chain ⟨hu, trivial⟩).1, hlevel, nofun⟩
  | stalled rest =>
    exact ⟨_, (hgathered.aborts_chain ⟨hu, trivial⟩).1, hlevel,
      fun fault hfault => ⟨ds, hds, hlast.trans hfault⟩⟩

end

/-! ## Parses -/

namespace Workspace

variable {pool : List (Blueprint × Grammar)} {known : List Source} {w : Workspace}
  {operand : Blueprint} {ops : List Operator} {cached : Bool} {g p : Grammar} {c : Cursor}

/-- **A right-associative level equals its reference**, with its operand cached or not, whatever the
operand does and wherever it is parsed; and where it breaks a contract, the operand does. -/
theorem parse_right_level (h : InUse pool known w)
    (hg : (.level .right ops cached operand, g) ∈ pool) (hp : (operand, p) ∈ pool) (hc : c.Valid)
    (hs : c.source ∈ known) :
    (∀ o, (w.parse g c).1 = o ↔ Operator.RightLevel ops (fun d => (w.parse p d).1) c o)
      ∧ ∀ fault, (w.parse g c).1 = .fault fault →
        ∃ d : Cursor, d.Valid ∧ d.source = c.source ∧ (w.parse p d).1 = .fault fault := by
  have htokens := Blueprint.token_ne_nil_of_closed (h.closed hg)
  obtain ⟨u, hu, hout⟩ := h.exists_comes hg hc hs
  have hrealizes := (h.tells hp hs).realizes_right htokens hc.rest_suffix
  rw [hc.eq_before] at hrealizes
  exact hrealizes.settles (fun _ _ => Operator.RightLevel.unique) hu hout

/-! ### Comparisons

Two operators over digits, of which one begins the other. -/

/-- One of the two tokens is the other one twice. -/
def equalOrSame : List Operator :=
  [⟨"=", .operation "equal"⟩, ⟨"==", .operation "same"⟩]

/-- The workspace in which digits, comparisons of them and a source are all that there is. -/
def withComparisons (text : String) : Workspace :=
  (((empty.newSource text).2.build (.chars .digits)).2.build
    (.level .right equalOrSame true (.chars .digits))).2

/-- The grammar that the comparisons are built as. -/
def comparisons : Grammar :=
  Assoc.right.level (.memo 0 (.chars .digits)) (Operator.longestFirst equalOrSame) [1, 2]

theorem inUse_withComparisons (text : String) :
    InUse [(.level .right equalOrSame true (.chars .digits), comparisons),
      (.chars .digits, .chars .digits)] [⟨0, text.toList⟩] (withComparisons text) :=
  .build (.build (.source (.start empty.holds_nil) text) rfl rfl) rfl rfl

theorem parse_comparisons :
    (∀ o, ((withComparisons "7==2=1").parse comparisons (Source.start ⟨0, "7==2=1".toList⟩)).1 = o
        ↔ Operator.RightLevel equalOrSame
          (fun d => ((withComparisons "7==2=1").parse (.chars .digits) d).1)
          (Source.start ⟨0, "7==2=1".toList⟩) o)
      ∧ ∀ fault, ((withComparisons "7==2=1").parse comparisons
          (Source.start ⟨0, "7==2=1".toList⟩)).1 = .fault fault →
        ∃ d : Cursor, d.Valid ∧ d.source = ⟨0, "7==2=1".toList⟩
          ∧ ((withComparisons "7==2=1").parse (.chars .digits) d).1 = .fault fault :=
  parse_right_level (inUse_withComparisons "7==2=1") List.mem_cons_self
    (List.mem_cons_of_mem _ List.mem_cons_self) (Cursor.valid_start _) List.mem_cons_self

example : ((withComparisons "7==2=1").parse comparisons (Source.start ⟨0, "7==2=1".toList⟩)).1
    = .matched (.operation "same" (.text "7") (.operation "equal" (.text "2") (.text "1")))
      ⟨⟨0, "7==2=1".toList⟩, 6, []⟩ := by
  cbv

end Workspace

end Packrat
