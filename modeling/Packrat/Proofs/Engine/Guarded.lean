import Packrat.Proofs.Engine.Use
import Packrat.Proofs.Engine.Verdicts

/-!
# What is come to with the guard

A goal that loops yields nothing, but a run of it with the guard has an outcome like any other: the
report of the loop, which is a hard failure at the place of the loop. Counting this in, there is a
verdict for every parse.

* **`Goal.Comes`** — the verdict of a goal when loops are reported. There is one at most
  (`Goal.comes_unique`), it is the outcome of every run with the guard (`Settles.comes`), and every
  grammar in use has one at every cursor (`Workspace.InUse.exists_comes`).
* **`Aborts`** — the blueprint comes to a verdict that is neither a match nor the lack of one: a
  hard failure, the report of a loop or a stalled repetition. Nothing goes on after it, so whatever
  comes to it on its way comes to it as a whole. One rule for each way of being on the way.
-/

namespace Packrat

/-! ## Verdicts with the guard

The guard turns a loop into a hard failure at the place of the loop. The report goes up like any
failure, through everything that has asked for the loop. -/

/-- Following the course ends in the verdict: what is yielded, or the report of a loop. -/
def Course.Comes (k : Course) (v : Verdict) : Prop :=
  k.Yields v
    ∨ ∃ m rest, k.Asks m ∧ m.Loops rest ∧ v = .failed Refusal.leftRecursion.message rest

/-- The verdict of a goal, counting reports of loops in. -/
def Goal.Comes (n : Goal) (v : Verdict) : Prop :=
  n.course.Comes v

section

variable {n : Goal} {next : Verdict → Course} {k : Course} {u v v' : Verdict}

/-- What is yielded is come to. -/
theorem Course.Yields.comes (h : k.Yields v) : k.Comes v :=
  Or.inl h

/-- What has been reported of a goal is reported of all that asks for it. -/
theorem Goal.Comes.yields_or_loops (h : n.Comes v) :
    n.Yields v ∨ ∃ rest, n.Loops rest ∧ v = .failed Refusal.leftRecursion.message rest := by
  rcases h with hv | ⟨m, rest, hm, hloops, hv⟩
  · exact Or.inl hv
  · exact Or.inr ⟨rest, hloops.of_asks hm, hv⟩

/-- **There is one verdict at most.** A goal that yields does not loop, and one that loops does so
at one place. -/
theorem Goal.comes_unique (h : n.Comes v) (h' : n.Comes v') : v = v' := by
  rcases h.yields_or_loops with hv | ⟨rest, hloops, rfl⟩
  · rcases h'.yields_or_loops with hv' | ⟨rest', hloops', rfl⟩
    · exact Goal.yields_unique hv hv'
    · exact absurd ⟨v, hv⟩ hloops'.not_yields
  · rcases h'.yields_or_loops with hv' | ⟨rest', hloops', rfl⟩
    · exact absurd ⟨v', hv'⟩ hloops.not_yields
    · rw [hloops.rest_unique hloops']

/-- A loop lies in the text of the goal, like any verdict. -/
theorem Goal.Comes.within (h : n.Comes v) : v.Within n.rest := by
  rcases h.yields_or_loops with hv | ⟨rest, hloops, rfl⟩
  · exact Goal.Yields.within hv
  · exact hloops.rest_suffix

/-- A match is no report of a loop. -/
theorem Goal.Comes.yields_matched {value : Value} {rest : List Char}
    (h : n.Comes (.matched value rest)) : n.Yields (.matched value rest) := by
  rcases h.yields_or_loops with hv | ⟨_, _, heq⟩
  · exact hv
  · cases heq

/-- The lack of a match is no report of a loop. -/
theorem Goal.Comes.yields_noMatch (h : n.Comes .noMatch) : n.Yields .noMatch := by
  rcases h.yields_or_loops with hv | ⟨_, _, heq⟩
  · exact hv
  · cases heq

/-- Going on after a verdict that was yielded. -/
theorem Course.Comes.later (hn : n.Yields u) (h : (next u).Comes v) :
    (Course.ask n next).Comes v := by
  rcases h with hv | ⟨m, rest, hm, hloops, hv⟩
  · exact Or.inl (.ask hn hv)
  · exact Or.inr ⟨m, rest, .later hn hm, hloops, hv⟩

/-- Ending with a verdict that the course lets stand. -/
theorem Goal.Comes.ask (hn : n.Comes u) (hnext : next u = .done u) :
    (Course.ask n next).Comes u := by
  rcases hn with hu | ⟨m, rest, hm, hloops, hu⟩
  · refine .later hu ?_
    rw [hnext]
    exact Or.inl (.done u)
  · exact Or.inr ⟨n, rest, .now, hloops.of_asks hm, hu⟩

end

/-! ## Runs with the guard

Without the guard a run could be out of depth. With it there is always enough, so a verdict is all
that a run can come to. -/

/-- A run with the guard never breaks off but for a loop. -/
theorem Settles.comes {depth : Nat} {s : Source} {w : Workspace} {k : Course}
    {x : Outcome × Workspace} (h : Settles ⟨true, depth⟩ s w k x) :
    ∃ v, k.Comes v ∧ x.1 = v.outcome s := by
  rcases h with ⟨v, hv, hx, _⟩ | hbreaks
  · exact ⟨v, hv.comes, hx⟩
  · cases hbreaks with
    | loop hm hloops _ => exact ⟨_, Or.inr ⟨_, _, hm, hloops, rfl⟩, rfl⟩

/-- **Every parse comes to the verdict of its blueprint**, whatever the workspace has been used for.
-/
theorem Workspace.InUse.exists_comes {pool : List (Blueprint × Grammar)} {known : List Source}
    {w : Workspace} {b : Blueprint} {g : Grammar} {c : Cursor} (h : InUse pool known w)
    (hg : (b, g) ∈ pool) (hc : c.Valid) (hs : c.source ∈ known) :
    ∃ v, (Goal.parse [] b.plain c.rest).Comes v ∧ (w.parse g c).1 = v.outcome c.source :=
  (h.settles_parse hg hc hs).comes

/-! ## Breaking off

Matches and the lack of them have rules of their own, where they may go on. What aborts goes on
nowhere, so here the rules are all alike: the verdict of a part becomes that of the whole. -/

/-- Neither a match nor the lack of one. -/
def Verdict.Aborts : Verdict → Prop
  | .matched _ _ => False
  | .noMatch => False
  | .failed _ _ => True
  | .stalled _ => True

/-- The blueprint comes to a verdict that nothing goes on after. -/
def Aborts (Γ : Context) (p : Blueprint) (cs : List Char) (u : Verdict) : Prop :=
  (Goal.parse Γ p cs).Comes u ∧ u.Aborts

section

variable {Γ : Context} {p a b operand : Blueprint} {ops : List Operator} {op : Operator}
  {cs ds es : List Char} {v lhs : Value} {u : Verdict}

/-- What waits for a match lets a verdict stand that aborts. -/
theorem Goal.Comes.onMatch {n : Goal} (hn : n.Comes u) (hu : u.Aborts)
    (next : Value → List Char → Course) : (Course.onMatch n next).Comes u := by
  refine hn.ask ?_
  cases u with
  | matched v rest => exact hu.elim
  | noMatch => exact hu.elim
  | failed message rest => rfl
  | stalled rest => rfl

/-- So does what waits for the lack of a match. -/
theorem Goal.Comes.onNoMatch {n : Goal} (hn : n.Comes u) (hu : u.Aborts) (next : Course) :
    (Course.onNoMatch n next).Comes u := by
  refine hn.ask ?_
  cases u with
  | matched v rest => exact hu.elim
  | noMatch => exact hu.elim
  | failed message rest => rfl
  | stalled rest => rfl

theorem Aborts.map (h : Aborts Γ p cs u) (f : Value → Value) : Aborts Γ (.map f p) cs u :=
  ⟨h.1.onMatch h.2 _, h.2⟩

/-- A sequence aborts with its first part. -/
theorem Aborts.seq (h : Aborts Γ a cs u) (b : Blueprint) : Aborts Γ (.seq a b) cs u :=
  ⟨h.1.onMatch h.2 _, h.2⟩

/-- Behind a match of its first part, a sequence aborts with its second part. -/
theorem Takes.aborts_seq (ha : Takes Γ a cs v ds) (hb : Aborts Γ b ds u) :
    Aborts Γ (.seq a b) cs u :=
  ⟨.later ha (hb.1.onMatch hb.2 _), hb.2⟩

theorem Aborts.left (h : Aborts Γ a cs u) (b : Blueprint) : Aborts Γ (.left a b) cs u :=
  (h.seq b).map Value.first

theorem Takes.aborts_right (ha : Takes Γ a cs v ds) (hb : Aborts Γ b ds u) :
    Aborts Γ (.right a b) cs u :=
  (ha.aborts_seq hb).map Value.second

/-- A choice aborts with its first alternative. -/
theorem Aborts.alt_first (h : Aborts Γ a cs u) (b : Blueprint) : Aborts Γ (.alt a b) cs u :=
  ⟨h.1.onNoMatch h.2 _, h.2⟩

/-- Where the first alternative declines, the second one has the last word. -/
theorem Declines.comes_alt (ha : Declines Γ a cs) (hb : (Goal.parse Γ b cs).Comes u) :
    (Goal.parse Γ (.alt a b) cs).Comes u :=
  .later ha (hb.ask rfl)

theorem Aborts.alt_second (hb : Aborts Γ b cs u) (ha : Declines Γ a cs) :
    Aborts Γ (.alt a b) cs u :=
  ⟨ha.comes_alt hb.1, hb.2⟩

theorem Aborts.memo (h : Aborts Γ p cs u) (name : Option String) : Aborts Γ (.memo name p) cs u :=
  ⟨h.1.ask rfl, h.2⟩

/-- A rule aborts with its body. -/
theorem Aborts.rule {label : RuleLabel} (h : Aborts ((label.name, p) :: Γ) p cs u) :
    Aborts Γ (.rule label p) cs u :=
  ⟨h.1.ask rfl, h.2⟩

/-- A name comes to what the body of its rule comes to inside the rules around that one. -/
theorem Goal.Comes.self {name : String} {outer : Context} (hfind : Γ.find? name = some (p, outer))
    (h : (Goal.body name p outer cs).Comes u) : (Goal.parse Γ (.self name) cs).Comes u := by
  unfold Goal.Comes
  rw [Goal.course, hfind]
  exact h.ask rfl

theorem Aborts.self {name : String} {outer : Context} (hfind : Γ.find? name = some (p, outer))
    (h : Aborts ((name, p) :: outer) p cs u) : Aborts Γ (.self name) cs u :=
  ⟨h.1.self hfind, h.2⟩

/-- A level aborts with its chain. -/
theorem Aborts.level {assoc : Assoc} {ops : List Operator} (cached : Bool)
    (h : Aborts Γ (assoc.chain p (Operator.longestFirst ops)) cs u) :
    Aborts Γ (.level assoc ops cached p) cs u :=
  ⟨h.1.ask rfl, h.2⟩

/-- What is required may fail for reasons of its own. -/
theorem Aborts.required (h : Aborts Γ p cs u) (message : String) :
    Aborts Γ (.required message p) cs u := by
  refine ⟨h.1.ask ?_, h.2⟩
  cases u with
  | matched v rest => exact h.2.elim
  | noMatch => exact h.2.elim
  | failed message rest => rfl
  | stalled rest => rfl

/-- A requirement that is not met is a hard failure at its place. -/
theorem Declines.aborts_required (h : Declines Γ p cs) (message : String) :
    Aborts Γ (.required message p) cs (.failed message cs) :=
  ⟨.later h (Or.inl (.done _)), trivial⟩

/-- Skipping never aborts, so padding has no part in it. -/
theorem Aborts.padded {cls : CharClass} (h : Aborts Γ p (cls.afterRun cs) u) :
    Aborts Γ (.padded cls p) cs u := by
  obtain ⟨_, hbefore⟩ := takes_skip Γ cls cs
  exact hbefore.aborts_right (h.left _)

/-- What the round after the steps comes to, the repetition comes to. -/
theorem Steps.comes_again {vs : List Value} (h : Steps Γ p cs vs ds)
    (hu : (Goal.again Γ p vs.reverse ds).Comes u) : (Goal.again Γ p [] cs).Comes u := by
  induction h with
  | none => exact hu
  | more _ hv hmoved ih =>
    refine ih (.later hv ?_)
    simp only [if_neg hmoved]
    rw [List.reverse_append] at hu
    exact Goal.Comes.ask hu rfl

/-- A repetition aborts with a round of it, and what has been collected is lost. -/
theorem Steps.aborts_rep {vs : List Value} (h : Steps Γ p cs vs ds) (hu : Aborts Γ p ds u) :
    Aborts Γ (.rep p) cs u := by
  refine ⟨(h.comes_again (hu.1.ask ?_)).ask rfl, hu.2⟩
  cases u with
  | matched v rest => exact hu.2.elim
  | noMatch => exact hu.2.elim
  | failed message rest => rfl
  | stalled rest => rfl

/-- What the operand comes to behind the first operator that it does not decline behind, a chain
comes to, if that aborts. -/
theorem Chained.aborts_chain (h : Chained Γ operand ops cs lhs ds) {index : Nat}
    (hop : (Operator.longestFirst ops)[index]? = some op) (hds : ds = op.token.toList ++ es)
    (hbefore : ∀ (i : Nat) other, i < index → (Operator.longestFirst ops)[i]? = some other →
      ∀ es, ds = other.token.toList ++ es → Declines Γ operand es)
    (hu : Aborts Γ operand es u) :
    Aborts Γ (Assoc.left.chain operand (Operator.longestFirst ops)) cs u := by
  obtain ⟨first, middle, vs, hfirst, hsteps, _⟩ := h
  have hlink : Aborts Γ (Assoc.left.link operand index op.token) ds u := by
    rw [hds]
    exact ((takes_literal op.token es).aborts_right hu).map _
  have hstep : Aborts Γ (Operator.steps (Operator.longestFirst ops) operand) ds u :=
    steps_induction (R := fun p => Aborts Γ p ds u) (fun _ b h => h.alt_first b)
      (fun _ _ ha hb => hb.alt_second ha) hop hbefore hlink
  exact ((hfirst.aborts_seq (hsteps.aborts_rep hstep)).map _).alt_first _

end

end Packrat
