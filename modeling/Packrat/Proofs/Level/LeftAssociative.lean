import Mathlib.Data.List.MinMax
import Packrat.Proofs.Engine.Transparency

/-!
# What a left-associative level comes to

A left-associative level is put together from a sequence, a repetition, a choice among operators
that have been sorted by length, and a fallback to the bare operand; each of its steps carries the
number of its operator, by which the operands are folded afterwards. Here it is said in one go what
comes of all that: an operand, and then, as long as there is one, the next operator with the
operand behind it, combined from the left.

* **`Operator.foremost?`** — of the operators that qualify, the first one given among those with
  the longest token. The sorted list finds just that one (`Operator.find?_longestFirst`).
* **`Operator.LeftLevel`** — the reference: what the level comes to at a cursor, given what the
  operand comes to at each. The next operator is the foremost one whose token stands at the cursor
  and behind which the operand does not decline, so a longer token gives way to a shorter one that
  an operand follows. The chain is over where there is none; and a hard failure of the operand
  that is tried last stands.
* **`Chained.realizes`** — a chain read so far comes to what the reference says from there on.
* **`Workspace.parse_left_level`** — so does a parse with a level, cached or not. If it breaks a
  contract, the operand does: the repetition in the level is never the one that is stalled.
-/

namespace Packrat

/-! ## The order in which operators are tried

The sorted list of operators is searched from its beginning. What is found there can be said without
sorting: an operator of the greatest width, and of several the one that was given first. -/

namespace Operator

/-- Of the operators that qualify, the first one of those with the longest token. -/
def foremost? (qualifies : Operator → Bool) (ops : List Operator) : Option Operator :=
  (ops.filter qualifies).argmax width

theorem find?_longestFirst (qualifies : Operator → Bool) (ops : List Operator) :
    (longestFirst ops).find? qualifies = foremost? qualifies ops := by
  have htrans (x y z : Operator) (hxy : decide (y.width ≤ x.width) = true)
      (hyz : decide (z.width ≤ y.width) = true) : decide (z.width ≤ x.width) = true := by
    simp only [decide_eq_true_eq] at hxy hyz ⊢
    omega
  have htotal (x y : Operator) (hxy : decide (y.width ≤ x.width) = false) :
      decide (x.width ≤ y.width) = true := by
    simp only [decide_eq_false_iff_not, decide_eq_true_eq] at hxy ⊢
    omega
  induction ops with
  | nil => rfl
  | cons op ops ih =>
    have hinsert := find?_insertBefore htrans qualifies op (pairwise_sortWith htrans htotal ops)
    rw [show sortWith (fun a b => decide (b.width ≤ a.width)) ops = longestFirst ops from rfl, ih]
      at hinsert
    refine hinsert.trans ?_
    unfold foremost?
    by_cases hop : qualifies op = true
    · -- the later operator comes first only if it is longer
      rw [if_pos hop, List.filter_cons_of_pos hop, List.argmax_cons]
      cases List.argmax width (ops.filter qualifies) with
      | none => rfl
      | some other =>
        show (if decide (other.width ≤ op.width) = true then some op else some other)
          = if op.width < other.width then some other else some op
        simp only [decide_eq_true_eq, ← Nat.not_lt, ite_not]
    · rw [if_neg hop, List.filter_cons_of_neg hop]

/-- The foremost operator has a number among the sorted ones, and those before it do not qualify. -/
theorem exists_index_of_foremost? {qualifies : Operator → Bool} {ops : List Operator}
    {op : Operator} (h : foremost? qualifies ops = some op) :
    ∃ index : Nat, (longestFirst ops)[index]? = some op ∧ qualifies op = true
      ∧ ∀ (i : Nat) other, i < index → (longestFirst ops)[i]? = some other →
        qualifies other = false := by
  rw [← find?_longestFirst] at h
  obtain ⟨hop, before, after, hsplit, hbefore⟩ := List.find?_eq_some_iff_append.1 h
  refine ⟨before.length, by simp [hsplit], hop, fun i other hi hother => ?_⟩
  rw [hsplit, List.getElem?_append_left hi] at hother
  simpa using hbefore other (List.mem_of_getElem? hother)

/-- If no operator is foremost, none qualifies. -/
theorem not_qualifies_of_foremost? {qualifies : Operator → Bool} {ops : List Operator}
    (h : foremost? qualifies ops = none) : ∀ op ∈ ops, qualifies op = false := by
  simpa [foremost?, List.argmax_eq_none, List.filter_eq_nil_iff] using h

end Operator

/-! ## The reference

The reference is stated over a function that says what the operand comes to at each cursor. It knows
nothing of grammars, caches or workspaces, and it has one outcome at most. -/

/-- There is no match, and nothing worse has happened. -/
def Outcome.declines : Outcome → Bool
  | .noMatch => true
  | _ => false

/-- The cursor behind a token that stands at this one. -/
def Cursor.past (c : Cursor) (token : String) : Cursor :=
  ⟨c.source, c.offset + Text.byteLength token.toList, c.rest.drop token.toList.length⟩

namespace Operator

/-- What the operand comes to behind the token of the operator; no match if the token does not stand
at the cursor. -/
def answer (operand : Cursor → Outcome) (c : Cursor) (op : Operator) : Outcome :=
  if c.startsWith op.token.toList then operand (c.past op.token) else .noMatch

/-- The operator that a chain goes on with. -/
def next? (ops : List Operator) (operand : Cursor → Outcome) (c : Cursor) : Option Operator :=
  foremost? (fun op => !(op.answer operand c).declines) ops

/-- What a chain comes to that has been read up to the cursor, with its left operand so far. -/
inductive LeftChain (ops : List Operator) (operand : Cursor → Outcome) :
    Value → Cursor → Outcome → Prop where
  | ends {lhs : Value} {c : Cursor} (h : next? ops operand c = none) :
      LeftChain ops operand lhs c (.matched lhs c)
  | more {lhs rhs : Value} {c d : Cursor} {op : Operator} {o : Outcome}
      (hop : next? ops operand c = some op) (hrhs : op.answer operand c = .matched rhs d)
      (h : LeftChain ops operand (op.reduce lhs rhs) d o) : LeftChain ops operand lhs c o
  -- a hard failure behind the token, or a fault
  | stop {lhs : Value} {c : Cursor} {op : Operator} {o : Outcome}
      (hop : next? ops operand c = some op) (hanswer : op.answer operand c = o)
      (ho : ∀ rhs d, o ≠ .matched rhs d) : LeftChain ops operand lhs c o

/-- What a left-associative level comes to. -/
def LeftLevel (ops : List Operator) (operand : Cursor → Outcome) (c : Cursor) (o : Outcome) :
    Prop :=
  match operand c with
  | .matched first d => LeftChain ops operand first d o
  | other => o = other

variable {ops : List Operator} {operand : Cursor → Outcome} {lhs : Value} {c : Cursor}
  {o o' : Outcome}

/-- A chain that has been read so far comes to one outcome only. -/
theorem LeftChain.unique (h : LeftChain ops operand lhs c o) (h' : LeftChain ops operand lhs c o') :
    o = o' := by
  induction h with
  | ends hnone =>
    cases h' with
    | ends _ => rfl
    | more hop _ _ => cases hnone.symm.trans hop
    | stop hop _ _ => cases hnone.symm.trans hop
  | more hop hrhs _ ih =>
    cases h' with
    | ends hnone => cases hnone.symm.trans hop
    | more hop' hrhs' h' =>
      cases hop.symm.trans hop'
      cases hrhs.symm.trans hrhs'
      exact ih h'
    | stop hop' hanswer ho =>
      cases hop.symm.trans hop'
      exact absurd (hanswer.symm.trans hrhs) (ho _ _)
  | stop hop hanswer ho =>
    cases h' with
    | ends hnone => cases hnone.symm.trans hop
    | more hop' hrhs' _ =>
      cases hop.symm.trans hop'
      exact absurd (hanswer.symm.trans hrhs') (ho _ _)
    | stop hop' hanswer' _ =>
      cases hop.symm.trans hop'
      exact hanswer.symm.trans hanswer'

theorem LeftLevel.unique (h : LeftLevel ops operand c o) (h' : LeftLevel ops operand c o') :
    o = o' := by
  unfold LeftLevel at h h'
  split at h
  next first d hfirst =>
    rw [hfirst] at h'
    exact h.unique h'
  next hother =>
    split at h'
    next first d hfirst => exact absurd hfirst (hother first d)
    next => exact h.trans h'.symm

end Operator

/-! ## Chains

The chain that a level stands for is compared with the reference while it is being read. What has
been read of it is a left operand and the rest of the text, so the reference is asked from there on.
-/

/-- The function tells what the blueprint comes to, wherever in the source. -/
def Tells (Γ : Context) (p : Blueprint) (s : Source) (f : Cursor → Outcome) : Prop :=
  ∀ rest, rest <:+ s.text → ∃ u, (Goal.parse Γ p rest).Comes u ∧ f (s.before rest) = u.outcome s

/-- The goal comes to an outcome as described, and to no fault that the operand does not come to. -/
def Goal.Realizes (n : Goal) (s : Source) (operand : Cursor → Outcome) (R : Outcome → Prop) :
    Prop :=
  ∃ u, n.Comes u ∧ R (u.outcome s) ∧ ∀ fault, u.outcome s = .fault fault →
    ∃ rest, rest <:+ s.text ∧ operand (s.before rest) = .fault fault

section

variable {Γ : Context} {operand : Blueprint} {ops : List Operator} {op : Operator} {s : Source}
  {f : Cursor → Outcome} {cs ds es : List Char} {lhs : Value} {u : Verdict}

/-- Where no two outcomes are as described, the one that is come to is the one as described. -/
theorem Goal.Realizes.settles {n : Goal} {R : Outcome → Prop} {o : Outcome}
    (h : n.Realizes s f R) (hunique : ∀ o o', R o → R o' → o = o') (hu : n.Comes u)
    (ho : o = u.outcome s) :
    (∀ o', o = o' ↔ R o') ∧ ∀ fault, o = .fault fault →
      ∃ d : Cursor, d.Valid ∧ d.source = s ∧ f d = .fault fault := by
  obtain ⟨v, hv, hR, hfault⟩ := h
  obtain rfl := Goal.comes_unique hv hu
  subst ho
  refine ⟨fun o' => ⟨?_, hunique _ o' hR⟩, fun fault hf => ?_⟩
  · rintro rfl
    exact hR
  · obtain ⟨rest, hrest, hoperand⟩ := hfault fault hf
    exact ⟨_, Source.valid_before hrest, rfl, hoperand⟩

/-- Behind a token that stands ahead is where the rest of the text begins. -/
theorem Source.past_before {token : String} (h : token.toList ++ es <:+ s.text) :
    (s.before (token.toList ++ es)).past token = s.before es := by
  have hle := Text.byteLength_le_of_suffix h
  rw [Text.byteLength_append] at hle
  show Cursor.mk s (s.size - Text.byteLength (token.toList ++ es) + Text.byteLength token.toList)
    ((token.toList ++ es).drop token.toList.length) = _
  have hoffset : s.size - Text.byteLength (token.toList ++ es) + Text.byteLength token.toList
      = s.size - Text.byteLength es := by
    rw [Source.size, Text.byteLength_append]
    omega
  rw [hoffset, List.drop_left]
  rfl

/-- An operator whose token stands ahead has the answer of the operand behind it. -/
theorem Operator.answer_ahead (h : op.token.toList ++ es <:+ s.text) :
    op.answer f (s.before (op.token.toList ++ es)) = f (s.before es) := by
  rw [answer, Source.past_before h, if_pos]
  exact List.isPrefixOf_iff_prefix.2 (List.prefix_append _ _)

theorem Verdict.eq_noMatch_of_declines (h : (u.outcome s).declines = true) : u = .noMatch := by
  cases u with
  | noMatch => rfl
  | _ => cases h

/-- Where the answer is no match, the operator has no operand. -/
theorem Tells.declines (hf : Tells Γ operand s f) (hds : ds <:+ s.text)
    (h : (op.answer f (s.before ds)).declines = true) (es : List Char)
    (hes : ds = op.token.toList ++ es) : Declines Γ operand es := by
  subst hes
  obtain ⟨u, hu, hout⟩ := hf es ((List.suffix_append _ _).trans hds)
  rw [Operator.answer_ahead hds, hout] at h
  obtain rfl := Verdict.eq_noMatch_of_declines h
  exact hu.yields_noMatch

/-- Any other answer is what the operand comes to behind the token. -/
theorem Tells.exists_of_answer (hf : Tells Γ operand s f) (hds : ds <:+ s.text)
    (h : (op.answer f (s.before ds)).declines = false) :
    ∃ es u, ds = op.token.toList ++ es ∧ (Goal.parse Γ operand es).Comes u
      ∧ f (s.before es) = u.outcome s ∧ op.answer f (s.before ds) = u.outcome s := by
  by_cases hprefix : op.token.toList <+: ds
  · obtain ⟨es, rfl⟩ := hprefix
    obtain ⟨u, hu, hout⟩ := hf es ((List.suffix_append _ _).trans hds)
    exact ⟨es, u, rfl, hu, hout, (Operator.answer_ahead hds).trans hout⟩
  · have hnone : op.answer f (s.before ds) = .noMatch :=
      if_neg fun hstarts => hprefix (List.isPrefixOf_iff_prefix.1 hstarts)
    rw [hnone] at h
    cases h

/-- **A chain that has been read so far comes to what the reference says from there on.** Induction
on the length of the text ahead: no token is empty, so whatever operator the chain goes on with
moves it. -/
theorem Chained.realizes (htokens : ∀ op ∈ ops, op.token.toList ≠ []) (hf : Tells Γ operand s f)
    (hds : ds <:+ s.text) (h : Chained Γ operand ops cs lhs ds) :
    (Goal.parse Γ (Assoc.left.chain operand (Operator.longestFirst ops)) cs).Realizes s f
      (Operator.LeftChain ops f lhs (s.before ds)) := by
  induction hlen : ds.length using Nat.strong_induction_on generalizing lhs ds with
  | _ n ih =>
    cases hnext : Operator.next? ops f (s.before ds) with
    | none =>
      have hend := Operator.not_qualifies_of_foremost? hnext
      have htakes := h.takes_chain fun op hop => hf.declines hds (by simpa using hend op hop)
      exact ⟨_, htakes.comes, .ends hnext, nofun⟩
    | some op =>
      obtain ⟨index, hop, hanswers, hothers⟩ := Operator.exists_index_of_foremost? hnext
      have hbefore (i : Nat) (other : Operator) (hi : i < index)
          (hother : (Operator.longestFirst ops)[i]? = some other) :
          ∀ es, ds = other.token.toList ++ es → Declines Γ operand es :=
        hf.declines hds (by simpa using hothers i other hi hother)
      obtain ⟨es, u, hes, hu, htold, hanswer⟩ := hf.exists_of_answer hds (by simpa using hanswers)
      have htoken := Operator.token_ne_nil_of_getElem? htokens hop
      cases u with
      | matched rhs fs =>
        have hrhs : Takes Γ operand es rhs fs := hu.yields_matched
        have hshorter : fs.length < n := by
          have hle := hrhs.suffix.length_le
          have hpos := List.length_pos_of_ne_nil htoken
          rw [← hlen, hes, List.length_append]
          omega
        have hinside : fs <:+ s.text :=
          hrhs.suffix.trans ((List.suffix_append _ _).trans (hes ▸ hds))
        obtain ⟨v, hv, hchain, hfault⟩ :=
          ih fs.length hshorter hinside (h.more hop hes htoken hbefore hrhs) rfl
        exact ⟨v, hv, .more hnext hanswer hchain, hfault⟩
      | noMatch =>
        -- an operator that qualifies has an answer
        rw [hanswer] at hanswers
        cases hanswers
      | failed message rest =>
        have habort := h.aborts_chain hop hes hbefore ⟨hu, trivial⟩
        exact ⟨_, habort.1, .stop hnext hanswer nofun, nofun⟩
      | stalled rest =>
        have habort := h.aborts_chain hop hes hbefore ⟨hu, trivial⟩
        refine ⟨_, habort.1, .stop hnext hanswer nofun, fun fault hfault => ?_⟩
        exact ⟨es, (List.suffix_append _ _).trans (hes ▸ hds), htold.trans hfault⟩

/-- **A level comes to what the reference says**, inside any rules. -/
theorem Tells.realizes_left (htokens : ∀ op ∈ ops, op.token.toList ≠ [])
    (hf : Tells Γ operand s f) (hcs : cs <:+ s.text) :
    (Goal.parse Γ (Assoc.left.chain operand (Operator.longestFirst ops)) cs).Realizes s f
      (Operator.LeftLevel ops f (s.before cs)) := by
  obtain ⟨u, hu, hfirst⟩ := hf cs hcs
  unfold Operator.LeftLevel
  rw [hfirst]
  -- what is not a match is what the level comes to, in either of its alternatives
  cases u with
  | matched first ds =>
    have htakes : Takes Γ operand cs first ds := hu.yields_matched
    exact htakes.chained.realizes htokens hf (htakes.suffix.trans hcs)
  | noMatch =>
    have hdeclines : Declines Γ operand cs := hu.yields_noMatch
    exact ⟨_, (hdeclines.chain _).comes, rfl, nofun⟩
  | failed message rest =>
    have haborts : Aborts Γ operand cs (.failed message rest) := ⟨hu, trivial⟩
    exact ⟨_, (((haborts.seq _).map _).alt_first _).1, rfl, nofun⟩
  | stalled rest =>
    have haborts : Aborts Γ operand cs (.stalled rest) := ⟨hu, trivial⟩
    refine ⟨_, (((haborts.seq _).map _).alt_first _).1, rfl, fun fault hfault => ?_⟩
    exact ⟨cs, hcs, hfirst.trans hfault⟩

end

/-! ## Parses

A parse with a level comes to the verdict of its chain, and parses with its operand tell what the
operand comes to. What has happened in the workspace before is of no account to either. -/

namespace Workspace

variable {pool : List (Blueprint × Grammar)} {known : List Source} {w : Workspace}
  {operand : Blueprint} {ops : List Operator} {cached : Bool} {g p : Grammar} {c : Cursor}

/-- What parses with the operand come to is told by the operand's blueprint. -/
theorem InUse.tells (h : InUse pool known w) (hp : (operand, p) ∈ pool) {s : Source}
    (hs : s ∈ known) : Tells [] operand.plain s fun d => (w.parse p d).1 :=
  fun _ hrest => h.exists_comes hp (Source.valid_before hrest) hs

/-- **A left-associative level equals its reference**, with its operand cached or not, whatever the
operand does and wherever it is parsed; and where it breaks a contract, the operand does. -/
theorem parse_left_level (h : InUse pool known w) (hg : (.level .left ops cached operand, g) ∈ pool)
    (hp : (operand, p) ∈ pool) (hc : c.Valid) (hs : c.source ∈ known) :
    (∀ o, (w.parse g c).1 = o ↔ Operator.LeftLevel ops (fun d => (w.parse p d).1) c o)
      ∧ ∀ fault, (w.parse g c).1 = .fault fault →
        ∃ d : Cursor, d.Valid ∧ d.source = c.source ∧ (w.parse p d).1 = .fault fault := by
  have htokens := Blueprint.token_ne_nil_of_closed (h.closed hg)
  obtain ⟨u, hu, hout⟩ := h.exists_comes hg hc hs
  have hrealizes := (h.tells hp hs).realizes_left htokens hc.rest_suffix
  rw [hc.eq_before] at hrealizes
  exact hrealizes.settles (fun _ _ => Operator.LeftLevel.unique) hu hout

/-! ### Differences

Two operators over digits, of which one begins the other. -/

/-- One of the two tokens is the other one twice. -/
def minusOrApart : List Operator :=
  [⟨"-", .operation "minus"⟩, ⟨"--", .operation "apart"⟩]

/-- The workspace in which digits, differences of them and a source are all that there is. -/
def withDifferences (text : String) : Workspace :=
  (((empty.newSource text).2.build (.chars .digits)).2.build
    (.level .left minusOrApart true (.chars .digits))).2

/-- The grammar that the differences are built as. -/
def differences : Grammar :=
  Assoc.left.level (.memo 0 (.chars .digits)) (Operator.longestFirst minusOrApart) [1, 2]

theorem inUse_withDifferences (text : String) :
    InUse [(.level .left minusOrApart true (.chars .digits), differences),
      (.chars .digits, .chars .digits)] [⟨0, text.toList⟩] (withDifferences text) :=
  .build (.build (.source (.start empty.holds_nil) text) rfl rfl) rfl rfl

theorem parse_differences :
    (∀ o, ((withDifferences "7--2-1").parse differences (Source.start ⟨0, "7--2-1".toList⟩)).1 = o
        ↔ Operator.LeftLevel minusOrApart
          (fun d => ((withDifferences "7--2-1").parse (.chars .digits) d).1)
          (Source.start ⟨0, "7--2-1".toList⟩) o)
      ∧ ∀ fault, ((withDifferences "7--2-1").parse differences
          (Source.start ⟨0, "7--2-1".toList⟩)).1 = .fault fault →
        ∃ d : Cursor, d.Valid ∧ d.source = ⟨0, "7--2-1".toList⟩
          ∧ ((withDifferences "7--2-1").parse (.chars .digits) d).1 = .fault fault :=
  parse_left_level (inUse_withDifferences "7--2-1") List.mem_cons_self
    (List.mem_cons_of_mem _ List.mem_cons_self) (Cursor.valid_start _) List.mem_cons_self

example : ((withDifferences "7--2-").parse differences (Source.start ⟨0, "7--2-".toList⟩)).1
    = .matched (.operation "apart" (.text "7") (.text "2")) ⟨⟨0, "7--2-".toList⟩, 4, ['-']⟩ := by
  cbv

end Workspace

end Packrat
