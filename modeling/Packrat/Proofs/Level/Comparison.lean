import Packrat.Proofs.Level.RightAssociative

/-!
# Levels compared

With the references of both kinds of level, levels can be compared by what is said of their
operators and without a look at how they are read.

* **`Operator.Level`** — the reference of either kind, which every level comes to
  (`Tells.realizes`).
* **`Workspace.parse_level_perm`** — the order of operators with distinct tokens makes no
  difference: tokens of equal length that stand at one place are one token, so the foremost
  operator there is foremost in any order.
* **`Workspace.parse_extents`** — where no token begins another one, a left-associative and a
  right-associative level go over the same operands. They get equally far but for an operator that
  has no operand behind it. The left-associative level stops before such an operator; the
  right-associative one gives up the whole chain before it for its first operand
  (`Workspace.extents_differ`).
-/

namespace Packrat

/-- Neither a match nor the lack of one. -/
def Outcome.Aborts : Outcome → Prop
  | .matched _ _ => False
  | .noMatch => False
  | .failed _ => True
  | .fault _ => True

namespace Operator

section

variable {ops ops' : List Operator} {operand : Cursor → Outcome} {c d e : Cursor} {lhs v : Value}
  {op : Operator} {o o' : Outcome} {pairs : List (Value × Operator)} {cs : List Char}
  {qualifies : Operator → Bool}

/-! ## The foremost operator

Only operators whose tokens stand at one place ever compete. One of two such tokens begins the
other, so with distinct tokens no two of them are equally long and the order in which they were
given decides nothing. -/

/-- The foremost operator is one of those given, and it qualifies. -/
theorem mem_of_foremost? (h : foremost? qualifies ops = some op) :
    op ∈ ops ∧ qualifies op = true :=
  List.mem_filter.1 (List.argmax_mem h)

/-- No operator that qualifies has a longer token than the foremost one. -/
theorem width_le_of_foremost? (h : foremost? qualifies ops = some op) {other : Operator}
    (hmem : other ∈ ops) (hother : qualifies other = true) : other.width ≤ op.width :=
  List.le_of_mem_argmax (List.mem_filter.2 ⟨hmem, hother⟩) h

/-- If any operator qualifies, one of them is foremost. -/
theorem exists_foremost? (hmem : op ∈ ops) (hop : qualifies op = true) :
    ∃ other, foremost? qualifies ops = some other := by
  cases h : foremost? qualifies ops with
  | some other => exact ⟨other, rfl⟩
  | none => exact absurd (not_qualifies_of_foremost? h op hmem) (by simp [hop])

/-- Of tokens that begin one text, those of equal length are equal. -/
theorem token_eq_of_prefix {other : Operator} (h : op.token.toList <+: cs)
    (h' : other.token.toList <+: cs) (hwidth : op.width = other.width) :
    op.token = other.token := by
  -- one of the two begins the other, and nothing is left of it
  have heq {a b : Operator} (hab : a.token.toList <+: b.token.toList) (hwidth : a.width = b.width) :
      a.token = b.token := by
    obtain ⟨run, hrun⟩ := hab
    have hlen : Text.byteLength a.token.toList = Text.byteLength b.token.toList := hwidth
    rw [← hrun, Text.byteLength_append] at hlen
    rw [Text.eq_nil_of_byteLength_eq_zero (show Text.byteLength run = 0 by omega),
      List.append_nil] at hrun
    exact String.toList_inj.1 hrun
  rcases List.prefix_or_prefix_of_prefix h h' with hbegins | hbegins
  · exact heq hbegins hwidth
  · exact (heq hbegins hwidth.symm).symm

/-- **The foremost operator is so in any order** of operators with distinct tokens, if all that
qualify stand at one place. -/
theorem foremost?_perm (hperm : ops'.Perm ops) (hdistinct : (ops.map token).Nodup)
    (hstands : ∀ op, qualifies op = true → op.token.toList <+: cs) :
    foremost? qualifies ops' = foremost? qualifies ops := by
  cases h : foremost? qualifies ops with
  | none =>
    have hnone := not_qualifies_of_foremost? h
    cases h' : foremost? qualifies ops' with
    | none => rfl
    | some op =>
      obtain ⟨hmem, hop⟩ := mem_of_foremost? h'
      exact absurd hop (by simp [hnone op (hperm.mem_iff.1 hmem)])
  | some op =>
    obtain ⟨hmem, hop⟩ := mem_of_foremost? h
    obtain ⟨other, h'⟩ := exists_foremost? (hperm.mem_iff.2 hmem) hop
    obtain ⟨hmem', hother⟩ := mem_of_foremost? h'
    -- the two are of one width at one place, so their tokens are the same
    have hwidth := Nat.le_antisymm (width_le_of_foremost? h (hperm.mem_iff.1 hmem') hother)
      (width_le_of_foremost? h' (hperm.mem_iff.2 hmem) hop)
    have htoken := token_eq_of_prefix (hstands other hother) (hstands op hop) hwidth
    rw [h', List.inj_on_of_nodup_map hdistinct (hperm.mem_iff.1 hmem') hmem htoken]

/-- An operator with an answer stands at the cursor, and its operand has that answer. -/
theorem prefix_of_answer (h : (op.answer operand c).declines = false) :
    op.token.toList <+: c.rest ∧ op.answer operand c = operand (c.past op.token) := by
  unfold answer at h ⊢
  split at h
  next hstarts =>
    rw [if_pos hstarts]
    exact ⟨List.isPrefixOf_iff_prefix.1 hstarts, rfl⟩
  next => cases h

theorem next?_perm (hperm : ops'.Perm ops) (hdistinct : (ops.map token).Nodup) :
    next? ops' operand c = next? ops operand c :=
  foremost?_perm hperm hdistinct fun _ hop => (prefix_of_answer (by simpa using hop)).1

theorem ahead?_perm (hperm : ops'.Perm ops) (hdistinct : (ops.map token).Nodup) :
    ahead? ops' c = ahead? ops c :=
  foremost?_perm hperm hdistinct fun _ hop => List.isPrefixOf_iff_prefix.1 hop

/-! ## The order of operators

The references look at their operators only through `next?` and `ahead?`, which do not depend on the
order. -/

/-- What a level of either kind comes to. -/
def Level : Assoc → List Operator → (Cursor → Outcome) → Cursor → Outcome → Prop
  | .left => LeftLevel
  | .right => RightLevel

/-- A level comes to one outcome only. -/
theorem Level.unique {assoc : Assoc} (h : Level assoc ops operand c o)
    (h' : Level assoc ops operand c o') : o = o' := by
  cases assoc with
  | left => exact LeftLevel.unique h h'
  | right => exact RightLevel.unique h h'

theorem LeftChain.perm (hperm : ops'.Perm ops) (hdistinct : (ops.map token).Nodup)
    (h : LeftChain ops operand lhs c o) : LeftChain ops' operand lhs c o := by
  induction h with
  | ends hnone => exact .ends ((next?_perm hperm hdistinct).trans hnone)
  | more hop hrhs _ ih => exact .more ((next?_perm hperm hdistinct).trans hop) hrhs ih
  | stop hop hanswer ho => exact .stop ((next?_perm hperm hdistinct).trans hop) hanswer ho

theorem Collects.perm (hperm : ops'.Perm ops) (hdistinct : (ops.map token).Nodup)
    (h : Collects ops operand c pairs d) : Collects ops' operand c pairs d := by
  induction h with
  | stop hstop => exact .stop fun v d hd => (ahead?_perm hperm hdistinct).trans (hstop v d hd)
  | more hv hop _ ih => exact .more hv ((ahead?_perm hperm hdistinct).trans hop) ih

/-- The references do not depend on the order of operators with distinct tokens. -/
theorem Level.perm {assoc : Assoc} (hperm : ops'.Perm ops) (hdistinct : (ops.map token).Nodup)
    (h : Level assoc ops operand c o) : Level assoc ops' operand c o := by
  cases assoc with
  | left =>
    show LeftLevel ops' operand c o
    have h : LeftLevel ops operand c o := h
    unfold LeftLevel at h ⊢
    split at h
    next => exact h.perm hperm hdistinct
    next => exact h
  | right =>
    obtain ⟨pairs, d, hpairs, ho⟩ := h
    exact ⟨pairs, d, hpairs.perm hperm hdistinct, ho⟩

/-! ## How far levels get

A left-associative chain asks for an operand behind each operator before it goes on; a
right-associative one goes on with the operator, and finds out afterwards. The two are followed side
by side over the operands that they share. -/

/-- No token begins another one. -/
def PrefixFree (ops : List Operator) : Prop :=
  ∀ a ∈ ops, ∀ b ∈ ops, a.token.toList <+: b.token.toList → a.token = b.token

/-- How far a left-associative and a right-associative level get, given what the operand comes to
where they begin. -/
inductive Extents (ops : List Operator) (single : Outcome) : Outcome → Outcome → Prop where
  | noMatch : Extents ops single .noMatch .noMatch
  /-- Both match up to the same place, where no operator is ahead. -/
  | whole {x y : Value} {d : Cursor} (h : ahead? ops d = none) :
      Extents ops single (.matched x d) (.matched y d)
  /-- An operator is ahead where the left-associative level ends; the right-associative one matches
  the first operand only. -/
  | dangling {x first : Value} {d e : Cursor} {op : Operator} (h : ahead? ops d = some op)
      (hsingle : single = .matched first e) : Extents ops single (.matched x d) (.matched first e)
  /-- Both fail hard at the same place, or break the same contract. -/
  | aborts {o : Outcome} (h : o.Aborts) : Extents ops single o o

/-- How the operand that has not been collected goes with the end of a left-associative chain. -/
inductive ChainEnds (ops : List Operator) : Outcome → Outcome → Prop where
  | whole {x last : Value} {d : Cursor} (h : ahead? ops d = none) :
      ChainEnds ops (.matched x d) (.matched last d)
  | dangling {x : Value} {d : Cursor} {op : Operator} (h : ahead? ops d = some op) :
      ChainEnds ops (.matched x d) .noMatch
  | aborts {o : Outcome} (h : o.Aborts) : ChainEnds ops o o

/-- A token that begins the text ahead is that of the operator ahead. -/
theorem PrefixFree.exists_ahead? (hfree : PrefixFree ops) (hmem : op ∈ ops)
    (h : op.token.toList <+: c.rest) : ∃ other, ahead? ops c = some other
      ∧ other.token = op.token := by
  have hop : c.startsWith op.token.toList = true := List.isPrefixOf_iff_prefix.2 h
  obtain ⟨other, hother⟩ : ∃ other, ahead? ops c = some other := exists_foremost? hmem hop
  obtain ⟨hmem', hstarts⟩ := mem_of_foremost? hother
  refine ⟨other, hother, ?_⟩
  rcases List.prefix_or_prefix_of_prefix (List.isPrefixOf_iff_prefix.1 hstarts) h with hab | hba
  · exact hfree other hmem' op hmem hab
  · exact (hfree op hmem other hmem' hba).symm

/-- The operator that a chain goes on with is the one ahead, and the operand behind it answers. -/
theorem PrefixFree.exists_of_next? (hfree : PrefixFree ops) (h : next? ops operand c = some op) :
    ∃ other, ahead? ops c = some other ∧ op.answer operand c = operand (c.past other.token)
      ∧ (op.answer operand c).declines = false := by
  obtain ⟨hmem, hanswers⟩ := mem_of_foremost? h
  have hanswers : (op.answer operand c).declines = false := by simpa using hanswers
  obtain ⟨hbegins, hanswer⟩ := prefix_of_answer hanswers
  obtain ⟨other, hahead, htoken⟩ := hfree.exists_ahead? hmem hbegins
  exact ⟨other, hahead, htoken ▸ hanswer, hanswers⟩

/-- Where a chain does not go on though an operator is ahead, no operand is behind it. -/
theorem eq_noMatch_of_next? (h : next? ops operand c = none) (hahead : ahead? ops c = some op) :
    operand (c.past op.token) = .noMatch := by
  obtain ⟨hmem, hstarts⟩ := mem_of_foremost? hahead
  have hdeclines : (op.answer operand c).declines = true := by
    simpa using not_qualifies_of_foremost? h op hmem
  rw [answer, if_pos hstarts] at hdeclines
  generalize operand (c.past op.token) = o at hdeclines ⊢
  cases o with
  | noMatch => rfl
  | _ => cases hdeclines

/-- Nothing is collected where the operand does not match. -/
theorem Collects.eq_of_not_matched (h : Collects ops operand c pairs e)
    (hc : ∀ v d, operand c ≠ .matched v d) : e = c := by
  cases h with
  | stop _ => rfl
  | more hv _ _ => exact absurd hv (hc _ _)

/-- **Both levels go over the same operands.** Induction on the chain; what has been combined so far
is of no account. -/
theorem LeftChain.ends_with (hfree : PrefixFree ops) (h : LeftChain ops operand lhs d o)
    (hv : operand c = .matched v d) (hpairs : Collects ops operand c pairs e) :
    ChainEnds ops o (operand e) := by
  induction h generalizing c v pairs with
  | @ends lhs d hnone =>
    cases hpairs with
    | stop hstop =>
      rw [hv]
      exact .whole (hstop v d hv)
    | more hv' hop hpairs =>
      cases hv.symm.trans hv'
      have hlast := eq_noMatch_of_next? hnone hop
      rw [hpairs.eq_of_not_matched (by simp [hlast]), hlast]
      exact .dangling hop
  | more hnext hrhs _ ih =>
    obtain ⟨other, hahead, hanswer, _⟩ := hfree.exists_of_next? hnext
    cases hpairs with
    | stop hstop => cases (hstop _ _ hv).symm.trans hahead
    | more hv' hop hpairs =>
      cases hv.symm.trans hv'
      cases hop.symm.trans hahead
      exact ih (hanswer.symm.trans hrhs) hpairs
  | @stop lhs d op o hnext hrhs ho =>
    obtain ⟨other, hahead, hanswer, hanswers⟩ := hfree.exists_of_next? hnext
    cases hpairs with
    | stop hstop => cases (hstop _ _ hv).symm.trans hahead
    | more hv' hop hpairs =>
      cases hv.symm.trans hv'
      cases hop.symm.trans hahead
      have hlast : operand (d.past other.token) = o := hanswer.symm.trans hrhs
      rw [hpairs.eq_of_not_matched (by simpa [hlast] using ho), hlast]
      rw [hrhs] at hanswers
      refine .aborts ?_
      cases o with
      | matched rhs d => exact absurd rfl (ho rhs d)
      | noMatch => cases hanswers
      | failed failure => trivial
      | fault fault => trivial

/-- **How far the references get.** -/
theorem PrefixFree.extents (hfree : PrefixFree ops) (hl : Level .left ops operand c o)
    (hr : Level .right ops operand c o') : Extents ops (operand c) o o' := by
  obtain ⟨pairs, e, hpairs, rfl⟩ := hr
  have h : LeftLevel ops operand c o := hl
  unfold LeftLevel at h
  split at h
  next first d hfirst =>
    rw [hfirst]
    have hends := h.ends_with hfree hfirst hpairs
    generalize operand e = last at hends ⊢
    cases hends with
    | whole hnone => exact .whole hnone
    | dangling hop => exact .dangling hop rfl
    | aborts ho =>
      cases o with
      | matched v d => exact ho.elim
      | noMatch => exact ho.elim
      | failed failure => exact .aborts ho
      | fault fault => exact .aborts ho
  next hother =>
    -- nothing is collected where the operand does not match
    rw [hpairs.eq_of_not_matched hother, h]
    generalize operand c = first at hother ⊢
    cases first with
    | matched v d => exact absurd rfl (hother v d)
    | noMatch => exact .noMatch
    | failed failure => exact .aborts trivial
    | fault fault => exact .aborts trivial

end

end Operator

/-- **A level of either kind comes to what its reference says**, inside any rules. -/
theorem Tells.realizes {Γ : Context} {operand : Blueprint} {s : Source} {f : Cursor → Outcome}
    {ops : List Operator} {cs : List Char} (htokens : ∀ op ∈ ops, op.token.toList ≠ [])
    (hf : Tells Γ operand s f) (hcs : cs <:+ s.text) (assoc : Assoc) :
    (Goal.parse Γ (assoc.chain operand (Operator.longestFirst ops)) cs).Realizes s f
      (Operator.Level assoc ops f (s.before cs)) := by
  cases assoc with
  | left => exact hf.realizes_left htokens hcs
  | right => exact hf.realizes_right htokens hcs

/-! ## Parses

Each of the comparisons above is one of two parses: both come to what their references say, of
operands that come to the same. -/

namespace Workspace

section

variable {pool pool' : List (Blueprint × Grammar)} {known known' : List Source}
  {w w' : Workspace} {operand : Blueprint} {ops ops' : List Operator} {cached cached' : Bool}
  {assoc : Assoc} {g g' p : Grammar} {c c' : Cursor}

/-- A parse with a level of either kind comes to what its reference says. -/
theorem InUse.level (h : InUse pool known w) (hg : (.level assoc ops cached operand, g) ∈ pool)
    {s : Source} {f : Cursor → Outcome} (hf : Tells [] operand.plain s f)
    (htext : s.text = c.source.text) (hc : c.Valid) (hs : c.source ∈ known) :
    ∃ u : Verdict, (w.parse g c).1 = u.outcome c.source
      ∧ Operator.Level assoc ops f (s.before c.rest) (u.outcome s) := by
  have htokens := Blueprint.token_ne_nil_of_closed (h.closed hg)
  obtain ⟨u, hu, hout⟩ := h.exists_comes hg hc hs
  obtain ⟨v, hv, hlevel, _⟩ := hf.realizes htokens (htext ▸ hc.rest_suffix) assoc
  obtain rfl := Goal.comes_unique hv hu
  exact ⟨v, hout, hlevel⟩

/-- **The order of operators makes no difference.** Levels over one operand whose operators are the
same but for their order, with distinct tokens, come to the same outcome, each in its own source. -/
theorem parse_level_perm (h : InUse pool known w)
    (hg : (.level assoc ops cached operand, g) ∈ pool) (h' : InUse pool' known' w')
    (hg' : (.level assoc ops' cached' operand, g') ∈ pool') (hperm : ops'.Perm ops)
    (hdistinct : (ops.map Operator.token).Nodup) (hc : c.Valid) (hs : c.source ∈ known)
    (hc' : c'.Valid) (hs' : c'.source ∈ known') (htext : c'.source.text = c.source.text)
    (hoffset : c'.offset = c.offset) :
    (w.parse g c).1.inSource c'.source = (w'.parse g' c').1 := by
  -- the operand is built by itself, to have its outcomes at hand
  have hclosed : operand.closed [] = true := by
    have hlevel := h.closed hg
    simp only [Blueprint.closed, Bool.and_eq_true] at hlevel
    exact hlevel.2
  obtain ⟨p, w₁, _, h₁⟩ := h.exists_build hclosed
  have htold := h₁.tells List.mem_cons_self hs
  obtain ⟨u, hout, hlevel⟩ := h.level hg htold rfl hc hs
  obtain ⟨u', hout', hlevel'⟩ := h'.level hg' htold htext.symm hc' hs'
  rw [hc.rest_eq hc' htext hoffset] at hlevel'
  rw [hout, hout', (hlevel.perm hperm hdistinct).unique hlevel', u'.outcome_inSource htext]

/-- The comparisons with the operators the other way round, and their operand not cached. -/
def withComparisonsReversed (text : String) : Workspace :=
  ((withComparisons text).build (.level .right equalOrSame.reverse false (.chars .digits))).2

/-- The grammar that these comparisons are built as. -/
def comparisonsReversed : Grammar :=
  Assoc.right.level (.chars .digits) (Operator.longestFirst equalOrSame) [3, 4]

theorem inUse_withComparisonsReversed (text : String) :
    InUse [(.level .right equalOrSame.reverse false (.chars .digits), comparisonsReversed),
      (.level .right equalOrSame true (.chars .digits), comparisons),
      (.chars .digits, .chars .digits)] [⟨0, text.toList⟩] (withComparisonsReversed text) :=
  .build (inUse_withComparisons text) rfl rfl

theorem parse_comparisons_reversed :
    ((withComparisons "7==2=1").parse comparisons
        (Source.start ⟨0, "7==2=1".toList⟩)).1.inSource ⟨0, "7==2=1".toList⟩
      = ((withComparisonsReversed "7==2=1").parse comparisonsReversed
        (Source.start ⟨0, "7==2=1".toList⟩)).1 := by
  have hvalid : (Source.start ⟨0, "7==2=1".toList⟩).Valid := Cursor.valid_start _
  have hdistinct : (equalOrSame.map Operator.token).Nodup := by decide
  have hequal := parse_level_perm (inUse_withComparisons "7==2=1") List.mem_cons_self
    (inUse_withComparisonsReversed "7==2=1") List.mem_cons_self (List.reverse_perm equalOrSame)
    hdistinct hvalid List.mem_cons_self hvalid List.mem_cons_self rfl rfl
  exact hequal

/-- **Associativity and extent.** With tokens of which none begins another one, a left-associative
and a right-associative level over one operand both fail to match, or match up to the same place, or
abort in the same way; or there is an operator without an operand where the left-associative level
ends, and the right-associative one comes to what the operand comes to. -/
theorem parse_extents (h : InUse pool known w) (hg : (.level .left ops cached operand, g) ∈ pool)
    (hg' : (.level .right ops cached' operand, g') ∈ pool) (hp : (operand, p) ∈ pool)
    (hfree : Operator.PrefixFree ops) (hc : c.Valid) (hs : c.source ∈ known) :
    Operator.Extents ops (w.parse p c).1 (w.parse g c).1 (w.parse g' c).1 := by
  have htold := h.tells hp hs
  obtain ⟨u, hout, hlevel⟩ := h.level hg htold rfl hc hs
  obtain ⟨u', hout', hlevel'⟩ := h.level hg' htold rfl hc hs
  rw [hc.eq_before] at hlevel hlevel'
  rw [hout, hout']
  exact hfree.extents hlevel hlevel'

end

/-! ### Sums of either kind

With one operator there is no choice to be made, so all that is left to differ is the operator at
the end. -/

/-- The only operator of the sums. -/
def plus : List Operator :=
  [⟨"+", .operation "add"⟩]

/-- The workspace in which there are digits, sums of them that group to the left, sums that group to
the right, and a source. -/
def withEitherSums (text : String) : Workspace :=
  ((((empty.newSource text).2.build (.chars .digits)).2.build
    (.level .left plus true (.chars .digits))).2.build
    (.level .right plus true (.chars .digits))).2

/-- The grammars that the sums are built as. -/
def leftSums : Grammar :=
  Assoc.left.level (.memo 0 (.chars .digits)) plus [1]

def rightSums : Grammar :=
  Assoc.right.level (.memo 2 (.chars .digits)) plus [3]

theorem inUse_withEitherSums (text : String) :
    InUse [(.level .right plus true (.chars .digits), rightSums),
      (.level .left plus true (.chars .digits), leftSums), (.chars .digits, .chars .digits)]
      [⟨0, text.toList⟩] (withEitherSums text) :=
  .build (.build (.build (.source (.start empty.holds_nil) text) rfl rfl) rfl rfl) rfl rfl

theorem prefixFree_plus : Operator.PrefixFree plus := by
  rintro a ha b hb _
  rw [List.mem_singleton.1 ha, List.mem_singleton.1 hb]

theorem extents_sums :
    Operator.Extents plus
      ((withEitherSums "1+2+3").parse (.chars .digits) (Source.start ⟨0, "1+2+3".toList⟩)).1
      ((withEitherSums "1+2+3").parse leftSums (Source.start ⟨0, "1+2+3".toList⟩)).1
      ((withEitherSums "1+2+3").parse rightSums (Source.start ⟨0, "1+2+3".toList⟩)).1 :=
  parse_extents (inUse_withEitherSums "1+2+3") (List.mem_cons_of_mem _ List.mem_cons_self)
    List.mem_cons_self (List.mem_cons_of_mem _ (List.mem_cons_of_mem _ List.mem_cons_self))
    prefixFree_plus (Cursor.valid_start _) List.mem_cons_self

/-- Over an operand that never fails hard, with an operator at the end: the sum that groups to the
left leaves the operator, the sum that groups to the right is but its first operand. -/
theorem extents_differ :
    Operator.PrefixFree plus
      ∧ (∀ c failure, ((withEitherSums "1+2+").parse (.chars .digits) c).1 ≠ .failed failure)
      ∧ ((withEitherSums "1+2+").parse leftSums (Source.start ⟨0, "1+2+".toList⟩)).1
        = .matched (.operation "add" (.text "1") (.text "2")) ⟨⟨0, "1+2+".toList⟩, 3, ['+']⟩
      ∧ ((withEitherSums "1+2+").parse rightSums (Source.start ⟨0, "1+2+".toList⟩)).1
        = .matched (.text "1") ⟨⟨0, "1+2+".toList⟩, 1, ['+', '2', '+']⟩ := by
  have huse := inUse_withEitherSums "1+2+"
  have htold := huse.tells (List.mem_cons_of_mem _ (List.mem_cons_of_mem _ List.mem_cons_self))
    List.mem_cons_self
  refine ⟨prefixFree_plus, fun c => c.chars_ne_failed .digits, ?_, ?_⟩
  · obtain ⟨u, hout, hlevel⟩ := huse.level (List.mem_cons_of_mem _ List.mem_cons_self) htold rfl
      (Cursor.valid_start _) List.mem_cons_self
    rw [hout]
    -- behind the second operator there is no operand to go on with
    have hchain : Operator.LeftChain plus
        (fun d => ((withEitherSums "1+2+").parse (.chars .digits) d).1) (.text "1")
        ⟨⟨0, "1+2+".toList⟩, 1, ['+', '2', '+']⟩
        (.matched (.operation "add" (.text "1") (.text "2")) ⟨⟨0, "1+2+".toList⟩, 3, ['+']⟩) :=
      .more rfl rfl (.ends rfl)
    exact hlevel.unique hchain
  · obtain ⟨u, hout, hlevel⟩ := huse.level List.mem_cons_self htold rfl (Cursor.valid_start _)
      List.mem_cons_self
    rw [hout]
    -- both operands are collected, each with the operator behind it, and there is no last one
    have hcollects : Operator.Collects plus
        (fun d => ((withEitherSums "1+2+").parse (.chars .digits) d).1)
        (Source.start ⟨0, "1+2+".toList⟩)
        [(.text "1", ⟨"+", .operation "add"⟩), (.text "2", ⟨"+", .operation "add"⟩)]
        ⟨⟨0, "1+2+".toList⟩, 4, []⟩ :=
      .more rfl rfl (.more rfl rfl (.stop nofun))
    exact hlevel.unique ⟨_, _, hcollects, rfl⟩

end Workspace

end Packrat
