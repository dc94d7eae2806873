import Packrat.Proofs.Engine.Guarded

/-!
# Every parse ends

The engine is told how deep rules may nest, and gives up when that is not enough. It never comes to
that: the depth that a parse provides for is one level for each rule that there is or can come to
be, at each place ahead, and a parse ends in an answer about the text, or in the fault that stops
a repetition in its place. More depth changes nothing, so the bound is no part of the result.

* **`Run.Agrees`** — the second run does what the first one does, unless the first one gives up.
  It goes through every way of putting runs together.
* **`Rule.parse_agrees`** — more depth changes nothing where there was enough of it.
* **`parse_terminates`** — every parse has enough of it.
-/

namespace Packrat

/-! ## More of a budget

Only a run that is out of depth would go otherwise with more depth. So it is enough to add one level
at a time, and to let runs that give up become anything. -/

/-- Where the first run does not give up, the second one does the same. -/
def Run.Agrees (r r' : Run) : Prop :=
  ∀ w, (r w).1 ≠ .fault .exhausted → r' w = r w

namespace Run

variable {r r' r'' : Run}

theorem Agrees.refl (r : Run) : r.Agrees r :=
  fun _ _ => rfl

/-- Runs that agree with one run up to giving up agree. -/
theorem Agrees.trans (h : r.Agrees r') (h' : r'.Agrees r'') : r.Agrees r'' := by
  intro w hw
  have hr' := h w hw
  rw [← hr'] at hw
  rw [h' w hw, hr']

theorem Agrees.andThen {next next' : Value → Cursor → Run} (h : r.Agrees r')
    (hnext : ∀ v c, (next v c).Agrees (next' v c)) :
    (r.andThen next).Agrees (r'.andThen next') := by
  intro w hw
  have hr := h w
  unfold Run.andThen at hw ⊢
  generalize r w = x at hw hr ⊢
  obtain ⟨o, w'⟩ := x
  cases o with
  | matched v c =>
    rw [hr (by simp)]
    exact hnext v c w' hw
  | noMatch => rw [hr (by simp)]
  | failed f => rw [hr (by simp)]
  | fault f => rw [hr hw]

theorem Agrees.orElse {next next' : Run} (h : r.Agrees r') (hnext : next.Agrees next') :
    (r.orElse next).Agrees (r'.orElse next') := by
  intro w hw
  have hr := h w
  unfold Run.orElse at hw ⊢
  generalize r w = x at hw hr ⊢
  obtain ⟨o, w'⟩ := x
  cases o with
  | matched v c => rw [hr (by simp)]
  | noMatch =>
    rw [hr (by simp)]
    exact hnext w' hw
  | failed f => rw [hr (by simp)]
  | fault f => rw [hr hw]

theorem Agrees.viaCache (h : r.Agrees r') (k : CacheId) (c : Cursor) :
    (viaCache k c r).Agrees (viaCache k c r') := by
  intro w hw
  have hr := h w
  unfold Packrat.viaCache at hw ⊢
  cases hcached : w.cachedAt? k c.position with
  | some remembered =>
    -- a hit is answered without running the parser
    cases remembered with
    | some answer => rfl
    | none => rfl
  | none =>
    rw [hcached] at hw
    simp only at hw ⊢
    generalize r w = x at hw hr ⊢
    obtain ⟨o, w'⟩ := x
    cases o with
    | matched v c => rw [hr (by simp)]
    | noMatch => rw [hr (by simp)]
    | failed f => rw [hr (by simp)]
    | fault f => rw [hr hw]

/-- Induction on the rounds: each goes as before, or is the one that gives up. -/
theorem Agrees.repeatFrom {parser parser' : Cursor → Run}
    (h : ∀ c, (parser c).Agrees (parser' c)) (rounds : Nat) (values : List Value) (c : Cursor) :
    (repeatFrom parser rounds values c).Agrees (repeatFrom parser' rounds values c) := by
  induction rounds generalizing values c with
  | zero => exact .refl _
  | succ rounds ih =>
    intro w hw
    have hr := h c w
    unfold Packrat.repeatFrom at hw ⊢
    generalize parser c w = x at hw hr ⊢
    obtain ⟨o, w'⟩ := x
    cases o with
    | matched v next =>
      rw [hr (by simp)]
      simp only at hw ⊢
      split
      next => rfl
      next hmoved =>
        -- the later rounds are not exhausted either, or the whole would be
        rw [if_neg hmoved] at hw
        exact ih (v :: values) next w' hw
    | noMatch => rw [hr (by simp)]
    | failed f => rw [hr (by simp)]
    | fault f => rw [hr hw]

end Run

/-- A grammar goes as before if its rules do. -/
theorem Grammar.run_agrees {parseRule parseRule' : Hold → RuleId → Cursor → Run}
    (h : ∀ hold id c, (parseRule hold id c).Agrees (parseRule' hold id c)) (g : Grammar)
    (c : Cursor) : (g.run parseRule c).Agrees (g.run parseRule' c) := by
  induction g generalizing c with
  | literal token => exact .refl _
  | chars cls => exact .refl _
  | accept value => exact .refl _
  | map f g ih => exact (ih c).andThen fun _ _ => .refl _
  | tryMap f g ih => exact (ih c).andThen fun _ _ => .refl _
  | seq g g' ih ih' => exact (ih c).andThen fun _ d => (ih' d).andThen fun _ _ => .refl _
  | alt g g' ih ih' => exact (ih c).orElse (ih' c)
  | rep g ih => exact .repeatFrom ih _ _ c
  | required message g ih => exact (ih c).orElse (.refl _)
  | memo k g ih => exact (ih c).viaCache k c
  | count name g ih =>
    intro w hw
    exact ih c (w.countCall name) hw
  | rule hold id => exact h hold id c

/-- One more level changes nothing where there were enough. Induction on the levels. -/
theorem Rule.parse_agrees_succ (depth : Nat) (hold : Hold) (id : RuleId) (c : Cursor) :
    (Rule.parse depth hold id c).Agrees (Rule.parse (depth + 1) hold id c) := by
  induction depth generalizing hold id c with
  | zero =>
    intro w hw
    exact absurd rfl hw
  | succ depth ih =>
    intro w hw
    unfold Rule.parse at hw ⊢
    simp only at hw ⊢
    cases hrefusal : w.refusal? hold id c with
    | some refusal => rfl
    | none =>
      rw [hrefusal] at hw
      simp only at hw ⊢
      generalize (w.enter id c.position).definition id = d at hw ⊢
      obtain ⟨d, w'⟩ := d
      cases d with
      | error fault => rfl
      | ok found =>
        cases found with
        | none => rfl
        | some g =>
          -- the definition runs one level deeper, where the same holds of its rules
          have hbody := Grammar.run_agrees ih g c w' hw
          simp only [hbody]

/-- Any more levels change nothing where there were enough. -/
theorem Rule.parse_agrees {depth depth' : Nat} (hle : depth ≤ depth') (hold : Hold) (id : RuleId)
    (c : Cursor) : (Rule.parse depth hold id c).Agrees (Rule.parse depth' hold id c) := by
  induction hle with
  | refl => exact .refl _
  | step _ ih => exact ih.trans (Rule.parse_agrees_succ _ hold id c)

/-! ## Parses

A parse never gives up, so all greater depths come to the same. -/

/-- With the guard, a goal comes to an answer about the text or to a repetition that is stopped. -/
theorem Settles.ends {s : Source} {w : Workspace} {k : Course} {depth : Nat}
    {x : Outcome × Workspace} (h : Settles ⟨true, depth⟩ s w k x) :
    (∃ value next, x.1 = .matched value next) ∨ x.1 = .noMatch ∨ (∃ failure, x.1 = .failed failure)
      ∨ ∃ offset, x.1 = .fault (.stalled offset) := by
  obtain ⟨v, _, hx⟩ := h.comes
  rw [hx]
  cases v with
  | matched value rest => exact Or.inl ⟨value, _, rfl⟩
  | noMatch => exact Or.inr (Or.inl rfl)
  | failed message rest => exact Or.inr (Or.inr (Or.inl ⟨_, rfl⟩))
  | stalled rest => exact Or.inr (Or.inr (Or.inr ⟨_, rfl⟩))

namespace Workspace

variable {pool : List (Blueprint × Grammar)} {known : List Source} {w : Workspace} {b : Blueprint}
  {g : Grammar} {c : Cursor}

/-- **Every parse ends**, in a match, in no match, in a hard failure or with a repetition stopped
in its place; and it does the same to any greater depth. -/
theorem parse_terminates (h : InUse pool known w) (hg : (b, g) ∈ pool) (hc : c.Valid)
    (hs : c.source ∈ known) :
    ((∃ value next, (w.parse g c).1 = .matched value next) ∨ (w.parse g c).1 = .noMatch
        ∨ (∃ failure, (w.parse g c).1 = .failed failure)
        ∨ ∃ offset, (w.parse g c).1 = .fault (.stalled offset))
      ∧ ∀ depth, w.depthBudget c ≤ depth → g.run (Rule.parse depth) c w = w.parse g c := by
  have hends := (h.settles_parse hg hc hs).ends
  -- a parse that has ended did not give up, so more depth has nothing to change
  refine ⟨hends, fun depth hdepth => ?_⟩
  refine Grammar.run_agrees (Rule.parse_agrees hdepth) g c w fun hexhausted => ?_
  have hparse : (w.parse g c).1 = .fault .exhausted := hexhausted
  rw [hparse] at hends
  simp at hends

theorem parse_sums_terminates :
    ((∃ value next, ((withSums "1+1").parse (.rule .owned 0)
          (Source.start ⟨0, "1+1".toList⟩)).1 = .matched value next)
        ∨ ((withSums "1+1").parse (.rule .owned 0) (Source.start ⟨0, "1+1".toList⟩)).1 = .noMatch
        ∨ (∃ failure, ((withSums "1+1").parse (.rule .owned 0)
          (Source.start ⟨0, "1+1".toList⟩)).1 = .failed failure)
        ∨ ∃ offset, ((withSums "1+1").parse (.rule .owned 0)
          (Source.start ⟨0, "1+1".toList⟩)).1 = .fault (.stalled offset))
      ∧ ∀ depth, (withSums "1+1").depthBudget (Source.start ⟨0, "1+1".toList⟩) ≤ depth →
        (Grammar.rule .owned 0).run (Rule.parse depth) (Source.start ⟨0, "1+1".toList⟩)
            (withSums "1+1")
          = (withSums "1+1").parse (.rule .owned 0) (Source.start ⟨0, "1+1".toList⟩) :=
  parse_terminates (inUse_withSums "1+1") List.mem_cons_self (Cursor.valid_start _)
    List.mem_cons_self

end Workspace

end Packrat
