import Packrat.Proofs.Tracing.Trace

/-!
# How failures pass

A hard failure begins in one parser: in a requirement that is not met, in a transformation that
refuses a match, or in a rule that refuses to be parsed. From there it goes up through every parser
that is being run, and each of them returns it at once and as it is.

* **`Raises`** — a parser raises a failure itself, by the mark that comes right before its return.
* **`Passage`** — what the marks of a run show of its failure, if there is one.
* **`Nests`** — every call returns after those that were made in it; so whoever is called and has
  not returned when a failure begins is among those that return it.
* **`Workspace.traced_orderly`** — failures pass like this in every run, of whatever grammar and in
  whatever workspace; and where a run ends in a match or in none, every cache that called the
  parser behind it has stored the answer.
-/

namespace Packrat

/-! ## Raising and passing on

A failure has one origin. What is returned before it are answers, and what is returned after it is
the failure itself. -/

/-- The parser raises the failure itself when the mark is the last one before it returns. -/
inductive Raises : Mark → Grammar → Cursor → Failure → Prop where
  | required {message : String} {p : Grammar} {c : Cursor} :
      Raises (.returned p c .noMatch) (.required message p) c ⟨message, c.offset⟩
  | tryMap {f : Value → Except String Value} {p : Grammar} {c next : Cursor} {v : Value}
      {message : String} (h : f v = .error message) :
      Raises (.returned p c (.matched v next)) (.tryMap f p) c ⟨message, c.offset⟩
  -- the guard against left recursion, or a check of the handle or of the construction
  | rule {hold : Hold} {id : RuleId} {c : Cursor} (refusal : Refusal) :
      Raises (.called (.rule hold id) c) (.rule hold id) c ⟨refusal.message, c.offset⟩

/-- No failure is returned unless the outcome is one; and then it is raised once, and all that
follows are returns of the very same. -/
inductive Passage : Outcome → List Mark → Prop where
  | quiet {o : Outcome} {ms : List Mark} (ho : ∀ f, o ≠ .failed f)
      (hms : ∀ m ∈ ms, m.failure? = none) : Passage o ms
  | raised {before after : List Mark} {m : Mark} {g : Grammar} {c : Cursor} {f : Failure}
      (hraises : Raises m g c f) (hbefore : ∀ m' ∈ before ++ [m], m'.failure? = none)
      (hafter : ∀ m' ∈ after, m'.failure? = some f) :
      Passage (.failed f) (before ++ m :: .returned g c (.failed f) :: after)

/-! ## Calls and returns

Calls and returns are brackets. What stands open at some point of a trace is closed after it, the
latest first. -/

/-- What a mark makes of the calls that have not returned. -/
def Mark.onCalls (running : List (Grammar × Cursor)) : Mark → List (Grammar × Cursor)
  | .called g c => (g, c) :: running
  | .returned _ _ _ => running.tail
  | _ => running

/-- The calls that have not returned yet, the latest first. -/
def unreturned (ms : List Mark) : List (Grammar × Cursor) :=
  ms.foldl Mark.onCalls []

/-- From some calls that have not returned to others: it is always the latest that returns. -/
inductive Nests : List (Grammar × Cursor) → List Mark → List (Grammar × Cursor) → Prop where
  | nil {calls : List (Grammar × Cursor)} : Nests calls [] calls
  | called {calls calls' : List (Grammar × Cursor)} {ms : List Mark} {g : Grammar} {c : Cursor}
      (h : Nests ((g, c) :: calls) ms calls') : Nests calls (.called g c :: ms) calls'
  | returned {calls calls' : List (Grammar × Cursor)} {ms : List Mark} {g : Grammar} {c : Cursor}
      {o : Outcome} (h : Nests calls ms calls') :
      Nests ((g, c) :: calls) (.returned g c o :: ms) calls'
  | other {calls calls' : List (Grammar × Cursor)} {ms : List Mark} {m : Mark}
      (hm : ∀ running, m.onCalls running = running) (h : Nests calls ms calls') :
      Nests calls (m :: ms) calls'

namespace Nests

variable {calls calls' calls'' : List (Grammar × Cursor)} {ms ms' : List Mark}

theorem append (h : Nests calls ms calls') (h' : Nests calls' ms' calls'') :
    Nests calls (ms ++ ms') calls'' := by
  induction h with
  | nil => exact h'
  | called _ ih => exact .called (ih h')
  | returned _ ih => exact .returned (ih h')
  | other hm _ ih => exact .other hm (ih h')

/-- Nested calls can be looked at up to any mark. -/
theorem split (h : Nests calls (ms ++ ms') calls'') :
    ∃ calls', Nests calls ms calls' ∧ Nests calls' ms' calls'' := by
  induction ms generalizing calls with
  | nil => exact ⟨calls, .nil, h⟩
  | cons m ms ih =>
    cases h with
    | called h =>
      obtain ⟨calls', hfront, hback⟩ := ih h
      exact ⟨calls', .called hfront, hback⟩
    | returned h =>
      obtain ⟨calls', hfront, hback⟩ := ih h
      exact ⟨calls', .returned hfront, hback⟩
    | other hm h =>
      obtain ⟨calls', hfront, hback⟩ := ih h
      exact ⟨calls', .other hm hfront, hback⟩

theorem foldl_eq (h : Nests calls ms calls') : ms.foldl Mark.onCalls calls = calls' := by
  induction h with
  | nil => rfl
  | called _ ih => exact ih
  | returned _ ih => exact ih
  | other hm _ ih =>
    rw [List.foldl_cons, hm]
    exact ih

/-- When no call is left, each has returned. -/
theorem exists_returned (h : Nests calls ms []) {g : Grammar} {c : Cursor} (hmem : (g, c) ∈ calls) :
    ∃ o, Mark.returned g c o ∈ ms := by
  generalize hnone : ([] : List (Grammar × Cursor)) = none at h
  induction h with
  | nil => exact nomatch hnone ▸ hmem
  | called _ ih =>
    obtain ⟨o, ho⟩ := ih (List.mem_cons_of_mem _ hmem) hnone
    exact ⟨o, List.mem_cons_of_mem _ ho⟩
  | returned _ ih =>
    rcases List.mem_cons.1 hmem with heq | hmem
    · cases heq
      exact ⟨_, List.mem_cons_self⟩
    · obtain ⟨o, ho⟩ := ih hmem hnone
      exact ⟨o, List.mem_cons_of_mem _ ho⟩
  | other _ _ ih =>
    obtain ⟨o, ho⟩ := ih hmem hnone
    exact ⟨o, List.mem_cons_of_mem _ ho⟩

/-- Whoever is called and has not returned will do so. -/
theorem returned_of_unreturned (h : Nests [] (ms ++ ms') []) {g : Grammar} {c : Cursor}
    (hmem : (g, c) ∈ unreturned ms) : ∃ o, Mark.returned g c o ∈ ms' := by
  obtain ⟨calls, hfront, hback⟩ := h.split
  rw [unreturned, hfront.foldl_eq] at hmem
  exact hback.exists_returned hmem

end Nests

/-! ## Orderly marks

All that is wanted of the marks of a run is collected, so that it can be shown of each way in which
runs are put together. -/

/-- A match, or none. -/
def Outcome.IsAnswer : Outcome → Prop
  | .matched _ _ => True
  | .noMatch => True
  | .failed _ => False
  | .fault _ => False

/-- What the marks of a run with this outcome look like. -/
structure Outcome.Orderly (o : Outcome) (ms : List Mark) : Prop where
  passage : Passage o ms
  balanced : o.IsAnswer → ∀ k, (evaluations k ms).Perm (stores k ms)
  nested : ∀ calls, Nests calls ms calls

section

variable {o o' : Outcome} {ms ms' : List Mark} {g : Grammar} {c : Cursor} {f : Failure}

theorem Mark.failure?_returned (ho : ∀ f, o ≠ .failed f) :
    (Mark.returned g c o).failure? = none := by
  cases o with
  | matched v next => rfl
  | noMatch => rfl
  | failed f => exact absurd rfl (ho f)
  | fault f => rfl

theorem Mark.eq_returned {m : Mark} (h : m.failure? = some f) :
    ∃ g c, m = .returned g c (.failed f) := by
  cases m with
  | returned g c o =>
    cases o with
    | failed f' => cases h; exact ⟨g, c, rfl⟩
    | matched v next => cases h
    | noMatch => cases h
    | fault f' => cases h
  | called g c => cases h
  | evaluated k p => cases h
  | stored k p => cases h
  | counted name => cases h

theorem Outcome.IsAnswer.ne_failed (h : o.IsAnswer) (f : Failure) : o ≠ .failed f := by
  rintro rfl
  exact h

theorem Passage.clean (h : Passage o ms) (ho : ∀ f, o ≠ .failed f) :
    ∀ m ∈ ms, m.failure? = none := by
  cases h with
  | quiet _ hms => exact hms
  | raised => exact absurd rfl (ho _)

theorem Passage.exists_raises (h : Passage o ms) (ho : o = .failed f) :
    ∃ before m g c after, ms = before ++ m :: .returned g c (.failed f) :: after
      ∧ Raises m g c f := by
  cases h with
  | quiet hquiet => exact absurd ho (hquiet f)
  | raised hraises =>
    cases ho
    exact ⟨_, _, _, _, _, rfl, hraises⟩

/-- From the first return of a failure on, there are only returns of it. -/
theorem Passage.after_failure {before after : List Mark} {m : Mark}
    (h : Passage o (before ++ m :: after)) (hm : m.failure? = some f) :
    o = .failed f ∧ ∀ m' ∈ after, m'.failure? = some f := by
  generalize hms : before ++ m :: after = ms at h
  cases h with
  | quiet _ hclean =>
    have hnone := hclean m (by simp [← hms])
    rw [hm] at hnone
    cases hnone
  | @raised before' after' m₀ g c f₀ _ hbefore hafter =>
    have hsplit :
        before ++ m :: after = before' ++ [m₀] ++ .returned g c (.failed f₀) :: after' := by
      rw [hms, List.append_assoc]
      rfl
    -- the return of a failure is not among the marks before the first one
    rcases List.append_eq_append_iff.1 hsplit with ⟨xs, hfront, hback⟩ | ⟨xs, hfront, hback⟩
    · cases xs with
      | nil =>
        obtain ⟨rfl, rfl⟩ : m = .returned g c (.failed f₀) ∧ after = after' := by
          simpa using hback
        cases hm
        exact ⟨rfl, hafter⟩
      | cons x xs =>
        obtain ⟨rfl, _⟩ : m = x ∧ _ := by simpa using hback
        have hnone := hbefore m (by rw [hfront]; simp)
        rw [hm] at hnone
        cases hnone
    · have htail : m :: after <:+ .returned g c (.failed f₀) :: after' := ⟨xs, hback.symm⟩
      have hall : ∀ m' ∈ Mark.returned g c (.failed f₀) :: after', m'.failure? = some f₀ := by
        intro m' hm'
        rcases List.mem_cons.1 hm' with rfl | hm'
        · rfl
        · exact hafter m' hm'
      have hsame := hall m (htail.subset List.mem_cons_self)
      rw [hm] at hsame
      cases hsame
      exact ⟨rfl, fun m' hm' => hall m' (htail.subset (List.mem_cons_of_mem m hm'))⟩

theorem Passage.behind (h : Passage o' ms') (hms : ∀ m ∈ ms, m.failure? = none) :
    Passage o' (ms ++ ms') := by
  cases h with
  | quiet ho hms' =>
    refine .quiet ho fun m hm => ?_
    rcases List.mem_append.1 hm with hm | hm
    · exact hms m hm
    · exact hms' m hm
  | raised hraises hbefore hafter =>
    rw [← List.append_assoc]
    refine .raised hraises (fun m' hm' => ?_) hafter
    rw [List.append_assoc] at hm'
    rcases List.mem_append.1 hm' with hm' | hm'
    · exact hms m' hm'
    · exact hbefore m' hm'

theorem Passage.cons {m : Mark} (h : Passage o ms) (hm : m.failure? = none) :
    Passage o (m :: ms) :=
  h.behind fun m' hm' => by rwa [List.mem_singleton.1 hm']

/-- The parser around a run returns what the run comes to, a failure too. -/
theorem Passage.around (h : Passage o ms) (g : Grammar) (c : Cursor) :
    Passage o (.called g c :: (ms ++ [.returned g c o])) := by
  refine Passage.cons ?_ rfl
  cases h with
  | quiet ho hms =>
    refine .quiet ho fun m hm => ?_
    rcases List.mem_append.1 hm with hm | hm
    · exact hms m hm
    · rw [List.mem_singleton.1 hm]
      exact Mark.failure?_returned ho
  -- the failure has been raised inside, and the return behind it has the same one
  | raised hraises hbefore hafter =>
    show Passage _ (_ ++ _ ++ _)
    rw [List.append_assoc, List.cons_append, List.cons_append]
    refine .raised hraises hbefore fun m' hm' => ?_
    rcases List.mem_append.1 hm' with hm' | hm'
    · exact hafter m' hm'
    · rw [List.mem_singleton.1 hm']
      rfl

/-- A parser that raises a failure after marks without one. -/
theorem Passage.raise {m : Mark} (hraises : Raises m g c f)
    (hms : ∀ m' ∈ ms ++ [m], m'.failure? = none) :
    Passage (.failed f) (ms ++ [m] ++ [.returned g c (.failed f)]) := by
  rw [List.append_assoc]
  exact .raised hraises hms (by simp)

namespace Outcome.Orderly

theorem nil (ho : ∀ f, o ≠ .failed f) : o.Orderly [] where
  passage := .quiet ho (by simp)
  balanced _ _ := .refl _
  nested _ := .nil

/-- Going on after an answer. -/
theorem append (h : o.Orderly ms) (ho : o.IsAnswer) (h' : o'.Orderly ms') :
    o'.Orderly (ms ++ ms') where
  passage := h'.passage.behind (h.passage.clean ho.ne_failed)
  balanced ho' k := by
    rw [evaluations_append, stores_append]
    exact (h.balanced ho k).append (h'.balanced ho' k)
  nested calls := (h.nested calls).append (h'.nested calls)

/-- Another outcome that is no failure either. -/
theorem instead (h : o.Orderly ms) (ho : o.IsAnswer) (ho' : ∀ f, o' ≠ .failed f) :
    o'.Orderly ms where
  passage := .quiet ho' (h.passage.clean ho.ne_failed)
  balanced _ := h.balanced ho
  nested := h.nested

theorem around (h : o.Orderly ms) (g : Grammar) (c : Cursor) :
    o.Orderly (.called g c :: (ms ++ [.returned g c o])) where
  passage := h.passage.around g c
  balanced ho k := by
    rw [evaluations_around, stores_around]
    exact h.balanced ho k
  nested calls := .called ((h.nested ((g, c) :: calls)).append (.returned .nil))

/-- A cache that calls the parser behind it and stores the answer. -/
theorem stored (h : o.Orderly ms) (ho : o.IsAnswer) (k : CacheId) (p : Position) :
    o.Orderly (.evaluated k p :: (ms ++ [.stored k p])) where
  passage := by
    refine .quiet ho.ne_failed fun m hm => ?_
    rcases List.mem_cons.1 hm with rfl | hm
    · rfl
    · rcases List.mem_append.1 hm with hm | hm
      · exact h.passage.clean ho.ne_failed m hm
      · rw [List.mem_singleton.1 hm]
        rfl
  balanced _ i := by
    -- evaluated before the marks inside, and stored after them
    have hms := h.balanced ho i
    rw [evaluations_evaluated, evaluations_append, evaluations_stored, List.append_nil,
      stores_evaluated, stores_append, stores_stored]
    split
    · exact (hms.cons p).trans (List.perm_append_singleton p _).symm
    · rwa [List.append_nil]
  nested calls := .other (fun _ => rfl) ((h.nested calls).append (.other (fun _ => rfl) .nil))

/-- A cache that calls the parser behind it and has nothing to store. -/
theorem evaluated (h : o.Orderly ms) (ho : ¬o.IsAnswer) (k : CacheId) (p : Position) :
    o.Orderly (.evaluated k p :: ms) where
  passage := h.passage.cons rfl
  balanced hanswer := absurd hanswer ho
  nested calls := .other (fun _ => rfl) (h.nested calls)

theorem counted (h : o.Orderly ms) (name : String) : o.Orderly (.counted name :: ms) where
  passage := h.passage.cons rfl
  balanced := h.balanced
  nested calls := .other (fun _ => rfl) (h.nested calls)

/-- The parser around raises a failure after the marks of an answer. -/
theorem raise {m : Mark} (h : o.Orderly (ms ++ [m])) (ho : o.IsAnswer) (hraises : Raises m g c f) :
    (Outcome.failed f).Orderly (.called g c :: (ms ++ [m] ++ [.returned g c (.failed f)])) where
  passage := (Passage.raise hraises (h.passage.clean ho.ne_failed)).cons rfl
  balanced hanswer := hanswer.elim
  nested calls := .called ((h.nested ((g, c) :: calls)).append (.returned .nil))

end Outcome.Orderly

end

/-! ## Runs

Whoever runs other parsers runs them one at a time and stops at the first failure. That is the whole
argument, once for each combinator. -/

/-- The marks are orderly wherever the run starts. -/
def Traced.Orderly (r : Traced) : Prop :=
  ∀ w, (r w).1.1.Orderly (r w).2

namespace Traced

variable {r next : Traced}

theorem Orderly.done {o : Outcome} (ho : ∀ f, o ≠ .failed f) : (done o).Orderly :=
  fun _ => .nil ho

/-- What goes on after an answer is orderly if both parts are. -/
theorem Orderly.andThen {next : Value → Cursor → Traced} (h : r.Orderly)
    (hnext : ∀ v c, (next v c).Orderly) : (r.andThen next).Orderly := by
  intro w
  have hw := h w
  unfold Traced.andThen
  generalize r w = x at hw ⊢
  obtain ⟨⟨o, w'⟩, ms⟩ := x
  cases o with
  | matched v c => exact hw.append trivial (hnext v c w')
  | noMatch => exact hw
  | failed f => exact hw
  | fault f => exact hw

theorem Orderly.orElse (h : r.Orderly) (hnext : next.Orderly) : (r.orElse next).Orderly := by
  intro w
  have hw := h w
  unfold Traced.orElse
  generalize r w = x at hw ⊢
  obtain ⟨⟨o, w'⟩, ms⟩ := x
  cases o with
  | noMatch => exact hw.append trivial (hnext w')
  | matched v c => exact hw
  | failed f => exact hw
  | fault f => exact hw

/-- The rounds of a repetition are orderly, each after an answer of the one before. -/
theorem Orderly.repeatFrom {parser : Cursor → Traced} (h : ∀ c, (parser c).Orderly)
    (rounds : Nat) (values : List Value) (c : Cursor) :
    (Traced.repeatFrom parser rounds values c).Orderly := by
  induction rounds generalizing values c with
  | zero => exact .done (by simp)
  | succ rounds ih =>
    intro w
    have hw := h c w
    unfold Traced.repeatFrom
    generalize parser c w = x at hw ⊢
    obtain ⟨⟨o, w'⟩, ms⟩ := x
    cases o with
    | matched v next =>
      simp only
      split
      · exact hw.instead trivial (by simp)
      · exact hw.append trivial (ih (v :: values) next w')
    | noMatch =>
      simp only
      split
      · exact hw
      · exact hw.instead trivial (by simp)
    | failed f => exact hw
    | fault f => exact hw

theorem Orderly.viaCache (h : r.Orderly) (k : CacheId) (c : Cursor) :
    (Traced.viaCache k c r).Orderly := by
  intro w
  have hw := h w
  unfold Traced.viaCache
  cases w.cachedAt? k c.position with
  | some remembered =>
    cases remembered with
    | some answer => exact .nil (by simp)
    | none => exact .nil (by simp)
  | none =>
    simp only
    generalize r w = x at hw ⊢
    obtain ⟨⟨o, w'⟩, ms⟩ := x
    cases o with
    | matched v next => exact hw.stored trivial k c.position
    | noMatch => exact hw.stored trivial k c.position
    | failed f => exact hw.evaluated id k c.position
    | fault f => exact hw.evaluated id k c.position

theorem Orderly.around (h : r.Orderly) (g : Grammar) (c : Cursor) : (around g c r).Orderly :=
  fun w => (h w).around g c

end Traced

section

variable (tracedRule : Hold → RuleId → Cursor → Traced)

/-- The last thing that happens in a run of a parser is that it returns. -/
theorem Grammar.traced_ends_returned (g : Grammar) (c : Cursor) (w : Workspace) :
    ∃ ms, (g.traced tracedRule c w).2 = ms ++ [.returned g c (g.traced tracedRule c w).1.1] := by
  cases g <;> exact ⟨_ :: _, rfl⟩

variable {tracedRule}

/-- A transformation that refuses raises a failure of its own. -/
theorem Grammar.tryMap_orderly {p : Grammar} {c : Cursor} (f : Value → Except String Value)
    (h : (p.traced tracedRule c).Orderly) : ((tryMap f p).traced tracedRule c).Orderly := by
  intro w
  have hw := h w
  obtain ⟨front, hms⟩ := p.traced_ends_returned tracedRule c w
  simp only [Grammar.traced, Traced.around, Traced.andThen]
  generalize p.traced tracedRule c w = x at hw hms ⊢
  obtain ⟨⟨o, w'⟩, ms⟩ := x
  cases o with
  | matched v next =>
    simp only at hms ⊢
    cases hf : f v with
    | ok u =>
      have hu : (Outcome.matched u next).Orderly ms := hw.instead trivial (by simp)
      simp only [Traced.done, List.append_nil]
      exact hu.around _ c
    | error message =>
      -- the failure is raised right behind the return of the match
      simp only [Traced.done, List.append_nil]
      rw [hms] at hw ⊢
      exact hw.raise trivial (.tryMap hf)
  | noMatch => exact hw.around _ c
  | failed f => exact hw.around _ c
  | fault f => exact hw.around _ c

/-- So does a requirement that is not met. -/
theorem Grammar.required_orderly {p : Grammar} {c : Cursor} (message : String)
    (h : (p.traced tracedRule c).Orderly) :
    ((required message p).traced tracedRule c).Orderly := by
  intro w
  have hw := h w
  obtain ⟨front, hms⟩ := p.traced_ends_returned tracedRule c w
  simp only [Grammar.traced, Traced.around, Traced.orElse]
  generalize p.traced tracedRule c w = x at hw hms ⊢
  obtain ⟨⟨o, w'⟩, ms⟩ := x
  cases o with
  | noMatch =>
    -- the failure is raised right behind the return of no match
    simp only [List.append_nil] at hms ⊢
    rw [hms] at hw ⊢
    exact hw.raise trivial .required
  | matched v next => exact hw.around _ c
  | failed f => exact hw.around _ c
  | fault f => exact hw.around _ c

/-- The marks of a grammar are orderly if those of its rules are. Induction on the grammar. -/
theorem Grammar.traced_orderly
    (h : ∀ hold id c, (Traced.around (.rule hold id) c (tracedRule hold id c)).Orderly)
    (g : Grammar) (c : Cursor) : (g.traced tracedRule c).Orderly := by
  induction g generalizing c with
  | literal token => exact (Traced.Orderly.done (c.literal_ne_failed token)).around _ c
  | chars cls => exact (Traced.Orderly.done (c.chars_ne_failed cls)).around _ c
  | accept value => exact (Traced.Orderly.done (by simp)).around _ c
  | map f g ih => exact ((ih c).andThen fun _ _ => .done (by simp)).around _ c
  | tryMap f g ih => exact Grammar.tryMap_orderly f (ih c)
  | seq g g' ih ih' =>
    exact ((ih c).andThen fun _ d => (ih' d).andThen fun _ _ => .done (by simp)).around _ c
  | alt g g' ih ih' => exact ((ih c).orElse (ih' c)).around _ c
  | rep g ih => exact (Traced.Orderly.repeatFrom ih _ _ c).around _ c
  | required message g ih => exact Grammar.required_orderly message (ih c)
  | memo k g ih => exact ((ih c).viaCache k c).around _ c
  | count name g ih =>
    exact Traced.Orderly.around (fun w => (ih c (w.countCall name)).counted name) _ c
  | rule hold id => exact h hold id c

end

/-- A rule that refuses raises its failure at once. -/
theorem Refusal.orderly (refusal : Refusal) (hold : Hold) (id : RuleId) (c : Cursor) :
    (c.fail refusal.message).Orderly
      [.called (.rule hold id) c, .returned (.rule hold id) c (c.fail refusal.message)] where
  passage := by
    show Passage (.failed _) ([] ++ _ :: _)
    exact .raised (.rule refusal) (by simp [Mark.failure?]) (by simp)
  balanced hanswer := hanswer.elim
  nested _ := .called (.returned .nil)

/-- The marks of a rule are those of its definition, or it refuses. Induction on the depth. -/
theorem Rule.traced_orderly (depth : Nat) (hold : Hold) (id : RuleId) (c : Cursor) :
    (Traced.around (.rule hold id) c (Rule.traced depth hold id c)).Orderly := by
  induction depth generalizing hold id c with
  | zero => exact (Traced.Orderly.done (by simp)).around _ c
  | succ depth ih =>
    intro w
    simp only [Traced.around, Rule.traced]
    cases w.refusal? hold id c with
    | some refusal => exact refusal.orderly hold id c
    | none =>
      simp only
      generalize (w.enter id c.position).definition id = x
      obtain ⟨d, w'⟩ := x
      cases d with
      | error fault => exact (Outcome.Orderly.nil (by simp)).around _ c
      | ok d =>
        cases d with
        | none => exact Refusal.underConstruction.orderly hold id c
        | some g => exact (Grammar.traced_orderly ih g c w').around _ c

/-- **Failures pass as they are**, and every call from a cache that is answered is stored. -/
theorem Workspace.traced_orderly (w : Workspace) (g : Grammar) (c : Cursor) :
    (w.parse g c).1.Orderly (w.trace g c) := by
  rw [← w.traced_fst]
  exact Grammar.traced_orderly (Rule.traced_orderly _) g c w

end Packrat
