import Packrat.Proofs.Engine.Meaning

/-!
# How verdicts come about

The meaning of a blueprint, taken apart one combinator at a time, so that nothing has to be said
about courses any more when it comes to a particular grammar.

* **`Takes`**, **`Declines`** — a blueprint matches at a place with a value and a rest, or does not
  match there. One rule for each way in which a match or the lack of one comes about.
* **`Steps`** — a repetition as it goes: some values are collected, one after the other, each by
  moving on. It ends where the operand declines (`Steps.yields_rep`).
* **`Meets`** — a contract: the blueprint comes to a verdict at the place, and something is said of
  the match, of the lack of one, and of the hard failure; nothing is stalled. One rule for each
  combinator; that of a repetition (`meets_rep`) asks for an invariant of the values collected so
  far, that of a left-associative level (`meets_level`) for one of the operands.
* **`Delivers`** — the contract of which only the match has to say something, with rules of its own
  where that makes them simpler.
-/

namespace Packrat

/-! ## Matches and the lack of them

For each combinator there is a rule for its match and rules for how it declines. Where the rule
would only repeat its name, nothing more is said. -/

/-- The blueprint matches with the value and leaves the rest. -/
def Takes (Γ : Context) (p : Blueprint) (cs : List Char) (v : Value) (rest : List Char) : Prop :=
  (Goal.parse Γ p cs).Yields (.matched v rest)

/-- The blueprint does not match. -/
def Declines (Γ : Context) (p : Blueprint) (cs : List Char) : Prop :=
  (Goal.parse Γ p cs).Yields .noMatch

section

variable {Γ : Context} {p a b : Blueprint} {cs ds es : List Char} {u v w : Value}

/-- What is left of the text lies ahead. -/
theorem Takes.suffix (h : Takes Γ p cs v ds) : ds <:+ cs :=
  Goal.Yields.within h

/-- A token that stands ahead is taken. -/
theorem takes_literal (token : String) (rest : List Char) :
    Takes Γ (.literal token) (token.toList ++ rest) (.text token) rest := by
  have hverdict : Verdict.literal token (token.toList ++ rest) = .matched (.text token) rest := by
    have hprefix : token.toList.isPrefixOf (token.toList ++ rest) = true := by simp
    rw [Verdict.literal, if_pos hprefix, List.drop_left]
  unfold Takes
  rw [← hverdict]
  exact .done _

/-- A token that does not stand ahead is declined. -/
theorem declines_literal {token : String} (h : ¬token.toList <+: cs) :
    Declines Γ (.literal token) cs := by
  have hverdict : Verdict.literal token cs = .noMatch := by
    refine if_neg fun hprefix => h ?_
    exact List.isPrefixOf_iff_prefix.1 hprefix
  unfold Declines
  rw [← hverdict]
  exact .done _

/-- Nothing at all is always taken. -/
theorem takes_accept (v : Value) (cs : List Char) : Takes Γ (.accept v) cs v cs :=
  .done _

theorem Takes.map (h : Takes Γ p cs v ds) (f : Value → Value) : Takes Γ (.map f p) cs (f v) ds :=
  .ask h (.done _)

theorem Declines.map (h : Declines Γ p cs) (f : Value → Value) : Declines Γ (.map f p) cs :=
  .ask h (.done _)

/-- A match is transformed if the transformation accepts its value. -/
theorem Takes.tryMap {f : Value → Except String Value} (h : Takes Γ p cs u ds) (hf : f u = .ok v) :
    Takes Γ (.tryMap f p) cs v ds := by
  refine .ask h ?_
  show (Course.done (.transformed cs (f u) ds)).Yields _
  rw [hf]
  exact .done _

/-- A transformation is not asked where there is no match. -/
theorem Declines.tryMap (h : Declines Γ p cs) (f : Value → Except String Value) :
    Declines Γ (.tryMap f p) cs :=
  .ask h (.done _)

/-- Both parts of a sequence are taken, one behind the other. -/
theorem Takes.seq (ha : Takes Γ a cs u ds) (hb : Takes Γ b ds v es) :
    Takes Γ (.seq a b) cs (.pair u v) es :=
  .ask ha (.ask hb (.done _))

/-- A sequence declines with its first part. -/
theorem Declines.seq (ha : Declines Γ a cs) (b : Blueprint) : Declines Γ (.seq a b) cs :=
  .ask ha (.done _)

/-- A sequence declines with its second part, and the match of the first one is lost. -/
theorem Takes.declines_seq (ha : Takes Γ a cs u ds) (hb : Declines Γ b ds) :
    Declines Γ (.seq a b) cs :=
  .ask ha (.ask hb (.done _))

/-- Of a sequence one value may be kept, the first or the second. -/
theorem Takes.left (ha : Takes Γ a cs u ds) (hb : Takes Γ b ds v es) :
    Takes Γ (.left a b) cs u es :=
  (ha.seq hb).map Value.first

theorem Takes.right (ha : Takes Γ a cs u ds) (hb : Takes Γ b ds v es) :
    Takes Γ (.right a b) cs v es :=
  (ha.seq hb).map Value.second

/-- A sequence has been taken part by part. -/
theorem Takes.exists_of_seq (h : Takes Γ (.seq a b) cs w es) :
    ∃ u v ds, w = .pair u v ∧ Takes Γ a cs u ds ∧ Takes Γ b ds v es := by
  cases h with
  | @ask _ _ x _ ha hnext =>
    cases x with
    | matched u ds =>
      cases hnext with
      | @ask _ _ y _ hb hdone =>
        cases y with
        | matched v fs =>
          cases hdone
          exact ⟨u, v, ds, rfl, ha, hb⟩
        | _ => cases hdone
    | _ => cases hnext

/-- Under another value there is a match of the parser. -/
theorem Takes.exists_of_map {f : Value → Value} (h : Takes Γ (.map f p) cs w ds) :
    ∃ v, w = f v ∧ Takes Γ p cs v ds := by
  cases h with
  | @ask _ _ x _ hp hdone =>
    cases x with
    | matched v es =>
      cases hdone
      exact ⟨v, rfl, hp⟩
    | _ => cases hdone

theorem Takes.exists_of_right (h : Takes Γ (.right a b) cs v es) :
    ∃ u ds, Takes Γ a cs u ds ∧ Takes Γ b ds v es := by
  obtain ⟨_, rfl, hseq⟩ := h.exists_of_map
  obtain ⟨u, _, ds, rfl, ha, hb⟩ := hseq.exists_of_seq
  exact ⟨u, ds, ha, hb⟩

theorem Declines.left (ha : Declines Γ a cs) (b : Blueprint) : Declines Γ (.left a b) cs :=
  (ha.seq b).map Value.first

theorem Declines.right (ha : Declines Γ a cs) (b : Blueprint) : Declines Γ (.right a b) cs :=
  (ha.seq b).map Value.second

theorem Takes.declines_left (ha : Takes Γ a cs u ds) (hb : Declines Γ b ds) :
    Declines Γ (.left a b) cs :=
  (ha.declines_seq hb).map Value.first

theorem Takes.declines_right (ha : Takes Γ a cs u ds) (hb : Declines Γ b ds) :
    Declines Γ (.right a b) cs :=
  (ha.declines_seq hb).map Value.second

/-- The first alternative that is taken is the one that counts. -/
theorem Takes.alt_first (h : Takes Γ a cs v ds) (b : Blueprint) : Takes Γ (.alt a b) cs v ds :=
  .ask h (.done _)

theorem Takes.alt_second (ha : Declines Γ a cs) (hb : Takes Γ b cs v ds) :
    Takes Γ (.alt a b) cs v ds :=
  .ask ha (Course.yields_ask_done.2 hb)

/-- If all alternatives decline, the choice does. -/
theorem Declines.alt (ha : Declines Γ a cs) (hb : Declines Γ b cs) : Declines Γ (.alt a b) cs :=
  .ask ha (Course.yields_ask_done.2 hb)

/-- What is required is taken as it is. -/
theorem Takes.required (h : Takes Γ p cs v ds) (message : String) :
    Takes Γ (.required message p) cs v ds :=
  .ask h (.done _)

/-- Caches only pass the question on. -/
theorem Takes.memo (h : Takes Γ p cs v ds) (name : Option String) :
    Takes Γ (.memo name p) cs v ds :=
  Course.yields_ask_done.2 h

theorem Declines.memo (h : Declines Γ p cs) (name : Option String) : Declines Γ (.memo name p) cs :=
  Course.yields_ask_done.2 h

/-- A rule is taken as its body is, inside the rule. -/
theorem Takes.rule {label : RuleLabel} (h : Takes ((label.name, p) :: Γ) p cs v ds) :
    Takes Γ (.rule label p) cs v ds :=
  Course.yields_ask_done.2 h

/-- A name is taken as the body of its rule is, inside the rules around that one. -/
theorem Takes.self {name : String} {outer : Context} (hfind : Γ.find? name = some (p, outer))
    (h : Takes ((name, p) :: outer) p cs v ds) : Takes Γ (.self name) cs v ds := by
  unfold Takes Goal.Yields
  rw [Goal.course, hfind]
  exact Course.yields_ask_done.2 h

theorem Declines.self {name : String} {outer : Context} (hfind : Γ.find? name = some (p, outer))
    (h : Declines ((name, p) :: outer) p cs) : Declines Γ (.self name) cs := by
  unfold Declines Goal.Yields
  rw [Goal.course, hfind]
  exact Course.yields_ask_done.2 h

/-- A level is taken as the chain that it stands for. -/
theorem Takes.level {assoc : Assoc} {ops : List Operator} (cached : Bool)
    (h : Takes Γ (assoc.chain p (Operator.longestFirst ops)) cs v ds) :
    Takes Γ (.level assoc ops cached p) cs v ds :=
  Course.yields_ask_done.2 h

end

/-! ## Runs of a class

A class takes all members ahead, so what follows a match of it is a stop. This is the one place in
which a parser looks further than its own match. -/

section

variable {Γ : Context} {p : Blueprint} {cls : CharClass} {cs ds es run : List Char} {v : Value}

/-- No member of the class stands at the beginning of the text. -/
def CharClass.Stops (cls : CharClass) (cs : List Char) : Prop :=
  ∀ c, cs.head? = some c → cls.contains c = false

/-- A text is stopped at once by its first character. -/
theorem CharClass.Stops.cons {c : Char} (hc : cls.contains c = false) (cs : List Char) :
    cls.Stops (c :: cs) := by
  rintro _ ⟨⟩
  exact hc

/-- Where a class is stopped there is nothing to skip. -/
theorem CharClass.Stops.afterRun_eq (h : cls.Stops cs) : cls.afterRun cs = cs := by
  cases cs with
  | nil => rfl
  | cons c cs =>
    rw [CharClass.afterRun, List.dropWhile_cons_of_neg]
    simp [h c rfl]

/-- Behind its run a class is stopped. -/
theorem CharClass.stops_afterRun (cls : CharClass) (cs : List Char) :
    cls.Stops (cls.afterRun cs) := by
  intro c hc
  have hne : cls.afterRun cs ≠ [] := by
    rintro hnil
    rw [hnil] at hc
    cases hc
  have hhead := List.head_dropWhile_not cls.contains hne
  rw [List.head?_eq_some_head hne] at hc
  rw [← Option.some.inj hc]
  exact hhead

/-- A run is made of members. -/
theorem CharClass.contains_of_mem_leadingRun {c : Char} (h : c ∈ cls.leadingRun cs) :
    cls.contains c = true :=
  List.all_eq_true.1 List.all_takeWhile c h

/-- A class has a run ahead unless the text stops it at once. -/
theorem CharClass.leadingRun_eq_nil_iff : cls.leadingRun cs = [] ↔ cls.Stops cs := by
  have hsplit := cls.leadingRun_append_afterRun cs
  constructor
  · intro hrun
    rw [hrun, List.nil_append] at hsplit
    rw [← hsplit]
    exact cls.stops_afterRun cs
  · intro hstops
    rw [hstops.afterRun_eq] at hsplit
    exact List.append_left_eq_self.1 hsplit

/-- Members with a stop behind them are just the run. -/
theorem CharClass.leadingRun_append (hrun : ∀ c ∈ run, cls.contains c = true) (hds : cls.Stops ds) :
    cls.leadingRun (run ++ ds) = run ∧ cls.afterRun (run ++ ds) = ds := by
  have hstop : ds.takeWhile cls.contains = [] ∧ ds.dropWhile cls.contains = ds :=
    ⟨leadingRun_eq_nil_iff.2 hds, hds.afterRun_eq⟩
  unfold CharClass.leadingRun CharClass.afterRun
  rw [List.takeWhile_append_of_pos hrun, List.dropWhile_append_of_pos hrun, hstop.1, hstop.2]
  exact ⟨List.append_nil _, rfl⟩

/-- A class takes the members ahead, up to a stop. -/
theorem takes_chars (hne : run ≠ []) (hrun : ∀ c ∈ run, cls.contains c = true)
    (hds : cls.Stops ds) :
    Takes Γ (.chars cls) (run ++ ds) (.text (String.ofList run)) ds := by
  obtain ⟨hleading, hafter⟩ := CharClass.leadingRun_append hrun hds
  have hverdict : Verdict.chars cls (run ++ ds) = .matched (.text (String.ofList run)) ds := by
    rw [Verdict.chars, hleading, hafter, if_neg]
    simpa using hne
  unfold Takes
  rw [← hverdict]
  exact .done _

/-- A class declines where it is stopped at once. -/
theorem declines_chars (h : cls.Stops cs) : Declines Γ (.chars cls) cs := by
  have hverdict : Verdict.chars cls cs = .noMatch := by
    rw [Verdict.chars, CharClass.leadingRun_eq_nil_iff.2 h]
    rfl
  unfold Declines
  rw [← hverdict]
  exact .done _

theorem declines_never (Γ : Context) (cs : List Char) : Declines Γ .never cs :=
  declines_chars fun _ _ => rfl

/-- Skipping a class takes what there is of it, if only nothing. -/
theorem takes_skip (Γ : Context) (cls : CharClass) (cs : List Char) :
    ∃ v, Takes Γ (.skip cls) cs v (cls.afterRun cs) := by
  by_cases hne : cls.leadingRun cs = []
  · have hstops := CharClass.leadingRun_eq_nil_iff.1 hne
    rw [hstops.afterRun_eq]
    exact ⟨_, .alt_second (declines_chars hstops) (takes_accept _ _)⟩
  · have htakes := @takes_chars Γ cls (cls.afterRun cs) _ hne
      (fun _ => CharClass.contains_of_mem_leadingRun) (cls.stops_afterRun cs)
    rw [cls.leadingRun_append_afterRun] at htakes
    exact ⟨_, htakes.alt_first _⟩

/-- Padding skips the class before and after. -/
theorem Takes.padded (h : Takes Γ p (cls.afterRun cs) v ds) :
    Takes Γ (.padded cls p) cs v (cls.afterRun ds) := by
  obtain ⟨_, hbefore⟩ := takes_skip Γ cls cs
  obtain ⟨_, hafter⟩ := takes_skip Γ cls ds
  exact hbefore.right (h.left hafter)

/-- What is skipped before a parser does not make up for it. -/
theorem Declines.padded (h : Declines Γ p (cls.afterRun cs)) : Declines Γ (.padded cls p) cs := by
  obtain ⟨_, hbefore⟩ := takes_skip Γ cls cs
  exact hbefore.declines_right (h.left _)

/-- What the class has before a padded parser makes no difference to it. -/
theorem Takes.padded_of_afterRun_eq (h : Takes Γ (.padded cls p) cs v ds)
    (hes : cls.afterRun es = cls.afterRun cs) : Takes Γ (.padded cls p) es v ds := by
  obtain ⟨u, fs, hskip, hp⟩ := h.exists_of_right
  obtain ⟨_, hbefore⟩ := takes_skip Γ cls cs
  obtain ⟨_, hagain⟩ := takes_skip Γ cls es
  rw [hes] at hagain
  -- what is skipped before the parser ends where the class does
  cases Goal.yields_unique hskip hbefore
  exact hagain.right hp

end

/-! ## Repetitions

A repetition is followed round by round. What has been collected is kept in the order of the text
here, and in reverse in the rounds. -/

/-- The operand is taken once for each value, and each time moves on. -/
inductive Steps (Γ : Context) (p : Blueprint) (cs : List Char) : List Value → List Char → Prop where
  | none : Steps Γ p cs [] cs
  | more {vs : List Value} {v : Value} {ds es : List Char} (h : Steps Γ p cs vs ds)
      (hv : Takes Γ p ds v es) (hmoved : es ≠ ds) : Steps Γ p cs (vs ++ [v]) es

section

variable {Γ : Context} {p : Blueprint} {cs ds : List Char} {vs : List Value}

/-- Without a step there is no move. -/
theorem Steps.rest_eq (h : Steps Γ p cs [] ds) : ds = cs := by
  generalize hvs : ([] : List Value) = vs at h
  cases h with
  | none => rfl
  | more h hv hmoved => simp at hvs

/-- A step before the others. -/
theorem Steps.cons {v : Value} {es : List Char} (hv : Takes Γ p cs v ds) (hmoved : ds ≠ cs)
    (h : Steps Γ p ds vs es) : Steps Γ p cs (v :: vs) es := by
  induction h with
  | none => exact .more .none hv hmoved
  | more _ hw hmoved ih => exact .more ih hw hmoved

/-- Steps behind steps. -/
theorem Steps.append {us : List Value} {es : List Char} (h : Steps Γ p cs vs ds)
    (h' : Steps Γ p ds us es) : Steps Γ p cs (vs ++ us) es := by
  induction h' with
  | none => rwa [List.append_nil]
  | more _ hv hmoved ih =>
    rw [← List.append_assoc]
    exact .more ih hv hmoved

/-- What the round after the steps comes to, the repetition comes to. Induction on the steps. -/
theorem Steps.yields_again (h : Steps Γ p cs vs ds) {u : Verdict}
    (hu : (Goal.again Γ p vs.reverse ds).Yields u) : (Goal.again Γ p [] cs).Yields u := by
  induction h with
  | none => exact hu
  | more _ hv hmoved ih =>
    -- the rounds collect in reverse, so the last step is the first of the list
    refine ih (.ask hv ?_)
    simp only [if_neg hmoved]
    rw [List.reverse_append] at hu
    exact Course.yields_ask_done.2 hu

/-- Where the operand declines, the repetition ends with what has been collected. -/
theorem Steps.yields_rep (h : Steps Γ p cs vs ds) (hend : Declines Γ p ds) :
    (Goal.parse Γ (.rep p) cs).Yields (.collected vs.reverse ds) :=
  Course.yields_ask_done.2 (h.yields_again (.ask hend (.done _)))

/-- That is a match if anything has been collected. -/
theorem Steps.takes_rep (h : Steps Γ p cs vs ds) (hend : Declines Γ p ds) (hne : vs ≠ []) :
    Takes Γ (.rep p) cs (.list vs) ds := by
  have hyields := h.yields_rep hend
  rw [Verdict.collected, if_neg (by simpa using hne), List.reverse_reverse] at hyields
  exact hyields

/-- A repetition of nothing declines. -/
theorem Declines.rep (h : Declines Γ p cs) : Declines Γ (.rep p) cs :=
  Steps.yields_rep .none h

end

/-! ## Contracts

Where a verdict is not known, something may still be known of it. Contracts have three clauses,
since a match, the lack of one and a failure are handed on in different ways; a stalled repetition
is excluded by every contract. -/

/-- What is said of the match, of the lack of one, and of the hard failure; nothing is stalled. -/
def Verdict.Fits (M : Value → List Char → Prop) (N : Prop) (F : String → List Char → Prop) :
    Verdict → Prop
  | .matched v rest => M v rest
  | .noMatch => N
  | .failed message rest => F message rest
  | .stalled _ => False

/-- The blueprint comes to a verdict that fits. -/
def Meets (Γ : Context) (p : Blueprint) (cs : List Char) (M : Value → List Char → Prop) (N : Prop)
    (F : String → List Char → Prop) : Prop :=
  ∃ v, (Goal.parse Γ p cs).Yields v ∧ v.Fits M N F

/-- The contract of which only matches have to say something: it allows that there is none, and
hard failures with some messages. -/
abbrev Delivers (allowed : List String) (Γ : Context) (p : Blueprint) (cs : List Char)
    (P : Value → List Char → Prop) : Prop :=
  Meets Γ p cs P True fun message _ => message ∈ allowed

section

variable {Γ : Context} {p a b : Blueprint} {cs ds : List Char} {v : Value} {message : String}
  {M M' : Value → List Char → Prop} {N N' : Prop} {F F' : String → List Char → Prop}

/-- A contract may say less. In saying so, the places can be taken to lie ahead. -/
theorem Meets.mono (h : Meets Γ p cs M N F) (hM : ∀ v ds, ds <:+ cs → M v ds → M' v ds)
    (hN : N → N') (hF : ∀ message rest, rest <:+ cs → F message rest → F' message rest) :
    Meets Γ p cs M' N' F' := by
  obtain ⟨u, hu, hfits⟩ := h
  refine ⟨u, hu, ?_⟩
  cases u with
  | matched v rest => exact hM v rest (Goal.Yields.within hu) hfits
  | noMatch => exact hN hfits
  | failed message rest => exact hF message rest (Goal.Yields.within hu) hfits
  | stalled rest => exact hfits

/-- Only what is said of the lack of a match is weakened. -/
theorem Meets.otherwise (h : Meets Γ p cs M N F) (hN : N → N') : Meets Γ p cs M N' F :=
  h.mono (fun _ _ _ hM => hM) hN fun _ _ _ hF => hF

/-- There is one verdict only, so what a contract says of it is so. -/
theorem Meets.fits (h : Meets Γ p cs M N F) {u : Verdict} (hu : (Goal.parse Γ p cs).Yields u) :
    u.Fits M N F := by
  obtain ⟨u', hu', hfits⟩ := h
  rwa [Goal.yields_unique hu hu']

/-- What the verdict says for itself can be used with what the contract says of it. -/
theorem Meets.recall (h : Meets Γ p cs M N F) :
    Meets Γ p cs (fun v ds => Takes Γ p cs v ds ∧ M v ds) (Declines Γ p cs ∧ N)
      fun message rest => ¬Declines Γ p cs ∧ F message rest := by
  obtain ⟨u, hu, hfits⟩ := h
  refine ⟨u, hu, ?_⟩
  cases u with
  | matched v rest => exact ⟨hu, hfits⟩
  | noMatch => exact ⟨hu, hfits⟩
  | failed message rest => exact ⟨fun hnone => (nomatch Goal.yields_unique hu hnone), hfits⟩
  | stalled rest => exact hfits

/-- Two contracts are of one verdict. -/
theorem Meets.and (h : Meets Γ p cs M N F) (h' : Meets Γ p cs M' N' F') :
    Meets Γ p cs (fun v ds => M v ds ∧ M' v ds) (N ∧ N')
      fun message rest => F message rest ∧ F' message rest := by
  obtain ⟨u, hu, hfits⟩ := h
  refine ⟨u, hu, ?_⟩
  have hfits' := h'.fits hu
  cases u with
  | matched v rest => exact ⟨hfits, hfits'⟩
  | noMatch => exact ⟨hfits, hfits'⟩
  | failed message rest => exact ⟨hfits, hfits'⟩
  | stalled rest => exact hfits

/-- A verdict that is known meets what is said of it. -/
theorem Declines.meets (h : Declines Γ p cs) (hN : N) : Meets Γ p cs M N F :=
  ⟨_, h, hN⟩

theorem Takes.meets (h : Takes Γ p cs v ds) (hM : M v ds) : Meets Γ p cs M N F :=
  ⟨_, h, hM⟩

/-- A contract that allows for nothing else says that the blueprint declines. -/
theorem Meets.declines (h : Meets Γ p cs (fun _ _ => False) N fun _ _ => False) :
    Declines Γ p cs := by
  obtain ⟨u, hu, hfits⟩ := h
  cases u with
  | noMatch => exact hu
  | matched v rest => exact hfits.elim
  | failed message rest => exact hfits.elim
  | stalled rest => exact hfits.elim

/-- A contract that allows for one failure only says that the blueprint fails so. -/
theorem Meets.fails {rest : List Char}
    (h : Meets Γ p cs (fun _ _ => False) False fun text ds => text = message ∧ ds = rest) :
    (Goal.parse Γ p cs).Yields (.failed message rest) := by
  obtain ⟨u, hu, hfits⟩ := h
  cases u with
  | failed text ds =>
    obtain ⟨rfl, rfl⟩ := hfits
    exact hu
  | matched v ds => exact hfits.elim
  | noMatch => exact hfits.elim
  | stalled ds => exact hfits.elim

/-- A match is not the lack of one. -/
theorem Takes.not_declines (h : Takes Γ p cs v ds) : ¬Declines Γ p cs :=
  fun hnone => nomatch Goal.yields_unique h hnone

/-! ### One rule for each combinator

The rules are read from the bottom up: to meet a contract with a combinator, its parts have to meet
these. -/

/-- A token stands ahead or does not. -/
theorem meets_literal {token : String}
    (h : ∀ rest, cs = token.toList ++ rest → M (.text token) rest)
    (hnone : ¬token.toList <+: cs → N) : Meets Γ (.literal token) cs M N F := by
  by_cases hprefix : token.toList <+: cs
  · obtain ⟨rest, rfl⟩ := hprefix
    exact (takes_literal token rest).meets (h rest rfl)
  · exact (declines_literal hprefix).meets (hnone hprefix)

/-- A class has a run ahead, with a stop behind it, or is stopped at once. -/
theorem meets_chars {cls : CharClass}
    (h : ∀ run rest, run ≠ [] → (∀ c ∈ run, cls.contains c = true) → cs = run ++ rest →
      cls.Stops rest → M (.text (String.ofList run)) rest)
    (hnone : cls.Stops cs → N) : Meets Γ (.chars cls) cs M N F := by
  have hrun : ∀ c ∈ cls.leadingRun cs, cls.contains c = true :=
    fun _ => CharClass.contains_of_mem_leadingRun
  have hsplit := cls.leadingRun_append_afterRun cs
  have hstops := cls.stops_afterRun cs
  by_cases hne : cls.leadingRun cs = []
  · rw [hne, List.nil_append] at hsplit
    rw [hsplit] at hstops
    exact (declines_chars hstops).meets (hnone hstops)
  · have htakes := @takes_chars Γ cls (cls.afterRun cs) _ hne hrun hstops
    rw [hsplit] at htakes
    exact htakes.meets (h _ _ hne hrun hsplit.symm hstops)

theorem meets_accept (h : M v cs) : Meets Γ (.accept v) cs M N F :=
  (takes_accept v cs).meets h

/-- Going on after a match; any other verdict is that of the whole. -/
theorem meets_onMatch {n : Goal} {next : Value → List Char → Course} {u : Verdict}
    (hn : n.Yields u)
    (h : u.Fits (fun v ds => ∃ u', (next v ds).Yields u' ∧ u'.Fits M N F) N F) :
    ∃ u', (Course.onMatch n next).Yields u' ∧ u'.Fits M N F := by
  cases u with
  | matched v ds =>
    obtain ⟨u', hu', hfits⟩ := h
    exact ⟨u', .ask hn hu', hfits⟩
  | noMatch => exact ⟨_, .ask hn (.done _), h⟩
  | failed message rest => exact ⟨_, .ask hn (.done _), h⟩
  | stalled rest => exact h.elim

theorem meets_map {f : Value → Value} (h : Meets Γ p cs (fun v ds => M (f v) ds) N F) :
    Meets Γ (.map f p) cs M N F := by
  obtain ⟨u, hu, hfits⟩ := h
  refine meets_onMatch hu ?_
  cases u with
  | matched v ds => exact ⟨_, .done _, hfits⟩
  | noMatch => exact hfits
  | failed message rest => exact hfits
  | stalled rest => exact hfits

theorem meets_tryMap {f : Value → Except String Value}
    (h : Meets Γ p cs (fun v ds => ∃ u, f v = .ok u ∧ M u ds) N F) :
    Meets Γ (.tryMap f p) cs M N F := by
  obtain ⟨u, hu, hfits⟩ := h
  refine meets_onMatch hu ?_
  cases u with
  | matched v ds =>
    obtain ⟨u, hok, hM⟩ := hfits
    refine ⟨_, .done _, ?_⟩
    rw [hok]
    exact hM
  | noMatch => exact hfits
  | failed message rest => exact hfits
  | stalled rest => exact hfits

/-- The contract of the first part is the one that the second part has of what is left. -/
theorem meets_seq
    (h : Meets Γ a cs (fun u ds => Meets Γ b ds (fun v es => M (.pair u v) es) N F) N F) :
    Meets Γ (.seq a b) cs M N F := by
  obtain ⟨x, hx, hfits⟩ := h
  refine meets_onMatch hx ?_
  cases x with
  | matched u ds =>
    obtain ⟨y, hy, hfits⟩ := hfits
    refine meets_onMatch hy ?_
    cases y with
    | matched v es => exact ⟨_, .done _, hfits⟩
    | noMatch => exact hfits
    | failed message rest => exact hfits
    | stalled rest => exact hfits
  | noMatch => exact hfits
  | failed message rest => exact hfits
  | stalled rest => exact hfits

theorem meets_left
    (h : Meets Γ a cs (fun u ds => Meets Γ b ds (fun _ es => M u es) N F) N F) :
    Meets Γ (.left a b) cs M N F :=
  meets_map (meets_seq h)

theorem meets_right (h : Meets Γ a cs (fun _ ds => Meets Γ b ds M N F) N F) :
    Meets Γ (.right a b) cs M N F :=
  meets_map (meets_seq h)

/-- The second alternative is only asked if the first one declines. -/
theorem meets_alt (h : Meets Γ a cs M (Meets Γ b cs M N F) F) : Meets Γ (.alt a b) cs M N F := by
  obtain ⟨u, hu, hfits⟩ := h
  cases u with
  | noMatch =>
    obtain ⟨v, hv, hfits⟩ := hfits
    exact ⟨v, .ask hu (Course.yields_ask_done.2 hv), hfits⟩
  | matched v rest => exact ⟨_, .ask hu (.done _), hfits⟩
  | failed message rest => exact ⟨_, .ask hu (.done _), hfits⟩
  | stalled rest => exact hfits.elim

/-- If none of the options matches, there is something to say of each of them. -/
theorem meets_firstOf {α : Type} {l : List α} {option : α → Blueprint} {E : α → Prop}
    (h : ∀ x ∈ l, Meets Γ (option x) cs M (E x) F) (hnone : (∀ x ∈ l, E x) → N) :
    Meets Γ (.firstOf (l.map option)) cs M N F := by
  induction l with
  | nil => exact (declines_never Γ cs).meets (hnone (List.forall_mem_nil _))
  | cons x l ih =>
    refine meets_alt ((h x List.mem_cons_self).otherwise fun hx => ?_)
    refine ih (fun y hy => h y (List.mem_cons_of_mem x hy)) fun hothers => hnone ?_
    exact List.forall_mem_cons.2 ⟨hx, hothers⟩

/-- The lack of a match is a failure at the place where it was required. -/
theorem meets_required (h : Meets Γ p cs M (F message cs) F) :
    Meets Γ (.required message p) cs M N F := by
  obtain ⟨u, hu, hfits⟩ := h
  cases u with
  | noMatch => exact ⟨_, .ask hu (.done _), hfits⟩
  | matched v rest => exact ⟨_, .ask hu (.done _), hfits⟩
  | failed message rest => exact ⟨_, .ask hu (.done _), hfits⟩
  | stalled rest => exact hfits.elim

theorem meets_memo {name : Option String} (h : Meets Γ p cs M N F) :
    Meets Γ (.memo name p) cs M N F := by
  obtain ⟨u, hu, hfits⟩ := h
  exact ⟨u, Course.yields_ask_done.2 hu, hfits⟩

theorem meets_rule {label : RuleLabel} (h : Meets ((label.name, p) :: Γ) p cs M N F) :
    Meets Γ (.rule label p) cs M N F := by
  obtain ⟨u, hu, hfits⟩ := h
  exact ⟨u, Course.yields_ask_done.2 hu, hfits⟩

/-- A name meets what the body of its rule does. -/
theorem meets_self {name : String} {outer : Context} (hfind : Γ.find? name = some (p, outer))
    (h : Meets ((name, p) :: outer) p cs M N F) : Meets Γ (.self name) cs M N F := by
  obtain ⟨u, hu, hfits⟩ := h
  refine ⟨u, ?_, hfits⟩
  unfold Goal.Yields
  rw [Goal.course, hfind]
  exact Course.yields_ask_done.2 hu

/-- A run of a class before the operand, and one after it. -/
theorem meets_padded {cls : CharClass}
    (h : ∀ blank ds, (∀ c ∈ blank, cls.contains c = true) → cs = blank ++ ds → cls.Stops ds →
      Meets Γ p ds (fun v es => ∀ blank' fs, (∀ c ∈ blank', cls.contains c = true) →
        es = blank' ++ fs → cls.Stops fs → M v fs) N F) :
    Meets Γ (.padded cls p) cs M N F := by
  have hrun (ds : List Char) : ∀ c ∈ cls.leadingRun ds, cls.contains c = true :=
    fun _ => CharClass.contains_of_mem_leadingRun
  have hsplit (ds : List Char) := (cls.leadingRun_append_afterRun ds).symm
  obtain ⟨_, hbefore⟩ := takes_skip Γ cls cs
  refine meets_right (hbefore.meets (meets_left ?_))
  refine (h _ _ (hrun cs) (hsplit cs) (cls.stops_afterRun cs)).mono (fun v ds _ hM => ?_)
    (fun hN => hN) fun _ _ _ hF => hF
  obtain ⟨_, hafter⟩ := takes_skip Γ cls ds
  exact hafter.meets (hM _ _ (hrun ds) (hsplit ds) (cls.stops_afterRun ds))

/-- The rounds of a repetition whose operand moves on at each match. The invariant is about the
values collected so far, in reverse; the induction is on the length of the text ahead. -/
theorem meets_again {I : List Value → List Char → Prop} {E : List Char → Prop}
    (hstep : ∀ vs ds, I vs ds →
      Meets Γ p ds (fun v es => es.length < ds.length ∧ I (v :: vs) es) (E ds) F)
    (hend : ∀ vs ds, vs ≠ [] → I vs ds → E ds → M (.list vs.reverse) ds)
    (hnone : ∀ ds, I [] ds → E ds → N) {vs : List Value} (hI : I vs cs) :
    ∃ u, (Goal.again Γ p vs cs).Yields u ∧ u.Fits M N F := by
  induction hlen : cs.length using Nat.strong_induction_on generalizing vs cs with
  | _ n ih =>
    obtain ⟨u, hu, hfits⟩ := hstep vs cs hI
    cases u with
    | matched v es =>
      obtain ⟨hless, hI⟩ := hfits
      -- a match that moves on is not stalled, and leaves a shorter text
      have hmoved : es ≠ cs := by
        rintro rfl
        exact Nat.lt_irrefl _ hless
      obtain ⟨u', hu', hfits⟩ := ih es.length (hlen ▸ hless) hI rfl
      refine ⟨u', .ask hu ?_, hfits⟩
      simp only [if_neg hmoved]
      exact Course.yields_ask_done.2 hu'
    | noMatch =>
      refine ⟨_, .ask hu (.done _), ?_⟩
      unfold Verdict.collected
      split
      next hempty =>
        obtain rfl : vs = [] := by simpa using hempty
        exact hnone cs hI hfits
      next hne => exact hend vs cs (by simpa using hne) hI hfits
    | failed message rest => exact ⟨_, .ask hu (.done _), hfits⟩
    | stalled rest => exact hfits.elim

/-- **The contract of a repetition**, by an invariant that holds before the first round, is kept by
each round, and says enough at the end. -/
theorem meets_rep {I : List Value → List Char → Prop} {E : List Char → Prop} (hstart : I [] cs)
    (hstep : ∀ vs ds, I vs ds →
      Meets Γ p ds (fun v es => es.length < ds.length ∧ I (v :: vs) es) (E ds) F)
    (hend : ∀ vs ds, vs ≠ [] → I vs ds → E ds → M (.list vs.reverse) ds) (hnone : E cs → N) :
    Meets Γ (.rep p) cs M N F := by
  -- nothing has been collected only at the beginning
  have hstart' : I [] cs ∧ (([] : List Value) = [] → cs = cs) := ⟨hstart, fun _ => rfl⟩
  obtain ⟨u, hu, hfits⟩ := @meets_again Γ p cs M N F (fun vs ds => I vs ds ∧ (vs = [] → ds = cs)) E
    (fun vs ds hI => (hstep vs ds hI.1).mono (fun v es _ hes => ⟨hes.1, hes.2, nofun⟩)
      (fun hE => hE) fun _ _ _ hF => hF)
    (fun vs ds hne hI => hend vs ds hne hI.1) (fun ds hI hE => hnone (hI.2 rfl ▸ hE)) [] hstart'
  exact ⟨u, Course.yields_ask_done.2 hu, hfits⟩

end

/-! ### What is delivered

If only matches matter, much of a contract is the same throughout, and the rules become simpler. -/

section

variable {allowed : List String} {Γ : Context} {p a b : Blueprint} {cs : List Char}
  {P Q : Value → List Char → Prop}

/-- What is delivered may be weakened. -/
theorem Delivers.mono (h : Delivers allowed Γ p cs P)
    (hPQ : ∀ v ds, ds <:+ cs → P v ds → Q v ds) : Delivers allowed Γ p cs Q :=
  Meets.mono h hPQ (fun _ => trivial) fun _ _ _ hF => hF

theorem delivers_literal {token : String}
    (h : ∀ rest, cs = token.toList ++ rest → P (.text token) rest) :
    Delivers allowed Γ (.literal token) cs P :=
  meets_literal h fun _ => trivial

theorem delivers_chars {cls : CharClass}
    (h : ∀ run rest, run ≠ [] → (∀ c ∈ run, cls.contains c = true) → cs = run ++ rest →
      cls.Stops rest → P (.text (String.ofList run)) rest) :
    Delivers allowed Γ (.chars cls) cs P :=
  meets_chars h fun _ => trivial

/-- Either alternative may deliver. -/
theorem delivers_alt (ha : Delivers allowed Γ a cs P) (hb : Delivers allowed Γ b cs P) :
    Delivers allowed Γ (.alt a b) cs P :=
  meets_alt (Meets.otherwise ha fun _ => hb)

/-- Requiring adds one message. -/
theorem delivers_required {message : String} (hmessage : message ∈ allowed)
    (h : Delivers allowed Γ p cs P) : Delivers allowed Γ (.required message p) cs P :=
  meets_required (Meets.otherwise h fun _ => hmessage)

theorem delivers_padded {cls : CharClass}
    (h : ∀ blank ds, (∀ c ∈ blank, cls.contains c = true) → cs = blank ++ ds →
      Delivers allowed Γ p ds fun v es => ∀ blank' fs, (∀ c ∈ blank', cls.contains c = true) →
        es = blank' ++ fs → P v fs) :
    Delivers allowed Γ (.padded cls p) cs P :=
  meets_padded fun blank ds hblank hcs _ => (h blank ds hblank hcs).mono
    fun _ _ _ hP blank' fs hblank' hes _ => hP blank' fs hblank' hes

/-- A repetition delivers what its invariant says after one round at least. -/
theorem delivers_rep {I : List Value → List Char → Prop} (hstart : I [] cs)
    (hstep : ∀ vs ds, I vs ds →
      Delivers allowed Γ p ds fun v es => es.length < ds.length ∧ I (v :: vs) es)
    (hend : ∀ vs ds, vs ≠ [] → I vs ds → P (.list vs.reverse) ds) :
    Delivers allowed Γ (.rep p) cs P :=
  @meets_rep Γ p cs P True _ I (fun _ => True) hstart hstep
    (fun vs ds hne hI _ => hend vs ds hne hI) fun _ => trivial

end

/-! ## Left-associative levels

What has been read of a chain is one value, the left operand of whatever comes next. -/

namespace Operator

/-- The steps of a left-associative level: an operator and the operand after it. -/
def steps (ops : List Operator) (operand : Blueprint) : Blueprint :=
  .firstOf (ops.zipIdx.map fun (op, index) => Assoc.left.link operand index op.token)

/-- One more step is one more operation around what has been folded so far. -/
theorem foldLeft_append {ops : List Operator} {index : Nat} {op : Operator}
    (hop : ops[index]? = some op) (first rhs : Value) (vs : List Value) :
    foldLeft ops (.pair first (.list (vs ++ [.pair (.number index) rhs])))
      = op.reduce (foldLeft ops (.pair first (.list vs))) rhs := by
  simp only [foldLeft, List.foldl_append, List.foldl_cons, List.foldl_nil, apply, hop]

/-- Sorting operators neither loses nor makes any. -/
theorem mem_longestFirst {ops : List Operator} {op : Operator} :
    op ∈ longestFirst ops ↔ op ∈ ops :=
  (sortWith_perm _ ops).mem_iff

theorem token_ne_nil_of_getElem? {ops : List Operator}
    (h : ∀ op ∈ ops, op.token.toList ≠ []) {index : Nat} {op : Operator}
    (hop : (longestFirst ops)[index]? = some op) : op.token.toList ≠ [] :=
  h op (mem_longestFirst.1 (List.mem_of_getElem? hop))

end Operator

/-- The value is what a chain of operands comes to, up to the rest of the text. -/
def Chained (Γ : Context) (operand : Blueprint) (ops : List Operator) (cs : List Char) (v : Value)
    (rest : List Char) : Prop :=
  ∃ first middle vs, Takes Γ operand cs first middle
    ∧ Steps Γ (Operator.steps (Operator.longestFirst ops) operand) middle vs rest
    ∧ Operator.foldLeft (Operator.longestFirst ops) (.pair first (.list vs)) = v

section

variable {Γ : Context} {operand : Blueprint} {ops : List Operator}
  {cs ds es : List Char} {v lhs rhs : Value}

/-- A first operand is a chain without a step. -/
theorem Takes.chained (h : Takes Γ operand cs v ds) : Chained Γ operand ops cs v ds :=
  ⟨v, ds, [], h, .none, rfl⟩

/-- What passes from an option to the choice, past options that decline, is so of a choice among
many if it is so of one of them and those before it decline. -/
theorem firstOf_induction {R : Blueprint → Prop} (hfirst : ∀ a b, R a → R (.alt a b))
    (hsecond : ∀ a b, Declines Γ a cs → R b → R (.alt a b)) {options : List Blueprint}
    {p : Blueprint} (index : Nat) (hp : options[index]? = some p)
    (hbefore : ∀ i q, i < index → options[i]? = some q → Declines Γ q cs) (h : R p) :
    R (.firstOf options) := by
  induction options generalizing index with
  | nil => cases hp
  | cons q options ih =>
    cases index with
    | zero =>
      obtain rfl : q = p := by simpa using hp
      exact hfirst _ _ h
    | succ index =>
      refine hsecond _ _ (hbefore 0 q (Nat.succ_pos _) rfl) (ih index (by simpa using hp) ?_)
      intro i q' hi hq'
      exact hbefore (i + 1) q' (Nat.succ_lt_succ hi) (by simpa using hq')

/-- A choice among many declines if all of them do. -/
theorem declines_firstOf {options : List Blueprint} (h : ∀ p ∈ options, Declines Γ p cs) :
    Declines Γ (.firstOf options) cs := by
  induction options with
  | nil => exact declines_never Γ cs
  | cons p options ih =>
    exact (h p List.mem_cons_self).alt (ih fun q hq => h q (List.mem_cons_of_mem p hq))

/-- What passes from an option to the choice, past options that decline, is so of the links of a
level if it is so of that of one operator and those before it decline. -/
theorem links_induction {R : Blueprint → Prop} (assoc : Assoc)
    (hfirst : ∀ a b, R a → R (.alt a b)) (hsecond : ∀ a b, Declines Γ a cs → R b → R (.alt a b))
    {index : Nat} {op : Operator} (hop : ops[index]? = some op)
    (hbefore : ∀ i other, i < index → ops[i]? = some other →
      Declines Γ (assoc.link operand i other.token) cs)
    (h : R (assoc.link operand index op.token)) :
    R (.firstOf (ops.zipIdx.map fun (op, index) => assoc.link operand index op.token)) := by
  refine firstOf_induction hfirst hsecond index (by simp [hop]) (fun i q hi hq => ?_) h
  simp only [List.getElem?_map, List.getElem?_zipIdx, Option.map_eq_some_iff] at hq
  obtain ⟨_, ⟨other, hother, rfl⟩, rfl⟩ := hq
  simpa using hbefore i other hi hother

theorem declines_links (assoc : Assoc)
    (h : ∀ op ∈ ops, ∀ index, Declines Γ (assoc.link operand index op.token) cs) :
    Declines Γ (.firstOf (ops.zipIdx.map fun (op, index) => assoc.link operand index op.token))
      cs := by
  refine declines_firstOf ?_
  simp only [List.mem_map, forall_exists_index, and_imp]
  rintro p ⟨op, index⟩ hmem rfl
  exact h op (List.fst_mem_of_mem_zipIdx hmem) index

/-- A step is not taken where its token does not stand, or no operand follows it. -/
theorem declines_link {index : Nat} {token : String}
    (h : ∀ es, ds = token.toList ++ es → Declines Γ operand es) :
    Declines Γ (Assoc.left.link operand index token) ds := by
  by_cases hprefix : token.toList <+: ds
  · obtain ⟨es, rfl⟩ := hprefix
    exact ((takes_literal token es).declines_right (h es rfl)).map _
  · exact ((declines_literal hprefix).right operand).map _

/-- What passes from a link to the steps, past operators that no operand follows, is so of the steps
of a level if it is so of the link of one operator and those before it have no operand. -/
theorem steps_induction {R : Blueprint → Prop} (hfirst : ∀ a b, R a → R (.alt a b))
    (hsecond : ∀ a b, Declines Γ a ds → R b → R (.alt a b)) {index : Nat} {op : Operator}
    (hop : ops[index]? = some op)
    (hbefore : ∀ i other, i < index → ops[i]? = some other →
      ∀ es, ds = other.token.toList ++ es → Declines Γ operand es)
    (h : R (Assoc.left.link operand index op.token)) : R (Operator.steps ops operand) :=
  links_induction .left hfirst hsecond hop
    (fun i other hi hother => declines_link (hbefore i other hi hother)) h

/-- No step is taken where no operator has an operand behind it. -/
theorem declines_steps
    (h : ∀ op ∈ ops, ∀ es, ds = op.token.toList ++ es → Declines Γ operand es) :
    Declines Γ (Operator.steps ops operand) ds :=
  declines_links .left fun op hop _ => declines_link (h op hop)

/-- A chain goes on with the first operator that an operand follows. -/
theorem Chained.more (h : Chained Γ operand ops cs lhs ds) {index : Nat} {op : Operator}
    (hop : (Operator.longestFirst ops)[index]? = some op) (hds : ds = op.token.toList ++ es)
    (htoken : op.token.toList ≠ [])
    (hbefore : ∀ i other, i < index → (Operator.longestFirst ops)[i]? = some other →
      ∀ es, ds = other.token.toList ++ es → Declines Γ operand es)
    {fs : List Char} (hrhs : Takes Γ operand es rhs fs) :
    Chained Γ operand ops cs (op.reduce lhs rhs) fs := by
  obtain ⟨first, middle, vs, hfirst, hsteps, hlhs⟩ := h
  have hlink : Takes Γ (Assoc.left.link operand index op.token) ds (.pair (.number index) rhs)
      fs := by
    rw [hds]
    exact ((takes_literal op.token es).right hrhs).map _
  have hstep : Takes Γ (Operator.steps (Operator.longestFirst ops) operand) ds
      (.pair (.number index) rhs) fs :=
    steps_induction (R := fun p => Takes Γ p ds _ fs) (fun _ b h => h.alt_first b)
      (fun _ _ ha hb => .alt_second ha hb) hop hbefore hlink
  -- no token is empty, so a link always moves on
  have hmoved : fs ≠ ds := by
    rintro rfl
    have hlen := hrhs.suffix.length_le
    rw [hds, List.length_append] at hlen
    exact htoken (List.eq_nil_of_length_eq_zero (by omega))
  refine ⟨first, middle, vs ++ [.pair (.number index) rhs], hfirst, hsteps.more hstep hmoved, ?_⟩
  rw [Operator.foldLeft_append hop, hlhs]

/-- A chain ends where no operator stands that an operand follows. -/
theorem Chained.takes_chain (h : Chained Γ operand ops cs v ds)
    (hend : ∀ op ∈ ops, ∀ es, ds = op.token.toList ++ es → Declines Γ operand es) :
    Takes Γ (Assoc.left.chain operand (Operator.longestFirst ops)) cs v ds := by
  obtain ⟨first, middle, vs, hfirst, hsteps, hv⟩ := h
  have hdeclines : Declines Γ (Operator.steps (Operator.longestFirst ops) operand) ds :=
    declines_steps fun op hop => hend op (Operator.mem_longestFirst.1 hop)
  by_cases hne : vs = []
  · -- no step: the chain declines and the operand is read by itself
    subst hne
    obtain rfl : ds = middle := hsteps.rest_eq
    obtain rfl : first = v := hv
    exact .alt_second ((hfirst.declines_seq hdeclines.rep).map _) hfirst
  · have hchain := (hfirst.seq (hsteps.takes_rep hdeclines hne)).map
      (Operator.foldLeft (Operator.longestFirst ops))
    rw [hv] at hchain
    exact hchain.alt_first _

/-- Without a first operand there is no chain. -/
theorem Declines.chain (h : Declines Γ operand cs) (ops : List Operator) :
    Declines Γ (Assoc.left.chain operand ops) cs :=
  ((h.seq _).map _).alt h

/-- A level declines without a first operand. -/
theorem Declines.level (h : Declines Γ operand cs) (ops : List Operator) (cached : Bool) :
    Declines Γ (.level .left ops cached operand) cs :=
  Course.yields_ask_done.2 (h.chain _)

/-- A step of a level is taken with an operator and the operand after it. If none is taken, no
operator stands ahead that an operand follows. -/
theorem meets_steps {M : Value → List Char → Prop} {F : String → List Char → Prop}
    (h : ∀ (index : Nat) (op : Operator) es, (Operator.longestFirst ops)[index]? = some op →
      ds = op.token.toList ++ es →
      Meets Γ operand es (fun rhs fs => M (.pair (.number index) rhs) fs) True F) :
    Meets Γ (Operator.steps (Operator.longestFirst ops) operand) ds M
      (∀ op ∈ ops, ∀ es, ds = op.token.toList ++ es → Declines Γ operand es) F := by
  refine @meets_firstOf _ _ _ _ _ _ _ _
    (fun x : Operator × Nat => ∀ es, ds = x.1.token.toList ++ es → Declines Γ operand es)
    (fun ⟨op, index⟩ hmem => ?_) fun hnone op hop es hds => ?_
  · refine meets_map (meets_right (meets_literal (fun es hds => ?_)
      fun hnot es hds => absurd ⟨es, hds.symm⟩ hnot))
    refine (h index op es (List.mem_zipIdx_iff_getElem?.1 hmem) hds).recall.mono
      (fun rhs fs _ hM => hM.2) (fun hnone es' hds' => ?_) fun _ _ _ hF => hF.2
    obtain rfl : es' = es := List.append_cancel_left (hds'.symm.trans hds)
    exact hnone.1
  · obtain ⟨index, hindex⟩ := List.mem_iff_getElem?.1 (Operator.mem_longestFirst.2 hop)
    exact hnone (op, index) (List.mem_zipIdx_iff_getElem?.2 hindex) es hds

/-- A contract of the operand that every operator keeps is one of the level. -/
theorem meets_level {M P : Value → List Char → Prop} {N : Prop} {F : String → List Char → Prop}
    {cached : Bool} (htokens : ∀ op ∈ ops, op.token.toList ≠ [])
    (hfirst : Meets Γ operand cs P N F)
    (hstep : ∀ lhs ds (index : Nat) (op : Operator) es, P lhs ds →
      (Operator.longestFirst ops)[index]? = some op → ds = op.token.toList ++ es →
      Meets Γ operand es (fun rhs fs => P (op.reduce lhs rhs) fs) True F)
    (hend : ∀ v ds, P v ds →
      (∀ op ∈ ops, ∀ es, ds = op.token.toList ++ es → Declines Γ operand es) → M v ds) :
    Meets Γ (.level .left ops cached operand) cs M N F := by
  suffices hchain : Meets Γ (Assoc.left.chain operand (Operator.longestFirst ops)) cs M N F by
    obtain ⟨u, hu, hfits⟩ := hchain
    exact ⟨u, Course.yields_ask_done.2 hu, hfits⟩
  refine meets_alt (meets_map (meets_seq (hfirst.recall.mono (fun first ds _ hP => ?_)
    (fun hN => hN.1.meets hN.2) fun _ _ _ hF => hF.2)))
  obtain ⟨htakes, hP⟩ := hP
  -- the steps so far, in reverse, fold up to a left operand that is as the contract says
  refine @meets_rep _ _ _ _ _ _ (fun vs ds => P (Operator.foldLeft (Operator.longestFirst ops)
    (.pair first (.list vs.reverse))) ds) _ hP (fun vs ds hI => ?_)
    (fun vs ds _ hI hover => hend _ ds hI hover) fun hover => htakes.meets (hend first ds hP hover)
  refine meets_steps fun index op es hop hds => ?_
  refine (hstep _ ds index op es hI hop hds).mono (fun rhs fs hsuffix hP => ⟨?_, ?_⟩) (fun hN => hN)
    fun _ _ _ hF => hF
  · have hlen := hsuffix.length_le
    have htoken := List.length_pos_of_ne_nil (Operator.token_ne_nil_of_getElem? htokens hop)
    have hlength : ds.length = op.token.toList.length + es.length := by
      rw [hds]
      exact List.length_append
    omega
  · rw [List.reverse_cons, Operator.foldLeft_append hop]
    exact hP

/-- What operands deliver and operators keep, the level delivers. -/
theorem delivers_level {allowed : List String} {P : Value → List Char → Prop} {cached : Bool}
    (htokens : ∀ op ∈ ops, op.token.toList ≠ []) (hfirst : Delivers allowed Γ operand cs P)
    (hstep : ∀ lhs ds (index : Nat) (op : Operator) es, P lhs ds →
      (Operator.longestFirst ops)[index]? = some op → ds = op.token.toList ++ es →
      Delivers allowed Γ operand es fun rhs fs => P (op.reduce lhs rhs) fs) :
    Delivers allowed Γ (.level .left ops cached operand) cs P :=
  meets_level htokens hfirst hstep fun _ _ hP _ => hP

end

end Packrat
