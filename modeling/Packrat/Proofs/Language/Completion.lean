import Packrat.Proofs.Language.Seams

/-!
# What can be completed

What the parsers of the grammar have read is read again where other text stands ahead, and what they
fail on can be written to its end. Both are said of every parser by one contract, whose clauses are
the two halves of this: a match is `Steady`, a failure is `Completable`.

* **`ViableAtom`** — the contract of the alternatives of atoms: numbers and names
  (`viableAtom_number`, `viableAtom_reference`), groups and functions (`viableAtom_group`,
  `viableAtom_function`). What is open is closed with a parenthesis, and a body that is missing is
  written as a number.
* **`ViableBinding`** — the contract of bindings (`viableBinding_binding`), of which several may
  stand one after the other (`Collected.step`).
* **`Viable`** — the contract of expressions. Inside a parenthesis and inside a function it is
  assumed of the shorter texts (`ViableBelow`).
-/

namespace Packrat

open Packrat.Language

/-! ## What is read again

Both clauses of the contract speak of other texts in place of the one ahead: those before which a
match is still a match, and those with which a failure becomes one. -/

/-- The text is read as an expression of the rank, up to the text that stands in for what was
ahead, and with that it does not come to begin with the keyword. -/
def Rereads (b r : Nat) (text : List Char) (e : Expr) (ds : List Char) : Prop :=
  ∀ k, Seam b ds k → Reached r (text ++ k) e (trimmed k)
    ∧ ("let ".toList <+: text ++ k → "let ".toList <+: text ++ ds)

/-- An expression of the rank has been read, and what is ahead is quiet. It can be read again,
but if a function is at its end, only before a text that goes on with no expression at all: then the
text that was ahead did not go on with the body of the function either. -/
structure Steady (q r : Nat) (cs : List Char) (e : Expr) (ds : List Char) : Prop where
  stops : CharClass.spaces.Stops ds
  quiet : Quiet q ds
  again : ∃ text b, cs = text ++ ds ∧ text ≠ [] ∧ (b = r ∨ b = 4 ∧ Quiet 3 ds)
    ∧ Rereads b r text e ds

/-- An atom without the blanks around it has been read, and can be read again. -/
def SteadyAtom (cs : List Char) (e : Expr) (ds : List Char) : Prop :=
  ∃ text b, cs = text ++ trimmed ds ∧ text ≠ [] ∧ (b = 0 ∨ b = 4 ∧ Quiet 3 (trimmed ds))
    ∧ ∀ k, Seam b (trimmed ds) k →
      (∃ rest, Takes inside solid (text ++ k) (.expr e) rest ∧ trimmed rest = trimmed k)
        ∧ ("let ".toList <+: text ++ k → "let ".toList <+: text ++ trimmed ds)

/-- The parser fails after a text which it reads as an expression if some more is written after it,
however what is open around it is closed. -/
def Completable (p : Blueprint) (cs rest : List Char) : Prop :=
  ∃ text more e, cs = text ++ rest ∧ '(' ∈ text
    ∧ ∀ k, Closes k → Takes inside p (text ++ (more ++ k)) (.expr e) (trimmed k)

/-- The contract of the parser of expressions up to the rank. -/
abbrev Viable (r : Nat) (cs : List Char) : Prop :=
  Meets inside (parserAt r) cs (fun v ds => ∃ e, v = .expr e ∧ Steady r r cs e ds)
    (Declines inside solid (trimmed cs)) fun _ rest => Completable (parserAt r) cs rest

/-- The contract of an alternative of atoms. -/
abbrev ViableAtom (p : Blueprint) (cs : List Char) (N : Prop) : Prop :=
  Meets inside p cs (fun v ds => ∃ e, v = .expr e ∧ SteadyAtom cs e ds) N
    fun _ rest => Completable solid cs rest

section

variable {cs ds t u y : List Char} {e : Expr} {v : Value}

/-! ## Words and numbers

These never fail hard, so there is nothing to complete. -/

/-- A number is read again, as its literal is, wherever that does not run on. -/
theorem steadyAtom_number {whole fraction : List Char} {x : Binary64}
    (hx : Binary64.ofLiteral? whole fraction = some x)
    (hcs : cs = literalText whole fraction ++ ds) (hds : CharClass.digits.Stops ds) :
    SteadyAtom cs (.real x) ds := by
  obtain ⟨c, literal, hliteral, hc⟩ := (isLiteral_of_value hx).exists_head
  obtain ⟨blank, hblank, hsplit⟩ := exists_blank ds
  rw [hsplit] at hds
  refine ⟨literalText whole fraction ++ blank, 0, ?_, ?_, .inl rfl, fun k hk => ⟨?_, ?_⟩⟩
  · rw [List.append_assoc, ← hsplit, hcs]
  · rw [hliteral]
    exact List.cons_ne_nil c _
  · have hnumber : Takes inside number (literalText whole fraction ++ (blank ++ k))
        (.expr (.real x)) (blank ++ k) :=
      takes_number hx (hk.stops hblank (forall_mem_of_all (by decide)) hds) (hk.not_point hblank)
    rw [List.append_assoc]
    exact ⟨_, ((hnumber.alt_first _).alt_first _).alt_first _, trimmed_blank_append hblank k⟩
  · rw [hliteral]
    -- a literal begins with a digit, and so not with the keyword
    rintro ⟨more, heq⟩
    obtain rfl : 'l' = c := (List.cons.inj heq).1
    exact absurd hc (by decide)

/-- A number is read as its literal is. -/
theorem meets_number {F : String → List Char → Prop} :
    Meets inside number cs (fun v ds => ∃ whole fraction x,
      Binary64.ofLiteral? whole fraction = some x ∧ v = .expr (.real x)
        ∧ cs = literalText whole fraction ++ ds ∧ CharClass.digits.Stops ds) True F := by
  refine meets_tryMap (meets_seq (meets_chars (fun whole ds hne hwhole hcs hds => ?_)
    fun _ => trivial))
  have hdigits : ∀ c ∈ whole, isDecimalDigit c = true :=
    fun c hc => digits_contains c ▸ hwhole c hc
  -- both alternatives, with a fraction and without one, end here
  have hread (fraction : List Char) {es : List Char}
      (hfraction : ∀ c ∈ fraction, isDecimalDigit c = true)
      (hes : cs = literalText whole fraction ++ es) (hstops : CharClass.digits.Stops es) :
      ∃ u, makeNumber (.pair (.text (String.ofList whole)) (.text (String.ofList fraction))) = .ok u
        ∧ ∃ whole fraction x, Binary64.ofLiteral? whole fraction = some x ∧ u = .expr (.real x)
          ∧ cs = literalText whole fraction ++ es ∧ CharClass.digits.Stops es := by
    have hliteral : IsLiteral whole fraction := by
      refine ⟨hne, fun c hc => ?_⟩
      rcases List.mem_append.1 hc with hc | hc
      · exact hdigits c hc
      · exact hfraction c hc
    obtain ⟨x, hx⟩ := hliteral.exists_value
    exact ⟨_, makeNumber_of_value hx, whole, fraction, x, hx, rfl, hes, hstops⟩
  have hwhole := hread [] (List.forall_mem_nil _) hcs hds
  refine meets_alt (meets_right (meets_literal (fun es hds' => ?_) fun _ => meets_accept hwhole))
  refine meets_chars (fun fraction fs hne' hfraction hes hfs => ?_) fun _ => meets_accept hwhole
  refine hread fraction (fun c hc => digits_contains c ▸ hfraction c hc) ?_ hfs
  rw [literalText, if_neg (by simpa using hne'), hcs, hds', hes]
  simp

theorem viableAtom_number : ViableAtom number cs True := by
  refine meets_number.mono ?_ id fun _ _ _ => id
  rintro _ ds _ ⟨whole, fraction, x, hx, rfl, hcs, hds⟩
  exact ⟨_, rfl, steadyAtom_number hx hcs hds⟩

/-- A name is read again wherever no letter follows. -/
theorem steadyAtom_word {name : String} (hname : IsName name.toList) (hcs : cs = name.toList ++ ds)
    (hds : CharClass.letters.Stops ds) : SteadyAtom cs (.ref name) ds := by
  obtain ⟨blank, hblank, hsplit⟩ := exists_blank ds
  have hletters {k : List Char} (hk : Seam 0 (trimmed ds) k) :
      CharClass.letters.Stops (blank ++ k) := by
    rw [hsplit] at hds
    exact hk.stops hblank (forall_mem_of_all (by decide)) hds
  refine ⟨name.toList ++ blank, 0, ?_, ?_, .inl rfl, fun k hk => ⟨?_, fun hkeyword => ?_⟩⟩
  · rw [List.append_assoc, ← hsplit, hcs]
  · exact List.append_ne_nil_of_left_ne_nil hname.1 blank
  · rw [List.append_assoc]
    exact ⟨_, takes_word hname (hletters hk), trimmed_blank_append hblank k⟩
  · -- the space after the letters is one of the blanks that have been read with them
    rw [List.append_assoc] at hkeyword ⊢
    obtain ⟨hspelled, more, hspace⟩ := eq_of_keyword hname (hletters hk) hkeyword
    cases blank with
    | nil => exact absurd (congrArg List.head? hspace) (hk.not_space (stops_trimmed ds))
    | cons c blank =>
      obtain rfl : c = ' ' := (List.cons.inj hspace).1
      rw [hspelled]
      exact ⟨_, rfl⟩

/-- A reference is read as its name is. -/
theorem meets_reference {F : String → List Char → Prop} :
    Meets inside reference cs (fun v ds => ∃ name : String, IsName name.toList
      ∧ v = .expr (.ref name) ∧ cs = name.toList ++ ds ∧ CharClass.letters.Stops ds)
      (CharClass.letters.Stops cs) F := by
  refine meets_map (meets_chars (fun run rest hne hrun hcs hrest => ?_) id)
  exact ⟨String.ofList run, isName_ofList hne hrun, rfl, by rw [String.toList_ofList, hcs], hrest⟩

theorem viableAtom_reference : ViableAtom reference cs (CharClass.letters.Stops cs) := by
  refine meets_reference.mono ?_ id fun _ _ _ => id
  rintro _ ds _ ⟨name, hname, rfl, hcs, hds⟩
  exact ⟨_, rfl, steadyAtom_word hname hcs hds⟩

/-! ## Parentheses

Behind the parenthesis that opens, an expression and a parenthesis that closes are required. A
failure for want of the one is completed with a number, and for want of the other with the
parenthesis. -/

/-- Between parentheses, the text is read as the expression. -/
def Encloses (t : List Char) (e : Expr) : Prop :=
  ∀ y, Takes inside sum (t ++ ')' :: y) (.expr e) (')' :: y)

/-- All expressions of texts shorter than the given length are as they should be. -/
def ViableBelow (n : Nat) : Prop :=
  ∀ ds : List Char, ds.length < n → Viable 3 ds

theorem Rereads.encloses {b : Nat} (h : Rereads b 3 t e ds) (hb : b ≤ 4) : Encloses t e := by
  intro y
  have hcloses := Closes.parenthesis y
  have hstops : CharClass.spaces.Stops (')' :: y) := .cons (by decide) y
  obtain ⟨hreached, _⟩ := h (')' :: y) ((hcloses.seam ds).mono hb)
  rw [trimmed_eq hstops] at hreached
  exact hreached.takes (Nat.le_refl 3) hstops (show 3 < 4 by decide)

/-- Once a parenthesis has been opened, an expression has to be read and the parenthesis closed. -/
theorem meets_parenthesised {n : Nat} {opening : Blueprint} {message : String} {w : Value}
    {M : Value → List Char → Prop} {N : Prop} {F : List Char → Prop} (h : ViableBelow n)
    (hu : u.length < n) (hopening : Takes inside opening cs w u)
    (hM : ∀ e t y, t ≠ [] → u = t ++ ')' :: y → Encloses t e → M (.expr e) (trimmed y))
    (hN : Declines inside solid (trimmed u) → N)
    (hF : ∀ e t more rest, t ≠ [] → u = t ++ rest → Encloses (t ++ more) e → F rest) :
    Meets inside (.left (.right opening inner) (.required message (spaced (.literal ")")))) cs M N
      fun _ rest => F rest := by
  have hinner : Meets inside inner u _ _ _ := meets_self rfl (h u hu)
  refine meets_left (meets_right (hopening.meets (hinner.mono ?_ hN ?_)))
  · rintro _ ds _ ⟨e, rfl, hstops, _, text, b, hsplit, hne, hb, hagain⟩
    have hencloses : Encloses text e := hagain.encloses (by omega)
    refine meets_required ?_
    -- what is missing behind the expression can only be the parenthesis that closes
    by_cases hclosed : ")".toList <+: ds
    · obtain ⟨y, rfl⟩ := hclosed
      exact (takes_spaced hstops (takes_literal ")" y)).meets (hM e text y hne hsplit hencloses)
    · have hdeclines : Declines inside (spaced (.literal ")")) ds := by
        refine Declines.padded (declines_literal ?_)
        rwa [hstops.afterRun_eq]
      refine hdeclines.meets (hF e text [] ds hne hsplit ?_)
      rwa [List.append_nil]
  · rintro message rest _ ⟨text, more, e, hsplit, hparen, hmore⟩
    -- a failure inside is completed there, and then the parenthesis is added
    refine hF e text more rest (List.ne_nil_of_mem hparen) hsplit fun y => ?_
    have hclosed := hmore (')' :: y) (.parenthesis y)
    rwa [trimmed_eq (.cons (by decide) y), ← List.append_assoc] at hclosed

theorem Encloses.takes_group (h : Encloses t e) (harrow : ¬"->".toList <+: trimmed y) :
    Takes inside solid ('(' :: (t ++ ')' :: y)) (.expr e) (trimmed y) := by
  -- the other atoms come before the group, and a function differs from it by the arrow
  have hnumber : Declines inside number ('(' :: (t ++ ')' :: y)) :=
    declines_number (.cons (by decide) _)
  have hgroup : Takes inside group ('(' :: (t ++ ')' :: y)) (.expr e) (trimmed y) :=
    takes_closed _ (takes_literal "(" _) (h y)
  exact (Takes.alt_second (hnumber.alt (declines_function (h y) harrow)) hgroup).alt_first _

theorem viableAtom_group {n : Nat} (h : ViableBelow n) (hcs : cs.length ≤ n) :
    ViableAtom group cs True := by
  by_cases hopening : "(".toList <+: cs
  · obtain ⟨u, rfl⟩ : ∃ u, cs = '(' :: u := hopening.imp fun _ => Eq.symm
    refine meets_parenthesised h hcs (takes_literal "(" u) ?_ (fun _ => trivial) ?_
    · intro e t y _ hsplit hencloses
      obtain ⟨blank, hblank, hy⟩ := exists_blank y
      refine ⟨e, rfl, '(' :: (t ++ ')' :: blank), 0, ?_, List.cons_ne_nil _ _, .inl rfl,
        fun k hk => ⟨?_, ?_⟩⟩
      · rw [trimmed_trimmed, hsplit]
        simp [← hy]
      · rw [trimmed_trimmed] at hk
        have harrow : ¬"->".toList <+: trimmed (blank ++ k) := by
          rw [trimmed_blank_append hblank]
          exact hk.arrow
        refine ⟨_, by simpa using hencloses.takes_group harrow, ?_⟩
        rw [trimmed_blank_append hblank, trimmed_trimmed]
      · simp [List.cons_prefix_cons]
    · intro e t more rest _ hsplit hencloses
      refine ⟨'(' :: t, more ++ [')'], e, congrArg _ hsplit, List.mem_cons_self, fun k hk => ?_⟩
      simpa using hencloses.takes_group (hk.seam []).arrow
  · exact (declines_function_group hopening).2.meets trivial

theorem Encloses.takes_argument {blank : List Char} (h : Encloses t e)
    (hblank : ∀ c ∈ blank, IsBlank c) (ht : t ≠ []) (hstops : CharClass.spaces.Stops (t ++ ds))
    (y : List Char) :
    Takes inside argument ('(' :: (blank ++ (t ++ ')' :: y))) (.expr e) (trimmed y) := by
  have hopening : Takes inside (spaced (.literal "(")) ('(' :: (blank ++ (t ++ ')' :: y)))
      (.text "(") (trimmed (blank ++ (t ++ ')' :: y))) :=
    takes_spaced (.cons (by decide) _) (takes_literal "(" _)
  rw [trimmed_append hblank (hstops.head ht _)] at hopening
  exact takes_closed _ hopening (h y)

/-- An argument is read again whatever follows it. -/
theorem meets_argument {n : Nat} (h : ViableBelow n) (hcs : cs.length ≤ n)
    (hstops : CharClass.spaces.Stops cs) :
    Meets inside argument cs
      (fun v ds => ∃ e t, v = .expr e ∧ cs = '(' :: (t ++ ds) ∧ CharClass.spaces.Stops ds
        ∧ ∀ k, Takes inside argument ('(' :: (t ++ k)) (.expr e) (trimmed k))
      (∀ u, cs = '(' :: u → Declines inside solid (trimmed u))
      fun _ rest => ∃ t more e, cs = '(' :: (t ++ rest)
        ∧ ∀ k, Closes k → Takes inside argument ('(' :: (t ++ (more ++ k))) (.expr e)
          (trimmed k) := by
  by_cases hopening : "(".toList <+: cs
  · obtain ⟨u, rfl⟩ : ∃ u, cs = '(' :: u := hopening.imp fun _ => Eq.symm
    obtain ⟨blank, hblank, hu⟩ := exists_blank u
    have hstart := stops_trimmed u
    have hlen : (trimmed u).length < n := Nat.lt_of_le_of_lt (List.dropWhile_suffix _).length_le hcs
    refine meets_parenthesised h hlen (takes_spaced hstops (takes_literal "(" u)) ?_ ?_ ?_
    · intro e t y ht hsplit hencloses
      obtain ⟨blank', hblank', hy⟩ := exists_blank y
      refine ⟨e, blank ++ (t ++ ')' :: blank'), rfl, ?_, stops_trimmed y, fun k => ?_⟩
      · rw [hu, hsplit]
        simp [← hy]
      · have hagain := hencloses.takes_argument hblank ht (hsplit ▸ hstart) (blank' ++ k)
        -- the blanks behind the parenthesis belong to the text that has been read
        rw [trimmed_blank_append hblank'] at hagain
        simpa using hagain
    · rintro hdeclines _ ⟨⟩
      rwa [trimmed_trimmed] at hdeclines
    · intro e t more rest ht hsplit hencloses
      refine ⟨blank ++ t, more ++ [')'], e, ?_, fun k _ => ?_⟩
      · rw [hu, hsplit]
        simp
      · rw [hsplit] at hstart
        have hfront : CharClass.spaces.Stops (t ++ more ++ []) := by
          rw [List.append_assoc]
          exact hstart.head ht _
        have hagain :=
          hencloses.takes_argument hblank (List.append_ne_nil_of_left_ne_nil ht more) hfront k
        simpa using hagain
  · have hdeclines : Declines inside argument cs := by
      refine ((Declines.padded (declines_literal ?_)).right _).left _
      rwa [hstops.afterRun_eq]
    exact hdeclines.meets fun u hu => absurd ⟨u, hu.symm⟩ hopening

end

/-! ## Bindings

Behind the keyword, a name, an equals sign and a value are required, one after the other. Whichever
is missing is written, and the others behind it. -/

/-- A binding has been read, and can be read again before a text that goes on with no expression. -/
def SteadyBinding (Γ : Context) (p : Blueprint) (cs : List Char) (b : Binding) (ds : List Char) :
    Prop :=
  ∃ text, cs = text ++ ds ∧ "let ".toList <+: trimmed text ∧ CharClass.spaces.Stops ds ∧ Quiet 3 ds
    ∧ ∀ k, Seam 4 ds k → Takes Γ p (text ++ k) (.binding b) (trimmed k)

/-- The parser fails after a text that can be completed to a binding. -/
def CompletableBinding (Γ : Context) (p : Blueprint) (cs rest : List Char) : Prop :=
  ∃ text more b, cs = text ++ rest ∧ "let ".toList <+: trimmed text
    ∧ ∀ k, Closes k → Takes Γ p (text ++ (more ++ k)) (.binding b) (trimmed k)

/-- The contract of a parser of bindings. -/
abbrev ViableBinding (Γ : Context) (p : Blueprint) (cs : List Char) (N : Prop) : Prop :=
  Meets Γ p cs (fun v ds => ∃ b, v = .binding b ∧ SteadyBinding Γ p cs b ds) N
    fun _ rest => CompletableBinding Γ p cs rest

section

variable {Γ : Context} {p value : Blueprint} {cs ds k : List Char} {N : Prop}

/-- A name is read again wherever no letter follows. -/
theorem meets_name {F : String → List Char → Prop} :
    Meets Γ name cs (fun v ds => ∃ s t, v = .text s ∧ cs = t ++ ds ∧ CharClass.spaces.Stops ds
      ∧ ∀ k, CharClass.letters.Stops k → Takes Γ name (t ++ k) (.text s) (trimmed k)) True F := by
  refine meets_spaced fun blank ds hblank hcs hds => ?_
  refine meets_chars (fun run rest hne hrun hrest hletters => ?_) fun _ => trivial
  intro blank' fs hblank' hfs hstops
  refine ⟨String.ofList run, blank ++ (run ++ blank'), rfl, ?_, hstops, fun k hk => ?_⟩
  · rw [hcs, hrest, hfs]
    simp
  · -- behind the letters stands the first of the blanks, or else the other text
    have hends : CharClass.letters.Stops (blank' ++ k) := by
      cases blank' with
      | nil => exact hk
      | cons c blank' =>
        rw [hfs] at hletters
        exact hletters.head (List.cons_ne_nil c blank') k
    rw [hrest] at hds
    have hname : Takes Γ name (blank ++ (run ++ (blank' ++ k))) (.text (String.ofList run))
        (trimmed (blank' ++ k)) :=
      takes_spaced_blank hblank (hds.head hne _) (takes_chars hne hrun hends)
    rw [trimmed_blank_append hblank'] at hname
    rw [List.append_assoc, List.append_assoc]
    exact hname

/-- After the equals sign, a value has to be read. -/
theorem meets_value {message s : String} {t es : List Char}
    (hagain : ∀ {y z e}, Takes inside sum y (.expr e) z →
      Takes Γ (binding value) ("let ".toList ++ (t ++ y)) (.binding (.mk s e)) z)
    (hcs : cs = "let ".toList ++ (t ++ es))
    (hvalue : Meets Γ value es (fun v fs => ∃ e, v = .expr e ∧ Steady 3 3 es e fs) True
      fun _ rest => Completable sum es rest) :
    Meets Γ (.required message value) es
      (fun v fs => ∃ b, makeBinding (.pair (.text s) v) = .binding b
        ∧ SteadyBinding Γ (binding value) cs b fs) N
      fun _ rest => CompletableBinding Γ (binding value) cs rest := by
  refine meets_required (hvalue.mono ?_ (fun _ => ?_) ?_)
  · rintro _ fs _ ⟨e, rfl, hstops, hquiet, text, b, hsplit, _, hb, hrereads⟩
    refine ⟨.mk s e, rfl, "let ".toList ++ (t ++ text), ?_, keyword_append _, hstops, hquiet,
      fun k hk => ?_⟩
    · rw [hcs, hsplit, List.append_assoc, List.append_assoc]
    · have hreached := (hrereads k (hk.mono (by omega))).1
      have htaken := hreached.takes (Nat.le_refl 3) (stops_trimmed k)
        (Nat.lt_of_lt_of_le (by decide) hk.reach)
      rw [List.append_assoc, List.append_assoc]
      exact hagain htaken
  · refine ⟨"let ".toList ++ t, ['0'], .mk s .zero, ?_, keyword_append _, fun k hk => ?_⟩
    · rw [hcs, List.append_assoc]
    · rw [List.append_assoc]
      exact hagain (takes_zero hk)
  · rintro message rest _ ⟨text, more, e, hsplit, _, hmore⟩
    refine ⟨"let ".toList ++ (t ++ text), more, .mk s e, ?_, keyword_append _, fun k hk => ?_⟩
    · rw [hcs, hsplit, List.append_assoc, List.append_assoc]
    · rw [List.append_assoc, List.append_assoc]
      exact hagain (hmore k hk)

/-- Once the keyword has been read, a name, an equals sign and a value have to be read. -/
theorem viableBinding_binding
    (htakes : ∀ {cs ds e}, Takes inside sum cs (.expr e) ds → Takes Γ value cs (.expr e) ds)
    (hvalue : ∀ ds, ds.length < cs.length → Meets Γ value ds
      (fun v es => ∃ e, v = .expr e ∧ Steady 3 3 ds e es) True
      fun _ rest => Completable sum ds rest) :
    ViableBinding Γ (binding value) cs (¬"let ".toList <+: cs) := by
  refine meets_map (meets_seq (meets_left (meets_right (meets_literal (fun u hu => ?_) id))))
  have hequals (y : List Char) : trimmed ('=' :: y) = '=' :: y := trimmed_eq (.cons (by decide) y)
  refine meets_required (meets_name.mono ?_ (fun _ => ?_) fun _ _ _ => id)
  · rintro _ ds _ ⟨s, t, rfl, rfl, _, hname⟩
    -- with other text after the equals sign, the name is read as it was
    have hagain {y z : List Char} {e : Expr} (h : Takes inside sum y (.expr e) z) :
        Takes Γ (binding value) ("let ".toList ++ (t ++ '=' :: y)) (.binding (.mk s e)) z := by
      have hread := hname ('=' :: y) (.cons (by decide) y)
      rw [hequals] at hread
      exact takes_binding_of hread (htakes h)
    refine meets_required (meets_literal (fun es hds => ?_) fun _ => ?_)
    · have hcs : cs = "let ".toList ++ (t ++ ['='] ++ es) := by
        rw [hu, hds, List.append_assoc]
        rfl
      have hlen : es.length < cs.length := by
        rw [hcs]
        simp only [List.length_append]
        have hkeyword : "let ".toList.length = 4 := rfl
        omega
      refine meets_value (fun h => ?_) hcs (hvalue es hlen)
      rw [List.append_assoc]
      exact hagain h
    · refine ⟨"let ".toList ++ t, ['=', '0'], .mk s .zero, ?_, keyword_append _, fun k hk => ?_⟩
      · rw [hu, List.append_assoc]
      · rw [List.append_assoc]
        exact hagain (takes_zero hk)
  · refine ⟨"let ".toList, ['a', '=', '0'], .mk "a" .zero, hu, keyword_append [], fun k hk => ?_⟩
    have hname : Takes Γ name ("a".toList ++ '=' :: '0' :: k) (.text "a")
        (trimmed ('=' :: '0' :: k)) := takes_name (by decide) (.cons (by decide) _)
    rw [hequals] at hname
    exact takes_binding_of hname (htakes (takes_zero hk))

theorem SteadyBinding.length_lt {p : Blueprint} {b : Binding} (h : SteadyBinding Γ p cs b ds) :
    ds.length < cs.length := by
  obtain ⟨text, rfl, hkeyword, _⟩ := h
  have hpos : 0 < text.length := List.length_pos_of_ne_nil (ne_nil_of_keyword hkeyword)
  rw [List.length_append]
  omega

theorem viableBinding_memo {p : Blueprint} (h : ViableBinding Γ p cs N) :
    ViableBinding Γ (.memo none p) cs N := by
  refine meets_memo (h.mono ?_ id ?_)
  · rintro _ es _ ⟨b, rfl, text, hsplit, hkeyword, hstops, hquiet, hagain⟩
    exact ⟨b, rfl, text, hsplit, hkeyword, hstops, hquiet, fun k hk => (hagain k hk).memo none⟩
  · rintro _ rest _ ⟨text, more, b, hsplit, hkeyword, hmore⟩
    exact ⟨text, more, b, hsplit, hkeyword, fun k hk => (hmore k hk).memo none⟩

theorem viableBinding_spaced {p : Blueprint} (h : ViableBinding Γ p (trimmed cs) N) :
    ViableBinding Γ (spaced p) cs N := by
  refine meets_spaced fun blank ds hblank hsplit hstops => ?_
  obtain rfl : trimmed cs = ds := by rw [hsplit, trimmed_append hblank hstops]
  have hagain {text x z : List Char} {v : Value} (hkeyword : "let ".toList <+: trimmed text)
      (htext : trimmed cs = text ++ x) {k : List Char} (hp : Takes Γ p (text ++ k) v (trimmed z)) :
      Takes Γ (spaced p) (blank ++ text ++ k) v (trimmed z) := by
    rw [List.append_assoc, ← trimmed_trimmed z]
    exact takes_spaced_blank hblank ((htext ▸ hstops).head (ne_nil_of_keyword hkeyword) k) hp
  refine h.mono ?_ id ?_
  · rintro _ es _ ⟨b, rfl, text, htext, hkeyword, hes, hquiet, htakes⟩ blank' fs hblank' hfs _
    -- a binding skips the blanks behind it, and none are left
    have hnil : blank' = [] := eq_nil_of_stops hblank' (hfs ▸ hes)
    obtain rfl : es = fs := by rw [hfs, hnil, List.nil_append]
    refine ⟨b, rfl, blank ++ text, ?_, ?_, hes, hquiet,
      fun k hk => hagain hkeyword htext (htakes k hk)⟩
    · rw [hsplit, htext, List.append_assoc]
    · rwa [trimmed_blank_append hblank]
  · rintro _ rest _ ⟨text, more, b, htext, hkeyword, hmore⟩
    refine ⟨blank ++ text, more, b, ?_, ?_, fun k hk => hagain hkeyword htext (hmore k hk)⟩
    · rw [hsplit, htext, List.append_assoc]
    · rwa [trimmed_blank_append hblank]

/-! ### One after the other

A function reads bindings for as long as there are any. They are followed one at a time, since each
of them ends where the next begins. -/

/-- The bindings have been read, and can be read again before a text that goes on with no
expression. -/
def SteadyBindings (Γ : Context) (p : Blueprint) (cs : List Char) (bs : List Binding)
    (ds : List Char) : Prop :=
  ∃ text, cs = text ++ ds ∧ (bs = [] → text = [])
    ∧ (bs ≠ [] → "let ".toList <+: trimmed text ∧ CharClass.spaces.Stops ds ∧ Quiet 3 ds
      ∧ ∀ k, Seam 4 ds k → Steps Γ p (text ++ k) (bs.map .binding) (trimmed k))

/-- The parser fails after a text that can be completed to bindings. -/
def CompletableBindings (Γ : Context) (p : Blueprint) (cs rest : List Char) : Prop :=
  ∃ text more bs, cs = text ++ rest ∧ bs ≠ [] ∧ "let ".toList <+: trimmed text
    ∧ ∀ k, Closes k → Steps Γ p (text ++ (more ++ k)) (bs.map .binding) (trimmed k)

theorem steadyBindings_nil (Γ : Context) (p : Blueprint) (cs : List Char) :
    SteadyBindings Γ p cs [] cs :=
  ⟨[], rfl, fun _ => rfl, fun hne => absurd rfl hne⟩

/-- Before whatever begins with the keyword, the bindings are read as they were. -/
theorem SteadyBindings.again {bs : List Binding} {t : List Char}
    (h : SteadyBindings Γ p cs bs (t ++ ds)) (ht : "let ".toList <+: trimmed t) :
    ∃ text, cs = text ++ (t ++ ds) ∧ "let ".toList <+: trimmed (text ++ t)
      ∧ ∀ k, Steps Γ p (text ++ (t ++ k)) (bs.map .binding) (t ++ k) := by
  obtain ⟨text, hcs, hnil, hsome⟩ := h
  refine ⟨text, hcs, ?_, fun k => ?_⟩
  · by_cases hbs : bs = []
    · rw [hnil hbs]
      exact ht
    · obtain ⟨more, hmore⟩ := (hsome hbs).1
      have hne : trimmed text ≠ [] := by
        rw [← hmore]
        exact List.cons_ne_nil _ _
      rw [trimmed, CharClass.afterRun, List.dropWhile_append, if_neg]
      · exact (hsome hbs).1.trans (List.prefix_append _ t)
      · rw [List.isEmpty_iff]
        exact hne
  · by_cases hbs : bs = []
    · rw [hnil hbs, hbs]
      exact .none
    · obtain ⟨_, hstops, _, hsteps⟩ := hsome hbs
      obtain ⟨more, rfl⟩ := keyword_of_stops ht hstops
      -- the keyword begins with a letter, so that the seam is the same as it was
      have hseam : Seam 4 ("let ".toList ++ more ++ ds) ("let ".toList ++ more ++ k) :=
        seam_cons (by decide) (by decide) (by decide) (fun h => absurd h (by decide)) _
      have hread := hsteps _ hseam
      rwa [trimmed_eq (hstops.head (List.cons_ne_nil _ _) k)] at hread

/-- One more binding after the others. -/
theorem Steps.more_binding {bs : List Binding} {b : Binding} {t z : List Char}
    (h : Steps Γ p cs (bs.map .binding) (t ++ k)) (ht : "let ".toList <+: trimmed t)
    (hz : z.length ≤ k.length) (hb : Takes Γ p (t ++ k) (.binding b) z) :
    Steps Γ p cs ((bs ++ [b]).map .binding) z := by
  rw [List.map_append]
  refine h.more hb ?_
  rintro rfl
  have hpos : 0 < t.length := List.length_pos_of_ne_nil (ne_nil_of_keyword ht)
  rw [List.length_append] at hz
  omega

theorem SteadyBindings.more {bs : List Binding} {b : Binding} {es : List Char}
    (h : SteadyBindings Γ p cs bs ds) (hb : SteadyBinding Γ p ds b es) :
    SteadyBindings Γ p cs (bs ++ [b]) es := by
  obtain ⟨t, rfl, ht, hstops, hquiet, htakes⟩ := hb
  obtain ⟨text, hcs, hkeyword, hagain⟩ := h.again ht
  refine ⟨text ++ t, ?_, fun hnil => by simp at hnil, fun _ => ⟨hkeyword, hstops, hquiet, ?_⟩⟩
  · rw [hcs, List.append_assoc]
  · intro k hk
    rw [List.append_assoc]
    exact (hagain k).more_binding ht (List.dropWhile_suffix _).length_le (htakes k hk)

theorem SteadyBindings.completable {bs : List Binding} {rest : List Char}
    (h : SteadyBindings Γ p cs bs ds) (hb : CompletableBinding Γ p ds rest) :
    CompletableBindings Γ p cs rest := by
  obtain ⟨t, more, b, rfl, ht, htakes⟩ := hb
  obtain ⟨text, hcs, hkeyword, hagain⟩ := h.again ht
  refine ⟨text ++ t, more, bs ++ [b], ?_, by simp, hkeyword, fun k hk => ?_⟩
  · rw [hcs, List.append_assoc]
  · have hle : (trimmed k).length ≤ k.length := (List.dropWhile_suffix _).length_le
    rw [List.append_assoc]
    exact (hagain (more ++ k)).more_binding ht (by rw [List.length_append]; omega) (htakes k hk)

/-- The values, in reverse, are bindings that have been read. -/
def Collected (Γ : Context) (p : Blueprint) (cs : List Char) (vs : List Value) (ds : List Char) :
    Prop :=
  ∃ bs, vs.reverse = bs.map Value.binding ∧ SteadyBindings Γ p cs bs ds

theorem Collected.step {vs : List Value} (h : Collected Γ p cs vs ds)
    (hp : ViableBinding Γ p ds N) :
    Meets Γ p ds (fun v es => es.length < ds.length ∧ Collected Γ p cs (v :: vs) es) N
      fun _ rest => CompletableBindings Γ p cs rest := by
  obtain ⟨bs, hvs, hsteady⟩ := h
  refine hp.mono ?_ id fun _ rest _ hcompletable => hsteady.completable hcompletable
  rintro _ es _ ⟨b, rfl, hb⟩
  refine ⟨hb.length_lt, bs ++ [b], ?_, hsteady.more hb⟩
  rw [List.reverse_cons, hvs, List.map_append]
  rfl

end

/-! ## Functions

A function fails hard only behind its arrow: in one of its bindings, or for want of a body. -/

section

variable {cs ds gs t k y z : List Char} {e body : Expr} {n : Nat} {bs : List Binding}

/-- The head of a function is read again whatever follows the blanks behind the arrow. -/
theorem meets_header {F : String → List Char → Prop} :
    Meets inside header cs (fun v gs => ∃ s t, v = .text s ∧ cs = '(' :: (t ++ gs)
      ∧ CharClass.spaces.Stops gs
      ∧ ∀ y, Takes inside header ('(' :: (t ++ y)) (.text s) (trimmed y)) True F := by
  refine meets_left (meets_left (meets_right (meets_literal (fun u hu => ?_) fun _ => trivial)))
  refine meets_name.mono ?_ id fun _ _ _ => id
  rintro _ ds _ ⟨s, t, rfl, rfl, _, hname⟩
  refine meets_literal (fun es hes => meets_spaced fun blank fs hblank hfs hstops => ?_)
    fun _ => trivial
  refine meets_literal (fun gs hgs blank' hs hblank' hsplit hstops' => ?_) fun _ => trivial
  refine ⟨s, t ++ ')' :: (blank ++ ("->".toList ++ blank')), rfl, ?_, hstops', fun y => ?_⟩
  · rw [hu, hes, hfs, hgs, hsplit]
    simp
  · have hopening : Takes inside (.literal "(")
        ('(' :: (t ++ ')' :: (blank ++ ("->".toList ++ (blank' ++ y))))) (.text "(")
        (t ++ ')' :: (blank ++ ("->".toList ++ (blank' ++ y)))) := takes_literal "(" _
    have hread := hname (')' :: (blank ++ ("->".toList ++ (blank' ++ y)))) (.cons (by decide) _)
    rw [trimmed_eq (.cons (by decide) _)] at hread
    have hclosing : Takes inside (.literal ")") (')' :: (blank ++ ("->".toList ++ (blank' ++ y))))
        (.text ")") (blank ++ ("->".toList ++ (blank' ++ y))) := takes_literal ")" _
    have harrow : Takes inside (spaced (.literal "->")) (blank ++ ("->".toList ++ (blank' ++ y)))
        (.text "->") (trimmed (blank' ++ y)) :=
      takes_spaced_blank hblank (.cons (by decide) _) (takes_literal "->" _)
    have hheader : Takes inside header
        ('(' :: (t ++ ')' :: (blank ++ ("->".toList ++ (blank' ++ y))))) (.text s)
        (trimmed (blank' ++ y)) := ((hopening.right hread).left hclosing).left harrow
    rw [trimmed_blank_append hblank'] at hheader
    simpa using hheader

/-- The function is read again up to another body, if that does not go on with the last value of
its bindings. -/
theorem SteadyBindings.takes_header {s : String}
    (hheader : ∀ y, Takes inside header ('(' :: (t ++ y)) (.text s) (trimmed y))
    (hgs : CharClass.spaces.Stops gs)
    (h : SteadyBindings inside (.memo none (binding inner)) gs bs ds) :
    ∃ text, gs = text ++ ds ∧ ∀ y, (bs ≠ [] → Seam 4 ds y) →
      ∃ us, Takes inside header ('(' :: (t ++ (text ++ y))) (.text s) us
        ∧ Steps inside (.memo none (binding inner)) us (bs.map .binding) (trimmed y) := by
  obtain ⟨text, rfl, hnil, hsome⟩ := h
  refine ⟨text, rfl, fun y hseam => ⟨_, hheader (text ++ y), ?_⟩⟩
  by_cases hbs : bs = []
  · rw [hnil hbs, hbs]
    exact .none
  · obtain ⟨hkeyword, _, _, hsteps⟩ := hsome hbs
    rw [trimmed_eq (hgs.head (ne_nil_of_keyword hkeyword) y)]
    exact hsteps y (hseam hbs)

/-- The function is read again with another body, if that goes on neither with the bindings nor with
the last of their values. -/
theorem SteadyBindings.takes_function {s : String}
    (hheader : ∀ y, Takes inside header ('(' :: (t ++ y)) (.text s) (trimmed y))
    (hgs : CharClass.spaces.Stops gs)
    (h : SteadyBindings inside (.memo none (binding inner)) gs bs ds) :
    ∃ text, gs = text ++ ds ∧ ∀ y body z, (bs ≠ [] → Seam 4 ds y) → ¬"let ".toList <+: trimmed y →
      Takes inside sum (trimmed y) (.expr body) z →
      Takes inside function ('(' :: (t ++ (text ++ y))) (.expr (.fn s bs body)) z := by
  obtain ⟨text, hgs', hagain⟩ := h.takes_header hheader hgs
  refine ⟨text, hgs', fun y body z hseam hend hbody => ?_⟩
  obtain ⟨us, hheader', hsteps⟩ := hagain y hseam
  have hdeclines : Declines inside (.memo none (binding inner)) (trimmed y) :=
    (declines_binding hend).memo none
  exact takes_function_of hheader' (takes_many hsteps hdeclines) hbody

/-- After a value, no argument and no operand follows; so what follows and is an expression begins
with nothing that goes on with the value. -/
theorem seam_body (h : ViableBelow n) (hlen : ds.length ≤ n) (hstops : CharClass.spaces.Stops ds)
    (hquiet : Quiet 3 ds) (hsolid : ¬Declines inside solid ds) (hds : ds = t ++ y) (ht : t ≠ []) :
    Seam 4 ds (t ++ k) := by
  obtain ⟨c, rest, hcs, hblank, hother, hcases⟩ := exists_head_of_solid hsolid
  have hpull : pull c = 4 := by
    refine hcases.resolve_left ?_
    rintro rfl
    -- a parenthesis would open an argument, or what stands after it is no expression
    have hinner : Declines inside solid (trimmed rest) :=
      (meets_argument h hlen hstops).fits (hquiet.argument (by decide)) rest hcs
    rw [hcs] at hsolid
    exact hsolid (declines_solid_parenthesis hinner)
  cases t with
  | nil => exact absurd rfl ht
  | cons d t =>
    obtain ⟨rfl, _⟩ : d = c ∧ t ++ y = rest := by simpa using hds.symm.trans hcs
    rw [hds]
    simp only [List.mem_cons, List.not_mem_nil, or_false, not_or] at hother
    exact seam_cons hblank (by rw [hpull]) hother.1 (fun hminus => absurd hminus hother.2.1) _

/-- The bindings of a function end where the keyword does not stand ahead. -/
theorem meets_bindings (h : ViableBelow n) (hgs : gs.length < n) :
    Meets inside (many (.memo none (binding inner))) gs
      (fun v ds => ∃ bs, v = .list (bs.map .binding)
        ∧ SteadyBindings inside (.memo none (binding inner)) gs bs ds ∧ ¬"let ".toList <+: ds)
      True fun _ rest => CompletableBindings inside (.memo none (binding inner)) gs rest := by
  refine @meets_many _ _ _ _ _ _ (Collected inside (.memo none (binding inner)) gs)
    (fun ds => ¬"let ".toList <+: ds) ⟨[], rfl, steadyBindings_nil _ _ gs⟩ (fun vs ds hI => ?_)
    fun vs ds ⟨bs, hvs, hsteady⟩ hend => ⟨bs, by rw [hvs], hsteady, hend⟩
  have hds : ds.length ≤ gs.length := by
    obtain ⟨_, _, text, rfl, _⟩ := hI
    rw [List.length_append]
    omega
  have hbinding : ViableBinding inside (binding inner) ds (¬"let ".toList <+: ds) := by
    refine viableBinding_binding takes_inner fun es hes => meets_self rfl ?_
    exact (h es (by omega)).otherwise fun _ => trivial
  exact hI.step (viableBinding_memo hbinding)

theorem SteadyBindings.stops {Γ : Context} {p : Blueprint} (h : SteadyBindings Γ p gs bs ds)
    (hgs : CharClass.spaces.Stops gs) : CharClass.spaces.Stops ds := by
  obtain ⟨text, rfl, hnil, hsome⟩ := h
  by_cases hbs : bs = []
  · rwa [hnil hbs] at hgs
  · exact (hsome hbs).2.1

/-- After the bindings, a body has to be read. -/
theorem meets_body {message s : String} (h : ViableBelow n) (hds : ds.length < n)
    (hheader : ∀ y, Takes inside header ('(' :: (t ++ y)) (.text s) (trimmed y))
    (hgs : CharClass.spaces.Stops gs)
    (hsteady : SteadyBindings inside (.memo none (binding inner)) gs bs ds)
    (hend : ¬"let ".toList <+: ds) :
    Meets inside (.required message inner) ds
      (fun v es => ∃ e, makeFunction (.pair (.pair (.text s) (.list (bs.map .binding))) v) = .expr e
        ∧ SteadyAtom ('(' :: (t ++ gs)) e es)
      True fun _ rest => Completable solid ('(' :: (t ++ gs)) rest := by
  have hstops := hsteady.stops hgs
  have hquiet (hbs : bs ≠ []) : Quiet 3 ds := by
    obtain ⟨_, _, _, hsome⟩ := hsteady
    exact (hsome hbs).2.2.1
  obtain ⟨text, rfl, hagain⟩ := hsteady.takes_function hheader hgs
  -- a body that begins like the one ahead goes on with no value before it either
  have hbegun {u v x z : List Char} {body : Expr} (hnone : ¬Declines inside inner ds)
      (hsplit : ds = u ++ v) (hu : u ≠ []) (hkeyword : ¬"let ".toList <+: u ++ x)
      (hread : Takes inside sum (u ++ x) (.expr body) z) :
      Takes inside solid ('(' :: (t ++ (text ++ (u ++ x)))) (.expr (.fn s bs body)) z := by
    have hsolid : ¬Declines inside solid ds := by
      intro hsolid
      rw [← trimmed_eq hstops] at hsolid
      exact hnone (Declines.self rfl (declines_parserAt hsolid 3))
    have htrimmed : trimmed (u ++ x) = u ++ x := trimmed_eq ((hsplit ▸ hstops).head hu x)
    have hseam (hbs : bs ≠ []) : Seam 4 ds (u ++ x) :=
      seam_body h hds.le hstops (hquiet hbs) hsolid hsplit hu
    exact takes_solid_function
      (hagain (u ++ x) body z hseam (by rwa [htrimmed]) (by rwa [htrimmed]))
  have hbody : Meets inside inner ds _ _ _ := meets_self rfl (h ds hds)
  refine meets_required (hbody.recall.mono ?_ (fun _ => ?_) ?_)
  · rintro _ es _ ⟨htakes, body, rfl, hstops', hquiet', u, b, hsplit, hu, hb, hrereads⟩
    refine ⟨.fn s bs body, ?_, '(' :: (t ++ (text ++ u)), 4, ?_, List.cons_ne_nil _ _, ?_,
      fun k hk => ?_⟩
    · rw [makeFunction, bindingsOf_map]
    · rw [trimmed_eq hstops', hsplit]
      simp
    · rw [trimmed_eq hstops']
      exact .inr ⟨rfl, hquiet'⟩
    · rw [trimmed_eq hstops'] at hk ⊢
      obtain ⟨hreached, hkeyword⟩ := hrereads k (hk.mono (by omega))
      have hread : Takes inside sum (u ++ k) (.expr body) (trimmed k) :=
        hreached.takes (Nat.le_refl 3) (stops_trimmed k) (Nat.lt_of_lt_of_le (by decide) hk.reach)
      have hfunction := hbegun htakes.not_declines hsplit hu
        (fun h => hend (hsplit ▸ hkeyword h)) hread
      refine ⟨⟨trimmed k, by simpa using hfunction, trimmed_trimmed k⟩, ?_⟩
      simp [List.cons_prefix_cons]
  · refine ⟨'(' :: (t ++ text), ['\n', '0'], .fn s bs .zero, ?_, List.mem_cons_self,
      fun k hk => ?_⟩
    · simp
    · have htrimmed : trimmed ('\n' :: '0' :: k) = '0' :: k :=
        trimmed_cons (by decide) (.cons (by decide) k)
      have hread := hagain ('\n' :: '0' :: k) .zero (trimmed k) (fun _ => (Closes.body k).seam ds)
        (by rw [htrimmed]; simp [List.cons_prefix_cons]) (by rw [htrimmed]; exact takes_zero hk)
      simpa using takes_solid_function hread
  · rintro message rest _ ⟨hnone, u, more, body, hsplit, hparen, hmore⟩
    have hu := List.ne_nil_of_mem hparen
    refine ⟨'(' :: (t ++ (text ++ u)), more, .fn s bs body, ?_, List.mem_cons_self, fun k hk => ?_⟩
    · rw [hsplit]
      simp
    · have hfunction := hbegun hnone hsplit hu
        (fun h => hend (hsplit ▸ keyword_of_parenthesis hparen h rest)) (hmore k hk)
      simpa using hfunction

/-- Once an arrow has been read, a body has to be read, after any bindings. -/
theorem viableAtom_function (h : ViableBelow n) (hcs : cs.length ≤ n) :
    ViableAtom function cs True := by
  refine meets_map (meets_seq (meets_seq (meets_header.mono ?_ id fun _ _ _ => id)))
  rintro _ gs _ ⟨s, t, rfl, rfl, hgs, hheader⟩
  have hshort : gs.length < n := by
    simp only [List.length_cons, List.length_append] at hcs
    omega
  refine (meets_bindings h hshort).mono ?_ id ?_
  · rintro _ ds hds ⟨bs, rfl, hsteady, hend⟩
    exact meets_body h (Nat.lt_of_le_of_lt hds.length_le hshort) hheader hgs hsteady hend
  · rintro _ rest _ ⟨text, more, bs, rfl, hbs, hkeyword, hsteps⟩
    -- the value is closed with a body
    refine ⟨'(' :: (t ++ text), more ++ ['\n', '0'], .fn s bs .zero, ?_, List.mem_cons_self,
      fun k hk => ?_⟩
    · simp
    · have hread := hsteps ('\n' :: '0' :: k) (.body k)
      rw [trimmed_cons (by decide) (.cons (by decide) k)] at hread
      have hheader' := hheader (text ++ (more ++ '\n' :: '0' :: k))
      rw [trimmed_eq (hgs.head (ne_nil_of_keyword hkeyword) _)] at hheader'
      have hend : Declines inside (.memo none (binding inner)) ('0' :: k) := by
        refine (declines_binding ?_).memo none
        simp [List.cons_prefix_cons]
      have hfunction := takes_function_of hheader' (takes_many hread hend) (takes_zero hk)
      simpa using takes_solid_function hfunction

end

end Packrat
