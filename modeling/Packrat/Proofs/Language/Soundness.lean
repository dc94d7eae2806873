import Packrat.Proofs.Language.Phrase
import Packrat.Proofs.Language.RoundTrip

/-!
# What is read is what is written

The grammar of modules, taken through its combinators with one contract: it comes to a verdict at
every place; what it matches is a phrase of the documented language, and the value is the tree of
that phrase; and if it fails hard, it is for want of one of the six things that it requires.

* **`Reads`** — the contract of one parser: the value goes with the tokens between the place where
  the parser was run and the one it came to.
* One lemma for each rule of the grammar. Those that come back to expressions may rely on all
  expressions of shorter texts, since each of them reads a token first. So there is no way round
  from an expression to itself without moving on, and the contract of expressions
  (**`readsBelow`**) is an induction on the length of the text.
* **`readModule_safe`**, **`readModule_derivable`** — reading a module never breaks off, and what it
  accepts is a module of the documented language.
-/

namespace Packrat.Language

/-- What is reported where the grammar requires something that is not there. -/
def requirements : List String :=
  ["Expected a name after 'let'", "Expected '=' after the binding name",
    "Expected an expression after '='", "Expected a function body after '->'",
    "Expected ')' to close the group", "Expected ')' after the call argument"]

theorem makeNumber_error {v : Value} {message : String} (h : makeNumber v = .error message) :
    ∃ literal, message = "Invalid number literal '" ++ literal ++ "'" := by
  unfold makeNumber at h
  split at h
  next whole fraction =>
    split at h
    next => cases h
    next =>
      cases h
      exact ⟨_, rfl⟩
  next => cases h

/-- No rule refuses to be parsed with such a message, and no number is rejected with one. -/
theorem requirements_own {message : String} (h : message ∈ requirements) :
    (∀ r : Refusal, message ≠ r.message) ∧ ∀ v, makeNumber v ≠ .error message := by
  constructor
  · have hall : ∀ r : Refusal, r.message ∉ requirements := by
      intro r
      cases r <;> decide
    rintro r rfl
    exact hall r h
  · intro v hv
    obtain ⟨literal, rfl⟩ := makeNumber_error hv
    have hall : ∀ m ∈ requirements, m.toList.head? ≠ some 'I' := by decide
    refine hall _ h ?_
    rw [String.toList_append, String.toList_append]
    rfl

/-- What the tree of a phrase is as the value of a parser. -/
def Category.value : (k : Category) → k.Tree → Value
  | .module, m => .program m
  | .bindings, bs => .list (bs.map .binding)
  | .binding, b => .binding b
  | .expression, e => .expr e
  | .product, e => .expr e
  | .call, e => .expr e
  | .atom, e => .expr e

/-- What has been read since the first place is some tokens that go with the value. -/
def Reading (P : List Token → Value → Prop) (cs : List Char) (v : Value) (ds : List Char) : Prop :=
  ∃ ts, Consumes ts cs ds ∧ P ts v

/-- The tokens are a phrase of the kind, and the value is its tree. -/
def IsPhrase (k : Category) (ts : List Token) (v : Value) : Prop :=
  ∃ t, Phrase k ts t ∧ v = k.value t

/-! ## Tokens -/

section

variable {Γ : Context} {p : Blueprint} {cs : List Char} {P : List Token → Value → Prop}

/-- The contract of a parser in this grammar. -/
abbrev Reads (Γ : Context) (p : Blueprint) (P : List Token → Value → Prop) (cs : List Char) :
    Prop :=
  Delivers requirements Γ p cs (Reading P cs)

theorem reads_literal (t : Token) (ht : t.Fixed) {token : String}
    (htext : t.text = token.toList) : Reads Γ (.literal token) (fun ts _ => ts = [t]) cs := by
  refine delivers_literal fun rest hcs => ⟨[t], ?_, rfl⟩
  rw [hcs, ← htext]
  exact consumes_fixed ht rest

/-- Blanks around what a parser reads belong to no token. -/
theorem reads_spaced (h : ∀ ds, ds.length ≤ cs.length → Reads Γ p P ds) :
    Reads Γ (spaced p) P cs := by
  refine delivers_padded fun blank ds hblank hcs => ?_
  have hbefore : Consumes [] cs ds := by
    rw [hcs]
    exact .nil (fun c hc => spaces_contains.1 (hblank c hc)) ds
  refine (h ds hbefore.length_le).mono ?_
  rintro v es _ ⟨ts, hts, hP⟩ blank' fs hblank' hes
  have hafter : Consumes [] es fs := by
    rw [hes]
    exact .nil (fun c hc => spaces_contains.1 (hblank' c hc)) fs
  have hall := (hbefore.append hts).append hafter
  rw [List.nil_append, List.append_nil] at hall
  exact ⟨ts, hall, hP⟩

/-- A run of letters is a name. -/
theorem reads_letters :
    Reads Γ (.chars .letters) (fun ts v => ∃ s, ts = [.name s] ∧ v = .text s) cs := by
  refine delivers_chars fun run rest hne hrun hcs hstops => ?_
  have hname : Token.WellFormed (.name (String.ofList run)) := isName_ofList hne hrun
  have htext : (Token.name (String.ofList run)).text = run := String.toList_ofList
  refine ⟨[.name (String.ofList run)], ?_, _, rfl, rfl⟩
  have hconsumes := consumes_token hname hstops
  rwa [htext, ← hcs] at hconsumes

theorem reads_name : Reads Γ name (fun ts v => ∃ s, ts = [.name s] ∧ v = .text s) cs :=
  reads_spaced fun _ _ => reads_letters

end

/-! ## Rules without expressions in them -/

section

variable {Γ : Context} {cs : List Char}

/-- What is made of the digits of a number is the real that they write: with nothing but digits,
and one at least, there always is one. -/
theorem reading_number (whole fraction : List Char) {ds : List Char}
    (hliteral : IsLiteral whole fraction) (hcs : cs = literalText whole fraction ++ ds)
    (hstops : CharClass.digits.Stops ds) :
    ∃ v, makeNumber (.pair (.text (String.ofList whole)) (.text (String.ofList fraction))) = .ok v
      ∧ Reading (IsPhrase .atom) cs v ds := by
  obtain ⟨x, hx⟩ := hliteral.exists_value
  have htoken : Token.WellFormed (.number whole fraction) := hliteral
  refine ⟨.expr (.real x), makeNumber_of_value hx, [.number whole fraction], ?_, ?_⟩
  · rw [hcs]
    exact consumes_token htoken hstops
  · exact ⟨_, .number hx, rfl⟩

theorem reads_number : Reads Γ number (IsPhrase .atom) cs := by
  refine meets_tryMap (meets_seq (delivers_chars fun whole ds hne hwhole hcs hstops => ?_))
  have hdigits : ∀ c ∈ whole, isDecimalDigit c = true :=
    fun c hc => digits_contains c ▸ hwhole c hc
  -- a point and more digits, or neither
  refine delivers_alt (meets_right ?_) (meets_accept ?_)
  · refine delivers_literal fun es hds =>
      delivers_chars fun fraction fs hne' hfraction hes hstops' => ?_
    refine reading_number whole fraction ⟨hne, fun c hc => ?_⟩ ?_ hstops'
    · rcases List.mem_append.1 hc with hc | hc
      · exact hdigits c hc
      · exact digits_contains c ▸ hfraction c hc
    · rw [literalText, if_neg (by simpa using hne'), hcs, hds, hes]
      simp
  · exact reading_number whole [] ⟨hne, by simpa using hdigits⟩ hcs hstops

theorem reads_reference : Reads Γ reference (IsPhrase .atom) cs := by
  refine meets_map (reads_letters.mono ?_)
  rintro _ ds _ ⟨_, hts, s, rfl, rfl⟩
  exact ⟨_, hts, _, .reference s, rfl⟩

end

/-! ## Rules with expressions in them

An expression inside another one begins further on in the text. Of the texts from there on it is
assumed that they are read as they should. -/

section

variable {Γ : Context} {p : Blueprint} {cs ds : List Char} {vs : List Value}

/-- Once the keyword has been read, what follows it is required. -/
theorem reads_binding {value : Blueprint}
    (hvalue : ∀ ds, ds.length < cs.length → Reads Γ value (IsPhrase .expression) ds) :
    Reads Γ (binding value) (IsPhrase .binding) cs := by
  refine meets_map (meets_seq (meets_left (meets_right ?_)))
  refine (reads_literal .keyword trivial rfl).mono ?_
  rintro _ ds _ ⟨_, hkeyword, rfl⟩
  refine delivers_required (by decide) (reads_name.mono ?_)
  rintro _ es _ ⟨_, hname, s, rfl, rfl⟩
  refine delivers_required (by decide) ((reads_literal .equals trivial rfl).mono ?_)
  rintro _ fs _ ⟨_, hequals, rfl⟩
  have hread := (hkeyword.append hname).append hequals
  refine delivers_required (by decide) ((hvalue fs hread.length_lt).mono ?_)
  rintro _ gs _ ⟨ts, hts, e, he, rfl⟩
  exact ⟨_, hread.append hts, _, .binding he, rfl⟩

/-- The values, in reverse, are the bindings that have been read since the first place. -/
def Declared (cs : List Char) (vs : List Value) (ds : List Char) : Prop :=
  ∃ ts bs, Consumes ts cs ds ∧ Phrase .bindings ts bs ∧ vs.reverse = bs.map Value.binding

theorem declared_nil (cs : List Char) : Declared cs [] cs :=
  ⟨[], [], .nil (List.forall_mem_nil _) cs, .none, rfl⟩

theorem Declared.length_le (h : Declared cs vs ds) : ds.length ≤ cs.length := by
  obtain ⟨_, _, hts, _⟩ := h
  exact hts.length_le

theorem Phrase.exists_keyword {ts : List Token} {b : Binding} (h : Phrase .binding ts b) :
    ∃ us, ts = .keyword :: us := by
  cases h with
  | binding h => exact ⟨_, rfl⟩

theorem Declared.more (h : Declared cs vs ds) (hp : Reads Γ p (IsPhrase .binding) ds) :
    Delivers requirements Γ p ds fun v es => es.length < ds.length ∧ Declared cs (v :: vs) es := by
  obtain ⟨ts, bs, hts, hbs, hvs⟩ := h
  refine hp.mono ?_
  rintro _ es _ ⟨us, hus, b, hb, rfl⟩
  refine ⟨?_, ts ++ us, bs ++ [b], hts.append hus, .more hbs hb, ?_⟩
  · obtain ⟨_, rfl⟩ := hb.exists_keyword
    exact hus.length_lt
  · rw [List.reverse_cons, hvs, List.map_append]
    rfl

end

/-- Expressions of texts shorter than the given length are read as they should. -/
def ReadsBelow (n : Nat) : Prop :=
  ∀ ds : List Char, ds.length < n → Reads inside inner (IsPhrase .expression) ds

section

variable {n : Nat} {cs : List Char}

theorem reads_function (h : ReadsBelow n) (hcs : cs.length ≤ n) :
    Reads inside function (IsPhrase .atom) cs := by
  refine meets_map (meets_seq (meets_seq (meets_left (meets_left ?_))))
  refine meets_right ((reads_literal .opening trivial rfl).mono ?_)
  rintro _ ds _ ⟨_, hopening, rfl⟩
  refine reads_name.mono ?_
  rintro _ es _ ⟨_, hname, s, rfl, rfl⟩
  refine (reads_literal .closing trivial rfl).mono ?_
  rintro _ fs _ ⟨_, hclosing, rfl⟩
  refine (reads_spaced fun _ _ => reads_literal .arrow trivial rfl).mono ?_
  rintro _ gs _ ⟨_, harrow, rfl⟩
  -- from here on the text is shorter, so what is known of expressions applies
  have hread := ((hopening.append hname).append hclosing).append harrow
  have hshort : gs.length < n := Nat.lt_of_lt_of_le hread.length_lt hcs
  refine delivers_many (I := Declared gs) (declared_nil gs) (fun vs hs hdeclared => ?_)
    fun vs hs hdeclared => ?_
  · have hle := hdeclared.length_le
    exact hdeclared.more (meets_memo (reads_binding fun ks hks => h ks (by omega)))
  · have hle := hdeclared.length_le
    obtain ⟨ts, bs, hts, hbs, hvs⟩ := hdeclared
    refine delivers_required (by decide) ((h hs (by omega)).mono ?_)
    rintro _ ks _ ⟨us, hus, body, hbody, rfl⟩
    refine ⟨_, (hread.append hts).append hus, _, .function hbs hbody, ?_⟩
    show makeFunction (.pair (.pair (.text s) (.list vs.reverse)) (.expr body)) = _
    rw [hvs, makeFunction, bindingsOf_map]
    rfl

/-- An expression between parentheses, of which the first is read by the given parser. -/
theorem reads_parenthesised {opening : Blueprint} {message : String} (h : ReadsBelow n)
    (hcs : cs.length ≤ n) (hmessage : message ∈ requirements)
    (hopening : Reads inside opening (fun ts _ => ts = [.opening]) cs) :
    Reads inside (.left (.right opening inner) (.required message (spaced (.literal ")"))))
      (fun ts v => ∃ us e, Phrase .expression us e ∧ ts = [.opening] ++ us ++ [.closing]
        ∧ v = .expr e) cs := by
  refine meets_left (meets_right (hopening.mono ?_))
  rintro _ ds _ ⟨_, hopening, rfl⟩
  refine (h ds (Nat.lt_of_lt_of_le hopening.length_lt hcs)).mono ?_
  rintro _ es _ ⟨us, hus, e, he, rfl⟩
  refine delivers_required hmessage
    ((reads_spaced fun _ _ => reads_literal .closing trivial rfl).mono ?_)
  rintro _ fs _ ⟨_, hclosing, rfl⟩
  exact ⟨_, (hopening.append hus).append hclosing, us, e, he, rfl, rfl⟩

theorem reads_group (h : ReadsBelow n) (hcs : cs.length ≤ n) :
    Reads inside group (IsPhrase .atom) cs := by
  refine (reads_parenthesised h hcs (by decide) (reads_literal .opening trivial rfl)).mono ?_
  rintro _ ds _ ⟨_, hts, us, e, he, rfl, rfl⟩
  exact ⟨_, hts, _, .group he, rfl⟩

theorem reads_atom (h : ReadsBelow n) (hcs : cs.length ≤ n) :
    Reads inside atom (IsPhrase .atom) cs := by
  refine meets_memo (reads_spaced fun ds hds => ?_)
  have hds : ds.length ≤ n := Nat.le_trans hds hcs
  exact delivers_alt (delivers_alt (delivers_alt reads_number (reads_function h hds))
    (reads_group h hds)) reads_reference

theorem reads_argument (h : ReadsBelow n) (hcs : cs.length ≤ n) :
    Reads inside argument (fun ts v => ∃ us e, Phrase .expression us e
      ∧ ts = [.opening] ++ us ++ [.closing] ∧ v = .expr e) cs :=
  reads_parenthesised h hcs (by decide) (reads_spaced fun _ _ => reads_literal .opening trivial rfl)

theorem reads_call (h : ReadsBelow n) (hcs : cs.length ≤ n) :
    Reads inside call (IsPhrase .call) cs := by
  refine meets_map (meets_seq ((reads_atom h hcs).mono ?_))
  rintro _ ds _ ⟨ts, hts, callee, hcallee, rfl⟩
  -- the callee with the arguments so far is a phrase, and the value its tree
  refine delivers_many (I := fun vs es => Reading (IsPhrase .call) cs
    (makeCalls (.pair (.expr callee) (.list vs.reverse))) es) ?_ ?_ fun vs es hI => hI
  · exact ⟨ts, hts, callee, .atom hcallee, rfl⟩
  · rintro vs es ⟨us, hus, e, he, hvs⟩
    have hle := hus.length_le
    refine (reads_argument h (Nat.le_trans hle hcs)).mono ?_
    rintro _ fs _ ⟨_, hargument, ws, a, ha, rfl, rfl⟩
    refine ⟨hargument.length_lt, _, hus.append hargument, _, .call he ha, ?_⟩
    rw [List.reverse_cons]
    exact makeCalls_append callee a vs.reverse hvs

/-- A level of operators, over operands that are phrases of one kind, reads phrases of another, if
every operand is one and every operator makes a longer one. -/
theorem reads_level {ops : List BinOp} {operand : Blueprint} {cached : Bool}
    {P Q : List Token → Expr → Prop}
    (hoperand : ∀ ds, ds.length ≤ cs.length →
      Reads inside operand (fun ts v => ∃ e, P ts e ∧ v = .expr e) ds)
    (hfirst : ∀ ts e, P ts e → Q ts e)
    (hmore : ∀ op ∈ ops, ∀ ts us lhs rhs, Q ts lhs → P us rhs →
      Q (ts ++ ([.sign op] ++ us)) (.bin op lhs rhs)) :
    Reads inside (.level .left (operators ops) cached operand)
      (fun ts v => ∃ e, Q ts e ∧ v = .expr e) cs := by
  refine delivers_level token_ne_nil_of_operators ((hoperand cs (Nat.le_refl _)).mono ?_) ?_
  · rintro _ ds _ ⟨ts, hts, e, he, rfl⟩
    exact ⟨ts, hts, e, hfirst ts e he, rfl⟩
  · rintro _ ds index operator es ⟨ts, hts, lhs, hlhs, rfl⟩ hoperator hds
    obtain ⟨op, hop, rfl⟩ := exists_operator hoperator
    have hsign : Consumes [.sign op] ds es := by
      rw [hds]
      exact @consumes_fixed (.sign op) trivial es
    have hread := hts.append hsign
    refine (hoperand es hread.length_le).mono ?_
    rintro _ fs _ ⟨us, hus, rhs, hrhs, rfl⟩
    exact ⟨_, hts.append (hsign.append hus), _, hmore op hop ts us lhs rhs hlhs hrhs, rfl⟩

theorem reads_product (h : ReadsBelow n) (hcs : cs.length ≤ n) :
    Reads inside product (IsPhrase .product) cs := by
  refine @reads_level cs [.multiply, .divide] call true (Phrase .call) (Phrase .product)
    (fun ds hds => reads_call h (Nat.le_trans hds hcs)) (fun _ _ he => .factor he) ?_
  intro op hop ts us lhs rhs hlhs hrhs
  refine .product ?_ hlhs hrhs
  revert op
  decide

theorem reads_sum (h : ReadsBelow n) (hcs : cs.length ≤ n) :
    Reads inside sum (IsPhrase .expression) cs := by
  refine @reads_level cs [.add, .subtract] product true (Phrase .product) (Phrase .expression)
    (fun ds hds => reads_product h (Nat.le_trans hds hcs)) (fun _ _ he => .term he) ?_
  intro op hop ts us lhs rhs hlhs hrhs
  refine .sum ?_ hlhs hrhs
  revert op
  decide

end

/-! ## Expressions and modules

With the induction on the length of the text the assumption is discharged, for expressions and then
for what is made of them. -/

/-- Every text begins with an expression that is read as it should, or with none. Induction on the
length: all the expressions inside this one are shorter. -/
theorem readsBelow (n : Nat) : ReadsBelow n := by
  induction n with
  | zero => exact fun ds hds => absurd hds (Nat.not_lt_zero _)
  | succ n ih => exact fun ds hds => meets_self rfl (reads_sum ih (Nat.le_of_lt_succ hds))

theorem reads_expression (cs : List Char) : Reads [] expression (IsPhrase .expression) cs :=
  meets_rule (reads_sum (readsBelow cs.length) (Nat.le_refl _))

/-- **The contract of the grammar of modules.** -/
theorem reads_program (cs : List Char) : Reads [] program (IsPhrase .module) cs := by
  refine meets_map (delivers_rep (I := Declared cs) (declared_nil cs) (fun vs ds hdeclared => ?_)
    fun vs ds hne hdeclared => ?_)
  · exact hdeclared.more (reads_spaced fun es _ => reads_binding fun fs _ => reads_expression fs)
  -- a repetition that ends has collected something, so the module declares something
  · obtain ⟨ts, bs, hts, hbs, hvs⟩ := hdeclared
    have hmodule : makeModule (.list vs.reverse) = .program ⟨bs⟩ := by
      rw [hvs, makeModule, bindingsOf_map]
    refine ⟨ts, hts, ⟨bs⟩, .module hbs ?_, hmodule⟩
    rintro rfl
    exact hne (List.reverse_eq_nil_iff.1 hvs)

end Packrat.Language

/-! ## Reading -/

namespace Packrat

open Packrat.Language

/-- The report is about the text: if that is malformed, it lacks one of the things that are
required, and nothing else has gone wrong; and the place of the report is a stretch of the text. -/
structure Diagnostic.Concerns (d : Diagnostic) (text : List Char) : Prop where
  required : d.trouble = .malformed → d.message ∈ requirements
  unrefused : d.trouble = .malformed → ∀ r : Refusal, d.message ≠ r.message
  readable : d.trouble = .malformed → ∀ v, makeNumber v ≠ .error d.message
  covers : ∀ span, d.span = some span → span.Covers text

/-- What is required accounts for the rest of what a report should be. -/
theorem Diagnostic.Concerns.of_required {d : Diagnostic} {text : List Char}
    (hrequired : d.trouble = .malformed → d.message ∈ requirements)
    (hcovers : ∀ span, d.span = some span → span.Covers text) : d.Concerns text where
  required := hrequired
  unrefused hd := (requirements_own (hrequired hd)).1
  readable hd := (requirements_own (hrequired hd)).2
  covers := hcovers

namespace Workspace

/-- What reading a module comes to, for each verdict that the grammar can yield. -/
theorem readModule_outcome (w : Workspace) (name text : String) :
    (w.readModule name text).2.alarms = w.alarms ∧
      ((∃ m ts, (w.readModule name text).1 = .ok (.ok m) ∧ Consumes ts text.toList []
          ∧ Phrase .module ts m) ∨
        ∃ d, (w.readModule name text).1 = .ok (.error d) ∧ d.Concerns text.toList) := by
  obtain ⟨u, hu, hfits⟩ := reads_program text.toList
  cases u with
  | matched v rest =>
    -- a match is only accepted if it is one of the whole text
    by_cases hrest : rest = []
    · subst hrest
      obtain ⟨w', hread, halarms⟩ := w.readModule_of_takes hu name
      obtain ⟨ts, hts, m, hphrase, rfl⟩ := hfits
      rw [hread]
      exact ⟨halarms, .inl ⟨m, ts, rfl, hts, hphrase⟩⟩
    · obtain ⟨span, w', hread, halarms, _, _, hcovers⟩ := w.readModule_of_leftOver hu hrest name
      rw [hread]
      refine ⟨halarms, .inr ⟨_, rfl, .of_required nofun ?_⟩⟩
      rintro _ ⟨⟩
      exact hcovers
  | noMatch =>
    obtain ⟨d, w', hread, halarms, htrouble, hcovers⟩ := w.readModule_of_declines hu name
    rw [hread]
    refine ⟨halarms, .inr ⟨d, rfl, .of_required ?_ hcovers⟩⟩
    rw [htrouble]
    exact nofun
  | failed message rest =>
    obtain ⟨span, w', hread, halarms, _, hcovers⟩ := w.readModule_of_fails hu name
    rw [hread]
    refine ⟨halarms, .inr ⟨_, rfl, .of_required (fun _ => hfits) ?_⟩⟩
    rintro _ ⟨⟩
    exact hcovers
  | stalled rest => exact hfits.elim

theorem readModule_cases (w : Workspace) (name text : String) :
    (w.readModule name text).2.alarms = w.alarms ∧
      ((∃ m ts, (w.readModule name text).1 = .ok (.ok m) ∧ Spelled ts text.toList
          ∧ Phrase .module ts m) ∨
        ∃ d, (w.readModule name text).1 = .ok (.error d) ∧ d.Concerns text.toList) := by
  obtain ⟨halarms, ⟨m, ts, hread, hts, hphrase⟩ | hreport⟩ := w.readModule_outcome name text
  · exact ⟨halarms, .inl ⟨m, ts, hread, hts.spelled, hphrase⟩⟩
  · exact ⟨halarms, .inr hreport⟩

/-- **Reading a module never breaks off.** Whatever the text, a module comes out of it or a report
about the text, and no rule is found to come back to itself without moving on. -/
theorem readModule_safe (w : Workspace) (name text : String) :
    (w.readModule name text).2.alarms = w.alarms ∧
      ((∃ m, (w.readModule name text).1 = .ok (.ok m)) ∨
        ∃ d, (w.readModule name text).1 = .ok (.error d) ∧ d.Concerns text.toList) := by
  obtain ⟨halarms, ⟨m, _, hread, _⟩ | hreport⟩ := w.readModule_cases name text
  · exact ⟨halarms, .inl ⟨m, hread⟩⟩
  · exact ⟨halarms, .inr hreport⟩

/-- The tokens of a text that is read as a module are a phrase, and the module is the tree of it. -/
theorem exists_tokens_of_readModule {w : Workspace} {name text : String} {m : Module}
    (h : (w.readModule name text).1 = .ok (.ok m)) :
    ∃ ts, Consumes ts text.toList [] ∧ Phrase .module ts m := by
  obtain ⟨_, ⟨m', ts, hread, hts, hphrase⟩ | ⟨d, hread, _⟩⟩ := w.readModule_outcome name text
  · rw [hread] at h
    cases h
    exact ⟨ts, hts, hphrase⟩
  · rw [hread] at h
    cases h

/-- **What is read is what is written.** If a text is read as a module, the whole of it is a module
of the documented language, and the module is the tree of that. -/
theorem readModule_derivable {w : Workspace} {name text : String} {m : Module}
    (h : (w.readModule name text).1 = .ok (.ok m)) :
    ∃ ts, Spelled ts text.toList ∧ Phrase .module ts m := by
  obtain ⟨_, ⟨m', ts, hread, hspelled, hphrase⟩ | ⟨d, hread, _⟩⟩ := w.readModule_cases name text
  · rw [hread] at h
    cases h
    exact ⟨ts, hspelled, hphrase⟩
  · rw [hread] at h
    cases h

theorem readModule_shifted_derivable :
    (empty.readModule "shifted" "let f = (x) -> let let = x*(x+2)\nlet(x)\n").1
        = .ok (.ok Module.shifted)
      ∧ ∃ ts, Spelled ts "let f = (x) -> let let = x*(x+2)\nlet(x)\n".toList
        ∧ Phrase .module ts Module.shifted := by
  have htakes := Module.shifted_written.takes_program Module.shifted_legible (by decide)
  obtain ⟨w', hread, _⟩ := empty.readModule_of_takes htakes "shifted"
  have hok := congrArg Prod.fst hread
  exact ⟨hok, readModule_derivable hok⟩

end Workspace

end Packrat
