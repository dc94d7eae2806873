import Packrat.Proofs.Language.Continuing

/-!
# Functions put together

A function is put together of its parameter, its bindings, each on a line of its own, and its body.
The values and the body may be any texts that are read as expressions by themselves. They are read
in the function as they are, since a value ends before the next binding and before most bodies; but
the end of a line is a blank like any other, so a body that begins with a parenthesis is an argument
of the value before it.

* **`takes_composed`**, **`aborts_composed`**, **`aborts_composed_keyword`** — what becomes of a
  function that is put together: it is read as such, or it lacks a body because that is an argument
  of the last value, or a name because the body begins with the keyword and is taken for a binding.
* **`Workspace.readsExpression_composed`** — what is reported in the first two cases.
* **`Workspace.readsExpression_swallowed`** — a body that becomes an argument, and one that becomes
  a binding.
-/

namespace Packrat

open Packrat.Language

/-! ## Functions

Each binding ends in a line break, so the value of it is read with a blank behind it. What it may go
on with stands at the beginning of the next line: the keyword, or the body. -/

/-- A binding of a function, as it is written and as it is read. -/
structure Local where
  name : String
  text : String
  value : Expr

namespace Local

/-- The binding that it is read as. -/
def binding (l : Local) : Binding :=
  .mk l.name l.value

/-- The text of a binding, and a line break. -/
def line (l : Local) : String :=
  "let " ++ l.name ++ " = " ++ l.text ++ "\n"

/-- The text with the bindings before it, each on a line of its own. -/
def before (locals : List Local) (body : String) : String :=
  locals.foldr (fun l rest => l.line ++ rest) body

/-- The name of the binding is one, and its text is read as its value. -/
def Sound (l : Local) : Prop :=
  IsName l.name.toList ∧ Takes inside sum l.text.toList (.expr l.value) []

theorem toList_before_cons (l : Local) (locals : List Local) (body : String) :
    (before (l :: locals) body).toList = "let ".toList ++ (l.name.toList ++ (" = ".toList
      ++ (l.text.toList ++ '\n' :: (before locals body).toList))) := by
  simp [before, line, String.toList_append]

theorem before_append (locals locals' : List Local) (body : String) :
    before (locals ++ locals') body = before locals (before locals' body) :=
  List.foldr_append

end Local

/-- The text of a function. -/
def composed (param : String) (locals : List Local) (body : String) : String :=
  "(" ++ param ++ ") -> " ++ Local.before locals body

section

variable {l : Local} {locals : List Local} {body param : String} {e : Expr} {cs ds k : List Char}

/-- What is read up to the end of the text is read as it was where the text ahead goes on with
nothing. -/
theorem takes_before_seam (h : Takes inside sum cs (.expr e) []) (hk : Seam 4 [] k) :
    Takes inside sum (' ' :: (cs ++ k)) (.expr e) (trimmed k) := by
  obtain ⟨_, _, text, b, hsplit, _, hb, hrereads⟩ := Takes.steady (r := 3) h (Nat.le_refl 3)
  obtain rfl : cs = text := by rw [hsplit, List.append_nil]
  have hreached := (hrereads k (hk.mono (by omega))).1
  have htakes : Takes inside sum (cs ++ k) (.expr e) (trimmed k) :=
    hreached.takes (Nat.le_refl 3) (stops_trimmed k) (Nat.lt_of_lt_of_le (by decide) hk.reach)
  have hblank : trimmed (' ' :: (cs ++ k)) = trimmed (cs ++ k) :=
    trimmed_blank_append (List.forall_mem_singleton.2 (by decide)) (cs ++ k)
  exact Takes.of_trimmed_eq (r := 3) htakes (Nat.le_refl 3) hblank

theorem trimmed_line (k : List Char) : trimmed ('\n' :: k) = trimmed k :=
  trimmed_blank_append (List.forall_mem_singleton.2 (by decide)) k

/-- A line break ends a value before anything that goes on with no expression. -/
theorem seam_line (hreach : reach (trimmed k) = 4) (harrow : ¬"->".toList <+: trimmed k) :
    Seam 4 [] ('\n' :: k) := by
  refine ⟨?_, ?_, .inl (delimits_cons (by decide) k)⟩
  · rw [trimmed_line, hreach]
  · rwa [trimmed_line]

theorem seam_keyword (hk : "let ".toList <+: k) : Seam 4 [] ('\n' :: k) := by
  obtain ⟨more, rfl⟩ := hk
  have htrimmed : trimmed ("let ".toList ++ more) = "let ".toList ++ more :=
    trimmed_eq (.cons (by decide) _)
  refine seam_line ?_ ?_
  · rw [htrimmed]
    rfl
  · rw [htrimmed]
    simp [List.cons_prefix_cons]

theorem seam_expression (h : Takes inside sum k (.expr e) [])
    (hparen : (trimmed k).head? ≠ some '(') : Seam 4 [] ('\n' :: k) := by
  have hsolid : ¬Declines inside solid (trimmed k) :=
    fun hsolid => h.not_declines (declines_parserAt hsolid 3)
  obtain ⟨c, rest, hhead, _, hother, hcases⟩ := exists_head_of_solid hsolid
  have hpull : pull c = 4 := by
    refine hcases.resolve_left ?_
    rintro rfl
    exact hparen (by rw [hhead]; rfl)
  refine seam_line ?_ ?_
  · rw [hhead]
    exact hpull
  · rw [hhead]
    rintro ⟨more, heq⟩
    obtain rfl : '-' = c := (List.cons.inj heq).1
    exact hother (by decide)

namespace Local

/-- The binding is read with whatever its value has become. -/
theorem Sound.takes_line (hl : l.Sound)
    (h : Takes inside sum (' ' :: (l.text.toList ++ '\n' :: body.toList)) (.expr e) ds) :
    Takes inside (.memo none (Language.binding inner)) (before [l] body).toList
      (.binding (.mk l.name e)) ds := by
  rw [toList_before_cons]
  exact (takes_binding hl.1 (takes_inner h)).memo none

theorem keyword_before (locals : List Local) (hbody : "let ".toList <+: body.toList) :
    "let ".toList <+: (before locals body).toList := by
  cases locals with
  | nil => exact hbody
  | cons l locals =>
    rw [toList_before_cons]
    exact List.prefix_append _ _

/-- Before a binding, all bindings are read as they are. -/
theorem steps_before (hlocals : ∀ l ∈ locals, l.Sound) (hbody : "let ".toList <+: body.toList) :
    Steps inside (.memo none (Language.binding inner)) (before locals body).toList
      ((locals.map binding).map .binding) body.toList := by
  induction locals with
  | nil => exact .none
  | cons l locals ih =>
    have hl : l.Sound := hlocals l List.mem_cons_self
    have hkeyword := keyword_before locals hbody
    have htakes := takes_before_seam hl.2 (seam_keyword hkeyword)
    have hstart : trimmed (before locals body).toList = (before locals body).toList := by
      obtain ⟨more, hmore⟩ := hkeyword
      rw [← hmore]
      exact trimmed_eq (.cons (by decide) _)
    rw [trimmed_line, hstart] at htakes
    have hfirst := hl.takes_line htakes
    refine .cons hfirst ?_ (ih fun l hmem => hlocals l (List.mem_cons_of_mem _ hmem))
    -- a step moves on: the line is not empty
    intro heq
    have hlen := congrArg List.length heq
    rw [toList_before_cons] at hlen
    simp only [List.length_append, List.length_cons] at hlen
    omega

/-- The last binding is read with whatever its value has become in front of the body. -/
theorem steps_last (hlocals : ∀ l ∈ locals, l.Sound) (hl : l.Sound)
    (h : Takes inside sum (' ' :: (l.text.toList ++ '\n' :: body.toList)) (.expr e) ds) :
    Steps inside (.memo none (Language.binding inner))
      (trimmed (before (locals ++ [l]) body).toList)
      ((locals.map binding ++ [Binding.mk l.name e]).map .binding) ds := by
  have hkeyword : "let ".toList <+: (before [l] body).toList := by
    rw [toList_before_cons]
    exact List.prefix_append _ _
  -- a binding begins with its keyword, so that there are no blanks to skip
  have hstart : trimmed (before (locals ++ [l]) body).toList
      = (before locals (before [l] body)).toList := by
    rw [before_append]
    obtain ⟨more, hmore⟩ := keyword_before locals hkeyword
    rw [← hmore]
    exact trimmed_eq (.cons (by decide) _)
  rw [hstart, List.map_append]
  refine (steps_before hlocals hkeyword).more (hl.takes_line h) ?_
  intro heq
  have hlen := h.suffix.length_le
  rw [heq, toList_before_cons] at hlen
  have hkeyword : "let ".toList.length = 4 := rfl
  simp only [List.length_append, List.length_cons, before, List.foldr_nil] at hlen
  omega

/-- Up to a body that no value goes on with, all bindings are read as they are. -/
theorem steps_all (hlocals : ∀ l ∈ locals, l.Sound)
    (hbody : Takes inside sum body.toList (.expr e) [])
    (hparen : locals = [] ∨ (trimmed body.toList).head? ≠ some '(') :
    Steps inside (.memo none (Language.binding inner)) (trimmed (before locals body).toList)
      ((locals.map binding).map .binding) (trimmed body.toList) := by
  rcases List.eq_nil_or_concat locals with rfl | ⟨init, last, rfl⟩
  · exact .none
  · rw [List.concat_eq_append] at hlocals hparen ⊢
    have hlast : last.Sound := hlocals last (by simp)
    have hseam : Seam 4 [] ('\n' :: body.toList) :=
      seam_expression hbody (hparen.resolve_left (by simp))
    have htakes := takes_before_seam hlast.2 hseam
    rw [trimmed_line] at htakes
    rw [List.map_append]
    exact steps_last (fun l hl => hlocals l (List.mem_append_left _ hl)) hlast htakes

end Local

theorem toList_composed : (composed param locals body).toList
    = '(' :: (param.toList ++ (") -> ".toList ++ (Local.before locals body).toList)) := by
  simp [composed, String.toList_append]

theorem Takes.atom (h : Takes inside solid cs (.expr e) ds) (hcs : CharClass.spaces.Stops cs) :
    Takes inside atom cs (.expr e) (trimmed ds) :=
  takes_atom (List.forall_mem_nil _) hcs h

theorem Takes.expression (h : Takes inside solid cs (.expr e) ds) (hcs : CharClass.spaces.Stops cs)
    (hds : trimmed ds = []) : Takes inside sum cs (.expr e) [] := by
  have hatom := h.atom hcs
  rw [hds] at hatom
  exact Reached.mono (r := 0) hatom (Nat.zero_le 4) (Nat.le_refl 4) nofun (Nat.le_refl 4)

theorem Aborts.expression {u : Verdict} (h : Aborts inside solid cs u)
    (hcs : CharClass.spaces.Stops cs) : Aborts inside sum cs u := by
  have hatom : Aborts inside atom cs u :=
    (aborts_spaced_blank (List.forall_mem_nil _) hcs h).memo none
  have hcall : Aborts inside call cs u := (hatom.seq _).map _
  have hproduct : Aborts inside product cs u := (((hcall.seq _).map _).alt_first _).level true
  exact (((hproduct.seq _).map _).alt_first _).level true

/-- A function is read as it has been put together if its bindings are and its body does not begin
with the keyword. -/
theorem takes_composed (hparam : IsName param.toList) (hlocals : ∀ l ∈ locals, l.Sound)
    (hbody : Takes inside sum body.toList (.expr e) [])
    (hkeyword : ¬"let ".toList <+: trimmed body.toList)
    (hparen : locals = [] ∨ (trimmed body.toList).head? ≠ some '(') :
    Takes inside sum (composed param locals body).toList
      (.expr (.fn param (locals.map Local.binding) e)) [] := by
  have hsteps := Local.steps_all hlocals hbody hparen
  have hbindings := takes_many hsteps ((declines_binding hkeyword).memo none)
  have hinner : Takes inside sum (trimmed body.toList) (.expr e) [] :=
    Takes.of_trimmed_eq (r := 3) hbody (Nat.le_refl 3) (trimmed_trimmed _)
  have hfunction := takes_function_of (takes_header hparam _) hbindings hinner
  rw [toList_composed]
  exact (takes_solid_function hfunction).expression (.cons (by decide) _) rfl

/-- A body that begins with a parenthesis is an argument of the last value. -/
theorem aborts_composed (hparam : IsName param.toList) (hlocals : ∀ l ∈ locals, l.Sound)
    (hbody : Takes inside sum body.toList (.expr e) []) (hne : locals ≠ [])
    (hparen : (trimmed body.toList).head? = some '(') :
    ∃ rest, Aborts inside sum (composed param locals body).toList
      (.failed "Expected a function body after '->'" rest) := by
  obtain ⟨u, hu⟩ := List.head?_eq_some_iff.1 hparen
  obtain ⟨stop, hstop, hstart, hdeclines, hkeyword⟩ := exists_continuation hbody hu
  obtain ⟨init, last, rfl⟩ := (List.eq_nil_or_concat locals).resolve_left hne
  rw [List.concat_eq_append] at hlocals ⊢
  have hlast : last.Sound := hlocals last (by simp)
  have hafter : Trails ('\n' :: body.toList) := by
    refine ⟨?_, ?_⟩
    · rintro _ ⟨⟩
      decide
    · rw [trimmed_line, hu]
      simp [List.cons_prefix_cons]
  have hvalue : Takes inside sum (' ' :: last.text.toList) (.expr last.value) [] := by
    refine Takes.of_trimmed_eq (r := 3) hlast.2 (Nat.le_refl 3) ?_
    exact trimmed_blank_append (List.forall_mem_singleton.2 (by decide)) last.text.toList
  have hspace : ('\n' :: body.toList).head? ≠ some ' ' := fun hspace => by cases hspace
  -- the last value goes on with the body, to where nothing can begin
  obtain ⟨e', rest, hread, hrest⟩ := continues_sum hstop hafter hspace
    ((trimmed_line _).trans (hu.trans hstart.symm)) _ last.value hvalue
  obtain rfl : rest = stop 3 := hrest.elim id id
  have hsteps := Local.steps_last (fun l hl => hlocals l (List.mem_append_left _ hl)) hlast hread
  have hbindings := takes_many hsteps ((declines_binding hkeyword).memo none)
  have hinner : Declines inside inner (stop 3) := by
    have hstops : trimmed (stop 3) = stop 3 :=
      trimmed_eq (Takes.steady (r := 3) hread (Nat.le_refl 3)).stops
    exact Declines.self rfl (declines_parserAt (hstops.symm ▸ hdeclines) 3)
  have hfunction := (((takes_header hparam _).seq hbindings).aborts_seq
    (hinner.aborts_required "Expected a function body after '->'")).map makeFunction
  rw [toList_composed]
  exact ⟨stop 3, (Aborts.solid_function hfunction).expression (.cons (by decide) _)⟩

/-- Behind a word that is spelled like the keyword, no name stands. -/
theorem declines_name_of_takes {rest : List Char}
    (h : Takes inside sum ("let ".toList ++ rest) (.expr e) []) : Declines inside name rest := by
  refine Declines.padded (declines_chars fun c hc => Bool.eq_false_iff.2 fun hletter => ?_)
  -- with a letter behind it, the word would be all that is read
  have hword : Takes inside solid ("let ".toList ++ rest) (.expr (.ref "let")) (' ' :: rest) :=
    @takes_word (' ' :: rest) "let" (by decide) (.cons (by decide) rest)
  have hatom := hword.atom (.cons (by decide) _)
  have hblank : trimmed (' ' :: rest) = trimmed rest :=
    trimmed_blank_append (List.forall_mem_singleton.2 (by decide)) rest
  obtain ⟨more, hmore⟩ : ∃ more, trimmed rest = c :: more := List.head?_eq_some_iff.1 hc
  have hreach : 4 ≤ reach (trimmed rest) := by
    have hall : ∀ d ∈ CharClass.letters.members, pull d = 4 := forall_mem_of_all (by decide)
    rw [hmore]
    exact (hall c (List.contains_iff_mem.1 hletter)).ge
  rw [hblank] at hatom
  have hsum : Takes inside sum ("let ".toList ++ rest) (.expr (.ref "let")) (trimmed rest) :=
    Reached.mono (r := 0) hatom (Nat.zero_le 4) (Nat.le_refl 4) (stops_trimmed rest) hreach
  obtain ⟨_, hnil⟩ := Verdict.matched.inj (Goal.yields_unique h hsum)
  rw [hmore] at hnil
  cases hnil

/-- A body that begins with the keyword is taken for one more binding. -/
theorem aborts_composed_keyword (hparam : IsName param.toList) (hlocals : ∀ l ∈ locals, l.Sound)
    (hbody : Takes inside sum body.toList (.expr e) [])
    (hkeyword : "let ".toList <+: trimmed body.toList) :
    ∃ rest, Aborts inside sum (composed param locals body).toList
      (.failed "Expected a name after 'let'" rest) := by
  obtain ⟨rest, hrest⟩ := hkeyword
  have hparen : (trimmed body.toList).head? ≠ some '(' := by
    rw [← hrest]
    exact fun hparen => by cases hparen
  have hsteps := Local.steps_all hlocals hbody (.inr hparen)
  have hinner : Takes inside sum (trimmed body.toList) (.expr e) [] :=
    Takes.of_trimmed_eq (r := 3) hbody (Nat.le_refl 3) (trimmed_trimmed _)
  rw [← hrest] at hsteps hinner
  -- the keyword has been read, and what the body has behind it is no name
  have hbinding : Aborts inside (Language.binding inner) ("let ".toList ++ rest) _ :=
    ((((takes_literal "let " rest).aborts_right
      ((declines_name_of_takes hinner).aborts_required "Expected a name after 'let'")).left _).seq
        _).map _
  have hbindings : Aborts inside (many (.memo none (Language.binding inner))) _ _ :=
    (hsteps.aborts_rep (hbinding.memo none)).alt_first _
  have hfunction := (((takes_header hparam _).aborts_seq hbindings).seq
    (.required "Expected a function body after '->'" inner)).map makeFunction
  rw [toList_composed]
  exact ⟨rest, (Aborts.solid_function hfunction).expression (.cons (by decide) _)⟩

end

/-! ## Reading

What is read by itself is read up to the end of its text. So a value is known to be an expression
there, and by the seam at the end of its line it is one in the function, too. -/

namespace Workspace

/-- With the grammar of expressions, built in the workspace, reading the whole text comes to the
result. -/
def ReadsExpression (w : Workspace) (name text : String) (r : Except Diagnostic Value) : Prop :=
  ∃ g w₁, w.build expression = (.ok g, w₁) ∧ (w₁.readWhole g name text).1 = .ok r

section

variable {w : Workspace} {name text message : String} {e : Expr} {rest : List Char}

/-- The grammar of expressions comes to one verdict, and that is no report of a loop. -/
theorem parse_expression (w : Workspace) (text : String) :
    ∃ u g w₁ w₂, (Goal.parse inside sum text.toList).Yields u ∧ w.build expression = (.ok g, w₁)
      ∧ w₁.parseText g text = (u.outcome ⟨w₁.sources, text.toList⟩, w₂) := by
  obtain ⟨u, hu, _⟩ := viable_sum (viableBelow text.toList.length) (Nat.le_refl _)
  have hyields : (Goal.parse [] expression text.toList).Yields u := Course.yields_ask_done.2 hu
  obtain ⟨g, w₁, w₂, hbuild, hparse, _⟩ := w.parseText_of_yields rfl hyields
  exact ⟨u, g, w₁, w₂, hu, hbuild, hparse⟩

theorem takes_of_readsExpression (h : w.ReadsExpression name text (.ok (.expr e))) :
    Takes inside sum text.toList (.expr e) [] := by
  obtain ⟨u, g, w₁, w₂, hu, hbuild, hparse⟩ := w.parse_expression text
  obtain ⟨g', w', hbuild', hread⟩ := h
  cases hbuild.symm.trans hbuild'
  rw [readWhole, hparse] at hread
  -- of the verdicts, only a match of the whole text is not reported as an error
  cases u with
  | matched v rest =>
    cases rest with
    | nil =>
      obtain rfl : v = .expr e := Except.ok.inj (Except.ok.inj hread)
      exact hu
    | cons c rest => cases hread
  | noMatch =>
    simp only [Verdict.outcome, reportNoMatch] at hread
    split at hread
    next => cases hread
    next => split at hread <;> cases hread
  | failed message rest =>
    simp only [Verdict.outcome, reportFailure] at hread
    split at hread <;> cases hread
  | stalled rest => cases hread

theorem readsExpression_of_takes (h : Takes inside sum text.toList (.expr e) []) (w : Workspace)
    (name : String) : w.ReadsExpression name text (.ok (.expr e)) :=
  readWhole_of_takes rfl (takes_expression h) w name

theorem readsExpression_of_aborts (h : Aborts inside sum text.toList (.failed message rest))
    (w : Workspace) (name : String) :
    ∃ span, w.ReadsExpression name text (.error (.located .malformed message name span none)) := by
  obtain ⟨u, g, w₁, w₂, hu, hbuild, hparse⟩ := w.parse_expression text
  obtain rfl := Goal.comes_unique hu.comes h.1
  have hsuffix : rest <:+ text.toList := Goal.Yields.within hu
  obtain ⟨span, hpoint, _⟩ := covers_point hsuffix
  have hplace : Span.point? text.toList (Source.before ⟨w₁.sources, text.toList⟩ rest).offset
      = some span := hpoint
  refine ⟨span, g, w₁, hbuild, ?_⟩
  rw [readWhole, hparse]
  simp only [Verdict.outcome, reportFailure, hplace]

end

/-- **Functions are read as they are put together, as far as that can be.** The bindings and the
body are texts that are read as expressions by themselves, the body one that does not begin with the
keyword. Without bindings, or if the body does not begin with a parenthesis, the whole is read as
the function of them; otherwise the last value is a call of the body, and it is reported that the
body is missing. -/
theorem readsExpression_composed {param body : String} {locals : List Local} {e : Expr}
    (hparam : IsName param.toList)
    (hlocals : ∀ l ∈ locals, IsName l.name.toList
      ∧ ∃ (w : Workspace) (name : String), w.ReadsExpression name l.text (.ok (.expr l.value)))
    (hbody : ∃ (w : Workspace) (name : String), w.ReadsExpression name body (.ok (.expr e)))
    (hkeyword : ¬"let ".toList <+: trimmed body.toList) (w : Workspace) (name : String) :
    ((locals = [] ∨ (trimmed body.toList).head? ≠ some '(') →
        w.ReadsExpression name (composed param locals body)
          (.ok (.expr (.fn param (locals.map Local.binding) e))))
      ∧ (locals ≠ [] → (trimmed body.toList).head? = some '(' → ∃ span,
        w.ReadsExpression name (composed param locals body) (.error (.located .malformed
          "Expected a function body after '->'" name span none))) := by
  have hsound : ∀ l ∈ locals, l.Sound := by
    intro l hl
    obtain ⟨hname, w', name', hread⟩ := hlocals l hl
    exact ⟨hname, takes_of_readsExpression hread⟩
  obtain ⟨w', name', hread⟩ := hbody
  have htakes := takes_of_readsExpression hread
  refine ⟨fun hparen => ?_, fun hne hparen => ?_⟩
  · have hcomposed := takes_composed hparam hsound htakes hkeyword hparen
    exact readsExpression_of_takes hcomposed w name
  · obtain ⟨rest, hcomposed⟩ := aborts_composed hparam hsound htakes hne hparen
    exact readsExpression_of_aborts hcomposed w name

/-- The value ends in a function whose body is spelled like the keyword. -/
theorem readsExpression_composed_word :
    IsName "p".toList ∧ IsName "a".toList
      ∧ empty.ReadsExpression "value" "(x) -> let" (.ok (.expr (.fn "x" [] (.ref "let"))))
      ∧ empty.ReadsExpression "body" " a(p)" (.ok (.expr (.call (.ref "a") (.ref "p"))))
      ∧ empty.ReadsExpression "whole" "(p) -> let a = (x) -> let\n a(p)" (.ok (.expr (.fn "p"
          [.mk "a" (.fn "x" [] (.ref "let"))] (.call (.ref "a") (.ref "p"))))) := by
  have hp : IsName "p".toList := by decide
  have ha : IsName "a".toList := by decide
  have hletters : IsName "let".toList := by decide
  have hword : ReadAt 4 (.ref "let") "let".toList :=
    (readAt_ref hletters).mono (Nat.zero_le 4) (Nat.le_refl 4)
  have hfunction : ReadAt 4 (.fn "x" [] (.ref "let")) "(x) -> let".toList :=
    .fn (by decide) .nil allReadAt_nil hword (.name hletters) fun hne => absurd rfl hne
  have hcall : ReadAt 4 (.call (.ref "a") (.ref "p")) "a(p)".toList :=
    ReadAt.mono (.call ((readAt_ref ha).mono (Nat.zero_le 1) (by decide))
      ((readAt_ref hp).mono (Nat.zero_le 4) (Nat.le_refl 4)) (.name hp)) (by decide) (Nat.le_refl 4)
  have htakes : Takes inside sum "(x) -> let".toList _ [] :=
    hfunction [] [] (List.forall_mem_nil _) nofun (by decide)
  have htakes' : Takes inside sum " a(p)".toList _ [] :=
    hcall [' '] [] (forall_mem_of_all (by decide)) nofun (by decide)
  have hvalue := readsExpression_of_takes htakes empty "value"
  have hbody := readsExpression_of_takes htakes' empty "body"
  refine ⟨hp, ha, hvalue, hbody, ?_⟩
  have hlocals : ∀ l ∈ [Local.mk "a" "(x) -> let" (.fn "x" [] (.ref "let"))],
      IsName l.name.toList ∧ ∃ (w : Workspace) (name : String),
        w.ReadsExpression name l.text (.ok (.expr l.value)) :=
    List.forall_mem_singleton.2 ⟨ha, _, _, hvalue⟩
  exact (readsExpression_composed hp hlocals ⟨_, _, hbody⟩ (by decide) empty "whole").1
    (.inr (by decide))

/-- A body in parentheses is the argument of the value before it, and a body that is spelled like
the keyword and ends with a space is the beginning of a binding. -/
theorem readsExpression_swallowed :
    (IsName "p".toList ∧ IsName "a".toList
      ∧ empty.ReadsExpression "value" "f" (.ok (.expr (.ref "f")))
      ∧ empty.ReadsExpression "body" "(x)" (.ok (.expr (.ref "x")))
      ∧ ∃ span, empty.ReadsExpression "whole" "(p) -> let a = f\n(x)" (.error (.located .malformed
          "Expected a function body after '->'" "whole" span none)))
      ∧ empty.ReadsExpression "body" "let " (.ok (.expr (.ref "let")))
      ∧ ∃ span, empty.ReadsExpression "whole" "(p) -> let " (.error (.located .malformed
          "Expected a name after 'let'" "whole" span none)) := by
  have hp : IsName "p".toList := by decide
  have hname : Takes inside solid "f".toList (.expr (.ref "f")) [] :=
    @takes_word [] "f" (by decide) nofun
  have hvalue : Takes inside sum "f".toList (.expr (.ref "f")) [] :=
    hname.expression (.cons (by decide) []) rfl
  have hgroup : Takes inside solid "(x)".toList (.expr (.ref "x")) [] := by
    have hencloses : Encloses "x".toList (.ref "x") := fun y =>
      @takes_sum_word [] [] (List.forall_mem_nil _) "x" (by decide) (List.forall_mem_nil _) y
    exact hencloses.takes_group (y := []) (by decide)
  have hbody : Takes inside sum "(x)".toList (.expr (.ref "x")) [] :=
    hgroup.expression (.cons (by decide) _) rfl
  have hlocals : ∀ l ∈ [Local.mk "a" "f" (.ref "f")], l.Sound :=
    List.forall_mem_singleton.2 ⟨by decide, hvalue⟩
  obtain ⟨_, hswallowed⟩ := aborts_composed hp hlocals hbody (List.cons_ne_nil _ _) (by decide)
  have hspelled : Takes inside solid "let ".toList (.expr (.ref "let")) [' '] :=
    @takes_word [' '] "let" (by decide) (.cons (by decide) [])
  have hword : Takes inside sum "let ".toList (.expr (.ref "let")) [] :=
    hspelled.expression (.cons (by decide) _) rfl
  have hnone : ∀ l ∈ [], Local.Sound l := List.forall_mem_nil _
  obtain ⟨_, hbound⟩ := aborts_composed_keyword hp hnone hword (by decide)
  exact ⟨⟨hp, by decide, readsExpression_of_takes hvalue _ _, readsExpression_of_takes hbody _ _,
    readsExpression_of_aborts hswallowed _ _⟩, readsExpression_of_takes hword _ _,
    readsExpression_of_aborts hbound _ _⟩

end Workspace

end Packrat
