import Packrat.Proofs.Language.Viability

/-!
# Where modules end

A module ends where its last value does, if the keyword does not stand ahead there. Neither what
follows nor the lack of it has a part in what has been read before.

* **`Workspace.Report`** — the reports on a text, one for each verdict of the parser of modules.
* **`takes_program_before`** — what has been read as a module is read as that module if the text
  ends with it.
* **`takes_program_append`** — two modules on lines of their own are read as one.
* **`Workspace.readModule_exact`**, **`Workspace.readModule_append`** — the same of what is
  reported.
-/

namespace Packrat

open Packrat.Language

/-! ## Reports

There is one verdict of the parser of modules on each text, and one report for each verdict. -/

/-- What is reported of a text goes with the verdict on it. -/
inductive Workspace.Report (text : List Char) : Except Diagnostic Module → Prop where
  | module {m : Module} (h : Takes [] program text (.program m) []) : Report text (.ok m)
  | leftOver {m : Module} {rest : List Char} {d : Diagnostic} {span : Span}
      (h : Takes [] program text (.program m) rest) (hne : rest ≠ []) (hd : d.trouble = .incomplete)
      (hspan : d.span = some span)
      (hstart : span.start = Text.byteLength text - Text.byteLength rest)
      (hstop : span.stop = Text.byteLength text) : Report text (.error d)
  | unmatched {d : Diagnostic} (h : Declines [] program text) (hd : d.trouble = .unmatched) :
      Report text (.error d)
  | malformed {message : String} {rest : List Char} {d : Diagnostic}
      (h : (Goal.parse [] program text).Yields (.failed message rest))
      (hd : d.trouble = .malformed) : Report text (.error d)

theorem Workspace.readModule_report (w : Workspace) (name text : String) :
    ∃ r, (w.readModule name text).1 = .ok r ∧ Report text.toList r := by
  obtain ⟨u, hu, hfits⟩ := viable_program text.toList
  cases u with
  | matched v rest =>
    obtain ⟨bs, rfl, _⟩ := hfits
    by_cases hrest : rest = []
    · subst hrest
      obtain ⟨w', hread, _⟩ := w.readModule_of_takes hu name
      exact ⟨_, congrArg Prod.fst hread, .module hu⟩
    · obtain ⟨span, w', hread, _, hstart, hstop, _⟩ := w.readModule_of_leftOver hu hrest name
      exact ⟨_, congrArg Prod.fst hread, .leftOver hu hrest rfl rfl hstart hstop⟩
  | noMatch =>
    obtain ⟨d, w', hread, _, htrouble, _⟩ := w.readModule_of_declines hu name
    exact ⟨_, congrArg Prod.fst hread, .unmatched hu htrouble⟩
  | failed message rest =>
    obtain ⟨span, w', hread, _⟩ := w.readModule_of_fails hu name
    exact ⟨_, congrArg Prod.fst hread, .malformed hu rfl⟩
  | stalled rest => exact hfits.elim

theorem Workspace.takes_of_readModule {w : Workspace} {name text : String} {m : Module}
    (h : (w.readModule name text).1 = .ok (.ok m)) :
    Takes [] program text.toList (.program m) [] := by
  obtain ⟨r, hr, hreport⟩ := w.readModule_report name text
  obtain rfl : r = .ok m := Except.ok.inj (hr.symm.trans h)
  cases hreport with
  | module htakes => exact htakes

/-! ## What follows a module

The last value of a module is read up to some place, and by a seam it is read again before any text
there that goes on with no expression. -/

section

variable {cs ds es : List Char} {v : Value} {vs : List Value} {m n : Module}

/-- A module is read again if the text ends with it, and what was ahead of it does not go on with
it. -/
theorem takes_program_before (h : Takes [] program cs v ds) :
    ∃ m before, v = .program m ∧ cs = before ++ ds ∧ "let ".toList <+: trimmed before
      ∧ CharClass.spaces.Stops ds ∧ ¬"let ".toList <+: ds
      ∧ Takes [] program before (.program m) [] := by
  obtain ⟨bs, rfl, hne, ⟨before, hsplit, _, hsteady⟩, hend⟩ := (viable_program cs).fits h
  obtain ⟨hkeyword, hstops, _, hsteps⟩ := hsteady hne
  have hread := hsteps [] (Closes.nil.seam ds)
  rw [List.append_nil] at hread
  rw [trimmed_eq hstops] at hend
  exact ⟨⟨bs⟩, before, rfl, hsplit, hkeyword, hstops, hend, hread.takes_program hne (by decide)⟩

/-- Blanks before the first declaration make no difference. -/
theorem Steps.of_trimmed_eq (h : Steps [] (spaced (binding expression)) cs vs ds) (hne : vs ≠ [])
    (hcs : trimmed es = trimmed cs) : Steps [] (spaced (binding expression)) es vs ds := by
  induction h with
  | none => exact absurd rfl hne
  | @more vs v ds fs h hv hmoved ih =>
    by_cases hvs : vs = []
    · -- only the first of the declarations has the blanks before it
      subst hvs
      obtain rfl : ds = cs := h.rest_eq
      have hagain : Takes [] (spaced (binding expression)) es v fs := hv.padded_of_afterRun_eq hcs
      obtain ⟨b, rfl, hsteady⟩ := (viableBinding_declaration _).fits hagain
      refine .more .none hagain ?_
      rintro rfl
      exact absurd hsteady.length_lt (Nat.lt_irrefl _)
    · exact .more (ih hvs) hv hmoved

/-- **Two modules on lines of their own are one.** The keyword goes on with no expression, so the
last value of the first module ends where it did. -/
theorem takes_program_append (hm : Takes [] program cs (.program m) [])
    (hn : Takes [] program ds (.program n) []) :
    Takes [] program (cs ++ '\n' :: ds) (.program ⟨m.declarations ++ n.declarations⟩) [] := by
  obtain ⟨bs, hbs, hne, ⟨text, hcs, _, hsteady⟩, _⟩ := (viable_program cs).fits hm
  obtain ⟨bs', hbs', hne', ⟨text', hds, _, hsteady'⟩, _⟩ := (viable_program ds).fits hn
  cases hbs
  cases hbs'
  rw [List.append_nil] at hcs hds
  subst hcs hds
  obtain ⟨_, _, _, hsteps⟩ := hsteady hne
  obtain ⟨⟨more, hmore⟩, _, _, hsteps'⟩ := hsteady' hne'
  have hbreak : ∀ c ∈ ['\n'], IsBlank c := List.forall_mem_singleton.2 (by decide)
  have hstart : trimmed ('\n' :: ds) = trimmed ds := trimmed_blank_append hbreak ds
  have hseam : Seam 4 [] ('\n' :: ds) := by
    refine ⟨?_, ?_, .inl (delimits_cons (by decide) ds)⟩
    · rw [hstart, ← hmore]
      exact Nat.le_refl 4
    · rw [hstart, ← hmore]
      simp [List.cons_prefix_cons]
  have hfirst := hsteps _ hseam
  rw [hstart] at hfirst
  have hsecond := hsteps' [] (Closes.nil.seam [])
  rw [List.append_nil] at hsecond
  have hall := hfirst.append (hsecond.of_trimmed_eq (by simpa using hne') (trimmed_trimmed ds))
  rw [← List.map_append] at hall
  exact hall.takes_program (List.append_ne_nil_of_left_ne_nil hne bs') (by decide)

end

/-! ## Reading -/

namespace Workspace

/-- A module stands at the beginning of the text, and the span is what follows it. That goes on with
nothing of a module; and the text up to there is read as the module that the parser has matched. -/
structure LeavesOver (w : Workspace) (text : String) (span : Span) (before rest : List Char)
    (m : Module) : Prop where
  split : text.toList = before ++ rest
  start : span.start = Text.byteLength before
  stop : span.stop = Text.byteLength text.toList
  pos : 0 < span.start
  lt : span.start < span.stop
  solid : ∃ c cs, rest = c :: cs ∧ ¬IsBlank c
  noKeyword : ¬"let ".toList <+: rest
  matched : ∃ g w₁ w₂, w.build program = (.ok g, w₁)
    ∧ w₁.parseText g text
      = (.matched (.program m) ⟨⟨w₁.sources, text.toList⟩, span.start, rest⟩, w₂)
  read : ∀ (w' : Workspace) (name' : String),
    (w'.readModule name' (String.ofList before)).1 = .ok (.ok m)

theorem leavesOver_of_takes {text : String} {v : Value} {rest : List Char} {span : Span}
    (h : Takes [] program text.toList v rest) (hne : rest ≠ [])
    (hstart : span.start = Text.byteLength text.toList - Text.byteLength rest)
    (hstop : span.stop = Text.byteLength text.toList) (w : Workspace) :
    ∃ before m, w.LeavesOver text span before rest m := by
  obtain ⟨m, before, rfl, hsplit, hkeyword, hstops, hover, htakes⟩ := takes_program_before h
  have hbefore : span.start = Text.byteLength before := by
    rw [hstart, hsplit, Text.byteLength_append, Nat.add_sub_cancel]
  obtain ⟨c, cs, rfl⟩ := List.exists_cons_of_ne_nil hne
  refine ⟨before, m, hsplit, hbefore, hstop, ?_, ?_, ⟨c, cs, rfl, ?_⟩, hover, ?_,
    fun w' name' => ?_⟩
  · rw [hbefore]
    exact Nat.pos_of_ne_zero fun hzero =>
      ne_nil_of_keyword hkeyword (Text.eq_nil_of_byteLength_eq_zero hzero)
  · have hpos : Text.byteLength (c :: cs) ≠ 0 := fun hzero =>
      List.cons_ne_nil c cs (Text.eq_nil_of_byteLength_eq_zero hzero)
    rw [hbefore, hstop, hsplit, Text.byteLength_append]
    omega
  · intro hblank
    have hc := spaces_contains.2 hblank
    rw [hstops c rfl] at hc
    cases hc
  · obtain ⟨g, w₁, w₂, hbuild, hparse, _⟩ := w.parse_program h
    refine ⟨g, w₁, w₂, hbuild, ?_⟩
    rw [hparse, hstart]
    rfl
  · rw [← String.toList_ofList (l := before)] at htakes
    obtain ⟨w'', hread, _⟩ := w'.readModule_of_takes htakes name'
    rw [hread]
    rfl

/-- **Reports of no match and of left-over text are exact.** No match is reported if and only if the
keyword does not stand behind the blanks at the beginning. And if text is reported to be left over,
a module stands before it, the same that the text would be read as if it ended there. -/
theorem readModule_exact (w : Workspace) (name text : String) :
    ((∃ d, (w.readModule name text).1 = .ok (.error d) ∧ d.trouble = .unmatched)
        ↔ ¬"let ".toList <+: trimmed text.toList)
      ∧ ∀ d, (w.readModule name text).1 = .ok (.error d) → d.trouble = .incomplete →
        ∃ span before rest m, d.span = some span ∧ w.LeavesOver text span before rest m := by
  obtain ⟨r, hr, hreport⟩ := w.readModule_report name text
  refine ⟨⟨?_, fun hkeyword => ?_⟩, ?_⟩
  · rintro ⟨d, hread, hd⟩
    obtain rfl : r = .error d := Except.ok.inj (hr.symm.trans hread)
    cases hreport with
    | leftOver _ _ hd' => rw [hd] at hd'; cases hd'
    | unmatched hdeclines => exact (viable_program _).fits hdeclines
    | malformed _ hd' => rw [hd] at hd'; cases hd'
  · have hdeclines : Declines [] (spaced (binding expression)) text.toList :=
      .padded (declines_binding hkeyword)
    obtain ⟨d, w', hread, _, htrouble, _⟩ :=
      w.readModule_of_declines (hdeclines.rep.map makeModule) name
    exact ⟨d, congrArg Prod.fst hread, htrouble⟩
  · intro d hread hd
    obtain rfl : r = .error d := Except.ok.inj (hr.symm.trans hread)
    cases hreport with
    | leftOver htakes hne _ hspan hstart hstop =>
      obtain ⟨before, m, hleaves⟩ := leavesOver_of_takes htakes hne hstart hstop w
      exact ⟨_, before, _, m, hspan, hleaves⟩
    | unmatched _ hd' => rw [hd] at hd'; cases hd'
    | malformed _ hd' => rw [hd] at hd'; cases hd'

/-- A parenthesis is left over behind a function with a binding of its own. -/
theorem readModule_shifted_leaves_over :
    (¬"let ".toList <+: trimmed " x".toList
        ∧ ∃ d, (empty.readModule "shifted" " x").1 = .ok (.error d) ∧ d.trouble = .unmatched)
      ∧ ∃ d, (empty.readModule "shifted" "let f = (x) -> let let = x*(x+2)\nlet(x)\n)").1
          = .ok (.error d)
        ∧ d.trouble = .incomplete
        ∧ ∃ span before rest m, d.span = some span
          ∧ empty.LeavesOver "let f = (x) -> let let = x*(x+2)\nlet(x)\n)" span before rest m := by
  have hkeyword : ¬"let ".toList <+: trimmed " x".toList := by decide
  have htakes : Takes [] program "let f = (x) -> let let = x*(x+2)\nlet(x)\n)".toList _ [')'] :=
    Module.shifted_written.takes_before Module.shifted_legible (by decide)
      (.cons (by decide) []) rfl (by decide)
  obtain ⟨span, w', hread, _⟩ := empty.readModule_of_leftOver htakes (by decide) "shifted"
  have herror := congrArg Prod.fst hread
  exact ⟨⟨hkeyword, (readModule_exact empty "shifted" " x").1.2 hkeyword⟩, _, herror, rfl,
    (readModule_exact _ _ _).2 _ herror rfl⟩

/-- **Modules can be written one after the other.** Two texts that are read as modules, with a line
break between them, are read as the module of all their declarations, in order. -/
theorem readModule_append {w₁ w₂ : Workspace} {name₁ name₂ a b : String} {m n : Module}
    (ha : (w₁.readModule name₁ a).1 = .ok (.ok m)) (hb : (w₂.readModule name₂ b).1 = .ok (.ok n))
    (w : Workspace) (name : String) :
    (w.readModule name (a ++ "\n" ++ b)).1 = .ok (.ok ⟨m.declarations ++ n.declarations⟩) := by
  have htakes := takes_program_append (takes_of_readModule ha) (takes_of_readModule hb)
  have htext : a.toList ++ '\n' :: b.toList = (a ++ "\n" ++ b).toList := by
    simp [String.toList_append]
  rw [htext] at htakes
  obtain ⟨w', hread, _⟩ := w.readModule_of_takes htakes name
  rw [hread]
  rfl

/-- The body of the function does not go on with the declaration behind it, nor do its bindings. -/
theorem readModule_shifted_twice :
    (empty.readModule "shifted" "let f = (x) -> let let = x*(x+2)\nlet(x)\n").1
        = .ok (.ok Module.shifted)
      ∧ (empty.readModule "twice" ("let f = (x) -> let let = x*(x+2)\nlet(x)\n" ++ "\n"
          ++ "let f = (x) -> let let = x*(x+2)\nlet(x)\n")).1
        = .ok (.ok ⟨Module.shifted.declarations ++ Module.shifted.declarations⟩) := by
  have htakes := Module.shifted_written.takes_program Module.shifted_legible (by decide)
  obtain ⟨w', hread, _⟩ := empty.readModule_of_takes htakes "shifted"
  have hok := congrArg Prod.fst hread
  exact ⟨hok, readModule_append hok hok empty "twice"⟩

end Workspace

end Packrat
