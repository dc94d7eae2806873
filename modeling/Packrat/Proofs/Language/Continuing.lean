import Packrat.Proofs.Language.Surroundings

/-!
# Expressions that go on

A parenthesis behind an expression opens an argument, if an expression stands in it and it is
closed. It belongs to the last atom before it, and what stands behind it goes on with every operator
and every function that the atom is at the end of.

* **`Continuation`** — where the parsers of the grammar come to from such a parenthesis on. There is
  one for every expression that begins with a parenthesis (`exists_continuation`): what is read by
  itself as a group is an argument, and what is read as a function has its parameter for one, so
  that the arrow is left.
* **`continues_sum`** — what is read as an expression up to the end of a text goes on with the
  parenthesis behind it, up to where the continuation ends.
-/

namespace Packrat

open Packrat.Language

/-! ## What follows a finished expression

A parenthesis that begins an expression begins an argument wherever one may follow. What is read
behind the argument is the same as behind the first operand that the expression began with. -/

section

variable {cs ds u : List Char} {e : Expr} {r : Nat}

theorem takes_argument_of {y : List Char} (h : Takes inside sum u (.expr e) (')' :: y)) :
    Takes inside argument ('(' :: u) (.expr e) (trimmed y) := by
  have hopening : Takes inside (spaced (.literal "(")) ('(' :: u) (.text "(") (trimmed u) :=
    takes_spaced (.cons (by decide) u) (takes_literal "(" u)
  have hinner : Takes inside sum (trimmed u) (.expr e) (')' :: y) :=
    Takes.of_trimmed_eq (r := 3) h (Nat.le_refl 3) (trimmed_trimmed u)
  exact takes_closed _ hopening hinner

/-- Behind an argument, less is left. -/
theorem Takes.argument_moves (h : Takes inside argument ('(' :: u) (.expr e) ds) :
    ds ≠ '(' :: u := by
  have hmeets : Meets inside argument ('(' :: u) _ _ _ :=
    meets_argument (viableBelow _) (Nat.le_refl _) (.cons (by decide) u)
  obtain ⟨_, t, _, hsplit, _⟩ := hmeets.fits h
  rintro rfl
  have hlen := congrArg List.length hsplit
  simp only [List.length_cons, List.length_append] at hlen
  omega

/-- The parameter of a function can be read as an argument. -/
theorem meets_header_argument :
    Meets inside header ('(' :: u) (fun _ _ => ∃ a rest,
      Takes inside argument ('(' :: u) (.expr a) rest ∧ "->".toList <+: rest) True
      fun _ _ => True := by
  refine meets_left (meets_left (meets_right (meets_literal (fun u' hu => ?_) fun _ => trivial)))
  obtain rfl : u = u' := (List.cons.inj hu).2
  refine meets_spaced fun blank cs hblank hsplit _ => ?_
  refine meets_chars (fun run rest hne hrun hcs _ => ?_) fun _ => trivial
  intro blank' fs hblank' hrest _
  refine meets_literal (fun y hfs => meets_spaced fun blank₂ ds hblank₂ hy hstops => ?_)
    fun _ => trivial
  refine meets_literal (fun gs hds blank₃ hs _ _ _ => ?_) fun _ => trivial
  have hword := takes_sum_word hblank (isName_ofList hne hrun) hblank' y
  have hfs' : fs = ')' :: y := hfs
  rw [String.toList_ofList, ← hfs', ← hrest, ← hcs, ← hsplit, hfs'] at hword
  refine ⟨_, _, takes_argument_of hword, gs, ?_⟩
  rw [hy, trimmed_append hblank₂ hstops, hds]

/-- A group can be read as an argument, and so can the parameter of a function, up to the arrow. -/
theorem Takes.exists_argument (h : Takes inside solid ('(' :: u) (.expr e) ds) :
    ∃ a rest, Takes inside argument ('(' :: u) (.expr a) rest
      ∧ (rest = trimmed ds ∨ "->".toList <+: rest) := by
  have hsolid : Meets inside solid ('(' :: u) (fun _ ds => ∃ a rest,
      Takes inside argument ('(' :: u) (.expr a) rest
        ∧ (rest = trimmed ds ∨ "->".toList <+: rest)) True fun _ _ => True := by
    have hletters : Declines inside reference ('(' :: u) :=
      declines_reference (.cons (by decide) u)
    refine meets_alt (meets_alt (meets_alt ?_))
    refine (declines_number (.cons (by decide) u)).meets (meets_function_end.mono ?_ (fun _ => ?_)
      fun _ _ _ _ => trivial)
    -- a function: the argument ends in front of its arrow
    · rintro _ _ _ ⟨param, bs, body, _, rfl, _, _, _, _, _, _, u', hu, hagain⟩
      obtain rfl : u = u' := (List.cons.inj hu).2
      obtain ⟨us, htakes, _⟩ := hagain []
      rw [List.append_nil] at htakes
      obtain ⟨a, rest, hargument, harrow⟩ := meets_header_argument.fits htakes
      exact ⟨a, rest, hargument, .inr harrow⟩
    -- a group is spelled as an argument is
    · refine meets_parenthesised (viableBelow _) (Nat.lt_succ_self u.length) (takes_literal "(" u)
        (fun a t y _ hsplit hencloses => ?_) (fun _ => hletters.meets trivial)
        fun _ _ _ _ _ _ _ => trivial
      have hargument : Takes inside argument ('(' :: u) (.expr a) (trimmed y) :=
        takes_argument_of (hsplit ▸ hencloses y)
      exact ⟨a, trimmed y, hargument, .inl (trimmed_trimmed y).symm⟩
  exact hsolid.fits h

/-- Nothing goes on with an arrow. -/
theorem quiet_arrow (h : "->".toList <+: ds) : Quiet 3 ds ∧ Declines inside solid ds := by
  obtain ⟨more, rfl⟩ := h
  refine ⟨⟨fun _ => ?_, fun op es hop hes => declines_parserAt ?_ _⟩, ?_⟩
  · exact declines_argument (.cons (by decide) _) (show 1 < 3 by decide)
  · obtain rfl : op = .subtract := eq_of_symbol_ahead ⟨es, hes.symm⟩
    obtain rfl : '>' :: more = es := (List.cons.inj hes).2
    rw [trimmed_eq (.cons (by decide) more)]
    exact declines_solid (.cons (by decide) _) (.cons (by decide) _)
      (by simp [List.cons_prefix_cons])
  · exact declines_solid (.cons (by decide) _) (.cons (by decide) _)
      (by simp [List.cons_prefix_cons])

theorem quiet_nil : Quiet 3 [] ∧ Declines inside solid [] := by
  refine ⟨⟨fun _ => declines_argument nofun (by decide), fun op es hop hes => ?_⟩, ?_⟩
  · exact absurd (List.append_eq_nil_iff.1 hes.symm).1 (symbol_ne_nil op)
  · exact declines_solid nofun nofun (by decide)

/-- Where expressions of each rank are over, from the parenthesis on that stands where an atom is
over. -/
structure Continuation (stop : Nat → List Char) : Prop where
  onward : ∀ r, r + 1 ≤ 3 → ∃ g, Onward (r + 1) g (stop r) (stop (r + 1))
  quiet : ∀ r, r ≤ 3 → Quiet r (stop r)

/-- The four places in the order of the ranks. -/
def placed (atom call product sum : List Char) : Nat → List Char
  | 0 => atom
  | 1 => call
  | 2 => product
  | _ => sum

theorem continuation_placed {u₀ u₁ u₂ u₃ : List Char} (h₁ : ∃ g, Onward 1 g u₀ u₁)
    (h₂ : ∃ g, Onward 2 g u₁ u₂) (h₃ : ∃ g, Onward 3 g u₂ u₃) (hquiet₁ : Quiet 1 u₁)
    (hquiet₂ : Quiet 2 u₂) (hquiet₃ : Quiet 3 u₃) : Continuation (placed u₀ u₁ u₂ u₃) where
  onward r hr := by
    obtain rfl | rfl | rfl : r = 0 ∨ r = 1 ∨ r = 2 := by omega
    · exact h₁
    · exact h₂
    · exact h₃
  quiet r hr := by
    obtain rfl | rfl | rfl | rfl : r = 0 ∨ r = 1 ∨ r = 2 ∨ r = 3 := by omega
    · exact quiet_zero _
    · exact hquiet₁
    · exact hquiet₂
    · exact hquiet₃

/-- **An expression goes on with what begins with a parenthesis.** What was the first operand there
is an argument now, and all that was read behind it is read again. -/
theorem exists_continuation (h : Takes inside sum cs (.expr e) []) (hcs : trimmed cs = '(' :: u) :
    ∃ stop, Continuation stop ∧ stop 0 = '(' :: u ∧ Declines inside solid (stop 3)
      ∧ ¬"let ".toList <+: stop 3 := by
  obtain ⟨_, middle₂, _, hproduct, _, honward₃⟩ := Takes.exists_first (r := 2) h (Nat.le_refl 3)
  obtain ⟨_, middle₁, _, hcall, _, honward₂⟩ := Takes.exists_first (r := 1) hproduct (by decide)
  obtain ⟨_, middle₀, _, hatom, _, honward₁⟩ := Takes.exists_first (r := 0) hcall (by decide)
  obtain ⟨blank, text, rest, hblank, rfl, hstops, _, hsolid, hrest⟩ := hatom.exists_solid
  obtain rfl : text = '(' :: u := by rw [← hcs, trimmed_append hblank hstops]
  obtain ⟨a, rest', hargument, hover⟩ := hsolid.exists_argument
  have happlied : Onward 1 (Expr.call · a) ('(' :: u) rest' :=
    fun front f hf => hf.call hargument hargument.argument_moves
  rcases hover with rfl | harrow
  · -- a group, behind which all goes on as it did
    rw [hrest] at happlied
    have hfirst : ∃ g, Onward 1 g ('(' :: u) middle₁ :=
      ⟨_, fun front f hf => honward₁ front _ (happlied front f hf)⟩
    have hcontinuation := continuation_placed hfirst ⟨_, honward₂⟩ ⟨_, honward₃⟩
      (Takes.steady (r := 1) hcall (by decide)).quiet
      (Takes.steady (r := 2) hproduct (by decide)).quiet quiet_nil.1
    have hkeyword : ¬"let ".toList <+: [] := by decide
    exact ⟨_, hcontinuation, rfl, quiet_nil.2, hkeyword⟩
  · -- a function, at whose arrow all is over
    obtain ⟨hquiet, hdeclines⟩ := quiet_arrow harrow
    have hkeyword : ¬"let ".toList <+: rest' := by
      obtain ⟨more, rfl⟩ := harrow
      simp [List.cons_prefix_cons]
    have hsame (r : Nat) : ∃ g, Onward r g rest' rest' := ⟨id, fun front f => id⟩
    have hcontinuation := continuation_placed ⟨_, happlied⟩ (hsame 2) (hsame 3)
      (hquiet.mono (by decide)) (hquiet.mono (by decide)) hquiet
    exact ⟨_, hcontinuation, rfl, hdeclines, hkeyword⟩

/-! ## Values that are followed by a parenthesis

The contract is about what is read up to the end of the text, for only then does the parenthesis
stand right behind it. -/

/-- What is read as an expression of the rank up to the end of the text goes on with the text behind
it, as far as such an expression goes. If a function is at the end, its body goes on with all there
is. -/
def ContinuesAt (stop : Nat → List Char) (after : List Char) (r : Nat) (cs : List Char) : Prop :=
  ∀ e, Takes inside (parserAt r) cs (.expr e) [] → ∃ e' rest,
    Takes inside (parserAt r) (cs ++ after) (.expr e') rest ∧ (rest = stop r ∨ rest = stop 3)

variable {stop : Nat → List Char} {after rest : List Char} {n : Nat}

theorem Continuation.goes_on (h : Continuation stop) (hr : r + 1 ≤ 3)
    (hreached : Reached (r + 1) cs e rest) (hrest : rest = stop r ∨ rest = stop 3) :
    ∃ e' rest', Takes inside (parserAt (r + 1)) cs (.expr e') rest'
      ∧ (rest' = stop (r + 1) ∨ rest' = stop 3) := by
  rcases hrest with rfl | rfl
  · obtain ⟨g, honward⟩ := h.onward r hr
    exact ⟨g e, _, (honward cs e hreached).takes_of_quiet hr (h.quiet _ hr), .inl rfl⟩
  · exact ⟨e, _, hreached.takes_of_quiet hr ((h.quiet 3 (Nat.le_refl 3)).mono hr), .inr rfl⟩

/-- The contract of an alternative of atoms that go on, about those that nothing but blanks
follows. -/
abbrev ContinuingAtom (stop : Nat → List Char) (after : List Char) (p : Blueprint)
    (cs : List Char) : Prop :=
  Meets inside p cs (fun v es => ∃ e, v = .expr e ∧ (trimmed es = [] →
    ∃ e' rest, Takes inside solid (cs ++ after) (.expr e') rest
      ∧ (trimmed rest = stop 0 ∨ trimmed rest = stop 3))) True fun _ _ => True

/-- An atom that ends by itself leaves what is behind it. -/
theorem ClosedAtom.continuing {p : Blueprint} (h : ClosedAtom after p cs True)
    (hstart : trimmed after = stop 0) : ContinuingAtom stop after p cs := by
  refine h.mono ?_ id fun _ _ _ => id
  rintro _ es _ ⟨e, rfl, hread⟩
  refine ⟨e, rfl, fun hend => ?_⟩
  obtain ⟨_, _, rest, hrest, htrimmed⟩ := hread hend
  exact ⟨e, rest, hrest, .inl (htrimmed.trans hstart)⟩

/-- The body of a function goes on, and with it the function. -/
theorem continuingAtom_function (hafter : Trails after) (hspace : after.head? ≠ some ' ')
    (h : ∀ ds : List Char, ds.length < cs.length → ContinuesAt stop after 3 ds) :
    ContinuingAtom stop after function cs := by
  refine meets_function_end.mono ?_ id fun _ _ _ => id
  rintro _ es _ ⟨param, bs, body, ds, rfl, htakes, hes, _, hlen, _, hend, u, rfl, hagain⟩
  refine ⟨_, rfl, fun hnil => ?_⟩
  obtain rfl : es = [] := by rwa [trimmed_eq hes] at hnil
  obtain ⟨us, hheader, hsteps⟩ := hagain after
  obtain ⟨body', rest, hbody, hrest⟩ := h ds hlen body htakes
  -- no body is taken for a binding now that was none before
  have hkeyword : ¬"let ".toList <+: ds ++ after :=
    fun hkeyword => hspace (hafter.eq_of_keyword hend hkeyword).2
  have hbindings := takes_many hsteps ((declines_binding hkeyword).memo none)
  refine ⟨.fn param bs body', rest,
    takes_solid_function (takes_function_of hheader hbindings hbody), .inr ?_⟩
  rw [trimmed_eq (Takes.steady (r := 3) hbody (Nat.le_refl 3)).stops]
  exact hrest.elim id id

theorem continuingAtom_solid (hafter : Trails after) (hspace : after.head? ≠ some ' ')
    (hstart : trimmed after = stop 0)
    (h : ∀ ds : List Char, ds.length < cs.length → ContinuesAt stop after 3 ds) :
    ContinuingAtom stop after solid cs := by
  have hnumber : ContinuingAtom stop after number cs :=
    (closedAtom_number hafter).continuing hstart
  have hgroup : ContinuingAtom stop after group cs :=
    (closedAtom_group hafter).continuing hstart
  have hreference : ContinuingAtom stop after reference cs :=
    (closedAtom_reference hafter).continuing hstart
  refine meets_alt (meets_alt (meets_alt (hnumber.otherwise fun _ => ?_)))
  exact (continuingAtom_function hafter hspace h).otherwise fun _ =>
    hgroup.otherwise fun _ => hreference

theorem continues_atom (hafter : Trails after) (hspace : after.head? ≠ some ' ')
    (hstart : trimmed after = stop 0)
    (h : ∀ ds : List Char, ds.length < cs.length → ContinuesAt stop after 3 ds) :
    ContinuesAt stop after 0 cs := by
  intro e htakes
  obtain ⟨blank, ds, es, hblank, rfl, hstops, hne, hsolid, hes⟩ := htakes.exists_solid
  have hshort (fs : List Char) (hfs : fs.length < ds.length) : ContinuesAt stop after 3 fs := by
    refine h fs (Nat.lt_of_lt_of_le hfs ?_)
    rw [List.length_append]
    omega
  have hcontinuing := continuingAtom_solid hafter hspace hstart hshort
  obtain ⟨_, heq, hread⟩ := hcontinuing.fits hsolid
  cases heq
  obtain ⟨e', rest, hrest, hover⟩ := hread hes
  rw [List.append_assoc]
  exact ⟨e', trimmed rest, takes_atom hblank (hstops.append hne after) hrest, hover⟩

theorem continues_call (hstop : Continuation stop) (hstart : trimmed after = stop 0)
    (hatom : ContinuesAt stop after 0 cs) : ContinuesAt stop after 1 cs := by
  intro e htakes
  rcases htakes.exists_last_call with hcallee | ⟨callee, a, rfl, hagain⟩
  · obtain ⟨e', rest, hread, hrest⟩ := hatom e hcallee
    exact hstop.goes_on (by decide) (hread.reached (by decide)) hrest
  · exact hstop.goes_on (by decide) (hagain after) (.inl hstart)

theorem continues_level (hstop : Continuation stop) (hr : 1 ≤ r ∧ r + 1 ≤ 3)
    (hoperand : ∀ ds : List Char, ds.length ≤ cs.length → ContinuesAt stop after r ds) :
    ContinuesAt stop after (r + 1) cs := by
  intro e htakes
  rcases htakes.exists_last_operand hr with hfirst | ⟨op, lhs, rhs, text, ds, hrank, rfl, rfl, hrhs,
    hagain⟩
  · obtain ⟨e', rest, hread, hrest⟩ := hoperand cs (Nat.le_refl _) e hfirst
    exact hstop.goes_on hr.2 (hread.reached (by omega)) hrest
  · have hlen : ds.length ≤ (text ++ ds).length := by
      rw [List.length_append]
      omega
    obtain ⟨rhs', rest, hread, hrest⟩ := hoperand ds hlen rhs hrhs
    obtain rfl : op.rank - 1 = r := by omega
    have hreached : Reached (op.rank - 1 + 1) (text ++ ds ++ after) (.bin op lhs rhs') rest := by
      rw [← hrank, List.append_assoc]
      exact (hagain after).bin op hread
    exact hstop.goes_on hr.2 hreached hrest

/-- **An expression goes on with the parenthesis behind it.** Recursion on the length of the text:
the body of a function is shorter. -/
theorem continues_sum (hstop : Continuation stop) (hafter : Trails after)
    (hspace : after.head? ≠ some ' ') (hstart : trimmed after = stop 0) (cs : List Char) :
    ContinuesAt stop after 3 cs :=
  continues_level hstop (by decide) fun _ hds =>
    continues_level hstop (by decide) fun _ hes =>
      continues_call hstop hstart <| continues_atom hafter hspace hstart fun fs hfs =>
        continues_sum hstop hafter hspace hstart fs
termination_by cs.length
decreasing_by omega

end

end Packrat
