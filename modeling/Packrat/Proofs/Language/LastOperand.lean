import Packrat.Proofs.Language.Viability

/-!
# The ends of an expression

Calls and chains are read from the left, one argument or operand at a time. What stands at either
end of them can be looked at by itself.

* **`Takes.exists_first`** — behind its first operand, an expression goes on in the same way
  whatever it began with (`Onward`).
* **`Takes.exists_last_call`**, **`Takes.exists_last_operand`** — what is read up to the end of the
  text ends with its last argument or operand, and all that stands before is read again with other
  text behind it.
* **`meets_function_end`** — a function ends with its body.
-/

namespace Packrat

open Packrat.Language

section

variable {cs ds es : List Char} {e : Expr} {r s : Nat}

theorem viable_upto (hr : r ≤ 3) (cs : List Char) : Viable r cs := by
  match r, hr with
  | 0, _ => exact viable_atom (viableBelow cs.length) (Nat.le_refl _)
  | 1, _ => exact viable_call (viableBelow cs.length) (Nat.le_refl _)
  | 2, _ => exact viable_product (viableBelow cs.length) (Nat.le_refl _)
  | 3, _ => exact viable_sum (viableBelow cs.length) (Nat.le_refl _)

theorem ne_nil_of_takes {v : Value} (h : Takes inside (parserAt r) cs v ds) : cs ≠ [] := by
  rintro rfl
  refine h.not_declines (declines_parserAt (declines_solid ?_ ?_ (by decide)) r)
  · exact fun _ hc => nomatch hc
  · exact fun _ hc => nomatch hc

theorem CharClass.Stops.append {cls : CharClass} (h : cls.Stops cs) (hne : cs ≠ [])
    (k : List Char) : cls.Stops (cs ++ k) := by
  rw [← List.append_nil cs] at h
  exact h.head hne k

theorem Takes.steady (h : Takes inside (parserAt r) cs (.expr e) ds) (hr : r ≤ 3) :
    Steady r r cs e ds := by
  obtain ⟨e', heq, hsteady⟩ := (viable_upto hr cs).fits h
  cases heq
  exact hsteady

theorem Quiet.mono (h : Quiet s ds) (hrs : r ≤ s) : Quiet r ds where
  argument hr := h.argument (Nat.le_trans hr hrs)
  operand op es hop := h.operand op es (Nat.le_trans hop hrs)

/-- What has been read is over where it does not go on. -/
theorem Reached.takes_of_quiet (h : Reached r cs e ds) (hr : r ≤ 3) (hquiet : Quiet r ds) :
    Takes inside (parserAt r) cs (.expr e) ds := by
  -- products and sums are the same argument, for the operators of their rank
  have hover (op : BinOp) (h : Chained inside (parserAt (op.rank - 1)) (operators op.peers) cs
      (.expr e) ds) (hop : op.rank ≤ r) : Takes inside (parserAt op.rank) cs (.expr e) ds := by
    rw [parserAt_rank]
    refine .level true (h.takes_chain fun operator hmem es hes => ?_)
    obtain ⟨other, hother, rfl⟩ := List.mem_map.1 hmem
    have hrank : other.rank = op.rank := by
      cases op <;> cases other <;> first | rfl | simp [BinOp.peers] at hother
    rw [← hrank]
    exact hquiet.operand other es (hrank ▸ hop) hes
  match r, hr with
  | 0, _ => exact h
  | 1, _ =>
    obtain ⟨callee, middle, vs, hcallee, hsteps, he⟩ := h
    have htakes := (hcallee.seq (takes_many hsteps (hquiet.argument (by decide)))).map makeCalls
    rwa [he] at htakes
  | 2, _ => exact hover .multiply h (by decide)
  | 3, _ => exact hover .add h (by decide)

/-- An atom is what stands between the blanks around it. -/
theorem Takes.exists_solid (h : Takes inside atom cs (.expr e) ds) :
    ∃ blank text rest, (∀ c ∈ blank, IsBlank c) ∧ cs = blank ++ text
      ∧ CharClass.spaces.Stops text ∧ text ≠ [] ∧ Takes inside solid text (.expr e) rest
      ∧ trimmed rest = ds := by
  have hatom : Meets inside atom cs (fun v ds => ∃ e blank text rest, v = .expr e
      ∧ (∀ c ∈ blank, IsBlank c) ∧ cs = blank ++ text ∧ CharClass.spaces.Stops text ∧ text ≠ []
      ∧ Takes inside solid text (.expr e) rest ∧ trimmed rest = ds) True fun _ _ => True := by
    refine meets_memo (meets_spaced fun blank text hblank hcs hstops => ?_)
    refine (viableAtom_solid (viableBelow text.length) (Nat.le_refl _)).recall.mono ?_
      (fun _ => trivial) fun _ _ _ _ => trivial
    rintro _ rest _ ⟨hsolid, e, rfl, _⟩ blank' ds hblank' hrest hds
    have hne : text ≠ [] := by
      obtain ⟨c, text', rfl, _⟩ := exists_head_of_solid hsolid.not_declines
      exact List.cons_ne_nil c text'
    refine ⟨e, blank, text, rest, rfl, hblank, hcs, hstops, hne, hsolid, ?_⟩
    rw [hrest, trimmed_append hblank' hds]
  obtain ⟨e', blank, text, rest, heq, hsolid⟩ := hatom.fits h
  cases heq
  exact ⟨blank, text, rest, hsolid⟩

/-! ## The first operand

Behind the first operand the parser does not know what that was. So what is read from there on is
described as a function of what came before. -/

/-- What has been read as an expression of the rank up to the first place is read up to the second
one, and the function says what it becomes. -/
def Onward (r : Nat) (g : Expr → Expr) (ds es : List Char) : Prop :=
  ∀ front e, Reached r front e ds → Reached r front (g e) es

/-- The first operand of a chain is read by itself, and the chain goes on from it. -/
theorem exists_first_of_level (ops : List BinOp) (hr : r + 1 ≤ 3)
    (hops : ∀ op ∈ ops, op.rank = r + 1)
    (hparser : parserAt (r + 1) = .level .left (operators ops) true (parserAt r))
    (h : Takes inside (parserAt (r + 1)) cs (.expr e) ds) :
    ∃ first middle g, Takes inside (parserAt r) cs (.expr first) middle ∧ g first = e
      ∧ Onward (r + 1) g middle ds := by
  have hlevel : Meets inside (.level .left (operators ops) true (parserAt r)) cs
      (fun v es => ∃ e, v = .expr e ∧ ∃ first middle g,
        Takes inside (parserAt r) cs (.expr first) middle ∧ g first = e
          ∧ Onward (r + 1) g middle es) True fun _ _ => True := by
    have hviable (cs : List Char) : Viable r cs := viable_upto (Nat.le_of_succ_le hr) cs
    refine meets_level token_ne_nil_of_operators ((hviable cs).recall.mono ?_ (fun _ => trivial)
      fun _ _ _ _ => trivial) ?_ fun v es hread _ => hread
    · rintro _ es _ ⟨hfirst, first, rfl, _⟩
      exact ⟨first, rfl, first, es, id, hfirst, rfl, fun _ _ => id⟩
    -- one more operand is put behind whatever the operands before it become
    · rintro _ es index operator fs ⟨lhs, rfl, first, middle, g, hfirst, hg, honward⟩ hoperator rfl
      obtain ⟨op, hop, rfl⟩ := exists_operator hoperator
      refine (hviable fs).recall.mono ?_ (fun _ => trivial) fun _ _ _ _ => trivial
      rintro _ gs _ ⟨hrhs, rhs, rfl, _⟩
      refine ⟨.bin op lhs rhs, rfl, first, middle, fun f => .bin op (g f) rhs, hfirst,
        congrArg (Expr.bin op · rhs) hg, fun front f hreached => ?_⟩
      have hlhs := honward front f hreached
      have hbelow : op.rank - 1 = r := by rw [hops op hop]; rfl
      rw [← hops op hop] at hlhs ⊢
      rw [← hbelow] at hrhs
      exact hlhs.bin op hrhs
  rw [hparser] at h
  obtain ⟨e', heq, hfirst⟩ := hlevel.fits h
  cases heq
  exact hfirst

/-- What is called is read by itself, and the arguments go on from it. -/
theorem exists_first_of_call (h : Takes inside call cs (.expr e) ds) :
    ∃ first middle g, Takes inside atom cs (.expr first) middle ∧ g first = e
      ∧ Onward 1 g middle ds := by
  have hcall : Meets inside call cs (fun v es => ∃ e, v = .expr e ∧ ∃ first middle g,
      Takes inside atom cs (.expr first) middle ∧ g first = e ∧ Onward 1 g middle es) True
      fun _ _ => True := by
    have hviable : Viable 0 cs := viable_upto (by decide) cs
    refine meets_map (meets_seq (hviable.recall.mono ?_ (fun _ => trivial) fun _ _ _ _ => trivial))
    rintro _ middle _ ⟨hatom, callee, rfl, hcallee⟩
    -- the invariant of the arguments: so far, all has been a function of what is called
    refine @meets_many _ _ _ _ _ _
      (fun vs es => CharClass.spaces.Stops es ∧ ∃ e g,
        makeCalls (.pair (.expr callee) (.list vs.reverse)) = .expr e ∧ g callee = e
          ∧ Onward 1 g middle es)
      (fun _ => True) ⟨hcallee.stops, callee, id, rfl, rfl, fun _ _ => id⟩ ?_ ?_
    · rintro vs es ⟨hstops, e, g, hvs, hg, honward⟩
      refine (meets_argument (viableBelow es.length) (Nat.le_refl _) hstops).recall.mono ?_
        (fun _ => trivial) fun _ _ _ _ => trivial
      rintro _ fs _ ⟨htakes, a, t, rfl, rfl, hstops', _⟩
      have hlen : fs.length < ('(' :: (t ++ fs)).length := by
        simp only [List.length_cons, List.length_append]
        omega
      refine ⟨hlen, hstops', .call e a, fun f => .call (g f) a, ?_, congrArg (Expr.call · a) hg,
        fun front f hf => ?_⟩
      · rw [List.reverse_cons]
        exact makeCalls_append callee a vs.reverse hvs
      · exact (honward front f hf).call htakes (ne_of_apply_ne List.length (Nat.ne_of_lt hlen))
    · rintro vs es ⟨_, e, g, hvs, hg, honward⟩ _
      exact ⟨e, hvs, callee, middle, g, hatom, hg, honward⟩
  obtain ⟨e', heq, hfirst⟩ := hcall.fits h
  cases heq
  exact hfirst

/-- **An expression goes on in the same way whatever it began with.** -/
theorem Takes.exists_first (h : Takes inside (parserAt (r + 1)) cs (.expr e) ds) (hr : r + 1 ≤ 3) :
    ∃ first middle g, Takes inside (parserAt r) cs (.expr first) middle ∧ g first = e
      ∧ Onward (r + 1) g middle ds := by
  match r, hr with
  | 0, _ => exact exists_first_of_call h
  | 1, _ => exact exists_first_of_level [.multiply, .divide] (by decide) (by decide) rfl h
  | 2, _ => exact exists_first_of_level [.add, .subtract] (by decide) (by decide) rfl h

/-- Blanks before an expression make no difference. Induction on the rank: they stand before the
first operand. -/
theorem Takes.of_trimmed_eq (h : Takes inside (parserAt r) cs (.expr e) ds) (hr : r ≤ 3)
    (hes : trimmed es = trimmed cs) : Takes inside (parserAt r) es (.expr e) ds := by
  induction r generalizing e ds with
  | zero =>
    have hatom : Takes inside (spaced solid) cs (.expr e) ds := Course.yields_ask_done.1 h
    exact (hatom.padded_of_afterRun_eq hes).memo none
  | succ r ih =>
    obtain ⟨first, middle, g, hfirst, rfl, honward⟩ := h.exists_first hr
    have hreached := (ih hfirst (Nat.le_of_succ_le hr)).reached (Nat.le_of_succ_le hr)
    exact (honward es first hreached).takes_of_quiet hr (h.steady hr).quiet

/-! ## The last operand

The steps of a chain are taken from the left; here the last one is taken off again. -/

/-- A call ends with the parenthesis of its last argument. -/
theorem Takes.exists_last_call (h : Takes inside call cs (.expr e) []) :
    Takes inside atom cs (.expr e) []
      ∨ ∃ callee a, e = .call callee a ∧ ∀ k, Reached 1 (cs ++ k) e (trimmed k) := by
  have hcall : Meets inside call cs (fun v es => ∃ e, v = .expr e ∧ (es = [] →
      Takes inside atom cs (.expr e) []
        ∨ ∃ callee a, e = .call callee a ∧ ∀ k, Reached 1 (cs ++ k) e (trimmed k))) True
      fun _ _ => True := by
    have hbelow := viableBelow cs.length
    refine meets_map (meets_seq ((viable_atom hbelow (Nat.le_refl _)).recall.mono ?_
      (fun _ => trivial) fun _ _ _ _ => trivial))
    rintro _ ds _ ⟨hatom, callee, rfl, hcallee⟩
    -- the invariant of the arguments: if the text ends here, so does the last of them
    refine @meets_many _ _ _ _ _ _
      (fun vs es => ∃ e, makeCalls (.pair (.expr callee) (.list vs.reverse)) = .expr e
        ∧ Steady 0 1 cs e es ∧ (es = [] → Takes inside atom cs (.expr e) []
          ∨ ∃ callee a, e = .call callee a ∧ ∀ k, Reached 1 (cs ++ k) e (trimmed k)))
      (fun _ => True) ⟨callee, rfl, hcallee.loosen (by decide) (by decide), ?_⟩ ?_ ?_
    · rintro rfl
      exact .inl hatom
    · rintro vs es ⟨e, hvs, he, _⟩
      have hes : es.length ≤ cs.length := he.length_le
      refine ((meets_argument hbelow hes he.stops).recall.and
        (he.applied hbelow hes)).mono ?_ (fun _ => trivial) fun _ _ _ _ => trivial
      rintro _ fs _ ⟨⟨htakes, a, t, rfl, rfl, _, hagain⟩, hlen, _, ⟨⟩, hcalled⟩
      refine ⟨hlen, .call e a, ?_, hcalled, ?_⟩
      · rw [List.reverse_cons]
        exact makeCalls_append callee a vs.reverse hvs
      · -- at the end of the text, this argument is the last one
        rintro rfl
        obtain ⟨text, rfl, _, hread⟩ := he.callee htakes.not_declines
        refine .inr ⟨e, a, rfl, fun k => ?_⟩
        have hmoved := @trimmed_ne_cons k '(' (t ++ k) (List.suffix_append t k)
        simpa using (hread (t ++ k)).1.call (hagain k) hmoved
    · exact fun vs es ⟨e, hvs, _, hlast⟩ _ => ⟨e, hvs, hlast⟩
  obtain ⟨e', heq, hlast⟩ := hcall.fits h
  cases heq
  exact hlast rfl

/-- The last operand of a chain, up to the end of the text, and its operator. -/
def EndsIn (r : Nat) (cs : List Char) (e : Expr) : Prop :=
  ∃ op lhs rhs text ds, op.rank = r + 1 ∧ e = .bin op lhs rhs ∧ cs = text ++ ds
    ∧ Takes inside (parserAt r) ds (.expr rhs) []
    ∧ ∀ k, Reached op.rank (text ++ (ds ++ k)) lhs (op.symbol.toList ++ (ds ++ k))

theorem exists_last_of_level (ops : List BinOp) (hr : r + 1 ≤ 3)
    (hops : ∀ op ∈ ops, op.rank = r + 1)
    (hparser : parserAt (r + 1) = .level .left (operators ops) true (parserAt r))
    (h : Takes inside (parserAt (r + 1)) cs (.expr e) []) :
    Takes inside (parserAt r) cs (.expr e) [] ∨ EndsIn r cs e := by
  have hlevel : Meets inside (.level .left (operators ops) true (parserAt r)) cs
      (fun v fs => ∃ e, v = .expr e ∧ Steady r (r + 1) cs e fs
        ∧ (fs = [] → Takes inside (parserAt r) cs (.expr e) [] ∨ EndsIn r cs e)) True
      fun _ _ => True := by
    have hviable (cs : List Char) : Viable r cs := viable_upto (Nat.le_of_succ_le hr) cs
    refine meets_level token_ne_nil_of_operators ((hviable cs).recall.mono ?_
      (fun _ => trivial) fun _ _ _ _ => trivial) ?_ fun v ds hread _ => hread
    · rintro _ ds _ ⟨hfirst, e, rfl, he⟩
      refine ⟨e, rfl, he.loosen (Nat.le_succ r) (by omega), ?_⟩
      rintro rfl
      exact .inl hfirst
    · rintro _ ds index operator es ⟨lhs, rfl, hlhs, _⟩ hoperator rfl
      obtain ⟨op, hop, rfl⟩ := exists_operator hoperator
      have hrank := hops op hop
      refine ((hviable es).recall.and (hlhs.operand op hrank hr (hviable es))).mono ?_
        (fun _ => trivial) fun _ _ _ _ => trivial
      rintro _ fs _ ⟨⟨hrhs, rhs, rfl, _⟩, _, ⟨⟩, hbin⟩
      refine ⟨.bin op lhs rhs, rfl, hbin, ?_⟩
      rintro rfl
      -- at the end of the text, this operand is the last one
      obtain ⟨text, rfl, _, hagain⟩ := hlhs.lhs op hrank hr hrhs.not_declines
      have hne : es ≠ [] := ne_nil_of_takes hrhs
      exact .inr ⟨op, lhs, rhs, text, es, hrank, rfl, rfl, hrhs,
        fun k => (hagain es k List.prefix_rfl hne).1⟩
  rw [hparser] at h
  obtain ⟨e', heq, _, hlast⟩ := hlevel.fits h
  cases heq
  exact hlast rfl

/-- **A chain ends with its last operand.** -/
theorem Takes.exists_last_operand (h : Takes inside (parserAt (r + 1)) cs (.expr e) [])
    (hr : 1 ≤ r ∧ r + 1 ≤ 3) : Takes inside (parserAt r) cs (.expr e) [] ∨ EndsIn r cs e := by
  match r, hr with
  | 1, _ => exact exists_last_of_level [.multiply, .divide] (by decide) (by decide) rfl h
  | 2, _ => exact exists_last_of_level [.add, .subtract] (by decide) (by decide) rfl h

/-! ## The body of a function

A function that ends with the text ends with its body, however many bindings stand before it. -/

/-- The text is that of a function of which the second part is the body. What stands before it is
read again with other text behind the body. -/
def EndsInBody (cs : List Char) (param : String) (bs : List Binding) (ds : List Char) : Prop :=
  ds <:+ cs ∧ ds.length < cs.length ∧ CharClass.spaces.Stops ds ∧ ¬"let ".toList <+: ds
    ∧ ∃ u, cs = '(' :: u ∧ ∀ k, ∃ us, Takes inside header ('(' :: (u ++ k)) (.text param) us
      ∧ Steps inside (.memo none (binding inner)) us (bs.map .binding) (ds ++ k)

/-- **A function ends with its body.** -/
theorem meets_function_end :
    Meets inside function cs (fun v es => ∃ param bs body ds, v = .expr (.fn param bs body)
      ∧ Takes inside sum ds (.expr body) es ∧ CharClass.spaces.Stops es
      ∧ EndsInBody cs param bs ds) True fun _ _ => True := by
  refine meets_map (meets_seq (meets_seq (meets_header.mono ?_ id fun _ _ _ => id)))
  rintro _ gs _ ⟨s, t, rfl, rfl, hgs, hheader⟩
  have hbelow := viableBelow (gs.length + 1)
  refine (meets_bindings hbelow (Nat.lt_succ_self _)).mono ?_ id fun _ _ _ _ => trivial
  rintro _ ds hds ⟨bs, rfl, hsteady, hend⟩
  have hlen : ds.length < gs.length + 1 := Nat.lt_succ_of_le hds.length_le
  have hstops := hsteady.stops hgs
  have hquiet (hbs : bs ≠ []) : Quiet 3 ds := by
    obtain ⟨_, _, _, hsome⟩ := hsteady
    exact (hsome hbs).2.2.1
  obtain ⟨text, rfl, hagain⟩ := hsteady.takes_header hheader hgs
  refine meets_required (meets_self rfl ((hbelow ds hlen).recall.mono ?_ (fun _ => trivial)
    fun _ _ _ _ => trivial))
  rintro _ es _ ⟨htakes, body, rfl, hbody⟩
  refine ⟨s, bs, body, ds, by rw [makeFunction, bindingsOf_map], htakes, hbody.stops,
    ?_, ?_, hstops, hend, t ++ (text ++ ds), rfl, fun k => ?_⟩
  · have hsuffix : ds <:+ t ++ (text ++ ds) :=
      (List.suffix_append text ds).trans (List.suffix_append t _)
    exact hsuffix.trans (List.suffix_cons '(' _)
  · simp only [List.length_cons, List.length_append]
    omega
  · -- more behind the body is no reason to read the bindings in another way
    have hsolid : ¬Declines inside solid ds := by
      intro hsolid
      rw [← trimmed_eq hstops] at hsolid
      exact htakes.not_declines (declines_parserAt hsolid 3)
    have hne : ds ≠ [] := ne_nil_of_takes (r := 3) htakes
    obtain ⟨us, hheader', hsteps⟩ := hagain (ds ++ k) fun hbs =>
      seam_body hbelow hlen.le hstops (hquiet hbs) hsolid (List.append_nil ds).symm hne
    rw [trimmed_eq (hstops.append hne k)] at hsteps
    exact ⟨us, by simpa using hheader', hsteps⟩

end

end Packrat
