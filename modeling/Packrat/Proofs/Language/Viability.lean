import Packrat.Proofs.Language.Completion

/-!
# Failures come early

A failure is reported where the text stops being the beginning of a module.

* **`viableBelow`** — the contract of expressions holds of every text, by induction on the length.
  Atoms are put together to calls (`viable_call`), and those to chains (`viable_level`).
* **`viable_program`** — the contract of the parser of modules: what it matches is steady, and it
  fails only after a text that some more text makes a module of.
* **`Workspace.readModule_viable`** — the text before the place of a reported failure is the
  beginning of a text that is read as a module.
-/

namespace Packrat

open Packrat.Language

/-! ## Expressions

The contracts of atoms are taken through calls, products and sums. A match ends where the text ahead
is quiet, so it can be read again as the left part of something longer. -/

section

variable {cs : List Char} {n r : Nat}

theorem viableAtom_solid (h : ViableBelow n) (hcs : cs.length ≤ n) : ViableAtom solid cs True := by
  refine meets_alt (meets_alt (meets_alt ?_))
  refine viableAtom_number.otherwise fun _ => (viableAtom_function h hcs).otherwise fun _ => ?_
  exact (viableAtom_group h hcs).otherwise fun _ => viableAtom_reference.otherwise fun _ => trivial

theorem viable_atom (h : ViableBelow n) (hcs : cs.length ≤ n) : Viable 0 cs := by
  refine meets_memo (meets_spaced fun blank ds hblank hsplit hstops => ?_)
  have hds : ds.length ≤ n := by
    rw [hsplit, List.length_append] at hcs
    omega
  have htrimmed : trimmed cs = ds := by rw [hsplit, trimmed_append hblank hstops]
  refine (viableAtom_solid h hds).recall.mono ?_ (fun ⟨hnone, _⟩ => ?_) ?_
  · rintro _ es _ ⟨_, e, rfl, text, b, htext, hne, hb, hagain⟩ blank' fs hblank' hes hfs
    have hend : trimmed es = fs := by
      rw [hes, trimmed_append hblank' hfs]
    rw [hend] at htext hb hagain
    refine ⟨e, rfl, hfs, quiet_zero fs, blank ++ text, b, ?_, ?_, hb, fun k hk => ?_⟩
    · rw [hsplit, htext, List.append_assoc]
    · exact List.append_ne_nil_of_right_ne_nil blank hne
    · obtain ⟨⟨rest, htakes, hrest⟩, hkeyword⟩ := hagain k hk
      have hatom := takes_atom hblank ((htext ▸ hstops).head hne k) htakes
      rw [hrest] at hatom
      rw [List.append_assoc, List.append_assoc]
      refine ⟨hatom, ?_⟩
      cases blank with
      | nil => exact hkeyword
      | cons c blank =>
        -- a blank is no beginning of the keyword
        rintro ⟨more, heq⟩
        obtain rfl : 'l' = c := (List.cons.inj heq).1
        exact absurd (hblank 'l' List.mem_cons_self) (by decide)
  · rwa [htrimmed]
  · rintro message rest _ ⟨_, text, more, e, htext, hparen, hmore⟩
    refine ⟨blank ++ text, more, e, ?_, List.mem_append_right blank hparen, fun k hk => ?_⟩
    · rw [hsplit, htext, List.append_assoc]
    · have hfront : CharClass.spaces.Stops (text ++ (more ++ k)) :=
        (htext ▸ hstops).head (List.ne_nil_of_mem hparen) _
      have hatom := takes_atom hblank hfront (hmore k hk)
      rw [trimmed_trimmed] at hatom
      rw [List.append_assoc]
      exact hatom

theorem Steady.length_le {q : Nat} {e : Expr} {ds : List Char} (h : Steady q r cs e ds) :
    ds.length ≤ cs.length := by
  obtain ⟨_, _, text, _, rfl, _⟩ := h
  rw [List.length_append]
  omega

/-- What has been read is a looser expression as well. -/
theorem Steady.loosen {q s : Nat} {e : Expr} {ds : List Char} (h : Steady q r cs e ds)
    (hrs : r ≤ s) (hs : s ≤ 4) : Steady q s cs e ds := by
  obtain ⟨hstops, hquiet, text, b, hsplit, hne, hb, hrereads⟩ := h
  have hagain {b' : Nat} (hb' : b ≤ b') (hs' : s ≤ b') : Rereads b' s text e ds := by
    intro k hk
    obtain ⟨hreached, hkeyword⟩ := hrereads k (hk.mono hb')
    exact ⟨hreached.mono hrs hs (stops_trimmed k) (Nat.le_trans hs' hk.reach), hkeyword⟩
  rcases hb with rfl | ⟨rfl, hquiet'⟩
  · exact ⟨hstops, hquiet, text, s, hsplit, hne, .inl rfl, hagain hrs (Nat.le_refl s)⟩
  · exact ⟨hstops, hquiet, text, 4, hsplit, hne, .inr ⟨rfl, hquiet'⟩, hagain (Nat.le_refl 4) hs⟩

/-- Before a character that goes on with the expression, it is read again as far as there. -/
theorem Steady.followed {q : Nat} {e : Expr} {c : Char} {ds : List Char}
    (h : Steady q r cs e (c :: ds)) (hloud : ¬Quiet 3 (c :: ds)) (hr : r ≤ pull c)
    (hpoint : c ≠ '.') :
    ∃ text, cs = text ++ c :: ds ∧ text ≠ [] ∧ ∀ k, (c = '-' → k.head? ≠ some '>') →
      Reached r (text ++ c :: k) e (c :: k)
        ∧ ("let ".toList <+: text ++ c :: k → "let ".toList <+: text ++ c :: ds) := by
  obtain ⟨hstops, _, text, b, hsplit, hne, hb, hrereads⟩ := h
  refine ⟨text, hsplit, hne, fun k hk => ?_⟩
  -- were it read again before anything at all, nothing would go on here
  obtain rfl : b = r := hb.resolve_right fun hquiet => hloud hquiet.2
  have hblank : ¬IsBlank c := by
    intro hblank
    have hc := spaces_contains.2 hblank
    rw [hstops c rfl] at hc
    cases hc
  obtain ⟨hreached, hkeyword⟩ := hrereads (c :: k) (seam_cons hblank hr hpoint hk ds)
  have htrimmed : trimmed (c :: k) = c :: k :=
    trimmed_eq (hstops.head (t := [c]) (List.cons_ne_nil c []) k)
  rw [htrimmed] at hreached
  exact ⟨hreached, hkeyword⟩

theorem Completable.loosen {rest : List Char} (h : Completable (parserAt r) cs rest)
    (hr : r + 1 ≤ 3) : Completable (parserAt (r + 1)) cs rest := by
  obtain ⟨text, more, e, hsplit, hparen, hmore⟩ := h
  refine ⟨text, more, e, hsplit, hparen, fun k hk => ?_⟩
  have hreached := (hmore k hk).reached (Nat.le_of_succ_le hr)
  exact hreached.takes hr (stops_trimmed k) (by rw [hk.reach]; omega)

/-- Before an argument, what is called is read again as it was. -/
theorem Steady.callee {callee : Expr} {u : List Char} (h : Steady 0 1 cs callee ('(' :: u))
    (hnone : ¬Declines inside argument ('(' :: u)) :
    ∃ text, cs = text ++ '(' :: u ∧ text ≠ [] ∧ ∀ k, Reached 1 (text ++ '(' :: k) callee ('(' :: k)
      ∧ ("let ".toList <+: text ++ '(' :: k → "let ".toList <+: text ++ '(' :: u) := by
  have hloud : ¬Quiet 3 ('(' :: u) := fun hquiet => hnone (hquiet.argument (by decide))
  obtain ⟨text, hsplit, hne, hread⟩ := h.followed hloud (by decide) (by decide)
  exact ⟨text, hsplit, hne, fun k => hread k fun h => absurd h (by decide)⟩

/-- After an argument the call is read, or it does not go on. -/
theorem Steady.applied {callee : Expr} {es : List Char} (h : Steady 0 1 cs callee es)
    (hbelow : ViableBelow n) (hes : es.length ≤ n) :
    Meets inside argument es
      (fun v fs => fs.length < es.length
        ∧ ∃ e, v = .expr e ∧ Steady 0 1 cs (.call callee e) fs)
      (Declines inside argument es) fun _ rest => Completable call cs rest := by
  refine (meets_argument hbelow hes h.stops).recall.mono ?_ And.left ?_
  · rintro _ fs _ ⟨htakes, e, t, rfl, rfl, hstops, hagain⟩
    obtain ⟨text, hsplit, hne, hread⟩ := h.callee htakes.not_declines
    refine ⟨?_, e, rfl, hstops, quiet_zero fs, text ++ '(' :: t, 1, ?_, ?_, .inl rfl,
      fun k hk => ?_⟩
    · simp only [List.length_cons, List.length_append]
      omega
    · rw [hsplit, List.append_assoc]
      rfl
    · exact List.append_ne_nil_of_left_ne_nil hne _
    · obtain ⟨hreached, hkeyword⟩ := hread (t ++ k)
      have htext (x : List Char) : text ++ '(' :: t ++ x = text ++ '(' :: (t ++ x) := by simp
      rw [htext, htext]
      exact ⟨hreached.call (hagain k) (trimmed_ne_cons (List.suffix_append t k)), hkeyword⟩
  · rintro message rest _ ⟨hnone, t, more, e, rfl, hmore⟩
    obtain ⟨text, hsplit, hne, hread⟩ := h.callee hnone
    refine ⟨text ++ '(' :: t, more, .call callee e, ?_, by simp, fun k hk => ?_⟩
    · rw [hsplit, List.append_assoc]
      rfl
    · obtain ⟨hreached, _⟩ := hread (t ++ (more ++ k))
      have hmoved : trimmed k ≠ '(' :: (t ++ (more ++ k)) :=
        trimmed_ne_cons ((List.suffix_append more k).trans (List.suffix_append t _))
      have hcall : Takes inside call (text ++ '(' :: (t ++ (more ++ k))) (.expr (.call callee e))
          (trimmed k) :=
        (hreached.call (hmore k hk) hmoved).takes (by decide) (stops_trimmed k)
          (by rw [hk.reach]; decide)
      simpa using hcall

theorem viable_call (h : ViableBelow n) (hcs : cs.length ≤ n) : Viable 1 cs := by
  refine meets_map (meets_seq ((viable_atom h hcs).mono ?_ id fun _ _ _ hcompletable =>
    hcompletable.loosen (by decide)))
  rintro _ ds _ ⟨callee, rfl, hcallee⟩
  -- the callee and the arguments so far are one expression
  refine @meets_many _ _ _ _ _ _
    (fun vs es => ∃ e, makeCalls (.pair (.expr callee) (.list vs.reverse)) = .expr e
      ∧ Steady 0 1 cs e es)
    (Declines inside argument) ⟨callee, rfl, hcallee.loosen (by decide) (by decide)⟩ ?_ ?_
  · rintro vs es ⟨e, hvs, he⟩
    refine (he.applied h (Nat.le_trans he.length_le hcs)).mono ?_ id fun _ _ _ => id
    rintro _ fs _ ⟨hlen, a, rfl, hcall⟩
    refine ⟨hlen, .call e a, ?_, hcall⟩
    rw [List.reverse_cons]
    exact makeCalls_append callee a vs.reverse hvs
  · rintro vs es ⟨e, hvs, he⟩ hend
    refine ⟨e, hvs, he.stops, ⟨fun _ => hend, fun op fs hop => ?_⟩, he.again⟩
    rcases op.rank_cases with h | h <;> omega

/-- Before an operator and what begins like its right operand, the left operand is read again as it
was. -/
theorem Steady.lhs (op : BinOp) {lhs : Expr} {es : List Char}
    (h : Steady r (r + 1) cs lhs (op.symbol.toList ++ es)) (hrank : op.rank = r + 1)
    (hr : r + 1 ≤ 3) (hnone : ¬Declines inside (parserAt r) es) :
    ∃ text, cs = text ++ es ∧ text ≠ [] ∧ ∀ t k, t <+: es → t ≠ [] →
      Reached op.rank (text ++ (t ++ k)) lhs (op.symbol.toList ++ (t ++ k))
        ∧ ("let ".toList <+: text ++ (t ++ k) → "let ".toList <+: cs) := by
  obtain ⟨c, hc, hpull, hpoint⟩ := exists_symbol op
  have hsymbol (x : List Char) : op.symbol.toList ++ x = c :: x := by
    rw [hc]
    rfl
  -- a right operand can be read here, so what has been read does go on
  have hloud : ¬Quiet 3 (c :: es) := by
    intro hquiet
    have hdeclines := hquiet.operand op es (by omega) (hsymbol es).symm
    rw [hrank] at hdeclines
    exact hnone hdeclines
  rw [hsymbol] at h
  obtain ⟨text, hsplit, _, hread⟩ := h.followed hloud (by omega) hpoint
  have htext (x : List Char) : text ++ [c] ++ x = text ++ c :: x := by simp
  refine ⟨text ++ [c], by rw [htext, hsplit], by simp, fun t k ⟨more, hmore⟩ ht => ?_⟩
  obtain ⟨hreached, hkeyword⟩ :=
    hread (t ++ k) fun _ => head_ne_of_not_declines (hmore ▸ hnone) ht k
  rw [htext, hsplit, hsymbol, hrank]
  exact ⟨hreached, hkeyword⟩

/-- Before an operator and a right operand, the operation is read again, whatever follows the right
operand. -/
theorem Steady.bin (op : BinOp) {lhs : Expr} {es : List Char}
    (h : Steady r (r + 1) cs lhs (op.symbol.toList ++ es)) (hrank : op.rank = r + 1)
    (hr : r + 1 ≤ 3) (hnone : ¬Declines inside (parserAt r) es) :
    ∃ text, cs = text ++ es ∧ text ≠ [] ∧ ∀ t k rhs z, t <+: es → t ≠ [] →
      Takes inside (parserAt r) (t ++ k) (.expr rhs) z →
        Reached (r + 1) (text ++ (t ++ k)) (.bin op lhs rhs) z
          ∧ ("let ".toList <+: text ++ (t ++ k) → "let ".toList <+: cs) := by
  obtain ⟨text, hsplit, hne, hread⟩ := h.lhs op hrank hr hnone
  refine ⟨text, hsplit, hne, fun t k rhs z ht hne' hrhs => ?_⟩
  obtain ⟨hreached, hkeyword⟩ := hread t k ht hne'
  have hrhs' : Takes inside (parserAt (op.rank - 1)) (t ++ k) (.expr rhs) z := by rwa [hrank]
  have hbin := hreached.bin op hrhs'
  rw [hrank] at hbin
  exact ⟨hbin, hkeyword⟩

/-- After an operator, an operand is read, or it does not go on. -/
theorem Steady.operand (op : BinOp) {lhs : Expr} {es : List Char}
    (h : Steady r (r + 1) cs lhs (op.symbol.toList ++ es)) (hrank : op.rank = r + 1)
    (hr : r + 1 ≤ 3) (hoperand : Viable r es) :
    Meets inside (parserAt r) es
      (fun v fs => ∃ e, makeBinary op (.expr lhs) v = .expr e ∧ Steady r (r + 1) cs e fs) True
      fun _ rest => Completable (parserAt (r + 1)) cs rest := by
  refine hoperand.recall.mono ?_ (fun _ => trivial) ?_
  · rintro _ fs _ ⟨htakes, rhs, rfl, hstops, hquiet, t, b, rfl, ht, hb, hrereads⟩
    obtain ⟨text, hsplit, _, hagain⟩ := h.bin op hrank hr htakes.not_declines
    have hcs (x : List Char) : text ++ t ++ x = text ++ (t ++ x) := List.append_assoc _ _ _
    -- what follows may go on with the whole, but not with the operand on the right
    have hread {b' : Nat} (hb' : b ≤ b') (hr' : r + 1 ≤ b') :
        Rereads b' (r + 1) (text ++ t) (.bin op lhs rhs) fs := by
      intro k hk
      have hreached := (hrereads k (hk.mono hb')).1
      have hrhs := hreached.takes (Nat.le_of_succ_le hr) (stops_trimmed k)
        (Nat.lt_of_lt_of_le hr' hk.reach)
      rw [hcs, hcs, ← hsplit]
      exact hagain t k rhs _ (List.prefix_append t fs) ht hrhs
    refine ⟨.bin op lhs rhs, rfl, hstops, hquiet, text ++ t, ?_⟩
    rcases hb with rfl | ⟨rfl, hquiet'⟩
    · exact ⟨b + 1, by rw [hcs, hsplit], List.append_ne_nil_of_right_ne_nil _ ht, .inl rfl,
        hread (Nat.le_succ b) (Nat.le_refl _)⟩
    · exact ⟨4, by rw [hcs, hsplit], List.append_ne_nil_of_right_ne_nil _ ht, .inr ⟨rfl, hquiet'⟩,
        hread (Nat.le_refl 4) (by omega)⟩
  · rintro message rest _ ⟨hnone, t, more, rhs, rfl, hparen, hmore⟩
    obtain ⟨text, hsplit, _, hagain⟩ := h.bin op hrank hr hnone
    refine ⟨text ++ t, more, .bin op lhs rhs, ?_, List.mem_append_right text hparen, fun k hk => ?_⟩
    · rw [hsplit, List.append_assoc]
    · obtain ⟨hreached, _⟩ := hagain t (more ++ k) rhs _ (List.prefix_append t rest)
        (List.ne_nil_of_mem hparen) (hmore k hk)
      rw [List.append_assoc]
      exact hreached.takes hr (stops_trimmed k) (by rw [hk.reach]; omega)

/-- A level of operators of one rank, over operands of the rank below. -/
theorem viable_level (ops : List BinOp) (hr : 1 ≤ r ∧ r + 1 ≤ 3)
    (hops : ∀ op, op ∈ ops ↔ op.rank = r + 1)
    (hparser : parserAt (r + 1) = .level .left (operators ops) true (parserAt r))
    (hoperand : ∀ ds, ds.length ≤ cs.length → Viable r ds) : Viable (r + 1) cs := by
  have hlevel : Meets inside (.level .left (operators ops) true (parserAt r)) cs
      (fun v ds => ∃ e, v = .expr e ∧ Steady (r + 1) (r + 1) cs e ds)
      (Declines inside solid (trimmed cs))
      fun _ rest => Completable (parserAt (r + 1)) cs rest := by
    refine @meets_level _ _ _ _ _ (fun v ds => ∃ e, v = .expr e ∧ Steady r (r + 1) cs e ds) _ _ _
      token_ne_nil_of_operators ((hoperand cs (Nat.le_refl _)).mono ?_ id fun _ _ _ hcompletable =>
        hcompletable.loosen hr.2) ?_ ?_
    · rintro _ ds _ ⟨e, rfl, he⟩
      exact ⟨e, rfl, he.loosen (Nat.le_succ r) (by omega)⟩
    · rintro _ ds index operator es ⟨lhs, rfl, hlhs⟩ hoperator rfl
      obtain ⟨op, hop, rfl⟩ := exists_operator hoperator
      have hes : es.length ≤ (op.symbol.toList ++ es).length := by
        rw [List.length_append]
        omega
      exact hlhs.operand op ((hops op).1 hop) hr.2 (hoperand es (hes.trans hlhs.length_le))
    · rintro _ ds ⟨e, rfl, he⟩ hend
      refine ⟨e, rfl, he.stops, ⟨fun _ => he.quiet.argument hr.1, fun op es hop hds => ?_⟩,
        he.again⟩
      by_cases hle : op.rank ≤ r
      · exact he.quiet.operand op es hle hds
      · have hrank : op.rank = r + 1 := by omega
        rw [hrank]
        exact hend _ (List.mem_map.2 ⟨op, (hops op).2 hrank, rfl⟩) es hds
  rwa [← hparser] at hlevel

theorem viable_product (h : ViableBelow n) (hcs : cs.length ≤ n) : Viable 2 cs :=
  viable_level [.multiply, .divide] (by decide) (fun op => by cases op <;> decide) rfl
    fun _ hds => viable_call h (Nat.le_trans hds hcs)

theorem viable_sum (h : ViableBelow n) (hcs : cs.length ≤ n) : Viable 3 cs :=
  viable_level [.add, .subtract] (by decide) (fun op => by cases op <;> decide) rfl
    fun _ hds => viable_product h (Nat.le_trans hds hcs)

/-- Induction on the length: all the expressions inside this one are shorter. -/
theorem viableBelow (n : Nat) : ViableBelow n := by
  induction n with
  | zero => exact fun ds hds => absurd hds (Nat.not_lt_zero _)
  | succ n ih => exact fun ds hds => viable_sum ih (Nat.le_of_lt_succ hds)

end

/-! ## Modules

A module can be completed if its last declaration can, since those before it are read again as they
were. -/

/-- The contract of the parser of declarations. -/
theorem viableBinding_declaration (cs : List Char) :
    ViableBinding [] (spaced (binding expression)) cs (¬"let ".toList <+: trimmed cs) := by
  refine viableBinding_spaced (viableBinding_binding takes_expression fun ds _ => ?_)
  have hsum : Viable 3 ds := viable_sum (viableBelow ds.length) (Nat.le_refl _)
  have hexpression : Meets [] expression ds _ _ _ := meets_rule hsum
  exact hexpression.otherwise fun _ => trivial

/-- The contract of the parser of modules. It reads declarations up to where the keyword does not
stand ahead, and fails only after a text that some more text makes a module of. -/
theorem viable_program (cs : List Char) :
    Meets [] program cs
      (fun v ds => ∃ bs, v = .program ⟨bs⟩ ∧ bs ≠ []
        ∧ SteadyBindings [] (spaced (binding expression)) cs bs ds ∧ ¬"let ".toList <+: trimmed ds)
      (¬"let ".toList <+: trimmed cs)
      fun _ rest => ∃ before more v,
        cs = before ++ rest ∧ Takes [] program (before ++ more) v [] := by
  have hrep : Meets [] (.rep (spaced (binding expression))) cs
      (fun v ds => ∃ bs, v = .list (bs.map .binding) ∧ bs ≠ []
        ∧ SteadyBindings [] (spaced (binding expression)) cs bs ds ∧ ¬"let ".toList <+: trimmed ds)
      (¬"let ".toList <+: trimmed cs)
      fun _ rest => CompletableBindings [] (spaced (binding expression)) cs rest := by
    refine @meets_rep _ _ _ _ _ _ (Collected [] (spaced (binding expression)) cs)
      (fun ds => ¬"let ".toList <+: trimmed ds) ⟨[], rfl, steadyBindings_nil _ _ cs⟩
      (fun _ ds hI => hI.step (viableBinding_declaration ds)) ?_ id
    rintro vs ds hvs ⟨bs, hbs, hsteady⟩ hend
    refine ⟨bs, by rw [hbs], ?_, hsteady, hend⟩
    rintro rfl
    exact hvs (by simpa using hbs)
  refine meets_map (hrep.mono ?_ id ?_)
  · rintro _ ds _ ⟨bs, rfl, hne, hsteady, hend⟩
    exact ⟨bs, by rw [makeModule, bindingsOf_map], hne, hsteady, hend⟩
  · rintro _ rest _ ⟨before, more, bs, hsplit, hbs, _, hsteps⟩
    have hread := hsteps [] .nil
    rw [List.append_nil] at hread
    exact ⟨before, more, _, hsplit, hread.takes_program hbs (by decide)⟩

/-- Where the equals sign of the first binding is missing, the parser of modules fails. -/
theorem fails_program_unequal {s : String} {ds : List Char} (hs : IsName s.toList)
    (hds : CharClass.letters.Stops ds) (hequals : ¬"=".toList <+: trimmed ds) :
    (Goal.parse [] program ("let ".toList ++ (s.toList ++ ds))).Yields
      (.failed "Expected '=' after the binding name" (trimmed ds)) := by
  have hbinding : Meets [] (spaced (binding expression)) ("let ".toList ++ (s.toList ++ ds))
      (fun _ _ => False) False
      fun message rest => message = "Expected '=' after the binding name" ∧ rest = trimmed ds := by
    obtain ⟨_, hskip⟩ := takes_skip [] .spaces ("let ".toList ++ (s.toList ++ ds))
    have hstart : trimmed ("let ".toList ++ (s.toList ++ ds)) = "let ".toList ++ (s.toList ++ ds) :=
      trimmed_eq (.cons (by decide) _)
    rw [show CharClass.spaces.afterRun _ = _ from hstart] at hskip
    -- step by step up to the sign that is required
    refine meets_right (hskip.meets (meets_left (meets_map (meets_seq ?_))))
    refine meets_left (meets_right ?_)
    refine (takes_literal "let " _).meets (meets_required ((takes_name hs hds).meets ?_))
    exact meets_required ((declines_literal hequals).meets ⟨rfl, rfl⟩)
  refine Meets.fails (meets_map (@meets_rep _ _ _ _ _ _
    (fun _ es => es = "let ".toList ++ (s.toList ++ ds)) (fun _ => False) rfl ?_
    (fun _ _ _ _ => False.elim) id))
  rintro _ _ rfl
  exact hbinding.mono (fun _ _ _ => False.elim) id fun _ _ _ => id

namespace Workspace

/-- **Failures come where a module could still have come about.** The text before the place that is
reported can be completed to one that is read as a module, under whatever name and in whatever
workspace. -/
theorem readModule_viable {w : Workspace} {name text : String} {d : Diagnostic}
    (h : (w.readModule name text).1 = .ok (.error d)) (hd : d.trouble = .malformed) :
    ∃ span before rest more m, d.span = some span ∧ text.toList = before ++ rest
      ∧ Text.byteLength before = span.start
      ∧ ∀ (w' : Workspace) (name' : String),
        (w'.readModule name' (String.ofList (before ++ more))).1 = .ok (.ok m) := by
  obtain ⟨u, hu, hfits⟩ := viable_program text.toList
  cases u with
  | matched v rest =>
    exfalso
    by_cases hrest : rest = []
    · subst hrest
      obtain ⟨w', hread, _⟩ := w.readModule_of_takes hu name
      rw [hread] at h
      cases h
    · obtain ⟨span, w', hread, _⟩ := w.readModule_of_leftOver hu hrest name
      rw [hread] at h
      cases h
      cases hd
  | noMatch =>
    obtain ⟨d', w', hread, _, htrouble, _⟩ := w.readModule_of_declines hu name
    rw [hread] at h
    cases h
    rw [htrouble] at hd
    cases hd
  | failed message rest =>
    obtain ⟨span, w', hread, _, hstart, _⟩ := w.readModule_of_fails hu name
    obtain ⟨before, more, v, hsplit, htakes⟩ := hfits
    rw [hread] at h
    cases h
    refine ⟨span, before, rest, more, moduleOf v, rfl, hsplit, ?_, fun w' name' => ?_⟩
    · rw [hstart, hsplit, Text.byteLength_append, Nat.add_sub_cancel]
    · rw [← String.toList_ofList (l := before ++ more)] at htakes
      obtain ⟨w'', hread', _⟩ := w'.readModule_of_takes htakes name'
      rw [hread']
  | stalled rest => exact hfits.elim

/-- What stands before the second name can be completed. -/
theorem readModule_unequal_viable :
    ∃ d, (empty.readModule "unequal" "let x y").1 = .ok (.error d) ∧ d.trouble = .malformed
      ∧ ∃ span before rest more m, d.span = some span ∧ "let x y".toList = before ++ rest
        ∧ Text.byteLength before = span.start
        ∧ ∀ (w' : Workspace) (name' : String),
          (w'.readModule name' (String.ofList (before ++ more))).1 = .ok (.ok m) := by
  have hfails : (Goal.parse [] program "let x y".toList).Yields _ :=
    fails_program_unequal (s := "x") (by decide) (.cons (by decide) ['y']) (by decide)
  obtain ⟨span, w', hread, _⟩ := empty.readModule_of_fails hfails "unequal"
  have hmalformed : (empty.readModule "unequal" "let x y").1 = .ok (.error _) :=
    congrArg Prod.fst hread
  exact ⟨_, hmalformed, rfl, readModule_viable hmalformed rfl⟩

end Workspace

end Packrat
