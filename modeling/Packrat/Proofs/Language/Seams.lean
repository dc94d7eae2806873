import Packrat.Proofs.Language.RoundTrip

/-!
# Other text ahead

An expression ends where the text ahead does not go on with it. With other text ahead it is read
again as it was, as long as that does not go on with it either.

* **`Seam`** — a text can stand in place of another one after an expression: it goes on with no
  chain that the expression could still be a part of, does not make a function of a name in
  parentheses, and ends words and numbers where the other does.
* **`Closes`** — the ways in which what is open around an expression can be closed. They can stand
  in place of any text (`Closes.seam`).
* **`Quiet`** — what is known of the text ahead of an expression that has been read: whatever it
  begins with, it does not go on with the expression.
* **`declines_solid`**, **`declines_function`** — what is not taken for an atom, and what is not
  taken for the head of a function.
-/

namespace Packrat

open Packrat.Language

section

variable {cs ds t k blank : List Char} {c : Char}

/-- Blanks before a text are skipped with those of its own. -/
theorem trimmed_blank_append (hblank : ∀ c ∈ blank, IsBlank c) (k : List Char) :
    trimmed (blank ++ k) = trimmed k :=
  List.dropWhile_append_of_pos fun c hc => spaces_contains.2 (hblank c hc)

/-- A text is its blanks and what follows them. -/
theorem exists_blank (cs : List Char) :
    ∃ blank, (∀ c ∈ blank, IsBlank c) ∧ cs = blank ++ trimmed cs :=
  ⟨CharClass.spaces.leadingRun cs,
    fun _ hc => spaces_contains.1 (CharClass.contains_of_mem_leadingRun hc),
    (CharClass.spaces.leadingRun_append_afterRun cs).symm⟩

/-- Whether a class stops is a matter of the first character. -/
theorem CharClass.Stops.head {cls : CharClass} (h : cls.Stops (t ++ ds)) (ht : t ≠ [])
    (k : List Char) : cls.Stops (t ++ k) := by
  cases t with
  | nil => exact absurd rfl ht
  | cons c t => exact .cons (h c rfl) (t ++ k)

/-- What is read between blanks. -/
theorem meets_spaced {Γ : Context} {p : Blueprint} {M : Value → List Char → Prop} {N : Prop}
    {F : String → List Char → Prop}
    (h : ∀ blank ds, (∀ c ∈ blank, IsBlank c) → cs = blank ++ ds → CharClass.spaces.Stops ds →
      Meets Γ p ds (fun v es => ∀ blank' fs, (∀ c ∈ blank', IsBlank c) → es = blank' ++ fs →
        CharClass.spaces.Stops fs → M v fs) N F) : Meets Γ (spaced p) cs M N F := by
  have hblanks {run : List Char} (hrun : ∀ c ∈ run, CharClass.spaces.contains c = true) :
      ∀ c ∈ run, IsBlank c := fun c hc => spaces_contains.1 (hrun c hc)
  refine meets_padded fun blank ds hblank hcs hds => ?_
  refine (h blank ds (hblanks hblank) hcs hds).mono (fun v es _ hM => ?_) id fun _ _ _ => id
  exact fun blank' fs hblank' => hM blank' fs (hblanks hblank')

/-- A text that begins with no blank has none before it. -/
theorem eq_nil_of_stops (hblank : ∀ c ∈ blank, IsBlank c)
    (h : CharClass.spaces.Stops (blank ++ cs)) : blank = [] := by
  cases blank with
  | nil => rfl
  | cons c blank =>
    have hc := spaces_contains.2 (hblank c List.mem_cons_self)
    rw [h c rfl] at hc
    cases hc

theorem trimmed_ne_cons {u : List Char} (h : k <:+ u) : trimmed k ≠ c :: u := by
  intro heq
  have hlen : (trimmed k).length ≤ k.length := (List.dropWhile_suffix _).length_le
  rw [heq, List.length_cons] at hlen
  have hle := h.length_le
  omega

theorem keyword_append (t : List Char) : "let ".toList <+: trimmed ("let ".toList ++ t) :=
  ⟨t, rfl⟩

/-- The keyword is not found in nothing. -/
theorem ne_nil_of_keyword (ht : "let ".toList <+: trimmed t) : t ≠ [] := by
  rintro rfl
  exact absurd ht (by decide)

/-- With no blank before it the keyword stands at the beginning. -/
theorem keyword_of_stops (ht : "let ".toList <+: trimmed t)
    (hstops : CharClass.spaces.Stops (t ++ ds)) : "let ".toList <+: t := by
  have heq : trimmed t = t := by
    have hhead := hstops.head (ne_nil_of_keyword ht) []
    rw [List.append_nil] at hhead
    exact trimmed_eq hhead
  rwa [heq] at ht

/-- Whether the keyword stands ahead is decided before any parenthesis. -/
theorem keyword_of_parenthesis (ht : '(' ∈ t) (h : "let ".toList <+: t ++ k) (ds : List Char) :
    "let ".toList <+: t ++ ds := by
  rcases List.prefix_or_prefix_of_prefix h (List.prefix_append t k) with hfront | hfront
  · exact hfront.trans (List.prefix_append t ds)
  · exact absurd (hfront.subset ht) (by decide)

end

/-! ## Seams

The rank of a seam says what the expression before it may still be a part of. The higher the rank,
the fewer chains may the text go on with. -/

/-- The second text can stand in place of the first one after an expression that may go on with
chains of the rank and of lower ones. -/
structure Seam (b : Nat) (ds k : List Char) : Prop where
  reach : b ≤ reach (trimmed k)
  arrow : ¬"->".toList <+: trimmed k
  head : Delimits k ∨ (k.head? = ds.head? ∧ ds.head? ≠ some '.')

/-- What is open can be closed: at the end of the text, with a parenthesis, or with the body of a
function. -/
inductive Closes : List Char → Prop where
  | nil : Closes []
  | parenthesis (k : List Char) : Closes (')' :: k)
  | body (k : List Char) : Closes ('\n' :: '0' :: k)

section

variable {b b' : Nat} {ds k blank : List Char} {cls : CharClass} {c : Char}

theorem Seam.mono (h : Seam b ds k) (hb : b' ≤ b) : Seam b' ds k :=
  ⟨Nat.le_trans hb h.reach, h.arrow, h.head⟩

/-- A class that has neither blanks nor delimiters ends where it did. -/
theorem Seam.stops (h : Seam b ds k) (hblank : ∀ c ∈ blank, IsBlank c)
    (hcls : ∀ c ∈ [' ', '\n', '\r', '\t', '(', ')', '*', '/', '+', '-'], cls.contains c = false)
    (hds : cls.Stops (blank ++ ds)) : cls.Stops (blank ++ k) := by
  cases blank with
  | cons c blank => exact hds.head (List.cons_ne_nil c blank) k
  | nil =>
    rcases h.head with hdelimits | ⟨hhead, _⟩
    · have hsubset : ∀ c ∈ ['\n', '(', ')', '*', '/', '+', '-'],
          c ∈ [' ', '\n', '\r', '\t', '(', ')', '*', '/', '+', '-'] := forall_mem_of_all (by decide)
      exact hdelimits.stops fun c hc => hcls c (hsubset c hc)
    · intro c hc
      exact hds c (hhead ▸ hc)

/-- Behind a seam no number goes on with a fraction. -/
theorem Seam.not_point (h : Seam b ds k) (hblank : ∀ c ∈ blank, IsBlank c) :
    ¬".".toList <+: blank ++ k := by
  rintro ⟨more, heq⟩
  cases blank with
  | cons c blank =>
    obtain rfl : '.' = c := (List.cons.inj heq).1
    exact absurd (hblank '.' List.mem_cons_self) (by decide)
  | nil =>
    have hpoint : k.head? = some '.' := by
      rw [← List.nil_append k, ← heq]
      rfl
    rcases h.head with hdelimits | ⟨hhead, hne⟩
    · exact absurd (hdelimits '.' hpoint) (by decide)
    · exact hne (hhead ▸ hpoint)

/-- Behind a seam a name does not become the keyword. -/
theorem Seam.not_space (h : Seam b ds k) (hds : CharClass.spaces.Stops ds) :
    k.head? ≠ some ' ' := by
  intro hspace
  rcases h.head with hdelimits | ⟨hhead, _⟩
  · exact absurd (hdelimits ' ' hspace) (by decide)
  · exact absurd (hds ' ' (hhead ▸ hspace)) (by decide)

/-- The texts begin alike. -/
theorem seam_cons (hc : ¬IsBlank c) (hb : b ≤ pull c) (hpoint : c ≠ '.')
    (harrow : c = '-' → k.head? ≠ some '>') (ds : List Char) : Seam b (c :: ds) (c :: k) := by
  have htrimmed : trimmed (c :: k) = c :: k :=
    trimmed_eq (.cons (Bool.eq_false_iff.2 fun h => hc (spaces_contains.1 h)) k)
  refine ⟨?_, ?_, .inr ⟨rfl, fun h => hpoint (Option.some.inj h)⟩⟩
  · rwa [htrimmed]
  · rw [htrimmed]
    rintro ⟨more, heq⟩
    obtain ⟨rfl, rfl⟩ := List.cons.inj heq
    exact harrow rfl rfl

theorem Closes.delimits (h : Closes k) : Delimits k := by
  cases h with
  | nil => exact nofun
  | parenthesis k => exact delimits_cons (by decide) k
  | body k => exact delimits_cons (by decide) _

theorem Closes.trimmed_cases (h : Closes k) :
    trimmed k = [] ∨ ∃ c ds, trimmed k = c :: ds ∧ c ∈ [')', '0'] := by
  cases h with
  | nil => exact .inl rfl
  | parenthesis k => exact .inr ⟨')', k, trimmed_eq (.cons (by decide) k), by decide⟩
  | body k => exact .inr ⟨'0', k, trimmed_cons (by decide) (.cons (by decide) k), by decide⟩

/-- Closing goes on with nothing. -/
theorem Closes.reach (h : Closes k) : Packrat.reach (trimmed k) = 4 := by
  have hall : ∀ c ∈ [')', '0'], pull c = 4 := forall_mem_of_all (by decide)
  rcases h.trimmed_cases with hnil | ⟨c, ds, heq, hc⟩
  · rw [hnil]
    rfl
  · rw [heq]
    exact hall c hc

/-- What closes can stand in place of any text. -/
theorem Closes.seam (h : Closes k) (ds : List Char) : Seam 4 ds k := by
  refine ⟨by rw [h.reach], ?_, .inl h.delimits⟩
  rcases h.trimmed_cases with hnil | ⟨c, ds, heq, hc⟩
  · rw [hnil]
    decide
  · rw [heq]
    rintro ⟨more, hmore⟩
    obtain rfl : '-' = c := (List.cons.inj hmore).1
    exact absurd hc (by decide)

/-- What is written where an expression is missing. -/
def Expr.zero : Expr :=
  .real (Binary64.ofRatio 0 1)

/-- What is written for a missing expression is read as one, before whatever closes. -/
theorem takes_zero (hk : Closes k) : Takes inside sum ('0' :: k) (.expr .zero) (trimmed k) := by
  have hliteral : Binary64.ofLiteral? ['0'] [] = some (Binary64.ofRatio 0 1) := rfl
  exact (readAt_real hliteral).mono (Nat.zero_le 4) (Nat.le_refl 4) [] k (List.forall_mem_nil _)
    hk.delimits (by rw [hk.reach])

end

/-! ## What does not go on

Behind an expression that has been read the parser has looked for more and has declined. That is all
that is known of the text ahead: it may well begin with an operator. -/

/-- No argument follows, and no operand after an operator of the rank or a lower one. -/
structure Quiet (r : Nat) (ds : List Char) : Prop where
  argument : 1 ≤ r → Declines inside argument ds
  operand : ∀ (op : BinOp) es, op.rank ≤ r → ds = op.symbol.toList ++ es →
    Declines inside (parserAt (op.rank - 1)) es

/-- Nothing goes on with an atom. -/
theorem quiet_zero (ds : List Char) : Quiet 0 ds := by
  refine ⟨fun hr => absurd hr (by decide), fun op es hr => ?_⟩
  rcases op.rank_cases with h | h <;> omega

/-! ## What is no atom, and what is no function

An expression is missing where no atom begins. Whether a parenthesis begins a function is known only
behind the one that closes it. -/

section

variable {cs u y blank blank' : List Char} {v : Value}

theorem declines_reference (h : CharClass.letters.Stops cs) : Declines inside reference cs :=
  (declines_chars h).map _

/-- Only with a digit, a letter or a parenthesis does an atom begin. -/
theorem declines_solid (hdigits : CharClass.digits.Stops cs) (hletters : CharClass.letters.Stops cs)
    (hparen : ¬"(".toList <+: cs) : Declines inside solid cs := by
  obtain ⟨hfunction, hgroup⟩ := declines_function_group hparen
  exact (((declines_number hdigits).alt hfunction).alt hgroup).alt (declines_reference hletters)

/-- What is not refused as an atom begins with no blank, and with nothing that an expression goes on
with unless that is a parenthesis. -/
theorem exists_head_of_solid (h : ¬Declines inside solid cs) :
    ∃ c ds, cs = c :: ds ∧ ¬IsBlank c ∧ c ∉ ['.', '-', '>'] ∧ (c = '(' ∨ pull c = 4) := by
  cases cs with
  | nil =>
    refine absurd (declines_solid ?_ ?_ (by decide)) h
    · exact fun _ hc => nomatch hc
    · exact fun _ hc => nomatch hc
  | cons c ds =>
    refine ⟨c, ds, rfl, ?_⟩
    have hmembers : ∀ d ∈ '(' :: (CharClass.digits.members ++ CharClass.letters.members),
        ¬IsBlank d ∧ d ∉ ['.', '-', '>'] ∧ (d = '(' ∨ pull d = 4) := forall_mem_of_all (by decide)
    refine hmembers c ?_
    by_contra hother
    simp only [List.mem_cons, List.mem_append, not_or] at hother
    obtain ⟨hparen, hdigit, hletter⟩ := hother
    refine h (declines_solid (.cons ?_ ds) (.cons ?_ ds) ?_)
    · exact Bool.eq_false_iff.2 fun hc => hdigit (List.contains_iff_mem.1 hc)
    · exact Bool.eq_false_iff.2 fun hc => hletter (List.contains_iff_mem.1 hc)
    · rintro ⟨more, heq⟩
      exact hparen (List.cons.inj heq).1.symm

/-- No parser of expressions takes what does not begin with an atom. -/
theorem declines_parserAt (h : Declines inside solid (trimmed cs)) :
    ∀ r, Declines inside (parserAt r) cs := by
  have hatom : Declines inside atom cs := (Declines.padded h).memo none
  have hcall : Declines inside call cs := (hatom.seq _).map _
  have hproduct : Declines inside product cs := hcall.level _ _
  intro r
  match r with
  | 0 => exact hatom
  | 1 => exact hcall
  | 2 => exact hproduct
  | _ + 3 => exact hproduct.level _ _

/-- None of them takes the head of an arrow. -/
theorem head_ne_of_not_declines {r : Nat} {t ds : List Char}
    (h : ¬Declines inside (parserAt r) (t ++ ds)) (ht : t ≠ []) (k : List Char) :
    (t ++ k).head? ≠ some '>' := by
  cases t with
  | nil => exact absurd rfl ht
  | cons c t =>
    intro hc
    obtain rfl : c = '>' := Option.some.inj hc
    refine h (declines_parserAt ?_ r)
    rw [List.cons_append, trimmed_eq (.cons (by decide) _)]
    refine declines_solid (.cons (by decide) _) (.cons (by decide) _) ?_
    simp [List.cons_prefix_cons]

/-- A name between blanks, before a closing parenthesis. -/
theorem takes_sum_word (hblank : ∀ c ∈ blank, IsBlank c) {name : String}
    (hname : IsName name.toList) (hblank' : ∀ c ∈ blank', IsBlank c) (y : List Char) :
    Takes inside sum (blank ++ (name.toList ++ (blank' ++ ')' :: y))) (.expr (.ref name))
      (')' :: y) := by
  have hclosing : CharClass.spaces.Stops (')' :: y) := .cons (by decide) y
  have hletters : CharClass.letters.Stops (blank' ++ ')' :: y) := by
    have hall : ∀ c ∈ [' ', '\n', '\r', '\t'], CharClass.letters.contains c = false :=
      forall_mem_of_all (by decide)
    cases blank' with
    | nil => exact .cons (by decide) y
    | cons c blank' => exact .cons (hall c (hblank' c List.mem_cons_self)) _
  have hatom := takes_atom hblank ((Opens.name hname).stops _) (takes_word hname hletters)
  rw [trimmed_append hblank' hclosing] at hatom
  exact Reached.mono (r := 0) hatom (Nat.zero_le 4) (Nat.le_refl 4) hclosing (Nat.le_refl 4)

/-- What is read as an expression up to a parenthesis is not taken for the head of a function if no
arrow stands behind the parenthesis. -/
theorem declines_function (h : Takes inside sum u v (')' :: y))
    (harrow : ¬"->".toList <+: trimmed y) : Declines inside function ('(' :: u) := by
  suffices hheader : Meets inside header ('(' :: u) (fun _ _ => False) True fun _ _ => False from
    ((hheader.declines.seq _).seq _).map _
  refine meets_left (meets_left (meets_right ?_))
  refine meets_literal (fun rest hrest => ?_) fun _ => trivial
  obtain rfl : u = rest := (List.cons.inj hrest).2
  refine meets_spaced fun blank ds hblank hu _ => meets_chars (fun run rest hne hrun hds _ => ?_)
    fun _ => trivial
  intro blank' fs hblank' hrest' _
  refine meets_literal (fun y' hfs => ?_) fun _ => trivial
  -- a name alone is the expression that is read there, so it ends at the same parenthesis
  have hword := takes_sum_word hblank (isName_ofList hne hrun) hblank' y'
  rw [String.toList_ofList] at hword
  have hfs' : fs = ')' :: y' := hfs
  rw [← hfs', ← hrest', ← hds, ← hu] at hword
  obtain ⟨_, heq⟩ := Verdict.matched.inj (Goal.yields_unique h hword)
  obtain rfl : y = y' := (List.cons.inj (heq.trans hfs')).2
  exact (Declines.padded (declines_literal harrow)).meets trivial

/-- What is refused as an atom begins with no letter. -/
theorem stops_of_declines_solid (h : Declines inside solid cs) : CharClass.letters.Stops cs := by
  have hmeets : Meets inside (.chars .letters) cs (fun _ _ => False) (CharClass.letters.Stops cs)
      fun _ _ => False := by
    refine meets_chars (fun run rest hne hrun hcs hrest => ?_) id
    have hword := takes_word (isName_ofList hne hrun) hrest
    rw [String.toList_ofList, ← hcs] at hword
    exact hword.not_declines h
  exact hmeets.fits hmeets.declines

/-- A parenthesis does not begin an atom either if no expression stands after it. -/
theorem declines_solid_parenthesis (h : Declines inside solid (trimmed u)) :
    Declines inside solid ('(' :: u) := by
  have hopening : Takes inside (.literal "(") ('(' :: u) (.text "(") u := takes_literal "(" u
  have hname : Declines inside name u :=
    Declines.padded (declines_chars (stops_of_declines_solid h))
  have hheader : Declines inside header ('(' :: u) :=
    ((hopening.declines_right hname).left _).left _
  have hinner : Declines inside inner u := Declines.self rfl (declines_parserAt h 3)
  have hgroup : Declines inside group ('(' :: u) := (hopening.declines_right hinner).left _
  have hfunction : Declines inside function ('(' :: u) := ((hheader.seq _).seq _).map _
  exact (((declines_number (.cons (by decide) u)).alt hfunction).alt hgroup).alt
    (declines_reference (.cons (by decide) u))

end

end Packrat
