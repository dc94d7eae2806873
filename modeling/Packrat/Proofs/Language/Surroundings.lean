import Packrat.Proofs.Language.ModuleEnds
import Packrat.Proofs.Language.LastOperand
import Packrat.Proofs.Engine.Guarded

/-!
# Blanks around a module

Blanks before a module are skipped with the first declaration, and blanks behind it with its last
value, whatever that ends with: a number, a name or a parenthesis. There is one exception. The
keyword ends with a space of its own; so a name that is spelled like it, and is all there is of the
body of a function, becomes the keyword of a binding before the body when a space is put behind it.

* **`Expr.EndsInKeyword`**, **`Spoils`** — when that happens: the text ends with the body of the
  function that the last value ends with, that is the name, and the blanks begin with a space.
* **`Lasts`** — what comes of a text with the blanks behind it: it is read as it was, or they spoil
  it and it is broken off. Both are followed down to the last word of the text, through the last
  operand (`lasts_level`) and the body of the function (`lastingAtom_function`); all that stands
  before is read again as it was.
* **`Workspace.readModule_surrounded`** — what is read as a module is read as that module with
  blanks around it, if they do not spoil it; if they do, a name is missing behind the keyword.
* **`Workspace.readModule_spoiled`** — a text that is spoiled by a space.
-/

namespace Packrat

open Packrat.Language

/-- The expression ends in a function whose body is but a name, spelled like the keyword. -/
def Expr.EndsInKeyword : Expr → Prop
  | .fn _ _ body => body = .ref "let" ∨ body.EndsInKeyword
  | .bin _ _ rhs => rhs.EndsInKeyword
  | _ => False

/-- With the blanks behind the text, the name at its end is the keyword of a binding. There has to
be nothing behind the name yet: no blank, and no parenthesis that closes a group. -/
def Spoils (after text : List Char) (e : Expr) : Prop :=
  after.head? = some ' ' ∧ text.getLast? = some 't' ∧ e.EndsInKeyword

/-- What comes of the text with the blanks behind it. -/
structure Lasts (after text : List Char) (e : Expr) (Read Broken : Prop) : Prop where
  read : ¬Spoils after text e → Read
  broken : Spoils after text e → Broken

/-- The failure behind the keyword, of which the first blank is a part. -/
def unnamed (after : List Char) : Verdict :=
  .failed "Expected a name after 'let'" after.tail

/-- A text that is read as a name, and ends with a letter of it, is the name. -/
def Named (text : List Char) (e : Expr) : Prop :=
  ∀ name : String, e = .ref name → text.getLast? = some 't' → trimmed text = name.toList

/-- What is read as an expression of the rank up to the end of the text is read as that expression
with the blanks behind it, up to their end, or broken off. -/
def LastsAt (after : List Char) (r : Nat) (cs : List Char) : Prop :=
  ∀ e, Takes inside (parserAt r) cs (.expr e) [] →
    Lasts after cs e (Takes inside (parserAt r) (cs ++ after) (.expr e) [])
      (Aborts inside (parserAt r) (cs ++ after) (unnamed after)) ∧ Named cs e

def LastsBelow (after : List Char) (n : Nat) : Prop :=
  ∀ ds : List Char, ds.length < n → LastsAt after 3 ds

/-- The contract of an alternative of atoms, about those that nothing but blanks follows. -/
abbrev LastingAtom (after : List Char) (p : Blueprint) (cs : List Char) (N : Prop) : Prop :=
  Meets inside p cs (fun v ds => ∃ e, v = .expr e ∧ (trimmed ds = [] →
    Lasts after cs e
      (∃ rest, Takes inside solid (cs ++ after) (.expr e) rest ∧ trimmed rest = [])
      (Aborts inside solid (cs ++ after) (unnamed after)) ∧ Named cs e)) N fun _ _ => True

section

variable {Γ : Context} {after cs ds : List Char} {e rhs : Expr} {n r : Nat}
  {Read Read' Broken Broken' : Prop}

theorem Lasts.imp (h : Lasts after cs e Read Broken) (hread : Read → Read')
    (hbroken : Broken → Broken') : Lasts after cs e Read' Broken' :=
  ⟨hread ∘ h.read, hbroken ∘ h.broken⟩

theorem Lasts.of_iff (h : Lasts after ds rhs Read Broken)
    (hiff : Spoils after cs e ↔ Spoils after ds rhs) : Lasts after cs e Read Broken :=
  ⟨fun hsound => h.read (hsound ∘ hiff.2), h.broken ∘ hiff.1⟩

theorem Lasts.of_unspoiled (hsound : ¬Spoils after cs e) (h : Read) :
    Lasts after cs e Read Broken :=
  ⟨fun _ => h, fun hspoils => absurd hspoils hsound⟩

theorem getLast?_suffix (hds : ds <:+ cs) (hne : ds ≠ []) : cs.getLast? = ds.getLast? := by
  obtain ⟨front, rfl⟩ := hds
  exact List.getLast?_append_of_ne_nil front hne

/-- Whether a text is spoiled is decided at its end. -/
theorem spoils_suffix (hds : ds <:+ cs) (hne : ds ≠ [])
    (he : e.EndsInKeyword ↔ rhs.EndsInKeyword) : Spoils after cs e ↔ Spoils after ds rhs := by
  unfold Spoils
  rw [getLast?_suffix hds hne, he]

theorem blank_of_trimmed (h : trimmed ds = []) : ∀ c ∈ ds, IsBlank c := by
  obtain ⟨blank, hblank, hds⟩ := exists_blank ds
  rw [h, List.append_nil] at hds
  rwa [hds]

theorem trimmed_eq_nil (hafter : ∀ c ∈ after, IsBlank c) : trimmed after = [] := by
  have h := trimmed_blank_append hafter []
  rwa [List.append_nil] at h

/-- Words and numbers end before the text, and no arrow stands there. -/
structure Trails (after : List Char) : Prop where
  head : ∀ c, after.head? = some c → IsBlank c
  arrow : ¬"->".toList <+: trimmed after

theorem trails_blank (hafter : ∀ c ∈ after, IsBlank c) : Trails after where
  head c hc := hafter c (List.mem_of_mem_head? hc)
  arrow := by
    rw [trimmed_eq_nil hafter]
    decide

theorem Trails.head_append (hafter : Trails after) (h : trimmed ds = []) :
    ∀ c, (ds ++ after).head? = some c → IsBlank c := by
  intro c hc
  cases ds with
  | nil => exact hafter.head c hc
  | cons d ds =>
    obtain rfl : d = c := Option.some.inj hc
    exact blank_of_trimmed h d List.mem_cons_self

/-- A class without blanks ends where a blank follows. -/
theorem Trails.stops {cls : CharClass} (hafter : Trails after)
    (hcls : ∀ c ∈ [' ', '\n', '\r', '\t'], cls.contains c = false) (h : cls.Stops ds) :
    cls.Stops (ds ++ after) := by
  cases ds with
  | nil => exact fun c hc => hcls c (hafter.head c hc)
  | cons c ds => exact .cons (h c rfl) (ds ++ after)

/-- A blank makes the keyword of what is ahead only if that is the word without its space. -/
theorem Trails.eq_of_keyword (hafter : Trails after) (hnone : ¬"let ".toList <+: ds)
    (h : "let ".toList <+: ds ++ after) : ds = "let".toList ∧ after.head? = some ' ' := by
  have hfront : ds <+: "let ".toList := by
    rcases List.prefix_or_prefix_of_prefix h (List.prefix_append ds after) with hfront | hfront
    · exact absurd hfront hnone
    · exact hfront
  obtain ⟨more, hmore⟩ := hfront
  rw [← hmore, List.prefix_append_right_inj] at h
  obtain ⟨rest, rfl⟩ := h
  cases more with
  | nil => exact absurd ⟨[], by rw [List.append_nil, ← hmore, List.append_nil]⟩ hnone
  | cons c more =>
    -- the only blank of the keyword is the last of its characters
    have hblank : IsBlank c := hafter.head c rfl
    have hword : "let".toList ++ [' '] = ds ++ c :: more := hmore.symm
    rcases List.append_eq_append_iff.1 hword with ⟨letters, hds, hspace⟩ | ⟨letters, hds, hspace⟩
    · cases letters with
      | nil =>
        obtain ⟨rfl, _⟩ := List.cons.inj hspace
        exact ⟨by rw [hds, List.append_nil], rfl⟩
      | cons d letters => simp at hspace
    · cases letters with
      | nil =>
        obtain ⟨rfl, _⟩ := List.cons.inj hspace
        exact ⟨by rw [hds, List.append_nil], rfl⟩
      | cons d letters =>
        obtain ⟨rfl, _⟩ := List.cons.inj hspace
        have hmem : c ∈ "let".toList := hds ▸ List.mem_append_right ds List.mem_cons_self
        have hall : ∀ c ∈ "let".toList, ¬IsBlank c := forall_mem_of_all (by decide)
        exact absurd hblank (hall c hmem)

/-- No blank is the last letter of the keyword. -/
theorem eq_nil_of_last (hds : trimmed ds = []) (h : (cs ++ ds).getLast? = some 't') : ds = [] := by
  by_contra hne
  rw [List.getLast?_append_of_ne_nil cs hne] at h
  exact absurd (blank_of_trimmed hds 't' (List.mem_of_getLast? h)) (by decide)

theorem aborts_spaced_blank {p : Blueprint} {blank : List Char} {u : Verdict}
    (hblank : ∀ c ∈ blank, IsBlank c) (hcs : CharClass.spaces.Stops cs) (h : Aborts Γ p cs u) :
    Aborts Γ (spaced p) (blank ++ cs) u := by
  refine Aborts.padded ?_
  have htrimmed : CharClass.spaces.afterRun (blank ++ cs) = cs := trimmed_append hblank hcs
  rwa [htrimmed]

/-! ## Atoms

Numbers, names and groups end by themselves, before the blanks. A function ends with its body, and
the blanks do to it what they do to the body. -/

/-- The contract of an alternative of atoms that end by themselves, about those that nothing but
blanks follows. -/
abbrev ClosedAtom (after : List Char) (p : Blueprint) (cs : List Char) (N : Prop) : Prop :=
  Meets inside p cs (fun v ds => ∃ e, v = .expr e ∧ (trimmed ds = [] →
    ¬Spoils after cs e ∧ Named cs e
      ∧ ∃ rest, Takes inside solid (cs ++ after) (.expr e) rest ∧ trimmed rest = trimmed after)) N
    fun _ _ => True

theorem closedAtom_number (hafter : Trails after) : ClosedAtom after number cs True := by
  refine meets_number.mono ?_ id fun _ _ _ => id
  rintro _ ds _ ⟨whole, fraction, x, hx, rfl, rfl, hds⟩
  refine ⟨_, rfl, fun hend => ⟨fun hspoils => hspoils.2.2, nofun, ds ++ after, ?_, ?_⟩⟩
  · have hpoint : ¬".".toList <+: ds ++ after := by
      rintro ⟨more, hmore⟩
      exact absurd (hafter.head_append hend '.' (hmore ▸ rfl)) (by decide)
    have hnumber : Takes inside number (literalText whole fraction ++ (ds ++ after))
        (.expr (.real x)) (ds ++ after) :=
      takes_number hx (hafter.stops (forall_mem_of_all (by decide)) hds) hpoint
    rw [List.append_assoc]
    exact ((hnumber.alt_first _).alt_first _).alt_first _
  · exact trimmed_blank_append (blank_of_trimmed hend) after

theorem closedAtom_reference (hafter : Trails after) : ClosedAtom after reference cs True := by
  refine meets_reference.mono ?_ (fun _ => trivial) fun _ _ _ => id
  rintro _ ds _ ⟨name, hname, rfl, rfl, hds⟩
  refine ⟨_, rfl, fun hend => ⟨fun hspoils => hspoils.2.2, ?_, ds ++ after, ?_, ?_⟩⟩
  · rintro _ ⟨⟩ hlast
    rw [eq_nil_of_last hend hlast, trimmed_eq ((Opens.name hname).stops []), List.append_nil]
  · rw [List.append_assoc]
    exact takes_word hname (hafter.stops (forall_mem_of_all (by decide)) hds)
  · exact trimmed_blank_append (blank_of_trimmed hend) after

/-- Behind a closed group, or behind the parenthesis itself, there is no letter. -/
theorem closedAtom_group (hafter : Trails after) : ClosedAtom after group cs True := by
  by_cases hopening : "(".toList <+: cs
  · obtain ⟨u, rfl⟩ : ∃ u, cs = '(' :: u := hopening.imp fun _ => Eq.symm
    refine meets_parenthesised (viableBelow _) (Nat.lt_succ_self u.length) (takes_literal "(" u)
      (fun e t y _ hsplit hencloses => ?_) (fun _ => trivial) fun _ _ _ _ _ _ _ => trivial
    refine ⟨e, rfl, fun hend => ?_⟩
    rw [trimmed_trimmed] at hend
    -- the text ends with the parenthesis, or with blanks behind it
    have hlast : ('(' :: u).getLast? ≠ some 't' := by
      intro hlast
      have htext : '(' :: u = '(' :: (t ++ [')']) ++ y := by simp [hsplit]
      rw [htext] at hlast
      rw [eq_nil_of_last hend hlast, List.append_nil, ← List.cons_append,
        List.getLast?_concat] at hlast
      cases hlast
    have hblank : trimmed (y ++ after) = trimmed after :=
      trimmed_blank_append (blank_of_trimmed hend) after
    refine ⟨fun hspoils => hlast hspoils.2.1, fun _ _ h => absurd h hlast, trimmed (y ++ after),
      ?_, ?_⟩
    · have hgroup := hencloses.takes_group (y := y ++ after) (hblank ▸ hafter.arrow)
      rw [hsplit]
      simpa using hgroup
    · rw [trimmed_trimmed, hblank]
  · exact (declines_function_group hopening).2.meets trivial

theorem Aborts.solid_function {u : Verdict} (h : Aborts inside function ('(' :: cs) u) :
    Aborts inside solid ('(' :: cs) u := by
  have hnumber : Declines inside number ('(' :: cs) := declines_number (.cons (by decide) cs)
  exact ((h.alt_second hnumber).alt_first _).alt_first _

/-- Behind the keyword, there has to be a name. -/
theorem aborts_binding (hafter : ∀ c ∈ after, IsBlank c) (hspace : after.head? = some ' ')
    (value : Blueprint) : Aborts Γ (binding value) ("let".toList ++ after) (unnamed after) := by
  obtain ⟨rest, rfl⟩ : ∃ rest, after = ' ' :: rest := List.head?_eq_some_iff.1 hspace
  have hrest : trimmed rest = [] := trimmed_eq_nil fun c hc => hafter c (List.mem_cons_of_mem _ hc)
  have hname : Declines Γ name rest := by
    refine Declines.padded (declines_chars ?_)
    rw [show CharClass.spaces.afterRun rest = [] from hrest]
    exact nofun
  have hkeyword : Takes Γ (.literal "let ") ("let".toList ++ ' ' :: rest) (.text "let ") rest :=
    takes_literal "let " rest
  exact (((hkeyword.aborts_right (hname.aborts_required _)).left _).seq _).map _

/-- The blanks spoil a function if they spoil its body, unless they make the keyword of that. -/
theorem spoils_fn {param : String} {bs : List Binding} {body : Expr} (hds : ds <:+ cs)
    (hne : ds ≠ []) (hstops : CharClass.spaces.Stops ds) (hbody : Named ds body)
    (hkeyword : ¬"let ".toList <+: ds ++ after) :
    Spoils after cs (.fn param bs body) ↔ Spoils after ds body := by
  constructor
  · rintro ⟨hspace, hlast, rfl | hends⟩
    · rw [getLast?_suffix hds hne] at hlast
      have hword := hbody "let" rfl hlast
      rw [trimmed_eq hstops] at hword
      obtain ⟨rest, rfl⟩ := List.head?_eq_some_iff.1 hspace
      exact absurd ⟨rest, by simp [hword]⟩ hkeyword
    · exact (spoils_suffix hds hne Iff.rfl).1 ⟨hspace, hlast, hends⟩
  · intro hspoils
    exact (spoils_suffix hds hne Iff.rfl).2 ⟨hspoils.1, hspoils.2.1, .inr hspoils.2.2⟩

/-- The body of a function is the end of it. What is the keyword, with the first of the blanks, is
no body any more. -/
theorem lasts_body {param : String} {bs : List Binding} {body : Expr} {gs : List Char}
    (hafter : ∀ c ∈ after, IsBlank c) (hds : ds <:+ '(' :: cs)
    (hstops : CharClass.spaces.Stops ds) (hend : ¬"let ".toList <+: ds)
    (hheader : Takes inside header ('(' :: (cs ++ after)) (.text param) gs)
    (hsteps : Steps inside (.memo none (binding inner)) gs (bs.map .binding) (ds ++ after))
    (htakes : Takes inside sum ds (.expr body) []) (h : LastsAt after 3 ds) :
    Lasts after ('(' :: cs) (.fn param bs body)
      (Takes inside solid ('(' :: (cs ++ after)) (.expr (.fn param bs body)) [])
      (Aborts inside solid ('(' :: (cs ++ after)) (unnamed after)) := by
  have hne : ds ≠ [] := ne_nil_of_takes (r := 3) htakes
  obtain ⟨hlasts, hnamed⟩ := h body htakes
  by_cases hkeyword : "let ".toList <+: ds ++ after
  · obtain ⟨rfl, hspace⟩ := (trails_blank hafter).eq_of_keyword hend hkeyword
    -- the body is the word alone
    have hword : ReadAt 4 (.ref "let") "let".toList :=
      (readAt_ref (by decide)).mono (Nat.zero_le 4) (Nat.le_refl 4)
    have hbody := hword [] [] (List.forall_mem_nil _) nofun (by decide)
    cases Goal.yields_unique htakes hbody
    refine ⟨fun hsound => absurd ⟨hspace, getLast?_suffix hds hne, .inl rfl⟩ hsound, fun _ => ?_⟩
    have hrep := hsteps.aborts_rep ((aborts_binding hafter hspace inner).memo none)
    exact (((hheader.aborts_seq (hrep.alt_first _)).seq _).map _).solid_function
  · have hdeclines : Declines inside (.memo none (binding inner)) (ds ++ after) :=
      (declines_binding hkeyword).memo none
    have hbindings := takes_many hsteps hdeclines
    refine (hlasts.of_iff (spoils_fn hds hne hstops hnamed hkeyword)).imp (fun hread => ?_)
      fun hbroken => ?_
    · exact takes_solid_function (takes_function_of hheader hbindings hread)
    · have hinner : Aborts inside inner (ds ++ after) (unnamed after) := .self rfl hbroken
      have hrequired := hinner.required "Expected a function body after '->'"
      exact (((hheader.seq hbindings).aborts_seq hrequired).map makeFunction).solid_function

theorem lastingAtom_function (hafter : ∀ c ∈ after, IsBlank c) (h : LastsBelow after n)
    (hcs : cs.length ≤ n) : LastingAtom after function cs True := by
  refine meets_function_end.mono ?_ id fun _ _ _ => id
  rintro _ es _ ⟨param, bs, body, ds, rfl, htakes, hes, hsuffix, hlen, hstops, hend, u, rfl, hagain⟩
  refine ⟨_, rfl, fun hnil => ⟨?_, nofun⟩⟩
  obtain rfl : es = [] := by rwa [trimmed_eq hes] at hnil
  obtain ⟨us, hheader, hsteps⟩ := hagain after
  exact (lasts_body hafter hsuffix hstops hend hheader hsteps htakes
    (h ds (Nat.lt_of_lt_of_le hlen hcs))).imp (fun hread => ⟨[], hread, rfl⟩) id

theorem lastingAtom_solid (hafter : ∀ c ∈ after, IsBlank c) (h : LastsBelow after n)
    (hcs : cs.length ≤ n) : LastingAtom after solid cs True := by
  have hclosed {p : Blueprint} (hp : ClosedAtom after p cs True) : LastingAtom after p cs True := by
    refine hp.mono ?_ id fun _ _ _ => id
    rintro _ ds _ ⟨e, rfl, hread⟩
    refine ⟨e, rfl, fun hend => ?_⟩
    obtain ⟨hsound, hnamed, hrest⟩ := hread hend
    rw [trimmed_eq_nil hafter] at hrest
    exact ⟨.of_unspoiled hsound hrest, hnamed⟩
  have htrails := trails_blank hafter
  refine meets_alt (meets_alt (meets_alt ?_))
  refine (hclosed (closedAtom_number htrails)).otherwise fun _ =>
    (lastingAtom_function hafter h hcs).otherwise fun _ => ?_
  exact (hclosed (closedAtom_group htrails)).otherwise fun _ =>
    hclosed (closedAtom_reference htrails)

theorem lasts_atom (hafter : ∀ c ∈ after, IsBlank c) (h : LastsBelow after n)
    (hcs : cs.length ≤ n) : LastsAt after 0 cs := by
  intro e htakes
  obtain ⟨blank, ds, es, hblank, rfl, hstops, hne, hsolid, hes⟩ := htakes.exists_solid
  have hds : ds.length ≤ n := by
    rw [List.length_append] at hcs
    omega
  obtain ⟨e', heq, hlasts⟩ := (lastingAtom_solid hafter h hds).fits hsolid
  cases heq
  obtain ⟨hlasts, hnamed⟩ := hlasts hes
  have hsuffix : ds <:+ blank ++ ds := List.suffix_append blank ds
  have hfront : CharClass.spaces.Stops (ds ++ after) := hstops.append hne after
  rw [List.append_assoc]
  refine ⟨(hlasts.of_iff (spoils_suffix hsuffix hne Iff.rfl)).imp ?_ fun hbroken => ?_, ?_⟩
  · rintro ⟨rest, hread, hrest⟩
    have hagain := takes_atom hblank hfront hread
    rwa [hrest] at hagain
  · exact (aborts_spaced_blank hblank hfront hbroken).memo none
  · intro name hname hlast
    rw [getLast?_suffix hsuffix hne] at hlast
    rw [trimmed_blank_append hblank]
    exact hnamed name hname hlast

/-! ## Calls and operations

A call ends with a parenthesis, and an operation with its last operand. All that stands before is
read as it was. -/

theorem lasts_call (hafter : ∀ c ∈ after, IsBlank c) (h : LastsBelow after n)
    (hcs : cs.length ≤ n) : LastsAt after 1 cs := by
  intro e htakes
  rcases htakes.exists_last_call with hatom | ⟨callee, a, rfl, hagain⟩
  · -- without arguments, what would be called is the end
    obtain ⟨hlasts, hnamed⟩ := lasts_atom hafter h hcs e hatom
    refine ⟨hlasts.imp (fun hread => ?_) fun hbroken => (hbroken.seq _).map _, hnamed⟩
    exact (hread.reached (r := 0) (by decide)).takes (by decide) nofun (by decide)
  · refine ⟨.of_unspoiled (fun hspoils => hspoils.2.2) ?_, nofun⟩
    have hreached := hagain after
    rw [trimmed_eq_nil hafter] at hreached
    exact hreached.takes (by decide) nofun (by decide)

/-- What breaks off behind an operator breaks off the level of the operator. -/
theorem Reached.aborts_bin (op : BinOp) {lhs : Expr} {u : Verdict}
    (h : Reached op.rank cs lhs (op.symbol.toList ++ ds))
    (hu : Aborts inside (parserAt (op.rank - 1)) ds u) : Aborts inside (parserAt op.rank) cs u := by
  obtain ⟨index, hop, hbefore⟩ := exists_index_of_symbol op ds
  rw [reached_rank] at h
  rw [parserAt_rank]
  exact (h.aborts_chain hop rfl (fun i other hi hother es hes =>
    absurd hes (hbefore i other hi hother es)) hu).level true

/-- The last operand of a chain is the end of it. -/
theorem lasts_level (hr : 1 ≤ r ∧ r + 1 ≤ 3)
    (hparser : ∃ ops, parserAt (r + 1) = .level .left ops true (parserAt r))
    (hoperand : ∀ ds, ds.length ≤ cs.length → LastsAt after r ds) : LastsAt after (r + 1) cs := by
  intro e htakes
  have hover {cs : List Char} {e : Expr} (h : Reached (r + 1) cs e []) :
      Takes inside (parserAt (r + 1)) cs (.expr e) [] :=
    h.takes hr.2 nofun (Nat.lt_of_le_of_lt hr.2 (by decide))
  rcases htakes.exists_last_operand hr with hfirst | ⟨op, lhs, rhs, text, ds, hrank, rfl, rfl, hrhs,
    hagain⟩
  · obtain ⟨hlasts, hnamed⟩ := hoperand cs (Nat.le_refl _) e hfirst
    refine ⟨hlasts.imp (fun hread => hover (hread.reached (by omega))) fun hbroken => ?_, hnamed⟩
    obtain ⟨ops, hparser⟩ := hparser
    rw [hparser]
    exact (((hbroken.seq _).map _).alt_first _).level true
  · have hlen : ds.length ≤ (text ++ ds).length := by
      rw [List.length_append]
      omega
    have hspoils : Spoils after (text ++ ds) (.bin op lhs rhs) ↔ Spoils after ds rhs :=
      spoils_suffix (List.suffix_append text ds) (ne_nil_of_takes hrhs) Iff.rfl
    have hlasts := (hoperand ds hlen rhs hrhs).1.of_iff hspoils
    obtain rfl : op.rank - 1 = r := by omega
    rw [List.append_assoc, ← hrank]
    rw [← hrank] at hover
    exact ⟨hlasts.imp (fun hread => hover ((hagain after).bin op hread))
      fun hbroken => (hagain after).aborts_bin op hbroken, nofun⟩

theorem lasts_product (hafter : ∀ c ∈ after, IsBlank c) (h : LastsBelow after n)
    (hcs : cs.length ≤ n) : LastsAt after 2 cs :=
  lasts_level (by decide) ⟨_, rfl⟩ fun _ hds => lasts_call hafter h (Nat.le_trans hds hcs)

theorem lasts_sum (hafter : ∀ c ∈ after, IsBlank c) (h : LastsBelow after n)
    (hcs : cs.length ≤ n) : LastsAt after 3 cs :=
  lasts_level (by decide) ⟨_, rfl⟩ fun _ hds => lasts_product hafter h (Nat.le_trans hds hcs)

/-- Induction on the length: the body of a function is shorter. -/
theorem lastsBelow (hafter : ∀ c ∈ after, IsBlank c) (n : Nat) : LastsBelow after n := by
  induction n with
  | zero => exact fun ds hds => absurd hds (Nat.not_lt_zero _)
  | succ n ih => exact fun ds hds => lasts_sum hafter ih (Nat.le_of_lt_succ hds)

/-! ## Modules

Blanks before a module are skipped with the first declaration, and those behind it with the value of
the last one. -/

/-- The head of a binding is read again whatever follows the equals sign. -/
theorem meets_binding_head :
    Meets Γ bindingHead cs (fun v ds => ∃ s t, v = .text s ∧ cs = t ++ ds
      ∧ ∀ y, Takes Γ bindingHead (t ++ y) (.text s) y) True fun _ _ => True := by
  refine meets_left (meets_right (meets_literal (fun us hus => ?_) fun _ => trivial))
  refine meets_required (meets_name.mono ?_ (fun _ => trivial) fun _ _ _ => id)
  rintro _ ds _ ⟨s, t, rfl, rfl, _, hname⟩
  refine meets_required (meets_literal (fun es hes => ?_) fun _ => trivial)
  refine ⟨s, "let ".toList ++ (t ++ ['=']), rfl, by simp [hus, hes], fun y => ?_⟩
  have hread := hname ('=' :: y) (.cons (by decide) y)
  rw [trimmed_eq (.cons (by decide) y)] at hread
  simpa using takes_binding_head hread

/-- The value of a declaration is the end of it. -/
theorem lasting_declaration (hafter : ∀ c ∈ after, IsBlank c) :
    Meets [] (spaced (binding expression)) cs (fun v fs => ∃ s e, v = .binding (.mk s e)
      ∧ (fs = [] → Lasts after cs e
        (Takes [] (spaced (binding expression)) (cs ++ after) (.binding (.mk s e)) [])
        (Aborts [] (spaced (binding expression)) (cs ++ after) (unnamed after)))) True
      fun _ _ => True := by
  refine meets_spaced fun blank ds hblank hsplit hstops => meets_map (meets_seq ?_)
  refine meets_binding_head.mono ?_ id fun _ _ _ => id
  rintro _ es _ ⟨s, t, rfl, rfl, hhead⟩
  have hviable : Viable 3 es := viable_sum (viableBelow es.length) (Nat.le_refl _)
  refine meets_required (meets_rule (hviable.recall.mono ?_ (fun _ => trivial)
    fun _ _ _ _ => trivial))
  rintro _ fs _ ⟨htakes, e, rfl, he⟩ blank' gs hblank' hfs _
  refine ⟨s, e, rfl, fun hgs => ?_⟩
  -- the value has skipped its blanks, so the declaration ends where the value does
  obtain rfl : fs = [] := by
    have hstops' := he.stops
    rw [hfs, hgs] at hstops' ⊢
    rw [eq_nil_of_stops hblank' hstops', List.append_nil]
  have hne : es ≠ [] := ne_nil_of_takes htakes
  have hsuffix : es <:+ cs := hsplit ▸ (List.suffix_append t es).trans (List.suffix_append blank _)
  have hspoils : Spoils after cs e ↔ Spoils after es e := spoils_suffix hsuffix hne Iff.rfl
  have hfront : CharClass.spaces.Stops (t ++ (es ++ after)) := by
    rw [← List.append_assoc]
    exact hstops.append (List.append_ne_nil_of_right_ne_nil t hne) after
  have htext : cs ++ after = blank ++ (t ++ (es ++ after)) := by simp [hsplit]
  rw [htext]
  refine (((lastsBelow hafter _ es (Nat.lt_succ_self _) e htakes).1).of_iff hspoils).imp
    (fun hread => ?_) fun hbroken => ?_
  · have hbinding := ((hhead (es ++ after)).seq ((takes_expression hread).required
      "Expected an expression after '='")).map makeBinding
    exact takes_spaced_blank hblank hfront hbinding
  · have hexpression : Aborts [] expression (es ++ after) (unnamed after) := .rule hbroken
    have hbinding := ((hhead (es ++ after)).aborts_seq (hexpression.required
      "Expected an expression after '='")).map makeBinding
    exact aborts_spaced_blank hblank hfront hbinding

/-- The last declaration of a module is the end of it; those before it are read again as they
were. -/
theorem lasting_program (hafter : ∀ c ∈ after, IsBlank c) {m : Module}
    (h : Takes [] program cs (.program m) []) :
    ∃ s e, m.declarations.getLast? = some (.mk s e)
      ∧ Lasts after cs e (Takes [] program (cs ++ after) (.program m) [])
        (Aborts [] program (cs ++ after) (unnamed after)) := by
  have hprogram : Meets [] program cs (fun v ds => ∃ bs, v = .program ⟨bs⟩ ∧ (ds = [] →
      ∃ s e, bs.getLast? = some (.mk s e)
        ∧ Lasts after cs e
          (Steps [] (spaced (binding expression)) (cs ++ after) (bs.map .binding) [])
          (Aborts [] program (cs ++ after) (unnamed after)))) True fun _ _ => True := by
    -- the invariant of the declarations: if the text ends here, the last of them is at the end
    refine meets_map (@meets_rep _ _ _ _ _ _
      (fun vs ds => ∃ bs, vs.reverse = bs.map Value.binding
        ∧ SteadyBindings [] (spaced (binding expression)) cs bs ds ∧ (vs ≠ [] → ds = [] →
          ∃ s e, bs.getLast? = some (.mk s e)
            ∧ Lasts after cs e
              (Steps [] (spaced (binding expression)) (cs ++ after) (bs.map .binding) [])
              (Aborts [] program (cs ++ after) (unnamed after))))
      (fun _ => True) ⟨[], rfl, steadyBindings_nil _ _ cs, fun hne => absurd rfl hne⟩ ?_ ?_
      fun _ => trivial)
    · rintro vs ds ⟨bs, hvs, hsteady, _⟩
      refine ((viableBinding_declaration ds).recall.and (lasting_declaration hafter)).mono ?_
        (fun _ => trivial) fun _ _ _ _ => trivial
      rintro _ es _ ⟨⟨htakes, b, rfl, hb⟩, s, e, hbinding, hlasts⟩
      refine ⟨hb.length_lt, bs ++ [b], ?_, hsteady.more hb, ?_⟩
      · rw [List.reverse_cons, hvs, List.map_append]
        rfl
      · rintro - rfl
        obtain rfl := Value.binding.inj hbinding
        refine ⟨s, e, List.getLast?_concat, ?_⟩
        obtain ⟨t, rfl, ht, _⟩ := hb
        -- the declarations before this one are read again in front of its keyword
        obtain ⟨text, rfl, _, hagain⟩ := hsteady.again ht
        have hlasts := hlasts rfl
        rw [List.append_nil] at hlasts ⊢
        have hne : t ≠ [] := ne_nil_of_keyword ht
        have hspoils : Spoils after (text ++ t) e ↔ Spoils after t e :=
          spoils_suffix (List.suffix_append text t) hne Iff.rfl
        rw [List.append_assoc]
        refine (hlasts.of_iff hspoils).imp (fun hread => ?_) fun hbroken => ?_
        · exact (hagain after).more_binding ht (Nat.zero_le _) hread
        · exact ((hagain after).aborts_rep hbroken).map makeModule
    · rintro vs ds hne ⟨bs, hvs, _, hlasts⟩ _
      exact ⟨bs, by rw [hvs, makeModule, bindingsOf_map], hlasts hne⟩
  obtain ⟨bs, heq, hlasts⟩ := hprogram.fits h
  cases heq
  obtain ⟨s, e, hlast, hlasts⟩ := hlasts rfl
  refine ⟨s, e, hlast, hlasts.imp (fun hread => hread.takes_program ?_ (by decide)) id⟩
  rintro rfl
  cases hlast

/-- Blanks before a module are skipped. -/
theorem takes_program_blank {before : List Char} {m : Module} (hbefore : ∀ c ∈ before, IsBlank c)
    (h : Takes [] program cs (.program m) []) :
    Takes [] program (before ++ cs) (.program m) [] := by
  obtain ⟨bs, hbs, hne, ⟨text, rfl, _, hsteady⟩, _⟩ := (viable_program cs).fits h
  cases hbs
  obtain ⟨_, _, _, hsteps⟩ := hsteady hne
  have hread := (hsteps [] (Closes.nil.seam [])).of_trimmed_eq (by simpa using hne)
    (trimmed_blank_append hbefore _)
  exact hread.takes_program hne (by decide)

end

/-! ## Reading -/

namespace Workspace

/-- What the parser of modules breaks off with is reported. -/
theorem readModule_of_aborts {text message : String} {rest : List Char}
    (h : Aborts [] program text.toList (.failed message rest)) (w : Workspace) (name : String) :
    ∃ span, (w.readModule name text).1
        = .ok (.error (.located .malformed message name span none))
      ∧ span.start = Text.byteLength text.toList - Text.byteLength rest := by
  -- the parser comes to one verdict, and that is no report of a loop
  obtain ⟨u, hu, _⟩ := viable_program text.toList
  obtain rfl := Goal.comes_unique hu.comes h.1
  obtain ⟨span, w', hread, _, hstart, _⟩ := w.readModule_of_fails hu name
  exact ⟨span, congrArg Prod.fst hread, hstart⟩

/-- **Blanks around a module are ignored, unless they spoil it.** What is read as a module is read
as that module with blanks before it and behind it. But if the text ends with a function whose body
is a name that is spelled like the keyword, and there is a space behind it, that is taken for the
keyword, and it is reported that no name follows. -/
theorem readModule_surrounded {w : Workspace} {name before text after : String} {m : Module}
    (h : (w.readModule name text).1 = .ok (.ok m)) (hbefore : ∀ c ∈ before.toList, IsBlank c)
    (hafter : ∀ c ∈ after.toList, IsBlank c) :
    ∃ s e, m.declarations.getLast? = some (.mk s e) ∧ ∀ (w' : Workspace) (name' : String),
      (¬Spoils after.toList text.toList e →
          (w'.readModule name' (before ++ text ++ after)).1 = .ok (.ok m))
        ∧ (Spoils after.toList text.toList e → ∃ span,
          (w'.readModule name' (before ++ text ++ after)).1
              = .ok (.error (.located .malformed "Expected a name after 'let'" name' span none))
            ∧ span.start = Text.byteLength (before ++ text).toList + 1) := by
  have htakes := takes_of_readModule h
  have hne : text.toList ≠ [] := by
    obtain ⟨_, front, _, hsplit, hkeyword, _⟩ := takes_program_before htakes
    rw [hsplit, List.append_nil]
    exact ne_nil_of_keyword hkeyword
  obtain ⟨s, e, hlast, hlasts⟩ := lasting_program hafter (takes_program_blank hbefore htakes)
  have hspoils : Spoils after.toList text.toList e
      ↔ Spoils after.toList (before.toList ++ text.toList) e :=
    (spoils_suffix (List.suffix_append _ _) hne Iff.rfl).symm
  have htext : before.toList ++ text.toList ++ after.toList = (before ++ text ++ after).toList := by
    simp [String.toList_append]
  obtain ⟨hread, hbroken⟩ := hlasts.of_iff hspoils
  rw [htext] at hread hbroken
  refine ⟨s, e, hlast, fun w' name' => ⟨fun hsound => ?_, fun hspoiled => ?_⟩⟩
  · obtain ⟨w'', hread', _⟩ := w'.readModule_of_takes (hread hsound) name'
    rw [hread']
    rfl
  · obtain ⟨span, hread', hstart⟩ := readModule_of_aborts (hbroken hspoiled) w' name'
    refine ⟨span, hread', ?_⟩
    obtain ⟨rest, hrest⟩ := List.head?_eq_some_iff.1 hspoiled.1
    have hsize : ' '.utf8Size = 1 := by decide
    rw [hstart, ← htext, hrest, String.toList_append, Text.byteLength_append _ (' ' :: rest),
      List.tail_cons, Text.byteLength_cons, hsize]
    omega

/-- Behind the call that the body ends with, a space spoils nothing. -/
theorem readModule_shifted_surrounded :
    (empty.readModule "shifted" "let f = (x) -> let let = x*(x+2)\nlet(x)\n").1
        = .ok (.ok Module.shifted)
      ∧ (∀ c ∈ "\r\n".toList, IsBlank c) ∧ (∀ c ∈ " \t".toList, IsBlank c)
      ∧ (empty.readModule "shifted"
          ("\r\n" ++ "let f = (x) -> let let = x*(x+2)\nlet(x)\n" ++ " \t")).1
        = .ok (.ok Module.shifted) := by
  have htakes := Module.shifted_written.takes_program Module.shifted_legible (by decide)
  obtain ⟨w', hread, _⟩ := empty.readModule_of_takes htakes "shifted"
  have hok := congrArg Prod.fst hread
  have hbefore : ∀ c ∈ "\r\n".toList, IsBlank c := forall_mem_of_all (by decide)
  have hafter : ∀ c ∈ " \t".toList, IsBlank c := forall_mem_of_all (by decide)
  refine ⟨hok, hbefore, hafter, ?_⟩
  obtain ⟨_, _, hlast, hagain⟩ := readModule_surrounded hok hbefore hafter
  cases hlast
  refine (hagain empty "shifted").1 ?_
  rintro ⟨_, _, hbody | ⟨⟨⟩⟩⟩
  cases hbody

/-- A body that is a name, spelled like the keyword. -/
theorem takes_program_word :
    Takes [] program "let f = (x) -> let".toList
      (.program ⟨[.mk "f" (.fn "x" [] (.ref "let"))]⟩) [] := by
  have hletters : IsName "let".toList := by decide
  have hbody : ReadAt 4 (.ref "let") "let".toList :=
    (readAt_ref hletters).mono (Nat.zero_le 4) (Nat.le_refl 4)
  have hvalue : ReadAt 4 (.fn "x" [] (.ref "let")) "(x) -> let".toList :=
    .fn (by decide) .nil allReadAt_nil hbody (.name hletters) fun hne => absurd rfl hne
  have hread := hvalue [' '] [] (forall_mem_of_all (by decide)) nofun (by decide)
  have hbinding := binds_spaced "f" _ _ [] (by decide) hread
  exact (Steps.more .none hbinding nofun).takes_program (List.cons_ne_nil _ []) (by decide)

/-- The body of the function is the keyword of a binding when there is a space behind it. -/
theorem readModule_spoiled :
    (empty.readModule "spoiled" "let f = (x) -> let").1
        = .ok (.ok ⟨[.mk "f" (.fn "x" [] (.ref "let"))]⟩)
      ∧ (∀ c ∈ " ".toList, IsBlank c)
      ∧ ∃ span, (empty.readModule "spoiled" ("let f = (x) -> let" ++ " ")).1
          = .ok (.error (.located .malformed "Expected a name after 'let'" "spoiled" span none))
        ∧ span.start = 19 := by
  have hblank : ∀ c ∈ " ".toList, IsBlank c := forall_mem_of_all (by decide)
  obtain ⟨w', hread, _⟩ := empty.readModule_of_takes takes_program_word "spoiled"
  refine ⟨congrArg Prod.fst hread, hblank, ?_⟩
  obtain ⟨_, _, hlast, hlasts⟩ := lasting_program hblank takes_program_word
  cases hlast
  have hbroken : Aborts [] program ("let f = (x) -> let" ++ " ").toList (unnamed " ".toList) := by
    rw [String.toList_append]
    exact hlasts.broken ⟨rfl, rfl, .inl rfl⟩
  obtain ⟨span, hreport, hstart⟩ := readModule_of_aborts hbroken empty "spoiled"
  exact ⟨span, hreport, hstart.trans (by decide)⟩

end Workspace

end Packrat
