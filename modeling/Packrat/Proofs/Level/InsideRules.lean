import Packrat.Proofs.Level.Comparison

/-!
# Levels inside recursive rules

The operand of a level is often a parser that comes back to the level: a digit, or the rule that the
level stands in with parentheses around it. Such an operand means nothing by itself, so what a parse
with it would come to has to be said inside the rules around it.

* **`Workspace.parseInside`** — what a blueprint comes to at a cursor inside the given rules: the
  rules are made anew, the blueprint is built in their scope, and it is run while they are alive.
* **`Workspace.InUse.inside_comes`** — that is the verdict of the blueprint in the context of these
  rules, whatever has happened in the workspace.
* **`Workspace.parse_eq_inside`**, **`Workspace.inside_rule`**, **`Workspace.inside_self`** — inside
  no rules it is what a parse comes to; a rule comes to what its body comes to inside it, and inside
  it so does the name of the rule.
* **`Workspace.inside_level`** — inside any rules a level comes to what its reference says of what
  its operand comes to there, and the order of its operators makes no difference
  (`Workspace.inside_level_perm`).
* **`Workspace.parse_recursive_level`** — so a recursive rule whose body is a level comes to what
  the reference says, with an operand that may refer to the rule.
-/

namespace Packrat

/-! ## Rules around a blueprint

The rules are given with their bodies, since the same names may stand for other rules elsewhere.
What is inside them is built once they have all been made. -/

/-- Rules inside each other with their bodies, innermost first. -/
abbrev Nest := List (RuleLabel × Blueprint)

namespace Nest

def names (rules : Nest) : List String :=
  rules.map fun r => r.1.name

/-- What the names of the rules stand for. -/
def context (rules : Nest) : Context :=
  rules.map fun r => (r.1.name, r.2.plain)

/-- Every body is closed in its own rule and the rules around that one. -/
def Closed : Nest → Prop
  | [] => True
  | (label, body) :: outer => body.closed (label.name :: names outer) = true ∧ Closed outer

theorem closed_nil : Closed [] :=
  trivial

theorem Closed.cons {outer : Nest} {label : RuleLabel} {body : Blueprint} (h : Closed outer)
    (hbody : body.closed (label.name :: names outer) = true) : Closed ((label, body) :: outer) :=
  ⟨hbody, h⟩

end Nest

namespace Workspace

/-- Make the rules, each in the scope of those around it. -/
def newRules (w : Workspace) : Nest → Scope × Workspace
  | [] => ([], w)
  | (label, body) :: outer =>
    let (scope, w) := w.newRules outer
    let (id, w) := w.newRule ⟨label, scope, body⟩
    ((label.name, id) :: scope, w)

/-- What a blueprint comes to at a cursor inside the rules. They are active meanwhile, as they would
be if the blueprint was reached through their bodies. -/
def parseInside (w : Workspace) (rules : Nest) (p : Blueprint) (c : Cursor) : Outcome :=
  let (scope, w) := w.newRules rules
  match (p.build scope).run w with
  | (.ok g, w) => ({ w with active := scope.map Prod.snd ++ w.active }.parse g c).1
  | (.error fault, _) => .fault fault

end Workspace

namespace Legend

variable {L : Legend} {pool : List (Blueprint × Grammar)} {known : List Source} {w : Workspace}

/-- **The rules can be made in any workspace that is explained.** Induction on the rules, from the
outermost one inwards. -/
theorem Explains.newRules (h : L.Explains pool known w) {rules : Nest} (hrules : rules.Closed) :
    ∃ L' : Legend, L'.Explains pool known (w.newRules rules).2
      ∧ L'.Scoped (w.newRules rules).1 rules.context
      ∧ (w.newRules rules).1.map (·.1) = rules.names := by
  induction rules with
  | nil => exact ⟨L, h, .nil, rfl⟩
  | cons rule outer ih =>
    obtain ⟨label, body⟩ := rule
    obtain ⟨hbody, houter⟩ := hrules
    obtain ⟨L₁, h₁, hΓ, hnames⟩ := ih houter
    rw [← hnames] at hbody
    obtain ⟨L', id, w', hrun, hgrows, hplan⟩ := makes_newRule h₁.coherent.below label hbody
    cases hrun
    refine ⟨L', h₁.grows hΓ hgrows, .cons hplan (hΓ.mono hgrows.le), ?_⟩
    exact congrArg (label.name :: ·) hnames

end Legend

namespace Workspace

variable {pool : List (Blueprint × Grammar)} {known : List Source} {w : Workspace} {rules : Nest}
  {p b body operand : Blueprint} {label : RuleLabel} {g : Grammar} {c : Cursor} {assoc : Assoc}
  {ops ops' : List Operator} {cached cached' : Bool}

/-- The verdict of a blueprint inside the rules does not depend on what the workspace holds. -/
theorem InUse.inside_comes (h : InUse pool known w) (hrules : rules.Closed)
    (hp : p.closed rules.names = true) (hc : c.Valid) (hs : c.source ∈ known) :
    ∃ v, (Goal.parse rules.context p.plain c.rest).Comes v
      ∧ w.parseInside rules p c = v.outcome c.source := by
  obtain ⟨L, hL⟩ := h.explained
  obtain ⟨L₁, h₁, hΓ, hnames⟩ := hL.newRules hrules
  rw [← hnames] at hp
  obtain ⟨L₂, g, w₂, hbuild, hgrows, hreads⟩ := Legend.makes_build p hp h₁.coherent.below
  have h₂ := h₁.grows hΓ hgrows
  -- that rules become active is nothing that a legend is about
  have h₃ : L₂.Explains pool known
      { w₂ with active := (w.newRules rules).1.map Prod.snd ++ w₂.active } :=
    h₂.spares ⟨fun _ _ hr => hr, fun _ _ hk => hk, Nat.le_refl _⟩
  have hactive : ∀ e ∈ (w.newRules rules).1,
      e.2 ∈ (w.newRules rules).1.map Prod.snd ++ w₂.active := fun _ he =>
    List.mem_append_left _ (List.mem_map_of_mem he)
  obtain ⟨_, _, hsettles⟩ := h₃.performs_inside (hΓ.mono hgrows.le) hactive hreads hc hs ⟨true, _⟩
    fun _ => Nat.le_refl _
  obtain ⟨v, hv, hout⟩ := hsettles.comes
  refine ⟨v, hv, ?_⟩
  simp only [parseInside, hbuild]
  exact hout

/-- Inside no rules a blueprint comes to what a parse with its grammar comes to. -/
theorem parse_eq_inside (h : InUse pool known w) (hg : (b, g) ∈ pool) (hc : c.Valid)
    (hs : c.source ∈ known) : (w.parse g c).1 = w.parseInside [] b c := by
  obtain ⟨u, hu, hparse⟩ := h.exists_comes hg hc hs
  obtain ⟨v, hv, hinside⟩ := h.inside_comes Nest.closed_nil (h.closed hg) hc hs
  obtain rfl := Goal.comes_unique hu hv
  exact hparse.trans hinside.symm

/-- A rule comes to what its body comes to inside it. -/
theorem inside_rule (h : InUse pool known w) (hrules : rules.Closed)
    (hbody : body.closed (label.name :: rules.names) = true) (hc : c.Valid)
    (hs : c.source ∈ known) :
    w.parseInside rules (.rule label body) c = w.parseInside ((label, body) :: rules) body c := by
  have hrules' := hrules.cons hbody
  obtain ⟨u, hu, hrule⟩ := h.inside_comes (p := .rule label body) hrules hbody hc hs
  obtain ⟨v, hv, hinside⟩ := h.inside_comes (p := body) hrules' hbody hc hs
  have hv' : (Goal.parse rules.context (Blueprint.rule label body).plain c.rest).Comes v :=
    Goal.Comes.ask hv rfl
  obtain rfl := Goal.comes_unique hu hv'
  exact hrule.trans hinside.symm

/-- Inside a rule its name comes to what the body of the rule comes to. -/
theorem inside_self (h : InUse pool known w) (hrules : rules.Closed)
    (hbody : body.closed (label.name :: rules.names) = true) (hc : c.Valid)
    (hs : c.source ∈ known) :
    w.parseInside ((label, body) :: rules) (.self label.name) c
      = w.parseInside ((label, body) :: rules) body c := by
  have hrules' := hrules.cons hbody
  have hself : (Blueprint.self label.name).closed (Nest.names ((label, body) :: rules)) = true := by
    simp [Blueprint.closed, Nest.names]
  obtain ⟨u, hu, hname⟩ := h.inside_comes hrules' hself hc hs
  obtain ⟨v, hv, hinside⟩ := h.inside_comes (p := body) hrules' hbody hc hs
  have hfind : Context.find? label.name (Nest.context ((label, body) :: rules))
      = some (body.plain, rules.context) := by
    simp [Nest.context, Context.find?]
  obtain rfl := Goal.comes_unique hu (Goal.Comes.self hfind hv)
  exact hname.trans hinside.symm

/-! ## Levels

The references are stated over what an operand comes to at each cursor. Inside rules that is what
the operand comes to inside the same rules, and nothing else about them changes. -/

/-- What the operand comes to inside the rules is told by its blueprint and their bodies. -/
theorem InUse.tells_inside (h : InUse pool known w) (hrules : rules.Closed)
    (hoperand : operand.closed rules.names = true) {s : Source} (hs : s ∈ known) :
    Tells rules.context operand.plain s (w.parseInside rules operand) :=
  fun _ hrest => h.inside_comes hrules hoperand (Source.valid_before hrest) hs

/-- **A level inside recursive rules equals its reference**, with an operand that may refer to any
of these rules; and where it breaks a contract, the operand does. -/
theorem inside_level (h : InUse pool known w) (hrules : rules.Closed)
    (hlevel : (Blueprint.level assoc ops cached operand).closed rules.names = true) (hc : c.Valid)
    (hs : c.source ∈ known) :
    (∀ o, w.parseInside rules (.level assoc ops cached operand) c = o
        ↔ Operator.Level assoc ops (w.parseInside rules operand) c o)
      ∧ ∀ fault, w.parseInside rules (.level assoc ops cached operand) c = .fault fault →
        ∃ d : Cursor, d.Valid ∧ d.source = c.source
          ∧ w.parseInside rules operand d = .fault fault := by
  have htokens := Blueprint.token_ne_nil_of_closed hlevel
  have hoperand : operand.closed rules.names = true := (Bool.and_eq_true_iff.1 hlevel).2
  obtain ⟨u, hu, hout⟩ := h.inside_comes hrules hlevel hc hs
  have hrealizes := (h.tells_inside hrules hoperand hs).realizes htokens hc.rest_suffix assoc
  rw [hc.eq_before] at hrealizes
  exact hrealizes.settles (fun _ _ => Operator.Level.unique) hu hout

/-- **The order of operators makes no difference** inside recursive rules either, with distinct
tokens. -/
theorem inside_level_perm (h : InUse pool known w) (hrules : rules.Closed)
    (hlevel : (Blueprint.level assoc ops cached operand).closed rules.names = true)
    (hlevel' : (Blueprint.level assoc ops' cached' operand).closed rules.names = true)
    (hperm : ops'.Perm ops) (hdistinct : (ops.map Operator.token).Nodup) (hc : c.Valid)
    (hs : c.source ∈ known) :
    w.parseInside rules (.level assoc ops' cached' operand) c
      = w.parseInside rules (.level assoc ops cached operand) c := by
  obtain ⟨hreference, _⟩ := inside_level h hrules hlevel hc hs
  obtain ⟨hreference', _⟩ := inside_level h hrules hlevel' hc hs
  exact (hreference' _).2 (((hreference _).1 rfl).perm hperm hdistinct)

/-- **A recursive rule whose body is a level equals the reference of the level**, given what the
operand comes to inside the rule. The operand may refer to the rule, and where it does, the name
comes to what a parse with the rule comes to. -/
theorem parse_recursive_level (h : InUse pool known w)
    (hg : (.rule label (.level assoc ops cached operand), g) ∈ pool) (hc : c.Valid)
    (hs : c.source ∈ known) :
    (∀ o, (w.parse g c).1 = o
        ↔ Operator.Level assoc ops
          (w.parseInside [(label, .level assoc ops cached operand)] operand) c o)
      ∧ (∀ fault, (w.parse g c).1 = .fault fault →
        ∃ d : Cursor, d.Valid ∧ d.source = c.source
          ∧ w.parseInside [(label, .level assoc ops cached operand)] operand d = .fault fault)
      ∧ ∀ d : Cursor, d.Valid → d.source ∈ known →
        w.parseInside [(label, .level assoc ops cached operand)] (.self label.name) d
          = (w.parse g d).1 := by
  have hlevel : (Blueprint.level assoc ops cached operand).closed [label.name] = true :=
    h.closed hg
  have hbody {d : Cursor} (hd : d.Valid) (hds : d.source ∈ known) : (w.parse g d).1
      = w.parseInside [(label, .level assoc ops cached operand)]
        (.level assoc ops cached operand) d :=
    (parse_eq_inside h hg hd hds).trans (inside_rule h Nest.closed_nil hlevel hd hds)
  rw [hbody hc hs]
  obtain ⟨hreference, hfault⟩ := inside_level h (Nest.closed_nil.cons hlevel) hlevel hc hs
  exact ⟨hreference, hfault, fun d hd hds =>
    (inside_self h Nest.closed_nil hlevel hd hds).trans (hbody hd hds).symm⟩

end Workspace

/-! ### Differences in parentheses -/

/-- Differences of digits and of differences in parentheses. -/
def Blueprint.nestedDifferences : Blueprint :=
  .rule ⟨"difference", false, none⟩ (.level .left Workspace.minusOrApart true
    (.alt (.chars .digits) (.right (.literal "(") (.left (.self "difference") (.literal ")")))))

/-- The operand in parentheses is read by the rule that the level stands in. -/
example : (((Workspace.empty.newSource "9-(5-1)").2.build .nestedDifferences).2.parse
      (.rule .owned 0) (Source.start ⟨0, "9-(5-1)".toList⟩)).1
    = .matched (.operation "minus" (.text "9") (.operation "minus" (.text "5") (.text "1")))
      ⟨⟨0, "9-(5-1)".toList⟩, 7, []⟩ := by
  cbv

end Packrat
