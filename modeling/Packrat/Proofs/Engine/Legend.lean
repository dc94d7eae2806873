import Packrat.Proofs.Engine.Frame
import Packrat.Proofs.Engine.Meaning

/-!
# Legends

Rules, caches and sources are numbers in a workspace, and a rule that has been built no longer
shows what it was built from. A *legend* says what the numbers stand for: each rule for the plan it
was made with, each cache for the blueprint whose results it holds and the rules around it, each
source for its text.

* **`Legend.Scoped`** — the rules of a scope, by number, are those of a context, by body;
* **`Legend.Reads`** — a grammar was built from a plain blueprint in a scope: it is that blueprint
  with caches and counters put in, and with rules referred to by number;
* **`Legend.Coherent`** — a workspace agrees with the legend: every rule is waiting with its plan,
  or is built and reads as the body of it, and every cache entry is a verdict that the blueprint of
  the cache yields at that place.

A legend only ever grows (`Legend.Le`), and what was read with less of it is read with more.
-/

namespace Packrat

/-- The enclosing rules by number, innermost first. -/
abbrev Scope := List (String × RuleId)

/-- What the numbers of a workspace stand for. -/
structure Legend where
  plan : RuleId → Option Plan
  -- the scope matters: one body gives different results inside different rules
  parser : CacheId → Option (Scope × Blueprint)
  text : Nat → Option (List Char)

namespace Legend

/-- The legend that explains nothing. -/
def empty : Legend :=
  ⟨fun _ => none, fun _ => none, fun _ => none⟩

/-- The second legend explains whatever the first one does, in the same way. -/
structure Le (L L' : Legend) : Prop where
  plan : ∀ {id plan}, L.plan id = some plan → L'.plan id = some plan
  parser : ∀ {k x}, L.parser k = some x → L'.parser k = some x
  text : ∀ {i cs}, L.text i = some cs → L'.text i = some cs

theorem Le.refl (L : Legend) : L.Le L :=
  ⟨id, id, id⟩

theorem Le.trans {L L' L'' : Legend} (h : L.Le L') (h' : L'.Le L'') : L.Le L'' :=
  ⟨h'.plan ∘ h.plan, h'.parser ∘ h.parser, h'.text ∘ h.text⟩

/-! ## Scopes

A scope is what the engine has for a context: a list of numbers, each with the scope of its own
rule. Looking up a name in one and in the other gives the same rule. -/

/-- The rules of the scope are those of the context. -/
inductive Scoped (L : Legend) : Scope → Context → Prop where
  | nil : Scoped L [] []
  | cons {id : RuleId} {plan : Plan} {Γ : Context} (hid : L.plan id = some plan)
      (houter : Scoped L plan.scope Γ) :
      Scoped L ((plan.label.name, id) :: plan.scope) ((plan.label.name, plan.body.plain) :: Γ)

/-- A scope that is explained stays explained. -/
theorem Scoped.mono {L L' : Legend} (h : L.Le L') {scope : Scope} {Γ : Context}
    (hs : L.Scoped scope Γ) : L'.Scoped scope Γ := by
  induction hs with
  | nil => exact .nil
  | cons hid _ ih => exact .cons (h.plan hid) ih

/-- A scope has one context. -/
theorem Scoped.unique {L : Legend} {scope : Scope} {Γ Γ' : Context} (h : L.Scoped scope Γ)
    (h' : L.Scoped scope Γ') : Γ = Γ' := by
  induction h generalizing Γ' with
  | nil => cases h'; rfl
  | @cons id plan Γ hid _ ih =>
    generalize hscope : (plan.label.name, id) :: plan.scope = scope at h'
    cases h' with
    | nil => cases hscope
    | @cons id' plan' Γ'' hid' houter' =>
      -- the numbers agree, hence the plans, hence the rules around them
      obtain ⟨⟨_, rfl⟩, _⟩ : ((plan.label.name = plan'.label.name ∧ id = id')
          ∧ plan.scope = plan'.scope) := by simpa using hscope
      obtain rfl : plan = plan' := Option.some.inj (hid.symm.trans hid')
      rw [ih houter']

/-- A name in scope is looked up alike by number and by body: the innermost rule of that name, with
the same rules around it. -/
theorem Scoped.lookup {L : Legend} {scope : Scope} {Γ : Context} (h : L.Scoped scope Γ)
    {name : String} {id : RuleId} (hid : scope.lookup name = some id) :
    ∃ plan outer, L.plan id = some plan ∧ plan.label.name = name
      ∧ L.Scoped plan.scope outer ∧ plan.scope <:+ scope
      ∧ Γ.find? name = some (plan.body.plain, outer) := by
  induction h with
  | nil => cases hid
  | @cons i plan Γ hplan houter ih =>
    rw [List.lookup_cons] at hid
    rw [Context.find?]
    -- a scope and its context are searched in step, and what is found stands in the rest of each
    cases hname : name == plan.label.name with
    | true =>
      simp only [hname] at hid
      cases hid
      exact ⟨plan, Γ, hplan, (eq_of_beq hname).symm, houter, List.suffix_cons _ _, rfl⟩
    | false =>
      simp only [hname] at hid
      obtain ⟨q, outer, hq, hqname, hqscope, hsuffix, hfind⟩ := ih hid
      exact ⟨q, outer, hq, hqname, hqscope, hsuffix.trans (List.suffix_cons _ _), hfind⟩

/-- Every name of a scope stands for a rule. -/
theorem exists_lookup {scope : Scope} {name : String}
    (h : (scope.map (·.1)).contains name = true) : ∃ id, scope.lookup name = some id := by
  induction scope with
  | nil => simp at h
  | cons e scope ih =>
    rw [List.lookup_cons]
    cases hname : name == e.1 with
    | true => exact ⟨e.2, rfl⟩
    | false =>
      rw [List.map_cons, List.contains_cons, hname, Bool.false_or] at h
      exact ih h

/-! ## Grammars

Reading a grammar takes the caches and counters away again and puts the names back in, so that what
is left is the plain form of the blueprint that it was built from. -/

/-- The grammar was built from the plain blueprint in the scope. -/
inductive Reads (L : Legend) (scope : Scope) : Grammar → Blueprint → Prop where
  | literal (token : String) : Reads L scope (.literal token) (.literal token)
  | chars (cls : CharClass) : Reads L scope (.chars cls) (.chars cls)
  | accept (value : Value) : Reads L scope (.accept value) (.accept value)
  | map {f : Value → Value} {g : Grammar} {b : Blueprint} (h : Reads L scope g b) :
      Reads L scope (.map f g) (.map f b)
  | tryMap {f : Value → Except String Value} {g : Grammar} {b : Blueprint}
      (h : Reads L scope g b) : Reads L scope (.tryMap f g) (.tryMap f b)
  | seq {g g' : Grammar} {b b' : Blueprint} (h : Reads L scope g b) (h' : Reads L scope g' b') :
      Reads L scope (.seq g g') (.seq b b')
  | alt {g g' : Grammar} {b b' : Blueprint} (h : Reads L scope g b) (h' : Reads L scope g' b') :
      Reads L scope (.alt g g') (.alt b b')
  | rep {g : Grammar} {b : Blueprint} (h : Reads L scope g b) : Reads L scope (.rep g) (.rep b)
  | required {message : String} {g : Grammar} {b : Blueprint} (h : Reads L scope g b) :
      Reads L scope (.required message g) (.required message b)
  | memo {k : CacheId} {g : Grammar} {b : Blueprint} (hk : L.parser k = some (scope, b))
      (h : Reads L scope g b) : Reads L scope (.memo k g) b
  | count {name : String} {g : Grammar} {b : Blueprint} (h : Reads L scope g b) :
      Reads L scope (.count name g) b
  | rule {id : RuleId} {plan : Plan} (hid : L.plan id = some plan) (hscope : plan.scope = scope) :
      Reads L scope (.rule .owned id) (.rule plan.label plan.body.plain)
  | self {name : String} {id : RuleId} (hid : scope.lookup name = some id) :
      Reads L scope (.rule .weak id) (.self name)

theorem Reads.mono {L L' : Legend} (hle : L.Le L') {scope : Scope} {g : Grammar} {b : Blueprint}
    (h : L.Reads scope g b) : L'.Reads scope g b := by
  induction h with
  | literal token => exact .literal token
  | chars cls => exact .chars cls
  | accept value => exact .accept value
  | map _ ih => exact .map ih
  | tryMap _ ih => exact .tryMap ih
  | seq _ _ ih ih' => exact .seq ih ih'
  | alt _ _ ih ih' => exact .alt ih ih'
  | rep _ ih => exact .rep ih
  | required _ ih => exact .required ih
  | memo hk _ ih => exact .memo (hle.parser hk) ih
  | count _ ih => exact .count ih
  | rule hid hscope => exact .rule (hle.plan hid) hscope
  | self hid => exact .self hid

/-! ## Coherent workspaces

What a legend explains can be compared with what the workspace holds. A rule is in one of two
stages, and a cache holds nothing but verdicts. -/

/-- A rule of the given plan at this stage is waiting, or built as planned. -/
def Stands (L : Legend) (id : RuleId) (plan : Plan) (d : Definition) : Prop :=
  d = .pending plan
    ∨ ∃ g, d = .built g ∧ L.Reads ((plan.label.name, id) :: plan.scope) g plan.body.plain

theorem Stands.mono {L L' : Legend} (hle : L.Le L') {id : RuleId} {plan : Plan} {d : Definition}
    (h : L.Stands id plan d) : L'.Stands id plan d := by
  rcases h with h | ⟨g, hd, hg⟩
  · exact Or.inl h
  · exact Or.inr ⟨g, hd, hg.mono hle⟩

/-- A plan can be carried out: its body is closed in the scope, whose rules are all explained. -/
def Sound (L : Legend) (plan : Plan) : Prop :=
  plan.body.closed (plan.label.name :: plan.scope.map (·.1)) = true ∧ ∃ Γ, L.Scoped plan.scope Γ

theorem Sound.mono {L L' : Legend} (hle : L.Le L') {plan : Plan} (h : L.Sound plan) :
    L'.Sound plan := by
  obtain ⟨hclosed, Γ, hΓ⟩ := h
  exact ⟨hclosed, Γ, hΓ.mono hle⟩

end Legend

/-- What a cache remembers of a verdict, if it remembers it. -/
def Verdict.remembered (s : Source) : Verdict → Option Remembered
  | .matched value rest => some (some (value, s.before rest))
  | .noMatch => some none
  | .failed _ _ => none
  | .stalled _ => none

namespace Legend

/-- A cache entry is a verdict that the blueprint yields at the place of the entry. -/
def Recalls (L : Legend) (scope : Scope) (b : Blueprint) (p : Position) (r : Remembered) : Prop :=
  ∃ (s : Source) (cs : List Char) (Γ : Context) (v : Verdict),
    L.text s.id = some s.text ∧ cs <:+ s.text ∧ p = (s.before cs).position
      ∧ L.Scoped scope Γ ∧ (Goal.parse Γ b cs).Yields v ∧ v.remembered s = some r

theorem Recalls.mono {L L' : Legend} (hle : L.Le L') {scope : Scope} {b : Blueprint} {p : Position}
    {r : Remembered} (h : L.Recalls scope b p r) : L'.Recalls scope b p r := by
  obtain ⟨s, cs, Γ, v, htext, hcs, hp, hΓ, hv, hr⟩ := h
  exact ⟨s, cs, Γ, v, hle.text htext, hcs, hp, hΓ.mono hle, hv, hr⟩

/-- The workspace agrees with the legend: what is explained is there, rules are alive and as
planned, and cache entries are verdicts. -/
structure Coherent (L : Legend) (w : Workspace) : Prop where
  rule : ∀ {id plan}, L.plan id = some plan →
    ∃ r, w.rules[id]? = some r ∧ r.retired = false ∧ L.Stands id plan r.definition
  sound : ∀ {id plan}, L.plan id = some plan → L.Sound plan
  cache : ∀ {k x}, L.parser k = some x → k < w.caches.size
  -- whatever a cache holds, whoever put it there, is right about the text
  entry : ∀ {k scope b p r}, L.parser k = some (scope, b) → w.cachedAt? k p = some r →
    L.Recalls scope b p r
  source : ∀ {i cs}, L.text i = some cs → i < w.sources

/-- Only the plans, lives and definitions of rules matter, the caches, and which sources have been
made. -/
theorem Coherent.congr {L : Legend} {w w' : Workspace} (hw : L.Coherent w)
    (hrules : ∀ (id : RuleId) (r : Rule), w.rules[id]? = some r → ∃ r' : Rule,
      w'.rules[id]? = some r' ∧ r'.retired = r.retired ∧ r'.definition = r.definition)
    (hcaches : w'.caches = w.caches) (hsources : w.sources ≤ w'.sources) : L.Coherent w' where
  rule hid := by
    obtain ⟨r, hr, hretired, hstands⟩ := hw.rule hid
    obtain ⟨r', hr', hretired', hdefinition⟩ := hrules _ r hr
    rw [← hdefinition] at hstands
    exact ⟨r', hr', hretired'.trans hretired, hstands⟩
  sound := hw.sound
  cache hk := by
    rw [hcaches]
    exact hw.cache hk
  entry hk hr := by
    rw [Workspace.cachedAt?, hcaches] at hr
    exact hw.entry hk hr
  source hi := Nat.lt_of_lt_of_le (hw.source hi) hsources

theorem Coherent.aside {L : Legend} {w w' : Workspace} (hw : L.Coherent w) (h : w.Aside w') :
    L.Coherent w' :=
  hw.congr (fun _ r hr => ⟨r, by rw [h.rules, hr], rfl, rfl⟩) h.caches h.sources

/-- Entering and leaving rules is nothing that a legend is about. -/
theorem Coherent.mark {L : Legend} {w w' : Workspace} (hw : L.Coherent w) {id : RuleId}
    {entered : Option Position}
    (hrules : w'.rules = w.rules.modify id fun r => { r with entered := entered })
    (hcaches : w'.caches = w.caches) (hsources : w.sources ≤ w'.sources) : L.Coherent w' := by
  refine hw.congr (fun i r hr => ?_) hcaches hsources
  rw [hrules, Array.getElem?_modify, hr]
  split
  · exact ⟨_, rfl, rfl, rfl⟩
  · exact ⟨r, rfl, rfl, rfl⟩

/-- What a cache remembers afterwards is the new answer or an old one. -/
theorem cachedAt?_remember {w : Workspace} {k k' : CacheId} {p p' : Position} {r r' : Remembered}
    (h : (w.remember k p r).cachedAt? k' p' = some r') :
    (k = k' ∧ p = p' ∧ r = r') ∨ w.cachedAt? k' p' = some r' := by
  unfold Workspace.cachedAt? at h ⊢
  rw [show (w.remember k p r).caches[k']? = _ from Array.getElem?_modify] at h
  by_cases hk : k = k'
  · rw [if_pos hk] at h
    cases hc : w.caches[k']? with
    | none => rw [hc] at h; cases h
    | some entries =>
      rw [hc] at h
      simp only [Option.map_some, Std.TreeMap.getElem?_insert,
        Std.LawfulEqCmp.compare_eq_iff_eq] at h
      split at h
      next hp => exact Or.inl ⟨hk, hp, Option.some.inj h⟩
      next => exact Or.inr h
  · rw [if_neg hk] at h
    exact Or.inr h

/-- A cache may remember what its blueprint yields. -/
theorem Coherent.remember {L : Legend} {w : Workspace} (hw : L.Coherent w) {scope : Scope}
    {b : Blueprint} {k : CacheId} {p : Position} {r : Remembered}
    (hk : L.parser k = some (scope, b)) (hr : L.Recalls scope b p r) :
    L.Coherent (w.remember k p r) where
  rule := hw.rule
  sound := hw.sound
  cache hk' := by
    show _ < (w.caches.modify k _).size
    rw [Array.size_modify]
    exact hw.cache hk'
  entry hk' hr' := by
    rcases cachedAt?_remember hr' with ⟨rfl, rfl, rfl⟩ | hold
    · -- the new entry; one cache stands for one parser
      cases Option.some.inj (hk.symm.trans hk')
      exact hr
    · exact hw.entry hk' hold
  source := hw.source

/-- A cache entry answers for its place in the source that is being read. -/
theorem Coherent.entry_at {L : Legend} {w : Workspace} (hw : L.Coherent w) {s : Source}
    {cs : List Char} {scope : Scope} {Γ : Context} {k : CacheId} {b : Blueprint} {r : Remembered}
    (hs : L.text s.id = some s.text) (hcs : cs <:+ s.text) (hΓ : L.Scoped scope Γ)
    (hk : L.parser k = some (scope, b))
    (hr : w.cachedAt? k (s.before cs).position = some r) :
    ∃ v, (Goal.parse Γ b cs).Yields v ∧ v.remembered s = some r := by
  obtain ⟨t, ds, Γ', v, ht, hds, hp, hΓ', hv, hremembered⟩ := hw.entry hk hr
  -- one number stands for one text, so the entry is about this very source
  have hid : s.id = t.id := congrArg Position.source hp
  have htext : s.text = t.text := by
    rw [hid, ht] at hs
    exact (Option.some.inj hs).symm
  obtain rfl : s = t := by
    cases s
    cases t
    simp_all
  obtain rfl : cs = ds := (Source.position_before_inj hcs hds).1 hp
  obtain rfl : Γ = Γ' := hΓ.unique hΓ'
  exact ⟨v, hv, hremembered⟩

end Legend

end Packrat
