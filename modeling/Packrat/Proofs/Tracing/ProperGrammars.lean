import Packrat.Proofs.Engine.Building
import Packrat.Proofs.Tracing.Ledger

/-!
# What building leaves in order

Numbers for caches are given out when the parser behind a cache has been built already, and a
counter is made known before the parser that it counts. So in the grammars of a workspace

* no cache is asked by the very parser whose results it holds, before that parser does anything
  else, and every counter that is used is known (**`Grammar.Proper`**);
* this holds of what is built from a closed blueprint (**`ensures_build`**), and while definitions
  are built on demand the grammars of the workspace all stay proper (**`Workspace.Upholds`**);
* building records nothing: no miss, no entry, no call (**`Workspace.Proper.definition`**).
-/

namespace Packrat

/-! ## Proper grammars

A cache is a wrapper of a parser if it is asked as soon as the parser is. A cache that wraps itself
would be asked again for the very position that it was just asked for. -/

namespace Grammar

/-- The caches that are asked before the parser does anything else. -/
def wrappers : Grammar → List CacheId
  | .memo k p => k :: p.wrappers
  | .count _ p => p.wrappers
  | _ => []

/-- Every counter is known, and no cache is asked again by the parser behind it right away. -/
def Proper (w : Workspace) : Grammar → Prop
  | .literal _ => True
  | .chars _ => True
  | .accept _ => True
  | .map _ p => p.Proper w
  | .tryMap _ p => p.Proper w
  | .seq a b => a.Proper w ∧ b.Proper w
  | .alt a b => a.Proper w ∧ b.Proper w
  | .rep p => p.Proper w
  | .required _ p => p.Proper w
  | .memo k p => k ∉ p.wrappers ∧ p.Proper w
  | .count name p => w.counters.has name = true ∧ p.Proper w
  | .rule _ _ => True

/-- A grammar stays proper while no counter is forgotten. -/
theorem Proper.mono {w w' : Workspace}
    (hopened : ∀ {name}, w.counters.has name = true → w'.counters.has name = true) {g : Grammar}
    (h : g.Proper w) : g.Proper w' := by
  induction g with
  | literal token => trivial
  | chars cls => trivial
  | accept value => trivial
  | map f p ih => exact ih h
  | tryMap f p ih => exact ih h
  | seq a b iha ihb => exact ⟨iha h.1, ihb h.2⟩
  | alt a b iha ihb => exact ⟨iha h.1, ihb h.2⟩
  | rep p ih => exact ih h
  | required message p ih => exact ih h
  | memo k p ih => exact ⟨h.1, ih h.2⟩
  | count name p ih => exact ⟨hopened h.1, ih h.2⟩
  | rule hold id => trivial

theorem proper_oneOf {w : Workspace} {gs : List Grammar} (h : ∀ g ∈ gs, g.Proper w) :
    (oneOf gs).Proper w := by
  induction gs with
  | nil => trivial
  | cons g gs ih =>
    exact ⟨h g List.mem_cons_self, ih fun g' hg' => h g' (List.mem_cons_of_mem g hg')⟩

/-- A step of a level is proper if its operand is. -/
theorem proper_step {w : Workspace} {g : Grammar} (h : g.Proper w) (assoc : Assoc) (index : Nat)
    (token : String) : (assoc.step g index token).Proper w := by
  cases assoc with
  | left => exact ⟨trivial, h⟩
  | right => exact ⟨h, trivial⟩

/-- A level over a proper operand. The cache of a step is not asked by the step itself, which reads
an operand or a token first. -/
theorem proper_level {w : Workspace} {g : Grammar} (h : g.Proper w) (assoc : Assoc)
    (ops : List Operator) (caches : List CacheId) : (assoc.level g ops caches).Proper w := by
  have hsteps : (assoc.steps g ops caches).Proper w := by
    refine proper_oneOf fun p hp => ?_
    obtain ⟨⟨⟨op, k⟩, index⟩, _, rfl⟩ := List.mem_map.1 hp
    exact ⟨List.not_mem_nil, proper_step h assoc index op.token⟩
  cases assoc with
  | left => exact ⟨⟨h, hsteps⟩, h⟩
  | right => exact ⟨⟨hsteps, h⟩, h⟩

end Grammar

/-! ## Proper workspaces

Grammars come from definitions that have been built and from bodies that wait to be. Of the first it
is required that they are proper, of the second that they are closed. -/

/-- The body of the rule that is planned is closed in its scope. -/
def Plan.Closed (plan : Plan) : Prop :=
  plan.body.closed (plan.label.name :: plan.scope.map (·.1)) = true

namespace Workspace

/-- The rule has been built, and this is its definition. -/
def Has (w : Workspace) (id : RuleId) (g : Grammar) : Prop :=
  ∃ r : Rule, w.rules[id]? = some r ∧ r.definition = .built g

/-- What has been built is proper, and what is yet to be built is closed. -/
structure Proper (w : Workspace) : Prop where
  built : ∀ {id : RuleId} {g : Grammar}, w.Has id g → g.Proper w
  pending : ∀ {id : RuleId} {r : Rule} {plan : Plan}, w.rules[id]? = some r →
    r.definition = .pending plan → plan.Closed

/-- Where nothing has happened all is proper. -/
theorem proper_empty : empty.Proper where
  built h := by
    obtain ⟨r, hr, _⟩ := h
    cases hr
  pending h := by cases h

/-- The second workspace is proper, its counters are known still, and what was built is there. -/
structure Upholds (w w' : Workspace) : Prop where
  proper : w'.Proper
  opened : ∀ {name}, w.counters.has name = true → w'.counters.has name = true
  built : ∀ {id : RuleId} {g : Grammar}, w.Has id g → w'.Has id g

section

variable {w w' w'' : Workspace}

theorem Proper.upholds (h : w.Proper) : w.Upholds w where
  proper := h
  opened hname := hname
  built hg := hg

/-- What is upheld twice is upheld. -/
theorem Upholds.trans (h : w.Upholds w') (h' : w'.Upholds w'') : w.Upholds w'' where
  proper := h'.proper
  opened hname := h'.opened (h.opened hname)
  built hg := h'.built (h.built hg)

/-- Rules may be entered and left. -/
theorem Proper.upholds_of_rules (h : w.Proper)
    (hrules : ∀ {id : RuleId} {r' : Rule}, w'.rules[id]? = some r' →
      ∃ r : Rule, w.rules[id]? = some r ∧ r.definition = r'.definition)
    (hback : ∀ {id : RuleId} {r : Rule}, w.rules[id]? = some r →
      ∃ r' : Rule, w'.rules[id]? = some r' ∧ r'.definition = r.definition)
    (hopened : ∀ {name}, w.counters.has name = true → w'.counters.has name = true) :
    w.Upholds w' where
  proper := {
    built := fun ⟨r', hr', hg⟩ => by
      obtain ⟨r, hr, hsame⟩ := hrules hr'
      exact (h.built ⟨r, hr, hsame.trans hg⟩).mono hopened
    pending := fun hr' hplan => by
      obtain ⟨r, hr, hsame⟩ := hrules hr'
      exact h.pending hr (hsame.trans hplan) }
  opened := hopened
  built := fun ⟨r, hr, hg⟩ => by
    obtain ⟨r', hr', hsame⟩ := hback hr
    exact ⟨r', hr', hsame.trans hg⟩

theorem Proper.upholds_same (h : w.Proper) (hrules : w'.rules = w.rules)
    (hopened : ∀ {name}, w.counters.has name = true → w'.counters.has name = true) :
    w.Upholds w' := by
  refine h.upholds_of_rules (fun {id r'} hr' => ⟨r', ?_, rfl⟩) (fun {id r} hr => ⟨r, ?_, rfl⟩)
    hopened
  · rwa [hrules] at hr'
  · rwa [hrules]

theorem Proper.upholds_mark (h : w.Proper) {id : RuleId} {entered : Option Position}
    (hrules : w'.rules = w.rules.modify id fun r => { r with entered := entered })
    (hcounters : w'.counters = w.counters) : w.Upholds w' := by
  refine h.upholds_of_rules (fun {i r'} hr' => ?_) (fun {i r} hr => ?_)
    (fun hname => by rwa [hcounters])
  · rw [hrules, Array.getElem?_modify] at hr'
    split at hr'
    · obtain ⟨r, hr, rfl⟩ := Option.map_eq_some_iff.1 hr'
      exact ⟨r, hr, rfl⟩
    · exact ⟨r', hr', rfl⟩
  · rw [hrules, Array.getElem?_modify, hr]
    split
    · exact ⟨_, rfl, rfl⟩
    · exact ⟨r, rfl, rfl⟩

theorem Proper.upholds_log (h : w.Proper) (e : Event) : w.Upholds (w.log e) :=
  h.upholds_same rfl fun hname => hname

theorem Proper.upholds_remember (h : w.Proper) (k : CacheId) (p : Position) (r : Remembered) :
    w.Upholds (w.remember k p r) :=
  h.upholds_same rfl fun hname => hname

theorem Proper.upholds_countCall (h : w.Proper) (name : String) : w.Upholds (w.countCall name) := by
  refine h.upholds_same rfl fun {m} hm => ?_
  show ((w.counters.modify name (· + 1)).get? m).isSome = true
  rw [Table.get?_modify]
  split
  · rwa [Option.isSome_map]
  · exact hm

end

/-! ## Constructions

Closed or not, a construction may break off half-way. What it has built until then stays, so this is
shown of every result. -/

/-- A construction adds rules that wait for closed bodies and caches without entries, and records
nothing. -/
structure Builds (w w' : Workspace) : Prop where
  records : w.Records [] w'
  size : w.caches.size ≤ w'.caches.size
  rules : ∀ {id : RuleId} {r : Rule}, w.rules[id]? = some r → w'.rules[id]? = some r
  fresh : ∀ {id : RuleId} {r : Rule}, w'.rules[id]? = some r →
    w.rules[id]? = some r ∨ ∃ plan : Plan, r = ⟨.pending plan, none, false⟩ ∧ plan.Closed

section

variable {w w' w'' : Workspace}

theorem Builds.refl (w : Workspace) : w.Builds w where
  records := .refl w
  size := Nat.le_refl _
  rules := id
  fresh := Or.inl

/-- Constructions one after the other are a construction. -/
theorem Builds.trans (h : w.Builds w') (h' : w'.Builds w'') : w.Builds w'' where
  records := h.records.trans_quiet h'.records
  size := h.size.trans h'.size
  rules hr := h'.rules (h.rules hr)
  fresh hr := by
    rcases h'.fresh hr with hmid | hnew
    · exact h.fresh hmid
    · exact Or.inr hnew

/-- A construction upholds what the workspace has in order. -/
theorem Builds.upholds (h : w.Builds w') (hw : w.Proper) : w.Upholds w' where
  proper := {
    built := fun ⟨r, hr, hg⟩ => by
      rcases h.fresh hr with hold | ⟨plan, rfl, _⟩
      · exact (hw.built ⟨r, hold, hg⟩).mono h.records.opened
      · cases hg
    pending := fun hr hplan => by
      rcases h.fresh hr with hold | ⟨plan, rfl, hclosed⟩
      · exact hw.pending hold hplan
      · cases hplan
        exact hclosed }
  opened := h.records.opened
  built := fun ⟨r, hr, hg⟩ => ⟨r, h.rules hr, hg⟩

theorem builds_same (hrules : w'.rules = w.rules) (hrecords : w.Records [] w')
    (hcaches : w'.caches = w.caches) : w.Builds w' where
  records := hrecords
  size := by rw [hcaches]
  rules hr := by rwa [hrules]
  fresh hr := by
    rw [hrules] at hr
    exact Or.inl hr

theorem builds_newCache (w : Workspace) : w.Builds w.newCache.2 := by
  have hpush : ∀ k, w.newCache.2.caches[k]?
      = if k = w.caches.size then some ∅ else w.caches[k]? := fun k => Array.getElem?_push
  refine ⟨.quiet (fun _ => rfl) (fun k p => ?_) (fun k => ?_) rfl, ?_, id, Or.inl⟩
  · rw [cachedAt?, hpush, cachedAt?]
    by_cases hk : k = w.caches.size
    · rw [if_pos hk, hk, Array.getElem?_eq_none (Nat.le_refl _)]
      exact Std.TreeMap.getElem?_emptyc
    · rw [if_neg hk]
  · rw [cachedPositions, hpush, cachedPositions]
    by_cases hk : k = w.caches.size
    · rw [if_pos hk, hk, Array.getElem?_eq_none (Nat.le_refl _)]
      rfl
    · rw [if_neg hk]
  · show w.caches.size ≤ (w.caches.push ∅).size
    rw [Array.size_push]
    omega

theorem builds_newCaches (n : Nat) (w : Workspace) : w.Builds (w.newCaches n).2 := by
  induction n generalizing w with
  | zero => exact .refl w
  | succ n ih => exact w.builds_newCache.trans (ih _)

theorem builds_newRule (w : Workspace) {plan : Plan} (h : plan.Closed) :
    w.Builds (w.newRule plan).2 := by
  have hpush : ∀ id, (w.newRule plan).2.rules[id]?
      = if id = w.rules.size then some ⟨.pending plan, none, false⟩ else w.rules[id]? :=
    fun id => Array.getElem?_push
  refine ⟨.same rfl rfl rfl, Nat.le_refl _, fun {id r} hr => ?_, fun {id r} hr => ?_⟩
  · have hlt := (Array.getElem?_eq_some_iff.1 hr).1
    rw [hpush, if_neg (Nat.ne_of_lt hlt), hr]
  · rw [hpush] at hr
    split at hr
    · cases hr
      exact Or.inr ⟨plan, rfl, h⟩
    · exact Or.inl hr

theorem records_openCounter (w : Workspace) (name : String) :
    w.Records [] (w.openCounter name) := by
  unfold openCounter
  split
  next => exact .refl w
  next hnew =>
    have hnone : w.counters.get? name = none := by
      simpa [Table.has] using hnew
    exact {
      misses := fun k => (List.append_nil _).symm
      once := fun _ => List.nodup_nil
      uncached := fun h => nomatch h
      cached := fun h => nomatch h
      kept := fun _ => rfl
      positions := fun _ => rfl
      tally := fun m => by
        show ((w.counters.put name 0).get? m).getD 0 = (w.counters.get? m).getD 0
        by_cases hm : name = m
        · rw [← hm, Table.get?_put_self, hnone]
          rfl
        · rw [Table.get?_put_of_ne _ hm]
      opened := fun {m} hm => by
        have hne : name ≠ m := by
          rintro rfl
          exact hnew hm
        show ((w.counters.put name 0).get? m).isSome = true
        rwa [Table.get?_put_of_ne _ hne] }

theorem has_openCounter (w : Workspace) (name : String) :
    (w.openCounter name).counters.has name = true := by
  unfold openCounter
  split
  next h => exact h
  next =>
    show ((w.counters.put name 0).get? name).isSome = true
    rw [Table.get?_put_self]
    rfl

end

end Workspace

/-- Whatever the action comes to, it has only built; and a result has the property. -/
def Ensures (w : Workspace) {α : Type} (x : Build α) (post : α → Workspace → Prop) : Prop :=
  w.Builds (x.run w).2 ∧ ∀ a, (x.run w).1 = .ok a → post a (x.run w).2

section

variable {α β : Type} {w : Workspace} {x : Build α} {post : α → Workspace → Prop}
  {post' : β → Workspace → Prop}

theorem Ensures.pure {a : α} (h : post a w) : Ensures w (Pure.pure a : Build α) post := by
  refine ⟨.refl w, fun b hb => ?_⟩
  cases hb
  exact h

theorem run_bind_error {f : α → Build β} {fault : Fault} {w' : Workspace}
    (h : x.run w = (.error fault, w')) : (x >>= f).run w = (.error fault, w') := by
  show (match x.run w with
    | (r, w') => (ExceptT.bindCont f r : StateM Workspace (Except Fault β)) w') = _
  rw [h]
  rfl

/-- **Actions one after the other.** If the first one breaks off, what it has built is there
nonetheless. -/
theorem Ensures.bind {f : α → Build β} (hx : Ensures w x post)
    (hf : ∀ a w', w.Builds w' → post a w' → Ensures w' (f a) post') :
    Ensures w (x >>= f) post' := by
  obtain ⟨hbuilds, hpost⟩ := hx
  generalize hrun : x.run w = y at hbuilds hpost
  obtain ⟨r, w'⟩ := y
  cases r with
  | error fault =>
    rw [Ensures, run_bind_error hrun]
    exact ⟨hbuilds, fun _ h => nomatch h⟩
  | ok a =>
    obtain ⟨hbuilds', hpost'⟩ := hf a w' hbuilds (hpost a rfl)
    rw [Ensures, Legend.run_bind_ok hrun]
    exact ⟨hbuilds.trans hbuilds', hpost'⟩

/-- An action on the workspace with a result. -/
theorem ensures_modifyGet {f : Workspace → α × Workspace} (hbuilds : w.Builds (f w).2)
    (hpost : post (f w).1 (f w).2) : Ensures w (modifyGet f : Build α) post := by
  refine ⟨hbuilds, fun a ha => ?_⟩
  obtain rfl : (f w).1 = a := Except.ok.inj ha
  exact hpost

theorem ensures_modifyGet_true {f : Workspace → α × Workspace} (hbuilds : w.Builds (f w).2) :
    Ensures w (modifyGet f : Build α) fun _ _ => True :=
  ensures_modifyGet hbuilds trivial

/-- An action on the workspace. -/
theorem ensures_modify {f : Workspace → Workspace} (hbuilds : w.Builds (f w)) :
    Ensures w (modify f : Build Unit) fun _ w' => w' = f w :=
  ensures_modifyGet hbuilds rfl

end

/-- What a construction has to say of the grammar it makes: it is proper, and the caches that it
asks have their numbers. -/
def Sound (g : Grammar) (w : Workspace) : Prop :=
  g.Proper w ∧ ∀ k ∈ g.wrappers, k < w.caches.size

theorem Sound.mono {g : Grammar} {w w' : Workspace} (h : Sound g w) (hbuilds : w.Builds w') :
    Sound g w' :=
  ⟨h.1.mono hbuilds.records.opened, fun k hk => Nat.lt_of_lt_of_le (h.2 k hk) hbuilds.size⟩

/-- What asks no cache before anything else has only to be proper. -/
theorem Grammar.Proper.sound {g : Grammar} {w : Workspace} (h : g.Proper w)
    (hg : g.wrappers = []) : Sound g w :=
  ⟨h, hg ▸ List.forall_mem_nil _⟩

/-- A cache gets its number after those that the parser behind it asks. -/
theorem Sound.memo {g : Grammar} {w : Workspace} (h : Sound g w) :
    Sound (.memo w.newCache.1 g) w.newCache.2 := by
  have hmono := h.mono w.builds_newCache
  have hsize : w.newCache.2.caches.size = w.caches.size + 1 := Array.size_push _
  refine ⟨⟨fun hk => ?_, hmono.1⟩, fun k hk => ?_⟩
  · exact absurd (h.2 _ hk) (Nat.lt_irrefl _)
  · rcases List.mem_cons.1 hk with rfl | hk
    · rw [hsize]
      exact Nat.lt_succ_self _
    · exact hmono.2 k hk

theorem ensures_newCache {g : Grammar} {w : Workspace} (h : Sound g w) :
    Ensures w (modifyGet Workspace.newCache : Build CacheId) fun k w' => Sound (.memo k g) w' :=
  ensures_modifyGet w.builds_newCache h.memo

theorem ensures_level {g : Grammar} {w : Workspace} (h : Sound g w) (assoc : Assoc)
    (ops : List Operator) :
    Ensures w (do
        let caches ← modifyGet (Workspace.newCaches ops.length)
        return assoc.level g (Operator.longestFirst ops) caches : Build Grammar) Sound := by
  refine (ensures_modifyGet_true (w.builds_newCaches _)).bind
    fun caches w' hbuilds _ => .pure ?_
  exact Grammar.Proper.sound (Grammar.proper_level (h.mono hbuilds).1 assoc _ caches) rfl

/-- **Building a closed blueprint makes a proper grammar.** Induction on the blueprint. -/
theorem ensures_build {scope : Scope} (b : Blueprint) (hb : b.closed (scope.map (·.1)) = true)
    (w : Workspace) : Ensures w (b.build scope) Sound := by
  induction b generalizing w with
  | literal token => exact .pure (Grammar.Proper.sound trivial rfl)
  | chars cls => exact .pure (Grammar.Proper.sound trivial rfl)
  | accept value => exact .pure (Grammar.Proper.sound trivial rfl)
  | map f p ih => exact (ih hb w).bind fun g _ _ hg => .pure (Grammar.Proper.sound hg.1 rfl)
  | tryMap f p ih => exact (ih hb w).bind fun g _ _ hg => .pure (Grammar.Proper.sound hg.1 rfl)
  | rep p ih => exact (ih hb w).bind fun g _ _ hg => .pure (Grammar.Proper.sound hg.1 rfl)
  | required message p ih =>
    exact (ih hb w).bind fun g _ _ hg => .pure (Grammar.Proper.sound hg.1 rfl)
  | seq a b iha ihb =>
    obtain ⟨ha, hb⟩ := Bool.and_eq_true_iff.1 hb
    refine (iha ha w).bind fun g w₁ _ hg => (ihb hb w₁).bind fun g' w₂ hbuilds hg' => .pure ?_
    exact Grammar.Proper.sound ⟨(hg.mono hbuilds).1, hg'.1⟩ rfl
  | alt a b iha ihb =>
    obtain ⟨ha, hb⟩ := Bool.and_eq_true_iff.1 hb
    refine (iha ha w).bind fun g w₁ _ hg => (ihb hb w₁).bind fun g' w₂ hbuilds hg' => .pure ?_
    exact Grammar.Proper.sound ⟨(hg.mono hbuilds).1, hg'.1⟩ rfl
  | memo name p ih =>
    -- the cache is made when its parser is there, so that the parser cannot ask for it
    refine (ih hb w).bind fun g w₁ _ hg => ?_
    refine (ensures_newCache hg).bind fun k w₂ _ hmemo => ?_
    cases name with
    | none => exact .pure hmemo
    | some name =>
      have hregister : w₂.Builds (w₂.registerMemo name k g) :=
        Workspace.builds_same rfl (.same rfl rfl rfl) rfl
      refine (ensures_modify hregister).bind fun _ w₃ hbuilds _ => .pure (hmemo.mono hbuilds)
  | count name p ih =>
    -- the counter is opened first, so that it is known when the parser is built
    have hopen : w.Builds (w.openCounter name) := by
      refine Workspace.builds_same ?_ (w.records_openCounter name) ?_ <;>
        (unfold Workspace.openCounter; split <;> rfl)
    refine (ensures_modify hopen).bind fun _ w₁ _ hw₁ => ?_
    subst hw₁
    refine (ih hb _).bind fun g w₂ hbuilds hg => .pure ⟨⟨?_, hg.1⟩, hg.2⟩
    exact hbuilds.records.opened (w.has_openCounter name)
  | level assoc ops cached operand ih =>
    obtain ⟨hops, hoperand⟩ := Bool.and_eq_true_iff.1 hb
    have hnamed : (ops.any fun op => op.token.isEmpty) = false := by simpa using hops
    rw [Blueprint.build, hnamed]
    refine (ih hoperand w).bind fun g w₁ _ hg => ?_
    cases cached with
    | false => exact ensures_level hg assoc ops
    | true =>
      exact (ensures_newCache hg).bind fun k w₂ _ hmemo => ensures_level hmemo assoc ops
  | rule label body =>
    have hclosed : Plan.Closed ⟨label, scope, body⟩ := hb
    exact (ensures_modifyGet_true (w.builds_newRule hclosed)).bind
      fun id w₁ _ _ => .pure (Grammar.Proper.sound trivial rfl)
  | self name =>
    obtain ⟨id, hid⟩ := Legend.exists_lookup hb
    rw [Blueprint.build, hid]
    exact .pure (Grammar.Proper.sound trivial rfl)
  | exposed name => cases hb
  | registered name => cases hb
  | registeredMemo name => cases hb
  | unreadable reason => cases hb

/-! ## The body of a rule

While its body is built a rule has no definition, so nothing is required of it. -/

namespace Workspace

section

variable {w : Workspace} {id : RuleId} {r : Rule} {plan : Plan}

theorem rules_define_self (hr : w.rules[id]? = some r) (d : Definition) :
    (w.define id d).rules[id]? = some { r with definition := d } := by
  rw [Legend.rules_define, if_pos rfl, hr]
  rfl

/-- A definition that is not built may move on, to a grammar that is proper. -/
theorem Proper.upholds_define (h : w.Proper) (hr : w.rules[id]? = some r)
    (hwaiting : ∀ g, r.definition ≠ .built g) {d : Definition}
    (hbuilt : ∀ g, d = .built g → g.Proper w) (hpending : ∀ plan, d ≠ .pending plan) :
    w.Upholds (w.define id d) := by
  have hsame : ∀ {g : Grammar}, g.Proper w → g.Proper (w.define id d) := fun {g} hg =>
    @Grammar.Proper.mono w (w.define id d) (fun hname => hname) g hg
  refine ⟨⟨fun {i g} ⟨q, hq, hg⟩ => ?_, fun {i q plan} hq hplan => ?_⟩, fun hname => hname,
    fun {i g} ⟨q, hq, hg⟩ => ?_⟩
  -- the one rule has the new definition, and every other rule the one that it had
  · rw [Legend.rules_define] at hq
    split at hq
    · obtain ⟨q', _, rfl⟩ := Option.map_eq_some_iff.1 hq
      exact hsame (hbuilt g hg)
    · exact hsame (h.built ⟨q, hq, hg⟩)
  · rw [Legend.rules_define] at hq
    split at hq
    · obtain ⟨q', _, rfl⟩ := Option.map_eq_some_iff.1 hq
      exact absurd hplan (hpending plan)
    · exact h.pending hq hplan
  · refine ⟨q, ?_, hg⟩
    rw [Legend.rules_define]
    split
    next heq =>
      subst heq
      rw [hr] at hq
      cases hq
      exact absurd hg (hwaiting g)
    next => exact hq

/-- Trying a rule out records nothing. -/
theorem records_probe (w : Workspace) (id : RuleId) (text : String) :
    w.Records [] (w.probe id text) := by
  have hlog : ∀ (v : Workspace) (c : Cursor) (refusal : Refusal),
      v.Records [] (v.logRefusal id c refusal) := by
    intro v c refusal
    cases refusal with
    | dropped => exact .refl v
    | leftRecursion => exact .log fun _ => rfl
    | underConstruction => exact .refl v
  have hsource : w.Records [] (w.newSource text).2 := .same rfl rfl rfl
  exact (hsource.trans_quiet (hlog _ _ _)).trans_quiet (.same rfl rfl rfl)

/-- Getting a rule ready for its construction records nothing. -/
theorem records_beginning (w : Workspace) (id : RuleId) (plan : Plan) :
    (w.define id .underway).Records [] (w.beginning id plan) := by
  have hlog : (w.define id .underway).Records [] (w.underway id) :=
    (Records.log fun _ => rfl : Records _ [] ((w.define id .underway).log (.constructing id)))
  unfold beginning
  simp only
  generalize hw₀ : (if plan.label.exposed then _ else _ : Workspace) = w₀
  have hnamed : (w.define id .underway).Records [] w₀ := by
    rw [← hw₀]
    split
    · exact hlog.trans_quiet (.same rfl rfl rfl)
    · exact hlog
  split
  · exact hnamed.trans_quiet (w₀.records_probe id _)
  · exact hnamed

/-- Building the body of a waiting rule records nothing, and makes it a proper definition. -/
theorem Proper.construct (h : w.Proper) (hr : w.rules[id]? = some r)
    (hpending : r.definition = .pending plan) :
    w.Records [] (w.construct id plan).2 ∧ w.Upholds (w.construct id plan).2
      ∧ ∀ g, (w.construct id plan).1 = .ok g → (w.construct id plan).2.Has id g := by
  have hrecords := w.records_beginning id plan
  have hrules := w.rules_beginning id plan
  rw [construct_eq_build]
  generalize w.beginning id plan = w₁ at hrecords hrules ⊢
  have hwaiting : ∀ g, r.definition ≠ .built g := fun g hg => by
    rw [hpending] at hg
    cases hg
  have hdefine : w.Upholds (w.define id .underway) :=
    h.upholds_define hr hwaiting (fun _ hg => nomatch hg) fun _ hplan => nomatch hplan
  have hstart : w.Upholds w₁ :=
    hdefine.trans (hdefine.proper.upholds_same hrules hrecords.opened)
  have hquiet : w.Records [] w₁ :=
    (Records.same rfl rfl rfl : w.Records [] (w.define id .underway)).trans_quiet hrecords
  have hclosed : plan.body.closed (((plan.label.name, id) :: plan.scope).map (·.1)) = true :=
    h.pending hr hpending
  obtain ⟨hbuilds, hsound⟩ := ensures_build plan.body hclosed w₁
  generalize (plan.body.build ((plan.label.name, id) :: plan.scope)).run w₁ = y
    at hbuilds hsound ⊢
  obtain ⟨result, w₂⟩ := y
  have hbuilt := hstart.trans (hbuilds.upholds hstart.proper)
  have hrecorded := hquiet.trans_quiet hbuilds.records
  cases result with
  | error fault => exact ⟨hrecorded, hbuilt, fun _ hg => nomatch hg⟩
  | ok g =>
    have hproper : g.Proper w₂ := (hsound g rfl).1
    -- the body brings new rules only, so this one has stayed underway
    have hunderway : w₂.rules[id]? = some { r with definition := .underway } := by
      refine hbuilds.rules ?_
      rw [hrules]
      exact rules_define_self hr .underway
    refine ⟨hrecorded.trans_quiet (.same rfl rfl rfl), hbuilt.trans ?_, fun g' hg' => ?_⟩
    · refine hbuilt.proper.upholds_define hunderway (fun _ hg => nomatch hg) (fun g' hg' => ?_)
        fun _ hplan => nomatch hplan
      cases hg'
      exact hproper
    · cases hg'
      exact ⟨_, rules_define_self hunderway (.built g), rfl⟩

/-- **Having a definition at hand records nothing.** -/
theorem Proper.definition (h : w.Proper) (id : RuleId) :
    w.Records [] (w.definition id).2 ∧ w.Upholds (w.definition id).2
      ∧ ∀ g, (w.definition id).1 = .ok (some g) → (w.definition id).2.Has id g := by
  unfold Workspace.definition
  split
  next g entered retired hr =>
    refine ⟨.refl w, h.upholds, fun g' hg' => ?_⟩
    cases hg'
    exact ⟨_, hr, rfl⟩
  next plan entered retired hr =>
    obtain ⟨hrecords, hupholds, hhas⟩ := h.construct hr rfl
    generalize w.construct id plan = y at hrecords hupholds hhas ⊢
    obtain ⟨result, w'⟩ := y
    cases result with
    | error fault => exact ⟨hrecords, hupholds, fun _ hg => nomatch hg⟩
    | ok g =>
      refine ⟨hrecords, hupholds, fun g' hg' => ?_⟩
      cases hg'
      exact hhas g rfl
  next => exact ⟨.refl w, h.upholds, fun _ hg => nomatch hg⟩

end

end Workspace

end Packrat
