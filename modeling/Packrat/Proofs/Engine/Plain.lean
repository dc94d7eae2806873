import Packrat.Engine.Build

/-!
# Closed, uncached and plain blueprints

A blueprint is *closed* when every name in it is that of an enclosing rule and every operator of it
has a token: such a blueprint can be built anywhere, and so can the bodies of its rules.

Two transformations take the caches out of a blueprint. `uncached` does it piece by piece: a cached
parser becomes the parser itself and an operator level is built over its bare operand. `plain` goes
further and leaves nothing that has a cache or a counter of its own: an operator level is spelled
out as the chain of sequences, choices and repetitions that it stands for. Either keeps a blueprint
closed, and neither changes what `plain` makes of it.
-/

namespace Packrat

/-! ## Chains

A chain is a level without its caches. The operators are those of the level, numbered in the order
in which they are tried. -/

/-- One step of a chain: the operator with the given number, and the operand on its inner side. -/
def Assoc.link (assoc : Assoc) (operand : Blueprint) (index : Nat) (token : String) : Blueprint :=
  .map (.pair (.number index)) <|
    match assoc with
    | .left => .right (.literal token) operand
    | .right => .left operand (.literal token)

/-- The first of many that matches. -/
def Blueprint.firstOf (options : List Blueprint) : Blueprint :=
  options.foldr .alt .never

/-- One link for each operator, in the order they are tried, as often as one matches. -/
def Assoc.links (assoc : Assoc) (operand : Blueprint) (ops : List Operator) : Blueprint :=
  .rep (.firstOf (ops.zipIdx.map fun (op, index) => assoc.link operand index op.token))

/-- A chain of operators in the order they are tried, or else a single operand. -/
def Assoc.chain (assoc : Assoc) (operand : Blueprint) (ops : List Operator) : Blueprint :=
  .alt
    (match assoc with
      | .left => .map (Operator.foldLeft ops) (.seq operand (assoc.links operand ops))
      | .right => .map (Operator.foldRight ops) (.seq (assoc.links operand ops) operand))
    operand

namespace Blueprint

/-! ## Taking the caches out

The two transformations stop at different points. Without caches a blueprint is built into a grammar
of the same shape; a plain one may be built into a longer one, since it has no levels. -/

/-- The blueprint with every cached parser replaced by the parser itself and every operator level
built over its bare operand. That is the choice as it would be written without caches: the one whose
every option is cached becomes the bare choice among the same options (`uncached_oneOf`). -/
def uncached : Blueprint → Blueprint
  | .map f p => .map f p.uncached
  | .tryMap f p => .tryMap f p.uncached
  | .seq a b => .seq a.uncached b.uncached
  | .alt a b => .alt a.uncached b.uncached
  | .rep p => .rep p.uncached
  | .required message p => .required message p.uncached
  | .memo _ p => p.uncached
  | .count name p => .count name p.uncached
  | .level assoc ops _ operand => .level assoc ops false operand.uncached
  | .rule label body => .rule label body.uncached
  | p => p

/-- The blueprint without caches and counters, and with its operator levels spelled out. -/
def plain : Blueprint → Blueprint
  | .map f p => .map f p.plain
  | .tryMap f p => .tryMap f p.plain
  | .seq a b => .seq a.plain b.plain
  | .alt a b => .alt a.plain b.plain
  | .rep p => .rep p.plain
  | .required message p => .required message p.plain
  | .memo _ p => p.plain
  | .count _ p => p.plain
  | .level assoc ops _ operand => assoc.chain operand.plain (Operator.longestFirst ops)
  | .rule label body => .rule label body.plain
  | p => p

/-- A choice among many, each of them cached, becomes the choice among the same parsers without
their caches; among none, it matches nothing. -/
theorem uncached_oneOf (options : List Blueprint) :
    (oneOf options).uncached = firstOf (options.map uncached) := by
  induction options with
  | nil => rfl
  | cons p options ih =>
    show Blueprint.alt p.uncached (oneOf options).uncached = _
    rw [ih]
    rfl

theorem plain_firstOf (options : List Blueprint) :
    (firstOf options).plain = firstOf (options.map plain) := by
  induction options with
  | nil => rfl
  | cons p options ih =>
    show Blueprint.alt p.plain (firstOf options).plain = _
    rw [ih]
    rfl

/-- Making a step plain makes its operand plain. -/
theorem plain_link (assoc : Assoc) (operand : Blueprint) (index : Nat) (token : String) :
    (assoc.link operand index token).plain = assoc.link operand.plain index token := by
  cases assoc <;> rfl

theorem plain_links (assoc : Assoc) (operand : Blueprint) (ops : List Operator) :
    (assoc.links operand ops).plain = assoc.links operand.plain ops := by
  show Blueprint.rep (firstOf _).plain = _
  rw [plain_firstOf, List.map_map]
  refine congrArg (fun xs => Blueprint.rep (firstOf xs)) (List.map_congr_left ?_)
  rintro ⟨op, index⟩ _
  exact plain_link assoc operand index op.token

/-- Making a chain plain makes its operand plain. -/
theorem plain_chain (assoc : Assoc) (operand : Blueprint) (ops : List Operator) :
    (assoc.chain operand ops).plain = assoc.chain operand.plain ops := by
  unfold Assoc.chain
  cases assoc <;> simp only [plain, plain_links]

/-- A plain blueprint is left as it is. -/
@[simp] theorem plain_plain (b : Blueprint) : b.plain.plain = b.plain := by
  induction b with
  -- the one kind of blueprint that becomes another kind
  | level assoc ops cached operand ih => simp only [plain, plain_chain, ih]
  | _ => simp_all only [plain]

/-- Caches make no difference to what is left without them. -/
@[simp] theorem plain_uncached (b : Blueprint) : b.uncached.plain = b.plain := by
  induction b with
  | _ => simp_all only [plain, uncached]

/-! ## Closed blueprints

A closed blueprint needs nothing that has been registered or exposed elsewhere, so that building it
cannot fail. -/

/-- Whether a blueprint can be built inside rules of the given names, and the bodies of its rules
too: every name in it is that of an enclosing rule, and every operator has a token. -/
def closed (names : List String) : Blueprint → Bool
  | .literal _ => true
  | .chars _ => true
  | .accept _ => true
  | .map _ p => p.closed names
  | .tryMap _ p => p.closed names
  | .seq a b => a.closed names && b.closed names
  | .alt a b => a.closed names && b.closed names
  | .rep p => p.closed names
  | .required _ p => p.closed names
  | .memo _ p => p.closed names
  | .count _ p => p.closed names
  | .level _ ops _ operand => !(ops.any fun op => op.token.isEmpty) && operand.closed names
  | .rule label body => body.closed (label.name :: names)
  | .self name => names.contains name
  | .exposed _ => false
  | .registered _ => false
  | .registeredMemo _ => false
  | .unreadable _ => false

/-- The operators of a closed level have tokens. -/
theorem token_ne_nil_of_closed {names : List String} {assoc : Assoc} {ops : List Operator}
    {cached : Bool} {operand : Blueprint}
    (h : (level assoc ops cached operand).closed names = true) :
    ∀ op ∈ ops, op.token.toList ≠ [] := by
  simp only [closed, Bool.and_eq_true, Bool.not_eq_true', List.any_eq_false] at h
  intro op hop hnil
  exact h.1 op hop (String.isEmpty_iff.2 (String.toList_eq_nil_iff.1 hnil))

/-- What is closed stays closed without its caches. -/
theorem closed_uncached {names : List String} {b : Blueprint} (h : b.closed names = true) :
    b.uncached.closed names = true := by
  induction b generalizing names with
  | _ => simp_all [closed, uncached]

theorem closed_firstOf {names : List String} {options : List Blueprint}
    (h : ∀ p ∈ options, p.closed names = true) : (firstOf options).closed names = true := by
  induction options with
  | nil => rfl
  | cons p options ih =>
    show (p.closed names && (firstOf options).closed names) = true
    rw [h p List.mem_cons_self, ih fun q hq => h q (List.mem_cons_of_mem p hq)]
    rfl

theorem closed_link {names : List String} (assoc : Assoc) {operand : Blueprint}
    (h : operand.closed names = true) (index : Nat) (token : String) :
    (assoc.link operand index token).closed names = true := by
  cases assoc <;> simp [Assoc.link, Blueprint.right, Blueprint.left, closed, h]

/-- A chain is closed if its operand is. -/
theorem closed_chain {names : List String} (assoc : Assoc) {operand : Blueprint}
    (h : operand.closed names = true) (ops : List Operator) :
    (assoc.chain operand ops).closed names = true := by
  have hlinks : (assoc.links operand ops).closed names = true := by
    refine closed_firstOf ?_
    simp only [List.mem_map, forall_exists_index, and_imp]
    rintro p ⟨op, index⟩ _ rfl
    exact closed_link assoc h index op.token
  cases assoc <;> simp [Assoc.chain, closed, h, hlinks]

/-- What is closed stays closed in its plain form. -/
theorem closed_plain {names : List String} {b : Blueprint} (h : b.closed names = true) :
    b.plain.closed names = true := by
  induction b generalizing names with
  | level assoc ops cached operand ih =>
    have hoperand : operand.closed names = true := by simp_all [closed]
    exact closed_chain assoc (ih hoperand) _
  | _ => simp_all [closed, plain]

end Blueprint

end Packrat
