import Packrat.Proofs.Tree.Overflow

/-!
# S-expressions are read in one way

The written form of a module is known to come from that module alone, whatever its names are: even
the words `fn` and `let`, which also stand before functions and bindings.

* **`Group`** — words and groups of groups, and their text. A text is the text of one group
  (**`Group.known`**): a word goes on to the next blank or parenthesis, and a group to its
  closing parenthesis.
* **`Expr.group`** — an expression as a group. Calls are groups of two, operations of three and
  functions of four, so that the words in front need not be told from names.
* **`Module.sexp_inj`** — so modules with the same S-expressions are equal.
-/

namespace Packrat

open Packrat.Language

/-! ## Groups

What is written between parentheses is a text with a structure of its own, whatever the words in it
mean. -/

/-- A word, or a list of groups between parentheses. -/
inductive Group where
  | word (letters : List Char)
  | list (items : List Group)

/-- The characters that words are made of: neither parentheses nor what stands between groups. -/
def isInner (c : Char) : Bool :=
  c ∉ ['(', ')', ' ', '\n']

namespace Group

mutual

/-- The text of a group. -/
def text : Group → List Char
  | .word letters => letters
  | .list items => '(' :: (texts ' ' items ++ [')'])

/-- The texts of some groups, with a separator between each two. -/
def texts (separator : Char) : List Group → List Char
  | [] => []
  | g :: gs => g.text ++ moreTexts separator gs

/-- The texts of some groups, each after a separator. -/
def moreTexts (separator : Char) : List Group → List Char
  | [] => []
  | g :: gs => separator :: (g.text ++ moreTexts separator gs)

end

mutual

/-- No word is empty, and words are made of the characters that they should be. -/
def Plain : Group → Prop
  | .word letters => letters ≠ [] ∧ ∀ c ∈ letters, isInner c = true
  | .list items => AllPlain items

/-- All groups are plain. -/
def AllPlain : List Group → Prop
  | [] => True
  | g :: gs => g.Plain ∧ AllPlain gs

end

/-- A group begins with a character of a word or with a parenthesis. -/
theorem Plain.exists_head {g : Group} (h : g.Plain) :
    ∃ c cs, g.text = c :: cs ∧ (isInner c = true ∨ c = '(') := by
  cases g with
  | word letters =>
    obtain ⟨c, cs, rfl⟩ := List.exists_cons_of_ne_nil h.1
    exact ⟨c, cs, rfl, .inl (h.2 c List.mem_cons_self)⟩
  | list items => exact ⟨'(', _, rfl, .inr rfl⟩

/-- What stands behind a list of groups does not begin like a group. -/
theorem Plain.ne_append {g : Group} (hg : g.Plain) {rest : List Char} (hhalts : Halts isInner rest)
    (hopening : rest.head? ≠ some '(') (more : List Char) : rest ≠ g.text ++ more := by
  rintro rfl
  obtain ⟨c, cs, htext, hc⟩ := hg.exists_head
  rw [htext] at hhalts hopening
  rcases hc with hc | rfl
  · exact absurd hc (Bool.eq_false_iff.1 (hhalts c rfl))
  · exact hopening rfl

theorem allPlain_iff {gs : List Group} : AllPlain gs ↔ ∀ g ∈ gs, g.Plain := by
  induction gs with
  | nil => exact iff_of_true trivial (List.forall_mem_nil _)
  | cons g gs ih => rw [AllPlain, ih, List.forall_mem_cons]

/-- Groups after the first one are a chain with the separator. -/
theorem moreTexts_eq (separator : Char) (gs : List Group) :
    moreTexts separator gs = chain [separator] text gs := by
  induction gs with
  | nil => rfl
  | cons g gs ih => rw [moreTexts, chain, ih, List.singleton_append]

section

variable {separator : Char} {rest rest' : List Char}

/-- Where the separator stands before the first group as well, nothing else is different. -/
theorem chain_eq_of_texts {gs hs : List Group} (hgs : AllPlain gs) (hhs : AllPlain hs)
    (hrest : Halts isInner rest) (hopening : rest.head? ≠ some '(')
    (hrest' : Halts isInner rest') (hopening' : rest'.head? ≠ some '(')
    (heq : texts separator gs ++ rest = texts separator hs ++ rest') :
    chain [separator] text gs ++ rest = chain [separator] text hs ++ rest' := by
  match gs, hs with
  | [], [] => exact heq
  | [], h :: hs =>
    rw [texts, texts, List.append_assoc] at heq
    exact absurd heq (hhs.1.ne_append hrest hopening _)
  | g :: gs, [] =>
    rw [texts, texts, List.append_assoc] at heq
    exact absurd heq.symm (hgs.1.ne_append hrest' hopening' _)
  | g :: gs, h :: hs =>
    rw [← moreTexts_eq, ← moreTexts_eq]
    exact congrArg (List.cons separator) heq

/-- Some groups are known by their texts, if each of them is known by its own. -/
theorem texts_inj {gs hs : List Group} (hseparator : isInner separator = false)
    (hknown : ∀ g ∈ gs, Known isInner text Plain g) (hgs : AllPlain gs) (hhs : AllPlain hs)
    (hrest : Concludes isInner separator rest) (hopening : rest.head? ≠ some '(')
    (hrest' : Concludes isInner separator rest') (hopening' : rest'.head? ≠ some '(')
    (heq : texts separator gs ++ rest = texts separator hs ++ rest') : gs = hs ∧ rest = rest' :=
  chain_inj hseparator hknown (allPlain_iff.1 hhs) hrest hrest'
    (chain_eq_of_texts hgs hhs hrest.halts hopening hrest'.halts hopening' heq)

end

/-- No word begins like a group of groups. -/
theorem not_word_list {letters : List Char} (hword : (word letters).Plain) (items : List Group)
    (rest rest' : List Char) : letters ++ rest ≠ (list items).text ++ rest' := by
  obtain ⟨c, cs, rfl⟩ := List.exists_cons_of_ne_nil hword.1
  intro heq
  have hc : c = '(' := (List.cons.inj heq).1
  have hinner := hword.2 c List.mem_cons_self
  rw [hc] at hinner
  exact absurd hinner (by decide)

mutual

/-- Every group is known by its text. -/
theorem known : (g : Group) → g.Plain → Known isInner text Plain g
  | .word letters, hg => by
    intro h rest rest' hh hrest hrest' heq
    cases h with
    | word letters' =>
      obtain ⟨rfl, hrests⟩ := run_append_inj hg.2 hh.2 hrest hrest' heq
      exact ⟨rfl, hrests⟩
    | list items => exact absurd heq (not_word_list hg items rest rest')
  | .list items, hg => by
    intro h rest rest' hh hrest hrest' heq
    cases h with
    | word letters => exact absurd heq.symm (not_word_list hh items rest' rest)
    | list items' =>
      have hitems : texts ' ' items ++ (')' :: rest) = texts ' ' items' ++ (')' :: rest') := by
        simpa [text] using heq
      have hconcludes (rest : List Char) : Concludes isInner ' ' (')' :: rest) :=
        concludes_cons (by decide) (by decide) rest
      obtain ⟨rfl, hrests⟩ := texts_inj (by decide) (allKnown items hg) hg hh (hconcludes rest)
        (by simp) (hconcludes rest') (by simp) hitems
      exact ⟨rfl, (List.cons.inj hrests).2⟩

/-- All of some groups are known by their texts. -/
theorem allKnown : (gs : List Group) → AllPlain gs → ∀ g ∈ gs, Known isInner text Plain g
  | [], _ => List.forall_mem_nil _
  | g :: gs, h => List.forall_mem_cons.2 ⟨g.known h.1, allKnown gs h.2⟩

end

end Group

/-! ## Trees as groups

The written form of a tree is the text of a group. Trees are turned into groups along their
constructors. -/

mutual

/-- An expression as a group. -/
def Expr.group : Expr → Group
  | .real x => .word (Sexp.number.write x).toList
  | .ref name => .word name.toList
  | .call callee argument => .list [callee.group, argument.group]
  | .fn param bindings body =>
    .list [.word "fn".toList, .word param.toList, .list (Binding.groups bindings), body.group]
  | .bin op lhs rhs => .list [.word op.symbol.toList, lhs.group, rhs.group]

/-- A binding as a group. -/
def Binding.group : Binding → Group
  | .mk name value => .list [.word "let".toList, .word name.toList, value.group]

/-- Some bindings as groups. -/
def Binding.groups : List Binding → List Group
  | [] => []
  | b :: bs => b.group :: Binding.groups bs

end

mutual

/-- The S-expression of an expression is the text of its group. -/
theorem Expr.sexp_toList : (e : Expr) → e.sexp.toList = e.group.text
  | .real x => rfl
  | .ref name => rfl
  | .call callee argument => by
    simp [Expr.sexp, Expr.group, Group.text, Group.texts, Group.moreTexts, callee.sexp_toList,
      argument.sexp_toList]
  | .fn param bindings body => by
    simp [Expr.sexp, Expr.group, Group.text, Group.texts, Group.moreTexts, body.sexp_toList,
      Binding.sexps_toList " " ' ' rfl bindings]
  | .bin op lhs rhs => by
    simp [Expr.sexp, Expr.group, Group.text, Group.texts, Group.moreTexts, lhs.sexp_toList,
      rhs.sexp_toList]

theorem Binding.sexp_toList : (b : Binding) → b.sexp.toList = b.group.text
  | .mk name value => by
    simp [Binding.sexp, Binding.group, Group.text, Group.texts, Group.moreTexts, value.sexp_toList]

theorem Binding.sexps_toList (separator : String) (c : Char) (hseparator : separator.toList = [c]) :
    (bs : List Binding) → (Binding.sexps separator bs).toList = Group.texts c (Binding.groups bs)
  | [] => rfl
  | b :: bs => by
    simp [Binding.sexps, Binding.groups, Group.texts, b.sexp_toList,
      Binding.moreSexps_toList separator c hseparator bs]

theorem Binding.moreSexps_toList (separator : String) (c : Char)
    (hseparator : separator.toList = [c]) : (bs : List Binding) →
      (Binding.moreSexps separator bs).toList = Group.moreTexts c (Binding.groups bs)
  | [] => rfl
  | b :: bs => by
    simp [Binding.moreSexps, Binding.groups, Group.moreTexts, b.sexp_toList, hseparator,
      Binding.moreSexps_toList separator c hseparator bs]

end

/-! ## Plain trees

Words end at a parenthesis or a blank, so what is written as a word must have neither in it. Runs of
letters, symbols and numbers have not. -/

/-- Names are runs of letters, and reals are finite. -/
def Item.Plain : Item → Prop
  | .keyword => True
  | .name letters => IsName letters.toList
  | .real value => value.isFinite = true

/-- A run of letters is a word. -/
theorem plain_of_isName {cs : List Char} (h : IsName cs) : (Group.word cs).Plain := by
  refine ⟨h.1, fun c hc => ?_⟩
  have hall : ∀ d ∈ CharClass.letters.members, isInner d = true := forall_mem_of_all (by decide)
  exact hall c (List.contains_iff_mem.1 (h.letters c hc))

/-- A number is a word. -/
theorem plain_of_isNumber {cs : List Char} (h : Json.IsNumber cs) : (Group.word cs).Plain := by
  obtain ⟨c, ds, hcs, _⟩ := h.exists_head
  refine ⟨?_, h.forall_mem (forall_mem_of_all (by decide))⟩
  rw [hcs]
  exact List.cons_ne_nil c ds

theorem plain_symbol (op : BinOp) : (Group.word op.symbol.toList).Plain := by
  cases op <;> exact ⟨by decide, forall_mem_of_all (by decide)⟩

/-- Finite reals are shown as numbers. -/
theorem isNumber_sexp {x : Binary64} (h : x.isFinite = true) :
    Json.IsNumber (Sexp.number.write x).toList :=
  NumberFormat.isNumber_write (.inl rfl) h

mutual

/-- The group of an expression with plain items is plain. -/
theorem Expr.group_plain : (e : Expr) → (∀ item ∈ e.items, item.Plain) → e.group.Plain
  | .real x, h => plain_of_isNumber (isNumber_sexp (h _ List.mem_cons_self))
  | .ref name, h => plain_of_isName (h (.name name) List.mem_cons_self)
  | .call callee argument, h =>
    have ⟨hcallee, hargument⟩ := List.forall_mem_append.1 h
    ⟨callee.group_plain hcallee, argument.group_plain hargument, trivial⟩
  | .fn param bindings body, h =>
    have ⟨hparam, hrest⟩ := List.forall_mem_cons.1 h
    have ⟨hbindings, hbody⟩ := List.forall_mem_append.1 hrest
    ⟨plain_of_isName (by decide), plain_of_isName hparam,
      Binding.groups_plain bindings hbindings, body.group_plain hbody, trivial⟩
  | .bin op lhs rhs, h =>
    have ⟨hlhs, hrhs⟩ := List.forall_mem_append.1 h
    ⟨plain_symbol op, lhs.group_plain hlhs, rhs.group_plain hrhs, trivial⟩

theorem Binding.group_plain : (b : Binding) → (∀ item ∈ b.items, item.Plain) → b.group.Plain
  | .mk name value, h =>
    have ⟨hname, hvalue⟩ := List.forall_mem_cons.1 (List.forall_mem_cons.1 h).2
    ⟨plain_of_isName (by decide), plain_of_isName hname, value.group_plain hvalue, trivial⟩

theorem Binding.groups_plain : (bs : List Binding) →
    (∀ item ∈ Binding.allItems bs, item.Plain) → Group.AllPlain (Binding.groups bs)
  | [], _ => trivial
  | b :: bs, h =>
    have ⟨hb, hbs⟩ := List.forall_mem_append.1 h
    ⟨b.group_plain hb, Binding.groups_plain bs hbs⟩

end

/-- Operators are known by their symbols. -/
theorem BinOp.symbol_inj {op op' : BinOp} (h : op.symbol = op'.symbol) : op = op' := by
  cases op <;> cases op' <;> first | rfl | exact absurd h (by decide)

mutual

/-- An expression is known by its group: expressions of different kinds are groups of different
lengths, or words that are numbers and words that are names. -/
theorem Expr.group_inj : (e : Expr) → {e' : Expr} → (∀ item ∈ e.items, item.Plain) →
    (∀ item ∈ e'.items, item.Plain) → e.group = e'.group → e = e'
  | .real x, e', h, h', heq => by
    have hx : x.isFinite = true := h (.real x) List.mem_cons_self
    cases e' with
    | real y =>
      have hy : y.isFinite = true := h' (.real y) List.mem_cons_self
      have hwrite := String.toList_inj.1 (Group.word.inj heq)
      rw [NumberFormat.write_inj (.inl rfl) hx hy hwrite]
    | ref name =>
      have hname : IsName name.toList := h' (.name name) List.mem_cons_self
      rw [← Group.word.inj heq] at hname
      exact absurd hname (isNumber_sexp hx).not_isName
    | _ => cases heq
  | .ref name, e', h, h', heq => by
    have hname : IsName name.toList := h (.name name) List.mem_cons_self
    cases e' with
    | real y =>
      have hy : y.isFinite = true := h' (.real y) List.mem_cons_self
      rw [Group.word.inj heq] at hname
      exact absurd hname (isNumber_sexp hy).not_isName
    | ref name' => rw [String.toList_inj.1 (Group.word.inj heq)]
    | _ => cases heq
  | .call callee argument, e', h, h', heq => by
    have ⟨hcallee, hargument⟩ := List.forall_mem_append.1 h
    cases e' with
    | call callee' argument' =>
      have ⟨hcallee', hargument'⟩ := List.forall_mem_append.1 h'
      simp only [Expr.group, Group.list.injEq, List.cons.injEq] at heq
      rw [callee.group_inj hcallee hcallee' heq.1, argument.group_inj hargument hargument' heq.2.1]
    | _ => simp [Expr.group] at heq
  | .fn param bindings body, e', h, h', heq => by
    have ⟨_, hrest⟩ := List.forall_mem_cons.1 h
    have ⟨hbindings, hbody⟩ := List.forall_mem_append.1 hrest
    cases e' with
    | fn param' bindings' body' =>
      have ⟨_, hrest'⟩ := List.forall_mem_cons.1 h'
      have ⟨hbindings', hbody'⟩ := List.forall_mem_append.1 hrest'
      simp only [Expr.group, Group.list.injEq, List.cons.injEq, Group.word.injEq] at heq
      obtain ⟨_, hparam, hgroups, hgroup, _⟩ := heq
      rw [String.toList_inj.1 hparam, Binding.groups_inj bindings hbindings hbindings' hgroups,
        body.group_inj hbody hbody' hgroup]
    | _ => simp [Expr.group] at heq
  | .bin op lhs rhs, e', h, h', heq => by
    have ⟨hlhs, hrhs⟩ := List.forall_mem_append.1 h
    cases e' with
    | bin op' lhs' rhs' =>
      have ⟨hlhs', hrhs'⟩ := List.forall_mem_append.1 h'
      simp only [Expr.group, Group.list.injEq, List.cons.injEq, Group.word.injEq] at heq
      obtain ⟨hop, hgroup, hgroup', _⟩ := heq
      rw [BinOp.symbol_inj (String.toList_inj.1 hop), lhs.group_inj hlhs hlhs' hgroup,
        rhs.group_inj hrhs hrhs' hgroup']
    | _ => simp [Expr.group] at heq

theorem Binding.group_inj : (b : Binding) → {b' : Binding} → (∀ item ∈ b.items, item.Plain) →
    (∀ item ∈ b'.items, item.Plain) → b.group = b'.group → b = b'
  | .mk name value, .mk name' value', h, h', heq => by
    have hvalue := (List.forall_mem_cons.1 (List.forall_mem_cons.1 h).2).2
    have hvalue' := (List.forall_mem_cons.1 (List.forall_mem_cons.1 h').2).2
    simp only [Binding.group, Group.list.injEq, List.cons.injEq, Group.word.injEq] at heq
    obtain ⟨_, hname, hgroup, _⟩ := heq
    rw [String.toList_inj.1 hname, value.group_inj hvalue hvalue' hgroup]

theorem Binding.groups_inj : (bs : List Binding) → {bs' : List Binding} →
    (∀ item ∈ Binding.allItems bs, item.Plain) → (∀ item ∈ Binding.allItems bs', item.Plain) →
    Binding.groups bs = Binding.groups bs' → bs = bs'
  | [], [], _, _, _ => rfl
  | [], _ :: _, _, _, heq => by cases heq
  | _ :: _, [], _, _, heq => by cases heq
  | b :: bs, b' :: bs', h, h', heq => by
    have ⟨hb, hbs⟩ := List.forall_mem_append.1 h
    have ⟨hb', hbs'⟩ := List.forall_mem_append.1 h'
    obtain ⟨hgroup, hgroups⟩ := List.cons.inj heq
    rw [b.group_inj hb hb' hgroup, Binding.groups_inj bs hbs hbs' hgroups]

end

theorem Module.plain_items {m : Module} (hnames : ∀ s ∈ m.names, IsName s.toList)
    (hreals : ∀ x ∈ m.reals, x.isFinite = true) : ∀ item ∈ m.items, item.Plain := by
  intro item hitem
  cases item with
  | keyword => trivial
  | name s => exact hnames s (Module.mem_names.2 hitem)
  | real x => exact hreals x (Module.mem_reals.2 hitem)

/-- **A module is known by its S-expressions**, if its names are runs of letters, however they are
spelled, and its reals are finite. -/
theorem Module.sexp_inj {m₁ m₂ : Module}
    (hnames₁ : ∀ s ∈ m₁.names, IsName s.toList) (hreals₁ : ∀ x ∈ m₁.reals, x.isFinite = true)
    (hnames₂ : ∀ s ∈ m₂.names, IsName s.toList) (hreals₂ : ∀ x ∈ m₂.reals, x.isFinite = true) :
    m₁.sexp = m₂.sexp ↔ m₁ = m₂ := by
  refine ⟨fun h => ?_, fun h => h ▸ rfl⟩
  have hplain₁ := plain_items hnames₁ hreals₁
  have hplain₂ := plain_items hnames₂ hreals₂
  have htexts := congrArg String.toList h
  unfold sexp at htexts
  rw [Binding.sexps_toList "\n" '\n' rfl, Binding.sexps_toList "\n" '\n' rfl] at htexts
  have hgroups₁ := Binding.groups_plain _ hplain₁
  have hend := concludes_nil isInner '\n'
  obtain ⟨hgroups, _⟩ := Group.texts_inj (by decide) (Group.allKnown _ hgroups₁) hgroups₁
    (Binding.groups_plain _ hplain₂) hend nofun hend nofun (congrArg (· ++ []) htexts)
  exact congrArg Module.mk (Binding.groups_inj _ hplain₁ hplain₂ hgroups)

/-- A call of something named like the word for functions, and a function whose parameter is. -/
theorem Module.sexp_keywords_ne :
    Module.sexp ⟨[.mk "let" (.call (.ref "fn") (.real ⟨0⟩))]⟩
      ≠ Module.sexp ⟨[.mk "let" (.fn "fn" [] (.real ⟨0⟩))]⟩ := by
  intro h
  have heq := (Module.sexp_inj (by decide) (by decide) (by decide) (by decide)).1 h
  exact absurd heq (by decide)

end Packrat
