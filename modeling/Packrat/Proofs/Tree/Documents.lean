import Packrat.Proofs.Tree.Overflow

/-!
# Documents are read in one way

Both written forms of a JSON document are known to come from that document alone, and the document
of a module from that module.

* **`Json.text`** — the text of a document with any layout; the compact and the indented form are
  two layouts (**`Json.compact_toList`**, **`Json.pretty_toList`**).
* **`Json.quote_append_inj`** — strings with their escapes: each character can be read off the text
  (**`Json.unescape`**).
* **`Json.known`** — a document is known by its text, if its numbers are words.
* **`Module.written_json_inj`** — so modules with the same document are equal, whether they have
  been read or have finite reals only. Of what has been read, only infinity is written `null`.
-/

namespace Packrat

open Packrat.Language

namespace Json

/-! ## Strings

A string is written character by character. What stands for a character can be read back from the
beginning of the text, and no such text begins with the quote that ends the string. -/

/-- The value of a digit in base sixteen. -/
def hexValue (c : Char) : Nat :=
  "0123456789abcdef".toList.idxOf c

/-- The character that a string begins with, and what follows it. -/
def unescape : List Char → Option (Char × List Char)
  | '\\' :: 'u' :: _ :: _ :: high :: low :: rest =>
    some (Char.ofNat (16 * hexValue high + hexValue low), rest)
  | '\\' :: 'b' :: rest => some (Char.ofNat 0x08, rest)
  | '\\' :: 'f' :: rest => some (Char.ofNat 0x0C, rest)
  | '\\' :: 'n' :: rest => some ('\n', rest)
  | '\\' :: 'r' :: rest => some ('\r', rest)
  | '\\' :: 't' :: rest => some ('\t', rest)
  | '\\' :: c :: rest => some (c, rest)
  | c :: rest => some (c, rest)
  | [] => none

/-- A character that is no backslash stands for itself. -/
theorem unescape_cons {c : Char} (hc : c ≠ '\\') (rest : List Char) :
    unescape (c :: rest) = some (c, rest) := by
  unfold unescape
  split <;> simp_all

theorem stringChar_eq {c : Char} (hquote : c ≠ '"') (hslash : c ≠ '\\') (hc : ¬c.toNat < 0x20) :
    stringChar c = [c] := by
  have hcontrol {d : Char} (hd : d.toNat < 0x20) : c ≠ d := by
    rintro rfl
    exact hc hd
  rw [stringChar, if_neg hquote, if_neg hslash, if_neg (by omega), if_neg (by omega),
    if_neg (hcontrol (by decide)), if_neg (hcontrol (by decide)), if_neg (hcontrol (by decide)),
    if_neg (by omega), if_neg hc]

/-- What has been escaped can be read again. -/
theorem unescape_stringChar (c : Char) (rest : List Char) :
    unescape (stringChar c ++ rest) = some (c, rest) := by
  by_cases hcontrol : c.toNat < 0x20
  · rw [← Char.ofNat_toNat c]
    interval_cases c.toNat <;> rfl
  · by_cases hquote : c = '"'
    · rw [hquote]
      rfl
    · by_cases hslash : c = '\\'
      · rw [hslash]
        rfl
      · rw [stringChar_eq hquote hslash hcontrol]
        exact unescape_cons hslash rest

/-- Every character of a string is known by how it is written. -/
theorem stringChar_append_inj {c d : Char} {rest rest' : List Char}
    (h : stringChar c ++ rest = stringChar d ++ rest') : c = d ∧ rest = rest' := by
  have hsame := congrArg unescape h
  rw [unescape_stringChar, unescape_stringChar] at hsame
  exact Prod.mk.inj (Option.some.inj hsame)

/-- No character is written with a quote in front. -/
theorem stringChar_ne_quote (c : Char) (rest more : List Char) :
    stringChar c ++ rest ≠ '"' :: more := by
  intro h
  by_cases hquote : c = '"'
  · rw [hquote] at h
    cases h
  · have hsame := congrArg unescape h
    rw [unescape_stringChar, unescape_cons (by decide)] at hsame
    exact hquote (Prod.mk.inj (Option.some.inj hsame)).1

/-- The characters of a string are known up to its quote. -/
theorem chars_append_inj {cs ds rest rest' : List Char}
    (h : cs.flatMap stringChar ++ '"' :: rest = ds.flatMap stringChar ++ '"' :: rest') :
    cs = ds ∧ rest = rest' := by
  induction cs generalizing ds with
  | nil =>
    cases ds with
    | nil => exact ⟨rfl, (List.cons.inj h).2⟩
    | cons d ds =>
      rw [List.flatMap_cons, List.append_assoc] at h
      exact absurd h.symm (stringChar_ne_quote d _ _)
  | cons c cs ih =>
    cases ds with
    | nil =>
      rw [List.flatMap_cons, List.append_assoc] at h
      exact absurd h (stringChar_ne_quote c _ _)
    | cons d ds =>
      rw [List.flatMap_cons, List.flatMap_cons, List.append_assoc, List.append_assoc] at h
      obtain ⟨rfl, hmore⟩ := stringChar_append_inj h
      obtain ⟨rfl, hrests⟩ := ih hmore
      exact ⟨rfl, hrests⟩

theorem quote_toList (s : String) :
    (quote s).toList = '"' :: (s.toList.flatMap stringChar ++ ['"']) := by
  rw [quote, String.toList_ofList]
  rfl

/-- A string is known by its text, whatever follows it. -/
theorem quote_append_inj {s t : String} {rest rest' : List Char}
    (h : (quote s).toList ++ rest = (quote t).toList ++ rest') : s = t ∧ rest = rest' := by
  have hchars : s.toList.flatMap stringChar ++ '"' :: rest
      = t.toList.flatMap stringChar ++ '"' :: rest' := by
    simpa [quote_toList] using h
  obtain ⟨hsame, hrests⟩ := chars_append_inj hchars
  exact ⟨String.toList_inj.1 hsame, hrests⟩

/-! ## Layouts

Both written forms are one text with different blanks, so what is known of documents by their texts
is said once, of any layout. -/

/-- How a document is laid out: the blanks before an item and before the end of a list, by their
depth, and what stands between a name and its value. -/
structure Layout where
  indent : Nat → List Char
  colon : List Char
  blank : ∀ depth, ∀ c ∈ indent depth, c ∈ ['\n', ' ']

/-- Everything on one line, without blanks. -/
def Layout.onOneLine : Layout where
  indent := fun _ => []
  colon := [':']
  blank := fun _ => List.forall_mem_nil _

/-- An item to a line, with two blanks for each level. -/
def Layout.indented : Layout where
  indent := fun depth => '\n' :: List.replicate (2 * depth) ' '
  colon := [':', ' ']
  blank := by
    intro depth c hc
    rcases List.mem_cons.1 hc with rfl | hc
    · decide
    · rw [List.eq_of_mem_replicate hc]
      decide

/-- What stands before the end of a list: nothing, if there is nothing in it. -/
def Layout.closing {α : Type} (l : Layout) (depth : Nat) : List α → List Char
  | [] => []
  | _ :: _ => l.indent depth

mutual

/-- The text of a document at the given depth. -/
def text (l : Layout) (depth : Nat) : Json → List Char
  | .number written => written.toList
  | .string value => (quote value).toList
  | .array items => '[' :: (textItems l (depth + 1) items ++ (l.closing depth items ++ [']']))
  | .object fields =>
    '\x7b' :: (textFields l (depth + 1) fields ++ (l.closing depth fields ++ ['\x7d']))

/-- The items of an array. -/
def textItems (l : Layout) (depth : Nat) : List Json → List Char
  | [] => []
  | item :: items => l.indent depth ++ (item.text l depth ++ moreItems l depth items)

/-- The items of an array, each after a comma. -/
def moreItems (l : Layout) (depth : Nat) : List Json → List Char
  | [] => []
  | item :: items => ',' :: (l.indent depth ++ (item.text l depth ++ moreItems l depth items))

/-- The fields of an object. -/
def textFields (l : Layout) (depth : Nat) : List (String × Json) → List Char
  | [] => []
  | (name, value) :: fields =>
    l.indent depth ++ ((quote name).toList ++ (l.colon ++ (value.text l depth
      ++ moreFields l depth fields)))

/-- The fields of an object, each after a comma. -/
def moreFields (l : Layout) (depth : Nat) : List (String × Json) → List Char
  | [] => []
  | (name, value) :: fields =>
    ',' :: (l.indent depth ++ ((quote name).toList ++ (l.colon ++ (value.text l depth
      ++ moreFields l depth fields))))

end

mutual

/-- The compact form is laid out on one line. -/
theorem compact_toList (depth : Nat) : (j : Json) → j.compact.toList = j.text .onOneLine depth
  | .number written => rfl
  | .string value => rfl
  | .array [] => rfl
  | .array (item :: items) => by
    simp [compact, text, Layout.closing, Layout.onOneLine,
      compactItems_toList (depth + 1) (item :: items)]
  | .object [] => rfl
  | .object (field :: fields) => by
    simp [compact, text, Layout.closing, Layout.onOneLine,
      compactFields_toList (depth + 1) (field :: fields)]

theorem compactItems_toList (depth : Nat) :
    (items : List Json) → (compactItems items).toList = textItems .onOneLine depth items
  | [] => rfl
  | [item] => by
    simp [compactItems, textItems, moreItems, Layout.onOneLine, item.compact_toList depth]
  | item :: next :: items => by
    simp [compactItems, textItems, moreItems, Layout.onOneLine, item.compact_toList depth,
      compactItems_toList depth (next :: items)]

theorem compactFields_toList (depth : Nat) : (fields : List (String × Json)) →
    (compactFields fields).toList = textFields .onOneLine depth fields
  | [] => rfl
  | [(name, value)] => by
    simp [compactFields, textFields, moreFields, Layout.onOneLine, value.compact_toList depth]
  | (name, value) :: next :: fields => by
    simp [compactFields, textFields, moreFields, Layout.onOneLine, value.compact_toList depth,
      compactFields_toList depth (next :: fields)]

end

theorem newline_toList (depth : Nat) :
    (newline depth).toList = Layout.indented.indent depth :=
  String.toList_ofList

mutual

/-- The indented form is laid out with an item to a line. -/
theorem pretty_toList (depth : Nat) : (j : Json) → (j.pretty depth).toList = j.text .indented depth
  | .number written => rfl
  | .string value => rfl
  | .array [] => by
    rw [pretty]
    rfl
  | .array (item :: items) => by
    simp [pretty, text, Layout.closing, newline_toList,
      prettyItems_toList (depth + 1) (item :: items)]
  | .object [] => by
    rw [pretty]
    rfl
  | .object (field :: fields) => by
    simp [pretty, text, Layout.closing, newline_toList,
      prettyFields_toList (depth + 1) (field :: fields)]

theorem prettyItems_toList (depth : Nat) :
    (items : List Json) → (prettyItems depth items).toList = textItems .indented depth items
  | [] => rfl
  | [item] => by
    simp [prettyItems, textItems, moreItems, newline_toList, item.pretty_toList depth]
  | item :: next :: items => by
    simp [prettyItems, textItems, moreItems, newline_toList, item.pretty_toList depth,
      prettyItems_toList depth (next :: items)]

theorem prettyFields_toList (depth : Nat) : (fields : List (String × Json)) →
    (prettyFields depth fields).toList = textFields .indented depth fields
  | [] => rfl
  | [(name, value)] => by
    simp [prettyFields, textFields, moreFields, newline_toList, Layout.indented,
      value.pretty_toList depth]
  | (name, value) :: next :: fields => by
    simp [prettyFields, textFields, moreFields, newline_toList, Layout.indented,
      value.pretty_toList depth, prettyFields_toList depth (next :: fields)]

end

/-! ## Lists

Arrays and objects are chains of things between commas, and end with a bracket that no thing begins
with. -/

/-- The characters of a number: neither what encloses a document nor what may follow it. -/
def isPart (c : Char) : Bool :=
  c ∉ ['"', '[', ']', '\x7b', '\x7d', ',', '\n', ' ']

/-- Some things with commas between them. -/
def listed {α : Type} (indent : List Char) (write : α → List Char) : List α → List Char
  | [] => []
  | a :: as => indent ++ (write a ++ chain (',' :: indent) write as)

/-- How a field is written. -/
def fieldText (l : Layout) (depth : Nat) (field : String × Json) : List Char :=
  (quote field.1).toList ++ (l.colon ++ field.2.text l depth)

/-- The items of an array after the first are a chain with commas. -/
theorem moreItems_eq (l : Layout) (depth : Nat) (items : List Json) :
    moreItems l depth items = chain (',' :: l.indent depth) (text l depth) items := by
  induction items with
  | nil => rfl
  | cons item items ih =>
    rw [moreItems, chain, ih]
    rfl

theorem textItems_eq (l : Layout) (depth : Nat) (items : List Json) :
    textItems l depth items = listed (l.indent depth) (text l depth) items := by
  cases items with
  | nil => rfl
  | cons item items => rw [textItems, listed, moreItems_eq]

theorem moreFields_eq (l : Layout) (depth : Nat) (fields : List (String × Json)) :
    moreFields l depth fields = chain (',' :: l.indent depth) (fieldText l depth) fields := by
  induction fields with
  | nil => rfl
  | cons field fields ih =>
    obtain ⟨name, value⟩ := field
    rw [moreFields, chain, ih, fieldText, List.append_assoc, List.append_assoc]
    rfl

theorem textFields_eq (l : Layout) (depth : Nat) (fields : List (String × Json)) :
    textFields l depth fields = listed (l.indent depth) (fieldText l depth) fields := by
  cases fields with
  | nil => rfl
  | cons field fields =>
    obtain ⟨name, value⟩ := field
    rw [textFields, listed, moreFields_eq, fieldText, List.append_assoc, List.append_assoc]

section

variable {α : Type} {write : α → List Char} {good : α → Prop} {l : Layout} {depth : Nat}
  {close : Char}

/-- Blanks, and then a character that ends a list. -/
theorem concludes_indent (hclose : close ∈ [']', '\x7d']) (l : Layout) (depth : Nat)
    (rest : List Char) : Concludes isPart ',' (l.indent depth ++ close :: rest) := by
  have hall : ∀ c ∈ ['\n', ' ', ']', '\x7d'], isPart c = false ∧ c ≠ ',' :=
    forall_mem_of_all (by decide)
  match hindent : l.indent depth with
  | [] =>
    obtain ⟨hpart, hne⟩ := hall close (List.mem_append_right ['\n', ' '] hclose)
    exact concludes_cons hpart hne rest
  | c :: cs =>
    have hblank : c ∈ ['\n', ' '] := l.blank depth c (by rw [hindent]; exact List.mem_cons_self)
    obtain ⟨hpart, hne⟩ := hall c (List.mem_append_left [']', '\x7d'] hblank)
    exact concludes_cons hpart hne _

/-- Where a list ends, there is no item. -/
theorem closing_ne (hclose : close ∈ [']', '\x7d']) {cs : List Char}
    (hcs : ∃ d ds, cs = d :: ds ∧ d ∉ [']', '\x7d']) (l : Layout) (depth : Nat)
    (rest more : List Char) : close :: rest ≠ l.indent depth ++ (cs ++ more) := by
  intro h
  obtain ⟨d, ds, rfl, hd⟩ := hcs
  match hindent : l.indent depth with
  | [] =>
    rw [hindent] at h
    exact hd ((List.cons.inj h).1 ▸ hclose)
  | c :: cs =>
    have hblank : c ∈ ['\n', ' '] := l.blank depth c (by rw [hindent]; exact List.mem_cons_self)
    rw [hindent] at h
    rw [← (List.cons.inj h).1] at hblank
    have hall : ∀ e ∈ [']', '\x7d'], e ∉ ['\n', ' '] := forall_mem_of_all (by decide)
    exact hall close hclose hblank

/-- The things in a list are known by its text, if each of them is known by its own. -/
theorem listed_inj (hclose : close ∈ [']', '\x7d'])
    (hheads : ∀ a, good a → ∃ d ds, write a = d :: ds ∧ d ∉ [']', '\x7d']) {as bs : List α}
    (hknown : ∀ a ∈ as, Known isPart write good a) (has : ∀ a ∈ as, good a)
    (hbs : ∀ b ∈ bs, good b) {rest rest' : List Char}
    (h : listed (l.indent (depth + 1)) write as ++ (l.closing depth as ++ close :: rest)
      = listed (l.indent (depth + 1)) write bs ++ (l.closing depth bs ++ close :: rest')) :
    as = bs ∧ rest = rest' := by
  match as, bs with
  | [], [] => exact ⟨rfl, (List.cons.inj h).2⟩
  | [], b :: bs =>
    rw [listed, listed, List.append_assoc, List.append_assoc] at h
    exact absurd h (closing_ne hclose (hheads b (hbs b List.mem_cons_self)) l _ _ _)
  | a :: as, [] =>
    rw [listed, listed, List.append_assoc, List.append_assoc] at h
    exact absurd h.symm (closing_ne hclose (hheads a (has a List.mem_cons_self)) l _ _ _)
  | a :: as, b :: bs =>
    have hchain := congrArg (List.cons ',') h
    obtain ⟨hsame, hrests⟩ := chain_inj (by decide) hknown hbs
      (concludes_indent hclose l depth rest) (concludes_indent hclose l depth rest') hchain
    exact ⟨hsame, (List.cons.inj (List.append_cancel_left hrests)).2⟩

end

/-! ## Documents

A document is known by its first character for what it is. Induction on the document: its items and
fields are known by their own texts. -/

/-- The number is written as a word. -/
def IsWord (written : String) : Prop :=
  written.toList ≠ [] ∧ ∀ c ∈ written.toList, isPart c = true

/-- All numbers of the document are words. -/
def Plain (j : Json) : Prop :=
  ∀ written ∈ j.numbers, IsWord written

theorem plain_array {items : List Json} :
    (Json.array items).Plain ↔ ∀ item ∈ items, item.Plain := by
  unfold Plain
  rw [numbers]
  induction items with
  | nil => exact iff_of_true (List.forall_mem_nil _) (List.forall_mem_nil _)
  | cons item items ih => rw [numbersOfItems, List.forall_mem_append, ih, List.forall_mem_cons]

theorem plain_object {fields : List (String × Json)} :
    (Json.object fields).Plain ↔ ∀ field ∈ fields, field.2.Plain := by
  unfold Plain
  rw [numbers]
  induction fields with
  | nil => exact iff_of_true (List.forall_mem_nil _) (List.forall_mem_nil _)
  | cons field fields ih =>
    obtain ⟨name, value⟩ := field
    rw [numbersOfFields, List.forall_mem_append, ih, List.forall_mem_cons]

/-- A number does not begin like any other document. -/
theorem IsWord.ne_cons {written : String} (h : IsWord written) {c : Char} (hc : isPart c = false)
    (rest more : List Char) : written.toList ++ rest ≠ c :: more := by
  obtain ⟨d, ds, hds⟩ := List.exists_cons_of_ne_nil h.1
  have hd := h.2 d (by rw [hds]; exact List.mem_cons_self)
  intro heq
  rw [hds] at heq
  rw [(List.cons.inj heq).1, hc] at hd
  cases hd

theorem Plain.exists_head {j : Json} (h : j.Plain) (l : Layout) (depth : Nat) :
    ∃ d ds, j.text l depth = d :: ds ∧ d ∉ [']', '\x7d'] := by
  cases j with
  | number written =>
    obtain ⟨hne, hparts⟩ : IsWord written := h written List.mem_cons_self
    obtain ⟨d, ds, hds⟩ := List.exists_cons_of_ne_nil hne
    have hpart := hparts d (by rw [hds]; exact List.mem_cons_self)
    refine ⟨d, ds, hds, fun hd => ?_⟩
    have hall : ∀ c ∈ [']', '\x7d'], isPart c = false := forall_mem_of_all (by decide)
    exact absurd hpart (Bool.eq_false_iff.1 (hall d hd))
  | string value => exact ⟨'"', _, quote_toList value, by decide⟩
  | array items => exact ⟨'[', _, rfl, by decide⟩
  | object fields => exact ⟨'\x7b', _, rfl, by decide⟩

theorem fieldText_exists_head (l : Layout) (depth : Nat) (field : String × Json) :
    ∃ d ds, fieldText l depth field = d :: ds ∧ d ∉ [']', '\x7d'] := by
  rw [fieldText, quote_toList]
  exact ⟨'"', _, rfl, by decide⟩

/-- A field is known by its text, if its value is. -/
theorem known_field {l : Layout} {depth : Nat} {field : String × Json}
    (h : Known isPart (text l depth) Plain field.2) :
    Known isPart (fieldText l depth) (fun other => other.2.Plain) field := by
  intro other rest rest' hother hrest hrest' heq
  rw [fieldText, fieldText, List.append_assoc, List.append_assoc, List.append_assoc,
    List.append_assoc] at heq
  obtain ⟨hname, heq⟩ := quote_append_inj heq
  obtain ⟨hvalue, hrests⟩ := h other.2 rest rest' hother hrest hrest'
    (List.append_cancel_left heq)
  exact ⟨Prod.ext hname hvalue, hrests⟩

mutual

/-- Every document whose numbers are words is known by its text. -/
theorem known (l : Layout) : (j : Json) → j.Plain → ∀ depth, Known isPart (text l depth) Plain j
  | .number written, hj, depth => by
    intro k rest rest' hk hrest hrest' heq
    have hword : IsWord written := hj written List.mem_cons_self
    cases k with
    | number written' =>
      have hword' : IsWord written' := hk written' List.mem_cons_self
      obtain ⟨hsame, hrests⟩ := run_append_inj hword.2 hword'.2 hrest hrest' heq
      rw [String.toList_inj.1 hsame]
      exact ⟨rfl, hrests⟩
    | string value =>
      rw [text, text, quote_toList] at heq
      exact absurd heq (hword.ne_cons (by decide) _ _)
    -- all other documents begin with a character that is in no word
    | _ => exact absurd heq (hword.ne_cons (by decide) _ _)
  | .string value, hj, depth => by
    intro k rest rest' hk hrest hrest' heq
    cases k with
    | number written =>
      have hword : IsWord written := hk written List.mem_cons_self
      rw [text, text, quote_toList] at heq
      exact absurd heq.symm (hword.ne_cons (by decide) _ _)
    | string value' =>
      obtain ⟨rfl, hrests⟩ := quote_append_inj heq
      exact ⟨rfl, hrests⟩
    | _ => simp [text, quote_toList] at heq
  | .array items, hj, depth => by
    intro k rest rest' hk hrest hrest' heq
    have hitems := plain_array.1 hj
    cases k with
    | number written =>
      have hword : IsWord written := hk written List.mem_cons_self
      exact absurd heq.symm (hword.ne_cons (by decide) _ _)
    | array items' =>
      simp only [text, textItems_eq, List.cons_append, List.append_assoc, List.cons.injEq, true_and,
        List.nil_append] at heq
      obtain ⟨rfl, hrests⟩ := listed_inj (by decide) (fun j hj => hj.exists_head l _)
        (itemsKnown l items hitems (depth + 1)) hitems (plain_array.1 hk) heq
      exact ⟨rfl, hrests⟩
    | _ => simp [text, quote_toList] at heq
  | .object fields, hj, depth => by
    intro k rest rest' hk hrest hrest' heq
    have hfields := plain_object.1 hj
    cases k with
    | number written =>
      have hword : IsWord written := hk written List.mem_cons_self
      exact absurd heq.symm (hword.ne_cons (by decide) _ _)
    | object fields' =>
      simp only [text, textFields_eq, List.cons_append, List.append_assoc, List.cons.injEq,
        true_and, List.nil_append] at heq
      obtain ⟨rfl, hrests⟩ := listed_inj (by decide)
        (fun field _ => fieldText_exists_head l _ field)
        (fieldsKnown l fields hfields (depth + 1)) hfields (plain_object.1 hk) heq
      exact ⟨rfl, hrests⟩
    | _ => simp [text, quote_toList] at heq

/-- The items of a document are known by their texts. -/
theorem itemsKnown (l : Layout) : (items : List Json) → (∀ item ∈ items, item.Plain) → ∀ depth,
    ∀ item ∈ items, Known isPart (text l depth) Plain item
  | [], _, _ => List.forall_mem_nil _
  | item :: items, h, depth =>
    have ⟨hitem, hitems⟩ := List.forall_mem_cons.1 h
    List.forall_mem_cons.2 ⟨item.known l hitem depth, itemsKnown l items hitems depth⟩

/-- The fields of a document are known by their texts. -/
theorem fieldsKnown (l : Layout) : (fields : List (String × Json)) →
    (∀ field ∈ fields, field.2.Plain) → ∀ depth, ∀ field ∈ fields,
    Known isPart (fieldText l depth) (fun other => other.2.Plain) field
  | [], _, _ => List.forall_mem_nil _
  | (_, value) :: fields, h, depth =>
    have ⟨hvalue, hfields⟩ := List.forall_mem_cons.1 h
    List.forall_mem_cons.2
      ⟨known_field (value.known l hvalue depth), fieldsKnown l fields hfields depth⟩

end

/-- With any layout, two documents with the same text are the same. -/
theorem text_inj {l : Layout} {depth : Nat} {j k : Json} (hj : j.Plain) (hk : k.Plain)
    (h : j.text l depth = k.text l depth) : j = k :=
  (j.known l hj depth k [] [] hk (halts_nil _) (halts_nil _) (congrArg (· ++ []) h)).1

end Json

/-! ## Trees

The kind of an expression is a field of its document, and infinity is the one real without a number
to write. -/

/-- What numbers are read as: a finite real or infinity. -/
def Binary64.Readable (x : Binary64) : Prop :=
  x.isFinite = true ∨ x = infinity

theorem Binary64.IsNearest.readable {x : Binary64} {v : ℚ} (h : x.IsNearest v) : x.Readable := by
  rcases h with ⟨_, ⟨hfinite, _⟩ | ⟨hinfinite, _⟩⟩
  · exact .inl hfinite
  · exact .inr hinfinite

/-- Finite reals are numbers in a document. -/
theorem isNumber_json {x : Binary64} (h : x.isFinite = true) :
    Json.IsNumber (Json.real.write x).toList :=
  NumberFormat.isNumber_write (.inr rfl) h

theorem Binary64.Readable.isWord {x : Binary64} (h : x.Readable) :
    Json.IsWord (Json.real.write x) := by
  rcases h with hfinite | rfl
  · have hnumber := isNumber_json hfinite
    obtain ⟨c, cs, hcs, _⟩ := hnumber.exists_head
    refine ⟨?_, hnumber.forall_mem (forall_mem_of_all (by decide))⟩
    rw [hcs]
    exact List.cons_ne_nil c cs
  · exact ⟨by decide, forall_mem_of_all (by decide)⟩

/-- Of what is read, only infinity has no number to write. -/
theorem Binary64.Readable.write_inj {x y : Binary64} (hx : x.Readable) (hy : y.Readable)
    (h : Json.real.write x = Json.real.write y) : x = y := by
  have hname : IsName (Json.real.write infinity).toList := by decide
  rcases hx with hx | rfl
  · rcases hy with hy | rfl
    · exact NumberFormat.write_inj (.inr rfl) hx hy h
    · exact absurd hname (h ▸ (isNumber_json hx).not_isName)
  · rcases hy with hy | rfl
    · exact absurd hname (h ▸ (isNumber_json hy).not_isName)
    · rfl

/-- Operators are known by their names in documents. -/
theorem BinOp.title_inj {op op' : BinOp} (h : op.title = op'.title) : op = op' := by
  cases op <;> cases op' <;> first | rfl | exact absurd h (by decide)

/-- Reals are ones that can be read. -/
def Item.Readable : Item → Prop
  | .real value => value.Readable
  | _ => True

mutual

/-- An expression is known by its document: the kinds of expressions are named there. -/
theorem Expr.json_inj : (e : Expr) → {e' : Expr} → (∀ item ∈ e.items, item.Readable) →
    (∀ item ∈ e'.items, item.Readable) → e.json = e'.json → e = e'
  | .real x, e', h, h', heq => by
    cases e' with
    | real y =>
      have hx : x.Readable := h (.real x) List.mem_cons_self
      have hy : y.Readable := h' (.real y) List.mem_cons_self
      simp only [Expr.json, Json.object.injEq, List.cons.injEq, Prod.mk.injEq, Json.number.injEq,
        true_and, and_true] at heq
      rw [hx.write_inj hy heq]
    | _ => simp [Expr.json] at heq
  | .ref name, e', _, _, heq => by
    cases e' with
    | ref name' =>
      simp only [Expr.json, Json.object.injEq, List.cons.injEq, Prod.mk.injEq, Json.string.injEq,
        true_and, and_true] at heq
      rw [heq]
    | _ => simp [Expr.json] at heq
  | .call callee argument, e', h, h', heq => by
    have ⟨hcallee, hargument⟩ := List.forall_mem_append.1 h
    cases e' with
    | call callee' argument' =>
      have ⟨hcallee', hargument'⟩ := List.forall_mem_append.1 h'
      simp only [Expr.json, Json.object.injEq, List.cons.injEq, Prod.mk.injEq, true_and,
        and_true] at heq
      rw [callee.json_inj hcallee hcallee' heq.1, argument.json_inj hargument hargument' heq.2]
    | _ => simp [Expr.json] at heq
  | .fn param bindings body, e', h, h', heq => by
    have ⟨_, hrest⟩ := List.forall_mem_cons.1 h
    have ⟨hbindings, hbody⟩ := List.forall_mem_append.1 hrest
    cases e' with
    | fn param' bindings' body' =>
      have ⟨_, hrest'⟩ := List.forall_mem_cons.1 h'
      have ⟨hbindings', hbody'⟩ := List.forall_mem_append.1 hrest'
      simp only [Expr.json, Json.object.injEq, List.cons.injEq, Prod.mk.injEq, Json.string.injEq,
        Json.array.injEq, true_and, and_true] at heq
      obtain ⟨hparam, hjsons, hjson⟩ := heq
      rw [hparam, Binding.jsons_inj bindings hbindings hbindings' hjsons,
        body.json_inj hbody hbody' hjson]
    | _ => simp [Expr.json] at heq
  | .bin op lhs rhs, e', h, h', heq => by
    have ⟨hlhs, hrhs⟩ := List.forall_mem_append.1 h
    cases e' with
    | bin op' lhs' rhs' =>
      have ⟨hlhs', hrhs'⟩ := List.forall_mem_append.1 h'
      simp only [Expr.json, Json.object.injEq, List.cons.injEq, Prod.mk.injEq, Json.string.injEq,
        true_and, and_true] at heq
      obtain ⟨hop, hjson, hjson'⟩ := heq
      rw [BinOp.title_inj hop, lhs.json_inj hlhs hlhs' hjson, rhs.json_inj hrhs hrhs' hjson']
    | _ => simp [Expr.json] at heq

/-- A binding is known by its document. -/
theorem Binding.json_inj : (b : Binding) → {b' : Binding} → (∀ item ∈ b.items, item.Readable) →
    (∀ item ∈ b'.items, item.Readable) → b.json = b'.json → b = b'
  | .mk name value, .mk name' value', h, h', heq => by
    have hvalue := (List.forall_mem_cons.1 (List.forall_mem_cons.1 h).2).2
    have hvalue' := (List.forall_mem_cons.1 (List.forall_mem_cons.1 h').2).2
    simp only [Binding.json, Json.object.injEq, List.cons.injEq, Prod.mk.injEq, Json.string.injEq,
      true_and, and_true] at heq
    rw [heq.1, value.json_inj hvalue hvalue' heq.2]

/-- Bindings are known by their documents. -/
theorem Binding.jsons_inj : (bs : List Binding) → {bs' : List Binding} →
    (∀ item ∈ Binding.allItems bs, item.Readable) →
    (∀ item ∈ Binding.allItems bs', item.Readable) → Binding.jsons bs = Binding.jsons bs' → bs = bs'
  | [], [], _, _, _ => rfl
  | [], _ :: _, _, _, heq => by cases heq
  | _ :: _, [], _, _, heq => by cases heq
  | b :: bs, b' :: bs', h, h', heq => by
    have ⟨hb, hbs⟩ := List.forall_mem_append.1 h
    have ⟨hb', hbs'⟩ := List.forall_mem_append.1 h'
    obtain ⟨hjson, hjsons⟩ := List.cons.inj heq
    rw [b.json_inj hb hb' hjson, Binding.jsons_inj bs hbs hbs' hjsons]

end

namespace Module

variable {m m₁ m₂ : Module}

theorem readable_items (h : ∀ x ∈ m.reals, x.Readable) : ∀ item ∈ m.items, item.Readable := by
  intro item hitem
  cases item with
  | real x => exact h x (Module.mem_reals.2 hitem)
  | _ => trivial

/-- The numbers of the document of a module are words. -/
theorem json_plain (h : ∀ x ∈ m.reals, x.Readable) : m.json.Plain := by
  intro written hwritten
  rw [m.json_numbers] at hwritten
  obtain ⟨x, hx, rfl⟩ := List.mem_map.1 hwritten
  exact (h x hx).isWord

/-- A module is known by its document. -/
theorem eq_of_json_eq (h₁ : ∀ x ∈ m₁.reals, x.Readable) (h₂ : ∀ x ∈ m₂.reals, x.Readable)
    (h : m₁.json = m₂.json) : m₁ = m₂ := by
  simp only [json, Json.object.injEq, List.cons.injEq, Prod.mk.injEq, Json.array.injEq, true_and,
    and_true] at h
  exact congrArg Module.mk (Binding.jsons_inj _ (readable_items h₁) (readable_items h₂) h)

/-- The module has been read from some text, or all its reals are finite. -/
def Recorded (m : Module) : Prop :=
  (∃ (w : Workspace) (name text : String), (w.readModule name text).1 = .ok (.ok m))
    ∨ ∀ x ∈ m.reals, x.isFinite = true

theorem Recorded.readable (h : m.Recorded) : ∀ x ∈ m.reals, x.Readable := by
  intro x hx
  rcases h with ⟨w, name, text, hread⟩ | hfinite
  · have hwritten := Workspace.writtenAs_of_readModule hread
    obtain ⟨l, _, hxl⟩ := exists_mem_of_forall₂ hwritten (Module.mem_reals.1 hx)
    obtain ⟨v, hv⟩ := isNearest_of_writtenAs hxl
    exact hv.readable
  · exact .inl (hfinite x hx)

/-- **A module is known by its document**, in either written form: if it has been read, or if its
reals are finite, whatever its names are. -/
theorem written_json_inj (h₁ : m₁.Recorded) (h₂ : m₂.Recorded) :
    (m₁.json.compact = m₂.json.compact ↔ m₁ = m₂)
      ∧ (m₁.json.pretty 0 = m₂.json.pretty 0 ↔ m₁ = m₂) := by
  have hplain₁ := json_plain h₁.readable
  have hplain₂ := json_plain h₂.readable
  refine ⟨⟨fun h => ?_, fun h => h ▸ rfl⟩, ⟨fun h => ?_, fun h => h ▸ rfl⟩⟩
  · have htext := congrArg String.toList h
    rw [Json.compact_toList 0, Json.compact_toList 0] at htext
    exact eq_of_json_eq h₁.readable h₂.readable (Json.text_inj hplain₁ hplain₂ htext)
  · have htext := congrArg String.toList h
    rw [Json.pretty_toList, Json.pretty_toList] at htext
    exact eq_of_json_eq h₁.readable h₂.readable (Json.text_inj hplain₁ hplain₂ htext)

/-- A line feed and the two characters that it is written with are told apart, and so are both from
what has been read. -/
theorem json_escapes_ne :
    (Module.json ⟨[.mk "\n" (.real ⟨0⟩)]⟩).compact ≠ (Module.json ⟨[.mk "\\n" (.real ⟨0⟩)]⟩).compact
      ∧ (Module.json ⟨[.mk "\n" (.real ⟨0⟩)]⟩).pretty 0 ≠ Module.shifted.json.pretty 0 := by
  have hfinite (s : String) : Module.Recorded ⟨[.mk s (.real ⟨0⟩)]⟩ := by
    refine .inr fun x hx => ?_
    rw [List.mem_singleton.1 hx]
    decide
  have hshifted : Module.shifted.Recorded := .inl ⟨_, _, _, Workspace.readModule_shifted_text⟩
  constructor
  · exact fun h => absurd ((written_json_inj (hfinite "\n") (hfinite "\\n")).1.1 h) (by decide)
  · exact fun h => absurd ((written_json_inj (hfinite "\n") hshifted).2.1 h) (by decide)

end Module

end Packrat
