import Packrat.Text.Utf8

/-!
# Character classes

A class is a set of characters, given by a list of its members. As a parser it takes the longest
run of members at the cursor, which must not be empty. The run is measured in bytes, by a search
for the first character that is no member.
-/

namespace Packrat

/-- A set of characters; neither the order nor a repetition of members matters. -/
structure CharClass where
  /-- The characters that belong to the class. -/
  members : List Char

namespace CharClass

/-- The class of the characters of a text. -/
def ofString (s : String) : CharClass :=
  ⟨s.toList⟩

/-- Whether a character belongs to the class. -/
def contains (k : CharClass) (c : Char) : Bool :=
  k.members.contains c

/-- Whether two classes have the same members. -/
def sameMembers (k l : CharClass) : Bool :=
  k.members.all l.contains && l.members.all k.contains

/-- The longest run of members at the beginning of a text. -/
def leadingRun (k : CharClass) (cs : List Char) : List Char :=
  cs.takeWhile k.contains

/-- What follows the longest run of members. -/
def afterRun (k : CharClass) (cs : List Char) : List Char :=
  cs.dropWhile k.contains

/-- The run and what follows it make up the text. -/
theorem leadingRun_append_afterRun (k : CharClass) (cs : List Char) :
    k.leadingRun cs ++ k.afterRun cs = cs :=
  List.takeWhile_append_dropWhile

/-- Where the first character that is no member begins, or the text ends, for a text that begins at
the given byte. -/
def runEnd (k : CharClass) (start : Nat) : List Char → Nat
  | [] => start
  | c :: cs => if k.contains c then k.runEnd (start + c.utf8Size) cs else start

/-- The number of bytes of the longest run of members at the beginning of a text. -/
def runLength (k : CharClass) (cs : List Char) : Nat :=
  k.runEnd 0 cs

theorem runEnd_eq (k : CharClass) (start : Nat) (cs : List Char) :
    k.runEnd start cs = start + Text.byteLength (k.leadingRun cs) := by
  induction cs generalizing start with
  | nil => rfl
  | cons c cs ih =>
    unfold runEnd leadingRun
    split
    next hc =>
      rw [List.takeWhile_cons_of_pos hc, Text.byteLength_cons, ih, leadingRun, Nat.add_assoc]
    next hc =>
      rw [List.takeWhile_cons_of_neg hc]
      rfl

/-- The search measures the run. -/
theorem runLength_eq (k : CharClass) (cs : List Char) :
    k.runLength cs = Text.byteLength (k.leadingRun cs) := by
  rw [runLength, runEnd_eq, Nat.zero_add]

/-- The class without members. -/
def empty : CharClass :=
  ⟨[]⟩

/-- The decimal digits. -/
def digits : CharClass :=
  ofString "0123456789"

/-- The letters of the basic alphabet, in both cases. -/
def letters : CharClass :=
  ofString "abcdefghijklmnopqrstuvwxyzABCDEFGHIJKLMNOPQRSTUVWXYZ"

/-- The space, line feed, carriage return and tab. -/
def spaces : CharClass :=
  ofString " \n\r\t"

end CharClass

end Packrat
