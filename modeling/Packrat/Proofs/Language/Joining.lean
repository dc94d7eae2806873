import Packrat.Proofs.Language.Phrase

/-!
# Texts that come apart in one way

* **`run_append_inj`** — where a run of characters of one kind ends is no matter of choice.
* **`Known`** — a thing is known by its text: a text that begins with it begins with nothing else.
* **`chain_inj`** — things that are written one after another, with a separator before each, are
  known by their texts together if each of them is known by its own.
-/

namespace Packrat

open Packrat.Language

/-- Where a run of characters of one kind ends is no matter of choice. -/
theorem run_append_inj {p : Char → Bool} {run run' rest rest' : List Char}
    (hrun : ∀ c ∈ run, p c = true) (hrun' : ∀ c ∈ run', p c = true) (hrest : Halts p rest)
    (hrest' : Halts p rest') (h : run ++ rest = run' ++ rest') : run = run' ∧ rest = rest' := by
  induction run generalizing run' with
  | nil =>
    cases run' with
    | nil => exact ⟨rfl, h⟩
    | cons c run' =>
      have hhead : rest.head? = some c := congrArg List.head? h
      exact absurd (hrun' c List.mem_cons_self) (Bool.eq_false_iff.1 (hrest c hhead))
  | cons c run ih =>
    cases run' with
    | nil =>
      have hhead : rest'.head? = some c := congrArg List.head? h.symm
      exact absurd (hrun c List.mem_cons_self) (Bool.eq_false_iff.1 (hrest' c hhead))
    | cons d run' =>
      obtain ⟨rfl, htail⟩ := List.cons.inj h
      obtain ⟨rfl, hrests⟩ := ih (fun e he => hrun e (List.mem_cons_of_mem _ he))
        (fun e he => hrun' e (List.mem_cons_of_mem _ he)) htail
      exact ⟨rfl, hrests⟩

section

variable {α : Type} {p : Char → Bool} {write : α → List Char} {good : α → Prop} {c : Char}
  {rest rest' : List Char}

/-- The thing is known by its text among the good ones: if no word goes on behind it, a text that
begins with it begins with no other, and what follows it is the same. -/
def Known (p : Char → Bool) (write : α → List Char) (good : α → Prop) (a : α) : Prop :=
  ∀ b rest rest', good b → Halts p rest → Halts p rest' → write a ++ rest = write b ++ rest' →
    a = b ∧ rest = rest'

/-- Some things, each after a separator. -/
def chain (separator : List Char) (write : α → List Char) : List α → List Char
  | [] => []
  | a :: as => separator ++ (write a ++ chain separator write as)

/-- The text goes on neither with a word nor with another separator. -/
structure Concludes (p : Char → Bool) (c : Char) (rest : List Char) : Prop where
  halts : Halts p rest
  apart : rest.head? ≠ some c

theorem concludes_nil (p : Char → Bool) (c : Char) : Concludes p c [] :=
  ⟨halts_nil p, nofun⟩

theorem concludes_cons {d : Char} (hd : p d = false) (hne : d ≠ c) (cs : List Char) :
    Concludes p c (d :: cs) :=
  ⟨halts_cons hd cs, fun h => hne (Option.some.inj h)⟩

theorem halts_chain (hc : p c = false) (hrest : Concludes p c rest) (separator : List Char)
    (as : List α) : Halts p (chain (c :: separator) write as ++ rest) := by
  cases as with
  | nil => exact hrest.halts
  | cons a as => exact halts_cons hc _

/-- Things that are known by their texts are known by them together. -/
theorem chain_inj (hc : p c = false) {separator : List Char} {as bs : List α}
    (has : ∀ a ∈ as, Known p write good a) (hbs : ∀ b ∈ bs, good b) (hrest : Concludes p c rest)
    (hrest' : Concludes p c rest')
    (h : chain (c :: separator) write as ++ rest = chain (c :: separator) write bs ++ rest') :
    as = bs ∧ rest = rest' := by
  induction as generalizing bs with
  | nil =>
    cases bs with
    | nil => exact ⟨rfl, h⟩
    | cons b bs => exact absurd (congrArg List.head? h) hrest.apart
  | cons a as ih =>
    cases bs with
    | nil => exact absurd (congrArg List.head? h.symm) hrest'.apart
    | cons b bs =>
      obtain ⟨ha, hmoreas⟩ := List.forall_mem_cons.1 has
      obtain ⟨hb, hmorebs⟩ := List.forall_mem_cons.1 hbs
      rw [chain, chain, List.append_assoc, List.append_assoc, List.append_assoc,
        List.append_assoc] at h
      obtain ⟨rfl, hmore⟩ := ha b _ _ hb (halts_chain hc hrest separator as)
        (halts_chain hc hrest' separator bs) (List.append_cancel_left h)
      obtain ⟨rfl, hrests⟩ := ih hmoreas hmorebs hmore
      exact ⟨rfl, hrests⟩

end

end Packrat
