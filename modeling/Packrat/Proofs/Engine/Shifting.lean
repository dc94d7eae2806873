import Packrat.Proofs.Engine.Transparency

/-!
# Parses do not look behind them

What stands before the cursor has no part in a parse. Behind a run of text, a grammar does with the
text ahead what it does at the beginning of a source that has nothing else; only the offsets count
the run as well.

* **`Outcome.movedTo`** — an outcome with its places moved on into another source.
* **`Verdict.outcome_movedTo`** — a verdict on a text is the same verdict behind a run.
* **`parse_behind_eq_movedTo`** — so is a parse, whatever the two workspaces have been through.
-/

namespace Packrat

/-- The outcome in another source, its places moved on by the given number of bytes. -/
def Outcome.movedTo (s : Source) (bytes : Nat) : Outcome → Outcome
  | .matched value next => .matched value ⟨s, bytes + next.offset, next.rest⟩
  | .noMatch => .noMatch
  | .failed f => .failed ⟨f.message, bytes + f.offset⟩
  | .fault (.stalled offset) => .fault (.stalled (bytes + offset))
  | .fault f => .fault f

section

variable {s t : Source} {run : List Char}

/-- The offset of a rest is counted from the beginning, so a run in front adds its width. -/
theorem Source.before_offset_append (htext : s.text = run ++ t.text) {rest : List Char}
    (hrest : rest <:+ t.text) :
    (s.before rest).offset = Text.byteLength run + (t.before rest).offset := by
  have hle := Text.byteLength_le_of_suffix hrest
  show s.size - _ = _ + (t.size - _)
  rw [Source.size, Source.size, htext, Text.byteLength_append]
  omega

theorem Verdict.outcome_movedTo (htext : s.text = run ++ t.text) {v : Verdict}
    (hv : v.Within t.text) : (v.outcome t).movedTo s (Text.byteLength run) = v.outcome s := by
  cases v with
  | matched value rest =>
    simp only [Verdict.outcome, Outcome.movedTo, ← Source.before_offset_append htext hv]
    rfl
  | noMatch => rfl
  | failed message rest =>
    simp only [Verdict.outcome, Outcome.movedTo, ← Source.before_offset_append htext hv]
  | stalled rest =>
    simp only [Verdict.outcome, Outcome.movedTo, ← Source.before_offset_append htext hv]

end

namespace Workspace

variable {pool pool' : List (Blueprint × Grammar)} {known known' : List Source}
  {w w' : Workspace} {b : Blueprint} {g g' : Grammar} {s t : Source} {run : List Char}

/-- **Parses do not look behind them.** At the cursor behind a run of text, a grammar comes to the
outcome that a grammar of the same blueprint comes to at the beginning of a source without the run,
moved on by the bytes of the run. The two may be one grammar in one workspace, or the one may have
been used and the other not. -/
theorem parse_behind_eq_movedTo (h : InUse pool known w) (hg : (b, g) ∈ pool)
    (h' : InUse pool' known' w') (hg' : (b, g') ∈ pool') (hs : s ∈ known) (ht : t ∈ known')
    (htext : s.text = run ++ t.text) :
    (w.parse g ⟨s, Text.byteLength run, t.text⟩).1
      = (w'.parse g' t.start).1.movedTo s (Text.byteLength run) := by
  have hc : Cursor.Valid ⟨s, Text.byteLength run, t.text⟩ := ⟨run, htext, rfl⟩
  have hsettles := h.settles_parse hg hc hs
  have hsettles' := h'.settles_parse hg' (Cursor.valid_start t) ht
  obtain ⟨v, hv, hx, hx'⟩ := hsettles.exists_verdict hsettles'
  rw [hx, hx']
  exact (Verdict.outcome_movedTo htext hv).symm

/-- The guard stops the sums behind two characters of three bytes where it stops them at the
beginning. -/
theorem parse_sums_behind_eq_movedTo :
    (((withSums "é++").newSource "+").2.parse (.rule .owned 0)
        ⟨⟨0, ['é', '+', '+']⟩, Text.byteLength ['é', '+'], ['+']⟩).1
      = (((withSums "é++").newSource "+").2.parse (.rule .owned 0)
          (Source.start ⟨1, ['+']⟩)).1.movedTo ⟨0, ['é', '+', '+']⟩
            (Text.byteLength ['é', '+']) := by
  have huse : InUse [(.sums, .rule .owned 0)] [⟨1, ['+']⟩, ⟨0, ['é', '+', '+']⟩]
      ((withSums "é++").newSource "+").2 :=
    .source (inUse_withSums "é++") "+"
  have htext : Source.text ⟨0, ['é', '+', '+']⟩ = ['é', '+'] ++ Source.text ⟨1, ['+']⟩ := rfl
  have hmoved := parse_behind_eq_movedTo huse List.mem_cons_self huse List.mem_cons_self
    (List.mem_cons_of_mem _ List.mem_cons_self) List.mem_cons_self htext
  exact hmoved

end Workspace

end Packrat
