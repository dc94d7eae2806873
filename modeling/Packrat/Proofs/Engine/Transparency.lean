import Packrat.Proofs.Engine.Guarded

/-!
# Outcomes depend on the text alone

What a parse comes to is a matter of the blueprint, the text and the place: a verdict is unique,
and so is the place of a loop. Neither the caches of the grammar nor anything that happened to the
workspace before have a part in it.

* **`Workspace.InUse.outcome_eq`** — two parses of one text from one offset, with grammars whose
  blueprints have the same plain form, come to the same outcome, each in its own source.
* **`parse_eq_without_caches`** — so a grammar does what the same grammar without caches does.
* **`parse_eq_fresh`** — and a grammar that has been used does what a fresh copy of it does.
-/

namespace Packrat

/-! ## Outcomes in other sources

A verdict knows no source. In two sources of one text it becomes two outcomes, which differ in the
source of their cursors and in nothing else. -/

/-- The same outcome in another source of the same text. -/
def Outcome.inSource (s : Source) : Outcome → Outcome
  | .matched value next => .matched value ⟨s, next.offset, next.rest⟩
  | o => o

section

variable {s s' : Source} {w w' : Workspace} {n : Goal} {x x' : Outcome × Workspace}

theorem Source.before_offset_eq (htext : s'.text = s.text) (rest : List Char) :
    (s'.before rest).offset = (s.before rest).offset := by
  show s'.size - _ = s.size - _
  rw [Source.size, Source.size, htext]

theorem Verdict.outcome_inSource (htext : s'.text = s.text) (v : Verdict) :
    (v.outcome s).inSource s' = v.outcome s' := by
  cases v with
  | matched value rest =>
    show Outcome.matched value ⟨s', (s.before rest).offset, rest⟩ = _
    rw [← Source.before_offset_eq htext]
    rfl
  | noMatch => rfl
  | failed message rest =>
    show Outcome.failed ⟨message, (s.before rest).offset⟩ = _
    rw [← Source.before_offset_eq htext]
    rfl
  | stalled rest =>
    show Outcome.fault (.stalled (s.before rest).offset) = _
    rw [← Source.before_offset_eq htext]
    rfl

/-- With the guard, a goal has one verdict wherever it is run: what it yields, or else the report of
the one loop that it leads to. -/
theorem Settles.exists_verdict {depth depth' : Nat}
    (h : Settles ⟨true, depth⟩ s w n.course x) (h' : Settles ⟨true, depth'⟩ s' w' n.course x') :
    ∃ v : Verdict, v.Within n.rest ∧ x.1 = v.outcome s ∧ x'.1 = v.outcome s' := by
  obtain ⟨v, hv, hx⟩ := h.comes
  obtain ⟨v', hv', hx'⟩ := h'.comes
  obtain rfl := Goal.comes_unique hv hv'
  exact ⟨v, Goal.Comes.within hv, hx, hx'⟩

theorem Settles.outcome_eq {depth depth' : Nat} (htext : s'.text = s.text)
    (h : Settles ⟨true, depth⟩ s w n.course x) (h' : Settles ⟨true, depth'⟩ s' w' n.course x') :
    x.1.inSource s' = x'.1 := by
  obtain ⟨v, _, hx, hx'⟩ := h.exists_verdict h'
  rw [hx, hx']
  exact v.outcome_inSource htext

end

/-! ## Parses

What makes no difference is what the verdict does not depend on: the caches of the blueprint, and
all that the workspace has gone through. -/

namespace Workspace

variable {pool pool' : List (Blueprint × Grammar)} {known known' : List Source}
  {w w' : Workspace} {b e : Blueprint} {g g' : Grammar} {c c' : Cursor}

/-- Whatever has been built is closed. -/
theorem InUse.closed (h : InUse pool known w) (hg : (b, g) ∈ pool) : b.closed [] = true := by
  induction h generalizing b g with
  | start => cases hg
  | step _ hstep ih =>
    cases hstep with
    | build hb _ =>
      rcases List.mem_cons.1 hg with heq | hg
      · cases heq
        exact hb
      · exact ih hg
    | assemble hassembled =>
      rcases List.mem_cons.1 hg with heq | hg
      · cases heq
        exact hassembled.closed ih
      · exact ih hg
    | source _ => exact ih hg
    | parse _ _ _ _ => exact ih hg
  | meanwhile _ _ ih => exact ih hg

/-- **Outcomes depend on the text alone.** -/
theorem InUse.outcome_eq (h : InUse pool known w) (hg : (b, g) ∈ pool) (h' : InUse pool' known' w')
    (hg' : (e, g') ∈ pool') (hplain : e.plain = b.plain) (hc : c.Valid) (hs : c.source ∈ known)
    (hc' : c'.Valid) (hs' : c'.source ∈ known') (htext : c'.source.text = c.source.text)
    (hoffset : c'.offset = c.offset) :
    (w.parse g c).1.inSource c'.source = (w'.parse g' c').1 := by
  have hsettles := h.settles_parse hg hc hs
  have hsettles' := h'.settles_parse hg' hc' hs'
  rw [hplain, hc.rest_eq hc' htext hoffset] at hsettles'
  exact Settles.outcome_eq htext hsettles hsettles'

/-- A blueprint without its caches can be built wherever the blueprint itself can. -/
theorem InUse.exists_build_without_caches (h : InUse pool known w) (hg : (b, g) ∈ pool)
    (he : e = b.uncached ∨ e = b.plain) (w₀ : Workspace) :
    ∃ g₀ w₁, w₀.build e = (.ok g₀, w₁) := by
  have hclosed : e.closed [] = true := by
    rcases he with rfl | rfl
    · exact Blueprint.closed_uncached (h.closed hg)
    · exact Blueprint.closed_plain (h.closed hg)
  have hstart : InUse [] [] w₀ := .start w₀.holds_nil
  obtain ⟨g₀, w₁, hbuild, _⟩ := hstart.exists_build hclosed
  exact ⟨g₀, w₁, hbuild⟩

/-- **Caches make no difference.** A blueprint with its caches taken out, piece by piece or down to
the plain form, can be built anywhere; and however the two have been used before, its grammar and
the one with the caches come to the same outcome. Either may have been put together from copies that
share their caches. -/
theorem parse_eq_without_caches (h : InUse pool known w) (hg : (b, g) ∈ pool)
    (h' : InUse pool' known' w') (he : e = b.uncached ∨ e = b.plain) (hg' : (e, g') ∈ pool')
    (hc : c.Valid) (hs : c.source ∈ known) (hc' : c'.Valid) (hs' : c'.source ∈ known')
    (htext : c'.source.text = c.source.text) (hoffset : c'.offset = c.offset) :
    (∀ w₀ : Workspace, ∃ g₀ w₁, w₀.build e = (.ok g₀, w₁))
      ∧ (w.parse g c).1.inSource c'.source = (w'.parse g' c').1 := by
  have hplain : e.plain = b.plain := by
    rcases he with rfl | rfl
    · exact b.plain_uncached
    · exact b.plain_plain
  exact ⟨h.exists_build_without_caches hg he,
    h.outcome_eq hg h' hg' hplain hc hs hc' hs' htext hoffset⟩

theorem parse_sums_eq_without_caches :
    (∀ w₀ : Workspace, ∃ g₀ w₁, w₀.build Blueprint.sums.uncached = (.ok g₀, w₁))
      ∧ ((withSums "+").parse (.rule .owned 0) (Source.start ⟨0, ['+']⟩)).1.inSource ⟨0, ['+']⟩
        = (((empty.newSource "+").2.build Blueprint.sums.uncached).2.parse (.rule .owned 0)
          (Source.start ⟨0, ['+']⟩)).1 := by
  have huncached : InUse [(Blueprint.sums.uncached, .rule .owned 0)] [⟨0, ['+']⟩] _ :=
    .build (.source (.start empty.holds_nil) "+") rfl rfl
  exact parse_eq_without_caches (inUse_withSums "+") List.mem_cons_self huncached (Or.inl rfl)
    List.mem_cons_self (Cursor.valid_start _) List.mem_cons_self (Cursor.valid_start _)
    List.mem_cons_self rfl rfl

/-- **What happened before makes no difference.** A grammar that has been used comes to the same
outcome as a copy that is built anew, in any workspace at all, and run at the same offset of a new
source of the same text. -/
theorem parse_eq_fresh (h : InUse pool known w) (hg : (b, g) ∈ pool) (hc : c.Valid)
    (hs : c.source ∈ known) (w₀ : Workspace) :
    ∃ g₀ w₁, w₀.build b = (.ok g₀, w₁)
      ∧ (w.parse g c).1.inSource (w₁.newSource (String.ofList c.source.text)).1
        = ((w₁.newSource (String.ofList c.source.text)).2.parse g₀
          ⟨(w₁.newSource (String.ofList c.source.text)).1, c.offset, c.rest⟩).1 := by
  have hstart : InUse [] [] w₀ := .start w₀.holds_nil
  obtain ⟨g₀, w₁, hbuild, hfresh⟩ := hstart.exists_build (h.closed hg)
  have htext : (w₁.newSource (String.ofList c.source.text)).1.text = c.source.text :=
    String.toList_ofList
  have hc₀ : Cursor.Valid
      ⟨(w₁.newSource (String.ofList c.source.text)).1, c.offset, c.rest⟩ := by
    obtain ⟨before, hbefore, hoffset⟩ := hc
    exact ⟨before, htext.trans hbefore, hoffset⟩
  refine ⟨g₀, w₁, hbuild, ?_⟩
  exact h.outcome_eq hg (.source hfresh _) List.mem_cons_self rfl hc hs hc₀ List.mem_cons_self
    htext rfl

theorem parse_sums_eq_fresh :
    ∃ g₀ w₁, empty.build Blueprint.sums = (.ok g₀, w₁)
      ∧ (((withSums "+").parse (.rule .owned 0) (Source.start ⟨0, ['+']⟩)).2.parse (.rule .owned 0)
          (Source.start ⟨0, ['+']⟩)).1.inSource (w₁.newSource (String.ofList ['+'])).1
        = ((w₁.newSource (String.ofList ['+'])).2.parse g₀
          ⟨(w₁.newSource (String.ofList ['+'])).1, 0, ['+']⟩).1 := by
  -- the grammar has been stopped by the guard once when it is parsed with again
  have hused := (inUse_withSums "+").parse List.mem_cons_self
    (Cursor.valid_start ⟨0, ['+']⟩) List.mem_cons_self
  exact parse_eq_fresh hused List.mem_cons_self (Cursor.valid_start _) List.mem_cons_self empty

end Workspace

end Packrat
