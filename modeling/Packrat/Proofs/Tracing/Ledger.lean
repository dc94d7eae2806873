import Std.Data.TreeMap.Lemmas
import Packrat.Proofs.Tracing.Trace

/-!
# What the marks account for

The caches, the log of misses and the counters of a workspace can only change where a trace has a
mark for it.

* **`Workspace.Records`** — the marks of a stretch of a run account for the change of a workspace:
  each cache has logged as misses, and has entries more, at just the positions where an answer was
  stored, each of them once and none of them known before; what was cached stays as it was; each
  counter has gone up by the calls counted under its name.
* **`Records.trans`** — stretches can be put together, and what is new stays new: the second one
  finds cached what the first one has stored.
* **`Records.stored`** — storing an answer where there was none is such a stretch.
-/

namespace Packrat

/-- The position of a miss, if the event is a miss of the cache. -/
def Event.missOf? (k : CacheId) : Event → Option Position
  | .cacheMiss i p => if i = k then some p else none
  | _ => none

namespace Workspace

/-- The positions that a cache has logged as misses, oldest first. -/
def misses (w : Workspace) (k : CacheId) : List Position :=
  w.events.toList.filterMap (Event.missOf? k)

/-- How many calls have been counted under a name. -/
def tally (w : Workspace) (name : String) : Nat :=
  (w.counters.get? name).getD 0

/-- The marks account for what the second workspace has and the first one has not. -/
structure Records (w : Workspace) (ms : List Mark) (w' : Workspace) : Prop where
  misses : ∀ k, w'.misses k = w.misses k ++ stores k ms
  once : ∀ k, (stores k ms).Nodup
  uncached : ∀ {k p}, p ∈ stores k ms → w.cachedAt? k p = none
  cached : ∀ {k p}, p ∈ stores k ms → w'.cachedAt? k p ≠ none
  kept : ∀ {k p}, p ∉ stores k ms → w'.cachedAt? k p = w.cachedAt? k p
  positions : ∀ k, w'.cachedPositions k = w.cachedPositions k + (stores k ms).length
  tally : ∀ name, w'.tally name = w.tally name + calls name ms
  opened : ∀ {name}, w.counters.has name = true → w'.counters.has name = true

section

variable {w w' w'' : Workspace} {ms ms' : List Mark}

/-- Nothing happens that a mark would have to account for. -/
theorem Records.quiet (hmisses : ∀ k, w'.misses k = w.misses k)
    (hcached : ∀ k p, w'.cachedAt? k p = w.cachedAt? k p)
    (hpositions : ∀ k, w'.cachedPositions k = w.cachedPositions k)
    (hcounters : w'.counters = w.counters) : w.Records [] w' where
  misses k := by
    rw [hmisses]
    exact (List.append_nil _).symm
  once _ := List.nodup_nil
  uncached h := nomatch h
  cached h := nomatch h
  kept _ := hcached _ _
  positions k := hpositions k
  tally name := by
    rw [Workspace.tally, hcounters]
    rfl
  opened h := by rwa [hcounters]

/-- Where nothing happens there is nothing to account for. -/
theorem Records.refl (w : Workspace) : w.Records [] w :=
  .quiet (fun _ => rfl) (fun _ _ => rfl) (fun _ => rfl) rfl

/-- Whatever is the same is recorded alike. -/
theorem Records.same (hevents : w'.events = w.events) (hcaches : w'.caches = w.caches)
    (hcounters : w'.counters = w.counters) : w.Records [] w' := by
  refine .quiet (fun k => ?_) (fun k p => ?_) (fun k => ?_) hcounters
  · rw [Workspace.misses, Workspace.misses, hevents]
  · rw [cachedAt?, cachedAt?, hcaches]
  · rw [cachedPositions, cachedPositions, hcaches]

theorem Records.log {e : Event} (he : ∀ k, e.missOf? k = none) : w.Records [] (w.log e) := by
  refine .quiet (fun k => ?_) (fun _ _ => rfl) (fun _ => rfl) rfl
  show List.filterMap _ (w.events.push e).toList = _
  rw [Array.toList_push, List.filterMap_append, List.filterMap_cons_none (he k)]
  exact List.append_nil _

theorem Records.cachedAt?_of_mem (h : w.Records ms w') {k : CacheId} {p : Position}
    {r : Remembered} (hr : w.cachedAt? k p = some r) : w'.cachedAt? k p = some r := by
  rw [h.kept fun hp => ?_, hr]
  rw [h.uncached hp] at hr
  cases hr

theorem Records.cachedAt?_ne_none (h : w.Records ms w') (k : CacheId) (p : Position) :
    w'.cachedAt? k p ≠ none ↔ w.cachedAt? k p ≠ none ∨ p ∈ stores k ms := by
  by_cases hp : p ∈ stores k ms
  · exact iff_of_true (h.cached hp) (Or.inr hp)
  · rw [h.kept hp]
    exact (or_iff_left hp).symm

/-- An answer is stored once where it is new, and not at all where it is not. -/
theorem Records.count_stores (h : w.Records ms w') (k : CacheId) (p : Position) :
    (stores k ms).count p
      = if w.cachedAt? k p = none ∧ w'.cachedAt? k p ≠ none then 1 else 0 := by
  by_cases hp : p ∈ stores k ms
  · rw [if_pos ⟨h.uncached hp, h.cached hp⟩]
    exact List.count_eq_one_of_mem (h.once k) hp
  · rw [if_neg, List.count_eq_zero_of_not_mem hp]
    rw [h.kept hp]
    exact fun ⟨hnone, hsome⟩ => hsome hnone

/-- Stretches can be put together. What the first has stored is cached when the second begins, so
the second does not store it again. -/
theorem Records.trans (h : w.Records ms w') (h' : w'.Records ms' w'') :
    w.Records (ms ++ ms') w'' where
  misses k := by rw [h'.misses, h.misses, stores_append, List.append_assoc]
  once k := by
    rw [stores_append]
    refine List.Nodup.append (h.once k) (h'.once k) fun p hp hp' => ?_
    -- what the first stretch has stored is cached when the second one begins
    exact h.cached hp (h'.uncached hp')
  uncached {k p} hp := by
    rw [stores_append, List.mem_append] at hp
    by_cases hfirst : p ∈ stores k ms
    · exact h.uncached hfirst
    · rw [← h.kept hfirst]
      exact h'.uncached (hp.resolve_left hfirst)
  cached {k p} hp := by
    rw [stores_append, List.mem_append] at hp
    by_cases hsecond : p ∈ stores k ms'
    · exact h'.cached hsecond
    · rw [h'.kept hsecond]
      exact h.cached (hp.resolve_right hsecond)
  kept {k p} hp := by
    rw [stores_append, List.mem_append, not_or] at hp
    rw [h'.kept hp.2, h.kept hp.1]
  positions k := by
    rw [h'.positions, h.positions, stores_append, List.length_append]
    omega
  tally name := by
    rw [h'.tally, h.tally, calls_append]
    omega
  opened hname := h'.opened (h.opened hname)

/-- A stretch, and something that needs no mark. -/
theorem Records.trans_quiet (h : w.Records ms w') (h' : w'.Records [] w'') : w.Records ms w'' := by
  have htrans := h.trans h'
  rwa [List.append_nil] at htrans

/-- From the beginning on, a cache has an entry exactly where it has logged a miss, and it has
logged one there once. -/
theorem Records.of_empty (h : Workspace.empty.Records ms w) (k : CacheId) :
    (w.misses k).Nodup ∧ w.cachedPositions k = (w.misses k).length
      ∧ ∀ p, p ∈ w.misses k ↔ w.cachedAt? k p ≠ none := by
  have hmisses : w.misses k = stores k ms := h.misses k
  rw [hmisses]
  refine ⟨h.once k, ?_, fun p => ?_⟩
  · rw [h.positions]
    exact Nat.zero_add _
  · rw [h.cachedAt?_ne_none]
    exact (or_iff_right fun hnone => hnone rfl).symm

/-! ## Counting a call

A counter changes with one mark, and nothing else does. -/

theorem Records.countCall {name : String} (h : w.counters.has name = true) :
    w.Records [.counted name] (w.countCall name) where
  misses k := (List.append_nil _).symm
  once _ := List.nodup_nil
  uncached hp := nomatch hp
  cached hp := nomatch hp
  kept _ := rfl
  positions _ := rfl
  tally m := by
    rw [show calls m [.counted name] = calls m [] + _ from calls_counted m [] name,
      Workspace.tally, Workspace.tally]
    show ((w.counters.modify name (· + 1)).get? m).getD 0 = _
    rw [Table.get?_modify]
    by_cases hm : name = m
    · subst hm
      obtain ⟨n, hn⟩ := Option.isSome_iff_exists.1 h
      rw [if_pos rfl, if_pos rfl, hn]
      show n + 1 = n + (0 + 1)
      omega
    · rw [if_neg hm, if_neg hm]
      rfl
  opened {m} hm := by
    show ((w.counters.modify name (· + 1)).get? m).isSome = true
    rw [Table.get?_modify]
    split
    · rw [Option.isSome_map]
      exact hm
    · exact hm

/-! ## Storing an answer

Storing takes two marks, for the call and for the answer, of which the second is the one that
accounts for entry and miss. -/

section

variable {k : CacheId} {p : Position} {r : Remembered}

theorem remember_caches (w : Workspace) (k : CacheId) (p : Position) (r : Remembered)
    (i : CacheId) : (w.remember k p r).caches[i]?
      = if k = i then (w.caches[i]?).map fun entries => entries.insert p r else w.caches[i]? :=
  Array.getElem?_modify

theorem cachedAt?_remember_self (hk : k < w.caches.size) :
    (w.remember k p r).cachedAt? k p = some r := by
  rw [cachedAt?, remember_caches, if_pos rfl, Array.getElem?_eq_getElem hk]
  show (w.caches[k].insert p r)[p]? = some r
  rw [Std.TreeMap.getElem?_insert, if_pos Std.ReflCmp.compare_self]

theorem cachedAt?_remember_of_ne {i : CacheId} {q : Position} (h : ¬(k = i ∧ p = q)) :
    (w.remember k p r).cachedAt? i q = w.cachedAt? i q := by
  rw [cachedAt?, remember_caches, cachedAt?]
  by_cases hk : k = i
  · rw [if_pos hk]
    cases w.caches[i]? with
    | none => rfl
    | some entries =>
      show (entries.insert p r)[q]? = entries[q]?
      rw [Std.TreeMap.getElem?_insert, if_neg]
      rw [Std.LawfulEqCmp.compare_eq_iff_eq]
      exact fun hp => h ⟨hk, hp⟩
  · rw [if_neg hk]

/-- A position that was not cached is one more. -/
theorem cachedPositions_remember (hk : k < w.caches.size) (hp : w.cachedAt? k p = none)
    (i : CacheId) : (w.remember k p r).cachedPositions i
      = w.cachedPositions i + if k = i then 1 else 0 := by
  rw [cachedPositions, remember_caches, cachedPositions]
  by_cases hi : k = i
  · subst hi
    rw [cachedAt?, Array.getElem?_eq_getElem hk] at hp
    rw [if_pos rfl, if_pos rfl, Array.getElem?_eq_getElem hk]
    show (w.caches[k].insert p r).size = w.caches[k].size + 1
    have hnew : w.caches[k].contains p = false := by
      rw [Std.TreeMap.contains_eq_isSome_getElem?]
      exact Option.isSome_eq_false_iff.2 (Option.isNone_iff_eq_none.2 hp)
    rw [Std.TreeMap.size_insert, hnew]
    rfl
  · rw [if_neg hi, if_neg hi]
    rfl

/-- Storing an answer where there was none. -/
theorem Records.stored (hk : k < w.caches.size) (hp : w.cachedAt? k p = none) :
    w.Records [.stored k p] ((w.log (.cacheMiss k p)).remember k p r) where
  misses i := by
    show List.filterMap _ (w.events.push (.cacheMiss k p)).toList = _
    rw [Array.toList_push, List.filterMap_append, stores_stored]
    refine congrArg (w.misses i ++ ·) ?_
    rw [List.filterMap_cons, Event.missOf?]
    by_cases hi : k = i
    · rw [if_pos hi, if_pos hi]
      rfl
    · rw [if_neg hi, if_neg hi]
      rfl
  once i := by
    rw [stores_stored]
    split
    · exact List.nodup_singleton p
    · exact List.nodup_nil
  uncached {i q} hq := by
    rw [stores_stored] at hq
    split at hq
    next hi =>
      rw [← hi, List.mem_singleton.1 hq]
      exact hp
    next => cases hq
  cached {i q} hq := by
    rw [stores_stored] at hq
    split at hq
    next hi =>
      rw [← hi, List.mem_singleton.1 hq,
        @cachedAt?_remember_self (w.log (.cacheMiss k p)) k p r hk]
      exact nofun
    next => cases hq
  kept {i q} hq := by
    refine @cachedAt?_remember_of_ne (w.log (.cacheMiss k p)) k p r i q fun ⟨hi, heq⟩ => hq ?_
    rw [stores_stored, if_pos hi, heq]
    exact List.mem_singleton_self q
  positions i := by
    rw [@cachedPositions_remember (w.log (.cacheMiss k p)) k p r hk hp i, stores_stored]
    show w.cachedPositions i + _ = _
    split <;> rfl
  tally _ := rfl
  opened hname := hname

end

end

end Workspace

end Packrat
