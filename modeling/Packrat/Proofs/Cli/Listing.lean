import Mathlib.Data.String.Basic
import Packrat.Cli.Folder
import Packrat.Proofs.Cli.ByteOrder

/-!
# The modules under a folder

A search goes through the entries of a folder in the order of their names, and through what is in a
folder in the place of its name. So the order of the paths that it finds is that of their
components, and every module has one path.

* **`Entry.Leads`** — names, one below the other, lead from an entry to what is found there.
* **`Entry.Proper`** — what is so of every tree of folders: no folder has two entries of one name,
  and a name is not empty and has no separator in it.
* **`Entry.HasModule`** — there is a file where the names lead to, and its name is something with
  the extension behind it.
* **`Entry.finds_of_modulesIn`** — a search that is not stopped finds exactly the modules, the
  places in strictly increasing order; induction on the tree, with the entries of a folder sorted.
* **`Entry.exists_sealed_of_modulesIn`**, **`Entry.modulesIn_of_leads_sealed`** — it is stopped
  exactly by the folders that cannot be listed.
* **`Entry.lists_of_modulesIn`** — the same of the paths, which are compared component by component
  and byte by byte (`PathBefore`).
-/

namespace Packrat.Cli.Entry

/-! ## Places in a tree

A place is known by the names that lead to it. In a tree of folders there is one entry at each place
at most. -/

/-- Names, one below the other, that lead from an entry to another one. -/
inductive Leads : Entry → List String → Entry → Prop where
  | here (e : Entry) : Leads e [] e
  | inside {entries : List (String × Entry)} {name : String} {names : List String} {e found : Entry}
      (hmem : (name, e) ∈ entries) (h : Leads e names found) :
      Leads (.folder entries) (name :: names) found

/-- What the name of an entry is like: it is not empty and does not separate a path. -/
structure IsName (name : String) : Prop where
  ne_empty : name ≠ ""
  unseparated : '/' ∉ name.toList

instance (name : String) : Decidable (IsName name) :=
  decidable_of_iff (name ≠ "" ∧ '/' ∉ name.toList)
    ⟨fun h => ⟨h.1, h.2⟩, fun h => ⟨h.ne_empty, h.unseparated⟩⟩

/-- No folder of the tree has two entries of one name, and all names are names. -/
structure Proper (root : Entry) : Prop where
  distinct : ∀ {names entries}, root.Leads names (.folder entries) → (entries.map Prod.fst).Nodup
  named : ∀ {names entries}, root.Leads names (.folder entries) → ∀ x ∈ entries, IsName x.1

section

variable {e found root : Entry} {entries : List (String × Entry)} {name : String}
  {names : List String}

theorem leads_nil : e.Leads [] found ↔ found = e := by
  constructor
  · rintro ⟨⟩
    rfl
  · rintro rfl
    exact .here _

/-- Below a folder, names lead first to an entry of it. -/
theorem leads_folder_cons :
    (folder entries).Leads (name :: names) found
      ↔ ∃ e, (name, e) ∈ entries ∧ e.Leads names found := by
  constructor
  · rintro (_ | ⟨hmem, h⟩)
    exact ⟨_, hmem, h⟩
  · rintro ⟨e, hmem, h⟩
    exact .inside hmem h

/-- Nothing lies below what is not a folder. -/
theorem leads_of_not_folder (he : ∀ entries, e ≠ .folder entries) :
    e.Leads names found ↔ names = [] ∧ found = e := by
  constructor
  · rintro (_ | ⟨_, _⟩)
    · exact ⟨rfl, rfl⟩
    · exact absurd rfl (he _)
  · rintro ⟨rfl, rfl⟩
    exact .here _

/-- What lies in a proper tree is a proper tree. -/
theorem Proper.below (h : (folder entries).Proper) (hmem : (name, e) ∈ entries) : e.Proper where
  distinct hleads := h.distinct (.inside hmem hleads)
  named hleads := h.named (.inside hmem hleads)

theorem proper_folder (hdistinct : (entries.map Prod.fst).Nodup)
    (hnamed : ∀ x ∈ entries, IsName x.1) (hbelow : ∀ x ∈ entries, x.2.Proper) :
    (folder entries).Proper where
  distinct hleads := by
    cases hleads with
    | here => exact hdistinct
    | inside hmem h => exact (hbelow _ hmem).distinct h
  named hleads := by
    cases hleads with
    | here => exact hnamed
    | inside hmem h => exact (hbelow _ hmem).named h

theorem proper_of_not_folder (he : ∀ entries, e ≠ .folder entries) : e.Proper where
  distinct hleads := absurd ((leads_of_not_folder he).1 hleads).2.symm (he _)
  named hleads := absurd ((leads_of_not_folder he).1 hleads).2.symm (he _)

/-- The names that lead anywhere are names. -/
theorem Leads.isName (h : root.Leads names found) (hroot : root.Proper) :
    ∀ name ∈ names, IsName name := by
  induction h with
  | here => exact List.forall_mem_nil _
  | inside hmem _ ih =>
    exact List.forall_mem_cons.2 ⟨hroot.named (.here _) _ hmem, ih (hroot.below hmem)⟩

end

/-- Induction on a tree: what holds of a folder if it holds of all its entries, and of everything
that is not a folder, holds of all trees. -/
theorem tree_induction {P : Entry → Prop}
    (hfolder : ∀ entries, (∀ x ∈ entries, P x.2) → P (.folder entries))
    (hleaf : ∀ e, (∀ entries, e ≠ .folder entries) → P e) : ∀ e, P e
  | .folder entries => hfolder entries fun x _ => tree_induction hfolder hleaf x.2
  | .file bytes => hleaf (.file bytes) nofun
  | .sealedFile reason => hleaf (.sealedFile reason) nofun
  | .sealedFolder reason => hleaf (.sealedFolder reason) nofun
  | .other bytes => hleaf (.other bytes) nofun
termination_by e => sizeOf e
decreasing_by
  rename_i hx
  have hlt := List.sizeOf_lt_of_mem hx
  have hsnd : sizeOf x.2 < sizeOf x := by
    cases x
    simp
  simp only [folder.sizeOf_spec]
  omega

/-! ## Names of modules

The extension is taken from the end of the name, so a name that is nothing but a dot and the
extension has none. -/

/-- The extension of modules is behind the last dot of a name, with something before the dot. -/
theorem extension?_eq_iff {name : String} :
    extension? name = some moduleExtension ↔ ∃ stem, stem ≠ "" ∧ name = stem ++ ".thunk" := by
  unfold extension?
  dsimp only
  constructor
  · intro h
    have hsplit := List.takeWhile_append_dropWhile (p := fun c => decide (c ≠ '.'))
      (l := name.toList.reverse)
    split at h
    next dot last stem hdrop =>
      -- what stops the run is a dot, with at least one character before it
      have hdot : dot = '.' := by
        have hne : name.toList.reverse.dropWhile (fun c => decide (c ≠ '.')) ≠ [] := by
          rw [hdrop]
          exact List.cons_ne_nil _ _
        have hhead := List.head_dropWhile_not (fun c => decide (c ≠ '.')) hne
        simpa only [hdrop, List.head_cons, decide_eq_false_iff_not, not_not] using hhead
      have hrun := congrArg String.toList (Option.some.inj h)
      rw [String.toList_ofList] at hrun
      have hname := congrArg List.reverse hsplit
      rw [List.reverse_append, hrun, hdrop, hdot, List.reverse_reverse, List.reverse_cons,
        List.append_assoc] at hname
      refine ⟨String.ofList (last :: stem).reverse, ?_, String.toList_injective ?_⟩
      · rw [ne_eq, String.ofList_eq_empty_iff]
        simp
      · rw [String.toList_append, String.toList_ofList]
        exact hname.symm
    next => cases h
  · rintro ⟨stem, hstem, rfl⟩
    obtain ⟨last, front, hback⟩ : ∃ last front, stem.toList.reverse = last :: front := by
      refine List.exists_cons_of_ne_nil fun hnil => hstem ?_
      exact String.toList_injective (List.reverse_eq_nil_iff.1 hnil)
    have hreverse : (stem ++ ".thunk").toList.reverse
        = 'k' :: 'n' :: 'u' :: 'h' :: 't' :: '.' :: last :: front := by
      rw [String.toList_append, List.reverse_append, hback]
      rfl
    rw [hreverse]
    rfl

/-! ## Paths

A path keeps its components when a name is added to it; only an empty one at its end, behind a
separator, makes way for the name. -/

/-- A path with names added to it, one below the other. -/
def joined (path : String) (names : List String) : String :=
  names.foldl join path

/-- The order of paths: component by component, and byte by byte in a component. -/
def PathBefore (p q : String) : Prop :=
  (components p).map Text.bytes < (components q).map Text.bytes

section

variable {path name : String} {names : List String}

/-- A name that is added to a path is its last component. -/
theorem components_join (hpath : path.toList.getLast? ≠ some '/') (hname : IsName name) :
    components (join path name) = components path ++ [name] := by
  have htext : (path ++ "/" ++ name).toList = path.toList ++ '/' :: name.toList := by
    rw [String.toList_append, String.toList_append, List.append_assoc]
    rfl
  rw [join, if_neg hpath, components, htext, Text.split_append_cons,
    Text.split_of_not_mem hname.unseparated, List.map_append, List.map_singleton,
    String.ofList_toList, components]

theorem getLast?_join (path : String) (hname : IsName name) :
    (join path name).toList.getLast? ≠ some '/' := by
  have hne : name.toList ≠ [] := fun hnil => hname.ne_empty (String.toList_injective hnil)
  have hlast : (join path name).toList.getLast? = name.toList.getLast? := by
    unfold join
    split
    · rw [String.toList_append, List.getLast?_append_of_ne_nil _ hne]
    · rw [String.toList_append, List.getLast?_append_of_ne_nil _ hne]
  rw [hlast]
  exact fun hslash => hname.unseparated (List.mem_of_getLast? hslash)

theorem components_joined (hpath : path.toList.getLast? ≠ some '/')
    (hnames : ∀ name ∈ names, IsName name) :
    components (joined path names) = components path ++ names := by
  induction names generalizing path with
  | nil => exact (List.append_nil _).symm
  | cons name names ih =>
    obtain ⟨hname, hnames⟩ := List.forall_mem_cons.1 hnames
    show components (joined (join path name) names) = _
    rw [ih (getLast?_join path hname) hnames, components_join hpath hname, List.append_assoc,
      List.singleton_append]

/-- **Names are added behind the same components,** whatever the names, if there are any. -/
theorem exists_components_joined (path : String) :
    ∃ front, ∀ names, names ≠ [] → (∀ name ∈ names, IsName name) →
      components (joined path names) = front ++ names := by
  by_cases hpath : path.toList.getLast? = some '/'
  · obtain ⟨start, hstart⟩ := List.getLast?_eq_some_iff.1 hpath
    refine ⟨(Text.split '/' start).map String.ofList, fun names hne hnames => ?_⟩
    obtain ⟨name, names, rfl⟩ := List.exists_cons_of_ne_nil hne
    obtain ⟨hname, hnames⟩ := List.forall_mem_cons.1 hnames
    show components (joined (join path name) names) = _
    rw [components_joined (getLast?_join path hname) hnames, join, if_pos hpath, components,
      String.toList_append, hstart, List.append_assoc, List.singleton_append,
      Text.split_append_cons, Text.split_of_not_mem hname.unseparated, List.map_append,
      List.append_assoc, List.map_singleton, String.ofList_toList, List.singleton_append]
  · exact ⟨components path, fun names _ hnames => components_joined hpath hnames⟩

/-- Lists of names are ordered as the lists of their bytes. -/
theorem map_bytes_lt {as bs : List String} (h : as < bs) :
    as.map Text.bytes < bs.map Text.bytes := by
  induction as generalizing bs with
  | nil =>
    cases bs with
    | nil => exact absurd h (List.not_lt_nil _)
    | cons b bs => exact List.nil_lt_cons _ _
  | cons a as ih =>
    cases bs with
    | nil => exact absurd h (List.not_lt_nil _)
    | cons b bs =>
      rcases List.cons_lt_cons_iff.1 h with hlt | ⟨rfl, hlt⟩
      · exact List.cons_lt_cons_iff.2 (.inl (Text.bytes_lt hlt))
      · exact List.cons_lt_cons_iff.2 (.inr ⟨rfl, ih hlt⟩)

/-- The paths of places below a path are in the order of the places. -/
theorem pathBefore_joined (path : String) {as bs : List String} (h : as < bs) (has : as ≠ [])
    (hbs : bs ≠ []) (hasNames : ∀ name ∈ as, IsName name) (hbsNames : ∀ name ∈ bs, IsName name) :
    PathBefore (joined path as) (joined path bs) := by
  obtain ⟨front, hfront⟩ := exists_components_joined path
  rw [PathBefore, hfront as has hasNames, hfront bs hbs hbsNames]
  exact map_bytes_lt (List.append_left_lt h)

end

/-! ## What a search finds

A search is followed over the entries of a folder, once they are sorted. It finds places in
increasing order, since those in one entry come before those in the next. -/

/-- There is a module where the names lead to, in an entry of the given name: a file, and the last
of the names has the extension of modules. -/
def IsModule (e : Entry) (name : String) (names : List String) : Prop :=
  ∃ found, e.Leads names found ∧ found.isFile = true
    ∧ extension? (names.getLastD name) = some moduleExtension

/-- The paths are those of the modules in an entry, in the order of their places. -/
def Finds (e : Entry) (path name : String) (paths : List String) : Prop :=
  ∃ places : List (List String), paths = places.map (joined path) ∧ places.Pairwise (· < ·)
    ∧ ∀ names, names ∈ places ↔ e.IsModule name names

section

variable {e : Entry} {entries : List (String × Entry)} {path name : String}
  {names paths : List String} {reason : DiskError}

/-- A module in a folder is one in an entry of it. -/
theorem isModule_folder_cons :
    (folder entries).IsModule name (name' :: names)
      ↔ ∃ e, (name', e) ∈ entries ∧ e.IsModule name' names := by
  unfold IsModule
  simp only [leads_folder_cons, List.getLastD_cons]
  constructor
  · rintro ⟨found, ⟨e, hmem, hleads⟩, hfile⟩
    exact ⟨e, hmem, found, hleads, hfile⟩
  · rintro ⟨e, hmem, found, hleads, hfile⟩
    exact ⟨found, ⟨e, hmem, hleads⟩, hfile⟩

theorem not_isModule_folder_nil : ¬(folder entries).IsModule name [] := by
  rintro ⟨found, hleads, hfile, _⟩
  rw [leads_nil.1 hleads] at hfile
  cases hfile

theorem isModule_of_not_folder (he : ∀ entries, e ≠ .folder entries) :
    e.IsModule name names
      ↔ names = [] ∧ e.isFile = true ∧ extension? name = some moduleExtension := by
  unfold IsModule
  simp only [leads_of_not_folder he]
  constructor
  · rintro ⟨_, ⟨rfl, rfl⟩, hfile, hext⟩
    exact ⟨rfl, hfile, hext⟩
  · rintro ⟨rfl, hfile, hext⟩
    exact ⟨e, ⟨rfl, rfl⟩, hfile, hext⟩

/-- What is searched in an entry of a listing. -/
theorem modulesListed_eq (path : String) (entries : List (String × Entry)) :
    modulesListed path entries
      = entries.map fun x => (x.1, modulesIn (join path x.1) x.1 x.2) := by
  induction entries with
  | nil => rfl
  | cons x entries ih => rw [modulesListed, ih, List.map_cons]

/-- A folder is searched as its entries are, sorted by name. -/
theorem modulesIn_folder (path name : String) (entries : List (String × Entry)) :
    modulesIn path name (.folder entries)
      = inOrder ((sortWith byName entries).map fun x =>
          (x.1, modulesIn (join path x.1) x.1 x.2)) := by
  rw [modulesIn, modulesListed_eq]
  exact congrArg inOrder (sortWith_map (fun _ _ => rfl) entries)

/-- What is not a folder is a module or is not, if it can be searched at all. -/
theorem modulesIn_of_not_folder (he : ∀ entries, e ≠ .folder entries)
    (h : e.modulesIn path name = .ok paths) :
    paths = if e.isFile ∧ extension? name = some moduleExtension then [path] else [] := by
  cases e with
  | folder entries => exact absurd rfl (he entries)
  | sealedFolder reason => cases h
  | _ =>
    cases h
    rfl

/-- Sorted by name, entries of different names have increasing names. -/
theorem sortWith_byName_lt (h : (entries.map Prod.fst).Nodup) :
    (sortWith byName entries).Pairwise fun x y => x.1 < y.1 := by
  have hle : (sortWith byName entries).Pairwise fun x y => byName x y = true := by
    refine pairwise_sortWith (fun x y z hxy hyz => ?_) (fun x y hxy => ?_) entries
    · simp only [byName, Bool.not_eq_true', decide_eq_false_iff_not, not_lt] at hxy hyz ⊢
      exact hxy.trans hyz
    · simp only [byName, Bool.not_eq_false', decide_eq_true_eq, Bool.not_eq_true',
        decide_eq_false_iff_not, not_lt] at hxy ⊢
      exact hxy.le
  have hne : (sortWith byName entries).Pairwise fun x y => x.1 ≠ y.1 :=
    List.pairwise_map.1 (((sortWith_perm byName entries).map Prod.fst).nodup_iff.2 h)
  refine (hle.and hne).imp fun {x y} hxy => ?_
  simp only [byName, Bool.not_eq_true', decide_eq_false_iff_not, not_lt] at hxy
  exact lt_of_le_of_ne hxy.1 hxy.2

theorem inOrder_cons_ok {part : String × Except DiskError (List String)}
    {parts : List (String × Except DiskError (List String))}
    (h : inOrder (part :: parts) = .ok paths) :
    ∃ here later, part.2 = .ok here ∧ inOrder parts = .ok later ∧ paths = here ++ later := by
  obtain ⟨name, _ | here⟩ := part
  · cases h
  · cases hlater : inOrder parts with
    | error reason =>
      simp only [inOrder, hlater] at h
      cases h
    | ok later =>
      simp only [inOrder, hlater] at h
      cases h
      exact ⟨here, later, rfl, rfl, rfl⟩

/-- **A listing, searched entry after entry.** The names increase and each entry is searched as it
should be; induction on the listing, where what comes later begins with a greater name. -/
theorem exists_places_of_inOrder {es : List (String × Entry)}
    (hsorted : es.Pairwise fun x y => x.1 < y.1)
    (hfinds : ∀ x ∈ es, ∀ here, modulesIn (join path x.1) x.1 x.2 = .ok here →
      x.2.Finds (join path x.1) x.1 here)
    (h : inOrder (es.map fun x => (x.1, modulesIn (join path x.1) x.1 x.2)) = .ok paths) :
    ∃ places : List (List String), paths = places.map (joined path) ∧ places.Pairwise (· < ·)
      ∧ ∀ names, names ∈ places ↔
        ∃ x ∈ es, ∃ below, names = x.1 :: below ∧ x.2.IsModule x.1 below := by
  induction es generalizing paths with
  | nil =>
    cases h
    exact ⟨[], rfl, .nil, by simp⟩
  | cons x es ih =>
    obtain ⟨here, later, hhere, hlater, rfl⟩ := inOrder_cons_ok h
    obtain ⟨hx, hes⟩ := List.pairwise_cons.1 hsorted
    obtain ⟨inside, rfl, hinside, hmem⟩ := hfinds x List.mem_cons_self here hhere
    obtain ⟨outside, rfl, houtside, hmem'⟩ :=
      ih hes (fun y hy => hfinds y (List.mem_cons_of_mem _ hy)) hlater
    refine ⟨inside.map (x.1 :: ·) ++ outside, ?_, ?_, fun names => ?_⟩
    · rw [List.map_append, List.map_map]
      rfl
    · refine List.pairwise_append.2 ⟨?_, houtside, ?_⟩
      · exact List.pairwise_map.2
          (hinside.imp fun hlt => List.cons_lt_cons_iff.2 (.inr ⟨rfl, hlt⟩))
      · -- names from one entry and from a later one differ in the first of them
        intro as has bs hbs
        obtain ⟨below, _, rfl⟩ := List.mem_map.1 has
        obtain ⟨y, hy, below', rfl, _⟩ := (hmem' bs).1 hbs
        exact List.cons_lt_cons_iff.2 (.inl (hx y hy))
    · rw [List.mem_append, List.mem_map, hmem']
      constructor
      · rintro (⟨below, hbelow, rfl⟩ | ⟨y, hy, below, rfl, hmodule⟩)
        · exact ⟨x, List.mem_cons_self, below, rfl, (hmem below).1 hbelow⟩
        · exact ⟨y, List.mem_cons_of_mem _ hy, below, rfl, hmodule⟩
      · rintro ⟨y, hy, below, rfl, hmodule⟩
        rcases List.mem_cons.1 hy with rfl | hy
        · exact .inl ⟨below, (hmem below).2 hmodule, rfl⟩
        · exact .inr ⟨y, hy, below, rfl, hmodule⟩

/-- **A search finds the modules, in order.** -/
theorem finds_of_modulesIn (hproper : e.Proper) (h : e.modulesIn path name = .ok paths) :
    e.Finds path name paths := by
  induction e using tree_induction generalizing path name paths with
  | hfolder entries ih =>
    rw [modulesIn_folder] at h
    have hperm := sortWith_perm byName entries
    obtain ⟨places, hpaths, hsorted, hmem⟩ := exists_places_of_inOrder
      (sortWith_byName_lt (hproper.distinct (.here _)))
      (fun x hx here hhere =>
        have hx := hperm.mem_iff.1 hx
        ih x hx (hproper.below hx) hhere) h
    refine ⟨places, hpaths, hsorted, fun names => ?_⟩
    rw [hmem]
    cases names with
    | nil => exact ⟨by simp, fun hmodule => absurd hmodule not_isModule_folder_nil⟩
    | cons name' names =>
      rw [isModule_folder_cons]
      constructor
      · rintro ⟨x, hx, below, hnames, hmodule⟩
        cases hnames
        exact ⟨x.2, hperm.mem_iff.1 hx, hmodule⟩
      · rintro ⟨e, hmem, hmodule⟩
        exact ⟨(name', e), hperm.mem_iff.2 hmem, names, rfl, hmodule⟩
  | hleaf e he =>
    rw [modulesIn_of_not_folder he h]
    simp only [Finds, isModule_of_not_folder he]
    split
    next hmodule =>
      refine ⟨[[]], rfl, List.pairwise_singleton _ _, fun names => ?_⟩
      rw [List.mem_singleton]
      exact ⟨fun hnil => ⟨hnil, hmodule⟩, fun hnil => hnil.1⟩
    next hother =>
      refine ⟨[], rfl, .nil, fun names => ?_⟩
      exact ⟨fun hmem => absurd hmem List.not_mem_nil, fun hmodule => absurd hmodule.2 hother⟩

/-! ## What stops a search

Only a folder that cannot be listed stops a search, and it does so wherever it is. -/

/-- A search that is stopped is stopped in one of the entries. -/
theorem inOrder_error {parts : List (String × Except DiskError (List String))}
    (h : inOrder parts = .error reason) : ∃ part ∈ parts, part.2 = .error reason := by
  induction parts with
  | nil => cases h
  | cons part parts ih =>
    obtain ⟨name, reason' | here⟩ := part
    · cases h
      exact ⟨_, List.mem_cons_self, rfl⟩
    · cases hlater : inOrder parts with
      | error reason' =>
        simp only [inOrder, hlater] at h
        cases h
        obtain ⟨part, hpart, herror⟩ := ih hlater
        exact ⟨part, List.mem_cons_of_mem _ hpart, herror⟩
      | ok later =>
        simp only [inOrder, hlater] at h
        cases h

theorem inOrder_of_mem {parts : List (String × Except DiskError (List String))}
    {part : String × Except DiskError (List String)} (hmem : part ∈ parts)
    (hpart : part.2 = .error reason) : ∃ first, inOrder parts = .error first := by
  cases h : inOrder parts with
  | error first => exact ⟨first, rfl⟩
  | ok paths =>
    exfalso
    induction parts generalizing paths with
    | nil => cases hmem
    | cons next parts ih =>
      obtain ⟨here, later, hhere, hlater, _⟩ := inOrder_cons_ok h
      rcases List.mem_cons.1 hmem with rfl | hmem
      · rw [hhere] at hpart
        cases hpart
      · exact ih hmem later hlater

/-- A search that is stopped has come to a folder that cannot be listed. -/
theorem exists_sealed_of_modulesIn (h : e.modulesIn path name = .error reason) :
    ∃ names, e.Leads names (.sealedFolder reason) := by
  induction e using tree_induction generalizing path name with
  | hfolder entries ih =>
    rw [modulesIn_folder] at h
    obtain ⟨part, hpart, herror⟩ := inOrder_error h
    obtain ⟨x, hx, rfl⟩ := List.mem_map.1 hpart
    have hx := (sortWith_perm byName entries).mem_iff.1 hx
    obtain ⟨names, hleads⟩ := ih x hx herror
    exact ⟨x.1 :: names, .inside hx hleads⟩
  | hleaf e he =>
    cases e with
    | folder entries => exact absurd rfl (he entries)
    | sealedFolder reason' =>
      cases h
      exact ⟨[], .here _⟩
    | _ => cases h

/-- A folder that cannot be listed stops the search, however deep it is. -/
theorem modulesIn_of_leads_sealed (h : e.Leads names (.sealedFolder reason)) (path name : String) :
    ∃ first, e.modulesIn path name = .error first := by
  generalize hsealed : Entry.sealedFolder reason = found at h
  induction h generalizing path name with
  | here =>
    rw [← hsealed]
    exact ⟨reason, rfl⟩
  | @inside entries name' _ e _ hmem _ ih =>
    obtain ⟨first, hfirst⟩ := ih (join path name') name' hsealed
    rw [modulesIn_folder]
    refine inOrder_of_mem (List.mem_map.2 ⟨(name', e), ?_, rfl⟩) hfirst
    exact (sortWith_perm byName entries).mem_iff.2 hmem

end

/-! ## The modules under a folder

The places that have been found are turned into paths, which are in the same order. -/

/-- The names lead to a module below a folder: a file, whether or not it can be opened, the last of
the names being something with the extension behind it. -/
def HasModule (root : Entry) (names : List String) : Prop :=
  ∃ folders stem found, names = folders ++ [stem ++ ".thunk"] ∧ stem ≠ ""
    ∧ root.Leads names found ∧ found.isFile = true

/-- The paths are those of the modules below a folder that is found at a path: a path for each of
them and no other one, in strictly increasing order. -/
def Lists (root : Entry) (path : String) (paths : List String) : Prop :=
  ∃ places : List (List String), paths = places.map (joined path)
    ∧ (∀ names, names ∈ places ↔ root.HasModule names) ∧ paths.Pairwise PathBefore

section

variable {entries : List (String × Entry)} {path : String} {paths names : List String}

theorem isModule_folder_iff {name : String} :
    (folder entries).IsModule name names ↔ (folder entries).HasModule names := by
  constructor
  · intro h
    rcases List.eq_nil_or_concat' names with rfl | ⟨folders, last, rfl⟩
    · exact absurd h not_isModule_folder_nil
    · obtain ⟨found, hleads, hfile, hext⟩ := h
      rw [List.getLastD_concat, extension?_eq_iff] at hext
      obtain ⟨stem, hstem, rfl⟩ := hext
      exact ⟨folders, stem, found, rfl, hstem, hleads, hfile⟩
  · rintro ⟨folders, stem, found, rfl, hstem, hleads, hfile⟩
    refine ⟨found, hleads, hfile, ?_⟩
    rw [List.getLastD_concat]
    exact extension?_eq_iff.2 ⟨stem, hstem, rfl⟩

theorem HasModule.ne_nil {root : Entry} (h : root.HasModule names) : names ≠ [] := by
  obtain ⟨folders, stem, found, rfl, _⟩ := h
  simp

theorem HasModule.isName {root : Entry} (h : root.HasModule names) (hroot : root.Proper) :
    ∀ name ∈ names, IsName name := by
  obtain ⟨_, _, _, _, _, hleads, _⟩ := h
  exact hleads.isName hroot

/-- **The modules under a folder.** -/
theorem lists_of_modulesIn {name : String} (hproper : (folder entries).Proper)
    (h : modulesIn path name (.folder entries) = .ok paths) :
    (folder entries).Lists path paths := by
  obtain ⟨places, rfl, hsorted, hmem⟩ := finds_of_modulesIn hproper h
  have hmodule : ∀ names, names ∈ places ↔ (folder entries).HasModule names :=
    fun names => (hmem names).trans isModule_folder_iff
  refine ⟨places, rfl, hmodule, List.pairwise_map.2 (hsorted.imp_of_mem ?_)⟩
  intro as bs has hbs hlt
  have has := (hmodule as).1 has
  have hbs := (hmodule bs).1 hbs
  exact pathBefore_joined path hlt has.ne_nil hbs.ne_nil (has.isName hproper) (hbs.isName hproper)

end

end Packrat.Cli.Entry
