import Packrat.Cli.Command
import Packrat.Proofs.Cli.Listing
import Packrat.Proofs.Language.Soundness

/-!
# Checking a folder

A check finds the modules under a path and reads one after the other. Reading never breaks off, so
each of them is reported on, whatever became of those before it.

* **`fails`** — loading the file at a path comes to a report. If not, it comes to a module
  (`exists_module_of_not_fails`).
* **`filterMap_runCheck`** — what is to be seen of a check in its notices, file after file; each
  file has one status, and one report if it fails (`filterMap_checkFile`).
* **`Checked`** — the check of some paths: their statuses in order, the reports of those that fail,
  a summary with both counts, and the exit code.
* **`run_check_covers`** — checking a folder checks exactly the modules under it.
-/

namespace Packrat.Cli

/-! ## Loading

Reading a text comes to a module or a report, so loading a file does, too: what cannot be opened or
is no text is reported. -/

/-- The report that a load comes to, if it does. -/
def Loaded.report? (loaded : Loaded) : Option Diagnostic :=
  match loaded.result with
  | .ok (.error d) => some d
  | _ => none

/-- Whether loading the file at a path comes to a report. -/
def fails (disk : Disk) (path : String) : Bool :=
  (load disk path).report?.isSome

section

variable {disk : Disk} {path : String}

/-- **A load comes to a module or to a report.** -/
theorem load_cases (disk : Disk) (path : String) :
    (∃ m, (load disk path).result = .ok (.ok m))
      ∨ ∃ d, (load disk path).result = .ok (.error d) := by
  unfold load
  split
  next e _ => exact .inr ⟨_, rfl⟩
  next text _ =>
    obtain ⟨_, ⟨m, _, hread, _⟩ | ⟨d, hread, _⟩⟩ := Workspace.empty.readModule_cases path text
    · exact .inl ⟨m, hread⟩
    · exact .inr ⟨d, hread⟩

/-- Loading fails exactly if there is a report. -/
theorem fails_iff : fails disk path = true ↔ ∃ d, (load disk path).result = .ok (.error d) := by
  unfold fails Loaded.report?
  rcases load_cases disk path with ⟨m, h⟩ | ⟨d, h⟩
  · simp [h]
  · simp [h]

/-- What does not fail is loaded as a module. -/
theorem exists_module_of_not_fails (h : fails disk path = false) :
    ∃ m, (load disk path).result = .ok (.ok m) := by
  rcases load_cases disk path with hmodule | hreport
  · exact hmodule
  · rw [fails_iff.2 hreport] at h
    cases h

end

/-! ## What is to be seen

A check gives notices one after the other. Each of them is of one kind, so a check is known by its
statuses, its reports and its summary. -/

/-- The path and the verdict of a status. -/
def Notice.status? : Notice → Option (String × Bool)
  | .status ok path => some (path, ok)
  | _ => none

/-- The diagnostic of a report. -/
def Notice.report? : Notice → Option Diagnostic
  | .report d => some d
  | _ => none

/-- The counts of a summary: what was checked, and what failed. -/
def Notice.summary? : Notice → Option (Nat × Nat)
  | .summary checked failed => some (checked, failed)
  | _ => none

section

variable {β : Type} {view : Notice → Option β} {disk : Disk} {limit : Severity} {path : String}
  {paths : List String}

theorem filterMap_shown (hevent : ∀ e, view (.event e) = none) (limit : Severity)
    (events : List Event) : (shown limit events).filterMap view = [] := by
  rw [shown, List.filterMap_map]
  exact List.filterMap_eq_nil_iff.2 fun e _ => hevent e

theorem checkFile_snd (limit : Severity) (disk : Disk) (path : String) :
    (checkFile limit disk path).2 = fails disk path := by
  unfold checkFile fails Loaded.report?
  rcases load_cases disk path with ⟨m, h⟩ | ⟨d, h⟩
  · simp [h]
  · simp [h]

/-- **A file is reported on once:** its status is seen, and its report if it has one. -/
theorem filterMap_checkFile (hevent : ∀ e, view (.event e) = none) (limit : Severity) (disk : Disk)
    (path : String) :
    (checkFile limit disk path).1.filterMap view =
      (view (.status (!fails disk path) path)).toList
        ++ ((load disk path).report?.bind fun d => view (.report d)).toList := by
  unfold checkFile fails Loaded.report?
  rcases load_cases disk path with ⟨m, h⟩ | ⟨d, h⟩
  · simp only [h, List.filterMap_append, filterMap_shown hevent]
    cases hstatus : view (.status true path) <;> simp [hstatus]
  · simp only [h, List.filterMap_append, filterMap_shown hevent]
    cases hstatus : view (.status false path) <;> cases hreport : view (.report d) <;>
      simp [hstatus, hreport]

/-- A check in terms of what loading the files comes to. -/
theorem runCheck_eq (limit : Severity) (hfind : findModules disk path = .ok paths) :
    runCheck limit disk path =
      ⟨if paths.countP (fails disk) = 0 then 0 else 1, "",
        shown limit [.checking paths.length path]
          ++ (paths.flatMap fun p => (checkFile limit disk p).1)
          ++ [.summary paths.length (paths.countP (fails disk))]⟩ := by
  have hfailed : (paths.map (checkFile limit disk)).countP (·.2) = paths.countP (fails disk) := by
    rw [List.countP_map]
    exact List.countP_congr fun p _ => by rw [Function.comp, checkFile_snd]
  simp only [runCheck, hfind, hfailed, List.flatMap_map]

/-- What is to be seen of a check: what is to be seen of each file, and then of the summary. -/
theorem filterMap_runCheck (hevent : ∀ e, view (.event e) = none) (limit : Severity)
    (hfind : findModules disk path = .ok paths) :
    (runCheck limit disk path).notices.filterMap view =
      (paths.flatMap fun p => (view (.status (!fails disk p) p)).toList
          ++ ((load disk p).report?.bind fun d => view (.report d)).toList)
        ++ (view (.summary paths.length (paths.countP (fails disk)))).toList := by
  rw [runCheck_eq limit hfind]
  simp only [List.filterMap_append, filterMap_shown hevent, List.filterMap_flatMap,
    filterMap_checkFile hevent, List.nil_append]
  cases hsummary : view (.summary paths.length (paths.countP (fails disk))) <;> simp [hsummary]

end

/-! ## Checks

A check goes over the paths that it has found. What became of one file has no part in what becomes
of another. -/

/-- The check of some paths. Every one of them is loaded, whatever became of those before it, and
has its status in its place: a failure if a report came of it, and otherwise a module did. The
reports are told, the summary comes last and has both counts, and the exit code says whether there
was a failure. -/
structure Checked (disk : Disk) (paths : List String) (t : Transcript) : Prop where
  statuses : t.notices.filterMap Notice.status? = paths.map fun p => (p, !fails disk p)
  failed : ∀ p ∈ paths, fails disk p = true ↔ ∃ d, (load disk p).result = .ok (.error d)
  passed : ∀ p ∈ paths, fails disk p = false ↔ ∃ m, (load disk p).result = .ok (.ok m)
  reports : t.notices.filterMap Notice.report? = paths.filterMap fun p => (load disk p).report?
  summaries : t.notices.filterMap Notice.summary? = [(paths.length, paths.countP (fails disk))]
  last : t.notices.getLast? = some (.summary paths.length (paths.countP (fails disk)))
  exit : t.exit = if paths.countP (fails disk) = 0 then 0 else 1

section

variable {disk : Disk} {limit : Severity} {path : String} {paths : List String} {d : Diagnostic}

/-- A check whose paths are found is the check of those paths. -/
theorem checked_runCheck (limit : Severity) (hfind : findModules disk path = .ok paths) :
    Checked disk paths (runCheck limit disk path) where
  statuses := by
    rw [filterMap_runCheck (fun _ => rfl) limit hfind]
    simp [Notice.status?, List.map_eq_flatMap]
  failed _ _ := fails_iff
  passed p _ := by
    refine ⟨exists_module_of_not_fails, ?_⟩
    rintro ⟨m, h⟩
    simp [fails, Loaded.report?, h]
  reports := by
    rw [filterMap_runCheck (fun _ => rfl) limit hfind]
    simp [Notice.report?, List.filterMap_eq_flatMap_toList]
  summaries := by
    rw [filterMap_runCheck (fun _ => rfl) limit hfind]
    simp [Notice.summary?]
  last := by
    rw [runCheck_eq limit hfind]
    exact List.getLast?_concat
  exit := by rw [runCheck_eq limit hfind]

/-- A check whose paths are not found is a failure, with the reason for a notice. -/
theorem runCheck_of_error (limit : Severity) (hfind : findModules disk path = .error d) :
    runCheck limit disk path = ⟨1, "", [.report d]⟩ := by
  rw [runCheck, hfind]

/-- A check is a success exactly if the modules are found and none of them fails. -/
theorem exit_runCheck (limit : Severity) (disk : Disk) (path : String) :
    (runCheck limit disk path).exit = 0 ↔
      ∃ paths, findModules disk path = .ok paths ∧ ∀ p ∈ paths, fails disk p = false := by
  cases hfind : findModules disk path with
  | error d =>
    rw [runCheck_of_error limit hfind]
    simp
  | ok paths =>
    rw [runCheck_eq limit hfind]
    simp [List.countP_eq_zero]

/-- A folder is searched, whatever its own name. -/
theorem modulesAt_folder {entries : List (String × Entry)}
    (hdisk : disk path = .ok (.folder entries)) :
    disk.modulesAt path = Entry.modulesIn path "" (.folder entries) := by
  rw [Disk.modulesAt, hdisk]
  exact if_neg Bool.false_ne_true

/-- The modules under a folder are found unless a folder there cannot be listed. -/
theorem findModules_folder {entries : List (String × Entry)}
    (hdisk : disk path = .ok (.folder entries)) (hproper : (Entry.folder entries).Proper) :
    match findModules disk path with
    | .ok paths =>
      (Entry.folder entries).Lists path paths
        ∧ ∀ names reason, ¬(Entry.folder entries).Leads names (.sealedFolder reason)
    | .error d =>
      ∃ names reason, (Entry.folder entries).Leads names (.sealedFolder reason)
        ∧ d = .unreadable path reason.message := by
  rw [findModules, modulesAt_folder hdisk]
  cases hsearch : Entry.modulesIn path "" (.folder entries) with
  | ok paths =>
    refine ⟨Entry.lists_of_modulesIn hproper hsearch, fun names reason hleads => ?_⟩
    obtain ⟨first, hfirst⟩ := Entry.modulesIn_of_leads_sealed hleads path ""
    rw [hsearch] at hfirst
    cases hfirst
  | error reason =>
    obtain ⟨names, hleads⟩ := Entry.exists_sealed_of_modulesIn hsearch
    exact ⟨names, reason, hleads, rfl⟩

/-- **Checking a folder checks exactly the modules under it.** Of a folder, the paths that are found
are those of the files below it with the extension, each once and in increasing order, unless there
is a folder that cannot be listed. Whatever the path leads to, all that is found is loaded in that
order and reported on, with a summary of it, and the program succeeds exactly if the search did and
no file fails. -/
theorem run_check_covers {argv : List String} {verbosity : Nat}
    (hargs : Args.read argv = .ok ⟨verbosity, .check path⟩) :
    (∀ entries, disk path = .ok (.folder entries) → (Entry.folder entries).Proper →
        match findModules disk path with
        | .ok paths =>
          (Entry.folder entries).Lists path paths
            ∧ ∀ names reason, ¬(Entry.folder entries).Leads names (.sealedFolder reason)
        | .error d =>
          ∃ names reason, (Entry.folder entries).Leads names (.sealedFolder reason)
            ∧ d = .unreadable path reason.message)
      ∧ (match findModules disk path with
        | .ok paths => Checked disk paths (run disk argv)
        | .error d => (run disk argv).notices = [.report d])
      ∧ ((run disk argv).exit = 0 ↔
        ∃ paths, findModules disk path = .ok paths ∧ ∀ p ∈ paths, fails disk p = false) := by
  have hrun : run disk argv = runCheck (Severity.ofVerbosity verbosity) disk path := by
    simp only [run, hargs]
  rw [hrun]
  refine ⟨fun entries hdisk hproper => findModules_folder hdisk hproper, ?_, exit_runCheck _ _ _⟩
  cases hfind : findModules disk path with
  | ok paths => exact checked_runCheck _ hfind
  | error d =>
    show (runCheck _ disk path).notices = _
    rw [runCheck_of_error _ hfind]

end

/-- A folder with a folder named like a module, names that begin with another one, a name that is
nothing but the extension, a link, and files that fail for want of text or of permission. -/
def songs : List (String × Entry) :=
  [("link.thunk", .other []), ("b.thunk", .file "let b = 1".toUTF8.toList),
    ("a.thunk", .file [255]), ("..thunk", .sealedFile .notPermitted), (".thunk", .file []),
    ("a", .folder [("x.thunk", .folder [("c.thunk", .file "let c =".toUTF8.toList)])]),
    ("a-c.thunk", .file []), ("notes.txt", .file [])]

/-- The paths of the modules among them. -/
def songPaths : List String :=
  ["songs/..thunk", "songs/a/x.thunk/c.thunk", "songs/a-c.thunk", "songs/a.thunk", "songs/b.thunk"]

/-- The disk on which they are found. -/
def songDisk : Disk :=
  Entry.disk (.folder [("songs", .folder songs)])

/-- The tree of songs is one that a disk can have. -/
theorem proper_songs : (Entry.folder songs).Proper := by
  refine Entry.proper_folder (by decide +kernel) (by decide +kernel) ?_
  have hx : (Entry.folder [("c.thunk", .file "let c =".toUTF8.toList)]).Proper :=
    Entry.proper_folder (by decide +kernel) (by decide +kernel)
      (List.forall_mem_singleton.2 (Entry.proper_of_not_folder nofun))
  have ha : (Entry.folder [("x.thunk", .folder [("c.thunk",
      .file "let c =".toUTF8.toList)])]).Proper :=
    Entry.proper_folder (by decide +kernel) (by decide +kernel) (List.forall_mem_singleton.2 hx)
  simp only [songs, List.forall_mem_cons]
  exact ⟨Entry.proper_of_not_folder nofun, Entry.proper_of_not_folder nofun,
    Entry.proper_of_not_folder nofun, Entry.proper_of_not_folder nofun,
    Entry.proper_of_not_folder nofun, ha, Entry.proper_of_not_folder nofun,
    Entry.proper_of_not_folder nofun, List.forall_mem_nil _⟩

/-- The search finds the modules among the songs. -/
theorem findModules_songs : findModules songDisk "songs" = .ok songPaths := by
  have hfind : (findModules songDisk "songs").toOption = some songPaths := by decide +kernel
  cases hresult : findModules songDisk "songs" with
  | error d =>
    rw [hresult] at hfind
    cases hfind
  | ok paths =>
    rw [hresult] at hfind
    cases hfind
    rfl

theorem run_check_songs_covers :
    Args.read ["check", "songs"] = .ok ⟨0, .check "songs"⟩
      ∧ songDisk "songs" = .ok (.folder songs) ∧ (Entry.folder songs).Proper
      ∧ (Entry.folder songs).Lists "songs" songPaths
      ∧ Checked songDisk songPaths (run songDisk ["check", "songs"]) := by
  have hargs : Args.read ["check", "songs"] = .ok ⟨0, .check "songs"⟩ := by cbv
  have hdisk : songDisk "songs" = .ok (.folder songs) := rfl
  obtain ⟨hcovers, hchecked, _⟩ := @run_check_covers songDisk "songs" _ _ hargs
  specialize hcovers songs hdisk proper_songs
  rw [findModules_songs] at hcovers hchecked
  exact ⟨hargs, hdisk, proper_songs, hcovers.1, hchecked⟩

end Packrat.Cli
