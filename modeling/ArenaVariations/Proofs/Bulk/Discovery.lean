import Mathlib.Data.List.Basic
import ArenaVariations.Bulk.Discovery
import ArenaVariations.Proofs.Files.WellFormed

/-!
# What a search finds

A template is reached from the root by the names of folders and of a file, and no folder on the
way is left out. This takes only that entries of folders have names that a path can lead to.
-/

namespace ArenaVariations

namespace Discovery

variable {d : Discovery} {root : Path}

theorem ofEntries_eq (folder : Path) (entries : List (String × FileTree Unit)) :
    d.ofEntries root folder entries =
      entries.map fun e => (e.1, d.below root (folder.join ⟨e.1⟩) e.1 e.2) := by
  induction entries with
  | nil => rfl
  | cons e entries ih =>
    obtain ⟨name, t⟩ := e
    rw [ofEntries, ofEntry, ih]
    rfl

/-- What is found in a folder is found below one of its entries. -/
theorem mem_entries {folder q : Path} {entries : List (String × FileTree Unit)} :
    q ∈ ((d.ofEntries root folder entries).mergeSort fun a b => a.1 ≤ b.1).flatMap Prod.snd ↔
      ∃ e ∈ entries, q ∈ d.below root (folder.join ⟨e.1⟩) e.1 e.2 := by
  simp only [List.mem_flatMap, List.mem_mergeSort, ofEntries_eq, List.mem_map]
  constructor
  · rintro ⟨_, ⟨e, mem, rfl⟩, among⟩
    exact ⟨e, mem, among⟩
  · rintro ⟨e, mem, among⟩
    exact ⟨_, ⟨e, mem, rfl⟩, among⟩

/-- The folders that names lead through from a folder are looked into. -/
def Passes (d : Discovery) (root folder : Path) (dirs : List String) : Prop :=
  ∀ passed name, passed ++ [name] <+: dirs →
    d.skips root (folder.descend (passed ++ [name])) name = false

theorem Passes.cons {folder : Path} {name : String} {dirs : List String}
    (first : d.skips root (folder.join ⟨name⟩) name = false)
    (rest : d.Passes root (folder.join ⟨name⟩) dirs) : d.Passes root folder (name :: dirs) := by
  intro passed last start
  cases passed with
  | nil =>
    obtain ⟨rfl, -⟩ := List.cons_prefix_cons.mp start
    exact first
  | cons s passed =>
    obtain ⟨rfl, inner⟩ := List.cons_prefix_cons.mp start
    exact rest passed last inner

/-- A template at the end of names that no folder on the way is left out of is found. -/
theorem mem_entries_of_at? {folder : Path} {entries : List (String × FileTree Unit)}
    {dirs : List String} {file : String}
    (there : (FileTree.folder entries).at? (dirs ++ [file]) = some (.file ()))
    (template : isTemplate (folder.descend (dirs ++ [file])) = true)
    (passes : d.Passes root folder dirs) :
    ∃ e ∈ entries, folder.descend (dirs ++ [file]) ∈ d.below root (folder.join ⟨e.1⟩) e.1 e.2 := by
  induction dirs generalizing folder entries with
  | nil =>
    obtain ⟨e, found, rest⟩ := Option.bind_eq_some_iff.mp there
    obtain rfl := Option.some.inj rest
    refine ⟨_, FileTree.mem_of_lookup found, ?_⟩
    have here : isTemplate (folder.join ⟨file⟩) = true := template
    rw [below, if_pos here]
    exact List.mem_singleton_self _
  | cons name dirs ih =>
    obtain ⟨e, found, rest⟩ := Option.bind_eq_some_iff.mp there
    cases e with
    | file content => exact absurd rest (by rw [List.append_eq, FileTree.at?_file_concat]; simp)
    | folder inner =>
      refine ⟨_, FileTree.mem_of_lookup found, ?_⟩
      have looked : d.skips root (folder.join ⟨name⟩) name = false := passes [] name ⟨dirs, rfl⟩
      have further : d.Passes root (folder.join ⟨name⟩) dirs := fun passed last start =>
        passes (name :: passed) last (List.cons_prefix_cons.mpr ⟨rfl, start⟩)
      rw [below, if_neg (Bool.eq_false_iff.mp looked)]
      exact mem_entries.mpr (ih rest template further)

/-- What is found below a path is reached by names, the last of which is that of the file. -/
theorem mem_below {folder q : Path} {name : String} {t : FileTree Unit} (named : t.Named)
    (first : Path.IsName name) (mem : q ∈ d.below root (folder.join ⟨name⟩) name t) :
    ∃ dirs file, q = folder.descend (dirs ++ [file]) ∧ (∀ s ∈ dirs ++ [file], Path.IsName s) ∧
      isTemplate q = true ∧ d.Passes root folder dirs := by
  induction named generalizing folder name with
  | file =>
    rw [below] at mem
    split at mem
    · next template =>
      obtain rfl := List.mem_singleton.mp mem
      refine ⟨[], name, rfl, by simpa using first, template, fun passed last start => ?_⟩
      exact absurd (List.prefix_nil.mp start) (by simp)
    · cases mem
  | folder names each ih =>
    rw [below] at mem
    split at mem
    · cases mem
    · next looked =>
      obtain ⟨e, among, inside⟩ := mem_entries.mp mem
      obtain ⟨dirs, file, rfl, each, template, passes⟩ := ih e among (names e among) inside
      refine ⟨name :: dirs, file, rfl, List.forall_mem_cons.mpr ⟨first, each⟩, template, ?_⟩
      exact .cons (Bool.eq_false_iff.mpr looked) passes

/-- Names lead from the root to a place where a file is found. -/
structure Shows (d : Discovery) (root : Path) (dirs : List String) (file : String) : Prop where
  names : ∀ s ∈ dirs ++ [file], Path.IsName s
  template : isTemplate (root.descend (dirs ++ [file])) = true
  passes : d.Passes root root dirs

theorem mem_templates {q : Path} {t : FileTree Unit} (named : t.Named)
    (mem : q ∈ d.templates root t) :
    ∃ dirs file, q = root.descend (dirs ++ [file]) ∧ d.Shows root dirs file := by
  cases named with
  | file => cases mem
  | folder names each =>
    rw [templates] at mem
    obtain ⟨e, among, inside⟩ := mem_entries.mp mem
    obtain ⟨dirs, file, rfl, names, template, passes⟩ :=
      mem_below (each e among) (names e among) inside
    exact ⟨dirs, file, rfl, names, template, passes⟩

theorem mem_templates_of_at? {t : FileTree Unit} (dirs : List String) (file : String)
    (there : t.at? (dirs ++ [file]) = some (.file ()))
    (template : isTemplate (root.descend (dirs ++ [file])) = true)
    (passes : d.Passes root root dirs) : root.descend (dirs ++ [file]) ∈ d.templates root t := by
  cases t with
  | file content => exact absurd there (by rw [FileTree.at?_file_concat]; simp)
  | folder entries => exact mem_entries.mpr (mem_entries_of_at? there template passes)

end Discovery

end ArenaVariations
