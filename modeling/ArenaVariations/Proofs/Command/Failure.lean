import ArenaVariations.Proofs.Command.Write

/-!
# Commands that fail because of their template

A template can be at fault in many ways, and some of them show only when its last variation is
expanded. Whenever it happens, nothing has been written by then.
-/

namespace ArenaVariations

namespace FileTree

/-- The way along names that do not lead upwards passes what the names start with. -/
theorem Passed.isPrefix {names q : List String} (plain : ".." ∉ names)
    (passed : Passed [] names q) : q <+: names := by
  obtain ⟨start, front, led⟩ := passed
  rw [Path.walk?_of_forall fun s mem same => plain (same ▸ front.subset mem)] at led
  rw [← Option.some.inj led]
  exact front

end FileTree

namespace Run

/-- The folder that a folder lies in lacks its last name. -/
theorem names_enclosing (folder : Path) : (enclosing folder).names = folder.names.dropLast := by
  have current : Path.names ⟨"."⟩ = [] := rfl
  obtain none | ⟨names, name, named⟩ := List.eq_nil_or_concat' folder.names
  · have void : Path.trimEnd folder.body = [] := by
      by_contra filled
      exact Path.trimEnd_ne_nil_iff.mp filled none
    rw [none, enclosing, Path.parent?, void]
    cases folder.lead <;> rfl
  · obtain ⟨parent, above, -, kept⟩ := Path.parent?_of_names named
    rw [enclosing, above, named, List.dropLast_concat, ← kept]
    dsimp only
    split
    · next bare =>
      rw [current, Path.names_eq, Path.segments_eq_singleton_iff.mpr bare]
      rfl
    · rfl

/-- The default output folder does not lead upwards. -/
theorem dots_not_mem_target (path : Path) (options : WriteOptions)
    (plain : ∀ output ∈ options.output, ".." ∉ output.names) :
    ".." ∉ (target path options).names := by
  rw [target]
  cases given : options.output with
  | some output => exact plain output given
  | none =>
    have named := Output.isName_folderName path
    rw [Option.getD_none, Output.defaultFolder, (Path.lead_names_join_name _ named).2]
    have top : Path.names ⟨"tmp"⟩ = ["tmp"] := rfl
    simp [top, named.ne_dots.symm]

/-- Creating the folder that a folder lies in adds folders above that folder. -/
theorem enclosed_grown {folder : Path} (plain : ".." ∉ folder.names) (t : Files) :
    FileTree.Grown (fun place => place <+: folder.names ∧ place ≠ folder.names) t
      (enclosed folder t) := by
  intro place
  obtain same | ⟨passed, none, made⟩ := t.createFolders_grown (enclosing folder) place
  · exact .inl same
  · rw [names_enclosing] at passed
    have front := passed.isPrefix fun mem => plain (List.mem_of_mem_dropLast mem)
    refine .inr ⟨⟨front.trans (List.dropLast_prefix _), ?_⟩, none, made⟩
    rintro rfl
    have short := front.length_le
    rw [List.length_dropLast] at short
    have top : folder.names = [] := List.length_eq_zero_iff.mp (by omega)
    rw [top] at none
    cases none

end Run

namespace Command

/-- A command that fails because of its template changes no file. All that it may have done is to
create folders that the output folder would have lain in. -/
theorem grown_of_template_failure {path : Path} {request : Request} {options : WriteOptions}
    {t : Files} {e : CommandFailure} (plain : ∀ output ∈ options.output, ".." ∉ output.names)
    (failed : ((write path request options).attempt t).result = .error e)
    (blame : Run.OfTemplate e) :
    (((write path request options).run (m := StateM Files)).run t).1.exit = 1 ∧
      FileTree.Grown (fun place => place <+: (Run.target path options).names ∧
        place ≠ (Run.target path options).names) t
          (((write path request options).run (m := StateM Files)).run t).2 := by
  rw [run_eq, failed]
  refine ⟨rfl, ?_⟩
  obtain same | same := Run.write_eq_error blame (ended_of_result failed)
  · rw [same]
    exact .refl _ _
  · rw [same]
    exact Run.enclosed_grown (Run.dots_not_mem_target path options plain) t

/-- A folder with a template whose second variation has no case. -/
def missingCase : Files :=
  .folder [("t.yaml", .file ("[!Item \x7bid: w, name: !ProcList [a, b]\x7d, " ++
    "!ProcIf \x7bvariable: w.name, cases: [a], then: [1]\x7d]").toUTF8)]

/-- Options for writing to a folder that is not there. -/
def toNewFolder : WriteOptions :=
  ⟨{}, some ⟨"out/t"⟩, true⟩

/-- The label of the failure that a run ended with, if a template is to blame. -/
def blame : Except CommandFailure Unit → Option String
  | .error (.template e) => some e.label
  | _ => none

theorem exists_of_blame {result : Except CommandFailure Unit} {label : String}
    (h : blame result = some label) : ∃ e, result = .error e ∧ Run.OfTemplate e := by
  rcases result with e | _
  · cases e <;> first | exact ⟨_, rfl, trivial⟩ | cases h
  · cases h

theorem grown_of_template_failure_missingCase :
    (∀ output ∈ toNewFolder.output, ".." ∉ output.names) ∧
      (∃ e, ((write ⟨"t.yaml"⟩ (.generate none) toNewFolder).attempt missingCase).result =
        .error e ∧ Run.OfTemplate e) ∧
      (((write ⟨"t.yaml"⟩ (.generate none) toNewFolder).run (m := StateM Files)).run
        missingCase).1.exit = 1 ∧
      FileTree.Grown (fun place => place <+: (Run.target ⟨"t.yaml"⟩ toNewFolder).names ∧
          place ≠ (Run.target ⟨"t.yaml"⟩ toNewFolder).names) missingCase
        (((write ⟨"t.yaml"⟩ (.generate none) toNewFolder).run (m := StateM Files)).run
          missingCase).2 := by
  have plain : ∀ output ∈ toNewFolder.output, ".." ∉ output.names := by
    intro output given
    rw [← Option.some.inj given]
    decide
  have computed : blame ((write ⟨"t.yaml"⟩ (.generate none) toNewFolder).attempt
      missingCase).result = some "MissingCase" := by
    decide +kernel
  obtain ⟨e, failed, blamed⟩ := exists_of_blame computed
  exact ⟨plain, ⟨e, failed, blamed⟩, grown_of_template_failure plain failed blamed⟩

end Command

end ArenaVariations
