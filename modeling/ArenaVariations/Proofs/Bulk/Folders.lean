import Mathlib.Data.List.Basic
import ArenaVariations.Output
import ArenaVariations.Proofs.Bulk.Discovery

/-!
# Folders of a bulk run

Without flattening, the folder of a template and the report on it mirror where the template lies:
below the output folder they are reached by the folders that lead to the template, and their own
name has its stem. The stem does not tell the two extensions apart, so two templates that differ in
nothing else share their results; all other templates are kept apart.
-/

namespace ArenaVariations

namespace Path

/-- Two paths lead to files of one folder, the first with the longer and the second with the shorter
extension of templates. -/
def Twins (p q : Path) : Prop :=
  ∃ (folder : Path) (stem : String), '/' ∉ stem.toList ∧
    p = folder.join ⟨stem ++ "." ++ "yaml"⟩ ∧ q = folder.join ⟨stem ++ "." ++ "yml"⟩

end Path

namespace Discovery

/-- A template lies below a root: in which folders, and with which stem and extension. -/
structure Lies (root p : Path) (dirs : List String) (stem ext : String) : Prop where
  path : p = (root.descend dirs).join ⟨stem ++ "." ++ ext⟩
  each : ∀ s ∈ dirs, Path.IsName s
  name : Path.IsName (stem ++ "." ++ ext)
  filled : stem ≠ ""
  known : ext = "yaml" ∨ ext = "yml"

/-- What is found lies below the root. -/
theorem Shows.exists_lies {d : Discovery} {root : Path} {dirs : List String} {file : String}
    (shows : d.Shows root dirs file) :
    ∃ stem ext, Lies root (root.descend (dirs ++ [file])) dirs stem ext := by
  obtain ⟨each, last⟩ := List.forall_mem_append.mp shows.names
  have name := last file List.mem_cons_self
  have template := shows.template
  have path := root.descend_concat dirs file
  have names : (root.descend (dirs ++ [file])).names = (root.descend dirs).names ++ [file] := by
    rw [path]
    exact (Path.lead_names_join_name _ name).2
  rw [isTemplate, Path.extension?, Path.fileName?_of_names names name.ne_dots] at template
  obtain bare | ⟨stem, ext, filled, dotless, rfl⟩ := Path.cut_cases file
  · rw [Option.bind_some, bare] at template
    cases template
  · rw [Option.bind_some, Path.cut_append filled dotless] at template
    exact ⟨stem, ext, path, each, name, filled, by simpa using template⟩

/-- Every template that is found lies below the root. -/
theorem exists_lies {d : Discovery} {root p : Path} {t : FileTree Unit} (named : t.Named)
    (mem : p ∈ d.templates root t) :
    ∃ dirs stem ext, Lies root p dirs stem ext ∧ d.Passes root root dirs := by
  obtain ⟨dirs, file, rfl, shows⟩ := mem_templates named mem
  obtain ⟨stem, ext, lies⟩ := shows.exists_lies
  exact ⟨dirs, stem, ext, lies, shows.passes⟩

namespace Lies

variable {root p q : Path} {dirs : List String} {stem ext : String}

theorem lead_names (lies : Lies root p dirs stem ext) :
    p.lead = root.lead ∧ p.names = root.names ++ dirs ++ [stem ++ "." ++ ext] := by
  obtain ⟨lead, names⟩ := Path.lead_names_descend root lies.each
  obtain ⟨lead', names'⟩ := Path.lead_names_join_name (root.descend dirs) lies.name
  rw [lies.path]
  exact ⟨lead'.trans lead, names'.trans (by rw [names])⟩

theorem dotless (lies : Lies root p dirs stem ext) : '.' ∉ ext.toList := by
  obtain rfl | rfl := lies.known <;> simp

theorem stem_slashless (lies : Lies root p dirs stem ext) : '/' ∉ stem.toList := by
  intro mem
  refine lies.name.no_slash ?_
  rw [String.toList_append, String.toList_append]
  exact List.mem_append_left _ (List.mem_append_left _ mem)

/-- The results of a template are named for its stem. -/
theorem stem_eq (lies : Lies root p dirs stem ext) : Output.stem p = stem := by
  rw [Output.stem, Path.stem?, Path.fileName?_of_names lies.lead_names.2 lies.name.ne_dots,
    Option.map_some, Path.cut_append lies.filled lies.dotless]
  rfl

/-- A name that starts with the stem of a template and goes on. -/
theorem isName_append (lies : Lies root p dirs stem ext) {suffix : String}
    (slashless : '/' ∉ suffix.toList) (long : 2 < suffix.length) :
    Path.IsName (stem ++ suffix) := by
  refine .of_length ?_ ?_
  · rw [String.toList_append, List.mem_append, not_or]
    exact ⟨lies.stem_slashless, slashless⟩
  · rw [String.length_append]
    omega

/-- The folder of a template mirrors where the template lies. -/
theorem outputFolder (lies : Lies root p dirs stem ext) (output : Path) :
    (Bulk.outputFolder root p output false).lead = output.lead ∧
      (Bulk.outputFolder root p output false).names =
        output.names ++ dirs ++ [stem ++ variationsSuffix] := by
  obtain ⟨lead, names⟩ := lies.lead_names
  obtain ⟨parent, above, lead', names'⟩ := Path.parent?_of_names names
  obtain ⟨rest, inside, relative, dirs⟩ := Path.below?_of_names (lead'.trans lead) names'
  have named : Path.IsName (Output.folderName p) := by
    rw [Output.folderName, lies.stem_eq]
    exact lies.isName_append (by decide) (by decide)
  have joined := Path.lead_names_join_name (output.join rest) named
  have base := Path.lead_names_join (p := output) relative
  simp only [Bulk.outputFolder, above, inside, Option.getD_some, Bool.false_eq_true, if_false]
  rw [joined.1, joined.2, base.1, base.2, dirs, Output.folderName, lies.stem_eq]
  exact ⟨rfl, rfl⟩

theorem errorFolder (lies : Lies root p dirs stem ext) (output : Path) :
    (Bulk.errorFolder root p output false).lead = output.lead ∧
      (Bulk.errorFolder root p output false).names = output.names ++ dirs := by
  obtain ⟨lead, names⟩ := lies.outputFolder output
  obtain ⟨parent, above, lead', names'⟩ := Path.parent?_of_names names
  rw [Bulk.errorFolder, above]
  exact ⟨lead'.trans lead, names'⟩

end Lies

end Discovery

namespace Bulk

/-- The file for the report on a template that failed. -/
def reportFile (root template output : Path) (flatten : Bool) : Path :=
  (errorFolder root template output flatten).join ⟨Output.stem template ++ ".error.txt"⟩

end Bulk

namespace Discovery

section

variable {d : Discovery} {root p q : Path} {t : FileTree Unit} {dirs dirs' : List String}
  {stem stem' ext ext' : String}

namespace Lies

theorem reportFile (lies : Lies root p dirs stem ext) (output : Path) :
    (Bulk.reportFile root p output false).lead = output.lead ∧
      (Bulk.reportFile root p output false).names =
        output.names ++ dirs ++ [stem ++ ".error.txt"] := by
  obtain ⟨lead, names⟩ := lies.errorFolder output
  have named : Path.IsName (stem ++ ".error.txt") := lies.isName_append (by decide) (by decide)
  have joined := Path.lead_names_join_name (Bulk.errorFolder root p output false) named
  rw [Bulk.reportFile, lies.stem_eq, joined.1, joined.2, names]
  exact ⟨lead, rfl⟩

/-- Results that mirror where two templates lie are the same for both only if the templates lie in
the same folders and have the same stem. -/
theorem mirrored_iff {before : List String} {suffix : String} :
    before ++ dirs ++ [stem ++ suffix] = before ++ dirs' ++ [stem' ++ suffix] ↔
      dirs = dirs' ∧ stem = stem' := by
  constructor
  · intro same
    obtain ⟨front, last⟩ := List.append_inj' same rfl
    have names := (List.cons.inj last).1
    rw [← String.toList_inj, String.toList_append, String.toList_append] at names
    exact ⟨List.append_cancel_left front, String.toList_inj.mp (List.append_cancel_right names)⟩
  · rintro ⟨rfl, rfl⟩
    rfl

theorem outputFolder_same_iff (first : Lies root p dirs stem ext)
    (second : Lies root q dirs' stem' ext') (output : Path) :
    (Bulk.outputFolder root p output false).same (Bulk.outputFolder root q output false) = true ↔
      dirs = dirs' ∧ stem = stem' := by
  obtain ⟨lead, names⟩ := first.outputFolder output
  obtain ⟨lead', names'⟩ := second.outputFolder output
  rw [Path.same_iff, lead, lead', names, names', mirrored_iff]
  exact and_iff_right rfl

theorem reportFile_same_iff (first : Lies root p dirs stem ext)
    (second : Lies root q dirs' stem' ext') (output : Path) :
    (Bulk.reportFile root p output false).same (Bulk.reportFile root q output false) = true ↔
      dirs = dirs' ∧ stem = stem' := by
  obtain ⟨lead, names⟩ := first.reportFile output
  obtain ⟨lead', names'⟩ := second.reportFile output
  rw [Path.same_iff, lead, lead', names, names', mirrored_iff]
  exact and_iff_right rfl

/-- The stem of a template can be read off its name. -/
theorem stem_inj {given known : String} (one : ext = "yaml" ∨ ext = "yml")
    (other : known = "yaml" ∨ known = "yml") (same : stem ++ "." ++ ext = given ++ "." ++ known) :
    stem = given ∧ ext = known := by
  rw [← String.toList_inj, ← List.reverse_inj] at same
  obtain rfl | rfl := one <;> obtain rfl | rfl := other
  · exact ⟨String.toList_inj.mp (by simpa using same), rfl⟩
  · simp at same
  · simp at same
  · exact ⟨String.toList_inj.mp (by simpa using same), rfl⟩

/-- Where a template lies can be read off the folder that its name was joined to. -/
theorem of_join (lies : Lies root p dirs stem ext) {folder : Path} {given known : String}
    (slashless : '/' ∉ given.toList) (other : known = "yaml" ∨ known = "yml")
    (path : p = folder.join ⟨given ++ "." ++ known⟩) :
    root.names ++ dirs = folder.names ∧ stem = given := by
  have name : Path.IsName (given ++ "." ++ known) := by
    have long : 2 ≤ known.length := by obtain rfl | rfl := other <;> decide
    refine .of_length ?_ ?_
    · obtain rfl | rfl := other <;> simpa using slashless
    · rw [String.length_append, String.length_append, show ".".length = 1 from rfl]
      omega
  have names := lies.lead_names.2
  rw [path, (Path.lead_names_join_name folder name).2] at names
  obtain ⟨front, last⟩ := List.append_inj' names rfl
  exact ⟨front.symm, (stem_inj lies.known other (List.cons.inj last).1.symm).1⟩

/-- Templates that lie in the same folders and have the same stem are one, or twins. -/
theorem alike_iff (first : Lies root p dirs stem ext) (second : Lies root q dirs' stem' ext') :
    dirs = dirs' ∧ stem = stem' ↔ p = q ∨ p.Twins q ∨ q.Twins p := by
  constructor
  · rintro ⟨rfl, rfl⟩
    have slashless := first.stem_slashless
    obtain rfl | rfl := first.known <;> obtain rfl | rfl := second.known
    · exact .inl (first.path.trans second.path.symm)
    · exact .inr (.inl ⟨_, _, slashless, first.path, second.path⟩)
    · exact .inr (.inr ⟨_, _, slashless, second.path, first.path⟩)
    · exact .inl (first.path.trans second.path.symm)
  · have apart : ∀ {folder : Path} {given one other : String}, '/' ∉ given.toList →
        (one = "yaml" ∨ one = "yml") → (other = "yaml" ∨ other = "yml") →
        p = folder.join ⟨given ++ "." ++ one⟩ → q = folder.join ⟨given ++ "." ++ other⟩ →
        dirs = dirs' ∧ stem = stem' := by
      intro folder given one other slashless known known' path path'
      obtain ⟨front, rfl⟩ := first.of_join slashless known path
      obtain ⟨front', rfl⟩ := second.of_join slashless known' path'
      exact ⟨List.append_cancel_left (front.trans front'.symm), rfl⟩
    rintro (rfl | ⟨folder, given, slashless, path, path'⟩ | ⟨folder, given, slashless, path, path'⟩)
    · exact apart first.stem_slashless first.known first.known first.path first.path
    · exact apart slashless (.inl rfl) (.inr rfl) path path'
    · exact apart slashless (.inr rfl) (.inl rfl) path' path

end Lies

/-- Without flattening, two templates that were found share the folder for their variations, and
share the report on a failure, only if their paths differ in nothing but the two extensions. -/
theorem results_shared_iff (named : t.Named) (first : p ∈ d.templates root t)
    (second : q ∈ d.templates root t) (ne : p ≠ q) (output : Path) :
    ((Bulk.outputFolder root p output false).same (Bulk.outputFolder root q output false) = true ↔
        p.Twins q ∨ q.Twins p) ∧
      ((Bulk.reportFile root p output false).same (Bulk.reportFile root q output false) = true ↔
        p.Twins q ∨ q.Twins p) := by
  obtain ⟨dirs, stem, ext, here, -⟩ := exists_lies named first
  obtain ⟨dirs', stem', ext', there, -⟩ := exists_lies named second
  rw [here.outputFolder_same_iff there, here.reportFile_same_iff there, here.alike_iff there]
  exact ⟨or_iff_right ne, or_iff_right ne⟩

end

/-- A template beside its twin, and one of the same name in a folder. -/
def threeTemplates : FileTree Unit :=
  .folder [("x.yaml", .file ()), ("x.yml", .file ()), ("y", .folder [("x.yaml", .file ())])]

theorem named_threeTemplates : threeTemplates.Named := by
  have yaml : Path.IsName "x.yaml" := .of_length (by simp) (by decide)
  have yml : Path.IsName "x.yml" := .of_length (by simp) (by decide)
  have y : Path.IsName "y" := ⟨by decide, by decide, by decide, by simp⟩
  refine .folder (by simp [yaml, yml, y]) ?_
  simp only [List.forall_mem_cons, List.not_mem_nil, false_imp_iff, implies_true, and_true]
  exact ⟨.file (), .file (), .folder (by simp [yaml]) (by simp [FileTree.Named.file])⟩

/-- Hidden folders are looked into as well. -/
def everything : Discovery := ⟨[], false⟩

theorem mem_templates_three {p : Path}
    (listed : p ∈ [⟨"r/x.yaml"⟩, ⟨"r/x.yml"⟩, (⟨"r/y/x.yaml"⟩ : Path)]) :
    p ∈ everything.templates ⟨"r"⟩ threeTemplates := by
  have top : everything.Passes ⟨"r"⟩ ⟨"r"⟩ [] := fun passed name start =>
    absurd (List.prefix_nil.mp start) (by simp)
  have inner : everything.Passes ⟨"r"⟩ ⟨"r"⟩ ["y"] :=
    .cons (by decide) fun passed name start => absurd (List.prefix_nil.mp start) (by simp)
  obtain rfl | rfl | rfl : _ ∨ _ ∨ _ := by simpa using listed
  · exact mem_templates_of_at? [] "x.yaml" rfl (by decide) top
  · exact mem_templates_of_at? [] "x.yml" rfl (by decide) top
  · exact mem_templates_of_at? ["y"] "x.yaml" rfl (by decide) inner

theorem results_shared_iff_threeTemplates :
    threeTemplates.Named ∧
      (⟨"r/x.yaml"⟩ : Path) ∈ everything.templates ⟨"r"⟩ threeTemplates ∧
      (⟨"r/y/x.yaml"⟩ : Path) ∈ everything.templates ⟨"r"⟩ threeTemplates ∧
      ¬ (Path.Twins ⟨"r/x.yaml"⟩ ⟨"r/y/x.yaml"⟩ ∨ Path.Twins ⟨"r/y/x.yaml"⟩ ⟨"r/x.yaml"⟩) := by
  have first := mem_templates_three (p := ⟨"r/x.yaml"⟩) (by simp)
  have second := mem_templates_three (p := ⟨"r/y/x.yaml"⟩) (by simp)
  refine ⟨named_threeTemplates, first, second, fun twins => ?_⟩
  have shared := (results_shared_iff named_threeTemplates first second (by decide)
    ⟨"out"⟩).1.mpr twins
  exact absurd shared (by decide)

/-- Twins are different templates with the same results. -/
theorem results_shared_twins :
    ¬ ∀ (d : Discovery) (root output : Path) (t : FileTree Unit) (p q : Path),
      p ∈ d.templates root t → q ∈ d.templates root t → p ≠ q →
      (Bulk.outputFolder root p output false).same (Bulk.outputFolder root q output false) = false ∧
        (Bulk.reportFile root p output false).same (Bulk.reportFile root q output false) =
          false := by
  intro apart
  have shared := (apart everything ⟨"r"⟩ ⟨"out"⟩ threeTemplates ⟨"r/x.yaml"⟩ ⟨"r/x.yml"⟩
    (mem_templates_three (by simp)) (mem_templates_three (by simp)) (by decide)).1
  exact absurd shared (by decide +kernel)

end Discovery

end ArenaVariations
