import ArenaVariations.Proofs.Command.Delivery
import ArenaVariations.Proofs.Command.Frame

/-!
# Templates and results

A command does not write to the templates that it reads, because its results have other names or
go to other folders. There are three exceptions. A template may have the name of the index, or that
of the copy, and stand in its own output folder; and a bulk run may be given a folder of variations
as its root that it writes variations to.
-/

namespace ArenaVariations

namespace FileTree

theorem Named.outlineOf {t : Files} (named : t.Named) (path : Path) : (t.outlineOf path).Named := by
  rw [FileTree.outlineOf]
  cases found : t.find path with
  | error problem => exact .folder (List.forall_mem_nil _) (List.forall_mem_nil _)
  | ok sub =>
    obtain ⟨target, -, there⟩ := find_eq_ok.mp found
    exact (named.of_at? there).outline

theorem WellFormed.outlineOf {t : Files} (h : t.WellFormed) (path : Path) :
    (t.outlineOf path).WellFormed := by
  rw [FileTree.outlineOf]
  cases found : t.find path with
  | error problem => exact wellFormed_empty
  | ok sub =>
    obtain ⟨target, -, there⟩ := find_eq_ok.mp found
    exact (h.of_at? there).outline

end FileTree

namespace Discovery

variable {d : Discovery} {root p : Path} {dirs : List String} {stem ext : String}

/-- Folders of variations are not looked into. -/
theorem skips_variations (root folder : Path) (stem : String) :
    d.skips root folder (stem ++ variationsSuffix) = true := by
  have ends : (stem ++ variationsSuffix).endsWith variationsSuffix = true := by
    rw [← String.endsWith_toSlice, String.Slice.endsWith_string_iff]
    simp
  rw [skips, ends]
  rfl

/-- A template stands below the place of the root. -/
theorem Lies.destination? (lies : Lies root p dirs stem ext) {place : List String}
    (leads : p.destination? = some place) :
    ∃ top, root.destination? = some top ∧ place = top ++ dirs ++ [stem ++ "." ++ ext] := by
  obtain ⟨front, led, rfl⟩ := Path.destination?_of_concat lies.lead_names.2 lies.name.ne_dots leads
  rw [Path.walk?_append] at led
  obtain ⟨top, start, rest⟩ := Option.bind_eq_some_iff.mp led
  rw [Path.walk?_of_forall fun s mem => (lies.each s mem).ne_dots] at rest
  exact ⟨top, start, by rw [Option.some.inj rest]⟩

/-- A place where a search finds a file, if there is one. -/
def Shown (d : Discovery) (root : Path) (q : List String) : Prop :=
  ∃ dirs file, d.Shows root dirs file ∧ (root.descend (dirs ++ [file])).destination? = some q

end Discovery

namespace Command

/-- The templates that a command reads. -/
def templates (c : Command) (t : Files) : List Path :=
  match c with
  | write path _ _ | count path => [path]
  | writeAll root _ _ bulk | countAll root _ bulk =>
    bulk.discovery.templates root (t.outlineOf root)

/-- A template stands where the index of its own results goes, or the copy of it, or the root of a
bulk run is a folder that variations of one of its templates go to. -/
def Collides (c : Command) (t : Files) : Prop :=
  match c with
  | write path _ options => ∃ place, (Run.target path options).destination? = some place ∧
      (path.destination? = some (place ++ [labelIndexName]) ∨
        options.copyTemplate = true ∧ path.destination? = some (place ++ [templateCopyName]))
  | writeAll root _ options bulk => ∃ place, root.destination? = some place ∧
      ∃ template ∈ bulk.discovery.templates root (t.outlineOf root),
        (Bulk.outputFolder root template (options.output.getD ⟨"tmp"⟩)
          bulk.flatten).destination? = some place
  | count _ | countAll _ _ _ => False

end Command

namespace Run

open Discovery (Lies)

/-- The results of a template do not have its name, with two exceptions. -/
theorem apart_of_single {path : Path} {options : WriteOptions} {names : List String} {name : String}
    (split : path.names = names ++ [name]) (plain : name ≠ "..")
    (apart : ∀ place, (target path options).destination? = some place →
      path.destination? ≠ some (place ++ [labelIndexName]) ∧
        (options.copyTemplate = true → path.destination? ≠ some (place ++ [templateCopyName]))) :
    Apart (fun q => path.destination? = some q) path (target path options)
      options.copyTemplate := by
  rintro place leads result (⟨index, labels, rfl⟩ | rfl | ⟨copying, rfl⟩) here
  · obtain ⟨front, -, same⟩ := Path.destination?_of_concat split plain here
    have last := (List.cons.inj (List.append_inj' same rfl).2).1
    have stem := Output.stem_of_fileName? (Path.fileName?_of_names split plain)
    exact Output.variationName_ne_of_cut (Prod.ext stem.symm rfl) index labels last
  · exact (apart place leads).1 here
  · exact (apart place leads).2 copying here

/-- Results of a template go to a folder of variations. -/
theorem exists_place_of_outputFolder {root template output : Path} {flatten : Bool}
    {place : List String}
    (leads : (Bulk.outputFolder root template output flatten).destination? = some place) :
    ∃ front, place = front ++ [Output.stem template ++ variationsSuffix] := by
  have named := Output.isName_folderName template
  have split := (Path.lead_names_join_name (if flatten = true then output else
    output.join (((template.parent?.getD root).below? root).getD ⟨""⟩)) named).2
  obtain ⟨front, -, same⟩ := Path.destination?_of_concat split named.ne_dots leads
  exact ⟨front, same⟩

/-- The report on a template is not called as templates are. -/
theorem exists_place_of_reportFile {root template output : Path} {flatten : Bool}
    {place : List String}
    (leads : (Bulk.reportFile root template output flatten).destination? = some place) :
    ∃ front, place = front ++ [Output.stem template ++ ".error.txt"] := by
  have named : Path.IsName (Output.stem template ++ ".error.txt") := by
    apply Path.IsName.of_length
    · rw [String.toList_append, List.mem_append, not_or]
      exact ⟨Output.slash_not_mem_stem template, by simp⟩
    · rw [String.length_append, show ".error.txt".length = 10 from rfl]
      omega
  have split := (Path.lead_names_join_name (Bulk.errorFolder root template output flatten) named).2
  obtain ⟨front, -, same⟩ := Path.destination?_of_concat split named.ne_dots leads
  exact ⟨front, same⟩

/-- A search finds nothing in a folder of variations that is not its root. -/
theorem not_shown_of_outputFolder {d : Discovery} {root output template : Path} {flatten : Bool}
    (apart : ∀ place, root.destination? = some place →
      (Bulk.outputFolder root template output flatten).destination? ≠ some place)
    {place : List String}
    (leads : (Bulk.outputFolder root template output flatten).destination? = some place)
    (name : String) : ¬ d.Shown root (place ++ [name]) := by
  rintro ⟨dirs, file, shows, here⟩
  obtain ⟨stem, ext, lies⟩ := shows.exists_lies
  obtain ⟨top, start, whole⟩ := lies.destination? here
  have inside := (List.append_inj' whole rfl).1
  obtain rfl | ⟨before, last, rfl⟩ := List.eq_nil_or_concat' dirs
  · rw [List.append_nil] at inside
    exact apart top start (inside ▸ leads)
  · obtain ⟨front, ends⟩ := exists_place_of_outputFolder leads
    rw [ends, ← List.append_assoc] at inside
    have folder := (List.cons.inj (List.append_inj' inside rfl).2).1
    have looked := shows.passes before last (List.prefix_refl _)
    rw [← folder, Discovery.skips_variations] at looked
    cases looked

/-- The results of a template do not stand where a search finds files, unless they go to its
root. -/
theorem apart_of_shows {d : Discovery} {root output template : Path} {copy flatten : Bool}
    (apart : ∀ place, root.destination? = some place →
      (Bulk.outputFolder root template output flatten).destination? ≠ some place) :
    ApartInBulk (d.Shown root) root output template copy flatten := by
  constructor
  · exact fun place leads name _ => not_shown_of_outputFolder apart leads name
  · rintro q leads ⟨dirs, file, shows, here⟩
    obtain ⟨stem, ext, lies⟩ := shows.exists_lies
    obtain ⟨top, -, whole⟩ := lies.destination? here
    obtain ⟨front, ends⟩ := exists_place_of_reportFile leads
    rw [ends] at whole
    have file := (List.cons.inj (List.append_inj' whole rfl).2).1
    rw [← String.toList_inj, ← List.reverse_inj] at file
    obtain rfl | rfl := lies.known <;> simp at file

/-- The results of a template that a bulk run finds do not stand where it finds templates, unless
they go to its root. -/
theorem apartInBulk {d : Discovery} {root output template : Path} {outline : FileTree Unit}
    (named : outline.Named) {copy flatten : Bool}
    (apart : ∀ place, root.destination? = some place →
      (Bulk.outputFolder root template output flatten).destination? ≠ some place) :
    ApartInBulk (fun q => ∃ p ∈ d.templates root outline, p.destination? = some q) root output
      template copy flatten := by
  apply (apart_of_shows apart).mono
  rintro q ⟨p, mem, here⟩
  obtain ⟨dirs, file, rfl, shows⟩ := Discovery.mem_templates named mem
  exact ⟨dirs, file, shows, here⟩

end Run

namespace Command

/-- A command leaves every template that it reads as it is, whether it succeeds or fails, unless
its results collide with its templates. -/
theorem templates_unchanged {c : Command} {t : Files} (named : t.Named) (apart : ¬ c.Collides t)
    {path : Path} (mem : path ∈ c.templates t) {content : ByteArray}
    (there : t.find path = .ok (.file content)) :
    ((c.run (m := StateM Files)).run t).2.find path = .ok (.file content) := by
  rw [run_eq]
  change (c.attempt t).tree.find path = .ok (.file content)
  cases c with
  | write template request options =>
    obtain rfl := List.mem_singleton.mp mem
    obtain ⟨names, name, split, plain⟩ := FileTree.names_of_find there
    have single := Run.apart_of_single split plain fun place leads =>
      ⟨fun index => apart ⟨place, leads, .inl index⟩,
        fun copying copy => apart ⟨place, leads, .inr ⟨copying, copy⟩⟩⟩
    exact (Run.keeps_write single _ t).find (fun _ leads => leads) there
  | count template =>
    exact (Run.keeps_count _ t).find (fun _ _ => trivial) there
  | writeAll root request options bulk =>
    have spared : FileTree.Spares (fun q => ∃ p ∈ (writeAll root request options bulk).templates t,
        p.destination? = some q) t ((writeAll root request options bulk).attempt t).tree :=
      Run.spares_writeAll fun template found =>
        Run.apartInBulk (named.outlineOf root) fun place start leads =>
          apart ⟨place, start, template, found, leads⟩
    exact spared.find (fun _ leads => ⟨path, mem, leads⟩) there
  | countAll root json bulk =>
    exact (Run.keeps_countAll root json bulk _ t).find (fun _ _ => trivial) there

theorem templates_unchanged_twoVariations :
    twoVariations.Named ∧
      ¬ (write ⟨"t.yaml"⟩ (.generate none) toNewFolder).Collides twoVariations ∧
      (⟨"t.yaml"⟩ : Path) ∈
        (write ⟨"t.yaml"⟩ (.generate none) toNewFolder).templates twoVariations ∧
      twoVariations.find ⟨"t.yaml"⟩ = .ok (.file "- !ProcList [1, 2]\n".toUTF8) ∧
      (((write ⟨"t.yaml"⟩ (.generate none) toNewFolder).run (m := StateM Files)).run
        twoVariations).2.find ⟨"t.yaml"⟩ = .ok (.file "- !ProcList [1, 2]\n".toUTF8) := by
  have name : Path.IsName "t.yaml" := .of_length (by simp) (by decide)
  have named : twoVariations.Named := .single name (.file _)
  have folder : (Run.target ⟨"t.yaml"⟩ toNewFolder).destination? = some ["out", "t"] := by decide
  have file : (⟨"t.yaml"⟩ : Path).destination? = some ["t.yaml"] := by decide
  have apart : ¬ (write ⟨"t.yaml"⟩ (.generate none) toNewFolder).Collides twoVariations := by
    rintro ⟨place, leads, collision⟩
    rw [folder] at leads
    rw [file, ← Option.some.inj leads] at collision
    revert collision
    decide
  have mem : (⟨"t.yaml"⟩ : Path) ∈
      (write ⟨"t.yaml"⟩ (.generate none) toNewFolder).templates twoVariations :=
    List.mem_singleton_self _
  have there : twoVariations.find ⟨"t.yaml"⟩ = .ok (.file "- !ProcList [1, 2]\n".toUTF8) := by
    refine FileTree.find_eq_ok.mpr ⟨["t.yaml"], by decide +kernel, rfl⟩
  exact ⟨named, apart, mem, there, templates_unchanged named apart mem there⟩

/-- A template with the name of a copy, in the folder that its variations go to. -/
def ownCopy : Files :=
  .folder [("out", .folder [("template.yaml", .file "1".toUTF8)])]

/-- The copy takes the place of the template, although the template is written in another way. -/
theorem templates_changed_ownCopy :
    ¬ ∀ (c : Command) (t : Files) (path : Path) (content : ByteArray), t.Named →
      path ∈ c.templates t → t.find path = .ok (.file content) →
      ((c.run (m := StateM Files)).run t).2.find path = .ok (.file content) := by
  intro unchanged
  have named : ownCopy.Named := by
    have out : Path.IsName "out" := .of_length (by simp) (by decide)
    have name : Path.IsName "template.yaml" := .of_length (by simp) (by decide)
    exact .single out (.single name (.file _))
  have there : ownCopy.find ⟨"out/template.yaml"⟩ = .ok (.file "1".toUTF8) :=
    FileTree.find_eq_ok.mpr ⟨["out", "template.yaml"], by decide +kernel, rfl⟩
  have same := unchanged (write ⟨"out/template.yaml"⟩ (.generate none) ⟨{}, some ⟨"out"⟩, true⟩)
    ownCopy _ _ named (List.mem_singleton_self _) there
  have before : (ownCopy.readText ⟨"out/template.yaml"⟩).toOption = some "1" := by decide +kernel
  have after : ((((write ⟨"out/template.yaml"⟩ (.generate none) ⟨{}, some ⟨"out"⟩, true⟩).run
      (m := StateM Files)).run ownCopy).2.readText ⟨"out/template.yaml"⟩).toOption =
        some "1\n" := by
    decide +kernel
  rw [FileTree.readText, same, ← there, ← FileTree.readText, before] at after
  exact absurd after (by decide)

end Command

end ArenaVariations
