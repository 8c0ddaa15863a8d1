import ArenaVariations.Proofs.Command.Repeat
import ArenaVariations.Proofs.Command.Verdict

/-!
# Templates do not affect each other

Two bulk enumerations of trees that differ only in the content of one template are run side by side.
At every other template both read the same and reach the same verdict, and that template's own
results and report stand where nothing of another template is. So the two trees agree all the time
off the places of the one template and of what is written for it.
-/

namespace ArenaVariations

/-- Where a path with more names than another one leads is told by where the other one leads. -/
theorem Path.destination?_append {p q : Path} {more : List String}
    (names : q.names = p.names ++ more) (plain : ∀ s ∈ more, s ≠ "..") :
    q.destination? = p.destination?.map (· ++ more) := by
  rw [destination?, names, walk?_append, ← destination?]
  cases p.destination? with
  | none => rfl
  | some place => exact walk?_of_forall plain place

namespace FileTree

variable {t t' : Files} {root : Path}

/-- What is read at a path is told by where the path leads and by the file that stands there. -/
theorem template_congr {path : Path} (led : t'.place path = t.place path)
    (there : ∀ y, t.place path = .ok y → ∃ content, t.standing? y = some (.file content) ∧
      t'.standing? y = some (.file content)) : t'.template path = t.template path := by
  have found : t'.find path = t.find path := by
    cases leads : t.place path with
    | error problem => rw [find, find, led, leads]; rfl
    | ok y =>
      obtain ⟨content, here, here'⟩ := there y leads
      exact (find_eq_ok.mpr ⟨y, led.trans leads, standing?_eq_file_iff.mp here'⟩).trans
        (find_eq_ok.mpr ⟨y, leads, standing?_eq_file_iff.mp here⟩).symm
  rw [template, template, readText, readText, found]

/-- Two trees with a file at a place differ in nothing but its content. -/
structure AlikeBut (place : List String) (t u : Files) : Prop where
  here : ∃ content, t.standing? place = some (.file content)
  there : ∃ content, u.standing? place = some (.file content)
  others : ∀ q, q ≠ place → u.standing? q = t.standing? q

namespace AlikeBut

variable {place : List String} {u : Files}

theorem folders (alike : AlikeBut place t u) (q : List String)
    (there : t.standing? q = some .folder) : u.standing? q = some .folder := by
  rw [alike.others q, there]
  rintro rfl
  obtain ⟨content, here⟩ := alike.here
  rw [there] at here
  cases here

theorem agreeOff (alike : AlikeBut place t u) {off : List String → Prop} (mem : off place) :
    AgreeOff off t u := by
  intro q here
  rw [content?, content?, alike.others q]
  rintro rfl
  exact here mem

/-- The same templates are found in both trees. -/
theorem templates_eq {d : Discovery} (alike : AlikeBut place t u) (sound : t.WellFormed)
    (sound' : u.WellFormed) (isFolder : t.hasFolder root = true) :
    d.templates root (u.outlineOf root) = d.templates root (t.outlineOf root) := by
  apply templates_outlineOf_congr sound sound' isFolder alike.folders
  intro q _
  by_cases one : q = place
  · rw [one]
    exact iff_of_true alike.there alike.here
  · rw [alike.others q one]

end AlikeBut

theorem hasFolder_of_mem {d : Discovery} {path : Path}
    (mem : path ∈ d.templates root (t.outlineOf root)) : t.hasFolder root = true := by
  rw [outlineOf] at mem
  rw [hasFolder]
  cases found : t.find root with
  | error problem =>
    rw [found] at mem
    obtain ⟨e, among, -⟩ := Discovery.mem_entries.mp mem
    cases among
  | ok sub =>
    rw [found] at mem
    cases sub with
    | file => cases mem
    | folder entries => rfl

end FileTree

namespace Discovery

variable {d : Discovery} {root p : Path} {t t' : Files}

/-- A template that was found stands where its path leads, and the path can be followed but for its
length. -/
theorem exists_standing (wellFormed : t.WellFormed) (isFolder : t.hasFolder root = true)
    (mem : p ∈ d.templates root (t.outlineOf root)) :
    ∃ y content, p.destination? = some y ∧ d.Shown root y ∧
      t.standing? y = some (.file content) ∧
      (t.place p = .ok y ∨ t.place p = .error .nameTooLong) := by
  obtain ⟨top, entries, led, there⟩ := FileTree.hasFolder_eq_true.mp isFolder
  obtain ⟨dirs, file, rfl, shows, found⟩ :=
    (mem_templates_iff (wellFormed.outlineOf root)).mp mem
  obtain ⟨content, standing⟩ := (FileTree.at?_outlineOf_eq_file led there).mp found
  have leads : (root.descend (dirs ++ [file])).destination? = some (top ++ (dirs ++ [file])) :=
    Path.destination?_of_names (FileTree.destination?_of_place led)
      (Path.lead_names_descend root shows.names).2 fun s mem => (shows.names s mem).ne_dots
  refine ⟨_, content, leads, ⟨dirs, file, shows, leads⟩, standing, ?_⟩
  exact FileTree.place_descend shows.names led (by rw [standing]; rfl)

/-- The text of a template that was found is read from any tree that has all folders of the first,
and the same file in its place. -/
theorem template_eq (wellFormed : t.WellFormed) (isFolder : t.hasFolder root = true)
    (mem : p ∈ d.templates root (t.outlineOf root))
    (folders : ∀ q, t.standing? q = some .folder → t'.standing? q = some .folder)
    (files : ∀ y content, p.destination? = some y → d.Shown root y →
      t.standing? y = some (.file content) → t'.standing? y = some (.file content)) :
    t'.template p = t.template p := by
  obtain ⟨y, content, leads, shown, standing, followed⟩ := exists_standing wellFormed isFolder mem
  obtain led | failed := followed
  · apply FileTree.template_congr ((FileTree.place_mono folders led).trans led.symm)
    intro z led'
    obtain rfl := Except.ok.inj (led.symm.trans led')
    exact ⟨content, standing, files y content leads shown standing⟩
  · apply FileTree.template_congr ((FileTree.place_tooLong_mono folders failed).trans failed.symm)
    intro z led
    rw [failed] at led
    cases led

/-- Paths of two templates that were found lead to different places. -/
theorem destination_ne {q : Path} {t : FileTree Unit} (named : t.Named)
    (first : p ∈ d.templates root t) (second : q ∈ d.templates root t) (ne : p ≠ q)
    {place : List String} (leads : p.destination? = some place) :
    q.destination? ≠ some place := by
  intro leads'
  obtain ⟨dirs, file, rfl, shows⟩ := mem_templates named first
  obtain ⟨dirs', file', rfl, shows'⟩ := mem_templates named second
  rw [Path.destination?_append (Path.lead_names_descend root shows.names).2
    fun s mem => (shows.names s mem).ne_dots] at leads
  rw [Path.destination?_append (Path.lead_names_descend root shows'.names).2
    fun s mem => (shows'.names s mem).ne_dots] at leads'
  obtain ⟨top, start, rfl⟩ := Option.map_eq_some_iff.mp leads
  obtain ⟨top', start', same⟩ := Option.map_eq_some_iff.mp leads'
  obtain rfl := Option.some.inj (start.symm.trans start')
  exact ne (congrArg root.descend (List.append_cancel_left same).symm)

/-- No folder that a search goes through is a folder of variations. -/
theorem Passes.ne_variations {dirs : List String} (passes : d.Passes root root dirs) {s : String}
    (mem : s ∈ dirs) (stem : String) : s ≠ stem ++ variationsSuffix := by
  rintro rfl
  obtain ⟨before, after, rfl⟩ := List.append_of_mem mem
  have looked := passes before _ (List.append_cons .. ▸ List.prefix_append _ after)
  rw [skips_variations] at looked
  cases looked

/-- The folders that results mirror. -/
def mirrored (flatten : Bool) (dirs : List String) : List String :=
  if flatten then [] else dirs

theorem mem_of_mem_mirrored {flatten : Bool} {dirs : List String} {s : String}
    (mem : s ∈ mirrored flatten dirs) : s ∈ dirs := by
  cases flatten with
  | true => cases mem
  | false => exact mem

/-- The variations of a template and the report on it stand in one folder. -/
theorem Lies.results_names {dirs : List String} {stem ext : String}
    (lies : Lies root p dirs stem ext)
    (output : Path) (flatten : Bool) :
    (Bulk.outputFolder root p output flatten).names =
        output.names ++ (mirrored flatten dirs ++ [stem ++ variationsSuffix]) ∧
      (Bulk.reportFile root p output flatten).names =
        output.names ++ (mirrored flatten dirs ++ [stem ++ ".error.txt"]) := by
  cases flatten with
  | false =>
    rw [(lies.outputFolder output).2, (lies.reportFile output).2, List.append_assoc,
      List.append_assoc]
    exact ⟨rfl, rfl⟩
  | true =>
    have folder : Path.IsName (stem ++ variationsSuffix) :=
      lies.isName_append (by decide) (by decide)
    have report : Path.IsName (stem ++ ".error.txt") := lies.isName_append (by decide) (by decide)
    have names : (Bulk.outputFolder root p output true).names =
        output.names ++ [stem ++ variationsSuffix] := by
      rw [Bulk.outputFolder, Output.folderName, lies.stem_eq]
      exact (Path.lead_names_join_name output folder).2
    obtain ⟨parent, above, -, names'⟩ := Path.parent?_of_names names
    have errors : (Bulk.errorFolder root p output true).names = output.names := by
      rw [Bulk.errorFolder, above]
      exact names'
    refine ⟨names, ?_⟩
    rw [Bulk.reportFile, lies.stem_eq, (Path.lead_names_join_name _ report).2, errors]
    rfl

theorem Lies.results_destination {dirs : List String} {stem ext : String}
    (lies : Lies root p dirs stem ext) (output : Path) (flatten : Bool) :
    (Bulk.outputFolder root p output flatten).destination? =
        output.destination?.map (· ++ (mirrored flatten dirs ++ [stem ++ variationsSuffix])) ∧
      (Bulk.reportFile root p output flatten).destination? =
        output.destination?.map (· ++ (mirrored flatten dirs ++ [stem ++ ".error.txt"])) := by
  have plain : ∀ {suffix : String}, '/' ∉ suffix.toList → 2 < suffix.length →
      ∀ s ∈ mirrored flatten dirs ++ [stem ++ suffix], s ≠ ".." := by
    intro suffix slashless long s mem
    obtain mem | mem := List.mem_append.mp mem
    · exact (lies.each s (mem_of_mem_mirrored mem)).ne_dots
    · rw [List.mem_singleton.mp mem]
      exact (lies.isName_append slashless long).ne_dots
  obtain ⟨folder, report⟩ := lies.results_names output flatten
  exact ⟨Path.destination?_append folder (plain (by decide) (by decide)),
    Path.destination?_append report (plain (by decide) (by decide))⟩

end Discovery

namespace Run

open Discovery (Lies mirrored mem_of_mem_mirrored)

variable {d : Discovery} {root output : Path} {flatten : Bool}

/-- A place in the folder for the variations of a template, or that of the report on it. -/
def Owns (root output template : Path) (flatten : Bool) (q : List String) : Prop :=
  (∃ folder name, (Bulk.outputFolder root template output flatten).destination? = some folder ∧
    q = folder ++ [name]) ∨
    (Bulk.reportFile root template output flatten).destination? = some q

section

variable {p template : Path} {dirs dirs' : List String} {stem stem' ext ext' : String}

/-- No folder that results mirror is a folder of variations. -/
theorem not_mem_mirrored (passes : d.Passes root root dirs) (flatten : Bool) (stem' : String) :
    stem' ++ variationsSuffix ∉ mirrored flatten dirs :=
  fun mem => passes.ne_variations (mem_of_mem_mirrored mem) stem' rfl

/-- What belongs to a template does not stand in the folder of another one or below it. -/
theorem not_owns_of_prefix (lies : Lies root p dirs stem ext) (passes : d.Passes root root dirs)
    (lies' : Lies root template dirs' stem' ext') (passes' : d.Passes root root dirs')
    {folder q : List String}
    (leads : (Bulk.outputFolder root p output flatten).destination? = some folder)
    (ne : (Bulk.outputFolder root template output flatten).destination? ≠ some folder)
    (start : folder <+: q) : ¬ Owns root output template flatten q := by
  obtain ⟨into, -⟩ := lies.results_destination output flatten
  obtain ⟨into', report'⟩ := lies'.results_destination output flatten
  rw [into] at leads
  obtain ⟨top, led, rfl⟩ := Option.map_eq_some_iff.mp leads
  rw [led, Option.map_some] at into' report'
  have apart : mirrored flatten dirs ++ [stem ++ variationsSuffix] ≠
      mirrored flatten dirs' ++ [stem' ++ variationsSuffix] := by
    intro same
    exact ne (by rw [into', same])
  -- the folder is not among the folders that the other one lies in
  have above :
      ¬ mirrored flatten dirs ++ [stem ++ variationsSuffix] <+: mirrored flatten dirs' := by
    intro inside
    apply not_mem_mirrored passes' flatten stem
    exact inside.subset (List.mem_append_right _ List.mem_cons_self)
  rintro (⟨folder', name, leads', rfl⟩ | report)
  · obtain rfl := Option.some.inj (into'.symm.trans leads')
    rw [List.append_assoc, List.prefix_append_right_inj, List.prefix_concat_iff,
      List.prefix_concat_iff] at start
    obtain same | same | inside := start
    · apply not_mem_mirrored passes flatten stem'
      rw [(List.append_inj' same rfl).1]
      exact List.mem_append_right _ List.mem_cons_self
    · exact apart same
    · exact above inside
  · obtain rfl := Option.some.inj (report'.symm.trans report)
    rw [List.prefix_append_right_inj, List.prefix_concat_iff] at start
    obtain same | inside := start
    · have names := (List.cons.inj (List.append_inj' same rfl).2).1
      rw [← String.toList_inj, ← List.reverse_inj] at names
      simp [variationsSuffix] at names
    · exact above inside

/-- The report on a template does not belong to another one with a folder of its own. -/
theorem not_owns_report (lies : Lies root p dirs stem ext) (passes : d.Passes root root dirs)
    (lies' : Lies root template dirs' stem' ext') {q : List String}
    (leads : (Bulk.reportFile root p output flatten).destination? = some q)
    (ne : ∀ folder, (Bulk.outputFolder root p output flatten).destination? = some folder →
      (Bulk.outputFolder root template output flatten).destination? ≠ some folder) :
    ¬ Owns root output template flatten q := by
  obtain ⟨into, report⟩ := lies.results_destination output flatten
  obtain ⟨into', report'⟩ := lies'.results_destination output flatten
  rw [report] at leads
  obtain ⟨top, led, rfl⟩ := Option.map_eq_some_iff.mp leads
  rw [led, Option.map_some] at into into' report'
  rintro (⟨folder', name, leads', same⟩ | owned)
  · obtain rfl := Option.some.inj (into'.symm.trans leads')
    rw [← List.append_assoc] at same
    apply not_mem_mirrored passes flatten stem'
    rw [List.append_cancel_left (List.append_inj' same rfl).1]
    exact List.mem_append_right _ List.mem_cons_self
  · have same := List.append_cancel_left (Option.some.inj (report'.symm.trans owned))
    obtain ⟨inside, last⟩ := List.append_inj' same rfl
    have names := (List.cons.inj last).1
    rw [← String.toList_inj, String.toList_append, String.toList_append] at names
    have stems := String.toList_inj.mp (List.append_cancel_right names)
    apply ne _ into
    rw [into', inside, stems]

end

section

variable {template p : Path} {place : List String} {s : FileTree Unit} {t u : Files}

/-- The place of a template, or of something that is written for it. -/
def Concerns (root output template : Path) (flatten : Bool) (place q : List String) : Prop :=
  q = place ∨ Owns root output template flatten q

theorem apartInBulk_concerns (root output template : Path) (copy flatten : Bool)
    (place : List String) :
    ApartInBulk (fun q => ¬ Concerns root output template flatten place q) root output template copy
      flatten where
  results := fun folder leads name _ here => here (.inr (.inl ⟨folder, name, leads, rfl⟩))
  report := fun _ leads here => here (.inr (.inr leads))

/-- Trees that agree off what concerns one template agree on what is written for another one. -/
theorem agree_beside (named : s.Named) (found : template ∈ d.templates root s)
    (mem : p ∈ d.templates root s)
    (ne : ∀ folder, (Bulk.outputFolder root p output flatten).destination? = some folder →
      (Bulk.outputFolder root template output flatten).destination? ≠ some folder)
    (apart : ∀ top, root.destination? = some top →
      (Bulk.outputFolder root p output flatten).destination? ≠ some top)
    (shown : d.Shown root place)
    (agree : FileTree.AgreeOff (Concerns root output template flatten place) t u) :
    (∀ folder, (Bulk.outputFolder root p output flatten).destination? = some folder →
      (∀ name, u.content? (folder ++ [name]) = t.content? (folder ++ [name])) ∧
        ∀ q, folder <+: q → q ≠ place → u.content? q = t.content? q) ∧
    ∀ q, (Bulk.reportFile root p output flatten).destination? = some q →
      u.content? q = t.content? q := by
  obtain ⟨dirs, stem, ext, lies, passes⟩ := Discovery.exists_lies named mem
  obtain ⟨dirs', stem', ext', lies', passes'⟩ := Discovery.exists_lies named found
  refine ⟨fun folder leads => ?_, fun q leads => agree q ?_⟩
  · have inside : ∀ q, folder <+: q → q ≠ place → u.content? q = t.content? q := by
      intro q start other
      refine agree q ?_
      rintro (one | owns)
      · exact other one
      · exact not_owns_of_prefix lies passes lies' passes' leads (ne folder leads) start owns
    refine ⟨fun name => inside _ (List.prefix_append _ _) ?_, inside⟩
    rintro rfl
    exact not_shown_of_outputFolder apart leads name shown
  · rintro (rfl | owns)
    · exact (apart_of_shows apart : ApartInBulk _ root output p false flatten).report _ leads shown
    · exact not_owns_report lies passes lies' leads ne owns

end

section

variable {kept off : List String → Prop} {template : Path} {options : WriteOptions}
  {head : Option Nat} {p p' q q' : Progress} {s s' t t' u u' : Files}

/-- The same is read at a path from all trees that come from one of two trees by sparing certain
places, and it has no restrictions. -/
def ReadsAlike (kept : List String → Prop) (s s' : Files) (path : Path) : Prop :=
  ∃ read : Except Error Node,
    (∀ document, read = .ok document → document.FreeOf [.restriction]) ∧
      (∀ t, FileTree.Spares kept s t → t.template path = read) ∧
      ∀ u, FileTree.Spares kept s' u → u.template path = read

/-- Trees that differ in the content of one template are alike to the search for the others. -/
theorem readsAlike_of_alikeBut {path : Path} {place : List String} (sound : t.WellFormed)
    (sound' : u.WellFormed) (found : template ∈ d.templates root (t.outlineOf root))
    (mem : path ∈ d.templates root (t.outlineOf root)) (other : path ≠ template)
    (located : template.destination? = some place) (alike : t.AlikeBut place u)
    (free : ∀ document, t.template path = .ok document → document.FreeOf [.restriction]) :
    ReadsAlike (d.Shown root) t u path := by
  have isFolder := FileTree.hasFolder_of_mem found
  have isFolder' := FileTree.hasFolder_mono alike.folders isFolder
  have mem' : path ∈ d.templates root (u.outlineOf root) :=
    (alike.templates_eq sound sound' isFolder).symm ▸ mem
  refine ⟨t.template path, free, fun t' spares => ?_, fun u' spares => ?_⟩
  · apply Discovery.template_eq sound isFolder mem spares.folders
    exact fun y content _ shown standing => (spares.files y content shown).mpr standing
  · refine (Discovery.template_eq sound' isFolder' mem' spares.folders ?_).trans
      (Discovery.template_eq sound isFolder mem alike.folders ?_)
    · exact fun y content _ shown standing => (spares.files y content shown).mpr standing
    · intro y content leads _ standing
      rw [alike.others y, standing]
      rintro rfl
      exact Discovery.destination_ne (sound.outlineOf root).named mem found other leads located

theorem agreeOff_of_spares (spares : FileTree.Spares (fun q => ¬ off q) t t') :
    FileTree.AgreeOff off t t' :=
  fun place here => FileTree.content?_congr fun content => spares.files place content here

/-- Two runs that get past a template agree after it if they did before, and their verdicts on it
are the same unless it is the one template. -/
theorem writeOne_alike {path : Path} {failure failure' : Option String}
    (owned : ApartInBulk (fun q => ¬ off q) root output template options.copyTemplate flatten)
    (reads : path ≠ template → ReadsAlike kept s s' path) (agree : FileTree.AgreeOff off t u)
    (start : FileTree.Spares kept s t) (start' : FileTree.Spares kept s' u)
    (ran : on (writeOne root output path (.generate head) options flatten) p t =
      ⟨.ok failure, p', t'⟩)
    (ran' : on (writeOne root output path (.generate head) options flatten) q u =
      ⟨.ok failure', q', u'⟩) :
    FileTree.AgreeOff off t' u' ∧ ∃ v v' : Verdict, (path ≠ template → v = v') ∧
      (failure = v.label? ∧ p'.printed = p.printed ++ v.line path) ∧
      (failure' = v'.label? ∧ q'.printed = q.printed ++ v'.line path) := by
  obtain ⟨v, judged, label, printed, carried⟩ := writeOne_eq_ok off ran
  obtain ⟨v', judged', label', printed', carried'⟩ := writeOne_eq_ok off ran'
  by_cases one : path = template
  · subst one
    have keeps : Keeps (fun q => ¬ off q)
        (writeOne root output path (.generate head) options flatten) := keeps_writeOne owned
    have left := agreeOff_of_spares (keeps.spares ran)
    have right := agreeOff_of_spares (keeps.spares ran')
    exact ⟨agree.step left right, v, v', fun other => absurd rfl other, ⟨label, printed⟩, label',
      printed'⟩
  · obtain ⟨read, free, same, same'⟩ := reads one
    rw [same t start] at judged
    rw [same' u start', prepare_quiet free head options q.generator p.generator, judged] at judged'
    obtain rfl := Option.some.inj judged'
    exact ⟨carried.agree carried' agree, v, v, fun _ => rfl, ⟨label, printed⟩, label', printed'⟩

/-- A run that gets past some templates gets past the first one, and past the others after it. -/
theorem writeEach_cons_ok {request : Request} {path : Path} {templates : List Path}
    {failed : List (String × String)}
    (ran : on (writeEach root output request options flatten (path :: templates)) p t =
      ⟨.ok failed, p', t'⟩) :
    ∃ failure p₁ t₁ failures,
      on (writeOne root output path request options flatten) p t = ⟨.ok failure, p₁, t₁⟩ ∧
      on (writeEach root output request options flatten templates) p₁ t₁ =
        ⟨.ok failures, p', t'⟩ ∧
      failed = failure.toList.map (fun label => (path.text, label)) ++ failures := by
  rw [writeEach] at ran
  obtain ⟨failure, p₁, t₁, one, ran⟩ := on_bind_ok.mp ran
  obtain ⟨failures, p₂, t₂, rest, last⟩ := on_bind_ok.mp ran
  cases last
  exact ⟨failure, p₁, t₁, failures, one, rest, rfl⟩

/-- Two runs that get past some templates agree after them if they did before. -/
theorem writeEach_alike {templates : List Path} {failed failed' : List (String × String)}
    (owned : ApartInBulk (fun q => ¬ off q) root output template options.copyTemplate flatten)
    (steady : ∀ path ∈ templates,
      ApartInBulk kept root output path options.copyTemplate flatten)
    (reads : ∀ path ∈ templates, path ≠ template → ReadsAlike kept s s' path)
    (agree : FileTree.AgreeOff off t u)
    (start : FileTree.Spares kept s t) (start' : FileTree.Spares kept s' u)
    (ran : on (writeEach root output (.generate head) options flatten templates) p t =
      ⟨.ok failed, p', t'⟩)
    (ran' : on (writeEach root output (.generate head) options flatten templates) q u =
      ⟨.ok failed', q', u'⟩) :
    FileTree.AgreeOff off t' u' ∧ ∃ accounts accounts',
      accounts.map Prod.fst = templates ∧
      List.Forall₂ (fun a b => a.1 = b.1 ∧ (a.1 ≠ template → a.2 = b.2)) accounts accounts' ∧
      (failed = Verdict.entries accounts ∧
        p'.printed = p.printed ++ Verdict.lines accounts) ∧
      (failed' = Verdict.entries accounts' ∧
        q'.printed = q.printed ++ Verdict.lines accounts') := by
  induction templates generalizing p q t u failed failed' with
  | nil =>
    cases ran
    cases ran'
    refine ⟨agree, [], [], rfl, .nil, ⟨rfl, ?_⟩, rfl, ?_⟩
    · exact String.append_empty.symm
    · exact String.append_empty.symm
  | cons path templates ih =>
    obtain ⟨first, steady⟩ := List.forall_mem_cons.mp steady
    obtain ⟨here, reads⟩ := List.forall_mem_cons.mp reads
    obtain ⟨failure, p₁, t₁, failures, one, rest, rfl⟩ := writeEach_cons_ok ran
    obtain ⟨failure', q₁, u₁, failures', one', rest', rfl⟩ := writeEach_cons_ok ran'
    obtain ⟨agree, v, v', same, ⟨rfl, printed⟩, rfl, printed'⟩ :=
      writeOne_alike owned here agree start start' one one'
    have keeps : Keeps kept (writeOne root output path (.generate head) options flatten) :=
      keeps_writeOne first
    obtain ⟨agree, accounts, accounts', whole, alike, ⟨rfl, printed₂⟩, rfl, printed₂'⟩ :=
      ih steady reads agree (start.trans (keeps.spares one)) (start'.trans (keeps.spares one'))
        rest rest'
    refine ⟨agree, (path, v) :: accounts, (path, v') :: accounts', ?_, ?_, ⟨rfl, ?_⟩, rfl, ?_⟩
    · rw [List.map_cons, whole]
    · exact .cons ⟨rfl, same⟩ alike
    · rw [printed₂, printed, Verdict.lines_cons, String.append_assoc]
    · rw [printed₂', printed', Verdict.lines_cons, String.append_assoc]

end

/-- The failures that halt a bulk run: those of the library itself, and those of output. -/
def Halts : CommandFailure → Prop
  | .template _ | .folderNotCreated _ | .notStaged _ | .notCreated _ | .notWritten _
  | .notMoved _ => True
  | _ => False

section

variable {request : Request} {options : WriteOptions} {p p' : Progress} {t t' : Files}
  {e : CommandFailure}

theorem OfFiles.halts (blame : OfFiles e) : Halts e := by
  cases e <;> first | exact trivial | exact blame.elim

theorem halts_of_writeReport {folder : Path} {stem report : String}
    (failed : on (writeReport folder stem report) p t = ⟨.error e, p', t'⟩) : Halts e := by
  rw [writeReport] at failed
  obtain ⟨-, -, e', same, blame⟩ | ⟨-, failed⟩ := on_createFolders_bind failed
  · cases same
    exact blame.halts
  · rw [on_require] at failed
    split at failed
    · cases failed
    · cases failed
      exact trivial

theorem halts_of_writeOne {path : Path}
    (failed : on (writeOne root output path request options flatten) p t = ⟨.error e, p', t'⟩) :
    Halts e := by
  have reported : ∀ {report label : String} {q : Progress} {s : Files},
      on (writeReport (Bulk.errorFolder root path output flatten) (Output.stem path) report >>=
        fun _ => pure (some label)) q s = ⟨.error e, p', t'⟩ → Halts e := by
    intro report label q s failed
    obtain failed | ⟨_, _, _, -, failed⟩ := on_bind_error.mp failed
    · exact halts_of_writeReport failed
    · cases failed
  rw [writeOne] at failed
  obtain failed | ⟨outcome, q, s, attempted, failed⟩ := on_bind_error.mp failed
  · cases failed
  have expanded : on (expand path request options
      (Bulk.outputFolder root path output flatten)) p t = ⟨outcome, q, s⟩ := by
    cases attempted
    rfl
  cases outcome with
  | ok expansion =>
    dsimp only at failed
    cases written : expansion.written with
    | none =>
      rw [written] at failed
      exact reported failed
    | some n =>
      rw [written] at failed
      cases failed
  | error failure =>
    dsimp only at failed
    cases known : reportable? failure with
    | some both =>
      rw [known] at failed
      exact reported failed
    | none =>
      rw [known] at failed
      cases failed
      obtain ⟨⟨error, rfl⟩, -⟩ | blame := expand_eq_error expanded
      · exact trivial
      · exact blame.halts

theorem halts_of_writeEach {templates : List Path}
    (failed : on (writeEach root output request options flatten templates) p t =
      ⟨.error e, p', t'⟩) : Halts e := by
  induction templates generalizing p t with
  | nil => cases failed
  | cons path templates ih =>
    rw [writeEach] at failed
    obtain failed | ⟨_, q, s, -, failed⟩ := on_bind_error.mp failed
    · exact halts_of_writeOne failed
    · obtain failed | ⟨_, _, _, -, failed⟩ := on_bind_error.mp failed
      · exact ih failed
      · cases failed

/-- A bulk run that is not halted gets past all its templates, and prints the summary after
that. -/
theorem writeAll_unhalted {bulk : BulkOptions} (isFolder : t.hasFolder root = true)
    (unhalted : ∀ e, (on (writeAll root request options bulk) p t).result = .error e → ¬ Halts e) :
    ∃ failed q, on (writeEach root (options.output.getD ⟨"tmp"⟩) request options bulk.flatten
        (bulk.discovery.templates root (t.outlineOf root))) p t =
          ⟨.ok failed, q, (on (writeAll root request options bulk) p t).tree⟩ ∧
      (on (writeAll root request options bulk) p t).progress.printed = q.printed ++
        Report.summary (bulk.discovery.templates root (t.outlineOf root)).length failed := by
  rw [writeAll, on_bind, on_discover, isFolder, if_pos rfl] at unhalted ⊢
  dsimp only at unhalted ⊢
  rw [on_bind] at unhalted ⊢
  rcases ran : on (writeEach root (options.output.getD ⟨"tmp"⟩) request options bulk.flatten
    (bulk.discovery.templates root (t.outlineOf root))) p t with ⟨result, q, s⟩
  rw [ran] at unhalted
  cases result with
  | error e => exact absurd (halts_of_writeEach ran) (unhalted e rfl)
  | ok failed =>
    dsimp only
    rw [on_bind, on_print]
    refine ⟨failed, q, ?_, ?_⟩ <;> cases failed.isEmpty <;> rfl

end

end Run

namespace Command

open Run (Verdict)

theorem run_tree (c : Command) (t : Files) :
    ((c.run (m := StateM Files)).run t).2 = (c.attempt t).tree := by
  rw [run_eq]

theorem run_stdout (c : Command) (t : Files) :
    ((c.run (m := StateM Files)).run t).1.stdout = (c.attempt t).progress.printed := by
  rw [run_eq]
  cases (c.attempt t).result <;> rfl

/-- The folder that a bulk run writes the variations of a template to. -/
def folderOf (root : Path) (options : WriteOptions) (bulk : BulkOptions) (p : Path) : Path :=
  Bulk.outputFolder root p (options.output.getD ⟨"tmp"⟩) bulk.flatten

/-- The file that a bulk run writes the report on a template to. -/
def reportOf (root : Path) (options : WriteOptions) (bulk : BulkOptions) (p : Path) : Path :=
  Bulk.reportFile root p (options.output.getD ⟨"tmp"⟩) bulk.flatten

/-- What one template holds does not matter to the others in a bulk enumeration. The trees before
two runs differ in the content of that template alone, and neither run is halted; then all other
templates have the same files in their folders, the same reports, and the same verdicts in what is
printed. -/
theorem others_unaffected {c : Command} {root template : Path} {head : Option Nat}
    {options : WriteOptions} {bulk : BulkOptions} {t u : Files} {place : List String}
    (enumerates : c = writeAll root (.generate head) options bulk)
    (sound : t.WellFormed) (sound' : u.WellFormed) (found : template ∈ c.templates t)
    (located : template.destination? = some place) (alike : t.AlikeBut place u)
    (distinct : ∀ p ∈ c.templates t, ∀ q ∈ c.templates t, p ≠ q → ∀ folder,
      (folderOf root options bulk p).destination? = some folder →
        (folderOf root options bulk q).destination? ≠ some folder)
    (apart : ¬ c.Collides t)
    (free : ∀ p ∈ c.templates t, p ≠ template → ∀ document, t.template p = .ok document →
      document.FreeOf [.restriction])
    (unhalted : ∀ e, (c.attempt t).result = .error e → ¬ Run.Halts e)
    (unhalted' : ∀ e, (c.attempt u).result = .error e → ¬ Run.Halts e) :
    let after := fun s : Files => ((c.run (m := StateM Files)).run s).2
    let printed := fun s : Files => ((c.run (m := StateM Files)).run s).1.stdout
    (∀ p ∈ c.templates t, p ≠ template →
      (∀ folder, (folderOf root options bulk p).destination? = some folder →
        (∀ name, (after u).content? (folder ++ [name]) = (after t).content? (folder ++ [name])) ∧
          ∀ q, folder <+: q → q ≠ place → (after u).content? q = (after t).content? q) ∧
      ∀ q, (reportOf root options bulk p).destination? = some q →
        (after u).content? q = (after t).content? q) ∧
    ∃ accounts accounts' : List (Path × Verdict), accounts.map Prod.fst = c.templates t ∧
      List.Forall₂ (fun a b => a.1 = b.1 ∧ (a.1 ≠ template → a.2 = b.2)) accounts accounts' ∧
      printed t = Verdict.output accounts ∧ printed u = Verdict.output accounts' := by
  subst enumerates
  dsimp only
  rw [run_tree, run_tree, run_stdout, run_stdout]
  -- what the runs find
  have isFolder := FileTree.hasFolder_of_mem found
  have isFolder' := FileTree.hasFolder_mono alike.folders isFolder
  have same := alike.templates_eq (d := bulk.discovery) sound sound' isFolder
  have shown : bulk.discovery.Shown root place := by
    obtain ⟨y, -, leads, shown, -⟩ := Discovery.exists_standing sound isFolder found
    exact Option.some.inj (located.symm.trans leads) ▸ shown
  have off : ∀ p ∈ bulk.discovery.templates root (t.outlineOf root), ∀ top,
      root.destination? = some top → (folderOf root options bulk p).destination? ≠ some top :=
    fun p mem top start leads => apart ⟨top, start, p, mem, leads⟩
  -- the two runs, side by side
  obtain ⟨failed, q, ran, printed⟩ := Run.writeAll_unhalted isFolder unhalted
  obtain ⟨failed', q', ran', printed'⟩ := Run.writeAll_unhalted isFolder' unhalted'
  rw [same] at ran' printed'
  obtain ⟨agree, accounts, accounts', whole, matched, ⟨rfl, lines⟩, rfl, lines'⟩ :=
    Run.writeEach_alike (Run.apartInBulk_concerns _ _ _ _ _ place)
      (fun p mem => Run.apart_of_shows (off p mem))
      (fun p mem other =>
        Run.readsAlike_of_alikeBut sound sound' found mem other located alike (free p mem other))
      (alike.agreeOff (.inl rfl)) (.refl _ t) (.refl _ u) ran ran'
  have count : accounts.length = _ := (List.length_map Prod.fst).symm.trans (congrArg _ whole)
  refine ⟨fun p mem other => ?_, accounts, accounts', whole, matched, ?_, ?_⟩
  · exact Run.agree_beside (sound.outlineOf root).named found mem (distinct p mem _ found other)
      (off p mem) shown agree
  · exact printed.trans (Verdict.output_eq count lines)
  · exact printed'.trans (Verdict.output_eq (matched.length_eq.symm.trans count) lines')

/-- A folder with two templates, which have two variations each. -/
def twoBeside : Files :=
  .folder [("r", .folder [("x.yaml", .file "- !ProcList [1, 2]\n".toUTF8),
    ("y.yaml", .file "- !ProcList [a, b]\n".toUTF8)])]

/-- The first of the two templates cannot be read any more. -/
def oneBroken : Files :=
  twoBeside.put ["r", "x.yaml"] (.file "!".toUTF8)

theorem wellFormed_twoBeside : twoBeside.WellFormed := by
  have r : Path.IsName "r" := ⟨by decide, by decide, by decide, by simp⟩
  have x : Path.IsName "x.yaml" := .of_length (by simp) (by decide)
  have y : Path.IsName "y.yaml" := .of_length (by simp) (by decide)
  refine .single r (.folder ?_ (by decide) ?_)
  · exact List.forall_mem_cons.mpr ⟨x, List.forall_mem_singleton.mpr y⟩
  · exact List.forall_mem_cons.mpr ⟨.file _, List.forall_mem_singleton.mpr (.file _)⟩

theorem wellFormed_oneBroken : oneBroken.WellFormed := by
  apply wellFormed_twoBeside.put (.file _)
  have r : Path.IsName "r" := ⟨by decide, by decide, by decide, by simp⟩
  have x : Path.IsName "x.yaml" := .of_length (by simp) (by decide)
  exact List.forall_mem_cons.mpr ⟨r, List.forall_mem_singleton.mpr x⟩

theorem alike_oneBroken : twoBeside.AlikeBut ["r", "x.yaml"] oneBroken := by
  have inside : twoBeside.standing? ["r"] = some .folder := rfl
  have bare : twoBeside.standing? (["r"] ++ ["x.yaml"]) ≠ some .folder := nofun
  have changed := FileTree.standing?_put (FileTree.isLeaf_file "!".toUTF8) inside bare
  refine ⟨⟨_, rfl⟩, ⟨"!".toUTF8, ?_⟩, fun q ne => ?_⟩
  · exact (changed _).trans (if_pos rfl)
  · exact (changed q).trans (if_neg ne)

/-- A command that writes the variations of both templates. -/
def writeBoth : Command :=
  writeAll ⟨"r"⟩ (.generate none) ⟨{}, some ⟨"out"⟩, true⟩ ⟨⟨[], false⟩, false⟩

theorem templates_outline_twoBeside :
    (Discovery.mk [] false).templates ⟨"r"⟩
      (.folder [("x.yaml", .file ()), ("y.yaml", .file ())]) = [⟨"r/x.yaml"⟩, ⟨"r/y.yaml"⟩] := by
  simp only [Discovery.templates, Discovery.ofEntries, Discovery.ofEntry, Discovery.below]
  rw [List.mergeSort_of_pairwise (by decide)]
  decide

/-- Whether a bulk run was not halted. -/
def endsWell : Except CommandFailure Unit → Bool
  | .ok _ | .error (.templatesFailed ..) => true
  | .error _ => false

theorem not_halts_of_endsWell {result : Except CommandFailure Unit} (well : endsWell result = true)
    (e : CommandFailure) (failed : result = .error e) : ¬ Run.Halts e := by
  subst failed
  cases e <;> first | exact id | cases well

theorem templates_writeBoth {t : Files}
    (outline : t.outlineOf ⟨"r"⟩ = .folder [("x.yaml", .file ()), ("y.yaml", .file ())]) :
    writeBoth.templates t = [⟨"r/x.yaml"⟩, ⟨"r/y.yaml"⟩] := by
  change (Discovery.mk [] false).templates ⟨"r"⟩ (t.outlineOf ⟨"r"⟩) = _
  rw [outline, templates_outline_twoBeside]

theorem attempt_writeBoth {t : Files} (isFolder : t.hasFolder ⟨"r"⟩ = true)
    (outline : t.outlineOf ⟨"r"⟩ = .folder [("x.yaml", .file ()), ("y.yaml", .file ())]) :
    writeBoth.attempt t = (do
      let failed ← Run.writeEach ⟨"r"⟩ ⟨"out"⟩ (.generate none) ⟨{}, some ⟨"out"⟩, true⟩ false
        [⟨"r/x.yaml"⟩, ⟨"r/y.yaml"⟩]
      Run.print (Report.summary 2 failed)
      unless failed.isEmpty do
        throw (.templatesFailed failed.length 2 ⟨"out"⟩)
      : Run (StateM Files) Unit).on ⟨.ofSeed writeBoth.seed, ""⟩ t := by
  change (Run.writeAll ⟨"r"⟩ _ _ _).on _ t = _
  rw [Run.writeAll, Run.on_bind, Run.on_discover, isFolder, if_pos rfl, outline]
  dsimp only
  rw [templates_outline_twoBeside]
  rfl

theorem not_collides_writeBoth : ¬ writeBoth.Collides twoBeside := by
  rintro ⟨place, start, template, -, leads⟩
  obtain ⟨front, rfl⟩ := Run.exists_place_of_outputFolder leads
  have top : (⟨"r"⟩ : Path).destination? = some ([] ++ ["r"]) := by decide
  rw [top] at start
  have last := (List.append_inj' (Option.some.inj start) rfl).2
  have short := congrArg String.length (List.cons.inj last).1
  rw [String.length_append] at short
  exact absurd (short.trans_ge (Nat.le_add_left _ _)) (by decide)

/-- Whether a node is a list that holds one choice between two scalars. -/
def isChoiceOfTwo : Node → Bool
  | .container .sequence [.choice [.scalar _, .scalar _]] => true
  | _ => false

theorem freeOf_of_isChoiceOfTwo {document : Node} (shape : isChoiceOfTwo document = true) :
    document.FreeOf [.restriction] := by
  unfold isChoiceOfTwo at shape
  split at shape
  · simp [Node.freeOf_iff (n := .container _ _), Node.freeOf_iff (n := .choice _),
      Node.freeOf_iff (n := .scalar _), Node.children, Node.rule]
  · cases shape

theorem freeOf_twoBeside {document : Node} (read : twoBeside.template ⟨"r/y.yaml"⟩ = .ok document) :
    document.FreeOf [.restriction] := by
  have shape : (twoBeside.template ⟨"r/y.yaml"⟩).toOption.all isChoiceOfTwo = true := by
    decide +kernel
  rw [read] at shape
  exact freeOf_of_isChoiceOfTwo shape

theorem endsWell_writeBoth :
    endsWell (writeBoth.attempt twoBeside).result = true ∧
      endsWell (writeBoth.attempt oneBroken).result = true := by
  rw [attempt_writeBoth rfl rfl, attempt_writeBoth rfl rfl]
  exact ⟨by decide +kernel, by decide +kernel⟩

theorem destinations_writeBoth :
    (folderOf ⟨"r"⟩ ⟨{}, some ⟨"out"⟩, true⟩ ⟨⟨[], false⟩, false⟩ ⟨"r/x.yaml"⟩).destination? =
        some ["out", "x_variations"] ∧
      (folderOf ⟨"r"⟩ ⟨{}, some ⟨"out"⟩, true⟩ ⟨⟨[], false⟩, false⟩ ⟨"r/y.yaml"⟩).destination? =
        some ["out", "y_variations"] := by
  decide

/-- A template that cannot be read does not change what is written for the one beside it. -/
theorem others_unaffected_twoBeside :
    twoBeside.WellFormed ∧ oneBroken.WellFormed ∧
      twoBeside.AlikeBut ["r", "x.yaml"] oneBroken ∧ ¬ writeBoth.Collides twoBeside ∧
      ⟨"r/x.yaml"⟩ ∈ writeBoth.templates twoBeside ∧
      ∀ name, ((writeBoth.run (m := StateM Files)).run oneBroken).2.content?
          (["out", "y_variations"] ++ [name]) =
        ((writeBoth.run (m := StateM Files)).run twoBeside).2.content?
          (["out", "y_variations"] ++ [name]) := by
  have both : writeBoth.templates twoBeside = [⟨"r/x.yaml"⟩, ⟨"r/y.yaml"⟩] :=
    templates_writeBoth rfl
  have found : ⟨"r/x.yaml"⟩ ∈ writeBoth.templates twoBeside := by
    rw [both]
    exact List.mem_cons_self
  have other : ⟨"r/y.yaml"⟩ ∈ writeBoth.templates twoBeside := by
    rw [both]
    exact List.mem_cons_of_mem _ List.mem_cons_self
  have differ : (⟨"r/y.yaml"⟩ : Path) ≠ ⟨"r/x.yaml"⟩ := by decide
  have distinct : ∀ p ∈ writeBoth.templates twoBeside, ∀ q ∈ writeBoth.templates twoBeside,
      p ≠ q → ∀ folder,
        (folderOf ⟨"r"⟩ ⟨{}, some ⟨"out"⟩, true⟩ ⟨⟨[], false⟩, false⟩ p).destination? =
            some folder →
          (folderOf ⟨"r"⟩ ⟨{}, some ⟨"out"⟩, true⟩ ⟨⟨[], false⟩, false⟩ q).destination? ≠
            some folder := by
    obtain ⟨x, y⟩ := destinations_writeBoth
    intro p mem q mem' ne folder leads same
    rw [both, List.mem_pair] at mem mem'
    obtain rfl | rfl := mem <;> obtain rfl | rfl := mem'
    · exact ne rfl
    · exact absurd (x.symm.trans (leads.trans (same.symm.trans y))) (by decide)
    · exact absurd (y.symm.trans (leads.trans (same.symm.trans x))) (by decide)
    · exact ne rfl
  have free : ∀ p ∈ writeBoth.templates twoBeside, p ≠ ⟨"r/x.yaml"⟩ →
      ∀ document, twoBeside.template p = .ok document → document.FreeOf [.restriction] := by
    intro p mem ne document read
    rw [both, List.mem_pair] at mem
    obtain rfl | rfl := mem
    · exact absurd rfl ne
    · exact freeOf_twoBeside read
  have ran := others_unaffected (c := writeBoth) rfl wellFormed_twoBeside wellFormed_oneBroken
    found (by decide) alike_oneBroken distinct not_collides_writeBoth free
    (not_halts_of_endsWell endsWell_writeBoth.1) (not_halts_of_endsWell endsWell_writeBoth.2)
  exact ⟨wellFormed_twoBeside, wellFormed_oneBroken, alike_oneBroken, not_collides_writeBoth,
    found, ((ran.1 _ other differ).1 _ destinations_writeBoth.2).1⟩

end Command
end ArenaVariations
