import ArenaVariations.Proofs.Bulk.Folders
import ArenaVariations.Proofs.Command.Write
import ArenaVariations.Proofs.Files.WellFormed

/-!
# Files that a run does not touch

A run can only add folders and write files, so folders stay folders, and a file keeps its content
as long as nothing is written at its place, where no file appears either. This is a preorder on
trees that every step respects, whether it succeeds or fails. What a whole run writes is told by the
names of its results.
-/

namespace ArenaVariations

open ArenaVariations.Random (Generator)

/-- Nothing has happened to the folders of a tree, nor to the files at certain places. -/
structure FileTree.Spares (kept : List String → Prop) (t t' : Files) : Prop where
  folders : ∀ q, t.standing? q = some .folder → t'.standing? q = some .folder
  files : ∀ q content, kept q →
    (t'.standing? q = some (.file content) ↔ t.standing? q = some (.file content))
  wellFormed : t.WellFormed → t'.WellFormed

namespace FileTree.Spares

variable {kept : List String → Prop} {t t' t'' : Files}

theorem refl (kept : List String → Prop) (t : Files) : Spares kept t t :=
  ⟨fun _ there => there, fun _ _ _ => Iff.rfl, fun h => h⟩

theorem trans (first : Spares kept t t') (second : Spares kept t' t'') : Spares kept t t'' where
  folders := fun q there => second.folders q (first.folders q there)
  files := fun q content here => (second.files q content here).trans (first.files q content here)
  wellFormed := fun h => second.wellFormed (first.wellFormed h)

theorem of_createFolders (t : Files) (path : Path) : Spares kept t (t.createFolders path).2 where
  folders := fun _ there => (t.createFolders_grown path).standing?_eq there
  files := fun _ _ _ => (t.createFolders_grown path).standing?_eq_file
  wellFormed := fun h => h.createFolders path

/-- What was found at a path whose place is kept is found there still. -/
theorem find (spares : Spares kept t t') {path : Path} {content : ByteArray}
    (here : ∀ q, path.destination? = some q → kept q)
    (there : t.find path = .ok (.file content)) : t'.find path = .ok (.file content) := by
  obtain ⟨target, led, found⟩ := find_eq_ok.mp there
  refine find_eq_ok.mpr ⟨target, place_mono spares.folders led, ?_⟩
  apply standing?_eq_file_iff.mp
  apply (spares.files target content (here target (destination?_of_place led))).mpr
  exact standing?_eq_file_iff.mpr found

end FileTree.Spares

namespace Run

/-- A part of a run does nothing to folders and to the files at certain places. -/
def Keeps {α : Type} (kept : List String → Prop) (r : Run (StateM Files) α) : Prop :=
  ∀ p t, FileTree.Spares kept t (r.on p t).tree

section

variable {α β : Type} {kept : List String → Prop}

theorem Keeps.spares {r : Run (StateM Files) α} {result : Except CommandFailure α}
    {p p' : Progress} {t t' : Files} (keeps : Keeps kept r) (ran : r.on p t = ⟨result, p', t'⟩) :
    FileTree.Spares kept t t' := by
  have spares := keeps p t
  rwa [ran] at spares

theorem keeps_pure (a : α) : Keeps kept (pure a : Run (StateM Files) α) :=
  fun _ t => .refl kept t

theorem keeps_throw (e : CommandFailure) : Keeps kept (throw e : Run (StateM Files) α) :=
  fun _ t => .refl kept t

/-- What comes second has to respect the places only after what came first has given its result. -/
theorem Keeps.bind {r : Run (StateM Files) α} {f : α → Run (StateM Files) β} (first : Keeps kept r)
    (second : ∀ a p t q s, r.on p t = ⟨.ok a, q, s⟩ → Keeps kept (f a)) : Keeps kept (r >>= f) := by
  intro p t
  rw [on_bind]
  rcases ran : r.on p t with ⟨result, q, s⟩
  have start := first.spares ran
  cases result with
  | error e => exact start
  | ok a => exact start.trans (second a p t q s ran q s)

theorem Keeps.seq {r : Run (StateM Files) α} {f : α → Run (StateM Files) β} (first : Keeps kept r)
    (second : ∀ a, Keeps kept (f a)) : Keeps kept (r >>= f) :=
  first.bind fun a _ _ _ _ _ => second a

theorem Keeps.attempt {r : Run (StateM Files) α} (h : Keeps kept r) :
    Keeps kept (ExceptT.lift r.run) :=
  h

theorem keeps_print (text : String) : Keeps kept (print text : Run (StateM Files) Unit) :=
  fun _ t => .refl kept t

theorem keeps_ofTemplate (path : Path) (x : Except Error α) :
    Keeps kept (ofTemplate path x : Run (StateM Files) α) := by
  cases x with
  | ok a => exact keeps_pure a
  | error e => exact keeps_throw _

theorem keeps_read (path : Path) : Keeps kept (inWorkspace (read path)) := by
  intro p t
  rw [on_read]
  exact .refl kept t

theorem keeps_require {action : StateM Files Bool}
    (keeps : Keeps kept (inWorkspace action : Run (StateM Files) Bool)) (failure : CommandFailure) :
    Keeps kept (require action failure) := by
  intro p t
  rw [on_require]
  exact keeps p t

theorem keeps_createFolders (path : Path) : Keeps kept (createFolders path) := by
  intro p t
  rw [on_createFolders]
  exact .of_createFolders t path

theorem keeps_writeText {path : Path} (text : String)
    (apart : ∀ q, path.destination? = some q → ¬ kept q) :
    Keeps kept (inWorkspace (Workspace.writeText path text)) := by
  intro p t
  rw [on_inWorkspace]
  change FileTree.Spares kept t (t.write path text.toUTF8).2
  have sound := fun h : t.WellFormed => h.write path text.toUTF8
  obtain failed | ⟨t', folder, name, written, leads, -, bare, changed⟩ :=
    t.write_cases path text.toUTF8
  · rw [failed]
    exact .refl kept t
  · rw [written] at sound ⊢
    refine ⟨fun q there => ?_, fun q content here => ?_, sound⟩
    · rw [changed, if_neg, there]
      rintro rfl
      exact bare there
    · rw [changed, if_neg]
      rintro rfl
      exact apart _ leads here

end

end Run

/-- The names that the results of a template may have. -/
def Results.MayBe (stem : String) (copy : Bool) (name : String) : Prop :=
  (∃ index labels, name = Output.variationName stem index labels) ∨ name = labelIndexName ∨
    copy = true ∧ name = templateCopyName

namespace Run

/-- No result of a template that is written to a folder has a place that is kept. -/
def Apart (kept : List String → Prop) (path folder : Path) (copy : Bool) : Prop :=
  ∀ place, folder.destination? = some place →
    ∀ name, Results.MayBe (Output.stem path) copy name → ¬ kept (place ++ [name])

section

variable {kept : List String → Prop} {path folder : Path} {request : Request}
  {options : WriteOptions}

theorem keeps_writeAllTo {files : List (String × String)}
    (named : ∀ file ∈ files, Path.IsName file.1)
    (apart : ∀ place, folder.destination? = some place →
      ∀ file ∈ files, ¬ kept (place ++ [file.1])) : Keeps kept (writeAllTo folder files) := by
  induction files with
  | nil => exact keeps_pure _
  | cons file files ih =>
    obtain ⟨name, named⟩ := List.forall_mem_cons.mp named
    rw [writeAllTo]
    refine .seq (keeps_require (keeps_writeText _ fun q leads => ?_) _) fun _ => ?_
    · obtain ⟨place, led, rfl⟩ :=
        Path.destination?_of_concat (Path.lead_names_join_name folder name).2 name.ne_dots leads
      exact apart place led file List.mem_cons_self
    · apply ih named
      exact fun place leads other mem => apart place leads other (List.mem_cons_of_mem _ mem)

/-- Some of the results that a template leads to do nothing to the places that are kept. -/
theorem spares_of_stored {document : Node} {mode : Mode} {amount : Nat} {copy : Bool}
    {g : Generator}
    {results : Results} {done : List (String × String)} {p : Progress} {t t' : Files}
    (apart : Apart kept path folder copy)
    (decided : resultsOf path document mode amount copy g = .ok results)
    (part : done <+: results.files) (stored : on (writeAllTo folder done) p t = ⟨.ok (), p, t'⟩) :
    FileTree.Spares kept t t' := by
  obtain ⟨template, text, vs, texts, -, copied, -, -, rfl⟩ := resultsOf_eq_ok decided
  have keeps : Keeps kept (writeAllTo folder done) := by
    apply keeps_writeAllTo
    · intro file mem
      exact Results.isName_of_mem_filesOf (Output.slash_not_mem_stem path) (part.subset mem)
    · intro place leads file mem
      apply apart place leads
      obtain ⟨i, v, -, named⟩ | named | ⟨given, named⟩ :=
        Results.name_of_mem_filesOf (part.subset mem)
      · exact .inl ⟨i + 1, v.labels, named⟩
      · exact .inr (.inl named)
      · exact .inr (.inr ⟨(isSome_of_copyText copied).symm.trans given, named⟩)
  exact keeps.spares stored

theorem keeps_produce {copy : Bool} (apart : Apart kept path folder copy) (document : Node)
    (mode : Mode) (amount : Nat) :
    Keeps kept (produce path document mode amount folder copy) := by
  intro p t
  rcases ran : on (produce path document mode amount folder copy) p t with ⟨r, p', t'⟩
  have start : FileTree.Spares kept t (enclosed folder t) := .of_createFolders t (enclosing folder)
  have created := start.trans (.of_createFolders (enclosed folder t) folder)
  obtain ⟨-, ⟨e, -, -, rfl⟩ | ends⟩ := produce_ends ran
  · exact .refl kept t'
  · cases ends with
    | failed => exact start
    | stopped => exact start
    | interrupted decided part stored =>
      exact created.trans (spares_of_stored apart decided part stored)
    | written decided stored =>
      exact created.trans (spares_of_stored apart decided List.prefix_rfl stored)

theorem keeps_expand (apart : Apart kept path folder options.copyTemplate) :
    Keeps kept (expand path request options folder) := by
  rw [expand]
  refine .seq (keeps_read path) fun read => .seq (keeps_ofTemplate _ _) fun document => ?_
  refine .seq (keeps_ofTemplate _ _) fun explanation => ?_
  split
  · exact keeps_pure _
  · exact .seq (keeps_produce apart document _ _) fun _ => keeps_pure _

theorem keeps_write (apart : Apart kept path (target path options) options.copyTemplate) :
    Keeps kept (write path request options) := by
  intro p t
  have expanded : FileTree.Spares kept t
      (on (expand path request options (target path options)) p t).tree :=
    keeps_expand apart p t
  rw [on_write]
  split
  · exact .refl kept t
  · rcases ran : on (expand path request options (target path options)) p t with ⟨result, q, s⟩
    rw [ran] at expanded
    cases result with
    | error e => exact expanded
    | ok expansion =>
      dsimp only
      split <;> exact expanded

theorem keeps_count : Keeps kept (count path) := by
  rw [count]
  refine .seq (keeps_read path) fun read => .seq (keeps_ofTemplate _ _) fun document => ?_
  exact .seq (keeps_ofTemplate _ _) fun explanation => keeps_print _

theorem on_discover (root : Path) (bulk : BulkOptions) (p : Progress) (t : Files) :
    (discover root bulk).on p t =
      if t.hasFolder root then ⟨.ok (bulk.discovery.templates root (t.outlineOf root)), p, t⟩
      else ⟨.error (.notFolder root), p, t⟩ := by
  have first : (Workspace.isFolder root : StateM Files _).run t = (t.hasFolder root, t) := rfl
  rw [discover, on_bind, on_inWorkspace, first]
  cases t.hasFolder root <;> rfl

theorem keeps_discover (root : Path) (bulk : BulkOptions) : Keeps kept (discover root bulk) := by
  intro p t
  rw [on_discover]
  split <;> exact .refl kept t

theorem keeps_countOne (template : Path) : Keeps kept (countOne template) := by
  rw [countOne]
  refine .seq (keeps_read template) fun read => ?_
  split
  · exact keeps_pure _
  · split
    · exact keeps_pure _
    · exact keeps_throw _

theorem keeps_countEach (templates : List Path) : Keeps kept (templates.mapM countOne) := by
  induction templates with
  | nil => exact keeps_pure _
  | cons template templates ih =>
    rw [List.mapM_cons]
    exact .seq (keeps_countOne template) fun report => .seq ih fun reports => keeps_pure _

theorem keeps_countAll (root : Path) (json : Bool) (bulk : BulkOptions) :
    Keeps kept (countAll root json bulk) := by
  rw [countAll]
  refine .seq (keeps_discover root bulk) fun templates => ?_
  refine .seq (keeps_countEach templates) fun reports => .seq (keeps_print _) fun _ => ?_
  dsimp only
  split
  · exact keeps_pure _
  · exact keeps_throw _

theorem keeps_writeReport {stem : String}
    (apart : ∀ q, (folder.join ⟨stem ++ ".error.txt"⟩).destination? = some q → ¬ kept q)
    (report : String) : Keeps kept (writeReport folder stem report) := by
  rw [writeReport]
  exact .seq (keeps_createFolders folder) fun _ => keeps_require (keeps_writeText _ apart) _

variable {root output template : Path} {flatten : Bool}

/-- Nothing that a bulk run writes for a template has a place that is kept. -/
structure ApartInBulk (kept : List String → Prop) (root output template : Path)
    (copy flatten : Bool) : Prop where
  results : Apart kept template (Bulk.outputFolder root template output flatten) copy
  report : ∀ q, (Bulk.reportFile root template output flatten).destination? = some q → ¬ kept q

theorem ApartInBulk.mono {other : List String → Prop} {copy : Bool}
    (apart : ApartInBulk kept root output template copy flatten) (fewer : ∀ q, other q → kept q) :
    ApartInBulk other root output template copy flatten where
  results := fun place leads name mayBe here => apart.results place leads name mayBe (fewer _ here)
  report := fun q leads here => apart.report q leads (fewer q here)

theorem keeps_writeOne
    (apart : ApartInBulk kept root output template options.copyTemplate flatten) :
    Keeps kept (writeOne root output template request options flatten) := by
  have reported := fun report => keeps_writeReport apart.report report
  rw [writeOne]
  refine .seq (keeps_expand apart.results).attempt fun outcome => ?_
  cases outcome with
  | ok expansion =>
    dsimp only
    cases expansion.written with
    | some written => exact .seq (keeps_print _) fun _ => keeps_pure _
    | none => exact .seq (reported _) fun _ => keeps_pure _
  | error failure =>
    dsimp only
    cases reportable? failure with
    | some both => exact .seq (reported _) fun _ => keeps_pure _
    | none => exact keeps_throw _

theorem keeps_writeEach {templates : List Path}
    (apart : ∀ template ∈ templates,
      ApartInBulk kept root output template options.copyTemplate flatten) :
    Keeps kept (writeEach root output request options flatten templates) := by
  induction templates with
  | nil => exact keeps_pure _
  | cons template templates ih =>
    obtain ⟨first, rest⟩ := List.forall_mem_cons.mp apart
    rw [writeEach]
    refine .seq (keeps_writeOne first) fun failure => ?_
    exact .seq (ih rest) fun failures => keeps_pure _

/-- A bulk run writes what belongs to the templates that it finds at its start. -/
theorem spares_writeAll {bulk : BulkOptions} {p : Progress} {t : Files}
    (apart : ∀ template ∈ bulk.discovery.templates root (t.outlineOf root),
      ApartInBulk kept root (options.output.getD ⟨"tmp"⟩) template options.copyTemplate
        bulk.flatten) :
    FileTree.Spares kept t ((writeAll root request options bulk).on p t).tree := by
  rw [writeAll, on_bind, on_discover]
  cases t.hasFolder root with
  | false => exact .refl kept t
  | true =>
    refine Keeps.seq (keeps_writeEach apart) (fun failed => .seq (keeps_print _) fun _ => ?_) p t
    split
    · exact keeps_pure _
    · exact keeps_throw _

end

end Run

end ArenaVariations
