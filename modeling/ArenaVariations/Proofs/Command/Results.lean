import Mathlib.Data.List.Forall2
import ArenaVariations.Proofs.Command.Steps
import ArenaVariations.Proofs.Files.Places
import ArenaVariations.Proofs.Output.LabelIndex
import ArenaVariations.Proofs.Output.Name

/-!
# What results are written

The results of a template are the index that lists its variations, the copy of the template, and the
variations under their numbered names. All of these have different names, so that none of them is
lost when they are written one after the other into one folder, and nothing else changes.
-/

namespace ArenaVariations

/-- The results of a template. -/
structure Results where
  /-- The name and the text of each file. -/
  files : List (String × String)
  /-- The number of variations among them. -/
  written : Nat
deriving Inhabited

namespace Results

/-- The files of variations, numbered from the given number on, and their rows in the index. -/
def ofVariationsFrom (stem : String) (index : Nat) :
    List Variation → Except Error (List ((String × String) × String))
  | [] => return []
  | v :: vs => do
    let first ← ofVariation stem index v
    return first :: (← ofVariationsFrom stem (index + 1) vs)

/-- The results that consist of variations with their rows, and of the copy of the template. -/
def ofEntries (copy : Option String) (entries : List ((String × String) × String)) : Results :=
  ⟨(labelIndexName, String.join (entries.map Prod.snd)) ::
    (copy.toList.map fun text => (templateCopyName, text)) ++ entries.map Prod.fst, entries.length⟩

/-- The rows of the index for some variations: the name of each file, and its labels. -/
def rows (stem : String) (vs : List Variation) : List (String × Labels) :=
  (vs.zipIdx 1).map fun v => (Output.variationName stem v.2 v.1.labels, v.1.labels)

/-- The files for some variations that have been written out. -/
def filesOf (stem : String) (copy : Option String) (vs : List Variation) (texts : List String) :
    List (String × String) :=
  (labelIndexName, String.join ((rows stem vs).map fun r => LabelIndex.row r.1 r.2)) ::
    (copy.toList.map fun text => (templateCopyName, text)) ++
      ((rows stem vs).map Prod.fst).zip texts

theorem ofVariationsFrom_eq_ok {stem : String} {index : Nat} {vs : List Variation}
    {entries : List ((String × String) × String)}
    (written : ofVariationsFrom stem index vs = .ok entries) :
    ∃ texts, List.Forall₂ (fun v text => v.node.toYaml = .ok text) vs texts ∧
      entries.map Prod.fst = ((vs.zipIdx index).map fun v =>
        Output.variationName stem v.2 v.1.labels).zip texts ∧
      entries.map Prod.snd = (vs.zipIdx index).map fun v =>
        LabelIndex.row (Output.variationName stem v.2 v.1.labels) v.1.labels := by
  induction vs generalizing index entries with
  | nil =>
    cases written
    exact ⟨[], .nil, rfl, rfl⟩
  | cons v vs ih =>
    rw [ofVariationsFrom] at written
    obtain ⟨entry, first, written⟩ := bind_eq_ok.mp written
    obtain ⟨rest, others, same⟩ := bind_eq_ok.mp written
    obtain rfl := pure_eq_ok.mp same
    obtain ⟨text, here, same⟩ := bind_eq_ok.mp first
    obtain rfl := pure_eq_ok.mp same
    obtain ⟨texts, each, files, rows⟩ := ih others
    refine ⟨text :: texts, .cons here each, ?_, ?_⟩
    · rw [List.map_cons, files]
      rfl
    · rw [List.map_cons, rows]
      rfl

/-- The results of a template are the files for its variations, and tell how many there are. -/
theorem ofEntries_of_ofVariationsFrom {stem : String} (copy : Option String) {vs : List Variation}
    {entries : List ((String × String) × String)}
    (written : ofVariationsFrom stem 1 vs = .ok entries) :
    ∃ texts, List.Forall₂ (fun v text => v.node.toYaml = .ok text) vs texts ∧
      ofEntries copy entries = ⟨filesOf stem copy vs texts, vs.length⟩ := by
  obtain ⟨texts, each, files, index⟩ := ofVariationsFrom_eq_ok written
  refine ⟨texts, each, ?_⟩
  have names : (rows stem vs).map Prod.fst = (vs.zipIdx 1).map fun v =>
      Output.variationName stem v.2 v.1.labels := by
    rw [rows, List.map_map]
    rfl
  have listed : ((rows stem vs).map fun r => LabelIndex.row r.1 r.2) = (vs.zipIdx 1).map fun v =>
      LabelIndex.row (Output.variationName stem v.2 v.1.labels) v.1.labels := by
    rw [rows, List.map_map]
    rfl
  have length : entries.length = vs.length := by
    rw [← List.length_map Prod.snd, index, List.length_map, List.length_zipIdx]
  rw [ofEntries, filesOf, names, listed, files, index, length]

theorem getElem?_rows (stem : String) (vs : List Variation) (i : Nat) :
    (rows stem vs)[i]? =
      vs[i]?.map fun v => (Output.variationName stem (i + 1) v.labels, v.labels) := by
  rw [rows, List.getElem?_map, List.getElem?_zipIdx, Option.map_map, Nat.add_comm]
  rfl

theorem length_rows (stem : String) (vs : List Variation) : (rows stem vs).length = vs.length := by
  rw [rows, List.length_map, List.length_zipIdx]

theorem mem_rows {stem : String} {vs : List Variation} {r : String × Labels}
    (mem : r ∈ rows stem vs) : ∃ i v, vs[i]? = some v ∧
      r = (Output.variationName stem (i + 1) v.labels, v.labels) := by
  obtain ⟨i, found⟩ := List.mem_iff_getElem?.mp mem
  rw [getElem?_rows, Option.map_eq_some_iff] at found
  obtain ⟨v, there, same⟩ := found
  exact ⟨i, v, there, same.symm⟩

/-- Variations have different names. -/
theorem nodup_rows (stem : String) (vs : List Variation) :
    ((rows stem vs).map Prod.fst).Nodup := by
  rw [List.Nodup, List.pairwise_iff_getElem]
  intro i j hi hj less same
  have named : ∀ k (bound : k < ((rows stem vs).map Prod.fst).length),
      ∃ labels, ((rows stem vs).map Prod.fst)[k] = Output.variationName stem (k + 1) labels := by
    intro k bound
    rw [List.length_map, length_rows] at bound
    have row := getElem?_rows stem vs k
    rw [List.getElem?_eq_getElem bound, Option.map_some] at row
    obtain ⟨within, row⟩ := List.getElem?_eq_some_iff.mp row
    refine ⟨vs[k].labels, ?_⟩
    rw [List.getElem_map, row]
  obtain ⟨labels, first⟩ := named i hi
  obtain ⟨labels', second⟩ := named j hj
  rw [first, second] at same
  have numbers := Output.variationName_injective same
  omega

theorem map_fst_filesOf {stem : String} {copy : Option String} {vs : List Variation}
    {texts : List String} (length : vs.length = texts.length) :
    (filesOf stem copy vs texts).map Prod.fst =
      labelIndexName :: (copy.toList.map fun _ => templateCopyName) ++
        (rows stem vs).map Prod.fst := by
  rw [filesOf, List.map_append, List.map_fst_zip, List.map_cons, List.map_map]
  · rfl
  · rw [List.length_map, length_rows, length]

/-- No two results have the same name. -/
theorem nodup_filesOf (stem : String) (copy : Option String) {vs : List Variation}
    {texts : List String} (length : vs.length = texts.length) :
    ((filesOf stem copy vs texts).map Prod.fst).Nodup := by
  rw [map_fst_filesOf length, List.nodup_append]
  refine ⟨?_, nodup_rows stem vs, ?_⟩
  · cases copy <;> simp [labelIndexName, templateCopyName]
  · intro name among other mem
    obtain ⟨r, row, rfl⟩ := List.mem_map.mp mem
    obtain ⟨i, v, -, rfl⟩ := mem_rows row
    obtain rfl | copied := List.mem_cons.mp among
    · exact (Output.variationName_ne_labelIndexName stem (i + 1) v.labels).symm
    · obtain ⟨text, -, rfl⟩ := List.mem_map.mp copied
      exact (Output.variationName_ne_templateCopyName stem (i + 1) v.labels).symm

/-- What a result may be called. -/
theorem name_of_mem_filesOf {stem : String} {copy : Option String} {vs : List Variation}
    {texts : List String} {file : String × String} (mem : file ∈ filesOf stem copy vs texts) :
    (∃ i v, vs[i]? = some v ∧ file.1 = Output.variationName stem (i + 1) v.labels) ∨
      file.1 = labelIndexName ∨ copy.isSome = true ∧ file.1 = templateCopyName := by
  obtain mem | mem := List.mem_append.mp mem
  · obtain rfl | mem := List.mem_cons.mp mem
    · exact .inr (.inl rfl)
    · obtain ⟨text, given, rfl⟩ := List.mem_map.mp mem
      rw [Option.mem_toList] at given
      exact .inr (.inr ⟨Option.isSome_iff_exists.mpr ⟨text, given⟩, rfl⟩)
  · obtain ⟨r, row, same⟩ := List.mem_map.mp (List.of_mem_zip mem).1
    obtain ⟨i, v, there, rfl⟩ := mem_rows row
    exact .inl ⟨i, v, there, same.symm⟩

/-- The file of a variation is among the results. -/
theorem mem_filesOf_of_variation (stem : String) (copy : Option String) {vs : List Variation}
    {texts : List String} {i : Nat} {v : Variation} {text : String} (there : vs[i]? = some v)
    (written : texts[i]? = some text) :
    (Output.variationName stem (i + 1) v.labels, text) ∈ filesOf stem copy vs texts := by
  apply List.mem_append_right
  apply List.mem_of_getElem?
  rw [List.getElem?_zip_eq_some, List.getElem?_map, getElem?_rows, there]
  exact ⟨rfl, written⟩

/-- The index is among the results. -/
theorem mem_filesOf_of_index (stem : String) (copy : Option String) (vs : List Variation)
    (texts : List String) :
    (labelIndexName, String.join ((rows stem vs).map fun r => LabelIndex.row r.1 r.2)) ∈
      filesOf stem copy vs texts :=
  List.mem_append_left _ List.mem_cons_self

/-- The copy of the template is among the results. -/
theorem mem_filesOf_of_copy (stem text : String) (vs : List Variation) (texts : List String) :
    (templateCopyName, text) ∈ filesOf stem (some text) vs texts :=
  List.mem_append_left _ (List.mem_cons_of_mem _ (List.mem_singleton_self _))

theorem isName_labelIndexName : Path.IsName labelIndexName :=
  .of_length (by simp [labelIndexName]) (by decide)

theorem isName_templateCopyName : Path.IsName templateCopyName :=
  .of_length (by simp [templateCopyName]) (by decide)

theorem isName_of_mem_filesOf {stem : String} (slashless : '/' ∉ stem.toList)
    {copy : Option String} {vs : List Variation} {texts : List String} {file : String × String}
    (mem : file ∈ filesOf stem copy vs texts) : Path.IsName file.1 := by
  obtain ⟨i, v, -, named⟩ | named | ⟨-, named⟩ := name_of_mem_filesOf mem
  · rw [named]
    exact Output.isName_variationName slashless (i + 1) v.labels
  · rw [named]
    exact isName_labelIndexName
  · rw [named]
    exact isName_templateCopyName

end Results

namespace Run

/-- Write files into a folder, one after the other. -/
def writeAllTo (folder : Path) : List (String × String) → Run (StateM Files) Unit
  | [] => return
  | (name, text) :: files => do
    require (Workspace.writeText (folder.join ⟨name⟩) text) (.notMoved (folder.join ⟨name⟩))
    writeAllTo folder files

theorem on_writeAllTo_cons (folder : Path) (file : String × String) (files : List (String × String))
    (p : Progress) (t : Files) :
    on (writeAllTo folder (file :: files)) p t =
      if (t.write (folder.join ⟨file.1⟩) file.2.toUTF8).1 then
        on (writeAllTo folder files) p (t.write (folder.join ⟨file.1⟩) file.2.toUTF8).2
      else
        ⟨.error (.notMoved (folder.join ⟨file.1⟩)), p,
          (t.write (folder.join ⟨file.1⟩) file.2.toUTF8).2⟩ := by
  have first : (Workspace.writeText (folder.join ⟨file.1⟩) file.2 : StateM Files _).run t =
      t.write (folder.join ⟨file.1⟩) file.2.toUTF8 := rfl
  rw [writeAllTo, on_bind, on_require, first]
  cases (t.write (folder.join ⟨file.1⟩) file.2.toUTF8).1 <;> rfl

section

variable {folder : Path} {files : List (String × String)} {p p' : Progress} {t t' : Files}

/-- A file that is written into a folder stands where the folder leads to. -/
theorem write_join_cases (t : Files) {name : String} (named : Path.IsName name)
    (content : ByteArray) :
    t.write (folder.join ⟨name⟩) content = (false, t) ∨
      ∃ t' place, t.write (folder.join ⟨name⟩) content = (true, t') ∧
        folder.destination? = some place ∧ t.standing? (place ++ [name]) ≠ some .folder ∧
        ∀ q, t'.standing? q =
          if q = place ++ [name] then some (.file content) else t.standing? q := by
  obtain failed | ⟨t', front, last, written, leads, -, bare, changed⟩ :=
    t.write_cases (folder.join ⟨name⟩) content
  · exact .inl failed
  · rw [Path.destination?, (folder.lead_names_join_name named).2, Path.walk?_append] at leads
    obtain ⟨place, led, last'⟩ := Option.bind_eq_some_iff.mp leads
    rw [Path.walk?_of_forall (by simpa using named.ne_dots)] at last'
    have same := Option.some.inj last'
    rw [← same] at bare changed
    exact .inr ⟨t', place, written, led, bare, changed⟩

/-- If all files are written, each of them stands in the folder, and everything else is as
before. -/
theorem writeAllTo_eq_ok (named : ∀ file ∈ files, Path.IsName file.1)
    (distinct : (files.map Prod.fst).Nodup) {u : Unit}
    (written : on (writeAllTo folder files) p t = ⟨.ok u, p', t'⟩) {place : List String}
    (leads : folder.destination? = some place) :
    (∀ file ∈ files, t'.standing? (place ++ [file.1]) = some (.file file.2.toUTF8)) ∧
      ∀ q, (∀ file ∈ files, q ≠ place ++ [file.1]) → t'.standing? q = t.standing? q := by
  induction files generalizing t with
  | nil =>
    cases written
    exact ⟨List.forall_mem_nil _, fun _ _ => rfl⟩
  | cons file files ih =>
    obtain ⟨first, rest⟩ := List.forall_mem_cons.mp named
    obtain ⟨fresh, distinct⟩ := List.nodup_cons.mp distinct
    rw [on_writeAllTo_cons] at written
    obtain failed | ⟨t₁, place', made, leads', -, changed⟩ :=
      write_join_cases t first file.2.toUTF8
    · rw [failed] at written
      cases written
    · obtain rfl := Option.some.inj (leads.symm.trans leads')
      rw [made, if_pos rfl] at written
      obtain ⟨each, others⟩ := ih rest distinct written
      constructor
      · refine List.forall_mem_cons.mpr ⟨?_, each⟩
        rw [others, changed, if_pos rfl]
        intro other mem same
        have names := (List.cons.inj (List.append_cancel_left same)).1
        exact fresh (List.mem_map.mpr ⟨other, mem, names.symm⟩)
      · intro q elsewhere
        obtain ⟨here, there⟩ := List.forall_mem_cons.mp elsewhere
        rw [others q there, changed, if_neg here]

/-- Files can be written only if the folder leads somewhere. -/
theorem exists_destination_of_writeAllTo {file : String × String}
    (named : Path.IsName file.1) {u : Unit}
    (written : on (writeAllTo folder (file :: files)) p t = ⟨.ok u, p', t'⟩) :
    ∃ place, folder.destination? = some place := by
  rw [on_writeAllTo_cons] at written
  obtain failed | ⟨-, place, -, leads, -⟩ := write_join_cases t named file.2.toUTF8
  · rw [failed] at written
    cases written
  · exact ⟨place, leads⟩

end

end Run

end ArenaVariations
