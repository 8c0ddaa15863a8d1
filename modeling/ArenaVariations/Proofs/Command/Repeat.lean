import ArenaVariations.Proofs.Bulk.Order
import ArenaVariations.Proofs.Command.Templates

/-!
# Repeating a bulk run

What a bulk run writes is never found by a search below its root: variations, the index and the copy
of a template are in a folder of variations, which is not looked into, and a report is not called as
templates are. As a search depends only on the files that it finds, a second run processes the same
templates as the first one, whatever became of that.
-/

namespace ArenaVariations

namespace FileTree

variable {root : Path} {t t' : Files}

theorem hasFolder_eq_true :
    t.hasFolder root = true ↔
      ∃ top entries, t.place root = .ok top ∧ t.at? top = some (.folder entries) := by
  rw [hasFolder]
  constructor
  · intro isFolder
    split at isFolder
    · next entries found =>
      obtain ⟨top, led, there⟩ := find_eq_ok.mp found
      exact ⟨top, entries, led, there⟩
    · cases isFolder
  · rintro ⟨top, entries, led, there⟩
    rw [find_eq_ok.mpr ⟨top, led, there⟩]

/-- The files below a root, as a search sees them. -/
theorem at?_outlineOf_eq_file {top ways : List String} {entries : List (String × Files)}
    (led : t.place root = .ok top) (there : t.at? top = some (.folder entries)) :
    (t.outlineOf root).at? ways = some (.file ()) ↔
      ∃ content, t.standing? (top ++ ways) = some (.file content) := by
  have below : t.standing? (top ++ ways) = (FileTree.folder entries).standing? ways := by
    rw [standing?, at?_append, there]
    rfl
  rw [outlineOf, find_eq_ok.mpr ⟨top, led, there⟩, below]
  exact at?_outline_eq_file

theorem hasFolder_mono (folders : ∀ q, t.standing? q = some .folder → t'.standing? q = some .folder)
    (isFolder : t.hasFolder root = true) : t'.hasFolder root = true := by
  obtain ⟨top, entries, led, there⟩ := hasFolder_eq_true.mp isFolder
  obtain ⟨entries', there'⟩ := standing?_eq_folder_iff.mp
    (folders top (standing?_eq_folder_iff.mpr ⟨entries, there⟩))
  exact hasFolder_eq_true.mpr ⟨top, entries', place_mono folders led, there'⟩

/-- A search finds the same templates in two trees with files at the same places where it finds
any. -/
theorem templates_outlineOf_congr {d : Discovery} (sound : t.WellFormed) (sound' : t'.WellFormed)
    (isFolder : t.hasFolder root = true)
    (folders : ∀ q, t.standing? q = some .folder → t'.standing? q = some .folder)
    (files : ∀ q, d.Shown root q → ((∃ content, t'.standing? q = some (.file content)) ↔
      ∃ content, t.standing? q = some (.file content))) :
    d.templates root (t'.outlineOf root) = d.templates root (t.outlineOf root) := by
  obtain ⟨top, entries, led, there⟩ := hasFolder_eq_true.mp isFolder
  obtain ⟨entries', there'⟩ := standing?_eq_folder_iff.mp
    (folders top (standing?_eq_folder_iff.mpr ⟨entries, there⟩))
  apply Discovery.templates_congr (sound'.outlineOf root) (sound.outlineOf root)
  intro dirs file shows
  rw [at?_outlineOf_eq_file led there, at?_outlineOf_eq_file (place_mono folders led) there']
  apply files
  refine ⟨dirs, file, shows, ?_⟩
  apply Path.destination?_of_names (destination?_of_place led)
    (Path.lead_names_descend root shows.names).2
  exact fun s mem => (shows.names s mem).ne_dots

end FileTree

namespace Command

/-- After a bulk run, however it has ended, a search below the same root finds the same templates as
before it, unless the root is a folder of variations that it writes to. -/
theorem discover_after_writeAll {root : Path} {request : Request} {options : WriteOptions}
    {bulk : BulkOptions} {t : Files} (wellFormed : t.WellFormed)
    (apart : ¬ (writeAll root request options bulk).Collides t) (p : Progress) :
    ((Run.discover root bulk).on p
        (((writeAll root request options bulk).run (m := StateM Files)).run t).2).result =
      ((Run.discover root bulk).on p t).result := by
  rw [run_eq]
  change ((Run.discover root bulk).on p
    ((writeAll root request options bulk).attempt t).tree).result = _
  have spared : FileTree.Spares (bulk.discovery.Shown root) t
      ((writeAll root request options bulk).attempt t).tree :=
    Run.spares_writeAll fun template found =>
      Run.apart_of_shows fun place start leads => apart ⟨place, start, template, found, leads⟩
  cases isFolder : t.hasFolder root with
  | true =>
    have same := FileTree.templates_outlineOf_congr wellFormed (spared.wellFormed wellFormed)
      isFolder spared.folders fun q shown => exists_congr fun content =>
        spared.files q content shown
    rw [Run.on_discover, Run.on_discover, FileTree.hasFolder_mono spared.folders isFolder,
      isFolder, if_pos rfl, if_pos rfl, same]
  | false =>
    have same : ((writeAll root request options bulk).attempt t).tree = t := by
      change ((Run.writeAll root request options bulk).on _ t).tree = t
      rw [Run.writeAll, Run.on_bind, Run.on_discover, isFolder]
      rfl
    rw [same]

/-- A folder with a template that has two variations, and in a folder below it one that cannot be
read. -/
def besideInner : Files :=
  .folder [("r", .folder [("x.yaml", .file "- !ProcList [1, 2]\n".toUTF8),
    ("y", .folder [("z.yml", .file "!".toUTF8)])])]

theorem wellFormed_besideInner : besideInner.WellFormed := by
  have r : Path.IsName "r" := ⟨by decide, by decide, by decide, by simp⟩
  have x : Path.IsName "x.yaml" := .of_length (by simp) (by decide)
  have y : Path.IsName "y" := ⟨by decide, by decide, by decide, by simp⟩
  have z : Path.IsName "z.yml" := .of_length (by simp) (by decide)
  refine .single r (.folder ?_ (by decide) ?_)
  · exact List.forall_mem_cons.mpr ⟨x, List.forall_mem_singleton.mpr y⟩
  · exact List.forall_mem_cons.mpr ⟨.file _, List.forall_mem_singleton.mpr (.single z (.file _))⟩

theorem templates_besideInner :
    (Discovery.mk [] false).templates ⟨"r"⟩ (besideInner.outlineOf ⟨"r"⟩) =
      [⟨"r/x.yaml"⟩, ⟨"r/y/z.yml"⟩] := by
  have outline : besideInner.outlineOf ⟨"r"⟩ =
      .folder [("x.yaml", .file ()), ("y", .folder [("z.yml", .file ())])] := rfl
  rw [outline]
  simp only [Discovery.templates, Discovery.ofEntries, Discovery.ofEntry, Discovery.below,
    List.mergeSort_singleton]
  rw [List.mergeSort_of_pairwise (by decide)]
  decide

/-- Results that go to the root itself are not found. -/
theorem discover_after_writeAll_besideInner :
    besideInner.WellFormed ∧
      ¬ (writeAll ⟨"r"⟩ (.generate none) ⟨{}, some ⟨"r"⟩, true⟩ ⟨⟨[], false⟩, true⟩).Collides
        besideInner ∧
      ((Run.discover ⟨"r"⟩ ⟨⟨[], false⟩, true⟩).on ⟨.ofSeed 0, ""⟩
        (((writeAll ⟨"r"⟩ (.generate none) ⟨{}, some ⟨"r"⟩, true⟩ ⟨⟨[], false⟩, true⟩).run
          (m := StateM Files)).run besideInner).2).result =
        .ok [⟨"r/x.yaml"⟩, ⟨"r/y/z.yml"⟩] := by
  have apart : ¬ (writeAll ⟨"r"⟩ (.generate none) ⟨{}, some ⟨"r"⟩, true⟩
      ⟨⟨[], false⟩, true⟩).Collides besideInner := by
    rintro ⟨place, start, template, -, leads⟩
    obtain ⟨front, rfl⟩ := Run.exists_place_of_outputFolder leads
    have top : (⟨"r"⟩ : Path).destination? = some ([] ++ ["r"]) := by decide
    rw [top] at start
    have last := (List.append_inj' (Option.some.inj start) rfl).2
    have short := congrArg String.length (List.cons.inj last).1
    rw [String.length_append] at short
    exact absurd (short.trans_ge (Nat.le_add_left _ _)) (by decide)
  refine ⟨wellFormed_besideInner, apart, ?_⟩
  rw [discover_after_writeAll wellFormed_besideInner apart, Run.on_discover,
    if_pos (by decide), templates_besideInner]

end Command

end ArenaVariations
