import ArenaVariations.Proofs.Bulk.Folders
import ArenaVariations.Proofs.Bulk.Order

/-!
# What a search leaves out

A search finds the YAML files below the root that no folder on the way is left out of, in the order
of their names. A folder is left out for its own name, or because it is to be ignored. By the
description of the options a path to ignore is the name of a folder or its path below the root.
What is looked at is the end of the folder's whole path, though, and this is more: a path of
several names is found anywhere below the root, it may begin with names of the root itself, and
the empty path ends every path.

`Discovery.templates_exact` says what is found with both taken into account. If every path to
ignore is a single name, or none overreaches for another reason, then it is what is described.
-/

namespace ArenaVariations

namespace FileTree

/-- What stands in a tree is led to by names. -/
theorem Named.isName_of_at? {α : Type} {t sub : FileTree α} (named : t.Named)
    {ways : List String} (there : t.at? ways = some sub) : ∀ s ∈ ways, Path.IsName s := by
  induction ways generalizing t with
  | nil => exact List.forall_mem_nil _
  | cons name rest ih =>
    cases named with
    | file content => cases there
    | folder names each =>
      obtain ⟨e, found, inner⟩ := Option.bind_eq_some_iff.mp there
      have mem := mem_of_lookup found
      exact List.forall_mem_cons.mpr ⟨names _ mem, ih (each _ mem) inner⟩

end FileTree

namespace Path

theorem components_descend (p : Path) {dirs : List String} (each : ∀ s ∈ dirs, IsName s) :
    (p.descend dirs).components = p.components ++ dirs := by
  obtain ⟨lead, names⟩ := lead_names_descend p each
  rw [components, components, names, List.append_assoc]
  congr 1
  rw [leadComponents, leadComponents, lead]

theorem descend_injective {p : Path} {dirs dirs' : List String} (each : ∀ s ∈ dirs, IsName s)
    (each' : ∀ s ∈ dirs', IsName s) (same : p.descend dirs = p.descend dirs') : dirs = dirs' := by
  have names := congrArg Path.names same
  rw [(lead_names_descend p each).2, (lead_names_descend p each').2] at names
  exact List.append_cancel_left names

/-- The rest of a path below its start has the names that were gone on by. -/
theorem components_below_descend (p : Path) {dirs : List String} (each : ∀ s ∈ dirs, IsName s) :
    (((p.descend dirs).below? p).getD (p.descend dirs)).components = dirs := by
  obtain ⟨lead, names⟩ := lead_names_descend p each
  obtain ⟨rest, inside, relative, own⟩ := below?_of_names lead names
  have bare : rest.leadComponents = [] := leadComponents_eq_nil_iff.mpr relative
  rw [inside, Option.getD_some, components, bare, own]
  rfl

theorem endsWith_iff {p q : Path} : p.endsWith q = true ↔ q.components <:+ p.components := by
  rw [endsWith, List.isPrefixOf_iff_prefix, List.reverse_prefix]

end Path

namespace Discovery

/-- A path to ignore means a folder by its name, or by its path below the root. The folder is given
by the names on the way to it and by its own. -/
def Means (ignored : Path) (passed : List String) (name : String) : Prop :=
  ignored.components = [name] ∨ ignored.components = passed ++ [name]

/-- A path to ignore ends the whole path of a folder, but is neither a single name nor the path
below the root. -/
def Overreaches (ignored root : Path) (passed : List String) (name : String) : Prop :=
  ignored.components <:+ root.components ++ (passed ++ [name]) ∧
    ignored.components.length ≠ 1 ∧ ignored.components ≠ passed ++ [name]

/-- A folder is to be looked into, by the description of the options. -/
structure LooksInto (d : Discovery) (passed : List String) (name : String) : Prop where
  plain : name.endsWith variationsSuffix = false
  shown : d.ignoreHidden = true → name.startsWith "." = false
  unmeant : ∀ ignored ∈ d.ignored, ¬ Means ignored passed name

theorem suffix_iff {ignored root : Path} {passed : List String} {name : String} :
    ignored.components <:+ root.components ++ (passed ++ [name]) ↔
      Means ignored passed name ∨ Overreaches ignored root passed name := by
  constructor
  · intro last
    by_cases whole : ignored.components = passed ++ [name]
    · exact .inl (.inr whole)
    · by_cases single : ignored.components.length = 1
      · left
        left
        obtain ⟨own, alone⟩ := List.length_eq_one_iff.mp single
        rw [alone, ← List.append_assoc] at last
        obtain ⟨front, split, -⟩ := (List.suffix_concat_iff.mp last).resolve_left (by simp)
        rw [alone, (List.append_inj' (show [] ++ [own] = front ++ [name] from split) rfl).2]
      · exact .inr ⟨last, single, whole⟩
  · rintro ((named | whole) | ⟨last, -⟩)
    · rw [named, ← List.append_assoc]
      exact List.suffix_append _ _
    · rw [whole]
      exact List.suffix_append _ _
    · exact last

variable {d : Discovery} {root : Path}

/-- What is left out of a search, in terms of the names that lead to a folder. -/
theorem skips_eq_false_iff {passed : List String} {name : String}
    (each : ∀ s ∈ passed ++ [name], Path.IsName s) :
    d.skips root (root.descend (passed ++ [name])) name = false ↔
      d.LooksInto passed name ∧ ∀ ignored ∈ d.ignored, ¬ Overreaches ignored root passed name := by
  have ends : ∀ ignored : Path,
      ((((root.descend (passed ++ [name])).below? root).getD
          (root.descend (passed ++ [name]))).same ignored ||
        (root.descend (passed ++ [name])).endsWith ignored) = true ↔
      Means ignored passed name ∨ Overreaches ignored root passed name := by
    intro ignored
    rw [Bool.or_eq_true, Path.same, Path.components_below_descend root each, Path.endsWith_iff,
      Path.components_descend root each, suffix_iff, beq_iff_eq]
    constructor
    · rintro (whole | ends)
      · exact .inl (.inr whole.symm)
      · exact ends
    · exact .inr
  rw [skips, Bool.or_eq_false_iff, Bool.or_eq_false_iff, List.any_eq_false]
  constructor
  · rintro ⟨⟨plain, shown⟩, ignored⟩
    refine ⟨⟨plain, ?_, ?_⟩, ?_⟩
    · intro hides
      rwa [hides, Bool.true_and] at shown
    · intro entry mem means
      exact ignored entry mem ((ends entry).mpr (.inl means))
    · intro entry mem overreaching
      exact ignored entry mem ((ends entry).mpr (.inr overreaching))
  · rintro ⟨⟨plain, shown, unmeant⟩, within⟩
    refine ⟨⟨plain, ?_⟩, ?_⟩
    · cases hides : d.ignoreHidden with
      | false => rfl
      | true => exact shown hides
    · intro entry mem skipped
      obtain means | overreaching := (ends entry).mp skipped
      · exact unmeant entry mem means
      · exact within entry mem overreaching

/-- The folders on a way are looked into, in terms of their names. -/
theorem passes_iff {dirs : List String} (each : ∀ s ∈ dirs, Path.IsName s) :
    d.Passes root root dirs ↔ ∀ passed name, passed ++ [name] <+: dirs →
      d.LooksInto passed name ∧ ∀ ignored ∈ d.ignored, ¬ Overreaches ignored root passed name := by
  have named : ∀ passed name, passed ++ [name] <+: dirs →
      ∀ s ∈ passed ++ [name], Path.IsName s :=
    fun passed name start s mem => each s (start.subset mem)
  constructor
  · intro passes passed name start
    exact (skips_eq_false_iff (named passed name start)).mp (passes passed name start)
  · intro looked passed name start
    exact (skips_eq_false_iff (named passed name start)).mpr (looked passed name start)

theorem isTemplate_descend {dirs : List String} {stem ext : String}
    (each : ∀ s ∈ dirs ++ [stem ++ "." ++ ext], Path.IsName s) (filled : stem ≠ "")
    (known : ext = "yaml" ∨ ext = "yml") :
    isTemplate (root.descend (dirs ++ [stem ++ "." ++ ext])) = true := by
  have name : Path.IsName (stem ++ "." ++ ext) := each _ (by simp)
  have names := (Path.lead_names_descend root each).2
  rw [← List.append_assoc] at names
  have dotless : '.' ∉ ext.toList := by obtain rfl | rfl := known <;> simp
  rw [isTemplate, Path.extension?, Path.fileName?_of_names names name.ne_dots, Option.bind_some,
    Path.cut_append filled dotless]
  obtain rfl | rfl := known <;> rfl

/-- A file that is found has a stem and one of the two extensions. -/
theorem Shows.exists_stem {dirs : List String} {file : String} (shows : d.Shows root dirs file) :
    ∃ stem ext, file = stem ++ "." ++ ext ∧ stem ≠ "" ∧ (ext = "yaml" ∨ ext = "yml") := by
  obtain ⟨stem, ext, lies⟩ := shows.exists_lies
  have names := lies.lead_names.2
  rw [(Path.lead_names_descend root shows.names).2, List.append_assoc] at names
  have last := List.append_inj' (List.append_cancel_left names) rfl
  exact ⟨stem, ext, (List.cons.inj last.2).1, lies.filled, lies.known⟩

/-- The templates below a root are its YAML files for which every folder on the way is to be looked
into and none is hit by a path that overreaches. Each is found once, in the order of the names from
the root on. -/
theorem templates_exact {t : FileTree Unit} (h : t.WellFormed) :
    (d.templates root t).Pairwise Path.Precedes ∧
      ∀ q, q ∈ d.templates root t ↔ ∃ dirs stem ext,
        q = root.descend (dirs ++ [stem ++ "." ++ ext]) ∧ stem ≠ "" ∧
        (ext = "yaml" ∨ ext = "yml") ∧ t.at? (dirs ++ [stem ++ "." ++ ext]) = some (.file ()) ∧
        ∀ passed name, passed ++ [name] <+: dirs →
          d.LooksInto passed name ∧
            ∀ ignored ∈ d.ignored, ¬ Overreaches ignored root passed name := by
  refine ⟨pairwise_templates h, ?_⟩
  intro q
  rw [mem_templates_iff h]
  constructor
  · rintro ⟨dirs, file, rfl, shows, there⟩
    obtain ⟨stem, ext, rfl, filled, known⟩ := shows.exists_stem
    have each := (List.forall_mem_append.mp shows.names).1
    exact ⟨dirs, stem, ext, rfl, filled, known, there, (passes_iff each).mp shows.passes⟩
  · rintro ⟨dirs, stem, ext, rfl, filled, known, there, looked⟩
    have names := h.named.isName_of_at? there
    have each := (List.forall_mem_append.mp names).1
    refine ⟨dirs, _, rfl, ⟨names, ?_, ?_⟩, there⟩
    · exact isTemplate_descend names filled known
    · exact (passes_iff each).mpr looked

/-- Two templates, one of them in folders of which the last two are named like a path to ignore. -/
def deepDrafts : FileTree Unit :=
  .folder [("x", .folder [("a", .folder [("b", .folder [("t.yaml", .file ())]),
    ("u.yaml", .file ())])])]

/-- The folder `a/b` below the root is to be ignored. -/
def withoutDrafts : Discovery := ⟨[⟨"a/b"⟩], true⟩

theorem wellFormed_deepDrafts : deepDrafts.WellFormed := by
  have x : Path.IsName "x" := ⟨by decide, by decide, by decide, by simp⟩
  have a : Path.IsName "a" := ⟨by decide, by decide, by decide, by simp⟩
  have b : Path.IsName "b" := ⟨by decide, by decide, by decide, by simp⟩
  have t : Path.IsName "t.yaml" := .of_length (by simp) (by decide)
  have u : Path.IsName "u.yaml" := .of_length (by simp) (by decide)
  apply FileTree.WellFormed.single x
  apply FileTree.WellFormed.single a
  apply FileTree.WellFormed.folder
  · simp [b, u]
  · simp
  · simp [FileTree.WellFormed.single t (.file ()), FileTree.WellFormed.file]

theorem components_draft : Path.components ⟨"a/b"⟩ = ["a", "b"] := by decide

/-- The folders on the way to the deeper template. -/
theorem on_the_way {passed : List String} {name : String}
    (start : passed ++ [name] <+: ["x", "a", "b"]) :
    passed = [] ∧ name = "x" ∨ passed = ["x"] ∧ name = "a" ∨ passed = ["x", "a"] ∧ name = "b" := by
  obtain ⟨rest, whole⟩ := start
  rcases passed with _ | ⟨p, _ | ⟨q, _ | ⟨r, _⟩⟩⟩ <;> simp_all

/-- By the description of the options all of them are looked into. -/
theorem looksInto_deepDrafts {passed : List String} {name : String}
    (start : passed ++ [name] <+: ["x", "a", "b"]) : withoutDrafts.LooksInto passed name := by
  obtain ⟨rfl, rfl⟩ | ⟨rfl, rfl⟩ | ⟨rfl, rfl⟩ := on_the_way start <;>
  · refine ⟨by decide, fun _ => by decide +kernel, List.forall_mem_singleton.mpr ?_⟩
    rw [Means, components_draft]
    decide

/-- The deeper template is not found, because `a/b` ends the path of its folder. -/
theorem not_mem_deepDrafts :
    (⟨"r/x/a/b/t.yaml"⟩ : Path) ∉ withoutDrafts.templates ⟨"r"⟩ deepDrafts := by
  intro found
  obtain ⟨dirs, file, path, shows⟩ := mem_templates wellFormed_deepDrafts.named found
  have there : deepDrafts.at? ["x", "a", "b", "t.yaml"] = some (.file ()) := rfl
  have ways : dirs ++ [file] = ["x", "a", "b"] ++ ["t.yaml"] :=
    Path.descend_injective shows.names (wellFormed_deepDrafts.named.isName_of_at? there) path.symm
  have passed := shows.passes ["x", "a"] "b" ⟨[], (List.append_inj' ways rfl).1.symm⟩
  exact absurd passed (by decide +kernel)

/-- The template that lies next to the folder is found, and the one in it is not. -/
theorem templates_exact_deepDrafts :
    deepDrafts.WellFormed ∧
      (⟨"r/x/a/u.yaml"⟩ : Path) ∈ withoutDrafts.templates ⟨"r"⟩ deepDrafts ∧
      (⟨"r/x/a/b/t.yaml"⟩ : Path) ∉ withoutDrafts.templates ⟨"r"⟩ deepDrafts := by
  refine ⟨wellFormed_deepDrafts, ?_, not_mem_deepDrafts⟩
  apply ((templates_exact wellFormed_deepDrafts).2 _).mpr
  refine ⟨["x", "a"], "u", "yaml", by decide, by decide, .inl rfl, rfl, ?_⟩
  intro passed name start
  have further := start.trans (show ["x", "a"] <+: ["x", "a", "b"] from ⟨["b"], rfl⟩)
  refine ⟨looksInto_deepDrafts further, List.forall_mem_singleton.mpr ?_⟩
  have root : Path.components ⟨"r"⟩ = ["r"] := by decide
  rw [Overreaches, components_draft, root]
  obtain ⟨rfl, rfl⟩ | ⟨rfl, rfl⟩ | ⟨rfl, rfl⟩ := on_the_way further
  · decide
  · decide
  · exact absurd start (by decide)

/-- A search leaves folders out that the options do not describe. -/
theorem templates_inexact_deepDrafts :
    ¬ ∀ (d : Discovery) (root : Path) (t : FileTree Unit), t.WellFormed → ∀ q,
      q ∈ d.templates root t ↔ ∃ dirs stem ext,
        q = root.descend (dirs ++ [stem ++ "." ++ ext]) ∧ stem ≠ "" ∧
        (ext = "yaml" ∨ ext = "yml") ∧ t.at? (dirs ++ [stem ++ "." ++ ext]) = some (.file ()) ∧
        ∀ passed name, passed ++ [name] <+: dirs → d.LooksInto passed name := by
  intro described
  apply not_mem_deepDrafts
  apply (described withoutDrafts ⟨"r"⟩ deepDrafts wellFormed_deepDrafts _).mpr
  exact ⟨["x", "a", "b"], "t", "yaml", by decide, by decide, .inl rfl, rfl,
    fun passed name start => looksInto_deepDrafts start⟩

end Discovery

end ArenaVariations
