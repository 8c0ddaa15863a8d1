import Mathlib.Data.List.Infix
import Mathlib.Data.List.Nodup
import ArenaVariations.Proofs.Files.Places

/-!
# Well-formed trees

In the tree of a file system every entry has a name that a path can lead to, and no folder has two
entries of one name. Creating folders and writing files keeps a tree like this: what is added has a
segment of a path for its name, and it is added only if there is no entry of this name.
-/

namespace ArenaVariations

namespace FileTree

variable {α : Type} {t : FileTree α}

/-- Every entry of every folder has a name that a path can lead to. -/
inductive Named : FileTree α → Prop where
  | file (content : α) : Named (.file content)
  | folder {entries : List (String × FileTree α)} (names : ∀ e ∈ entries, Path.IsName e.1)
      (each : ∀ e ∈ entries, Named e.2) : Named (.folder entries)

/-- Every entry of every folder has a name that a path can lead to, and this name for itself. -/
inductive WellFormed : FileTree α → Prop where
  | file (content : α) : WellFormed (.file content)
  | folder {entries : List (String × FileTree α)} (names : ∀ e ∈ entries, Path.IsName e.1)
      (distinct : (entries.map Prod.fst).Nodup) (each : ∀ e ∈ entries, WellFormed e.2) :
      WellFormed (.folder entries)

theorem wellFormed_empty : (folder [] : FileTree α).WellFormed :=
  .folder (List.forall_mem_nil _) List.nodup_nil (List.forall_mem_nil _)

theorem mem_of_lookup {α : Type} {name : String} {a : α} {entries : List (String × α)}
    (found : entries.lookup name = some a) : (name, a) ∈ entries := by
  obtain ⟨before, after, split, -⟩ := List.lookup_eq_some_iff.mp found
  rw [split]
  exact List.mem_append_right _ List.mem_cons_self

theorem lookup_of_mem {entries : List (String × FileTree α)} {e : String × FileTree α}
    (distinct : (entries.map Prod.fst).Nodup) (mem : e ∈ entries) :
    entries.lookup e.1 = some e.2 := by
  induction entries with
  | nil => cases mem
  | cons first entries ih =>
    obtain ⟨apart, distinct⟩ := List.nodup_cons.mp distinct
    rw [lookup_cons_if]
    obtain rfl | mem := List.mem_cons.mp mem
    · exact if_pos rfl
    · rw [if_neg, ih distinct mem]
      intro same
      exact apart (same ▸ List.mem_map_of_mem mem)

theorem Named.single {name : String} (h : Path.IsName name) (named : t.Named) :
    Named (.folder [(name, t)]) :=
  .folder (List.forall_mem_singleton.mpr h) (List.forall_mem_singleton.mpr named)

theorem Named.of_at? (named : t.Named) {place : List String} {sub : FileTree α}
    (found : t.at? place = some sub) : sub.Named := by
  induction place generalizing t with
  | nil =>
    obtain rfl := Option.some.inj found
    exact named
  | cons name rest ih =>
    cases named with
    | file => cases found
    | folder names each =>
      obtain ⟨entry, among, below⟩ := Option.bind_eq_some_iff.mp found
      exact ih (each _ (mem_of_lookup among)) below

namespace WellFormed

theorem named (h : t.WellFormed) : t.Named := by
  induction h with
  | file content => exact .file content
  | folder names _ _ ih => exact .folder names ih

theorem single {name : String} (first : Path.IsName name) (h : t.WellFormed) :
    WellFormed (.folder [(name, t)]) :=
  .folder (List.forall_mem_singleton.mpr first) (List.nodup_singleton _)
    (List.forall_mem_singleton.mpr h)

theorem of_at? (h : t.WellFormed) {place : List String} {sub : FileTree α}
    (found : t.at? place = some sub) : sub.WellFormed := by
  induction place generalizing t with
  | nil =>
    obtain rfl := Option.some.inj found
    exact h
  | cons name rest ih =>
    cases h with
    | file => cases found
    | folder names distinct each =>
      obtain ⟨entry, among, below⟩ := Option.bind_eq_some_iff.mp found
      exact ih (each _ (mem_of_lookup among)) below

end WellFormed

theorem map_fst_update (name : String) (change : Option (FileTree α) → FileTree α)
    (entries : List (String × FileTree α)) :
    (update name change entries).map Prod.fst =
      if name ∈ entries.map Prod.fst then entries.map Prod.fst
      else entries.map Prod.fst ++ [name] := by
  induction entries with
  | nil => rfl
  | cons e entries ih =>
    rw [update]
    by_cases here : e.1 = name
    · rw [if_pos here, if_pos (by simp [here])]
      simp [here]
    · rw [if_neg here, List.map_cons, ih, List.map_cons]
      simp only [List.mem_cons, Ne.symm here, false_or]
      split <;> rfl

theorem mem_update {name : String} {change : Option (FileTree α) → FileTree α}
    {entries : List (String × FileTree α)} {e : String × FileTree α}
    (mem : e ∈ update name change entries) :
    e ∈ entries ∨ e.1 = name ∧ ∃ old, e.2 = change old ∧ ∀ sub ∈ old, (name, sub) ∈ entries := by
  induction entries with
  | nil =>
    obtain rfl := List.mem_singleton.mp mem
    exact .inr ⟨rfl, none, rfl, fun sub given => by cases given⟩
  | cons first entries ih =>
    rw [update] at mem
    split at mem
    · next here =>
      obtain rfl | mem := List.mem_cons.mp mem
      · refine .inr ⟨rfl, some first.2, rfl, fun sub given => ?_⟩
        obtain rfl := Option.some.inj given
        exact List.mem_cons.mpr (.inl (Prod.ext here.symm rfl))
      · exact .inl (List.mem_cons_of_mem _ mem)
    · obtain rfl | mem := List.mem_cons.mp mem
      · exact .inl List.mem_cons_self
      · obtain mem | ⟨same, old, changed, among⟩ := ih mem
        · exact .inl (List.mem_cons_of_mem _ mem)
        · exact .inr ⟨same, old, changed, fun sub given => List.mem_cons_of_mem _ (among sub given)⟩

namespace WellFormed

theorem put (h : t.WellFormed) {new : FileTree α} (fresh : new.WellFormed) {place : List String}
    (names : ∀ s ∈ place, Path.IsName s) : (t.put place new).WellFormed := by
  induction place generalizing t with
  | nil => exact fresh
  | cons name rest ih =>
    obtain ⟨first, names⟩ := List.forall_mem_cons.mp names
    cases h with
    | file content => exact .file content
    | @folder entries known distinct each =>
      refine .folder (fun e mem => ?_) ?_ fun e mem => ?_
      · obtain mem | ⟨rfl, -⟩ := mem_update mem
        · exact known e mem
        · exact first
      · rw [map_fst_update]
        split
        · exact distinct
        · next absent =>
          rw [← List.concat_eq_append, List.nodup_concat]
          exact ⟨absent, distinct⟩
      · obtain mem | ⟨-, old, changed, among⟩ := mem_update mem
        · exact each e mem
        · rw [changed]
          refine ih ?_ names
          cases old with
          | none => exact wellFormed_empty
          | some sub => exact each _ (among sub rfl)

theorem createAlong {place : List String} {segments : List String} (h : t.WellFormed)
    (slashless : ∀ s ∈ segments, '/' ∉ s.toList) (names : ∀ s ∈ place, Path.IsName s) :
    (t.createAlong place segments).2.WellFormed := by
  induction segments generalizing t place with
  | nil => exact h
  | cons segment rest ih =>
    obtain ⟨first, slashless⟩ := List.forall_mem_cons.mp slashless
    rw [FileTree.createAlong]
    by_cases void : Path.isVoid segment = true
    · rw [if_pos void]
      exact ih h slashless names
    · rw [if_neg void]
      by_cases dots : segment = ".."
      · rw [if_pos dots]
        split
        · exact h
        · exact ih h slashless fun s mem => names s (List.mem_of_mem_dropLast mem)
      · rw [if_neg dots]
        have name : Path.IsName segment := .of_counts (by simp [Path.counts, void]) dots first
        have further : ∀ s ∈ place ++ [segment], Path.IsName s :=
          List.forall_mem_append.mpr ⟨names, List.forall_mem_singleton.mpr name⟩
        split
        · exact h
        · split
          · exact ih h slashless further
          · exact h
          · exact ih (h.put wellFormed_empty further) slashless further

theorem createFolders (h : t.WellFormed) (p : Path) : (t.createFolders p).2.WellFormed := by
  rw [FileTree.createFolders]
  split
  · exact h
  · exact h.createAlong (fun s mem => Path.no_slash_of_mem_segments mem) (List.forall_mem_nil _)

end WellFormed

theorem WellFormed.write (h : t.WellFormed) (p : Path) (content : α) :
    (t.write p content).2.WellFormed := by
  rw [FileTree.write]
  cases led : t.place p with
  | error problem => exact h
  | ok target =>
    dsimp only
    split
    · exact h
    · apply h.put (.file content)
      refine Path.forall_of_walk? Path.IsName (destination?_of_place led) ?_ (List.forall_mem_nil _)
      exact fun s mem plain => .of_counts (Path.mem_names mem).1 plain (Path.mem_names mem).2
    · exact h

theorem Named.outline (named : t.Named) : t.outline.Named := by
  induction named with
  | file content => exact .file ()
  | folder names each ih =>
    rw [FileTree.outline, outlineAll_eq]
    exact .folder (List.forall_mem_map.mpr names) (List.forall_mem_map.mpr ih)

theorem WellFormed.outline (h : t.WellFormed) : t.outline.WellFormed := by
  induction h with
  | file content => exact .file ()
  | folder names distinct each ih =>
    rw [FileTree.outline, outlineAll_eq]
    refine .folder (List.forall_mem_map.mpr names) ?_ (List.forall_mem_map.mpr ih)
    rwa [List.map_map]

end FileTree

end ArenaVariations
