import Mathlib.Data.List.Basic
import ArenaVariations.Files.Tree

/-!
# What stands at the places of a tree

A tree is known by what stands at its places: nothing, a file with its content, or a folder. Above
everything there is a folder, so below a file there is nothing. Putting a file or an empty folder
into a folder changes a single place, as long as no folder has to give way to it.
-/

namespace ArenaVariations

/-- What stands at a place of a tree. -/
inductive Entry (α : Type) where
  | file (content : α)
  | folder

namespace FileTree

variable {α : Type}

/-- What a tree is at its top. -/
def entry : FileTree α → Entry α
  | file content => .file content
  | folder _ => .folder

/-- What stands at a place, if there is anything. -/
def standing? (t : FileTree α) (place : List String) : Option (Entry α) :=
  (t.at? place).map entry

/-- A file, or a folder without entries. -/
def IsLeaf (t : FileTree α) : Prop :=
  ∀ name rest, t.at? (name :: rest) = none

theorem isLeaf_file (content : α) : (file content).IsLeaf :=
  fun _ _ => rfl

theorem isLeaf_empty : (folder [] : FileTree α).IsLeaf :=
  fun _ _ => rfl

@[simp] theorem standing?_nil (t : FileTree α) : t.standing? [] = some t.entry := rfl

theorem standing?_folder_cons (entries : List (String × FileTree α)) (name : String)
    (rest : List String) :
    (folder entries).standing? (name :: rest) =
      (entries.lookup name).bind fun sub => sub.standing? rest := by
  rw [standing?, at?, Option.map_bind]
  rfl

theorem standing?_eq_folder_iff {t : FileTree α} {place : List String} :
    t.standing? place = some .folder ↔ ∃ entries, t.at? place = some (folder entries) := by
  rw [standing?, Option.map_eq_some_iff]
  constructor
  · rintro ⟨sub, found, same⟩
    cases sub with
    | file => cases same
    | folder entries => exact ⟨entries, found⟩
  · rintro ⟨entries, found⟩
    exact ⟨_, found, rfl⟩

theorem standing?_eq_file_iff {t : FileTree α} {place : List String} {content : α} :
    t.standing? place = some (.file content) ↔ t.at? place = some (file content) := by
  rw [standing?, Option.map_eq_some_iff]
  constructor
  · rintro ⟨sub, found, same⟩
    cases sub with
    | file =>
      cases same
      exact found
    | folder => cases same
  · intro found
    exact ⟨_, found, rfl⟩

/-- A place with something below it is that of a folder. -/
theorem standing?_of_append {t : FileTree α} {place below : List String} (more : below ≠ [])
    (there : (t.standing? (place ++ below)).isSome) : t.standing? place = some .folder := by
  induction place generalizing t with
  | nil =>
    obtain ⟨name, rest, rfl⟩ := List.exists_cons_of_ne_nil more
    cases t with
    | file => cases there
    | folder => rfl
  | cons name place ih =>
    cases t with
    | file => cases there
    | folder entries =>
      rw [List.cons_append, standing?_folder_cons] at there
      rw [standing?_folder_cons]
      cases found : entries.lookup name with
      | none =>
        rw [found] at there
        cases there
      | some sub =>
        rw [found] at there
        exact ih there

theorem standing?_dropLast {t : FileTree α} {place : List String}
    (there : t.standing? place = some .folder) : t.standing? place.dropLast = some .folder := by
  obtain rfl | ⟨front, last, rfl⟩ := List.eq_nil_or_concat' place
  · exact there
  · rw [List.dropLast_concat]
    apply standing?_of_append (List.cons_ne_nil last [])
    rw [there]
    rfl

theorem at?_file_concat (content : α) (place : List String) (name : String) :
    (file content).at? (place ++ [name]) = none := by
  cases place <;> rfl

theorem at?_append (t : FileTree α) (place below : List String) :
    t.at? (place ++ below) = (t.at? place).bind fun sub => sub.at? below := by
  induction place generalizing t with
  | nil => rfl
  | cons name place ih =>
    cases t with
    | file => rfl
    | folder entries =>
      rw [List.cons_append, at?, at?, Option.bind_assoc]
      exact congrArg _ (funext fun sub => ih sub)

theorem lookup_cons_if (e : String × FileTree α) (entries : List (String × FileTree α))
    (name : String) :
    (e :: entries).lookup name = if name = e.1 then some e.2 else entries.lookup name := by
  by_cases same : name = e.1
  · subst same
    rw [List.lookup_cons_self, if_pos rfl]
  · rw [List.lookup_cons, beq_false_of_ne same, if_neg same]

theorem outlineAll_eq (entries : List (String × FileTree α)) :
    outlineAll entries = entries.map fun e => (e.1, e.2.outline) := by
  induction entries with
  | nil => rfl
  | cons e entries ih =>
    obtain ⟨name, t⟩ := e
    rw [outlineAll, ih]
    rfl

theorem lookup_outlineAll (entries : List (String × FileTree α)) (name : String) :
    (outlineAll entries).lookup name = (entries.lookup name).map outline := by
  rw [outlineAll_eq]
  induction entries with
  | nil => rfl
  | cons e entries ih =>
    rw [List.map_cons, lookup_cons_if, lookup_cons_if, ih]
    split <;> rfl

theorem at?_outline (t : FileTree α) (place : List String) :
    t.outline.at? place = (t.at? place).map outline := by
  induction place generalizing t with
  | nil => rfl
  | cons name place ih =>
    cases t with
    | file => rfl
    | folder entries =>
      rw [outline, at?, at?, lookup_outlineAll, Option.bind_map, Option.map_bind]
      exact congrArg _ (funext fun sub => ih sub)

/-- An outline has a file where the tree has one. -/
theorem at?_outline_eq_file {t : FileTree α} {place : List String} :
    t.outline.at? place = some (.file ()) ↔
      ∃ content, t.standing? place = some (.file content) := by
  simp only [at?_outline, standing?_eq_file_iff, Option.map_eq_some_iff]
  constructor
  · rintro ⟨sub, found, same⟩
    cases sub with
    | file content => exact ⟨content, found⟩
    | folder => cases same
  · rintro ⟨content, found⟩
    exact ⟨_, found, rfl⟩

theorem lookup_update (name other : String) (change : Option (FileTree α) → FileTree α)
    (entries : List (String × FileTree α)) :
    (update name change entries).lookup other =
      if other = name then some (change (entries.lookup name)) else entries.lookup other := by
  induction entries with
  | nil => rw [update, lookup_cons_if, List.lookup_nil, List.lookup_nil]
  | cons e entries ih =>
    rw [update]
    by_cases here : e.1 = name
    · rw [if_pos here, lookup_cons_if, lookup_cons_if, lookup_cons_if, here, if_pos rfl]
      by_cases same : other = name
      · rw [if_pos same, if_pos same]
      · rw [if_neg same, if_neg same, if_neg same]
    · rw [if_neg here, lookup_cons_if, ih, lookup_cons_if, lookup_cons_if,
        if_neg (Ne.symm here)]
      by_cases same : other = e.1
      · rw [if_pos same, if_neg (same ▸ here), if_pos same]
      · rw [if_neg same, if_neg same]

theorem IsLeaf.standing?_cons {t : FileTree α} (leaf : t.IsLeaf) (name : String)
    (rest : List String) : t.standing? (name :: rest) = none := by
  rw [standing?, leaf]
  rfl

/-- Nothing stands below a place without a folder. -/
theorem standing?_append_of_ne {t : FileTree α} {place below : List String}
    (bare : t.standing? place ≠ some .folder) (more : below ≠ []) :
    t.standing? (place ++ below) = none := by
  rw [← Option.not_isSome_iff_eq_none]
  exact fun there => bare (standing?_of_append more there)

/-- Putting something below an entry of a folder changes what stands below that entry. -/
theorem standing?_put_cons (entries : List (String × FileTree α)) (name : String)
    (below : List String) (new : FileTree α) (other : String) (rest : List String) :
    ((folder entries).put (name :: below) new).standing? (other :: rest) =
      if other = name then
        (((entries.lookup name).getD (folder [])).put below new).standing? rest
      else (folder entries).standing? (other :: rest) := by
  rw [put, standing?_folder_cons, standing?_folder_cons, lookup_update]
  split <;> rfl

/-- Putting a file or an empty folder into a folder changes the place of that entry alone. -/
theorem standing?_put {t new : FileTree α} (leaf : new.IsLeaf) {folder : List String}
    {name : String} (inside : t.standing? folder = some .folder)
    (bare : t.standing? (folder ++ [name]) ≠ some .folder)
    (place : List String) :
    (t.put (folder ++ [name]) new).standing? place =
      if place = folder ++ [name] then some new.entry else t.standing? place := by
  induction folder generalizing t place with
  | nil =>
    cases t with
    | file => cases inside
    | folder entries =>
      cases place with
      | nil => rfl
      | cons s rest =>
        rw [List.nil_append, standing?_put_cons]
        by_cases here : s = name
        · subst here
          rw [if_pos rfl, put]
          cases rest with
          | nil => simp
          | cons next rest =>
            have nothing := standing?_append_of_ne bare (List.cons_ne_nil next rest)
            rw [leaf.standing?_cons, if_neg (by simp)]
            exact nothing.symm
        · rw [if_neg here, if_neg (by simp [here])]
  | cons first folder ih =>
    cases t with
    | file => cases inside
    | folder entries =>
      rw [standing?_folder_cons] at inside
      rw [List.cons_append, standing?_folder_cons] at bare
      cases place with
      | nil => rfl
      | cons s rest =>
        rw [List.cons_append, standing?_put_cons]
        by_cases here : s = first
        · subst here
          obtain ⟨sub, found, within⟩ := Option.bind_eq_some_iff.mp inside
          rw [found, Option.bind_some] at bare
          rw [if_pos rfl, found, Option.getD_some, ih within bare, standing?_folder_cons, found]
          simp
        · rw [if_neg here, if_neg (by simp [here])]

/-- A tree that differs from another one by new folders only, all of them at certain places. -/
def Grown (new : List String → Prop) (t t' : FileTree α) : Prop :=
  ∀ place, t'.standing? place = t.standing? place ∨
    new place ∧ t.standing? place = none ∧ t'.standing? place = some .folder

variable {new : List String → Prop} {t t' t'' : FileTree α}

theorem Grown.refl (new : List String → Prop) (t : FileTree α) : Grown new t t :=
  fun _ => .inl rfl

theorem Grown.trans (first : Grown new t t') (second : Grown new t' t'') : Grown new t t'' := by
  intro place
  obtain same | ⟨here, none, folder⟩ := second place
  · rw [same]
    exact first place
  · obtain same | ⟨-, -, folder'⟩ := first place
    · exact .inr ⟨here, same ▸ none, folder⟩
    · rw [none] at folder'
      cases folder'

theorem Grown.mono {more : List String → Prop} (h : Grown new t t')
    (wider : ∀ place, new place → more place) : Grown more t t' := by
  intro place
  obtain same | ⟨here, rest⟩ := h place
  · exact .inl same
  · exact .inr ⟨wider place here, rest⟩

/-- What stood in a tree still stands in it after it has grown. -/
theorem Grown.standing?_eq (h : Grown new t t') {place : List String} {e : Entry α}
    (there : t.standing? place = some e) : t'.standing? place = some e := by
  obtain same | ⟨-, none, -⟩ := h place
  · rw [same, there]
  · rw [there] at none
    cases none

/-- A tree that has grown has the same files as before. -/
theorem Grown.standing?_eq_file (h : Grown new t t') {place : List String} {content : α} :
    t'.standing? place = some (.file content) ↔ t.standing? place = some (.file content) := by
  obtain same | ⟨-, none, folder⟩ := h place
  · rw [same]
  · rw [none, folder]
    simp

end FileTree

end ArenaVariations
