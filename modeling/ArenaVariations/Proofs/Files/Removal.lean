import ArenaVariations.Proofs.Files.WellFormed

/-!
# Taking entries out of a tree

Taking an entry out of a folder leaves nothing at its place or below it, and all the rest as it was.
So it does not matter whether something else that happens to the tree happens before it or after it,
as long as it keeps away from the place of the entry; and what has happened below that place is
lost.
-/

namespace ArenaVariations

namespace FileTree

variable {α : Type}

section

variable {entries : List (String × FileTree α)} {name other : String}
  {change change' : Option (FileTree α) → FileTree α}

theorem lookup_filter_ne (entries : List (String × FileTree α)) (name other : String) :
    (entries.filter fun e => e.1 ≠ name).lookup other =
      if other = name then none else entries.lookup other := by
  induction entries with
  | nil => simp
  | cons e entries ih =>
    by_cases here : e.1 = name
    · rw [List.filter_cons_of_neg (by simp [here]), ih, lookup_cons_if, here]
      split
      · rfl
      · rfl
    · rw [List.filter_cons_of_pos (by simp [here]), lookup_cons_if, ih, lookup_cons_if]
      by_cases same : other = e.1
      · rw [if_pos same, if_pos same, if_neg (same ▸ here)]
      · rw [if_neg same, if_neg same]

/-- An entry that is there is changed to something fixed. -/
theorem update_of_lookup {sub : FileTree α} (there : entries.lookup name = some sub)
    (change : Option (FileTree α) → FileTree α) :
    update name change entries = update name (fun _ => change (some sub)) entries := by
  induction entries with
  | nil => cases there
  | cons e entries ih =>
    rw [lookup_cons_if] at there
    rw [update, update]
    by_cases here : e.1 = name
    · rw [if_pos here.symm] at there
      rw [if_pos here, if_pos here, there]
    · rw [if_neg (Ne.symm here)] at there
      rw [if_neg here, if_neg here, ih there]

theorem update_update (entries : List (String × FileTree α)) :
    update name change (update name change' entries) =
      update name (fun old => change (some (change' old))) entries := by
  induction entries with
  | nil => simp [update]
  | cons e entries ih =>
    by_cases here : e.1 = name
    · simp [update, here]
    · simp [update, here, ih]

/-- Changes of two entries commute if one of the entries is there. -/
theorem update_comm {sub : FileTree α} (there : entries.lookup name = some sub)
    (ne : other ≠ name) :
    update other change (update name change' entries) =
      update name change' (update other change entries) := by
  induction entries with
  | nil => cases there
  | cons e entries ih =>
    rw [lookup_cons_if] at there
    by_cases here : e.1 = name
    · simp [update, here, Ne.symm ne]
    · rw [if_neg (Ne.symm here)] at there
      by_cases same : e.1 = other
      · simp [update, same, ne]
      · simp [update, here, same, ih there]

theorem filter_update_of_ne (ne : other ≠ name) :
    (update other change entries).filter (fun e => e.1 ≠ name) =
      update other change (entries.filter fun e => e.1 ≠ name) := by
  induction entries with
  | nil => simp [update, ne]
  | cons e entries ih =>
    by_cases here : e.1 = name
    · have apart : e.1 ≠ other := fun same => ne (same.symm.trans here)
      rw [update, if_neg apart, List.filter_cons_of_neg (by simp [here]), ih,
        List.filter_cons_of_neg (by simp [here])]
    · rw [List.filter_cons_of_pos (by simp [here]), update, update]
      split
      · rw [List.filter_cons_of_pos (by simp [ne])]
      · rw [List.filter_cons_of_pos (by simp [here]), ih]

theorem filter_update_self :
    (update name change entries).filter (fun e => e.1 ≠ name) =
      entries.filter fun e => e.1 ≠ name := by
  induction entries with
  | nil => simp [update]
  | cons e entries ih =>
    rw [update]
    by_cases here : e.1 = name
    · rw [if_pos here, List.filter_cons_of_neg (by simp), List.filter_cons_of_neg (by simp [here])]
    · rw [if_neg here, List.filter_cons_of_pos (by simp [here]), ih,
        List.filter_cons_of_pos (by simp [here])]

theorem filter_of_not_mem (absent : name ∉ entries.map Prod.fst) :
    (entries.filter fun e => e.1 ≠ name) = entries := by
  rw [List.filter_eq_self]
  intro e mem
  rw [decide_eq_true_eq]
  rintro rfl
  exact absent (List.mem_map_of_mem mem)

theorem update_of_not_mem (absent : name ∉ entries.map Prod.fst) :
    update name change entries = entries ++ [(name, change none)] := by
  induction entries with
  | nil => rfl
  | cons e entries ih =>
    rw [List.map_cons, List.mem_cons, not_or] at absent
    rw [update, if_neg (Ne.symm absent.1), ih absent.2]
    rfl

theorem not_mem_of_lookup_eq_none (nothing : entries.lookup name = none) :
    name ∉ entries.map Prod.fst := by
  intro mem
  obtain ⟨e, among, rfl⟩ := List.mem_map.mp mem
  rw [List.lookup_eq_none_iff] at nothing
  simpa using nothing e among

/-- Changing an entry to what it is changes nothing. -/
theorem update_const_of_lookup {sub : FileTree α} (there : entries.lookup name = some sub) :
    update name (fun _ => sub) entries = entries := by
  induction entries with
  | nil => cases there
  | cons e entries ih =>
    rw [lookup_cons_if] at there
    rw [update]
    by_cases here : e.1 = name
    · rw [if_pos here.symm] at there
      rw [if_pos here, ← here, ← Option.some.inj there]
    · rw [if_neg (Ne.symm here)] at there
      rw [if_neg here, ih there]

end

variable {t sub new : FileTree α} {above q : List String} {name : String}

theorem at?_folder_cons {entries : List (String × FileTree α)} {first : String}
    (there : ((folder entries).at? (first :: above)).isSome) :
    ∃ entry, entries.lookup first = some entry ∧ (entry.at? above).isSome := by
  rw [at?] at there
  cases found : entries.lookup first with
  | none =>
    rw [found] at there
    cases there
  | some entry =>
    rw [found] at there
    exact ⟨entry, rfl, there⟩

theorem remove_file (content : α) (name : String) (above : List String) :
    (file content).remove name above = file content := by
  cases above <;> rfl

theorem remove_nil (entries : List (String × FileTree α)) (name : String) :
    (folder entries).remove name [] = folder (entries.filter fun entry => entry.1 ≠ name) := rfl

theorem remove_cons (entries : List (String × FileTree α)) (name first : String)
    (above : List String) :
    (folder entries).remove name (first :: above) =
      match entries.lookup first with
      | none => folder entries
      | some entry => folder (update first (fun _ => entry.remove name above) entries) := rfl

theorem remove_of_lookup_none {entries : List (String × FileTree α)} {first : String}
    (nothing : entries.lookup first = none) :
    (folder entries).remove name (first :: above) = folder entries := by
  rw [remove_cons, nothing]

theorem remove_of_lookup {entries : List (String × FileTree α)} {first : String}
    (there : entries.lookup first = some sub) :
    (folder entries).remove name (first :: above) =
      folder (update first (fun _ => sub.remove name above) entries) := by
  rw [remove_cons, there]

/-- Nothing is left at the place of an entry that has been taken out, and all the rest is. -/
theorem standing?_remove (t : FileTree α) (name : String) (above q : List String) :
    (t.remove name above).standing? q =
      if above ++ [name] <+: q then none else t.standing? q := by
  induction above generalizing t q with
  | nil =>
    cases t with
    | file content =>
      rw [remove_file]
      cases q <;> simp [standing?, at?]
    | folder entries =>
      cases q with
      | nil => rw [if_neg (by simp)]; rfl
      | cons s rest =>
        rw [remove_nil, standing?_folder_cons, standing?_folder_cons, lookup_filter_ne]
        by_cases here : s = name
        · rw [if_pos here, if_pos (by simp [here])]
          rfl
        · rw [if_neg here, if_neg (by simp [Ne.symm here])]
  | cons first above ih =>
    cases t with
    | file content =>
      rw [remove_file]
      cases q <;> simp [standing?, at?]
    | folder entries =>
      cases found : entries.lookup first with
      | none =>
        rw [remove_of_lookup_none found]
        split
        · next inside =>
          obtain ⟨rest, rfl⟩ := inside
          rw [List.cons_append, List.cons_append, standing?_folder_cons, found]
          rfl
        · rfl
      | some entry =>
        rw [remove_of_lookup found]
        cases q with
        | nil => rw [if_neg (by simp)]; rfl
        | cons s rest =>
          rw [standing?_folder_cons, standing?_folder_cons, lookup_update]
          by_cases here : s = first
          · subst here
            rw [if_pos rfl, Option.bind_some, ih, found]
            simp only [List.cons_append, List.cons_prefix_cons, true_and]
            rfl
          · rw [if_neg here, if_neg (by simp [Ne.symm here])]

/-- Taking out an entry that is not there changes nothing. -/
theorem remove_of_none (nothing : t.at? (above ++ [name]) = none) :
    t.remove name above = t := by
  induction above generalizing t with
  | nil =>
    cases t with
    | file content => exact remove_file content name []
    | folder entries =>
      rw [remove_nil, filter_of_not_mem]
      apply not_mem_of_lookup_eq_none
      rw [List.nil_append, at?] at nothing
      cases found : entries.lookup name with
      | none => rfl
      | some entry =>
        rw [found] at nothing
        cases nothing
  | cons first above ih =>
    cases t with
    | file content => exact remove_file content name _
    | folder entries =>
      cases found : entries.lookup first with
      | none => exact remove_of_lookup_none found
      | some entry =>
        rw [List.cons_append, at?, found] at nothing
        rw [remove_of_lookup found, ih nothing, update_const_of_lookup found]

/-- What is put below a place is put into what stands there. -/
theorem put_append (there : t.at? above = some sub) (q : List String) (new : FileTree α) :
    t.put (above ++ q) new = t.put above (sub.put q new) := by
  induction above generalizing t with
  | nil =>
    obtain rfl := Option.some.inj there
    rfl
  | cons first above ih =>
    cases t with
    | file => cases there
    | folder entries =>
      obtain ⟨entry, found, below⟩ := Option.bind_eq_some_iff.mp there
      rw [List.cons_append, put, put, update_of_lookup found, Option.getD_some, ih below,
        update_of_lookup found fun old => (old.getD (folder [])).put above _, Option.getD_some]

/-- What is taken out below a place is taken out of what stands there. -/
theorem remove_append (there : t.at? above = some sub) (name : String) (q : List String) :
    t.remove name (above ++ q) = t.put above (sub.remove name q) := by
  induction above generalizing t with
  | nil =>
    obtain rfl := Option.some.inj there
    rfl
  | cons first above ih =>
    cases t with
    | file => cases there
    | folder entries =>
      obtain ⟨entry, found, below⟩ := Option.bind_eq_some_iff.mp there
      rw [List.cons_append, remove_of_lookup found, put, ih below,
        update_of_lookup found fun old => (old.getD (folder [])).put above _, Option.getD_some]

theorem at?_put_self (there : (t.at? above).isSome) (new : FileTree α) :
    (t.put above new).at? above = some new := by
  induction above generalizing t with
  | nil => rfl
  | cons first above ih =>
    cases t with
    | file => cases there
    | folder entries =>
      obtain ⟨entry, found, below⟩ := at?_folder_cons there
      rw [put, at?, lookup_update, if_pos rfl, Option.bind_some, found, Option.getD_some, ih below]

theorem at?_put_concat (inside : t.standing? above = some .folder) (name : String)
    (new : FileTree α) : (t.put (above ++ [name]) new).at? (above ++ [name]) = some new := by
  obtain ⟨entries, there⟩ := standing?_eq_folder_iff.mp inside
  rw [put_append there, at?_append, at?_put_self (by rw [there]; rfl), Option.bind_some,
    put, at?, lookup_update, if_pos rfl]
  rfl

/-- What an entry was changed to does not matter once it has been taken out. -/
theorem remove_put_self (inside : t.standing? above = some .folder) (name : String)
    (new : FileTree α) : (t.put (above ++ [name]) new).remove name above = t.remove name above := by
  induction above generalizing t with
  | nil =>
    cases t with
    | file => cases inside
    | folder entries => rw [List.nil_append, put, remove_nil, remove_nil, filter_update_self]
  | cons first above ih =>
    cases t with
    | file => cases inside
    | folder entries =>
      rw [standing?_folder_cons] at inside
      obtain ⟨entry, found, below⟩ := Option.bind_eq_some_iff.mp inside
      rw [List.cons_append, put, remove_of_lookup found, update_of_lookup found,
        remove_of_lookup (by rw [lookup_update, if_pos rfl]), update_update, Option.getD_some,
        ih below]

theorem at?_put_of_apart {place : List String} (outside : ¬ place <+: q) (apart : ¬ q <+: place)
    (new : FileTree α) : (t.put q new).at? place = t.at? place := by
  induction q generalizing t place with
  | nil => exact absurd List.nil_prefix apart
  | cons s rest ih =>
    cases place with
    | nil => exact absurd List.nil_prefix outside
    | cons first place =>
      cases t with
      | file => rfl
      | folder entries =>
        rw [put, at?, at?, lookup_update]
        by_cases here : first = s
        · subst here
          simp only [List.cons_prefix_cons, true_and] at outside apart
          rw [if_pos rfl, Option.bind_some, ih outside apart]
          cases entries.lookup first with
          | some entry => rfl
          | none =>
            cases place with
            | nil => exact absurd List.nil_prefix outside
            | cons => rfl
        · rw [if_neg here]

/-- A change elsewhere commutes with taking an entry out. -/
theorem remove_put (there : (t.at? (above ++ [name])).isSome) (outside : ¬ above ++ [name] <+: q)
    (apart : ¬ q <+: above ++ [name]) (new : FileTree α) :
    (t.put q new).remove name above = (t.remove name above).put q new := by
  induction above generalizing t q with
  | nil =>
    cases q with
    | nil => exact absurd (List.nil_prefix) apart
    | cons s rest =>
      cases t with
      | file => cases there
      | folder entries =>
        have ne : s ≠ name := by
          rintro rfl
          exact outside (by simp)
        rw [put, remove_nil, remove_nil, put, filter_update_of_ne ne]
  | cons first above ih =>
    cases q with
    | nil => exact absurd (List.nil_prefix) apart
    | cons s rest =>
      cases t with
      | file => cases there
      | folder entries =>
        obtain ⟨entry, found, below⟩ := at?_folder_cons there
        rw [remove_of_lookup found, put, put]
        by_cases here : s = first
        · subst here
          simp only [List.cons_append, List.cons_prefix_cons, true_and] at outside apart
          rw [update_of_lookup found, remove_of_lookup (by rw [lookup_update, if_pos rfl]),
            update_update, update_update, Option.getD_some, Option.getD_some,
            ih below outside apart]
        · have kept : (update s (fun old => (old.getD (folder [])).put rest new) entries).lookup
              first = some entry := by
            rw [lookup_update, if_neg (Ne.symm here), found]
          rw [remove_of_lookup kept, update_comm found here]

end FileTree

end ArenaVariations
