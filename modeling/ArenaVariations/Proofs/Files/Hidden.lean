import ArenaVariations.Proofs.Files.Removal

/-!
# Hidden folders

While results are produced, the tree has a hidden folder that it would not have otherwise. Two trees
are compared all the time: the one that there is, and the one without the hidden folder. What is put
into the hidden folder does not show in the second tree; what happens elsewhere happens to both in
the same way; and when the hidden folder is removed, the second tree is what remains.
-/

namespace ArenaVariations

theorem exists_of_unusedName? {taken : List String} {tries number : Nat} {name : String}
    (found : unusedName? taken tries number = some name) :
    name ∉ taken ∧ ∃ n, name = hiddenName n := by
  induction tries generalizing number with
  | zero => cases found
  | succ tries ih =>
    rw [unusedName?] at found
    split at found
    · exact ih found
    · next free =>
      obtain rfl := Option.some.inj found
      exact ⟨free, number, rfl⟩

theorem toList_hiddenName (number : Nat) :
    ∃ digits, (hiddenName number).toList = ".procgen-".toList ++ digits ∧
      ∀ c ∈ digits, c.isDigit = true := by
  refine ⟨List.leftpad 6 '0' (Nat.toDigits 10 number), ?_, fun c mem => ?_⟩
  · exact (String.toList_append ..).trans (congrArg _ String.toList_ofList)
  · rw [List.leftpad, List.mem_append] at mem
    obtain mem | mem := mem
    · rw [(List.mem_replicate.mp mem).2]
      rfl
    · exact Nat.isDigit_of_mem_toDigits (by decide) (by decide) mem

theorem isName_hiddenName (number : Nat) : Path.IsName (hiddenName number) := by
  obtain ⟨digits, split, each⟩ := toList_hiddenName number
  apply Path.IsName.of_length
  · rw [split, List.mem_append, not_or]
    refine ⟨by decide, fun mem => ?_⟩
    exact absurd (each _ mem) (by decide)
  · rw [← String.length_toList, split, List.length_append]
    exact Nat.lt_add_right _ (by decide)

/-- No hidden folder is called like something that starts in another way. -/
theorem hiddenName_ne {name : String} (start : name.toList.head? ≠ some '.') (number : Nat) :
    hiddenName number ≠ name := by
  rintro rfl
  obtain ⟨digits, split, -⟩ := toList_hiddenName number
  rw [split] at start
  exact start rfl

theorem underscore_not_mem_hiddenName (number : Nat) : '_' ∉ (hiddenName number).toList := by
  obtain ⟨digits, split, each⟩ := toList_hiddenName number
  rw [split, List.mem_append, not_or]
  refine ⟨by decide, fun mem => ?_⟩
  exact absurd (each _ mem) (by decide)

namespace FileTree

variable {α : Type}

theorem follow_cons (t : FileTree α) (place : List String) (segment : String)
    (rest : List String) :
    t.follow place (segment :: rest) =
      match t.standing? place with
      | none => .error .notFound
      | some (.file _) => .error .notFolder
      | some .folder =>
        if Path.isVoid segment then t.follow place rest
        else if segment = ".." then
          if place.isEmpty then .error .notFound else t.follow place.dropLast rest
        else if isOverlong segment then .error .nameTooLong
        else t.follow (place ++ [segment]) rest := by
  rw [follow, standing?]
  cases t.at? place with
  | none => rfl
  | some sub => cases sub <;> rfl

theorem createAlong_cons (t : FileTree α) (place : List String) (segment : String)
    (rest : List String) :
    t.createAlong place (segment :: rest) =
      if Path.isVoid segment then t.createAlong place rest
      else if segment = ".." then
        if place.isEmpty then (false, t) else t.createAlong place.dropLast rest
      else if isOverlong segment then (false, t)
      else
        match t.standing? (place ++ [segment]) with
        | some .folder => t.createAlong (place ++ [segment]) rest
        | some (.file _) => (false, t)
        | none =>
          (t.put (place ++ [segment]) (folder [])).createAlong (place ++ [segment]) rest := by
  rw [createAlong, standing?]
  cases t.at? (place ++ [segment]) with
  | none => rfl
  | some sub => cases sub <;> rfl

theorem write_eq (t : FileTree α) (p : Path) (content : α) :
    t.write p content =
      match t.place p with
      | .error _ => (false, t)
      | .ok place =>
        match t.standing? place, t.standing? place.dropLast with
        | some .folder, _ => (false, t)
        | _, some .folder => (true, t.put place (file content))
        | _, _ => (false, t) := by
  rw [write]
  cases t.place p with
  | error problem => rfl
  | ok place =>
    dsimp only
    rw [standing?, standing?]
    cases t.at? place with
    | none =>
      cases t.at? place.dropLast with
      | none => rfl
      | some above => cases above <;> rfl
    | some sub =>
      cases sub with
      | folder entries => rfl
      | file content =>
        cases t.at? place.dropLast with
        | none => rfl
        | some above => cases above <;> rfl

/-- A file is written where its path leads, into a folder and in the place of no folder. -/
theorem write_of_place {t : FileTree α} {p : Path} {folder : List String} {name : String}
    (led : t.place p = .ok (folder ++ [name])) (inside : t.standing? folder = some .folder)
    (bare : t.standing? (folder ++ [name]) ≠ some .folder) (content : α) :
    t.write p content = (true, t.put (folder ++ [name]) (file content)) := by
  rw [write_eq, led]
  dsimp only
  rw [List.dropLast_concat, inside]
  split
  · next there => exact absurd there bare
  · rfl
  · next outside => exact absurd rfl outside

/-- Places that have no part of a certain name can be followed in the same way in two trees with the
same at all such places. -/
theorem follow_congr {t t' : FileTree α} {name : String}
    (same : ∀ q, name ∉ q → t'.standing? q = t.standing? q) {place segments : List String}
    (start : name ∉ place) (free : name ∉ segments.filter Path.counts) :
    t'.follow place segments = t.follow place segments := by
  induction segments generalizing place with
  | nil => rfl
  | cons segment rest ih =>
    rw [follow_cons, follow_cons, same place start]
    cases void : Path.isVoid segment with
    | true =>
      rw [List.filter_cons_of_neg (by simp [Path.counts, void])] at free
      simp only [if_true, ih start free]
    | false =>
      rw [List.filter_cons_of_pos (by simp [Path.counts, void]), List.mem_cons, not_or] at free
      have upwards : name ∉ place.dropLast := fun mem => start (List.mem_of_mem_dropLast mem)
      have onwards : name ∉ place ++ [segment] := by simp [start, free.1]
      simp only [Bool.false_eq_true, if_false, ih upwards free.2, ih onwards free.2]

/-- The first tree is what the second one is without a folder of a certain name, which has certain
entries. -/
structure Aside (above : List String) (name : String) (entries : List (String × FileTree α))
    (t u : FileTree α) : Prop where
  there : u.at? (above ++ [name]) = some (.folder entries)
  without : u.remove name above = t

namespace Aside

variable {above place : List String} {name other : String} {entries : List (String × FileTree α)}
  {t u : FileTree α} {hidden p : Path}

theorem standing? (h : Aside above name entries t u) (q : List String) :
    t.standing? q = if above ++ [name] <+: q then none else u.standing? q := by
  rw [← h.without, standing?_remove]

/-- Off the name of the folder the trees are the same. -/
theorem standing?_eq (h : Aside above name entries t u) {q : List String} (free : name ∉ q) :
    u.standing? q = t.standing? q := by
  rw [h.standing?, if_neg]
  exact fun inside => free (inside.subset (List.mem_append_right _ List.mem_cons_self))

theorem folders (h : Aside above name entries t u) (q : List String)
    (there : t.standing? q = some .folder) : u.standing? q = some .folder := by
  rw [h.standing?] at there
  split at there
  · cases there
  · exact there

theorem standing?_place (h : Aside above name entries t u) :
    u.standing? (above ++ [name]) = some .folder :=
  standing?_eq_folder_iff.mpr ⟨entries, h.there⟩

theorem standing?_above (h : Aside above name entries t u) :
    u.standing? above = some .folder := by
  apply standing?_of_append (List.cons_ne_nil name [])
  rw [h.standing?_place]
  rfl

theorem place_eq (h : Aside above name entries t u) (free : name ∉ p.names) :
    u.place p = t.place p := by
  rw [Path.names_eq] at free
  rw [FileTree.place, FileTree.place,
    follow_congr (fun _ => h.standing?_eq) (List.not_mem_nil) free]

/-- What is put elsewhere is put into both trees. -/
theorem put (h : Aside above name entries t u) {q : List String} (free : name ∉ q)
    (bare : u.standing? q ≠ some .folder) (new : FileTree α) :
    Aside above name entries (t.put q new) (u.put q new) := by
  have outside : ¬ above ++ [name] <+: q := fun inside =>
    free (inside.subset (List.mem_append_right _ List.mem_cons_self))
  have apart : ¬ q <+: above ++ [name] := by
    rintro ⟨rest, split⟩
    apply bare
    obtain rfl | more := eq_or_ne rest []
    · rw [List.append_nil] at split
      rw [split, h.standing?_place]
    · apply standing?_of_append more
      rw [split, h.standing?_place]
      rfl
  constructor
  · rw [at?_put_of_apart outside apart, h.there]
  · rw [remove_put (by rw [h.there]; rfl) outside apart, h.without]

theorem write (h : Aside above name entries t u) (free : name ∉ p.names) (content : α) :
    (u.write p content).1 = (t.write p content).1 ∧
      Aside above name entries (t.write p content).2 (u.write p content).2 := by
  rw [write_eq, write_eq, h.place_eq free]
  cases led : t.place p with
  | error problem => exact ⟨rfl, h⟩
  | ok q =>
    have free : name ∉ q := fun mem =>
      Path.forall_of_walk? (· ≠ name) (destination?_of_place led)
        (fun s mem _ same => free (same ▸ mem)) (List.forall_mem_nil _) name mem rfl
    dsimp only
    rw [h.standing?_eq free, h.standing?_eq fun mem => free (List.mem_of_mem_dropLast mem)]
    split
    · exact ⟨rfl, h⟩
    · next bare => exact ⟨rfl, h.put free (by rw [h.standing?_eq free]; exact bare) _⟩
    · exact ⟨rfl, h⟩

theorem createAlong (h : Aside above name entries t u) {segments : List String}
    (start : name ∉ place) (free : name ∉ segments.filter Path.counts) :
    (u.createAlong place segments).1 = (t.createAlong place segments).1 ∧
      Aside above name entries (t.createAlong place segments).2
        (u.createAlong place segments).2 := by
  induction segments generalizing t u place with
  | nil => exact ⟨rfl, h⟩
  | cons segment rest ih =>
    rw [createAlong_cons, createAlong_cons]
    cases void : Path.isVoid segment with
    | true =>
      rw [List.filter_cons_of_neg (by simp [Path.counts, void])] at free
      exact ih h start free
    | false =>
      rw [List.filter_cons_of_pos (by simp [Path.counts, void]), List.mem_cons, not_or] at free
      have upwards : name ∉ place.dropLast := fun mem => start (List.mem_of_mem_dropLast mem)
      have onwards : name ∉ place ++ [segment] := by simp [start, free.1]
      simp only [Bool.false_eq_true, if_false, h.standing?_eq onwards]
      split
      · split
        · exact ⟨rfl, h⟩
        · exact ih h upwards free.2
      · split
        · exact ⟨rfl, h⟩
        · split
          · exact ih h onwards free.2
          · exact ⟨rfl, h⟩
          · next bare =>
            apply ih (h.put onwards _ _) onwards free.2
            rw [h.standing?_eq onwards, bare]
            simp

theorem createFolders (h : Aside above name entries t u) (free : name ∉ p.names) :
    (u.createFolders p).1 = (t.createFolders p).1 ∧
      Aside above name entries (t.createFolders p).2 (u.createFolders p).2 := by
  rw [Path.names_eq] at free
  rw [FileTree.createFolders, FileTree.createFolders]
  split
  · exact ⟨rfl, h⟩
  · exact h.createAlong List.not_mem_nil free

/-- The entries of the folder can be changed without a trace in the other tree. -/
theorem inside (h : Aside above name entries t u) (entries' : List (String × FileTree α)) :
    Aside above name entries' t (u.put (above ++ [name]) (folder entries')) := by
  constructor
  · exact at?_put_self (by rw [h.there]; rfl) _
  · rw [remove_put_self h.standing?_above, h.without]

/-- The folder is found under its path as long as the path leads to its place without it. -/
theorem place_hidden (h : Aside above name entries t u)
    (placed : t.place hidden = .ok (above ++ [name])) :
    u.place hidden = .ok (above ++ [name]) :=
  place_mono h.folders placed

/-- The paths of entries lead to them, unless they get too long. -/
theorem place_join (h : Aside above name entries t u)
    (placed : t.place hidden = .ok (above ++ [name])) (named : Path.IsName other) :
    u.place (hidden.join ⟨other⟩) = .ok (above ++ [name] ++ [other]) ∨
      u.place (hidden.join ⟨other⟩) = .error .nameTooLong :=
  FileTree.place_join named (h.place_hidden placed) h.standing?_place

theorem at?_entry (h : Aside above name entries t u) (other : String) :
    u.at? (above ++ [name] ++ [other]) = entries.lookup other := by
  rw [at?_append, h.there, Option.bind_some, at?]
  cases entries.lookup other <;> rfl

/-- A file is written into the folder, unless its path is too long, or a folder is in the way. -/
theorem write_inside (h : Aside above name entries t u)
    (placed : t.place hidden = .ok (above ++ [name])) (named : Path.IsName other)
    (bare : ∀ below, entries.lookup other ≠ some (folder below)) (content : α) :
    u.write (hidden.join ⟨other⟩) content = (false, u) ∨
      ∃ u', u.write (hidden.join ⟨other⟩) content = (true, u') ∧
        Aside above name (update other (fun _ => file content) entries) t u' := by
  obtain led | long := h.place_join placed named
  · right
    have free : u.standing? (above ++ [name] ++ [other]) ≠ some .folder := by
      intro there
      obtain ⟨below, there⟩ := standing?_eq_folder_iff.mp there
      exact bare below ((h.at?_entry other).symm.trans there)
    refine ⟨u.put (above ++ [name] ++ [other]) (file content), ?_, ?_⟩
    · exact write_of_place led h.standing?_place free content
    · rw [put_append h.there]
      exact h.inside _
  · left
    rw [write_eq, long]

theorem removeFolder (h : Aside above name entries t u)
    (placed : t.place hidden = .ok (above ++ [name])) : u.removeFolder hidden = t := by
  rw [FileTree.removeFolder, h.place_hidden placed]
  dsimp only
  rw [h.there, clear, List.getLast?_concat, List.dropLast_concat]
  exact h.without

end Aside

/-- Files as the entries of a folder. -/
def leaves (files : List (String × α)) : List (String × FileTree α) :=
  files.map fun f => (f.1, file f.2)

theorem map_fst_leaves (files : List (String × α)) :
    (leaves files).map Prod.fst = files.map Prod.fst := by
  rw [leaves, List.map_map]
  rfl

theorem lookup_leaves_ne_folder (files : List (String × α)) (name : String)
    (below : List (String × FileTree α)) : (leaves files).lookup name ≠ some (folder below) := by
  intro found
  obtain ⟨f, -, same⟩ := List.mem_map.mp (mem_of_lookup found)
  cases congrArg Prod.snd same

namespace Aside

variable {above : List String} {name other : String} {files : List (String × α)} {content : α}
  {t u : FileTree α} {hidden target : Path}

/-- A file with a new name is added to the folder, unless its path is too long. -/
theorem write_fresh (h : Aside above name (leaves files) t u)
    (placed : t.place hidden = .ok (above ++ [name])) (named : Path.IsName other)
    (fresh : other ∉ files.map Prod.fst) (content : α) :
    u.write (hidden.join ⟨other⟩) content = (false, u) ∨
      ∃ u', u.write (hidden.join ⟨other⟩) content = (true, u') ∧
        Aside above name (leaves (files ++ [(other, content)])) t u' := by
  have bare := lookup_leaves_ne_folder files other
  rw [← map_fst_leaves] at fresh
  have added : update other (fun _ => file content) (leaves files) =
      leaves (files ++ [(other, content)]) := by
    rw [update_of_not_mem fresh, leaves, leaves, List.map_append]
    rfl
  rw [← added]
  exact h.write_inside placed named bare content

/-- The first file of the folder is written again, unless its path is too long. -/
theorem write_first (h : Aside above name (leaves ((other, content) :: files)) t u)
    (placed : t.place hidden = .ok (above ++ [name])) (named : Path.IsName other)
    (content' : α) :
    u.write (hidden.join ⟨other⟩) content' = (false, u) ∨
      ∃ u', u.write (hidden.join ⟨other⟩) content' = (true, u') ∧
        Aside above name (leaves ((other, content') :: files)) t u' := by
  have changed : update other (fun _ => file content') (leaves ((other, content) :: files)) =
      leaves ((other, content') :: files) := if_pos rfl
  rw [← changed]
  exact h.write_inside placed named (lookup_leaves_ne_folder _ other) content'

/-- If the first file of the folder is moved out of it, it is written into the other tree. -/
theorem move (h : Aside above name (leaves ((other, content) :: files)) t u)
    (placed : t.place hidden = .ok (above ++ [name])) (named : Path.IsName other)
    (fresh : other ∉ files.map Prod.fst) (free : name ∉ target.names) :
    u.move (hidden.join ⟨other⟩) target = (false, u) ∨
      ∃ u', u.move (hidden.join ⟨other⟩) target = (true, u') ∧
        (t.write target content).1 = true ∧
        Aside above name (leaves files) (t.write target content).2 u' := by
  obtain led | long := h.place_join placed named
  · have found : u.at? (above ++ [name] ++ [other]) = some (file content) :=
      (h.at?_entry other).trans (List.lookup_cons_self)
    have rest :
        (leaves ((other, content) :: files)).filter (fun e => e.1 ≠ other) = leaves files := by
      rw [leaves, List.map_cons, List.filter_cons_of_neg (by simp), ← leaves, filter_of_not_mem]
      rwa [map_fst_leaves]
    have taken : u.clear (above ++ [name] ++ [other]) =
        u.put (above ++ [name]) (folder (leaves files)) := by
      rw [clear, List.getLast?_concat, List.dropLast_concat]
      dsimp only
      rw [← List.append_nil (above ++ [name]), remove_append h.there, List.append_nil, remove, rest]
    obtain ⟨same, moved⟩ := (h.inside (leaves files)).write free content
    rw [FileTree.move, led]
    dsimp only
    rw [found]
    dsimp only
    rw [taken]
    rcases written : (u.put (above ++ [name]) (folder (leaves files))).write target content with
      ⟨done, u'⟩
    rw [written] at same moved
    cases done with
    | false => exact .inl rfl
    | true => exact .inr ⟨u', rfl, same.symm, moved⟩
  · left
    rw [FileTree.move, long]

end Aside

/-- Either no hidden folder is created, or there is a new one aside. Its name is not one that the
other path goes through. -/
theorem createHidden_cases (t : FileTree α) (p other : Path) :
    t.createHidden p other = (none, t) ∨
      ∃ above number u, t.createHidden p other = (some (p.join ⟨hiddenName number⟩), u) ∧
        hiddenName number ∉ other.names ∧
        t.place (p.join ⟨hiddenName number⟩) = .ok (above ++ [hiddenName number]) ∧
        Aside above (hiddenName number) (leaves []) t u := by
  rw [createHidden]
  split
  · next entries found =>
    obtain ⟨above, led, there⟩ := find_eq_ok.mp found
    have inside : t.standing? above = some .folder := standing?_eq_folder_iff.mpr ⟨entries, there⟩
    split
    · exact .inl rfl
    · next name unused =>
      obtain ⟨free, number, rfl⟩ := exists_of_unusedName? unused
      rw [List.mem_append, not_or] at free
      obtain led' | long := FileTree.place_join (isName_hiddenName number) led inside
      · have nothing : t.at? (above ++ [hiddenName number]) = none := by
          rw [at?_append, there, Option.bind_some, at?]
          cases found : entries.lookup (hiddenName number) with
          | none => rfl
          | some sub => exact absurd (List.mem_map_of_mem (mem_of_lookup found)) free.1
        refine .inr ⟨above, number, _, ?_, free.2, led', ⟨at?_put_concat inside _ _, ?_⟩⟩
        · rw [led']
          rfl
        · rw [remove_put_self inside, remove_of_none nothing]
      · left
        rw [long]
  · exact .inl rfl

end FileTree

end ArenaVariations
