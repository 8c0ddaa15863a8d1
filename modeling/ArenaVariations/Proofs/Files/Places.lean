import ArenaVariations.Files.Workspace
import ArenaVariations.Proofs.Files.Path
import ArenaVariations.Proofs.Files.Tree
import ArenaVariations.Proofs.Node.Checked

/-!
# Where paths lead

In a tree without links a path leads to a place that can be told from its names alone: two dots
undo the name before them. The tree only decides whether the path can be followed. So what an
operation does to a tree can be told from the paths that it is given: creating folders adds
folders at the places that the path passes, and writing a file changes the place that the path
leads to.
-/

namespace ArenaVariations

namespace Path

/-- The place that names lead to from a place, unless they lead above the top. -/
def walk? (place : List String) : List String → Option (List String)
  | [] => some place
  | name :: names =>
    if name = ".." then
      if place = [] then none else walk? place.dropLast names
    else walk? (place ++ [name]) names

/-- The place that a path leads to, unless it leads above the top. -/
def destination? (p : Path) : Option (List String) :=
  walk? [] p.names

theorem walk?_append (place names more : List String) :
    walk? place (names ++ more) = (walk? place names).bind fun q => walk? q more := by
  induction names generalizing place with
  | nil => rfl
  | cons name names ih =>
    rw [List.cons_append, walk?, walk?]
    split
    · split
      · rfl
      · exact ih _
    · exact ih _

/-- Names that do not lead upwards are the way. -/
theorem walk?_of_forall {names : List String} (plain : ∀ s ∈ names, s ≠ "..")
    (place : List String) : walk? place names = some (place ++ names) := by
  induction names generalizing place with
  | nil => rw [walk?, List.append_nil]
  | cons name names ih =>
    obtain ⟨first, rest⟩ := List.forall_mem_cons.mp plain
    rw [walk?, if_neg first, ih rest, List.append_assoc]
    rfl

/-- What holds of all names, but for those that lead upwards, holds of all parts of the place that
they lead to. -/
theorem forall_of_walk? (holds : String → Prop) {names place target : List String}
    (led : walk? place names = some target) (each : ∀ s ∈ names, s ≠ ".." → holds s)
    (start : ∀ s ∈ place, holds s) : ∀ s ∈ target, holds s := by
  induction names generalizing place with
  | nil =>
    obtain rfl := Option.some.inj led
    exact start
  | cons name names ih =>
    obtain ⟨first, each⟩ := List.forall_mem_cons.mp each
    rw [walk?] at led
    split at led
    · split at led
      · cases led
      · exact ih led each fun s mem => start s ((List.dropLast_sublist place).subset mem)
    · next plain =>
      exact ih led each (List.forall_mem_append.mpr
        ⟨start, List.forall_mem_singleton.mpr (first plain)⟩)

/-- Where a path leads, another one with the same names and more of them goes on. -/
theorem destination?_of_names {p q : Path} {more place : List String}
    (leads : p.destination? = some place) (names : q.names = p.names ++ more)
    (plain : ∀ s ∈ more, s ≠ "..") : q.destination? = some (place ++ more) := by
  rw [destination?, names, walk?_append, show walk? [] p.names = some place from leads]
  exact walk?_of_forall plain place

/-- A path whose last name does not lead upwards leads to a place with that name. -/
theorem destination?_of_concat {p : Path} {names place : List String} {name : String}
    (split : p.names = names ++ [name]) (plain : name ≠ "..")
    (leads : p.destination? = some place) :
    ∃ front, walk? [] names = some front ∧ place = front ++ [name] := by
  rw [destination?, split, walk?_append] at leads
  obtain ⟨front, led, last⟩ := Option.bind_eq_some_iff.mp leads
  rw [walk?_of_forall (by simpa using plain)] at last
  exact ⟨front, led, (Option.some.inj last).symm⟩

end Path

namespace FileTree

variable {α : Type} {t t' : FileTree α} {p : Path}

/-- Following segments leads where their names lead. -/
theorem follow_eq_ok {place target : List String} {segments : List String}
    (followed : t.follow place segments = .ok target) :
    Path.walk? place (segments.filter Path.counts) = some target := by
  induction segments generalizing place with
  | nil =>
    cases followed
    rfl
  | cons segment rest ih =>
    rw [follow] at followed
    cases there : t.at? place with
    | none =>
      rw [there] at followed
      cases followed
    | some sub =>
      rw [there] at followed
      cases sub with
      | file => cases followed
      | folder entries =>
        simp only at followed
        by_cases void : Path.isVoid segment = true
        · rw [if_pos void] at followed
          rw [List.filter_cons_of_neg (by simp [Path.counts, void])]
          exact ih followed
        · rw [if_neg void] at followed
          rw [List.filter_cons_of_pos (by simp [Path.counts, void]), Path.walk?]
          by_cases dots : segment = ".."
          · rw [if_pos dots] at followed ⊢
            by_cases top : place = []
            · rw [if_pos (by simp [top])] at followed
              cases followed
            · rw [if_neg (by simp [top])] at followed
              rw [if_neg top]
              exact ih followed
          · rw [if_neg dots] at followed ⊢
            split at followed
            · cases followed
            · exact ih followed

theorem destination?_of_place {target : List String} (led : t.place p = .ok target) :
    p.destination? = some target := by
  rw [place] at led
  split at led
  · cases led
  · split at led
    · cases led
    · rw [Path.destination?, Path.names_eq]
      exact follow_eq_ok led

/-- A path that can be followed in a tree can be followed in another one that has all folders of
the first. -/
theorem follow_mono (folders : ∀ place, t.standing? place = some .folder →
    t'.standing? place = some .folder) {place target : List String} {segments : List String}
    (followed : t.follow place segments = .ok target) :
    t'.follow place segments = .ok target := by
  induction segments generalizing place with
  | nil => exact followed
  | cons segment rest ih =>
    rw [follow] at followed ⊢
    cases there : t.at? place with
    | none =>
      rw [there] at followed
      cases followed
    | some sub =>
      rw [there] at followed
      cases sub with
      | file => cases followed
      | folder entries =>
        obtain ⟨entries', there'⟩ := standing?_eq_folder_iff.mp
          (folders place (standing?_eq_folder_iff.mpr ⟨entries, there⟩))
        rw [there']
        simp only at followed ⊢
        by_cases void : Path.isVoid segment = true
        · rw [if_pos void] at followed ⊢
          exact ih followed
        · rw [if_neg void] at followed ⊢
          by_cases dots : segment = ".."
          · rw [if_pos dots] at followed ⊢
            split at followed
            · cases followed
            · next inner =>
              rw [if_neg inner]
              exact ih followed
          · rw [if_neg dots] at followed ⊢
            split at followed
            · cases followed
            · next short =>
              rw [if_neg short]
              exact ih followed

theorem place_mono (folders : ∀ place, t.standing? place = some .folder →
    t'.standing? place = some .folder) {target : List String} (led : t.place p = .ok target) :
    t'.place p = .ok target := by
  rw [place] at led ⊢
  split at led
  · cases led
  · next given =>
    split at led
    · cases led
    · next short =>
      rw [if_neg given, if_neg short]
      exact follow_mono folders led

theorem find_eq_ok {sub : FileTree α} :
    t.find p = .ok sub ↔ ∃ target, t.place p = .ok target ∧ t.at? target = some sub := by
  rw [find, bind_eq_ok]
  constructor
  · rintro ⟨target, led, found⟩
    refine ⟨target, led, ?_⟩
    cases there : t.at? target with
    | none =>
      rw [there] at found
      cases found
    | some sub' =>
      rw [there] at found
      cases found
      rfl
  · rintro ⟨target, led, there⟩
    refine ⟨target, led, ?_⟩
    rw [there]
    rfl

/-- Names that lead to a file end with its name. -/
theorem names_of_file {place target : List String} {segments : List String} {content : α}
    (followed : t.follow place segments = .ok target)
    (start : t.standing? place = some .folder) (there : t.standing? target = some (.file content)) :
    ∃ names name, segments.filter Path.counts = names ++ [name] ∧ name ≠ ".." := by
  induction segments generalizing place with
  | nil =>
    cases followed
    rw [there] at start
    cases start
  | cons segment rest ih =>
    obtain ⟨entries, here⟩ := standing?_eq_folder_iff.mp start
    rw [follow, here] at followed
    simp only at followed
    by_cases void : Path.isVoid segment = true
    · rw [if_pos void] at followed
      rw [List.filter_cons_of_neg (by simp [Path.counts, void])]
      exact ih followed start
    · rw [if_neg void] at followed
      rw [List.filter_cons_of_pos (by simp [Path.counts, void])]
      by_cases dots : segment = ".."
      · rw [if_pos dots] at followed
        split at followed
        · cases followed
        · obtain ⟨names, name, split, ne⟩ := ih followed (standing?_dropLast start)
          exact ⟨segment :: names, name, congrArg (segment :: ·) split, ne⟩
      · rw [if_neg dots] at followed
        split at followed
        · cases followed
        · cases rest with
          | nil => exact ⟨[], segment, rfl, dots⟩
          | cons next rest =>
            -- a further segment can be followed from a folder only
            have inside : t.standing? (place ++ [segment]) = some .folder := by
              rw [follow] at followed
              cases further : t.at? (place ++ [segment]) with
              | none =>
                rw [further] at followed
                cases followed
              | some sub =>
                rw [further] at followed
                cases sub with
                | file => cases followed
                | folder entries => exact standing?_eq_folder_iff.mpr ⟨entries, further⟩
            obtain ⟨names, name, split, ne⟩ := ih followed inside
            exact ⟨segment :: names, name, congrArg (segment :: ·) split, ne⟩

/-- The path of a file ends with its name. -/
theorem names_of_find {content : α} (there : t.find p = .ok (file content)) :
    ∃ names name, p.names = names ++ [name] ∧ name ≠ ".." := by
  obtain ⟨target, led, found⟩ := find_eq_ok.mp there
  rw [place] at led
  split at led
  · cases led
  · split at led
    · cases led
    · rw [Path.names_eq]
      cases t with
      | file top =>
        obtain ⟨segment, rest, split⟩ := List.exists_cons_of_ne_nil p.segments_ne_nil
        rw [split] at led
        cases led
      | folder entries => exact names_of_file led rfl (standing?_eq_file_iff.mpr found)

/-- The places that a path passes on its way. -/
def Passed (place : List String) (names : List String) (q : List String) : Prop :=
  ∃ start, start <+: names ∧ Path.walk? place start = some q

theorem passed_cons {place names q : List String} {name : String} (plain : name ≠ "..")
    (passed : Passed (place ++ [name]) names q) : Passed place (name :: names) q := by
  obtain ⟨start, front, led⟩ := passed
  refine ⟨name :: start, List.cons_prefix_cons.mpr ⟨rfl, front⟩, ?_⟩
  rw [Path.walk?, if_neg plain, led]

theorem passed_dots {place names q : List String} (inner : place ≠ [])
    (passed : Passed place.dropLast names q) : Passed place (".." :: names) q := by
  obtain ⟨start, front, led⟩ := passed
  refine ⟨".." :: start, List.cons_prefix_cons.mpr ⟨rfl, front⟩, ?_⟩
  rw [Path.walk?, if_pos rfl, if_neg inner, led]

/-- Making a folder where nothing stands changes nothing but that the first place of a way becomes
a folder. -/
theorem grown_put_empty {place names : List String} {name : String}
    (start : t.standing? place = some .folder) (plain : name ≠ "..")
    (free : t.standing? (place ++ [name]) = none) :
    Grown (Passed place (name :: names)) t (t.put (place ++ [name]) (folder [])) := by
  intro q
  rw [standing?_put isLeaf_empty start (by rw [free]; simp)]
  by_cases here : q = place ++ [name]
  · subst here
    refine .inr ⟨⟨[name], ⟨_, rfl⟩, ?_⟩, free, ?_⟩
    · rw [Path.walk?, if_neg plain]
      rfl
    · rw [if_pos rfl]
      rfl
  · exact .inl (if_neg here)

/-- Creating folders on the way along segments changes nothing but that places on this way, where
there was nothing, become folders. -/
theorem createAlong_grown {place : List String} {segments : List String}
    (start : t.standing? place = some .folder) :
    Grown (Passed place (segments.filter Path.counts)) t (t.createAlong place segments).2 := by
  induction segments generalizing t place with
  | nil => exact .refl _ _
  | cons segment rest ih =>
    rw [createAlong]
    by_cases void : Path.isVoid segment = true
    · rw [if_pos void, List.filter_cons_of_neg (by simp [Path.counts, void])]
      exact ih start
    · rw [if_neg void, List.filter_cons_of_pos (by simp [Path.counts, void])]
      by_cases dots : segment = ".."
      · subst dots
        rw [if_pos rfl]
        split
        · exact .refl _ _
        · next inner =>
          apply (ih (standing?_dropLast start)).mono
          exact fun q passed => passed_dots (by simpa using inner) passed
      · rw [if_neg dots]
        split
        · exact .refl _ _
        · have wider : ∀ q, Passed (place ++ [segment]) (rest.filter Path.counts) q →
              Passed place (segment :: rest.filter Path.counts) q := fun _ => passed_cons dots
          cases there : t.at? (place ++ [segment]) with
          | some sub =>
            cases sub with
            | file => exact .refl _ _
            | folder entries =>
              exact (ih (standing?_eq_folder_iff.mpr ⟨entries, there⟩)).mono wider
          | none =>
            have free : t.standing? (place ++ [segment]) = none := by rw [standing?, there]; rfl
            have made : (t.put (place ++ [segment]) (folder [])).standing? (place ++ [segment]) =
                some .folder := by
              rw [standing?_put isLeaf_empty start (by rw [free]; simp), if_pos rfl]
              rfl
            exact (grown_put_empty start dots free).trans ((ih made).mono wider)

theorem createAlong_file (content : α) {place : List String} {segments : List String} :
    ((file content).createAlong place segments).2 = file content := by
  induction segments generalizing place with
  | nil => rfl
  | cons segment rest ih =>
    have bare : (file content).put (place ++ [segment]) (folder []) = file content := by
      cases place <;> rfl
    have nothing : (file content).at? (place ++ [segment]) = none := by
      cases place <;> rfl
    rw [createAlong, nothing, bare]
    split
    · exact ih
    · split
      · split
        · rfl
        · exact ih
      · split
        · rfl
        · exact ih

/-- Creating a folder and those that it lies in adds folders on the way to it. -/
theorem createFolders_grown (t : FileTree α) (p : Path) :
    Grown (Passed [] p.names) t (t.createFolders p).2 := by
  rw [createFolders]
  split
  · exact .refl _ _
  · cases t with
    | file content =>
      rw [createAlong_file]
      exact .refl _ _
    | folder entries =>
      rw [Path.names_eq]
      exact createAlong_grown rfl

/-- Writing a file changes the place that the path leads to and no other one, or does nothing. -/
theorem write_cases (t : FileTree α) (p : Path) (content : α) :
    t.write p content = (false, t) ∨
      ∃ t' folder name, t.write p content = (true, t') ∧
        p.destination? = some (folder ++ [name]) ∧ t.standing? folder = some .folder ∧
        t.standing? (folder ++ [name]) ≠ some .folder ∧
        ∀ place, t'.standing? place =
          if place = folder ++ [name] then some (.file content) else t.standing? place := by
  cases led : t.place p with
  | error problem =>
    left
    rw [write, led]
  | ok target =>
    simp only [write, led]
    split
    · exact .inl rfl
    · next entries above bare =>
      right
      have free : t.standing? target ≠ some .folder := by
        intro there
        obtain ⟨others, there⟩ := standing?_eq_folder_iff.mp there
        exact bare others there
      have inside : t.standing? target.dropLast = some .folder :=
        standing?_eq_folder_iff.mpr ⟨entries, above⟩
      obtain rfl | ⟨front, last, rfl⟩ := List.eq_nil_or_concat' target
      · exact absurd inside free
      · rw [List.dropLast_concat] at inside
        exact ⟨_, front, last, rfl, destination?_of_place led, inside, free,
          standing?_put (isLeaf_file content) inside free⟩
    · exact .inl rfl

theorem write_keeps_folders (t : FileTree α) (p : Path) (content : α) (place : List String)
    (there : t.standing? place = some .folder) :
    (t.write p content).2.standing? place = some .folder := by
  obtain failed | ⟨t', folder, name, written, -, -, bare, changed⟩ := t.write_cases p content
  · rw [failed]
    exact there
  · rw [written, changed, if_neg, there]
    rintro rfl
    exact bare there

theorem follow_append (t : FileTree α) (place segments more : List String) :
    t.follow place (segments ++ more) = t.follow place segments >>= fun q => t.follow q more := by
  induction segments generalizing place with
  | nil => rfl
  | cons segment segments ih =>
    rw [List.cons_append, follow, follow]
    cases t.at? place with
    | none => rfl
    | some sub =>
      cases sub with
      | file => rfl
      | folder entries =>
        dsimp only
        split
        · exact ih _
        · split
          · split
            · rfl
            · exact ih _
          · split
            · rfl
            · exact ih _

/-- A path that cannot be followed because of its length cannot be followed in a tree with more
folders either. -/
theorem follow_tooLong_mono (folders : ∀ place, t.standing? place = some .folder →
    t'.standing? place = some .folder) {place : List String} {segments : List String}
    (failed : t.follow place segments = .error .nameTooLong) :
    t'.follow place segments = .error .nameTooLong := by
  induction segments generalizing place with
  | nil => cases failed
  | cons segment rest ih =>
    rw [follow] at failed ⊢
    cases there : t.at? place with
    | none =>
      rw [there] at failed
      cases failed
    | some sub =>
      rw [there] at failed
      cases sub with
      | file => cases failed
      | folder entries =>
        obtain ⟨entries', there'⟩ := standing?_eq_folder_iff.mp
          (folders place (standing?_eq_folder_iff.mpr ⟨entries, there⟩))
        rw [there']
        dsimp only at failed ⊢
        split at failed
        · next void =>
          rw [if_pos void]
          exact ih failed
        · next void =>
          rw [if_neg void]
          split at failed
          · next dots =>
            rw [if_pos dots]
            split at failed
            · cases failed
            · next inner =>
              rw [if_neg inner]
              exact ih failed
          · next dots =>
            rw [if_neg dots]
            split at failed
            · next long => rw [if_pos long]; rfl
            · next short =>
              rw [if_neg short]
              exact ih failed

theorem place_tooLong_mono (folders : ∀ place, t.standing? place = some .folder →
    t'.standing? place = some .folder) (failed : t.place p = .error .nameTooLong) :
    t'.place p = .error .nameTooLong := by
  rw [place] at failed ⊢
  split at failed
  · cases failed
  · next given =>
    rw [if_neg given]
    split at failed
    · next long => rw [if_pos long]; rfl
    · next short =>
      rw [if_neg short]
      exact follow_tooLong_mono folders failed

/-- Following a segment that names nothing leads nowhere else. -/
theorem follow_void {place target : List String} (followed : t.follow place [""] = .ok target) :
    target = place := by
  rw [follow] at followed
  cases there : t.at? place with
  | none =>
    rw [there] at followed
    cases followed
  | some sub =>
    rw [there] at followed
    cases sub with
    | file => cases followed
    | folder entries => exact (Except.ok.inj followed).symm

theorem follow_void_ne_tooLong {place : List String} :
    t.follow place [""] ≠ .error .nameTooLong := by
  rw [follow]
  cases t.at? place with
  | none => simp [throw, throwThe, MonadExceptOf.throw]
  | some sub =>
    cases sub <;>
      simp [throw, throwThe, MonadExceptOf.throw, Path.isVoid, follow, pure, Except.pure]

theorem follow_name {place : List String} {name : String} (named : Path.IsName name)
    (there : t.standing? place = some .folder) :
    t.follow place [name] =
      if isOverlong name then .error .nameTooLong else .ok (place ++ [name]) := by
  obtain ⟨entries, found⟩ := standing?_eq_folder_iff.mp there
  have counted : Path.isVoid name = false := by simpa [Path.counts] using named.counts
  rw [follow, found]
  simp only [counted, Bool.false_eq_true, if_false, named.ne_dots]
  split <;> rfl

/-- The segments before the name that a path was joined with lead where the path led. -/
theorem exists_segments_join {name : String} (named : Path.IsName name) (given : p.text ≠ "") :
    ∃ ss, (p.join ⟨name⟩).segments = ss ++ [name] ∧
      (∀ target, t.follow [] p.segments = .ok target → t.follow [] ss = .ok target) ∧
      (t.follow [] p.segments = .error .nameTooLong → t.follow [] ss = .error .nameTooLong) := by
  obtain ⟨ss, -, whole, split⟩ :=
    Path.segments_join given (Path.isAbsolute_of_no_slash named.no_slash)
  rw [Path.segments_of_no_slash named.no_slash] at whole
  refine ⟨ss, whole, ?_⟩
  obtain ⟨same, -⟩ | same := split
  · rw [same]
    exact ⟨fun _ => id, id⟩
  · rw [same, follow_append]
    cases t.follow [] ss with
    | error e =>
      refine ⟨fun target followed => ?_, fun failed => failed⟩
      cases followed
    | ok q =>
      refine ⟨fun target followed => ?_, fun failed => ?_⟩
      · rw [follow_void followed]
      · exact absurd failed follow_void_ne_tooLong

theorem isUnreachable_join {name : String} (named : Path.IsName name)
    (long : isUnreachable p = true) : isUnreachable (p.join ⟨name⟩) = true := by
  rw [isUnreachable, decide_eq_true_eq] at long ⊢
  rw [Path.join, if_neg (by rw [Path.isAbsolute_of_no_slash named.no_slash]; simp)]
  split
  · rw [String.utf8ByteSize_append]
    omega
  · rw [String.utf8ByteSize_append, String.utf8ByteSize_append]
    omega

/-- A name that is joined to the path of a folder leads on from it, unless it gets too long. -/
theorem place_join {name : String} (named : Path.IsName name) {top : List String}
    (led : t.place p = .ok top) (there : t.standing? top = some .folder) :
    t.place (p.join ⟨name⟩) = .ok (top ++ [name]) ∨
      t.place (p.join ⟨name⟩) = .error .nameTooLong := by
  rw [place] at led ⊢
  split at led
  · cases led
  · next given =>
    rw [if_neg (Path.text_join_ne_empty named given)]
    split at led
    · cases led
    · split
      · exact .inr rfl
      · obtain ⟨ss, whole, leads, -⟩ := exists_segments_join (t := t) named given
        rw [whole, follow_append, leads top led]
        change t.follow top [name] = _ ∨ t.follow top [name] = _
        rw [follow_name named there]
        split
        · exact .inr rfl
        · exact .inl rfl

theorem place_join_tooLong {name : String} (named : Path.IsName name)
    (failed : t.place p = .error .nameTooLong) :
    t.place (p.join ⟨name⟩) = .error .nameTooLong := by
  rw [place] at failed ⊢
  split at failed
  · cases failed
  · next given =>
    rw [if_neg (Path.text_join_ne_empty named given)]
    split at failed
    · next long => rw [if_pos (isUnreachable_join named long)]; rfl
    · split
      · rfl
      · obtain ⟨ss, whole, -, fails⟩ := exists_segments_join (t := t) named given
        rw [whole, follow_append, fails failed]
        rfl

theorem place_descend_tooLong {ways : List String} (each : ∀ s ∈ ways, Path.IsName s)
    (failed : t.place p = .error .nameTooLong) :
    t.place (p.descend ways) = .error .nameTooLong := by
  induction ways generalizing p with
  | nil => exact failed
  | cons s ways ih =>
    obtain ⟨first, rest⟩ := List.forall_mem_cons.mp each
    exact ih rest (place_join_tooLong first failed)

/-- Names below a folder lead to what stands there, unless the path gets too long. -/
theorem place_descend {ways : List String} (each : ∀ s ∈ ways, Path.IsName s) {top : List String}
    (led : t.place p = .ok top) (there : (t.standing? (top ++ ways)).isSome) :
    t.place (p.descend ways) = .ok (top ++ ways) ∨
      t.place (p.descend ways) = .error .nameTooLong := by
  induction ways generalizing p top with
  | nil =>
    rw [List.append_nil]
    exact .inl led
  | cons s ways ih =>
    obtain ⟨first, rest⟩ := List.forall_mem_cons.mp each
    have inside := standing?_of_append (List.cons_ne_nil s ways) there
    rw [List.append_cons] at there ⊢
    change t.place ((p.join ⟨s⟩).descend ways) = _ ∨ t.place ((p.join ⟨s⟩).descend ways) = _
    obtain further | failed := place_join first led inside
    · exact ih rest further there
    · exact .inr (place_descend_tooLong rest failed)

end FileTree

end ArenaVariations
