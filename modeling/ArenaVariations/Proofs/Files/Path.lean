import Mathlib.Data.List.DropRight
import ArenaVariations.Files.Path
import ArenaVariations.Proofs.Text.Separated

/-!
# Paths as names

What counts of a path is how it starts and the names that follow. Both can be read off its
segments, and every operation on paths does to the names what it is named for: joining appends
them, the parent drops the last one, and going below a folder drops those of the folder. The text
of a path matters only for messages.
-/

namespace ArenaVariations

namespace Path

/-- The name of an entry of a folder, as opposed to a segment that names nothing or leads
upwards. -/
structure IsName (s : String) : Prop where
  ne_empty : s ≠ ""
  ne_dot : s ≠ "."
  ne_dots : s ≠ ".."
  no_slash : '/' ∉ s.toList

/-- Whether a segment names something or leads upwards. -/
def counts (s : String) : Bool :=
  !isVoid s

theorem IsName.counts {s : String} (h : IsName s) : counts s = true := by
  simp [Path.counts, isVoid, h.ne_empty, h.ne_dot]

theorem IsName.of_length {s : String} (slashless : '/' ∉ s.toList) (long : 2 < s.length) :
    IsName s := by
  refine ⟨?_, ?_, ?_, slashless⟩ <;>
  · rintro rfl
    exact absurd long (by decide)

theorem IsName.of_counts {s : String} (counted : Path.counts s = true) (plain : s ≠ "..")
    (slashless : '/' ∉ s.toList) : IsName s := by
  refine ⟨?_, ?_, plain, slashless⟩
  · rintro rfl
    cases counted
  · rintro rfl
    cases counted

theorem counts_empty : counts "" = false := rfl

theorem segments_ne_nil (p : Path) : p.segments ≠ [] := by
  rw [segments, ne_eq, List.map_eq_nil_iff]
  exact List.splitOn_ne_nil _ _

theorem segments_append (s t : String) :
    segments ⟨s ++ "/" ++ t⟩ = segments ⟨s⟩ ++ segments ⟨t⟩ := by
  have split : (s ++ "/" ++ t).toList = s.toList ++ '/' :: t.toList := by simp
  rw [segments, split, List.splitOn_append_cons_self, List.map_append]
  rfl

theorem segments_of_no_slash {s : String} (h : '/' ∉ s.toList) : segments ⟨s⟩ = [s] := by
  rw [segments, List.splitOn_eq_singleton h, List.map_singleton, String.ofList_toList]

theorem intercalate_segments (p : Path) : "/".intercalate p.segments = p.text :=
  intercalate_splitOn_toList rfl p.text

theorem segments_intercalate {ss : List String} (filled : ss ≠ [])
    (each : ∀ s ∈ ss, '/' ∉ s.toList) : segments ⟨"/".intercalate ss⟩ = ss :=
  splitOn_toList_intercalate rfl filled each

theorem no_slash_of_mem_segments {p : Path} {s : String} (mem : s ∈ p.segments) :
    '/' ∉ s.toList := by
  obtain ⟨cs, among, rfl⟩ := List.mem_map.mp mem
  rw [String.toList_ofList]
  exact not_mem_of_mem_splitOn among

theorem segments_eq_singleton_iff {p : Path} : p.segments = [""] ↔ p.text = "" := by
  constructor
  · intro h
    rw [← intercalate_segments, h]
    rfl
  · intro h
    rw [show p = ⟨""⟩ from congrArg Path.mk h]
    rfl

/-- A path is absolute if its first segment is empty and not the only one. -/
theorem isAbsolute_iff {p : Path} :
    p.isAbsolute = true ↔ ∃ ss, ss ≠ [] ∧ p.segments = "" :: ss := by
  rw [isAbsolute, decide_eq_true_eq]
  constructor
  · intro head
    obtain ⟨cs, split⟩ := List.head?_eq_some_iff.mp head
    have text : p = ⟨"" ++ "/" ++ String.ofList cs⟩ := by
      refine congrArg Path.mk (String.toList_inj.mp ?_)
      simp [split]
    rw [text, segments_append]
    exact ⟨_, segments_ne_nil _, rfl⟩
  · rintro ⟨ss, filled, split⟩
    obtain ⟨s, ss, rfl⟩ := List.exists_cons_of_ne_nil filled
    rw [← intercalate_segments, split, String.toList_intercalate, List.map_cons, List.map_cons,
      List.intercalate_cons_cons]
    rfl

theorem isAbsolute_of_no_slash {s : String} (h : '/' ∉ s.toList) :
    isAbsolute ⟨s⟩ = false := by
  rw [Bool.eq_false_iff, ne_eq, isAbsolute_iff, segments_of_no_slash h]
  rintro ⟨ss, filled, same⟩
  exact filled (List.cons.inj same).2.symm

theorem lead_congr {p q : Path} (abs : p.isAbsolute = q.isAbsolute)
    (first : p.segments.head? = q.segments.head?) : p.lead = q.lead := by
  rw [lead, lead, abs, first]

theorem lead_eq_name_iff {p : Path} :
    p.lead = .name ↔ p.isAbsolute = false ∧ p.segments.head? ≠ some "." := by
  rw [lead]
  split
  · simp_all
  · split <;> simp_all

theorem lead_eq_root_iff {p : Path} : p.lead = .root ↔ p.isAbsolute = true := by
  rw [lead]
  split
  · simp_all
  · split <;> simp_all

/-- The names of a path are those of its segments that count. The first one is left out if the
start of the path stands for it, but then it does not count. -/
theorem names_eq (p : Path) : p.names = p.segments.filter counts := by
  have same : p.names = p.body.filter counts := rfl
  rw [same, body]
  obtain ⟨first, rest, split⟩ := List.exists_cons_of_ne_nil p.segments_ne_nil
  cases found : p.lead with
  | name => rfl
  | root =>
    obtain ⟨ss, -, absolute⟩ := isAbsolute_iff.mp (lead_eq_root_iff.mp found)
    rw [absolute, List.filter_cons_of_neg (by rw [counts_empty]; exact Bool.false_ne_true)]
    rfl
  | current =>
    have dot : p.segments.head? = some "." := by
      rw [lead] at found
      split at found
      · cases found
      · split at found
        · assumption
        · cases found
    rw [split] at dot ⊢
    obtain rfl := Option.some.inj dot
    rw [List.filter_cons_of_neg (by decide)]
    rfl

theorem leadComponents_eq_nil_iff {p : Path} : p.leadComponents = [] ↔ p.lead = .name := by
  rw [leadComponents]
  cases p.lead <;> simp

theorem leadComponents_injective {p q : Path} (h : p.leadComponents = q.leadComponents) :
    p.lead = q.lead := by
  rw [leadComponents, leadComponents] at h
  revert h
  cases p.lead <;> cases q.lead <;> decide

theorem mem_names {p : Path} {s : String} (mem : s ∈ p.names) :
    counts s = true ∧ '/' ∉ s.toList := by
  rw [names_eq] at mem
  obtain ⟨among, counted⟩ := List.mem_filter.mp mem
  exact ⟨counted, no_slash_of_mem_segments among⟩

/-- No name is a component that the start of a path stands for. -/
theorem not_mem_names_of_lead {p q : Path} {s : String} (start : s ∈ q.leadComponents) :
    s ∉ p.names := by
  intro mem
  obtain ⟨counted, slashless⟩ := mem_names mem
  rw [leadComponents] at start
  split at start
  · obtain rfl := List.mem_singleton.mp start
    exact slashless List.mem_cons_self
  · obtain rfl := List.mem_singleton.mp start
    cases counted
  · cases start

theorem leadComponents_cases (p : Path) : p.leadComponents = [] ∨ ∃ s, p.leadComponents = [s] := by
  rw [leadComponents]
  cases p.lead with
  | name => exact .inl rfl
  | root | current => exact .inr ⟨_, rfl⟩

/-- Paths have the same components if they start in the same way and have the same names. -/
theorem same_iff {p q : Path} : p.same q = true ↔ p.lead = q.lead ∧ p.names = q.names := by
  rw [same, beq_iff_eq, components, components]
  constructor
  · intro h
    have first : p.leadComponents = q.leadComponents := by
      obtain left | ⟨s, left⟩ := p.leadComponents_cases
      · obtain right | ⟨t, right⟩ := q.leadComponents_cases
        · rw [left, right]
        · rw [left, right] at h
          have mem : t ∈ p.names := by rw [show p.names = _ from h]; exact List.mem_cons_self
          exact absurd mem
            (not_mem_names_of_lead (q := q) (by rw [right]; exact List.mem_cons_self))
      · obtain right | ⟨t, right⟩ := q.leadComponents_cases
        · rw [left, right] at h
          have mem : s ∈ q.names := by rw [show q.names = _ from h.symm]; exact List.mem_cons_self
          exact absurd mem (not_mem_names_of_lead (q := p) (by rw [left]; exact List.mem_cons_self))
        · rw [left, right] at h ⊢
          rw [(List.cons.inj h).1]
    rw [first] at h
    exact ⟨leadComponents_injective first, List.append_cancel_left h⟩
  · rintro ⟨start, names⟩
    rw [names, leadComponents, leadComponents, start]

/-- Joining adds segments to those of a path, but for an empty one at its end. -/
theorem segments_join {p q : Path} (given : p.text ≠ "") (relative : q.isAbsolute = false) :
    ∃ ss, ss ≠ [] ∧ (p.join q).segments = ss ++ q.segments ∧
      (p.segments = ss ∧ ss ≠ [""] ∨ p.segments = ss ++ [""]) := by
  rw [join, relative]
  simp only [Bool.false_eq_true, if_false, given, false_or]
  by_cases slash : p.text.toList.getLast? = some '/'
  · rw [if_pos slash]
    obtain ⟨cs, split⟩ := List.getLast?_eq_some_iff.mp slash
    have text : p.text = String.ofList cs ++ "/" := by
      rw [← String.toList_inj, split]
      simp
    refine ⟨segments ⟨String.ofList cs⟩, segments_ne_nil _, ?_, .inr ?_⟩
    · rw [text]
      exact segments_append _ _
    · have whole := segments_append (String.ofList cs) ""
      rw [String.append_empty, ← text] at whole
      exact whole
  · rw [if_neg slash]
    exact ⟨p.segments, p.segments_ne_nil, segments_append _ _,
      .inl ⟨rfl, fun only => given (segments_eq_singleton_iff.mp only)⟩⟩

theorem join_of_empty {p q : Path} (empty : p.text = "") : p.join q = q := by
  rw [join]
  split
  · rfl
  · rw [if_pos (.inl empty), empty, String.empty_append]

/-- Joining a path that starts with a name appends its names. -/
theorem lead_names_join {p q : Path} (relative : q.lead = .name) :
    (p.join q).lead = p.lead ∧ (p.join q).names = p.names ++ q.names := by
  have plain := (lead_eq_name_iff.mp relative).1
  by_cases empty : p.text = ""
  · have none := segments_eq_singleton_iff.mpr empty
    rw [join_of_empty empty, names_eq p, none, relative, eq_comm, lead_eq_name_iff, none]
    refine ⟨⟨?_, by decide⟩, rfl⟩
    rw [isAbsolute, empty]
    rfl
  · obtain ⟨ss, filled, joined, own⟩ := segments_join empty plain
    obtain ⟨s, ss, rfl⟩ := List.exists_cons_of_ne_nil filled
    have more := q.segments_ne_nil
    constructor
    · refine lead_congr ?_ ?_
      · rw [Bool.eq_iff_iff, isAbsolute_iff, isAbsolute_iff, joined]
        obtain ⟨own, several⟩ | own := own
        · rw [own]
          constructor
          · rintro ⟨_, -, same⟩
            obtain ⟨rfl, -⟩ := List.cons.inj same
            exact ⟨ss, fun none => several (none ▸ rfl), rfl⟩
          · rintro ⟨_, -, same⟩
            obtain ⟨rfl, -⟩ := List.cons.inj same
            exact ⟨_, by simp [more], rfl⟩
        · rw [own]
          constructor <;>
          · rintro ⟨_, -, same⟩
            obtain ⟨rfl, -⟩ := List.cons.inj same
            exact ⟨_, by simp [more], rfl⟩
      · rw [joined]
        obtain ⟨own, -⟩ | own := own <;> rw [own] <;> rfl
    · rw [names_eq, names_eq, names_eq, joined, List.filter_append]
      obtain ⟨own, -⟩ | own := own
      · rw [own]
      · rw [own, List.filter_append _ [""]]
        simp [counts_empty]

theorem trimEnd_eq (ss : List String) : trimEnd ss = ss.rdropWhile isVoid := rfl

theorem filter_trimEnd (ss : List String) : (trimEnd ss).filter counts = ss.filter counts := by
  have dropped : (ss.rtakeWhile isVoid).filter counts = [] :=
    List.filter_eq_nil_iff.mpr fun s mem => by simp [counts, List.mem_rtakeWhile_imp mem]
  have split : trimEnd ss ++ ss.rtakeWhile isVoid = ss := List.rdropWhile_append_rtakeWhile
  have whole := congrArg (List.filter counts) split
  rwa [List.filter_append, dropped, List.append_nil] at whole

theorem mem_of_mem_trimEnd {ss : List String} {s : String} (mem : s ∈ trimEnd ss) : s ∈ ss :=
  (List.rdropWhile_prefix isVoid ss).subset mem

theorem mem_segments_of_mem_body {p : Path} {s : String} (mem : s ∈ p.body) : s ∈ p.segments := by
  rw [body] at mem
  split at mem
  · exact mem
  · exact List.mem_of_mem_tail mem

/-- A path that starts with a name starts with a segment that counts, if it has names at all. -/
theorem counts_head {p : Path} (lead : p.lead = .name) (named : p.names ≠ []) :
    ∀ s ∈ p.segments.head?, counts s = true := by
  intro s head
  obtain ⟨rest, split⟩ := List.head?_eq_some_iff.mp head
  obtain ⟨relative, dot⟩ := lead_eq_name_iff.mp lead
  have ne_dot : s ≠ "." := fun same => dot (by rw [split, same]; rfl)
  have ne_empty : s ≠ "" := by
    rintro rfl
    cases rest with
    | nil => exact named (by rw [names_eq, split]; rfl)
    | cons t ss =>
      have absolute := isAbsolute_iff.mpr ⟨t :: ss, List.cons_ne_nil _ _, split⟩
      rw [relative] at absolute
      cases absolute
  simp [counts, isVoid, ne_dot, ne_empty]

theorem trimEnd_ne_nil_iff {ss : List String} : trimEnd ss ≠ [] ↔ ss.filter counts ≠ [] := by
  rw [not_iff_not, trimEnd_eq, List.rdropWhile_eq_nil_iff, List.filter_eq_nil_iff]
  simp [counts]

/-- A path that starts with a name starts with a segment that counts, once segments at its end are
dropped. -/
theorem counts_head_of_prefix {p : Path} (lead : p.lead = .name) {ss : List String}
    (start : ss <+: trimEnd p.body) : ∀ s ∈ ss.head?, counts s = true := by
  intro s head
  obtain ⟨others, first⟩ := List.head?_eq_some_iff.mp head
  obtain ⟨more, whole⟩ := start.trans (List.rdropWhile_prefix isVoid p.body)
  have filled : trimEnd p.body ≠ [] := by
    rintro none
    rw [none, List.prefix_nil, first] at start
    cases start
  refine counts_head lead (trimEnd_ne_nil_iff.mp filled) s ?_
  have body : p.body = p.segments := by rw [body, lead]
  rw [← body, ← whole, first]
  rfl

/-- A path that is put together starts and goes on as it was told. -/
theorem lead_names_ofParts (lead : Lead) {ss : List String} (slashless : ∀ s ∈ ss, '/' ∉ s.toList)
    (start : lead = .name → ∀ s ∈ ss.head?, counts s = true) :
    (ofParts lead ss).lead = lead ∧ (ofParts lead ss).names = ss.filter counts := by
  rw [names_eq]
  cases ss with
  | nil => cases lead <;> exact ⟨rfl, rfl⟩
  | cons s ss =>
    have given := segments_intercalate (List.cons_ne_nil s ss) slashless
    cases lead with
    | root =>
      have split : (ofParts .root (s :: ss)).segments = "" :: s :: ss := by
        have whole := segments_append "" ("/".intercalate (s :: ss))
        rw [String.empty_append, given] at whole
        exact whole
      rw [split, lead_eq_root_iff, isAbsolute_iff]
      exact ⟨⟨_, List.cons_ne_nil _ _, split⟩, List.filter_cons_of_neg (by decide)⟩
    | current =>
      have split : (ofParts .current (s :: ss)).segments = "." :: s :: ss := by
        have whole := segments_append "." ("/".intercalate (s :: ss))
        rw [given] at whole
        exact whole
      have relative : (ofParts .current (s :: ss)).isAbsolute = false := by
        rw [Bool.eq_false_iff, ne_eq, isAbsolute_iff, split]
        rintro ⟨_, -, same⟩
        exact absurd (List.cons.inj same).1 (by decide)
      rw [lead, relative, split]
      exact ⟨rfl, List.filter_cons_of_neg (by decide)⟩
    | name =>
      have split : (ofParts .name (s :: ss)).segments = s :: ss := given
      have counted := start rfl s rfl
      rw [split, lead_eq_name_iff, split]
      refine ⟨⟨?_, ?_⟩, rfl⟩
      · rw [Bool.eq_false_iff, ne_eq, isAbsolute_iff, split]
        rintro ⟨_, -, same⟩
        obtain ⟨rfl, -⟩ := List.cons.inj same
        cases counted
      · rintro ⟨⟩
        cases counted

/-- What is left of the body of a path with names ends with the last of them. -/
theorem trimEnd_body {p : Path} {names : List String} {name : String}
    (named : p.names = names ++ [name]) :
    ∃ ss, trimEnd p.body = ss ++ [name] ∧ ss.filter counts = names ∧ ∀ s ∈ ss, s ∈ p.body := by
  have whole : (trimEnd p.body).filter counts = names ++ [name] :=
    (filter_trimEnd p.body).trans named
  have filled : trimEnd p.body ≠ [] := by
    intro none
    rw [none] at whole
    exact absurd whole.symm (List.append_ne_nil_of_right_ne_nil _ (List.cons_ne_nil _ _))
  have last := List.rdropWhile_last_not isVoid p.body filled
  obtain ⟨ss, s, split⟩ := List.eq_nil_or_concat' (trimEnd p.body) |>.resolve_left filled
  have counted : counts s = true := by
    simp only [← trimEnd_eq, split, List.getLast_append_singleton] at last
    simpa [counts] using last
  rw [split, List.filter_append, List.filter_cons_of_pos counted] at whole
  obtain ⟨same, tail⟩ := List.append_inj' whole rfl
  obtain ⟨rfl, -⟩ := List.cons.inj tail
  refine ⟨ss, split, same, fun t mem => mem_of_mem_trimEnd ?_⟩
  rw [split]
  exact List.mem_append_left _ mem

/-- The parent of a path with names lacks the last of them. -/
theorem parent?_of_names {p : Path} {names : List String} {name : String}
    (named : p.names = names ++ [name]) :
    ∃ q, p.parent? = some q ∧ q.lead = p.lead ∧ q.names = names := by
  obtain ⟨ss, split, rest, inside⟩ := trimEnd_body named
  refine ⟨ofParts p.lead (trimEnd ss), ?_, ?_⟩
  · rw [parent?, split]
    cases ss with
    | nil => rfl
    | cons s ss =>
      rw [List.cons_append]
      dsimp only
      rw [← List.cons_append, List.dropLast_concat]
  · have slashless : ∀ s ∈ trimEnd ss, '/' ∉ s.toList := fun s mem =>
      no_slash_of_mem_segments (mem_segments_of_mem_body (inside s (mem_of_mem_trimEnd mem)))
    have inner : trimEnd ss <+: trimEnd p.body := by
      rw [split]
      exact (List.rdropWhile_prefix isVoid ss).trans (List.prefix_append ..)
    have start : p.lead = .name → ∀ s ∈ (trimEnd ss).head?, counts s = true :=
      fun lead => counts_head_of_prefix lead inner
    rw [← rest, ← filter_trimEnd ss]
    exact lead_names_ofParts p.lead slashless start

/-- A path with names ends with the last of them, unless it leads upwards. -/
theorem fileName?_of_names {p : Path} {names : List String} {name : String}
    (named : p.names = names ++ [name]) (ne : name ≠ "..") : p.fileName? = some name := by
  obtain ⟨ss, split, -, -⟩ := trimEnd_body named
  rw [fileName?, split, List.getLast?_concat]
  split
  · next same => exact absurd (Option.some.inj same) ne
  · rfl

theorem after?_of_names {body names more : List String}
    (split : body.filter counts = names ++ more) :
    ∃ rest, after? body names = some rest ∧ rest.filter counts = more ∧ ∀ s ∈ rest, s ∈ body := by
  induction body generalizing names with
  | nil =>
    obtain ⟨rfl, rfl⟩ := List.append_eq_nil_iff.mp split.symm
    exact ⟨[], rfl, rfl, fun _ mem => mem⟩
  | cons segment body ih =>
    cases names with
    | nil => exact ⟨segment :: body, rfl, split, fun _ mem => mem⟩
    | cons name names =>
      by_cases void : isVoid segment = true
      · rw [List.filter_cons_of_neg (by simp [counts, void])] at split
        obtain ⟨rest, read, kept, inside⟩ := ih split
        refine ⟨rest, ?_, kept, fun s mem => List.mem_cons_of_mem _ (inside s mem)⟩
        rw [after?, if_pos void, read]
      · rw [List.filter_cons_of_pos (by simp [counts, void])] at split
        obtain ⟨rfl, others⟩ := List.cons.inj split
        obtain ⟨rest, read, kept, inside⟩ := ih others
        refine ⟨rest, ?_, kept, fun s mem => List.mem_cons_of_mem _ (inside s mem)⟩
        rw [after?, if_neg void, if_pos rfl, read]

theorem filter_dropWhile (ss : List String) :
    (ss.dropWhile isVoid).filter counts = ss.filter counts := by
  induction ss with
  | nil => rfl
  | cons s ss ih =>
    by_cases void : isVoid s = true
    · rw [List.dropWhile_cons_of_pos void, ih, List.filter_cons_of_neg (by simp [counts, void])]
    · rw [List.dropWhile_cons_of_neg void]

/-- Below a folder a path starts with a name, and lacks the names of the folder. -/
theorem below?_of_names {p folder : Path} {names : List String} (start : p.lead = folder.lead)
    (named : p.names = folder.names ++ names) :
    ∃ q, p.below? folder = some q ∧ q.lead = .name ∧ q.names = names := by
  have slashless : ∀ s ∈ p.body, '/' ∉ s.toList := fun s mem =>
    no_slash_of_mem_segments (mem_segments_of_mem_body mem)
  rw [below?]
  split
  · next lead none =>
    have relative : p.lead = .name := start.trans (leadComponents_eq_nil_iff.mp lead)
    rw [none, List.nil_append] at named
    have parts := lead_names_ofParts .name
      (fun s mem => slashless s (mem_of_mem_trimEnd mem))
      fun _ => counts_head_of_prefix relative (List.prefix_refl _)
    rw [relative]
    exact ⟨_, rfl, parts.1, parts.2.trans ((filter_trimEnd p.body).trans named)⟩
  · have components : folder.leadComponents = p.leadComponents := by
      rw [leadComponents, leadComponents, start]
    have split : p.body.filter counts = folder.names ++ names := named
    obtain ⟨rest, read, kept, inside⟩ := after?_of_names split
    have within : ∀ s ∈ trimEnd (rest.dropWhile isVoid), s ∈ rest := fun s mem =>
      (List.dropWhile_sublist isVoid).subset (mem_of_mem_trimEnd mem)
    have first : ∀ s ∈ (trimEnd (rest.dropWhile isVoid)).head?, counts s = true := by
      intro s head
      obtain ⟨others, first⟩ := List.head?_eq_some_iff.mp head
      obtain ⟨more, whole⟩ := List.rdropWhile_prefix isVoid (rest.dropWhile isVoid)
      have here : (rest.dropWhile isVoid).head? = some s := by
        rw [← whole, ← trimEnd_eq, first]
        rfl
      have stops := List.head?_dropWhile_not isVoid rest
      rw [here] at stops
      simpa [counts] using stops
    have parts := lead_names_ofParts .name
      (fun s mem => slashless s (inside s (within s mem))) fun _ => first
    rw [if_pos components, read]
    exact ⟨_, rfl, parts.1, parts.2.trans
      ((filter_trimEnd _).trans ((filter_dropWhile rest).trans kept))⟩

theorem IsName.lead_names {s : String} (h : IsName s) :
    lead ⟨s⟩ = .name ∧ names ⟨s⟩ = [s] := by
  rw [lead_eq_name_iff, names_eq, segments_of_no_slash h.no_slash]
  refine ⟨⟨isAbsolute_of_no_slash h.no_slash, ?_⟩, List.filter_cons_of_pos h.counts⟩
  exact fun same => h.ne_dot (Option.some.inj same)

theorem lead_names_join_name (p : Path) {s : String} (h : IsName s) :
    (p.join ⟨s⟩).lead = p.lead ∧ (p.join ⟨s⟩).names = p.names ++ [s] := by
  obtain ⟨relative, names⟩ := h.lead_names
  rw [← names]
  exact lead_names_join relative

theorem text_join_ne_empty {p : Path} {s : String} (h : IsName s) (given : p.text ≠ "") :
    (p.join ⟨s⟩).text ≠ "" := by
  intro empty
  obtain ⟨ss, -, whole, -⟩ := segments_join given (isAbsolute_of_no_slash h.no_slash)
  rw [segments_eq_singleton_iff.mpr empty, segments_of_no_slash h.no_slash] at whole
  have last := (List.append_inj' (show [] ++ [""] = ss ++ [s] from whole) rfl).2
  exact h.ne_empty (List.cons.inj last).1.symm

/-- The path that goes on from a path by names, one after the other. -/
def descend (p : Path) (names : List String) : Path :=
  names.foldl (fun q name => q.join ⟨name⟩) p

theorem descend_concat (p : Path) (names : List String) (name : String) :
    p.descend (names ++ [name]) = (p.descend names).join ⟨name⟩ := by
  rw [descend, List.foldl_append]
  rfl

theorem lead_names_descend (p : Path) {names : List String} (each : ∀ s ∈ names, IsName s) :
    (p.descend names).lead = p.lead ∧ (p.descend names).names = p.names ++ names := by
  induction names generalizing p with
  | nil => exact ⟨rfl, (List.append_nil _).symm⟩
  | cons s names ih =>
    obtain ⟨first, rest⟩ := List.forall_mem_cons.mp each
    obtain ⟨lead, own⟩ := lead_names_join_name p first
    obtain ⟨lead', all⟩ := ih (p.join ⟨s⟩) rest
    refine ⟨lead'.trans lead, all.trans ?_⟩
    rw [own, List.append_assoc]
    rfl

/-- A name is cut at its last dot, unless that is its first character. -/
theorem cut_of_reverse {name : String} {suffix before : List Char}
    (whole : name.toList.reverse = suffix ++ '.' :: before) (dotless : '.' ∉ suffix) :
    cut name = if before = [] then (name, none)
      else (String.ofList before.reverse, some (String.ofList suffix.reverse)) := by
  have taken : (suffix ++ '.' :: before).takeWhile (· ≠ '.') = suffix := by
    rw [List.takeWhile_append_of_pos, List.takeWhile_cons_of_neg (by simp), List.append_nil]
    intro c mem
    have ne : c ≠ '.' := fun same => dotless (same ▸ mem)
    simpa using ne
  rw [cut, whole, taken, List.drop_left]
  cases before <;> rfl

theorem cut_append {stem ext : String} (filled : stem ≠ "") (dotless : '.' ∉ ext.toList) :
    cut (stem ++ "." ++ ext) = (stem, some ext) := by
  have whole : (stem ++ "." ++ ext).toList.reverse =
      ext.toList.reverse ++ '.' :: stem.toList.reverse := by simp
  rw [cut_of_reverse whole (by simpa using dotless), if_neg (by simpa using filled),
    List.reverse_reverse, List.reverse_reverse, String.ofList_toList, String.ofList_toList]

/-- A name without an extension is its own stem. -/
theorem cut_cases (name : String) :
    cut name = (name, none) ∨
      ∃ stem ext : String, stem ≠ "" ∧ '.' ∉ ext.toList ∧ name = stem ++ "." ++ ext := by
  by_cases dot : '.' ∈ name.toList.reverse
  · obtain ⟨suffix, before, whole, dotless⟩ := List.eq_append_cons_of_mem dot
    by_cases bare : before = []
    · rw [cut_of_reverse whole dotless, if_pos bare]
      exact .inl rfl
    · refine .inr ⟨.ofList before.reverse, .ofList suffix.reverse, ?_, ?_, ?_⟩
      · rw [ne_eq, ← String.toList_inj]
        simpa using bare
      · simpa using dotless
      · rw [← String.toList_inj, ← List.reverse_inj, whole]
        simp
  · have taken : name.toList.reverse.takeWhile (· ≠ '.') = name.toList.reverse := by
      rw [List.takeWhile_eq_self_iff]
      intro c mem
      have ne : c ≠ '.' := fun same => dot (same ▸ mem)
      simpa using ne
    rw [cut, taken, List.drop_length]
    exact .inl rfl

end Path

end ArenaVariations
