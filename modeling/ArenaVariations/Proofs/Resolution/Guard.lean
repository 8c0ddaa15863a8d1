import ArenaVariations.Proofs.Resolution.Chain
import ArenaVariations.Proofs.Resolution.Evaluation

/-!
# What the guard against circles reports

`Conditional.decide` refuses to decide a conditional that is being decided already. This changes
nothing else: a circle is reported exactly if the rules come to a conditional that is in progress
(`Node.Revisits`), and where they do not, the value, the label or the error is the one that the
rules give.

The proof compares the two at each set of idle conditionals. Whatever is decided there is what the
rules give, or a circle was met (`circular_or_evaluates`), and `Meets` follows the rules to the
place where the guard steps in. Conditionals that are not idle are those in progress, for no walk
in a tree leads beyond `Node.serials`.
-/

namespace ArenaVariations

namespace Conditional

/-- The report that a conditional depends on its own value, under the label `CircularCondition`. -/
def circle (c : Conditional Node) : Error :=
  c.failure (.circular c.condition.display)

/-- A result that reports some conditional as dependent on its own value. -/
def Circular {α : Type} (r : Except Error α) : Prop :=
  ∃ d : Conditional Node, r = .error d.circle

end Conditional

namespace Conditional

theorem not_circular_ok {α : Type} {a : α} : ¬ Circular (.ok a) :=
  fun ⟨_, same⟩ => nomatch same

/-- A circle is reported by the first part of a computation or by what follows it. -/
theorem circular_bind_iff {α β : Type} {x : Except Error α} {f : α → Except Error β} :
    Circular (x >>= f) ↔ Circular x ∨ ∃ a, x = .ok a ∧ Circular (f a) := by
  cases x with
  | error e =>
    constructor
    · rintro ⟨d, same⟩
      exact .inl ⟨d, congrArg _ (Except.error.inj same)⟩
    · rintro (⟨d, same⟩ | ⟨a, same, -⟩)
      · exact ⟨d, congrArg _ (Except.error.inj same)⟩
      · cases same
  | ok a =>
    constructor
    · exact fun circular => .inr ⟨a, rfl, circular⟩
    · rintro (circular | ⟨_, ⟨⟩, circular⟩)
      · exact absurd circular not_circular_ok
      · exact circular

theorem Circular.bind {α β : Type} {x : Except Error α} (circular : Circular x)
    (f : α → Except Error β) : Circular (x >>= f) :=
  circular_bind_iff.mpr (.inl circular)

theorem circular_map_iff {α β : Type} {x : Except Error α} {f : α → β} :
    Circular (f <$> x) ↔ Circular x := by
  rw [← bind_pure_comp, circular_bind_iff]
  exact or_iff_left fun ⟨_, _, circular⟩ => not_circular_ok circular

/-- A circle is not what choosing between the cases reports. -/
theorem not_circular_outcome (c : Conditional Node) (r : Resolution) :
    ¬ Circular (c.outcome r) := by
  rintro ⟨d, same⟩
  unfold Conditional.outcome at same
  split at same
  case h_1 => cases same
  case h_2 =>
    split at same
    case h_1 => cases same
    case h_2 => split at same <;> cases same

end Conditional

open Conditional (Circular)

namespace Node

section Force

variable {root : Node} {force : Conditional Node → Except Error Node}

/-- Whatever is forced is what the rules give, or a circle is reported. -/
def Sound (root : Node) (force : Conditional Node → Except Error Node) : Prop :=
  ∀ d, Circular (force d) ∨ ∃ r, Evaluates root d r ∧ force d = Prod.fst <$> r

theorem Sound.evaluates (sound : root.Sound force) {d : Conditional Node} {value : Node}
    (forced : force d = .ok value) : ∃ label, Evaluates root d (.ok (value, label)) := by
  obtain circular | ⟨r, evaluates, same⟩ := sound d
  · exact absurd (forced ▸ circular) Conditional.not_circular_ok
  · rw [forced] at same
    cases r with
    | error e => cases same
    | ok decision =>
      cases same
      exact ⟨decision.2, evaluates⟩

theorem circular_or_walks (sound : root.Sound force) (n : Node) (segments : List String) :
    Circular (n.walk? force segments) ∨ Walks root n segments (n.walk? force segments) := by
  induction segments generalizing n with
  | nil => exact .inr .here
  | cons segment rest ih =>
    rw [walk?]
    split
    case h_1 step => exact .inr (.nowhere step)
    case h_2 source step =>
      obtain circular | ⟨r, evaluates, forced⟩ := sound source
      · exact .inl (circular.bind _)
      · rw [forced]
        cases r with
        | error e => exact .inr (.stuck step evaluates)
        | ok decision => exact (ih decision.1).imp_right (.through step evaluates)
    case h_3 next other step =>
      exact (ih next).imp_right (.along step fun source same => other source (same ▸ rfl))

theorem circular_or_looksUp (sound : root.Sound force) (reference : String) :
    Circular (root.resolveReference force reference) ∨
      LooksUp root reference (root.resolveReference force reference) := by
  rw [resolveReference_eq]
  cases found : root.origin? reference with
  | none => exact .inr (.unknown found)
  | some start =>
    obtain circular | walks :=
      circular_or_walks sound start (Reference.segments reference).tail
    · exact .inl (circular.bind _)
    · right
      dsimp only
      cases walked : start.walk? force (Reference.segments reference).tail with
      | error e => exact .failed found (walked ▸ walks)
      | ok value =>
        cases value with
        | none => exact .nowhere found (walked ▸ walks)
        | some value => exact .value found (walked ▸ walks)

theorem circular_or_looksUpAll (sound : root.Sound force) (references : List String) :
    Circular (references.mapM (root.resolveReference force)) ∨
      LooksUpAll root references (references.mapM (root.resolveReference force)) := by
  induction references with
  | nil => exact .inr .nil
  | cons reference rest ih =>
    rw [List.mapM_cons]
    obtain circular | first := circular_or_looksUp sound reference
    · exact .inl (circular.bind _)
    · cases found : root.resolveReference force reference with
      | error e => exact .inr (.failed (found ▸ first))
      | ok value =>
        rw [found] at first
        cases others : rest.mapM (root.resolveReference force) with
        | error e =>
          rw [others] at ih
          exact ih.imp id (.later first)
        | ok values =>
          rw [others] at ih
          exact ih.imp (fun circular => absurd circular Conditional.not_circular_ok) (.cons first)

/-- A walk ends with a circle exactly if it comes to a conditional with a circle reported for it. -/
theorem circular_walk?_iff (sound : root.Sound force) {n : Node} {segments : List String} :
    Circular (n.walk? force segments) ↔
      ∃ d, WalkForces root n segments d ∧ Circular (force d) := by
  constructor
  · intro circular
    induction segments generalizing n with
    | nil => exact absurd circular Conditional.not_circular_ok
    | cons segment rest ih =>
      rw [walk?] at circular
      split at circular
      case h_1 => exact absurd circular Conditional.not_circular_ok
      case h_2 source step =>
        obtain here | ⟨value, forced, circular⟩ := Conditional.circular_bind_iff.mp circular
        · exact ⟨source, .here step, here⟩
        · obtain ⟨label, evaluates⟩ := sound.evaluates forced
          obtain ⟨d, forces, circular⟩ := ih circular
          exact ⟨d, .through step evaluates forces, circular⟩
      case h_3 next other step =>
        obtain ⟨d, forces, circular⟩ := ih circular
        exact ⟨d, .along step (fun source same => other source (same ▸ rfl)) forces, circular⟩
  · rintro ⟨d, forces, circular⟩
    induction forces with
    | here step =>
      rw [walk?, step]
      exact circular.bind _
    | along step other _ ih =>
      rw [walk?_cons step other]
      exact ih circular
    | through step decided _ ih =>
      rw [walk?, step]
      obtain here | ⟨r, evaluates, forced⟩ := sound _
      · exact here.bind _
      · obtain rfl := decided.unique evaluates
        dsimp only
        rw [forced]
        exact ih circular

/-- Looking a reference up ends with a circle exactly if its walk does. -/
theorem circular_resolveReference_iff (sound : root.Sound force) {reference : String} :
    Circular (root.resolveReference force reference) ↔
      ∃ start d, root.origin? reference = some start ∧
        WalkForces root start (Reference.segments reference).tail d ∧ Circular (force d) := by
  rw [resolveReference_eq]
  cases found : root.origin? reference with
  | none =>
    constructor
    · rintro ⟨d, same⟩
      cases same
    · rintro ⟨start, d, same, -⟩
      cases same
  | some start =>
    dsimp only
    rw [Conditional.circular_bind_iff, circular_walk?_iff sound]
    constructor
    · rintro (⟨d, forces, circular⟩ | ⟨value, -, d, same⟩)
      · exact ⟨start, d, rfl, forces, circular⟩
      · cases value <;> cases same
    · rintro ⟨_, d, ⟨⟩, forces, circular⟩
      exact .inl ⟨d, forces, circular⟩

/-- Looking references up ends with a circle exactly if the rules come, on the way through them, to
a conditional for which a circle is reported. -/
theorem circular_mapM_iff (sound : root.Sound force) {references : List String} :
    Circular (references.mapM (root.resolveReference force)) ↔
      ∃ before reference after values start d, references = before ++ reference :: after ∧
        LooksUpAll root before (.ok values) ∧ root.origin? reference = some start ∧
        WalkForces root start (Reference.segments reference).tail d ∧ Circular (force d) := by
  induction references with
  | nil =>
    constructor
    · exact fun circular => absurd circular Conditional.not_circular_ok
    · rintro ⟨before, reference, after, values, start, d, same, -⟩
      exact absurd same.symm (List.append_ne_nil_of_right_ne_nil _ (List.cons_ne_nil _ _))
  | cons reference rest ih =>
    rw [List.mapM_cons, Conditional.circular_bind_iff]
    constructor
    · rintro (here | ⟨value, found, circular⟩)
      · obtain ⟨start, d, found, forces, circular⟩ := (circular_resolveReference_iff sound).mp here
        exact ⟨[], reference, rest, [], start, d, rfl, .nil, found, forces, circular⟩
      · have first := circular_or_looksUp sound reference
        rw [found] at first
        obtain later | ⟨_, _, circular⟩ := Conditional.circular_bind_iff.mp circular
        · obtain ⟨before, next, after, values, start, d, rfl, looked, there⟩ := ih.mp later
          exact ⟨reference :: before, next, after, value :: values, start, d, rfl,
            .cons (first.resolve_left Conditional.not_circular_ok) looked, there⟩
        · exact absurd circular Conditional.not_circular_ok
    · rintro ⟨before, next, after, values, start, d, same, looked, found, forces, circular⟩
      cases before with
      | nil =>
        obtain ⟨rfl, rfl⟩ := List.cons.inj same
        exact .inl ((circular_resolveReference_iff sound).mpr ⟨start, d, found, forces, circular⟩)
      | cons _ before =>
        obtain ⟨rfl, rfl⟩ := List.cons.inj same
        refine (circular_or_looksUp sound reference).imp_right fun first => ?_
        cases looked with
        | @cons _ _ value _ first' others =>
          refine ⟨value, first.unique first', ?_⟩
          exact (ih.mpr ⟨before, next, after, _, start, d, rfl, others, found, forces,
            circular⟩).bind _

end Force

end Node

namespace Conditional

open Node

section Decide

variable {root : Node} {idle : List Nat} {c d : Conditional Node}

/-- Whatever the guard lets through is what the rules give. -/
theorem circular_or_evaluates (root : Node) (idle : List Nat) (c : Conditional Node) :
    Circular (decideWith root idle c) ∨ root.Evaluates c (decideWith root idle c) := by
  induction n : idle.length using Nat.strongRecOn generalizing idle c with
  | _ n ih =>
    subst n
    by_cases isIdle : c.serial ∈ idle
    · rw [decideWith_of_mem isIdle]
      have sound : root.Sound (valueWith root (otherThan c.serial idle)) := fun d =>
        (ih _ (length_otherThan isIdle) _ d rfl).imp circular_map_iff.mpr fun evaluates =>
          ⟨_, evaluates, rfl⟩
      rw [Condition.resolveWith]
      obtain circular | found := circular_or_looksUpAll sound c.condition.references
      · exact .inl ((circular.bind _).bind _)
      · right
        cases values : c.condition.references.mapM
            (root.resolveReference (valueWith root (otherThan c.serial idle))) with
        | error e => exact .failed (values ▸ found)
        | ok values' => exact .resolved (values ▸ found) rfl
    · rw [decideWith_of_not_mem isIdle]
      exact .inl ⟨c, rfl⟩

theorem sound_valueWith (root : Node) (idle : List Nat) : root.Sound (valueWith root idle) :=
  fun d => (circular_or_evaluates root idle d).imp circular_map_iff.mpr fun evaluates =>
    ⟨_, evaluates, rfl⟩

/-- A conditional that is idle ends with a circle exactly if it comes to another one that does while
the first is not idle. -/
theorem circular_decideWith_of_mem (isIdle : c.serial ∈ idle) :
    Circular (decideWith root idle c) ↔
      ∃ d, root.Forces c d ∧ Circular (decideWith root (otherThan c.serial idle) d) := by
  have sound := sound_valueWith root (otherThan c.serial idle)
  rw [decideWith_of_mem isIdle, circular_bind_iff, Condition.resolveWith, circular_bind_iff,
    circular_mapM_iff sound]
  constructor
  · rintro ((⟨before, reference, after, values, start, d, split, looked, found, walk, circular⟩ |
      ⟨_, _, circular⟩) | ⟨resolution, -, circular⟩)
    · exact ⟨d, ⟨before, reference, after, values, start, split, looked, found, walk⟩,
        circular_map_iff.mp circular⟩
    · exact absurd circular not_circular_ok
    · exact absurd circular (c.not_circular_outcome resolution)
  · rintro ⟨d, ⟨before, reference, after, values, start, split, looked, found, walk⟩, circular⟩
    exact .inl (.inl ⟨before, reference, after, values, start, d, split, looked, found, walk,
      circular_map_iff.mpr circular⟩)

/-- By the rules, deciding a conditional comes to one that is not idle. Those on the way there are
idle when they are started, and not any more after that. -/
inductive Meets (root : Node) : List Nat → Conditional Node → Prop
  | here {idle : List Nat} {c : Conditional Node} (busy : c.serial ∉ idle) : Meets root idle c
  | deeper {idle : List Nat} {c d : Conditional Node} (isIdle : c.serial ∈ idle)
      (forces : root.Forces c d) (meets : Meets root (otherThan c.serial idle) d) :
      Meets root idle c

theorem circular_decideWith_iff : Circular (decideWith root idle c) ↔ Meets root idle c := by
  constructor
  · intro circular
    induction n : idle.length using Nat.strongRecOn generalizing idle c with
    | _ n ih =>
      subst n
      by_cases isIdle : c.serial ∈ idle
      · obtain ⟨d, forces, circular⟩ := (circular_decideWith_of_mem isIdle).mp circular
        exact .deeper isIdle forces (ih _ (length_otherThan isIdle) circular rfl)
      · exact .here isIdle
  · intro meets
    induction meets with
    | here busy =>
      rw [decideWith_of_not_mem busy]
      exact ⟨_, rfl⟩
    | deeper isIdle forces _ ih => exact (circular_decideWith_of_mem isIdle).mpr ⟨_, forces, ih⟩

end Decide

end Conditional

namespace Node

section Serials

variable {root : Node} {c d : Conditional Node}

theorem Evaluates.mem_candidates {value : Node} {label : Option String}
    (decided : Evaluates root c (.ok (value, label))) : value ∈ c.candidates := by
  cases decided with
  | resolved _ outcome => exact Conditional.mem_candidates_of_outcome outcome

theorem WalkForces.serial_mem {n : Node} {segments : List String}
    (forces : WalkForces root n segments d) (within : n.serials ⊆ root.serials) :
    d.serial ∈ root.serials := by
  induction forces with
  | here step =>
    apply within
    apply serials_subset_of_step? step
    rw [serials_placeholder]
    exact List.mem_cons_self
  | along step _ _ ih => exact ih (List.Subset.trans (serials_subset_of_step? step) within)
  | through step decided _ ih =>
    apply ih
    have mem := decided.mem_candidates
    exact List.Subset.trans (Conditional.serials_subset mem)
      (List.Subset.trans (serials_subset_of_step? step) within)

/-- A conditional that another one comes to can be come to from the root. -/
theorem Forces.serial_mem (forces : root.Forces c d) : d.serial ∈ root.serials := by
  obtain ⟨before, reference, after, values, start, -, -, found, walk⟩ := forces
  exact walk.serial_mem (findRecord?_eq_some found).2.serials_subset

end Serials

end Node

namespace Conditional

open Node

section Exact

variable {root : Node} {c d : Conditional Node} {outer : List (Conditional Node)}

/-- Of some serial numbers, those that no conditional in progress has. -/
def notIn (outer : List (Conditional Node)) (serials : List Nat) : List Nat :=
  serials.filter (· ∉ outer.map serial)

theorem otherThan_notIn (serials : List Nat) :
    otherThan d.serial (notIn outer serials) = notIn (d :: outer) serials := by
  simp [otherThan, notIn, List.filter_filter]

/-- All that is in progress is the conditional that it started with, or can be come to from the
root. -/
theorem serial_mem_of_inProgress (inside : root.InProgress c (d :: outer)) :
    d.serial ∈ c.serial :: root.serials := by
  cases inside with
  | start => exact List.mem_cons_self
  | deeper _ forces => exact List.mem_cons_of_mem _ forces.serial_mem

theorem exists_revisits (inside : root.InProgress c (d :: outer))
    (meets : Meets root (notIn outer (c.serial :: root.serials)) d) :
    ∃ e, root.Revisits c e := by
  generalize idle : notIn outer (c.serial :: root.serials) = others at meets
  induction meets generalizing outer with
  | @here _ d busy =>
    subst idle
    have started : d.serial ∈ outer.map serial := by
      have mem := serial_mem_of_inProgress inside
      by_contra fresh
      exact busy (List.mem_filter.mpr ⟨mem, decide_eq_true fresh⟩)
    cases inside with
    | start => cases started
    | deeper inside forces => exact ⟨d, _, _, inside, forces, started⟩
  | deeper _ forces _ ih =>
    subst idle
    exact ih (inside.deeper forces) (otherThan_notIn _).symm

theorem meets_of_inProgress {stack : List (Conditional Node)} (inside : root.InProgress c stack)
    (split : stack = d :: outer) (meets : Meets root (notIn outer (c.serial :: root.serials)) d) :
    Meets root (c.serial :: root.serials) c := by
  induction inside generalizing d outer with
  | start =>
    obtain ⟨rfl, rfl⟩ := List.cons.inj split
    have all : notIn [] (c.serial :: root.serials) = c.serial :: root.serials :=
      List.filter_eq_self.mpr fun _ _ => rfl
    exact all ▸ meets
  | @deeper before _ others inside forces ih =>
    obtain ⟨rfl, rfl⟩ := List.cons.inj split
    apply ih rfl
    by_cases isIdle : before.serial ∈ notIn others (c.serial :: root.serials)
    · exact .deeper isIdle forces ((otherThan_notIn _).symm ▸ meets)
    · exact .here isIdle

theorem meets_iff_revisits :
    Meets root (c.serial :: root.serials) c ↔ ∃ e, root.Revisits c e := by
  constructor
  · intro meets
    apply exists_revisits .start
    have all : notIn [] (c.serial :: root.serials) = c.serial :: root.serials :=
      List.filter_eq_self.mpr fun _ _ => rfl
    exact all.symm ▸ meets
  · rintro ⟨e, d, outer, inside, forces, started⟩
    apply meets_of_inProgress (inside.deeper forces) rfl
    apply Meets.here
    intro fresh
    exact of_decide_eq_true (List.mem_filter.mp fresh).2 started

/-- The guard against circles is exact. In every tree and for every conditional, deciding reports a
circle if and only if the rules come to a conditional that is being decided already; otherwise the
rules give the conditional one result, which is what deciding answers. -/
theorem decide_exact (root : Node) (c : Conditional Node) :
    (Circular (c.decide root) ↔ ∃ d, root.Revisits c d) ∧
      ((¬ ∃ d, root.Revisits c d) → ∀ r, root.Evaluates c r ↔ r = c.decide root) := by
  have exact : Circular (c.decide root) ↔ ∃ d, root.Revisits c d :=
    circular_decideWith_iff.trans meets_iff_revisits
  refine ⟨exact, fun never r => ?_⟩
  have evaluates := (circular_or_evaluates root _ c).resolve_left (mt exact.mp never)
  constructor
  · exact fun evaluates' => evaluates'.unique evaluates
  · rintro rfl
    exact evaluates

end Exact

/-- A conditional with the value one, if what its references lead to is one everywhere. -/
def allOne (serial : Nat) (references : List String) : Conditional Node :=
  ⟨serial, ⟨references, true, [sequence (references.map fun _ => int 1)]⟩, [int 1], none,
    some ["all"], none⟩

/-- What two conditionals need both is decided twice, and reported neither time. -/
example : ((allOne 0 ["a.x", "b.x"]).decide (sequence [
    record .item (some "a") [("x", placeholder (allOne 1 ["c.x"]))],
    record .item (some "b") [("x", placeholder (allOne 2 ["c.x"]))],
    record .item (some "c") [("x", placeholder (allOne 3 ["d.x"]))],
    record .item (some "d") [("x", int 1)]])).toOption.map Prod.snd = some (some "all") := by
  decide +kernel

end Conditional

end ArenaVariations
