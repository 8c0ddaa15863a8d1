import ArenaVariations.Node.Checked
import Mathlib.Data.List.Forall2

/-!
# What the checks of tags accept

Each tag is built by a function that checks its parts. The statements here say exactly what a
check accepts, so that nothing after them opens the checks again. A computation that may fail is
taken apart by `bind_eq_ok`, a loop of checks by `forM_eq_ok`.
-/

namespace ArenaVariations

section Except

variable {ε α β : Type}

theorem bind_eq_ok {x : Except ε α} {f : α → Except ε β} {b : β} :
    x >>= f = .ok b ↔ ∃ a, x = .ok a ∧ f a = .ok b := by
  cases x with
  | error e => simp [bind, Except.bind]
  | ok a => simp [bind, Except.bind]

theorem pure_eq_ok {a b : α} : (pure a : Except ε α) = .ok b ↔ a = b := by
  simp [pure, Except.pure]

theorem map_eq_ok {x : Except ε α} {f : α → β} {b : β} :
    x.map f = .ok b ↔ ∃ a, x = .ok a ∧ f a = b := by
  cases x with
  | error e => simp [Except.map]
  | ok a => simp [Except.map]

theorem mapError_eq_ok {ε' : Type} {x : Except ε α} {f : ε → ε'} {a : α} :
    x.mapError f = .ok a ↔ x = .ok a := by
  cases x <;> simp [Except.mapError]

/-- What follows a computation matters for its results only. -/
theorem bind_congr_ok {x : Except ε α} {f g : α → Except ε β}
    (same : ∀ a, x = .ok a → f a = g a) : x >>= f = x >>= g := by
  cases x with
  | error e => rfl
  | ok a => exact same a rfl

/-- A loop succeeds exactly if each of its rounds does. -/
theorem forM_eq_ok {f : α → Except ε Unit} {xs : List α} {u : Unit} :
    xs.forM f = .ok u ↔ ∀ x ∈ xs, f x = .ok () := by
  simp only [List.forM_eq_forM]
  induction xs with
  | nil => simp [pure_eq_ok]
  | cons x xs ih =>
    simp only [List.forM_cons, bind_eq_ok, ih, List.forall_mem_cons]
    constructor
    · rintro ⟨⟨⟩, first, rest⟩
      exact ⟨first, rest⟩
    · rintro ⟨first, rest⟩
      exact ⟨(), first, rest⟩

theorem mapM_congr {f g : α → Except ε β} {xs : List α} (same : ∀ x ∈ xs, f x = g x) :
    xs.mapM f = xs.mapM g := by
  induction xs with
  | nil => rfl
  | cons x xs ih =>
    simp only [List.mapM_cons, same x List.mem_cons_self,
      ih fun y mem => same y (List.mem_cons_of_mem x mem)]

/-- If a list is mapped, so is each of its elements. -/
theorem exists_of_mapM_eq_ok {f : α → Except ε β} {xs : List α} {ys : List β}
    (mapped : xs.mapM f = .ok ys) : ∀ x ∈ xs, ∃ y, f x = .ok y := by
  induction xs generalizing ys with
  | nil => exact fun x mem => absurd mem List.not_mem_nil
  | cons x xs ih =>
    simp only [List.mapM_cons, bind_eq_ok] at mapped
    obtain ⟨y, first, ys, rest, -⟩ := mapped
    exact List.forall_mem_cons.mpr ⟨⟨y, first⟩, ih rest⟩

/-- What the second of two related lists holds is related to something in the first one. -/
theorem exists_mem_of_forall₂ {related : α → β → Prop} {xs : List α} {ys : List β}
    (h : List.Forall₂ related xs ys) : ∀ y ∈ ys, ∃ x ∈ xs, related x y := by
  induction h with
  | nil => exact fun y mem => absurd mem List.not_mem_nil
  | @cons x y xs ys first _ ih =>
    refine List.forall_mem_cons.mpr ⟨⟨x, List.mem_cons_self, first⟩, fun z mem => ?_⟩
    obtain ⟨w, among, rel⟩ := ih z mem
    exact ⟨w, List.mem_cons_of_mem x among, rel⟩

/-- What holds of any two elements of a list holds of what these are related to. -/
theorem pairwise_of_forall₂ {related : α → β → Prop} {P : α → α → Prop} {Q : β → β → Prop}
    {xs : List α} {ys : List β} (h : List.Forall₂ related xs ys) (pairs : xs.Pairwise P)
    (each : ∀ x y z w, related x y → related z w → P x z → Q y w) : ys.Pairwise Q := by
  induction h with
  | nil => exact .nil
  | @cons x y xs ys first rest ih =>
    obtain ⟨here, others⟩ := List.pairwise_cons.mp pairs
    refine List.pairwise_cons.mpr ⟨fun w mem => ?_, ih others⟩
    obtain ⟨z, among, rel⟩ := exists_mem_of_forall₂ rest w mem
    exact each x y z w first rel (here z among)

/-- A list is mapped element by element. -/
theorem mapM_eq_ok {f : α → Except ε β} {xs : List α} {ys : List β} :
    xs.mapM f = .ok ys ↔ List.Forall₂ (fun x y => f x = .ok y) xs ys := by
  induction xs generalizing ys with
  | nil => rw [List.mapM_nil, pure_eq_ok, List.forall₂_nil_left_iff, eq_comm]
  | cons x xs ih =>
    simp only [List.mapM_cons, bind_eq_ok, pure_eq_ok, List.forall₂_cons_left_iff, ih]
    constructor
    · rintro ⟨y, first, ys, rest, rfl⟩
      exact ⟨y, ys, first, rest, rfl⟩
    · rintro ⟨y, ys, first, rest, rfl⟩
      exact ⟨y, first, ys, rest, rfl⟩

/-- What a mapped list holds comes from its source. -/
theorem exists_mem_of_mapM_eq_ok {f : α → Except ε β} {xs : List α} {ys : List β}
    (mapped : xs.mapM f = .ok ys) : ∀ y ∈ ys, ∃ x ∈ xs, f x = .ok y :=
  exists_mem_of_forall₂ (mapM_eq_ok.mp mapped)

/-- Computations that all succeed have results. -/
theorem exists_results [Inhabited β] {f : α → Except ε β} {xs : List α}
    (ok : ∀ x ∈ xs, ∃ y, f x = .ok y) : ∃ g : α → β, ∀ x ∈ xs, f x = .ok (g x) := by
  refine ⟨fun x => (f x).toOption.getD default, fun x mem => ?_⟩
  obtain ⟨y, ok⟩ := ok x mem
  simp only [ok, Except.toOption, Option.getD_some]

/-- A loop goes to its end unless one of its rounds is the first to fail. -/
theorem forall_ok_or_exists_first_error (f : α → Except ε β) (xs : List α) :
    (∀ x ∈ xs, ∃ y, f x = .ok y) ∨
      ∃ before x after e, xs = before ++ x :: after ∧ (∀ x ∈ before, ∃ y, f x = .ok y) ∧
        f x = .error e := by
  induction xs with
  | nil => exact .inl fun x mem => absurd mem List.not_mem_nil
  | cons x xs ih =>
    cases first : f x with
    | error e => exact .inr ⟨[], x, xs, e, rfl, fun x mem => absurd mem List.not_mem_nil, first⟩
    | ok y =>
      obtain rest | ⟨before, z, after, e, rfl, rest, failed⟩ := ih
      · exact .inl (List.forall_mem_cons.mpr ⟨⟨y, first⟩, rest⟩)
      · exact .inr ⟨x :: before, z, after, e, rfl,
          List.forall_mem_cons.mpr ⟨⟨y, first⟩, rest⟩, failed⟩

end Except

theorem Fault.unless_eq_ok {ok : Bool} {fault : Fault} {u : Unit} :
    Fault.unless ok fault = .ok u ↔ ok = true := by
  cases ok <;> simp [Fault.unless]

/-- The bounds of a range are numbers in ascending order. -/
theorem Interval.ofBounds_eq_ok {min max : Scalar} {range : Interval} :
    Interval.ofBounds min max = .ok range ↔ ∃ lo hi, min.number? = some lo ∧
      max.number? = some hi ∧ ¬ hi < lo ∧ ⟨min, max⟩ = range := by
  unfold Interval.ofBounds
  cases min.number? <;> cases max.number? <;> simp
  split <;> simp [*]

namespace Node

theorem requireStatic_eq_ok {tag field : String} {n : Node} {u : Unit} :
    requireStatic tag field n = .ok u ↔ n.isStatic = true :=
  Fault.unless_eq_ok

/-- A choice has options, and they are static. -/
theorem choiceOf_eq_ok {options : List Node} {n : Node} :
    choiceOf options = .ok n ↔
      options ≠ [] ∧ (∀ o ∈ options, o.isStatic = true) ∧ choice options = n := by
  simp only [choiceOf, bind_eq_ok, Fault.unless_eq_ok, forM_eq_ok, requireStatic_eq_ok,
    pure_eq_ok, exists_const, Bool.not_eq_true', List.isEmpty_eq_false_iff, ne_eq]

/-- A labelled choice has options, and their values are static. -/
theorem labelledChoiceOf_eq_ok {options : List (Node × String)} {n : Node} :
    labelledChoiceOf options = .ok n ↔
      options ≠ [] ∧ (∀ o ∈ options, o.1.isStatic = true) ∧ labelledChoice options = n := by
  simp only [labelledChoiceOf, bind_eq_ok, Fault.unless_eq_ok, forM_eq_ok, requireStatic_eq_ok,
    pure_eq_ok, exists_const, Bool.not_eq_true', List.isEmpty_eq_false_iff, ne_eq]

/-- A palette takes at least one color and no more than there are. -/
theorem paletteOf_eq_ok {amount : UInt64} {n : Node} :
    paletteOf amount = .ok n ↔
      1 ≤ amount.toNat ∧ amount.toNat ≤ colors.length ∧ palette amount = n := by
  unfold paletteOf
  split
  case isTrue within => simp [within]
  case isFalse beyond => simp only [reduceCtorEq, ← and_assoc, beyond, false_and]

/-- The factors of a scaled vector are numeric leaves. -/
theorem scalesOf_eq_ok {scales : List Node} {factors : List Scalar} :
    scalesOf scales = .ok factors ↔
      scales = factors.map scalar ∧ ∀ s ∈ factors, s.isNumeric = true := by
  induction scales generalizing factors with
  | nil => cases factors <;> simp [scalesOf]
  | cons first rest ih =>
    cases first with
    | scalar s =>
      rw [scalesOf]
      split
      case isTrue numeric =>
        rw [map_eq_ok]
        constructor
        · rintro ⟨ts, mapped, rfl⟩
          obtain ⟨rfl, all⟩ := ih.mp mapped
          exact ⟨rfl, List.forall_mem_cons.mpr ⟨numeric, all⟩⟩
        · rintro ⟨listed, all⟩
          cases factors with
          | nil => cases listed
          | cons t ts =>
            cases listed
            exact ⟨ts, ih.mpr ⟨rfl, (List.forall_mem_cons.mp all).2⟩, rfl⟩
      case isFalse other =>
        refine iff_of_false nofun ?_
        rintro ⟨listed, all⟩
        cases factors with
        | nil => cases listed
        | cons t ts =>
          cases listed
          exact other (all s List.mem_cons_self)
    | _ => cases factors <;> simp [scalesOf]

/-- A scaled vector has numeric factors, as many labels as factors if it has labels, and a base
with components if it has a base. -/
theorem scaledOf_eq_ok {base : Option Node} {scales : List Node}
    {labels : Option (List String)} {n : Node} :
    scaledOf base scales labels = .ok n ↔
      ∃ factors : List Scalar, scales = factors.map scalar ∧ factors ≠ [] ∧
        (∀ s ∈ factors, s.isNumeric = true) ∧ (∀ ls ∈ labels, ls.length = factors.length) ∧
        (∀ b ∈ base, b.components?.isSome = true) ∧ scaled base factors labels = n := by
  constructor
  · intro h
    simp only [scaledOf, bind_eq_ok, Fault.unless_eq_ok, scalesOf_eq_ok] at h
    obtain ⟨_, nonempty, factors, ⟨rfl, numeric⟩, h⟩ := h
    refine ⟨factors, rfl, by simpa using nonempty, numeric, ?_⟩
    cases labels <;> cases base <;>
      simp only [bind_eq_ok, Fault.unless_eq_ok, pure_eq_ok, exists_const, beq_iff_eq,
        List.length_map] at h <;>
      simpa using h
  · rintro ⟨factors, rfl, nonempty, numeric, labelled, based, rfl⟩
    simp only [scaledOf, bind_eq_ok, Fault.unless_eq_ok, scalesOf_eq_ok]
    refine ⟨(), by simpa using nonempty, factors, ⟨rfl, numeric⟩, ?_⟩
    cases labels <;> cases base <;>
      simp only [bind_eq_ok, Fault.unless_eq_ok, pure_eq_ok, exists_const, beq_iff_eq,
        List.length_map, and_true] <;>
      simp_all

/-- A scaled vector has factors. -/
theorem scales_ne_nil_of_scaledOf {base : Option Node} {scales : List Node}
    {labels : Option (List String)} {n : Node} (h : scaledOf base scales labels = .ok n) :
    scales ≠ [] := by
  obtain ⟨factors, rfl, nonempty, -⟩ := scaledOf_eq_ok.mp h
  simpa using nonempty

end Node

/-- The cases of a condition are static and have one value for each reference. -/
theorem Condition.checkCases_eq_ok {references : List String} {cases : List Node} {index : Nat}
    {u : Unit} : Condition.checkCases references index cases = .ok u ↔
      ∀ case ∈ cases, case.isStatic = true ∧
        (Condition.values case).length = references.length := by
  induction cases generalizing index with
  | nil => simp [Condition.checkCases]
  | cons case rest ih =>
    simp only [Condition.checkCases, bind_eq_ok, Node.requireStatic_eq_ok, Fault.unless_eq_ok, ih,
      exists_const, List.forall_mem_cons, beq_iff_eq, and_assoc]

theorem Condition.ofParts_eq_ok {references : List String} {multi : Bool} {cases : List Node}
    {c : Condition Node} : Condition.ofParts references multi cases = .ok c ↔
      references ≠ [] ∧ (∀ case ∈ cases, case.isStatic = true ∧
        (Condition.values case).length = references.length) ∧ ⟨references, multi, cases⟩ = c := by
  simp only [Condition.ofParts, bind_eq_ok, Fault.unless_eq_ok, Condition.checkCases_eq_ok,
    pure_eq_ok, exists_const, Bool.not_eq_true', List.isEmpty_eq_false_iff, ne_eq]

theorem Conditional.ofParts_eq_ok {serial : Nat} {condition : Condition Node}
    {outcomes : List Node} {fallback : Option Node} {labels : Option (List String)}
    {fallbackLabel : Option String} {c : Conditional Node} :
    Conditional.ofParts serial condition outcomes fallback labels fallbackLabel = .ok c ↔
      outcomes.length = condition.cases.length ∧
        (∀ ls ∈ labels, ls.length = condition.cases.length) ∧
        (∀ n ∈ outcomes ++ fallback.toList, n.isStatic = true) ∧
        ⟨serial, condition, outcomes, fallback, labels, fallbackLabel⟩ = c := by
  cases labels <;>
    simp only [Conditional.ofParts, bind_eq_ok, Fault.unless_eq_ok, forM_eq_ok,
      Node.requireStatic_eq_ok, pure_eq_ok, exists_const, beq_iff_eq, Option.mem_def,
      reduceCtorEq, false_imp_iff, implies_true, true_and, Option.some.injEq, forall_eq']

theorem LabelRule.ofParts_eq_ok {condition : Condition Node} {labels : List String}
    {fallback : Option String} {r : LabelRule Node} :
    LabelRule.ofParts condition labels fallback = .ok r ↔
      labels.length = condition.cases.length ∧ ⟨condition, labels, fallback⟩ = r := by
  simp only [LabelRule.ofParts, bind_eq_ok, Fault.unless_eq_ok, pure_eq_ok, exists_const,
    beq_iff_eq]

/-- The values that a conditional may stand for are static. -/
theorem Conditional.static_of_ofParts {serial : Nat} {condition : Condition Node}
    {outcomes : List Node} {fallback : Option Node} {labels : Option (List String)}
    {fallbackLabel : Option String} {c : Conditional Node}
    (h : Conditional.ofParts serial condition outcomes fallback labels fallbackLabel = .ok c) :
    ∀ n ∈ c.outcomes ++ c.fallback.toList, n.isStatic = true := by
  obtain ⟨-, -, static, rfl⟩ := Conditional.ofParts_eq_ok.mp h
  exact static

end ArenaVariations
