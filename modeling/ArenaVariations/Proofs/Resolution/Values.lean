import ArenaVariations.Proofs.Node.Concrete
import ArenaVariations.Proofs.Resolution.Chain
import ArenaVariations.Resolution.Settling

/-!
# The values that conditions look at

A condition compares the values of its references with its cases. A placeholder that a walk comes
to is decided on the spot, but those that stand below the value which the walk ends at are left as
they are: `Condition.values_resolve` says that a value is unfinished exactly if its reference leads
to a tree with a placeholder in it. Then no case matches, whatever the placeholder stands for. So
it matters whether the placeholder is filled in by then, `Node.settled_on_unfinished_sizes`.
-/

namespace ArenaVariations

open List (Forall₂)

namespace Node

/-- A placeholder stands somewhere in the tree. -/
def Unfinished (n : Node) : Prop :=
  ¬ n.FreeOf [.placeholder]

/-- A reference leads to a tree in which a placeholder stands, past no placeholder and to none. -/
def LeadsToUnfinished (root : Node) (reference : String) : Prop :=
  ∃ n, root.target? reference = some n ∧ (∀ source, n ≠ .placeholder source) ∧ n.Unfinished

theorem not_unfinished_of_isStatic {n : Node} (static : n.isStatic = true) : ¬ n.Unfinished :=
  not_not_intro ((freeOf_of_isStatic static).mono (by simp))

theorem allStatic_of_beqList {ns ms : List Node}
    (each : ∀ n ∈ ns, ∀ {m : Node}, n.beq m = true → m.isStatic = true → n.isStatic = true)
    (same : beqList ns ms = true) (static : allStatic ms = true) : allStatic ns = true := by
  induction ns generalizing ms with
  | nil => rfl
  | cons n ns ih =>
    cases ms with
    | nil => cases same
    | cons m ms =>
      simp only [beqList, Bool.and_eq_true] at same
      simp only [allStatic, Bool.and_eq_true] at static ⊢
      obtain ⟨first, rest⟩ := List.forall_mem_cons.mp each
      exact ⟨first same.1 static.1, ih rest same.2 static.2⟩

/-- Only static trees equal static trees. -/
theorem isStatic_of_beq {n m : Node} (same : n.beq m = true) (static : m.isStatic = true) :
    n.isStatic = true := by
  induction n using container_induction generalizing m with
  | container form children ih =>
    cases m with
    | container form' others =>
      simp only [beq, Bool.and_eq_true] at same
      exact allStatic_of_beqList (fun n mem => ih n mem) same.2 static
    | _ => cases same
  | leaf n other =>
    cases n with
    | container form children => exact absurd rfl (other form children)
    | scalar | interval | tagged => rfl
    | _ =>
      cases m with
      | scalar | interval | tagged | container => cases same
      | _ => cases static

/-- Only static values satisfy static cases. -/
theorem isStatic_of_satisfies {value case : Node} (static : case.isStatic = true)
    (satisfied : value.satisfies case = true) : value.isStatic = true := by
  have numeric {test : Float → Bool} (passed : value.number?.any test = true) :
      value.isStatic = true := by
    obtain ⟨s, rfl⟩ := exists_scalar_of_number? (Option.isSome_of_any passed)
    rfl
  cases case with
  | interval range => exact numeric satisfied
  | scalar s =>
    rw [satisfies] at satisfied
    split at satisfied
    · exact numeric satisfied
    · exact isStatic_of_beq satisfied static
  | _ => exact isStatic_of_beq satisfied static

theorem isStatic_of_mem_values {case n : Node} (static : case.isStatic = true)
    (mem : n ∈ Condition.values case) : n.isStatic = true := by
  unfold Condition.values at mem
  split at mem
  · exact allStatic_iff.mp static n mem
  · exact List.mem_singleton.mp mem ▸ static

/-- Values that satisfy a static case one by one are static. -/
theorem isStatic_of_allSatisfy {values : List Node} {case : Node} (static : case.isStatic = true)
    (satisfied : allSatisfy values case = true) : ∀ value ∈ values, value.isStatic = true := by
  simp only [allSatisfy, Bool.and_eq_true, beq_iff_eq, List.all_eq_true] at satisfied
  obtain ⟨length, each⟩ := satisfied
  intro value mem
  obtain ⟨i, inside, rfl⟩ := List.mem_iff_getElem.mp mem
  have expected : i < (Condition.values case).length := length ▸ inside
  have pair := each _ (getElem_mem_zip inside expected)
  exact isStatic_of_satisfies (isStatic_of_mem_values static (List.getElem_mem expected)) pair

theorem FreeOf.of_step? {rules : List Rule} {n next : Node} {segment : String}
    (free : n.FreeOf rules) (scalars : .scalar ∉ rules) (step : n.step? segment = some next) :
    next.FreeOf rules := by
  obtain ⟨form, children, rfl, mem⟩ | ⟨value, rfl⟩ := step?_eq_some step
  · exact free.child mem
  · intro m part
    obtain rfl := (partOf_leaf rfl).mp part
    exact scalars

section Force

variable {force : Conditional Node → Except Error Node}

/-- A walk in a finished tree ends at a finished tree. -/
theorem FreeOf.of_walk? {n value : Node} {segments : List String}
    (free : n.FreeOf [.placeholder]) (walked : n.walk? force segments = .ok (some value)) :
    value.FreeOf [.placeholder] := by
  induction segments generalizing n with
  | nil =>
    obtain rfl := Option.some.inj (Except.ok.inj walked)
    exact free
  | cons segment rest ih =>
    rw [walk?] at walked
    split at walked
    case h_1 => cases walked
    case h_2 source step =>
      have root := (freeOf_iff.mp (free.of_step? (by simp) step)).1
      exact absurd (List.mem_singleton_self _) root
    case h_3 next _ step => exact ih (free.of_step? (by simp) step) walked

/-- A walk that waits for nothing goes along the segments. -/
theorem walk?_of_awaited?_eq_none {n : Node} {segments : List String}
    (open_ : n.awaited? segments = none) :
    n.walk? force segments = .ok (segments.foldlM step? n) := by
  induction segments generalizing n with
  | nil => rfl
  | cons segment rest ih =>
    rw [awaited?] at open_
    split at open_
    case h_1 step =>
      rw [walk?, List.foldlM_cons, step]
      rfl
    case h_2 => cases open_
    case h_3 next other step =>
      rw [walk?_cons step other, List.foldlM_cons, step]
      exact ih open_

theorem step?_placeholder (source : Conditional Node) (segment : String) :
    (placeholder source).step? segment = none := by
  unfold step?
  split <;> simp_all

/-- A walk that waits for a conditional ends at its placeholder, or comes past it. -/
theorem foldlM_step?_of_awaited? {n : Node} {segments : List String} {c : Conditional Node}
    (awaited : n.awaited? segments = some c) :
    segments.foldlM step? n = none ∨ segments.foldlM step? n = some (.placeholder c) := by
  induction segments generalizing n with
  | nil => cases awaited
  | cons segment rest ih =>
    rw [awaited?] at awaited
    rw [List.foldlM_cons]
    split at awaited
    case h_1 => cases awaited
    case h_2 source step =>
      obtain rfl := Option.some.inj awaited
      rw [step, Option.bind_eq_bind, Option.bind_some]
      cases rest with
      | nil => exact .inr rfl
      | cons next rest =>
        rw [List.foldlM_cons, step?_placeholder]
        exact .inl rfl
    case h_3 next _ step =>
      rw [step]
      exact ih awaited

/-- If a walk waits for a conditional with finished values, it ends at a finished tree. -/
theorem freeOf_of_awaited? {n value : Node} {segments : List String} {c : Conditional Node}
    (awaited : n.awaited? segments = some c)
    (finished : ∀ v, force c = .ok v → v.FreeOf [.placeholder])
    (walked : n.walk? force segments = .ok (some value)) : value.FreeOf [.placeholder] := by
  induction segments generalizing n with
  | nil => cases awaited
  | cons segment rest ih =>
    rw [awaited?] at awaited
    split at awaited
    case h_1 => cases awaited
    case h_2 source step =>
      obtain rfl := Option.some.inj awaited
      rw [walk?, step] at walked
      obtain ⟨v, forced, walked⟩ := bind_eq_ok.mp walked
      exact (finished v forced).of_walk? walked
    case h_3 next other step =>
      rw [walk?_cons step other] at walked
      exact ih awaited walked

/-- A walk waits for the conditional of a placeholder that it would end at. -/
theorem awaited?_of_foldlM_step? {n : Node} {segments : List String} {c : Conditional Node}
    (other : ∀ source, n ≠ .placeholder source)
    (target : segments.foldlM step? n = some (.placeholder c)) : n.awaited? segments = some c := by
  induction segments generalizing n with
  | nil => exact absurd (Option.some.inj target) (other c)
  | cons segment rest ih =>
    rw [List.foldlM_cons] at target
    obtain ⟨next, step, later⟩ := Option.bind_eq_some_iff.mp target
    by_cases placed : ∃ source, next = .placeholder source
    · obtain ⟨source, rfl⟩ := placed
      rw [awaited?, step]
      cases rest with
      | nil => exact congrArg some (placeholder.inj (Option.some.inj later))
      | cons segment rest =>
        rw [List.foldlM_cons, step?_placeholder] at later
        cases later
    · have plain : ∀ source, next ≠ .placeholder source := fun source same => placed ⟨source, same⟩
      rw [awaited?_cons step plain]
      exact ih plain later

/-- A walk ends at an unfinished tree only if all its steps lead there, and at whatever its steps
lead to unless this is a placeholder. -/
theorem walk?_ends {n value : Node} {segments : List String}
    (other : ∀ source, n ≠ .placeholder source)
    (finished : ∀ c, n.awaited? segments = some c → ∀ v, force c = .ok v →
      v.FreeOf [.placeholder])
    (walked : n.walk? force segments = .ok (some value)) :
    (value.Unfinished → segments.foldlM step? n = some value ∧
        ∀ source, value ≠ .placeholder source) ∧
      ∀ m, segments.foldlM step? n = some m → (∀ source, m ≠ .placeholder source) →
        m = value := by
  cases awaited : n.awaited? segments with
  | none =>
    rw [walk?_of_awaited?_eq_none awaited] at walked
    have target := Except.ok.inj walked
    refine ⟨fun _ => ⟨target, ?_⟩, fun m ends _ => Option.some.inj (ends.symm.trans target)⟩
    rintro source rfl
    rw [awaited?_of_foldlM_step? other target] at awaited
    cases awaited
  | some c =>
    constructor
    · intro unfinished
      exact absurd (freeOf_of_awaited? awaited (finished c awaited) walked) unfinished
    · intro m ends plain
      obtain past | placed := foldlM_step?_of_awaited? awaited
      · rw [past] at ends
        cases ends
      · exact absurd (Option.some.inj (ends.symm.trans placed)) (plain c)

/-- The value of a reference is unfinished exactly if the reference leads to an unfinished tree,
and then it is this tree. -/
theorem unfinished_iff_leads {root value : Node} {reference : String}
    (finished : ∀ c, root.awaitedBy? reference = some c → ∀ v, force c = .ok v →
      v.FreeOf [.placeholder])
    (resolved : root.resolveReference force reference = .ok value) :
    (value.Unfinished ↔ root.LeadsToUnfinished reference) ∧
      (value.Unfinished → root.target? reference = some value) := by
  rw [resolveReference_eq] at resolved
  cases found : root.origin? reference with
  | none =>
    rw [found] at resolved
    cases resolved
  | some start =>
    have plain : ∀ source, start ≠ .placeholder source := by
      obtain ⟨⟨kind, names, children, rfl⟩, -⟩ := findRecord?_eq_some found
      exact fun source => nofun
    simp only [awaitedBy?, found, Option.bind_some] at finished
    simp only [LeadsToUnfinished, target?, found, Option.bind_some] at resolved ⊢
    obtain ⟨ended, walked, given⟩ := bind_eq_ok.mp resolved
    cases ended with
    | none => cases given
    | some ended =>
      obtain rfl := Except.ok.inj given
      obtain ⟨leads, unique⟩ := walk?_ends plain finished walked
      refine ⟨⟨fun unfinished => ?_, ?_⟩, fun unfinished => (leads unfinished).1⟩
      · exact ⟨ended, (leads unfinished).1, (leads unfinished).2, unfinished⟩
      · rintro ⟨m, ends, other, unfinished⟩
        exact unique m ends other ▸ unfinished

end Force

end Node

namespace Condition

open Node

/-- What a condition looks at. The value of a reference is unfinished exactly if the reference
leads to a list, a mapping or a record, or to a tag, in which a placeholder stands; and then it is
compared as it stands there. No case of a checked condition matches such a value: where one
matches, all values are finished. -/
theorem values_resolve {root : Node} (built : root.Built) {c : Condition Node} {r : Resolution}
    (resolved : c.resolve root = .ok r) :
    Forall₂ (fun reference value => (value.Unfinished ↔ root.LeadsToUnfinished reference) ∧
        (value.Unfinished → root.target? reference = some value)) c.references r.values ∧
      (c.Checked → r.index.isSome = true → ∀ value ∈ r.values, ¬ value.Unfinished) := by
  obtain ⟨values, found, chosen⟩ := bind_eq_ok.mp resolved
  obtain rfl := pure_eq_ok.mp chosen
  constructor
  · refine (mapM_eq_ok.mp found).imp fun reference value resolved => ?_
    refine unfinished_iff_leads (fun source awaited v forced => ?_) resolved
    have checked := built.checked_of_mem_waiting (mem_waiting_of_awaitedBy? awaited)
    obtain ⟨label, decided⟩ := Conditional.valueWith_eq_ok.mp forced
    have static := Conditional.static_of_ofParts checked.2 v
      (Conditional.mem_candidates_of_decideWith decided)
    exact (freeOf_of_isStatic static).mono (by simp)
  · intro checked matched value mem
    obtain ⟨i, index⟩ := Option.isSome_iff_exists.mp matched
    obtain ⟨inside, satisfied, -⟩ := List.findIdx?_eq_some_iff_getElem.mp index
    have static := ((Condition.ofParts_eq_ok.mp checked).2.1 _ (List.getElem_mem inside)).1
    exact not_unfinished_of_isStatic (isStatic_of_allSatisfy static satisfied value mem)

end Condition

namespace Node

/-- A conditional that stands for a value in one case, and maybe for another one otherwise. -/
def caseOf (serial : Nat) (reference : String) (case value : Node) (fallback : Option Node) :
    Conditional Node where
  serial := serial
  condition := ⟨[reference], false, [case]⟩
  outcomes := [value]
  fallback := fallback
  labels := none
  fallbackLabel := none

/-- The name of a goal tells whether the only size of a wall is big. -/
def nameOfGoal : Conditional Node :=
  caseOf 0 "wall.sizes" (sequence [sequence [text "big"]]) (text "matched") (some (text "missed"))

/-- The size of the wall depends on the name of a ramp. -/
def sizeOfWall : Conditional Node :=
  caseOf 1 "ramp.name" (text "long") (text "big") none

def goalNamed (name : Node) : Node :=
  record .item (some "goal") [("name", name)]

def wallSized (size : Node) : Node :=
  record .item (some "wall") [("sizes", sequence [size])]

def longRamp : Node :=
  record .item (some "ramp") [("name", text "long")]

/-- The goal looks ahead to the wall, and the wall to the ramp. -/
def goalFirst : Node :=
  sequence [goalNamed (.placeholder nameOfGoal), wallSized (.placeholder sizeOfWall), longRamp]

theorem built_goalFirst : goalFirst.Built := by
  have word (s : String) : (text s).Built := .scalar (.text s)
  have listed {n : Node} (built : n.Built) : (sequence [n]).Built :=
    .container trivial (by simpa using built)
  have field (kind : RecordKind) (id name : String) {n : Node} (built : n.Built) :
      (record kind (some id) [(name, n)]).Built := .container rfl (by simpa using built)
  have conditional {serial : Nat} {reference : String} {case value : Node}
      {fallback : Option Node} (parts : ∀ n ∈ [case, value] ++ fallback.toList, n.Built)
      (checked : (caseOf serial reference case value fallback).Checked) :
      (Node.placeholder (caseOf serial reference case value fallback)).Built :=
    .placeholder (.conditional parts checked)
  have name : (Node.placeholder nameOfGoal).Built :=
    conditional (by simpa using ⟨listed (listed (word "big")), word "matched", word "missed"⟩)
      ⟨rfl, rfl⟩
  have size : (Node.placeholder sizeOfWall).Built :=
    conditional (by simpa using ⟨word "long", word "big"⟩) ⟨rfl, rfl⟩
  refine .container trivial ?_
  simp only [List.forall_mem_cons, List.not_mem_nil, false_imp_iff, implies_true, and_true]
  exact ⟨field .item "goal" "name" name, field .item "wall" "sizes" (listed size),
    field .item "ramp" "name" (word "long")⟩

/-- The sizes of the wall hold its placeholder. -/
theorem unfinished_sizes : (sequence [.placeholder sizeOfWall]).Unfinished := by
  intro free
  have inner := free (.placeholder sizeOfWall) (.inside List.mem_cons_self (.whole _))
  exact inner (List.mem_singleton_self _)

/-- The name of the ramp is finished, and the sizes of the wall are not. -/
theorem values_resolve_goalFirst :
    ¬ goalFirst.LeadsToUnfinished "ramp.name" ∧ goalFirst.LeadsToUnfinished "wall.sizes" := by
  let both : Condition Node := ⟨["ramp.name", "wall.sizes"], true, []⟩
  have resolved : both.resolve goalFirst =
      .ok ⟨none, [text "long", sequence [.placeholder sizeOfWall]]⟩ := by
    with_unfolding_all rfl
  obtain ⟨each, -⟩ := Condition.values_resolve built_goalFirst resolved
  obtain _ | ⟨name, _ | ⟨sizes, -⟩⟩ := each
  exact ⟨fun leads => not_unfinished_of_isStatic rfl (name.1.mpr leads),
    sizes.1.mp unfinished_sizes⟩

/-- The name of the goal is decided on sizes with a placeholder in them, and the case that the
finished sizes match is missed. If the wall stands first, it is not. -/
theorem settled_on_unfinished_sizes :
    goalFirst.Built ∧ nameOfGoal.condition.Checked ∧
      nameOfGoal.condition.resolve goalFirst =
        .ok ⟨none, [sequence [.placeholder sizeOfWall]]⟩ ∧
      (sequence [.placeholder sizeOfWall]).Unfinished ∧
      Variation.settled ⟨goalFirst, []⟩ [] =
        .ok ⟨sequence [goalNamed (text "missed"), wallSized (text "big"), longRamp], []⟩ ∧
      Variation.settled ⟨sequence [wallSized (.placeholder sizeOfWall),
          goalNamed (.placeholder nameOfGoal), longRamp], []⟩ [] =
        .ok ⟨sequence [wallSized (text "big"), goalNamed (text "matched"), longRamp], []⟩ := by
  refine ⟨built_goalFirst, rfl, ?_, unfinished_sizes, ?_, ?_⟩ <;> with_unfolding_all rfl

end Node

end ArenaVariations
