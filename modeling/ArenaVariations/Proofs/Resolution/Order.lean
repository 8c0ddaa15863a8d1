import ArenaVariations.Proofs.Resolution.Chain
import ArenaVariations.Proofs.Resolution.Places
import ArenaVariations.Proofs.Resolution.Settling

/-!
# The order of settling makes no difference

A conditional that is settled late sees the values of those that were settled before it, and
decides on the spot those that come later. Either way it sees what it would see in the tree as it
was in the beginning. So a variation is settled if all its conditionals can be decided in that
tree, with the values that they have there, and it fails with the first one that cannot.

Two things are needed. No value may hold a record that references start from, for a reference
could start in another record once the value is filled in. And no reference may lead to a
container with placeholders in it, for it would see some of them filled in and others not.
-/

namespace ArenaVariations

open Relation

namespace Node

/-- A tree whose conditionals see the same in whatever order they are settled. -/
structure Orderless (root : Node) : Prop where
  built : root.Built
  /-- Serial numbers tell the conditionals apart. -/
  distinct : ∀ c ∈ root.waiting, ∀ d ∈ root.waiting, c.serial = d.serial → c = d
  /-- No value holds a record that a reference starts from. -/
  absent : ∀ c ∈ root.waiting, ∀ value ∈ c.candidates,
    ∀ d ∈ root.waiting, ∀ reference ∈ d.condition.references, value.origin? reference = none
  /-- No reference leads to a container with placeholders in it. -/
  closed : ∀ c ∈ root.waiting, ∀ reference ∈ c.condition.references,
    ∀ form children, root.target? reference = some (.container form children) →
      waitingIn children = []

/-- A tree decides that a conditional that waits in it stands for a value. -/
def Decides (root : Node) (c : Conditional Node) (value : Node) : Prop :=
  c ∈ root.waiting ∧ ∃ label, c.decide root = .ok (value, label)

section Orderless

variable {root stage : Node} {c d : Conditional Node}

theorem Orderless.bare (h : root.Orderless) {value : Node} (decides : root.Decides c value) :
    value.waiting = [] := by
  obtain ⟨mem, label, decided⟩ := decides
  exact Conditional.waiting_valueWith_eq_nil h.built mem
    (Conditional.valueWith_eq_ok.mpr ⟨label, decided⟩)

theorem Orderless.origin?_eq_none (h : root.Orderless) {value : Node}
    (decides : root.Decides c value) (mem : d ∈ root.waiting) {reference : String}
    (used : reference ∈ d.condition.references) : value.origin? reference = none := by
  obtain ⟨waits, label, decided⟩ := decides
  exact h.absent c waits value (Conditional.mem_candidates_of_decideWith decided) d mem
    reference used

/-- Conditionals that are not idle wait for the one that is being decided. -/
def Busy (root : Node) (idle : List Nat) (c : Conditional Node) : Prop :=
  ∀ e ∈ root.waiting, e.serial ∉ idle → TransGen root.Awaits e c

theorem Orderless.busy_otherThan (h : root.Orderless) (mem : c ∈ root.waiting)
    {idle : List Nat} (busy : root.Busy idle c) (awaits : root.Awaits c d) :
    root.Busy (Conditional.otherThan c.serial idle) d := by
  intro e waits not_mem
  by_cases same : e.serial = c.serial
  · rw [h.distinct e waits c mem same]
    exact .single awaits
  · have not_idle : e.serial ∉ idle := by
      intro mem
      exact not_mem (Conditional.mem_otherThan.mpr ⟨mem, same⟩)
    exact (busy e waits not_idle).tail awaits

/-- A value that has been filled in is the value that its conditional has on the spot. -/
theorem Orderless.valueWith_eq_ok (h : root.Orderless) {idle : List Nat}
    (busy : root.Busy idle d) {value : Node} (decides : root.Decides d value) :
    Conditional.valueWith root idle d = .ok value := by
  obtain ⟨mem, label, decided⟩ := decides
  refine Conditional.valueWith_eq_ok.mpr ⟨label, ?_⟩
  apply Conditional.decideWith_of_reflTransGen h.built decided
  intro e chain
  have waits : e ∈ root.waiting := by
    obtain rfl | ⟨_, _, awaits⟩ := chain.cases_tail
    · exact mem
    · exact awaits.mem_waiting
  -- If it were busy, the chain from `d` would lead back to `d`.
  by_cases idle : e.serial ∈ idle
  · exact idle
  · exact absurd (TransGen.trans_right chain (busy e waits idle))
      (Conditional.not_transGen_self decided)

/-- A conditional that still waits in a stage is decided there as in the tree itself. -/
theorem Orderless.decideWith_eq (h : root.Orderless) (filling : Filling root.Decides root stage)
    {idle idle' : List Nat} (mem : c ∈ stage.waiting)
    (same : ∀ e ∈ stage.waiting, e.serial ∈ idle' ↔ e.serial ∈ idle)
    (busy : root.Busy idle c) :
    Conditional.decideWith stage idle' c = Conditional.decideWith root idle c := by
  have subset := filling.waiting_subset fun _ _ => h.bare
  induction n : idle.length using Nat.strongRecOn generalizing idle idle' c with
  | _ n ih =>
    subst n
    by_cases isIdle : c.serial ∈ idle
    · rw [Conditional.decideWith_of_mem isIdle,
        Conditional.decideWith_of_mem ((same c mem).mpr isIdle)]
      apply congrArg (· >>= c.outcome)
      apply Condition.resolveWith_congr
      intro reference used
      have deeper : ∀ d, root.awaitedBy? reference = some d →
          root.Busy (Conditional.otherThan c.serial idle) d := by
        intro d awaited
        exact h.busy_otherThan (subset mem) busy ⟨reference, used, awaited⟩
      refine filling.resolveReference_eq (fun _ _ => h.bare)
        (fun _ _ decides => h.origin?_eq_none decides (subset mem) used) ?waits ?filled
        (h.closed c (subset mem) reference used)
      case waits =>
        intro d awaited waits
        have still : ∀ e ∈ stage.waiting, e.serial ∈ Conditional.otherThan c.serial idle' ↔
            e.serial ∈ Conditional.otherThan c.serial idle := by
          intro e mem
          rw [Conditional.mem_otherThan, Conditional.mem_otherThan, same e mem]
        have decided :=
          ih _ (Conditional.length_otherThan isIdle) waits still (deeper d awaited) rfl
        constructor
        · rw [Conditional.valueWith, Conditional.valueWith, decided]
        · intro v
          exact Conditional.waiting_valueWith_eq_nil h.built (subset waits)
      case filled =>
        intro d awaited value decides
        exact h.valueWith_eq_ok (deeper d awaited) decides
    · rw [Conditional.decideWith_of_not_mem isIdle,
        Conditional.decideWith_of_not_mem (mt (same c mem).mp isIdle)]

/-- Reading the values that are filled in and deciding conditionals on the spot agree. -/
theorem Orderless.decide_eq (h : root.Orderless) (filling : Filling root.Decides root stage)
    (mem : c ∈ stage.waiting) : c.decide stage = c.decide root := by
  have subset := filling.waiting_subset fun _ _ => h.bare
  apply h.decideWith_eq filling mem
  · intro e waits
    have here : e.serial ∈ stage.serials := serial_mem_serials waits
    have there : e.serial ∈ root.serials := serial_mem_serials (subset waits)
    exact iff_of_true (List.mem_cons_of_mem _ here) (List.mem_cons_of_mem _ there)
  · intro e waits busy
    exact absurd (List.mem_cons_of_mem _ (serial_mem_serials waits)) busy

/-- Filling the first open place in leads from one stage to the next. -/
theorem Orderless.exists_filling (h : root.Orderless) (filling : Filling root.Decides root stage)
    {path : List Nat} {rest : List (List Nat × Conditional Node)}
    (first : stage.openPlaces = (path, c) :: rest) {value : Node} {label : Option String}
    (decided : c.decide root = .ok (value, label)) :
    ∃ next, FillsFirst c value path stage next ∧ Filling root.Decides root next := by
  have waits : c ∈ stage.waiting := mem_waiting_of_openPlaces_eq first
  have decides : root.Decides c value :=
    ⟨filling.waiting_subset (fun _ _ => h.bare) waits, label, decided⟩
  obtain ⟨next, fills⟩ := exists_fillsFirst (h.bare decides) first
  exact ⟨next, fills, filling.trans (fills.filling decides) fun _ _ => h.bare⟩

/-- As long as all conditionals can be decided in the tree as it was in the beginning, going through
places puts their values in and leaves the other places open. -/
theorem Orderless.run_forM_fill (h : root.Orderless)
    {value : Conditional Node → Node × Option String}
    {before after : List (List Nat × Conditional Node)}
    (decided : ∀ place ∈ before, place.2.decide root = .ok (value place.2)) {v : Variation}
    (filling : Filling root.Decides root v.node) (places : v.node.openPlaces = before ++ after) :
    ∃ stage, (before.forM fun place => Variation.fill place.1).run.run v =
        (.ok (), ⟨stage, v.labels ++ before.filterMap fun place => (value place.2).2⟩) ∧
      Filling root.Decides root stage ∧ stage.openPlaces = after := by
  induction before generalizing v with
  | nil => exact ⟨v.node, by simp; rfl, filling, places⟩
  | cons place before ih =>
    obtain ⟨decision, decided⟩ := List.forall_mem_cons.mp decided
    obtain ⟨next, fills, still⟩ := h.exists_filling filling places decision
    have waits := mem_waiting_of_openPlaces_eq places
    have left : next.openPlaces = before ++ after :=
      (List.cons.inj (fills.openPlaces_eq.symm.trans places)).2
    let filled : Variation := ⟨next, v.labels ++ (value place.2).2.toList⟩
    have run : (Variation.fill place.1).run.run v = (.ok (), filled) :=
      Variation.run_fill_of_ok fills.at?_eq ((h.decide_eq filling waits).trans decision)
        fills.replaceAt?_eq
    obtain ⟨stage, runs, filling, left⟩ := ih decided (v := filled) still left
    refine ⟨stage, ?_, filling, left⟩
    rw [List.forM_eq_forM] at runs
    have labels : filled.labels ++ before.filterMap (fun place => (value place.2).2) =
        v.labels ++ (place :: before).filterMap fun place => (value place.2).2 := by
      cases label : (value place.2).2 <;> simp [filled, label]
    simp only [List.forM_eq_forM, List.forM_cons, Settling.run_bind, run, runs, labels]

/-- If all conditionals can be decided in the tree as it was in the beginning, a variation is
settled with the values and the labels that they have there. -/
theorem Orderless.settled_eq_ok (h : root.Orderless) (labels : Labels)
    {value : Conditional Node → Node × Option String}
    (decided : ∀ c ∈ root.waiting, c.decide root = .ok (value c)) :
    Variation.settled ⟨root, labels⟩ [] =
      .ok ⟨root.filledBy fun c => (value c).1,
        labels ++ root.waiting.filterMap fun c => (value c).2⟩ := by
  rw [← map_openPlaces, List.forall_mem_map] at decided
  obtain ⟨stage, run, filling, left⟩ :=
    h.run_forM_fill (v := ⟨root, labels⟩) decided (.same root) (List.append_nil _).symm
  have final : root.filledBy (fun c => (value c).1) = stage := by
    apply filling.eq_filledBy (openPlaces_eq_nil.mp left)
    rintro c v ⟨waits, label, decision⟩
    rw [← map_openPlaces] at waits
    obtain ⟨place, mem, rfl⟩ := List.mem_map.mp waits
    rw [decided place mem] at decision
    rw [Except.ok.inj decision]
  rw [Variation.settled_nil, run, final, ← map_openPlaces, List.filterMap_map]
  rfl

/-- A variation fails to be settled with the error of the first conditional that cannot be decided
in the tree as it was in the beginning. -/
theorem Orderless.settled_eq_error (h : root.Orderless) (labels : Labels)
    {before after : List (Conditional Node)} (split : root.waiting = before ++ c :: after)
    (decided : ∀ b ∈ before, ∃ r, b.decide root = .ok r) {e : Error}
    (failed : c.decide root = .error e) :
    Variation.settled ⟨root, labels⟩ [] = .error e := by
  rw [← map_openPlaces] at split
  obtain ⟨first, others, places, rfl, rest⟩ := List.map_eq_append_iff.mp split
  obtain ⟨place, last, rfl, rfl, rfl⟩ := List.map_eq_cons_iff.mp rest
  obtain ⟨value, decided⟩ := exists_results decided
  obtain ⟨stage, run, filling, left⟩ := h.run_forM_fill (v := ⟨root, labels⟩)
    (List.forall_mem_map.mp decided) (.same root) places
  have waits := mem_waiting_of_openPlaces_eq left
  have fails (by_then : Labels) :
      (Variation.fill place.1).run.run ⟨stage, by_then⟩ = (.error e, ⟨stage, by_then⟩) :=
    Variation.run_fill_of_error (at?_of_openPlaces left) ((h.decide_eq filling waits).trans failed)
  rw [Variation.settled_nil, places]
  simp only [List.forM_eq_forM] at run ⊢
  simp only [List.forM_append, Settling.run_bind, run, List.forM_cons, fails]

/-- The order of settling makes no difference. A variation is settled exactly if all of its
conditionals can be decided in the tree as it was in the beginning. Then each placeholder is
replaced by the value that its conditional has there, and the labels follow in order. Otherwise
the error is that of the first conditional that cannot be decided there. -/
theorem Orderless.settled_iff_decide (h : root.Orderless) (labels : Labels) :
    ((∃ v, Variation.settled ⟨root, labels⟩ [] = .ok v) ↔
        ∀ c ∈ root.waiting, ∃ r, c.decide root = .ok r) ∧
      (∀ value : Conditional Node → Node × Option String,
        (∀ c ∈ root.waiting, c.decide root = .ok (value c)) →
          Variation.settled ⟨root, labels⟩ [] =
            .ok ⟨root.filledBy fun c => (value c).1,
              labels ++ root.waiting.filterMap fun c => (value c).2⟩) ∧
      ∀ before c after e, root.waiting = before ++ c :: after →
        (∀ b ∈ before, ∃ r, b.decide root = .ok r) → c.decide root = .error e →
          Variation.settled ⟨root, labels⟩ [] = .error e := by
  refine ⟨⟨?_, ?_⟩, ?_, ?_⟩
  · rintro ⟨v, settled⟩
    obtain decided | ⟨before, c, after, e, split, decided, failed⟩ :=
      forall_ok_or_exists_first_error (Conditional.decide root) root.waiting
    · exact decided
    · rw [h.settled_eq_error labels split decided failed] at settled
      cases settled
  · intro decided
    obtain ⟨value, decided⟩ := exists_results decided
    exact ⟨_, h.settled_eq_ok labels decided⟩
  · intro value decided
    exact h.settled_eq_ok labels decided
  · intro before c after e split decided failed
    exact h.settled_eq_error labels split decided failed

end Orderless

/-- A name that is taken if another name is the expected one. -/
def nameAfter (serial : Nat) (reference expected taken label : String) : Conditional Node where
  serial := serial
  condition := ⟨[reference], false, [text expected]⟩
  outcomes := [text taken]
  fallback := none
  labels := some [label]
  fallbackLabel := none

theorem built_nameAfter (serial : Nat) (reference expected taken label : String) :
    Built (.placeholder (nameAfter serial reference expected taken label)) := by
  refine .placeholder (.conditional ?_ ⟨rfl, rfl⟩)
  simp only [children, nameAfter, Option.toList_none, List.append_nil, List.cons_append,
    List.nil_append, List.forall_mem_cons, List.not_mem_nil, false_imp_iff, implies_true, and_true]
  exact ⟨.scalar _, .scalar _⟩

/-- An item with a name. -/
def namedItem (id : String) (name : Node) : Node :=
  record .item (some id) [("name", name)]

/-- The names of three items depend on that of a fourth one. The box looks ahead to the ramp, and
the goal looks back to the box. -/
def chainOfNames : Node :=
  .sequence [
    namedItem "box" (.placeholder (nameAfter 0 "ramp.name" "long" "big" "heavy")),
    namedItem "ramp" (.placeholder (nameAfter 1 "wall.name" "high" "long" "steep")),
    namedItem "wall" (text "high"),
    namedItem "goal" (.placeholder (nameAfter 2 "box.name" "big" "far" "hard"))]

theorem waiting_chainOfNames :
    chainOfNames.waiting = [nameAfter 0 "ramp.name" "long" "big" "heavy",
      nameAfter 1 "wall.name" "high" "long" "steep", nameAfter 2 "box.name" "big" "far" "hard"] :=
  rfl

theorem orderless_chainOfNames : chainOfNames.Orderless where
  built := by
    refine .container trivial ?_
    simp only [List.forall_mem_cons, List.not_mem_nil, false_imp_iff, implies_true, and_true]
    refine ⟨.container rfl ?_, .container rfl ?_, .container rfl ?_, .container rfl ?_⟩ <;>
      simp only [List.map_cons, List.map_nil, List.forall_mem_cons, List.not_mem_nil,
        false_imp_iff, implies_true, and_true]
    · exact built_nameAfter ..
    · exact built_nameAfter ..
    · exact .scalar _
    · exact built_nameAfter ..
  distinct := by simp [waiting_chainOfNames, nameAfter]
  absent := by
    simp only [waiting_chainOfNames, List.forall_mem_cons, Conditional.candidates, nameAfter]
    simp [text, origin?, findRecord?]
  closed := by
    simp only [waiting_chainOfNames, List.forall_mem_cons, nameAfter, List.not_mem_nil,
      false_imp_iff, implies_true, and_true]
    refine ⟨?_, ?_, ?_⟩
    all_goals
      intro form children target
      cases target

theorem settled_iff_decide_chainOfNames :
    chainOfNames.Orderless ∧
      Variation.settled ⟨chainOfNames, []⟩ [] =
        .ok ⟨.sequence [namedItem "box" (text "big"), namedItem "ramp" (text "long"),
          namedItem "wall" (text "high"), namedItem "goal" (text "far")],
          ["heavy", "steep", "hard"]⟩ := by
  have decided : ∀ c ∈ chainOfNames.waiting,
      c.decide chainOfNames = .ok (c.outcomes.headD default, c.labels.bind List.head?) := by
    simp only [waiting_chainOfNames, List.forall_mem_cons, List.not_mem_nil, false_imp_iff,
      implies_true, and_true]
    refine ⟨?_, ?_, ?_⟩ <;> with_unfolding_all rfl
  exact ⟨orderless_chainOfNames,
    (Orderless.settled_iff_decide orderless_chainOfNames []).2.1 _ decided⟩

end Node

end ArenaVariations
