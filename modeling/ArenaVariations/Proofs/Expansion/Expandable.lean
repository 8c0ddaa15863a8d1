import ArenaVariations.Expansion.Count
import ArenaVariations.Expansion.Enumeration
import ArenaVariations.Proofs.Node.Built
import ArenaVariations.Proofs.Node.Checked
import ArenaVariations.Proofs.Random.Results

/-!
# Trees that can be expanded

A tree is `Expandable` if it is built and holds neither label rules, which belong to the settings
of a document, nor placeholders, which are what expansion leaves. Three operations go over such a
tree: it is counted, its variations are enumerated, and variations are drawn from it.

For these a node is one of five: it has a `Single` variation, it `Lists` its variations, or it is
a container, a repetition or a restriction, which go by the trees below them.
`Expandable.induction` is induction over these five, and knows that a list of variations is not
empty. Its first use is that drawing from an expandable tree cannot fail.
-/

namespace ArenaVariations

namespace Node

/-- A built tree without label rules and placeholders. -/
structure Expandable (n : Node) : Prop where
  built : n.Built
  free : n.FreeOf [.labelRule, .placeholder]

/-- Nodes that expand to themselves, and conditionals, which are left open. -/
inductive Single : Node → Prop where
  | scalar (value : Scalar) : Single (.scalar value)
  | interval (range : Interval) : Single (.interval range)
  | tagged (value : TaggedScalar) : Single (.tagged value)
  | conditional (source : Conditional Node) : Single (.conditional source)

/-- Nodes that list their variations. -/
inductive Lists : Node → Prop where
  | choice (options : List Node) : Lists (.choice options)
  | labelledChoice (options : List (Node × String)) : Lists (.labelledChoice options)
  | palette (amount : UInt64) : Lists (.palette amount)
  | scaled (base : Option Node) (scales : List Scalar) (labels : Option (List String)) :
      Lists (.scaled base scales labels)

/-- The variation of a node that has a single one. -/
def only : Node → Variation
  | conditional source => ⟨placeholder source, []⟩
  | n => ⟨n, []⟩

namespace Single

variable {n : Node}

theorem count_eq (h : n.Single) : n.count = 1 := by
  cases h <;> rfl

theorem sample_eq (h : n.Single) : n.sample = pure n.only := by
  cases h <;> rfl

theorem advance_eq (h : n.Single) (cursor : Cursor) :
    n.advance cursor = pure (once (.ok n.only) cursor) := by
  cases h <;> rfl

end Single

namespace Lists

variable {n : Node}

theorem sample_eq (h : n.Lists) : n.sample = Drawing.oneOf n.alternatives := by
  cases h <;> rfl

theorem advance_finished (h : n.Lists) : n.advance .finished = pure (.done, .finished) := by
  cases h <;> rfl

theorem advance_eq (h : n.Lists) {cursor : Cursor} (unfinished : cursor ≠ .finished) :
    n.advance cursor = pure (step n.alternatives cursor) := by
  cases h <;> cases cursor <;> first | rfl | exact absurd rfl unfinished

/-- A palette that passed its check has as many colors as it takes. -/
theorem count_eq (h : n.Lists) (built : n.Built) :
    n.count = min countLimit n.alternatives.length := by
  cases h with
  | choice options => simp [count, alternatives]
  | labelledChoice options => simp [count, alternatives]
  | scaled base scales labels => simp [count, alternatives, labelledScales]
  | palette amount =>
    cases built with
    | palette checked =>
      obtain ⟨-, few, -⟩ := paletteOf_eq_ok.mp checked
      have small : amount.toNat ≤ countLimit := Nat.le_trans few (by decide)
      simp [count, alternatives, small, few]

/-- A tag that passed its check lists at least one variation. -/
theorem alternatives_ne_nil (h : n.Lists) (built : n.Built) : n.alternatives ≠ [] := by
  cases h with
  | choice options =>
    cases built with
    | choice _ checked => simpa [alternatives] using (choiceOf_eq_ok.mp checked).1
  | labelledChoice options =>
    cases built with
    | labelledChoice _ checked =>
      simpa [alternatives] using (labelledChoiceOf_eq_ok.mp checked).1
  | palette amount =>
    cases built with
    | palette checked =>
      obtain ⟨some_color, -⟩ := paletteOf_eq_ok.mp checked
      have : amount.toNat ≠ 0 := Nat.ne_of_gt some_color
      simp [alternatives, colors, this]
  | scaled base scales labels =>
    cases built with
    | scaled _ checked =>
      simpa [alternatives, labelledScales] using scales_ne_nil_of_scaledOf checked

end Lists

theorem advance_container_fresh (form : Form) (children : List Node) :
    (container form children).advance .fresh =
      (fun turn => turn.pull form) <$> startAll children := rfl

theorem advance_container_within (form : Form) (children : List Node) (frames : List Frame) :
    (container form children).advance (.within frames) =
      (fun turn => turn.pull form) <$> advanceAll children frames := rfl

theorem advance_repetition (amount : UInt64) (value : Node) (cursor : Cursor) :
    (repetition amount value).advance cursor =
      (fun p => (p.1.map (Variation.repeated amount), p.2)) <$> value.advance cursor := by
  cases cursor <;> rfl

theorem advance_restriction (amount : UInt64) (item : Node) {cursor : Cursor}
    (unfinished : cursor ≠ .finished) :
    (restriction amount item).advance cursor =
      if cursor.position < amount.toNat then
        (fun r => (Pull.ofExcept r, .behind (cursor.position + 1))) <$> item.sample.run
      else pure (.done, .finished) := by
  cases cursor <;> first | rfl | exact absurd rfl unfinished

namespace Expandable

theorem child {form : Form} {children : List Node} (h : (container form children).Expandable)
    {n : Node} (mem : n ∈ children) : n.Expandable := by
  cases h.built with
  | container fits built => exact ⟨built n mem, h.free.child mem⟩

theorem value {amount : UInt64} {value : Node} (h : (repetition amount value).Expandable) :
    value.Expandable := by
  cases h.built with
  | repetition _ built => exact ⟨built, h.free.child (by simp [children])⟩

theorem item {amount : UInt64} {item : Node} (h : (restriction amount item).Expandable) :
    item.Expandable := by
  cases h.built with
  | restriction _ built => exact ⟨built, h.free.child (by simp [children])⟩

/-- Induction over expandable trees. -/
@[elab_as_elim] theorem induction {motive : (n : Node) → n.Expandable → Prop}
    (single : ∀ n h, n.Single → motive n h)
    (lists : ∀ n h, n.Lists → motive n h)
    (container : ∀ form children h, (∀ n (mem : n ∈ children), motive n (child h mem)) →
      motive (container form children) h)
    (repetition : ∀ amount value h, motive value (Expandable.value h) →
      motive (repetition amount value) h)
    (restriction : ∀ amount item h, motive item (Expandable.item h) →
      motive (restriction amount item) h)
    {n : Node} (h : n.Expandable) : motive n h := by
  obtain ⟨built, free⟩ := h
  induction built with
  | scalar value => exact single _ _ (.scalar value)
  | interval => exact single _ _ (.interval _)
  | tagged value => exact single _ _ (.tagged value)
  | conditional => exact single _ _ (.conditional _)
  | choice => exact lists _ _ (.choice _)
  | labelledChoice => exact lists _ _ (.labelledChoice _)
  | palette => exact lists _ _ (.palette _)
  | scaled => exact lists _ _ (.scaled ..)
  | container fits built ih => exact container _ _ _ fun n mem => ih n mem (free.child mem)
  | repetition amount built ih =>
    apply repetition amount _ ⟨.repetition amount built, free⟩
    exact ih (free.child (by simp [children]))
  | restriction amount built ih =>
    apply restriction amount _ ⟨.restriction amount built, free⟩
    exact ih (free.child (by simp [children]))
  | labelRule => exact absurd (by simp [rule]) (freeOf_iff.mp free).1
  | placeholder => exact absurd (by simp [rule]) (freeOf_iff.mp free).1

end Expandable

/-- A list of trees can be drawn from if each of them can. -/
theorem sampleAll_eq_lift {ns : List Node}
    (h : ∀ n ∈ ns, ∃ d : Draw Variation, n.sample = ExceptT.lift d) :
    ∃ ds : Draw (List Variation), sampleAll ns = ExceptT.lift ds := by
  induction ns with
  | nil => exact ⟨pure [], (ExceptT.lift_pure _).symm⟩
  | cons n ns ih =>
    obtain ⟨d, hd⟩ := h n List.mem_cons_self
    obtain ⟨ds, hds⟩ := ih fun m mem => h m (List.mem_cons_of_mem n mem)
    refine ⟨do return (← d) :: (← ds), ?_⟩
    simp only [sampleAll, hd, hds, ExceptT.lift_bind, ExceptT.lift_pure]

/-- Drawing from an expandable tree cannot fail. -/
theorem Expandable.sample_eq_lift {n : Node} (h : n.Expandable) :
    ∃ d : Draw Variation, n.sample = ExceptT.lift d := by
  induction h using Expandable.induction with
  | single n _ single => exact ⟨pure n.only, by rw [single.sample_eq, ExceptT.lift_pure]⟩
  | lists n h lists =>
    obtain ⟨first, rest, listed⟩ :=
      List.exists_cons_of_ne_nil (lists.alternatives_ne_nil h.built)
    exact ⟨Draw.oneOf first rest, by rw [lists.sample_eq, listed, Drawing.oneOf]⟩
  | container form children _ ih =>
    obtain ⟨ds, hds⟩ := sampleAll_eq_lift ih
    refine ⟨do return .gather form (← ds), ?_⟩
    simp only [sample, hds, ExceptT.lift_bind, ExceptT.lift_pure]
  | repetition amount value _ ih =>
    obtain ⟨d, hd⟩ := ih
    refine ⟨do return (← d).repeated amount, ?_⟩
    simp only [sample, hd, ExceptT.lift_bind, ExceptT.lift_pure]
  | restriction amount item _ ih => exact ih

theorem Expandable.sample_always_ok {n : Node} (h : n.Expandable) :
    n.sample.run.Always fun r => ∃ v, r = .ok v := by
  obtain ⟨d, hd⟩ := h.sample_eq_lift
  rw [hd, ExceptT.run_lift, Draw.always_map]
  exact .of_forall (fun v => ⟨v, rfl⟩) d

end Node

end ArenaVariations
