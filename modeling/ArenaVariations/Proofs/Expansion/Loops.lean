import ArenaVariations.Proofs.Expansion.Expandable
import ArenaVariations.Proofs.Expansion.Feed

/-!
# Variations by nested loops

`Node.loops` says what the variations of a tree are, without cursors: a container is a nest of
loops, one for each child, the last one innermost. A loop is entered anew for every item of the
loops around it, so a restriction draws anew each time. Conditionals are left open.

The loops of an expandable tree never fail, and the number of their items is the tree's count, up
to the limit of counts. Since counts are products that stop growing at the limit, this needs that
stopping early and late come to the same: `min_mul_min`.
-/

namespace ArenaVariations

namespace Node

mutual

/-- The variations of a tree, each with the labels that it carries. -/
def loops : Node → Feed Variation
  | n@(scalar _) | n@(interval _) | n@(tagged _) => return ⟨n, []⟩
  | container form children => do
    let parts ← loopsAll children
    return ⟨.container form (parts.map Variation.node), parts.flatMap Variation.labels⟩
  | choice options => .ofList (options.map fun option => ⟨option, []⟩)
  | labelledChoice options => .ofList (options.map fun option => ⟨option.1, [option.2]⟩)
  | palette amount =>
    .ofList ((colors.take amount.toNat).map fun color => ⟨rgb color.1 color.2.1 color.2.2, []⟩)
  | scaled base scales labels =>
    .ofList (scales.zipIdx.map fun scale =>
      ⟨scaledVector base scale.1, (labels.bind (·[scale.2]?)).toList⟩)
  | repetition amount value => do
    let v ← value.loops
    return ⟨.sequence (List.replicate amount.toNat v.node), v.labels⟩
  | restriction amount item => .repeatedly item.sample amount.toNat
  | conditional source => return ⟨placeholder source, []⟩
  | labelRule _ => .failed (.internal .labelRuleIterated)
  | placeholder _ => .failed (.internal .placeholderExpanded)

/-- The combinations of the variations of trees. -/
def loopsAll : List Node → Feed (List Variation)
  | [] => return []
  | n :: ns => do
    let v ← n.loops
    let vs ← loopsAll ns
    return v :: vs

end

theorem Single.loops_eq {n : Node} (h : n.Single) : n.loops = pure n.only := by
  cases h <;> rfl

theorem Lists.loops_eq {n : Node} (h : n.Lists) : n.loops = .ofList n.alternatives := by
  cases h with
  | scaled => simp [loops, alternatives, labelledScales, Function.comp_def]
  | choice | labelledChoice | palette => rfl

theorem loops_container (form : Form) (children : List Node) :
    (container form children).loops = Variation.gather form <$> loopsAll children := rfl

theorem loops_repetition (amount : UInt64) (value : Node) :
    (repetition amount value).loops = Variation.repeated amount <$> value.loops := rfl

theorem loops_restriction (amount : UInt64) (item : Node) :
    (restriction amount item).loops = .repeatedly item.sample amount.toNat := rfl

theorem loopsAll_cons (n : Node) (ns : List Node) :
    loopsAll (n :: ns) = n.loops >>= fun v => (v :: ·) <$> loopsAll ns := rfl

/-- A factor may be cut off at a limit before a product that is cut off itself. -/
theorem min_mul (limit a b : Nat) : min limit (min limit a * b) = min limit (a * b) := by
  rcases Nat.le_total a limit with small | large
  · rw [Nat.min_eq_right small]
  · rw [Nat.min_eq_left large]
    rcases Nat.eq_zero_or_pos b with rfl | positive
    · rfl
    · have cut : limit ≤ limit * b := Nat.le_mul_of_pos_right limit positive
      have full : limit ≤ a * b := Nat.le_trans cut (Nat.mul_le_mul_right b large)
      rw [Nat.min_eq_left cut, Nat.min_eq_left full]

theorem min_mul_min (limit a b : Nat) :
    min limit (min limit a * min limit b) = min limit (a * b) := by
  rw [min_mul, Nat.mul_comm, min_mul, Nat.mul_comm]

/-- Every combination of trees is handed out once, and the product of their counts says how many
there are. -/
theorem exists_emits_loopsAll {ns : List Node}
    (h : ∀ n ∈ ns, ∃ m, n.loops.Emits m ∧ n.count = min countLimit m) :
    ∃ m, (loopsAll ns).Emits m ∧
      ∀ product, countAll (min countLimit product) ns = min countLimit (product * m) := by
  induction ns with
  | nil => exact ⟨1, Feed.emits_pure [], fun product => by rw [countAll, Nat.mul_one]⟩
  | cons n ns ih =>
    obtain ⟨m, emits, counted⟩ := h n List.mem_cons_self
    obtain ⟨ms, emitsAll, countedAll⟩ := ih fun k mem => h k (List.mem_cons_of_mem n mem)
    refine ⟨m * ms, Feed.emits_bind emits fun v => Feed.emits_map emitsAll, fun product => ?_⟩
    rw [countAll, counted, min_mul_min, countedAll, Nat.mul_assoc]

/-- The loops of an expandable tree do not fail, and its count says how many items they have. -/
theorem Expandable.exists_emits_loops {n : Node} (h : n.Expandable) :
    ∃ m, n.loops.Emits m ∧ n.count = min countLimit m := by
  induction h using Expandable.induction with
  | single n h single =>
    refine ⟨1, ?_, ?_⟩
    · rw [single.loops_eq]
      exact Feed.emits_pure n.only
    · rw [single.count_eq]
      rfl
  | lists n h lists =>
    refine ⟨n.alternatives.length, ?_, lists.count_eq h.built⟩
    rw [lists.loops_eq]
    exact Feed.emits_ofList _
  | container form children h ih =>
    obtain ⟨m, emits, counted⟩ := exists_emits_loopsAll ih
    refine ⟨m, Feed.emits_map emits, ?_⟩
    have whole := counted 1
    rwa [Nat.one_mul] at whole
  | repetition amount value h ih =>
    obtain ⟨m, emits, counted⟩ := ih
    exact ⟨m, Feed.emits_map emits, counted⟩
  | restriction amount item h _ =>
    have small : amount.toNat ≤ countLimit :=
      Nat.le_of_lt (Nat.lt_of_lt_of_le amount.toNat_lt (by decide))
    refine ⟨amount.toNat, ?_, (Nat.min_eq_right small).symm⟩
    rw [loops_restriction]
    exact Feed.emits_repeatedly h.item.sample_always_ok _

end Node

end ArenaVariations
