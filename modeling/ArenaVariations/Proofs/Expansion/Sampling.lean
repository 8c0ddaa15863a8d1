import ArenaVariations.Proofs.Expansion.Traversal
import ArenaVariations.Proofs.Random.Positions

/-!
# Samples are uniform

Drawing a variation of a tree asks for choices of sizes that depend on the tree alone. Without
restrictions the results of these choices are the variations that the tree enumerates, in the same
order. So the choices made are the digits of the position of the variation that they give, and
since each position has its own digits, fair choices are a fair draw among the positions.
-/

namespace ArenaVariations

namespace Node

mutual

/-- The sizes of the choices that drawing a variation of a tree asks for, in order. -/
def drawSizes : Node → List Nat
  | container _ children => drawSizesAll children
  | choice options => [options.length]
  | labelledChoice options => [options.length]
  | palette amount => [min amount.toNat colors.length]
  | scaled _ scales _ => [scales.length]
  | repetition _ value => value.drawSizes
  | restriction _ item => item.drawSizes
  | scalar _ | interval _ | tagged _ | conditional _ | labelRule _ | placeholder _ => []

/-- The sizes of the choices for the trees of a list. -/
def drawSizesAll : List Node → List Nat
  | [] => []
  | n :: ns => n.drawSizes ++ drawSizesAll ns

end

theorem Single.drawSizes_eq {n : Node} (h : n.Single) : n.drawSizes = [] := by
  cases h <;> rfl

theorem Lists.drawSizes_eq {n : Node} (h : n.Lists) :
    n.drawSizes = [n.alternatives.length] := by
  cases h <;> simp [drawSizes, alternatives, labelledScales]

/-- A tree whose draws are tabulated by its loops. -/
def Tabulated (n : Node) : Prop :=
  ∃ d : Draw Variation, n.sample = ExceptT.lift d ∧ d.Asks n.drawSizes ∧
    n.loops = .ofList d.leaves

theorem tabulated_all {ns : List Node} (h : ∀ n ∈ ns, n.Tabulated) :
    ∃ ds : Draw (List Variation), sampleAll ns = ExceptT.lift ds ∧ ds.Asks (drawSizesAll ns) ∧
      loopsAll ns = .ofList ds.leaves := by
  induction ns with
  | nil => exact ⟨pure [], (ExceptT.lift_pure _).symm, rfl, rfl⟩
  | cons n ns ih =>
    obtain ⟨d, sample, asks, loops⟩ := h n List.mem_cons_self
    obtain ⟨ds, sampleAll, asksAll, loopsAll⟩ := ih fun m mem => h m (List.mem_cons_of_mem n mem)
    refine ⟨d >>= fun v => (v :: ·) <$> ds, ?_, asks.bind fun v => asksAll.map _, ?_⟩
    · simp only [Node.sampleAll, sample, sampleAll, ← bind_pure_comp, ExceptT.lift_bind,
        ExceptT.lift_pure]
    · simp only [loopsAll_cons, loops, loopsAll, Feed.map_ofList, Feed.ofList_bind,
        Draw.leaves_bind, Draw.leaves_map]

/-- Without restrictions a tree's draws are tabulated by its loops. -/
theorem Expandable.tabulated {n : Node} (h : n.Expandable) (free : n.FreeOf [.restriction]) :
    n.Tabulated := by
  induction h using Expandable.induction with
  | single n _ single =>
    refine ⟨pure n.only, ?_, ?_, single.loops_eq⟩
    · rw [single.sample_eq, ExceptT.lift_pure]
    · rw [single.drawSizes_eq]
      exact Draw.asks_pure n.only
  | lists n h lists =>
    obtain ⟨first, rest, listed⟩ :=
      List.exists_cons_of_ne_nil (lists.alternatives_ne_nil h.built)
    refine ⟨Draw.oneOf first rest, ?_, ?_, ?_⟩
    · rw [lists.sample_eq, listed, Drawing.oneOf]
    · rw [lists.drawSizes_eq, listed]
      exact Draw.asks_oneOf first rest
    · rw [lists.loops_eq, listed, Draw.leaves_oneOf]
  | container form children h ih =>
    obtain ⟨ds, sample, asks, loops⟩ := tabulated_all fun n mem => ih n mem (free.child mem)
    refine ⟨Variation.gather form <$> ds, ?_, asks.map _, ?_⟩
    · simp only [Node.sample, sample, ← bind_pure_comp, ExceptT.lift_bind, ExceptT.lift_pure]
    · rw [loops_container, loops, Feed.map_ofList, Draw.leaves_map]
  | repetition amount value _ ih =>
    obtain ⟨d, sample, asks, loops⟩ := ih (free.child (by simp [children]))
    refine ⟨Variation.repeated amount <$> d, ?_, asks.map _, ?_⟩
    · simp only [Node.sample, sample, ← bind_pure_comp, ExceptT.lift_bind, ExceptT.lift_pure]
    · rw [loops_repetition, loops, Feed.map_ofList, Draw.leaves_map]
  | restriction => exact absurd (by simp [rule]) (freeOf_iff.mp free).1

/-- A tabulated tree counts at least one variation. -/
theorem Expandable.count_ne_zero {n : Node} (h : n.Expandable) (free : n.FreeOf [.restriction]) :
    n.count ≠ 0 := by
  obtain ⟨d, -, -, loops⟩ := h.tabulated free
  obtain ⟨m, emits, counted⟩ := h.exists_emits_loops
  obtain ⟨first, rest, listed⟩ := List.exists_cons_of_ne_nil d.leaves_ne_nil
  rw [loops, listed] at emits
  have limit : 0 < countLimit := by decide
  cases m with
  | zero => exact emits.elim
  | succ m => omega

/-- Drawing from a tree without restrictions asks for choices of sizes that the tree determines.
The product of these sizes is the number of variations that the tree enumerates, without drawing,
and the answers are the digits of the position of the variation that is drawn. Each position is
drawn by exactly one list of answers. -/
theorem sample_at_position {n : Node} (built : n.Built)
    (free : n.FreeOf [.restriction, .labelRule, .placeholder]) :
    n.sample.run.Asks n.drawSizes ∧
      ∃ vs : List Variation, n.drawSizes.prod = vs.length ∧
        (∀ amount, Draw.pulls Enumeration.next amount (.ofNode n) =
          pure ((vs.map Pull.item ++ [Pull.done]).take amount)) ∧
        (∀ answers, Digits n.drawSizes answers →
          ∃ v, vs[digitsPosition n.drawSizes answers]? = some v ∧
            n.sample.run.answer answers = some (.ok v)) ∧
        ∀ position < vs.length, ∃! answers,
          Digits n.drawSizes answers ∧ digitsPosition n.drawSizes answers = position := by
  have h : n.Expandable := ⟨built, free.mono (by simp)⟩
  have unrestricted : n.FreeOf [.restriction] := free.mono (by simp)
  obtain ⟨d, sample, asks, loops⟩ := h.tabulated unrestricted
  have length : n.drawSizes.prod = d.leaves.length := asks.length_leaves.symm
  have drawn : n.sample.run = Except.ok <$> d := by rw [sample, ExceptT.run_lift]
  refine ⟨drawn ▸ asks.map _, d.leaves, length, fun amount => ?_, fun answers fit => ?_,
    fun position below => existsUnique_digits (length ▸ below)⟩
  · rw [Enumeration.ofNode, (h.tracks (h.count_ne_zero unrestricted)).pulls_eq,
      h.remaining_fresh, loops, Feed.pulls_ofList]
  · have below := Digits.position_lt fit
    rw [length] at below
    refine ⟨_, List.getElem?_eq_getElem below, ?_⟩
    have asked : (Except.ok (ε := Error) <$> d).Asks n.drawSizes := asks.map _
    rw [drawn, asked.answer_eq fit, Draw.leaves_map, List.getElem?_map,
      List.getElem?_eq_getElem below]
    rfl

/-- A number that is repeated, and a labelled flag. -/
def pairWithFlag : Node :=
  .sequence [.repetition 2 (.choice [int 1, int 2, int 3]),
    .labelledChoice [(.scalar (.bool true), "on"), (.scalar (.bool false), "off")]]

theorem sample_at_position_pairWithFlag :
    pairWithFlag.Built ∧ pairWithFlag.FreeOf [.restriction, .labelRule, .placeholder] ∧
      pairWithFlag.drawSizes = [3, 2] ∧ pairWithFlag.sample.run.Asks [3, 2] ∧
      ∃ vs : List Variation, vs.length = 6 ∧ ∃ v, vs[5]? = some v ∧
        pairWithFlag.sample.run.answer [2, 1] = some (.ok v) := by
  have built : pairWithFlag.Built := by
    refine .container trivial ?_
    simp only [List.forall_mem_cons, List.not_mem_nil, false_imp_iff, implies_true, and_true]
    refine ⟨.repetition 2 (.choice ?_ rfl), .labelledChoice ?_ rfl⟩ <;>
      simp only [List.forall_mem_cons, List.not_mem_nil, false_imp_iff, implies_true, and_true]
    · exact ⟨.scalar _, .scalar _, .scalar _⟩
    · exact ⟨.scalar _, .scalar _⟩
  have free : pairWithFlag.FreeOf [.restriction, .labelRule, .placeholder] := by
    simp [pairWithFlag, freeOf_iff (n := .container _ _), freeOf_iff (n := .repetition _ _),
      freeOf_iff (n := .choice _), freeOf_iff (n := .labelledChoice _),
      freeOf_iff (n := .scalar _), children, rule, ofAmount, int]
  obtain ⟨asks, vs, length, -, drawn, -⟩ := sample_at_position built free
  have fit : Digits pairWithFlag.drawSizes [2, 1] :=
    .cons (by decide) (.cons (by decide) .nil)
  exact ⟨built, free, rfl, asks, vs, length.symm, drawn [2, 1] fit⟩

end Node

end ArenaVariations
