import ArenaVariations.Proofs.Expansion.Traversal
import Mathlib.Algebra.Group.Nat.Defs

/-!
# Enumerations are the loops, and counts are right

The enumeration of an expandable tree hands out what the nested loops over its parts hand out, in
the same order, and its count is the number of these variations, up to the limit of counts. Both
hold whatever the generator draws. If the count is not zero, the enumeration and the loops also
draw the same, each choice just before the variation that needs it.
-/

namespace ArenaVariations

open ArenaVariations.Random (Generator)

namespace Node

/-- A drawn number, for two draws, and a labelled flag. -/
def drawnWithFlag : Node :=
  .sequence [.restriction 2 (.choice [int 1, int 2]),
    .labelledChoice [(.scalar (.bool true), "on"), (.scalar (.bool false), "off")]]

theorem expandable_drawnWithFlag : drawnWithFlag.Expandable where
  built := by
    refine .container trivial ?_
    simp only [List.forall_mem_cons, List.not_mem_nil, false_imp_iff, implies_true, and_true]
    refine ⟨.restriction 2 (.choice ?_ rfl), .labelledChoice ?_ rfl⟩ <;>
      simp only [List.forall_mem_cons, List.not_mem_nil, false_imp_iff, implies_true, and_true] <;>
      exact ⟨.scalar _, .scalar _⟩
  free := by
    simp [drawnWithFlag, freeOf_iff (n := .container _ _), freeOf_iff (n := .restriction _ _),
      freeOf_iff (n := .choice _), freeOf_iff (n := .labelledChoice _),
      freeOf_iff (n := .scalar _), children, rule, ofAmount, int]

/-- A tree that counts nothing has nothing to hand out: neither its enumeration nor its loops get
to a first item. -/
theorem Expandable.run_pulls_of_count_eq_zero {n : Node} (h : n.Expandable) (zero : n.count = 0)
    (amount : Nat) (g : Generator) :
    ((Draw.pulls Enumeration.next amount (.ofNode n)).run g).1 =
      ((Draw.pulls Feed.pull amount n.loops).run g).1 := by
  obtain ⟨m, emits, counted⟩ := h.exists_emits_loops
  obtain rfl : m = 0 := by
    have limit : 0 < countLimit := by decide
    omega
  rw [Feed.run_pulls emits, List.eq_nil_of_length_eq_zero (Feed.length_items emits g)]
  cases amount with
  | zero => rfl
  | succ amount =>
    have ended : (Draw.pulls Enumeration.next (amount + 1) (.ofNode n)).Always
        (· = [Pull.done]) := by
      rw [Draw.pulls_succ, Enumeration.next, bind_assoc, Draw.always_bind]
      refine (h.advance_fresh_of_count_eq_zero zero).mono ?_
      rintro ⟨pull, cursor⟩ rfl
      rfl
    rw [ended.run g]
    simp

/-- Pulling variations from a tree and pulling items from its loops give the same. -/
theorem Expandable.run_pulls {n : Node} (h : n.Expandable) (amount : Nat) (g : Generator) :
    ((Draw.pulls Enumeration.next amount (.ofNode n)).run g).1 =
      ((Draw.pulls Feed.pull amount n.loops).run g).1 := by
  by_cases zero : n.count = 0
  · exact h.run_pulls_of_count_eq_zero zero amount g
  · rw [Enumeration.ofNode, (h.tracks zero).pulls_eq, h.remaining_fresh]

/-- Enumerating an expandable tree never fails, and its count is the number of its variations, up
to the limit: pulling often enough gives so many variations, and then the end. -/
theorem Expandable.count_eq_length {n : Node} (h : n.Expandable) (g : Generator) :
    ∃ vs : List Variation, n.count = min (2 ^ 128 - 1) vs.length ∧
      ∀ amount, ((Draw.pulls Enumeration.next amount (.ofNode n)).run g).1 =
        (vs.map Pull.item ++ [Pull.done]).take amount := by
  obtain ⟨m, emits, counted⟩ := h.exists_emits_loops
  refine ⟨n.loops.items g, ?_, fun amount => ?_⟩
  · rw [Feed.length_items emits, counted, countLimit, Nat.pow_eq]
  · rw [h.run_pulls, Feed.run_pulls emits]

theorem count_eq_length_drawnWithFlag :
    drawnWithFlag.Expandable ∧ drawnWithFlag.count = 4 ∧
      ∃ vs : List Variation, drawnWithFlag.count = min (2 ^ 128 - 1) vs.length ∧
        ∀ amount, ((Draw.pulls Enumeration.next amount (.ofNode drawnWithFlag)).run
          (.ofSeed 1234)).1 = (vs.map Pull.item ++ [Pull.done]).take amount :=
  ⟨expandable_drawnWithFlag, rfl,
    Expandable.count_eq_length expandable_drawnWithFlag (.ofSeed 1234)⟩

/-- The enumeration of an expandable tree is its loops. Whatever a generator draws, any number of
pulls gives the same variations and labels in the same order. If the count is not zero, the pulls
are the same computation, and so ask for the same choices before each variation. -/
theorem Expandable.enumeration_eq_loops {n : Node} (h : n.Expandable) :
    (∀ amount g, ((Draw.pulls Enumeration.next amount (.ofNode n)).run g).1 =
        ((Draw.pulls Feed.pull amount n.loops).run g).1) ∧
      (n.count ≠ 0 → ∀ amount, Draw.pulls Enumeration.next amount (.ofNode n) =
        Draw.pulls Feed.pull amount n.loops) := by
  refine ⟨h.run_pulls, fun nonzero amount => ?_⟩
  rw [Enumeration.ofNode, (h.tracks nonzero).pulls_eq, h.remaining_fresh]

theorem enumeration_eq_loops_drawnWithFlag :
    drawnWithFlag.Expandable ∧ drawnWithFlag.count ≠ 0 ∧
      ∀ amount, Draw.pulls Enumeration.next amount (.ofNode drawnWithFlag) =
        Draw.pulls Feed.pull amount drawnWithFlag.loops :=
  ⟨expandable_drawnWithFlag, by decide,
    (Expandable.enumeration_eq_loops expandable_drawnWithFlag).2 (by decide)⟩

end Node

end ArenaVariations
