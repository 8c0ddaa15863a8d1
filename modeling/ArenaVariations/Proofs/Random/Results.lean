import ArenaVariations.Random.Draw

/-!
# Results of computations that draw

A computation that draws is a tree of choices with its results at the leaves, so what holds of
its result whatever is drawn is a statement about all leaves. `Draw.Always` is such a statement,
and `bind_congr_of_always` lets a continuation be replaced by one that agrees with it on the
results that can occur. A run with a generator ends at one of the leaves.
-/

namespace ArenaVariations

open ArenaVariations.Random (Generator)

namespace Draw

variable {α β : Type}

/-- A property holds of the result, whatever is drawn. -/
def Always (P : α → Prop) : Draw α → Prop
  | pure a => P a
  | choose _ next => ∀ i, (next i).Always P

@[simp] theorem always_pure {P : α → Prop} {a : α} :
    (Pure.pure a : Draw α).Always P ↔ P a := Iff.rfl

theorem Always.of_forall {P : α → Prop} (h : ∀ a, P a) (d : Draw α) : d.Always P := by
  induction d with
  | pure a => exact h a
  | choose last next ih => exact ih

theorem Always.mono {P Q : α → Prop} {d : Draw α} (h : d.Always P) (imp : ∀ a, P a → Q a) :
    d.Always Q := by
  induction d with
  | pure a => exact imp a h
  | choose last next ih => exact fun i => ih i (h i)

theorem Always.and {P Q : α → Prop} {d : Draw α} (h : d.Always P) (h' : d.Always Q) :
    d.Always fun a => P a ∧ Q a := by
  induction d with
  | pure a => exact ⟨h, h'⟩
  | choose last next ih => exact fun i => ih i (h i) (h' i)

/-- A sequence always ends well if its second part does after every result of the first. -/
@[simp] theorem always_bind {P : β → Prop} {d : Draw α} {f : α → Draw β} :
    (d >>= f).Always P ↔ d.Always fun a => (f a).Always P := by
  induction d with
  | pure a => exact Iff.rfl
  | choose last next ih => exact forall_congr' ih

@[simp] theorem always_map {P : β → Prop} {d : Draw α} {f : α → β} :
    (f <$> d).Always P ↔ d.Always fun a => P (f a) := by
  rw [← bind_pure_comp, always_bind]
  exact Iff.rfl

/-- Continuations that agree on all results that can occur give the same computation. -/
theorem bind_congr_of_always {d : Draw α} {f g : α → Draw β}
    (h : d.Always fun a => f a = g a) : d >>= f = d >>= g := by
  induction d with
  | pure a => exact h
  | choose last next ih => exact congrArg (choose last) (funext fun i => ih i (h i))

theorem map_congr_of_always {d : Draw α} {f g : α → β} (h : d.Always fun a => f a = g a) :
    f <$> d = g <$> d := by
  rw [← bind_pure_comp, ← bind_pure_comp]
  exact bind_congr_of_always (h.mono fun a same => congrArg Pure.pure same)

/-- A run with a generator has one of the results. -/
theorem Always.run {P : α → Prop} {d : Draw α} (h : d.Always P) (g : Generator) :
    P (d.run g).1 := by
  induction d generalizing g with
  | pure a => exact h
  | choose last next ih =>
    rw [Draw.run]
    exact ih (g.draw last).1 (h (g.draw last).1) (g.draw last).2

theorem run_map (f : α → β) (d : Draw α) (g : Generator) :
    (f <$> d).run g = (f (d.run g).1, (d.run g).2) := by
  rw [← bind_pure_comp]
  exact run_bind d _ g

end Draw

end ArenaVariations
