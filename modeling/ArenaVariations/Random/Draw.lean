import ArenaVariations.Random.Generator

/-!
# Computations that draw

A `Draw` is a computation that asks for random choices. It does not say where they come from:
`Draw.run` takes them from a generator, and any other source of choices will do for reasoning
about it. A computation that asks for nothing leaves its generator as it is.
-/

namespace ArenaVariations

open ArenaVariations.Random (Generator)

/-- A computation that may choose among the numbers up to and including `last`. -/
inductive Draw (α : Type) where
  | pure (value : α)
  | choose (last : Nat) (next : Fin (last + 1) → Draw α)

namespace Draw

variable {α β : Type}

/-- Go on with the result of a computation. -/
def bind : Draw α → (α → Draw β) → Draw β
  | pure a, f => f a
  | choose last next, f => choose last fun i => (next i).bind f

instance : Monad Draw where
  pure := pure
  bind := bind

@[simp] theorem pure_bind (a : α) (f : α → Draw β) : (pure a).bind f = f a := rfl

@[simp] theorem bind_pure (d : Draw α) : d.bind pure = d := by
  induction d with
  | pure => rfl
  | choose last next ih => simp [bind, ih]

theorem bind_assoc {γ : Type} (d : Draw α) (f : α → Draw β) (g : β → Draw γ) :
    (d.bind f).bind g = d.bind fun a => (f a).bind g := by
  induction d with
  | pure => rfl
  | choose last next ih => simp [bind, ih]

instance : LawfulMonad Draw :=
  LawfulMonad.mk' Draw bind_pure (fun _ _ => rfl) bind_assoc

/-- One of the members of a list, each with the same chance. -/
def oneOf (first : α) (rest : List α) : Draw α :=
  choose rest.length fun i => pure ((first :: rest).get i)

/-- Take the choices from a generator. -/
def run : Draw α → Generator → α × Generator
  | pure a, g => (a, g)
  | choose last next, g =>
    let (i, g) := g.draw last
    (next i).run g

@[simp] theorem run_pure (a : α) (g : Generator) : (pure a).run g = (a, g) := rfl

/-- Choices are taken in the order in which they are asked for. -/
theorem run_bind (d : Draw α) (f : α → Draw β) (g : Generator) :
    (d.bind f).run g = (f (d.run g).1).run (d.run g).2 := by
  induction d generalizing g with
  | pure => rfl
  | choose last next ih => simp [bind, run, ih]

end Draw

end ArenaVariations
