import ArenaVariations.Generation
import ArenaVariations.Proofs.Random.Results

/-!
# Feeds

A `Feed` is a finite stream of items between which choices are asked for: what a loop hands out
that draws as it goes. Feeds form a monad in which `bind` runs a loop inside of another one, anew
for each item of the outer one, so nested loops are written with `do`.

`Feed.pull` takes the next item and leaves the rest, as a consumer of a lazy stream does, and asks
for the choices before this item and no others. `Feed.Emits` says how many items a feed hands out,
whatever is chosen, and that it does not fail; a feed that hands out any has a next item, which is
what decides between the two ways in which a loop can end.
-/

namespace ArenaVariations

open ArenaVariations.Random (Generator)

namespace Draw

variable {σ α : Type}

/-- What so many steps of a stream give, without the stream behind them. -/
def pulls (next : σ → Draw (Pull α × σ)) (amount : Nat) (state : σ) : Draw (List (Pull α)) :=
  Prod.fst <$> steps next amount state

@[simp] theorem pulls_zero (next : σ → Draw (Pull α × σ)) (state : σ) :
    pulls next 0 state = Pure.pure [] := rfl

theorem pulls_succ (next : σ → Draw (Pull α × σ)) (amount : Nat) (state : σ) :
    pulls next (amount + 1) state = next state >>= fun
      | (.done, _) => Pure.pure [.done]
      | (pull, state) => (pull :: ·) <$> pulls next amount state := by
  rw [pulls, steps, map_bind]
  refine bind_congr fun step => ?_
  obtain ⟨pull, state⟩ := step
  cases pull <;> simp [pulls, ← bind_pure_comp]

end Draw

/-- A stream of items between which choices are asked for. A failure ends it. -/
inductive Feed (α : Type) where
  | done
  | failed (error : Error)
  | emit (item : α) (rest : Feed α)
  | choose (last : Nat) (next : Fin (last + 1) → Feed α)

namespace Feed

variable {α β : Type}

/-- One feed and then another one. -/
def append : Feed α → Feed α → Feed α
  | done, g => g
  | failed e, _ => failed e
  | emit a rest, g => emit a (rest.append g)
  | choose last next, g => choose last fun i => (next i).append g

instance : Append (Feed α) := ⟨append⟩

/-- Run a loop inside of another one. -/
def bind : Feed α → (α → Feed β) → Feed β
  | done, _ => done
  | failed e, _ => failed e
  | emit a rest, f => f a ++ rest.bind f
  | choose last next, f => choose last fun i => (next i).bind f

instance : Monad Feed where
  pure a := emit a done
  bind := bind

/-- The members of a list in order. -/
def ofList : List α → Feed α
  | [] => done
  | a :: as => emit a (ofList as)

/-- Draw, and go on with the result. -/
def after : Draw β → (β → Feed α) → Feed α
  | .pure b, f => f b
  | .choose last next, f => choose last fun i => after (next i) f

/-- So many results of a computation that draws, each drawn when its turn comes. -/
def repeatedly (d : Drawing α) : Nat → Feed α
  | 0 => done
  | amount + 1 => after d.run fun
    | .ok a => emit a (repeatedly d amount)
    | .error e => failed e

/-- The next item, and the feed behind it. -/
def pull : Feed α → Draw (Pull α × Feed α)
  | done => return (.done, done)
  | failed e => return (.failed e, done)
  | emit a rest => return (.item a, rest)
  | choose last next => .choose last fun i => (next i).pull

/-- Go on behind the first item of a feed. Without a first item there is no way on. -/
def resume (f : α × Feed α → Draw (Pull β × Feed β)) :
    Pull α × Feed α → Draw (Pull β × Feed β)
  | (.done, _) => return (.done, done)
  | (.failed e, _) => return (.failed e, done)
  | (.item a, rest) => f (a, rest)

/-- The items behind a choice are pulled once the choice is made. -/
theorem pull_append (f g : Feed α) :
    (f ++ g).pull = f.pull >>= fun
      | (.done, _) => g.pull
      | (.failed e, _) => return (.failed e, done)
      | (.item a, rest) => return (.item a, rest ++ g) := by
  induction f with
  | done => rfl
  | failed e => rfl
  | emit a rest => rfl
  | choose last next ih => exact congrArg (Draw.choose last) (funext ih)

/-- The first item of nested loops is the first one of the inner loop for the first item of the
outer one, or lies behind these. -/
theorem pull_bind (f : Feed α) (g : α → Feed β) :
    (f >>= g).pull = f.pull >>= resume fun p => (g p.1 ++ (p.2 >>= g)).pull := by
  induction f with
  | done => rfl
  | failed e => rfl
  | emit a rest => rfl
  | choose last next ih => exact congrArg (Draw.choose last) (funext ih)

theorem pull_map (f : Feed α) (g : α → β) :
    (g <$> f).pull = (fun p => (p.1.map g, g <$> p.2)) <$> f.pull := by
  induction f with
  | done => rfl
  | failed e => rfl
  | emit a rest => rfl
  | choose last next ih => exact congrArg (Draw.choose last) (funext ih)

theorem pull_after (d : Draw β) (f : β → Feed α) :
    (after d f).pull = d >>= fun b => (f b).pull := by
  induction d with
  | pure b => rfl
  | choose last next ih => exact congrArg (Draw.choose last) (funext ih)

theorem ofList_append (as bs : List α) : ofList as ++ ofList bs = ofList (as ++ bs) := by
  induction as with
  | nil => rfl
  | cons a as ih => exact congrArg (emit a) ih

/-- Nested loops over lists. -/
theorem ofList_bind (as : List α) (f : α → List β) :
    (ofList as >>= fun a => ofList (f a)) = ofList (as.flatMap f) := by
  induction as with
  | nil => rfl
  | cons a as ih =>
    rw [List.flatMap_cons, ← ofList_append, ← ih]
    rfl

theorem map_ofList (f : α → β) (as : List α) : f <$> ofList as = ofList (as.map f) := by
  rw [List.map_eq_flatMap, ← ofList_bind]
  rfl

/-- Pulling from a list draws nothing. -/
theorem pulls_ofList (as : List α) (amount : Nat) :
    Draw.pulls pull amount (ofList as) =
      pure ((as.map Pull.item ++ [Pull.done]).take amount) := by
  induction amount generalizing as with
  | zero => rfl
  | succ amount ih =>
    rw [Draw.pulls_succ]
    cases as with
    | nil => simp [ofList, pull]
    | cons a as => simp [ofList, pull, ih]

/-- The feed hands out exactly so many items and does not fail, whatever is chosen. -/
def Emits : Feed α → Nat → Prop
  | done, amount => amount = 0
  | failed _, _ => False
  | emit _ _, 0 => False
  | emit _ rest, amount + 1 => rest.Emits amount
  | choose _ next, amount => ∀ i, (next i).Emits amount

theorem emits_append {f g : Feed α} {m n : Nat} (hf : f.Emits m) (hg : g.Emits n) :
    (f ++ g).Emits (m + n) := by
  induction f generalizing m with
  | done =>
    obtain rfl : m = 0 := hf
    rw [Nat.zero_add]
    exact hg
  | failed e => exact hf.elim
  | emit a rest ih =>
    cases m with
    | zero => exact hf.elim
    | succ m =>
      rw [Nat.succ_add]
      exact ih hf
  | choose last next ih => exact fun i => ih i (hf i)

/-- Nested loops multiply. -/
theorem emits_bind {f : Feed α} {g : α → Feed β} {m n : Nat} (hf : f.Emits m)
    (hg : ∀ a, (g a).Emits n) : (f >>= g).Emits (m * n) := by
  induction f generalizing m with
  | done =>
    obtain rfl : m = 0 := hf
    exact Nat.zero_mul n
  | failed e => exact hf.elim
  | emit a rest ih =>
    cases m with
    | zero => exact hf.elim
    | succ m =>
      rw [Nat.succ_mul, Nat.add_comm]
      exact emits_append (hg a) (ih hf)
  | choose last next ih => exact fun i => ih i (hf i)

theorem emits_pure (a : α) : (pure a : Feed α).Emits 1 := rfl

theorem emits_map {f : Feed α} {g : α → β} {m : Nat} (hf : f.Emits m) : (g <$> f).Emits m := by
  have h : (g <$> f).Emits (m * 1) := emits_bind hf fun a => emits_pure (g a)
  rwa [Nat.mul_one] at h

theorem emits_ofList (as : List α) : (ofList as).Emits as.length := by
  induction as with
  | nil => rfl
  | cons a as ih => exact ih

theorem emits_after {d : Draw β} {f : β → Feed α} {m : Nat}
    (h : d.Always fun b => (f b).Emits m) : (after d f).Emits m := by
  induction d with
  | pure b => exact h
  | choose last next ih => exact fun i => ih i (h i)

/-- Every draw that cannot fail gives an item. -/
theorem emits_repeatedly {d : Drawing α} (h : d.run.Always fun r => ∃ a, r = .ok a)
    (amount : Nat) : (repeatedly d amount).Emits amount := by
  induction amount with
  | zero => rfl
  | succ amount ih =>
    refine emits_after (h.mono ?_)
    rintro _ ⟨a, rfl⟩
    exact ih

/-- A feed with items has a first one, whatever is chosen before it. -/
theorem pull_of_emits_succ {f : Feed α} {m : Nat} (h : f.Emits (m + 1)) :
    f.pull.Always fun p => ∃ a rest, p = (.item a, rest) ∧ rest.Emits m := by
  induction f with
  | done => exact absurd h (Nat.succ_ne_zero m)
  | failed e => exact h.elim
  | emit a rest => exact ⟨a, rest, rfl, h⟩
  | choose last next ih => exact fun i => ih i (h i)

/-- What comes behind a feed with items does not matter for its first one. -/
theorem pull_append_of_emits {f : Feed α} {m : Nat} (h : f.Emits (m + 1)) (g : Feed α) :
    (f ++ g).pull = (fun p => (p.1, p.2 ++ g)) <$> f.pull := by
  rw [pull_append, ← bind_pure_comp]
  refine Draw.bind_congr_of_always ((pull_of_emits_succ h).mono ?_)
  rintro _ ⟨a, rest, rfl, -⟩
  rfl

/-- The items that a feed hands out when a generator makes the choices. -/
def items : Feed α → Generator → List α
  | done, _ => []
  | failed _, _ => []
  | emit a rest, g => a :: rest.items g
  | choose last next, g =>
    let (i, g) := g.draw last
    (next i).items g

theorem length_items {f : Feed α} {m : Nat} (h : f.Emits m) (g : Generator) :
    (f.items g).length = m := by
  induction f generalizing m g with
  | done => exact Eq.symm h
  | failed e => exact h.elim
  | emit a rest ih =>
    cases m with
    | zero => exact h.elim
    | succ m => exact congrArg Nat.succ (ih h g)
  | choose last next ih =>
    rw [items]
    exact ih (g.draw last).1 (h (g.draw last).1) (g.draw last).2

/-- Pulling from a feed gives its items in order, and then finds it done. -/
theorem run_pulls {f : Feed α} {m : Nat} (h : f.Emits m) (amount : Nat) (g : Generator) :
    ((Draw.pulls pull amount f).run g).1 =
      ((f.items g).map Pull.item ++ [Pull.done]).take amount := by
  induction f generalizing m amount g with
  | done =>
    cases amount with
    | zero => rfl
    | succ amount =>
      have first : Draw.pulls pull (amount + 1) (done : Feed α) = pure [Pull.done] :=
        Draw.pulls_succ ..
      rw [first, items, List.map_nil, List.nil_append, List.take_succ_cons, List.take_nil]
      rfl
  | failed e => exact h.elim
  | emit a rest ih =>
    cases m with
    | zero => exact h.elim
    | succ m =>
      cases amount with
      | zero => rfl
      | succ amount =>
        have first : Draw.pulls pull (amount + 1) (emit a rest) =
            (Pull.item a :: ·) <$> Draw.pulls pull amount rest := Draw.pulls_succ ..
        rw [first, Draw.run_map, ih h]
        rfl
  | choose last next ih =>
    cases amount with
    | zero => rfl
    | succ amount =>
      have first : Draw.pulls pull (amount + 1) (choose last next) =
          .choose last fun i => Draw.pulls pull (amount + 1) (next i) := by
        simp only [Draw.pulls_succ]
        rfl
      rw [first, items, Draw.run]
      exact ih (g.draw last).1 (h (g.draw last).1) (amount + 1) (g.draw last).2

end Feed

end ArenaVariations
