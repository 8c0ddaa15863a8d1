import ArenaVariations.Resolution.Settling

/-!
# Runs of settling computations

What the steps of settling do to a variation: a placeholder is decided by looking at the variation
as it is, and its value and its label are put in. A failure leaves the variation alone.
-/

namespace ArenaVariations

namespace Settling

variable {α β : Type}

theorem run_bind (x : Settling α) (f : α → Settling β) (v : Variation) :
    (x >>= f).run.run v =
      match x.run.run v with
      | (.ok a, v) => (f a).run.run v
      | (.error e, v) => (.error e, v) := by
  simp only [ExceptT.run_bind, StateT.run_bind]
  generalize x.run.run v = r
  obtain ⟨⟨⟩, v⟩ := r <;> rfl

theorem run_get (v : Variation) : (get : Settling Variation).run.run v = (.ok v, v) :=
  rfl

theorem run_liftM (x : Except Error α) (v : Variation) :
    (liftM x : Settling α).run.run v = (x, v) := by
  cases x <;> rfl

end Settling

namespace Variation

/-- A placeholder is filled in with what its conditional stands for. -/
theorem run_fill_of_ok {place : List Nat} {source : Conditional Node} {v : Variation}
    {value m : Node} {label : Option String}
    (waits : v.node.at? place = some (.placeholder source))
    (decided : source.decide v.node = .ok (value, label))
    (placed : v.node.replaceAt? place value = some m) :
    (fill place).run.run v = (.ok (), ⟨m, v.labels ++ label.toList⟩) := by
  simp only [fill, Settling.run_bind, Settling.run_get, waits, Settling.run_liftM, decided, placed]
  rfl

theorem run_fill_of_error {place : List Nat} {source : Conditional Node} {v : Variation}
    (waits : v.node.at? place = some (.placeholder source)) {e : Error}
    (failed : source.decide v.node = .error e) : (fill place).run.run v = (.error e, v) := by
  simp only [fill, Settling.run_bind, Settling.run_get, waits, Settling.run_liftM, failed]

theorem run_apply (rule : LabelRule Node) (v : Variation) :
    (apply rule).run.run v =
      match rule.decide v.node with
      | .ok label => (.ok (), { v with labels := v.labels ++ [label] })
      | .error e => (.error e, v) := by
  simp only [apply, Settling.run_bind, Settling.run_get, Settling.run_liftM]
  cases rule.decide v.node <;> rfl

/-- A loop of settling steps keeps what each of its steps keeps, whether it comes to its end or
fails on the way. -/
theorem run_forM_keeps {α : Type} {step : α → Settling Unit} (keeps : Variation → Prop)
    (each : ∀ x v, keeps v → keeps ((step x).run.run v).2) (xs : List α) {v : Variation}
    (holds : keeps v) : keeps ((xs.forM step).run.run v).2 := by
  induction xs generalizing v with
  | nil => exact holds
  | cons x xs ih =>
    have kept := each x v holds
    rw [List.forM_eq_forM] at ih ⊢
    rw [List.forM_cons, Settling.run_bind]
    generalize (step x).run.run v = r at kept ⊢
    obtain ⟨⟨⟩ | ⟨⟩, w⟩ := r
    · exact kept
    · exact ih kept

/-- Label rules change labels only. -/
theorem run_forM_apply_node (rules : List (LabelRule Node)) (v : Variation) :
    ((rules.forM apply).run.run v).2.node = v.node := by
  refine run_forM_keeps (fun u => u.node = v.node) (fun rule u same => ?_) rules rfl
  rw [run_apply]
  cases rule.decide u.node with
  | error e => exact same
  | ok label => exact same

/-- Without label rules, settling goes through the open places. -/
theorem settled_nil (v : Variation) :
    settled v [] =
      match (v.node.openPlaces.forM fun place => fill place.1).run.run v with
      | (.ok (), final) => .ok final
      | (.error e, _) => .error e := by
  simp only [settled, settle, Settling.run_bind, Settling.run_get]
  generalize (v.node.openPlaces.forM fun place => fill place.1).run.run v = r
  obtain ⟨⟨⟩, v⟩ := r <;> rfl

end Variation

end ArenaVariations
