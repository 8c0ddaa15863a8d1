import ArenaVariations.Proofs.Resolution.Walk

/-!
# Deciding conditionals by rules

The rules by which a conditional is decided when nothing keeps it from needing its own value:
references are looked up from left to right, a placeholder that a step leads to is decided where
it is met, and the first error is the error of the whole. The rules give a conditional one result
or none (`Evaluates.unique`); one that keeps coming back to itself has none. `Forces` says which
conditionals are met on the way, whether or not there is a result in the end, and `InProgress`
which ones have been started by then and are not yet done.
-/

namespace ArenaVariations

namespace Node

mutual

/-- Following segments from a node leads to a value or to none, or ends with an error. -/
inductive Walks (root : Node) : Node → List String → Except Error (Option Node) → Prop
  | here {n} : Walks root n [] (.ok (some n))
  | nowhere {n segment rest} (step : n.step? segment = none) :
      Walks root n (segment :: rest) (.ok none)
  | along {n next segment rest r} (step : n.step? segment = some next)
      (other : ∀ source, next ≠ placeholder source) (on : Walks root next rest r) :
      Walks root n (segment :: rest) r
  | through {n source segment rest value label r}
      (step : n.step? segment = some (placeholder source))
      (decided : Evaluates root source (.ok (value, label))) (on : Walks root value rest r) :
      Walks root n (segment :: rest) r
  | stuck {n source segment rest e} (step : n.step? segment = some (placeholder source))
      (failed : Evaluates root source (.error e)) : Walks root n (segment :: rest) (.error e)

/-- Looking a reference up gives a value, or ends with an error. -/
inductive LooksUp (root : Node) : String → Except Error Node → Prop
  | unknown {reference} (missing : root.origin? reference = none) :
      LooksUp root reference
        (.error (.unresolved (.unknownId ((Reference.segments reference).headD "") reference) none))
  | nowhere {reference start} (found : root.origin? reference = some start)
      (walk : Walks root start (Reference.segments reference).tail (.ok none)) :
      LooksUp root reference (.error (.unresolved
        (.noSuchValue reference ((Reference.segments reference).headD "")) none))
  | value {reference start value} (found : root.origin? reference = some start)
      (walk : Walks root start (Reference.segments reference).tail (.ok (some value))) :
      LooksUp root reference (.ok value)
  | failed {reference start e} (found : root.origin? reference = some start)
      (walk : Walks root start (Reference.segments reference).tail (.error e)) :
      LooksUp root reference (.error e)

/-- Looking references up one after the other gives their values, or ends with the first error. -/
inductive LooksUpAll (root : Node) : List String → Except Error (List Node) → Prop
  | nil : LooksUpAll root [] (.ok [])
  | cons {reference rest value values} (first : LooksUp root reference (.ok value))
      (others : LooksUpAll root rest (.ok values)) :
      LooksUpAll root (reference :: rest) (.ok (value :: values))
  | failed {reference rest e} (first : LooksUp root reference (.error e)) :
      LooksUpAll root (reference :: rest) (.error e)
  | later {reference rest value e} (first : LooksUp root reference (.ok value))
      (others : LooksUpAll root rest (.error e)) :
      LooksUpAll root (reference :: rest) (.error e)

/-- Deciding a conditional gives a value and a label, or ends with an error. -/
inductive Evaluates (root : Node) : Conditional Node → Except Error (Node × Option String) → Prop
  | resolved {c values r} (found : LooksUpAll root c.condition.references (.ok values))
      (outcome : c.outcome ⟨c.condition.cases.findIdx? (allSatisfy values), values⟩ = r) :
      Evaluates root c r
  | failed {c e} (found : LooksUpAll root c.condition.references (.error e)) :
      Evaluates root c (.error e)

end

/-- Following segments from a node comes to a placeholder, whose conditional is then decided. -/
inductive WalkForces (root : Node) : Node → List String → Conditional Node → Prop
  | here {n source segment rest} (step : n.step? segment = some (placeholder source)) :
      WalkForces root n (segment :: rest) source
  | along {n next segment rest d} (step : n.step? segment = some next)
      (other : ∀ source, next ≠ placeholder source) (on : WalkForces root next rest d) :
      WalkForces root n (segment :: rest) d
  | through {n source segment rest value label d}
      (step : n.step? segment = some (placeholder source))
      (decided : Evaluates root source (.ok (value, label))) (on : WalkForces root value rest d) :
      WalkForces root n (segment :: rest) d

/-- Deciding a conditional comes to another one that is then decided: the references before one are
looked up, and its walk comes to a placeholder. -/
def Forces (root : Node) (c d : Conditional Node) : Prop :=
  ∃ before reference after values start,
    c.condition.references = before ++ reference :: after ∧
      LooksUpAll root before (.ok values) ∧ root.origin? reference = some start ∧
      WalkForces root start (Reference.segments reference).tail d

/-- The conditionals that are being decided at some time while the first of them is, the last
one started in front. -/
inductive InProgress (root : Node) (c : Conditional Node) : List (Conditional Node) → Prop
  | start : InProgress root c [c]
  | deeper {d e outer} (inside : InProgress root c (d :: outer)) (forces : Forces root d e) :
      InProgress root c (e :: d :: outer)

/-- Deciding a conditional comes to one that is being decided already. -/
def Revisits (root : Node) (c e : Conditional Node) : Prop :=
  ∃ d outer, InProgress root c (d :: outer) ∧ Forces root d e ∧
    e.serial ∈ (d :: outer).map Conditional.serial

section Unique

variable {root : Node}

mutual

theorem Walks.unique {n : Node} {segments : List String} {r r' : Except Error (Option Node)}
    (h : Walks root n segments r) (h' : Walks root n segments r') : r = r' := by
  match h with
  | .here =>
    cases h'
    rfl
  | .nowhere step =>
    cases h' with
    | nowhere => rfl
    | along step' | through step' | stuck step' => cases step.symm.trans step'
  | .along step other on =>
    cases h' with
    | nowhere step' => cases step.symm.trans step'
    | along step' _ on' => exact on.unique (Option.some.inj (step'.symm.trans step) ▸ on')
    | through step' | stuck step' =>
      exact absurd (Option.some.inj (step.symm.trans step')) (other _)
  | .through step decided on =>
    cases h' with
    | nowhere step' => cases step.symm.trans step'
    | along step' other => exact absurd (Option.some.inj (step'.symm.trans step)) (other _)
    | through step' decided' on' =>
      have same := placeholder.inj (Option.some.inj (step'.symm.trans step))
      have decided' := decided.unique (same ▸ decided')
      obtain ⟨same, -⟩ := Prod.mk.inj (Except.ok.inj decided')
      exact on.unique (same ▸ on')
    | stuck step' failed =>
      have same := placeholder.inj (Option.some.inj (step'.symm.trans step))
      cases decided.unique (same ▸ failed)
  | .stuck step failed =>
    cases h' with
    | nowhere step' => cases step.symm.trans step'
    | along step' other => exact absurd (Option.some.inj (step'.symm.trans step)) (other _)
    | through step' decided =>
      have same := placeholder.inj (Option.some.inj (step'.symm.trans step))
      cases failed.unique (same ▸ decided)
    | stuck step' failed' =>
      have same := placeholder.inj (Option.some.inj (step'.symm.trans step))
      exact congrArg _ (Except.error.inj (failed.unique (same ▸ failed')))
termination_by structural h

theorem LooksUp.unique {reference : String} {r r' : Except Error Node}
    (h : LooksUp root reference r) (h' : LooksUp root reference r') : r = r' := by
  match h with
  | .unknown missing =>
    cases h' with
    | unknown => rfl
    | nowhere found | value found | failed found => cases missing.symm.trans found
  | .nowhere found walk =>
    cases h' with
    | unknown missing => cases missing.symm.trans found
    | nowhere => rfl
    | value found' walk' | failed found' walk' =>
      cases found.symm.trans found'
      cases walk.unique walk'
  | .value found walk =>
    cases h' with
    | unknown missing => cases missing.symm.trans found
    | nowhere found' walk' | failed found' walk' =>
      cases found.symm.trans found'
      cases walk.unique walk'
    | value found' walk' =>
      cases found.symm.trans found'
      cases walk.unique walk'
      rfl
  | .failed found walk =>
    cases h' with
    | unknown missing => cases missing.symm.trans found
    | nowhere found' walk' | value found' walk' =>
      cases found.symm.trans found'
      cases walk.unique walk'
    | failed found' walk' =>
      cases found.symm.trans found'
      cases walk.unique walk'
      rfl
termination_by structural h

theorem LooksUpAll.unique {references : List String} {r r' : Except Error (List Node)}
    (h : LooksUpAll root references r) (h' : LooksUpAll root references r') : r = r' := by
  match h with
  | .nil =>
    cases h'
    rfl
  | .cons first others =>
    cases h' with
    | cons first' others' =>
      cases first.unique first'
      cases others.unique others'
      rfl
    | failed first' => cases first.unique first'
    | later _ others' => cases others.unique others'
  | .failed first =>
    cases h' with
    | failed first' =>
      cases first.unique first'
      rfl
    | cons first' | later first' => cases first.unique first'
  | .later first others =>
    cases h' with
    | cons _ others' => cases others.unique others'
    | failed first' => cases first.unique first'
    | later _ others' =>
      cases others.unique others'
      rfl
termination_by structural h

/-- The rules give a conditional at most one result. -/
theorem Evaluates.unique {c : Conditional Node} {r r' : Except Error (Node × Option String)}
    (h : Evaluates root c r) (h' : Evaluates root c r') : r = r' := by
  match h with
  | .resolved found outcome =>
    cases h' with
    | resolved found' outcome' =>
      cases found.unique found'
      exact outcome.symm.trans outcome'
    | failed found' => cases found.unique found'
  | .failed found =>
    cases h' with
    | resolved found' => cases found.unique found'
    | failed found' =>
      cases found.unique found'
      rfl
termination_by structural h

end

end Unique

end Node

end ArenaVariations
