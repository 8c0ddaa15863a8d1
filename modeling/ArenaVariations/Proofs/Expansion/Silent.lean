import ArenaVariations.Proofs.Expansion.Yield

/-!
# Enumerations that draw nothing

Only restrictions draw while a tree is enumerated. Without any, a step of an enumeration is a
value and no computation, wherever its cursor stands and whatever else the tree holds: a label
rule or a placeholder just fails. So the steps of an exhaustive production draw nothing either.
-/

namespace ArenaVariations

namespace Draw

variable {σ α β : Type}

/-- A computation that asks for no choice. -/
def Silent (d : Draw α) : Prop :=
  ∃ a, d = Pure.pure a

theorem silent_pure (a : α) : (Pure.pure a : Draw α).Silent :=
  ⟨a, rfl⟩

theorem Silent.bind {d : Draw α} {f : α → Draw β} (h : d.Silent) (next : ∀ a, (f a).Silent) :
    (d >>= f).Silent := by
  obtain ⟨a, rfl⟩ := h
  exact next a

theorem Silent.map {d : Draw α} (h : d.Silent) (f : α → β) : (f <$> d).Silent := by
  obtain ⟨a, rfl⟩ := h
  exact silent_pure (f a)

/-- The steps of a stream draw nothing if an invariant says so of each of them. -/
theorem silent_steps {next : σ → Draw (Pull α × σ)} (invariant : σ → Prop)
    (step : ∀ s, invariant s → ∃ r, next s = Pure.pure r ∧ invariant r.2) (amount : Nat) {s : σ}
    (start : invariant s) : ∃ r, steps next amount s = Pure.pure r ∧ invariant r.2 := by
  induction amount generalizing s with
  | zero => exact ⟨([], s), rfl, start⟩
  | succ amount ih =>
    obtain ⟨⟨pull, t⟩, stepped, kept⟩ := step s start
    obtain ⟨⟨pulls, u⟩, rest, last⟩ := ih kept
    rw [steps, stepped, LawfulMonad.pure_bind]
    cases pull with
    | done => exact ⟨([.done], t), rfl, kept⟩
    | failed e => exact ⟨(.failed e :: pulls, u), by simp only [rest]; rfl, last⟩
    | item a => exact ⟨(.item a :: pulls, u), by simp only [rest]; rfl, last⟩

end Draw

namespace Node

theorem restartAll_silent {ns : List Node} (start : (startAll ns).Silent) (last : Turn)
    (step : Pull Variation × Cursor) : (restartAll ns last step).Silent := by
  obtain ⟨pull, cursor⟩ := step
  cases pull with
  | done | failed => exact Draw.silent_pure _
  | item v => exact start.map _

theorem startAll_silent {ns : List Node} (each : ∀ n ∈ ns, ∀ cursor, (n.advance cursor).Silent) :
    (startAll ns).Silent := by
  induction ns with
  | nil => exact Draw.silent_pure _
  | cons n ns ih =>
    obtain ⟨first, rest⟩ := List.forall_mem_cons.mp each
    rw [startAll_cons]
    exact (first .fresh).bind (restartAll_silent (ih rest) .stopped)

theorem advanceAll_silent {ns : List Node}
    (each : ∀ n ∈ ns, ∀ cursor, (n.advance cursor).Silent) (frames : List Frame) :
    (advanceAll ns frames).Silent := by
  induction ns generalizing frames with
  | nil => exact Draw.silent_pure _
  | cons n ns ih =>
    cases frames with
    | nil => exact Draw.silent_pure _
    | cons frame frames =>
      obtain ⟨first, rest⟩ := List.forall_mem_cons.mp each
      rw [advanceAll_cons]
      refine (ih rest frames).bind fun turn => ?_
      cases turn with
      | moved | stopped | failed => exact Draw.silent_pure _
      | exhausted =>
        exact (first frame.1).bind (restartAll_silent (startAll_silent rest) .exhausted)

/-- A tree without restrictions is enumerated without drawing. -/
theorem advance_silent {n : Node} (free : n.FreeOf [.restriction]) (cursor : Cursor) :
    (n.advance cursor).Silent := by
  induction n using expansion_induction generalizing cursor with
  | single n single =>
    rw [single.advance_eq]
    exact Draw.silent_pure _
  | lists n lists =>
    by_cases finished : cursor = .finished
    · subst finished
      rw [lists.advance_finished]
      exact Draw.silent_pure _
    · rw [lists.advance_eq finished]
      exact Draw.silent_pure _
  | container form children ih =>
    have each := fun n mem => ih n mem (free.child mem)
    cases cursor with
    | behind | finished => exact Draw.silent_pure _
    | fresh => exact (startAll_silent each).map _
    | within frames => exact (advanceAll_silent each frames).map _
  | repetition amount value ih =>
    rw [advance_repetition]
    exact (ih (free.child (by simp [children])) cursor).map _
  | restriction amount item => exact absurd (by simp [rule]) (freeOf_iff.mp free).1
  | labelRule | placeholder => exact Draw.silent_pure _

end Node

namespace Production

/-- An exhaustive stream over a tree without restrictions. -/
structure Quiet (p : Production) : Prop where
  mode : p.mode = .exhaustive
  free : p.template.body.FreeOf [.restriction]

theorem Quiet.next {p : Production} (h : p.Quiet) :
    ∃ r, p.next = pure r ∧ r.2.Quiet := by
  have raw : p.nextRaw = p.template.body.advance p.cursor := by simp only [nextRaw, h.mode]
  obtain ⟨⟨pull, cursor⟩, silent⟩ := Node.advance_silent h.free p.cursor
  rw [Production.next]
  cases p.remaining with
  | zero => exact ⟨(.done, p), rfl, h⟩
  | succ remaining =>
    refine ⟨(pull.bind fun v => v.settled p.template.rules, { p with remaining, cursor }), ?_,
      ⟨h.mode, h.free⟩⟩
    rw [raw, silent]
    rfl

/-- Pulling from a quiet stream draws nothing. -/
theorem Quiet.steps {p : Production} (h : p.Quiet) (amount : Nat) :
    ∃ r, Draw.steps Production.next amount p = pure r ∧ r.2.Quiet :=
  Draw.silent_steps Quiet (fun _ quiet => quiet.next) amount h

end Production

end ArenaVariations
