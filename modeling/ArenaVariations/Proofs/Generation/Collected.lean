import ArenaVariations.Generation
import ArenaVariations.Proofs.Expansion.Enumeration
import ArenaVariations.Proofs.Generation.Expanded

/-!
# Collected variations

Collecting the variations of a template gives up at the first failure. If there is none, the result
is what the stream of variations hands out, in its order. Samples are as many as were asked for. An
enumeration may end before that, but not before it has handed out as many variations as the tree
counts.
-/

namespace ArenaVariations

open ArenaVariations.Random (Generator)

theorem Draw.run_seq {α β : Type} (d : Draw α) (f : α → Draw β) (g : Generator) :
    (d >>= f).run g = (f (d.run g).1).run (d.run g).2 :=
  run_bind d f g

namespace Production

/-- The next variations, up to so many. The first failure ends them. -/
def collect : Nat → Production → Drawing (List Variation)
  | 0, _ => return []
  | amount + 1, p => do
    match ← ExceptT.lift p.next with
    | (.done, _) => return []
    | (.failed e, _) => throw e
    | (.item v, p) => return v :: (← collect amount p)

theorem collect_succ (amount : Nat) (p : Production) :
    (collect (amount + 1) p).run = p.next >>= fun
      | (.done, _) => return .ok []
      | (.failed e, _) => return .error e
      | (.item v, p) => (Except.map (v :: ·)) <$> (collect amount p).run := by
  rw [collect, ExceptT.run_bind, ExceptT.run_lift, bind_map_left]
  refine bind_congr fun step => ?_
  obtain ⟨pull, q⟩ := step
  cases pull with
  | done => rfl
  | failed e => rfl
  | item v =>
    change (collect amount q >>= fun vs => pure (v :: vs)).run = _
    rw [bind_pure_comp, ExceptT.run_map]

/-- If collecting succeeds, the stream is done, or it hands out the first variation and the others
are collected behind it. -/
theorem collect_succ_cases {amount : Nat} {p : Production} {g : Generator} {vs : List Variation}
    (collected : ((collect (amount + 1) p).run.run g).1 = .ok vs) :
    (∃ q, (p.next.run g).1 = (.done, q) ∧ vs = []) ∨
      ∃ v q ws, (p.next.run g).1 = (.item v, q) ∧
        ((collect amount q).run.run (p.next.run g).2).1 = .ok ws ∧ vs = v :: ws := by
  rw [collect_succ, Draw.run_seq] at collected
  cases first : (p.next.run g).1 with
  | mk pull q =>
    rw [first] at collected
    cases pull with
    | done =>
      cases collected
      exact .inl ⟨q, rfl, rfl⟩
    | failed e => cases collected
    | item v =>
      rw [Draw.run_map] at collected
      obtain ⟨ws, rest, rfl⟩ := map_eq_ok.mp collected
      exact .inr ⟨v, q, ws, rfl, rest, rfl⟩

/-- What is collected are the items of the stream, up to the amount or to the end of the stream. -/
theorem run_pulls_of_collect {amount : Nat} {p : Production} {g : Generator}
    {vs : List Variation} (collected : ((collect amount p).run.run g).1 = .ok vs) :
    vs.length ≤ amount ∧ ((Draw.pulls next amount p).run g).1 =
      vs.map Pull.item ++ if vs.length < amount then [Pull.done] else [] := by
  induction amount generalizing p g vs with
  | zero =>
    cases collected
    exact ⟨Nat.le_refl _, rfl⟩
  | succ amount ih =>
    rw [Draw.pulls_succ, Draw.run_seq]
    obtain ⟨q, first, rfl⟩ | ⟨v, q, ws, first, rest, rfl⟩ := collect_succ_cases collected
    · rw [first]
      exact ⟨Nat.zero_le _, rfl⟩
    · obtain ⟨few, pulled⟩ := ih rest
      rw [first]
      change _ ∧ (((Pull.item v :: ·) <$> Draw.pulls next amount q).run _).1 = _
      rw [Draw.run_map, pulled, List.map_cons, List.length_cons, List.cons_append]
      simp only [Nat.add_lt_add_iff_right, and_true]
      exact Nat.succ_le_succ few

/-- A stream of samples does not end before its amount. -/
theorem next_sample {p : Production} (sampling : p.mode = .sample) {remaining : Nat}
    (more : p.remaining = remaining + 1) :
    p.next.Always fun step => step.1 ≠ .done ∧ step.2.mode = .sample ∧
      step.2.remaining = remaining := by
  have drawn : p.nextRaw = (fun r => (.ofExcept r, p.cursor)) <$> p.template.body.sample.run := by
    simp only [nextRaw, sampling, bind_pure_comp]
  rw [next, more, drawn]
  simp only [bind_map_left, Draw.always_bind]
  refine .of_forall (fun r => ⟨?_, sampling, rfl⟩) _
  cases r with
  | error e => rintro ⟨⟩
  | ok v =>
    change Pull.ofExcept (v.settled p.template.rules) ≠ .done
    cases v.settled p.template.rules <;> rintro ⟨⟩

/-- As many samples are collected as were asked for. -/
theorem length_of_collect_sample {amount : Nat} {p : Production} (sampling : p.mode = .sample)
    (enough : p.remaining = amount) {g : Generator} {vs : List Variation}
    (collected : ((collect amount p).run.run g).1 = .ok vs) : vs.length = amount := by
  induction amount generalizing p g vs with
  | zero =>
    cases collected
    rfl
  | succ amount ih =>
    have step := (next_sample sampling enough).run g
    obtain ⟨q, first, rfl⟩ | ⟨v, q, ws, first, rest, rfl⟩ := collect_succ_cases collected
    · rw [first] at step
      exact absurd rfl step.1
    · rw [first] at step
      rw [List.length_cons, ih step.2.1 step.2.2 rest]

/-- An exhaustive stream settles the variations of an enumeration, one by one. -/
theorem pulls_exhaustive {amount : Nat} {p : Production} (exhaustive : p.mode = .exhaustive)
    (enough : amount ≤ p.remaining) :
    Draw.pulls next amount p =
      List.map (fun pull => pull.bind fun v => v.settled p.template.rules) <$>
        Draw.pulls Enumeration.next amount ⟨p.template.body, p.cursor⟩ := by
  induction amount generalizing p with
  | zero => rfl
  | succ amount ih =>
    obtain ⟨remaining, more⟩ := Nat.exists_eq_add_of_le' enough
    have moved : p.nextRaw = p.template.body.advance p.cursor := by
      simp only [nextRaw, exhaustive]
    have step : p.next = p.template.body.advance p.cursor >>= fun raw =>
        pure (raw.1.bind fun v => v.settled p.template.rules,
          { p with remaining := remaining + amount, cursor := raw.2 }) := by
      rw [next, more, moved]
      rfl
    rw [Draw.pulls_succ, Draw.pulls_succ, step, Enumeration.next]
    simp only [bind_assoc, pure_bind, map_bind]
    refine bind_congr fun raw => ?_
    obtain ⟨pull, cursor⟩ := raw
    have rest := ih (p := { p with remaining := remaining + amount, cursor := cursor }) exhaustive
      (Nat.le_add_left _ _)
    cases pull with
    | done => rfl
    | failed e =>
      change (Pull.failed e :: ·) <$> Draw.pulls next amount _ = _
      rw [rest, Functor.map_map, Functor.map_map]
      rfl
    | item v =>
      cases settled : v.settled p.template.rules with
      | error e =>
        simp only [Pull.bind, settled, Pull.ofExcept]
        rw [rest, Functor.map_map, Functor.map_map]
        simp only [List.map_cons, Pull.bind, settled, Pull.ofExcept]
      | ok w =>
        simp only [Pull.bind, settled, Pull.ofExcept]
        rw [rest, Functor.map_map, Functor.map_map]
        simp only [List.map_cons, Pull.bind, settled, Pull.ofExcept]

/-- An enumeration of a readable tree does not end before it has handed out as many variations as
the tree counts, unless a step fails. -/
theorem done_not_mem_pulls {n : Node} (readable : n.Readable) {amount : Nat}
    (counted : amount ≤ n.count) {g : Generator}
    (unfailing : ∀ e, ((Draw.pulls Enumeration.next amount (.ofNode n)).run g).1.head? ≠
      some (.failed e)) :
    Pull.done ∉ ((Draw.pulls Enumeration.next amount (.ofNode n)).run g).1 := by
  cases amount with
  | zero => exact List.not_mem_nil
  | succ amount =>
    have first : ((Draw.pulls Enumeration.next (amount + 1) (.ofNode n)).run g).1.head? =
        some ((n.advance .fresh).run g).1.1 := by
      have moved : ((Enumeration.ofNode n).next.run g).1.1 = ((n.advance .fresh).run g).1.1 := by
        rw [Enumeration.next, Draw.run_seq]
        rfl
      rw [Draw.pulls_succ, Draw.run_seq, ← moved]
      obtain ⟨⟨pull, e⟩, g'⟩ := (Enumeration.ofNode n).next.run g
      cases pull with
      | done => rfl
      | failed | item =>
        simp only [Draw.run_map]
        rfl
    cases pull : ((n.advance .fresh).run g).1.1 with
    | done =>
      have zero := readable.built.count_eq_zero_of_done.run g pull
      omega
    | failed e => exact absurd (first.trans (congrArg some pull)) (unfailing e)
    | item v =>
      have yields := ((n.advance_proper .fresh (n.fits_fresh)).run g).2 v pull
      have expandable := readable.expandable_of_yields yields
      obtain ⟨m, emits, whole⟩ := expandable.exists_emits_loops
      have enough : amount + 1 ≤ ((n.loops.items g).map Pull.item).length := by
        rw [List.length_map, Feed.length_items emits]
        omega
      rw [expandable.run_pulls, Feed.run_pulls emits, List.take_append_of_le_length enough]
      intro mem
      obtain ⟨w, -, same⟩ := List.mem_map.mp (List.mem_of_mem_take mem)
      cases same

/-- All variations that a readable tree counts are collected, up to the amount. -/
theorem length_of_collect_exhaustive {t : Template} (readable : t.body.Readable) {amount : Nat}
    (counted : amount ≤ t.body.count) {g : Generator} {vs : List Variation}
    (collected : ((collect amount (.ofTemplate t .exhaustive amount)).run.run g).1 = .ok vs) :
    vs.length = amount := by
  obtain ⟨few, pulled⟩ := run_pulls_of_collect collected
  apply Nat.le_antisymm few
  by_contra missing
  have raw : (((Draw.pulls Enumeration.next amount (.ofNode t.body)).run g).1.map fun pull =>
      pull.bind fun v => v.settled t.rules) = vs.map Pull.item ++ [Pull.done] := by
    rw [if_pos (Nat.lt_of_not_le missing)] at pulled
    rw [← pulled, pulls_exhaustive rfl (Nat.le_refl amount), Draw.run_map]
    rfl
  have settled_done : ∀ pull : Pull Variation,
      (pull.bind fun v => v.settled t.rules) = .done → pull = .done := by
    intro pull done
    cases pull with
    | done => rfl
    | failed e => cases done
    | item v =>
      cases result : v.settled t.rules <;> simp [Pull.bind, result, Pull.ofExcept] at done
  apply done_not_mem_pulls readable counted (g := g)
  · intro e failed
    have head := congrArg List.head? raw
    rw [List.head?_map, failed] at head
    cases vs <;> cases head
  · have last : Pull.done ∈ vs.map Pull.item ++ [Pull.done] :=
      List.mem_append_right _ (List.mem_singleton_self _)
    rw [← raw] at last
    obtain ⟨pull, mem, done⟩ := List.mem_map.mp last
    rw [← settled_done pull done]
    exact mem

end Production

end ArenaVariations
