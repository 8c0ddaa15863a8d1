import ArenaVariations.Proofs.Expansion.Loops

/-!
# Cursors and the loops behind them

A cursor stands for the part of a tree's loops that is still to come, `Node.remaining`. For a
container within its combinations this is what the later children still have to give for the
current variation of a child, followed by that child's further variations, each with the later
children started afresh.

Moving a cursor on is then pulling from the remaining loops: `Expandable.tracks`. The two agree
as computations, so they ask for the same choices at the same time. The tree's count must not be
zero for this. A container whose innermost loops are all empty gives up after the first round,
while the outer loops would go on and draw for nothing.
-/

namespace ArenaVariations

namespace Node

mutual

/-- What the loops of a tree still hand out behind a cursor. -/
def remaining : Node → Cursor → Feed Variation
  | container form children, .within frames =>
    Variation.gather form <$> remainingAll children frames
  | repetition amount value, cursor => Variation.repeated amount <$> value.remaining cursor
  | restriction _ _, .finished => .done
  | restriction amount item, cursor => .repeatedly item.sample (amount.toNat - cursor.position)
  | n@(choice _), cursor | n@(labelledChoice _), cursor | n@(palette _), cursor
  | n@(scaled ..), cursor =>
    match cursor with
    | .finished => .done
    | _ => .ofList (n.alternatives.drop cursor.position)
  | n, .fresh => n.loops
  | _, _ => .done

/-- What the loops of trees still hand out behind the current combination. -/
def remainingAll : List Node → List Frame → Feed (List Variation)
  | n :: ns, (cursor, v) :: frames =>
    ((v :: ·) <$> remainingAll ns frames) ++
      (n.remaining cursor >>= fun v => (v :: ·) <$> loopsAll ns)
  | _, _ => .done

end

theorem Single.remaining_eq {n : Node} (h : n.Single) (cursor : Cursor) :
    n.remaining cursor = match cursor with
      | .fresh => pure n.only
      | _ => .done := by
  cases h <;> cases cursor <;> rfl

theorem Lists.remaining_finished {n : Node} (h : n.Lists) : n.remaining .finished = .done := by
  cases h <;> rfl

theorem Lists.remaining_eq {n : Node} (h : n.Lists) {cursor : Cursor}
    (unfinished : cursor ≠ .finished) :
    n.remaining cursor = .ofList (n.alternatives.drop cursor.position) := by
  cases h <;> cases cursor <;> first | rfl | exact absurd rfl unfinished

theorem remaining_restriction {amount : UInt64} {item : Node} {cursor : Cursor}
    (unfinished : cursor ≠ .finished) :
    (restriction amount item).remaining cursor =
      .repeatedly item.sample (amount.toNat - cursor.position) := by
  cases cursor <;> first | rfl | exact absurd rfl unfinished

theorem remaining_repetition (amount : UInt64) (value : Node) (cursor : Cursor) :
    (repetition amount value).remaining cursor =
      Variation.repeated amount <$> value.remaining cursor := by
  cases cursor <;> rfl

/-- A fresh cursor has all of the loops before it. -/
theorem Expandable.remaining_fresh {n : Node} (h : n.Expandable) :
    n.remaining .fresh = n.loops := by
  induction h using Expandable.induction with
  | single n _ single => rw [single.remaining_eq, single.loops_eq]
  | lists n _ lists => rw [lists.remaining_eq (by simp), lists.loops_eq]; rfl
  | container form children _ _ => rfl
  | repetition amount value _ ih => rw [remaining_repetition, ih, loops_repetition]
  | restriction amount item _ _ => rfl

/-- Moving the cursor of a tree is pulling from what its loops still hand out. -/
def Tracks (n : Node) : Prop :=
  ∀ cursor, (fun p => (p.1, n.remaining p.2)) <$> n.advance cursor = (n.remaining cursor).pull

theorem Single.tracks {n : Node} (h : n.Single) : n.Tracks := by
  intro cursor
  rw [h.advance_eq, h.remaining_eq]
  cases cursor with
  | fresh =>
    simp [once, h.remaining_eq, Pull.ofExcept]
    rfl
  | behind | within | finished => simp [once, h.remaining_eq, Feed.pull]

theorem Lists.tracks {n : Node} (h : n.Lists) : n.Tracks := by
  intro cursor
  by_cases finished : cursor = .finished
  · subst finished
    rw [h.advance_finished, h.remaining_finished, map_pure, h.remaining_finished]
    rfl
  · rw [h.advance_eq finished, h.remaining_eq finished, step]
    rcases Nat.lt_or_ge cursor.position n.alternatives.length with before | behind
    · rw [List.getElem?_eq_getElem before, List.drop_eq_getElem_cons before]
      simp [h.remaining_eq, Feed.ofList, Feed.pull, Cursor.position]
    · rw [List.getElem?_eq_none behind, List.drop_eq_nil_of_le behind]
      simp [h.remaining_finished, Feed.ofList, Feed.pull]

theorem Tracks.repetition {value : Node} (h : value.Tracks) (amount : UInt64) :
    (repetition amount value).Tracks := by
  intro cursor
  rw [advance_repetition, remaining_repetition, Feed.pull_map, ← h cursor, Functor.map_map,
    Functor.map_map]
  simp only [remaining_repetition]

theorem tracks_restriction {item : Node} (h : item.Expandable) (amount : UInt64) :
    (restriction amount item).Tracks := by
  intro cursor
  by_cases finished : cursor = .finished
  · subst finished
    rfl
  · rw [advance_restriction amount item finished, remaining_restriction finished]
    rcases Nat.lt_or_ge cursor.position amount.toNat with before | behind
    · have left : amount.toNat - cursor.position = amount.toNat - (cursor.position + 1) + 1 := by
        omega
      rw [if_pos before, left, Feed.repeatedly, Feed.pull_after, Functor.map_map,
        ← bind_pure_comp]
      refine Draw.bind_congr_of_always (h.sample_always_ok.mono ?_)
      rintro _ ⟨v, rfl⟩
      rfl
    · rw [if_neg (Nat.not_lt.mpr behind), Nat.sub_eq_zero_of_le behind]
      rfl

/-- A tree whose cursors track its loops, and whose loops have items. -/
structure Live (n : Node) : Prop where
  tracks : n.Tracks
  fresh : n.remaining .fresh = n.loops
  emits : ∃ m, n.loops.Emits (m + 1)

theorem exists_emits_succ_loopsAll {ns : List Node} (live : ∀ n ∈ ns, n.Live) :
    ∃ m, (loopsAll ns).Emits (m + 1) := by
  induction ns with
  | nil => exact ⟨0, Feed.emits_pure []⟩
  | cons n ns ih =>
    obtain ⟨m, emits⟩ := (live n List.mem_cons_self).emits
    obtain ⟨ms, emitsAll⟩ := ih fun k mem => live k (List.mem_cons_of_mem n mem)
    refine ⟨m * (ms + 1) + ms, ?_⟩
    have product := Feed.emits_bind emits fun v => Feed.emits_map (g := (v :: ·)) emitsAll
    rwa [Nat.succ_mul] at product

end Node

/-- What the turn of a container's children gives, and what is still to come behind it. -/
def Turn.view (ns : List Node) : Turn → Pull (List Variation) × Feed (List Variation)
  | .moved frames => (.item (frames.map Prod.snd), Node.remainingAll ns frames)
  | .exhausted | .stopped => (.done, .done)
  | .failed e => (.failed e, .done)

namespace Node

/-- Start the trees behind one that has been moved on, or end with a given turn. -/
def restartAll (ns : List Node) (last : Turn) : Pull Variation × Cursor → Draw Turn
  | (.item v, cursor) => Turn.cons (cursor, v) <$> startAll ns
  | (.failed e, _) => return .failed e
  | (.done, _) => return last

theorem startAll_cons (n : Node) (ns : List Node) :
    startAll (n :: ns) = n.advance .fresh >>= restartAll ns .stopped := by
  rw [startAll]
  refine bind_congr fun p => ?_
  obtain ⟨pull, cursor⟩ := p
  cases pull <;> rfl

theorem advanceAll_cons (n : Node) (ns : List Node) (frame : Frame) (frames : List Frame) :
    advanceAll (n :: ns) (frame :: frames) = advanceAll ns frames >>= fun
      | .exhausted => n.advance frame.1 >>= restartAll ns .exhausted
      | turn => return turn.cons frame := by
  rw [advanceAll]
  refine bind_congr fun turn => ?_
  cases turn with
  | exhausted =>
    refine bind_congr fun p => ?_
    obtain ⟨pull, cursor⟩ := p
    cases pull <;> rfl
  | moved | stopped | failed => rfl

/-- Trees that have items start with a full combination. -/
theorem startAll_moved {ns : List Node} (live : ∀ n ∈ ns, n.Live)
    (viewed : Turn.view ns <$> startAll ns = (loopsAll ns).pull) :
    (startAll ns).Always fun turn => ∃ frames, turn = .moved frames := by
  obtain ⟨m, emits⟩ := exists_emits_succ_loopsAll live
  have first := Feed.pull_of_emits_succ emits
  rw [← viewed, Draw.always_map] at first
  refine first.mono ?_
  rintro turn ⟨vs, rest, item, -⟩
  cases turn with
  | moved frames => exact ⟨frames, rfl⟩
  | exhausted | stopped | failed => simp [Turn.view] at item

/-- Moving one tree on and starting the later ones is pulling from the loop over this tree with
the loops over the later ones inside. -/
theorem view_restartAll {n : Node} {ns : List Node} (tracks : n.Tracks)
    (live : ∀ m ∈ ns, m.Live) (viewed : Turn.view ns <$> startAll ns = (loopsAll ns).pull)
    (cursor : Cursor) {last : Turn} (ended : last.view (n :: ns) = (.done, .done)) :
    Turn.view (n :: ns) <$> (n.advance cursor >>= restartAll ns last) =
      (n.remaining cursor >>= fun v => (v :: ·) <$> loopsAll ns).pull := by
  rw [Feed.pull_bind, ← tracks cursor, bind_map_left, map_bind]
  refine bind_congr fun p => ?_
  obtain ⟨pull, next⟩ := p
  cases pull with
  | done => rw [restartAll, map_pure, ended]; rfl
  | failed e => rfl
  | item v =>
    obtain ⟨m, emits⟩ := exists_emits_succ_loopsAll live
    -- The later trees have items, so what lies behind them does not show in the first one.
    rw [Feed.resume, Feed.pull_append_of_emits (Feed.emits_map emits), Feed.pull_map, ← viewed,
      restartAll, Functor.map_map, Functor.map_map, Functor.map_map]
    refine Draw.map_congr_of_always ((startAll_moved live viewed).mono ?_)
    rintro _ ⟨frames, rfl⟩
    rfl

theorem view_startAll {ns : List Node} (live : ∀ n ∈ ns, n.Live) :
    Turn.view ns <$> startAll ns = (loopsAll ns).pull := by
  induction ns with
  | nil => rfl
  | cons n ns ih =>
    have here := live n List.mem_cons_self
    have later : ∀ k ∈ ns, k.Live := fun k mem => live k (List.mem_cons_of_mem n mem)
    rw [startAll_cons, view_restartAll here.tracks later (ih later) .fresh rfl, here.fresh,
      loopsAll_cons]

/-- Moving on never ends with a child that has no variation. -/
theorem advanceAll_not_stopped {ns : List Node} (live : ∀ n ∈ ns, n.Live)
    (frames : List Frame) : (advanceAll ns frames).Always (· ≠ .stopped) := by
  induction ns generalizing frames with
  | nil => simp [advanceAll]
  | cons n ns ih =>
    cases frames with
    | nil => simp [advanceAll]
    | cons frame frames =>
      have later : ∀ k ∈ ns, k.Live := fun k mem => live k (List.mem_cons_of_mem n mem)
      rw [advanceAll_cons, Draw.always_bind]
      refine (ih later frames).mono fun turn unstopped => ?_
      cases turn with
      | moved | failed => simp [Turn.cons]
      | stopped => exact absurd rfl unstopped
      | exhausted =>
        rw [Draw.always_bind]
        refine .of_forall (fun p => ?_) _
        obtain ⟨pull, next⟩ := p
        cases pull with
        | done | failed => simp [restartAll]
        | item v =>
          rw [restartAll, Draw.always_map]
          refine (startAll_moved later (view_startAll later)).mono ?_
          rintro _ ⟨frames, rfl⟩
          simp [Turn.cons]

theorem view_advanceAll {ns : List Node} (live : ∀ n ∈ ns, n.Live) (frames : List Frame) :
    Turn.view ns <$> advanceAll ns frames = (remainingAll ns frames).pull := by
  induction ns generalizing frames with
  | nil => rfl
  | cons n ns ih =>
    cases frames with
    | nil => rfl
    | cons frame frames =>
      have here := live n List.mem_cons_self
      have later : ∀ k ∈ ns, k.Live := fun k mem => live k (List.mem_cons_of_mem n mem)
      obtain ⟨cursor, v⟩ := frame
      rw [advanceAll_cons, map_bind, remainingAll, Feed.pull_append, Feed.pull_map,
        ← ih later frames, Functor.map_map, bind_map_left]
      refine Draw.bind_congr_of_always
        ((advanceAll_not_stopped later frames).mono fun turn unstopped => ?_)
      cases turn with
      | moved | failed => rfl
      | stopped => exact absurd rfl unstopped
      | exhausted =>
        exact view_restartAll here.tracks later (view_startAll later) cursor rfl

theorem pull_view (form : Form) (children : List Node) (turn : Turn) :
    ((turn.pull form).1, (container form children).remaining (turn.pull form).2) =
      ((turn.view children).1.map (Variation.gather form),
        Variation.gather form <$> (turn.view children).2) := by
  cases turn <;> rfl

/-- A container tracks its loops if its children do. -/
theorem tracks_container {children : List Node} (live : ∀ n ∈ children, n.Live) (form : Form) :
    (container form children).Tracks := by
  intro cursor
  cases cursor with
  | behind | finished => rfl
  | fresh =>
    have whole : (container form children).remaining .fresh =
        Variation.gather form <$> loopsAll children := rfl
    rw [advance_container_fresh, whole, Feed.pull_map, ← view_startAll live, Functor.map_map,
      Functor.map_map]
    simp only [pull_view]
  | within frames =>
    have whole : (container form children).remaining (.within frames) =
        Variation.gather form <$> remainingAll children frames := rfl
    rw [advance_container_within, whole, Feed.pull_map, ← view_advanceAll live, Functor.map_map,
      Functor.map_map]
    simp only [pull_view]

/-- A product of counts is zero if one of them is: being cut off at the limit does not hide a
later zero. -/
theorem countAll_eq_zero_iff {product : Nat} {ns : List Node} :
    countAll product ns = 0 ↔ product = 0 ∨ ∃ n ∈ ns, n.count = 0 := by
  induction ns generalizing product with
  | nil => simp [countAll]
  | cons n ns ih =>
    have limit : countLimit ≠ 0 := by decide
    have factor : min countLimit (product * n.count) = 0 ↔ product = 0 ∨ n.count = 0 := by
      rw [← Nat.mul_eq_zero]
      omega
    rw [countAll, ih, factor, or_assoc]
    simp

namespace Expandable

theorem exists_emits_succ {n : Node} (h : n.Expandable) (nonzero : n.count ≠ 0) :
    ∃ m, n.loops.Emits (m + 1) := by
  obtain ⟨m, emits, counted⟩ := h.exists_emits_loops
  cases m with
  | zero => exact absurd counted (by simpa using nonzero)
  | succ m => exact ⟨m, emits⟩

theorem tracks {n : Node} (h : n.Expandable) (nonzero : n.count ≠ 0) : n.Tracks := by
  induction h using Expandable.induction with
  | single n _ single => exact single.tracks
  | lists n _ lists => exact lists.tracks
  | container form children h ih =>
    refine tracks_container (fun n mem => ?_) form
    have counts : n.count ≠ 0 :=
      fun zero => nonzero (countAll_eq_zero_iff.mpr (.inr ⟨n, mem, zero⟩))
    exact ⟨ih n mem counts, (h.child mem).remaining_fresh, (h.child mem).exists_emits_succ counts⟩
  | repetition amount value _ ih => exact (ih nonzero).repetition amount
  | restriction amount item h _ => exact tracks_restriction h.item amount

/-- Without a zero among the counts, cursors track the loops at every depth. -/
theorem live {n : Node} (h : n.Expandable) (nonzero : n.count ≠ 0) : n.Live :=
  ⟨h.tracks nonzero, h.remaining_fresh, h.exists_emits_succ nonzero⟩

end Expandable

/-- A tree that counts something starts with a variation. -/
theorem Live.advance_fresh {n : Node} (h : n.Live) :
    (n.advance .fresh).Always fun p => ∃ v cursor, p = (.item v, cursor) := by
  obtain ⟨m, emits⟩ := h.emits
  have first := Feed.pull_of_emits_succ emits
  rw [← h.fresh, ← h.tracks .fresh, Draw.always_map] at first
  refine first.mono ?_
  rintro ⟨pull, cursor⟩ ⟨v, rest, same, -⟩
  exact ⟨v, cursor, by simp_all⟩

/-- Starting trees stops at the first one that has no variation. -/
theorem startAll_stopped {ns : List Node} (expandable : ∀ n ∈ ns, n.Expandable)
    (ends : ∀ n ∈ ns, n.count = 0 → (n.advance .fresh).Always fun p => p.1 = .done)
    (zero : ∃ n ∈ ns, n.count = 0) : (startAll ns).Always (· = .stopped) := by
  induction ns with
  | nil => simp at zero
  | cons n ns ih =>
    rw [startAll_cons, Draw.always_bind]
    by_cases here : n.count = 0
    · refine (ends n List.mem_cons_self here).mono ?_
      rintro ⟨pull, cursor⟩ rfl
      rfl
    · refine ((expandable n List.mem_cons_self).live here).advance_fresh.mono ?_
      rintro _ ⟨v, cursor, rfl⟩
      have later : ∃ k ∈ ns, k.count = 0 := by simpa [here] using zero
      rw [restartAll, Draw.always_map]
      refine (ih (fun k mem => expandable k (List.mem_cons_of_mem n mem))
        (fun k mem => ends k (List.mem_cons_of_mem n mem)) later).mono ?_
      rintro _ rfl
      rfl

/-- The enumeration of a tree that counts nothing is done at once. -/
theorem Expandable.advance_fresh_of_count_eq_zero {n : Node} (h : n.Expandable)
    (zero : n.count = 0) : (n.advance .fresh).Always fun p => p.1 = .done := by
  induction h using Expandable.induction with
  | single n _ single => simp [single.count_eq] at zero
  | lists n h lists =>
    have some_listed := List.length_pos_iff.mpr (lists.alternatives_ne_nil h.built)
    have limit : 0 < countLimit := by decide
    rw [lists.count_eq h.built] at zero
    omega
  | container form children h ih =>
    have factor : ∃ n ∈ children, n.count = 0 :=
      (countAll_eq_zero_iff.mp zero).resolve_left Nat.one_ne_zero
    rw [advance_container_fresh, Draw.always_map]
    refine (startAll_stopped (fun n mem => h.child mem) ih factor).mono ?_
    rintro _ rfl
    rfl
  | repetition amount value _ ih =>
    rw [advance_repetition, Draw.always_map]
    refine (ih zero).mono ?_
    rintro ⟨pull, cursor⟩ rfl
    rfl
  | restriction amount item _ _ =>
    have none_left : amount.toNat = 0 := zero
    simp [advance, Cursor.position, none_left]

/-- Taking variations one at a time is pulling from the loops. -/
theorem Tracks.pulls_eq {n : Node} (h : n.Tracks) (amount : Nat) (cursor : Cursor) :
    Draw.pulls Enumeration.next amount ⟨n, cursor⟩ =
      Draw.pulls Feed.pull amount (n.remaining cursor) := by
  induction amount generalizing cursor with
  | zero => rfl
  | succ amount ih =>
    rw [Draw.pulls_succ, Draw.pulls_succ, ← h cursor, Enumeration.next, bind_assoc,
      bind_map_left]
    refine bind_congr fun p => ?_
    obtain ⟨pull, next⟩ := p
    rw [pure_bind]
    cases pull with
    | done => rfl
    | failed | item => simp only [ih]

end Node

/-- A step fails with errors of a sort only. -/
def Pull.FailsOnly {α : Type} (sort : Error → Prop) (pull : Pull α) : Prop :=
  ∀ e, pull = .failed e → sort e

/-- A computation that draws fails with errors of a sort only, whatever is drawn. -/
def Drawing.FailsOnly {α : Type} (sort : Error → Prop) (d : Drawing α) : Prop :=
  d.run.Always fun r => ∀ e, r = .error e → sort e

/-- A turn fails with errors of a sort only. -/
def Turn.FailsOnly (sort : Error → Prop) (turn : Turn) : Prop :=
  ∀ e, turn = .failed e → sort e

namespace Turn

variable {sort : Error → Prop} {turn : Turn}

theorem FailsOnly.cons (h : turn.FailsOnly sort) (frame : Frame) :
    (turn.cons frame).FailsOnly sort := by
  cases turn with
  | failed => exact h
  | moved | exhausted | stopped => exact nofun

theorem FailsOnly.pull (h : turn.FailsOnly sort) (form : Form) :
    (turn.pull form).1.FailsOnly sort := by
  cases turn with
  | failed e =>
    rintro _ ⟨⟩
    exact h e rfl
  | moved | exhausted | stopped => exact nofun

end Turn

namespace Node

section FailsOnly

variable {sort : Error → Prop} {ns : List Node}

/-- Starting trees behind one that has been moved on fails as these steps do. -/
theorem restartAll_failsOnly (start : (startAll ns).Always (Turn.FailsOnly sort)) {last : Turn}
    (ended : last.FailsOnly sort) {step : Pull Variation × Cursor}
    (sound : step.1.FailsOnly sort) : (restartAll ns last step).Always (Turn.FailsOnly sort) := by
  obtain ⟨pull, cursor⟩ := step
  cases pull with
  | done => exact ended
  | failed e =>
    rintro _ ⟨⟩
    exact sound e rfl
  | item v =>
    rw [restartAll, Draw.always_map]
    exact start.mono fun turn h => h.cons (cursor, v)

/-- Starting trees fails as their steps do. -/
theorem startAll_failsOnly (each : ∀ n ∈ ns, ∀ cursor, (n.advance cursor).Always fun p =>
    p.1.FailsOnly sort) : (startAll ns).Always (Turn.FailsOnly sort) := by
  induction ns with
  | nil => exact nofun
  | cons n ns ih =>
    obtain ⟨first, rest⟩ := List.forall_mem_cons.mp each
    have ended : Turn.stopped.FailsOnly sort := nofun
    rw [startAll_cons, Draw.always_bind]
    exact (first .fresh).mono fun _ sound => restartAll_failsOnly (ih rest) ended sound

theorem advanceAll_failsOnly (each : ∀ n ∈ ns, ∀ cursor, (n.advance cursor).Always fun p =>
    p.1.FailsOnly sort) (frames : List Frame) :
    (advanceAll ns frames).Always (Turn.FailsOnly sort) := by
  induction ns generalizing frames with
  | nil => exact nofun
  | cons n ns ih =>
    cases frames with
    | nil => exact nofun
    | cons frame frames =>
      obtain ⟨first, rest⟩ := List.forall_mem_cons.mp each
      rw [advanceAll_cons, Draw.always_bind]
      refine (ih rest frames).mono fun turn sound => ?_
      cases turn with
      | moved | stopped | failed => exact sound.cons frame
      | exhausted =>
        have ended : Turn.exhausted.FailsOnly sort := nofun
        rw [Draw.always_bind]
        exact (first frame.1).mono fun _ here =>
          restartAll_failsOnly (startAll_failsOnly rest) ended here

/-- Enumerating a container fails as the enumerations of its children do. -/
theorem advance_container_failsOnly (each : ∀ n ∈ ns, ∀ cursor, (n.advance cursor).Always fun p =>
    p.1.FailsOnly sort) (form : Form) (cursor : Cursor) :
    ((container form ns).advance cursor).Always fun p => p.1.FailsOnly sort := by
  cases cursor with
  | behind | finished => exact nofun
  | fresh =>
    rw [advance_container_fresh, Draw.always_map]
    exact (startAll_failsOnly each).mono fun _ sound => sound.pull form
  | within frames =>
    rw [advance_container_within, Draw.always_map]
    exact (advanceAll_failsOnly each frames).mono fun _ sound => sound.pull form

theorem advance_repetition_failsOnly {value : Node} (each : ∀ cursor,
    (value.advance cursor).Always fun p => p.1.FailsOnly sort) (amount : UInt64)
    (cursor : Cursor) :
    ((repetition amount value).advance cursor).Always fun p => p.1.FailsOnly sort := by
  rw [advance_repetition, Draw.always_map]
  refine (each cursor).mono ?_
  rintro ⟨pull, next⟩ sound
  cases pull with
  | failed e =>
    rintro _ ⟨⟩
    exact sound e rfl
  | done | item => exact nofun

/-- Enumerating a restriction fails as samples of its item do. -/
theorem advance_restriction_failsOnly {item : Node} (sampled : item.sample.FailsOnly sort)
    (amount : UInt64) (cursor : Cursor) :
    ((restriction amount item).advance cursor).Always fun p => p.1.FailsOnly sort := by
  by_cases finished : cursor = .finished
  · subst finished
    exact nofun
  · rw [advance_restriction amount item finished]
    split
    · rw [Draw.always_map]
      refine Draw.Always.mono sampled fun r sound => ?_
      cases r with
      | error e =>
        rintro _ ⟨⟩
        exact sound e rfl
      | ok v => exact nofun
    · exact nofun

theorem Single.advance_failsOnly {n : Node} (h : n.Single) (cursor : Cursor) :
    (n.advance cursor).Always fun p => p.1.FailsOnly sort := by
  rw [h.advance_eq]
  cases cursor <;> exact nofun

theorem Lists.advance_failsOnly {n : Node} (h : n.Lists) (cursor : Cursor) :
    (n.advance cursor).Always fun p => p.1.FailsOnly sort := by
  by_cases finished : cursor = .finished
  · subst finished
    rw [h.advance_finished]
    exact nofun
  · rw [h.advance_eq finished, step]
    split <;> exact nofun

end FailsOnly

/-- Enumerating an expandable tree does not fail, wherever its cursor stands. -/
theorem Expandable.advance_unfailing {n : Node} (h : n.Expandable) :
    ∀ cursor, (n.advance cursor).Always fun p => p.1.FailsOnly fun _ => False := by
  induction h using Expandable.induction with
  | single n _ single => exact single.advance_failsOnly
  | lists n _ lists => exact lists.advance_failsOnly
  | container form children _ ih => exact advance_container_failsOnly ih form
  | repetition amount value _ ih => exact advance_repetition_failsOnly ih amount
  | restriction amount item h _ =>
    refine advance_restriction_failsOnly (h.item.sample_always_ok.mono ?_) amount
    rintro _ ⟨v, rfl⟩ e ⟨⟩

end Node

end ArenaVariations
