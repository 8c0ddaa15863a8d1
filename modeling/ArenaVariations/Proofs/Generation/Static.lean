import ArenaVariations.Proofs.Expansion.Explanation
import ArenaVariations.Proofs.Generation.Finished

/-!
# Static trees stay as they are

A static tree has one variation, which is the tree itself without labels. Expansion takes every
container apart and puts it together again, so this is an induction over containers: each child
gives itself once and is done, and so does the container. Nothing is drawn on the way.

Settling leaves a static tree where it stands, also in a variation that it cannot finish: only
placeholders are written to, and none of them lies in a static tree, nor a static tree in one of
them. So what expansion and settling copy as it is comes out as it is.
-/

namespace ArenaVariations

open List (Forall₂)

namespace Draw

variable {σ α : Type}

/-- What a stream gives that has a single item. -/
theorem pulls_of_single {next : σ → Draw (Pull α × σ)} {start behind ended : σ} {a : α}
    (first : next start = Pure.pure (.item a, behind))
    (last : next behind = Pure.pure (.done, ended)) (amount : Nat) :
    pulls next amount start = Pure.pure ([.item a, .done].take amount) := by
  match amount with
  | 0 => rfl
  | 1 =>
    rw [pulls_succ, first]
    rfl
  | amount + 2 =>
    rw [pulls_succ, first]
    show (Pull.item a :: ·) <$> pulls next (amount + 1) behind = _
    rw [pulls_succ, last, List.take_of_length_le (by simp)]
    rfl

end Draw

namespace Node

/-- A static leaf expands to itself. -/
theorem single_of_isStatic {n : Node} (static : n.isStatic = true)
    (other : ∀ form children, n ≠ container form children) :
    n.Single ∧ n.only = .unlabelled n := by
  obtain ⟨s, rfl⟩ | ⟨range, rfl⟩ | ⟨t, rfl⟩ | ⟨form, children, rfl⟩ := cases_of_isStatic static
  · exact ⟨.scalar s, rfl⟩
  · exact ⟨.interval range, rfl⟩
  · exact ⟨.tagged t, rfl⟩
  · exact absurd rfl (other form children)

theorem sampleAll_of_forall {ns : List Node}
    (each : ∀ n ∈ ns, n.sample = pure (.unlabelled n)) :
    sampleAll ns = pure (ns.map .unlabelled) := by
  induction ns with
  | nil => rfl
  | cons n ns ih =>
    obtain ⟨first, rest⟩ := List.forall_mem_cons.mp each
    rw [sampleAll, first, ih rest]
    rfl

/-- Children without labels make a container without labels. -/
theorem gather_unlabelled (form : Form) (children : List Node) :
    Variation.gather form (children.map .unlabelled) = .unlabelled (container form children) := by
  have nodes : (children.map Variation.unlabelled).map Variation.node = children := by
    rw [List.map_map]
    exact List.map_id children
  have labels : (children.map Variation.unlabelled).flatMap Variation.labels = [] := by
    simp [Variation.unlabelled]
  rw [Variation.gather, nodes, labels]
  rfl

/-- Drawing a variation of a static tree gives the tree, and draws nothing. -/
theorem sample_of_isStatic {n : Node} (static : n.isStatic = true) :
    n.sample = pure (.unlabelled n) := by
  induction n using container_induction with
  | container form children ih =>
    have each := allStatic_iff.mp static
    rw [sample, sampleAll_of_forall fun n mem => ih n mem (each n mem), ← gather_unlabelled]
    rfl
  | leaf n other =>
    obtain ⟨single, alone⟩ := single_of_isStatic static other
    rw [single.sample_eq, alone]

/-- An enumeration hands out the tree itself and is done. -/
def Once (n : Node) : Prop :=
  ∃ behind ended : Cursor, n.advance .fresh = pure (.item (.unlabelled n), behind) ∧
    n.advance behind = pure (.done, ended)

/-- Trees with a single variation each have a single combination. -/
theorem startAll_of_once {ns : List Node} (each : ∀ n ∈ ns, n.Once) :
    ∃ frames, startAll ns = pure (.moved frames) ∧
      frames.map Prod.snd = ns.map Variation.unlabelled ∧
        advanceAll ns frames = pure .exhausted := by
  induction ns with
  | nil => exact ⟨[], rfl, rfl, rfl⟩
  | cons n ns ih =>
    obtain ⟨⟨behind, ended, first, last⟩, rest⟩ := List.forall_mem_cons.mp each
    obtain ⟨frames, started, same, exhausted⟩ := ih rest
    refine ⟨(behind, .unlabelled n) :: frames, ?_, ?_, ?_⟩
    · rw [startAll_cons, first]
      show Turn.cons (behind, .unlabelled n) <$> startAll ns = _
      rw [started]
      rfl
    · rw [List.map_cons, same, List.map_cons]
    · rw [advanceAll_cons, exhausted]
      show n.advance behind >>= restartAll ns .exhausted = _
      rw [last]
      rfl

theorem once_of_isStatic {n : Node} (static : n.isStatic = true) : n.Once := by
  induction n using container_induction with
  | container form children ih =>
    have each := allStatic_iff.mp static
    obtain ⟨frames, started, same, exhausted⟩ :=
      startAll_of_once fun n mem => ih n mem (each n mem)
    refine ⟨.within frames, .finished, ?_, ?_⟩
    · rw [advance_container_fresh, started, ← gather_unlabelled, ← same]
      rfl
    · rw [advance_container_within, exhausted]
      rfl
  | leaf n other =>
    obtain ⟨single, alone⟩ := single_of_isStatic static other
    refine ⟨.finished, .finished, ?_, ?_⟩
    · rw [single.advance_eq, alone]
      rfl
    · rw [single.advance_eq]
      rfl

/-- No combinatorial tag stands in a static tree. -/
theorem outerTags_of_isStatic {n : Node} (static : n.isStatic = true) : n.outerTags = [] := by
  induction n using container_induction with
  | container form children ih =>
    have each := allStatic_iff.mp static
    rw [outerTags, outerTagsIn_eq_flatMap]
    exact List.flatMap_eq_nil_iff.mpr fun n mem => ih n mem (each n mem)
  | leaf n other =>
    obtain ⟨single, -⟩ := single_of_isStatic static other
    cases single <;> rfl

theorem explain_of_outerTags_eq_nil {n : Node} (settled : n.waiting = [])
    (no_tag : n.outerTags = []) : n.explain = .ok "No variations" := by
  rw [explain, breakdown_eq settled, no_tag]
  rfl

/-- What waits at a place waits in the tree. -/
theorem waiting_subset_of_at? {n part : Node} {path : List Nat}
    (stands : n.at? path = some part) : part.waiting ⊆ n.waiting := by
  induction path generalizing n with
  | nil =>
    rw [at?] at stands
    obtain rfl := Option.some.inj stands
    exact List.Subset.refl _
  | cons position path ih =>
    cases n with
    | container form children =>
      obtain ⟨child, there, inner⟩ := Option.bind_eq_some_iff.mp stands
      intro c waits
      exact mem_waitingIn.mpr ⟨child, List.mem_of_getElem? there, ih inner waits⟩
    | _ => cases stands

/-- A part of a tree stands in the same place of the tree filled in, filled in itself. -/
theorem Filling.exists_at? {value : Conditional Node → Node → Prop} {n m part : Node}
    (h : Filling value n m) {path : List Nat} (stands : n.at? path = some part) :
    ∃ filled, m.at? path = some filled ∧ Filling value part filled := by
  induction path generalizing n m with
  | nil =>
    rw [at?] at stands
    obtain rfl := Option.some.inj stands
    exact ⟨m, by rw [at?], h⟩
  | cons position path ih =>
    cases n with
    | container form children =>
      obtain ⟨child, there, inner⟩ := Option.bind_eq_some_iff.mp stands
      obtain ⟨filled, rfl, each⟩ := h.exists_forall₂
      have beside := getElem?_rel each position
      rw [there] at beside
      generalize here : filled[position]? = found at beside
      cases beside with
      | some filling =>
        obtain ⟨part', stands', filling⟩ := ih filling inner
        exact ⟨part', Option.bind_eq_some_iff.mpr ⟨_, here, stands'⟩, filling⟩
    | _ => cases stands

/-- A value that is put in the place of a placeholder leaves static trees where they are. -/
theorem at?_of_replaceAt? {n m value part : Node} {c : Conditional Node} {place path : List Nat}
    (waits : n.at? place = some (.placeholder c)) (placed : n.replaceAt? place value = some m)
    (static : part.isStatic = true) (stands : n.at? path = some part) :
    m.at? path = some part := by
  induction place generalizing n m path with
  | nil =>
    rw [at?] at waits
    obtain rfl := Option.some.inj waits
    cases path with
    | nil =>
      rw [at?] at stands
      obtain rfl := Option.some.inj stands
      exact absurd static Bool.false_ne_true
    | cons => cases stands
  | cons position place ih =>
    cases path with
    | nil =>
      -- The whole tree would be static, and have a placeholder in it.
      rw [at?] at stands
      obtain rfl := Option.some.inj stands
      have inside := waiting_subset_of_at? waits (List.mem_singleton_self c)
      rw [waiting_eq_nil_of_isStatic static] at inside
      exact absurd inside List.not_mem_nil
    | cons step path =>
      cases n with
      | container form children =>
        obtain ⟨child, there, waits⟩ := Option.bind_eq_some_iff.mp waits
        obtain ⟨other, step_there, stands⟩ := Option.bind_eq_some_iff.mp stands
        have below : (child.replaceAt? place value).bind
            (fun child' => some (container form (children.set position child'))) = some m := by
          rw [replaceAt?, there] at placed
          exact placed
        obtain ⟨child', inside, made⟩ := Option.bind_eq_some_iff.mp below
        obtain rfl := Option.some.inj made
        rw [at?]
        by_cases same : position = step
        · subst same
          obtain rfl := Option.some.inj (there.symm.trans step_there)
          rw [List.getElem?_set_self (List.getElem?_eq_some_iff.mp there).1, Option.bind_some]
          exact ih waits inside stands
        · rw [List.getElem?_set_ne same, step_there, Option.bind_some]
          exact stands
      | _ => cases stands

end Node

namespace Variation

variable {part : Node} {path : List Nat}

/-- Filling a place in leaves static trees where they are, whatever stands in the place. -/
theorem at?_run_fill (static : part.isStatic = true) (place : List Nat) {v : Variation}
    (stands : v.node.at? path = some part) :
    ((fill place).run.run v).2.node.at? path = some part := by
  simp only [fill, Settling.run_bind, Settling.run_get]
  cases there : v.node.at? place with
  | none => exact stands
  | some found =>
    cases found with
    | placeholder c =>
      simp only [Settling.run_bind, Settling.run_liftM, Settling.run_get]
      cases c.decide v.node with
      | error e => exact stands
      | ok pick =>
        obtain ⟨value, label⟩ := pick
        dsimp only
        cases placed : v.node.replaceAt? place value with
        | none => exact stands
        | some m => exact Node.at?_of_replaceAt? there placed static stands
    | _ => exact stands

/-- Settling leaves static trees where they are, whether it succeeds or not. -/
theorem at?_run_settle (static : part.isStatic = true) (rules : List (LabelRule Node))
    {v : Variation} (stands : v.node.at? path = some part) :
    ((settle rules).run.run v).2.node.at? path = some part := by
  have filled := run_forM_keeps (fun u => u.node.at? path = some part)
    (fun place : List Nat × Conditional Node => fun _ => at?_run_fill static place.1)
    v.node.openPlaces stands
  simp only [settle, Settling.run_bind, Settling.run_get]
  generalize (v.node.openPlaces.forM fun place => fill place.1).run.run v = r at filled ⊢
  obtain ⟨⟨⟩ | ⟨⟩, w⟩ := r
  · exact filled
  · dsimp only
    rw [run_forM_apply_node]
    exact filled

/-- Nothing is settled where nothing waits and no rule applies. -/
theorem run_settle_nil {v : Variation} (bare : v.node.waiting = []) :
    (settle []).run.run v = (.ok (), v) := by
  have no_place : v.node.openPlaces = [] := Node.openPlaces_eq_nil.mpr bare
  simp only [settle, Settling.run_bind, Settling.run_get, no_place]
  rfl

theorem settled_nil_of_bare {v : Variation} (bare : v.node.waiting = []) :
    v.settled [] = .ok v := by
  rw [settled, run_settle_nil bare]

end Variation

namespace Production

/-- A raw step that draws nothing is settled without drawing. -/
theorem next_of_raw {p : Production} {remaining : Nat} (more : p.remaining = remaining + 1)
    {pull : Pull Variation} {cursor : Cursor} (raw : p.nextRaw = pure (pull, cursor)) :
    p.next = pure (pull.bind fun v => v.settled p.template.rules,
      { p with remaining := remaining, cursor := cursor }) := by
  rw [next, more]
  show p.nextRaw >>= _ = _
  rw [raw]
  rfl

/-- Without label rules a static variation is settled as it is. -/
theorem item_bind_settled {n : Node} (static : n.isStatic = true) :
    (Pull.item (Variation.unlabelled n)).bind (fun v => v.settled []) =
      .item (Variation.unlabelled n) := by
  have bare : (Variation.unlabelled n).node.waiting = [] := Node.waiting_eq_nil_of_isStatic static
  rw [Pull.bind, Variation.settled_nil_of_bare bare]
  rfl

/-- Samples of a static tree are the tree itself, as many as are asked for. -/
theorem pulls_sample_of_isStatic {n : Node} (static : n.isStatic = true) (amount pulls : Nat) :
    Draw.pulls next pulls (.ofTemplate ⟨n, []⟩ .sample amount) =
      pure ((List.replicate amount (Pull.item (Variation.unlabelled n)) ++ [Pull.done]).take
        pulls) := by
  induction amount generalizing pulls with
  | zero =>
    cases pulls with
    | zero => rfl
    | succ pulls =>
      rw [List.replicate_zero, List.nil_append, List.take_succ_cons, List.take_nil,
        Draw.pulls_succ]
      rfl
  | succ amount ih =>
    have raw : nextRaw (.ofTemplate ⟨n, []⟩ .sample (amount + 1)) =
        pure (.item (.unlabelled n), .fresh) := by
      show (do return (Pull.ofExcept (← n.sample.run), Cursor.fresh)) = _
      rw [Node.sample_of_isStatic static]
      rfl
    have first := next_of_raw rfl raw
    rw [show (ofTemplate ⟨n, []⟩ .sample (amount + 1)).template.rules = [] from rfl,
      item_bind_settled static] at first
    cases pulls with
    | zero => rfl
    | succ pulls =>
      rw [Draw.pulls_succ, first]
      show (Pull.item (.unlabelled n) :: ·) <$> Draw.pulls next pulls
        (.ofTemplate ⟨n, []⟩ .sample amount) = _
      rw [ih]
      rfl

/-- All variations of a static tree are the tree itself, once. -/
theorem pulls_exhaustive_of_isStatic {n : Node} (static : n.isStatic = true)
    (amount pulls : Nat) :
    Draw.pulls next pulls (.ofTemplate ⟨n, []⟩ .exhaustive (amount + 1)) =
      pure ([Pull.item (Variation.unlabelled n), .done].take pulls) := by
  obtain ⟨behind, ended, first, last⟩ := Node.once_of_isStatic static
  have start := next_of_raw (p := .ofTemplate ⟨n, []⟩ .exhaustive (amount + 1)) rfl first
  rw [show (ofTemplate ⟨n, []⟩ .exhaustive (amount + 1)).template.rules = [] from rfl,
    item_bind_settled static] at start
  cases amount with
  | zero => exact Draw.pulls_of_single start rfl pulls
  | succ amount =>
    have finish := next_of_raw (p := ⟨⟨n, []⟩, .exhaustive, amount + 1, behind⟩) rfl last
    exact Draw.pulls_of_single start finish pulls

end Production

namespace Node

/-- A tree that comes out of every stage as it went in. The computations are the same ones, so
nothing is drawn. -/
structure Fixed (n : Node) : Prop where
  counted : n.count = 1
  explained : n.explain = .ok "No variations"
  enumerated : ∀ amount, Draw.pulls Enumeration.next amount (.ofNode n) =
    pure ([Pull.item (Variation.unlabelled n), .done].take amount)
  sampled : n.sample = pure (.unlabelled n)
  settled : ∀ labels, (Variation.settle []).run.run ⟨n, labels⟩ = (.ok (), ⟨n, labels⟩)
  /-- Generating from the tree gives the tree. -/
  produced : ∀ amount pulls,
    Draw.pulls Production.next pulls (.ofTemplate ⟨n, []⟩ .exhaustive (amount + 1)) =
      pure ([Pull.item (Variation.unlabelled n), .done].take pulls)
  /-- So do samples. -/
  resampled : ∀ amount pulls,
    Draw.pulls Production.next pulls (.ofTemplate ⟨n, []⟩ .sample amount) =
      pure ((List.replicate amount (Pull.item (Variation.unlabelled n)) ++ [Pull.done]).take pulls)
  /-- Within a variation, a step of settling leaves the tree where it is, even if it fails. -/
  left : ∀ (v : Variation) path place, v.node.at? path = some n →
    ((Variation.fill place).run.run v).2.node.at? path = some n
  /-- And so does all of settling. -/
  kept : ∀ (v : Variation) path rules, v.node.at? path = some n →
    ((Variation.settle rules).run.run v).2.node.at? path = some n

theorem fixed_of_isStatic {n : Node} (static : n.isStatic = true) : n.Fixed where
  counted := by
    rw [n.count_eq_prod, outerTags_of_isStatic static]
    rfl
  explained :=
    explain_of_outerTags_eq_nil (waiting_eq_nil_of_isStatic static) (outerTags_of_isStatic static)
  enumerated amount := by
    obtain ⟨behind, ended, first, last⟩ := once_of_isStatic static
    have start : (Enumeration.ofNode n).next = pure (.item (.unlabelled n), ⟨n, behind⟩) := by
      show n.advance .fresh >>= _ = _
      rw [first]
      rfl
    have finish : (Enumeration.mk n behind).next = pure (.done, ⟨n, ended⟩) := by
      show n.advance behind >>= _ = _
      rw [last]
      rfl
    exact Draw.pulls_of_single start finish amount
  sampled := sample_of_isStatic static
  settled labels := Variation.run_settle_nil (waiting_eq_nil_of_isStatic static)
  produced := Production.pulls_exhaustive_of_isStatic static
  resampled := Production.pulls_sample_of_isStatic static
  left _ _ place stands := Variation.at?_run_fill static place stands
  kept _ _ rules stands := Variation.at?_run_settle static rules stands

/-- What a raw variation has copied stands in the same place of a finished one: its static parts,
and where a conditional was left open a value that it names. -/
structure CopiedTo (raw final : Node) : Prop where
  static : ∀ path part, raw.at? path = some part → part.isStatic = true →
    final.at? path = some part
  decided : ∀ path c, raw.at? path = some (.placeholder c) →
    ∃ value ∈ c.candidates, final.at? path = some value

theorem Filling.copiedTo {raw final : Node} (h : Filling Conditional.Names raw final)
    (done : final.waiting = []) : raw.CopiedTo final where
  static path part stands static := by
    obtain ⟨filled, there, filling⟩ := h.exists_at? stands
    rw [filling.eq_of_bare (waiting_eq_nil_of_isStatic static)]
    exact there
  decided path c stands := by
    obtain ⟨filled, there, filling⟩ := h.exists_at? stands
    cases filling with
    | same =>
      have waits := waiting_subset_of_at? there (List.mem_singleton_self c)
      rw [done] at waits
      exact absurd waits List.not_mem_nil
    | placeholder named => exact ⟨filled, named.2, there⟩

end Node

namespace Production

/-- A variation that a stream hands out is static, and has what was copied into it. -/
def HandsOnCopies (body : Node) (pull : Pull Variation) : Prop :=
  ∀ v, pull = .item v → v.node.isStatic = true ∧ ∃ raw, body.Yields raw ∧ raw.CopiedTo v.node

theorem next_copies {p : Production} (h : p.Sound) :
    p.next.Always fun step => HandsOnCopies p.template.body step.1 := by
  rw [next]
  split
  · rintro _ ⟨⟩
  · rw [Draw.always_bind]
    refine (nextRaw_proper h).mono ?_
    rintro ⟨pull, cursor⟩ ⟨-, yields⟩ v item
    cases pull with
    | done | failed => cases item
    | item raw =>
      have settled : raw.settled p.template.rules = .ok v := by
        cases result : raw.settled p.template.rules <;>
          simp_all [Pull.bind, Pull.ofExcept]
      have here := (yields raw rfl).standsIn h.built
      obtain ⟨filling, done⟩ :=
        Variation.filling_of_settled (fun c waits => here.checked h.built waits) settled
      have concrete := (filling.standsIn here).concrete done
      exact ⟨Node.isStatic_iff_concrete.mpr concrete, raw.node, yields raw rfl,
        filling.copiedTo done⟩

theorem steps_copies {p : Production} (h : p.Sound) (amount : Nat) :
    (Draw.steps next amount p).Always fun r =>
      ∀ pull ∈ r.1, HandsOnCopies p.template.body pull := by
  refine Draw.steps_always (fun q => q.Sound ∧ q.template = p.template) ?_ amount ⟨h, rfl⟩
  rintro q ⟨sound, same⟩
  refine ((next_sound sound).and (next_copies sound)).mono fun step kept => ?_
  exact ⟨⟨kept.1.1, kept.1.2.1.trans same⟩, same ▸ kept.2⟩

end Production

namespace Node

/-- Static trees are fixed points of the whole way from counting to settling. Finished variations of
checked templates are among them, so generating from one gives it back; and what was copied on the
way, from options or from the values of conditionals, has not changed since. -/
theorem static_fixed :
    (∀ n : Node, n.isStatic = true → n.Fixed) ∧
      ∀ t : Template, t.body.Built → ∀ mode amount pulls,
        (Draw.steps Production.next pulls (.ofTemplate t mode amount)).Always fun r =>
          ∀ v, Pull.item v ∈ r.1 →
            v.node.Fixed ∧ ∃ raw, t.body.Yields raw ∧ raw.CopiedTo v.node := by
  refine ⟨fun n static => fixed_of_isStatic static, fun t built mode amount pulls => ?_⟩
  refine (Production.steps_copies (Production.sound_ofTemplate built mode amount) pulls).mono ?_
  intro r each v mem
  obtain ⟨static, copied⟩ := each _ mem v rfl
  exact ⟨fixed_of_isStatic static, copied⟩

/-- A named item in a list, and a template with a choice. -/
theorem static_fixed_item :
    (sequence [record .item (some "goal") [("name", text "big")]]).isStatic = true ∧
      (sequence [record .item (some "goal") [("name", text "big")]]).Fixed ∧
      (Node.sequence [.choice [int 1, int 2]]).Built ∧
      (Draw.steps Production.next 3
        (.ofTemplate ⟨.sequence [.choice [int 1, int 2]], []⟩ .exhaustive 5)).Always fun r =>
          ∀ v, Pull.item v ∈ r.1 → v.node.Fixed ∧
            ∃ raw, Node.Yields (.sequence [.choice [int 1, int 2]]) raw ∧ raw.CopiedTo v.node := by
  have built := (readable_of_parse parse_choice).built
  exact ⟨rfl, static_fixed.1 _ rfl, built, static_fixed.2 ⟨_, []⟩ built .exhaustive 5 3⟩

end Node

end ArenaVariations
