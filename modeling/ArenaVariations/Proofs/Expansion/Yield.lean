import ArenaVariations.Proofs.Expansion.Traversal
import Mathlib.Data.List.Forall2

/-!
# What a tree can become

`Node.Yields` relates a tree to the trees that its expansion can hand out, whatever is drawn: a
container becomes the same container of what its children become, a tag one of what it lists. It
says nothing of order or number, and holds of trees that are not expandable as well; a label rule
or a placeholder in a tree just yields nothing.

Both ways of expanding keep to it. For samples this is a statement about one computation. An
enumeration holds current variations in its cursor, so the cursor must fit the tree, and every
step leaves one that does.
-/

namespace ArenaVariations

namespace Drawing

variable {α β : Type}

/-- A property holds of the result, if there is one, whatever is drawn. -/
def Gives (P : α → Prop) (d : Drawing α) : Prop :=
  d.run.Always fun r => ∀ a, r = .ok a → P a

theorem gives_pure {P : α → Prop} {a : α} (h : P a) : (pure a : Drawing α).Gives P := by
  rintro _ ⟨⟩
  exact h

theorem gives_throw {P : α → Prop} (e : Error) : (throw e : Drawing α).Gives P :=
  nofun

theorem gives_lift {P : α → Prop} {d : Draw α} (h : d.Always P) :
    Gives P (ExceptT.lift d : Drawing α) := by
  have lifted : (ExceptT.lift d : Drawing α).run = Except.ok <$> d := ExceptT.run_lift d
  rw [Gives, lifted, Draw.always_map]
  refine h.mono fun a holds => ?_
  rintro _ ⟨⟩
  exact holds

theorem Gives.bind {P : α → Prop} {Q : β → Prop} {d : Drawing α} {f : α → Drawing β}
    (h : d.Gives P) (next : ∀ a, P a → (f a).Gives Q) : (d >>= f).Gives Q := by
  rw [Gives, ExceptT.run_bind, Draw.always_bind]
  refine Draw.Always.mono h fun r holds => ?_
  cases r with
  | error e => exact nofun
  | ok a => exact next a (holds a rfl)

theorem Gives.mono {P Q : α → Prop} {d : Drawing α} (h : d.Gives P) (imp : ∀ a, P a → Q a) :
    d.Gives Q :=
  Draw.Always.mono h fun _ holds a eq => imp a (holds a eq)

/-- A member of a list is one of them. -/
theorem gives_oneOf (as : List α) : (oneOf as).Gives (· ∈ as) := by
  cases as with
  | nil => exact gives_throw _
  | cons first rest =>
    have member : (Draw.oneOf first rest).Always (· ∈ first :: rest) :=
      fun i => List.get_mem (first :: rest) i
    exact gives_lift member

end Drawing

namespace Node

/-- The trees that a tree can become when it is expanded. -/
inductive Yields : Node → Node → Prop where
  | single {n : Node} (single : n.Single) : Yields n n.only.node
  | listed {n : Node} (lists : n.Lists) {v : Variation} (mem : v ∈ n.alternatives) :
      Yields n v.node
  | container {form : Form} {children parts : List Node} (length : children.length = parts.length)
      (each : ∀ {n m}, (n, m) ∈ children.zip parts → Yields n m) :
      Yields (.container form children) (.container form parts)
  | repetition (amount : UInt64) {value v : Node} (yields : Yields value v) :
      Yields (.repetition amount value) (.sequence (List.replicate amount.toNat v))
  | restriction (amount : UInt64) {item v : Node} (yields : Yields item v) :
      Yields (.restriction amount item) v

/-- Induction over the trees that expansion goes through. -/
theorem expansion_induction {motive : Node → Prop}
    (single : ∀ n : Node, n.Single → motive n) (lists : ∀ n : Node, n.Lists → motive n)
    (container : ∀ form children, (∀ n ∈ children, motive n) → motive (.container form children))
    (repetition : ∀ amount value, motive value → motive (.repetition amount value))
    (restriction : ∀ amount item, motive item → motive (.restriction amount item))
    (labelRule : ∀ rule, motive (.labelRule rule))
    (placeholder : ∀ source, motive (.placeholder source)) (n : Node) : motive n :=
  match n with
  | .scalar value => single _ (.scalar value)
  | .interval range => single _ (.interval range)
  | .tagged value => single _ (.tagged value)
  | .conditional source => single _ (.conditional source)
  | .choice options => lists _ (.choice options)
  | .labelledChoice options => lists _ (.labelledChoice options)
  | .palette amount => lists _ (.palette amount)
  | .scaled base scales labels => lists _ (.scaled base scales labels)
  | .container form children =>
    container form children fun n _ => expansion_induction single lists container repetition
      restriction labelRule placeholder n
  | .repetition amount value =>
    repetition amount value (expansion_induction single lists container repetition restriction
      labelRule placeholder value)
  | .restriction amount item =>
    restriction amount item (expansion_induction single lists container repetition restriction
      labelRule placeholder item)
  | .labelRule rule => labelRule rule
  | .placeholder source => placeholder source
termination_by sizeOf n
decreasing_by
  case _ =>
    have := List.sizeOf_lt_of_mem ‹_ ∈ children›
    simp only [Node.container.sizeOf_spec]
    omega
  all_goals
    simp only [Node.repetition.sizeOf_spec, Node.restriction.sizeOf_spec]
    omega

/-- The trees of a list become the trees of another one. -/
def YieldsAll (ns parts : List Node) : Prop :=
  List.Forall₂ Yields ns parts

theorem YieldsAll.container {children parts : List Node} (h : YieldsAll children parts)
    (form : Form) : Yields (.container form children) (.container form parts) :=
  .container h.length_eq (List.forall₂_iff_zip.mp h).2

theorem sampleAll_gives {ns : List Node}
    (each : ∀ n ∈ ns, n.sample.Gives fun v => n.Yields v.node) :
    (sampleAll ns).Gives fun vs => YieldsAll ns (vs.map Variation.node) := by
  induction ns with
  | nil => exact Drawing.gives_pure .nil
  | cons n ns ih =>
    obtain ⟨first, rest⟩ := List.forall_mem_cons.mp each
    refine first.bind fun v yields => ?_
    refine (ih rest).bind fun vs yieldsAll => ?_
    exact Drawing.gives_pure (.cons yields yieldsAll)

/-- A sample is something that its tree can become. -/
theorem sample_gives (n : Node) : n.sample.Gives fun v => n.Yields v.node := by
  induction n using expansion_induction with
  | single n single =>
    rw [single.sample_eq]
    exact Drawing.gives_pure (.single single)
  | lists n lists =>
    rw [lists.sample_eq]
    exact (Drawing.gives_oneOf _).mono fun v mem => .listed lists mem
  | container form children ih =>
    refine (sampleAll_gives ih).bind fun vs yields => ?_
    exact Drawing.gives_pure (yields.container form)
  | repetition amount value ih =>
    exact ih.bind fun v yields => Drawing.gives_pure (.repetition amount yields)
  | restriction amount item ih => exact ih.mono fun v yields => .restriction amount yields
  | labelRule | placeholder => exact Drawing.gives_throw _

mutual

/-- The current variations that a cursor holds are such that its tree can become them. -/
def Fits : Node → Cursor → Prop
  | container _ children, .within frames => FitsAll children frames
  | repetition _ value, cursor => value.Fits cursor
  | _, _ => True

/-- The current variations of a container's children fit them, and so do their cursors. -/
def FitsAll : List Node → List Frame → Prop
  | [], [] => True
  | n :: ns, (cursor, v) :: frames => n.Fits cursor ∧ n.Yields v.node ∧ FitsAll ns frames
  | _, _ => False

end

theorem FitsAll.yieldsAll {ns : List Node} {frames : List Frame} (h : FitsAll ns frames) :
    YieldsAll ns ((frames.map Prod.snd).map Variation.node) := by
  induction ns generalizing frames with
  | nil =>
    cases frames with
    | nil => exact .nil
    | cons => exact h.elim
  | cons n ns ih =>
    cases frames with
    | nil => exact h.elim
    | cons frame frames => exact .cons h.2.1 (ih h.2.2)

/-- A step of an enumeration leaves a cursor that fits, and hands out what its tree can become. -/
def Proper (n : Node) (step : Pull Variation × Cursor) : Prop :=
  n.Fits step.2 ∧ ∀ v, step.1 = .item v → n.Yields v.node

/-- A turn of a container's children leaves frames that fit. -/
def ProperTurn (ns : List Node) (turn : Turn) : Prop :=
  ∀ frames, turn = .moved frames → FitsAll ns frames

theorem Single.fits {n : Node} (h : n.Single) (cursor : Cursor) : n.Fits cursor := by
  cases h <;> exact trivial

theorem Lists.fits {n : Node} (h : n.Lists) (cursor : Cursor) : n.Fits cursor := by
  cases h <;> exact trivial

/-- A cursor that stands before everything fits every tree. -/
theorem fits_fresh (n : Node) : n.Fits .fresh := by
  induction n using expansion_induction with
  | single n single => exact single.fits _
  | lists n lists => exact lists.fits _
  | container | restriction | labelRule | placeholder => exact trivial
  | repetition amount value ih => exact ih

theorem Single.proper {n : Node} (h : n.Single) (cursor : Cursor) :
    (n.advance cursor).Always n.Proper := by
  rw [h.advance_eq, Draw.always_pure]
  refine ⟨h.fits _, fun v item => ?_⟩
  cases cursor with
  | fresh =>
    obtain rfl : n.only = v := by simpa [once, Pull.ofExcept] using item
    exact .single h
  | behind | within | finished => cases item

theorem Lists.proper {n : Node} (h : n.Lists) (cursor : Cursor) :
    (n.advance cursor).Always n.Proper := by
  by_cases finished : cursor = .finished
  · subst finished
    rw [h.advance_finished, Draw.always_pure]
    exact ⟨h.fits _, nofun⟩
  · rw [h.advance_eq finished, Draw.always_pure]
    refine ⟨h.fits _, fun v item => ?_⟩
    rw [step] at item
    split at item
    case h_1 found =>
      cases item
      exact .listed h (List.mem_of_getElem? found)
    case h_2 => cases item

/-- A container hands out what its children's frames hold. -/
theorem ProperTurn.proper {children : List Node} {turn : Turn} (h : ProperTurn children turn)
    (form : Form) : (container form children).Proper (turn.pull form) := by
  cases turn with
  | moved frames =>
    have fits := h frames rfl
    refine ⟨fits, fun v item => ?_⟩
    cases item
    exact fits.yieldsAll.container form
  | exhausted | stopped | failed => exact ⟨trivial, nofun⟩

theorem ProperTurn.cons {n : Node} {ns : List Node} {turn : Turn} (h : ProperTurn ns turn)
    {frame : Frame} (fits : n.Fits frame.1) (yields : n.Yields frame.2.node) :
    ProperTurn (n :: ns) (turn.cons frame) := by
  cases turn with
  | moved frames =>
    rintro _ ⟨⟩
    exact ⟨fits, yields, h frames rfl⟩
  | exhausted | stopped | failed => exact nofun

/-- Starting the trees behind one that has been moved on. -/
theorem restartAll_proper {n : Node} {ns : List Node} {last : Turn}
    (start : (startAll ns).Always (ProperTurn ns)) (ended : ProperTurn (n :: ns) last)
    {step : Pull Variation × Cursor} (proper : n.Proper step) :
    (restartAll ns last step).Always (ProperTurn (n :: ns)) := by
  obtain ⟨pull, cursor⟩ := step
  cases pull with
  | done => exact ended
  | failed e => exact nofun
  | item v =>
    rw [restartAll, Draw.always_map]
    exact start.mono fun turn h => h.cons proper.1 (proper.2 v rfl)

theorem startAll_proper {ns : List Node}
    (each : ∀ n ∈ ns, (n.advance .fresh).Always n.Proper) :
    (startAll ns).Always (ProperTurn ns) := by
  induction ns with
  | nil =>
    rintro _ ⟨⟩
    exact trivial
  | cons n ns ih =>
    obtain ⟨first, rest⟩ := List.forall_mem_cons.mp each
    have ended : ProperTurn (n :: ns) .stopped := nofun
    rw [startAll_cons, Draw.always_bind]
    exact first.mono fun step => restartAll_proper (ih rest) ended

theorem advanceAll_proper {ns : List Node}
    (each : ∀ n ∈ ns, ∀ cursor, n.Fits cursor → (n.advance cursor).Always n.Proper)
    {frames : List Frame} (fits : FitsAll ns frames) :
    (advanceAll ns frames).Always (ProperTurn ns) := by
  induction ns generalizing frames with
  | nil => exact nofun
  | cons n ns ih =>
    cases frames with
    | nil => exact fits.elim
    | cons frame frames =>
      obtain ⟨first, rest⟩ := List.forall_mem_cons.mp each
      obtain ⟨here, yields, later⟩ := fits
      rw [advanceAll_cons, Draw.always_bind]
      refine (ih rest later).mono fun turn proper => ?_
      cases turn with
      | moved | stopped | failed => exact proper.cons here yields
      | exhausted =>
        have ended : ProperTurn (n :: ns) .exhausted := nofun
        have start := startAll_proper fun m mem => rest m mem .fresh (fits_fresh m)
        rw [Draw.always_bind]
        exact (first frame.1 here).mono fun step => restartAll_proper start ended

/-- A step of an enumeration hands out something that its tree can become. -/
theorem advance_proper (n : Node) :
    ∀ cursor, n.Fits cursor → (n.advance cursor).Always n.Proper := by
  induction n using expansion_induction with
  | single n single => exact fun cursor _ => single.proper cursor
  | lists n lists => exact fun cursor _ => lists.proper cursor
  | container form children ih =>
    intro cursor fits
    cases cursor with
    | behind | finished => exact ⟨trivial, nofun⟩
    | fresh =>
      rw [advance_container_fresh, Draw.always_map]
      exact (startAll_proper fun n mem => ih n mem .fresh (fits_fresh n)).mono
        fun turn proper => proper.proper form
    | within frames =>
      rw [advance_container_within, Draw.always_map]
      exact (advanceAll_proper ih fits).mono fun turn proper => proper.proper form
  | repetition amount value ih =>
    intro cursor fits
    rw [advance_repetition, Draw.always_map]
    refine (ih cursor fits).mono ?_
    rintro ⟨pull, next⟩ ⟨fits, yields⟩
    refine ⟨fits, fun v item => ?_⟩
    cases pull with
    | done | failed => cases item
    | item u =>
      cases item
      exact .repetition amount (yields u rfl)
  | restriction amount item =>
    intro cursor _
    by_cases finished : cursor = .finished
    · subst finished
      exact ⟨trivial, nofun⟩
    · rw [advance_restriction amount item finished]
      split
      case isTrue =>
        rw [Draw.always_map]
        refine Draw.Always.mono (sample_gives item) fun r yields => ⟨trivial, fun v drawn => ?_⟩
        cases r with
        | error e => cases drawn
        | ok u =>
          cases drawn
          exact .restriction amount (yields _ rfl)
      case isFalse => exact ⟨trivial, nofun⟩
  | labelRule | placeholder =>
    intro cursor _
    cases cursor <;> exact ⟨trivial, nofun⟩

end Node

end ArenaVariations
