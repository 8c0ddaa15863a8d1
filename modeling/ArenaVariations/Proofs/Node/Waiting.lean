import ArenaVariations.Proofs.Node.Built
import ArenaVariations.Proofs.Node.Checked
import ArenaVariations.Resolution.Settling

/-!
# Where placeholders stand

Placeholders stand below containers only: nothing else of a tree is searched for them. So what is
said about the placeholders of a tree is proved along its containers. A static tree has none, and
neither has any value that a checked conditional may stand for.
-/

namespace ArenaVariations

namespace Node

/-- Trees are put together from containers and other nodes. -/
theorem container_induction {motive : Node → Prop}
    (container : ∀ form children, (∀ n ∈ children, motive n) → motive (.container form children))
    (leaf : ∀ n, (∀ form children, n ≠ .container form children) → motive n) (n : Node) :
    motive n :=
  match n with
  | .container form children =>
    container form children fun n _ => container_induction container leaf n
  | .scalar _ | .interval _ | .tagged _ | .choice _ | .labelledChoice _ | .palette _ | .scaled ..
  | .repetition .. | .restriction .. | .conditional _ | .labelRule _ | .placeholder _ =>
    leaf _ nofun
termination_by sizeOf n
decreasing_by
  have := List.sizeOf_lt_of_mem ‹n ∈ children›
  simp only [Node.container.sizeOf_spec]
  omega

@[simp]
theorem mem_waitingIn {ns : List Node} {c : Conditional Node} :
    c ∈ waitingIn ns ↔ ∃ n ∈ ns, c ∈ n.waiting := by
  induction ns with
  | nil => simp [waitingIn]
  | cons n ns ih => simp [waitingIn, ih]

theorem waitingIn_eq_nil {ns : List Node} : waitingIn ns = [] ↔ ∀ n ∈ ns, n.waiting = [] := by
  induction ns with
  | nil => simp [waitingIn]
  | cons n ns ih => simp [waitingIn, ih]

theorem mem_serialsIn {ns : List Node} {serial : Nat} :
    serial ∈ serialsIn ns ↔ ∃ n ∈ ns, serial ∈ n.serials := by
  induction ns with
  | nil => simp [serialsIn]
  | cons n ns ih => simp [serialsIn, ih]

theorem serials_placeholder (source : Conditional Node) :
    (placeholder source).serials =
      source.serial :: (serialsIn source.outcomes ++ serialsInOption source.fallback) := by
  cases source
  rw [serials, serialsOf]

/-- A walk into a tree can come to all that waits there. -/
theorem serial_mem_serials {n : Node} {c : Conditional Node} (mem : c ∈ n.waiting) :
    c.serial ∈ n.serials := by
  induction n using container_induction with
  | container form children ih =>
    obtain ⟨child, within, mem⟩ := mem_waitingIn.mp mem
    exact mem_serialsIn.mpr ⟨child, within, ih child within mem⟩
  | leaf n other =>
    cases n with
    | container form children => exact absurd rfl (other form children)
    | placeholder source =>
      obtain rfl := List.mem_singleton.mp mem
      rw [serials_placeholder]
      exact List.mem_cons_self
    | _ => cases mem

/-- A tree that is met on the way into another one through containers, or that one itself. -/
inductive Within (m : Node) : Node → Prop
  | whole : Within m m
  | child {form : Form} {children : List Node} {n : Node} (mem : n ∈ children)
      (within : Within m n) : Within m (container form children)

theorem Within.waiting_subset {m n : Node} (within : Within m n) : m.waiting ⊆ n.waiting := by
  induction within with
  | whole => exact List.Subset.refl _
  | child mem _ ih => exact fun c waits => mem_waitingIn.mpr ⟨_, mem, ih waits⟩

theorem Within.serials_subset {m n : Node} (within : Within m n) : m.serials ⊆ n.serials := by
  induction within with
  | whole => exact List.Subset.refl _
  | child mem _ ih => exact fun serial mem' => mem_serialsIn.mpr ⟨_, mem, ih mem'⟩

theorem allStatic_iff {ns : List Node} : allStatic ns = true ↔ ∀ n ∈ ns, n.isStatic = true := by
  induction ns with
  | nil => simp [allStatic]
  | cons n ns ih => simp [allStatic, ih]

/-- Nothing waits in a static tree. -/
theorem waiting_eq_nil_of_isStatic {n : Node} (static : n.isStatic = true) : n.waiting = [] := by
  induction n using container_induction with
  | container form children ih =>
    have each := allStatic_iff.mp static
    exact waitingIn_eq_nil.mpr fun n mem => ih n mem (each n mem)
  | leaf n other =>
    cases n with
    | container form children => exact absurd rfl (other form children)
    | placeholder source => exact absurd static Bool.false_ne_true
    | _ => rfl

/-- Every conditional that waits in a built tree passes its checks. -/
theorem Built.checked_of_mem_waiting {n : Node} (built : n.Built) {c : Conditional Node}
    (mem : c ∈ n.waiting) : c.Checked := by
  induction built with
  | container _ _ ih =>
    obtain ⟨child, within, mem⟩ := mem_waitingIn.mp mem
    exact ih child within mem
  | placeholder built =>
    obtain rfl := List.mem_singleton.mp mem
    cases built with
    | conditional _ checked => exact checked
  | _ => exact absurd mem List.not_mem_nil

/-- The conditionals that wait in a tree are those of its open places, in the same order. -/
theorem map_openPlaces (n : Node) : n.openPlaces.map Prod.snd = n.waiting := by
  induction n using container_induction with
  | container form children ih =>
    have along : ∀ position, (openPlacesFrom position children).map Prod.snd =
        waitingIn children := by
      clear form
      induction children with
      | nil => exact fun _ => rfl
      | cons n ns rest =>
        intro position
        have first : n.openPlaces.map Prod.snd = n.waiting := ih n List.mem_cons_self
        have others := rest fun m mem => ih m (List.mem_cons_of_mem n mem)
        simp only [openPlacesFrom, waitingIn, List.map_append, List.map_map, ← first,
          others (position + 1), Function.comp_def]
    exact along 0
  | leaf n other =>
    cases n with
    | container form children => exact absurd rfl (other form children)
    | _ => rfl

end Node

namespace Conditional

/-- The values that a conditional may stand for. -/
def candidates (c : Conditional Node) : List Node :=
  c.outcomes ++ c.fallback.toList

/-- A walk that comes to a conditional can come to all that is in a value of it. -/
theorem serials_subset {c : Conditional Node} {value : Node} (mem : value ∈ c.candidates) :
    value.serials ⊆ (Node.placeholder c).serials := by
  intro serial within
  rw [Node.serials_placeholder]
  apply List.mem_cons_of_mem
  obtain mem | mem := List.mem_append.mp mem
  · exact List.mem_append_left _ (Node.mem_serialsIn.mpr ⟨value, mem, within⟩)
  · apply List.mem_append_right
    rw [Option.mem_toList.mp mem]
    exact within

/-- Nothing waits in a value that a checked conditional may stand for. -/
theorem Checked.waiting_eq_nil {c : Conditional Node} (checked : c.Checked) {value : Node}
    (mem : value ∈ c.candidates) : value.waiting = [] :=
  Node.waiting_eq_nil_of_isStatic (static_of_ofParts checked.2 value mem)

end Conditional

end ArenaVariations
