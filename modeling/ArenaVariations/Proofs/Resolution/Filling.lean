import ArenaVariations.Proofs.Resolution.Walk
import Mathlib.Data.List.Forall2

/-!
# Trees filled in halfway

While a variation is settled, some of its placeholders are filled in and the others still wait.
`Node.Filling` relates a tree to each of its stages on the way. Steps, searches for records and
walks along references do the same in both, as far as the values that are filled in allow: they
must be static, and hold no record that is searched for.
-/

namespace ArenaVariations

open List (Forall₂)

namespace Node

/-- The second tree is the first one with some of its placeholders filled in. -/
inductive Filling (value : Conditional Node → Node → Prop) : Node → Node → Prop where
  | same (n : Node) : Filling value n n
  | placeholder {source : Conditional Node} {filled : Node} (fits : value source filled) :
      Filling value (.placeholder source) filled
  | container {form : Form} {children filled : List Node}
      (length : children.length = filled.length)
      (each : ∀ {n m}, (n, m) ∈ children.zip filled → Filling value n m) :
      Filling value (.container form children) (.container form filled)

section Filling

variable {value : Conditional Node → Node → Prop}

theorem Filling.of_forall₂ {children filled : List Node} (form : Form)
    (each : Forall₂ (Filling value) children filled) :
    Filling value (.container form children) (.container form filled) :=
  .container each.length_eq (List.forall₂_iff_zip.mp each).2

/-- A container is filled in by filling its children in. -/
theorem Filling.exists_forall₂ {form : Form} {children : List Node} {m : Node}
    (h : Filling value (.container form children) m) :
    ∃ filled, m = .container form filled ∧ Forall₂ (Filling value) children filled := by
  cases h with
  | same => exact ⟨children, rfl, List.forall₂_same.mpr fun n _ => .same n⟩
  | @container _ _ filled length each =>
    exact ⟨filled, rfl, List.forall₂_iff_zip.mpr ⟨length, each⟩⟩

/-- What is not a placeholder is not filled in by one. -/
theorem Filling.ne_placeholder {n m : Node} (h : Filling value n m)
    (other : ∀ source, n ≠ .placeholder source) (source : Conditional Node) :
    m ≠ .placeholder source := by
  cases h with
  | same => exact other source
  | placeholder => exact absurd rfl (other _)
  | container => exact nofun

/-- A tree where nothing waits cannot be filled in. -/
theorem Filling.eq_of_bare {n m : Node} (h : Filling value n m) (bare : n.waiting = []) :
    n = m := by
  induction h with
  | same => rfl
  | placeholder => cases bare
  | @container form children filled length each ih =>
    have bare := waitingIn_eq_nil.mp bare
    have same : Forall₂ (· = ·) children filled :=
      List.forall₂_iff_zip.mpr ⟨length, fun mem => ih mem (bare _ (List.of_mem_zip mem).1)⟩
    rw [List.forall₂_eq_eq_eq] at same
    rw [same]

theorem waitingIn_subset {ns ms : List Node}
    (each : Forall₂ (fun n m => m.waiting ⊆ n.waiting) ns ms) : waitingIn ms ⊆ waitingIn ns := by
  induction each with
  | nil => exact List.Subset.refl _
  | cons first _ ih =>
    exact List.append_subset.mpr ⟨List.subset_append_of_subset_left _ first,
      List.subset_append_of_subset_right _ ih⟩

/-- If nothing waits in the values, then only what waited before waits in the filled tree. -/
theorem Filling.waiting_subset {n m : Node} (h : Filling value n m)
    (bare : ∀ c v, value c v → v.waiting = []) : m.waiting ⊆ n.waiting := by
  induction h with
  | same => exact List.Subset.refl _
  | placeholder fits => exact bare _ _ fits ▸ List.nil_subset _
  | container length each ih => exact waitingIn_subset (List.forall₂_iff_zip.mpr ⟨length, ih⟩)

theorem getElem?_rel {R : Node → Node → Prop} {ns ms : List Node} (each : Forall₂ R ns ms)
    (i : Nat) : Option.Rel R ns[i]? ms[i]? := by
  induction each generalizing i with
  | nil => exact .none
  | cons first _ ih =>
    cases i with
    | zero => exact .some first
    | succ i => simpa only [List.getElem?_cons_succ] using ih i

theorem lookup_rel {κ : Type} {R : Node → Node → Prop} {children filled : List Node}
    (each : Forall₂ R children filled) (addresses : List κ) (matching : κ → Bool) :
    Option.Rel R (lookup addresses children matching) (lookup addresses filled matching) := by
  induction each generalizing addresses with
  | nil => cases addresses <;> exact .none
  | cons first _ ih =>
    cases addresses with
    | nil => exact .none
    | cons address addresses =>
      have rest := ih addresses
      simp only [lookup, List.zip_cons_cons, List.find?_cons] at rest ⊢
      cases matching address with
      | true => exact .some first
      | false => exact rest

theorem Filling.rel_refl : ∀ found : Option Node, Option.Rel (Filling value) found found
  | none => .none
  | some found => .some (.same found)

/-- A step in a filled tree leads to what the step in the tree itself leads to, filled in. -/
theorem Filling.step?_rel {n m : Node} (h : Filling value n m)
    (other : ∀ source, n ≠ .placeholder source) (segment : String) :
    Option.Rel (Filling value) (n.step? segment) (m.step? segment) := by
  cases n with
  | container form children =>
    obtain ⟨filled, rfl, each⟩ := h.exists_forall₂
    cases form with
    | sequence =>
      cases position : Reference.position? segment with
      | none =>
        simp only [step?, position]
        exact .none
      | some i =>
        simp only [step?, position]
        exact getElem?_rel each i
    | mapping keys =>
      cases position : Reference.position? segment with
      | none =>
        simp only [step?, position, valueNamed?, valueAt?_mapping]
        exact lookup_rel each _ _
      | some i =>
        simp only [step?, position, valueAt?_mapping]
        split
        case isTrue => exact lookup_rel each _ _
        case isFalse => exact .none
    | record kind id names =>
      cases position : Reference.position? segment with
      | none =>
        simp only [step?, position, field?_record]
        exact lookup_rel each _ _
      | some i =>
        simp only [step?, position]
        exact .none
  | placeholder source => exact absurd rfl (other source)
  | _ =>
    cases h
    exact rel_refl _

theorem rel_or {R : Node → Node → Prop} {a b c d : Option Node} (first : Option.Rel R a b)
    (second : Option.Rel R c d) : Option.Rel R (a.or c) (b.or d) := by
  cases first with
  | none => exact second
  | some first => exact .some first

theorem findRecordIn?_rel {R : Node → Node → Prop} {id : String} {ns ms : List Node}
    (each : Forall₂ (fun n m => Option.Rel R (n.findRecord? id) (m.findRecord? id)) ns ms) :
    Option.Rel R (findRecordIn? id ns) (findRecordIn? id ms) := by
  induction each with
  | nil => exact .none
  | cons first _ ih => exact rel_or first ih

/-- The record with an id is found in the same place of a filled tree, if the values that are
filled in hold no record with this id. -/
theorem Filling.findRecord?_rel {n m : Node} (h : Filling value n m) {id : String}
    (absent : ∀ c v, value c v → v.findRecord? id = none) :
    Option.Rel (Filling value) (n.findRecord? id) (m.findRecord? id) := by
  induction h with
  | same n => exact rel_refl _
  | placeholder fits =>
    rw [absent _ _ fits]
    exact .none
  | @container form children filled length each ih =>
    have deeper := findRecordIn?_rel (List.forall₂_iff_zip.mpr ⟨length, ih⟩)
    cases form with
    | sequence => exact deeper
    | mapping keys => exact deeper
    | record kind own names =>
      simp only [findRecord?]
      split
      case isTrue => exact .some (.container length each)
      case isFalse => exact deeper

/-- What a walk finds is the same in a filled tree, for two ways of deciding conditionals that agree
on the conditional that the walk waits for if it waits still, and of which the first one gives the
value that was filled in otherwise. A container that is found must have nothing that waits. -/
theorem Filling.walk?_eq {n m : Node} (h : Filling value n m)
    (other : ∀ source, n ≠ .placeholder source) (bare : ∀ c v, value c v → v.waiting = [])
    {force force' : Conditional Node → Except Error Node} {segments : List String}
    (waits : ∀ c, n.awaited? segments = some c → c ∈ m.waiting →
      force' c = force c ∧ ∀ v, force c = .ok v → v.waiting = [])
    (filled : ∀ c, n.awaited? segments = some c → ∀ v, value c v → force c = .ok v)
    (closed : ∀ form children, segments.foldlM step? n = some (.container form children) →
      waitingIn children = []) :
    m.walk? force' segments = n.walk? force segments := by
  induction segments generalizing n m with
  | nil =>
    have empty : n.waiting = [] := by
      cases n with
      | container form children => exact closed form children rfl
      | placeholder source => exact absurd rfl (other source)
      | _ => rfl
    rw [h.eq_of_bare empty]
    rfl
  | cons segment rest ih =>
    have steps := h.step?_rel other segment
    generalize stepped : n.step? segment = found at steps
    generalize stepped' : m.step? segment = found' at steps
    cases steps with
    | none => simp only [walk?, stepped, stepped']
    | @some next next' filling =>
      by_cases placed : ∃ source, next = .placeholder source
      · obtain ⟨source, rfl⟩ := placed
        have awaited : n.awaited? (segment :: rest) = some source := by
          simp only [awaited?, stepped]
        cases filling with
        | same =>
          have mem : source ∈ m.waiting := waiting_subset_of_step? stepped' (by simp [waiting])
          obtain ⟨agree, empty⟩ := waits source awaited mem
          simp only [walk?, stepped, stepped', agree]
          apply bind_congr_ok
          intro v decided
          exact walk?_of_bare (empty v decided) rest
        | placeholder fits =>
          have empty := bare source next' fits
          have plain : ∀ c, next' ≠ .placeholder c := by
            rintro c rfl
            cases empty
          rw [walk?_cons stepped' plain]
          simp only [walk?, stepped, filled source awaited next' fits]
          exact walk?_of_bare empty rest
      · have plain : ∀ c, next ≠ .placeholder c := fun c eq => placed ⟨c, eq⟩
        rw [walk?_cons stepped plain, walk?_cons stepped' (filling.ne_placeholder plain)]
        simp only [awaited?_cons stepped plain] at waits filled
        refine ih filling plain ?_ filled ?_
        · intro c awaited mem
          exact waits c awaited (waiting_subset_of_step? stepped' mem)
        · intro form children target
          exact closed form children (by simpa [List.foldlM_cons, stepped] using target)

/-- What a reference finds is the same in a filled tree, for ways of deciding conditionals that
agree as far as its walk needs them. -/
theorem Filling.resolveReference_eq {root root' : Node} (h : Filling value root root')
    (bare : ∀ c v, value c v → v.waiting = [])
    {force force' : Conditional Node → Except Error Node} {reference : String}
    (absent : ∀ c v, value c v → v.origin? reference = none)
    (waits : ∀ c, root.awaitedBy? reference = some c → c ∈ root'.waiting →
      force' c = force c ∧ ∀ v, force c = .ok v → v.waiting = [])
    (filled : ∀ c, root.awaitedBy? reference = some c → ∀ v, value c v → force c = .ok v)
    (closed : ∀ form children, root.target? reference = some (.container form children) →
      waitingIn children = []) :
    root'.resolveReference force' reference = root.resolveReference force reference := by
  have origins : Option.Rel (Filling value) (root.origin? reference) (root'.origin? reference) :=
    h.findRecord?_rel absent
  simp only [Node.resolveReference_eq]
  simp only [awaitedBy?] at waits filled
  simp only [target?] at closed
  generalize found : root.origin? reference = start at origins
  generalize found' : root'.origin? reference = start' at origins
  cases origins with
  | none => rfl
  | @some start start' filling =>
    have plain : ∀ source, start ≠ .placeholder source := by
      obtain ⟨⟨kind, names, children, rfl⟩, -⟩ := findRecord?_eq_some found
      intro source same
      cases same
    simp only [found, Option.bind_some] at waits filled closed
    have walks := filling.walk?_eq plain bare
      (fun c awaited mem => waits c awaited ((findRecord?_eq_some found').2.waiting_subset mem))
      filled closed
    simp only [walks]

end Filling

end Node

end ArenaVariations
