import ArenaVariations.Proofs.Resolution.Filling

/-!
# Filling places

Settling goes through the places of placeholders in order. When the first one is filled in, the
others stay where they are and become the places of the new tree. When all of them are filled in
there is just one tree that they can have led to.
-/

namespace ArenaVariations

open List (Forall₂)

namespace Node

mutual

/-- The tree with every placeholder replaced by the value of its conditional. -/
def filledBy (value : Conditional Node → Node) : Node → Node
  | placeholder source => value source
  | container form children => container form (filledByAll value children)
  | n => n

/-- The trees of a list with every placeholder replaced by the value of its conditional. -/
def filledByAll (value : Conditional Node → Node) : List Node → List Node
  | [] => []
  | n :: ns => n.filledBy value :: filledByAll value ns

end

theorem filledByAll_eq_map (value : Conditional Node → Node) (ns : List Node) :
    filledByAll value ns = ns.map (filledBy value) := by
  induction ns with
  | nil => rfl
  | cons n ns ih => rw [filledByAll, ih, List.map_cons]

/-- Nothing is replaced where nothing waits. -/
theorem filledBy_of_bare {n : Node} (bare : n.waiting = []) (value : Conditional Node → Node) :
    n.filledBy value = n := by
  induction n using container_induction with
  | container form children ih =>
    have each := waitingIn_eq_nil.mp bare
    rw [filledBy, filledByAll_eq_map, List.map_congr_left fun n mem => ih n mem (each n mem),
      List.map_id']
  | leaf n other =>
    cases n with
    | container form children => exact absurd rfl (other form children)
    | placeholder source => cases bare
    | _ => rfl

theorem openPlaces_eq_nil {n : Node} : n.openPlaces = [] ↔ n.waiting = [] := by
  rw [← map_openPlaces, List.map_eq_nil_iff]

/-- The conditional of an open place waits. -/
theorem mem_waiting_of_openPlaces_eq {n : Node} {place : List Nat × Conditional Node}
    {rest : List (List Nat × Conditional Node)} (first : n.openPlaces = place :: rest) :
    place.2 ∈ n.waiting := by
  rw [← map_openPlaces, first]
  exact List.mem_cons_self

section Filling

variable {value : Conditional Node → Node → Prop}

theorem filling_trans_all {ns ms ks : List Node}
    (first : Forall₂ (fun n m => ∀ k, Filling value m k → Filling value n k) ns ms)
    (second : Forall₂ (Filling value) ms ks) : Forall₂ (Filling value) ns ks := by
  induction first generalizing ks with
  | nil => exact second
  | cons first _ ih =>
    cases second with
    | cons second rest => exact .cons (first _ second) (ih rest)

/-- More placeholders are filled in by filling some in, and then others. -/
theorem Filling.trans {n m k : Node} (first : Filling value n m) (second : Filling value m k)
    (bare : ∀ c v, value c v → v.waiting = []) : Filling value n k := by
  induction first generalizing k with
  | same => exact second
  | placeholder fits => exact second.eq_of_bare (bare _ _ fits) ▸ .placeholder fits
  | container length each ih =>
    obtain ⟨filled, rfl, others⟩ := second.exists_forall₂
    exact .of_forall₂ _ (filling_trans_all
      (List.forall₂_iff_zip.mpr ⟨length, fun mem k => ih mem⟩) others)

/-- When nothing waits any more, every placeholder has been replaced. -/
theorem Filling.eq_filledBy {n m : Node} (h : Filling value n m) (done : m.waiting = [])
    {given : Conditional Node → Node} (agree : ∀ c v, value c v → given c = v) :
    n.filledBy given = m := by
  induction h with
  | same => exact filledBy_of_bare done given
  | placeholder fits => exact agree _ _ fits
  | @container form children filled length each ih =>
    have done := waitingIn_eq_nil.mp done
    have same : Forall₂ (fun n m => n.filledBy given = m) children filled :=
      List.forall₂_iff_zip.mpr ⟨length, fun mem => ih mem (done _ (List.of_mem_zip mem).2)⟩
    have mapped : children.map (filledBy given) = filled := by
      rwa [← List.forall₂_map_left_iff, List.forall₂_eq_eq_eq] at same
    rw [filledBy, filledByAll_eq_map, mapped]

end Filling

theorem openPlacesFrom_append (position : Nat) (ns ms : List Node) :
    openPlacesFrom position (ns ++ ms) =
      openPlacesFrom position ns ++ openPlacesFrom (position + ns.length) ms := by
  induction ns generalizing position with
  | nil => rfl
  | cons n ns ih =>
    rw [List.cons_append, openPlacesFrom, openPlacesFrom, ih, List.append_assoc, List.length_cons,
      Nat.add_assoc, Nat.add_comm 1]

theorem openPlacesFrom_of_bare {ns : List Node} (bare : ∀ n ∈ ns, n.waiting = [])
    (position : Nat) : openPlacesFrom position ns = [] := by
  induction ns generalizing position with
  | nil => rfl
  | cons n ns ih =>
    obtain ⟨first, rest⟩ := List.forall_mem_cons.mp bare
    rw [openPlacesFrom, openPlaces_eq_nil.mpr first, ih rest]
    rfl

/-- The first open place below some trees is in the first of them where something waits. -/
theorem exists_first_openPlacesFrom {c : Conditional Node} {ns : List Node} {position : Nat}
    {place : List Nat} {rest : List (List Nat × Conditional Node)}
    (first : openPlacesFrom position ns = (place, c) :: rest) :
    ∃ before n after path later, ns = before ++ n :: after ∧ (∀ b ∈ before, b.waiting = []) ∧
      place = (position + before.length) :: path ∧ n.openPlaces = (path, c) :: later := by
  induction ns generalizing position with
  | nil => cases first
  | cons n ns ih =>
    cases places : n.openPlaces with
    | nil =>
      rw [openPlacesFrom, places] at first
      obtain ⟨before, m, after, path, later, rfl, bare, rfl, inner⟩ := ih first
      refine ⟨n :: before, m, after, path, later, rfl, ?_, ?_, inner⟩
      · exact List.forall_mem_cons.mpr ⟨openPlaces_eq_nil.mp places, bare⟩
      · rw [List.length_cons, Nat.add_assoc, Nat.add_comm 1]
    | cons head later =>
      obtain ⟨path, source⟩ := head
      simp only [openPlacesFrom, places, List.map_cons, List.cons_append, List.cons.injEq,
        Prod.mk.injEq] at first
      obtain ⟨⟨rfl, rfl⟩, -⟩ := first
      exact ⟨[], n, ns, path, later, rfl, List.forall_mem_nil _, rfl, places⟩

/-- The second tree is the first one with a value in the place of the first placeholder. -/
inductive FillsFirst (c : Conditional Node) (value : Node) : List Nat → Node → Node → Prop where
  | here (bare : value.waiting = []) : FillsFirst c value [] (.placeholder c) value
  | inside {form : Form} {before after : List Node} {path : List Nat} {n m : Node}
      (bare : ∀ b ∈ before, b.waiting = []) (first : FillsFirst c value path n m) :
      FillsFirst c value (before.length :: path) (.container form (before ++ n :: after))
        (.container form (before ++ m :: after))

/-- A value without placeholders can be filled in where the first placeholder stands. -/
theorem exists_fillsFirst {c : Conditional Node} {value : Node} (bare : value.waiting = [])
    {n : Node} {path : List Nat} {rest : List (List Nat × Conditional Node)}
    (first : n.openPlaces = (path, c) :: rest) : ∃ m, FillsFirst c value path n m := by
  induction n using container_induction generalizing path rest with
  | container form children ih =>
    obtain ⟨before, n, after, path, later, rfl, empty, rfl, inner⟩ :=
      exists_first_openPlacesFrom first
    obtain ⟨m, fills⟩ := ih n (by simp) inner
    rw [Nat.zero_add]
    exact ⟨_, .inside empty fills⟩
  | leaf n other =>
    cases n with
    | container form children => exact absurd rfl (other form children)
    | placeholder source =>
      cases first
      exact ⟨value, .here bare⟩
    | _ => cases first

namespace FillsFirst

variable {c : Conditional Node} {value n m : Node} {path : List Nat}

theorem at?_eq (h : FillsFirst c value path n m) : n.at? path = some (.placeholder c) := by
  induction h with
  | here => rw [at?]
  | inside _ _ ih => simpa [at?] using ih

theorem replaceAt?_eq (h : FillsFirst c value path n m) : n.replaceAt? path value = some m := by
  induction h with
  | here => rw [replaceAt?]
  | inside _ _ ih => simp [replaceAt?, ih]

/-- The other places stay where they are. -/
theorem openPlaces_eq (h : FillsFirst c value path n m) :
    n.openPlaces = (path, c) :: m.openPlaces := by
  induction h with
  | here bare => rw [openPlaces_eq_nil.mpr bare, openPlaces]
  | @inside form before after path n m bare _ ih =>
    simp [openPlaces, openPlacesFrom_append, openPlacesFrom_of_bare bare, openPlacesFrom, ih]

theorem waiting_eq (h : FillsFirst c value path n m) : n.waiting = c :: m.waiting := by
  rw [← map_openPlaces, h.openPlaces_eq, List.map_cons, map_openPlaces]

theorem filling {fits : Conditional Node → Node → Prop} (h : FillsFirst c value path n m)
    (fit : fits c value) : Filling fits n m := by
  induction h with
  | here => exact .placeholder fit
  | inside _ _ ih =>
    refine .of_forall₂ _ (List.rel_append ?_ (.cons ih ?_))
    all_goals exact List.forall₂_same.mpr fun b _ => .same b

end FillsFirst

/-- A placeholder stands at the first open place. -/
theorem at?_of_openPlaces {n : Node} {place : List Nat × Conditional Node}
    {rest : List (List Nat × Conditional Node)} (first : n.openPlaces = place :: rest) :
    n.at? place.1 = some (.placeholder place.2) := by
  have bare : (Node.scalar .null).waiting = [] := rfl
  obtain ⟨m, fills⟩ := exists_fillsFirst bare first
  exact fills.at?_eq

end Node

end ArenaVariations
