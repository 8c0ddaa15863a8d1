import ArenaVariations.Proofs.Resolution.Chain
import ArenaVariations.Proofs.Resolution.Places
import ArenaVariations.Proofs.Resolution.Settling

/-!
# How settling ends

Settling a variation either fills every placeholder in, each with a value that its conditional
names, or fails because the variation cannot be finished. In the first case nothing waits any
more; in the second the template is to blame, and no rule of the library is broken.
-/

namespace ArenaVariations

/-- A computation fails only because a variation cannot be finished. -/
def FailsUnresolved {α : Type} (x : Except Error α) : Prop :=
  ∀ e, x = .error e → ∃ failure excerpt, e = .unresolved failure excerpt

section FailsUnresolved

variable {α β : Type}

theorem failsUnresolved_ok (a : α) : FailsUnresolved (.ok a) :=
  nofun

theorem failsUnresolved_error (failure : Failure) (excerpt : Option String) :
    FailsUnresolved (.error (.unresolved failure excerpt) : Except Error α) := by
  rintro _ ⟨⟩
  exact ⟨failure, excerpt, rfl⟩

theorem FailsUnresolved.bind {x : Except Error α} {f : α → Except Error β}
    (h : FailsUnresolved x) (next : ∀ a, FailsUnresolved (f a)) : FailsUnresolved (x >>= f) := by
  cases x with
  | error e =>
    rintro _ ⟨⟩
    exact h e rfl
  | ok a => exact next a

theorem FailsUnresolved.map {x : Except Error α} {f : α → β} (h : FailsUnresolved x) :
    FailsUnresolved (f <$> x) := by
  cases x with
  | error e =>
    rintro _ ⟨⟩
    exact h e rfl
  | ok a => exact failsUnresolved_ok (f a)

theorem failsUnresolved_mapM {f : α → Except Error β} {xs : List α}
    (each : ∀ x ∈ xs, FailsUnresolved (f x)) : FailsUnresolved (xs.mapM f) := by
  induction xs with
  | nil => exact failsUnresolved_ok []
  | cons x xs ih =>
    obtain ⟨first, rest⟩ := List.forall_mem_cons.mp each
    rw [List.mapM_cons]
    exact first.bind fun y => (ih rest).bind fun ys => failsUnresolved_ok (y :: ys)

end FailsUnresolved

namespace Node

variable {force : Conditional Node → Except Error Node}

theorem walk?_failsUnresolved (forced : ∀ c, FailsUnresolved (force c)) (segments : List String)
    (n : Node) : FailsUnresolved (n.walk? force segments) := by
  induction segments generalizing n with
  | nil => exact failsUnresolved_ok (some n)
  | cons segment rest ih =>
    rw [walk?]
    split
    · exact failsUnresolved_ok none
    · exact (forced _).bind fun value => ih value
    · exact ih _

theorem resolveReference_failsUnresolved (forced : ∀ c, FailsUnresolved (force c)) (root : Node)
    (reference : String) : FailsUnresolved (root.resolveReference force reference) := by
  unfold resolveReference
  dsimp only
  split
  · refine (walk?_failsUnresolved forced _ _).bind fun value => ?_
    cases value with
    | none => exact failsUnresolved_error _ _
    | some value => exact failsUnresolved_ok value
  · exact failsUnresolved_error _ _

end Node

theorem Condition.resolveWith_failsUnresolved {force : Conditional Node → Except Error Node}
    (forced : ∀ c, FailsUnresolved (force c)) (root : Node) (c : Condition Node) :
    FailsUnresolved (c.resolveWith root force) :=
  (failsUnresolved_mapM fun reference _ =>
    Node.resolveReference_failsUnresolved forced root reference).bind fun _ =>
      failsUnresolved_ok _

namespace Conditional

theorem outcome_failsUnresolved (c : Conditional Node) (r : Resolution) :
    FailsUnresolved (c.outcome r) := by
  unfold outcome
  split
  · exact failsUnresolved_ok _
  · dsimp only
    split
    · exact failsUnresolved_error _ _
    · split
      · exact failsUnresolved_error _ _
      · exact failsUnresolved_ok _

/-- Deciding a conditional fails only because the variation cannot be finished. The induction is
on the number of idle conditionals, of which each one that is decided on the way takes itself
out. -/
theorem decideWith_failsUnresolved (root : Node) (idle : List Nat) (c : Conditional Node) :
    FailsUnresolved (decideWith root idle c) := by
  by_cases mem : c.serial ∈ idle
  · rw [decideWith_of_mem mem]
    have forced : ∀ other, FailsUnresolved (valueWith root (otherThan c.serial idle) other) :=
      fun other => (decideWith_failsUnresolved root (otherThan c.serial idle) other).map
    exact (Condition.resolveWith_failsUnresolved forced root c.condition).bind
      fun r => outcome_failsUnresolved c r
  · rw [decideWith_of_not_mem mem]
    exact failsUnresolved_error _ _
termination_by idle.length
decreasing_by exact length_otherThan mem

theorem decide_failsUnresolved (root : Node) (c : Conditional Node) :
    FailsUnresolved (c.decide root) :=
  decideWith_failsUnresolved root _ c

end Conditional

namespace Conditional

/-- A checked conditional names a value as one that it may stand for. -/
def Names (c : Conditional Node) (value : Node) : Prop :=
  c.Checked ∧ value ∈ c.candidates

theorem Names.waiting_eq_nil {c : Conditional Node} {value : Node} (h : c.Names value) :
    value.waiting = [] :=
  h.1.waiting_eq_nil h.2

end Conditional

theorem LabelRule.decide_failsUnresolved (root : Node) (rule : LabelRule Node) :
    FailsUnresolved (rule.decide root) := by
  refine (Condition.resolveWith_failsUnresolved
    (fun c => (c.decide_failsUnresolved root).map) root rule.condition).bind fun r => ?_
  split
  · exact failsUnresolved_ok _
  · exact failsUnresolved_error _ _

namespace Variation

/-- A loop of settling steps fails as its steps do. -/
theorem run_forM_failsUnresolved {α : Type} {step : α → Settling Unit}
    (each : ∀ x v, FailsUnresolved ((step x).run.run v).1) (xs : List α) (v : Variation) :
    FailsUnresolved ((xs.forM step).run.run v).1 := by
  induction xs generalizing v with
  | nil => exact failsUnresolved_ok ()
  | cons x xs ih =>
    have fails := each x v
    rw [List.forM_eq_forM] at ih ⊢
    rw [List.forM_cons, Settling.run_bind]
    generalize (step x).run.run v = r at fails ⊢
    obtain ⟨⟨⟩ | ⟨⟩, w⟩ := r
    · exact fails
    · exact ih w

theorem run_apply_failsUnresolved (rule : LabelRule Node) (v : Variation) :
    FailsUnresolved ((apply rule).run.run v).1 := by
  have fails := rule.decide_failsUnresolved v.node
  rw [run_apply]
  cases decided : rule.decide v.node with
  | error e =>
    rintro _ ⟨⟩
    exact fails e decided
  | ok label => exact failsUnresolved_ok ()

/-- The way from a variation to one that is settled further. Each step fills the first placeholder
in with what its conditional stands for by then, and adds its label. -/
inductive Fills : Variation → List (Node × Option String) → Variation → Prop where
  | refl (v : Variation) : Fills v [] v
  | step {v w : Variation} {c : Conditional Node} {path : List Nat} {m : Node}
      {pick : Node × Option String} {picks : List (Node × Option String)}
      (decided : c.decide v.node = .ok pick) (first : Node.FillsFirst c pick.1 path v.node m)
      (rest : Fills ⟨m, v.labels ++ pick.2.toList⟩ picks w) : Fills v (pick :: picks) w

/-- Going through the open places fills them in, up to the end or to the first one whose
conditional cannot be decided. Each step leaves the places behind it open, which carries the
induction. -/
theorem exists_fills {places : List (List Nat × Conditional Node)}
    (checked : ∀ place ∈ places, place.2.Checked) {v : Variation}
    (left : v.node.openPlaces = places) :
    ∃ result picks w, (places.forM fun place => fill place.1).run.run v = (result, w) ∧
      Fills v picks w ∧
      (result = .ok () ∧ w.node.waiting = [] ∨
        ∃ c e, w.node.waiting.head? = some c ∧ c.decide w.node = .error e ∧
          result = .error e) := by
  induction places generalizing v with
  | nil => exact ⟨.ok (), [], v, rfl, .refl v, .inl ⟨rfl, Node.openPlaces_eq_nil.mp left⟩⟩
  | cons place places ih =>
    obtain ⟨here, others⟩ := List.forall_mem_cons.mp checked
    rw [List.forM_eq_forM, List.forM_cons, Settling.run_bind]
    cases decided : place.2.decide v.node with
    | error e =>
      refine ⟨.error e, [], v, ?_, .refl v, .inr ⟨place.2, e, ?_, decided, rfl⟩⟩
      · rw [run_fill_of_error (Node.at?_of_openPlaces left) decided]
      · rw [← Node.map_openPlaces, left, List.map_cons, List.head?_cons]
    | ok pick =>
      have candidate := Conditional.mem_candidates_of_decideWith decided
      obtain ⟨m, first⟩ := Node.exists_fillsFirst (here.waiting_eq_nil candidate) left
      have behind : m.openPlaces = places :=
        (List.cons.inj (first.openPlaces_eq.symm.trans left)).2
      obtain ⟨result, picks, w, ran, fills, ends⟩ :=
        ih others (v := ⟨m, v.labels ++ pick.2.toList⟩) behind
      refine ⟨result, pick :: picks, w, ?_, .step decided first fills, ends⟩
      rw [run_fill_of_ok first.at?_eq decided first.replaceAt?_eq]
      exact ran

/-- On the way, placeholders are filled in with values that their conditionals name. -/
theorem Fills.filling {v w : Variation} {picks : List (Node × Option String)}
    (h : Fills v picks w) (checked : ∀ c ∈ v.node.waiting, c.Checked) :
    Node.Filling Conditional.Names v.node w.node := by
  induction h with
  | refl v => exact .same v.node
  | @step v w c path m pick picks decided first _ ih =>
    rw [first.waiting_eq] at checked
    obtain ⟨here, others⟩ := List.forall_mem_cons.mp checked
    have named : c.Names pick.1 := ⟨here, Conditional.mem_candidates_of_decideWith decided⟩
    exact (first.filling named).trans (ih others) fun _ _ => Conditional.Names.waiting_eq_nil

/-- The run of settling: the placeholders are filled in, and the rules are applied if none of them
fails. -/
theorem run_settle {v : Variation} (checked : ∀ c ∈ v.node.waiting, c.Checked)
    (rules : List (LabelRule Node)) :
    ∃ picks w, Fills v picks w ∧
      ((w.node.waiting = [] ∧
          (settle rules).run.run v = (rules.forM apply).run.run w) ∨
        ∃ c e, w.node.waiting.head? = some c ∧ c.decide w.node = .error e ∧
          (settle rules).run.run v = (.error e, w)) := by
  have each : ∀ place ∈ v.node.openPlaces, place.2.Checked := fun place mem =>
    checked _ (Node.map_openPlaces v.node ▸ List.mem_map_of_mem mem)
  obtain ⟨result, picks, w, ran, fills, ends⟩ := exists_fills each rfl
  refine ⟨picks, w, fills, ?_⟩
  simp only [settle, Settling.run_bind, Settling.run_get, ran]
  obtain ⟨rfl, done⟩ | ⟨c, e, waits, failed, rfl⟩ := ends
  · exact .inl ⟨done, rfl⟩
  · exact .inr ⟨c, e, waits, failed, rfl⟩

/-- A variation that is settled has its placeholders filled in, and nothing waits any more. -/
theorem filling_of_settled {v w : Variation} {rules : List (LabelRule Node)}
    (checked : ∀ c ∈ v.node.waiting, c.Checked) (h : v.settled rules = .ok w) :
    Node.Filling Conditional.Names v.node w.node ∧ w.node.waiting = [] := by
  obtain ⟨picks, stage, fills, ⟨done, ran⟩ | ⟨c, e, -, -, ran⟩⟩ := run_settle checked rules
  · have kept := run_forM_apply_node rules stage
    rw [settled, ran] at h
    cases ruled : (rules.forM apply).run.run stage with
    | mk result final =>
      simp only [ruled] at h kept
      cases result with
      | error e => cases h
      | ok =>
        cases h
        exact kept ▸ ⟨fills.filling checked, done⟩
  · rw [settled, ran] at h
    cases h

/-- A variation that is not settled cannot be finished. -/
theorem settled_failsUnresolved {v : Variation} (checked : ∀ c ∈ v.node.waiting, c.Checked)
    (rules : List (LabelRule Node)) : FailsUnresolved (v.settled rules) := by
  obtain ⟨picks, stage, -, ⟨-, ran⟩ | ⟨c, e, -, failed, ran⟩⟩ := run_settle checked rules
  · have applied := run_forM_failsUnresolved run_apply_failsUnresolved rules stage
    rw [settled, ran]
    generalize (rules.forM apply).run.run stage = ruled at applied ⊢
    obtain ⟨e | _, final⟩ := ruled
    · rintro _ ⟨⟩
      exact applied e rfl
    · exact failsUnresolved_ok final
  · rw [settled, ran]
    rintro _ ⟨⟩
    exact c.decide_failsUnresolved stage.node e failed

end Variation

end ArenaVariations
