import ArenaVariations.Proofs.Resolution.Walk
import Mathlib.Logic.Relation

/-!
# Chains of conditionals

A conditional that is decided may wait for others, these for others in turn, and so on. If it is
decided in the end, no chain of these leads back to a conditional that is not idle. So it makes no
difference which conditionals are idle, as long as all of those that the chains lead to are.
-/

namespace ArenaVariations

open Relation

theorem Condition.resolveWith_congr {root root' : Node}
    {force force' : Conditional Node → Except Error Node} {c : Condition Node}
    (same : ∀ reference ∈ c.references,
      root'.resolveReference force' reference = root.resolveReference force reference) :
    c.resolveWith root' force' = c.resolveWith root force := by
  rw [resolveWith, resolveWith, mapM_congr same]

namespace Conditional

theorem mem_otherThan {serial other : Nat} {serials : List Nat} :
    other ∈ otherThan serial serials ↔ other ∈ serials ∧ other ≠ serial := by
  simp [otherThan]

/-- The value of a conditional, where only idle conditionals may be decided. -/
def valueWith (root : Node) (idle : List Nat) (c : Conditional Node) : Except Error Node :=
  Prod.fst <$> decideWith root idle c

theorem valueWith_eq_ok {root : Node} {idle : List Nat} {c : Conditional Node} {value : Node} :
    valueWith root idle c = .ok value ↔
      ∃ label, decideWith root idle c = .ok (value, label) := by
  rw [valueWith]
  cases decideWith root idle c with
  | error e => simp [Functor.map, Except.map]
  | ok r => simp [Functor.map, Except.map, Prod.ext_iff]

section Decide

variable {root : Node} {idle : List Nat} {c d : Conditional Node}

theorem decideWith_of_mem (mem : c.serial ∈ idle) :
    decideWith root idle c =
      c.condition.resolveWith root (valueWith root (otherThan c.serial idle)) >>= c.outcome := by
  rw [decideWith, dif_pos mem]
  rfl

theorem decideWith_of_not_mem (not_mem : c.serial ∉ idle) :
    decideWith root idle c = .error (c.failure (.circular c.condition.display)) := by
  rw [decideWith, dif_neg not_mem]
  rfl

/-- A conditional is decided only while it is idle. -/
theorem mem_of_decideWith_eq_ok {r : Node × Option String}
    (decided : decideWith root idle c = .ok r) : c.serial ∈ idle := by
  by_cases mem : c.serial ∈ idle
  · exact mem
  · rw [decideWith_of_not_mem mem] at decided
    cases decided

/-- A case stands for one of the candidates. -/
theorem mem_candidates_of_outcome {resolution : Resolution} {r : Node × Option String}
    (outcome : c.outcome resolution = .ok r) : r.1 ∈ c.candidates := by
  unfold Conditional.outcome at outcome
  split at outcome
  case h_1 value chosen =>
    obtain rfl := pure_eq_ok.mp outcome
    obtain ⟨i, -, chosen⟩ := Option.bind_eq_some_iff.mp chosen
    exact List.mem_append_left _ (List.mem_of_getElem? chosen)
  case h_2 =>
    split at outcome
    case h_1 => cases outcome
    case h_2 value fallback =>
      split at outcome
      case isTrue => cases outcome
      case isFalse =>
        obtain rfl := pure_eq_ok.mp outcome
        exact List.mem_append_right _ (by simp [fallback])

/-- A conditional stands for one of its candidates. -/
theorem mem_candidates_of_decideWith {r : Node × Option String}
    (decided : decideWith root idle c = .ok r) : r.1 ∈ c.candidates := by
  rw [decideWith_of_mem (mem_of_decideWith_eq_ok decided)] at decided
  obtain ⟨resolution, -, outcome⟩ := bind_eq_ok.mp decided
  exact mem_candidates_of_outcome outcome

/-- A conditional that is decided decides those that it waits for on its way. -/
theorem exists_decideWith_of_awaits {r : Node × Option String}
    (decided : decideWith root idle c = .ok r) (awaits : root.Awaits c d) :
    ∃ r, decideWith root (otherThan c.serial idle) d = .ok r := by
  rw [decideWith_of_mem (mem_of_decideWith_eq_ok decided)] at decided
  obtain ⟨resolution, resolved, -⟩ := bind_eq_ok.mp decided
  obtain ⟨values, found, -⟩ := bind_eq_ok.mp resolved
  obtain ⟨reference, mem, awaited⟩ := awaits
  obtain ⟨value, found⟩ := exists_of_mapM_eq_ok found reference mem
  obtain ⟨value, forced⟩ := Node.exists_forced_of_resolveReference found awaited
  obtain ⟨label, decided⟩ := valueWith_eq_ok.mp forced
  exact ⟨_, decided⟩

/-- All that a decided conditional waits for, at once or through others, is idle and differs from
the conditional itself. -/
theorem mem_otherThan_of_transGen {r : Node × Option String}
    (decided : decideWith root idle c = .ok r) (chain : TransGen root.Awaits c d) :
    d.serial ∈ otherThan c.serial idle := by
  induction chain using TransGen.head_induction_on generalizing idle r with
  | single awaits =>
    obtain ⟨_, decided⟩ := exists_decideWith_of_awaits decided awaits
    exact mem_of_decideWith_eq_ok decided
  | head awaits _ ih =>
    obtain ⟨_, decided⟩ := exists_decideWith_of_awaits decided awaits
    exact (mem_otherThan.mp (ih decided)).1

theorem not_transGen_self {r : Node × Option String} (decided : decideWith root idle c = .ok r) :
    ¬ TransGen root.Awaits c c :=
  fun chain => (mem_otherThan.mp (mem_otherThan_of_transGen decided chain)).2 rfl

/-- Nothing waits in the value of a conditional of a built tree. -/
theorem waiting_valueWith_eq_nil (built : root.Built) (mem : c ∈ root.waiting) {root' value : Node}
    (decided : valueWith root' idle c = .ok value) : value.waiting = [] := by
  obtain ⟨label, decided⟩ := valueWith_eq_ok.mp decided
  exact (built.checked_of_mem_waiting mem).waiting_eq_nil (mem_candidates_of_decideWith decided)

/-- A conditional that is decided is decided alike whenever all that it waits for, at once or
through others, is idle. -/
theorem decideWith_of_reflTransGen (built : root.Built) {r : Node × Option String}
    (decided : decideWith root idle c = .ok r) {idle' : List Nat}
    (reached : ∀ d, ReflTransGen root.Awaits c d → d.serial ∈ idle') :
    decideWith root idle' c = .ok r := by
  induction n : idle.length using Nat.strongRecOn generalizing idle idle' c r with
  | _ n ih =>
    subst n
    have mem := mem_of_decideWith_eq_ok decided
    rw [decideWith_of_mem (reached c .refl), ← decided, decideWith_of_mem mem]
    apply congrArg (· >>= c.outcome)
    apply Condition.resolveWith_congr
    intro reference used
    apply Node.resolveReference_congr
    intro d awaited
    have awaits : root.Awaits c d := ⟨reference, used, awaited⟩
    obtain ⟨value, first⟩ := exists_decideWith_of_awaits decided awaits
    have again : decideWith root (otherThan c.serial idle') d = .ok value := by
      refine ih _ (length_otherThan mem) first ?_ rfl
      intro e chain
      have later := mem_otherThan_of_transGen decided (.head' awaits chain)
      exact mem_otherThan.mpr ⟨reached e (chain.head awaits), (mem_otherThan.mp later).2⟩
    constructor
    · rw [valueWith, valueWith, first, again]
    · intro value
      exact waiting_valueWith_eq_nil built awaits.mem_waiting

end Decide

end Conditional

end ArenaVariations
