import ArenaVariations.Proofs.Expansion.Loops
import ArenaVariations.Proofs.Node.Concrete
import Mathlib.Algebra.Group.Nat.Defs

/-!
# Explanations of counts

An explanation lists the combinatorial tags of a tree with their counts, in the order in which the
tags stand, however they are spread over containers; the tags inside of a tag are not listed. Their
counts multiply to the count of the tree, up to the limit: `Node.explain_factorises`.
-/

namespace ArenaVariations

section Join

variable {separator : String}

theorem intercalate_ne_empty {xs : List String} (some_text : xs ≠ [])
    (filled : ∀ x ∈ xs, x ≠ "") : separator.intercalate xs ≠ "" := by
  cases xs with
  | nil => exact absurd rfl some_text
  | cons x xs =>
    have first := filled x List.mem_cons_self
    cases xs with
    | nil => simpa using first
    | cons y ys => simp [String.intercalate_cons_cons, first]

theorem intercalate_eq_empty_iff {xs : List String} (filled : ∀ x ∈ xs, x ≠ "") :
    separator.intercalate xs = "" ↔ xs = [] := by
  constructor
  · intro empty
    by_contra some_text
    exact intercalate_ne_empty some_text filled empty
  · rintro rfl
    rfl

/-- Joining what was joined already, without what is empty, is joining at once. -/
theorem intercalate_filter_map (separator : String) {xss : List (List String)}
    (filled : ∀ xs ∈ xss, ∀ x ∈ xs, x ≠ "") :
    separator.intercalate ((xss.map separator.intercalate).filter fun x => !x.isEmpty) =
      separator.intercalate xss.flatten := by
  induction xss with
  | nil => rfl
  | cons xs xss ih =>
    obtain ⟨here, later⟩ := List.forall_mem_cons.mp filled
    have same := ih later
    have parts : ∀ x ∈ (xss.map separator.intercalate).filter fun x => !x.isEmpty, x ≠ "" := by
      simp
    have others : ∀ x ∈ xss.flatten, x ≠ "" := by
      intro x mem
      obtain ⟨xs, among, mem⟩ := List.mem_flatten.mp mem
      exact later xs among x mem
    rw [List.map_cons, List.flatten_cons]
    by_cases empty : xs = []
    · subst empty
      exact same
    · have kept : separator.intercalate xs ≠ "" := intercalate_ne_empty empty here
      rw [List.filter_cons_of_pos (by simpa using kept)]
      -- Either nothing is left on both sides, or a separator stands before both.
      by_cases last : xss.flatten = []
      · have none_left := same
        rw [last, String.intercalate_nil, intercalate_eq_empty_iff parts] at none_left
        rw [none_left, last, List.append_nil, String.intercalate_singleton]
      · have some_left := (intercalate_eq_empty_iff parts).not.mp
          (same ▸ intercalate_ne_empty last others)
        rw [String.intercalate_cons_of_ne_nil some_left, same,
          String.intercalate_append_of_ne_nil empty last]

end Join

namespace Node

mutual

/-- The combinatorial tags of a tree that stand in no other tag, each before those after it. -/
def outerTags : Node → List Node
  | container _ children => outerTagsIn children
  | n => if n.rule.role = .combinatorial then [n] else []

/-- The combinatorial tags of the trees of a list that stand in no other tag. -/
def outerTagsIn : List Node → List Node
  | [] => []
  | n :: ns => n.outerTags ++ outerTagsIn ns

end

theorem outerTagsIn_eq_flatMap (ns : List Node) : outerTagsIn ns = ns.flatMap outerTags := by
  induction ns with
  | nil => rfl
  | cons n ns ih => rw [outerTagsIn, ih, List.flatMap_cons]

/-- The number of a factor, and the name behind the sign. -/
theorem toList_factor (n : Node) :
    n.factor.toList = Nat.toDigits 10 n.count ++ '#' :: n.rule.name.toList := by
  simp [factor, toString, Nat.repr]

theorem factor_ne_empty (n : Node) : n.factor ≠ "" := by
  intro empty
  have text := n.toList_factor
  simp [empty] at text

theorem blank_not_mem_factor (n : Node) : ' ' ∉ n.factor.toList := by
  rw [toList_factor, List.mem_append, List.mem_cons]
  rintro (digit | sign | letter)
  · exact absurd (Nat.isDigit_of_mem_toDigits (by decide) (by decide) digit) (by decide)
  · cases sign
  · revert letter
    cases n.rule <;> decide

theorem countAll_le {product : Nat} (small : product ≤ countLimit) (ns : List Node) :
    countAll product ns ≤ countLimit := by
  induction ns generalizing product with
  | nil => exact small
  | cons n ns ih => exact ih (Nat.min_le_left _ _)

/-- No count exceeds the limit. -/
theorem count_le : ∀ n : Node, n.count ≤ countLimit
  | container _ children => countAll_le (by decide) children
  | choice _ | labelledChoice _ | scaled .. => Nat.min_le_left _ _
  | palette amount | restriction amount _ =>
    Nat.le_trans (Nat.le_of_lt amount.toNat_lt) (by decide)
  | repetition _ value => value.count_le
  | scalar _ | interval _ | tagged _ | conditional _ | labelRule _ | placeholder _ =>
    show 1 ≤ countLimit by decide

theorem countAll_eq {ns : List Node}
    (each : ∀ n ∈ ns, n.count = min countLimit (n.outerTags.map count).prod) (product : Nat) :
    countAll (min countLimit product) ns =
      min countLimit (product * ((outerTagsIn ns).map count).prod) := by
  induction ns generalizing product with
  | nil => simp [countAll, outerTagsIn]
  | cons n ns ih =>
    obtain ⟨first, others⟩ := List.forall_mem_cons.mp each
    rw [countAll, first, min_mul_min, ih others, outerTagsIn, List.map_append, List.prod_append,
      Nat.mul_assoc]

/-- The counts of the outer tags multiply to the count of the tree. -/
theorem count_eq_prod (n : Node) : n.count = min countLimit (n.outerTags.map count).prod := by
  induction n using container_induction with
  | container form children ih =>
    have counted := countAll_eq ih 1
    rwa [Nat.min_eq_right (by decide), Nat.one_mul] at counted
  | leaf n other =>
    have small := n.count_le
    cases n with
    | container form children => exact absurd rfl (other form children)
    | choice | labelledChoice | palette | scaled | repetition | restriction =>
      simp [outerTags, rule, Rule.role, small]
    | _ => rfl

theorem breakdowns_eq {ns : List Node} {text : Node → String}
    (each : ∀ n ∈ ns, n.breakdown = .ok (text n)) : breakdowns ns = .ok (ns.map text) := by
  induction ns with
  | nil => rfl
  | cons n ns ih =>
    obtain ⟨first, others⟩ := List.forall_mem_cons.mp each
    rw [breakdowns, first, ih others]
    rfl

/-- The factors of a tree in which nothing waits are those of its outer tags. -/
theorem breakdown_eq {n : Node} (settled : n.waiting = []) :
    n.breakdown = .ok (" x ".intercalate (n.outerTags.map factor)) := by
  induction n using container_induction with
  | container form children ih =>
    have each := waitingIn_eq_nil.mp settled
    have filled : ∀ xs ∈ children.map fun n => n.outerTags.map factor, ∀ x ∈ xs, x ≠ "" := by
      simp [factor_ne_empty]
    have joined := intercalate_filter_map " x " filled
    rw [List.map_map, ← List.flatMap_def, ← List.map_flatMap, ← outerTagsIn_eq_flatMap] at joined
    rw [breakdown]
    exact bind_eq_ok.mpr ⟨_, breakdowns_eq fun n mem => ih n mem (each n mem),
      congrArg Except.ok joined⟩
  | leaf n other =>
    cases n with
    | container form children => exact absurd rfl (other form children)
    | placeholder source => cases settled
    | scalar | interval | tagged | conditional | labelRule => rfl
    | _ => exact congrArg Except.ok String.intercalate_singleton.symm

theorem waiting_eq_nil_of_freeOf {n : Node} (free : n.FreeOf [.placeholder]) : n.waiting = [] := by
  induction n using container_induction with
  | container form children ih =>
    exact waitingIn_eq_nil.mpr fun n mem => ih n mem (free.child mem)
  | leaf n other =>
    cases n with
    | container form children => exact absurd rfl (other form children)
    | placeholder => exact absurd (List.mem_singleton_self _) (freeOf_iff.mp free).1
    | _ => rfl

/-- A tree without placeholders is explained. -/
theorem exists_explain {n : Node} (free : n.FreeOf [.placeholder]) :
    ∃ text, n.explain = .ok text := by
  rw [explain, breakdown_eq (waiting_eq_nil_of_freeOf free)]
  exact ⟨_, rfl⟩

/-- A sign stands in every explanation that has factors. -/
theorem sign_mem_intercalate {tags : List Node} (some_tag : tags ≠ []) :
    '#' ∈ (" x ".intercalate (tags.map factor)).toList := by
  cases tags with
  | nil => exact absurd rfl some_tag
  | cons tag tags =>
    have here : '#' ∈ tag.factor.toList := by
      rw [toList_factor]
      exact List.mem_append_right _ List.mem_cons_self
    cases tags with
    | nil => simpa using here
    | cons next tags => simp [String.intercalate_cons_cons, here]

/-- The factors explain the count if there are any. -/
theorem explain_eq_breakdown {n : Node} (settled : n.waiting = []) (some_tag : n.outerTags ≠ []) :
    n.explain = n.breakdown := by
  have filled : ∀ x ∈ n.outerTags.map factor, x ≠ "" := by simp [factor_ne_empty]
  have some_text : " x ".intercalate (n.outerTags.map factor) ≠ "" :=
    intercalate_ne_empty (by simpa using some_tag) filled
  rw [explain, breakdown_eq settled]
  exact congrArg Except.ok (if_neg (by simpa using some_text))

/-- An explanation factorises the count. It lists the combinatorial tags that stand in no other
tag, each with its count, and has neither empty factors nor separators too many, however the tags
are spread. The listed counts multiply to the count of the tree, up to the limit. It says that
there are no variations exactly if no tag is listed. -/
theorem explain_factorises {n : Node} (settled : n.waiting = []) :
    n.breakdown = .ok (" x ".intercalate (n.outerTags.map factor)) ∧
      (∀ tag ∈ n.outerTags, tag.factor.toList =
          Nat.toDigits 10 tag.count ++ '#' :: tag.rule.name.toList ∧ ' ' ∉ tag.factor.toList) ∧
      n.count = min countLimit (n.outerTags.map count).prod ∧
      (n.explain = .ok "No variations" ↔ n.outerTags = []) ∧
      (n.outerTags ≠ [] → n.explain = n.breakdown) := by
  have text := breakdown_eq settled
  refine ⟨text, fun tag _ => ⟨tag.toList_factor, tag.blank_not_mem_factor⟩, n.count_eq_prod, ?_,
    explain_eq_breakdown settled⟩
  constructor
  · intro nothing
    by_contra some_tag
    have sign := sign_mem_intercalate some_tag
    rw [explain_eq_breakdown settled some_tag, text] at nothing
    rw [Except.ok.inj nothing] at sign
    revert sign
    decide
  · intro no_tag
    rw [explain, text, no_tag]
    rfl

/-- Tags on several levels, one of them with tags inside, and a conditional. -/
def spreadTags : Node :=
  sequence [
    sequence [],
    sequence [sequence [.choice [int 1, int 2], sequence [text "plain"]], .palette 5],
    .conditional ⟨0, ⟨["wall.name"], false, [text "long"]⟩, [text "big"], none, none, none⟩,
    .repetition 3 (sequence [.choice [int 1, int 2, int 3], .choice [int 4, int 5]])]

theorem explain_factorises_spreadTags :
    spreadTags.waiting = [] ∧
      spreadTags.explain = .ok "2#ProcList x 5#ProcColor x 6#ProcRepeatChoice" ∧
      spreadTags.count = min countLimit [2, 5, 6].prod := by
  obtain ⟨text, -, counted, -, same⟩ := explain_factorises (n := spreadTags) rfl
  refine ⟨rfl, ?_, counted⟩
  rw [same nofun, text]
  rfl

end Node

end ArenaVariations
