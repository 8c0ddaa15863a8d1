import ArenaVariations.Proofs.Resolution.Order
import ArenaVariations.Proofs.Resolution.Unfinished

/-!
# What settling changes

Settling puts values into the places of placeholders, in the order in which they stand, and adds
labels; everything else stays as it is. `Variation.settle_reaches` says how far it comes: to the
end, or to the first placeholder or rule that cannot be decided. What was done before a failure
stays.
-/

namespace ArenaVariations

open List (Forall₂)

namespace Node

mutual

/-- The tree with values in the places of its first placeholders, and the values that are left.
Only containers are entered. -/
def fillWith : Node → List Node → Node × List Node
  | placeholder _, value :: values => (value, values)
  | container form children, values =>
    ((container form (fillAllWith children values).1), (fillAllWith children values).2)
  | n, values => (n, values)

/-- The trees of a list with values in the places of their first placeholders, and the values that
are left. -/
def fillAllWith : List Node → List Node → List Node × List Node
  | [], values => ([], values)
  | n :: ns, values =>
    ((n.fillWith values).1 :: (fillAllWith ns (n.fillWith values).2).1,
      (fillAllWith ns (n.fillWith values).2).2)

end

/-- The tree with values in the places of its first placeholders, as far as there are values. -/
def fillFirst (n : Node) (values : List Node) : Node :=
  (n.fillWith values).1

theorem fillAllWith_append (ns ms values : List Node) :
    fillAllWith (ns ++ ms) values =
      ((fillAllWith ns values).1 ++ (fillAllWith ms (fillAllWith ns values).2).1,
        (fillAllWith ms (fillAllWith ns values).2).2) := by
  induction ns generalizing values with
  | nil => rfl
  | cons n ns ih => simp only [List.cons_append, fillAllWith, ih]

theorem fillAllWith_of_forall {ns values : List Node}
    (each : ∀ n ∈ ns, n.fillWith values = (n, values)) : fillAllWith ns values = (ns, values) := by
  induction ns with
  | nil => rfl
  | cons n ns ih =>
    obtain ⟨first, rest⟩ := List.forall_mem_cons.mp each
    simp only [fillAllWith, first, ih rest]

/-- Without values nothing is filled in. -/
theorem fillWith_nil (n : Node) : n.fillWith [] = (n, []) := by
  induction n using container_induction with
  | container form children ih => simp only [fillWith, fillAllWith_of_forall ih]
  | leaf n other =>
    cases n with
    | container form children => exact absurd rfl (other form children)
    | _ => rfl

/-- Where nothing waits nothing is filled in. -/
theorem fillWith_of_bare {n : Node} (bare : n.waiting = []) (values : List Node) :
    n.fillWith values = (n, values) := by
  induction n using container_induction with
  | container form children ih =>
    have each := waitingIn_eq_nil.mp bare
    simp only [fillWith, fillAllWith_of_forall fun n mem => ih n mem (each n mem)]
  | leaf n other =>
    cases n with
    | container form children => exact absurd rfl (other form children)
    | placeholder source => cases bare
    | _ => rfl

/-- The first value goes to the first placeholder, the others to those behind it. -/
theorem FillsFirst.fillWith_eq {c : Conditional Node} {value n m : Node} {path : List Nat}
    (h : FillsFirst c value path n m) (values : List Node) :
    n.fillWith (value :: values) = m.fillWith values := by
  induction h with
  | here bare => rw [fillWith, fillWith_of_bare bare]
  | @inside form before after path n m bare _ ih =>
    have unchanged (values : List Node) : fillAllWith before values = (before, values) :=
      fillAllWith_of_forall fun b mem => fillWith_of_bare (bare b mem) values
    simp only [fillWith, fillAllWith_append, unchanged, fillAllWith, ih]

end Node

/-- A conditional offers its outcomes with their labels, and its default with the label of that. -/
inductive Conditional.Offers (c : Conditional Node) : Node × Option String → Prop where
  | outcome {i : Nat} {value : Node} (listed : c.outcomes[i]? = some value) :
      c.Offers (value, c.labels.bind fun ls => ls[i]?)
  | fallback {value : Node} (given : c.fallback = some value) : c.Offers (value, c.fallbackLabel)

theorem Conditional.offers_of_outcome {c : Conditional Node} {r : Resolution}
    {pick : Node × Option String} (chosen : c.outcome r = .ok pick) : c.Offers pick := by
  unfold Conditional.outcome at chosen
  split at chosen
  case h_1 value listed =>
    obtain ⟨i, index, listed⟩ := Option.bind_eq_some_iff.mp listed
    obtain rfl := pure_eq_ok.mp chosen
    rw [index]
    exact .outcome listed
  case h_2 =>
    split at chosen
    case h_1 => cases chosen
    case h_2 value given =>
      split at chosen
      case isTrue => cases chosen
      case isFalse =>
        obtain rfl := pure_eq_ok.mp chosen
        exact .fallback given

/-- What a conditional is decided to stand for it offers. -/
theorem Conditional.offers_of_decide {root : Node} {c : Conditional Node}
    {pick : Node × Option String} (decided : c.decide root = .ok pick) : c.Offers pick := by
  rw [decide, decideWith_of_mem (mem_of_decideWith_eq_ok decided)] at decided
  obtain ⟨r, -, chosen⟩ := bind_eq_ok.mp decided
  exact offers_of_outcome chosen

/-- The labels that a rule may give. -/
def LabelRule.offered (rule : LabelRule Node) : List String :=
  rule.labels ++ rule.fallback.toList

theorem LabelRule.mem_offered_of_decide {root : Node} {rule : LabelRule Node} {label : String}
    (decided : rule.decide root = .ok label) : label ∈ rule.offered := by
  obtain ⟨r, -, chosen⟩ := bind_eq_ok.mp decided
  split at chosen
  case h_1 given =>
    obtain rfl := pure_eq_ok.mp chosen
    obtain listed | ⟨-, fallback⟩ := Option.or_eq_some_iff.mp given
    · obtain ⟨i, -, listed⟩ := Option.bind_eq_some_iff.mp listed
      exact List.mem_append_left _ (List.mem_of_getElem? listed)
    · exact List.mem_append_right _ (Option.mem_toList.mpr fallback)
  case h_2 => cases chosen

namespace Variation

section Fills

variable {v w : Variation} {picks : List (Node × Option String)}

theorem Fills.node_eq (h : Fills v picks w) :
    w.node = v.node.fillFirst (picks.map Prod.fst) := by
  induction h with
  | refl v => rw [List.map_nil, Node.fillFirst, Node.fillWith_nil]
  | step _ first _ ih => rw [ih, List.map_cons, Node.fillFirst, Node.fillFirst, first.fillWith_eq]

theorem Fills.labels_eq (h : Fills v picks w) :
    w.labels = v.labels ++ picks.filterMap Prod.snd := by
  induction h with
  | refl v => rw [List.filterMap_nil, List.append_nil]
  | @step v w c path m pick picks _ _ _ ih =>
    rw [ih, List.append_assoc]
    cases label : pick.2 <;> simp [label]

/-- The first placeholders are filled in, and the others wait still. -/
theorem Fills.waiting_eq (h : Fills v picks w) :
    ∃ settled, v.node.waiting = settled ++ w.node.waiting ∧ settled.length = picks.length := by
  induction h with
  | refl v => exact ⟨[], rfl, rfl⟩
  | @step v w c path m pick picks _ first _ ih =>
    obtain ⟨settled, split, length⟩ := ih
    exact ⟨c :: settled, by rw [first.waiting_eq, split, List.cons_append], by simp [length]⟩

/-- Each conditional looks at the tree in which those before it are filled in. -/
theorem Fills.decided (h : Fills v picks w) {i : Nat} {pick : Node × Option String}
    (ith : picks[i]? = some pick) : ∃ c, v.node.waiting[i]? = some c ∧
      c.decide (v.node.fillFirst ((picks.map Prod.fst).take i)) = .ok pick := by
  induction h generalizing i with
  | refl v => cases ith
  | @step v w c path m head picks decided first _ ih =>
    rw [first.waiting_eq]
    cases i with
    | zero =>
      obtain rfl := Option.some.inj ith
      refine ⟨c, rfl, ?_⟩
      rwa [List.take_zero, Node.fillFirst, Node.fillWith_nil]
    | succ i =>
      obtain ⟨d, waits, later⟩ := ih ith
      refine ⟨d, waits, ?_⟩
      rwa [List.map_cons, List.take_succ_cons, Node.fillFirst, first.fillWith_eq]

end Fills

/-- A way from a variation to another one: what the first placeholders stand for, each of them with
its label, and the labels of the first rules. -/
structure Reaches (v : Variation) (rules : List (LabelRule Node))
    (picks : List (Node × Option String)) (given : List String) (w : Variation) : Prop where
  /-- Nothing but the placeholders is replaced. -/
  node_eq : w.node = v.node.fillFirst (picks.map Prod.fst)
  labels_eq : w.labels = v.labels ++ picks.filterMap Prod.snd ++ given
  offers : Forall₂ Conditional.Offers (v.node.waiting.take picks.length) picks
  /-- Each conditional looks at the tree in which those before it are filled in. -/
  decided : ∀ (i : Nat) (pick : Node × Option String), picks[i]? = some pick →
    ∃ c : Conditional Node, v.node.waiting[i]? = some c ∧
      c.decide (v.node.fillFirst ((picks.map Prod.fst).take i)) = .ok pick
  ruled : Forall₂ (fun rule label => label ∈ rule.offered ∧ rule.decide w.node = .ok label)
    (rules.take given.length) given

/-- A placeholder or a rule is the first one that is not settled, and cannot be decided. -/
inductive StopsAt (v : Variation) (rules : List (LabelRule Node))
    (picks : List (Node × Option String)) (given : List String) (w : Variation) (e : Error) :
    Prop where
  | placeholder {c : Conditional Node} (next : v.node.waiting[picks.length]? = some c)
      (unruled : given = []) (failed : c.decide w.node = .error e) : StopsAt v rules picks given w e
  | rule {rule : LabelRule Node} (filled : picks.length = v.node.waiting.length)
      (next : rules[given.length]? = some rule) (failed : rule.decide w.node = .error e) :
      StopsAt v rules picks given w e

theorem Fills.reaches {v w : Variation} {picks : List (Node × Option String)}
    (h : Fills v picks w) (rules : List (LabelRule Node)) : Reaches v rules picks [] w where
  node_eq := h.node_eq
  labels_eq := by rw [h.labels_eq, List.append_nil]
  offers := by
    obtain ⟨settled, split, length⟩ := h.waiting_eq
    refine List.forall₂_iff_get.mpr ⟨by simp [split, length], fun i _ inside => ?_⟩
    obtain ⟨c, waits, decided⟩ := h.decided (List.getElem?_eq_getElem inside)
    have same : (v.node.waiting.take picks.length)[i]? = some c := by
      rw [List.getElem?_take_of_lt inside, waits]
    have offers := Conditional.offers_of_decide decided
    simpa [(List.getElem?_eq_some_iff.mp same).2] using offers
  decided i pick ith := h.decided ith
  ruled := .nil

/-- Rules add their labels one after the other, up to the first one that cannot be decided. -/
theorem run_forM_apply (rules : List (LabelRule Node)) (v : Variation) :
    ∃ result given, (rules.forM apply).run.run v = (result, ⟨v.node, v.labels ++ given⟩) ∧
      Forall₂ (fun rule label => rule.decide v.node = .ok label) (rules.take given.length) given ∧
      (result = .ok () ∧ given.length = rules.length ∨
        ∃ rule e, rules[given.length]? = some rule ∧ rule.decide v.node = .error e ∧
          result = .error e) := by
  induction rules generalizing v with
  | nil => exact ⟨.ok (), [], by simp; rfl, .nil, .inl ⟨rfl, rfl⟩⟩
  | cons rule rules ih =>
    rw [List.forM_eq_forM, List.forM_cons, Settling.run_bind, run_apply]
    cases decided : rule.decide v.node with
    | error e => exact ⟨.error e, [], by simp, .nil, .inr ⟨rule, e, rfl, decided, rfl⟩⟩
    | ok label =>
      obtain ⟨result, given, ran, each, ends⟩ := ih ⟨v.node, v.labels ++ [label]⟩
      rw [List.forM_eq_forM] at ran
      refine ⟨result, label :: given, ?_, ?_, ?_⟩
      · simp only [ran, List.append_assoc, List.singleton_append]
      · exact .cons decided each
      · simpa using ends

/-- Settling changes nothing but the placeholders, and labels follow in order. It comes to the end
or stops at the first placeholder or rule that cannot be decided; then the placeholders before it
are filled in, with their labels added and those of the rules before it, and nothing else is done.
It fails only because the variation cannot be finished. -/
theorem settle_reaches {v : Variation} (built : v.node.Built) (rules : List (LabelRule Node)) :
    ∃ result picks given w, (settle rules).run.run v = (result, w) ∧
      Reaches v rules picks given w ∧
      (result = .ok () ∧ picks.length = v.node.waiting.length ∧ given.length = rules.length ∨
        ∃ failure excerpt, result = .error (.unresolved failure excerpt) ∧
          StopsAt v rules picks given w (.unresolved failure excerpt)) := by
  obtain ⟨picks, stage, fills, ⟨done, ran⟩ | ⟨c, e, waits, failed, ran⟩⟩ :=
    run_settle (fun _ => built.checked_of_mem_waiting) rules
  · obtain ⟨settled, split, length⟩ := fills.waiting_eq
    have all : picks.length = v.node.waiting.length := by rw [split, done, List.append_nil, length]
    obtain ⟨result, given, ran', each, ends⟩ := run_forM_apply rules stage
    have reached := fills.reaches rules
    refine ⟨result, picks, given, ⟨stage.node, stage.labels ++ given⟩, ran.trans ran', ?_, ?_⟩
    · refine ⟨reached.node_eq, ?_, reached.offers, reached.decided, ?_⟩
      · rw [fills.labels_eq]
      · exact each.imp fun rule label decided =>
          ⟨LabelRule.mem_offered_of_decide decided, decided⟩
    · obtain ⟨rfl, length⟩ | ⟨rule, e, next, failed, rfl⟩ := ends
      · exact .inl ⟨rfl, all, length⟩
      · obtain ⟨failure, excerpt, rfl⟩ := rule.decide_failsUnresolved stage.node e failed
        exact .inr ⟨failure, excerpt, rfl, .rule all next failed⟩
  · obtain ⟨failure, excerpt, rfl⟩ := c.decide_failsUnresolved stage.node e failed
    obtain ⟨settled, split, length⟩ := fills.waiting_eq
    refine ⟨_, picks, [], stage, ran, fills.reaches rules, .inr ⟨failure, excerpt, rfl, ?_⟩⟩
    refine .placeholder ?_ rfl failed
    rw [split, ← length, List.getElem?_append_right (Nat.le_refl _), Nat.sub_self,
      ← List.head?_eq_getElem?, waits]

/-- The name of the box depends on that of the ramp, and the name of the goal on that of a wall,
which is not there. -/
def lostWall : Node :=
  .sequence [
    Node.namedItem "box" (.placeholder (Node.nameAfter 0 "ramp.name" "long" "big" "heavy")),
    Node.namedItem "ramp" (Node.text "long"),
    Node.namedItem "goal" (.placeholder (Node.nameAfter 1 "wall.name" "high" "far" "hard"))]

theorem built_lostWall : lostWall.Built := by
  refine .container trivial ?_
  simp only [List.forall_mem_cons, List.not_mem_nil, false_imp_iff, implies_true, and_true]
  refine ⟨.container rfl ?_, .container rfl ?_, .container rfl ?_⟩ <;>
    simp only [List.map_cons, List.map_nil, List.forall_mem_cons, List.not_mem_nil,
      false_imp_iff, implies_true, and_true]
  · exact Node.built_nameAfter ..
  · exact .scalar _
  · exact Node.built_nameAfter ..

/-- What is left of it: the name of the box is filled in, and that of the goal stays open. -/
def lostWallLeft : Variation where
  node := .sequence [
    Node.namedItem "box" (Node.text "big"),
    Node.namedItem "ramp" (Node.text "long"),
    Node.namedItem "goal" (.placeholder (Node.nameAfter 1 "wall.name" "high" "far" "hard"))]
  labels := ["start", "heavy"]

theorem run_settle_lostWall : (settle []).run.run ⟨lostWall, ["start"]⟩ =
    (.error (.unresolved (.unknownId "wall" "wall.name") none), lostWallLeft) := by
  with_unfolding_all rfl

/-- The wall is missed when the box is settled already. -/
theorem settle_reaches_lostWall : lostWall.Built ∧
    ∃ picks, Reaches ⟨lostWall, ["start"]⟩ [] picks [] lostWallLeft ∧
      StopsAt ⟨lostWall, ["start"]⟩ [] picks [] lostWallLeft
        (.unresolved (.unknownId "wall" "wall.name") none) := by
  obtain ⟨result, picks, given, w, ran, reached, ends⟩ :=
    settle_reaches (v := ⟨lostWall, ["start"]⟩) built_lostWall []
  rw [run_settle_lostWall] at ran
  cases ran
  obtain rfl : given = [] := by simpa using reached.ruled
  obtain ⟨done, -⟩ | ⟨failure, excerpt, same, stops⟩ := ends
  · cases done
  · cases same
    exact ⟨built_lostWall, picks, reached, stops⟩

end Variation

end ArenaVariations
