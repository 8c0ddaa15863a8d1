import ArenaVariations.Proofs.Layout.Distinct
import ArenaVariations.Proofs.Layout.TagView
import ArenaVariations.Proofs.Resolution.Walk

/-!
# Keys stay different

The keys of a YAML mapping are different values, and the keys of a mapping in a tree are what these
are read as. An integer beyond 64 signed bits is read as the nearest double, and then two keys can
become one: they merge. If none of a document's keys merge, the keys of each mapping in its tree
differ, an entry is found under its key unless the key is not a number, and the keys are written
differently: `Node.keys_stay_different`.
-/

namespace ArenaVariations

open Yaml

namespace Yaml.Value

variable {v w : Value}

/-- An integer that is no signed word of 64 bits. It is read as a double. -/
def IsVast : Value → Prop
  | int i => ¬ (-2 ^ 63 ≤ i ∧ i < 2 ^ 63)
  | _ => False

/-- Two keys are read as the same scalar, because a vast integer is among them. -/
def Merge (k l : Value) : Prop :=
  (k.IsVast ∨ l.IsVast) ∧
    ∃ s ∈ Scalar.ofValue? k, ∃ t ∈ Scalar.ofValue? l, s.toValue.same t.toValue = true

/-- No two keys of a mapping in the value merge. -/
def KeysApart (v : Value) : Prop :=
  ∀ entries, (mapping entries).Within v → entries.Pairwise fun e f => ¬ e.1.Merge f.1

/-- Scalars stand for their values, but for vast integers. -/
theorem toValue_of_ofValue? {s : Scalar} (read : Scalar.ofValue? v = some s) (small : ¬ v.IsVast) :
    s.toValue = v := by
  cases v with
  | int i =>
    rw [IsVast, not_not] at small
    obtain rfl : Scalar.int (Int64.ofInt i) = s := by
      have below : i < Int.pow 2 63 := small.2
      simpa only [Scalar.ofValue?, if_pos below, Option.some.injEq] using read
    rw [Scalar.toValue, Int64.toInt_ofInt_of_le small.1 small.2]
  | null | bool | float | text =>
    cases read
    rfl
  | sequence | mapping | tagged => cases read

/-- Different values are read as the same scalar only if they merge. -/
theorem merge_of_same {k l : Value} (different : k.same l = false) {s t : Scalar}
    (first : Scalar.ofValue? k = some s) (second : Scalar.ofValue? l = some t)
    (same : s.toValue.same t.toValue = true) : k.Merge l := by
  refine ⟨?_, s, first, t, second, same⟩
  by_contra small
  rw [not_or] at small
  rw [toValue_of_ofValue? first small.1, toValue_of_ofValue? second small.2, different] at same
  cases same

/-- In every mapping of the value, different keys are read as different scalars. -/
def KeysStay (v : Value) : Prop :=
  ∀ entries, (mapping entries).Within v → entries.Pairwise fun e f =>
    ∀ s ∈ Scalar.ofValue? e.1, ∀ t ∈ Scalar.ofValue? f.1, s.toValue.same t.toValue = false

theorem Regular.keysStay (regular : v.Regular) (apart : v.KeysApart) : v.KeysStay := by
  intro entries within
  have here := regular.within within
  cases here with
  | mapping distinct =>
    refine (distinct.and (apart entries within)).imp ?_
    rintro e f ⟨different, unmerged⟩ s first t second
    by_contra same
    rw [Bool.not_eq_false] at same
    exact unmerged (merge_of_same different first second same)

theorem KeysStay.within (h : v.KeysStay) (within : w.Within v) : w.KeysStay :=
  fun entries inside => h entries (inside.trans within)

end Yaml.Value

namespace Node

/-- The keys of a tree are distinct if its own are and those of the trees directly below it. -/
theorem distinctKeys_of_children {n : Node} (keys : n.KeysDiffer)
    (each : ∀ child ∈ n.children, child.DistinctKeys) : n.DistinctKeys :=
  forall_partOf keys each

theorem distinctKeys_leaf {n : Node} (keys : n.KeysDiffer) (leaf : n.children = []) :
    n.DistinctKeys :=
  distinctKeys_of_children keys fun _ mem => absurd (leaf ▸ mem) List.not_mem_nil

theorem distinctKeys_settings {rules : List (LabelRule Node)}
    (each : ∀ rule ∈ rules, ∀ n ∈ rule.condition.cases, n.DistinctKeys) :
    (settings rules).DistinctKeys := by
  refine distinctKeys_of_children (List.pairwise_singleton _ _) (List.forall_mem_singleton.mpr ?_)
  refine distinctKeys_of_children trivial (List.forall_mem_map.mpr fun rule mem => ?_)
  exact distinctKeys_of_children trivial (each rule mem)

end Node

namespace Template

open Node

/-- A reader of trees with distinct keys, for values whose keys stay different. -/
def KeepsKeys (read : Value → Reading Node) : Prop :=
  ∀ v n, v.KeysStay → read v = .ok n → n.DistinctKeys

theorem keepsKeys_readNode {read : Value → Reading Node} (keeps : KeepsKeys read) :
    KeepsKeys (readNode read) := by
  intro v n stay h
  have part {n : Node} (h : ReadIn read v n) : n.DistinctKeys := by
    obtain ⟨w, inside, made⟩ := h
    exact keeps w n (stay.within inside) made
  have amount (amount : UInt64) : (ofAmount amount).DistinctKeys := distinctKeys_leaf trivial rfl
  cases madeFrom_of_readNode h with
  | scalar | interval | tagged => exact distinctKeys_leaf trivial rfl
  | sequence each | choice each =>
    exact distinctKeys_of_children trivial fun n mem => part (each n mem)
  | mapping inside each =>
    refine distinctKeys_of_children ?_ (List.forall_mem_map.mpr fun entry mem => ?_)
    · rw [Node.mapping, KeysDiffer, List.pairwise_map]
      exact pairwise_of_forall₂ each (stay _ inside) fun e entry f other first second different =>
        different _ first.1 _ second.1
    · obtain ⟨e, among, -, made⟩ := exists_mem_of_forall₂ each entry mem
      exact part ⟨e.2, (Value.Within.entry among .whole).trans inside, made⟩
  | @record kind _ _ _ inside _ each =>
    refine distinctKeys_of_children trivial (List.forall_mem_map.mpr fun field mem => ?_)
    obtain ⟨e, among, is_field⟩ := exists_mem_of_forall₂ each field mem
    have made := is_field.made
    by_cases holds : HoldsSettings kind field.1
    · rw [readField_of_holdsSettings holds] at made
      obtain ⟨rules, same, all⟩ := settings_of_readMeta (inside e among) made
      rw [same]
      exact distinctKeys_settings fun rule mem n case => part ((all rule mem).1 n case)
    · rw [readField_of_not_holdsSettings holds] at made
      exact part ⟨e.2, inside e among, made⟩
  | labelledChoice each =>
    exact distinctKeys_of_children trivial
      (List.forall_mem_map.mpr fun option mem => part (each option mem))
  | palette => exact distinctKeys_of_children trivial (List.forall_mem_singleton.mpr (amount _))
  | scaled each =>
    refine distinctKeys_of_children trivial (List.forall_mem_append.mpr ⟨fun b mem => ?_, ?_⟩)
    · exact part (each b (Option.mem_toList.mp mem))
    · exact List.forall_mem_map.mpr fun s _ => distinctKeys_leaf trivial rfl
  | repetition _ each | restriction _ each =>
    exact distinctKeys_of_children trivial
      (List.forall_mem_cons.mpr ⟨amount _, List.forall_mem_singleton.mpr (part each)⟩)
  | conditional each _ _ given =>
    refine distinctKeys_of_children trivial
      (List.forall_mem_append.mpr ⟨fun n mem => part (each n mem), fun n mem => ?_⟩)
    obtain ⟨w, inside, -, made⟩ := given n (Option.mem_toList.mp mem)
    exact part ⟨w, inside, made⟩

theorem keepsKeys_readToDepth (depth : Nat) : KeepsKeys (readToDepth depth) := by
  induction depth with
  | zero => exact fun v n _ h => nomatch h
  | succ depth ih => exact keepsKeys_readNode ih

end Template

namespace Scalar

/-- Whether a scalar is a double that is not a number. -/
def isNaN : Scalar → Bool
  | float x => x.isNaN
  | _ => false

/-- What is not a number is equal to nothing. -/
theorem beq_of_isNaN {k : Scalar} (nan : k.isNaN = true) (l : Scalar) : (l == k) = false := by
  cases k with
  | float x =>
    obtain rfl : x = .nan := by simpa [isNaN, Float.isNaN_eq_decide_eq_nan] using nan
    cases l with
    | float y => exact Float.beq_nan_eq_false y
    | null | bool | int | text => rfl
  | null | bool | int | text => cases nan

theorem beq_self_of_isNaN {k : Scalar} (number : k.isNaN = false) : (k == k) = true := by
  cases k with
  | float x => exact beq_self number
  | null => rfl
  | bool b => exact beq_self_eq_true b
  | int i => exact beq_self_eq_true i
  | text s => exact beq_self_eq_true s

theorem float_of_beq {k : Scalar} {z : Float} (same : (k == .float z) = true) :
    ∃ x, k = .float x ∧ (x == z) = true := by
  cases k with
  | float x => exact ⟨x, rfl, same⟩
  | _ => cases same

/-- Scalars that are equal to the same one are the same value. -/
theorem same_of_beq {k l m : Scalar} (first : (k == m) = true) (second : (l == m) = true) :
    k.toValue.same l.toValue = true := by
  by_cases number : ∃ z, m = .float z
  · obtain ⟨z, rfl⟩ := number
    obtain ⟨x, rfl, first⟩ := float_of_beq first
    obtain ⟨y, rfl, second⟩ := float_of_beq second
    have equal : (x == y) = true := BEq.trans first (BEq.symm second)
    rw [toValue, toValue, Value.same, equal, Bool.true_or]
  · have other := not_exists.mp number
    obtain rfl := (beq_iff_eq_of_ne_float other).mp first
    obtain rfl := (beq_iff_eq_of_ne_float other).mp second
    exact same_toValue_self _

end Scalar

namespace Node

mutual

/-- The numbers of conditionals are not among the keys. -/
theorem distinctKeys_number (n : Node) (k : Nat) (h : n.DistinctKeys) :
    (n.number k).1.DistinctKeys := by
  cases n with
  | container form children =>
    refine distinctKeys_of_children ?_ (distinctKeys_numberList children k fun _ mem => h.child mem)
    cases form <;> exact h.root
  | repetition amount value | restriction amount value =>
    have children : ∀ child ∈ [ofAmount amount, value], child.DistinctKeys :=
      fun _ mem => h.child mem
    simp only [List.forall_mem_cons] at children
    refine distinctKeys_of_children trivial (List.forall_mem_cons.mpr ⟨children.1, ?_⟩)
    exact List.forall_mem_singleton.mpr (distinctKeys_number value k children.2.1)
  | conditional source => exact distinctKeys_of_children trivial fun _ mem => h.child mem
  | scalar | interval | tagged | choice | labelledChoice | palette | scaled | labelRule
  | placeholder => exact h

theorem distinctKeys_numberList (ns : List Node) (k : Nat) (each : ∀ n ∈ ns, n.DistinctKeys) :
    ∀ n ∈ (numberList k ns).1, n.DistinctKeys := by
  cases ns with
  | nil => exact each
  | cons n ns =>
    obtain ⟨first, rest⟩ := List.forall_mem_cons.mp each
    exact List.forall_mem_cons.mpr
      ⟨distinctKeys_number n k first, distinctKeys_numberList ns _ rest⟩

end

/-- Trees that are read from documents whose keys do not merge have distinct keys. -/
theorem distinctKeys_of_parse {text source : String} {v : Value} {n : Node}
    (found : Value.ofChars? text.toList = some v) (apart : v.KeysApart)
    (parsed : Node.parse text source = .ok n) : n.DistinctKeys := by
  rw [parse_of_ofChars? found] at parsed
  obtain ⟨read, made, parsed⟩ := bind_eq_ok.mp parsed
  cases parsed
  have stay := (Value.regular_of_ofChars? found).keysStay apart
  exact distinctKeys_number read 0 (Template.keepsKeys_readToDepth _ v read stay made)

/-- Entries are found under different keys, but for a key that is not a number. -/
theorem valueAt?_of_keysDiffer {keys : List Scalar} {children : List Node}
    (differ : (container (.mapping keys) children).KeysDiffer) {entry : Scalar × Node}
    (mem : entry ∈ keys.zip children) :
    (container (.mapping keys) children).valueAt? entry.1 =
      if entry.1.isNaN then none else some entry.2 := by
  rw [valueAt?_mapping]
  cases nan : entry.1.isNaN with
  | true =>
    have none : (keys.zip children).find? (fun other => other.1 == entry.1) = none :=
      List.find?_eq_none.mpr fun other _ => by simp [Scalar.beq_of_isNaN nan]
    rw [lookup, none]
    rfl
  | false =>
    refine lookup_eq_some_of_mem (differ.imp fun different both => ?_) mem
      (Scalar.beq_self_of_isNaN nan)
    rw [Scalar.same_of_beq both.1 both.2] at different
    cases different

/-- Keys stay different. In the tree of a document, the keys of every mapping are different values,
an entry is found under its key unless this is not a number, and keys are written differently unless
both are texts of newlines only. This needs that no two keys of the document merge. -/
theorem keys_stay_different {text source : String} {v : Value} {n : Node}
    (found : Value.ofChars? text.toList = some v) (apart : v.KeysApart)
    (parsed : Node.parse text source = .ok n) {keys : List Scalar} {children : List Node}
    (part : (container (.mapping keys) children).PartOf n) :
    keys.Pairwise (fun k l => k.toValue.same l.toValue = false) ∧
      (∀ entry ∈ keys.zip children, (container (.mapping keys) children).valueAt? entry.1 =
        if entry.1.isNaN then none else some entry.2) ∧
      ∀ flow, keys.Pairwise fun k l =>
        k.write flow = l.write flow ↔ k.IsNewlines ∧ l.IsNewlines := by
  have differ := distinctKeys_of_parse found apart parsed _ part
  refine ⟨differ, fun entry mem => valueAt?_of_keysDiffer differ mem, fun flow => ?_⟩
  refine List.Pairwise.imp (fun different => ⟨fun written => ?_, fun newlines => ?_⟩) differ
  · obtain same | newlines := Scalar.same_of_write_eq written
    · rw [same] at different
      cases different
    · exact newlines
  · rw [newlines.1.write_eq, newlines.2.write_eq]

/-- A choice of a single mapping. -/
def keyedChoice : Node :=
  .choice [.mapping [(.text "a", int 1), (.int 7, int 2)]]

theorem keys_stay_different_keyedChoice :
    (∃ v, Value.ofChars? "!ProcList [{a: 1, 7: 2}]".toList = some v ∧ v.KeysApart) ∧
      Node.parse "!ProcList [{a: 1, 7: 2}]" "keys" = .ok keyedChoice ∧
      (Node.mapping [(.text "a", int 1), (.int 7, int 2)]).PartOf keyedChoice ∧
      (Node.mapping [(.text "a", int 1), (.int 7, int 2)]).valueAt? (.int 7) = some (int 2) := by
  let entries : List (Value × Value) := [(.text "a", .int 1), (.int 7, .int 2)]
  have found : Value.ofChars? "!ProcList [{a: 1, 7: 2}]".toList =
      some (.tagged "ProcList" (.sequence [.mapping entries])) :=
    Value.ofChars?_of_alike (by decide +kernel)
  have apart : (Value.tagged "ProcList" (.sequence [.mapping entries])).KeysApart := by
    intro es within
    obtain - | - | - | within := within
    obtain - | ⟨mem, within⟩ := within
    obtain rfl := List.mem_singleton.mp mem
    cases within with
    | whole => simp [entries, Value.Merge, Value.IsVast]
    | entry mem within =>
      obtain rfl | mem := List.mem_cons.mp mem
      · cases within
      · obtain rfl := List.mem_singleton.mp mem
        cases within
  have parsed : Node.parse "!ProcList [{a: 1, 7: 2}]" "keys" = .ok keyedChoice := by
    rw [parse_of_ofChars? found]
    rfl
  have part : (Node.mapping [(.text "a", int 1), (.int 7, int 2)]).PartOf keyedChoice :=
    .inside List.mem_cons_self (.whole _)
  obtain ⟨-, finds, -⟩ := keys_stay_different found apart parsed part
  exact ⟨⟨_, found, apart⟩, parsed, part, finds (.int 7, int 2) (by simp)⟩

/-- A mapping whose keys are read as one double. -/
def vastKeys : List (Scalar × Node) :=
  [(.float (Float.ofInt 18446744073709551615), int 1),
    (.float (Float.ofInt 18446744073709551614), int 2)]

/-- The two greatest integers of 64 bits become one key: the second entry cannot be found, and both
keys are written alike. -/
theorem vast_keys_merge :
    Node.parse "{18446744073709551615: 1, 18446744073709551614: 2}" "keys" =
        .ok (.mapping vastKeys) ∧
      (Node.mapping vastKeys).valueAt? (.float (Float.ofInt 18446744073709551614)) =
        some (int 1) ∧
      (Node.mapping vastKeys).toFlow =
        .ok "\x7b1.8446744073709552e19: 1, 1.8446744073709552e19: 2\x7d" := by
  have found : Value.ofChars? "{18446744073709551615: 1, 18446744073709551614: 2}".toList =
      some (.mapping [(.int 18446744073709551615, .int 1), (.int 18446744073709551614, .int 2)]) :=
    Value.ofChars?_of_alike (by decide +kernel)
  have written : ∀ key ∈ vastKeys.map Prod.fst, key.write true = "1.8446744073709552e19" := by
    decide +kernel
  obtain ⟨first, second⟩ := List.forall_mem_cons.mp written
  have whole : (Node.mapping vastKeys).toFlow = .ok (Flow.map
      [((Scalar.float (Float.ofInt 18446744073709551615)).write true, "1"),
        ((Scalar.float (Float.ofInt 18446744073709551614)).write true, "2")]) := rfl
  refine ⟨?_, rfl, ?_⟩
  · rw [parse_of_ofChars? found]
    rfl
  · rw [whole, first, second _ List.mem_cons_self]
    rfl

end Node

end ArenaVariations
