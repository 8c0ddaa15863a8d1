import ArenaVariations.Proofs.Decimal.Text
import ArenaVariations.Proofs.Resolution.Values
import ArenaVariations.Proofs.Text.Separated

/-!
# References address what they spell

What a reference means can be said without walking along it. Its first segment is the id of a
record, the first one in pre-order that carries it. The other segments spell steps, each from a
node to one below it: to an element of a list, a field of a record, a value under a text or under
an integer that is not negative, or to a bound of a range. A step is spelled by the name or by the
number that it goes by, a number perhaps with zeros in front. `references_address` says that this
is what references are resolved to in every finished tree, and that nothing else is.
-/

namespace ArenaVariations

namespace Reference

/-- A segment that stands for a number: its digits, perhaps with zeros in front. -/
def SpellsNumber (n : Nat) (segment : String) : Prop :=
  ∃ zeros, segment.toList = List.replicate zeros '0' ++ Nat.toDigits 10 n

/-- Names that a segment can stand for: they have no dot, and are not taken for numbers. -/
def IsNameable (name : String) : Prop :=
  '.' ∉ name.toList ∧ ¬ IsNumeral name.toList

/-- The fields that records declare can all be named. -/
theorem isNameable_of_mem_fields {kind : RecordKind} {name : String}
    (declared : name ∈ kind.fields) : IsNameable name := by
  have letters : ∀ name ∈ kind.fields, '.' ∉ name.toList ∧
      name.toList.all Char.isDigit = false := by
    cases kind <;> decide +kernel
  obtain ⟨dotless, letter⟩ := letters name declared
  refine ⟨dotless, fun numeral => ?_⟩
  rw [List.all_eq_true.mpr numeral.2] at letter
  cases letter

/-- A digit is the one of its value. -/
theorem exists_digitChar {c : Char} (digit : c.isDigit = true) :
    ∃ d < 10, c = Nat.digitChar d := by
  have bounds : 48 ≤ c.toNat ∧ c.toNat ≤ 57 := by
    simpa [Char.isDigit, UInt32.le_iff_toNat_le] using digit
  have small : c.toNat - 48 < 10 := by omega
  refine ⟨c.toNat - 48, small, ?_⟩
  rw [← Char.toNat_inj, Nat.toNat_digitChar_of_lt_ten small]
  omega

/-- Digits are the shortest ones of their number with zeros in front. -/
theorem exists_zeros_of_isNumeral {cs : List Char} (numeral : IsNumeral cs) :
    ∃ zeros, cs = List.replicate zeros '0' ++ Nat.toDigits 10 (Nat.ofDigitChars 10 cs 0) := by
  induction cs using List.reverseRecOn with
  | nil => exact absurd rfl numeral.1
  | append_singleton front c ih =>
    obtain ⟨d, small, rfl⟩ := exists_digitChar (numeral.2 c (by simp))
    have last : Nat.ofDigitChars 10 (front ++ [d.digitChar]) 0 =
        10 * Nat.ofDigitChars 10 front 0 + d := by
      rw [Nat.ofDigitChars_append, Nat.ofDigitChars_cons_digitChar_of_lt_ten small,
        Nat.ofDigitChars_nil]
    by_cases bare : front = []
    · subst bare
      rw [last]
      exact ⟨0, by simp [Nat.toDigits_of_lt_base small]⟩
    · obtain ⟨zeros, split⟩ := ih ⟨bare, fun c mem => numeral.2 c (List.mem_append_left _ mem)⟩
      rw [last, ← Nat.toDigits_of_lt_base small]
      generalize Nat.ofDigitChars 10 front 0 = n at split
      obtain rfl | positive := Nat.eq_zero_or_pos n
      · refine ⟨zeros + 1, ?_⟩
        rw [split]
        simp [List.replicate_succ']
      · refine ⟨zeros, ?_⟩
        rw [split, List.append_assoc, Nat.toDigits_append_toDigits (by decide) positive small]

theorem spellsNumber_toString (n : Nat) : SpellsNumber n (toString n) :=
  ⟨0, by simp⟩

theorem position?_eq_none_iff {segment : String} :
    position? segment = none ↔ ¬ IsNumeral segment.toList := by
  simp [position?, IsNumeral]

theorem position?_eq_some_iff {segment : String} {n : Nat} :
    position? segment = some n ↔ SpellsNumber n segment := by
  constructor
  · intro read
    have numeral : IsNumeral segment.toList := by
      by_contra other
      rw [position?_eq_none_iff.mpr other] at read
      cases read
    obtain ⟨zeros, split⟩ := exists_zeros_of_isNumeral numeral
    rw [position?, if_pos (by simpa [IsNumeral] using numeral),
      natOfDigits_eq_ofDigitChars numeral.2] at read
    rw [Option.some.inj read] at split
    exact ⟨zeros, split⟩
  · rintro ⟨zeros, split⟩
    have digits : ∀ c ∈ segment.toList, c.isDigit = true := by
      rw [split]
      intro c mem
      obtain mem | mem := List.mem_append.mp mem
      · rw [List.eq_of_mem_replicate mem]
        rfl
      · exact (isNumeral_toDigits n).2 c mem
    have filled : segment.toList ≠ [] := by simp [split]
    rw [position?, if_pos (by simpa [← String.toList_eq_nil_iff] using ⟨filled, digits⟩), split,
      natOfDigits_zeros_append (isNumeral_toDigits n).2, natOfDigits_toDigits]

/-- Every reference is an id and further segments, with dots between them. -/
theorem exists_segments (reference : String) :
    ∃ id rest, reference = ".".intercalate (id :: rest) ∧
      ∀ segment ∈ id :: rest, '.' ∉ segment.toList := by
  obtain ⟨id, rest, split⟩ : ∃ id rest, segments reference = id :: rest :=
    List.exists_cons_of_ne_nil (by simp [segments, List.splitOn_ne_nil])
  refine ⟨id, rest, ?_, ?_⟩
  · rw [← split]
    exact (intercalate_splitOn_toList rfl reference).symm
  · rw [← split]
    intro segment mem
    obtain ⟨cs, among, rfl⟩ := List.mem_map.mp mem
    rw [String.toList_ofList]
    exact not_mem_of_mem_splitOn among

theorem segments_intercalate {id : String} {rest : List String}
    (dotless : ∀ segment ∈ id :: rest, '.' ∉ segment.toList) :
    segments (".".intercalate (id :: rest)) = id :: rest :=
  splitOn_toList_intercalate rfl (List.cons_ne_nil id rest) dotless

/-- A step from a node to one below it. -/
inductive Step where
  /-- To an element of a list, counted from zero. -/
  | position (index : Nat)
  /-- To the value of a field. -/
  | field (name : String)
  /-- To the value under a text key. -/
  | name (key : String)
  /-- To the value under an integer key. -/
  | number (key : Nat)
  /-- To the lower or the upper bound of a range. -/
  | bound (upper : Bool)

namespace Step

/-- How a step is written: its name as it is, its number in decimal. -/
def text : Step → String
  | position n | number n => toString n
  | field s | name s => s
  | bound upper => if upper then "1" else "0"

/-- The segments that stand for a step. -/
def SpelledBy (segment : String) : Step → Prop
  | position n | number n => SpellsNumber n segment
  | field s | name s => segment = s
  | bound upper => SpellsNumber upper.toNat segment

theorem spelledBy_text (step : Step) : step.SpelledBy step.text := by
  cases step with
  | position n | number n => exact spellsNumber_toString n
  | field s | name s => rfl
  | bound upper => cases upper <;> exact ⟨0, rfl⟩

theorem forall₂_spelledBy_text (steps : List Step) :
    List.Forall₂ (fun step segment => step.SpelledBy segment) steps (steps.map text) := by
  induction steps with
  | nil => exact .nil
  | cons step steps ih => exact .cons step.spelledBy_text ih

end Step

end Reference

namespace Node

open Reference (Step IsNameable)

/-- A step leads from a node to another one. -/
inductive Leads : Node → Step → Node → Prop
  | position {items : List Node} {i : Nat} {n : Node} (there : items[i]? = some n) :
      Leads (sequence items) (.position i) n
  | field {kind : RecordKind} {id : Option String} {names : List String} {children : List Node}
      {name : String} {n : Node} (mem : (name, n) ∈ names.zip children)
      (nameable : name ∈ kind.fields ∨ IsNameable name) :
      Leads (container (.record kind id names) children) (.field name) n
  | name {keys : List Scalar} {children : List Node} {key : String} {n : Node}
      (mem : (.text key, n) ∈ keys.zip children) (word : IsNameable key) :
      Leads (container (.mapping keys) children) (.name key) n
  | number {keys : List Scalar} {children : List Node} {key : Int64} {i : Nat} {n : Node}
      (mem : (.int key, n) ∈ keys.zip children) (value : key.toInt = i) :
      Leads (container (.mapping keys) children) (.number i) n
  | lower (range : Interval) : Leads (interval range) (.bound false) (scalar range.min)
  | upper (range : Interval) : Leads (interval range) (.bound true) (scalar range.max)

/-- Steps lead from a node to another one, each from where the one before it has led. -/
inductive Route : Node → List Step → Node → Prop
  | here (n : Node) : Route n [] n
  | onward {n m value : Node} {step : Step} {steps : List Step} (first : Leads n step m)
      (rest : Route m steps value) : Route n (step :: steps) value

/-- The keys of a mapping, and the names of a record's fields, differ from each other. -/
def AddressesDiffer : Node → Prop
  | container (.mapping keys) _ => keys.Pairwise fun k l => (k == l) = false
  | container (.record _ _ names) _ => names.Nodup
  | _ => True

theorem valueAt?_of_mem {keys : List Scalar} {children : List Node} {key : Scalar} {n : Node}
    (distinct : keys.Pairwise fun k l => (k == l) = false) (other : ∀ z, key ≠ .float z)
    (mem : (key, n) ∈ keys.zip children) :
    (container (.mapping keys) children).valueAt? key = some n := by
  have lawful (k : Scalar) : (k == key) = true ↔ k = key := Scalar.beq_iff_eq_of_ne_float other
  rw [valueAt?_mapping]
  refine lookup_eq_some_of_mem (distinct.imp fun ne both => ?_) mem ((lawful key).mpr rfl)
  rw [(lawful _).mp both.1, (lawful _).mp both.2, (lawful key).mpr rfl] at ne
  cases ne

/-- A segment that spells a step leads where the step does. -/
theorem Leads.step?_eq_some {n m : Node} {step : Step} {segment : String} (leads : Leads n step m)
    (distinct : n.AddressesDiffer) (spelled : step.SpelledBy segment) :
    n.step? segment = some m := by
  cases leads with
  | position there =>
    simp only [step?, Reference.position?_eq_some_iff.mpr spelled]
    exact there
  | @field kind id names children name _ mem nameable =>
    obtain rfl : segment = name := spelled
    have word : IsNameable segment :=
      nameable.elim Reference.isNameable_of_mem_fields fun word => word
    simp only [step?, Reference.position?_eq_none_iff.mpr word.2]
    rw [field?_record]
    exact lookup_of_mem distinct mem
  | @name keys children key _ mem word =>
    obtain rfl : segment = key := spelled
    simp only [step?, Reference.position?_eq_none_iff.mpr word.2]
    exact valueAt?_of_mem distinct nofun mem
  | @number keys children key i _ mem value =>
    have bounded : i < Nat.pow 2 63 := by
      have below := key.toInt_lt
      rw [value] at below
      exact_mod_cast below
    obtain rfl : key = Int64.ofNat i :=
      Int64.toInt.inj (value.trans (Int64.toInt_ofNat_of_lt bounded).symm)
    simp only [step?, Reference.position?_eq_some_iff.mpr spelled, if_pos bounded]
    exact valueAt?_of_mem distinct nofun mem
  | lower range => simp only [step?, Reference.position?_eq_some_iff.mpr spelled]; rfl
  | upper range => simp only [step?, Reference.position?_eq_some_iff.mpr spelled]; rfl

/-- A segment that leads somewhere spells a step that leads there. -/
theorem exists_leads_of_step? {n m : Node} {segment : String} (dotless : '.' ∉ segment.toList)
    (h : n.step? segment = some m) : ∃ step : Step, step.SpelledBy segment ∧ Leads n step m := by
  unfold step? at h
  split at h
  case h_1 i items read =>
    exact ⟨.position i, Reference.position?_eq_some_iff.mp read, .position h⟩
  case h_2 i keys children read =>
    split at h
    case isTrue bounded =>
      rw [valueAt?_mapping] at h
      obtain ⟨key, same, mem⟩ := exists_mem_of_lookup h
      have other : ∀ z, Scalar.int (Int64.ofNat i) ≠ .float z := by simp
      obtain rfl := (Scalar.beq_iff_eq_of_ne_float other).mp same
      exact ⟨.number i, Reference.position?_eq_some_iff.mp read,
        .number mem (Int64.toInt_ofNat_of_lt bounded)⟩
    case isFalse => cases h
  case h_3 range read =>
    obtain rfl := Option.some.inj h
    exact ⟨.bound false, Reference.position?_eq_some_iff.mp read, .lower range⟩
  case h_4 range read =>
    obtain rfl := Option.some.inj h
    exact ⟨.bound true, Reference.position?_eq_some_iff.mp read, .upper range⟩
  case h_5 keys children read =>
    rw [valueNamed?, valueAt?_mapping] at h
    obtain ⟨key, same, mem⟩ := exists_mem_of_lookup h
    have other : ∀ z, Scalar.text segment ≠ .float z := by simp
    obtain rfl := (Scalar.beq_iff_eq_of_ne_float other).mp same
    exact ⟨.name segment, rfl, .name mem ⟨dotless, Reference.position?_eq_none_iff.mp read⟩⟩
  case h_6 kind id names children read =>
    rw [field?_record] at h
    obtain ⟨name, same, mem⟩ := exists_mem_of_lookup h
    obtain rfl := eq_of_beq same
    exact ⟨.field name, rfl, .field mem (.inr ⟨dotless, Reference.position?_eq_none_iff.mp read⟩)⟩
  case h_7 => cases h

/-- No dot stands in the text of a step. -/
theorem Leads.dot_not_mem_text {n m : Node} {step : Step} (leads : Leads n step m) :
    '.' ∉ step.text.toList := by
  have digits (i : Nat) : '.' ∉ (toString i).toList := by
    intro mem
    rw [Nat.toString_eq_repr, Nat.toList_repr] at mem
    exact absurd ((isNumeral_toDigits i).2 '.' mem) (by decide)
  cases leads with
  | position | number => exact digits _
  | field _ nameable =>
    exact (nameable.elim Reference.isNameable_of_mem_fields fun word => word).1
  | name _ word => exact word.1
  | lower | upper => decide

/-- The addresses in each container of a tree differ. -/
def DistinctAddresses (n : Node) : Prop :=
  ∀ m : Node, m.Within n → m.AddressesDiffer

theorem distinctAddresses_container {form : Form} {children : List Node}
    (here : (container form children).AddressesDiffer)
    (below : ∀ child ∈ children, child.DistinctAddresses) :
    (container form children).DistinctAddresses := by
  intro m within
  cases within with
  | whole => exact here
  | child mem within => exact below _ mem m within

theorem distinctAddresses_leaf {n : Node} (other : ∀ form children, n ≠ container form children) :
    n.DistinctAddresses := by
  intro m within
  cases within with
  | whole =>
    cases n with
    | container form children => exact absurd rfl (other form children)
    | _ => trivial
  | child => exact absurd rfl (other _ _)

theorem DistinctAddresses.of_leads {n m : Node} {step : Step} (distinct : n.DistinctAddresses)
    (leads : Leads n step m) : m.DistinctAddresses := by
  have below {form : Form} {children : List Node} {child : Node} (mem : child ∈ children)
      (distinct : (container form children).DistinctAddresses) : child.DistinctAddresses :=
    fun k within => distinct k (.child mem within)
  cases leads with
  | position there => exact below (List.mem_of_getElem? there) distinct
  | field mem | name mem | number mem => exact below (List.of_mem_zip mem).2 distinct
  | lower | upper => exact distinctAddresses_leaf nofun

theorem Route.dot_not_mem_text {n value : Node} {steps : List Step}
    (route : Route n steps value) : ∀ segment ∈ steps.map Step.text, '.' ∉ segment.toList := by
  induction route with
  | here => exact List.forall_mem_nil _
  | onward first _ ih => exact List.forall_mem_cons.mpr ⟨first.dot_not_mem_text, ih⟩

/-- Segments that spell the steps of a route lead where it does. -/
theorem Route.foldlM_step?_eq_some {n value : Node} {steps : List Step} {segments : List String}
    (route : Route n steps value) (distinct : n.DistinctAddresses)
    (spelled : List.Forall₂ (fun step segment => step.SpelledBy segment) steps segments) :
    segments.foldlM step? n = some value := by
  induction route generalizing segments with
  | here =>
    cases spelled
    rfl
  | onward first rest ih =>
    obtain _ | ⟨here, further⟩ := spelled
    rw [List.foldlM_cons, first.step?_eq_some (distinct _ .whole) here]
    exact ih (distinct.of_leads first) further

/-- Segments that lead somewhere spell the steps of a route. -/
theorem exists_route_of_foldlM_step? {n value : Node} {segments : List String}
    (dotless : ∀ segment ∈ segments, '.' ∉ segment.toList)
    (h : segments.foldlM step? n = some value) :
    ∃ steps : List Step, List.Forall₂ (fun step segment => step.SpelledBy segment) steps segments ∧
      Route n steps value := by
  induction segments generalizing n with
  | nil =>
    obtain rfl := Option.some.inj h
    exact ⟨[], .nil, .here n⟩
  | cons segment rest ih =>
    obtain ⟨first, others⟩ := List.forall_mem_cons.mp dotless
    rw [List.foldlM_cons] at h
    obtain ⟨m, step, h⟩ := Option.bind_eq_some_iff.mp h
    obtain ⟨s, here, leads⟩ := exists_leads_of_step? first step
    obtain ⟨steps, spelled, route⟩ := ih others h
    exact ⟨s :: steps, .cons here spelled, .onward leads route⟩

mutual

/-- The nodes of a tree, each one before those below it. Only containers have nodes below them. -/
def preorder : Node → List Node
  | n@(container _ children) => n :: preorderIn children
  | n => [n]

/-- The nodes of trees in a list, one tree after the other. -/
def preorderIn : List Node → List Node
  | [] => []
  | n :: ns => n.preorder ++ preorderIn ns

end

/-- Whether a node is a record with the given id. -/
def carries (id : String) : Node → Bool
  | container (.record _ own _) _ => own == some id
  | _ => false

/-- The record with an id is the first one in pre-order that carries it. -/
theorem findRecord?_eq_find? (id : String) (n : Node) :
    n.findRecord? id = n.preorder.find? (carries id) := by
  induction n using container_induction with
  | leaf n other =>
    cases n with
    | container form children => exact absurd rfl (other form children)
    | _ => rfl
  | container form children ih =>
    have below : findRecordIn? id children = (preorderIn children).find? (carries id) := by
      induction children with
      | nil => rfl
      | cons n ns rest =>
        rw [findRecordIn?, preorderIn, List.find?_append, ih n List.mem_cons_self,
          rest fun m mem => ih m (List.mem_cons_of_mem n mem)]
    rw [preorder, List.find?_cons]
    cases form with
    | sequence | mapping => exact below
    | record kind own names =>
      by_cases same : own = some id
      · simp [findRecord?, carries, same]
      · have other : (own == some id) = false := beq_false_of_ne same
        simp [findRecord?, carries, same, other, below]

theorem Within.trans {k m n : Node} (inner : k.Within m) (outer : m.Within n) : k.Within n := by
  induction outer with
  | whole => exact inner
  | child mem _ ih => exact .child mem ih

theorem isStatic_of_within {n m : Node} (within : m.Within n) (static : n.isStatic = true) :
    m.isStatic = true := by
  induction within with
  | whole => exact static
  | child mem _ ih => exact ih (allStatic_iff.mp static _ mem)

/-- In a finished tree a reference goes along its segments from the record that it names. -/
theorem resolveReference_of_isStatic {root : Node} (static : root.isStatic = true) {id : String}
    {segments : List String} (dotless : ∀ segment ∈ id :: segments, '.' ∉ segment.toList)
    (force : Conditional Node → Except Error Node) :
    root.resolveReference force (".".intercalate (id :: segments)) =
      match root.preorder.find? (carries id) with
      | none => .error (.unresolved (.unknownId id (".".intercalate (id :: segments))) none)
      | some start =>
        match segments.foldlM step? start with
        | none => .error (.unresolved (.noSuchValue (".".intercalate (id :: segments)) id) none)
        | some value => .ok value := by
  rw [resolveReference_eq, origin?, Reference.segments_intercalate dotless, List.headD_cons,
    List.tail_cons, findRecord?_eq_find?]
  cases found : root.preorder.find? (carries id) with
  | none => rfl
  | some start =>
    rw [← findRecord?_eq_find?] at found
    have bare := waiting_eq_nil_of_isStatic
      (isStatic_of_within (findRecord?_eq_some found).2 static)
    dsimp only
    rw [walk?_of_awaited?_eq_none (awaited?_eq_none bare segments)]
    cases segments.foldlM step? start <;> rfl

section

variable {root start value : Node} {id : String} {segments : List String}

/-- A reference that spells a route from its record leads to the end of the route. -/
theorem resolveReference_of_route (static : root.isStatic = true)
    (distinct : root.DistinctAddresses)
    (dotless : ∀ segment ∈ id :: segments, '.' ∉ segment.toList)
    (found : root.preorder.find? (carries id) = some start) {steps : List Step}
    (spelled : List.Forall₂ (fun step segment => step.SpelledBy segment) steps segments)
    (route : Route start steps value) (force : Conditional Node → Except Error Node) :
    root.resolveReference force (".".intercalate (id :: segments)) = .ok value := by
  have within : start.Within root := by
    rw [← findRecord?_eq_find?] at found
    exact (findRecord?_eq_some found).2
  have led : segments.foldlM step? start = some value :=
    route.foldlM_step?_eq_some (fun m inner => distinct m (inner.trans within)) spelled
  rw [resolveReference_of_isStatic static dotless, found]
  dsimp only
  rw [led]

/-- A reference that spells no route from its record leads nowhere. -/
theorem resolveReference_of_no_route (static : root.isStatic = true)
    (dotless : ∀ segment ∈ id :: segments, '.' ∉ segment.toList)
    (found : root.preorder.find? (carries id) = some start)
    (lost : ∀ steps value,
      List.Forall₂ (fun step segment => step.SpelledBy segment) steps segments →
      ¬ Route start steps value) (force : Conditional Node → Except Error Node) :
    root.resolveReference force (".".intercalate (id :: segments)) =
      .error (.unresolved (.noSuchValue (".".intercalate (id :: segments)) id) none) := by
  rw [resolveReference_of_isStatic static dotless, found]
  dsimp only
  cases led : segments.foldlM step? start with
  | none => rfl
  | some value =>
    obtain ⟨steps, spelled, route⟩ :=
      exists_route_of_foldlM_step? (fun s mem => dotless s (List.mem_cons_of_mem id mem)) led
    exact absurd route (lost steps value spelled)

end

/-- In a finished tree, the text of a route from the first record with an id leads to the node at
its end, if keys and names differ. More generally, every reference is an id and further segments.
If no record carries the id, that is reported; if segments spell a route, the node at its end is
found; and if they spell none, there is no such value. -/
theorem references_address {root : Node} (static : root.isStatic = true) :
    (root.DistinctAddresses → ∀ id start steps value, '.' ∉ id.toList →
      root.preorder.find? (carries id) = some start → Route start steps value → ∀ force,
        root.resolveReference force (".".intercalate (id :: steps.map Step.text)) = .ok value) ∧
    (∀ reference, ∃ id segments, reference = ".".intercalate (id :: segments) ∧
      ∀ segment ∈ id :: segments, '.' ∉ segment.toList) ∧
    ∀ id segments, (∀ segment ∈ id :: segments, '.' ∉ segment.toList) → ∀ force,
      (root.preorder.find? (carries id) = none →
        root.resolveReference force (".".intercalate (id :: segments)) =
          .error (.unresolved (.unknownId id (".".intercalate (id :: segments))) none)) ∧
      ∀ start, root.preorder.find? (carries id) = some start →
        (root.DistinctAddresses → ∀ steps value,
          List.Forall₂ (fun step segment => step.SpelledBy segment) steps segments →
          Route start steps value →
            root.resolveReference force (".".intercalate (id :: segments)) = .ok value) ∧
        ((∀ steps value,
          List.Forall₂ (fun step segment => step.SpelledBy segment) steps segments →
          ¬ Route start steps value) →
            root.resolveReference force (".".intercalate (id :: segments)) =
              .error (.unresolved (.noSuchValue (".".intercalate (id :: segments)) id) none)) := by
  refine ⟨?_, Reference.exists_segments, fun id segments dotless force => ⟨?_, ?_⟩⟩
  · intro distinct id start steps value dotless found route force
    refine resolveReference_of_route static distinct ?_ found ?_ route force
    · exact List.forall_mem_cons.mpr ⟨dotless, route.dot_not_mem_text⟩
    · exact Step.forall₂_spelledBy_text steps
  · intro missing
    rw [resolveReference_of_isStatic static dotless, missing]
  · intro start found
    exact ⟨fun distinct steps value spelled route =>
        resolveReference_of_route static distinct dotless found spelled route force,
      fun lost => resolveReference_of_no_route static dotless found lost force⟩

/-- A wall whose only size is a mapping with a range under a number and a null under a word. -/
def numberedWall : Node :=
  record .item (some "wall") [("sizes", sequence [mapping
    [(.int 7, .interval ⟨.int 1, .int 2⟩), (.text "a", .scalar .null)]])]

theorem references_address_numberedWall :
    numberedWall.isStatic = true ∧ numberedWall.DistinctAddresses ∧
      Route numberedWall [.field "sizes", .position 0, .number 7, .bound true] (.int 2) ∧
      ∀ force, numberedWall.resolveReference force "wall.sizes.0.7.1" = .ok (.int 2) ∧
        numberedWall.resolveReference force "wall.sizes.00.7.01" = .ok (.int 2) ∧
        numberedWall.resolveReference force "wall.sizes.7" =
          .error (.unresolved (.noSuchValue "wall.sizes.7" "wall") none) ∧
        numberedWall.resolveReference force "ramp.sizes" =
          .error (.unresolved (.unknownId "ramp" "ramp.sizes") none) := by
  have static : numberedWall.isStatic = true := by decide
  have distinct : numberedWall.DistinctAddresses := by
    refine distinctAddresses_container (List.nodup_singleton "sizes")
      (List.forall_mem_singleton.mpr ?_)
    refine distinctAddresses_container trivial (List.forall_mem_singleton.mpr ?_)
    refine distinctAddresses_container (List.pairwise_pair.mpr rfl) ?_
    exact List.forall_mem_cons.mpr ⟨distinctAddresses_leaf nofun,
      List.forall_mem_singleton.mpr (distinctAddresses_leaf nofun)⟩
  have found : numberedWall.preorder.find? (carries "wall") = some numberedWall := rfl
  have route : Route numberedWall [.field "sizes", .position 0, .number 7, .bound true]
      (.int 2) := by
    refine .onward (.field List.mem_cons_self (.inl (by decide))) (.onward (.position rfl) ?_)
    exact .onward (.number List.mem_cons_self rfl) (.onward (.upper _) (.here _))
  obtain ⟨leads, -, all⟩ := references_address static
  refine ⟨static, distinct, route, fun force => ⟨?_, ?_, ?_, ?_⟩⟩
  · exact leads distinct "wall" numberedWall _ _ (by decide) found route force
  · refine ((all "wall" ["sizes", "00", "7", "01"] (by decide) force).2 _ found).1 distinct _ _ ?_
      route
    exact .cons rfl (.cons ⟨1, rfl⟩ (.cons ⟨0, rfl⟩ (.cons ⟨1, rfl⟩ .nil)))
  · refine ((all "wall" ["sizes", "7"] (by decide) force).2 _ found).2 fun _ _ spelled lost => ?_
    have led := lost.foldlM_step?_eq_some distinct spelled
    have nothing : ["sizes", "7"].foldlM step? numberedWall = none := rfl
    rw [nothing] at led
    cases led
  · exact (all "ramp" ["sizes"] (by decide) force).1 rfl

end Node

end ArenaVariations
