import ArenaVariations.Layout.Block
import ArenaVariations.Proofs.Layout.Spot

/-!
# Texts of values

Values are written in the same two ways as trees: `Value.flow` writes a value on one line, and
`Value.layout` lays it out. What a layout has on a line is what is written on one line, so the two
differ in the blocks only.
-/

namespace ArenaVariations

namespace Yaml.Value

/-- A mapping with names as keys. -/
def record (fields : List (String × Value)) : Value :=
  mapping (fields.map fun field => (text field.1, field.2))

/-- A list of texts. -/
def texts (ss : List String) : Value :=
  sequence (ss.map text)

/-- An entry that may be left out. -/
def option {α : Type} (name : String) (given : Option α) (view : α → Value) :
    List (String × Value) :=
  given.toList.map fun a => (name, view a)

mutual

/-- Write a value on one line. -/
def flow : Value → String
  | sequence items => Flow.list (flowItems items)
  | mapping entries => Flow.map (flowEntries entries)
  | tagged tag value => "!" ++ tag ++ " " ++ value.flow
  | null => scalarLine null
  | bool b => scalarLine (bool b)
  | int i => scalarLine (int i)
  | float x => scalarLine (float x)
  | text s => scalarLine (text s)
termination_by structural v => v

/-- Write the values of a list. -/
def flowItems : List Value → List String
  | [] => []
  | v :: vs => v.flow :: flowItems vs
termination_by structural vs => vs

/-- Write the entries of a mapping. -/
def flowEntries : List (Value × Value) → List (String × String)
  | [] => []
  | e :: es => flowEntry e :: flowEntries es
termination_by structural es => es

/-- Write a key and its value. -/
def flowEntry : Value × Value → String × String
  | (key, value) => (key.scalarLine, value.flow)
termination_by structural e => e

end

/-- Whether a value may stand in a list on one line: scalars, with or without a tag, and ranges.
The amount of a palette may not. -/
def isLeaf : Value → Bool
  | tagged tag value => tag == "R" || (value.isScalar && tag != "ProcColor")
  | value => value.isScalar

/-- Whether what stands below a tag is always written on one line. -/
def isInlineTag (tag : String) : Bool :=
  ["R", RecordKind.vector3.tag, RecordKind.rgb.tag].contains tag

end Yaml.Value

/-- Put a tag in front of a layout. -/
def Layout.under (tag : String) : Layout → Layout
  | line text => line ("!" ++ tag ++ " " ++ text)
  | items _ layouts => items (some tag) layouts
  | entries _ fields => entries (some tag) fields

namespace Yaml.Value

mutual

/-- Lay a value out. -/
def layout : Value → Layout
  | sequence vs =>
    if vs.all isLeaf then .line (Flow.list (flowItems vs)) else .items none (layoutItems vs)
  | mapping entries =>
    if entries.isEmpty then .line (Flow.map []) else .entries none (layoutEntries entries)
  | tagged tag value =>
    if isInlineTag tag then .line ("!" ++ tag ++ " " ++ value.flow) else value.layout.under tag
  | null => .line (scalarLine null)
  | bool b => .line (scalarLine (bool b))
  | int i => .line (scalarLine (int i))
  | float x => .line (scalarLine (float x))
  | text s => .line (scalarLine (text s))
termination_by structural v => v

/-- Lay the values of a list out. -/
def layoutItems : List Value → List Layout
  | [] => []
  | v :: vs => v.layout :: layoutItems vs
termination_by structural vs => vs

/-- Lay the entries of a mapping out. -/
def layoutEntries : List (Value × Value) → List (String × Layout)
  | [] => []
  | e :: es => layoutEntry e :: layoutEntries es
termination_by structural es => es

/-- Lay a key and its value out. -/
def layoutEntry : Value × Value → String × Layout
  | (key, value) => (key.keyLine, value.layout)
termination_by structural e => e

end

theorem flowItems_eq (vs : List Value) : flowItems vs = vs.map flow := by
  induction vs with
  | nil => rfl
  | cons v vs ih => exact congrArg (v.flow :: ·) ih

theorem flowEntries_eq (entries : List (Value × Value)) :
    flowEntries entries = entries.map fun e => (e.1.scalarLine, e.2.flow) := by
  induction entries with
  | nil => rfl
  | cons e es ih =>
    obtain ⟨key, value⟩ := e
    exact congrArg ((key.scalarLine, value.flow) :: ·) ih

theorem layoutItems_eq (vs : List Value) : layoutItems vs = vs.map layout := by
  induction vs with
  | nil => rfl
  | cons v vs ih => exact congrArg (v.layout :: ·) ih

theorem layoutEntries_eq (entries : List (Value × Value)) :
    layoutEntries entries = entries.map fun e => (e.1.keyLine, e.2.layout) := by
  induction entries with
  | nil => rfl
  | cons e es ih =>
    obtain ⟨key, value⟩ := e
    exact congrArg ((key.keyLine, value.layout) :: ·) ih

theorem flow_sequence (vs : List Value) : (sequence vs).flow = Flow.list (vs.map flow) :=
  congrArg Flow.list (flowItems_eq vs)

theorem flow_mapping (entries : List (Value × Value)) :
    (mapping entries).flow = Flow.map (entries.map fun e => (e.1.scalarLine, e.2.flow)) :=
  congrArg Flow.map (flowEntries_eq entries)

theorem flow_tagged (tag : String) (v : Value) :
    (tagged tag v).flow = "!" ++ tag ++ " " ++ v.flow :=
  rfl

theorem layout_sequence_eq (vs : List Value) : (sequence vs).layout =
    if vs.all isLeaf then .line (sequence vs).flow else .items none (vs.map layout) := by
  rw [← layoutItems_eq]
  rfl

theorem layout_mapping_eq (entries : List (Value × Value)) : (mapping entries).layout =
    if entries.isEmpty then .line (Flow.map [])
    else .entries none (entries.map fun e => (e.1.keyLine, e.2.layout)) := by
  rw [← layoutEntries_eq]
  rfl

theorem layout_tagged_eq (tag : String) (v : Value) : (tagged tag v).layout =
    if isInlineTag tag then .line (tagged tag v).flow else v.layout.under tag :=
  rfl

theorem flow_of_isScalar {v : Value} (h : v.isScalar = true) : v.flow = v.scalarLine := by
  cases v with
  | null | bool | int | float | text => rfl
  | sequence | mapping | tagged => cases h

theorem layout_of_isScalar {v : Value} (h : v.isScalar = true) : v.layout = .line v.scalarLine := by
  cases v with
  | null | bool | int | float | text => rfl
  | sequence | mapping | tagged => cases h

/-- What is laid out on a line is written as on one line. -/
theorem eq_flow_of_layout {v : Value} {text : String} (h : v.layout = .line text) :
    text = v.flow := by
  match v with
  | .tagged tag value =>
    rw [layout_tagged_eq] at h
    split at h
    · cases h
      rfl
    · cases inner : value.layout with
      | line text =>
        rw [inner] at h
        cases h
        rw [eq_flow_of_layout inner, flow_tagged]
      | items | entries =>
        rw [inner] at h
        cases h
  | .sequence vs =>
    rw [layout_sequence_eq] at h
    split at h <;> cases h
    rfl
  | .mapping entries =>
    rw [layout_mapping_eq] at h
    split at h <;> cases h
    cases entries with
    | nil => rfl
    | cons => contradiction
  | .null | .bool _ | .int _ | .float _ | .text _ =>
    cases h
    rfl

theorem layout_sequence {vs : List Value} (items : vs.all isLeaf = false) :
    (sequence vs).layout = .items none (vs.map layout) := by
  rw [layout_sequence_eq, items]
  rfl

theorem layout_sequence_of_all {vs : List Value} (leaves : vs.all isLeaf = true) :
    (sequence vs).layout = .line (sequence vs).flow := by
  rw [layout_sequence_eq, leaves]
  rfl

theorem layout_mapping {entries : List (Value × Value)} (filled : entries ≠ []) :
    (mapping entries).layout = .entries none (entries.map fun e => (e.1.keyLine, e.2.layout)) := by
  rw [layout_mapping_eq, if_neg (by simpa using filled)]

theorem layout_tagged {tag : String} (block : isInlineTag tag = false) (v : Value) :
    (tagged tag v).layout = v.layout.under tag := by
  rw [layout_tagged_eq, block]
  rfl

theorem layout_tagged_of_isInlineTag {tag : String} (inline : isInlineTag tag = true) (v : Value) :
    (tagged tag v).layout = .line (tagged tag v).flow := by
  rw [layout_tagged_eq, inline]
  rfl

/-- Whether a value stands below a tag. -/
def isTagged : Value → Bool
  | tagged .. => true
  | _ => false

mutual

/-- How deeply collections are nested; a scalar is no collection. -/
def nesting : Value → Nat
  | sequence items => nestingOfItems items + 1
  | mapping entries => nestingOfEntries entries + 1
  | tagged _ value => value.nesting
  | null | bool _ | int _ | float _ | text _ => 0

/-- The greatest nesting of a list of values. -/
def nestingOfItems : List Value → Nat
  | [] => 0
  | v :: vs => max v.nesting (nestingOfItems vs)

/-- The greatest nesting of the keys and values of a mapping. -/
def nestingOfEntries : List (Value × Value) → Nat
  | [] => 0
  | e :: es => max (nestingOfEntry e) (nestingOfEntries es)

/-- The greater nesting of a key and its value. -/
def nestingOfEntry : Value × Value → Nat
  | (k, v) => max k.nesting v.nesting

end

theorem nesting_le_of_mem {vs : List Value} {v : Value} (mem : v ∈ vs) :
    v.nesting ≤ nestingOfItems vs := by
  induction vs with
  | nil => cases mem
  | cons w vs ih =>
    rw [nestingOfItems]
    obtain rfl | mem := List.mem_cons.mp mem
    · exact Nat.le_max_left _ _
    · exact (ih mem).trans (Nat.le_max_right _ _)

theorem nesting_le_of_mem_entries {entries : List (Value × Value)} {e : Value × Value}
    (mem : e ∈ entries) : e.1.nesting ≤ nestingOfEntries entries ∧
      e.2.nesting ≤ nestingOfEntries entries := by
  induction entries with
  | nil => cases mem
  | cons f entries ih =>
    rw [nestingOfEntries]
    obtain rfl | mem := List.mem_cons.mp mem
    · rw [nestingOfEntry]
      omega
    · have := ih mem
      omega

/-- The name of an application's tag that is written as it is: letters and digits. -/
def IsTagName (tag : String) : Prop :=
  tag.toList ≠ [] ∧ ∀ c ∈ tag.toList, c.isAlphanum = true

end Yaml.Value

namespace Yaml

/-- How a value stands in a text: on lines of its own, on a line, or inside of a flow collection. -/
inductive Mode where
  | lines
  | line
  | brackets
deriving Repr, DecidableEq

namespace Mode

/-- Where the items of a list stand. Leaves stand on one line. -/
def items (mode : Mode) (vs : List Value) : Mode :=
  if mode = lines ∧ vs.all Value.isLeaf = false then lines else brackets

/-- Where the entries of a mapping stand. -/
def entries (mode : Mode) (es : List (Value × Value)) : Mode :=
  if mode = lines ∧ es ≠ [] then lines else brackets

/-- Where a value below a tag stands. -/
def below (mode : Mode) (tag : String) : Mode :=
  if mode = lines ∧ Value.isInlineTag tag = true then line else mode

/-- Where a scalar stands. -/
def value (mode : Mode) : Spot :=
  ⟨mode = brackets, false⟩

/-- Where the keys of entries stand. -/
def key (mode : Mode) : Spot :=
  ⟨mode = brackets, true⟩

theorem isShared_value (mode : Mode) : mode.value.isShared = true := by
  simp [Spot.isShared, value]

theorem items_lines {vs : List Value} (deep : vs.all Value.isLeaf = false) :
    lines.items vs = lines := by
  rw [items, if_pos ⟨rfl, deep⟩]

theorem items_eq_brackets {mode : Mode} {vs : List Value}
    (flat : mode = lines → vs.all Value.isLeaf = true) : mode.items vs = brackets := by
  rw [items, if_neg]
  rintro ⟨is, deep⟩
  rw [flat is] at deep
  cases deep

theorem entries_lines {es : List (Value × Value)} (filled : es ≠ []) :
    lines.entries es = lines := by
  rw [entries, if_pos ⟨rfl, filled⟩]

theorem entries_eq_brackets {mode : Mode} {es : List (Value × Value)}
    (flat : mode = lines → es = []) : mode.entries es = brackets := by
  rw [entries, if_neg fun h => h.2 (flat h.1)]

theorem eq_lines_of_below {mode : Mode} {tag : String} (h : mode.below tag = lines) :
    mode = lines := by
  rw [below] at h
  split at h
  · cases h
  · exact h

theorem below_lines {tag : String} (block : Value.isInlineTag tag = false) :
    lines.below tag = lines := by
  simp [below, block]

theorem below_brackets (tag : String) : brackets.below tag = brackets := by
  simp [below]

theorem below_ne_brackets {mode : Mode} (outside : mode ≠ brackets) (tag : String) :
    mode.below tag ≠ brackets := by
  rw [below]
  split
  · nofun
  · exact outside

theorem value_of_ne_brackets {mode : Mode} (outside : mode ≠ brackets) :
    mode.value = ⟨false, false⟩ := by
  simp [value, outside]

/-- A value is written on one line, in brackets or on the rest of a line of a block. -/
def OnLine (mode : Mode) (v : Value) : Prop :=
  mode = lines → ∃ text, v.layout = .line text

theorem onLine_brackets (v : Value) : brackets.OnLine v :=
  nofun

namespace OnLine

variable {mode : Mode}

theorem items_eq {vs : List Value} (h : mode.OnLine (.sequence vs)) :
    mode.items vs = brackets := by
  refine items_eq_brackets fun is => ?_
  obtain ⟨text, line⟩ := h is
  rw [Value.layout_sequence_eq] at line
  split at line
  case isTrue leaves => exact leaves
  case isFalse => cases line

theorem entries_eq {es : List (Value × Value)} (h : mode.OnLine (.mapping es)) :
    mode.entries es = brackets := by
  refine entries_eq_brackets fun is => ?_
  obtain ⟨text, line⟩ := h is
  rw [Value.layout_mapping_eq] at line
  split at line
  case isTrue empty => simpa using empty
  case isFalse => cases line

theorem below {tag : String} {v : Value} (h : mode.OnLine (.tagged tag v)) :
    (mode.below tag).OnLine v := by
  intro is
  obtain rfl := eq_lines_of_below is
  have block : Value.isInlineTag tag = false := by
    by_contra inline
    rw [Mode.below, if_pos ⟨rfl, by simpa using inline⟩] at is
    cases is
  obtain ⟨text, line⟩ := h rfl
  rw [Value.layout_tagged block] at line
  cases found : v.layout with
  | line text => exact ⟨text, rfl⟩
  | items | entries =>
    rw [found] at line
    cases line

end OnLine

end Mode

namespace Value

/-- The values that are read back from their texts: all scalars are legible where they stand, keys
are pairwise different scalars, and no tag stands directly below another. -/
inductive LegibleIn : Mode → Value → Prop where
  | scalar {mode : Mode} {v : Value} (legible : v.LegibleAt mode.value) : LegibleIn mode v
  | sequence {mode : Mode} {items : List Value}
      (each : ∀ v ∈ items, LegibleIn (mode.items items) v) :
      LegibleIn mode (.sequence items)
  | mapping {mode : Mode} {entries : List (Value × Value)}
      (keys : ∀ e ∈ entries, e.1.LegibleAt (mode.entries entries).key)
      (distinct : entries.Pairwise fun e f => e.1.same f.1 = false)
      (values : ∀ e ∈ entries, LegibleIn (mode.entries entries) e.2) :
      LegibleIn mode (.mapping entries)
  | tagged {mode : Mode} {tag : String} (name : IsTagName tag) {v : Value}
      (untagged : v.isTagged = false) (inner : LegibleIn (mode.below tag) v) :
      LegibleIn mode (.tagged tag v)

/-- A scalar that is read back from wherever it is written. -/
def LegibleScalar (v : Value) : Prop :=
  ∀ spot, v.LegibleAt spot

/-- A value that is read back from its texts however it is written. -/
def Legible (v : Value) : Prop :=
  ∀ mode, v.LegibleIn mode

namespace LegibleScalar

theorem null : LegibleScalar .null := fun _ => .null

theorem bool (b : Bool) : LegibleScalar (.bool b) := fun _ => .bool b

theorem int {i : Int} (least : -2 ^ 63 ≤ i) (greatest : i < 2 ^ 63) : LegibleScalar (.int i) :=
  fun _ => .int least greatest

theorem float {x : Float} (real : x.isNaN = false) : LegibleScalar (.float x) :=
  fun _ => .float real

theorem text {s : String} (word : IsWord s) : LegibleScalar (.text s) :=
  fun spot => .text (word.isLegible spot)

end LegibleScalar

namespace Legible

theorem scalar {v : Value} (legible : v.LegibleScalar) : v.Legible :=
  fun mode => .scalar (legible mode.value)

theorem sequence {items : List Value} (each : ∀ v ∈ items, v.Legible) : (sequence items).Legible :=
  fun _ => .sequence fun v mem => each v mem _

theorem mapping {entries : List (Value × Value)} (keys : ∀ e ∈ entries, e.1.LegibleScalar)
    (distinct : entries.Pairwise fun e f => e.1.same f.1 = false)
    (values : ∀ e ∈ entries, e.2.Legible) : (mapping entries).Legible :=
  fun _ => .mapping (fun e mem => keys e mem _) distinct fun e mem => values e mem _

theorem tagged {tag : String} (name : IsTagName tag) {v : Value} (untagged : v.isTagged = false)
    (inner : v.Legible) : (tagged tag v).Legible :=
  fun _ => .tagged name untagged (inner _)

end Legible

end Value

end Yaml

end ArenaVariations
