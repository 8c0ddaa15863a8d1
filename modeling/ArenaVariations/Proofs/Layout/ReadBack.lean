import ArenaVariations.Proofs.Layout.RoundTrip

/-!
# Trees with any texts

`Node.parse_written` asks for words. The texts of a template may be anything else: they are quoted
where YAML would not read them as they are. A tree is read back with all its texts if these are
legible where they stand, on one line or in a document, whatever collections and tags surround
them. `awkward` holds texts in every style. A list with a text that starts with a colon is not read
back from its line, `colons_not_read_back`.
-/

namespace ArenaVariations

open Yaml

namespace Yaml.Value

/-- Texts in a list are legible there. -/
theorem legibleIn_texts {mode : Mode} {ss : List String}
    (each : ∀ s ∈ ss, IsLegible Mode.brackets.value s) : (texts ss).LegibleIn mode := by
  have inline : mode.items (ss.map text) = .brackets :=
    Mode.items_eq_brackets fun _ => List.all_eq_true.mpr (List.forall_mem_map.mpr fun _ _ => rfl)
  exact .sequence (List.forall_mem_map.mpr fun s mem => .scalar (inline.symm ▸ .text (each s mem)))

/-- Entries under different texts are legible if these are legible as keys. -/
theorem legibleIn_record {mode inner : Mode} {fields : List (String × Value)}
    (below : mode.entries (fields.map fun field => (text field.1, field.2)) = inner)
    (keys : ∀ field ∈ fields, IsLegible inner.key field.1)
    (distinct : (fields.map Prod.fst).Nodup) (values : ∀ field ∈ fields, field.2.LegibleIn inner) :
    (record fields).LegibleIn mode := by
  subst below
  refine .mapping (List.forall_mem_map.mpr fun field mem => .text (keys field mem)) ?_
    (List.forall_mem_map.mpr values)
  rw [List.pairwise_map]
  refine (List.pairwise_map.mp distinct).imp fun ne => ?_
  simpa [same] using ne

end Yaml.Value

namespace Node

/-- A tree that was read is written on one line and as a document from which it is read back, if
its texts are legible where they stand there. -/
theorem read_back_of_legible {text source : String} {n : Node}
    (parsed : Node.parse text source = .ok n) (shallow : n.toValue.nesting ≤ Tree.depthLimit) :
    (n.toValue.LegibleIn .line →
      ∃ line, n.toFlow = .ok line ∧ Value.ofChars? line.toList = some n.toValue) ∧
    (n.toValue.LegibleIn .lines →
      ∃ document, n.toYaml = .ok document ∧ Value.ofChars? document.toList = some n.toValue) := by
  have readable := readable_of_parse parsed
  have document : n.toYaml = .ok n.toValue.layout.render := by
    rw [toYaml, readable.layout_eq]
    rfl
  exact ⟨fun legible => ⟨_, readable.toFlow_eq, legible.ofChars?_flow shallow⟩,
    fun legible => ⟨_, document, legible.ofChars?_layout shallow⟩⟩

/-- Texts that are written in every style: plainly, in single and double quotes, and as JSON. -/
def awkwardTexts : List String :=
  ["b:c", "", "1", "- x", "a: b", "don't", "x, y", "tab\tx", "two\n lines"]

/-- The texts in a list, and as keys and values of entries. -/
def awkward : Node :=
  mapping [
    (.text "in: list", sequence (awkwardTexts.map text)),
    (.text "? as entries", mapping (awkwardTexts.map fun s => (.text s, text s)))]

/-- The view of the awkward texts. -/
def awkwardValue : Value :=
  .record [("in: list", .texts awkwardTexts),
    ("? as entries", .record (awkwardTexts.map fun s => (s, .text s)))]

/-- The awkward texts are legible where the entries of a mapping, and those of the mappings in
it, stand. -/
theorem legibleIn_awkward {mode inner : Yaml.Mode}
    (below : ∀ {es}, es ≠ [] → mode.entries es = inner)
    (stays : ∀ {es}, es ≠ [] → inner.entries es = inner)
    (keys : ∀ s ∈ "in: list" :: "? as entries" :: awkwardTexts, IsLegible inner.key s)
    (values : ∀ s ∈ awkwardTexts, IsLegible inner.value s) : awkwardValue.LegibleIn mode := by
  have listed : ∀ s ∈ awkwardTexts, IsLegible Yaml.Mode.brackets.value s := by decide
  obtain ⟨first, second, others⟩ := by simpa only [List.forall_mem_cons] using keys
  refine Value.legibleIn_record (below (by simp)) ?_ (by decide) ?_
  · simpa using ⟨first, second⟩
  · refine List.forall_mem_cons.mpr ⟨Value.legibleIn_texts listed, ?_⟩
    refine List.forall_mem_singleton.mpr
      (Value.legibleIn_record (stays (by decide)) ?_ (by decide) ?_)
    · exact List.forall_mem_map.mpr others
    · exact List.forall_mem_map.mpr fun s mem => .scalar (.text (values s mem))

theorem legibleIn_awkward_line : awkwardValue.LegibleIn .line :=
  legibleIn_awkward (fun _ => Yaml.Mode.entries_eq_brackets nofun)
    (fun _ => Yaml.Mode.entries_eq_brackets nofun) (by decide) (by decide)

theorem legibleIn_awkward_lines : awkwardValue.LegibleIn .lines :=
  legibleIn_awkward Yaml.Mode.entries_lines Yaml.Mode.entries_lines (by decide)
    (by decide)

theorem parse_awkward : Node.parse awkwardValue.flow "awkward" = .ok awkward :=
  (parse_of_ofChars? (legibleIn_awkward_line.ofChars?_flow (by decide))).trans (by rfl)

theorem read_back_of_legible_awkward :
    (∃ line, awkward.toFlow = .ok line ∧ Value.ofChars? line.toList = some awkward.toValue) ∧
      ∃ document, awkward.toYaml = .ok document ∧
        Value.ofChars? document.toList = some awkward.toValue :=
  (read_back_of_legible parse_awkward (by decide)).imp (· legibleIn_awkward_line)
    (· legibleIn_awkward_lines)

/-- A list with a text that starts with a colon. -/
def colons : Node :=
  sequence [text ":b", text "c"]

theorem parse_colons : Node.parse "[\":b\", c]" "colons" = .ok colons := by
  have read : (Value.ofChars? "[\":b\", c]".toList).any
      (Value.sequence [.text ":b", .text "c"]).alike = true := by decide +kernel
  rw [parse_of_alike read]
  rfl

theorem colons_not_read_back :
    Node.parse "[\":b\", c]" "colons" = .ok colons ∧
      ∃ line, colons.toFlow = .ok line ∧ Value.ofChars? line.toList ≠ some colons.toValue := by
  refine ⟨parse_colons, "[:b, c]", rfl, fun read => ?_⟩
  have refused : (Value.ofChars? "[:b, c]".toList).isNone = true := by decide +kernel
  rw [read] at refused
  cases refused

end Node

end ArenaVariations
