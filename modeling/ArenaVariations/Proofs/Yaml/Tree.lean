import ArenaVariations.Proofs.Layout.Value
import ArenaVariations.Proofs.Text.Separated
import ArenaVariations.Yaml.Value.OfTree

/-!
# Tokens that spell a value

`Spelled` relates a value to the tokens of a text that stands for it. A collection is written as a
block or in brackets; block collections do not occur inside of brackets. Tokens that spell a value
are read as the tree of the value, `Spelled.node`, and the tree of a value has that value,
`Value.documentValue?_tree`, if it is not nested too deeply.
-/

namespace ArenaVariations.Yaml

/-- Tokens that stand for a value, block collections only where values have lines of their own. -/
inductive Spelled : Mode → Value → List Token → Prop where
  | scalar {mode : Mode} {v : Value} (scalar : v.isScalar = true) :
      Spelled mode v [.scalar (v.scalarText true)]
  | flowSequence {mode : Mode} {items : List (Value × List Token)}
      (inline : mode.items (items.map Prod.fst) = .brackets)
      (each : ∀ item ∈ items, Spelled .brackets item.1 item.2) :
      Spelled mode (.sequence (items.map Prod.fst))
        (.flowSequence :: [Token.flowEntry].intercalate (items.map Prod.snd)
          ++ [.flowSequenceEnd])
  | flowMapping {mode : Mode} {entries : List (Value × Value × List Token)}
      (inline : mode.entries (entries.map fun entry => (entry.1, entry.2.1)) = .brackets)
      (each : ∀ entry ∈ entries, Spelled .brackets entry.2.1 entry.2.2) :
      Spelled mode (.mapping (entries.map fun entry => (entry.1, entry.2.1)))
        (.flowMapping :: [Token.flowEntry].intercalate (entries.map fun entry =>
            .key :: .scalar (entry.1.scalarText true) :: .value :: entry.2.2)
          ++ [.flowMappingEnd])
  | blockSequence {items : List (Value × List Token)}
      (deep : (items.map Prod.fst).all Value.isLeaf = false)
      (each : ∀ item ∈ items, Spelled .lines item.1 item.2) :
      Spelled .lines (.sequence (items.map Prod.fst))
        (.blockSequence :: (items.flatMap fun item => .blockEntry :: item.2) ++ [.blockEnd])
  | blockMapping {entries : List (Value × Value × List Token)}
      (filled : entries.map (fun entry => (entry.1, entry.2.1)) ≠ [])
      (each : ∀ entry ∈ entries, Spelled .lines entry.2.1 entry.2.2) :
      Spelled .lines (.mapping (entries.map fun entry => (entry.1, entry.2.1)))
        (.blockMapping :: (entries.flatMap fun entry =>
            .key :: .scalar (entry.1.scalarText false) :: .value :: entry.2.2) ++ [.blockEnd])
  | tagged {mode : Mode} (tag : String) {v : Value} {tokens : List Token}
      (untagged : v.isTagged = false) (inner : Spelled (mode.below tag) v tokens) :
      Spelled mode (.tagged tag v) (.tag ⟨['!'], tag.toList.map some⟩ :: tokens)

/-- Tokens that may come first in those of a value. -/
def Token.starts : Token → Bool
  | scalar _ | tag _ | flowSequence | flowMapping | blockSequence | blockMapping => true
  | _ => false

theorem Spelled.head {mode : Mode} {v : Value} {tokens : List Token}
    (h : Spelled mode v tokens) : ∃ t rest, tokens = t :: rest ∧ t.starts = true := by
  cases h <;> exact ⟨_, _, rfl, rfl⟩

namespace Value

/-- No tag and no anchor. -/
def bare : Properties := ⟨none, none⟩

mutual

/-- The tree of a value below properties; a tag replaces them. The texts in it depend on how the
value stands in a text. -/
def tree {ρ : Type} (mode : Mode) (ps : Properties) : Value → Tree ρ
  | sequence items => .sequence ps (trees (mode.items items) items)
  | mapping entries => .mapping ps (treeEntries (mode.entries entries) entries)
  | tagged tag v => v.tree (mode.below tag) ⟨none, some (some '!' :: tag.toList.map some)⟩
  | null => .scalar ps (scalarText true null)
  | bool b => .scalar ps (scalarText true (bool b))
  | int i => .scalar ps (scalarText true (int i))
  | float x => .scalar ps (scalarText true (float x))
  | text s => .scalar ps (scalarText true (text s))
termination_by structural v => v

/-- The trees of a list of values. -/
def trees {ρ : Type} (mode : Mode) : List Value → List (Tree ρ)
  | [] => []
  | v :: vs => v.tree mode bare :: trees mode vs
termination_by structural vs => vs

/-- The trees of the entries of a mapping. -/
def treeEntries {ρ : Type} (mode : Mode) : List (Value × Value) → List (Tree ρ × Tree ρ)
  | [] => []
  | e :: es => treeEntry mode e :: treeEntries mode es
termination_by structural es => es

/-- The trees of a key and its value. -/
def treeEntry {ρ : Type} (mode : Mode) : Value × Value → Tree ρ × Tree ρ
  | (key, v) => (.scalar bare (key.scalarText mode.key.isShared), v.tree mode bare)
termination_by structural e => e

end

variable {ρ : Type} (mode : Mode)

theorem trees_eq (vs : List Value) : trees mode vs = (vs.map (tree mode bare) : List (Tree ρ)) := by
  induction vs with
  | nil => rfl
  | cons v vs ih => rw [trees, ih, List.map_cons]

theorem treeEntries_eq (entries : List (Value × Value)) :
    treeEntries mode entries = (entries.map fun e =>
      (.scalar bare (e.1.scalarText mode.key.isShared), e.2.tree mode bare) :
        List (Tree ρ × Tree ρ)) := by
  induction entries with
  | nil => rfl
  | cons e es ih => rw [treeEntries, ih, treeEntry, List.map_cons]

theorem tree_of_isScalar {v : Value} (h : v.isScalar = true) (ps : Properties) :
    v.tree mode ps = (.scalar ps (v.scalarText true) : Tree ρ) := by
  cases v with
  | null | bool | int | float | text => rfl
  | sequence | mapping | tagged => cases h

end Value

namespace Tree

/-- Read a node whose properties have been read. -/
def nodeAfter (handles : Handles) (fuel : Nat) (block unindented : Bool) (ps : Properties) :
    Reader
  | .scalar text :: rest => some (scalar ps text, rest)
  | .flowSequence :: rest => flowItems handles fuel ps true [] rest
  | .flowMapping :: rest => flowEntries handles fuel ps true [] rest
  | rest =>
    match rest, block, unindented with
    | .blockEntry :: _, _, true => plainItems handles fuel ps [] rest
    | .blockSequence :: rest, true, _ => blockItems handles fuel ps [] rest
    | .blockMapping :: rest, true, _ => blockEntries handles fuel ps [] rest
    | _, _, _ =>
      if ps.anchor.isSome || ps.tag.isSome then some (scalar ps ⟨[], true⟩, rest) else none

variable {handles : Handles}

theorem node_eq (fuel : Nat) (block unindented : Bool) {t : Token} (rest : List Token)
    (starts : t.starts = true) (untagged : ∀ text, t ≠ .tag text) :
    node handles (fuel + 1) block unindented (t :: rest) =
      nodeAfter handles fuel block unindented Value.bare (t :: rest) := by
  cases t <;> first | rfl | exact absurd rfl (untagged _) | cases starts

theorem node_tag (fuel : Nat) (block unindented : Bool) (text : TagText) {t : Token}
    (rest : List Token) (starts : t.starts = true) :
    node handles (fuel + 1) block unindented (.tag text :: t :: rest) =
      (spellTag handles text).bind fun tag =>
        nodeAfter handles fuel block unindented ⟨none, some tag⟩ (t :: rest) := by
  cases spelled : spellTag handles text <;> cases t <;>
    first | (simp only [node, properties?, spelled]; rfl) | cases starts

/-- Tokens are read as the tree of a value, given a step for each of them. -/
structure Reads (handles : Handles) (block : Bool) (mode : Mode) (v : Value) (tokens : List Token) :
    Prop where
  head : ∃ t rest, tokens = t :: rest ∧ t.starts = true
  read : ∀ fuel unindented rest, tokens.length ≤ fuel →
    node handles fuel block unindented (tokens ++ rest) = some (v.tree mode Value.bare, rest)

theorem Reads.length_pos {block : Bool} {mode : Mode} {v : Value} {tokens : List Token}
    (h : Reads handles block mode v tokens) : 0 < tokens.length := by
  obtain ⟨t, rest, rfl, -⟩ := h.head
  exact Nat.succ_pos _

section

variable {fuel : Nat} {ps : Properties} {v : Value} {tokens : List Token}

theorem flowItems_entry (h : Reads handles false .brackets v tokens) (enough : tokens.length ≤ fuel)
    (items : List (Tree (List Char))) (rest : List Token) :
    flowItems handles (fuel + 1) ps true items (tokens ++ rest) =
        flowItems handles fuel ps false (v.tree .brackets Value.bare :: items) rest ∧
      flowItems handles (fuel + 1) ps false items (.flowEntry :: (tokens ++ rest)) =
        flowItems handles fuel ps false (v.tree .brackets Value.bare :: items) rest := by
  obtain ⟨t, more, rfl, starts⟩ := h.head
  have read := h.read fuel false rest enough
  have step : ∀ tokens, flowItems handles (fuel + 1) ps true items (t :: tokens) =
        (node handles fuel false false (t :: tokens)).bind (fun read =>
          flowItems handles fuel ps false (read.1 :: items) read.2) ∧
      flowItems handles (fuel + 1) ps false items (.flowEntry :: t :: tokens) =
        (node handles fuel false false (t :: tokens)).bind fun read =>
          flowItems handles fuel ps false (read.1 :: items) read.2 := by
    intro tokens
    cases t <;> first | exact ⟨rfl, rfl⟩ | cases starts
  rw [List.cons_append] at read ⊢
  rw [(step _).1, (step _).2, read]
  exact ⟨rfl, rfl⟩

theorem flowEntries_entry (h : Reads handles false .brackets v tokens)
    (enough : tokens.length ≤ fuel + 1)
    (entries : List (Tree (List Char) × Tree (List Char))) (key : ScalarText) (rest : List Token) :
    flowEntries handles (fuel + 2) ps true entries
          (.key :: .scalar key :: .value :: (tokens ++ rest)) =
        flowEntries handles (fuel + 1) ps false
          ((scalar Value.bare key, v.tree .brackets Value.bare) :: entries) rest ∧
      flowEntries handles (fuel + 2) ps false entries
          (.flowEntry :: .key :: .scalar key :: .value :: (tokens ++ rest)) =
        flowEntries handles (fuel + 1) ps false
          ((scalar Value.bare key, v.tree .brackets Value.bare) :: entries) rest := by
  obtain ⟨t, more, rfl, starts⟩ := h.head
  have read := h.read (fuel + 1) false rest enough
  have step : ∀ tokens, flowEntries handles (fuel + 2) ps true entries
          (.key :: .scalar key :: .value :: t :: tokens) =
        (node handles (fuel + 1) false false (t :: tokens)).bind (fun read =>
          flowEntries handles (fuel + 1) ps false ((scalar Value.bare key, read.1) :: entries)
            read.2) ∧
      flowEntries handles (fuel + 2) ps false entries
          (.flowEntry :: .key :: .scalar key :: .value :: t :: tokens) =
        (node handles (fuel + 1) false false (t :: tokens)).bind fun read =>
          flowEntries handles (fuel + 1) ps false ((scalar Value.bare key, read.1) :: entries)
            read.2 := by
    intro tokens
    cases t <;> first | exact ⟨rfl, rfl⟩ | cases starts
  rw [List.cons_append] at read ⊢
  rw [(step _).1, (step _).2, read]
  exact ⟨rfl, rfl⟩

theorem blockItems_entry (h : Reads handles true .lines v tokens) (enough : tokens.length ≤ fuel)
    (items : List (Tree (List Char))) (rest : List Token) :
    blockItems handles (fuel + 1) ps items (.blockEntry :: (tokens ++ rest)) =
      blockItems handles fuel ps (v.tree .lines Value.bare :: items) rest := by
  obtain ⟨t, more, rfl, starts⟩ := h.head
  have read := h.read fuel false rest enough
  have step : ∀ tokens, blockItems handles (fuel + 1) ps items (.blockEntry :: t :: tokens) =
      (node handles fuel true false (t :: tokens)).bind fun read =>
        blockItems handles fuel ps (read.1 :: items) read.2 := by
    intro tokens
    cases t <;> first | rfl | cases starts
  rw [List.cons_append] at read ⊢
  rw [step, read]
  rfl

theorem blockEntries_entry (h : Reads handles true .lines v tokens)
    (enough : tokens.length ≤ fuel + 1)
    (entries : List (Tree (List Char) × Tree (List Char))) (key : ScalarText) (rest : List Token) :
    blockEntries handles (fuel + 2) ps entries
        (.key :: .scalar key :: .value :: (tokens ++ rest)) =
      blockEntries handles (fuel + 1) ps
        ((scalar Value.bare key, v.tree .lines Value.bare) :: entries) rest := by
  obtain ⟨t, more, rfl, starts⟩ := h.head
  have read := h.read (fuel + 1) true rest enough
  have step : ∀ tokens, blockEntries handles (fuel + 2) ps entries
        (.key :: .scalar key :: .value :: t :: tokens) =
      (node handles (fuel + 1) true true (t :: tokens)).bind fun read =>
        blockEntries handles (fuel + 1) ps ((scalar Value.bare key, read.1) :: entries) read.2 := by
    intro tokens
    cases t <;> first | rfl | cases starts
  rw [List.cons_append] at read ⊢
  rw [step, read]
  rfl

end

section

variable (ps : Properties)

theorem flowItems_rest {items : List (Value × List Token)}
    (each : ∀ item ∈ items, Reads handles false .brackets item.1 item.2)
    (before : List (Tree (List Char))) (rest : List Token) {fuel : Nat}
    (enough : (items.flatMap fun item => Token.flowEntry :: item.2).length < fuel) :
    flowItems handles fuel ps false before
        ((items.flatMap fun item => Token.flowEntry :: item.2) ++ .flowSequenceEnd :: rest) =
      some (sequence ps
        (before.reverse ++ items.map fun item => item.1.tree .brackets Value.bare), rest) := by
  obtain ⟨fuel, rfl⟩ := Nat.exists_eq_succ_of_ne_zero (Nat.ne_zero_of_lt enough)
  induction items generalizing before fuel with
  | nil => simp [flowItems]
  | cons item items ih =>
    obtain ⟨first, later⟩ := List.forall_mem_cons.mp each
    simp only [List.flatMap_cons, List.length_append, List.length_cons] at enough
    obtain ⟨fuel, rfl⟩ := Nat.exists_eq_succ_of_ne_zero (by omega : fuel ≠ 0)
    rw [List.flatMap_cons, List.cons_append, List.cons_append, List.append_assoc,
      (flowItems_entry first (by omega) _ _).2, ih later _ _ (by omega)]
    simp

theorem flowItems_all {items : List (Value × List Token)}
    (each : ∀ item ∈ items, Reads handles false .brackets item.1 item.2) (rest : List Token)
    {fuel : Nat}
    (enough : ([Token.flowEntry].intercalate (items.map Prod.snd)).length < fuel) :
    flowItems handles fuel ps true []
        ([Token.flowEntry].intercalate (items.map Prod.snd) ++ .flowSequenceEnd :: rest) =
      some (sequence ps (items.map fun item => item.1.tree .brackets Value.bare), rest) := by
  obtain ⟨fuel, rfl⟩ := Nat.exists_eq_succ_of_ne_zero (Nat.ne_zero_of_lt enough)
  cases items with
  | nil => rfl
  | cons item items =>
    obtain ⟨first, later⟩ := List.forall_mem_cons.mp each
    have positive : 0 < item.2.length := first.length_pos
    rw [List.map_cons, intercalate_cons, List.flatMap_map] at enough ⊢
    simp only [List.singleton_append, List.length_append] at enough ⊢
    rw [List.append_assoc, (flowItems_entry first (by omega) _ _).1,
      flowItems_rest ps later _ _ (by omega)]
    simp

theorem flowEntries_rest {entries : List (Value × Value × List Token)}
    (each : ∀ entry ∈ entries, Reads handles false .brackets entry.2.1 entry.2.2)
    (before : List (Tree (List Char) × Tree (List Char))) (rest : List Token) {fuel : Nat}
    (enough : (entries.flatMap fun entry =>
      Token.flowEntry :: .key :: .scalar (entry.1.scalarText true) :: .value ::
        entry.2.2).length < fuel) :
    flowEntries handles fuel ps false before ((entries.flatMap fun entry =>
        Token.flowEntry :: .key :: .scalar (entry.1.scalarText true) :: .value :: entry.2.2) ++
          .flowMappingEnd :: rest) =
      some (mapping ps (before.reverse ++ entries.map fun entry =>
        (scalar Value.bare (entry.1.scalarText true), entry.2.1.tree .brackets Value.bare)),
        rest) := by
  obtain ⟨fuel, rfl⟩ := Nat.exists_eq_succ_of_ne_zero (Nat.ne_zero_of_lt enough)
  induction entries generalizing before fuel with
  | nil => simp [flowEntries]
  | cons entry entries ih =>
    obtain ⟨first, later⟩ := List.forall_mem_cons.mp each
    simp only [List.flatMap_cons, List.length_append, List.length_cons] at enough
    obtain ⟨fuel, rfl⟩ := Nat.exists_eq_succ_of_ne_zero (by omega : fuel ≠ 0)
    simp only [List.flatMap_cons, List.cons_append, List.append_assoc]
    rw [(flowEntries_entry first (by omega) _ _ _).2, ih later _ _ (by omega)]
    simp

theorem flowEntries_all {entries : List (Value × Value × List Token)}
    (each : ∀ entry ∈ entries, Reads handles false .brackets entry.2.1 entry.2.2)
    (rest : List Token) {fuel : Nat}
    (enough : ([Token.flowEntry].intercalate (entries.map fun entry =>
      .key :: .scalar (entry.1.scalarText true) :: .value :: entry.2.2)).length < fuel) :
    flowEntries handles fuel ps true [] ([Token.flowEntry].intercalate (entries.map fun entry =>
        .key :: .scalar (entry.1.scalarText true) :: .value :: entry.2.2) ++
          .flowMappingEnd :: rest) =
      some (mapping ps (entries.map fun entry =>
        (scalar Value.bare (entry.1.scalarText true), entry.2.1.tree .brackets Value.bare)),
        rest) := by
  obtain ⟨fuel, rfl⟩ := Nat.exists_eq_succ_of_ne_zero (Nat.ne_zero_of_lt enough)
  cases entries with
  | nil => rfl
  | cons entry entries =>
    obtain ⟨first, later⟩ := List.forall_mem_cons.mp each
    rw [List.map_cons, intercalate_cons, List.flatMap_map] at enough ⊢
    simp only [List.singleton_append, List.length_append, List.length_cons] at enough ⊢
    obtain ⟨fuel, rfl⟩ := Nat.exists_eq_succ_of_ne_zero (by omega : fuel ≠ 0)
    simp only [List.cons_append, List.append_assoc]
    rw [(flowEntries_entry first (by omega) _ _ _).1,
      flowEntries_rest ps later _ _ (by omega)]
    simp

theorem blockItems_all {items : List (Value × List Token)}
    (each : ∀ item ∈ items, Reads handles true .lines item.1 item.2)
    (before : List (Tree (List Char))) (rest : List Token) {fuel : Nat}
    (enough : (items.flatMap fun item => Token.blockEntry :: item.2).length < fuel) :
    blockItems handles fuel ps before
        ((items.flatMap fun item => Token.blockEntry :: item.2) ++ .blockEnd :: rest) =
      some (sequence ps
        (before.reverse ++ items.map fun item => item.1.tree .lines Value.bare), rest) := by
  obtain ⟨fuel, rfl⟩ := Nat.exists_eq_succ_of_ne_zero (Nat.ne_zero_of_lt enough)
  induction items generalizing before fuel with
  | nil => simp [blockItems]
  | cons item items ih =>
    obtain ⟨first, later⟩ := List.forall_mem_cons.mp each
    simp only [List.flatMap_cons, List.length_append, List.length_cons] at enough
    obtain ⟨fuel, rfl⟩ := Nat.exists_eq_succ_of_ne_zero (by omega : fuel ≠ 0)
    rw [List.flatMap_cons, List.cons_append, List.cons_append, List.append_assoc,
      blockItems_entry first (by omega) _ _, ih later _ _ (by omega)]
    simp

theorem blockEntries_all {entries : List (Value × Value × List Token)}
    (each : ∀ entry ∈ entries, Reads handles true .lines entry.2.1 entry.2.2)
    (before : List (Tree (List Char) × Tree (List Char))) (rest : List Token) {fuel : Nat}
    (enough : (entries.flatMap fun entry =>
      Token.key :: .scalar (entry.1.scalarText false) :: .value :: entry.2.2).length < fuel) :
    blockEntries handles fuel ps before ((entries.flatMap fun entry =>
        Token.key :: .scalar (entry.1.scalarText false) :: .value :: entry.2.2) ++
          .blockEnd :: rest) =
      some (mapping ps (before.reverse ++ entries.map fun entry =>
        (scalar Value.bare (entry.1.scalarText false), entry.2.1.tree .lines Value.bare)),
        rest) := by
  obtain ⟨fuel, rfl⟩ := Nat.exists_eq_succ_of_ne_zero (Nat.ne_zero_of_lt enough)
  induction entries generalizing before fuel with
  | nil => simp [blockEntries]
  | cons entry entries ih =>
    obtain ⟨first, later⟩ := List.forall_mem_cons.mp each
    simp only [List.flatMap_cons, List.length_append, List.length_cons] at enough
    obtain ⟨fuel, rfl⟩ := Nat.exists_eq_succ_of_ne_zero (by omega : fuel ≠ 0)
    simp only [List.flatMap_cons, List.cons_append, List.append_assoc]
    rw [blockEntries_entry first (by omega) _ _ _, ih later _ _ (by omega)]
    simp

end

theorem spellTag_default (tag : String) :
    spellTag defaultHandles ⟨['!'], tag.toList.map some⟩ =
      some (some '!' :: tag.toList.map some) := rfl

/-- Tokens that spell a value without a tag are read as its tree below any properties. -/
def ReadsAfter (handles : Handles) (block : Bool) (mode : Mode) (v : Value) (tokens : List Token) :
    Prop :=
  ∀ ps fuel unindented rest, tokens.length ≤ fuel + 1 →
    nodeAfter handles fuel block unindented ps (tokens ++ rest) = some (v.tree mode ps, rest)

/-- What is read after properties is read without them. -/
theorem ReadsAfter.reads {block : Bool} {mode : Mode} {v : Value} {t : Token} {tokens : List Token}
    (h : ReadsAfter handles block mode v (t :: tokens)) (starts : t.starts = true)
    (untagged : ∀ text, t ≠ .tag text) : Reads handles block mode v (t :: tokens) := by
  refine ⟨⟨t, tokens, rfl, starts⟩, fun fuel unindented rest enough => ?_⟩
  obtain ⟨fuel, rfl⟩ := Nat.exists_eq_succ_of_ne_zero (Nat.ne_zero_of_lt enough)
  rw [List.cons_append, Nat.succ_eq_add_one, node_eq fuel block unindented _ starts untagged]
  exact h Value.bare fuel unindented rest enough

/-- What stands between the first and the last token of a collection is shorter than the fuel. -/
theorem length_lt_of_enclosed {start close : Token} {tokens : List Token} {fuel : Nat}
    (enough : (start :: tokens ++ [close]).length ≤ fuel + 1) : tokens.length < fuel := by
  simp only [List.cons_append, List.length_cons, List.length_append, List.length_nil] at enough
  exact Nat.le_of_succ_le_succ enough

namespace ReadsAfter

variable {block : Bool} {mode : Mode}

theorem flowSequence {items : List (Value × List Token)}
    (inline : mode.items (items.map Prod.fst) = .brackets)
    (each : ∀ item ∈ items, Reads handles false .brackets item.1 item.2) :
    ReadsAfter handles block mode (.sequence (items.map Prod.fst))
      (.flowSequence :: [Token.flowEntry].intercalate (items.map Prod.snd)
        ++ [.flowSequenceEnd]) := by
  intro ps fuel unindented rest enough
  have read := flowItems_all ps each rest (length_lt_of_enclosed enough)
  rw [Value.tree, inline, Value.trees_eq, List.map_map, List.cons_append, List.cons_append,
    List.append_assoc]
  exact read

theorem flowMapping {entries : List (Value × Value × List Token)}
    (inline : mode.entries (entries.map fun entry => (entry.1, entry.2.1)) = .brackets)
    (each : ∀ entry ∈ entries, Reads handles false .brackets entry.2.1 entry.2.2) :
    ReadsAfter handles block mode (.mapping (entries.map fun entry => (entry.1, entry.2.1)))
      (.flowMapping :: [Token.flowEntry].intercalate (entries.map fun entry =>
        .key :: .scalar (entry.1.scalarText true) :: .value :: entry.2.2) ++
          [.flowMappingEnd]) := by
  intro ps fuel unindented rest enough
  have read := flowEntries_all ps each rest (length_lt_of_enclosed enough)
  rw [Value.tree, inline, Value.treeEntries_eq, List.map_map, List.cons_append, List.cons_append,
    List.append_assoc]
  exact read

theorem blockSequence {items : List (Value × List Token)}
    (deep : (items.map Prod.fst).all Value.isLeaf = false)
    (each : ∀ item ∈ items, Reads handles true .lines item.1 item.2) :
    ReadsAfter handles true .lines (.sequence (items.map Prod.fst))
      (.blockSequence :: (items.flatMap fun item => .blockEntry :: item.2) ++ [.blockEnd]) := by
  intro ps fuel unindented rest enough
  have read := blockItems_all ps each [] rest (length_lt_of_enclosed enough)
  rw [Value.tree, Mode.items_lines deep, Value.trees_eq, List.map_map, List.cons_append,
    List.cons_append, List.append_assoc]
  exact read

theorem blockMapping {entries : List (Value × Value × List Token)}
    (filled : entries.map (fun entry => (entry.1, entry.2.1)) ≠ [])
    (each : ∀ entry ∈ entries, Reads handles true .lines entry.2.1 entry.2.2) :
    ReadsAfter handles true .lines (.mapping (entries.map fun entry => (entry.1, entry.2.1)))
      (.blockMapping :: (entries.flatMap fun entry =>
        .key :: .scalar (entry.1.scalarText false) :: .value :: entry.2.2) ++ [.blockEnd]) := by
  intro ps fuel unindented rest enough
  have read := blockEntries_all ps each [] rest (length_lt_of_enclosed enough)
  rw [Value.tree, Mode.entries_lines filled, Value.treeEntries_eq, List.map_map, List.cons_append,
    List.cons_append, List.append_assoc]
  exact read

end ReadsAfter

/-- Tokens that spell a value are read as its tree, and after properties if they start with no tag.
The induction is on how the value is spelled; block collections are read where they are allowed. -/
theorem reads_of_spelled {mode : Mode} {allowed : Bool} {v : Value} {tokens : List Token}
    (h : Spelled mode v tokens) (allow : mode = .lines → allowed = true) :
    Reads defaultHandles allowed mode v tokens ∧
      (v.isTagged = false → ReadsAfter defaultHandles allowed mode v tokens) := by
  induction h generalizing allowed with
  | @scalar mode v scalar =>
    have after : ReadsAfter defaultHandles allowed mode v [.scalar (v.scalarText true)] :=
      fun ps fuel unindented rest _ => by rw [Value.tree_of_isScalar mode scalar]; rfl
    exact ⟨after.reads rfl nofun, fun _ => after⟩
  | @flowSequence mode items inline each ih =>
    have after : ReadsAfter defaultHandles allowed mode _ _ :=
      .flowSequence inline fun item mem => (ih item mem nofun).1
    exact ⟨after.reads rfl nofun, fun _ => after⟩
  | @flowMapping mode entries inline each ih =>
    have after : ReadsAfter defaultHandles allowed mode _ _ :=
      .flowMapping inline fun entry mem => (ih entry mem nofun).1
    exact ⟨after.reads rfl nofun, fun _ => after⟩
  | @blockSequence items deep each ih =>
    obtain rfl := allow rfl
    have after := ReadsAfter.blockSequence deep fun item mem => (ih item mem fun _ => rfl).1
    exact ⟨after.reads rfl nofun, fun _ => after⟩
  | @blockMapping entries filled each ih =>
    obtain rfl := allow rfl
    have after := ReadsAfter.blockMapping filled fun entry mem => (ih entry mem fun _ => rfl).1
    exact ⟨after.reads rfl nofun, fun _ => after⟩
  | @tagged mode tag v tokens untagged inner ih =>
    obtain ⟨t, more, rfl, starts⟩ := inner.head
    refine ⟨⟨⟨_, _, rfl, rfl⟩, fun fuel unindented rest enough => ?_⟩, nofun⟩
    obtain ⟨fuel, rfl⟩ := Nat.exists_eq_succ_of_ne_zero (Nat.ne_zero_of_lt enough)
    rw [List.cons_append, List.cons_append, Nat.succ_eq_add_one,
      node_tag fuel allowed unindented _ _ starts, spellTag_default, Option.bind_some]
    exact (ih (allow ∘ Mode.eq_lines_of_below)).2 untagged _ fuel unindented rest
      ((Nat.le_of_succ_le_succ enough).trans (Nat.le_succ _))

/-- The tokens of a document with one value are read as its tree. -/
theorem ofTokens?_of_spelled {mode : Mode} {v : Value} {tokens : List Token}
    (h : Spelled mode v tokens) : ofTokens? tokens = some (some (v.tree mode Value.bare)) := by
  have read := (reads_of_spelled h fun _ => rfl).1.read (2 * tokens.length + 1) false []
    (by omega)
  rw [List.append_nil] at read
  obtain ⟨t, rest, rfl, starts⟩ := h.head
  have content : (isDocumentToken t && decide (t ≠ .documentEnd)) = false := by
    cases t <;> first | rfl | cases starts
  simp only [ofTokens?, content, root, read]
  rfl

variable (anchors : Anchors)

mutual

/-- A tree without names is linked to itself. -/
theorem link_tree (mode : Mode) (v : Value) (ps : Properties) (unnamed : ps.anchor = none) :
    (v.tree mode ps : Tree (List Char)).link.run anchors = some (v.tree mode ps, anchors) := by
  match v with
  | .sequence items =>
    have linked := linkItems_trees (mode.items items) items
    simp [Value.tree, link, anchored, unnamed, linked]
  | .mapping entries =>
    have linked := linkEntries_trees (mode.entries entries) entries
    simp [Value.tree, link, anchored, unnamed, linked]
  | .tagged tag v => exact link_tree (mode.below tag) v _ rfl
  | .null | .bool _ | .int _ | .float _ | .text _ => simp [Value.tree, link, anchored, unnamed]

theorem linkItems_trees (mode : Mode) (vs : List Value) :
    (linkItems (Value.trees mode vs)).run anchors = some (Value.trees mode vs, anchors) := by
  match vs with
  | [] => rfl
  | v :: vs =>
    have first := link_tree mode v Value.bare rfl
    have rest := linkItems_trees mode vs
    simp [Value.trees, linkItems, first, rest]

theorem linkEntries_trees (mode : Mode) (entries : List (Value × Value)) :
    (linkEntries (Value.treeEntries mode entries)).run anchors =
      some (Value.treeEntries mode entries, anchors) := by
  match entries with
  | [] => rfl
  | e :: es =>
    have first := linkEntry_trees mode e
    have rest := linkEntries_trees mode es
    simp [Value.treeEntries, linkEntries, first, rest]

theorem linkEntry_trees (mode : Mode) (entry : Value × Value) :
    (linkEntry (Value.treeEntry mode entry)).run anchors =
      some (Value.treeEntry mode entry, anchors) := by
  match entry with
  | (key, v) =>
    have unnamed : Value.bare.anchor = none := rfl
    have second := link_tree mode v Value.bare unnamed
    simp [Value.treeEntry, linkEntry, link, anchored, unnamed, second]

end

theorem applicationTag?_of_isTagName {tag : String} (name : Value.IsTagName tag) :
    applicationTag? (some (some '!' :: tag.toList.map some)) = some tag := by
  obtain ⟨filled, all⟩ := name
  obtain ⟨c, rest, split⟩ := List.exists_cons_of_ne_nil filled
  have mark : c ≠ '!' := by
    rintro rfl
    simpa using all '!' (split ▸ List.mem_cons_self)
  have dropped : dropMark (some '!' :: tag.toList.map some) = tag.toList.map some := by
    rw [split]
    rfl
  have kept : dropMark (tag.toList.map some) = tag.toList.map some := by
    rw [split, List.map_cons]
    unfold dropMark
    split <;> simp_all
  have spelled : (tag.toList.map some).mapM (id : Option Char → Option Char) =
      some tag.toList := by
    induction tag.toList with
    | nil => rfl
    | cons d ds ih => simp [ih]
  rw [applicationTag?, dropped, kept, spelled, Option.map_some, String.ofList_toList]

/-- A tag of an application, or none. -/
def IsApplied (tag : Option TagChars) : Prop :=
  tag = none ∨ ∃ name, Value.IsTagName name ∧ tag = some (some '!' :: name.toList.map some)

theorem scalarValue?_tree {spot : Spot} {v : Value} (legible : v.LegibleAt spot)
    {tag : Option TagChars} (applied : IsApplied tag) :
    scalarValue? tag (v.scalarText spot.isShared) = some (collectionValue tag v) := by
  obtain rfl | ⟨name, valid, rfl⟩ := applied
  · simpa only [scalarValue?, collectionValue, applicationTag?] using legible.read
  · simp only [scalarValue?, collectionValue, applicationTag?_of_isTagName valid, legible.read,
      Option.map_some]

/-- The trees of a list have the values of the list. -/
theorem mapM_value {mode : Mode} {f : Tree Nat → Expansion Value} {vs : List Value} {left : Nat}
    (each : ∀ v ∈ vs, (f (v.tree mode Value.bare)).run left = some (v, left)) :
    ((vs.map (Value.tree mode Value.bare)).mapM f).run left = some (vs, left) := by
  induction vs with
  | nil => rfl
  | cons v vs ih =>
    obtain ⟨first, rest⟩ := List.forall_mem_cons.mp each
    rw [List.map_cons, List.mapM_cons, StateT.run_bind, first]
    simp only [Option.bind_eq_bind, Option.bind_some, StateT.run_bind, ih rest]
    rfl

theorem entryValues_eq {f : Tree Nat → Expansion Value} (key value : Value → Tree Nat)
    {entries : List (Value × Value)} {left : Nat} (before : List (Value × Value))
    (keys : ∀ e ∈ entries, (f (key e.1)).run left = some (e.1, left))
    (values : ∀ e ∈ entries, (f (value e.2)).run left = some (e.2, left))
    (distinct : (before.reverse ++ entries).Pairwise fun e f => e.1.same f.1 = false) :
    (entryValues f before (entries.map fun e => (key e.1, value e.2))).run left =
      some (before.reverse ++ entries, left) := by
  induction entries generalizing before with
  | nil => simp [entryValues]
  | cons e es ih =>
    obtain ⟨first, otherKeys⟩ := List.forall_mem_cons.mp keys
    obtain ⟨second, otherValues⟩ := List.forall_mem_cons.mp values
    have fresh : (before.any fun b => b.1.same e.1) = false := by
      rw [List.any_eq_false]
      intro b mem
      have := (List.pairwise_append.mp distinct).2.2 b (List.mem_reverse.mpr mem) e
        List.mem_cons_self
      simp [this]
    have rest := ih (e :: before) otherKeys otherValues (by simpa using distinct)
    simp [entryValues, first, fresh, second, rest]

/-- The tree of a legible value has that value, below a tag too, if it is not nested more deeply
than the reader goes. -/
theorem value_tree {mode : Mode} {v : Value} (legible : v.LegibleIn mode) {depth : Nat}
    (shallow : v.nesting ≤ depth) (left : Nat) :
    (value anchors depth (v.tree mode Value.bare)).run left = some (v, left) ∧
      (v.isTagged = false → ∀ ps : Properties, IsApplied ps.tag →
        (value anchors depth (v.tree mode ps)).run left =
          some (collectionValue ps.tag v, left)) := by
  have bare : IsApplied Value.bare.tag := .inl rfl
  induction legible generalizing depth with
  | @scalar mode v legible =>
    have valued : ∀ ps : Properties, IsApplied ps.tag →
        (value anchors depth (v.tree mode ps)).run left =
          some (collectionValue ps.tag v, left) := by
      intro ps applied
      have read := scalarValue?_tree legible applied
      rw [Mode.isShared_value] at read
      rw [Value.tree_of_isScalar mode legible.isScalar, value]
      simp [follow, read]
    exact ⟨valued _ bare, fun _ => valued⟩
  | @sequence mode items each ih =>
    obtain ⟨depth, rfl⟩ := Nat.exists_eq_succ_of_ne_zero (Nat.ne_zero_of_lt shallow)
    have inner := Nat.le_of_succ_le_succ shallow
    have mapped := mapM_value fun v mem =>
      (ih v mem ((Value.nesting_le_of_mem mem).trans inner)).1
    have valued : ∀ ps : Properties, IsApplied ps.tag →
        (value anchors (depth + 1) ((Value.sequence items).tree mode ps)).run left =
          some (collectionValue ps.tag (.sequence items), left) := by
      intro ps applied
      rw [Value.tree, Value.trees_eq, value]
      simp [follow, mapped, -List.mapM_map]
    exact ⟨valued _ bare, fun _ => valued⟩
  | @mapping mode entries keys distinct values ih =>
    obtain ⟨depth, rfl⟩ := Nat.exists_eq_succ_of_ne_zero (Nat.ne_zero_of_lt shallow)
    have inner := Nat.le_of_succ_le_succ shallow
    have keyed : ∀ e ∈ entries, (value anchors depth (.scalar Value.bare
        (e.1.scalarText (mode.entries entries).key.isShared))).run left = some (e.1, left) := by
      intro e mem
      rw [value]
      simp [follow, scalarValue?_tree (keys e mem) bare]
      rfl
    have entered := entryValues_eq (fun key => .scalar Value.bare (key.scalarText _))
      (Value.tree _ Value.bare) [] keyed
      (fun e mem => (ih e mem ((Value.nesting_le_of_mem_entries mem).2.trans inner)).1) distinct
    have valued : ∀ ps : Properties, IsApplied ps.tag →
        (value anchors (depth + 1) ((Value.mapping entries).tree mode ps)).run left =
          some (collectionValue ps.tag (.mapping entries), left) := by
      intro ps applied
      rw [Value.tree, Value.treeEntries_eq, value]
      simp [follow, entered]
    exact ⟨valued _ bare, fun _ => valued⟩
  | @tagged mode tag name v untagged inner ih =>
    refine ⟨?_, nofun⟩
    have valued := (ih shallow).2 untagged ⟨none, some (some '!' :: tag.toList.map some)⟩
      (.inr ⟨tag, name, rfl⟩)
    rw [collectionValue, applicationTag?_of_isTagName name] at valued
    exact valued

/-- A legible value is the value of its own tree. -/
theorem documentValue?_tree {mode : Mode} {v : Value} (legible : v.LegibleIn mode)
    (shallow : v.nesting ≤ depthLimit) : (v.tree mode Value.bare).documentValue? = some v := by
  have linked := link_tree .empty mode v Value.bare rfl
  have valued := fun left => (value_tree .empty legible shallow left).1
  simp [documentValue?, linked, valued]

end Tree

/-- A text whose tokens spell a legible value stands for that value. -/
theorem Value.ofChars?_of_spelled {mode : Mode} {cs : List Char} {tokens : List Token} {v : Value}
    (scanned : Token.ofChars? cs = some tokens) (spelled : Spelled mode v tokens)
    (legible : v.LegibleIn mode) (shallow : v.nesting ≤ Tree.depthLimit) :
    ofChars? cs = some v := by
  rw [ofChars?, scanned]
  simp [Tree.ofTokens?_of_spelled spelled, Tree.documentValue?_tree legible shallow]

end ArenaVariations.Yaml
