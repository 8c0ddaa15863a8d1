import ArenaVariations.Proofs.Expansion.Origin
import ArenaVariations.Proofs.Template.Readable
import ArenaVariations.Proofs.Yaml.Token.Block

/-!
# Blocks behind a dash

The lines of a list or a mapping that stands in a list begin on the line of its dash. They are
written with their own indentation first; then as many bytes as the indentation has are cut off,
and the dash is put in their place. That is safe only if the lines are long enough and begin with
nothing but spaces. `Layout.writeBody?` cuts bytes, and fails where there is nothing to cut;
`Layout.renderBody` drops characters, and never fails. They agree on every layout without empty
blocks, `Layout.Filled.writeBody?_eq`, and no layout of a tree has empty blocks,
`Node.Addressed.fillsBlocks`. What this means for each dash is `Node.dash_replaces_margin`.
-/

namespace ArenaVariations

/-- The characters of a text behind so many bytes. There are none to give if the text has fewer
bytes, or if the cut goes through a character. -/
def dropBytes? : Nat → List Char → Option (List Char)
  | 0, cs => some cs
  | _ + 1, [] => none
  | n + 1, c :: cs => if c.utf8Size ≤ n + 1 then dropBytes? (n + 1 - c.utf8Size) cs else none

theorem dropBytes?_utf8Size_add (n : Nat) (c : Char) (cs : List Char) :
    dropBytes? (c.utf8Size + n) (c :: cs) = dropBytes? n cs := by
  have some_byte := c.utf8Size_pos
  obtain ⟨m, bytes⟩ : ∃ m, c.utf8Size + n = m + 1 := Nat.exists_eq_add_one.mpr (by omega)
  have after : m + 1 - c.utf8Size = n := by omega
  rw [bytes, dropBytes?, if_pos (by omega), after]

/-- What is left is the end of the text, and as many bytes as were to be dropped stand before it. -/
theorem dropBytes?_eq_some_iff {n : Nat} {cs rest : List Char} :
    dropBytes? n cs = some rest ↔
      ∃ front, cs = front ++ rest ∧ (front.map Char.utf8Size).sum = n := by
  constructor
  · fun_induction dropBytes? n cs with
    | case1 cs =>
      rintro ⟨⟩
      exact ⟨[], rfl, rfl⟩
    | case2 => nofun
    | case3 n c cs fits ih =>
      intro dropped
      obtain ⟨front, rfl, bytes⟩ := ih dropped
      refine ⟨c :: front, rfl, ?_⟩
      rw [List.map_cons, List.sum_cons, bytes]
      omega
    | case4 => nofun
  · rintro ⟨front, rfl, rfl⟩
    induction front with
    | nil => rw [List.map_nil, List.sum_nil, dropBytes?, List.nil_append]
    | cons c front ih =>
      rw [List.map_cons, List.sum_cons, List.cons_append, dropBytes?_utf8Size_add, ih]

namespace Layout

/-- An indentation is cut off with its bytes. -/
theorem dropBytes?_margin (indent : Nat) (rest : List Char) :
    dropBytes? indent (margin indent ++ rest) = some rest := by
  refine dropBytes?_eq_some_iff.mpr ⟨margin indent, rfl, ?_⟩
  rw [margin, List.map_replicate, List.sum_replicate, smul_eq_mul]
  exact Nat.mul_one indent

/-- An indentation has a byte for each of its spaces. -/
theorem bytes_margin (indent : Nat) :
    (margin indent).flatMap String.utf8EncodeChar = List.replicate indent 32 := by
  induction indent with
  | zero => rfl
  | succ indent ih =>
    rw [List.replicate_succ, ← ih]
    rfl

/-- The layouts directly below a layout: its items, or the values of its entries. -/
def parts : Layout → List Layout
  | line _ => []
  | items _ layouts => layouts
  | entries _ fields => fields.map Prod.snd

/-- A layout stands somewhere in another one, which is a part of itself. -/
inductive PartOf : Layout → Layout → Prop where
  | whole (l : Layout) : PartOf l l
  | inside {part below l : Layout} (mem : below ∈ l.parts) (partOf : PartOf part below) :
      PartOf part l

/-- What holds of a layout if it holds of all layouts directly below it holds of every layout. -/
@[elab_as_elim]
theorem parts_induction {motive : Layout → Prop}
    (step : ∀ l : Layout, (∀ part ∈ l.parts, motive part) → motive l) (l : Layout) : motive l := by
  induction l using (measure (sizeOf : Layout → Nat)).wf.induction with
  | h l ih =>
    refine step l fun part mem => ih part ?_
    cases l with
    | line => cases mem
    | items tag layouts =>
      have smaller := List.sizeOf_lt_of_mem (show part ∈ layouts from mem)
      show sizeOf part < sizeOf (items tag layouts)
      simp only [items.sizeOf_spec]
      omega
    | entries tag fields =>
      obtain ⟨⟨key, l⟩, among, rfl⟩ := List.mem_map.mp mem
      have smaller := List.sizeOf_lt_of_mem among
      show sizeOf l < sizeOf (entries tag fields)
      simp only [entries.sizeOf_spec, Prod.mk.sizeOf_spec] at *
      omega

/-- No block in a layout is empty. Below a tag there may be nothing. -/
def Filled (l : Layout) : Prop :=
  ∀ part : Layout, part.PartOf l → part.isBlock = true → part.parts ≠ []

theorem Filled.root {l : Layout} (h : l.Filled) (block : l.isBlock = true) : l.parts ≠ [] :=
  h l (.whole l) block

theorem Filled.below {l part : Layout} (h : l.Filled) (mem : part ∈ l.parts) : part.Filled :=
  fun inner partOf => h inner (.inside mem partOf)

theorem Filled.part {l part : Layout} (h : l.Filled) (partOf : part.PartOf l) : part.Filled := by
  induction partOf with
  | whole => exact h
  | inside mem _ ih => exact ih (h.below mem)

theorem filled_of_parts {l : Layout} (root : l.isBlock = true → l.parts ≠ [])
    (below : ∀ part ∈ l.parts, part.Filled) : l.Filled := by
  intro part partOf
  cases partOf with
  | whole => exact root
  | inside mem partOf => exact below _ mem part partOf

theorem filled_line (text : String) : (line text).Filled :=
  filled_of_parts (fun block => absurd block Bool.false_ne_true) nofun

theorem filled_items {ls : List Layout} (some_item : ls ≠ []) (each : ∀ l ∈ ls, l.Filled) :
    (items none ls).Filled :=
  filled_of_parts (fun _ => some_item) each

theorem filled_tagged_items {tag : String} {ls : List Layout} (each : ∀ l ∈ ls, l.Filled) :
    (items (some tag) ls).Filled :=
  filled_of_parts (fun block => absurd block Bool.false_ne_true) each

theorem filled_entries {fields : List (String × Layout)} (some_entry : fields ≠ [])
    (each : ∀ field ∈ fields, field.2.Filled) : (entries none fields).Filled :=
  filled_of_parts (fun _ empty => some_entry (List.map_eq_nil_iff.mp empty))
    (List.forall_mem_map.mpr each)

theorem filled_tagged_entries {tag : String} {fields : List (String × Layout)}
    (each : ∀ field ∈ fields, field.2.Filled) : (entries (some tag) fields).Filled :=
  filled_of_parts (fun block => absurd block Bool.false_ne_true) (List.forall_mem_map.mpr each)

theorem renderItems_singleton (indent : Nat) (l : Layout) :
    renderItems indent [l] = margin indent ++ '-' :: ' ' :: l.renderAfter (indent + 2) := by
  rw [renderItems_eq, List.flatMap_singleton]

theorem margin_prefix_renderItems (indent : Nat) (l : Layout) (ls : List Layout) :
    margin indent <+: renderItems indent (l :: ls) := by
  rw [renderItems_eq, List.flatMap_cons, List.append_assoc]
  exact List.prefix_append _ _

theorem margin_prefix_renderEntry (indent : Nat) (key : String) (l : Layout) :
    margin indent <+: renderEntry indent (key, l) := by
  obtain ⟨rest, entry⟩ := renderEntry_head indent key l
  rw [entry, List.append_assoc]
  exact List.prefix_append _ _

/-- The lines of a block that is not empty begin with the indentation of its first part. -/
theorem margin_prefix_renderBody {l : Layout} (block : l.isBlock = true) (filled : l.parts ≠ [])
    (indent : Nat) : margin indent <+: renderBody indent l := by
  cases l with
  | line => cases block
  | items tag layouts =>
    cases layouts with
    | nil => exact absurd rfl filled
    | cons l ls =>
      rw [renderBody]
      exact margin_prefix_renderItems indent l ls
  | entries tag fields =>
    cases fields with
    | nil => exact absurd rfl filled
    | cons field fields =>
      rw [renderBody, renderEntries]
      exact (margin_prefix_renderEntry indent field.1 field.2).trans (List.prefix_append _ _)

theorem renderBody_eq {l : Layout} (block : l.isBlock = true) (filled : l.parts ≠ [])
    (indent : Nat) : renderBody indent l = margin indent ++ l.renderAfter indent := by
  obtain ⟨rest, body⟩ := margin_prefix_renderBody block filled indent
  rw [renderAfter_of_body block body.symm, body]

/-- A block takes the place of its first indentation behind a dash: it has parts, its lines begin
with a space in each byte that is cut off, the cut leaves what stands behind the indentation, and
that is written behind the dash. -/
structure FollowsDash (indent : Nat) (l : Layout) : Prop where
  filled : l.parts ≠ []
  blank : List.replicate (indent + 2) 32 <+:
    (renderBody (indent + 2) l).flatMap String.utf8EncodeChar
  kept : renderBody (indent + 2) l = margin (indent + 2) ++ l.renderAfter (indent + 2)
  cut : dropBytes? (indent + 2) (renderBody (indent + 2) l) = some (l.renderAfter (indent + 2))
  item : renderItems indent [l] = margin indent ++ '-' :: ' ' :: l.renderAfter (indent + 2)

theorem followsDash_of_parts {l : Layout} (block : l.isBlock = true) (filled : l.parts ≠ [])
    (indent : Nat) : l.FollowsDash indent := by
  have kept := renderBody_eq block filled (indent + 2)
  refine ⟨filled, ?_, kept, ?_, renderItems_singleton indent l⟩
  · rw [kept, List.flatMap_append, bytes_margin]
    exact List.prefix_append _ _
  · rw [kept]
    exact dropBytes?_margin _ _

/-- What stands behind a dash, made of the lines of the block that stands there. -/
def behindDash? (indent : Nat) (lines : List Char) : Layout → Option (List Char)
  | line text => some (text.toList ++ ['\n'])
  | items (some tag) _ | entries (some tag) _ => some ('!' :: tag.toList ++ '\n' :: lines)
  | items none _ | entries none _ => dropBytes? indent lines

/-- What stands behind the colon of a key. -/
def behindColon (lines : List Char) : Layout → List Char
  | line text => ' ' :: text.toList ++ ['\n']
  | items (some tag) _ | entries (some tag) _ => ' ' :: '!' :: tag.toList ++ '\n' :: lines
  | items none _ | entries none _ => '\n' :: lines

mutual

/-- Write the lines of a block, unless a cut fails. -/
def writeBody? (indent : Nat) : Layout → Option (List Char)
  | line _ => some []
  | items _ layouts => writeItems? indent layouts
  | entries _ fields => writeEntries? indent fields
termination_by structural l => l

/-- Write the items of a list, unless a cut fails. -/
def writeItems? (indent : Nat) : List Layout → Option (List Char)
  | [] => some []
  | l :: ls => do
    let lines ← writeBody? (indent + 2) l
    let text ← l.behindDash? (indent + 2) lines
    return margin indent ++ '-' :: ' ' :: text ++ (← writeItems? indent ls)
termination_by structural ls => ls

/-- Write the entries of a mapping, unless a cut fails. -/
def writeEntries? (indent : Nat) : List (String × Layout) → Option (List Char)
  | [] => some []
  | (key, l) :: es => do
    let lines ← writeBody? (indent + 2) l
    return margin indent ++ key.toList ++ ':' :: l.behindColon lines ++ (← writeEntries? indent es)
termination_by structural es => es

end

theorem Filled.behindDash?_eq {l : Layout} (filled : l.Filled) (indent : Nat) :
    l.behindDash? indent (renderBody indent l) = some (l.renderAfter indent) := by
  cases l with
  | line text => rfl
  | items tag layouts | entries tag fields =>
    cases tag with
    | some tag => rfl
    | none =>
      rw [renderBody_eq rfl (filled.root rfl)]
      exact dropBytes?_margin _ _

theorem renderEntry_eq_behindColon (indent : Nat) (key : String) (l : Layout) :
    renderEntry indent (key, l) =
      margin indent ++ key.toList ++ ':' :: l.behindColon (renderBody (indent + 2) l) := by
  cases l with
  | line => rw [renderEntry]; rfl
  | items tag | entries tag => cases tag <;> (rw [renderEntry]; rfl)

theorem writeItems?_eq {indent : Nat} {ls : List Layout} (filled : ∀ l ∈ ls, l.Filled)
    (each : ∀ l ∈ ls, l.writeBody? (indent + 2) = some (renderBody (indent + 2) l)) :
    writeItems? indent ls = some (renderItems indent ls) := by
  induction ls with
  | nil => rfl
  | cons l ls ih =>
    obtain ⟨here, later⟩ := List.forall_mem_cons.mp filled
    obtain ⟨first, others⟩ := List.forall_mem_cons.mp each
    rw [writeItems?, first, Option.bind_eq_bind, Option.bind_some, here.behindDash?_eq,
      ih later others, renderItems_eq, renderItems_eq, List.flatMap_cons]
    rfl

theorem writeEntries?_eq {indent : Nat} {es : List (String × Layout)}
    (each : ∀ e ∈ es, e.2.writeBody? (indent + 2) = some (renderBody (indent + 2) e.2)) :
    writeEntries? indent es = some (renderEntries indent es) := by
  induction es with
  | nil => rfl
  | cons e es ih =>
    obtain ⟨key, l⟩ := e
    obtain ⟨first, others⟩ := List.forall_mem_cons.mp each
    rw [writeEntries?, first, ih others, renderEntries, renderEntry_eq_behindColon]
    rfl

/-- No cut fails in a layout without empty blocks, and what is written is what dropping characters
gives. -/
theorem Filled.writeBody?_eq {l : Layout} (filled : l.Filled) (indent : Nat) :
    l.writeBody? indent = some (renderBody indent l) := by
  induction l using parts_induction generalizing indent with
  | step l ih =>
    have each := fun part mem => ih part mem (filled.below mem) (indent + 2)
    cases l with
    | line => rfl
    | items tag layouts => exact writeItems?_eq (fun _ mem => filled.below mem) each
    | entries tag fields => exact writeEntries?_eq (List.forall_mem_map.mp each)

end Layout

namespace Node

open Layout

/-- Every layout of the tree is without empty blocks. -/
def FillsBlocks (n : Node) : Prop :=
  ∀ l, ofNode n = .ok l → l.Filled

/-- The trees of a list have one layout each. -/
theorem ofNodes_eq_ok {ns : List Node} {ls : List Layout} :
    ofNodes ns = .ok ls ↔ List.Forall₂ (fun n l => ofNode n = .ok l) ns ls := by
  induction ns generalizing ls with
  | nil => rw [ofNodes, pure_eq_ok, List.forall₂_nil_left_iff, eq_comm]
  | cons n ns ih =>
    simp only [ofNodes, bind_eq_ok, pure_eq_ok, ih, List.forall₂_cons_left_iff]
    constructor
    · rintro ⟨l, first, ls, rest, rfl⟩
      exact ⟨l, ls, first, rest, rfl⟩
    · rintro ⟨l, ls, first, rest, rfl⟩
      exact ⟨l, first, ls, rest, rfl⟩

/-- Joined results are results of the entries. -/
theorem exists_mem_of_pickAll {β : Type} {results : List (String × Writing β)}
    {fields : List (String × β)} (joined : pickAll results = .ok fields) :
    ∀ field ∈ fields, ∃ entry ∈ results, entry.2 = .ok field.2 := by
  induction results generalizing fields with
  | nil =>
    obtain rfl := pure_eq_ok.mp joined
    nofun
  | cons entry rest ih =>
    obtain ⟨name, result⟩ := entry
    simp only [pickAll, bind_eq_ok, pure_eq_ok] at joined
    obtain ⟨value, first, others, later, rfl⟩ := joined
    refine List.forall_mem_cons.mpr ⟨⟨_, List.mem_cons_self, first⟩, fun field mem => ?_⟩
    obtain ⟨entry, among, eq⟩ := ih later field mem
    exact ⟨entry, List.mem_cons_of_mem _ among, eq⟩

theorem filled_of_map_line {text : Writing String} {l : Layout} (laid : text.map line = .ok l) :
    l.Filled := by
  obtain ⟨text, -, rfl⟩ := map_eq_ok.mp laid
  exact filled_line text

theorem filled_of_ofNodes {ns : List Node} {ls : List Layout} (laid : ofNodes ns = .ok ls)
    (each : ∀ n ∈ ns, n.FillsBlocks) : ∀ l ∈ ls, l.Filled := by
  intro l mem
  obtain ⟨n, among, eq⟩ := exists_mem_of_forall₂ (ofNodes_eq_ok.mp laid) l mem
  exact each n among l eq

/-- The items of a block are no leaves, so there are some. -/
theorem filled_items_of_ofNodes {ns : List Node} {ls : List Layout} (laid : ofNodes ns = .ok ls)
    (deep : ¬ ns.all isLeaf = true) (each : ∀ n ∈ ns, n.FillsBlocks) :
    (items none ls).Filled := by
  refine filled_items ?_ (filled_of_ofNodes laid each)
  rintro rfl
  obtain rfl := List.forall₂_nil_right_iff.mp (ofNodes_eq_ok.mp laid)
  exact deep rfl

theorem filled_of_list {ns : List Node} {ls : List Layout} {l : Layout}
    (laid : ofNodes ns = .ok ls) (each : ∀ n ∈ ns, n.FillsBlocks) (listed : list ns ls = .ok l) :
    l.Filled := by
  rw [list] at listed
  split at listed
  case isTrue => exact filled_of_map_line listed
  case isFalse deep =>
    obtain rfl := pure_eq_ok.mp listed
    exact filled_items_of_ofNodes laid deep each

theorem filled_option {α : Type} {name : String} {value : Option α} {lay : α → Layout}
    (each : ∀ a ∈ value, (lay a).Filled) : ∀ field ∈ option name value lay, field.2.Filled :=
  List.forall_mem_map.mpr fun a mem => each a (Option.mem_toList.mp mem)

theorem filled_texts (ss : List String) : (texts ss).Filled :=
  filled_line _

theorem filled_of_ofOption {n? : Option Node} {l? : Option Layout} (laid : ofOption n? = .ok l?)
    (each : ∀ n ∈ n?, n.FillsBlocks) : ∀ l ∈ l?, l.Filled := by
  cases n? with
  | none =>
    obtain rfl := pure_eq_ok.mp laid
    nofun
  | some n =>
    simp only [ofOption, bind_eq_ok, pure_eq_ok] at laid
    obtain ⟨l, eq, rfl⟩ := laid
    rintro _ ⟨⟩
    exact each n rfl l eq

theorem filled_of_ofOptions {options : List (Node × String)} {ls : List Layout}
    (laid : ofOptions options = .ok ls) (each : ∀ o ∈ options, o.1.FillsBlocks) :
    ∀ l ∈ ls, l.Filled := by
  induction options generalizing ls with
  | nil =>
    obtain rfl := pure_eq_ok.mp laid
    nofun
  | cons o os ih =>
    obtain ⟨value, label⟩ := o
    obtain ⟨here, later⟩ := List.forall_mem_cons.mp each
    simp only [ofOptions, ofLabelled, bind_eq_ok, pure_eq_ok] at laid
    obtain ⟨_, ⟨l, eq, rfl⟩, rest, others, rfl⟩ := laid
    refine List.forall_mem_cons.mpr ⟨filled_entries (List.cons_ne_nil _ _) ?_, ih others later⟩
    simp [here l eq, filled_line]

theorem filled_of_ofCondition {c : Condition Node} {fields : List (String × Layout)}
    (laid : ofCondition c = .ok fields) (each : ∀ n ∈ c.cases, n.FillsBlocks) :
    ∀ field ∈ fields, field.2.Filled := by
  obtain ⟨names, multi, cases⟩ := c
  simp only [ofCondition, bind_eq_ok, pure_eq_ok] at laid
  obtain ⟨ls, first, l, listed, rfl⟩ := laid
  simp [filled_of_list first each listed, references, filled_line]

theorem fillsBlocks_sequence {ns : List Node} (each : ∀ n ∈ ns, n.FillsBlocks) :
    (sequence ns).FillsBlocks := by
  intro l laid
  rw [ofNode] at laid
  split at laid
  case isTrue => exact filled_of_map_line laid
  case isFalse deep =>
    simp only [bind_eq_ok, pure_eq_ok] at laid
    obtain ⟨ls, laid, rfl⟩ := laid
    exact filled_items_of_ofNodes laid deep each

theorem fillsBlocks_mapping {keys : List Scalar} {ns : List Node} (fits : keys.length = ns.length)
    (each : ∀ n ∈ ns, n.FillsBlocks) : (container (.mapping keys) ns).FillsBlocks := by
  intro l laid
  rw [ofNode] at laid
  split at laid
  case isTrue => exact filled_of_map_line laid
  case isFalse some_key =>
    simp only [bind_eq_ok, pure_eq_ok] at laid
    obtain ⟨ls, laid, rfl⟩ := laid
    refine filled_entries (fun empty => some_key ?_) fun field mem =>
      filled_of_ofNodes laid each _ (List.of_mem_zip mem).2
    have length : ns.length = ls.length := (ofNodes_eq_ok.mp laid).length_eq
    have none_left := congrArg List.length empty
    simp only [List.length_zip, List.length_map, List.length_nil] at none_left
    exact List.isEmpty_iff_length_eq_zero.mpr (by omega)

theorem fillsBlocks_record {kind : RecordKind} {id : Option String} {names : List String}
    {ns : List Node} (each : ∀ n ∈ ns, n.FillsBlocks) :
    (container (.record kind id names) ns).FillsBlocks := by
  intro l laid
  rw [ofNode] at laid
  split at laid
  case isTrue => exact filled_of_map_line laid
  case isFalse =>
    simp only [bind_eq_ok, pure_eq_ok, eachOfNodes_eq_map] at laid
    obtain ⟨fields, joined, rfl⟩ := laid
    refine filled_tagged_entries fun field mem => ?_
    obtain ⟨entry, picked, eq⟩ := exists_mem_of_pickAll joined field mem
    obtain ⟨n, among, same⟩ := List.mem_map.mp (snd_mem_of_mem_pickOrdered picked)
    exact each n among _ (same.trans eq)

theorem fillsBlocks_choice {options : List Node} (each : ∀ n ∈ options, n.FillsBlocks) :
    (choice options).FillsBlocks := by
  intro l laid
  rw [ofNode] at laid
  split at laid
  case isTrue => exact filled_of_map_line laid
  case isFalse =>
    simp only [bind_eq_ok, pure_eq_ok] at laid
    obtain ⟨ls, laid, rfl⟩ := laid
    exact filled_tagged_items (filled_of_ofNodes laid each)

theorem fillsBlocks_labelledChoice {options : List (Node × String)}
    (each : ∀ o ∈ options, o.1.FillsBlocks) : (labelledChoice options).FillsBlocks := by
  intro l laid
  simp only [ofNode, bind_eq_ok, pure_eq_ok] at laid
  obtain ⟨ls, laid, rfl⟩ := laid
  exact filled_tagged_items (filled_of_ofOptions laid each)

theorem fillsBlocks_scaled {base : Option Node} {scales : List Scalar}
    {labels : Option (List String)} (each : ∀ b ∈ base, b.FillsBlocks) :
    (scaled base scales labels).FillsBlocks := by
  intro l laid
  simp only [ofNode, bind_eq_ok, pure_eq_ok] at laid
  obtain ⟨l?, laid, rfl⟩ := laid
  refine filled_tagged_entries ?_
  simp only [List.forall_mem_append, List.forall_mem_singleton]
  exact ⟨⟨filled_option (filled_of_ofOption laid each), filled_line _⟩,
    filled_option fun ls _ => filled_texts ls⟩

theorem fillsBlocks_conditional {source : Conditional Node}
    (each : ∀ n ∈ (conditional source).children, n.FillsBlocks) :
    (conditional source).FillsBlocks := by
  intro l laid
  obtain ⟨serial, condition, outcomes, fallback, labels, fallbackLabel⟩ := source
  simp only [children, List.forall_mem_append, Option.mem_toList] at each
  obtain ⟨⟨cases, outs⟩, given⟩ := each
  simp only [ofNode, ofConditional, bind_eq_ok, pure_eq_ok] at laid
  obtain ⟨fields, first, ls, second, l?, third, l, listed, rfl⟩ := laid
  refine filled_tagged_entries ?_
  simp only [List.forall_mem_append, List.forall_mem_singleton]
  exact ⟨⟨⟨⟨filled_of_ofCondition first cases, filled_of_list second outs listed⟩,
    filled_option (filled_of_ofOption third given)⟩, filled_option fun ls _ => filled_texts ls⟩,
    filled_option fun _ _ => filled_line _⟩

theorem fillsBlocks_labelRule {rule : LabelRule Node}
    (each : ∀ n ∈ rule.condition.cases, n.FillsBlocks) : (labelRule rule).FillsBlocks := by
  intro l laid
  obtain ⟨condition, labels, fallback⟩ := rule
  simp only [ofNode, ofRule, bind_eq_ok, pure_eq_ok] at laid
  obtain ⟨fields, laid, rfl⟩ := laid
  refine filled_tagged_entries ?_
  simp only [List.forall_mem_append, List.forall_mem_singleton]
  exact ⟨⟨filled_of_ofCondition laid each, filled_texts labels⟩,
    filled_option fun _ _ => filled_line _⟩

/-- Whether a container has an address for each of its children. -/
def FormFits : Node → Prop
  | container form children => form.Fits children.length
  | _ => True

/-- Every container in a tree has an address for each of its children. What the addresses are does
not matter: a record may have fields that its kind does not declare. -/
def Addressed (n : Node) : Prop :=
  ∀ m : Node, m.PartOf n → m.FormFits

/-- Addresses are counted at the root of a tree and below. -/
theorem addressed_iff {n : Node} :
    n.Addressed ↔ n.FormFits ∧ ∀ child ∈ n.children, child.Addressed :=
  ⟨fun h => ⟨h n (.whole n), fun _ mem m part => h m (.inside mem part)⟩,
    fun h => forall_partOf h.1 h.2⟩

/-- A block is laid out only where there is something to put into it: a list with a tree that is no
leaf, or a mapping with a key. -/
theorem Addressed.fillsBlocks {n : Node} (addressed : n.Addressed) : n.FillsBlocks := by
  induction n using children_induction with
  | step n ih =>
    obtain ⟨fits, below⟩ := addressed_iff.mp addressed
    have each := fun child mem => ih child mem (below child mem)
    cases n with
    | scalar | interval | tagged | palette => exact fun _ => filled_of_map_line
    | placeholder serial =>
      intro l laid
      cases laid
    | container form children =>
      cases form with
      | sequence => exact fillsBlocks_sequence each
      | mapping keys => exact fillsBlocks_mapping fits each
      | record => exact fillsBlocks_record each
    | choice => exact fillsBlocks_choice each
    | labelledChoice => exact fillsBlocks_labelledChoice (List.forall_mem_map.mp each)
    | scaled base scales labels =>
      exact fillsBlocks_scaled fun b given =>
        each b (List.mem_append_left _ (Option.mem_toList.mpr given))
    | repetition amount value | restriction amount value =>
      intro l laid
      simp only [ofNode, bind_eq_ok, pure_eq_ok] at laid
      obtain ⟨l, laid, rfl⟩ := laid
      have inner := each value (by simp [children]) l laid
      exact filled_tagged_entries (by simp [filled_line, inner])
    | conditional => exact fillsBlocks_conditional each
    | labelRule => exact fillsBlocks_labelRule each

/-- A tree without placeholders is laid out, and each part of its layout can be written at every
indentation: no cut fails, items and entries begin with their indentation, and a block behind a
dash has lines that begin with the indentation that the dash replaces. -/
theorem dash_replaces_margin {n : Node} (free : n.FreeOf [.placeholder])
    (addressed : n.Addressed) :
    ∃ l, ofNode n = .ok l ∧ ∀ part : Layout, part.PartOf l → ∀ indent,
      part.writeBody? indent = some (renderBody indent part) ∧
      margin indent <+: renderItems indent [part] ∧
      (∀ key, margin indent <+: renderEntry indent (key, part)) ∧
      (part.isBlock = true → part.FollowsDash indent) := by
  obtain ⟨l, laid⟩ := ofNode_ok free
  refine ⟨l, laid, fun part inside indent => ?_⟩
  have filled : part.Filled := (addressed.fillsBlocks l laid : l.Filled).part inside
  exact ⟨filled.writeBody?_eq indent, margin_prefix_renderItems indent part [],
    fun key => margin_prefix_renderEntry indent key part,
    fun block => followsDash_of_parts block (filled.root block) indent⟩

/-- Lists in lists with a mapping inside, a record with a field that its kind does not declare, and
a tag with options. -/
def stacked : Node :=
  sequence [
    sequence [
      sequence [mapping [(.text "a", int 1), (.text "b", sequence [text "c", sequence []])]],
      text "d"],
    record .item none [("weight", int 1)],
    labelledChoice [(int 1, "one")]]

/-- How its lists in lists are laid out. -/
def stackedLists : Layout :=
  items none [
    items none [entries none [("a", line "1"), ("b", items none [line "c", line "[]"])]],
    line "d"]

theorem dash_replaces_margin_stacked :
    stacked.FreeOf [.placeholder] ∧ stacked.Addressed ∧
      stacked.toYaml = .ok ("- - - a: 1\n      b:\n        - c\n        - []\n  - d\n" ++
        "- !Item\n- !ProcListLabelled\n  - value: 1\n    label: one\n") ∧
      ∃ l, ofNode stacked = .ok l ∧ stackedLists.PartOf l ∧ stackedLists.FollowsDash 0 := by
  have free : stacked.FreeOf [.placeholder] := by
    simp [stacked, mapping, record, text, int, freeOf_iff (n := .container _ _),
      freeOf_iff (n := .labelledChoice _), freeOf_iff (n := .scalar _), children, rule]
  have addressed : stacked.Addressed := by
    simp [stacked, mapping, record, text, int, addressed_iff (n := .container _ _),
      addressed_iff (n := .labelledChoice _), addressed_iff (n := .scalar _), children, FormFits,
      Form.Fits]
  have first : ∃ others, ofNode stacked = .ok (items none (stackedLists :: others)) := ⟨_, by rfl⟩
  obtain ⟨others, first⟩ := first
  obtain ⟨l, laid, each⟩ := dash_replaces_margin free addressed
  obtain rfl := Except.ok.inj (first.symm.trans laid)
  have inside : stackedLists.PartOf (items none (stackedLists :: others)) :=
    .inside List.mem_cons_self (.whole _)
  exact ⟨free, addressed, by rfl, _, laid, inside, (each _ inside 0).2.2.2 rfl⟩

end Node

end ArenaVariations
