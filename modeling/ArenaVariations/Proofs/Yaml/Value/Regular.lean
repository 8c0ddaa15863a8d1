import ArenaVariations.Yaml.Value.OfTree
import Mathlib.Data.List.Basic

/-!
# Keys of mappings

The mappings of a value that a text stands for have pairwise different keys, at every depth:
`Value.Regular`. The composer sees to it when it goes through the entries of a mapping, so this
holds whatever aliases the text uses.
-/

namespace ArenaVariations.Yaml

namespace Value

/-- Values all of whose mappings have pairwise different keys. -/
inductive Regular : Value → Prop where
  | null : Regular .null
  | bool (b : Bool) : Regular (.bool b)
  | int (i : Int) : Regular (.int i)
  | float (x : Float) : Regular (.float x)
  | text (s : String) : Regular (.text s)
  | sequence {items : List Value} (each : ∀ v ∈ items, Regular v) : Regular (.sequence items)
  | mapping {entries : List (Value × Value)}
      (distinct : entries.Pairwise fun e f => e.1.same f.1 = false)
      (keys : ∀ e ∈ entries, Regular e.1) (values : ∀ e ∈ entries, Regular e.2) :
      Regular (.mapping entries)
  | tagged (tag : String) {v : Value} (inner : Regular v) : Regular (.tagged tag v)

theorem regular_ofPlain? {cs : List Char} {v : Value} (h : ofPlain? cs = some v) : v.Regular := by
  unfold ofPlain? at h
  split at h
  · cases h
    exact .null
  · split at h
    · cases h
      exact .bool _
    · split at h
      case h_1 number =>
        simp only [ofInt?] at number
        split at number
        · cases number
        · split at number
          · cases number
            cases h
            exact .int _
          · split at number <;> cases number
            cases h
      case h_2 =>
        split at h <;> cases h
        · exact .float _
        · exact .text _

theorem regular_ofUntagged? {plain : Bool} {cs : List Char} {v : Value}
    (h : ofUntagged? plain cs = some v) : v.Regular := by
  cases plain with
  | true => exact regular_ofPlain? h
  | false =>
    cases h
    exact .text _

theorem regular_ofTyped? {type : ScalarType} {cs : List Char} {v : Value}
    (h : ofTyped? type cs = some v) : v.Regular := by
  cases type with
  | null =>
    simp only [ofTyped?] at h
    split at h <;> cases h
    exact .null
  | bool =>
    obtain ⟨b, -, rfl⟩ := Option.map_eq_some_iff.mp h
    exact .bool b
  | int =>
    simp only [ofTyped?, ofInt?] at h
    split at h
    · cases h
    · split at h
      · cases h
        exact .int _
      · split at h <;> cases h
  | float =>
    obtain ⟨x, -, rfl⟩ := Option.map_eq_some_iff.mp h
    exact .float x
  | other =>
    cases h
    exact .text _

end Value

namespace Tree

open Value

theorem regular_scalarValue? {tag : Option TagChars} {text : ScalarText} {v : Value}
    (h : scalarValue? tag text = some v) : v.Regular := by
  unfold scalarValue? at h
  dsimp only at h
  split at h
  · obtain ⟨inner, found, rfl⟩ := Option.map_eq_some_iff.mp h
    exact .tagged _ (regular_ofUntagged? found)
  · exact regular_ofUntagged? h
  · exact regular_ofTyped? h
  · exact regular_ofUntagged? h

theorem regular_collectionValue (tag : Option TagChars) {v : Value} (h : v.Regular) :
    (collectionValue tag v).Regular := by
  unfold collectionValue
  split
  · exact .tagged _ h
  · exact h

theorem run_bind_eq_some {α β : Type} {x : Expansion α} {f : α → Expansion β} {left left' : Nat}
    {b : β} : (x >>= f).run left = some (b, left') ↔
      ∃ a middle, x.run left = some (a, middle) ∧ (f a).run middle = some (b, left') := by
  rw [StateT.run_bind]
  cases x.run left with
  | none => simp
  | some r =>
    obtain ⟨a, middle⟩ := r
    simp [eq_comm (a := a), eq_comm (a := middle)]

theorem run_lift_eq_some {α : Type} {x : Option α} {left left' : Nat} {a : α} :
    (liftM x : Expansion α).run left = some (a, left') ↔ x = some a ∧ left = left' := by
  have lifted : (liftM x : Expansion α).run left = x.bind fun a => some (a, left) := by
    cases x <;> rfl
  simp [lifted, Option.bind_eq_some_iff]

/-- All values that an expansion can give are regular. -/
def Regularly (x : Expansion Value) : Prop :=
  ∀ left v left', x.run left = some (v, left') → v.Regular

theorem regular_of_mapM {f : Tree Nat → Expansion Value} (each : ∀ t, Regularly (f t))
    {trees : List (Tree Nat)} {left left' : Nat} {vs : List Value}
    (mapped : (trees.mapM f).run left = some (vs, left')) : ∀ v ∈ vs, v.Regular := by
  induction trees generalizing left vs with
  | nil =>
    cases mapped
    exact fun v mem => absurd mem List.not_mem_nil
  | cons t trees ih =>
    rw [List.mapM_cons, run_bind_eq_some] at mapped
    obtain ⟨v, middle, first, mapped⟩ := mapped
    rw [run_bind_eq_some] at mapped
    obtain ⟨rest, last, later, made⟩ := mapped
    cases made
    exact List.forall_mem_cons.mpr ⟨each t _ _ _ first, ih later⟩

/-- The entries of a mapping are held in reverse while its keys are compared. -/
theorem regular_of_entryValues {value : Tree Nat → Expansion Value}
    (each : ∀ t, Regularly (value t)) {entries : List (Tree Nat × Tree Nat)}
    {before : List (Value × Value)} {left left' : Nat} {read : List (Value × Value)}
    (ran : (entryValues value before entries).run left = some (read, left'))
    (regular : (Value.mapping before.reverse).Regular) : (Value.mapping read).Regular := by
  induction entries generalizing before left with
  | nil =>
    cases ran
    exact regular
  | cons entry rest ih =>
    obtain ⟨k, v⟩ := entry
    rw [entryValues, run_bind_eq_some] at ran
    obtain ⟨key, middle, keyed, ran⟩ := ran
    split at ran
    · cases ran
    case isFalse fresh =>
      rw [run_bind_eq_some] at ran
      obtain ⟨field, _, valued, ran⟩ := ran
      refine ih ran ?_
      cases regular with
      | mapping distinct keys values =>
        rw [List.reverse_cons]
        have other : ∀ e ∈ before.reverse, e.1.same key = false := by
          simpa using fresh
        refine .mapping (List.pairwise_append.mpr ⟨distinct, List.pairwise_singleton _ _, ?_⟩)
          ?_ ?_
        · simpa using other
        · simpa [or_imp, forall_and] using ⟨by simpa using keys, each k _ _ _ keyed⟩
        · simpa [or_imp, forall_and] using ⟨by simpa using values, each v _ _ _ valued⟩

/-- Trees have regular values, whatever aliases stand for. -/
theorem regularly_value (anchors : Anchors) (depth : Nat) (tree : Tree Nat) :
    Regularly (value anchors depth tree) := by
  induction depth using Nat.strongRecOn generalizing tree with
  | _ depth ih =>
    intro left v left' ran
    rw [value, run_bind_eq_some] at ran
    obtain ⟨target, middle, -, ran⟩ := ran
    cases target with
    | aliasTo => cases ran
    | scalar ps text =>
      obtain ⟨valued, -⟩ := run_lift_eq_some.mp ran
      exact regular_scalarValue? valued
    | sequence ps items =>
      cases depth with
      | zero => cases ran
      | succ depth =>
        simp only [run_bind_eq_some] at ran
        obtain ⟨vs, last, mapped, made⟩ := ran
        cases made
        have each := regular_of_mapM (ih depth depth.lt_succ_self) mapped
        exact regular_collectionValue _ (.sequence each)
    | mapping ps entries =>
      cases depth with
      | zero => cases ran
      | succ depth =>
        simp only [run_bind_eq_some] at ran
        obtain ⟨read, last, entered, made⟩ := ran
        cases made
        have none_before : (Value.mapping []).Regular := .mapping .nil nofun nofun
        exact regular_collectionValue _
          (regular_of_entryValues (ih depth depth.lt_succ_self) entered none_before)

end Tree

/-- A text stands for a value whose mappings have pairwise different keys. -/
theorem Value.regular_of_ofChars? {cs : List Char} {v : Value} (h : ofChars? cs = some v) :
    v.Regular := by
  simp only [ofChars?, Option.bind_eq_bind, Option.bind_eq_some_iff] at h
  obtain ⟨tokens, -, document, -, h⟩ := h
  cases document with
  | none =>
    cases h
    exact .null
  | some tree =>
    simp only [Tree.documentValue?, Option.bind_eq_bind, Option.bind_eq_some_iff] at h
    obtain ⟨⟨linked, anchors⟩, -, ⟨value, left⟩, valued, made⟩ := h
    cases made
    exact Tree.regularly_value anchors _ linked _ _ _ valued

end ArenaVariations.Yaml
