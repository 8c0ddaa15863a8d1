import Mathlib.Data.List.Basic

/-!
# Separated lists

Parts with a separator between them: the first part, and the others with the separator in front of
each. Nothing but the parts and the separator stands in them. A text is taken apart at a separator
into parts that do not have it, and these are put together to the text again.
-/

namespace ArenaVariations

/-- A separated list is its first element and what follows each separator. -/
theorem intercalate_cons {α : Type} (separator first : List α) (rest : List (List α)) :
    separator.intercalate (first :: rest) = first ++ rest.flatMap fun xs => separator ++ xs := by
  induction rest generalizing first with
  | nil => simp
  | cons second rest ih => rw [List.intercalate_cons_cons, ih]; simp

theorem mem_of_mem_intercalate {α : Type} {separator : List α} {parts : List (List α)} {a : α}
    (mem : a ∈ separator.intercalate parts) : a ∈ separator ∨ ∃ part ∈ parts, a ∈ part := by
  cases parts with
  | nil => cases mem
  | cons first rest =>
    rw [intercalate_cons] at mem
    simp only [List.mem_append, List.mem_flatMap] at mem
    obtain mem | ⟨part, among, mem | mem⟩ := mem
    · exact .inr ⟨first, List.mem_cons_self, mem⟩
    · exact .inl mem
    · exact .inr ⟨part, List.mem_cons_of_mem _ among, mem⟩

theorem not_mem_of_mem_splitOn {α : Type} [BEq α] [LawfulBEq α] {a : α} {xs ys : List α}
    (mem : ys ∈ xs.splitOn a) : a ∉ ys := by
  induction xs generalizing ys with
  | nil =>
    rw [List.splitOn_nil, List.mem_singleton] at mem
    exact mem ▸ List.not_mem_nil
  | cons x xs ih =>
    rw [List.splitOn_cons_eq_if_modifyHead] at mem
    split at mem
    · obtain rfl | mem := List.mem_cons.mp mem
      · exact List.not_mem_nil
      · exact ih mem
    · next ne =>
      obtain ⟨first, rest, split⟩ := List.exists_cons_of_ne_nil (List.splitOn_ne_nil a xs)
      rw [split] at ih mem
      obtain rfl | mem := List.mem_cons.mp mem
      · intro among
        obtain rfl | among := List.mem_cons.mp among
        · simp at ne
        · exact ih List.mem_cons_self among
      · exact ih (List.mem_cons_of_mem _ mem)

section

variable {separator : String} {c : Char}

/-- A text is what stands between its separators, with these in between. -/
theorem intercalate_splitOn_toList (single : separator.toList = [c]) (s : String) :
    separator.intercalate ((s.toList.splitOn c).map String.ofList) = s := by
  rw [← String.toList_inj, String.toList_intercalate, List.map_map, single]
  have same : String.toList ∘ String.ofList = id := funext fun _ => String.toList_ofList
  rw [same, List.map_id]
  exact List.intercalate_splitOn c

/-- Texts with separators in between are taken apart again. -/
theorem splitOn_toList_intercalate (single : separator.toList = [c]) {ss : List String}
    (filled : ss ≠ []) (each : ∀ s ∈ ss, c ∉ s.toList) :
    ((separator.intercalate ss).toList.splitOn c).map String.ofList = ss := by
  have nested : ∀ cs ∈ ss.map String.toList, c ∉ cs := List.forall_mem_map.mpr each
  rw [String.toList_intercalate, single,
    List.splitOn_intercalate c nested (by simpa using filled), List.map_map]
  have same : String.ofList ∘ String.toList = id := funext fun _ => String.ofList_toList
  rw [same, List.map_id]

end

end ArenaVariations
