import Mathlib.Data.List.Basic
import ArenaVariations.Output

/-!
# Label indexes are read back

A reader of comma-separated rows finds in an index exactly the names and the labels that were put
into it, whatever characters the labels hold. The reader goes over the characters once and knows
where in a field it stands; a field is read by one lemma, bare or in quotes, and rows follow by
induction.
-/

namespace ArenaVariations

namespace LabelIndex

/-- Where in a field a reader stands. -/
inductive Stage where
  | start
  | bare
  | quoted
  /-- Behind a quote within quotes, which ends them unless another one follows. -/
  | closed
deriving DecidableEq

/-- The rows of a text. A comma ends a field, and a line break ends a row; in quotes both are
ordinary characters, and a quote is doubled. -/
def readFrom (stage : Stage) (done : List Char) (fields : List String) :
    List Char → List (List String)
  | [] => []
  | c :: cs =>
    if stage = .quoted then
      if c = '"' then readFrom .closed done fields cs
      else readFrom .quoted (done ++ [c]) fields cs
    else if c = ',' then readFrom .start [] (fields ++ [String.ofList done]) cs
    else if c = '\n' ∨ c = '\r' then
      (fields ++ [String.ofList done]) :: readFrom .start [] [] cs
    else if c = '"' ∧ stage = .closed then readFrom .quoted (done ++ [c]) fields cs
    else if c = '"' ∧ stage = .start then readFrom .quoted [] fields cs
    else readFrom .bare (done ++ [c]) fields cs

/-- The rows of an index. -/
def read (text : String) : List (List String) :=
  readFrom .start [] [] text.toList

/-- Characters that stand for themselves outside of quotes. -/
def IsBare (c : Char) : Prop :=
  c ≠ ',' ∧ c ≠ '"' ∧ c ≠ '\n' ∧ c ≠ '\r'

theorem isBare_of_needsQuotes {s : String} (plain : needsQuotes s = false) :
    ∀ c ∈ s.toList, IsBare c := by
  intro c mem
  have absent : [',', '"', '\n', '\r'].contains c = false := by
    rw [needsQuotes, List.any_eq_false] at plain
    exact Bool.eq_false_iff.mpr (plain c mem)
  simpa [IsBare] using absent

theorem readFrom_bare {cs : List Char} (plain : ∀ c ∈ cs, IsBare c) {stage : Stage}
    (outside : stage = .start ∨ stage = .bare) (done : List Char) (fields : List String)
    (more : List Char) :
    ∃ stage', (stage' = .start ∨ stage' = .bare) ∧
      readFrom stage done fields (cs ++ more) = readFrom stage' (done ++ cs) fields more := by
  induction cs generalizing stage done with
  | nil => exact ⟨stage, outside, by rw [List.nil_append, List.append_nil]⟩
  | cons c cs ih =>
    obtain ⟨⟨comma, quote, newline, carriage⟩, rest⟩ := List.forall_mem_cons.mp plain
    obtain ⟨stage', outside', read⟩ := ih rest (.inr rfl) (done ++ [c])
    refine ⟨stage', outside', ?_⟩
    have unquoted : stage ≠ .quoted := by
      rintro rfl
      obtain h | h := outside <;> cases h
    rw [List.cons_append, readFrom, if_neg unquoted, if_neg comma,
      if_neg (by simp [newline, carriage]), if_neg (by simp [quote]), if_neg (by simp [quote]),
      read, List.append_assoc]
    rfl

theorem readFrom_quoted (cs : List Char) (done : List Char) (fields : List String)
    (more : List Char) :
    readFrom .quoted done fields
        (cs.flatMap (fun c => if c = '"' then [c, c] else [c]) ++ more) =
      readFrom .quoted (done ++ cs) fields more := by
  induction cs generalizing done with
  | nil => rw [List.flatMap_nil, List.nil_append, List.append_nil]
  | cons c cs ih =>
    rw [List.flatMap_cons, List.append_assoc]
    by_cases quote : c = '"'
    · subst quote
      have closed : ∀ rest : List Char, readFrom .quoted done fields ('"' :: '"' :: rest) =
          readFrom .quoted (done ++ ['"']) fields rest := fun rest => rfl
      rw [if_pos rfl, List.cons_append, List.cons_append, List.nil_append, closed, ih,
        List.append_assoc]
      rfl
    · rw [if_neg quote, List.cons_append, List.nil_append, readFrom, if_pos rfl, if_neg quote, ih,
        List.append_assoc]
      rfl

/-- A field is read back if something that ends fields follows. -/
theorem readFrom_field (s : String) (fields : List String) {last : Char}
    (ends : last = ',' ∨ last = '\n') (more : List Char) :
    readFrom .start [] fields ((field s).toList ++ last :: more) =
      if last = ',' then readFrom .start [] (fields ++ [s]) more
      else (fields ++ [s]) :: readFrom .start [] [] more := by
  -- outside of quotes, the end of a field is seen at once
  have finish : ∀ stage, stage ≠ .quoted →
      readFrom stage s.toList fields (last :: more) =
        if last = ',' then readFrom .start [] (fields ++ [s]) more
        else (fields ++ [s]) :: readFrom .start [] [] more := by
    intro stage unquoted
    rw [readFrom, if_neg unquoted, String.ofList_toList]
    obtain rfl | rfl := ends <;> rfl
  rw [field]
  cases quotes : needsQuotes s with
  | false =>
    obtain ⟨stage, outside, read⟩ := readFrom_bare (isBare_of_needsQuotes quotes)
      (.inl rfl) [] fields (last :: more)
    rw [if_neg Bool.false_ne_true, read, List.nil_append]
    apply finish
    rintro rfl
    obtain h | h := outside <;> cases h
  | true =>
    have opened : ∀ rest : List Char, readFrom .start [] fields ('"' :: rest) =
        readFrom .quoted [] fields rest := fun rest => rfl
    have closed : ∀ (done rest : List Char), readFrom .quoted done fields ('"' :: rest) =
        readFrom .closed done fields rest := fun done rest => rfl
    rw [if_pos rfl, String.toList_ofList, List.cons_append, List.cons_append, opened,
      List.append_assoc, readFrom_quoted, List.nil_append, List.singleton_append, closed]
    exact finish .closed (by decide)

theorem readFrom_fields (first : String) (rest : List String) (before : List String)
    (more : List Char) :
    readFrom .start [] before
        ((",".intercalate ((first :: rest).map field)).toList ++ '\n' :: more) =
      (before ++ first :: rest) :: readFrom .start [] [] more := by
  induction rest generalizing first before with
  | nil =>
    rw [List.map_singleton, String.intercalate_singleton, readFrom_field _ _ (.inr rfl)]
    rfl
  | cons second rest ih =>
    have split : (",".intercalate ((first :: second :: rest).map field)).toList ++ '\n' :: more =
        (field first).toList ++
          ',' :: ((",".intercalate ((second :: rest).map field)).toList ++ '\n' :: more) := by
      simp [String.toList_intercalate]
    rw [split, readFrom_field _ _ (.inl rfl), if_pos rfl, ih, List.append_assoc]
    rfl

/-- What is put into an index is read back. -/
theorem read_rows (rows : List (String × Labels)) :
    read (String.join (rows.map fun r => row r.1 r.2)) = rows.map fun r => r.1 :: r.2 := by
  rw [read]
  induction rows with
  | nil => rfl
  | cons r rows ih =>
    rw [List.map_cons, String.join_cons, String.toList_append, row, String.toList_append,
      List.append_assoc]
    change readFrom .start [] []
      ((",".intercalate ((r.1 :: r.2).map field)).toList ++ '\n' :: _) = _
    rw [readFrom_fields, List.nil_append, List.map_cons]
    exact congrArg _ ih

example : read "a_00001.yaml,\"x, \"\"y\"\"\"\n" = [["a_00001.yaml", "x, \"y\""]] := by
  decide

end LabelIndex

end ArenaVariations
