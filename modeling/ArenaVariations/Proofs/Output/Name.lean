import Mathlib.Data.List.Basic
import ArenaVariations.Output
import ArenaVariations.Proofs.Decimal.Text
import ArenaVariations.Proofs.Files.Path
import ArenaVariations.Proofs.Text.Separated

/-!
# Names of results

The name of a variation can be read back: behind the stem, underscores separate its number from
the labels that it shows, and no label shows an underscore. `readName` takes a name apart in this
way, so variations of one template share a name only if they share all that it shows. Names of
variations also differ from the index of labels and from the copy of the template, which have no
underscore, and from the template itself, whose stem is shorter.
-/

namespace ArenaVariations

namespace Output

/-- A label is shown in safe characters only. -/
theorem isSafe_of_mem_sanitizeFrom {c : Char} {cs : List Char} {inRun : Bool}
    (mem : c ∈ sanitizeFrom inRun cs) : isSafe c = true := by
  induction cs generalizing inRun with
  | nil => cases mem
  | cons d ds ih =>
    rw [sanitizeFrom] at mem
    split at mem
    · next safe =>
      obtain rfl | mem := List.mem_cons.mp mem
      · exact safe
      · exact ih mem
    · split at mem
      · exact ih mem
      · obtain rfl | mem := List.mem_cons.mp mem
        · rfl
        · exact ih mem

theorem isSafe_of_mem_sanitize {c : Char} {label : String} (mem : c ∈ (sanitize label).toList) :
    isSafe c = true := by
  rw [sanitize, String.toList_ofList] at mem
  exact isSafe_of_mem_sanitizeFrom mem

theorem not_mem_sanitize {c : Char} (unsafeChar : isSafe c = false) (label : String) :
    c ∉ (sanitize label).toList := by
  intro mem
  rw [isSafe_of_mem_sanitize mem] at unsafeChar
  cases unsafeChar

theorem toList_paddedIndex (index : Nat) :
    ∃ zeros, (paddedIndex index).toList = List.replicate zeros '0' ++ Nat.toDigits 10 index := by
  rw [paddedIndex, String.toList_ofList, List.leftpad]
  exact ⟨_, rfl⟩

theorem isDigit_of_mem_paddedIndex {index : Nat} {c : Char}
    (mem : c ∈ (paddedIndex index).toList) : c.isDigit = true := by
  obtain ⟨zeros, split⟩ := toList_paddedIndex index
  rw [split, List.mem_append] at mem
  obtain mem | mem := mem
  · rw [(List.mem_replicate.mp mem).2]
    rfl
  · exact (isNumeral_toDigits index).2 c mem

/-- A number can be read off its digits, however many zeros stand before it. -/
theorem natOfDigits_paddedIndex (index : Nat) :
    natOfDigits 10 (paddedIndex index).toList = index := by
  obtain ⟨zeros, split⟩ := toList_paddedIndex index
  rw [split, natOfDigits_zeros_append (isNumeral_toDigits index).2, natOfDigits_toDigits]

/-- The labels that the name of a variation shows. -/
def shownLabels (labels : Labels) : List String :=
  (labels.map sanitize).filter (· ≠ "")

theorem exists_of_mem_shownLabels {s : String} {labels : Labels} (mem : s ∈ shownLabels labels) :
    ∃ label, s = sanitize label := by
  obtain ⟨label, -, same⟩ := List.mem_map.mp (List.mem_of_mem_filter mem)
  exact ⟨label, same.symm⟩

/-- What a name shows behind its stem, one part after the other. -/
def shownParts (index : Nat) (labels : Labels) : List (List Char) :=
  (paddedIndex index).toList :: (shownLabels labels).map String.toList

/-- The name of a variation: the stem, an underscore, the parts with underscores between them, and
the extension. -/
theorem toList_variationName (stem : String) (index : Nat) (labels : Labels) :
    (variationName stem index labels).toList =
      stem.toList ++ '_' :: (['_'].intercalate (shownParts index labels) ++ ".yaml".toList) := by
  have joined : ("_".intercalate (stem :: paddedIndex index :: shownLabels labels)).toList =
      stem.toList ++ '_' :: ['_'].intercalate (shownParts index labels) := by
    rw [String.toList_intercalate, List.map_cons, List.map_cons, List.intercalate_cons_cons]
    simp [shownParts]
  change ("_".intercalate (stem :: paddedIndex index :: shownLabels labels) ++ ".yaml").toList = _
  rw [String.toList_append, joined, List.append_assoc, List.cons_append]

/-- No part shows an underscore. -/
theorem underscore_not_mem_shownParts (index : Nat) (labels : Labels) :
    ∀ part ∈ shownParts index labels, '_' ∉ part := by
  refine List.forall_mem_cons.mpr ⟨fun mem => ?_, List.forall_mem_map.mpr fun s shown => ?_⟩
  · exact absurd (isDigit_of_mem_paddedIndex mem) (by decide)
  · obtain ⟨label, rfl⟩ := exists_of_mem_shownLabels shown
    exact not_mem_sanitize rfl label

/-- The number and the labels that a name shows behind a stem. -/
def readName (stem name : String) : Nat × List String :=
  let shown := name.toList.drop (stem.toList.length + 1)
  let parts := (shown.take (shown.length - ".yaml".toList.length)).splitOn '_'
  (natOfDigits 10 (parts.headD []), parts.tail.map String.ofList)

/-- The name of a variation is read back. -/
theorem readName_variationName (stem : String) (index : Nat) (labels : Labels) :
    readName stem (variationName stem index labels) = (index, shownLabels labels) := by
  have behind : (variationName stem index labels).toList.drop (stem.toList.length + 1) =
      ['_'].intercalate (shownParts index labels) ++ ".yaml".toList := by
    rw [toList_variationName, List.drop_append, List.drop_eq_nil_of_le (Nat.le_succ _),
      Nat.add_sub_cancel_left]
    rfl
  have parts : (['_'].intercalate (shownParts index labels)).splitOn '_' =
      shownParts index labels :=
    List.splitOn_intercalate '_' (underscore_not_mem_shownParts index labels) (List.cons_ne_nil _ _)
  rw [readName, behind, List.length_append, Nat.add_sub_cancel, List.take_left, parts]
  simp [shownParts, natOfDigits_paddedIndex, Function.comp_def]

/-- Variations of a template with different numbers have different names. -/
theorem variationName_injective {stem : String} {i j : Nat} {labels labels' : Labels}
    (same : variationName stem i labels = variationName stem j labels') : i = j := by
  have read := congrArg (fun name => (readName stem name).1) same
  simpa only [readName_variationName] using read

/-- What follows the stem is made of characters that are safe in file names, and underscores. -/
theorem isSafe_of_mem_rest {index : Nat} {labels : Labels} {c : Char}
    (mem : c ∈ '_' :: (['_'].intercalate (shownParts index labels) ++ ".yaml".toList)) :
    isSafe c = true ∨ c = '_' := by
  obtain rfl | mem := List.mem_cons.mp mem
  · exact .inr rfl
  obtain mem | mem := List.mem_append.mp mem
  · obtain separator | ⟨part, shown, mem⟩ := mem_of_mem_intercalate mem
    · exact .inr (List.mem_singleton.mp separator)
    obtain rfl | shown := List.mem_cons.mp shown
    · have digit := isDigit_of_mem_paddedIndex mem
      exact .inl (by simp [isSafe, Char.isAlphanum, digit])
    · obtain ⟨s, among, rfl⟩ := List.mem_map.mp shown
      obtain ⟨label, rfl⟩ := exists_of_mem_shownLabels among
      exact .inl (isSafe_of_mem_sanitize mem)
  · exact .inl (List.all_eq_true.mp (by decide : ".yaml".toList.all isSafe = true) c mem)

/-- A name begins with its stem, and nothing behind it can be taken for a path. -/
theorem exists_rest (stem : String) (index : Nat) (labels : Labels) :
    ∃ rest, variationName stem index labels = stem ++ rest ∧
      ∀ c ∈ rest.toList, c.isAlphanum = true ∨ c = '.' ∨ c = '-' ∨ c = '_' := by
  refine ⟨.ofList ('_' :: (['_'].intercalate (shownParts index labels) ++ ".yaml".toList)), ?_, ?_⟩
  · rw [← String.toList_inj, toList_variationName]
    simp
  · intro c mem
    rw [String.toList_ofList] at mem
    obtain safe | underscore := isSafe_of_mem_rest mem
    · simp only [isSafe, Bool.or_eq_true, decide_eq_true_eq] at safe
      obtain (letter | dot) | dash := safe
      · exact .inl letter
      · exact .inr (.inl dot)
      · exact .inr (.inr (.inl dash))
    · exact .inr (.inr (.inr underscore))

theorem underscore_mem_variationName (stem : String) (index : Nat) (labels : Labels) :
    '_' ∈ (variationName stem index labels).toList := by
  rw [toList_variationName]
  exact List.mem_append_right _ List.mem_cons_self

theorem variationName_ne_labelIndexName (stem : String) (index : Nat) (labels : Labels) :
    variationName stem index labels ≠ labelIndexName := by
  intro same
  have mem := underscore_mem_variationName stem index labels
  rw [same] at mem
  simp [labelIndexName] at mem

theorem variationName_ne_templateCopyName (stem : String) (index : Nat) (labels : Labels) :
    variationName stem index labels ≠ templateCopyName := by
  intro same
  have mem := underscore_mem_variationName stem index labels
  rw [same] at mem
  simp [templateCopyName] at mem

theorem isName_variationName {stem : String} (slashless : '/' ∉ stem.toList) (index : Nat)
    (labels : Labels) : Path.IsName (variationName stem index labels) := by
  apply Path.IsName.of_length
  · rw [toList_variationName, List.mem_append, not_or]
    refine ⟨slashless, fun mem => ?_⟩
    obtain safe | underscore := isSafe_of_mem_rest mem
    · exact absurd safe (by decide)
    · exact absurd underscore (by decide)
  · rw [← String.length_toList, toList_variationName]
    simp
    omega

theorem stem_of_fileName? {template : Path} {name : String}
    (named : template.fileName? = some name) : stem template = (Path.cut name).1 := by
  rw [stem, Path.stem?, named]
  rfl

theorem slash_not_mem_stem (template : Path) : '/' ∉ (stem template).toList := by
  cases named : template.fileName? with
  | none =>
    rw [stem, Path.stem?, named]
    simp
  | some name =>
    rw [stem_of_fileName? named]
    have slashless : '/' ∉ name.toList := by
      apply Path.no_slash_of_mem_segments (p := template)
      apply Path.mem_segments_of_mem_body
      apply Path.mem_of_mem_trimEnd
      apply List.mem_of_getLast?
      rw [Path.fileName?] at named
      split at named
      · cases named
      · exact named
    obtain bare | ⟨stem, ext, filled, dotless, rfl⟩ := Path.cut_cases name
    · rw [bare]
      exact slashless
    · rw [Path.cut_append filled dotless]
      intro mem
      apply slashless
      rw [String.toList_append, String.toList_append]
      exact List.mem_append_left _ (List.mem_append_left _ mem)

theorem isName_folderName (template : Path) : Path.IsName (folderName template) := by
  apply Path.IsName.of_length
  · rw [folderName, String.toList_append, List.mem_append, not_or]
    exact ⟨slash_not_mem_stem template, by simp [variationsSuffix]⟩
  · rw [folderName, String.length_append, show variationsSuffix.length = 11 from rfl]
    omega

/-- A variation of a template does not have the name of the template. -/
theorem variationName_ne_of_cut {name stem : String} {ext : Option String}
    (own : Path.cut name = (stem, ext)) (index : Nat) (labels : Labels) :
    variationName stem index labels ≠ name := by
  intro same
  obtain ⟨front, split⟩ : ∃ front : String,
      variationName stem index labels = stem ++ "_" ++ front ++ "." ++ "yaml" := by
    refine ⟨String.ofList (['_'].intercalate (shownParts index labels)), ?_⟩
    rw [← String.toList_inj, toList_variationName]
    simp
  have filled : stem ++ "_" ++ front ≠ "" := by
    rw [ne_eq, ← String.toList_inj]
    simp
  have dotless : '.' ∉ "yaml".toList := by simp
  have cut := Path.cut_append filled dotless
  rw [← split, same, own] at cut
  have longer := congrArg String.length (Prod.mk.inj cut).1
  rw [String.length_append, String.length_append, show "_".length = 1 from rfl] at longer
  omega

end Output

end ArenaVariations
