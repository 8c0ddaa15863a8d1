import ArenaVariations.Yaml.Token.Scalar
import Mathlib.Data.List.Chain

/-!
# What a pass over a scalar holds back

Blanks and line breaks are held back until the next word shows what they stand for. `Standing`
relates the state of a pass to the text it has read, so that a pass over a scalar is followed one
character at a time: `Standing.push`, `Standing.addBlank` and `Standing.addBreak` are its steps, and
whatever was held back, `Standing.join_eq` gives the text as it was. The one thing that folding does
not keep is a space beside a line break.

Two breaks are told apart by what they are: a newline is never part of a text on one line, while a
separator is kept as it is.
-/

namespace ArenaVariations.Yaml

/-- After one more character, which may end its line. -/
def Mark.pass (m : Mark) (c : Char) : Mark :=
  if isBreak c then m.nextLine else m.advance c

theorem line_le_foldl_pass (m : Mark) (cs : List Char) : m.line ≤ (cs.foldl Mark.pass m).line := by
  induction cs generalizing m with
  | nil => exact Nat.le_refl _
  | cons c cs ih =>
    refine Nat.le_trans ?_ (ih (m.pass c))
    rw [Mark.pass]
    split
    · exact Nat.le_succ _
    · exact Nat.le_refl _

/-- Characters of one line move the mark along the line. -/
theorem foldl_pass_of_unbroken {cs : List Char} (unbroken : ∀ c ∈ cs, isBreak c = false)
    (m : Mark) : cs.foldl Mark.pass m = cs.foldl Mark.advance m := by
  induction cs generalizing m with
  | nil => rfl
  | cons c cs ih =>
    obtain ⟨first, others⟩ := List.forall_mem_cons.mp unbroken
    rw [List.foldl_cons, List.foldl_cons, ih others, Mark.pass, first, if_neg Bool.false_ne_true]

theorem foldl_advance (m : Mark) (cs : List Char) :
    (cs.foldl Mark.advance m).line = m.line ∧
      (cs.foldl Mark.advance m).column = m.column + cs.length := by
  induction cs generalizing m with
  | nil => exact ⟨rfl, rfl⟩
  | cons c cs ih =>
    rw [List.foldl_cons, (ih _).1, (ih _).2, List.length_cons]
    exact ⟨rfl, by simp only [Mark.advance]; omega⟩

theorem atDocumentMarker_cons {c : Char} (dash : c ≠ '-') (point : c ≠ '.') (rest : List Char) :
    atDocumentMarker (c :: rest) = false := by
  unfold atDocumentMarker
  split
  case h_1 eq =>
    cases eq
    simp [dash, point]
  case h_2 => rfl

/-- The folding of a text on one line. -/
def Folding.ofText (text : List Char) : Folding := ⟨text, [], false, none, []⟩

theorem Folding.broken_addBreak (f : Folding) (c : Char) : (f.addBreak c).broken = true := by
  rw [addBreak]
  split
  case isTrue is => exact is
  case isFalse => rfl

/-- Two neighbours that folding keeps apart where a text may have several `lines`: a space beside a
separator is lost. -/
def Apart (lines : Bool) (a b : Char) : Prop :=
  lines = true → ¬ (isSeparator a = true ∧ b = ' ') ∧ ¬ (a = ' ' ∧ isSeparator b = true)

/-- The character behind a text that grows by one, which is given in reverse, is kept apart. -/
theorem apart_behind {lines : Bool} {c : Char} {cs : List Char}
    (apart : (c :: cs).IsChain (Apart lines)) (text : List Char) :
    ∀ a ∈ (c :: text).head?, ∀ b ∈ cs.head?, Apart lines a b := by
  intro a last b next
  obtain rfl := Option.some.inj last
  exact (List.isChain_cons.mp apart).1 b next

/-- The state of a pass behind a text, which is given in reverse: at its start, behind a word, and
behind blanks or, where the text may have several `lines`, separators that are held back. -/
inductive Standing (lines : Bool) : WordPhase → Folding → List Char → Prop where
  | start : Standing lines .wordStart .empty []
  | word (text : List Char) : Standing lines .word (.ofText text) text
  | blanks (n : Nat) (text : List Char) :
      Standing lines .gap ⟨text, List.replicate (n + 1) ' ', false, none, []⟩
        (List.replicate (n + 1) ' ' ++ text)
  | breaks {first : Char} {more : List Char} (several : lines = true)
      (all : ∀ c ∈ more ++ [first], isSeparator c = true) (text : List Char) :
      Standing lines .gap ⟨text, [], true, some first, more⟩ (more ++ first :: text)

namespace Standing

variable {lines : Bool} {phase : WordPhase} {f : Folding} {text : List Char}

/-- What was held back stands for itself. -/
theorem join_eq (h : Standing lines phase f text) : f.join = .ofText text := by
  cases h with
  | start => rfl
  | word => rfl
  | blanks => rfl
  | @breaks first more several all text =>
    have newline : first ≠ '\n' := by
      rintro rfl
      exact absurd (all '\n' (by simp)) (by decide)
    simp [Folding.join, Folding.ofText, Folding.empty, newline]

/-- Whether or not a pass joins what it holds back, it has read the text. -/
theorem joined_eq (h : Standing lines phase f text) :
    (if phase = .gap then f.join else f) = .ofText text := by
  split
  · exact h.join_eq
  case isFalse word =>
    cases h with
    | start => rfl
    | word => rfl
    | blanks | breaks => exact absurd rfl word

theorem push (_ : Standing lines phase f text) (c : Char) :
    Standing lines .word ((Folding.ofText text).push c) (c :: text) :=
  .word _

/-- A space is passed, but not behind a separator. -/
theorem addBlank (h : Standing lines phase f text) (apart : ∀ a ∈ text.head?, Apart lines a ' ') :
    Standing lines .gap (f.addBlank ' ') (' ' :: text) := by
  cases h with
  | start => exact .blanks 0 []
  | word => exact .blanks 0 text
  | blanks n text => exact .blanks (n + 1) text
  | @breaks first more several all text =>
    obtain ⟨last, head⟩ : ∃ last, (more ++ first :: text).head? = some last ∧
        isSeparator last = true := by
      cases more with
      | nil => exact ⟨first, rfl, all first (by simp)⟩
      | cons last more => exact ⟨last, rfl, all last (by simp)⟩
    exact absurd ⟨head.2, rfl⟩ (apart last head.1 several).1

/-- A separator is passed, but not behind a space. -/
theorem addBreak (h : Standing lines phase f text) (several : lines = true) {c : Char}
    (separator : isSeparator c = true) (apart : ∀ a ∈ text.head?, Apart lines a c) :
    Standing lines .gap (f.addBreak c) (c :: text) := by
  have alone : ∀ d ∈ [] ++ [c], isSeparator d = true := List.forall_mem_singleton.mpr separator
  cases h with
  | start => exact .breaks several alone []
  | word => exact .breaks several alone text
  | blanks n text => exact absurd ⟨rfl, separator⟩ (apart ' ' rfl several).2
  | @breaks first more _ all text =>
    have further : ∀ d ∈ c :: more ++ [first], isSeparator d = true :=
      List.forall_mem_cons.mpr ⟨separator, all⟩
    exact .breaks several further text

/-- Behind anything but a blank, a text on one line stands inside of a word. -/
theorem eq_word {c : Char} (h : Standing false phase f (c :: text)) (solid : c ≠ ' ') :
    phase = .word ∧ f = .ofText (c :: text) := by
  generalize read : c :: text = all at h
  cases h with
  | start => cases read
  | word => exact ⟨rfl, rfl⟩
  | blanks n text =>
    rw [List.replicate_succ, List.cons_append] at read
    exact absurd (List.cons.inj read).1 solid
  | breaks several => cases several

/-- A text on one line is in a gap behind a space only. -/
theorem eq_space {c : Char} (h : Standing false phase f (c :: text)) (gap : phase ≠ .word) :
    c = ' ' := by
  by_contra solid
  exact gap (h.eq_word solid).1

end Standing

end ArenaVariations.Yaml
