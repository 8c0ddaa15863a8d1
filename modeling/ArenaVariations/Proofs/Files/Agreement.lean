import ArenaVariations.Proofs.Files.Places

/-!
# Trees with the same files

Two trees agree off certain places if they have the same files at all other ones. Folders do not
count. The same file written into both of them leaves them in agreement, and so does anything that
only happens at the places left out.
-/

namespace ArenaVariations

namespace FileTree

variable {α : Type} {t t' u u' : FileTree α} {off : List String → Prop}

/-- The content of the file at a place. -/
def content? (t : FileTree α) (place : List String) : Option α :=
  match t.standing? place with
  | some (.file content) => some content
  | _ => none

theorem content?_eq_some {place : List String} {content : α} :
    t.content? place = some content ↔ t.standing? place = some (.file content) := by
  rw [content?]
  split
  · next there =>
    rw [there]
    simp
  · next other =>
    constructor
    · rintro ⟨⟩
    · intro there
      exact absurd there (other content)

theorem content?_congr {place : List String}
    (same : ∀ content, t'.standing? place = some (.file content) ↔
      t.standing? place = some (.file content)) : t'.content? place = t.content? place := by
  apply Option.ext
  intro content
  rw [content?_eq_some, content?_eq_some]
  exact same content

/-- The files of two trees are the same, but for certain places. -/
def AgreeOff (off : List String → Prop) (t t' : FileTree α) : Prop :=
  ∀ place, ¬ off place → t'.content? place = t.content? place

namespace AgreeOff

theorem symm (h : AgreeOff off t t') : AgreeOff off t' t :=
  fun place here => (h place here).symm

theorem trans {t'' : FileTree α} (first : AgreeOff off t t') (second : AgreeOff off t' t'') :
    AgreeOff off t t'' :=
  fun place here => (second place here).trans (first place here)

/-- What happens to two trees that agree, each off the same places, leaves them in agreement. -/
theorem step (h : AgreeOff off t u) (left : AgreeOff off t t') (right : AgreeOff off u u') :
    AgreeOff off t' u' :=
  left.symm.trans (h.trans right)

theorem of_createFolders (off : List String → Prop) (t : FileTree α) (p : Path) :
    AgreeOff off t (t.createFolders p).2 :=
  fun _ _ => content?_congr fun _ => (t.createFolders_grown p).standing?_eq_file

/-- The same file can be written into two trees that agree. -/
theorem write (h : AgreeOff off t u) {p : Path} {content : α}
    (left : t.write p content = (true, t')) (right : u.write p content = (true, u')) :
    AgreeOff off t' u' := by
  obtain failed | ⟨_, folder, name, written, leads, -, -, changed⟩ := t.write_cases p content
  · rw [failed] at left
    cases left
  obtain failed | ⟨_, folder', name', written', leads', -, -, changed'⟩ := u.write_cases p content
  · rw [failed] at right
    cases right
  rw [left] at written
  rw [right] at written'
  cases written
  cases written'
  have same := Option.some.inj (leads.symm.trans leads')
  intro place here
  rw [content?, content?, changed, changed', same]
  by_cases target : place = folder' ++ [name']
  · rw [if_pos target, if_pos target]
  · rw [if_neg target, if_neg target]
    exact h place here

end AgreeOff

end FileTree

end ArenaVariations
