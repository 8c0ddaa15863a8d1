import ArenaVariations.Yaml.Value.Basic

/-!
# Values without floating-point numbers

Equality of values cannot be decided, as that of floating-point numbers cannot. `Value.alike` is a
test that fails on every floating-point number; values that pass it are one value, `eq_of_alike`.
-/

namespace ArenaVariations.Yaml

namespace Value

mutual

/-- Whether two values without floating-point numbers are one value. -/
def alike : Value → Value → Bool
  | null, null => true
  | bool a, bool b => a == b
  | int a, int b => a == b
  | text a, text b => a == b
  | sequence xs, sequence ys => alikeItems xs ys
  | mapping es, mapping fs => alikeEntries es fs
  | tagged s x, tagged t y => s == t && x.alike y
  | _, _ => false
termination_by structural v => v

/-- Whether two lists of values agree. -/
def alikeItems : List Value → List Value → Bool
  | [], [] => true
  | x :: xs, y :: ys => x.alike y && alikeItems xs ys
  | _, _ => false
termination_by structural vs => vs

/-- Whether two lists of entries agree. -/
def alikeEntries : List (Value × Value) → List (Value × Value) → Bool
  | [], [] => true
  | e :: es, f :: fs => alikeEntry e f && alikeEntries es fs
  | _, _ => false
termination_by structural es => es

/-- Whether two entries agree. -/
def alikeEntry : Value × Value → Value × Value → Bool
  | (k, v), f => k.alike f.1 && v.alike f.2
termination_by structural e => e

end

mutual

theorem eq_of_alike : ∀ (v w : Value), v.alike w = true → v = w
  | null, w, h | bool _, w, h | int _, w, h | float _, w, h | text _, w, h => by
    cases w <;> simp_all [alike]
  | sequence xs, w, h => by
    cases w <;> simp only [alike, Bool.false_eq_true] at h
    rw [eq_of_alikeItems _ _ h]
  | mapping es, w, h => by
    cases w <;> simp only [alike, Bool.false_eq_true] at h
    rw [eq_of_alikeEntries _ _ h]
  | tagged s x, w, h => by
    cases w <;> simp only [alike, Bool.false_eq_true, Bool.and_eq_true, beq_iff_eq] at h
    rw [h.1, eq_of_alike _ _ h.2]

theorem eq_of_alikeItems : ∀ vs ws : List Value, alikeItems vs ws = true → vs = ws
  | [], ws, h => by
    cases ws with
    | nil => rfl
    | cons => cases h
  | v :: vs, ws, h => by
    cases ws with
    | nil => cases h
    | cons w ws =>
      simp only [alikeItems, Bool.and_eq_true] at h
      rw [eq_of_alike _ _ h.1, eq_of_alikeItems _ _ h.2]

theorem eq_of_alikeEntries : ∀ es fs : List (Value × Value), alikeEntries es fs = true → es = fs
  | [], fs, h => by
    cases fs with
    | nil => rfl
    | cons => cases h
  | e :: es, fs, h => by
    cases fs with
    | nil => cases h
    | cons f fs =>
      simp only [alikeEntries, Bool.and_eq_true] at h
      rw [eq_of_alikeEntry _ _ h.1, eq_of_alikeEntries _ _ h.2]

theorem eq_of_alikeEntry : ∀ e f : Value × Value, alikeEntry e f = true → e = f
  | (k, v), f, h => by
    simp only [alikeEntry, Bool.and_eq_true] at h
    rw [eq_of_alike _ _ h.1, eq_of_alike _ _ h.2]

end

end Value

end ArenaVariations.Yaml
