import ArenaVariations.Proofs.Random.Results
import Mathlib.Algebra.BigOperators.Group.List.Basic
import Mathlib.Data.List.FinRange
import Mathlib.Logic.ExistsUnique

/-!
# Positions of results

A computation may ask for choices of the same sizes on all of its paths: `Draw.Asks`. Its results
then form a table with one entry for each list of answers, and the answers are the digits of the
entry's position, in the mixed radix of the sizes and with the most significant digit first.
`Asks.answer_eq` is this reading of the table, and by `existsUnique_digits` each position is
written by exactly one list of answers. So choosing every answer with the same chance is choosing
every entry with the same chance.
-/

namespace ArenaVariations

/-- The number that digits write in a mixed radix, the most significant one first. -/
def digitsPosition : List Nat → List Nat → Nat
  | _ :: sizes, digit :: digits => digit * sizes.prod + digitsPosition sizes digits
  | _, _ => 0

/-- There is a digit for each size, and it is below it. -/
def Digits (sizes digits : List Nat) : Prop :=
  List.Forall₂ (fun size digit => digit < size) sizes digits

theorem Digits.position_lt {sizes digits : List Nat} (h : Digits sizes digits) :
    digitsPosition sizes digits < sizes.prod := by
  induction h with
  | nil => exact Nat.one_pos
  | @cons size digit sizes digits below _ ih =>
    rw [List.prod_cons, digitsPosition]
    calc digit * sizes.prod + digitsPosition sizes digits
        < digit * sizes.prod + sizes.prod := Nat.add_lt_add_left ih _
      _ = (digit + 1) * sizes.prod := (Nat.succ_mul digit sizes.prod).symm
      _ ≤ size * sizes.prod := Nat.mul_le_mul_right _ below

/-- Each number below the product of the sizes is written by exactly one list of digits. -/
theorem existsUnique_digits {sizes : List Nat} {position : Nat}
    (below : position < sizes.prod) :
    ∃! digits, Digits sizes digits ∧ digitsPosition sizes digits = position := by
  induction sizes generalizing position with
  | nil =>
    obtain rfl : position = 0 := Nat.lt_one_iff.mp below
    refine ⟨[], ⟨.nil, rfl⟩, ?_⟩
    rintro _ ⟨⟨⟩, -⟩
    rfl
  | cons size sizes ih =>
    rw [List.prod_cons] at below
    have positive : 0 < sizes.prod := Nat.pos_of_mul_pos_left (Nat.zero_lt_of_lt below)
    obtain ⟨rest, ⟨digits, written⟩, unique⟩ := ih (Nat.mod_lt position positive)
    refine ⟨position / sizes.prod :: rest, ⟨.cons ?_ digits, ?_⟩, ?_⟩
    · exact (Nat.div_lt_iff_lt_mul positive).mpr below
    · rw [digitsPosition, written, Nat.mul_comm]
      exact Nat.div_add_mod position sizes.prod
    · rintro _ ⟨digits', same⟩
      cases digits' with
      | @cons _ first _ others _ fit =>
        -- The first digit is the quotient, since what follows it writes a remainder.
        have remainder := Digits.position_lt fit
        rw [digitsPosition] at same
        have quotient : position / sizes.prod = first := by
          rw [← same, Nat.mul_comm, Nat.mul_add_div positive, Nat.div_eq_of_lt remainder,
            Nat.add_zero]
        have lower : digitsPosition sizes others = position % sizes.prod := by
          rw [← same, Nat.mul_comm, Nat.mul_add_mod, Nat.mod_eq_of_lt remainder]
        rw [quotient, unique others ⟨fit, lower⟩]

/-- In a list of rows of one length the row and the column give the position of an entry. -/
theorem getElem?_flatMap {α β : Type} {row : α → List β} {width : Nat}
    (uniform : ∀ a, (row a).length = width) (as : List α) (i : Nat) {column : Nat}
    (within : column < width) :
    (as.flatMap row)[i * width + column]? = as[i]?.bind fun a => (row a)[column]? := by
  induction as generalizing i with
  | nil => simp
  | cons a as ih =>
    rw [List.flatMap_cons]
    cases i with
    | zero =>
      rw [Nat.zero_mul, Nat.zero_add, List.getElem?_append_left (by rw [uniform]; exact within)]
      rfl
    | succ i =>
      have later : (i + 1) * width + column = width + (i * width + column) := by
        rw [Nat.succ_mul]
        omega
      rw [List.getElem?_append_right (by rw [uniform]; omega), uniform, later,
        Nat.add_sub_cancel_left, ih]
      rfl

namespace Draw

variable {α β : Type}

/-- The results, in the order of the choices that lead to them. -/
def leaves : Draw α → List α
  | pure a => [a]
  | choose last next => (List.finRange (last + 1)).flatMap fun i => (next i).leaves

/-- Choices of these sizes are asked for, one after the other, whatever the answers are. -/
def Asks : Draw α → List Nat → Prop
  | pure _, sizes => sizes = []
  | choose _ _, [] => False
  | choose last next, size :: sizes => size = last + 1 ∧ ∀ i, (next i).Asks sizes

/-- The result for a list of answers, if the answers fit. -/
def answer : Draw α → List Nat → Option α
  | pure a, [] => some a
  | choose last next, i :: answers =>
    if h : i < last + 1 then (next ⟨i, h⟩).answer answers else none
  | _, _ => none

theorem leaves_bind (d : Draw α) (f : α → Draw β) :
    (d >>= f).leaves = d.leaves.flatMap fun a => (f a).leaves := by
  induction d with
  | pure a => simp [leaves, Bind.bind, bind]
  | choose last next ih =>
    have inner : choose last next >>= f = choose last fun i => next i >>= f := rfl
    simp only [inner, leaves, ih, List.flatMap_assoc]

theorem leaves_map (f : α → β) (d : Draw α) : (f <$> d).leaves = d.leaves.map f := by
  rw [← bind_pure_comp, leaves_bind, List.map_eq_flatMap]
  rfl

theorem leaves_oneOf (first : α) (rest : List α) : (oneOf first rest).leaves = first :: rest := by
  rw [oneOf, leaves]
  simp only [leaves]
  exact List.map_eq_flatMap.symm.trans (List.map_get_finRange (first :: rest))

theorem leaves_ne_nil (d : Draw α) : d.leaves ≠ [] := by
  induction d with
  | pure a => exact List.cons_ne_nil a []
  | choose last next ih =>
    intro empty
    exact ih 0 (List.flatMap_eq_nil_iff.mp empty 0 (List.mem_finRange 0))

/-- The sizes of a sequence are those of its first part and then those of its second one. -/
theorem Asks.bind {sizes more : List Nat} {d : Draw α} {f : α → Draw β} (h : d.Asks sizes)
    (hf : ∀ a, (f a).Asks more) : (d >>= f).Asks (sizes ++ more) := by
  induction d generalizing sizes with
  | pure a =>
    obtain rfl : sizes = [] := h
    exact hf a
  | choose last next ih =>
    cases sizes with
    | nil => exact h.elim
    | cons size sizes => exact ⟨h.1, fun i => ih i (h.2 i)⟩

theorem asks_pure (a : α) : (Pure.pure a : Draw α).Asks [] := rfl

theorem Asks.map {sizes : List Nat} {d : Draw α} (h : d.Asks sizes) (f : α → β) :
    (f <$> d).Asks sizes := by
  have h' : (f <$> d).Asks (sizes ++ []) := h.bind fun a => asks_pure (f a)
  rwa [List.append_nil] at h'

theorem asks_oneOf (first : α) (rest : List α) :
    (oneOf first rest).Asks [(first :: rest).length] :=
  ⟨rfl, fun _ => rfl⟩

/-- There are as many results as there are lists of answers. -/
theorem Asks.length_leaves {sizes : List Nat} {d : Draw α} (h : d.Asks sizes) :
    d.leaves.length = sizes.prod := by
  induction d generalizing sizes with
  | pure a =>
    obtain rfl : sizes = [] := h
    rfl
  | choose last next ih =>
    cases sizes with
    | nil => exact h.elim
    | cons size sizes =>
      obtain ⟨rfl, each⟩ := h
      simp [leaves, List.length_flatMap, ih _ (each _)]

/-- Answers are the digits of the position of their result. -/
theorem Asks.answer_eq {sizes answers : List Nat} {d : Draw α} (h : d.Asks sizes)
    (fit : Digits sizes answers) : d.answer answers = d.leaves[digitsPosition sizes answers]? := by
  induction d generalizing sizes answers with
  | pure a =>
    obtain rfl : sizes = [] := h
    cases fit
    rfl
  | choose last next ih =>
    cases fit with
    | nil => exact h.elim
    | @cons size first sizes others below fit =>
      obtain ⟨rfl, each⟩ := h
      rw [answer, dif_pos below, ih ⟨first, below⟩ (each _) fit, leaves, digitsPosition,
        getElem?_flatMap (fun i => (each i).length_leaves) _ _ (Digits.position_lt fit)]
      simp [below]

end Draw

end ArenaVariations
