import TypedWire.Digits
import Mathlib.Data.Nat.Digits.Defs

namespace TypedWire

def decimal (cs : List Char) : Nat := Nat.ofDigits 10 (cs.reverse.map fun c => c.toNat - '0'.toNat)

def AreDigits (cs : List Char) : Prop := cs ≠ [] ∧ ∀ c ∈ cs, c.isDigit

inductive Spells : List Char → Int → Prop
  | plain {cs} : AreDigits cs → Spells cs (decimal cs)
  | plus {cs} : AreDigits cs → Spells ('+' :: cs) (decimal cs)
  | minus {cs} : AreDigits cs → Spells ('-' :: cs) (-decimal cs)

inductive Counts : List Char → Nat → Prop
  | plain {cs} : AreDigits cs → Counts cs (decimal cs)
  | plus {cs} : AreDigits cs → Counts ('+' :: cs) (decimal cs)

@[simp] theorem decimal_nil : decimal [] = 0 := rfl

theorem decimal_cons (c : Char) (cs : List Char) :
    decimal (c :: cs) = (c.toNat - '0'.toNat) * 10 ^ cs.length + decimal cs := by
  simp only [decimal, List.reverse_cons, List.map_append, List.map_cons, List.map_nil,
    Nat.ofDigits_append, Nat.ofDigits_singleton, List.length_map, List.length_reverse]
  rw [Nat.add_comm, Nat.mul_comm]

theorem digitsFrom_eq_some {acc n : Nat} {cs : List Char} : digitsFrom acc cs = some n ↔
    (∀ c ∈ cs, c.isDigit) ∧ acc * 10 ^ cs.length + decimal cs = n := by
  induction cs generalizing acc with
  | nil => simp [digitsFrom]
  | cons c cs ih =>
    rw [digitsFrom, List.forall_mem_cons]
    split
    · rename_i hc
      rw [ih, decimal_cons, List.length_cons, and_iff_right hc]
      apply and_congr_right
      intro _
      have hplace : (10 * acc + (c.toNat - '0'.toNat)) * 10 ^ cs.length + decimal cs =
          acc * 10 ^ (cs.length + 1) + ((c.toNat - '0'.toNat) * 10 ^ cs.length + decimal cs) := by
        ring
      rw [hplace]
    · rename_i hc
      simp [hc]

theorem digits?_eq_some {cs : List Char} {n : Nat} :
    digits? cs = some n ↔ AreDigits cs ∧ decimal cs = n := by
  cases cs with
  | nil => simp [digits?, AreDigits]
  | cons c cs =>
    rw [digits?, digitsFrom_eq_some, AreDigits, and_iff_right (List.cons_ne_nil c cs)]
    · simp
    · simp

theorem AreDigits.head_ne {c : Char} {cs : List Char} (h : AreDigits (c :: cs)) :
    c ≠ '+' ∧ c ≠ '-' := by
  have hc : c.isDigit := h.2 c List.mem_cons_self
  constructor <;> rintro rfl <;> cases hc

theorem natOfText?_eq_some {s : String} {n : Nat} :
    natOfText? s = some n ↔ Counts s.toList n := by
  unfold natOfText?
  generalize s.toList = text
  split
  · rw [digits?_eq_some]
    constructor
    · rintro ⟨hcs, rfl⟩
      exact .plus hcs
    · intro h
      cases h with
      | plain h => exact absurd rfl h.head_ne.1
      | plus h => exact ⟨h, rfl⟩
  · rename_i hplus
    rw [digits?_eq_some]
    constructor
    · rintro ⟨hcs, rfl⟩
      exact .plain hcs
    · intro h
      cases h with
      | plain h => exact ⟨h, rfl⟩
      | plus h => exact (hplus _ rfl).elim

theorem intOfText?_eq_some {s : String} {n : Int} :
    intOfText? s = some n ↔ Spells s.toList n := by
  unfold intOfText?
  generalize s.toList = text
  split
  · simp only [Option.map_eq_some_iff, digits?_eq_some]
    constructor
    · rintro ⟨_, ⟨hcs, rfl⟩, rfl⟩
      exact .plus hcs
    · intro h
      cases h with
      | plain h => exact absurd rfl h.head_ne.1
      | plus h => exact ⟨_, ⟨h, rfl⟩, rfl⟩
  · simp only [Option.map_eq_some_iff, Option.bind_eq_bind, Option.bind_eq_some_iff,
      Option.pure_def, Option.some.injEq, digits?_eq_some]
    constructor
    · rintro ⟨_, ⟨_, ⟨hcs, rfl⟩, rfl⟩, rfl⟩
      exact .minus hcs
    · intro h
      cases h with
      | plain h => exact absurd rfl h.head_ne.2
      | minus h => exact ⟨_, ⟨_, ⟨h, rfl⟩, rfl⟩, rfl⟩
  · rename_i hplus hminus
    simp only [Option.map_eq_some_iff, digits?_eq_some]
    constructor
    · rintro ⟨_, ⟨hcs, rfl⟩, rfl⟩
      exact .plain hcs
    · intro h
      cases h with
      | plain h => exact ⟨_, ⟨h, rfl⟩, rfl⟩
      | plus h => exact (hplus _ rfl).elim
      | minus h => exact (hminus _ rfl).elim

theorem int32OfText?_eq_some {s : String} {k : Int32} :
    int32OfText? s = some k ↔ Spells s.toList k.toInt := by
  unfold int32OfText?
  rw [← intOfText?_eq_some]
  cases intOfText? s with
  | none => simp
  | some n =>
    simp only [Option.ite_none_right_eq_some, Option.some.injEq]
    constructor
    · rintro ⟨⟨hlo, hhi⟩, rfl⟩
      exact (Int32.toInt_ofInt_of_le hlo hhi).symm
    · rintro rfl
      exact ⟨⟨k.le_toInt, k.toInt_lt⟩, Int32.ofInt_toInt k⟩

end TypedWire
