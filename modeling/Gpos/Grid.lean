import Mathlib.Logic.Function.Iterate
import Mathlib.Tactic.Ring

/-! Grids of cells, by line and column. A part of a grid is shifted, and blank
cells come after it. In a sequence of cells the lines lie one after another. -/

namespace Grid

section

variable {α : Type} (blank : α)

/-- The lines from `t` up to `b` are shifted up by `n`. -/
def shiftUp (t b n : Nat) (f : Nat → Nat → α) (y x : Nat) : α :=
  if t ≤ y ∧ y < b then if y + n < b then f (y + n) x else blank else f y x

def shiftDown (t b n : Nat) (f : Nat → Nat → α) (y x : Nat) : α :=
  if t ≤ y ∧ y < b then if t + n ≤ y then f (y - n) x else blank else f y x

/-- The cells of line `l` from column `c` up to `w` are shifted to the left by `n`. -/
def shiftLeft (l c w n : Nat) (f : Nat → Nat → α) (y x : Nat) : α :=
  if y = l ∧ c ≤ x ∧ x < w then if x + n < w then f y (x + n) else blank else f y x

def shiftRight (l c w n : Nat) (f : Nat → Nat → α) (y x : Nat) : α :=
  if y = l ∧ c ≤ x ∧ x < w then if c + n ≤ x then f y (x - n) else blank else f y x

def fill (p : Nat → Nat → Prop) [∀ y x, Decidable (p y x)] (f : Nat → Nat → α) (y x : Nat) : α :=
  if p y x then blank else f y x

theorem shiftUp_iterate (t b n : Nat) (f : Nat → Nat → α) :
    (shiftUp blank t b 1)^[n] f = shiftUp blank t b n f := by
  induction n generalizing f with
  | zero =>
    funext y x
    simp only [Function.iterate_zero_apply, shiftUp, Nat.add_zero]
    split_ifs <;> first | rfl | omega
  | succ n ih =>
    rw [Function.iterate_succ_apply, ih]
    funext y x
    simp only [shiftUp, Nat.add_assoc]
    split_ifs <;> first | rfl | omega

theorem shiftDown_iterate (t b n : Nat) (f : Nat → Nat → α) :
    (shiftDown blank t b 1)^[n] f = shiftDown blank t b n f := by
  induction n generalizing f with
  | zero =>
    funext y x
    simp only [Function.iterate_zero_apply, shiftDown, Nat.sub_zero]
    split_ifs <;> first | rfl | omega
  | succ n ih =>
    rw [Function.iterate_succ_apply, ih]
    funext y x
    simp only [shiftDown, Nat.sub_sub]
    split_ifs <;> first | rfl | omega

theorem shiftLeft_iterate (l c w n : Nat) (f : Nat → Nat → α) :
    (shiftLeft blank l c w 1)^[n] f = shiftLeft blank l c w n f := by
  induction n generalizing f with
  | zero =>
    funext y x
    simp only [Function.iterate_zero_apply, shiftLeft, Nat.add_zero]
    split_ifs <;> first | rfl | omega
  | succ n ih =>
    rw [Function.iterate_succ_apply, ih]
    funext y x
    simp only [shiftLeft, Nat.add_assoc]
    split_ifs <;> first | rfl | omega

theorem shiftRight_iterate (l c w n : Nat) (f : Nat → Nat → α) :
    (shiftRight blank l c w 1)^[n] f = shiftRight blank l c w n f := by
  induction n generalizing f with
  | zero =>
    funext y x
    simp only [Function.iterate_zero_apply, shiftRight, Nat.sub_zero]
    split_ifs <;> first | rfl | omega
  | succ n ih =>
    rw [Function.iterate_succ_apply, ih]
    funext y x
    simp only [shiftRight, Nat.sub_sub]
    split_ifs <;> first | rfl | omega

end

/-! The places of the cells in the sequence. -/

/-- The order in which a text is read. -/
def Before (y x l c : Nat) : Prop := y < l ∨ y = l ∧ x < c

instance (y x l c : Nat) : Decidable (Before y x l c) := inferInstanceAs (Decidable (_ ∨ _))

theorem index_lt_iff {w y x l c : Nat} (hx : x < w) (hc : c ≤ w) :
    y * w + x < l * w + c ↔ Before y x l c := by
  unfold Before
  rcases Nat.lt_trichotomy y l with h | rfl | h
  · have hle : (y + 1) * w ≤ l * w := Nat.mul_le_mul_right w h
    rw [Nat.succ_mul] at hle
    omega
  · omega
  · have hle : (l + 1) * w ≤ y * w := Nat.mul_le_mul_right w h
    rw [Nat.succ_mul] at hle
    omega

theorem index_lt_line {w y x : Nat} (hx : x < w) (l : Nat) : y * w + x < l * w ↔ y < l := by
  have h := @index_lt_iff w y x l 0 hx (Nat.zero_le w)
  rw [Nat.add_zero] at h
  rw [h, Before]
  omega

theorem index_eq_iff {w y x l c : Nat} (hx : x < w) (hc : c < w) :
    y * w + x = l * w + c ↔ y = l ∧ x = c := by
  have hlt := @index_lt_iff w y x l c hx hc.le
  have hle := @index_lt_iff w y x l (c + 1) hx hc
  unfold Before at hlt hle
  omega

end Grid
