import Mathlib.Data.BitVec
import Mathlib.Data.List.Basic
import Mathlib.Tactic.Abel

/-! A ring of `2 ^ w` cells with a head and a tail, which holds at most
`2 ^ w - 1` elements. All the operations are those on its content, a list. -/

structure RingBuffer (w : Nat) (α : Type) where
  head : BitVec w
  tail : BitVec w
  buf : BitVec w → α

namespace RingBuffer

variable {w : Nat} {α : Type} (q : RingBuffer w α)

def put (x : α) : RingBuffer w α :=
  { q with buf := Function.update q.buf q.head x, head := q.head + 1 }

def first : α := q.buf q.tail

def next : RingBuffer w α := { q with tail := q.tail + 1 }

def last : α := q.buf (q.head - 1)

def unput : RingBuffer w α := { q with head := q.head - 1 }

def left : BitVec w := q.tail - q.head - 1

def size : Nat := (q.head - q.tail).toNat

def Empty : Prop := q.head = q.tail

def Full : Prop := q.left = 0

instance : Decidable q.Empty := inferInstanceAs (Decidable (_ = _))

instance : Decidable q.Full := inferInstanceAs (Decidable (_ = _))

def content : List α := (List.range q.size).map fun i => q.buf (q.tail + BitVec.ofNat w i)

@[simp] theorem length_content : q.content.length = q.size := by
  rw [content, List.length_map, List.length_range]

theorem size_lt : q.size < 2 ^ w := BitVec.isLt _

theorem size_eq_zero : q.size = 0 ↔ q.Empty := by
  rw [size, Empty, ← BitVec.toNat_zero, BitVec.toNat_inj, BitVec.sub_eq_iff_eq_add, BitVec.zero_add]

theorem not_empty_of_size {q : RingBuffer w α} {n : Nat} (h : q.size = n + 1) : ¬ q.Empty :=
  fun he => by
  rw [← size_eq_zero, h] at he
  exact Nat.succ_ne_zero n he

theorem content_eq_nil : q.content = [] ↔ q.Empty := by
  rw [← List.length_eq_zero_iff, length_content, size_eq_zero]

theorem toNat_add_one (d : BitVec w) : (d + 1).toNat = (d.toNat + 1) % 2 ^ w := by
  rw [BitVec.toNat_add, show (1 : BitVec w).toNat = 1 % 2 ^ w from BitVec.toNat_ofNat 1 w,
    Nat.add_mod_mod]

theorem full_iff : q.Full ↔ q.size + 1 = 2 ^ w := by
  have hlt := q.size_lt
  have hleft : q.Full ↔ q.head - q.tail + 1 = 0 := by
    rw [Full, left, ← neg_eq_zero]
    exact Eq.congr_left (by abel)
  rw [hleft, ← BitVec.toNat_inj, toNat_add_one,
    show (0 : BitVec w).toNat = 0 from BitVec.toNat_zero]
  rw [size] at hlt ⊢
  constructor
  · intro h
    exact le_antisymm hlt (Nat.le_of_dvd (Nat.succ_pos _) (Nat.dvd_of_mod_eq_zero h))
  · intro h
    rw [h, Nat.mod_self]

theorem size_put (x : α) : (q.put x).size = (q.size + 1) % 2 ^ w := by
  rw [size, size, ← toNat_add_one]
  exact congrArg BitVec.toNat (by show q.head + 1 - q.tail = _; abel)

theorem size_put_of_not {q : RingBuffer w α} (x : α) (h : ¬ q.Full) :
    (q.put x).size = q.size + 1 := by
  have hlt := q.size_lt
  have hne : q.size + 1 ≠ 2 ^ w := q.full_iff.not.mp h
  rw [size_put, Nat.mod_eq_of_lt (by omega)]

theorem index_ne {q : RingBuffer w α} {i : Nat} (h : i < q.size) :
    q.tail + BitVec.ofNat w i ≠ q.head := by
  intro he
  have hd : q.head - q.tail = BitVec.ofNat w i := by
    rw [← he]
    abel
  rw [size, hd, BitVec.toNat_ofNat] at h
  exact absurd h (Nat.not_lt.mpr (Nat.mod_le _ _))

theorem content_put {q : RingBuffer w α} (x : α) (h : ¬ q.Full) :
    (q.put x).content = q.content ++ [x] := by
  have hhead : q.tail + BitVec.ofNat w q.size = q.head := by
    rw [size, BitVec.ofNat_toNat, BitVec.setWidth_eq]
    abel
  rw [content, size_put_of_not x h, List.range_succ, List.map_append, content]
  congr 1
  · refine List.map_congr_left fun i hi => ?_
    exact Function.update_of_ne (index_ne (List.mem_range.mp hi)) ..
  · show [Function.update q.buf q.head x (q.tail + BitVec.ofNat w q.size)] = [x]
    rw [hhead, Function.update_self]

theorem content_puts (xs : List α) {q : RingBuffer w α} (h : q.size + xs.length < 2 ^ w) :
    (xs.foldl put q).content = q.content ++ xs := by
  induction xs generalizing q with
  | nil => exact (List.append_nil _).symm
  | cons x xs ih =>
    rw [List.length_cons] at h
    have hfull : ¬ q.Full := fun hf => by
      have := q.full_iff.mp hf
      omega
    rw [List.foldl_cons, ih (by rw [size_put_of_not x hfull]; omega), content_put x hfull,
      List.append_assoc, List.singleton_append]

/-- A put into a full ring loses everything. -/
theorem content_put_full {q : RingBuffer w α} (x : α) (h : q.Full) : (q.put x).content = [] := by
  rw [content, size_put, q.full_iff.mp h, Nat.mod_self, List.range_zero, List.map_nil]

/-- Puts that do not all fit leave an end of what was put. -/
theorem content_puts_over {cs : List α} {q : RingBuffer w α} (hlen : cs.length < 2 ^ w)
    (h : 2 ^ w ≤ q.size + cs.length) : ∃ l, l ≠ [] ∧ cs = l ++ (cs.foldl put q).content := by
  induction cs generalizing q with
  | nil => exact absurd q.size_lt (Nat.not_lt.mpr h)
  | cons x xs ih =>
    rw [List.length_cons] at hlen h
    by_cases hf : q.Full
    · have hnil := content_put_full x hf
      have hsize : (q.put x).size = 0 := by rw [← length_content, hnil, List.length_nil]
      refine ⟨[x], List.cons_ne_nil x [], ?_⟩
      rw [List.foldl_cons, content_puts xs (by omega), hnil]
      rfl
    · obtain ⟨l, -, hl⟩ := ih (q := q.put x) (by omega) (by rw [size_put_of_not x hf]; omega)
      exact ⟨x :: l, List.cons_ne_nil x l, congrArg (x :: ·) hl⟩

/-- What is put does not depend on what waits in the queue. -/
theorem puts_tail (cs : List α) (q : RingBuffer w α) (i : BitVec w) :
    cs.foldl put { q with tail := i } = { cs.foldl put q with tail := i } := by
  induction cs generalizing q with
  | nil => rfl
  | cons x xs ih => exact ih (q.put x)

theorem toNat_sub_one {d : BitVec w} (h : d.toNat ≠ 0) : (d - 1).toNat = d.toNat - 1 := by
  have hlt := d.isLt
  have hsucc : d.toNat = ((d - 1).toNat + 1) % 2 ^ w := by
    rw [← toNat_add_one]
    exact congrArg BitVec.toNat (by abel)
  have hd := (d - 1).isLt
  by_cases he : (d - 1).toNat + 1 = 2 ^ w
  · rw [he, Nat.mod_self] at hsucc
    exact absurd hsucc h
  · rw [Nat.mod_eq_of_lt (by omega)] at hsucc
    omega

theorem size_next {q : RingBuffer w α} (h : ¬ q.Empty) : q.next.size + 1 = q.size := by
  have hpos : q.size ≠ 0 := q.size_eq_zero.not.mpr h
  have hd : q.next.size = q.size - 1 := by
    rw [size, size, ← toNat_sub_one hpos]
    exact congrArg BitVec.toNat (by show q.head - (q.tail + 1) = _; abel)
  omega

theorem content_next {q : RingBuffer w α} (h : ¬ q.Empty) :
    q.content = q.first :: q.next.content := by
  rw [content, ← size_next h, List.range_succ_eq_map, List.map_cons, List.map_map, content]
  congr 1
  · rw [first]
    exact congrArg q.buf (by simp)
  · refine List.map_congr_left fun i _ => ?_
    show q.buf (q.tail + BitVec.ofNat w (i + 1)) = q.buf (q.tail + 1 + BitVec.ofNat w i)
    rw [BitVec.ofNat_add]
    exact congrArg q.buf (by show q.tail + (BitVec.ofNat w i + 1) = _; abel)

theorem size_unput {q : RingBuffer w α} (h : ¬ q.Empty) : q.unput.size + 1 = q.size := by
  have hpos : q.size ≠ 0 := q.size_eq_zero.not.mpr h
  have hd : q.unput.size = q.size - 1 := by
    rw [size, size, ← toNat_sub_one hpos]
    exact congrArg BitVec.toNat (by show q.head - 1 - q.tail = _; abel)
  omega

theorem content_unput {q : RingBuffer w α} (h : ¬ q.Empty) :
    q.content = q.unput.content ++ [q.last] := by
  have hhead : q.tail + BitVec.ofNat w q.unput.size = q.head - 1 := by
    rw [size, BitVec.ofNat_toNat, BitVec.setWidth_eq]
    show q.tail + (q.head - 1 - q.tail) = q.head - 1
    abel
  rw [content, ← size_unput h, List.range_succ, List.map_append, content, List.map_singleton, hhead]
  rfl

end RingBuffer
