import Gpos.MemMap

/-! The flags and the page of a table entry, and what the masks of
`mm/memory.c` leave of them. -/

namespace Gpos.Mm

theorem and_div (w x : BitVec 32) (hx : x.toNat / 4096 = 2 ^ 20 - 1) :
    (w &&& x).toNat / 4096 = w.toNat / 4096 := by
  have hw : w.toNat / 2 ^ 12 < 2 ^ 20 := by
    have := w.isLt
    omega
  have h : (w &&& x).toNat / 2 ^ 12 = (w.toNat / 2 ^ 12) &&& (x.toNat / 2 ^ 12) := by
    rw [BitVec.toNat_and, ← Nat.shiftRight_eq_div_pow, Nat.shiftRight_and_distrib,
      Nat.shiftRight_eq_div_pow, Nat.shiftRight_eq_div_pow]
  rw [show (4096 : Nat) = 2 ^ 12 from rfl] at hx ⊢
  rw [h, hx, Nat.and_two_pow_sub_one_eq_mod, Nat.mod_eq_of_lt hw]

theorem or_div (w x : BitVec 32) (hx : x.toNat / 4096 = 0) :
    (w ||| x).toNat / 4096 = w.toNat / 4096 := by
  rw [show (4096 : Nat) = 2 ^ 12 from rfl] at hx ⊢
  rw [BitVec.toNat_or, ← Nat.shiftRight_eq_div_pow, Nat.shiftRight_or_distrib,
    Nat.shiftRight_eq_div_pow, Nat.shiftRight_eq_div_pow, hx, Nat.or_zero]

theorem pageFrom_eq (w : BitVec 32) : pageFrom w = w.toNat / 4096 * 4096 := by
  have hdiv := and_div w 0xFFFFF000#32 (by decide)
  have hmod : (w &&& 0xFFFFF000#32).toNat % 4096 = 0 := by
    rw [BitVec.toNat_and, show (4096 : Nat) = 2 ^ 12 from rfl, Nat.and_mod_two_pow]
    rw [show (0xFFFFF000#32).toNat % 2 ^ 12 = 0 by decide, Nat.and_zero]
  rw [pageFrom]
  omega

theorem pageFrom_of_div {w x : BitVec 32} (h : w.toNat / 4096 = x.toNat / 4096) :
    pageFrom w = pageFrom x := by
  rw [pageFrom_eq, pageFrom_eq, h]

/-- The entry without its write bit. -/
def protect (w : BitVec 32) : BitVec 32 := w &&& ~~~2#32

@[simp] theorem pageFrom_protect (w : BitVec 32) : pageFrom (protect w) = pageFrom w :=
  pageFrom_of_div (and_div w _ (by decide))

@[simp] theorem isPresent_protect (w : BitVec 32) : isPresent (protect w) = isPresent w := by
  rw [isPresent, isPresent, protect, BitVec.getLsbD_and,
    show (~~~2#32 : BitVec 32).getLsbD 0 = true by decide, Bool.and_true]

@[simp] theorem isWritable_protect (w : BitVec 32) : isWritable (protect w) = false := by
  rw [isWritable, protect, BitVec.getLsbD_and,
    show (~~~2#32 : BitVec 32).getLsbD 1 = false by decide, Bool.and_false]

theorem lowMem_le_iff (w : BitVec 32) : lowMem ≤ w.toNat ↔ lowMem ≤ pageFrom w := by
  rw [pageFrom_eq, lowMem]
  omega

theorem pageNr_toNat (w : BitVec 32) : pageNr w.toNat = pageNr (pageFrom w) := by
  rw [pageFrom_eq, pageNr_mask]

theorem mmsPage_toNat (w : BitVec 32) : mmsPage w.toNat = mmsPage (pageFrom w) := by
  rw [mmsPage, mmsPage, pageNr_toNat]

@[simp] theorem pageFrom_or_write (w : BitVec 32) : pageFrom (w ||| 2#32) = pageFrom w :=
  pageFrom_of_div (or_div w _ (by decide))

@[simp] theorem isPresent_or_write (w : BitVec 32) : isPresent (w ||| 2#32) = isPresent w := by
  rw [isPresent, isPresent, BitVec.getLsbD_or, show (2#32 : BitVec 32).getLsbD 0 = false by decide,
    Bool.or_false]

@[simp] theorem isWritable_or_write (w : BitVec 32) : isWritable (w ||| 2#32) = true := by
  rw [isWritable, BitVec.getLsbD_or, show (2#32 : BitVec 32).getLsbD 1 = true by decide,
    Bool.or_true]

/-- An entry as the kernel makes it for a page of its own. -/
def userEntry (addr : Nat) : BitVec 32 := BitVec.ofNat 32 addr ||| 7#32

@[simp] theorem isPresent_userEntry (addr : Nat) : isPresent (userEntry addr) = true := by
  rw [isPresent, userEntry, BitVec.getLsbD_or, show (7#32 : BitVec 32).getLsbD 0 = true by decide,
    Bool.or_true]

@[simp] theorem isWritable_userEntry (addr : Nat) : isWritable (userEntry addr) = true := by
  rw [isWritable, userEntry, BitVec.getLsbD_or,
    show (7#32 : BitVec 32).getLsbD 1 = true by decide, Bool.or_true]

theorem pageFrom_userEntry {addr : Nat} (h : addr < 2 ^ 32) :
    pageFrom (userEntry addr) = addr / 4096 * 4096 := by
  rw [pageFrom_eq, userEntry, or_div _ _ (by decide), BitVec.toNat_ofNat, Nat.mod_eq_of_lt h]

theorem pageFrom_div_userEntry {addr : Nat} (h : addr < 2 ^ 32) :
    pageFrom (userEntry addr) / 4096 = addr / 4096 := by
  rw [pageFrom_userEntry h]
  omega

theorem copyEntry_absent {m : Mm} {fromTable j : Nat} (toTable : Nat)
    (h : isPresent (m.mem fromTable j) = false) : copyEntry fromTable toTable j m = m := if_pos h

/-- A present entry is copied without its write bit, which the source loses
too, with one more reference, if its page is not below `LOW_MEM`. -/
theorem copyEntry_present {m : Mm} {fromTable j : Nat} (toTable : Nat)
    (h : isPresent (m.mem fromTable j) = true) : copyEntry fromTable toTable j m =
      if lowMem ≤ pageFrom (m.mem fromTable j) then
        ((m.store toTable j (protect (m.mem fromTable j))).store fromTable j
          (protect (m.mem fromTable j))).addRef (mmsPage (pageFrom (m.mem fromTable j))) 1
      else m.store toTable j (protect (m.mem fromTable j)) := by
  have hlow : lowMem ≤ (protect (m.mem fromTable j)).toNat ↔
    lowMem ≤ pageFrom (m.mem fromTable j) := by
    rw [lowMem_le_iff, pageFrom_protect]
  have hp : mmsPage (protect (m.mem fromTable j)).toNat =
    mmsPage (pageFrom (m.mem fromTable j)) := by
    rw [mmsPage_toNat, pageFrom_protect]
  rw [← hp]
  simp only [← hlow]
  rw [copyEntry]
  simp only [h, Bool.true_eq_false, if_false]
  rfl

end Gpos.Mm
