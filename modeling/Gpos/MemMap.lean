import Gpos.Memory
import Mathlib.Data.Finset.Card
import Mathlib.Data.Finset.Range

/-! The bitmap of free pages, page by page: what the four functions of
`mm/memory.c` that change it do to the bits and to the counts. -/

namespace Gpos.Mm

def bit (m : Mm) (n : Nat) : Bool := (m.memMap (n / 32)).getLsbD (n % 32)

/-- The address and the frame of the page with number `n`. -/
def pageAddr (n : Nat) : Nat := n * 4096 + lowMem

def pageFrame (n : Nat) : Nat := n + 256

theorem pageAddr_div (n : Nat) : pageAddr n / 4096 = pageFrame n := by
  simp only [pageAddr, pageFrame, lowMem]
  omega

theorem pageNr_high {addr : Nat} (h : lowMem ≤ addr) : pageNr addr = (addr - lowMem) / 4096 :=
  if_pos h

theorem pageNr_low {addr : Nat} (h : addr < lowMem) : mmPages ≤ pageNr addr := by
  rw [pageNr, if_neg (Nat.not_le.mpr h)]
  simp only [lowMem, mmPages]
  omega

theorem pageNr_pageAddr (n : Nat) : pageNr (pageAddr n) = n := by
  have h : lowMem ≤ pageAddr n := Nat.le_add_left _ _
  rw [pageNr_high h, pageAddr]
  omega

theorem pageNr_mask (addr : Nat) : pageNr (addr / 4096 * 4096) = pageNr addr := by
  by_cases h : lowMem ≤ addr
  · have h' : lowMem ≤ addr / 4096 * 4096 := by
      simp only [lowMem] at *
      omega
    rw [pageNr_high h, pageNr_high h']
    simp only [lowMem] at *
    omega
  · have h' : ¬ lowMem ≤ addr / 4096 * 4096 := by
      simp only [lowMem] at *
      omega
    rw [pageNr, pageNr, if_neg h, if_neg h']
    simp only [lowMem]
    omega

theorem getBitpos_eq (addr : Nat) :
    getBitpos addr = if pageNr addr < mmPages then some (pageNr addr / 32, pageNr addr % 32)
      else none := by
  by_cases h : pageNr addr < mmPages
  · rw [getBitpos, if_neg (by simp only [mmBitmaps, mmPages] at *; omega), if_pos h]
  · rw [getBitpos, if_pos (by simp only [mmBitmaps, mmPages] at *; omega), if_neg h]

theorem mmsPage_eq {addr : Nat} (h : pageNr addr < mmPages) : mmsPage addr = some (pageNr addr) :=
  if_pos h

theorem getLsbD_one_shiftLeft {i j : Nat} (hj : j < 32) :
    (1#32 <<< i).getLsbD j = decide (j = i) := by
  rw [BitVec.getLsbD_shiftLeft, BitVec.getLsbD_one]
  simp only [hj, decide_true, Bool.true_and]
  by_cases h : j < i
  · simp [h, Nat.ne_of_lt h]
  · have he : decide (j - i = 0) = decide (j = i) := decide_eq_decide.mpr (by omega)
    simp [h, he]

theorem bit_setWord_or (m : Mm) (n k : Nat) :
    (m.setWord (n / 32) (m.memMap (n / 32) ||| 1#32 <<< (n % 32))).bit k =
      (m.bit k || decide (k = n)) := by
  have hk : k % 32 < 32 := Nat.mod_lt _ (by decide)
  simp only [bit, setWord, Function.update_apply]
  split
  next h =>
    rw [BitVec.getLsbD_or, getLsbD_one_shiftLeft hk, h]
    congr 1
    simp only [decide_eq_decide]
    omega
  next h =>
    rw [decide_eq_false (by rintro rfl; exact h rfl), Bool.or_false]

theorem bit_setWord_and (m : Mm) (n k : Nat) :
    (m.setWord (n / 32) (m.memMap (n / 32) &&& ~~~(1#32 <<< (n % 32)))).bit k =
      (m.bit k && !decide (k = n)) := by
  have hk : k % 32 < 32 := Nat.mod_lt _ (by decide)
  simp only [bit, setWord, Function.update_apply]
  split
  next h =>
    rw [BitVec.getLsbD_and, BitVec.getLsbD_not, getLsbD_one_shiftLeft hk, h]
    simp only [hk, decide_true, Bool.true_and]
    congr 2
    simp only [decide_eq_decide]
    omega
  next h =>
    rw [decide_eq_false (by rintro rfl; exact h rfl), Bool.not_false, Bool.and_true]

@[simp] theorem bit_addRef (p : Option Nat) (d : Int) (m : Mm) (k : Nat) :
    (m.addRef p d).bit k = m.bit k := rfl

@[simp] theorem refcount_setWord (pos : Nat) (w : BitVec 32) (m : Mm) :
    (m.setWord pos w).refcount = m.refcount := rfl

@[simp] theorem memMap_addRef (p : Option Nat) (d : Int) (m : Mm) :
    (m.addRef p d).memMap = m.memMap := rfl

theorem refcount_addRef (p : Option Nat) (d : Int) (m : Mm) :
    (m.addRef p d).refcount = Function.update m.refcount p (m.refcount p + d) := rfl

/-- The page `n` gets one more reference, and its bit. -/
structure Referenced (m : Mm) (n : Nat) (m' : Mm) : Prop where
  bit : ∀ k, m'.bit k = (m.bit k || decide (k = n))
  refcount : m'.refcount = Function.update m.refcount (some n) (m.refcount (some n) + 1)
  highMemory : m'.highMemory = m.highMemory
  pgDir : m'.pgDir = m.pgDir

theorem setMemMap_covered {m : Mm} {addr : Nat} (h : pageNr addr < mmPages) :
    Referenced m (pageNr addr) (m.setMemMap addr) ∧ (m.setMemMap addr).mem = m.mem := by
  have hg : getBitpos (addr / 4096 * 4096) = some (pageNr addr / 32, pageNr addr % 32) := by
    rw [getBitpos_eq, pageNr_mask addr, if_pos h]
  have hp : mmsPage (addr / 4096 * 4096) = some (pageNr addr) := by
    rw [mmsPage, pageNr_mask addr, if_pos h]
  generalize pageNr addr = n at hg hp ⊢
  have he : m.setMemMap addr =
      (m.setWord (n / 32) (m.memMap (n / 32) ||| 1#32 <<< (n % 32))).addRef (some n) 1 := by
    unfold setMemMap
    rw [hg, hp]
  rw [he]
  refine ⟨⟨fun k => ?_, ?_, rfl, rfl⟩, rfl⟩
  · rw [bit_addRef, bit_setWord_or]
  · rw [refcount_addRef, refcount_setWord]

theorem setMemMap_outside {m : Mm} {addr : Nat} (h : mmPages ≤ pageNr addr) :
    m.setMemMap addr = m := by
  have hg : getBitpos (addr / 4096 * 4096) = none := by
    rw [getBitpos_eq, pageNr_mask addr, if_neg (Nat.not_lt.mpr h)]
  unfold setMemMap
  rw [hg]

/-- `clear_mem_map` takes one reference away, and the bit with the last one. -/
theorem clearMemMap_eq {m : Mm} {addr : Nat} (h : pageNr addr < mmPages) {m' : Mm}
    (he : m.clearMemMap addr = some m') :
    0 < m.refcount (some (pageNr addr)) ∧
      m'.refcount = Function.update m.refcount (some (pageNr addr))
        (m.refcount (some (pageNr addr)) - 1) ∧
      (∀ k, m'.bit k = (m.bit k && !decide (k = pageNr addr ∧
        m.refcount (some (pageNr addr)) = 1))) ∧
      m'.mem = m.mem ∧ m'.highMemory = m.highMemory ∧ m'.pgDir = m.pgDir := by
  have hg : getBitpos addr = some (pageNr addr / 32, pageNr addr % 32) := by
    rw [getBitpos_eq, if_pos h]
  have hp := mmsPage_eq h
  generalize pageNr addr = n at hg hp ⊢
  simp only [clearMemMap, hg, hp, refcount_addRef, Function.update_self] at he
  split_ifs at he with h0 h1
  · have hone : m.refcount (some n) = 1 := by omega
    obtain rfl := Option.some.inj he
    refine ⟨by omega, ?_, fun k => ?_, rfl, rfl, rfl⟩
    · rw [refcount_setWord, refcount_addRef]
      rfl
    · rw [memMap_addRef] at *
      simp only [hone, and_true]
      exact bit_setWord_and _ n k
  · have hne : m.refcount (some n) ≠ 1 := by omega
    obtain rfl := Option.some.inj he
    refine ⟨by omega, ?_, fun k => ?_, rfl, rfl, rfl⟩
    · rw [refcount_addRef]
      rfl
    · simp only [hne, and_false, decide_false, Bool.not_false, Bool.and_true, bit_addRef]

theorem clearMemMap_outside {m : Mm} {addr : Nat} (h : mmPages ≤ pageNr addr) :
    m.clearMemMap addr = some m := by
  have hg : getBitpos addr = none := by rw [getBitpos_eq, if_neg (Nat.not_lt.mpr h)]
  simp only [clearMemMap, hg]

theorem clearMemMap_some (m : Mm) {addr : Nat} (h : pageNr addr < mmPages)
    (hpos : 0 < m.refcount (some (pageNr addr))) : ∃ m', m.clearMemMap addr = some m' := by
  have hg : getBitpos addr = some (pageNr addr / 32, pageNr addr % 32) := by
    rw [getBitpos_eq, if_pos h]
  simp only [clearMemMap, hg, mmsPage_eq h, refcount_addRef, Function.update_self]
  split_ifs with h0 h1
  · exact ⟨_, rfl⟩
  · omega
  · exact ⟨_, rfl⟩

/-! The search of `get_free_page`. -/

theorem scas_cases (mm : Nat → BitVec 32) (n : Nat) :
    (∃ pos, pos < n ∧ scas mm n = pos ∧ mm pos ≠ 0xFFFFFFFF#32 ∧ ∀ k, pos < k → k < n →
      mm k = 0xFFFFFFFF#32) ∨ scas mm n = 0xFFFFFFFF ∧ ∀ k, k < n → mm k = 0xFFFFFFFF#32 := by
  induction n with
  | zero => exact .inr ⟨rfl, fun k hk => absurd hk (Nat.not_lt_zero k)⟩
  | succ n ih =>
    by_cases h : mm n = 0xFFFFFFFF#32
    · have hall : ∀ {P : Nat → Prop}, (∀ k, P k → k < n → mm k = 0xFFFFFFFF#32) →
          ∀ k, P k → k < n + 1 → mm k = 0xFFFFFFFF#32 := by
        intro P hP k hk hlt
        rcases Nat.lt_succ_iff_lt_or_eq.mp hlt with hlt | rfl
        · exact hP k hk hlt
        · exact h
      simp only [scas, h, if_true]
      rcases ih with ⟨pos, hpos, he, hne, hk⟩ | ⟨he, hk⟩
      · exact .inl ⟨pos, by omega, he, hne, hall (P := fun k => pos < k) hk⟩
      · exact .inr ⟨he, fun k hlt => hall (P := fun _ => True) (fun k _ => hk k) k trivial hlt⟩
    · simp only [scas, h, if_false]
      exact .inl ⟨n, Nat.lt_succ_self n, rfl, h, fun k hk hlt => by omega⟩

theorem bitLoop_cases (w : BitVec 32) (n : Nat) :
    (∃ i, i < n ∧ bitLoop w n = i ∧ w.getLsbD i = false ∧ ∀ k, i < k → k < n → w.getLsbD k = true) ∨
      bitLoop w n = -1 ∧ ∀ k, k < n → w.getLsbD k = true := by
  induction n with
  | zero => exact .inr ⟨rfl, fun k hk => absurd hk (Nat.not_lt_zero k)⟩
  | succ n ih =>
    cases h : w.getLsbD n with
    | true =>
      simp only [bitLoop, h, if_true]
      rcases ih with ⟨i, hi, he, hne, hk⟩ | ⟨he, hk⟩
      · refine .inl ⟨i, by omega, he, hne, fun k hik hlt => ?_⟩
        rcases Nat.lt_succ_iff_lt_or_eq.mp hlt with hlt | rfl
        · exact hk k hik hlt
        · exact h
      · refine .inr ⟨he, fun k hlt => ?_⟩
        rcases Nat.lt_succ_iff_lt_or_eq.mp hlt with hlt | rfl
        · exact hk k hlt
        · exact h
    | false =>
      simp only [bitLoop, h, Bool.false_eq_true, if_false]
      exact .inl ⟨n, Nat.lt_succ_self n, rfl, h, fun k hk hlt => by omega⟩

theorem allOnes_bit : ∀ k, k < 32 → (0xFFFFFFFF#32).getLsbD k = true := by decide

theorem eq_allOnes {w : BitVec 32} (h : ∀ k, k < 32 → w.getLsbD k = true) : w = 0xFFFFFFFF#32 := by
  refine BitVec.eq_of_getLsbD_eq fun i hi => ?_
  rw [h i hi, allOnes_bit i hi]

/-- The page that `get_free_page` takes when there is one. -/
structure IsTopFree (m : Mm) (n : Nat) : Prop where
  lt : n < mmPages
  free : m.bit n = false
  above : ∀ k, n < k → k < mmPages → m.bit k = true

theorem IsTopFree.unique {m : Mm} {n k : Nat} (h : IsTopFree m n) (h' : IsTopFree m k) : n = k := by
  rcases Nat.lt_trichotomy n k with hlt | rfl | hlt
  · have := h.above k hlt h'.lt
    rw [h'.free] at this
    cases this
  · rfl
  · have := h'.above n hlt h.lt
    rw [h.free] at this
    cases this

/-- With a free page the search returns the highest one; without any it returns
an address below `LOW_MEM`, and never 0. -/
theorem freeAddr_cases (m : Mm) :
    (∃ n, IsTopFree m n ∧ m.freeAddr = pageAddr n) ∨
      (∀ n, n < mmPages → m.bit n = true) ∧ 0xDF000 ≤ m.freeAddr ∧ m.freeAddr < lowMem := by
  have hword : ∀ pos idx, idx < 32 → m.bit (pos * 32 + idx) = (m.memMap pos).getLsbD idx := by
    intro pos idx hidx
    rw [bit, show (pos * 32 + idx) / 32 = pos by omega, show (pos * 32 + idx) % 32 = idx by omega]
  have hsplit : ∀ k, m.bit k = (m.memMap (k / 32)).getLsbD (k % 32) := fun k => rfl
  rcases scas_cases m.memMap mmBitmaps with ⟨pos, hpos, he, hne, hfull⟩ | ⟨he, hfull⟩
  · rcases bitLoop_cases (m.memMap pos) 32 with ⟨i, hi, hl, hfree, habove⟩ | ⟨-, hall⟩
    · refine .inl ⟨pos * 32 + i, ⟨?_, ?_, fun k hk hlt => ?_⟩, ?_⟩
      · simp only [mmBitmaps, mmPages] at *
        omega
      · rw [hword pos i hi, hfree]
      · rw [hsplit]
        by_cases hp : k / 32 = pos
        · rw [hp]
          exact habove _ (by omega) (by omega)
        · rw [hfull (k / 32) (by omega) (by simp only [mmBitmaps, mmPages] at *; omega)]
          exact allOnes_bit _ (Nat.mod_lt _ (by decide))
      · simp only [freeAddr, he, hl, pageAddr, lowMem, mmBitmaps] at *
        omega
    · exact absurd (eq_allOnes hall) hne
  · refine .inr ⟨fun n hn => ?_, ?_⟩
    · rw [hsplit, hfull (n / 32) (by simp only [mmBitmaps, mmPages] at *; omega)]
      exact allOnes_bit _ (Nat.mod_lt _ (by decide))
    · rcases bitLoop_cases (m.memMap 0xFFFFFFFF) 32 with ⟨i, hi, hl, -⟩ | ⟨hl, -⟩
      · simp only [freeAddr, he, hl, lowMem]
        omega
      · simp only [freeAddr, he, hl, lowMem]
        omega

theorem exists_topFree {m : Mm} {n : Nat} (hn : n < mmPages) (h : m.bit n = false) :
    ∃ k, IsTopFree m k := by
  rcases freeAddr_cases m with ⟨k, hk, -⟩ | ⟨hall, -⟩
  · exact ⟨k, hk⟩
  · rw [hall n hn] at h
    cases h

theorem IsTopFree.freeAddr {m : Mm} {n : Nat} (h : IsTopFree m n) : m.freeAddr = pageAddr n := by
  rcases freeAddr_cases m with ⟨k, hk, he⟩ | ⟨hall, -⟩
  · rw [he, h.unique hk]
  · have := hall n h.lt
    rw [h.free] at this
    cases this

@[simp] theorem bit_fillPage (f : Nat) (w : Nat → BitVec 32) (m : Mm) (k : Nat) :
    (m.fillPage f w).bit k = m.bit k :=
  rfl

@[simp] theorem bit_store (f j : Nat) (w : BitVec 32) (m : Mm) (k : Nat) :
    (m.store f j w).bit k = m.bit k := rfl

theorem getFreePage_spec {m : Mm} {n : Nat} (h : IsTopFree m n) :
    m.getFreePage.1 = pageAddr n ∧ Referenced m n m.getFreePage.2 ∧
      m.getFreePage.2.mem = Function.update m.mem (pageFrame n) fun _ => 0 := by
  have ha := h.freeAddr
  have hn : pageNr (pageAddr n) = n := pageNr_pageAddr n
  have hs := @setMemMap_covered (m.fillPage (pageFrame n) fun _ => 0) (pageAddr n) (hn.symm ▸ h.lt)
  rw [hn] at hs
  have he : m.getFreePage = (pageAddr n, (m.fillPage (pageFrame n) fun _ => 0).setMemMap
    (pageAddr n)) := by
    rw [getFreePage, ha, pageAddr_div]
  rw [he]
  exact ⟨rfl, ⟨hs.1.bit, hs.1.refcount, hs.1.highMemory, hs.1.pgDir⟩, hs.2⟩

/-- Without a free page it clears a page below `LOW_MEM` and returns it. -/
theorem getFreePage_full {m : Mm} (h : ∀ n, n < mmPages → m.bit n = true) :
    m.getFreePage = (m.freeAddr, m.fillPage (m.freeAddr / 4096) fun _ => 0) ∧ 0xDF000 ≤ m.freeAddr ∧
      m.freeAddr < lowMem := by
  rcases freeAddr_cases m with ⟨n, hn, -⟩ | ⟨-, hlow, hhigh⟩
  · have := h n hn.lt
    rw [hn.free] at this
    cases this
  · refine ⟨?_, hlow, hhigh⟩
    rw [getFreePage, setMemMap_outside (pageNr_low hhigh)]

theorem getFreePage_ne_zero (m : Mm) : m.getFreePage.1 ≠ 0 := by
  have h : m.getFreePage.1 = m.freeAddr := rfl
  rcases freeAddr_cases m with ⟨n, -, he⟩ | ⟨-, hlow, -⟩
  · rw [h, he, pageAddr, lowMem]
    omega
  · rw [h]
    omega

end Gpos.Mm
