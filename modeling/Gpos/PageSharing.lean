import Gpos.PageTables
import Mathlib.Algebra.BigOperators.Intervals

/-! What `get_free_page` hands out, and what two address ranges share after
`copy_page_tables`: the pages, their write protection and their counts. -/

namespace Gpos.Mm

/-- The call returns the page `n`, which it has found free. -/
structure TakesPage (m : Mm) (n : Nat) (r : Nat × Mm) : Prop where
  lt : n < mmPages
  free : m.bit n = false
  address : r.1 = lowMem + 4096 * n
  bit : ∀ k, r.2.bit k = (m.bit k || decide (k = n))
  one : r.2.refcount (some n) = 1
  others : ∀ p, p ≠ some n → r.2.refcount p = m.refcount p
  zeroed : ∀ j, r.2.mem (r.1 / 4096) j = 0
  frame : ∀ f, f ≠ r.1 / 4096 → r.2.mem f = m.mem f

/-- A free page when there is one, and otherwise 0 without a change. -/
def Allocates (m : Mm) (r : Nat × Mm) : Prop :=
  ((∃ n, n < mmPages ∧ m.bit n = false) → ∃ n, TakesPage m n r) ∧
    ((∀ n, n < mmPages → m.bit n = true) → r = (0, m))

theorem Accounted.refcount_eq_zero {m : Mm} (h : Accounted m) {n : Nat} (hn : n < mmPages)
    (hfree : m.bit n = false) : m.refcount (some n) = 0 := by
  obtain ⟨hbit, hnonneg⟩ := h n hn
  have hle : ¬ 0 < m.refcount (some n) := fun hpos => by simp [hbit.mpr hpos] at hfree
  omega

theorem takesPage_of_topFree {m : Mm} (h : Accounted m) {n : Nat} (hn : IsTopFree m n) :
    TakesPage m n m.getFreePage := by
  obtain ⟨hpage, href, hmem⟩ := getFreePage_spec hn
  have hframe : m.getFreePage.1 / 4096 = pageFrame n := by rw [hpage, pageAddr_div]
  refine ⟨hn.lt, hn.free, ?_, href.bit, ?_, fun p hp => ?_, fun j => ?_, fun f hf => ?_⟩
  · rw [hpage, pageAddr]
    omega
  · rw [href.refcount, Function.update_self, h.refcount_eq_zero hn.lt hn.free]
    rfl
  · rw [href.refcount, Function.update_of_ne hp]
  · rw [hframe, hmem, Function.update_self]
  · rw [hmem, Function.update_of_ne (hframe ▸ hf)]

/-- The test for a full map is never true, so the search then clears and
returns a page below `LOW_MEM`. -/
theorem getFreePage_allocates_iff {m : Mm} (h : Accounted m) :
    Allocates m m.getFreePage ↔ ∃ n, n < mmPages ∧ m.bit n = false := by
  constructor
  · intro ha
    by_contra hnone
    have hfull : ∀ n, n < mmPages → m.bit n = true := fun n hn => by
      by_contra hb
      exact hnone ⟨n, hn, Bool.eq_false_iff.mpr hb⟩
    exact getFreePage_ne_zero m (congrArg Prod.fst (ha.2 hfull))
  · rintro ⟨n, hn, hfree⟩
    obtain ⟨k, hk⟩ := exists_topFree hn hfree
    refine ⟨fun _ => ⟨k, takesPage_of_topFree h hk⟩, fun hfull => ?_⟩
    rw [hfull n hn] at hfree
    cases hfree

/-- Every word of the map is `w`. -/
def uniformMap (w : BitVec 32) (count : Int) : Mm :=
  ⟨fun _ => w, fun _ => count, fun _ _ => 0, 0x4000000, 2048⟩

theorem accounted_free : Accounted (uniformMap 0 0) := by
  intro n _
  have hbit : (uniformMap 0 0).bit n = false := BitVec.getLsbD_zero
  refine ⟨?_, le_refl _⟩
  rw [hbit]
  exact iff_of_false (by decide) (lt_irrefl _)

theorem uniformMap_full (n : Nat) : (uniformMap 0xFFFFFFFF#32 1).bit n = true :=
  allOnes_bit _ (Nat.mod_lt _ (by decide))

theorem accounted_full : Accounted (uniformMap 0xFFFFFFFF#32 1) :=
  fun n _ => ⟨iff_of_true (uniformMap_full n) zero_lt_one, zero_le_one⟩

theorem getFreePage_allocates_free : Allocates (uniformMap 0 0) (uniformMap 0 0).getFreePage :=
  (getFreePage_allocates_iff accounted_free).mpr ⟨0, by decide, BitVec.getLsbD_zero⟩

theorem getFreePage_full_nonzero :
    Accounted (uniformMap 0xFFFFFFFF#32 1) ∧ ¬ Allocates (uniformMap 0xFFFFFFFF#32 1)
      (uniformMap 0xFFFFFFFF#32 1).getFreePage :=
  ⟨accounted_full, fun h => getFreePage_ne_zero _
    (congrArg Prod.fst (h.2 fun n _ => uniformMap_full n))⟩

/-- A present entry for the page `q`. -/
def MapsTo (q : Nat) (w : BitVec 32) : Prop :=
  isPresent w = true ∧ lowMem ≤ pageFrom w ∧ mmsPage (pageFrom w) = some q

instance (q : Nat) (w : BitVec 32) : Decidable (MapsTo q w) := inferInstanceAs (Decidable (_ ∧ _))

/-- The first `n` entries of table `d` that are for the page `q`. -/
def references (m : Mm) (q d n : Nat) : Nat :=
  ((Finset.range n).filter fun k => MapsTo q (pte m d k)).card

theorem references_succ (m : Mm) (q d n : Nat) :
    references m q d (n + 1) = references m q d n + if MapsTo q (pte m d n) then 1 else 0 := by
  rw [references, references, Finset.range_add_one, Finset.filter_insert]
  split
  · rw [Finset.card_insert_of_notMem (by simp)]
  · rfl

theorem references_of_not {m : Mm} {d : Nat} (hd : ¬ HasTable m d) (q n : Nat) :
    references m q d n = 0 := by
  rw [references, Finset.card_eq_zero, Finset.filter_eq_empty_iff]
  intro k _ hk
  rw [pte_of_not hd] at hk
  exact absurd hk.1 (by decide)

theorem references_congr {m m' : Mm} {d : Nat} (q : Nat)
    (h : ∀ k, k < 1024 → pte m' d k = pte m d k) :
    references m' q d 1024 = references m q d 1024 := by
  unfold references
  refine congrArg Finset.card (Finset.filter_congr fun k hk => ?_)
  rw [h k (Finset.mem_range.mp hk)]

theorem copyEntry_refcount (f t j q : Nat) (m : Mm) :
    (copyEntry f t j m).refcount (some q) = m.refcount (some q) +
      if MapsTo q (m.mem f j) then 1 else 0 := by
  by_cases hp : isPresent (m.mem f j) = true
  · rw [copyEntry_present t hp]
    by_cases hlow : lowMem ≤ pageFrom (m.mem f j)
    · rw [if_pos hlow, refcount_addRef]
      by_cases hq : mmsPage (pageFrom (m.mem f j)) = some q
      · rw [if_pos ⟨hp, hlow, hq⟩, hq, Function.update_self]
        rfl
      · rw [if_neg fun h => hq h.2.2, Function.update_of_ne (Ne.symm hq), add_zero]
        rfl
    · rw [if_neg hlow, if_neg fun h => hlow h.2.1, add_zero]
      rfl
  · rw [copyEntry_absent t (Bool.eq_false_iff.mpr hp), if_neg fun h => hp h.1, add_zero]

theorem copyTable_refcount {m : Mm} (ho : TablesOwned m) {d e : Nat} (hd : HasTable m d)
    (he : HasTable m e) (hne : d ≠ e) (q n : Nat) :
    (copyTable (m.tableFrame d) (m.tableFrame e) n m).refcount (some q) =
      m.refcount (some q) + references m q d n := by
  induction n with
  | zero => simp [copyTable, references]
  | succ n ih =>
    have hc := copyTable_spec ho hd he hne n
    rw [copyTable, copyEntry_refcount, ih, references_succ]
    -- entry `n` is still what it was
    have hrow := pte_of_hasTable ((hc.same.hasTable d).mpr hd) n
    rw [hc.entries, if_neg (by omega), hc.same.tableFrame] at hrow
    rw [← hrow]
    split <;> omega

theorem copyDir_counts {m : Mm} (ho : TablesOwned m) {n d e : Nat} (hn : IsTopFree m n)
    (hd : HasTable m d) (he : e < 1024) (hne : d ≠ e) :
    (∀ q, (copyDir d e m).refcount (some q) =
        m.refcount (some q) + references m q d 1024 + if q = n then 1 else 0) ∧
      (copyDir d e m).pgDir = m.pgDir ∧ ∀ x, x ≠ e →
        (copyDir d e m).mem m.pgDir x = m.mem m.pgDir x := by
  obtain ⟨-, href, -⟩ := getFreePage_spec hn
  obtain ⟨ha, hnew⟩ := withTable_spec ho hn he
  have hcopy : copyDir d e m = copyTable (m.tableFrame d) (m.getFreePage.1 / 4096) 1024
    (withTable e m) := rfl
  have hcount : (withTable e m).refcount = m.getFreePage.2.refcount := rfl
  have hdir : ∀ x, x ≠ e → (withTable e m).mem m.pgDir x = m.mem m.pgDir x := by
    intro x hx
    rw [withTable, mem_store, if_neg fun h => hx h.2, (sameTables_getFreePage ho hn).1.dir]
  rw [hcopy, ← hnew, ← ha.tableFrame d hne]
  generalize withTable e m = m₁ at ha hcount hdir
  have hd₁ : HasTable m₁ d := (ha.hasTable d).mpr (Or.inr hd)
  have he₁ : HasTable m₁ e := (ha.hasTable e).mpr (Or.inl rfl)
  have hc := copyTable_spec ha.owned hd₁ he₁ hne 1024
  refine ⟨fun q => ?_, hc.same.pgDir.trans ha.pgDir, fun x hx => ?_⟩
  · have hrow : references m₁ q d 1024 = references m q d 1024 :=
      references_congr q fun k _ => by rw [ha.entries, if_neg hne]
    rw [copyTable_refcount ha.owned hd₁ he₁ hne, hrow, hcount, href.refcount]
    by_cases hq : q = n
    · rw [hq, if_pos rfl, Function.update_self]
      omega
    · rw [if_neg hq, Function.update_of_ne (by simpa using hq), add_zero]
  · rw [← ha.pgDir, hc.same.dir, ha.pgDir, hdir x hx]

/-- The counts and the directory after `size` entries have been copied. -/
structure DirsCounted (m : Mm) (a b size : Nat) (m' : Mm) : Prop where
  pgDir : m'.pgDir = m.pgDir
  dir : ∀ x, ¬ (b ≤ x ∧ x < b + size) → m'.mem m.pgDir x = m.mem m.pgDir x
  used : ∀ k, m.bit k = true → m'.bit k = true
  refcount : ∀ q, m'.refcount (some q) = m.refcount (some q) +
    (∑ d ∈ Finset.Ico a (a + size), references m q d 1024 : Nat) +
      if m.bit q = false ∧ m'.bit q = true then 1 else 0

theorem copyDirs_counts {m : Mm} {a b size : Nat} (hs : DirsSupplied a b size m)
    (ho : TablesOwned m) (ha : a + size ≤ 1024) (hb : b + size ≤ 1024)
    (hdis : a + size ≤ b ∨ b + size ≤ a) : DirsCounted m a b size (copyDirs a b size m).2 := by
  induction hs with
  | @done a b m =>
    refine ⟨rfl, fun _ _ => rfl, fun _ hk => hk, fun q => ?_⟩
    rw [copyDirs, if_neg fun h => by simp [h.1] at h]
    simp
  | @skip a b size m hp hs ih =>
    have hno : ¬ HasTable m a := fun h => by simp [h.2] at hp
    have hi := ih ho (by omega) (by omega) (by omega)
    rw [copyDirs, if_pos hp]
    refine ⟨hi.pgDir, fun x hx => hi.dir x (by omega), hi.used, fun q => ?_⟩
    rw [hi.refcount, Finset.sum_eq_sum_Ico_succ_bot (by omega : a < a + (size + 1)),
      references_of_not hno, zero_add, show a + 1 + size = a + (size + 1) by omega]
  | @copy a b size m hp hf hs ih =>
    obtain ⟨n, hn⟩ := hf
    have hta : HasTable m a := ⟨by omega, hp⟩
    have hc := copyDir_spec ho hn hta (show b < 1024 by omega) (show a ≠ b by omega)
    obtain ⟨hcount, hpd, hdir⟩ :=
      copyDir_counts ho hn hta (show b < 1024 by omega) (show a ≠ b by omega)
    rw [copyDirs, if_neg (by simp [hp]), if_neg (getFreePage_ne_zero m)]
    have hi := ih hc.owned (by omega) (by omega) (by omega)
    generalize copyDir a b m = m₁ at hc hcount hpd hdir hi
    generalize (copyDirs (a + 1) (b + 1) size m₁).2 = m' at hi
    refine ⟨hi.pgDir.trans hpd, fun x hx => ?_, fun k hk =>
      hi.used k (by rw [hc.bit, hk, Bool.true_or]), fun q => ?_⟩
    · rw [← hpd, hi.dir x (by omega), hpd, hdir x (by omega)]
    · have hsum : ∑ d ∈ Finset.Ico (a + 1) (a + 1 + size), references m₁ q d 1024 =
          ∑ d ∈ Finset.Ico (a + 1) (a + (size + 1)), references m q d 1024 := by
        rw [show a + 1 + size = a + (size + 1) by omega]
        refine Finset.sum_congr rfl fun d hd => references_congr q fun k hk => ?_
        have := Finset.mem_Ico.mp hd
        rw [hc.entries d k hk, if_neg (by omega), if_neg (by omega)]
      rw [hi.refcount, hcount, hsum, Finset.sum_eq_sum_Ico_succ_bot (by omega : a < a + (size + 1))]
      -- the page is taken now, or later, or not at all
      by_cases hq : q = n
      · have hnow : m₁.bit q = true := by rw [hc.bit, hq, decide_eq_true rfl, Bool.or_true]
        rw [if_pos hq, if_neg (by simp [hnow]), if_pos ⟨hq ▸ hn.free, hi.used q hnow⟩]
        omega
      · have hsame : m₁.bit q = m.bit q := by rw [hc.bit, decide_eq_false hq, Bool.or_false]
        rw [if_neg hq, hsame]
        omega

def freePages (m : Mm) : Finset Nat := (Finset.range mmPages).filter fun n => m.bit n = false

theorem mem_freePages {m : Mm} {n : Nat} : n ∈ freePages m ↔ n < mmPages ∧ m.bit n = false := by
  rw [freePages, Finset.mem_filter, Finset.mem_range]

theorem freePages_taken {m m' : Mm} {n : Nat} (h : ∀ k, m'.bit k = (m.bit k || decide (k = n))) :
    freePages m' = (freePages m).erase n := by
  ext k
  rw [Finset.mem_erase, mem_freePages, mem_freePages, h, Bool.or_eq_false_iff,
    decide_eq_false_iff_not]
  exact ⟨fun hk => ⟨hk.2.2, hk.1, hk.2.1⟩, fun hk => ⟨hk.2.1, hk.2.2, hk.1⟩⟩

theorem dirsSupplied {m : Mm} {a b size : Nat} (ho : TablesOwned m) (ha : a + size ≤ 1024)
    (hb : b + size ≤ 1024) (hdis : a + size ≤ b ∨ b + size ≤ a)
    (hfree : ((Finset.Ico a (a + size)).filter (HasTable m)).card ≤ (freePages m).card) :
    DirsSupplied a b size m := by
  induction size generalizing a b m with
  | zero => exact .done
  | succ size ih =>
    have hsplit : Finset.Ico a (a + (size + 1)) = insert a (Finset.Ico (a + 1) (a + 1 + size)) := by
      ext x
      simp only [Finset.mem_insert, Finset.mem_Ico]
      omega
    have hout : a ∉ (Finset.Ico (a + 1) (a + 1 + size)).filter (HasTable m) := by
      simp
    rw [hsplit, Finset.filter_insert] at hfree
    by_cases hp : isPresent (m.mem m.pgDir a) = true
    · have hta : HasTable m a := ⟨by omega, hp⟩
      rw [if_pos hta, Finset.card_insert_of_notMem hout] at hfree
      have hpos : 0 < (freePages m).card := by omega
      obtain ⟨k, hk⟩ := Finset.card_pos.mp hpos
      obtain ⟨n, hn⟩ := exists_topFree (mem_freePages.mp hk).1 (mem_freePages.mp hk).2
      have hc := copyDir_spec ho hn hta (show b < 1024 by omega) (show a ≠ b by omega)
      refine .copy hp ⟨n, hn⟩ (ih hc.owned (by omega) (by omega) (by omega) ?_)
      have htables : (Finset.Ico (a + 1) (a + 1 + size)).filter (HasTable (copyDir a b m)) =
          (Finset.Ico (a + 1) (a + 1 + size)).filter (HasTable m) := by
        refine Finset.filter_congr fun x hx => ?_
        have := Finset.mem_Ico.mp hx
        rw [hc.hasTable]
        exact or_iff_right (by omega)
      rw [htables, freePages_taken hc.bit, Finset.card_erase_of_mem
        (mem_freePages.mpr ⟨hn.lt, hn.free⟩)]
      omega
    · rw [if_neg fun h => hp h.2] at hfree
      exact .skip (Bool.eq_false_iff.mpr hp) (ih ho (by omega) (by omega) (by omega) hfree)

/-- The physical address behind a linear one. -/
def translate (m : Mm) (addr : Nat) : Option Nat :=
  if isPresent (pte m (pgdirIdx addr) (pageIdx addr)) then
    some (pageFrom (pte m (pgdirIdx addr) (pageIdx addr)) + addr % 4096)
  else none

/-- The directory entries of `size` bytes from `base` on. -/
def dirsOf (base size : Nat) : Finset Nat :=
  Finset.Ico (base / 2 ^ 22) (base / 2 ^ 22 + size / 2 ^ 22)

structure CanShare (m : Mm) (src dst size : Nat) : Prop where
  owned : TablesOwned m
  aligned : src % 2 ^ 22 = 0 ∧ dst % 2 ^ 22 = 0 ∧ size % 2 ^ 22 = 0
  inside : src < 2 ^ 32 ∧ dst < 2 ^ 32 ∧ src + size ≤ 2 ^ 32 ∧ dst + size ≤ 2 ^ 32
  disjoint : src + size ≤ dst ∨ dst + size ≤ src
  absent : ∀ d ∈ dirsOf dst size, isPresent (m.mem m.pgDir d) = false
  supplied : ((dirsOf src size).filter (HasTable m)).card ≤ (freePages m).card

/-- What `copy_page_tables` makes of the state `m`. -/
structure RangesShared (m : Mm) (src dst size : Nat) (m' : Mm) : Prop where
  copied : ∀ off, off < size → translate m' (dst + off) = translate m (src + off)
  kept : ∀ off, off < size → translate m' (src + off) = translate m (src + off)
  unwritable : ∀ d k, d ∈ dirsOf src size ∨ d ∈ dirsOf dst size → k < 1024 →
    isPresent (pte m' d k) = true → lowMem ≤ pageFrom (pte m' d k) → isWritable (pte m' d k) = false
  low : ∀ d k, d ∈ dirsOf src size → k < 1024 → pageFrom (pte m d k) < lowMem →
    isWritable (pte m' d k) = isWritable (pte m d k)
  refcount : ∀ q, m'.refcount (some q) = m.refcount (some q) + (∑ d ∈ dirsOf src size,
    references m q d 1024 : Nat) + if m.bit q = false ∧ m'.bit q = true then 1 else 0
  dir : m'.pgDir = m.pgDir ∧ ∀ d, d ∉ dirsOf dst size → m'.mem m.pgDir d = m.mem m.pgDir d
  tables : ∀ d k, d ∉ dirsOf src size → d ∉ dirsOf dst size → k < 1024 → pte m' d k = pte m d k

theorem translate_congr {m m' : Mm} {x y : Nat} (hoff : x % 4096 = y % 4096)
    (hp : isPresent (pte m' (pgdirIdx x) (pageIdx x)) = isPresent (pte m (pgdirIdx y) (pageIdx y)))
    (hf : isPresent (pte m (pgdirIdx y) (pageIdx y)) = true →
      pageFrom (pte m' (pgdirIdx x) (pageIdx x)) = pageFrom (pte m (pgdirIdx y) (pageIdx y))) :
    translate m' x = translate m y := by
  unfold translate
  rw [hp, hoff]
  split
  next h => rw [hf h]
  next => rfl

theorem isWritable_shared_low {w : BitVec 32} (h : pageFrom w < lowMem) :
    isWritable (shared w) = isWritable w := by
  rw [shared_low (Nat.not_le.mpr h)]

theorem isWritable_shared_high {w : BitVec 32} (hp : isPresent w = true) (h : lowMem ≤ pageFrom w) :
    isWritable (shared w) = false := by
  rw [shared_high hp h, isWritable_protect]

section

variable {m : Mm} {a b n : Nat}

theorem dirsOf_mul (x n : Nat) : dirsOf (x * 2 ^ 22) (n * 2 ^ 22) = Finset.Ico x (x + n) := by
  rw [dirsOf, Nat.mul_div_cancel _ (Nat.two_pow_pos 22), Nat.mul_div_cancel _ (Nat.two_pow_pos 22)]

theorem copyPageTables_mul (ha : a < 1024) (hb : b < 1024) (n : Nat) (m : Mm) :
    copyPageTables (a * 2 ^ 22) (b * 2 ^ 22) (n * 2 ^ 22) m = copyDirs a b n m := by
  have hdir : ∀ {x : Nat}, x < 1024 → x * 2 ^ 22 / 2 ^ 22 % 1024 = x := fun hx => by omega
  have hsize : ∀ n : Nat, (n * 2 ^ 22 + 0x3FFFFF) / 2 ^ 22 = n := fun n => by omega
  rw [copyPageTables, hdir ha, hdir hb, hsize]

theorem address_split {x off n : Nat} (hx : x + n ≤ 1024) (hoff : off < n * 2 ^ 22) :
    pgdirIdx (x * 2 ^ 22 + off) = x + off / 2 ^ 22 ∧
      pageIdx (x * 2 ^ 22 + off) = off / 4096 % 1024 ∧ (x * 2 ^ 22 + off) % 4096 = off % 4096 := by
  refine ⟨?_, ?_, ?_⟩
  · rw [pgdirIdx]
    omega
  · rw [pageIdx]
    omega
  · omega

variable (hc : DirsCopied m a b n (copyDirs a b n m).2) (hdis : a + n ≤ b ∨ b + n ≤ a)
include hc hdis

/-- Every table of the destination range, also one that is missing, is a copy. -/
theorem pte_copied (habs : ∀ d, b ≤ d → d < b + n → isPresent (m.mem m.pgDir d) = false) {d k : Nat}
    (hd : b ≤ d ∧ d < b + n) (hk : k < 1024) :
    pte (copyDirs a b n m).2 d k = copied (pte m (a + (d - b)) k) := by
  rw [hc.entries d k hk]
  by_cases ht : HasTable m (a + (d - b))
  · rw [if_pos ⟨hd, ht⟩]
  · have hno : ¬ HasTable m d := fun h => Bool.false_ne_true ((habs d hd.1 hd.2).symm.trans h.2)
    rw [if_neg fun h => ht h.2, if_neg (by omega), pte_of_not hno, pte_of_not ht]
    decide

theorem pte_shared {d k : Nat} (hd : a ≤ d ∧ d < a + n) (hk : k < 1024) :
    pte (copyDirs a b n m).2 d k = shared (pte m d k) := by
  rw [hc.entries d k hk, if_neg fun h => by omega, if_pos hd]

end

theorem copyPageTables_shares {m : Mm} {src dst size : Nat} (h : CanShare m src dst size) :
    (copyPageTables src dst size m).1 = 0 ∧ RangesShared m src dst size
      (copyPageTables src dst size m).2 := by
  obtain ⟨hsrc, hdst, hsize⟩ := h.aligned
  obtain ⟨hsrcLt, hdstLt, hsrcEnd, hdstEnd⟩ := h.inside
  have hdisjoint := h.disjoint
  have habs := h.absent
  have hfree := h.supplied
  obtain ⟨a, rfl⟩ : ∃ a, src = a * 2 ^ 22 := ⟨src / 2 ^ 22, by omega⟩
  obtain ⟨b, rfl⟩ : ∃ b, dst = b * 2 ^ 22 := ⟨dst / 2 ^ 22, by omega⟩
  obtain ⟨n, rfl⟩ : ∃ n, size = n * 2 ^ 22 := ⟨size / 2 ^ 22, by omega⟩
  have ha : a + n ≤ 1024 := by omega
  have hb : b + n ≤ 1024 := by omega
  have hdis : a + n ≤ b ∨ b + n ≤ a := by omega
  simp only [dirsOf_mul, Finset.mem_Ico] at habs hfree
  have hs := dirsSupplied h.owned ha hb hdis hfree
  have hcopy := copyDirs_spec hs h.owned ha hb hdis
  have hcount := copyDirs_counts hs h.owned ha hb hdis
  have hto : ∀ {d k : Nat}, b ≤ d ∧ d < b + n → k < 1024 → _ :=
    pte_copied hcopy hdis fun d h₁ h₂ => habs d ⟨h₁, h₂⟩
  have hof : ∀ {d k : Nat}, a ≤ d ∧ d < a + n → k < 1024 → _ := pte_shared hcopy hdis
  rw [copyPageTables_mul (by omega) (by omega)]
  refine ⟨copyDirs_fst _ _ _ _, fun off hoff => ?_, fun off hoff => ?_, fun d k hd hk hp hl => ?_,
    fun d k hd hk hl => ?_, fun q => ?_, ⟨hcount.pgDir, fun d hd => ?_⟩, fun d k hds hdd hk => ?_⟩
  · obtain ⟨hda, hka, hma⟩ := address_split ha hoff
    obtain ⟨hdb, hkb, hmb⟩ := address_split hb hoff
    have hentry :=
      hto (d := b + off / 2 ^ 22) (k := off / 4096 % 1024) (by omega) (Nat.mod_lt _ (by decide))
    rw [Nat.add_sub_cancel_left] at hentry
    refine translate_congr (hmb.trans hma.symm) ?_ fun hp => ?_
    · rw [hda, hka, hdb, hkb, hentry, isPresent_copied]
    · rw [hda, hka] at hp ⊢
      rw [hdb, hkb, hentry, pageFrom_copied hp]
  · obtain ⟨hda, hka, -⟩ := address_split ha hoff
    have hentry :=
      hof (d := a + off / 2 ^ 22) (k := off / 4096 % 1024) (by omega) (Nat.mod_lt _ (by decide))
    refine translate_congr rfl ?_ fun _ => ?_
    · rw [hda, hka, hentry, isPresent_shared]
    · rw [hda, hka, hentry, pageFrom_shared]
  · simp only [dirsOf_mul, Finset.mem_Ico] at hd
    rcases hd with hd | hd
    · rw [hof hd hk] at hp hl ⊢
      rw [isPresent_shared] at hp
      rw [pageFrom_shared] at hl
      exact isWritable_shared_high hp hl
    · rw [hto hd hk, isWritable_copied]
  · rw [dirsOf_mul, Finset.mem_Ico] at hd
    rw [hof hd hk, isWritable_shared_low hl]
  · rw [dirsOf_mul]
    exact hcount.refcount q
  · rw [dirsOf_mul, Finset.mem_Ico] at hd
    exact hcount.dir d hd
  · rw [dirsOf_mul, Finset.mem_Ico] at hds hdd
    rw [hcopy.entries d k hk, if_neg fun h => hdd h.1, if_neg hds]

def oneEntry : Mm where
  memMap pos := if pos = 1 then 0x7000#32 else 0
  refcount p := if p = some 44 ∨ p = some 45 ∨ p = some 46 then 1 else 0
  mem f j :=
    if f = 300 ∧ j = 0 then userEntry (301 * 4096)
    else if f = 301 ∧ j = 0 then userEntry (302 * 4096)
    else 0
  highMemory := 0x4000000
  pgDir := 300

theorem hasTable_oneEntry (d : Nat) : HasTable oneEntry d ↔ d = 0 := by
  constructor
  · rintro ⟨-, hp⟩
    by_contra hd
    have hzero : oneEntry.mem oneEntry.pgDir d = 0 := by simp [oneEntry, hd]
    rw [hzero] at hp
    exact absurd hp (by decide)
  · rintro rfl
    exact ⟨by decide, by decide⟩

theorem canShare_oneEntry : CanShare oneEntry 0 0x400000 0x400000 where
  owned := by
    refine ⟨⟨by decide, by decide⟩, fun d hd => ?_, fun d e hd he _ => ?_⟩
    · obtain rfl := (hasTable_oneEntry d).mp hd
      exact ⟨⟨by decide, by decide⟩, by decide⟩
    · rw [(hasTable_oneEntry d).mp hd, (hasTable_oneEntry e).mp he]
  aligned := by decide
  inside := by decide
  disjoint := by decide
  absent d hd := by
    have hd : d = 1 := by
      have := Finset.mem_Ico.mp hd
      omega
    subst hd
    decide
  supplied := by
    have hone : ((dirsOf 0 0x400000).filter (HasTable oneEntry)).card ≤ (dirsOf 0 0x400000).card :=
      Finset.card_filter_le _ _
    have hfree : 0 ∈ freePages oneEntry := mem_freePages.mpr ⟨by decide, by decide⟩
    exact hone.trans (Finset.card_pos.mpr ⟨0, hfree⟩)

theorem copyPageTables_shares_oneEntry : (copyPageTables 0 0x400000 0x400000 oneEntry).1 = 0 ∧
    RangesShared oneEntry 0 0x400000 0x400000 (copyPageTables 0 0x400000 0x400000 oneEntry).2 :=
  copyPageTables_shares canShare_oneEntry

end Gpos.Mm
