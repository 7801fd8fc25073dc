import Gpos.PageEntry

/-! The page tables and the bitmap that `setup_paging` and `mm_init` leave. -/

namespace Gpos.Mm

def InWords (edi n f j : Nat) : Prop := edi ≤ 4096 * f + 4 * j ∧ 4096 * f + 4 * j < edi + 4 * n

instance (edi n f j : Nat) : Decidable (InWords edi n f j) := inferInstanceAs (Decidable (_ ∧ _))

theorem storeWords_mem (edi : Nat) (w : Nat → BitVec 32) (n : Nat) (m : Mm) (hedi : edi % 4 = 0)
    {f j : Nat} (hj : j < 1024) : (m.storeWords edi w n).mem f j =
      if InWords edi n f j then w ((4096 * f + 4 * j - edi) / 4) else m.mem f j := by
  induction n with
  | zero => rw [storeWords, if_neg (by unfold InWords; omega)]
  | succ n ih =>
    have hstore : (m.storeWords edi w (n + 1)).mem f j =
        if f = (edi + 4 * n) / 4096 ∧ j = (edi + 4 * n) % 4096 / 4 then w n
        else (m.storeWords edi w n).mem f j := by
      simp only [storeWords, store, Function.update_apply]
      by_cases hf : f = (edi + 4 * n) / 4096
      · subst hf
        by_cases hj : j = (edi + 4 * n) % 4096 / 4 <;> simp [hj]
      · simp [hf]
    rw [hstore, ih]
    by_cases hlast : f = (edi + 4 * n) / 4096 ∧ j = (edi + 4 * n) % 4096 / 4
    · rw [if_pos hlast, if_pos (by unfold InWords; omega)]
      congr 1
      omega
    · rw [if_neg hlast]
      by_cases hin : InWords edi n f j
      · rw [if_pos hin, if_pos (by unfold InWords at *; omega)]
      · rw [if_neg hin, if_neg (by unfold InWords at *; omega)]

theorem storeWords_rest (edi : Nat) (w : Nat → BitVec 32) (n : Nat) (m : Mm) :
    (m.storeWords edi w n).memMap = m.memMap ∧ (m.storeWords edi w n).refcount = m.refcount ∧
      (m.storeWords edi w n).pgDir = m.pgDir := by
  induction n with
  | zero => exact ⟨rfl, rfl, rfl⟩
  | succ n ih => exact ih

def bootTables (kb : Nat) : Nat := pagingFrames kb - 1

theorem pagingFrames_eq (kb : Nat) : pagingFrames kb = bootTables kb + 1 := by
  rw [bootTables, pagingFrames]
  rfl

/-- What `setup_paging` leaves in the directory in frame `pd` and in the tables behind it. -/
structure BootPaging (kb pd : Nat) (mem : Nat → Nat → BitVec 32) : Prop where
  dir : ∀ j, j < 1024 → mem pd j = if j < bootTables kb then BitVec.ofNat 32
    (4096 * (pd + 1 + j) + 7) else 0
  table : ∀ i j, i < bootTables kb → j < 1024 →
    mem (pd + 1 + i) j = BitVec.ofNat 32 (4096 * (1024 * i + j) + 7)

theorem setupPaging_spec (kb pd : Nat) (m : Mm) (hkb : bootTables kb ≤ 1024) :
    BootPaging kb pd (m.setupPaging kb (4096 * pd)).mem ∧
      (m.setupPaging kb (4096 * pd)).pgDir = pd ∧
        (m.setupPaging kb (4096 * pd)).memMap = m.memMap := by
  have hf := pagingFrames_eq kb
  have hmem : ∀ f j, j < 1024 → (m.setupPaging kb (4096 * pd)).mem f j =
      if InWords (4096 * pd + 4096) (bootTables kb * 1024) f j then
        BitVec.ofNat 32 (7 + 4096 * ((4096 * f + 4 * j - (4096 * pd + 4096)) / 4))
      else if InWords (4096 * pd) (bootTables kb) f j then
        BitVec.ofNat 32 (4096 * pd + 7 + 4096 * ((4096 * f + 4 * j - 4096 * pd) / 4 + 1))
      else if InWords (4096 * pd) ((bootTables kb + 1) * 1024) f j then 0 else m.mem f j := by
    intro f j hj
    rw [setupPaging]
    simp only [hf, Nat.add_sub_cancel]
    rw [storeWords_mem _ _ _ _ (by omega) hj, storeWords_mem _ _ _ _ (by omega) hj,
      storeWords_mem _ _ _ _ (by omega) hj]
  refine ⟨⟨fun j hj => ?_, fun i j hi hj => ?_⟩, ?_, ?_⟩
  · rw [hmem pd j hj, if_neg (by unfold InWords; omega)]
    by_cases hlt : j < bootTables kb
    · rw [if_pos (by unfold InWords; omega), if_pos hlt]
      congr 1
      omega
    · rw [if_neg (by unfold InWords; omega), if_pos (by unfold InWords; omega), if_neg hlt]
  · rw [hmem (pd + 1 + i) j hj, if_pos (by unfold InWords; omega)]
    congr 1
    omega
  · rw [setupPaging]
    simp only [(storeWords_rest _ _ _ _).2.2]
    omega
  · rw [setupPaging]
    simp only [(storeWords_rest _ _ _ _).1]

/-- The pages from number `k` on that begin below `memoryEnd`. -/
def FreeAtBoot (memoryEnd k n : Nat) : Prop := k ≤ n ∧ pageAddr n < memoryEnd

instance (memoryEnd k n : Nat) : Decidable (FreeAtBoot memoryEnd k n) :=
  inferInstanceAs (Decidable (_ ∧ _))

theorem markFree_spec (memoryEnd k : Nat) (m : Mm) (hend : memoryEnd ≤ pageAddr mmPages)
    (hused : ∀ n, k ≤ n → n < mmPages → m.refcount (some n) = 1) :
    ∃ m', markFree memoryEnd (pageAddr k) m = some m' ∧
      (∀ n, m'.bit n = (m.bit n && !decide (FreeAtBoot memoryEnd k n))) ∧
      (∀ n, m'.refcount (some n) = if FreeAtBoot memoryEnd k n then 0 else m.refcount (some n)) ∧
      m'.mem = m.mem ∧ m'.highMemory = m.highMemory ∧ m'.pgDir = m.pgDir := by
  induction hd : memoryEnd - pageAddr k using Nat.strong_induction_on generalizing k m with
  | _ d ih =>
    rw [markFree]
    by_cases hlt : pageAddr k < memoryEnd
    · have hk : k < mmPages := by
        simp only [pageAddr] at hlt hend
        omega
      have hnr := pageNr_pageAddr k
      obtain ⟨m₁, hm₁⟩ := @clearMemMap_some m (pageAddr k) (hnr.symm ▸ hk)
        (by rw [hnr, hused k (Nat.le_refl k) hk]; decide)
      obtain ⟨-, hr, hb, hmem, hhigh, hpd⟩ := clearMemMap_eq (hnr.symm ▸ hk) hm₁
      rw [hnr, hused k (Nat.le_refl k) hk] at hr hb
      have hnext : pageAddr (k + 1) = pageAddr k + 4096 := by
        simp only [pageAddr]
        omega
      obtain ⟨m', hm', hb', hr', hmem', hhigh', hpd'⟩ :=
        ih (memoryEnd - pageAddr (k + 1)) (by omega) (k + 1) m₁
        (fun n hn hlt =>
          by rw [hr, Function.update_of_ne (by simp; omega)]; exact hused n (by omega) hlt) rfl
      refine ⟨m', ?_, fun n => ?_, fun n => ?_, hmem'.trans hmem,
        hhigh'.trans hhigh, hpd'.trans hpd⟩
      · rw [dif_pos hlt, hm₁, Option.bind_some, ← hnext, hm']
      · rw [hb', hb]
        by_cases e : n = k
        · subst e
          simp [FreeAtBoot, hlt]
        · have hiff : FreeAtBoot memoryEnd (k + 1) n ↔ FreeAtBoot memoryEnd k n := by
            unfold FreeAtBoot
            omega
          simp [e, hiff]
      · rw [hr', hr]
        by_cases e : n = k
        · subst e
          simp [FreeAtBoot, hlt]
        · have hiff : FreeAtBoot memoryEnd (k + 1) n ↔ FreeAtBoot memoryEnd k n := by
            unfold FreeAtBoot
            omega
          rw [Function.update_of_ne (by simpa using e)]
          simp only [hiff]
    · have hnone : ∀ n, ¬ FreeAtBoot memoryEnd k n := by
        rintro n ⟨hkn, hn⟩
        simp only [pageAddr] at hlt hn
        omega
      exact ⟨m, by rw [dif_neg hlt], fun n => by simp [hnone n],
        fun n => by rw [if_neg (hnone n)], rfl, rfl, rfl⟩

/-- A kernel that ends in frame `pd`, not below 8 MB, in a memory of at most
64 MB with room for its page tables. -/
structure Installed (kb pd : Nat) : Prop where
  kernel : 2048 ≤ pd
  room : mainMemoryStart kb (4096 * pd) ≤ memoryEnd kb
  size : memoryEnd kb ≤ 0x4000000

def firstFree (kb pd : Nat) : Nat := pd + pagingFrames kb - 256

theorem Installed.tables_le {kb pd : Nat} (h : Installed kb pd) : bootTables kb ≤ 16 := by
  have hsize := h.size
  rw [memoryEnd] at hsize
  rw [bootTables, pagingFrames]
  split <;> omega

theorem mainMemoryStart_eq (kb : Nat) {pd : Nat} (h : 2048 ≤ pd) :
    mainMemoryStart kb (4096 * pd) = pageAddr (firstFree kb pd) := by
  have hfirst : firstFree kb pd = pd + pagingFrames kb - 256 := rfl
  rw [hfirst, mainMemoryStart, pageAddr, lowMem]
  omega

structure Booted (kb pd : Nat) (m : Mm) : Prop where
  paging : BootPaging kb pd m.mem
  pgDir : m.pgDir = pd
  highMemory : m.highMemory = memoryEnd kb
  bit : ∀ n, n < mmPages → m.bit n = !decide (FreeAtBoot (memoryEnd kb) (firstFree kb pd) n)
  refcount : ∀ n, n < mmPages →
    m.refcount (some n) = if FreeAtBoot (memoryEnd kb) (firstFree kb pd) n then 0 else 1

theorem boot_spec {kb pd : Nat} (h : Installed kb pd) (m : Mm) :
    ∃ m', boot kb (4096 * pd) m = some m' ∧ Booted kb pd m' := by
  obtain ⟨hp, hpd, hmap⟩ := setupPaging_spec kb pd m (h.tables_le.trans (by decide))
  have hsize := h.size
  rw [boot, mmInit, mainMemoryStart_eq kb h.kernel]
  generalize m.setupPaging kb (4096 * pd) = m₁ at hp hpd
  refine Exists.imp (fun m' hm' => ⟨hm'.1, ?_⟩) (markFree_spec (memoryEnd kb) (firstFree kb pd) _
    (hsize.trans (by simp only [pageAddr, mmPages, lowMem]; omega)) fun n _ hn => if_pos hn)
  obtain ⟨-, hbit, href, hmem, hhigh, hpd'⟩ := hm'
  have hk := h.kernel
  have hframe : ∀ f j, 2048 ≤ f → m'.mem f j = m₁.mem f j := by
    intro f j hf
    rw [hmem]
    simp only [if_neg (show ¬ (256 ≤ f ∧ f < 2048) by omega)]
  refine ⟨⟨fun j hj => ?_, fun i j hi hj => ?_⟩, hpd'.trans hpd, hhigh,
    fun n hn => ?_, fun n hn => ?_⟩
  · rw [hframe pd j hk]
    exact hp.dir j hj
  · rw [hframe _ j (by omega)]
    exact hp.table i j hi hj
  · rw [hbit, bit]
    simp only [if_pos (show n / 32 < mmBitmaps by simp only [mmPages, mmBitmaps] at *; omega)]
    rw [allOnes_bit _ (Nat.mod_lt _ (by decide)), Bool.true_and]
  · rw [href]
    simp only [if_pos hn]

/-- The linear address `addr` is mapped to itself. -/
def IdentityMapped (m : Mm) (addr : Nat) : Prop :=
  isPresent (m.pde addr) = true ∧
    isPresent (m.mem (pageFrom (m.pde addr) / 4096) (pageIdx addr)) = true ∧
      pageFrom (m.mem (pageFrom (m.pde addr) / 4096) (pageIdx addr)) = addr / 4096 * 4096

theorem isPresent_ofNat (x : Nat) : isPresent (BitVec.ofNat 32 (4096 * x + 7)) = true := by
  rw [isPresent, BitVec.getLsbD_ofNat]
  simp [Nat.testBit_zero]
  omega

theorem pageFrom_ofNat {x : Nat} (h : x < 2 ^ 20) :
    pageFrom (BitVec.ofNat 32 (4096 * x + 7)) = 4096 * x := by
  rw [pageFrom_eq, BitVec.toNat_ofNat, Nat.mod_eq_of_lt (by omega)]
  omega

/-- The identity mapping is as large as the tables are. -/
theorem Booted.identityMapped_iff {kb pd : Nat} (h : Installed kb pd) {m : Mm} (hb : Booted kb pd m)
    {addr : Nat} (ha : addr < 0x4000000) :
    IdentityMapped m addr ↔ addr < bootTables kb * 0x400000 := by
  have hidx : pgdirIdx addr = addr / 0x400000 := by
    rw [pgdirIdx]
    omega
  have hle := h.tables_le
  have hsize := h.size
  have hroom := h.room
  have hdir := hb.paging.dir (addr / 0x400000) (by omega)
  rw [← hb.pgDir, ← hidx] at hdir
  have hpde : m.pde addr = _ := hdir
  rw [hb.pgDir] at hpde
  by_cases hlt : addr / 0x400000 < bootTables kb
  · rw [hidx, if_pos hlt] at hpde
    have hpf : pageFrom (m.pde addr) / 4096 = pd + 1 + addr / 0x400000 := by
      rw [hpde, pageFrom_ofNat (by rw [mainMemoryStart, pagingFrames_eq] at hroom; omega)]
      omega
    have hpte := hb.paging.table (addr / 0x400000) (pageIdx addr) hlt (by rw [pageIdx]; omega)
    refine iff_of_true ⟨?_, ?_, ?_⟩ (by omega)
    · rw [hpde, isPresent_ofNat]
    · rw [hpf, hpte, isPresent_ofNat]
    · rw [hpf, hpte, pageFrom_ofNat (by rw [pageIdx]; omega), pageIdx]
      omega
  · refine iff_of_false ?_ (by omega)
    rintro ⟨hpr, -⟩
    rw [hpde, hidx, if_neg hlt] at hpr
    exact absurd hpr (by decide)

/-- Every page that `get_free_page` may hand out is mapped where it is. -/
def Covered (m : Mm) : Prop := ∀ n, n < mmPages → m.bit n = false → IdentityMapped m (pageAddr n)

/-- The memory size in MB, rounded up. -/
def megabytes (kb : Nat) : Nat := (kb + 1023) / 1024

theorem bootTables_eq (kb : Nat) : bootTables kb = megabytes kb / 4 := by
  rw [bootTables, pagingFrames, megabytes]
  split <;> omega

theorem Booted.covered_iff {kb pd : Nat} (h : Installed kb pd) {m : Mm} (hb : Booted kb pd m) :
    Covered m ↔ megabytes kb % 4 = 0 ∨ mainMemoryStart kb (4096 * pd) = memoryEnd kb := by
  have hsize := h.size
  have hroom := h.room
  have hstart := mainMemoryStart_eq kb h.kernel
  have hend : memoryEnd kb = kb * 1024 := rfl
  have htab := bootTables_eq kb
  have hmb : megabytes kb = (kb + 1023) / 1024 := rfl
  have hfree : ∀ n, n < mmPages → (m.bit n = false ↔
    FreeAtBoot (memoryEnd kb) (firstFree kb pd) n) := by
    intro n hn
    rw [hb.bit n hn]
    simp
  constructor
  · intro hc
    by_contra hno
    push Not at hno
    -- the first free page above the identity mapping
    obtain ⟨n, hn, hk⟩ : ∃ n, (bootTables kb * 0x400000 ≤ pageAddr n ∧ pageAddr n < memoryEnd kb) ∧
        firstFree kb pd ≤ n := by
      refine ⟨max (firstFree kb pd) (bootTables kb * 1024 - 256), ?_, le_max_left _ _⟩
      have h1 : pageAddr (firstFree kb pd) < memoryEnd kb := by
        rw [← hstart]
        omega
      simp only [pageAddr, lowMem] at h1 ⊢
      rcases le_total (firstFree kb pd) (bootTables kb * 1024 - 256) with hle | hle
      · rw [max_eq_right hle]
        omega
      · rw [max_eq_left hle]
        omega
    have hlt : n < mmPages := by
      simp only [pageAddr, lowMem, mmPages] at *
      omega
    have hmap := (hb.identityMapped_iff h (by omega)).mp (hc n hlt ((hfree n hlt).mpr ⟨hk, hn.2⟩))
    omega
  · rintro hor n hn hbit
    have hf := (hfree n hn).mp hbit
    refine (hb.identityMapped_iff h (by have := hf.2; omega)).mpr ?_
    have hlt := hf.2
    rcases hor with h4 | he
    · omega
    · have hle : pageAddr (firstFree kb pd) ≤ pageAddr n := by
        have := hf.1
        simp only [pageAddr]
        omega
      omega

/-- The identity mapping covers all free pages exactly when the size in MB is a
multiple of 4, or when there is no free page at all. -/
theorem boot_covered {kb pd : Nat} (h : Installed kb pd) (m : Mm) :
    ∃ m', boot kb (4096 * pd) m = some m' ∧
      (Covered m' ↔ megabytes kb % 4 = 0 ∨ mainMemoryStart kb (4096 * pd) = memoryEnd kb) := by
  obtain ⟨m', he, hb⟩ := boot_spec h m
  exact ⟨m', he, hb.covered_iff h⟩

def blank : Mm where
  memMap _ := 0
  refcount _ := 0
  mem _ _ := 0
  highMemory := 0
  pgDir := 0

theorem installed_33MB : Installed 33792 2064 := ⟨by decide, by decide, by decide⟩

theorem boot_covered_16MB :
    ∃ m', boot 16384 (4096 * 2064) blank = some m' ∧
      (Covered m' ↔ megabytes 16384 % 4 = 0 ∨ mainMemoryStart 16384 (4096 * 2064) =
        memoryEnd 16384) :=
  boot_covered ⟨by decide, by decide, by decide⟩ blank

/-- With 33 MB the last megabyte is free but not mapped. -/
theorem uncovered_33MB : ∃ m', boot 33792 (4096 * 2064) blank = some m' ∧ ¬ Covered m' := by
  obtain ⟨m', he, hb⟩ := boot_spec installed_33MB blank
  exact ⟨m', he, fun hc => absurd ((hb.covered_iff installed_33MB).mp hc) (by decide)⟩

end Gpos.Mm
