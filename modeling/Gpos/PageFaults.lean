import Gpos.BootMemory
import Gpos.PageSharing

/-! Forks and page faults after the boot. The boot maps the free pages into the
window of task 0, and a fork maps them once more and counts them. -/

namespace Gpos.Mm

theorem Booted.tablesOwned {kb pd : Nat} (h : Installed kb pd) {m : Mm} (hb : Booted kb pd m) :
    TablesOwned m := by
  have hle := h.tables_le
  have hk := h.kernel
  have hroom := h.room
  have hsize := h.size
  rw [mainMemoryStart, pagingFrames_eq] at hroom
  have hused : ∀ f, pd ≤ f → f ≤ pd + bootTables kb → FrameUsed m f := by
    intro f hf hf'
    refine ⟨by omega, ?_⟩
    rw [hb.bit _ (by simp only [mmPages]; omega)]
    have hfirst : firstFree kb pd = pd + pagingFrames kb - 256 := rfl
    rw [pagingFrames_eq] at hfirst
    have hno : ¬ FreeAtBoot (memoryEnd kb) (firstFree kb pd) (f - 256) := fun hff => by
      have := hff.1
      omega
    simp [hno]
  have htable : ∀ d, HasTable m d → d < bootTables kb := by
    rintro d ⟨hd, hp⟩
    rw [hb.pgDir, hb.paging.dir d hd] at hp
    by_contra hno
    rw [if_neg hno] at hp
    exact absurd hp (by decide)
  have hframe : ∀ d, HasTable m d → tableFrame m d = pd + 1 + d := by
    intro d hd
    rw [tableFrame, hb.pgDir, hb.paging.dir d hd.1, if_pos (htable d hd),
      pageFrom_ofNat (by have := htable d hd; omega)]
    omega
  refine ⟨?_, fun d hd => ?_, fun d e hd he heq => ?_⟩
  · rw [hb.pgDir]
    exact hused pd (Nat.le_refl _) (Nat.le_add_right _ _)
  · have := htable d hd
    rw [hframe d hd, hb.pgDir]
    exact ⟨hused _ (by omega) (by omega), by omega⟩
  · rw [hframe d hd, hframe e he] at heq
    omega

theorem Booted.pte {kb pd : Nat} (h : Installed kb pd) {m : Mm} (hb : Booted kb pd m) {d j : Nat}
    (hj : j < 1024) :
    m.pte d j = if d < bootTables kb then BitVec.ofNat 32 (4096 * (1024 * d + j) + 7) else 0 := by
  have hle := h.tables_le
  have hroom := h.room
  have hsize := h.size
  rw [mainMemoryStart, pagingFrames_eq] at hroom
  by_cases hd : d < bootTables kb
  · have hdir := hb.paging.dir d (by omega)
    rw [if_pos hd] at hdir
    have hta : HasTable m d := ⟨by omega, by rw [hb.pgDir, hdir, isPresent_ofNat]⟩
    have hframe : m.tableFrame d = pd + 1 + d := by
      rw [tableFrame, hb.pgDir, hdir, pageFrom_ofNat (by omega)]
      omega
    rw [if_pos hd, pte_of_hasTable hta, hframe, hb.paging.table d j hd hj]
  · rw [if_neg hd]
    refine pte_of_not (fun hta => ?_) j
    have hp := hta.2
    rw [hb.pgDir, hb.paging.dir d hta.1, if_neg hd] at hp
    exact absurd hp (by decide)

/-- The pages from `n` to `n + s` are free. -/
def Spare (m : Mm) (n s : Nat) : Prop := n + s < mmPages ∧ ∀ i, i ≤ s → m.bit (n + i) = false

theorem Spare.mono {m : Mm} {n s t : Nat} (h : Spare m n s) (hts : t ≤ s) : Spare m n t :=
  ⟨lt_of_le_of_lt (Nat.add_le_add_left hts n) h.1, fun i hi => h.2 i (hi.trans hts)⟩

theorem Spare.topFree {m : Mm} {n s : Nat} (h : Spare m n s) : ∃ k, IsTopFree m k ∧ n + s ≤ k := by
  obtain ⟨k, hk⟩ := exists_topFree h.1 (h.2 s (Nat.le_refl s))
  refine ⟨k, hk, Nat.not_lt.mp fun hlt => ?_⟩
  have := hk.above (n + s) hlt h.1
  rw [h.2 s (Nat.le_refl s)] at this
  cases this

theorem Spare.used {m m' : Mm} {n s k : Nat} (h : Spare m n (s + 1)) (hk : n + (s + 1) ≤ k)
    (hb : ∀ i, m'.bit i = (m.bit i || decide (i = k))) : Spare m' n s := by
  refine ⟨lt_of_le_of_lt (by omega) h.1, fun i hi => ?_⟩
  rw [hb, h.2 i (by omega), decide_eq_false (by omega), Bool.or_false]

/-- With one spare page for each directory entry a fork finds all its pages,
and leaves the others free. -/
theorem Spare.copyDirs {m : Mm} {n a b size t : Nat} (h : Spare m n (size + t)) (ho : TablesOwned m)
    (ha : a + size ≤ 1024) (hb : b + size ≤ 1024) (hdis : a + size ≤ b ∨ b + size ≤ a) :
    DirsSupplied a b size m ∧ Spare (copyDirs a b size m).2 n t := by
  induction size generalizing a b m with
  | zero => exact ⟨.done, by simpa [Mm.copyDirs] using h⟩
  | succ size ih =>
    by_cases hp : isPresent (m.mem m.pgDir a) = true
    · obtain ⟨k, hk, hle⟩ := h.topFree
      have hc := copyDir_spec ho hk ⟨by omega, hp⟩ (show b < 1024 by omega) (show a ≠ b by omega)
      rw [show size + 1 + t = size + t + 1 by omega] at h hle
      obtain ⟨hs, hr⟩ :=
        ih (a := a + 1) (b := b + 1) (h.used hle hc.bit) hc.owned (by omega) (by omega) (by omega)
      refine ⟨.copy hp ⟨k, hk⟩ hs, ?_⟩
      rw [Mm.copyDirs, if_neg (by simp [hp]), if_neg (getFreePage_ne_zero m)]
      exact hr
    · rw [Bool.not_eq_true] at hp
      obtain ⟨hs, hr⟩ :=
        ih (a := a + 1) (b := b + 1) (h.mono (by omega)) ho (by omega) (by omega) (by omega)
      refine ⟨.skip hp hs, ?_⟩
      rw [Mm.copyDirs, if_pos hp]
      exact hr

theorem pgdirIdx_window {w : Nat} (hw : w < 64) : pgdirIdx (window w) = 16 * w := by
  rw [pgdirIdx, window]
  omega

theorem copyMem_eq {src nr : Nat} (hs : src < 64) (hn : nr < 64) (m : Mm) :
    m.copyMem src nr = copyDirs (16 * src) (16 * nr) 16 m := by
  have h1 : window src / 2 ^ 22 % 1024 = 16 * src := pgdirIdx_window hs
  have h2 : window nr / 2 ^ 22 % 1024 = 16 * nr := pgdirIdx_window hn
  have h3 : (0x4000000 + 0x3FFFFF) / 2 ^ 22 = 16 := by decide
  rw [copyMem, copyPageTables, h1, h2, h3]

theorem lt_mmPages {n : Nat} (h : pageAddr n < 0x4000000) : n < mmPages := by
  simp only [pageAddr, lowMem, mmPages] at *
  omega

theorem pageAddr_mono {n k : Nat} (h : n ≤ k) : pageAddr n ≤ pageAddr k :=
  Nat.add_le_add_right (Nat.mul_le_mul_right 4096 h) lowMem

/-- The first fork counts a free page that the boot has mapped into window 0. -/
theorem Booted.fork {kb pd : Nat} (h : Installed kb pd) {m : Mm} (hb : Booted kb pd m) {t : Nat}
    (hroom : pageAddr (firstFree kb pd + (16 + t)) < memoryEnd kb) :
    DirsSupplied 0 16 16 m ∧ DirsCopied m 0 16 16 (m.copyMem 0 1).2 ∧
      Spare (m.copyMem 0 1).2 (firstFree kb pd) t := by
  have hsize := h.size
  have hspare : Spare m (firstFree kb pd) (16 + t) := by
    refine ⟨lt_mmPages (hroom.trans_le hsize), fun i hi => ?_⟩
    have hlt : pageAddr (firstFree kb pd + i) < memoryEnd kb :=
      lt_of_le_of_lt (pageAddr_mono (Nat.add_le_add_left hi _)) hroom
    rw [hb.bit _ (lt_mmPages (hlt.trans_le hsize)), Bool.not_eq_false', decide_eq_true_eq]
    exact ⟨Nat.le_add_right _ _, hlt⟩
  have ho := hb.tablesOwned h
  rw [copyMem_eq (by decide) (by decide)]
  obtain ⟨hs, hr⟩ := hspare.copyDirs ho (a := 0) (b := 16) (by decide) (by decide) (by decide)
  exact ⟨hs, copyDirs_spec hs ho (by decide) (by decide) (by decide), hr⟩

/-- Below the end of the identity mapping every page is an entry of window 0. -/
theorem Booted.mapped {kb pd : Nat} (h : Installed kb pd) {m : Mm} (hb : Booted kb pd m) {n : Nat}
    (hn : pageAddr n < bootTables kb * 0x400000) : ∃ d j, d < bootTables kb ∧ j < 1024 ∧
      isPresent (m.pte d j) = true ∧ pageFrom (m.pte d j) = pageAddr n := by
  have hle := h.tables_le
  have haddr : pageAddr n = 4096 * pageFrame n := by
    simp only [pageAddr, pageFrame, lowMem]
    omega
  rw [haddr] at hn ⊢
  have hd : pageFrame n / 1024 < bootTables kb := by omega
  have hj : pageFrame n % 1024 < 1024 := Nat.mod_lt _ (by decide)
  have hpte := hb.pte h (d := pageFrame n / 1024) hj
  rw [if_pos hd, Nat.div_add_mod] at hpte
  refine ⟨pageFrame n / 1024, pageFrame n % 1024, hd, hj, ?_, ?_⟩
  · rw [hpte, isPresent_ofNat]
  · rw [hpte, pageFrom_ofNat (by omega)]

/-- A call of the kernel that takes references on used pages only. -/
def SafeCall (m m' : Mm) : Prop := ∃ a, CallStep a m m' ∧ CallUsed m a

/-- The bitmap and the counts agree in every state after `mm_init`, as long as
no reference is taken on a free page. -/
theorem accounted_of_safe {kb endKernel : Nat} {m s t : Mm} (hinit : m.mmInit kb endKernel = some s)
    (hrun : Relation.ReflTransGen SafeCall s t) :
    Accounted t ∧ ∀ addr, lowMem ≤ addr → addr < t.highMemory → pageNr addr < mmPages →
      ∃ t', freeTimes addr (t.refcount (some (pageNr addr))).toNat t = some t' ∧
        t'.bit (pageNr addr) = false := by
  have hacc : Accounted t :=
    Run.invariant_reach (fun _ _ hp ⟨_, hs, hu⟩ => hp.call hs hu) hrun (accounted_mmInit hinit)
  refine ⟨hacc, fun addr hlow hhigh hcov => ?_⟩
  have hnonneg := (hacc _ hcov).2
  exact hacc.freeTimes hlow hcov hhigh (by omega)

theorem installed_16MB : Installed 16384 2064 := ⟨by decide, by decide, by decide⟩

theorem room_16MB : pageAddr (firstFree 16384 2064 + (16 + 1)) < memoryEnd 16384 := by decide

/-- A fork whose entries are of used pages meets used pages only. -/
theorem dirsUsed_of_entries {m : Mm} {a b size : Nat} (hs : DirsSupplied a b size m)
    (ho : TablesOwned m) (ha : a + size ≤ 1024) (hb : b + size ≤ 1024)
    (hdis : a + size ≤ b ∨ b + size ≤ a)
    (hu : ∀ d j, a ≤ d → d < a + size → j < 1024 → isPresent (m.pte d j) = true →
      EntryUsed m (m.pte d j)) : DirsUsed a b size m := by
  induction hs with
  | done => exact .done
  | skip hp hs ih =>
    exact .skip hp (ih ho (by omega) (by omega) (by omega) fun d j hd hd' =>
      hu d j (by omega) (by omega))
  | @copy a b size m hp hf hs ih =>
    obtain ⟨n, hn⟩ := hf
    have hne : a ≠ b := by omega
    have hc := copyDir_spec ho hn ⟨by omega, hp⟩ (show b < 1024 by omega) hne
    refine .copy hp (fun j hj hpj => ?_) (ih hc.owned (by omega) (by omega) (by omega)
      fun d j hd hd' hj hpj => ?_)
    · -- entry `j` is still what it was when its turn comes
      obtain ⟨hadd, hnew⟩ := withTable_spec ho hn (show b < 1024 by omega)
      have hta := (hadd.hasTable a).mpr (.inr ⟨by omega, hp⟩)
      have hct := copyTable_spec hadd.owned hta ((hadd.hasTable b).mpr (.inl rfl)) hne j
      have hframe : pageFrom (m.mem m.pgDir a) / 4096 = tableFrame (withTable b m) a :=
        (hadd.tableFrame a hne).symm
      rw [hframe, ← hnew] at hpj ⊢
      generalize copyTable (tableFrame (withTable b m) a) (tableFrame (withTable b m) b) j
        (withTable b m) = m₁ at hct hpj
      have hentry : m₁.mem (tableFrame (withTable b m) a) j = m.pte a j := by
        rw [← hct.same.tableFrame a, ← pte_of_hasTable ((hct.same.hasTable a).mpr hta),
          hct.entries, if_neg (by omega), hadd.entries, if_neg hne]
      rw [hentry] at hpj ⊢
      intro hlow hcov
      rw [hct.bit, (withTable_stored ho hn b).bit,
        hu a j (Nat.le_refl a) (by omega) hj hpj hlow hcov, Bool.true_or]
    · rw [hc.other hj (by omega) (by omega)] at hpj ⊢
      intro hlow hcov
      rw [hc.bit, hu d j (by omega) (by omega) hj hpj hlow hcov, Bool.true_or]

theorem copyDirs_spare {m : Mm} {a b size : Nat} (hs : DirsSupplied a b size m)
    (ho : TablesOwned m) (ha : a + size ≤ 1024) (hb : b + size ≤ 1024)
    (hdis : a + size ≤ b ∨ b + size ≤ a) :
    (freePages m).card ≤ (freePages (copyDirs a b size m).2).card + size := by
  induction hs with
  | done => rw [copyDirs, Nat.add_zero]
  | skip hp hs ih =>
    have hi := ih ho (by omega) (by omega) (by omega)
    rw [copyDirs, if_pos hp]
    omega
  | @copy a b size m hp hf hs ih =>
    obtain ⟨n, hn⟩ := hf
    have hc := copyDir_spec ho hn ⟨by omega, hp⟩ (show b < 1024 by omega) (show a ≠ b by omega)
    have hi := ih hc.owned (by omega) (by omega) (by omega)
    have htaken := freePages_taken hc.bit
    have hmem : n ∈ freePages m := mem_freePages.mpr ⟨hn.lt, hn.free⟩
    have hcard := Finset.card_erase_of_mem hmem
    rw [← htaken] at hcard
    rw [copyDirs, if_neg (by simp [hp]), if_neg (getFreePage_ne_zero m)]
    omega

theorem hasFree_of_card {m : Mm} (h : 0 < (freePages m).card) : HasFree m := by
  obtain ⟨k, hk⟩ := Finset.card_pos.mp h
  exact exists_topFree (mem_freePages.mp hk).1 (mem_freePages.mp hk).2

theorem installed_19MB : Installed 19456 4091 := ⟨by decide, by decide, by decide⟩

/-- With 19 MB and a kernel that ends near 16 MB the free pages lie behind the identity mapping. -/
theorem Booted.used_19MB {m : Mm} (hb : Booted 19456 4091 m) {d j : Nat} (hj : j < 1024)
    (hp : isPresent (m.pte d j) = true) : EntryUsed m (m.pte d j) := by
  intro hlow hcov
  rw [hb.pte installed_19MB hj, show bootTables 19456 = 4 by decide] at hp hlow hcov ⊢
  split_ifs at hp hlow hcov ⊢ with hd
  · rw [pageFrom_ofNat (by omega)] at hlow hcov ⊢
    have hno : ¬ FreeAtBoot (memoryEnd 19456) (firstFree 19456 4091)
        (pageNr (4096 * (1024 * d + j))) := by
      intro hf
      have hle : 3840 ≤ pageNr (4096 * (1024 * d + j)) := hf.1
      rw [pageNr_high hlow] at hle
      simp only [lowMem] at hlow hle
      omega
    rw [hb.bit _ hcov]
    simp [hno]
  · exact absurd hp (by decide)

theorem Booted.free_card {kb pd : Nat} {m : Mm} (hb : Booted kb pd m) {k : Nat} (hk : k ≤ mmPages)
    (hend : pageAddr k ≤ memoryEnd kb) : k - firstFree kb pd ≤ (freePages m).card := by
  have hsub : Finset.Ico (firstFree kb pd) k ⊆ freePages m := by
    intro n hn
    rw [Finset.mem_Ico] at hn
    have hlt : n < mmPages := lt_of_lt_of_le hn.2 hk
    have hf : FreeAtBoot (memoryEnd kb) (firstFree kb pd) n := by
      refine ⟨hn.1, lt_of_lt_of_le ?_ hend⟩
      simp only [pageAddr]
      omega
    exact mem_freePages.mpr ⟨hlt, by rw [hb.bit n hlt]; simp [hf]⟩
  have hcard := Finset.card_le_card hsub
  rwa [Nat.card_Ico] at hcard

theorem Booted.free_19MB {m : Mm} (hb : Booted 19456 4091 m) : 768 ≤ (freePages m).card :=
  hb.free_card (k := 4608) (by decide) (by decide)

/-- The first fork, and a copy of a page that it shares. -/
theorem accounted_of_safe_19MB :
    ∃ s t, (blank.setupPaging 19456 (4096 * 4091)).mmInit 19456 (4096 * 4091) = some s ∧
      Relation.ReflTransGen SafeCall s t ∧ Accounted t ∧ ∀ addr, lowMem ≤ addr →
        addr < t.highMemory → pageNr addr < mmPages → ∃ t', freeTimes addr
          (t.refcount (some (pageNr addr))).toNat t = some t' ∧ t'.bit (pageNr addr) = false := by
  obtain ⟨s, hs, hb⟩ := boot_spec installed_19MB blank
  have ho := hb.tablesOwned installed_19MB
  have hcard := hb.free_19MB
  have hsup : DirsSupplied 0 16 16 s := by
    refine dirsSupplied ho (by decide) (by decide) (by decide)
      ((Finset.card_filter_le _ _).trans ?_)
    rw [Nat.card_Ico]
    omega
  have hc := copyDirs_spec hsup ho (by decide) (by decide) (by decide)
  have hidx : window 0 / 2 ^ 22 % 1024 = 0 ∧ window 1 / 2 ^ 22 % 1024 = 16 := by decide
  have hfork : SafeCall s (s.copyMem 0 1).2 := by
    refine ⟨.copyPageTables (window 0) (window 1) 0x4000000, .copyPageTables ?_, ?_⟩
    · rw [hidx.1, hidx.2]
      exact hsup
    · rw [CallUsed, hidx.1, hidx.2]
      exact dirsUsed_of_entries hsup ho (by decide) (by decide) (by decide)
        fun d j _ _ hj hp => hb.used_19MB hj hp
  have hspare := copyDirs_spare hsup ho (by decide) (by decide) (by decide)
  rw [copyMem_eq (by decide) (by decide)] at hfork
  generalize (copyDirs (16 * 0) (16 * 1) 16 s).2 = s₁ at hc hfork hspare
  have hentry : s₁.pte 17 0 = copied (s.pte 1 0) := by
    have hone : s.pte 1 0 = _ := hb.pte installed_19MB (by decide)
    have hta : HasTable s (0 + (17 - 16)) := isPresent_pte_hasTable (d := 1) (k := 0) (by
      rw [hone]
      decide)
    rw [hc.entries 17 0 (by decide), if_pos ⟨by decide, hta⟩]
  have hp : isPresent (s.pte 1 0) = true := by
    rw [hb.pte installed_19MB (by decide)]
    decide
  have hta : HasTable s₁ 17 := isPresent_pte_hasTable (k := 0) (by rw [hentry, isPresent_copied, hp])
  have hcopy : SafeCall s₁ (s₁.unWpPage (s₁.tableFrame 17) 0) := by
    refine ⟨.unWpPage _ _, .unWpPage (hasFree_of_card (by omega)), ?_⟩
    intro hlow hcov
    rw [← pte_of_hasTable hta, hentry, pageFrom_copied hp] at hlow hcov ⊢
    exact hc.used _ (hb.used_19MB (by decide) hp hlow hcov)
  have hrun : Relation.ReflTransGen SafeCall s (s₁.unWpPage (s₁.tableFrame 17) 0) :=
    (Relation.ReflTransGen.single hfork).tail hcopy
  exact ⟨s, _, hs, hrun, accounted_of_safe hs hrun⟩

/-- The fork of task 0 counts the free pages that are mapped into its window. -/
theorem unaccounted_fork : ∃ s, blank.boot 16384 (4096 * 2064) = some s ∧
    CallStep (.copyPageTables (window 0) (window 1) 0x4000000) s (s.copyMem 0 1).2 ∧
      ¬ Accounted (s.copyMem 0 1).2 := by
  obtain ⟨s, hs, hb⟩ := boot_spec installed_16MB blank
  obtain ⟨hsup, hc, hspare⟩ := hb.fork installed_16MB room_16MB
  refine ⟨s, hs, .copyPageTables ?_, fun hacc => ?_⟩
  · rw [show window 0 / 2 ^ 22 % 1024 = 0 by decide, show window 1 / 2 ^ 22 % 1024 = 16 by decide]
    exact hsup
  · obtain ⟨d, j, hd, hj, hp, hq⟩ :=
      hb.mapped installed_16MB (n := firstFree 16384 2064) (by decide)
    have hlow : lowMem ≤ pageAddr (firstFree 16384 2064) := Nat.le_add_left _ _
    have hcount := hc.counted d j (Nat.zero_le d) (hd.trans_le (by decide)) hj hp (hq ▸ hlow)
    rw [hq, mmsPage_eq (by rw [pageNr_pageAddr]; decide), pageNr_pageAddr,
      hb.refcount _ (by decide), if_pos (by decide)] at hcount
    have hbit := (hacc _ (show firstFree 16384 2064 < mmPages by decide)).1.mpr hcount
    have hfree := hspare.2 0 (Nat.zero_le _)
    rw [Nat.add_zero, hbit] at hfree
    cases hfree

/-! Copy on write. -/

def nrTasks : Nat := 8

/-- Directory entry `d` lies in the window of task `w`. -/
def InWindow (w d : Nat) : Prop := 16 * w ≤ d ∧ d < 16 * w + 16

inductive Event
  | fork (src nr : Nat)
  | writeFault (nr address : Nat)
  | emptyFault (nr address : Nat)

/-- A fork, or a fault of a task at an address of its window, with free pages available. -/
inductive EventStep : Event → Mm → Mm → Prop
  | fork {m : Mm} {src nr : Nat} (hsrc : src < nrTasks) (h0 : 0 < nr)
      (hnr : nr < nrTasks) (hne : src ≠ nr) (hs : DirsSupplied (pgdirIdx (window src))
        (pgdirIdx (window nr)) 16 m) : EventStep (.fork src nr) m (m.copyMem src nr).2
  | writeFault {m : Mm} {nr address : Nat} (hnr : nr < nrTasks)
      (ha : InWindow nr (pgdirIdx address)) (hp : isPresent
        (m.pte (pgdirIdx address) (pageIdx address)) =
          true) (hw : isWritable (m.pte (pgdirIdx address) (pageIdx address)) = false)
      (hf : HasFree m) : EventStep (.writeFault nr address) m (m.doWpPage address)
  | emptyFault {m m' : Mm} {nr address : Nat} (hnr : nr < nrTasks)
      (ha : InWindow nr (pgdirIdx address)) (hp : isPresent
        (m.pte (pgdirIdx address) (pageIdx address)) =
          false) (hf : HasFree m) (ht : isPresent (m.pde address) = true ∨ HasFree m.getFreePage.2)
      (he : m.getEmptyPage address = some m') : EventStep (.emptyFault nr address) m m'

/-- `un_wp_page` makes the page of an entry writable. -/
def KeepsPage (m : Mm) (q : Nat) : Prop := lowMem ≤ q ∧ m.refcount (mmsPage q) = 1

instance (m : Mm) (q : Nat) : Decidable (KeepsPage m q) := inferInstanceAs (Decidable (_ ∧ _))

theorem InWindow.unique {w v d : Nat} (h : InWindow w d) (h' : InWindow v d) : w = v := by
  unfold InWindow at *
  omega

theorem pageFrom_userEntry_pageAddr {n : Nat} (h : n < mmPages) :
    pageFrom (userEntry (pageAddr n)) = pageAddr n := by
  rw [pageFrom_userEntry (pageAddr_lt h), pageAddr_div, pageAddr, pageFrame, lowMem]
  omega

theorem mem_fillPage (f : Nat) (w : Nat → BitVec 32) (m : Mm) :
    (m.fillPage f w).mem = Function.update m.mem f w := rfl

/-- Entry `j` of table `d` gets the free page `n`, and the page that it mapped loses a reference. -/
structure PageGiven (m : Mm) (d j n : Nat) (m' : Mm) : Prop where
  owned : TablesOwned m'
  lt : n < mmPages
  free : m.bit n = false
  taken : m'.bit n = true
  used : ∀ k, m.bit k = true → m'.bit k = true
  entries : ∀ e k, m'.pte e k = if e = d ∧ k = j then userEntry (pageAddr n) else m.pte e k
  refcount : ∀ q, m'.refcount (some q) = m.refcount (some q) +
    (if m.bit q = false ∧ m'.bit q = true then 1 else 0) - if MapsTo q (m.pte d j) then 1 else 0
  spare : (freePages m).card ≤ (freePages m').card + 2

theorem freePages_le {m m' : Mm} {n k : Nat}
    (h : ∀ i, m'.bit i = true → m.bit i = true ∨ i = n ∨ i = k) :
    (freePages m).card ≤ (freePages m').card + 2 := by
  have hsub : freePages m ⊆ insert n (insert k (freePages m')) := by
    intro i hi
    obtain ⟨hlt, hfree⟩ := mem_freePages.mp hi
    rw [Finset.mem_insert, Finset.mem_insert, mem_freePages]
    cases hb : m'.bit i with
    | false => exact Or.inr (Or.inr ⟨hlt, rfl⟩)
    | true =>
      rcases h i hb with hm | hn | hk
      · rw [hm] at hfree
        cases hfree
      · exact Or.inl hn
      · exact Or.inr (Or.inl hk)
  have h₁ := Finset.card_le_card hsub
  have h₂ := Finset.card_insert_le n (insert k (freePages m'))
  have h₃ := Finset.card_insert_le k (freePages m')
  omega

theorem refcount_drop (w : BitVec 32) (hp : isPresent w = true) (m : Mm) (q : Nat) :
    (if lowMem ≤ pageFrom w then m.addRef (mmsPage (pageFrom w)) (-1) else m).refcount (some q) =
      m.refcount (some q) - if MapsTo q w then 1 else 0 := by
  by_cases hlow : lowMem ≤ pageFrom w
  · rw [if_pos hlow, refcount_addRef]
    by_cases hq : mmsPage (pageFrom w) = some q
    · rw [if_pos ⟨hp, hlow, hq⟩, hq, Function.update_self]
      omega
    · rw [if_neg fun h => hq h.2.2, Function.update_of_ne (Ne.symm hq), Int.sub_zero]
  · rw [if_neg hlow, if_neg fun h => hlow h.2.1, Int.sub_zero]

theorem Referenced.refcount_taken {m m' : Mm} {n : Nat} (h : Referenced m n m')
    (hn : m.bit n = false) (q : Nat) : m'.refcount (some q) = m.refcount (some q) +
      if m.bit q = false ∧ m'.bit q = true then 1 else 0 := by
  rw [h.refcount, h.bit]
  by_cases hq : q = n
  · subst hq
    simp [hn]
  · rw [Function.update_of_ne (by simpa using hq), decide_eq_false hq, Bool.or_false,
      if_neg fun hb => by simp [hb.1] at hb, Int.add_zero]

theorem unshare_spec {m : Mm} (ho : TablesOwned m) {n d j : Nat} (hn : IsTopFree m n)
    (hp : isPresent (m.pte d j) = true) :
    SameTables m (m.unshare (m.tableFrame d) j) ∧
      PageGiven m d j n (m.unshare (m.tableFrame d) j) := by
  have hd := isPresent_pte_hasTable hp
  obtain ⟨hpage, href, -⟩ := getFreePage_spec hn
  obtain ⟨hs, hpte⟩ := sameTables_getFreePage ho hn
  have hcount := href.refcount_taken hn.free
  rw [unshare, hpage, pageAddr_div]
  rw [pte_of_hasTable hd] at hp
  generalize m.getFreePage.2 = m₁ at hs hpte href hcount
  have hdrop := refcount_drop (m.mem (m.tableFrame d) j) hp m₁
  rw [← pte_of_hasTable hd] at hdrop
  rw [← pte_of_hasTable hd]
  generalize hm₂ : (if lowMem ≤ pageFrom (m.pte d j) then
    m₁.addRef (mmsPage (pageFrom (m.pte d j))) (-1) else m₁) = m₂ at hdrop
  have h₂ : SameTables m₁ m₂ ∧ (∀ e k, m₂.pte e k = m₁.pte e k) ∧ ∀ k, m₂.bit k = m₁.bit k := by
    rw [← hm₂]
    split
    next => exact ⟨(sameTables_addRef _ _ _).1, (sameTables_addRef _ _ _).2, fun _ => rfl⟩
    next => exact ⟨SameTables.refl _, fun _ _ => rfl, fun _ => rfl⟩
  have hs₂ : SameTables m m₂ := hs.trans h₂.1
  obtain ⟨hs₃, hpte₃⟩ :=
    sameTables_store (hs₂.owned ho) ((hs₂.hasTable d).mpr hd) j (userEntry (pageAddr n))
  rw [hs₂.tableFrame] at hs₃ hpte₃
  have hs₃' : SameTables m (m₂.store (m.tableFrame d) j (userEntry (pageAddr n))) := hs₂.trans hs₃
  have huser : BitVec.ofNat 32 (pageAddr n) ||| 7#32 = userEntry (pageAddr n) := rfl
  simp only [huser]
  have hb₃ : ∀ k, (m₂.store (m.tableFrame d) j (userEntry (pageAddr n))).bit k = m₁.bit k :=
    fun k => by rw [bit_store, h₂.2.2]
  have hc₃ : (m₂.store (m.tableFrame d) j (userEntry (pageAddr n))).refcount = m₂.refcount := rfl
  generalize m₂.store (m.tableFrame d) j (userEntry (pageAddr n)) = m₃ at hs₃' hpte₃ hb₃ hc₃
  -- the page that is filled is not a table
  have hfill : ∀ w, SameTables m (m₃.fillPage (pageFrame n) w) ∧
    ∀ e k, (m₃.fillPage (pageFrame n) w).pte e k = m₃.pte e k := by
    intro w
    have hsame : SameTables m₃ (m₃.fillPage (pageFrame n) w) := by
      refine ⟨rfl, ?_, fun _ hk => hk⟩
      rw [mem_fillPage, Function.update_of_ne (hs₃'.pgDir ▸ ho.dir.ne hn.free)]
    refine ⟨hs₃'.trans hsame, fun e k => hsame.pte fun he => ?_⟩
    have hne : m₃.tableFrame e ≠ pageFrame n := by
      rw [hs₃'.tableFrame]
      exact (ho.table e ((hs₃'.hasTable e).mp he)).1.ne hn.free
    rw [mem_fillPage, Function.update_of_ne hne]
  obtain ⟨hs₄, hpte₄⟩ := hfill (m₃.mem (m₃.linear (pageFrom (m.pte d j))))
  refine ⟨hs₄, hs₄.owned ho, hn.lt, hn.free, ?_, hs₄.used, fun e k => ?_, fun q => ?_,
    freePages_le (n := n) (k := n) fun i hi => ?_⟩
  · rw [bit_fillPage, hb₃, href.bit, decide_eq_true rfl, Bool.or_true]
  · rw [hpte₄, hpte₃, h₂.2.1, hpte]
  · have hc₄ : ∀ w, (m₃.fillPage (pageFrame n) w).refcount = m₃.refcount := fun _ => rfl
    rw [hc₄, hc₃, hdrop, hcount, bit_fillPage, hb₃]
  · rw [bit_fillPage, hb₃, href.bit, Bool.or_eq_true, decide_eq_true_eq] at hi
    exact hi.imp_right Or.inl

theorem doWpPage_eq {m : Mm} {address : Nat} (ht : HasTable m (pgdirIdx address)) :
    m.doWpPage address = if KeepsPage m (pageFrom (m.pte (pgdirIdx address) (pageIdx address))) then
      m.store (m.tableFrame (pgdirIdx address)) (pageIdx address)
        (m.pte (pgdirIdx address) (pageIdx address) ||| 2#32)
    else m.unshare (m.tableFrame (pgdirIdx address)) (pageIdx address) := by
  rw [pte_of_hasTable ht]
  rfl

theorem pageIdx_lt (address : Nat) : pageIdx address < 1024 := Nat.mod_lt _ (by decide)

theorem getEmptyPage_spec {m : Mm} (ho : TablesOwned m) {n address : Nat} (hn : IsTopFree m n)
    (hp : isPresent (m.pte (pgdirIdx address) (pageIdx address)) = false)
    (ht : isPresent (m.pde address) = true ∨ HasFree m.getFreePage.2) :
    ∃ m', m.getEmptyPage address = some m' ∧
      PageGiven m (pgdirIdx address) (pageIdx address) n m' := by
  have hd : pgdirIdx address < 1024 := Nat.mod_lt _ (by decide)
  obtain ⟨hpage, href, -⟩ := getFreePage_spec hn
  obtain ⟨hs, hpte⟩ := sameTables_getFreePage ho hn
  have hcount := href.refcount_taken hn.free
  have hne := getFreePage_ne_zero m
  have hne₁ := getFreePage_ne_zero m.getFreePage.2
  have hpde : m.getFreePage.2.pde address = m.pde address := by
    rw [pde, pde, hs.pgDir, hs.dir]
  have hbit : m.getFreePage.2.bit n = true := by rw [href.bit, decide_eq_true rfl, Bool.or_true]
  have hold : ∀ i, m.getFreePage.2.bit i = true → m.bit i = true ∨ i = n := fun i hi => by
    rwa [href.bit, Bool.or_eq_true, decide_eq_true_eq] at hi
  -- the entry was absent, and no page loses a reference
  have hnone : ∀ q, ¬ MapsTo q (m.pte (pgdirIdx address) (pageIdx address)) := fun q h => by
    rw [h.1] at hp
    cases hp
  rw [getEmptyPage]
  simp only [hne, false_or, if_false]
  rw [hpage] at hne ⊢
  generalize m.getFreePage.2 = m₁ at hs hpte hpde hbit hne₁ ht hcount hold ⊢
  have ho₁ := hs.owned ho
  by_cases hp : isPresent (m.pde address) = true
  · have hta : HasTable m₁ (pgdirIdx address) := ⟨hd, by rw [← pde, hpde, hp]⟩
    have hput : m₁.putPage (pageAddr n) address = (pageAddr n,
        m₁.store (m₁.tableFrame (pgdirIdx address)) (pageIdx address)
          (userEntry (pageAddr n))) := by
      rw [putPage, if_pos (by rw [hpde, hp])]
      rfl
    rw [hput, if_neg hne]
    obtain ⟨hs₂, hpte₂⟩ := sameTables_store ho₁ hta (pageIdx address) (userEntry (pageAddr n))
    refine ⟨_, rfl, hs₂.owned ho₁, hn.lt, hn.free, hs₂.used n hbit,
      fun k hk => hs₂.used k (hs.used k hk), fun e k => by rw [hpte₂, hpte], fun q => ?_,
      freePages_le (n := n) (k := n) fun i hi => ?_⟩
    · rw [if_neg (hnone q), Int.sub_zero]
      exact hcount q
    · rw [bit_store] at hi
      exact (hold i hi).imp_right Or.inl
  · obtain ⟨k, hk⟩ := ht.resolve_left hp
    obtain ⟨hadd, hframe⟩ := withTable_spec ho₁ hk hd
    have href₁ := (getFreePage_spec hk).2.1
    have hbits : ∀ i, (withTable (pgdirIdx address) m₁).bit i = (m₁.bit i || decide (i = k)) :=
      href₁.bit
    have hput : m₁.putPage (pageAddr n) address = (pageAddr n,
        (withTable (pgdirIdx address) m₁).store (m₁.getFreePage.1 / 4096) (pageIdx address)
          (userEntry (pageAddr n))) := by
      rw [putPage, if_neg (by rw [hpde]; exact hp), if_neg hne₁]
      rfl
    rw [hput, if_neg hne, ← hframe]
    obtain ⟨hs₂, hpte₂⟩ :=
      sameTables_store hadd.owned ((hadd.hasTable _).mpr (Or.inl rfl)) (pageIdx address)
      (userEntry (pageAddr n))
    have hused : ∀ i, m₁.bit i = true → (withTable (pgdirIdx address) m₁).bit i = true :=
      fun i hi => by
      rw [hbits, hi, Bool.true_or]
    refine ⟨_, rfl, hs₂.owned hadd.owned, hn.lt, hn.free, hs₂.used n (hused n hbit),
      fun i hi => hs₂.used i (hused i (hs.used i hi)), fun e i => ?_, fun q => ?_,
      freePages_le (n := n) (k := k) fun i hi => ?_⟩
    · rw [hpte₂, hadd.entries, hpte]
      have habsent : m.pte (pgdirIdx address) i = 0 := pte_of_not (fun hta => hp hta.2) i
      by_cases hed : e = pgdirIdx address
      · subst hed
        simp [habsent]
      · simp [hed]
    · have hused₁ : m.bit q = true → m₁.bit q = true := hs.used q
      have hcount₁ := href₁.refcount_taken hk.free q
      rw [href₁.bit] at hcount₁
      rw [if_neg (hnone q), Int.sub_zero, bit_store, hbits]
      have hsame : ((withTable (pgdirIdx address) m₁).store
          (tableFrame (withTable (pgdirIdx address) m₁) (pgdirIdx address)) (pageIdx address)
            (userEntry (pageAddr n))).refcount = m₁.getFreePage.2.refcount := rfl
      rw [hsame, hcount₁, hcount]
      -- `q` is one of the two pages, or neither
      cases h : m.bit q <;> cases h₁ : m₁.bit q <;> simp_all
    · rw [bit_store, hbits, Bool.or_eq_true, decide_eq_true_eq] at hi
      exact hi.elim (fun h => (hold i h).imp_right Or.inl) fun h => Or.inr (Or.inr h)

end Gpos.Mm
