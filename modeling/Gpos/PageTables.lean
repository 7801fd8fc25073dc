import Gpos.PageCount

/-! The tables behind the present entries of the page directory. They lie in
used frames, all different, so that an allocation or a change of one entry
leaves the other entries of every window as they are. -/

namespace Gpos.Mm

def FrameUsed (m : Mm) (f : Nat) : Prop := 256 ≤ f ∧ m.bit (f - 256) = true

theorem FrameUsed.ne {m : Mm} {f n : Nat} (h : FrameUsed m f) (hn : m.bit n = false) :
    f ≠ pageFrame n := by
  rintro rfl
  have hb := h.2
  rw [pageFrame, Nat.add_sub_cancel, hn] at hb
  cases hb

def HasTable (m : Mm) (d : Nat) : Prop := d < 1024 ∧ isPresent (m.mem m.pgDir d) = true

instance (m : Mm) (d : Nat) : Decidable (HasTable m d) := inferInstanceAs (Decidable (_ ∧ _))

def tableFrame (m : Mm) (d : Nat) : Nat := pageFrom (m.mem m.pgDir d) / 4096

/-- Entry `j` of the table of directory entry `d`, absent without a table. -/
def pte (m : Mm) (d j : Nat) : BitVec 32 := if HasTable m d then m.mem (tableFrame m d) j else 0

structure TablesOwned (m : Mm) : Prop where
  dir : FrameUsed m m.pgDir
  table : ∀ d, HasTable m d → FrameUsed m (tableFrame m d) ∧ tableFrame m d ≠ m.pgDir
  inj : ∀ d e, HasTable m d → HasTable m e → tableFrame m d = tableFrame m e → d = e

/-- The directory is the same, and no page has become free. -/
structure SameTables (m m' : Mm) : Prop where
  pgDir : m'.pgDir = m.pgDir
  dir : m'.mem m.pgDir = m.mem m.pgDir
  used : ∀ k, m.bit k = true → m'.bit k = true

theorem SameTables.refl (m : Mm) : SameTables m m := ⟨rfl, rfl, fun _ hk => hk⟩

theorem SameTables.trans {m₁ m₂ m₃ : Mm} (h : SameTables m₁ m₂) (h' : SameTables m₂ m₃) :
    SameTables m₁ m₃ := by
  refine ⟨h'.pgDir.trans h.pgDir, ?_, fun k hk => h'.used k (h.used k hk)⟩
  rw [← h.dir, ← h.pgDir]
  exact h'.dir

theorem SameTables.hasTable {m m' : Mm} (h : SameTables m m') (d : Nat) :
    HasTable m' d ↔ HasTable m d := by
  rw [HasTable, HasTable, h.pgDir, h.dir]

theorem SameTables.tableFrame {m m' : Mm} (h : SameTables m m') (d : Nat) :
    tableFrame m' d = tableFrame m d := by
  rw [Mm.tableFrame, Mm.tableFrame, h.pgDir, h.dir]

theorem FrameUsed.mono {m m' : Mm} {f : Nat} (h : FrameUsed m f)
    (hu : ∀ k, m.bit k = true → m'.bit k = true) : FrameUsed m' f := ⟨h.1, hu _ h.2⟩

theorem SameTables.owned {m m' : Mm} (h : SameTables m m') (ho : TablesOwned m) :
    TablesOwned m' where
  dir := h.pgDir ▸ ho.dir.mono h.used
  table d hd := by
    rw [h.tableFrame, h.pgDir]
    have ht := ho.table d ((h.hasTable d).mp hd)
    exact ⟨ht.1.mono h.used, ht.2⟩
  inj d e hd he heq := by
    rw [h.tableFrame, h.tableFrame] at heq
    exact ho.inj d e ((h.hasTable d).mp hd) ((h.hasTable e).mp he) heq

theorem SameTables.pte {m m' : Mm} (h : SameTables m m') {d j : Nat}
    (hmem : HasTable m d → m'.mem (m.tableFrame d) j = m.mem (m.tableFrame d) j) :
    pte m' d j = pte m d j := by
  rw [Mm.pte, Mm.pte, h.tableFrame]
  by_cases hd : HasTable m d
  · rw [if_pos hd, if_pos ((h.hasTable d).mpr hd), hmem hd]
  · rw [if_neg hd, if_neg ((h.hasTable d).not.mpr hd)]

theorem pte_of_hasTable {m : Mm} {d : Nat} (hd : HasTable m d) (j : Nat) :
    pte m d j = m.mem (tableFrame m d) j :=
  if_pos hd

theorem pte_of_not {m : Mm} {d : Nat} (hd : ¬ HasTable m d) (j : Nat) : pte m d j = 0 := if_neg hd

theorem sameTables_getFreePage {m : Mm} {n : Nat} (ho : TablesOwned m) (hn : IsTopFree m n) :
    SameTables m m.getFreePage.2 ∧ ∀ d j, pte m.getFreePage.2 d j = pte m d j := by
  obtain ⟨-, href, hmem⟩ := getFreePage_spec hn
  have hs : SameTables m m.getFreePage.2 := by
    refine ⟨href.pgDir, ?_, fun k hk => ?_⟩
    · rw [hmem, Function.update_of_ne (ho.dir.ne hn.free)]
    · rw [href.bit, hk, Bool.true_or]
  refine ⟨hs, fun d j => hs.pte fun hd => ?_⟩
  rw [hmem, Function.update_of_ne ((ho.table d hd).1.ne hn.free)]

theorem mem_store (f j : Nat) (w : BitVec 32) (m : Mm) (g k : Nat) :
    (m.store f j w).mem g k = if g = f ∧ k = j then w else m.mem g k := by
  simp only [store, Function.update_apply]
  by_cases hg : g = f
  · subst hg
    by_cases hk : k = j <;> simp [hk]
  · simp [hg]

theorem sameTables_store {m : Mm} (ho : TablesOwned m) {d : Nat} (hd : HasTable m d) (j : Nat)
    (w : BitVec 32) : SameTables m (m.store (tableFrame m d) j w) ∧
      ∀ e k, pte (m.store (tableFrame m d) j w) e k = if e = d ∧ k = j then w else pte m e k := by
  have hs : SameTables m (m.store (tableFrame m d) j w) := by
    refine ⟨rfl, ?_, fun _ hk => hk⟩
    funext k
    rw [mem_store, if_neg fun h => (ho.table d hd).2 h.1.symm]
  refine ⟨hs, fun e k => ?_⟩
  by_cases he : e = d
  · subst he
    rw [pte_of_hasTable ((hs.hasTable e).mpr hd), hs.tableFrame, mem_store, pte_of_hasTable hd]
    simp only [true_and]
  · rw [if_neg fun h => he h.1]
    refine hs.pte fun hte => ?_
    rw [mem_store, if_neg fun h => he (ho.inj e d hte hd h.1)]

theorem sameTables_addRef (m : Mm) (p : Option Nat) (c : Int) :
    SameTables m (m.addRef p c) ∧ ∀ d j, pte (m.addRef p c) d j = pte m d j := by
  have hs : SameTables m (m.addRef p c) := ⟨rfl, rfl, fun _ hk => hk⟩
  exact ⟨hs, fun d j => hs.pte fun _ => rfl⟩

/-- The page of the highest free number, as the new table of an entry of the directory. -/
structure TableAdded (m : Mm) (e : Nat) (m' : Mm) : Prop where
  owned : TablesOwned m'
  pgDir : m'.pgDir = m.pgDir
  hasTable : ∀ d, HasTable m' d ↔ d = e ∨ HasTable m d
  tableFrame : ∀ d, d ≠ e → tableFrame m' d = tableFrame m d
  entries : ∀ d j, pte m' d j = if d = e then 0 else pte m d j

theorem pageAddr_lt {n : Nat} (h : n < mmPages) : pageAddr n < 2 ^ 32 := by
  simp only [pageAddr, lowMem, mmPages] at *
  omega

/-- What `withTable` does: frame `n` is used, and entry `e` of the directory has it. -/
structure DirStored (m : Mm) (n e : Nat) (m' : Mm) : Prop where
  pgDir : m'.pgDir = m.pgDir
  dir : ∀ d, m'.mem m.pgDir d = if d = e then userEntry (pageAddr n) else m.mem m.pgDir d
  rest : ∀ f j, f ≠ m.pgDir → m'.mem f j = m.getFreePage.2.mem f j
  bit : ∀ k, m'.bit k = (m.bit k || decide (k = n))

theorem withTable_stored {m : Mm} {n : Nat} (ho : TablesOwned m) (hn : IsTopFree m n) (e : Nat) :
    DirStored m n e (withTable e m) := by
  obtain ⟨hpage, href, -⟩ := getFreePage_spec hn
  obtain ⟨hs, -⟩ := sameTables_getFreePage ho hn
  refine ⟨hs.pgDir, fun d => ?_, fun f j hf => ?_, href.bit⟩
  · rw [withTable, hpage, mem_store, hs.dir]
    simp only [true_and, userEntry]
  · rw [withTable, mem_store, if_neg fun h => hf h.1]

section

variable {m m' : Mm} {n e : Nat} (h : DirStored m n e m')

include h

theorem DirStored.hasTable (he : e < 1024) (d : Nat) : HasTable m' d ↔ d = e ∨ HasTable m d := by
  rw [HasTable, HasTable, h.pgDir, h.dir]
  by_cases hd : d = e
  · subst hd
    simp [he]
  · simp [hd]

theorem DirStored.tableFrame_old {d : Nat} (hd : d ≠ e) : tableFrame m' d = tableFrame m d := by
  rw [Mm.tableFrame, Mm.tableFrame, h.pgDir, h.dir, if_neg hd]

theorem DirStored.tableFrame_new (hn : n < mmPages) : tableFrame m' e = pageFrame n := by
  rw [Mm.tableFrame, h.pgDir, h.dir, if_pos rfl,
    pageFrom_div_userEntry (pageAddr_lt hn), pageAddr_div]

theorem DirStored.used {k : Nat} (hk : m.bit k = true) : m'.bit k = true := by
  rw [h.bit, hk, Bool.true_or]

theorem DirStored.owned (ho : TablesOwned m) (hn : IsTopFree m n) (he : e < 1024) :
    TablesOwned m' := by
  have hold : ∀ {d}, HasTable m' d → d ≠ e → HasTable m d :=
    fun hd hde => ((h.hasTable he _).mp hd).resolve_left hde
  refine ⟨?_, fun d hd => ?_, fun d d' hd hd' heq => ?_⟩
  · rw [h.pgDir]
    exact ho.dir.mono fun _ => h.used
  · by_cases hde : d = e
    · subst hde
      rw [h.tableFrame_new hn.lt, h.pgDir]
      refine ⟨⟨Nat.le_add_left _ _, ?_⟩, (ho.dir.ne hn.free).symm⟩
      rw [pageFrame, Nat.add_sub_cancel, h.bit, decide_eq_true rfl, Bool.or_true]
    · rw [h.tableFrame_old hde, h.pgDir]
      have ht := ho.table d (hold hd hde)
      exact ⟨ht.1.mono fun _ => h.used, ht.2⟩
  · by_cases hde : d = e <;> by_cases hde' : d' = e
    · rw [hde, hde']
    · subst hde
      rw [h.tableFrame_new hn.lt, h.tableFrame_old hde'] at heq
      exact absurd heq.symm ((ho.table d' (hold hd' hde')).1.ne hn.free)
    · subst hde'
      rw [h.tableFrame_new hn.lt, h.tableFrame_old hde] at heq
      exact absurd heq ((ho.table d (hold hd hde)).1.ne hn.free)
    · rw [h.tableFrame_old hde, h.tableFrame_old hde'] at heq
      exact ho.inj d d' (hold hd hde) (hold hd' hde') heq

theorem DirStored.entries (ho : TablesOwned m) (hn : IsTopFree m n) (he : e < 1024) (d j : Nat) :
    pte m' d j = if d = e then 0 else pte m d j := by
  obtain ⟨-, -, hmem⟩ := getFreePage_spec hn
  obtain ⟨hs, hpte⟩ := sameTables_getFreePage ho hn
  by_cases hde : d = e
  · subst hde
    rw [if_pos rfl, pte_of_hasTable ((h.hasTable he d).mpr (Or.inl rfl)), h.tableFrame_new hn.lt,
      h.rest _ _ (ho.dir.ne hn.free).symm, hmem, Function.update_self]
  · rw [if_neg hde, ← hpte]
    by_cases hd : HasTable m d
    · rw [pte_of_hasTable ((h.hasTable he d).mpr (Or.inr hd)), h.tableFrame_old hde,
        h.rest _ _ (ho.table d hd).2, pte_of_hasTable ((hs.hasTable d).mpr hd), hs.tableFrame]
    · rw [pte_of_not fun ht => ((h.hasTable he d).mp ht).elim hde hd,
        pte_of_not ((hs.hasTable d).not.mpr hd)]

end

theorem withTable_spec {m : Mm} {n e : Nat} (ho : TablesOwned m) (hn : IsTopFree m n)
    (he : e < 1024) :
    TableAdded m e (withTable e m) ∧ tableFrame (withTable e m) e = m.getFreePage.1 / 4096 := by
  have h := withTable_stored ho hn e
  refine ⟨⟨h.owned ho hn he, h.pgDir, h.hasTable he, fun d hd => h.tableFrame_old hd,
    h.entries ho hn he⟩, ?_⟩
  rw [h.tableFrame_new hn.lt, (getFreePage_spec hn).1, pageAddr_div]

/-- What `copy_page_tables` puts into the new table for an entry. -/
def copied (w : BitVec 32) : BitVec 32 := if isPresent w then protect w else 0

/-- What it leaves of the entry itself. -/
def shared (w : BitVec 32) : BitVec 32 := if isPresent w ∧ lowMem ≤ pageFrom w then protect w else w

theorem shared_low {w : BitVec 32} (h : ¬ lowMem ≤ pageFrom w) : shared w = w :=
  if_neg fun hw => h hw.2

theorem shared_high {w : BitVec 32} (hp : isPresent w = true) (h : lowMem ≤ pageFrom w) :
    shared w = protect w :=
  if_pos ⟨hp, h⟩

@[simp] theorem isPresent_copied (w : BitVec 32) : isPresent (copied w) = isPresent w := by
  unfold copied
  split
  next h => rw [isPresent_protect]
  next h =>
    rw [Bool.not_eq_true] at h
    rw [h]
    decide

theorem pageFrom_copied {w : BitVec 32} (h : isPresent w = true) :
    pageFrom (copied w) = pageFrom w := by
  rw [copied, if_pos h, pageFrom_protect]

@[simp] theorem isWritable_copied (w : BitVec 32) : isWritable (copied w) = false := by
  unfold copied
  split
  next => exact isWritable_protect w
  next => decide

@[simp] theorem isPresent_shared (w : BitVec 32) : isPresent (shared w) = isPresent w := by
  unfold shared
  split <;> simp

@[simp] theorem pageFrom_shared (w : BitVec 32) : pageFrom (shared w) = pageFrom w := by
  unfold shared
  split <;> simp

/-- The entries below `n` of table `d` are copied to table `e`. -/
structure EntriesCopied (m : Mm) (d e n : Nat) (m' : Mm) : Prop where
  same : SameTables m m'
  bit : ∀ k, m'.bit k = m.bit k
  entries : ∀ x k, pte m' x k = if k < n ∧ isPresent (pte m d k) then
    (if x = e then protect (pte m d k) else if x = d then shared (pte m d k)
      else pte m x k) else pte m x k
  count : ∀ p, m.refcount p ≤ m'.refcount p
  counted : ∀ k, k < n → isPresent (pte m d k) → lowMem ≤ pageFrom (pte m d k) →
    m.refcount (mmsPage (pageFrom (pte m d k))) < m'.refcount (mmsPage (pageFrom (pte m d k)))

theorem refcount_addRef_le (m : Mm) (p q : Option Nat) :
    m.refcount q ≤ (m.addRef p 1).refcount q := by
  rw [refcount_addRef]
  by_cases h : q = p
  · subst h
    rw [Function.update_self]
    omega
  · rw [Function.update_of_ne h]

/-- Entry `n` of table `d` is copied to table `e`. -/
structure EntryCopied (m : Mm) (d e n : Nat) (m' : Mm) : Prop where
  same : SameTables m m'
  bit : ∀ k, m'.bit k = m.bit k
  other : ∀ x k, k ≠ n → pte m' x k = pte m x k
  entry : ∀ x, pte m' x n = if isPresent (pte m d n) then
    (if x = e then protect (pte m d n) else if x = d then shared (pte m d n)
      else pte m x n) else pte m x n
  count : ∀ p, m.refcount p ≤ m'.refcount p
  counted : isPresent (pte m d n) → lowMem ≤ pageFrom (pte m d n) →
    m.refcount (mmsPage (pageFrom (pte m d n))) < m'.refcount (mmsPage (pageFrom (pte m d n)))

theorem copyEntry_spec {m : Mm} (ho : TablesOwned m) {d e : Nat} (hd : HasTable m d)
    (he : HasTable m e) (hne : d ≠ e) (n : Nat) :
    EntryCopied m d e n (copyEntry (m.tableFrame d) (m.tableFrame e) n m) := by
  have hentry : m.mem (m.tableFrame d) n = pte m d n := (pte_of_hasTable hd n).symm
  cases hp : isPresent (pte m d n) with
  | false =>
    rw [copyEntry_absent _ (by rw [hentry, hp])]
    refine ⟨SameTables.refl m, fun _ => rfl, fun _ _ _ => rfl, fun x => ?_,
      fun _ => le_refl _, fun hpn => ?_⟩
    · rw [hp, if_neg Bool.false_ne_true]
    · rw [hp] at hpn
      cases hpn
  | true =>
    rw [copyEntry_present _ (by rw [hentry, hp]), hentry]
    obtain ⟨hs₂, hpte₂⟩ := sameTables_store ho he n (protect (pte m d n))
    generalize hm₂ : m.store (m.tableFrame e) n (protect (pte m d n)) = m₂ at hs₂ hpte₂
    have hc₂ : m₂.refcount = m.refcount := by
      rw [← hm₂]
      rfl
    have hb₂ : ∀ k, m₂.bit k = m.bit k := by
      rw [← hm₂]
      exact fun _ => rfl
    by_cases hlow : lowMem ≤ pageFrom (pte m d n)
    · rw [if_pos hlow, ← hs₂.tableFrame d]
      obtain ⟨hs₃, hpte₃⟩ :=
        sameTables_store (hs₂.owned ho) ((hs₂.hasTable d).mpr hd) n (protect (pte m d n))
      generalize hm₃ : m₂.store (m₂.tableFrame d) n (protect (pte m d n)) = m₃ at hs₃ hpte₃
      have hc₃ : m₃.refcount = m.refcount := by
        rw [← hm₃]
        exact hc₂
      have hb₃ : ∀ k, m₃.bit k = m.bit k := by
        rw [← hm₃]
        exact hb₂
      obtain ⟨hs₄, hpte₄⟩ := sameTables_addRef m₃ (mmsPage (pageFrom (pte m d n))) 1
      refine ⟨(hs₂.trans hs₃).trans hs₄, fun k => ?_, fun x k hk => ?_, fun x => ?_,
        fun p => ?_, fun _ _ => ?_⟩
      · rw [bit_addRef, hb₃]
      · rw [hpte₄, hpte₃, hpte₂]
        simp only [hk, and_false, if_false]
      · rw [hpte₄, hpte₃, hpte₂, hp, if_pos rfl, shared_high hp hlow]
        by_cases hx : x = d
        · subst hx
          simp [hne]
        · simp [hx]
      · exact hc₃ ▸ refcount_addRef_le m₃ _ p
      · rw [refcount_addRef, Function.update_self, hc₃]
        omega
    · rw [if_neg hlow]
      refine ⟨hs₂, hb₂, fun x k hk => ?_, fun x => ?_, fun p => hc₂ ▸ le_refl _,
        fun _ hlk => absurd hlk hlow⟩
      · rw [hpte₂]
        simp only [hk, and_false, if_false]
      · rw [hpte₂, hp, if_pos rfl, shared_low hlow]
        by_cases hx : x = d
        · subst hx
          simp [hne]
        · simp [hx]

theorem EntriesCopied.step {m m₁ m₂ : Mm} {d e n : Nat} (ih : EntriesCopied m d e n m₁)
    (h : EntryCopied m₁ d e n m₂) : EntriesCopied m d e (n + 1) m₂ := by
  -- entry `n` is still what it was
  have hrow : ∀ x, pte m₁ x n = pte m x n :=
    fun x => by rw [ih.entries, if_neg fun h => Nat.lt_irrefl n h.1]
  refine ⟨ih.same.trans h.same, fun k => (h.bit k).trans (ih.bit k), fun x k => ?_,
    fun p => (ih.count p).trans (h.count p), fun k hk hpk hlk => ?_⟩
  · by_cases hk : k = n
    · subst hk
      rw [h.entry, hrow, hrow]
      simp only [Nat.lt_succ_self, true_and]
    · rw [h.other x k hk, ih.entries]
      simp only [show k < n + 1 ↔ k < n by omega]
  · by_cases hkn : k = n
    · subst hkn
      have hlt := h.counted
      rw [hrow] at hlt
      exact lt_of_le_of_lt (ih.count _) (hlt hpk hlk)
    · exact lt_of_lt_of_le (ih.counted k (by omega) hpk hlk) (h.count _)

theorem copyTable_spec {m : Mm} (ho : TablesOwned m) {d e : Nat} (hd : HasTable m d)
    (he : HasTable m e) (hne : d ≠ e) (n : Nat) :
    EntriesCopied m d e n (copyTable (m.tableFrame d) (m.tableFrame e) n m) := by
  induction n with
  | zero =>
    exact ⟨SameTables.refl m, fun _ => rfl, fun x k => by simp [copyTable],
      fun _ => le_refl _, by simp⟩
  | succ n ih =>
    rw [copyTable]
    generalize copyTable (m.tableFrame d) (m.tableFrame e) n m = m₁ at ih
    rw [← ih.same.tableFrame d, ← ih.same.tableFrame e]
    exact ih.step (copyEntry_spec (ih.same.owned ho) ((ih.same.hasTable d).mpr hd)
      ((ih.same.hasTable e).mpr he) hne n)

/-- Directory entry `e` gets a table of its own, a copy of the table of `d`. -/
structure DirCopied (m : Mm) (n d e : Nat) (m' : Mm) : Prop where
  owned : TablesOwned m'
  hasTable : ∀ x, HasTable m' x ↔ x = e ∨ HasTable m x
  entries : ∀ x k, k < 1024 → pte m' x k =
    if x = e then copied (pte m d k) else if x = d then shared (pte m d k) else pte m x k
  bit : ∀ k, m'.bit k = (m.bit k || decide (k = n))
  count : ∀ p, m.refcount p ≤ m'.refcount p
  counted : ∀ k, k < 1024 → isPresent (pte m d k) → lowMem ≤ pageFrom (pte m d k) →
    m.refcount (mmsPage (pageFrom (pte m d k))) < m'.refcount (mmsPage (pageFrom (pte m d k)))

theorem shared_absent {w : BitVec 32} (h : isPresent w = false) : shared w = w :=
  if_neg fun hw => by simp [h] at hw

theorem copyDir_spec {m : Mm} (ho : TablesOwned m) {n d e : Nat} (hn : IsTopFree m n)
    (hd : HasTable m d) (he : e < 1024) (hne : d ≠ e) : DirCopied m n d e (copyDir d e m) := by
  obtain ⟨-, href, -⟩ := getFreePage_spec hn
  obtain ⟨ha, hnew⟩ := withTable_spec ho hn he
  have hcopy : copyDir d e m = copyTable (m.tableFrame d) (m.getFreePage.1 / 4096) 1024
    (withTable e m) := rfl
  have hcount : (withTable e m).refcount = m.getFreePage.2.refcount := rfl
  have hbits : ∀ k, (withTable e m).bit k = m.getFreePage.2.bit k := fun _ => rfl
  rw [hcopy, ← hnew, ← ha.tableFrame d hne]
  generalize withTable e m = m₁ at ha hcount hbits
  have hd₁ : HasTable m₁ d := (ha.hasTable d).mpr (Or.inr hd)
  have hc := copyTable_spec ha.owned hd₁ ((ha.hasTable e).mpr (Or.inl rfl)) hne 1024
  have hrow : ∀ k, pte m₁ d k = pte m d k := fun k => by rw [ha.entries, if_neg hne]
  have hle : ∀ p, m.refcount p ≤ m₁.refcount p := by
    intro p
    rw [hcount, href.refcount]
    exact refcount_addRef_le m (some n) p
  refine ⟨hc.same.owned ha.owned, fun x => ?_, fun x k hk => ?_, fun k => ?_,
    fun p => (hle p).trans (hc.count p), fun k hk hp hl => ?_⟩
  · rw [hc.same.hasTable, ha.hasTable]
  · rw [hc.entries, hrow, ha.entries]
    cases hp : isPresent (pte m d k) with
    | false =>
      rw [if_neg (by simp), copied, hp]
      by_cases hxe : x = e
      · simp [hxe]
      · by_cases hxd : x = d
        · subst hxd
          simp [hxe, shared_absent hp]
        · simp [hxe, hxd]
    | true =>
      rw [if_pos ⟨hk, rfl⟩, copied, hp]
      by_cases hxe : x = e <;> simp [hxe]
  · rw [hc.bit, hbits, href.bit]
  · have hlt := hc.counted k hk (by rw [hrow]; exact hp) (by rw [hrow]; exact hl)
    rw [hrow] at hlt
    exact lt_of_le_of_lt (hle _) hlt

theorem copyDirs_fst (a b size : Nat) (m : Mm) : (copyDirs a b size m).1 = 0 := by
  induction size generalizing a b m with
  | zero => rfl
  | succ size ih =>
    rw [copyDirs]
    split
    · exact ih _ _ _
    · rw [if_neg (getFreePage_ne_zero m)]
      exact ih _ _ _

/-- `size` directory entries from `a` on are copied to those from `b` on. -/
structure DirsCopied (m : Mm) (a b size : Nat) (m' : Mm) : Prop where
  owned : TablesOwned m'
  entries : ∀ x k, k < 1024 → pte m' x k =
    if (b ≤ x ∧ x < b + size) ∧ HasTable m (a + (x - b)) then copied (pte m (a + (x - b)) k)
    else if a ≤ x ∧ x < a + size then shared (pte m x k) else pte m x k
  used : ∀ k, m.bit k = true → m'.bit k = true
  count : ∀ p, m.refcount p ≤ m'.refcount p
  counted : ∀ x k, a ≤ x → x < a + size → k < 1024 → isPresent (pte m x k) →
    lowMem ≤ pageFrom (pte m x k) → m.refcount (mmsPage (pageFrom (pte m x k))) <
      m'.refcount (mmsPage (pageFrom (pte m x k)))

theorem isPresent_pte_hasTable {m : Mm} {d k : Nat} (h : isPresent (pte m d k) = true) :
    HasTable m d := by
  by_contra hd
  rw [pte_of_not hd] at h
  exact absurd h (by decide)

theorem DirsCopied.skip {m m' : Mm} {a b size : Nat} (hno : ¬ HasTable m a)
    (h : DirsCopied m (a + 1) (b + 1) size m') (hdis : a + (size + 1) ≤ b ∨ b + (size + 1) ≤ a) :
    DirsCopied m a b (size + 1) m' := by
  refine ⟨h.owned, fun x k hk => ?_, h.used, h.count, fun x k hx hx' hk hpk hl => ?_⟩
  · rw [h.entries x k hk]
    by_cases hxa : x = a
    · subst hxa
      rw [if_neg (by omega), if_neg (by omega), if_neg (by omega),
        if_pos (by omega), pte_of_not hno]
      decide
    · by_cases hxb : x = b
      · subst hxb
        rw [if_neg (by omega), if_neg (by omega), if_neg (by simp [hno]), if_neg (by omega)]
      · by_cases hr : b + 1 ≤ x
        · simp only [show a + 1 + (x - (b + 1)) = a + (x - b) by omega,
            show (b + 1 ≤ x) ↔ b ≤ x by omega, show x < b + 1 + size ↔ x < b + (size + 1) by omega,
            show (a + 1 ≤ x) ↔ a ≤ x by omega, show x < a + 1 + size ↔ x < a + (size + 1) by omega]
        · have hout : ¬ ((b ≤ x ∧ x < b + (size + 1)) ∧ HasTable m (a + (x - b))) :=
            fun h => by omega
          rw [if_neg fun h => hr h.1.1, if_neg hout]
          simp only [show (a + 1 ≤ x) ↔ a ≤ x by omega,
            show x < a + 1 + size ↔ x < a + (size + 1) by omega]
  · have hxa : x ≠ a := by
      rintro rfl
      exact hno (isPresent_pte_hasTable hpk)
    exact h.counted x k (by omega) (by omega) hk hpk hl

theorem DirCopied.other {m m₁ : Mm} {n a b : Nat} (hc : DirCopied m n a b m₁) {x k : Nat}
    (hk : k < 1024) (hxa : x ≠ a) (hxb : x ≠ b) : pte m₁ x k = pte m x k := by
  rw [hc.entries x k hk, if_neg hxb, if_neg hxa]

theorem DirsCopied.copy {m m₁ m' : Mm} {n a b size : Nat} (hta : HasTable m a)
    (hc : DirCopied m n a b m₁) (h : DirsCopied m₁ (a + 1) (b + 1) size m')
    (hdis : a + (size + 1) ≤ b ∨ b + (size + 1) ≤ a) : DirsCopied m a b (size + 1) m' := by
  refine ⟨h.owned, fun x k hk => ?_, fun k hk => h.used k (by rw [hc.bit, hk, Bool.true_or]),
    fun p => (hc.count p).trans (h.count p), fun x k hx hx' hk hpk hl => ?_⟩
  · rw [h.entries x k hk]
    by_cases hxa : x = a
    · subst hxa
      rw [if_neg (by omega), if_neg (by omega), if_neg (by omega), if_pos (by omega),
        hc.entries _ _ hk, if_neg (by omega), if_pos rfl]
    · by_cases hxb : x = b
      · subst hxb
        rw [if_neg (by omega), if_neg (by omega), if_pos (by simpa using hta),
          hc.entries _ _ hk, if_pos rfl, Nat.sub_self, Nat.add_zero]
      · rw [hc.other hk hxa hxb]
        by_cases hr : b + 1 ≤ x ∧ x < b + 1 + size
        · have hy : a + 1 + (x - (b + 1)) = a + (x - b) := by omega
          have hiff : HasTable m₁ (a + (x - b)) ↔ HasTable m (a + (x - b)) := by
            rw [hc.hasTable]
            exact or_iff_right (by omega)
          rw [hy, hc.other hk (by omega) (by omega)]
          simp only [hiff, show (b + 1 ≤ x) ↔ b ≤ x by omega,
            show x < b + 1 + size ↔ x < b + (size + 1) by omega, show (a + 1 ≤ x) ↔ a ≤ x by omega,
            show x < a + 1 + size ↔ x < a + (size + 1) by omega]
        · have hout : ¬ ((b ≤ x ∧ x < b + (size + 1)) ∧ HasTable m (a + (x - b))) :=
            fun h => by omega
          rw [if_neg fun h => hr h.1, if_neg hout]
          simp only [show (a + 1 ≤ x) ↔ a ≤ x by omega,
            show x < a + 1 + size ↔ x < a + (size + 1) by omega]
  · by_cases hxa : x = a
    · subst hxa
      exact lt_of_lt_of_le (hc.counted k hk hpk hl) (h.count _)
    · by_cases hxb : x = b
      · omega
      · have he := hc.other hk hxa hxb
        have hlt := h.counted x k (by omega) (by omega) hk (he ▸ hpk) (he ▸ hl)
        rw [he] at hlt
        exact lt_of_le_of_lt (hc.count _) hlt

theorem copyDirs_spec {m : Mm} {a b size : Nat} (hs : DirsSupplied a b size m) (ho : TablesOwned m)
    (ha : a + size ≤ 1024) (hb : b + size ≤ 1024) (hdis : a + size ≤ b ∨ b + size ≤ a) :
    DirsCopied m a b size (copyDirs a b size m).2 := by
  induction hs with
  | @done a b m =>
    refine ⟨ho, fun x k _ => ?_, fun _ hk => hk, fun _ => le_refl _, fun x k hx hx' => by omega⟩
    rw [copyDirs, if_neg (by omega), if_neg (by omega)]
  | @skip a b size m hp hs ih =>
    have hno : ¬ HasTable m a := fun h => by simp [h.2] at hp
    rw [copyDirs, if_pos hp]
    exact (ih ho (by omega) (by omega) (by omega)).skip hno hdis
  | @copy a b size m hp hf hs ih =>
    obtain ⟨n, hn⟩ := hf
    have hta : HasTable m a := ⟨by omega, hp⟩
    have hc := copyDir_spec ho hn hta (show b < 1024 by omega) (show a ≠ b by omega)
    rw [copyDirs, if_neg (by simp [hp]), if_neg (getFreePage_ne_zero m)]
    exact (ih hc.owned (by omega) (by omega) (by omega)).copy hta hc hdis

end Gpos.Mm
