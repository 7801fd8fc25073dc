import Gpos.PageFaults

/-! Copy on write after the boot. The entries of the windows that map a page are
counted by its `_refcount`, so that one reference is a sole owner. -/

namespace Gpos.Mm

/-! The entries for a page. -/

/-- The entries in `S` that map the page `q`. -/
def refs (S : Finset (Nat × Nat)) (m : Mm) (q : Nat) : Nat :=
  (S.filter fun x => MapsTo q (m.pte x.1 x.2)).card

/-- The `size` tables from directory entry `a` on. -/
@[irreducible] def tablesFrom (a size : Nat) : Finset (Nat × Nat) := Finset.Ico a (a + size) ×ˢ Finset.range 1024

theorem mem_tablesFrom {a size : Nat} {x : Nat × Nat} :
    x ∈ tablesFrom a size ↔ (a ≤ x.1 ∧ x.1 < a + size) ∧ x.2 < 1024 := by
  rw [tablesFrom, Finset.mem_product, Finset.mem_Ico, Finset.mem_range]

theorem refs_tablesFrom (a size : Nat) (m : Mm) (q : Nat) :
    refs (tablesFrom a size) m q = ∑ d ∈ Finset.Ico a (a + size), references m q d 1024 := by
  simp only [refs, tablesFrom, references, Finset.card_filter, Finset.sum_product]

section

variable {S : Finset (Nat × Nat)} {m m' : Mm}

theorem refs_eq_zero {q : Nat} (h : ∀ x ∈ S, ¬ MapsTo q (m.pte x.1 x.2)) : refs S m q = 0 := by
  rw [refs, Finset.card_eq_zero, Finset.filter_eq_empty_iff]
  exact h

theorem refs_congr {q : Nat}
    (h : ∀ x ∈ S, MapsTo q (m'.pte x.1 x.2) ↔ MapsTo q (m.pte x.1 x.2)) :
    refs S m' q = refs S m q := by
  rw [refs, refs, Finset.filter_congr h]

theorem refs_erase {x : Nat × Nat} (hx : x ∈ S) (m : Mm) (q : Nat) :
    refs S m q = (if MapsTo q (m.pte x.1 x.2) then 1 else 0) + refs (S.erase x) m q := by
  simp only [refs, Finset.card_filter]
  exact (Finset.add_sum_erase S _ hx).symm

/-- A page with one reference has one entry. -/
theorem unique_of_refs_le {q : Nat} (h : refs S m q ≤ 1) {x y : Nat × Nat} (hx : x ∈ S)
    (hy : y ∈ S) (hqx : MapsTo q (m.pte x.1 x.2)) (hqy : MapsTo q (m.pte y.1 y.2)) : x = y :=
  Finset.card_le_one.mp h x (Finset.mem_filter.mpr ⟨hx, hqx⟩) y (Finset.mem_filter.mpr ⟨hy, hqy⟩)

theorem refs_le_one {q : Nat} (h : ∀ x ∈ S, ∀ y ∈ S, MapsTo q (m.pte x.1 x.2) →
    MapsTo q (m.pte y.1 y.2) → x = y) : refs S m q ≤ 1 :=
  Finset.card_le_one.mpr fun x hx y hy =>
    h x (Finset.mem_filter.mp hx).1 y (Finset.mem_filter.mp hy).1 (Finset.mem_filter.mp hx).2
      (Finset.mem_filter.mp hy).2

theorem mapsTo_congr {v w : BitVec 32} (hp : isPresent v = isPresent w)
    (hq : pageFrom v = pageFrom w) (q : Nat) : MapsTo q v ↔ MapsTo q w := by
  rw [MapsTo, MapsTo, hp, hq]

theorem mapsTo_shared (q : Nat) (w : BitVec 32) : MapsTo q (shared w) ↔ MapsTo q w :=
  mapsTo_congr (isPresent_shared w) (pageFrom_shared w) q

theorem MapsTo.copied {q : Nat} {w : BitVec 32} (h : MapsTo q (copied w)) : MapsTo q w := by
  have hp : isPresent w = true := isPresent_copied w ▸ h.1
  exact (mapsTo_congr (isPresent_copied w) (pageFrom_copied hp) q).mp h

theorem MapsTo.covered {q : Nat} {w : BitVec 32} (h : MapsTo q w) :
    q < mmPages ∧ pageNr (pageFrom w) = q := by
  have hq := h.2.2
  unfold mmsPage at hq
  split_ifs at hq with hc
  exact ⟨Option.some.inj hq ▸ hc, Option.some.inj hq⟩

theorem mapsTo_pageNr {w : BitVec 32} (hp : isPresent w = true) (hlow : lowMem ≤ pageFrom w)
    (hc : pageNr (pageFrom w) < mmPages) : MapsTo (pageNr (pageFrom w)) w :=
  ⟨hp, hlow, mmsPage_eq hc⟩

/-- Each entry that is copied is at most one more for its page. -/
theorem DirsCopied.refs_le {a b size : Nat} (h : DirsCopied m a b size m')
    (hS : ∀ x ∈ S, x.2 < 1024) (q : Nat) :
    refs S m' q ≤ refs S m q + refs (tablesFrom a size) m q := by
  have hsub : S.filter (fun x => MapsTo q (m'.pte x.1 x.2)) ⊆
      S.filter (fun x => MapsTo q (m.pte x.1 x.2)) ∪
        ((tablesFrom a size).filter fun x => MapsTo q (m.pte x.1 x.2)).image
          fun x => (b + (x.1 - a), x.2) := by
    intro x hx
    obtain ⟨hxS, hq⟩ := Finset.mem_filter.mp hx
    rw [h.entries x.1 x.2 (hS x hxS)] at hq
    rw [Finset.mem_union, Finset.mem_filter, Finset.mem_image]
    split_ifs at hq with hto hof
    · refine Or.inr ⟨(a + (x.1 - b), x.2), Finset.mem_filter.mpr ⟨mem_tablesFrom.mpr ?_,
        hq.copied⟩, Prod.ext ?_ rfl⟩
      · exact ⟨⟨Nat.le_add_right _ _, by omega⟩, hS x hxS⟩
      · show b + (a + (x.1 - b) - a) = x.1
        omega
    · exact Or.inl ⟨hxS, (mapsTo_shared q _).mp hq⟩
    · exact Or.inl ⟨hxS, hq⟩
  calc refs S m' q
      ≤ _ := Finset.card_le_card hsub
    _ ≤ _ := Finset.card_union_le _ _
    _ ≤ refs S m q + refs (tablesFrom a size) m q :=
      Nat.add_le_add_left Finset.card_image_le _

theorem PageGiven.self {d j n : Nat} (h : PageGiven m d j n m') :
    m'.pte d j = userEntry (pageAddr n) := by
  rw [h.entries, if_pos ⟨rfl, rfl⟩]

theorem PageGiven.other {d j n e k : Nat} (h : PageGiven m d j n m') (hne : ¬ (e = d ∧ k = j)) :
    m'.pte e k = m.pte e k := by
  rw [h.entries, if_neg hne]

/-- What is free now was free before. -/
theorem bit_false {q : Nat} (hused : ∀ k, m.bit k = true → m'.bit k = true)
    (hq : m'.bit q = false) : m.bit q = false :=
  Bool.eq_false_iff.mpr fun ht => by
    rw [hused q ht] at hq
    cases hq

theorem PageGiven.mapsTo {d j n : Nat} (h : PageGiven m d j n m') (q : Nat) :
    MapsTo q (m'.pte d j) ↔ q = n := by
  have hpage := pageFrom_userEntry_pageAddr h.lt
  have hnr : pageNr (pageFrom (userEntry (pageAddr n))) = n := by rw [hpage, pageNr_pageAddr]
  rw [h.self]
  constructor
  · intro hq
    exact hq.covered.2.symm.trans hnr
  · rintro rfl
    refine ⟨isPresent_userEntry _, ?_, ?_⟩
    · rw [hpage]
      exact Nat.le_add_left _ _
    · rw [mmsPage_eq (hnr.symm ▸ h.lt), hnr]

theorem PageGiven.refs {d j n : Nat} (h : PageGiven m d j n m') (hx : (d, j) ∈ S) (q : Nat) :
    refs S m' q + (if MapsTo q (m.pte d j) then 1 else 0) =
      refs S m q + if q = n then 1 else 0 := by
  have hrest : Mm.refs (S.erase (d, j)) m' q = Mm.refs (S.erase (d, j)) m q := by
    refine refs_congr fun x hxS => ?_
    have hne : ¬ (x.1 = d ∧ x.2 = j) := fun e => (Finset.mem_erase.mp hxS).1 (Prod.ext e.1 e.2)
    rw [h.entries, if_neg hne]
  have hold := refs_erase hx m q
  have hnew := refs_erase hx m' q
  simp only [h.mapsTo] at hold hnew
  omega

end

/-! Isolation. -/

def MappedBy (m : Mm) (w q : Nat) : Prop :=
  ∃ d j, InWindow w d ∧ j < 1024 ∧ isPresent (m.pte d j) = true ∧ pageFrom (m.pte d j) = q

/-- No other task's window maps `q`. -/
def Alone (m : Mm) (w q : Nat) : Prop := ∀ v, v < nrTasks → v ≠ w → ¬ MappedBy m v q

/-- The entries of the windows of all tasks. -/
def windows : Finset (Nat × Nat) := tablesFrom 0 (16 * nrTasks)

/-- No window maps a page that the allocator has. -/
def FreeUnmapped (m : Mm) : Prop :=
  ∀ x ∈ windows, isPresent (m.pte x.1 x.2) = true → EntryUsed m (m.pte x.1 x.2)

/-- A write fault meets an entry of a used page, and an entry gets a page only
while no window maps a free one. -/
def EventSafe (m : Mm) : Event → Prop
  | .fork _ _ => True
  | .writeFault _ address => EntryUsed m (m.pte (pgdirIdx address) (pageIdx address)) ∧
    (¬ KeepsPage m (pageFrom (m.pte (pgdirIdx address) (pageIdx address))) → FreeUnmapped m)
  | .emptyFault _ _ => FreeUnmapped m

/-- No other entry of a window maps the page of entry `x`, which is a used one. -/
def Sole (m : Mm) (x : Nat × Nat) : Prop :=
  m.bit (pageNr (pageFrom (m.pte x.1 x.2))) = true ∧ ∀ y ∈ windows,
    isPresent (m.pte y.1 y.2) = true → pageFrom (m.pte y.1 y.2) = pageFrom (m.pte x.1 x.2) → y = x

/-- The counts bound the entries for a page, one of which a free page may have
without a count, and an entry that a task other than 0 may write is the only one. -/
structure Shares (m : Mm) : Prop where
  owned : TablesOwned m
  covered : ∀ x ∈ windows, isPresent (m.pte x.1 x.2) = true → lowMem ≤ pageFrom (m.pte x.1 x.2) →
    pageNr (pageFrom (m.pte x.1 x.2)) < mmPages
  counted : ∀ q, q < mmPages →
    (refs windows m q : Int) ≤ m.refcount (some q) + if m.bit q then 0 else 1
  nonneg : ∀ q, q < mmPages → m.bit q = false → 0 ≤ m.refcount (some q)
  sole : ∀ x ∈ windows, 16 ≤ x.1 → isPresent (m.pte x.1 x.2) = true →
    isWritable (m.pte x.1 x.2) = true → lowMem ≤ pageFrom (m.pte x.1 x.2) → Sole m x

theorem InWindow.mem_windows {w d j : Nat} (hd : InWindow w d) (hw : w < nrTasks) (hj : j < 1024) :
    (d, j) ∈ windows := by
  unfold InWindow nrTasks at *
  exact mem_tablesFrom.mpr ⟨⟨Nat.zero_le d, by rw [nrTasks]; omega⟩, hj⟩

section

variable {m m' : Mm}

theorem FreeUnmapped.not_mapsTo (h : FreeUnmapped m) {n : Nat} (hn : m.bit n = false) {x : Nat × Nat}
    (hx : x ∈ windows) : ¬ MapsTo n (m.pte x.1 x.2) := by
  intro hq
  obtain ⟨hlt, rfl⟩ := hq.covered
  rw [h x hx hq.1 hq.2.1 hlt] at hn
  cases hn

/-- After a fork a present entry is of a page that an entry of the old state maps. -/
theorem DirsCopied.origin {src nr : Nat} (hc : DirsCopied m (16 * src) (16 * nr) 16 m')
    (hsrc : src < nrTasks) {x : Nat × Nat} (hx : x ∈ windows)
    (hp : isPresent (m'.pte x.1 x.2) = true) : ∃ y ∈ windows, isPresent (m.pte y.1 y.2) = true ∧
      pageFrom (m.pte y.1 y.2) = pageFrom (m'.pte x.1 x.2) ∧
        (y = x ∨ (16 * src ≤ y.1 ∧ y.1 < 16 * src + 16)) := by
  have hk := (mem_tablesFrom.mp hx).2
  rw [hc.entries x.1 x.2 hk] at hp ⊢
  split_ifs at hp ⊢ with hto hof
  · rw [isPresent_copied] at hp
    refine ⟨(16 * src + (x.1 - 16 * nr), x.2), mem_tablesFrom.mpr ⟨⟨Nat.zero_le _, ?_⟩, hk⟩,
      hp, (pageFrom_copied hp).symm, Or.inr ⟨Nat.le_add_right _ _, by omega⟩⟩
    show 16 * src + (x.1 - 16 * nr) < 0 + 16 * nrTasks
    omega
  · rw [isPresent_shared] at hp
    exact ⟨x, hx, hp, (pageFrom_shared _).symm, Or.inl rfl⟩
  · exact ⟨x, hx, hp, rfl, Or.inl rfl⟩

/-- A writable entry is not one of the copied ones, and was the only one. -/
theorem Shares.sole_fork (h : Shares m) {src nr : Nat} (hsrc : src < nrTasks)
    (hc : DirsCopied m (16 * src) (16 * nr) 16 m') {x : Nat × Nat} (hx : x ∈ windows)
    (h16 : 16 ≤ x.1) (hp : isPresent (m'.pte x.1 x.2) = true)
    (hw : isWritable (m'.pte x.1 x.2) = true) (hlow : lowMem ≤ pageFrom (m'.pte x.1 x.2)) :
    Sole m' x := by
  have hself := hc.entries x.1 x.2 (mem_tablesFrom.mp hx).2
  rw [hself] at hp hw hlow
  split_ifs at hp hw hlow hself with hto hof
  · rw [isWritable_copied] at hw
    cases hw
  · rw [isPresent_shared] at hp
    rw [pageFrom_shared] at hlow
    rw [isWritable_shared_high hp hlow] at hw
    cases hw
  · obtain ⟨hbit, hone⟩ := h.sole x hx h16 hp hw hlow
    rw [Sole, hself]
    refine ⟨hc.used _ hbit, fun y hy hpy hqy => ?_⟩
    obtain ⟨z, hz, hpz, hqz, hzy⟩ := hc.origin hsrc hy hpy
    have hzx := hone z hz hpz (hqz.trans hqy)
    rcases hzy with hzy | hzy
    · exact hzy.symm.trans hzx
    · exact absurd (hzx ▸ hzy) hof

theorem Shares.fork (h : Shares m) {src nr : Nat} (hsrc : src < nrTasks) (hnr : nr < nrTasks)
    (hne : src ≠ nr)
    (hs : DirsSupplied (pgdirIdx (window src)) (pgdirIdx (window nr)) 16 m) :
    Shares (m.copyMem src nr).2 := by
  have hs8 := hsrc
  have hn8 := hnr
  unfold nrTasks at hs8 hn8
  rw [pgdirIdx_window (by omega), pgdirIdx_window (by omega)] at hs
  rw [copyMem_eq (by omega) (by omega)]
  have hc := copyDirs_spec hs h.owned (by omega) (by omega) (by omega)
  have hcount := copyDirs_counts hs h.owned (by omega) (by omega) (by omega)
  generalize (copyDirs (16 * src) (16 * nr) 16 m).2 = m' at hc hcount
  refine ⟨hc.owned, fun x hx hp hlow => ?_, fun q hq => ?_, fun q hq hb => ?_,
    fun x hx h16 hp hw hlow => h.sole_fork hsrc hc hx h16 hp hw hlow⟩
  · obtain ⟨y, hy, hpy, hqy, -⟩ := hc.origin hsrc hx hp
    rw [← hqy] at hlow ⊢
    exact h.covered y hy hpy hlow
  · have hle := hc.refs_le (S := windows) (fun x hx => (mem_tablesFrom.mp hx).2) q
    have hm := h.counted q hq
    rw [hcount.refcount, ← refs_tablesFrom]
    by_cases hb : m.bit q = true
    · rw [if_pos hb] at hm
      rw [if_neg fun hn => by simp [hb] at hn, if_pos (hcount.used q hb)]
      omega
    · rw [if_neg hb] at hm
      rw [Bool.not_eq_true] at hb
      cases hb' : m'.bit q <;> simp only [hb] <;> simp <;> omega
  · have hm := h.nonneg q hq (bit_false hcount.used hb)
    rw [hcount.refcount, if_neg fun hn => by simp [hb] at hn]
    omega

/-- Entry `j` of table `d` has become writable. -/
structure Allowed (m : Mm) (d j : Nat) (m' : Mm) : Prop where
  owned : TablesOwned m'
  bit : ∀ k, m'.bit k = m.bit k
  refcount : m'.refcount = m.refcount
  entries : ∀ e k, m'.pte e k = if e = d ∧ k = j then m.pte d j ||| 2#32 else m.pte e k

theorem allowed_of_store (ho : TablesOwned m) {d j : Nat} (hp : isPresent (m.pte d j) = true) :
    Allowed m d j (m.store (m.tableFrame d) j (m.pte d j ||| 2#32)) := by
  obtain ⟨hs, hnew⟩ := sameTables_store ho (isPresent_pte_hasTable hp) j (m.pte d j ||| 2#32)
  exact ⟨hs.owned ho, bit_store _ _ _ _, rfl, hnew⟩

theorem Allowed.same {d j : Nat} (h : Allowed m d j m') (x : Nat × Nat) :
    isPresent (m'.pte x.1 x.2) = isPresent (m.pte x.1 x.2) ∧
      pageFrom (m'.pte x.1 x.2) = pageFrom (m.pte x.1 x.2) := by
  rw [h.entries]
  split
  next he =>
    rw [he.1, he.2]
    exact ⟨isPresent_or_write _, pageFrom_or_write _⟩
  next => exact ⟨rfl, rfl⟩

theorem Shares.keeps (h : Shares m) {d j : Nat} (hx : (d, j) ∈ windows)
    (hp : isPresent (m.pte d j) = true) (hk : KeepsPage m (pageFrom (m.pte d j)))
    (hu : EntryUsed m (m.pte d j)) :
    Shares (m.store (m.tableFrame d) j (m.pte d j ||| 2#32)) := by
  have hw := allowed_of_store h.owned hp
  generalize m.store (m.tableFrame d) j (m.pte d j ||| 2#32) = m' at hw
  have hsame := hw.same
  have hrefs : ∀ q, refs windows m' q = refs windows m q := fun q =>
    refs_congr fun x _ => mapsTo_congr (hsame x).1 (hsame x).2 q
  have hsole : ∀ x, Sole m x → Sole m' x := by
    rintro x ⟨hb, hone⟩
    refine ⟨by rw [hw.bit, (hsame x).2, hb], fun y hy hpy hqy => hone y hy ?_ ?_⟩
    · rw [← (hsame y).1, hpy]
    · rw [← (hsame y).2, hqy, (hsame x).2]
  refine ⟨hw.owned, fun x hx hp hlow => ?_, fun q hq => ?_, fun q hq hb => ?_,
    fun x hxw h16 hpx hwx hlow => hsole x ?_⟩
  · rw [(hsame x).1] at hp
    rw [(hsame x).2] at hlow ⊢
    exact h.covered x hx hp hlow
  · rw [hrefs, hw.refcount, hw.bit]
    exact h.counted q hq
  · rw [hw.refcount]
    exact h.nonneg q hq (hw.bit q ▸ hb)
  · by_cases he : x = (d, j)
    · -- the count says that the entry is the only one
      subst he
      have hcov := h.covered _ hx hp hk.1
      have hb := hu hk.1 hcov
      have hone : (refs windows m (pageNr (pageFrom (m.pte d j))) : Int) ≤ _ := h.counted _ hcov
      have hk₂ := hk.2
      rw [mmsPage_eq hcov] at hk₂
      rw [hk₂, if_pos hb] at hone
      refine ⟨hb, fun y hy hpy hqy => ?_⟩
      have hmaps := mapsTo_pageNr hp hk.1 hcov
      refine unique_of_refs_le (by omega) hy hx ?_ hmaps
      exact (mapsTo_congr (hpy.trans hp.symm) hqy _).mpr hmaps
    · have hold := hw.entries x.1 x.2
      rw [if_neg fun e => he (Prod.ext e.1 e.2)] at hold
      rw [hold] at hpx hwx hlow
      exact h.sole x hxw h16 hpx hwx hlow

/-- A page that was free gets the one entry that its count is for. -/
theorem Shares.counted_given (h : Shares m) {d j n : Nat} (hx : (d, j) ∈ windows)
    (hg : PageGiven m d j n m') (hf : FreeUnmapped m) {q : Nat} (hq : q < mmPages) :
    (refs windows m' q : Int) ≤ m'.refcount (some q) + if m'.bit q then 0 else 1 := by
  have hm := h.counted q hq
  have hr := hg.refs hx q
  rw [hg.refcount]
  by_cases hb : m.bit q = true
  · have hqn : q ≠ n := by
      rintro rfl
      rw [hg.free] at hb
      cases hb
    rw [if_pos hb] at hm
    rw [if_neg hqn] at hr
    rw [if_pos (hg.used q hb), if_neg fun hn => by simp [hb] at hn]
    split_ifs at hr ⊢ <;> omega
  · rw [Bool.not_eq_true] at hb
    have hzero : refs windows m q = 0 := refs_eq_zero fun x hxw => hf.not_mapsTo hb hxw
    have hno := hf.not_mapsTo hb hx
    have hnn := h.nonneg q hq hb
    rw [if_neg hno] at hr ⊢
    by_cases hqn : q = n
    · rw [if_pos hqn] at hr
      rw [if_pos ⟨hb, hqn ▸ hg.taken⟩, if_pos (hqn ▸ hg.taken)]
      omega
    · rw [if_neg hqn] at hr
      split_ifs <;> omega

/-- No entry of the old state is of the page. -/
theorem FreeUnmapped.fresh (hf : FreeUnmapped m) {d j n : Nat} (hg : PageGiven m d j n m')
    {x : Nat × Nat} (hx : x ∈ windows) (hp : isPresent (m.pte x.1 x.2) = true) :
    pageFrom (m.pte x.1 x.2) ≠ pageAddr n := by
  intro hq
  refine hf.not_mapsTo hg.free hx ⟨hp, ?_, ?_⟩
  · rw [hq]
    exact Nat.le_add_left _ _
  · rw [hq, mmsPage_eq (by rw [pageNr_pageAddr]; exact hg.lt), pageNr_pageAddr]

theorem Shares.sole_given (h : Shares m) {d j n : Nat} (hg : PageGiven m d j n m')
    (hf : FreeUnmapped m) {x : Nat × Nat} (hx : x ∈ windows) (h16 : 16 ≤ x.1)
    (hp : isPresent (m'.pte x.1 x.2) = true) (hw : isWritable (m'.pte x.1 x.2) = true)
    (hlow : lowMem ≤ pageFrom (m'.pte x.1 x.2)) : Sole m' x := by
  have hpage := pageFrom_userEntry_pageAddr hg.lt
  by_cases he : x.1 = d ∧ x.2 = j
  · obtain ⟨rfl, rfl⟩ := he
    rw [Sole, hg.self, hpage, pageNr_pageAddr]
    refine ⟨hg.taken, fun y hy hpy hqy => by_contra fun hne => ?_⟩
    rw [hg.other fun e => hne (Prod.ext e.1 e.2)] at hpy hqy
    exact hf.fresh hg hy hpy hqy
  · rw [hg.other he] at hp hw hlow
    obtain ⟨hb, hone⟩ := h.sole x hx h16 hp hw hlow
    rw [Sole, hg.other he]
    refine ⟨hg.used _ hb, fun y hy hpy hqy => ?_⟩
    by_cases hey : y.1 = d ∧ y.2 = j
    · rw [hey.1, hey.2, hg.self, hpage] at hqy
      exact absurd hqy.symm (hf.fresh hg hx hp)
    · rw [hg.other hey] at hpy hqy
      exact hone y hy hpy hqy

theorem Shares.given (h : Shares m) {d j n : Nat} (hx : (d, j) ∈ windows)
    (hg : PageGiven m d j n m') (hf : FreeUnmapped m) : Shares m' := by
  refine ⟨hg.owned, fun x hxw hp hlow => ?_, fun q hq => h.counted_given hx hg hf hq,
    fun q hq hb => ?_, fun x hxw h16 hp hw hlow => h.sole_given hg hf hxw h16 hp hw hlow⟩
  · by_cases he : x.1 = d ∧ x.2 = j
    · rw [he.1, he.2, hg.self, pageFrom_userEntry_pageAddr hg.lt, pageNr_pageAddr]
      exact hg.lt
    · rw [hg.other he] at hp hlow ⊢
      exact h.covered x hxw hp hlow
  · have hb₀ := bit_false hg.used hb
    have hnn := h.nonneg q hq hb₀
    rw [hg.refcount, if_neg fun hn => by simp [hb] at hn, if_neg (hf.not_mapsTo hb₀ hx)]
    omega

theorem Shares.event (h : Shares m) {a : Event} (hs : EventStep a m m') (hsafe : EventSafe m a) :
    Shares m' := by
  cases hs with
  | fork hsrc h0 hnr hne hs => exact h.fork hsrc hnr hne hs
  | @writeFault _ _ address hnr ha hp hw hf =>
    have hx := ha.mem_windows hnr (pageIdx_lt address)
    rw [doWpPage_eq (isPresent_pte_hasTable hp)]
    split
    next hk => exact h.keeps hx hp hk hsafe.1
    next hk =>
      obtain ⟨n, hn⟩ := hf
      exact h.given hx (unshare_spec h.owned hn hp).2 (hsafe.2 hk)
  | @emptyFault _ _ _ address hnr ha hp hf ht he =>
    obtain ⟨n, hn⟩ := hf
    obtain ⟨m₁, he₁, hg⟩ := getEmptyPage_spec h.owned hn hp ht
    obtain rfl := Option.some.inj (he₁.symm.trans he)
    exact h.given (ha.mem_windows hnr (pageIdx_lt address)) hg hsafe

end

theorem Booted.entry {kb pd : Nat} (h : Installed kb pd) {m : Mm} (hb : Booted kb pd m) {d j : Nat}
    (hj : j < 1024) (hp : isPresent (m.pte d j) = true) :
    d < bootTables kb ∧ pageFrom (m.pte d j) = 4096 * (1024 * d + j) := by
  have hle := h.tables_le
  rw [hb.pte h hj] at hp ⊢
  split_ifs at hp ⊢ with hd
  · exact ⟨hd, pageFrom_ofNat (by omega)⟩
  · exact absurd hp (by decide)

/-- The boot maps every page at most once, and only in window 0. -/
theorem Booted.shares {kb pd : Nat} (h : Installed kb pd) {m : Mm} (hb : Booted kb pd m) :
    Shares m := by
  have hle := h.tables_le
  have hlt : ∀ x ∈ windows, x.2 < 1024 := fun x hx => (mem_tablesFrom.mp hx).2
  have hentry : ∀ x ∈ windows, isPresent (m.pte x.1 x.2) = true →
      x.1 < bootTables kb ∧ pageFrom (m.pte x.1 x.2) = 4096 * (1024 * x.1 + x.2) :=
    fun x hx => hb.entry h (hlt x hx)
  refine ⟨hb.tablesOwned h, fun x hx hp hlow => ?_, fun q hq => ?_, fun q hq hbit => ?_,
    fun x hx h16 hp => ?_⟩
  · obtain ⟨hd, hq⟩ := hentry x hx hp
    have hk := hlt x hx
    rw [hq] at hlow ⊢
    rw [pageNr_high hlow]
    simp only [lowMem, mmPages] at *
    omega
  · have hone : refs windows m q ≤ 1 := by
      refine refs_le_one fun x hx y hy hqx hqy => ?_
      have hx₁ := hentry x hx hqx.1
      have hy₁ := hentry y hy hqy.1
      have hkx := hlt x hx
      have hky := hlt y hy
      have hnx := hqx.covered.2
      have hny := hqy.covered.2
      rw [pageNr_high hqx.2.1, hx₁.2] at hnx
      rw [pageNr_high hqy.2.1, hy₁.2] at hny
      have hlx := hqx.2.1
      have hly := hqy.2.1
      rw [hx₁.2] at hlx
      rw [hy₁.2] at hly
      simp only [lowMem] at *
      exact Prod.ext (by omega) (by omega)
    rw [hb.refcount q hq, hb.bit q hq]
    by_cases hf : FreeAtBoot (memoryEnd kb) (firstFree kb pd) q
    · simp only [hf, if_pos, decide_true, Bool.not_true, Bool.false_eq_true, if_false]
      omega
    · simp only [hf, if_false, decide_false, Bool.not_false, if_true]
      omega
  · rw [hb.refcount q hq]
    split <;> omega
  · have := (hentry x hx hp).1
    omega

/-- Sixteen free pages are enough for a fork. -/
theorem fork_supplied {m : Mm} (ho : TablesOwned m) {src nr : Nat} (hsrc : src < nrTasks)
    (h0 : 0 < nr) (hnr : nr < nrTasks) (hne : src ≠ nr) (hfree : 16 ≤ (freePages m).card) :
    ∃ m', EventStep (.fork src nr) m m' ∧ DirsCopied m (16 * src) (16 * nr) 16 m' ∧
      (freePages m).card ≤ (freePages m').card + 16 := by
  have hlt := hsrc
  have hlt' := hnr
  unfold nrTasks at hlt hlt'
  have hs : DirsSupplied (16 * src) (16 * nr) 16 m := by
    refine dirsSupplied ho (by omega) (by omega) (by omega) ((Finset.card_filter_le _ _).trans ?_)
    rw [Nat.card_Ico]
    omega
  have hstep : EventStep (.fork src nr) m (m.copyMem src nr).2 := by
    refine .fork hsrc h0 hnr hne ?_
    rw [pgdirIdx_window (by omega), pgdirIdx_window (by omega)]
    exact hs
  rw [copyMem_eq (by omega) (by omega)] at hstep
  exact ⟨_, hstep, copyDirs_spec hs ho (by omega) (by omega) (by omega),
    copyDirs_spare hs ho (by omega) (by omega) (by omega)⟩

/-- Two are enough for a page and its table. -/
theorem emptyFault_supplied {m : Mm} (ho : TablesOwned m) {nr address : Nat} (hnr : nr < nrTasks)
    (ha : InWindow nr (pgdirIdx address))
    (hp : isPresent (m.pte (pgdirIdx address) (pageIdx address)) = false)
    (hfree : 2 ≤ (freePages m).card) :
    ∃ n m', EventStep (.emptyFault nr address) m m' ∧
      PageGiven m (pgdirIdx address) (pageIdx address) n m' := by
  obtain ⟨n, hn⟩ := hasFree_of_card (m := m) (by omega)
  obtain ⟨-, href, -⟩ := getFreePage_spec hn
  have hcard := Finset.card_erase_of_mem (mem_freePages.mpr ⟨hn.lt, hn.free⟩)
  rw [← freePages_taken href.bit] at hcard
  have htable : HasFree m.getFreePage.2 := hasFree_of_card (by omega)
  obtain ⟨m', he, hg⟩ := getEmptyPage_spec ho hn hp (Or.inr htable)
  exact ⟨n, m', .emptyFault hnr ha hp ⟨n, hn⟩ (Or.inr htable) he, hg⟩

theorem FreeUnmapped.fork {m m' : Mm} (h : FreeUnmapped m) {src nr : Nat} (hsrc : src < nrTasks)
    (hc : DirsCopied m (16 * src) (16 * nr) 16 m') : FreeUnmapped m' := by
  intro x hx hp
  obtain ⟨y, hy, hpy, hqy, -⟩ := hc.origin hsrc hx hp
  rw [EntryUsed, ← hqy]
  exact fun hlow hcov => hc.used _ (h y hy hpy hlow hcov)

theorem FreeUnmapped.given {m m' : Mm} (h : FreeUnmapped m) {d j n : Nat}
    (hg : PageGiven m d j n m') : FreeUnmapped m' := by
  intro x hx hp hlow hcov
  rw [hg.entries] at hp hlow hcov ⊢
  split_ifs at hp hlow hcov ⊢ with he
  · rw [pageFrom_userEntry_pageAddr hg.lt, pageNr_pageAddr]
    exact hg.taken
  · exact hg.used _ (h x hx hp hlow hcov)

theorem Booted.absent {kb pd : Nat} {m : Mm} (hb : Booted kb pd m) {d : Nat}
    (hd : bootTables kb ≤ d) : ¬ HasTable m d := by
  intro ht
  have hp := ht.2
  rw [hb.pgDir, hb.paging.dir _ ht.1, if_neg (by omega)] at hp
  exact absurd hp (by decide)

/-- A write fault leaves a page that the task may write. -/
theorem doWpPage_writable {m : Mm} (ho : TablesOwned m) {address : Nat}
    (hp : isPresent (m.pte (pgdirIdx address) (pageIdx address)) = true) (hf : HasFree m) :
    ∃ w, (m.doWpPage address).pte (pgdirIdx address) (pageIdx address) = w ∧
      isPresent w = true ∧ isWritable w = true ∧ lowMem ≤ pageFrom w := by
  refine ⟨_, rfl, ?_⟩
  rw [doWpPage_eq (isPresent_pte_hasTable hp)]
  split
  next hk =>
    rw [(allowed_of_store ho hp).entries, if_pos ⟨rfl, rfl⟩, pageFrom_or_write]
    exact ⟨(isPresent_or_write _).trans hp, isWritable_or_write _, hk.1⟩
  next =>
    obtain ⟨n, hn⟩ := hf
    rw [(unshare_spec ho hn hp).2.entries, if_pos ⟨rfl, rfl⟩, pageFrom_userEntry_pageAddr hn.lt]
    exact ⟨isPresent_userEntry _, isWritable_userEntry _, Nat.le_add_left _ _⟩

end Gpos.Mm
