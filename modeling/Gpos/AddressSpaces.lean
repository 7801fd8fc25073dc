import Gpos.CopyOnWrite

/-! What the tasks have in their windows over forks, page faults and stores. Copy
on write is to be seen by nobody. -/

namespace Gpos.Mm

/-- Frame `f` is not the page directory or a table, and the allocator does not have it. -/
structure Data (m : Mm) (f : Nat) : Prop where
  dir : f ≠ m.pgDir
  table : ∀ d, HasTable m d → tableFrame m d ≠ f
  used : f < 256 ∨ m.bit (f - 256) = true

theorem Data.ne_free {m : Mm} {f n : Nat} (h : Data m f) (hn : m.bit n = false) :
    f ≠ pageFrame n := by
  rintro rfl
  rcases h.used with hlow | hbit
  · exact absurd hlow (Nat.not_lt.mpr (Nat.le_add_left _ _))
  · rw [pageFrame, Nat.add_sub_cancel, hn] at hbit
    cases hbit

/-- The frames with data keep them. -/
structure KeepsData (m m' : Mm) : Prop where
  data : ∀ f, Data m f → Data m' f
  mem : ∀ f, Data m f → m'.mem f = m.mem f

section

variable {m m' m'' : Mm}

theorem KeepsData.refl (m : Mm) : KeepsData m m := ⟨fun _ h => h, fun _ _ => rfl⟩

theorem KeepsData.trans (h : KeepsData m m') (h' : KeepsData m' m'') : KeepsData m m'' :=
  ⟨fun f hf => h'.data f (h.data f hf), fun f hf => (h'.mem f (h.data f hf)).trans (h.mem f hf)⟩

theorem SameTables.data (h : SameTables m m') {f : Nat} (hf : Data m f) : Data m' f where
  dir := h.pgDir ▸ hf.dir
  table d hd := h.tableFrame d ▸ hf.table d ((h.hasTable d).mp hd)
  used := hf.used.imp_right (h.used _)

theorem SameTables.keepsData (h : SameTables m m') (hmem : ∀ f, Data m f → m'.mem f = m.mem f) :
    KeepsData m m' :=
  ⟨fun _ hf => h.data hf, hmem⟩

theorem keepsData_addRef (m : Mm) (p : Option Nat) (c : Int) : KeepsData m (m.addRef p c) :=
  (sameTables_addRef m p c).1.keepsData fun _ _ => rfl

theorem keepsData_store (ho : TablesOwned m) {d : Nat} (hd : HasTable m d) (j : Nat)
    (w : BitVec 32) : KeepsData m (m.store (tableFrame m d) j w) := by
  refine (sameTables_store ho hd j w).1.keepsData fun f hf => ?_
  funext k
  rw [mem_store, if_neg fun h => hf.table d hd h.1.symm]

theorem keepsData_getFreePage (ho : TablesOwned m) {n : Nat} (hn : IsTopFree m n) :
    KeepsData m m.getFreePage.2 := by
  obtain ⟨-, -, hmem⟩ := getFreePage_spec hn
  refine (sameTables_getFreePage ho hn).1.keepsData fun f hf => ?_
  rw [hmem, Function.update_of_ne (hf.ne_free hn.free)]

/-- The page that the allocator gives has zeros. -/
theorem data_getFreePage (ho : TablesOwned m) {n : Nat} (hn : IsTopFree m n) :
    Data m.getFreePage.2 (pageFrame n) ∧ m.getFreePage.2.mem (pageFrame n) = fun _ => 0 := by
  obtain ⟨-, href, hmem⟩ := getFreePage_spec hn
  obtain ⟨hs, -⟩ := sameTables_getFreePage ho hn
  refine ⟨⟨?_, fun d hd => ?_, .inr ?_⟩, ?_⟩
  · rw [hs.pgDir]
    exact (ho.dir.ne hn.free).symm
  · rw [hs.tableFrame]
    exact (ho.table d ((hs.hasTable d).mp hd)).1.ne hn.free
  · rw [pageFrame, Nat.add_sub_cancel, href.bit, decide_eq_true rfl, Bool.or_true]
  · rw [hmem, Function.update_self]

theorem keepsData_withTable (ho : TablesOwned m) {n e : Nat} (hn : IsTopFree m n) (he : e < 1024) :
    KeepsData m (withTable e m) := by
  have h := withTable_stored ho hn e
  refine ⟨fun f hf => ⟨h.pgDir ▸ hf.dir, fun d hd => ?_, hf.used.imp_right h.used⟩, fun f hf => ?_⟩
  · by_cases hde : d = e
    · rw [hde, h.tableFrame_new hn.lt]
      exact (hf.ne_free hn.free).symm
    · rw [h.tableFrame_old hde]
      exact hf.table d (((h.hasTable he d).mp hd).resolve_left hde)
  · funext j
    rw [h.rest f j hf.dir, (keepsData_getFreePage ho hn).mem f hf]

theorem keepsData_copyEntry (ho : TablesOwned m) {d e : Nat} (hd : HasTable m d)
    (he : HasTable m e) (n : Nat) :
    KeepsData m (copyEntry (m.tableFrame d) (m.tableFrame e) n m) := by
  cases hp : isPresent (m.mem (m.tableFrame d) n) with
  | false =>
    rw [copyEntry_absent _ hp]
    exact .refl m
  | true =>
    rw [copyEntry_present _ hp]
    generalize protect (m.mem (m.tableFrame d) n) = w
    have hto := keepsData_store ho he n w
    have hs := (sameTables_store ho he n w).1
    split
    · refine (hto.trans ?_).trans (keepsData_addRef _ _ 1)
      rw [← hs.tableFrame d]
      exact keepsData_store (hs.owned ho) ((hs.hasTable d).mpr hd) n _
    · exact hto

theorem keepsData_copyTable (ho : TablesOwned m) {d e : Nat} (hd : HasTable m d)
    (he : HasTable m e) (hne : d ≠ e) (n : Nat) :
    KeepsData m (copyTable (m.tableFrame d) (m.tableFrame e) n m) := by
  induction n with
  | zero => exact .refl m
  | succ n ih =>
    have hs := (copyTable_spec ho hd he hne n).same
    rw [copyTable]
    generalize copyTable (m.tableFrame d) (m.tableFrame e) n m = m₁ at ih hs
    refine ih.trans ?_
    rw [← hs.tableFrame d, ← hs.tableFrame e]
    exact keepsData_copyEntry (hs.owned ho) ((hs.hasTable d).mpr hd) ((hs.hasTable e).mpr he) n

theorem keepsData_copyDir (ho : TablesOwned m) {n d e : Nat} (hn : IsTopFree m n)
    (hd : HasTable m d) (he : e < 1024) (hne : d ≠ e) : KeepsData m (copyDir d e m) := by
  obtain ⟨ha, hnew⟩ := withTable_spec ho hn he
  have hcopy : copyDir d e m = copyTable (m.tableFrame d) (m.getFreePage.1 / 4096) 1024
    (withTable e m) := rfl
  rw [hcopy, ← hnew, ← ha.tableFrame d hne]
  exact (keepsData_withTable ho hn he).trans (keepsData_copyTable ha.owned
    ((ha.hasTable d).mpr (.inr hd)) ((ha.hasTable e).mpr (.inl rfl)) hne 1024)

theorem keepsData_copyDirs {a b size : Nat} (hs : DirsSupplied a b size m) (ho : TablesOwned m)
    (ha : a + size ≤ 1024) (hb : b + size ≤ 1024) (hdis : a + size ≤ b ∨ b + size ≤ a) :
    KeepsData m (copyDirs a b size m).2 := by
  induction hs with
  | done => exact .refl _
  | skip hp hs ih =>
    rw [copyDirs, if_pos hp]
    exact ih ho (by omega) (by omega) (by omega)
  | @copy a b size m hp hf hs ih =>
    obtain ⟨n, hn⟩ := hf
    have hta : HasTable m a := ⟨by omega, hp⟩
    have hc := copyDir_spec ho hn hta (show b < 1024 by omega) (show a ≠ b by omega)
    rw [copyDirs, if_neg (by simp [hp]), if_neg (getFreePage_ne_zero m)]
    exact (keepsData_copyDir ho hn hta (by omega) (by omega)).trans
      (ih hc.owned (by omega) (by omega) (by omega))

theorem identityMapped_iff {addr : Nat} : IdentityMapped m addr ↔
    isPresent (m.pte (pgdirIdx addr) (pageIdx addr)) = true ∧
      pageFrom (m.pte (pgdirIdx addr) (pageIdx addr)) = addr / 4096 * 4096 := by
  constructor
  · rintro ⟨hd, hp, hq⟩
    have hta : HasTable m (pgdirIdx addr) := ⟨Nat.mod_lt _ (by decide), hd⟩
    rw [pte_of_hasTable hta]
    exact ⟨hp, hq⟩
  · rintro ⟨hp, hq⟩
    have hd := isPresent_pte_hasTable hp
    rw [pte_of_hasTable hd] at hp hq
    exact ⟨hd.2, hp, hq⟩

theorem IdentityMapped.linear {addr : Nat} (h : IdentityMapped m addr) :
    m.linear addr = addr / 4096 := by
  rw [Mm.linear, if_pos ⟨h.1, h.2.1⟩, h.2.2, Nat.mul_div_cancel _ (by decide)]

/-- Entry `j` of table `d` is that of the new page `n`, which has not been filled. -/
structure Replaced (m : Mm) (d j n : Nat) (m₁ : Mm) : Prop where
  keeps : KeepsData m m₁
  data : Data m₁ (pageFrame n)
  zero : m₁.mem (pageFrame n) = fun _ => 0
  entries : ∀ e k, m₁.pte e k = if e = d ∧ k = j then userEntry (pageAddr n) else m.pte e k

theorem unshare_replaced (ho : TablesOwned m) {n d j : Nat} (hn : IsTopFree m n)
    (hp : isPresent (m.pte d j) = true) : ∃ m₁, Replaced m d j n m₁ ∧
      m.unshare (m.tableFrame d) j =
        m₁.fillPage (pageFrame n) (m₁.mem (m₁.linear (pageFrom (m.pte d j)))) := by
  have hd := isPresent_pte_hasTable hp
  obtain ⟨hpage, -, -⟩ := getFreePage_spec hn
  obtain ⟨hs, hpte⟩ := sameTables_getFreePage ho hn
  have hkeep := keepsData_getFreePage ho hn
  obtain ⟨hdata, hzero⟩ := data_getFreePage ho hn
  rw [pte_of_hasTable hd, unshare, hpage, pageAddr_div]
  generalize pageFrom (m.mem (m.tableFrame d) j) = old
  generalize m.getFreePage.2 = m₁ at hs hkeep hdata hzero hpte
  generalize hm₂ : (if lowMem ≤ old then m₁.addRef (mmsPage old) (-1) else m₁) = m₂
  have h₂ : (SameTables m₁ m₂ ∧ KeepsData m₁ m₂) ∧ ∀ e k, m₂.pte e k = m₁.pte e k := by
    rw [← hm₂]
    split
    · exact ⟨⟨(sameTables_addRef m₁ _ _).1, keepsData_addRef m₁ _ _⟩, (sameTables_addRef m₁ _ _).2⟩
    · exact ⟨⟨.refl m₁, .refl m₁⟩, fun _ _ => rfl⟩
  have hs₂ : SameTables m m₂ := hs.trans h₂.1.1
  have ht₂ := (hs₂.hasTable d).mpr hd
  have h₃ := keepsData_store (hs₂.owned ho) ht₂ j (userEntry (pageAddr n))
  obtain ⟨-, hpte₃⟩ := sameTables_store (hs₂.owned ho) ht₂ j (userEntry (pageAddr n))
  rw [hs₂.tableFrame] at h₃ hpte₃
  have h₁₃ := h₂.1.2.trans h₃
  refine ⟨_, ⟨hkeep.trans h₁₃, h₁₃.data _ hdata, (h₁₃.mem _ hdata).trans hzero, fun e k => ?_⟩, rfl⟩
  rw [hpte₃, h₂.2, hpte]

/-- The page that an entry gets has the contents of the old one, which is found at its own address
unless the entry is the one there. -/
theorem unshare_data (ho : TablesOwned m) {n d j : Nat} (hn : IsTopFree m n)
    (hp : isPresent (m.pte d j) = true) : KeepsData m (m.unshare (m.tableFrame d) j) ∧
      Data (m.unshare (m.tableFrame d) j) (pageFrame n) ∧
        (Data m (pageFrom (m.pte d j) / 4096) → IdentityMapped m (pageFrom (m.pte d j)) →
          ¬ (pgdirIdx (pageFrom (m.pte d j)) = d ∧ pageIdx (pageFrom (m.pte d j)) = j) →
            (m.unshare (m.tableFrame d) j).mem (pageFrame n) =
              m.mem (pageFrom (m.pte d j) / 4096)) := by
  obtain ⟨m₁, hr, he⟩ := unshare_replaced ho hn hp
  rw [he]
  generalize pageFrom (m.pte d j) = old
  -- the page that is filled has data, and none that was there before
  have hs : ∀ w, SameTables m₁ (m₁.fillPage (pageFrame n) w) := by
    intro w
    refine ⟨rfl, ?_, fun _ hk => hk⟩
    rw [mem_fillPage, Function.update_of_ne hr.data.dir.symm]
  refine ⟨⟨fun f hf => (hs _).data (hr.keeps.data f hf), fun f hf => ?_⟩, (hs _).data hr.data,
    fun hold hid hne => ?_⟩
  · rw [mem_fillPage, Function.update_of_ne (hf.ne_free hn.free), hr.keeps.mem f hf]
  · have hid₁ : IdentityMapped m₁ old := by
      rw [identityMapped_iff, hr.entries, if_neg hne]
      exact identityMapped_iff.mp hid
    rw [mem_fillPage, Function.update_self, hid₁.linear, hr.keeps.mem _ hold]

/-- When the entry is the one at the address of the old page, the new page is copied to itself. -/
theorem unshare_zeros (ho : TablesOwned m) {n d j : Nat} (hn : IsTopFree m n)
    (hp : isPresent (m.pte d j) = true) (hd : pgdirIdx (pageFrom (m.pte d j)) = d)
    (hj : pageIdx (pageFrom (m.pte d j)) = j) :
    (m.unshare (m.tableFrame d) j).mem (pageFrame n) = fun _ => 0 := by
  obtain ⟨m₁, hr, he⟩ := unshare_replaced ho hn hp
  have hentry : m₁.pte d j = userEntry (pageAddr n) := by rw [hr.entries, if_pos ⟨rfl, rfl⟩]
  have ht : HasTable m₁ d := isPresent_pte_hasTable (hentry ▸ isPresent_userEntry _)
  rw [pte_of_hasTable ht] at hentry
  have hlin : m₁.linear (pageFrom (m.pte d j)) = pageFrame n := by
    have hframe : pageFrom (m₁.pde (pageFrom (m.pte d j))) / 4096 = m₁.tableFrame d := by
      rw [pde, hd, tableFrame]
    have hpde : isPresent (m₁.pde (pageFrom (m.pte d j))) = true := by
      rw [pde, hd]
      exact ht.2
    rw [linear, hframe, hj, hentry, if_pos ⟨hpde, isPresent_userEntry _⟩,
      pageFrom_div_userEntry (pageAddr_lt hn.lt), pageAddr_div]
  rw [he, mem_fillPage, Function.update_self, hlin, hr.zero]

theorem putPage_fst (page address : Nat) (m : Mm) : (m.putPage page address).1 = page := by
  rw [putPage]
  split
  · rfl
  · rw [if_neg (getFreePage_ne_zero m)]

theorem keepsData_putPage (ho : TablesOwned m) (page address : Nat)
    (ht : isPresent (m.pde address) = true ∨ HasFree m) :
    KeepsData m (m.putPage page address).2 := by
  have hd : pgdirIdx address < 1024 := Nat.mod_lt _ (by decide)
  by_cases hp : isPresent (m.pde address) = true
  · rw [putPage, if_pos hp]
    exact keepsData_store ho ⟨hd, hp⟩ (pageIdx address) _
  · obtain ⟨k, hk⟩ := ht.resolve_left hp
    obtain ⟨hadd, hframe⟩ := withTable_spec ho hk hd
    have hput : (m.putPage page address).2 = (withTable (pgdirIdx address) m).store
        (m.getFreePage.1 / 4096) (pageIdx address) (BitVec.ofNat 32 page ||| 7#32) := by
      rw [putPage, if_neg hp, if_neg (getFreePage_ne_zero m)]
      rfl
    rw [hput, ← hframe]
    exact (keepsData_withTable ho hk hd).trans
      (keepsData_store hadd.owned ((hadd.hasTable _).mpr (.inl rfl)) (pageIdx address) _)

theorem getEmptyPage_data (ho : TablesOwned m) {n address : Nat} (hn : IsTopFree m n)
    (ht : isPresent (m.pde address) = true ∨ HasFree m.getFreePage.2)
    (he : m.getEmptyPage address = some m') :
    KeepsData m m' ∧ Data m' (pageFrame n) ∧ m'.mem (pageFrame n) = fun _ => 0 := by
  obtain ⟨hs, -⟩ := sameTables_getFreePage ho hn
  obtain ⟨hdata, hzero⟩ := data_getFreePage ho hn
  have hpde : m.getFreePage.2.pde address = m.pde address := by
    rw [pde, pde, hs.pgDir, hs.dir]
  have hput := keepsData_putPage (hs.owned ho) m.getFreePage.1 address (hpde.symm ▸ ht)
  have hne : (m.getFreePage.2.putPage m.getFreePage.1 address).1 ≠ 0 := by
    rw [putPage_fst]
    exact getFreePage_ne_zero m
  rw [getEmptyPage] at he
  simp only [getFreePage_ne_zero m, hne, or_self, if_false] at he
  cases he
  exact ⟨(keepsData_getFreePage ho hn).trans hput, hput.data _ hdata,
    (hput.mem _ hdata).trans hzero⟩

end

/-! The windows -/

/-- The frame of page `j` behind directory entry `i` of the window of task `w`. -/
def frame (m : Mm) (w i j : Nat) : Nat := pageFrom (m.pte (16 * w + i) j) / 4096

structure Sees (m : Mm) (w i j : Nat) (c : Nat → BitVec 32) : Prop where
  present : isPresent (m.pte (16 * w + i) j) = true
  data : Data m (frame m w i j)
  mem : m.mem (frame m w i j) = c

/-- The contents of each page of data in the windows, by the task, the directory entry in the window
and the number of the page. -/
abbrev Spaces := Nat → Nat → Nat → Option (Nat → BitVec 32)

open Classical in
noncomputable def seen (m : Mm) : Spaces := fun w i j =>
  if isPresent (m.pte (16 * w + i) j) = true ∧ Data m (frame m w i j) then
    some (m.mem (frame m w i j))
  else none

theorem seen_iff {m : Mm} {w i j : Nat} {c : Nat → BitVec 32} :
    seen m w i j = some c ↔ Sees m w i j c := by
  unfold seen
  constructor
  · intro h
    split at h
    next hd => exact ⟨hd.1, hd.2, Option.some.inj h⟩
    next => cases h
  · intro h
    rw [if_pos ⟨h.present, h.data⟩, h.mem]

/-- What happens to the memory of the tasks. A store is of word `k` of a page. -/
inductive Act
  | event (a : Event)
  | store (nr i j k : Nat) (v : BitVec 32)

def Spaces.set (A : Spaces) (w i j : Nat) (x : Option (Nat → BitVec 32)) : Spaces :=
  fun w' i' j' => if w' = w ∧ i' = i ∧ j' = j then x else A w' i' j'

/-- Every task has a memory of its own. A fork copies the memory of a task, a fault adds a page of
zeros, and a write fault is nothing. -/
def Spaces.step (A : Spaces) : Act → Spaces
  | .event (.fork src nr) => Function.update A nr (A src)
  | .event (.writeFault _ _) => A
  | .event (.emptyFault nr address) =>
    A.set nr (pgdirIdx address - 16 * nr) (pageIdx address) (some fun _ => 0)
  | .store nr i j k v => A.set nr i j ((A nr i j).map fun c => Function.update c k v)

/-- The tasks see at least what is in `A`. -/
def Holds (m : Mm) (A : Spaces) : Prop :=
  ∀ w i j c, w < nrTasks → i < 16 → j < 1024 → A w i j = some c → Sees m w i j c

section

variable {m m' : Mm} {A : Spaces}

theorem Sees.keep {w i j : Nat} {c : Nat → BitVec 32} (h : Sees m w i j c) (hk : KeepsData m m')
    {w' i' : Nat} (hp : isPresent (m'.pte (16 * w' + i') j) = true)
    (hq : frame m' w' i' j = frame m w i j) : Sees m' w' i' j c := by
  refine ⟨hp, ?_, ?_⟩
  · rw [hq]
    exact hk.data _ h.data
  · rw [hq, hk.mem _ h.data, h.mem]

theorem DirsCopied.pte_other {src nr w i j : Nat} (hc : DirsCopied m (16 * src) (16 * nr) 16 m')
    (hw : w ≠ nr) (hi : i < 16) (hj : j < 1024) : m'.pte (16 * w + i) j =
      if w = src then shared (m.pte (16 * w + i) j) else m.pte (16 * w + i) j := by
  rw [hc.entries _ j hj, if_neg fun h => by omega]
  by_cases hws : w = src
  · rw [if_pos hws, if_pos (by omega)]
  · rw [if_neg hws, if_neg (by omega)]

theorem DirsCopied.pte_copy {src nr i j : Nat} (hc : DirsCopied m (16 * src) (16 * nr) 16 m')
    (hi : i < 16) (hj : j < 1024) (hp : isPresent (m.pte (16 * src + i) j) = true) :
    m'.pte (16 * nr + i) j = copied (m.pte (16 * src + i) j) := by
  have hidx : 16 * src + (16 * nr + i - 16 * nr) = 16 * src + i := by omega
  rw [hc.entries _ j hj, hidx, if_pos ⟨by omega, isPresent_pte_hasTable hp⟩]

theorem Holds.fork (h : Holds m A) (ho : TablesOwned m) {src nr : Nat} (hsrc : src < nrTasks)
    (hnr : nr < nrTasks) (hne : src ≠ nr)
    (hs : DirsSupplied (pgdirIdx (window src)) (pgdirIdx (window nr)) 16 m) :
    Holds (m.copyMem src nr).2 (Function.update A nr (A src)) := by
  unfold nrTasks at hsrc hnr
  rw [pgdirIdx_window (by omega), pgdirIdx_window (by omega)] at hs
  rw [copyMem_eq (by omega) (by omega)]
  have hc := copyDirs_spec hs ho (by omega) (by omega) (by omega)
  have hk := keepsData_copyDirs hs ho (by omega) (by omega) (by omega)
  generalize (copyDirs (16 * src) (16 * nr) 16 m).2 = m' at hc hk
  intro w i j c hw hi hj hA
  by_cases hwn : w = nr
  · subst hwn
    rw [Function.update_self] at hA
    have hsees := h src i j c hsrc hi hj hA
    have hentry := hc.pte_copy hi hj hsees.present
    refine hsees.keep hk ?_ ?_
    · rw [hentry, isPresent_copied, hsees.present]
    · rw [frame, hentry, pageFrom_copied hsees.present]
      rfl
  · rw [Function.update_of_ne hwn] at hA
    have hsees := h w i j c hw hi hj hA
    have hentry := hc.pte_other hwn hi hj
    refine hsees.keep hk ?_ ?_
    · rw [hentry]
      split
      · rw [isPresent_shared, hsees.present]
      · exact hsees.present
    · rw [frame, hentry]
      split
      · rw [pageFrom_shared]
        rfl
      · rfl

/-- One entry changes, and the page of an entry is still there. -/
theorem Holds.entry (h : Holds m A) (hk : KeepsData m m') {d k : Nat} {x : BitVec 32}
    (hpte : ∀ e j, j < 1024 → m'.pte e j = if e = d ∧ j = k then x else m.pte e j) {B : Spaces}
    (hother : ∀ w i j, ¬ (16 * w + i = d ∧ j = k) → B w i j = A w i j)
    (hself : ∀ w i c, w < nrTasks → i < 16 → 16 * w + i = d → B w i k = some c →
      Sees m' w i k c) : Holds m' B := by
  intro w i j c hw hi hj hB
  by_cases hin : 16 * w + i = d ∧ j = k
  · obtain ⟨hd, rfl⟩ := hin
    exact hself w i c hw hi hd hB
  · rw [hother w i j hin] at hB
    have hsees := h w i j c hw hi hj hB
    have hentry := hpte (16 * w + i) j hj
    rw [if_neg hin] at hentry
    refine hsees.keep hk (hentry ▸ hsees.present) ?_
    rw [frame, hentry]
    rfl

theorem frame_userEntry {n w i j : Nat} (hn : n < mmPages)
    (h : m.pte (16 * w + i) j = userEntry (pageAddr n)) : frame m w i j = pageFrame n := by
  rw [frame, h, pageFrom_div_userEntry (pageAddr_lt hn), pageAddr_div]

theorem Holds.keeps (h : Holds m A) (ho : TablesOwned m) {d j : Nat} (hj : j < 1024)
    (hp : isPresent (m.pte d j) = true) :
    Holds (m.store (m.tableFrame d) j (m.pte d j ||| 2#32)) A := by
  have hw := allowed_of_store ho hp
  have hk := keepsData_store ho (isPresent_pte_hasTable hp) j (m.pte d j ||| 2#32)
  generalize m.store (m.tableFrame d) j (m.pte d j ||| 2#32) = m' at hw hk
  refine h.entry hk (fun e k _ => hw.entries e k) (fun _ _ _ _ => rfl) fun w i c hwt hi _ hA => ?_
  have hsees := h w i j c hwt hi hj hA
  have hsame := hw.same (16 * w + i, j)
  refine hsees.keep hk (hsame.1.trans hsees.present) ?_
  rw [frame, hsame.2]
  rfl

/-- The copy has the contents of the old page when that is found at its own address. -/
theorem Holds.unshare (h : Holds m A) (ho : TablesOwned m) {d j n : Nat} (hj : j < 1024)
    (hn : IsTopFree m n) (hp : isPresent (m.pte d j) = true)
    (hid : IdentityMapped m (pageFrom (m.pte d j)))
    (hne : ¬ (pgdirIdx (pageFrom (m.pte d j)) = d ∧ pageIdx (pageFrom (m.pte d j)) = j)) :
    Holds (m.unshare (m.tableFrame d) j) A := by
  have hpte := (unshare_spec ho hn hp).2.entries
  obtain ⟨hk, hdata, hmem⟩ := unshare_data ho hn hp
  refine h.entry hk (fun e k _ => hpte e k) (fun _ _ _ _ => rfl) fun w i c hw hi hwi hA => ?_
  have hsees := h w i j c hw hi hj hA
  have hentry := hpte (16 * w + i) j
  rw [if_pos ⟨hwi, rfl⟩] at hentry
  have hframe := frame_userEntry hn.lt hentry
  have hold : frame m w i j = pageFrom (m.pte d j) / 4096 := by rw [frame, hwi]
  refine ⟨?_, hframe ▸ hdata, ?_⟩
  · rw [hentry, isPresent_userEntry]
  · rw [hframe, hmem (hold ▸ hsees.data) hid hne, ← hold, hsees.mem]

theorem Holds.emptyFault (h : Holds m A) (ho : TablesOwned m) {nr address : Nat}
    (ha : InWindow nr (pgdirIdx address)) {n : Nat} (hn : IsTopFree m n)
    (ht : isPresent (m.pde address) = true ∨ HasFree m.getFreePage.2)
    (he : m.getEmptyPage address = some m')
    (hg : PageGiven m (pgdirIdx address) (pageIdx address) n m') :
    Holds m' (A.set nr (pgdirIdx address - 16 * nr) (pageIdx address) (some fun _ => 0)) := by
  obtain ⟨hk, hdata, hzero⟩ := getEmptyPage_data ho hn ht he
  have hpte := hg.entries
  unfold InWindow at ha
  refine h.entry hk (fun e j _ => hpte e j) (fun w i j hout => ?_) fun w i c hw hi hwi hB => ?_
  · rw [Spaces.set, if_neg fun hin => hout ⟨by omega, hin.2.2⟩]
  · rw [Spaces.set, if_pos ⟨by omega, by omega, rfl⟩] at hB
    have hentry := hpte (16 * w + i) (pageIdx address)
    rw [if_pos ⟨hwi, rfl⟩] at hentry
    have hframe := frame_userEntry hg.lt hentry
    refine ⟨?_, hframe ▸ hdata, ?_⟩
    · rw [hentry, isPresent_userEntry]
    · rw [hframe, hzero]
      exact Option.some.inj hB

theorem store_mem (f j : Nat) (v : BitVec 32) (m : Mm) :
    (m.store f j v).mem = Function.update m.mem f (Function.update (m.mem f) j v) := rfl

theorem sameTables_data {f : Nat} (hf : Data m f) (k : Nat) (v : BitVec 32) :
    SameTables m (m.store f k v) ∧ ∀ e j, (m.store f k v).pte e j = m.pte e j := by
  have hs : SameTables m (m.store f k v) := by
    refine ⟨rfl, ?_, fun _ hk => hk⟩
    funext j
    rw [mem_store, if_neg fun h => hf.dir h.1.symm]
  refine ⟨hs, fun e j => hs.pte fun he => ?_⟩
  rw [mem_store, if_neg fun h => hf.table e he h.1]

theorem Holds.store (h : Holds m A) {nr i j : Nat} (k : Nat) (v : BitVec 32)
    (hd : Data m (frame m nr i j))
    (hone : ∀ w i' j' c, w < nrTasks → i' < 16 → j' < 1024 → A w i' j' = some c →
      frame m w i' j' = frame m nr i j → w = nr ∧ i' = i ∧ j' = j) :
    Holds (m.store (frame m nr i j) k v)
      (A.set nr i j ((A nr i j).map fun c => Function.update c k v)) := by
  obtain ⟨hs, hpte⟩ := sameTables_data hd k v
  have hframe : ∀ w i' j', frame (m.store (frame m nr i j) k v) w i' j' = frame m w i' j' :=
    fun w i' j' => by rw [frame, hpte, frame]
  intro w i' j' c hw hi hj hB
  by_cases hin : w = nr ∧ i' = i ∧ j' = j
  · obtain ⟨rfl, rfl, rfl⟩ := hin
    rw [Spaces.set, if_pos ⟨rfl, rfl, rfl⟩] at hB
    obtain ⟨c, hA, rfl⟩ := Option.map_eq_some_iff.mp hB
    have hsees := h w i' j' c hw hi hj hA
    refine ⟨hpte _ _ ▸ hsees.present, ?_, ?_⟩
    · rw [hframe]
      exact hs.data hsees.data
    · rw [hframe, store_mem, Function.update_self, hsees.mem]
  · rw [Spaces.set, if_neg hin] at hB
    have hsees := h w i' j' c hw hi hj hB
    refine ⟨hpte _ _ ▸ hsees.present, ?_, ?_⟩
    · rw [hframe]
      exact hs.data hsees.data
    · rw [hframe, store_mem, Function.update_of_ne, hsees.mem]
      exact fun he => hin (hone w i' j' c hw hi hj hB he)

end

theorem holds_seen (m : Mm) : Holds m (seen m) := fun _ _ _ _ _ _ _ h => seen_iff.mp h

end Gpos.Mm
