import Gpos.PageEntry
import Gpos.Run

/-! The bitmap of used pages and the reference counts, which different
functions change, over any sequence of their calls. -/

namespace Gpos.Mm

/-- A page is marked used exactly when it has references, and never has fewer than none. -/
def Accounted (m : Mm) : Prop :=
  ∀ n, n < mmPages → (m.bit n = true ↔ 0 < m.refcount (some n)) ∧ 0 ≤ m.refcount (some n)

def HasFree (m : Mm) : Prop := ∃ n, IsTopFree m n

/-- Every `get_free_page` of `copy_page_tables` finds a free page. -/
inductive DirsSupplied : Nat → Nat → Nat → Mm → Prop
  | done {fromDir toDir : Nat} {m : Mm} : DirsSupplied fromDir toDir 0 m
  | skip {fromDir toDir size : Nat} {m : Mm} (hp : isPresent (m.mem m.pgDir fromDir) = false)
      (h : DirsSupplied (fromDir + 1) (toDir + 1) size m) : DirsSupplied fromDir toDir (size + 1) m
  | copy {fromDir toDir size : Nat} {m : Mm} (hp : isPresent (m.mem m.pgDir fromDir) =
      true) (hf : HasFree m) (h : DirsSupplied (fromDir + 1) (toDir + 1) size
        (copyDir fromDir toDir m)) : DirsSupplied fromDir toDir (size + 1) m

/-- The page of a table entry, if `mem_map` covers it, is marked used. -/
def EntryUsed (m : Mm) (w : BitVec 32) : Prop :=
  lowMem ≤ pageFrom w → pageNr (pageFrom w) < mmPages → m.bit (pageNr (pageFrom w)) = true

/-- Each present entry is of a used page at the moment it is copied. -/
def TableUsed (fromTable toTable n : Nat) (m : Mm) : Prop :=
  ∀ j, j < n → isPresent ((copyTable fromTable toTable j m).mem fromTable j) = true →
    EntryUsed (copyTable fromTable toTable j m) ((copyTable fromTable toTable j m).mem fromTable j)

/-- The state in which `copy_page_tables` starts to copy a table. -/
def withTable (toDir : Nat) (m : Mm) : Mm :=
  m.getFreePage.2.store m.pgDir toDir (BitVec.ofNat 32 m.getFreePage.1 ||| 7#32)

inductive DirsUsed : Nat → Nat → Nat → Mm → Prop
  | done {fromDir toDir : Nat} {m : Mm} : DirsUsed fromDir toDir 0 m
  | skip {fromDir toDir size : Nat} {m : Mm} (hp : isPresent (m.mem m.pgDir fromDir) = false)
      (h : DirsUsed (fromDir + 1) (toDir + 1) size m) : DirsUsed fromDir toDir (size + 1) m
  | copy {fromDir toDir size : Nat} {m : Mm} (hp : isPresent (m.mem m.pgDir fromDir) = true)
      (hu : TableUsed (pageFrom (m.mem m.pgDir fromDir) / 4096) (m.getFreePage.1 / 4096) 1024
        (withTable toDir m))
      (h : DirsUsed (fromDir + 1) (toDir + 1) size (copyDir fromDir toDir m)) :
      DirsUsed fromDir toDir (size + 1) m

inductive Call
  | getFreePage
  | freePage (addr : Nat)
  | setMemMap (addr : Nat)
  | clearMemMap (addr : Nat)
  | putPage (page address : Nat)
  | unWpPage (f j : Nat)
  | copyPageTables (src dst size : Nat)

/-- A call that returns, with a free page for each `get_free_page` in it. -/
inductive CallStep : Call → Mm → Mm → Prop
  | getFreePage {m : Mm} (h : HasFree m) : CallStep .getFreePage m m.getFreePage.2
  | freePage {m m' : Mm} {addr : Nat} (h : m.freePage addr = some m') :
    CallStep (.freePage addr) m m'
  | setMemMap {m : Mm} (addr : Nat) : CallStep (.setMemMap addr) m (m.setMemMap addr)
  | clearMemMap {m m' : Mm} {addr : Nat} (h : m.clearMemMap addr = some m') :
    CallStep (.clearMemMap addr) m m'
  | putPage {m : Mm} {page address : Nat} (h : isPresent (m.pde address) = true ∨ HasFree m) :
      CallStep (.putPage page address) m (m.putPage page address).2
  | unWpPage {m : Mm} {f j : Nat} (h : HasFree m) : CallStep (.unWpPage f j) m (m.unWpPage f j)
  | copyPageTables {m : Mm} {src dst size : Nat}
      (h : DirsSupplied (src / 2 ^ 22 % 1024) (dst / 2 ^ 22 % 1024)
        ((size + 0x3FFFFF) / 2 ^ 22) m) :
      CallStep (.copyPageTables src dst size) m (m.copyPageTables src dst size).2

/-- The calls that take a reference take it on a used page. -/
def CallUsed (m : Mm) : Call → Prop
  | .unWpPage f j => EntryUsed m (m.mem f j)
  | .copyPageTables src dst size =>
    DirsUsed (src / 2 ^ 22 % 1024) (dst / 2 ^ 22 % 1024) ((size + 0x3FFFFF) / 2 ^ 22) m
  | _ => True

theorem Accounted.congr {m m' : Mm} (h : Accounted m) (hb : ∀ n, m'.bit n = m.bit n)
    (hr : ∀ n, m'.refcount (some n) = m.refcount (some n)) : Accounted m' := by
  intro n hn
  rw [hb, hr]
  exact h n hn

theorem Accounted.referenced {m m' : Mm} {n : Nat} (h : Accounted m) (hr : Referenced m n m') :
    Accounted m' := by
  intro k hk
  rw [hr.bit, hr.refcount]
  have hk' := h k hk
  by_cases e : k = n
  · subst e
    rw [Function.update_self]
    simp only [decide_true, Bool.or_true, true_iff]
    omega
  · rw [decide_eq_false e, Bool.or_false, Function.update_of_ne (by simpa using e)]
    exact hk'

theorem Accounted.getFreePage {m : Mm} (h : Accounted m) (hf : HasFree m) :
    Accounted m.getFreePage.2 := by
  obtain ⟨n, hn⟩ := hf
  exact h.referenced (getFreePage_spec hn).2.1

theorem Accounted.setMemMap {m : Mm} (h : Accounted m) (addr : Nat) :
    Accounted (m.setMemMap addr) := by
  by_cases ha : pageNr addr < mmPages
  · exact h.referenced (setMemMap_covered ha).1
  · rw [setMemMap_outside (Nat.not_lt.mp ha)]
    exact h

theorem Accounted.clearMemMap {m m' : Mm} {addr : Nat} (h : Accounted m)
    (he : m.clearMemMap addr = some m') : Accounted m' := by
  by_cases ha : pageNr addr < mmPages
  · obtain ⟨hpos, hr, hb, -⟩ := clearMemMap_eq ha he
    intro k hk
    rw [hb, hr]
    have hk' := h k hk
    by_cases e : k = pageNr addr
    · subst e
      rw [Function.update_self]
      by_cases h1 : m.refcount (some (pageNr addr)) = 1
      · simp only [h1, and_self, decide_true, Bool.not_true, Bool.and_false]
        exact ⟨by decide, by decide⟩
      · simp only [h1, and_false, decide_false, Bool.not_false, Bool.and_true]
        exact ⟨⟨fun _ => by omega, fun _ => hk'.1.mpr hpos⟩, by omega⟩
    · simp only [e, false_and, decide_false, Bool.not_false, Bool.and_true]
      rw [Function.update_of_ne (by simpa using e)]
      exact hk'
  · rw [clearMemMap_outside (Nat.not_lt.mp ha)] at he
    exact Option.some.inj he ▸ h

theorem Accounted.freePage {m m' : Mm} {addr : Nat} (h : Accounted m)
    (he : m.freePage addr = some m') : Accounted m' := by
  unfold Mm.freePage at he
  split_ifs at he
  · exact Option.some.inj he ▸ h
  · exact h.clearMemMap he

theorem Accounted.addRef {m : Mm} (h : Accounted m) {p : Option Nat} {d : Int}
    (hp : ∀ n, p = some n → n < mmPages → m.bit n = true ∧ 0 < m.refcount (some n) + d) :
    Accounted (m.addRef p d) := by
  intro n hn
  rw [bit_addRef, refcount_addRef]
  by_cases e : some n = p
  · subst e
    rw [Function.update_self]
    have := hp n rfl hn
    simp only [this.1, true_iff]
    omega
  · rw [Function.update_of_ne e]
    exact h n hn

theorem Accounted.copyEntry {m : Mm} (h : Accounted m) {fromTable j : Nat} (toTable : Nat)
    (hu : isPresent (m.mem fromTable j) = true → EntryUsed m (m.mem fromTable j)) :
    Accounted (copyEntry fromTable toTable j m) := by
  cases hp : isPresent (m.mem fromTable j) with
  | false =>
    rw [copyEntry_absent toTable hp]
    exact h
  | true =>
    rw [copyEntry_present toTable hp]
    split
    next hlow =>
      refine Accounted.addRef (h.congr (fun _ => rfl) fun _ => rfl) fun n hn hlt => ?_
      obtain ⟨hcov, rfl⟩ : pageNr (pageFrom (m.mem fromTable j)) < mmPages ∧
          pageNr (pageFrom (m.mem fromTable j)) = n := by
        unfold mmsPage at hn
        split_ifs at hn with hc
        exact ⟨hc, Option.some.inj hn⟩
      have hbit := hu hp hlow hcov
      have hpos := (h _ hcov).1.mp hbit
      exact ⟨hbit, Int.lt_add_one_of_le hpos.le⟩
    next => exact h.congr (fun _ => rfl) fun _ => rfl

theorem Accounted.copyTable {m : Mm} (h : Accounted m) {fromTable toTable n : Nat}
    (hu : TableUsed fromTable toTable n m) : Accounted (copyTable fromTable toTable n m) := by
  induction n with
  | zero => exact h
  | succ n ih =>
    exact (ih fun j hj => hu j (Nat.lt_succ_of_lt hj)).copyEntry toTable (hu n (Nat.lt_succ_self n))

theorem Accounted.copyDirs {m : Mm} (h : Accounted m) {fromDir toDir size : Nat}
    (hs : DirsSupplied fromDir toDir size m) (hu : DirsUsed fromDir toDir size m) :
    Accounted (copyDirs fromDir toDir size m).2 := by
  induction hs with
  | done => exact h
  | skip hp hs ih =>
    cases hu with
    | skip _ hu =>
      rw [Mm.copyDirs, if_pos hp]
      exact ih h hu
    | copy hp' => rw [hp] at hp'; cases hp'
  | @copy fromDir toDir size m hp hf hs ih =>
    cases hu with
    | skip hp' => rw [hp] at hp'; cases hp'
    | copy _ hu hr =>
      rw [Mm.copyDirs, if_neg (by simp [hp]), if_neg (getFreePage_ne_zero m)]
      refine ih ?_ hr
      have h₁ : Accounted (withTable toDir m) :=
        (h.getFreePage hf).congr (fun _ => rfl) fun _ => rfl
      exact h₁.copyTable hu

theorem Accounted.unWpPage {m : Mm} (h : Accounted m) {f j : Nat} (hf : HasFree m)
    (hu : EntryUsed m (m.mem f j)) : Accounted (m.unWpPage f j) := by
  rw [Mm.unWpPage]
  split
  next => exact h.congr (fun _ => rfl) fun _ => rfl
  next hne =>
    obtain ⟨n, hn⟩ := hf
    have hspec := getFreePage_spec hn
    have h₁ : Accounted m.getFreePage.2 := h.referenced hspec.2.1
    refine Accounted.congr (m := if lowMem ≤ pageFrom (m.mem f j) then
      m.getFreePage.2.addRef (mmsPage (pageFrom (m.mem f j))) (-1)
        else m.getFreePage.2) ?_ (fun _ => rfl) fun _ => rfl
    split
    next hlow =>
      refine h₁.addRef fun k hk hlt => ?_
      obtain ⟨hcov, rfl⟩ : pageNr (pageFrom (m.mem f j)) < mmPages ∧
        pageNr (pageFrom (m.mem f j)) = k := by
        unfold mmsPage at hk
        split_ifs at hk with hc
        exact ⟨hc, Option.some.inj hk⟩
      have hbit := hu hlow hcov
      have hpos := (h _ hcov).1.mp hbit
      have hone : m.refcount (some (pageNr (pageFrom (m.mem f j)))) ≠ 1 := fun e =>
        hne ⟨hlow, by rw [mmsPage_eq hcov, e]⟩
      have hnk : pageNr (pageFrom (m.mem f j)) ≠ n := by
        rintro rfl
        rw [hn.free] at hbit
        cases hbit
      rw [hspec.2.1.bit, hspec.2.1.refcount, Function.update_of_ne (by simpa using hnk), hbit]
      exact ⟨rfl, by omega⟩
    next => exact h₁

theorem Accounted.putPage {m : Mm} (h : Accounted m) {page address : Nat}
    (hf : isPresent (m.pde address) = true ∨ HasFree m) : Accounted (m.putPage page address).2 := by
  rw [Mm.putPage]
  by_cases hp : isPresent (m.pde address) = true
  · rw [if_pos hp]
    exact h.congr (fun _ => rfl) fun _ => rfl
  · rw [if_neg hp, if_neg (getFreePage_ne_zero m)]
    exact (h.getFreePage (hf.resolve_left hp)).congr (fun _ => rfl) fun _ => rfl

theorem Accounted.call {a : Call} {m m' : Mm} (h : Accounted m) (hs : CallStep a m m')
    (hu : CallUsed m a) : Accounted m' := by
  cases hs with
  | getFreePage hf => exact h.getFreePage hf
  | freePage he => exact h.freePage he
  | setMemMap addr => exact h.setMemMap addr
  | clearMemMap he => exact h.clearMemMap he
  | putPage hf => exact h.putPage hf
  | unWpPage hf => exact h.unWpPage hf hu
  | copyPageTables hs => exact h.copyDirs hs hu

theorem Accounted.markFree {memoryEnd : Nat} (addr : Nat) {m m' : Mm} (h : Accounted m)
    (he : markFree memoryEnd addr m = some m') : Accounted m' := by
  induction hd : memoryEnd - addr using Nat.strong_induction_on generalizing addr m with
  | _ d ih =>
    rw [Mm.markFree] at he
    by_cases hlt : addr < memoryEnd
    · rw [dif_pos hlt] at he
      obtain ⟨m₁, hm₁, hr⟩ := Option.bind_eq_some_iff.mp he
      exact ih (memoryEnd - (addr + 4096)) (by omega) (addr + 4096) (h.clearMemMap hm₁) hr rfl
    · rw [dif_neg hlt] at he
      exact Option.some.inj he ▸ h

/-- `mm_init` first marks all pages used, with one reference each. -/
theorem accounted_mmInit {kb endKernel : Nat} {m m' : Mm} (he : m.mmInit kb endKernel = some m') :
    Accounted m' := by
  refine Accounted.markFree _ (fun n hn => ?_) he
  have hpos : n / 32 < mmBitmaps := by
    simp only [mmPages, mmBitmaps] at *
    omega
  have hbit : (0xFFFFFFFF#32).getLsbD (n % 32) = true := allOnes_bit _ (Nat.mod_lt _ (by decide))
  simp only [bit, if_pos hpos, if_pos hn, hbit]
  decide

/-- `free_page` called `k` times for one page. -/
def freeTimes (addr : Nat) : Nat → Mm → Option Mm
  | 0, m => some m
  | k + 1, m => (m.freePage addr).bind (freeTimes addr k)

/-- A page that is released as often as it is referenced is free again. -/
theorem Accounted.freeTimes {addr : Nat} (hlow : lowMem ≤ addr) (hcov : pageNr addr < mmPages)
    {m : Mm} (h : Accounted m) (hhigh : addr < m.highMemory) {k : Nat}
    (hk : m.refcount (some (pageNr addr)) = k) :
    ∃ m', freeTimes addr k m = some m' ∧ m'.bit (pageNr addr) = false := by
  induction k generalizing m with
  | zero =>
    have hacc := (h _ hcov).1
    refine ⟨m, rfl, Bool.eq_false_iff.mpr fun hb => ?_⟩
    have := hacc.mp hb
    omega
  | succ k ih =>
    obtain ⟨m₁, hm₁⟩ := clearMemMap_some m hcov (by omega)
    have hfree : m.freePage addr = some m₁ := by
      rw [Mm.freePage, if_neg (Nat.not_lt.mpr hlow), if_neg (Nat.not_le.mpr hhigh), hm₁]
    obtain ⟨-, hr, -, -, hh, -⟩ := clearMemMap_eq hcov hm₁
    obtain ⟨m', hm', hb⟩ :=
      ih (h.clearMemMap hm₁) (hh ▸ hhigh) (by rw [hr, Function.update_self]; omega)
    exact ⟨m', by rw [Mm.freeTimes, hfree, Option.bind_some, hm'], hb⟩

end Gpos.Mm
