import Gpos.AddressSpaces

/-! Runs of forks, page faults and stores beside the memories that the tasks should
have. The counts keep a page that two tasks have from being written by either. -/

namespace Gpos.Mm

/-- Task `w` has page `j` behind directory entry `i` of its window. -/
def Spaces.Has (A : Spaces) (w i j : Nat) : Prop :=
  (w < nrTasks ∧ i < 16 ∧ j < 1024) ∧ (A w i j).isSome = true

/-- The write fault is for a copy, and the entry is the one at the address where the old page is
to be read. -/
def CopiesSelf (m : Mm) (address : Nat) : Prop :=
  ¬ KeepsPage m (pageFrom (m.pte (pgdirIdx address) (pageIdx address))) ∧
    pgdirIdx (pageFrom (m.pte (pgdirIdx address) (pageIdx address))) = pgdirIdx address ∧
      pageIdx (pageFrom (m.pte (pgdirIdx address) (pageIdx address))) = pageIdx address

/-- A fork or a fault, or a store of a task to a page at or above `LOW_MEM` that it has and may
write. Task 0 does not get a copy of a page that is mapped at its own address. -/
inductive SpaceStep : Act → Mm × Spaces → Mm × Spaces → Prop
  | event {a : Event} {m m' : Mm} (A : Spaces) (h : EventStep a m m')
      (hself : ∀ address, a = .writeFault 0 address → ¬ CopiesSelf m address) :
      SpaceStep (.event a) (m, A) (m', A.step (.event a))
  | store {m : Mm} {A : Spaces} {nr i j : Nat} (k : Nat) (v : BitVec 32) (hA : A.Has nr i j)
      (hw : isWritable (m.pte (16 * nr + i) j) = true)
      (hlow : lowMem ≤ pageFrom (m.pte (16 * nr + i) j)) :
      SpaceStep (.store nr i j k v) (m, A)
        (m.store (frame m nr i j) k v, A.step (.store nr i j k v))

/-- The copy leaves zeros to task 0. -/
theorem doWpPage_zeros {m : Mm} (ho : TablesOwned m) {address : Nat}
    (hp : isPresent (m.pte (pgdirIdx address) (pageIdx address)) = true) (hf : HasFree m)
    (hself : CopiesSelf m address) :
    (m.doWpPage address).mem
      (pageFrom ((m.doWpPage address).pte (pgdirIdx address) (pageIdx address)) / 4096) =
        fun _ => 0 := by
  obtain ⟨n, hn⟩ := hf
  obtain ⟨hk, hd, hj⟩ := hself
  rw [doWpPage_eq (isPresent_pte_hasTable hp), if_neg hk, (unshare_spec ho hn hp).2.entries,
    if_pos ⟨rfl, rfl⟩, pageFrom_div_userEntry (pageAddr_lt hn.lt), pageAddr_div]
  exact unshare_zeros ho hn hp hd hj

/-- All pages that windows map and that the allocator has lie below `top`, where the mapping is
the identity. The counts bound the entries in `S`, among which are those of the tasks' pages. -/
structure Kept (top : Nat) (S : Finset (Nat × Nat)) (m : Mm) (A : Spaces) : Prop where
  owned : TablesOwned m
  holds : Holds m A
  straight : ∀ p, p < top → IdentityMapped m p
  free : ∀ n, n < mmPages → m.bit n = false → pageAddr n < top
  inside : ∀ x ∈ windows, isPresent (m.pte x.1 x.2) = true → pageFrom (m.pte x.1 x.2) < top
  claims : ∀ w i j, A.Has w i j → (16 * w + i, j) ∈ S
  counted : ∀ q, q < mmPages → (refs S m q : Int) ≤ m.refcount (some q)
  sole : ∀ w i j v k l, A.Has w i j → A.Has v k l → isWritable (m.pte (16 * w + i) j) = true →
    lowMem ≤ pageFrom (m.pte (16 * w + i) j) →
      pageFrom (m.pte (16 * v + k) l) = pageFrom (m.pte (16 * w + i) j) → v = w ∧ k = i ∧ l = j

theorem Spaces.Has.mem_windows {A : Spaces} {w i j : Nat} (h : A.Has w i j) :
    (16 * w + i, j) ∈ windows := by
  obtain ⟨⟨hw, hi, hj⟩, -⟩ := h
  refine mem_tablesFrom.mpr ⟨⟨Nat.zero_le _, ?_⟩, hj⟩
  show 16 * w + i < 0 + 16 * nrTasks
  omega

/-- What another task than the child has is what it had. -/
theorem Spaces.Has.forked_other {A : Spaces} {src nr w i j : Nat}
    (h : Spaces.Has (Function.update A nr (A src)) w i j) (hw : w ≠ nr) : A.Has w i j := by
  rwa [Spaces.Has, Function.update_of_ne hw] at h

theorem Spaces.Has.forked_self {A : Spaces} {src nr i j : Nat}
    (h : Spaces.Has (Function.update A nr (A src)) nr i j) (hsrc : src < nrTasks) :
    A.Has src i j := by
  rw [Spaces.Has, Function.update_self] at h
  exact ⟨⟨hsrc, h.1.2⟩, h.2⟩

section

variable {T : Nat} {S : Finset (Nat × Nat)} {m m' : Mm} {A B : Spaces}

theorem Holds.sees (h : Holds m A) {w i j : Nat} (hA : A.Has w i j) :
    ∃ c, A w i j = some c ∧ Sees m w i j c := by
  obtain ⟨⟨hw, hi, hj⟩, hs⟩ := hA
  obtain ⟨c, hc⟩ := Option.isSome_iff_exists.mp hs
  exact ⟨c, hc, h w i j c hw hi hj hc⟩

theorem pgdirIdx_lt {p T : Nat} (hp : p < T * 0x400000) (hT : T ≤ 16) : pgdirIdx p < T := by
  rw [pgdirIdx]
  omega

theorem pageFrom_mul (w : BitVec 32) : pageFrom w / 4096 * 4096 = pageFrom w := by
  rw [pageFrom_eq]
  omega

/-- The entries of the identity mapping, by their places. -/
theorem straight_entry (h : ∀ p, p < T * 0x400000 → IdentityMapped m p) {d j : Nat} (hT : T ≤ 16)
    (hd : d < T) (hj : j < 1024) : isPresent (m.pte d j) = true ∧
      pgdirIdx (pageFrom (m.pte d j)) = d ∧ pageIdx (pageFrom (m.pte d j)) = j := by
  have hidx : pgdirIdx (d * 0x400000 + j * 4096) = d ∧ pageIdx (d * 0x400000 + j * 4096) = j := by
    rw [pgdirIdx, pageIdx]
    omega
  obtain ⟨hp, hq⟩ := identityMapped_iff.mp (h (d * 0x400000 + j * 4096) (by omega))
  rw [hidx.1, hidx.2] at hp hq
  have haddr : (d * 0x400000 + j * 4096) / 4096 * 4096 = d * 0x400000 + j * 4096 := by omega
  rw [hq, haddr]
  exact ⟨hp, hidx⟩

/-- A page that an entry may write after a fork is neither copied nor a copy. -/
theorem Kept.sole_fork (h : Kept (T * 0x400000) S m A) {src nr : Nat} (hsrc : src < nrTasks)
    (hc : DirsCopied m (16 * src) (16 * nr) 16 m') {w i j v k l : Nat}
    (hA : Spaces.Has (Function.update A nr (A src)) w i j)
    (hB : Spaces.Has (Function.update A nr (A src)) v k l)
    (hw : isWritable (m'.pte (16 * w + i) j) = true)
    (hlow : lowMem ≤ pageFrom (m'.pte (16 * w + i) j))
    (hq : pageFrom (m'.pte (16 * v + k) l) = pageFrom (m'.pte (16 * w + i) j)) :
    v = w ∧ k = i ∧ l = j := by
  have hi := hA.1.2.1
  have hj := hA.1.2.2
  have hcopy : ∀ {i j}, A.Has src i j → m'.pte (16 * nr + i) j = copied (m.pte (16 * src + i) j) ∧
      isPresent (m.pte (16 * src + i) j) = true := fun {i j} hA => by
    obtain ⟨c, -, hsees⟩ := h.holds.sees hA
    exact ⟨hc.pte_copy hA.1.2.1 hA.1.2.2 hsees.present, hsees.present⟩
  by_cases hwn : w = nr
  · subst hwn
    rw [(hcopy (hA.forked_self hsrc)).1, isWritable_copied] at hw
    cases hw
  · have hAm := hA.forked_other hwn
    rw [hc.pte_other hwn hi hj] at hw hlow hq
    split_ifs at hw hlow hq with hws
    · obtain ⟨c, -, hsees⟩ := h.holds.sees hAm
      rw [pageFrom_shared] at hlow
      rw [isWritable_shared_high hsees.present hlow] at hw
      cases hw
    · by_cases hvn : v = nr
      · subst hvn
        have hBm := hB.forked_self hsrc
        rw [(hcopy hBm).1, pageFrom_copied (hcopy hBm).2] at hq
        exact absurd (h.sole w i j src k l hAm hBm hw hlow hq).1 (Ne.symm hws)
      · rw [hc.pte_other hvn hB.1.2.1 hB.1.2.2] at hq
        refine h.sole w i j v k l hAm (hB.forked_other hvn) hw hlow ?_
        split_ifs at hq
        · exact (pageFrom_shared _).symm.trans hq
        · exact hq

/-- What a task has is on a page that is not free. -/
theorem Kept.not_given (h : Kept (T * 0x400000) S m A) {d j n w i k : Nat}
    (hg : PageGiven m d j n m') (hA : A.Has w i k) :
    pageFrom (m.pte (16 * w + i) k) ≠ pageAddr n := by
  intro hq
  obtain ⟨c, -, hsees⟩ := h.holds.sees hA
  refine hsees.data.ne_free hg.free ?_
  rw [frame, hq, pageAddr_div]

/-- The page that was given is nobody else's. -/
theorem Kept.sole_given (h : Kept (T * 0x400000) S m A) {d j n : Nat} (hg : PageGiven m d j n m')
    (hB : ∀ w i k, B.Has w i k → A.Has w i k ∨ (16 * w + i = d ∧ k = j)) {w i k v e l : Nat}
    (hB₁ : B.Has w i k) (hB₂ : B.Has v e l) (hw : isWritable (m'.pte (16 * w + i) k) = true)
    (hlow : lowMem ≤ pageFrom (m'.pte (16 * w + i) k))
    (hq : pageFrom (m'.pte (16 * v + e) l) = pageFrom (m'.pte (16 * w + i) k)) :
    v = w ∧ e = i ∧ l = k := by
  have hpage := pageFrom_userEntry_pageAddr hg.lt
  have hi := hB₁.1.2.1
  have he := hB₂.1.2.1
  by_cases h₁ : 16 * w + i = d ∧ k = j <;> by_cases h₂ : 16 * v + e = d ∧ l = j
  · exact ⟨by omega, by omega, h₂.2.trans h₁.2.symm⟩
  · rw [hg.other h₂, h₁.1, h₁.2, hg.self, hpage] at hq
    exact absurd hq (h.not_given hg ((hB v e l hB₂).resolve_right h₂))
  · rw [hg.other h₁, h₂.1, h₂.2, hg.self, hpage] at hq
    exact absurd hq.symm (h.not_given hg ((hB w i k hB₁).resolve_right h₁))
  · rw [hg.other h₁] at hw hlow hq
    rw [hg.other h₂] at hq
    exact h.sole w i k v e l ((hB w i k hB₁).resolve_right h₁) ((hB v e l hB₂).resolve_right h₂)
      hw hlow hq

variable (hT : T ≤ 16) (hS : S ⊆ windows) (hin : ∀ x ∈ windows, T ≤ x.1 → x ∈ S)

include hT

/-- The entries of the identity mapping have changed in their write bits only. -/
theorem straight_of_entries (h : ∀ p, p < T * 0x400000 → IdentityMapped m p)
    (hsame : ∀ d j, d < T → j < 1024 → isPresent (m'.pte d j) = isPresent (m.pte d j) ∧
      pageFrom (m'.pte d j) = pageFrom (m.pte d j)) {p : Nat} (hp : p < T * 0x400000) :
    IdentityMapped m' p := by
  obtain ⟨hpr, hq⟩ := hsame _ _ (pgdirIdx_lt hp hT) (pageIdx_lt p)
  rw [identityMapped_iff, hpr, hq]
  exact identityMapped_iff.mp (h p hp)

include hS hin

theorem Kept.fork (h : Kept (T * 0x400000) S m A) {src nr : Nat} (hsrc : src < nrTasks)
    (h0 : 0 < nr) (hnr : nr < nrTasks) (hne : src ≠ nr)
    (hs : DirsSupplied (pgdirIdx (window src)) (pgdirIdx (window nr)) 16 m) :
    Kept (T * 0x400000) S (m.copyMem src nr).2 (Function.update A nr (A src)) := by
  have hholds := h.holds.fork h.owned hsrc hnr hne hs
  have hs8 := hsrc
  have hn8 := hnr
  unfold nrTasks at hs8 hn8
  rw [pgdirIdx_window (by omega), pgdirIdx_window (by omega)] at hs
  rw [copyMem_eq (by omega) (by omega)] at hholds ⊢
  have hc := copyDirs_spec hs h.owned (by omega) (by omega) (by omega)
  have hcount := copyDirs_counts hs h.owned (by omega) (by omega) (by omega)
  generalize (copyDirs (16 * src) (16 * nr) 16 m).2 = m' at hc hcount hholds
  refine ⟨hc.owned, hholds, fun p hp => straight_of_entries hT h.straight ?_ hp,
    fun n hn hb => h.free n hn (bit_false hcount.used hb), fun x hx hp => ?_, fun w i j hA => ?_,
    fun q hq => ?_, fun w i j v k l hA hB hw hlow hq => h.sole_fork hsrc hc hA hB hw hlow hq⟩
  · intro d j hd hj
    rw [hc.entries d j hj, if_neg fun h => by omega]
    split
    · exact ⟨isPresent_shared _, pageFrom_shared _⟩
    · exact ⟨rfl, rfl⟩
  · obtain ⟨y, hy, hpy, hqy, -⟩ := hc.origin hsrc hx hp
    exact hqy ▸ h.inside y hy hpy
  · by_cases hwn : w = nr
    · have hi := hA.1.2.1
      exact hin _ hA.mem_windows (show T ≤ 16 * w + i by omega)
    · exact h.claims w i j (hA.forked_other hwn)
  · have hle := hc.refs_le (fun x hx => (mem_tablesFrom.mp (hS hx)).2) q
    have hm := h.counted q hq
    rw [hcount.refcount, ← refs_tablesFrom]
    split <;> omega

omit hS hin

theorem Kept.keeps (h : Kept (T * 0x400000) S m A) {d j : Nat} (hx : (d, j) ∈ windows)
    (hp : isPresent (m.pte d j) = true) (hk : KeepsPage m (pageFrom (m.pte d j))) :
    Kept (T * 0x400000) S (m.store (m.tableFrame d) j (m.pte d j ||| 2#32)) A := by
  have hj := (mem_tablesFrom.mp hx).2
  have hholds := h.holds.keeps h.owned hj hp
  have ha := allowed_of_store h.owned hp
  generalize m.store (m.tableFrame d) j (m.pte d j ||| 2#32) = m' at hholds ha
  have hsame := ha.same
  have hrefs : ∀ q, refs S m' q = refs S m q := fun q =>
    refs_congr fun x _ => mapsTo_congr (hsame x).1 (hsame x).2 q
  refine ⟨ha.owned, hholds, fun p hp => straight_of_entries hT h.straight
      (fun e k _ _ => hsame (e, k)) hp, fun n hn hb => h.free n hn (ha.bit n ▸ hb),
    fun x hxw hpx => ?_, h.claims, fun q hq => ?_, fun w i k v e l hA hB hw hlow hq => ?_⟩
  · rw [(hsame x).1] at hpx
    rw [(hsame x).2]
    exact h.inside x hxw hpx
  · rw [hrefs, ha.refcount]
    exact h.counted q hq
  · have hpage := (hsame (16 * w + i, k)).2
    have hpage' := (hsame (16 * v + e, l)).2
    rw [hpage] at hlow
    rw [hpage, hpage'] at hq
    by_cases hin : 16 * w + i = d ∧ k = j
    · -- the count says that no other entry in `S` maps the page
      obtain ⟨rfl, rfl⟩ := hin
      obtain ⟨c, -, hsees⟩ := h.holds.sees hB
      have htop := h.inside _ hx hp
      have hcov : pageNr (pageFrom (m.pte (16 * w + i) k)) < mmPages := by
        rw [pageNr_high hlow]
        simp only [mmPages, lowMem] at *
        omega
      have hone : (refs S m (pageNr (pageFrom (m.pte (16 * w + i) k))) : Int) ≤ _ :=
        h.counted _ hcov
      have hk₂ := hk.2
      rw [mmsPage_eq hcov] at hk₂
      rw [hk₂] at hone
      have hmaps := mapsTo_pageNr hp hlow hcov
      have heq := unique_of_refs_le (by omega) (h.claims _ _ _ hB) (h.claims _ _ _ hA)
        ((mapsTo_congr (hsees.present.trans hp.symm) hq _).mpr hmaps) hmaps
      rw [Prod.mk.injEq] at heq
      have hi := hA.1.2.1
      have he := hB.1.2.1
      exact ⟨by omega, by omega, heq.2⟩
    · rw [ha.entries, if_neg hin] at hw
      exact h.sole w i k v e l hA hB hw hlow hq

/-- An entry beyond the identity mapping gets the page `n`. -/
theorem Kept.given (h : Kept (T * 0x400000) S m A) {d j n : Nat} (hx : (d, j) ∈ S) (hd : T ≤ d)
    (hg : PageGiven m d j n m') (hholds : Holds m' B)
    (hB : ∀ w i k, B.Has w i k → A.Has w i k ∨ (16 * w + i = d ∧ k = j)) :
    Kept (T * 0x400000) S m' B := by
  refine ⟨hg.owned, hholds, fun p hp => straight_of_entries hT h.straight (fun e k he _ => ?_) hp,
    fun k hk hb => h.free k hk (bit_false hg.used hb), fun x hxw hp => ?_, fun w i k hBk => ?_,
    fun q hq => ?_, fun w i k v e l hB₁ hB₂ hw hlow hq => h.sole_given hg hB hB₁ hB₂ hw hlow hq⟩
  · rw [hg.other fun h => by omega]
    exact ⟨rfl, rfl⟩
  · rw [hg.entries] at hp ⊢
    split_ifs at hp ⊢
    · rw [pageFrom_userEntry_pageAddr hg.lt]
      exact h.free n hg.lt hg.free
    · exact h.inside x hxw hp
  · rcases hB w i k hBk with hA | ⟨rfl, rfl⟩
    · exact h.claims w i k hA
    · exact hx
  · have hm := h.counted q hq
    have hr := hg.refs hx q
    rw [hg.refcount]
    by_cases hqn : q = n
    · subst hqn
      rw [if_pos rfl] at hr
      rw [if_pos ⟨hg.free, hg.taken⟩]
      split_ifs at hr ⊢ <;> omega
    · rw [if_neg hqn] at hr
      split_ifs at hr ⊢ <;> omega

include hin

theorem Kept.writeFault (h : Kept (T * 0x400000) S m A) {nr address : Nat} (hnr : nr < nrTasks)
    (ha : InWindow nr (pgdirIdx address))
    (hp : isPresent (m.pte (pgdirIdx address) (pageIdx address)) = true) (hf : HasFree m)
    (hself : nr = 0 → ¬ CopiesSelf m address) :
    Kept (T * 0x400000) S (m.doWpPage address) A := by
  have hx := ha.mem_windows hnr (pageIdx_lt address)
  rw [doWpPage_eq (isPresent_pte_hasTable hp)]
  split
  next hk => exact h.keeps hT hx hp hk
  next hk =>
    obtain ⟨n, hn⟩ := hf
    have htop := h.inside _ hx hp
    have hid := h.straight _ htop
    have hj := pageIdx_lt address
    have hd : T ≤ pgdirIdx address := by
      by_contra hno
      obtain ⟨-, hown⟩ := straight_entry h.straight hT (Nat.not_le.mp hno) hj
      refine hself ?_ ⟨hk, hown⟩
      unfold InWindow at ha
      omega
    have hlt : pgdirIdx (pageFrom (m.pte (pgdirIdx address) (pageIdx address))) < T :=
      pgdirIdx_lt htop hT
    refine h.given hT (hin _ hx hd) hd (unshare_spec h.owned hn hp).2
      (h.holds.unshare h.owned hj hn hp hid fun e => by omega) fun _ _ _ => .inl

theorem Kept.emptyFault (h : Kept (T * 0x400000) S m A) {nr address : Nat} (hnr : nr < nrTasks)
    (ha : InWindow nr (pgdirIdx address))
    (hp : isPresent (m.pte (pgdirIdx address) (pageIdx address)) = false) (hf : HasFree m)
    (ht : isPresent (m.pde address) = true ∨ HasFree m.getFreePage.2)
    (he : m.getEmptyPage address = some m') : Kept (T * 0x400000) S m'
      (A.set nr (pgdirIdx address - 16 * nr) (pageIdx address) (some fun _ => 0)) := by
  obtain ⟨n, hn⟩ := hf
  obtain ⟨m₁, he₁, hg⟩ := getEmptyPage_spec h.owned hn hp ht
  obtain rfl := Option.some.inj (he₁.symm.trans he)
  have hx := ha.mem_windows hnr (pageIdx_lt address)
  have hd : T ≤ pgdirIdx address := by
    by_contra hno
    have hpr := (straight_entry h.straight hT (Nat.not_le.mp hno) (pageIdx_lt address)).1
    rw [hpr] at hp
    cases hp
  refine h.given hT (hin _ hx hd) hd hg (h.holds.emptyFault h.owned ha hn ht he hg)
    fun w i k hB => ?_
  rw [Spaces.Has, Spaces.set] at hB
  split_ifs at hB with hin
  · unfold InWindow at ha
    exact .inr ⟨by omega, hin.2.2⟩
  · exact .inl hB

omit hT hin

theorem Kept.store (h : Kept (T * 0x400000) S m A) {nr i j : Nat} (k : Nat) (v : BitVec 32)
    (hA : A.Has nr i j) (hw : isWritable (m.pte (16 * nr + i) j) = true)
    (hlow : lowMem ≤ pageFrom (m.pte (16 * nr + i) j)) :
    Kept (T * 0x400000) S (m.store (frame m nr i j) k v)
      (A.set nr i j ((A nr i j).map fun c => Function.update c k v)) := by
  obtain ⟨c, -, hsees⟩ := h.holds.sees hA
  obtain ⟨hs, hpte⟩ := sameTables_data hsees.data k v
  have hbit : ∀ n, (m.store (frame m nr i j) k v).bit n = m.bit n := bit_store _ _ _ _
  have hcount : (m.store (frame m nr i j) k v).refcount = m.refcount := rfl
  have hholds := h.holds.store k v hsees.data fun w e l x hwt he hl hB hf => by
    refine h.sole nr i j w e l hA ⟨⟨hwt, he, hl⟩, by rw [hB]; rfl⟩ hw hlow ?_
    rw [← pageFrom_mul, ← pageFrom_mul (m.pte (16 * nr + i) j)]
    exact congrArg (· * 4096) hf
  generalize m.store (frame m nr i j) k v = m' at hs hpte hbit hcount hholds
  have hhas : ∀ {w e l}, Spaces.Has (A.set nr i j ((A nr i j).map fun c => Function.update c k v))
      w e l → A.Has w e l := by
    intro w e l hB
    rw [Spaces.Has, Spaces.set] at hB
    split_ifs at hB with hin
    · obtain ⟨rfl, rfl, rfl⟩ := hin
      exact hA
    · exact hB
  have hrefs : ∀ q, refs S m' q = refs S m q := fun q => refs_congr fun x _ => by rw [hpte]
  refine ⟨hs.owned h.owned, hholds, fun p hp => ?_, fun n hn hb => h.free n hn (hbit n ▸ hb),
    fun x hx hp => ?_, fun w e l hB => h.claims w e l (hhas hB), fun q hq => ?_,
    fun w e l w' e' l' hB hB' => ?_⟩
  · rw [identityMapped_iff, hpte]
    exact identityMapped_iff.mp (h.straight p hp)
  · rw [hpte] at hp ⊢
    exact h.inside x hx hp
  · rw [hrefs, hcount]
    exact h.counted q hq
  · rw [hpte, hpte]
    exact h.sole w e l w' e' l' (hhas hB) (hhas hB')

include hT hS hin

theorem Kept.step (h : Kept (T * 0x400000) S m A) {a : Act} (hs : SpaceStep a (m, A) (m', B)) :
    Kept (T * 0x400000) S m' B := by
  cases hs with
  | event _ he hself =>
    cases he with
    | fork hsrc h0 hnr hne hs => exact h.fork hT hS hin hsrc h0 hnr hne hs
    | writeFault hnr ha hp hw hf =>
      refine h.writeFault hT hin hnr ha hp hf fun h0 => ?_
      subst h0
      exact hself _ rfl
    | emptyFault hnr ha hp hf ht he => exact h.emptyFault hT hin hnr ha hp hf ht he
  | store k v hA hw hlow => exact h.store k v hA hw hlow

theorem Kept.run (h : Kept (T * 0x400000) S m A) {as : List Act}
    (hrun : Run.Traces SpaceStep as (m, A) (m', B)) : Kept (T * 0x400000) S m' B := by
  generalize hs : (m, A) = s at hrun
  generalize ht : (m', B) = t at hrun
  induction hrun generalizing m A with
  | nil s =>
    cases hs
    cases ht
    exact h
  | @cons _ _ _ u _ ha _ ih =>
    subst hs
    exact ih (h.step hT hS hin ha) rfl ht

end

section

variable {kb pd : Nat} {m : Mm}

open Classical in
/-- The entries beyond the identity mapping, and those of the data of task 0. -/
noncomputable def bootEntries (kb : Nat) (m : Mm) : Finset (Nat × Nat) :=
  windows.filter fun x => bootTables kb ≤ x.1 ∨ (seen m 0 x.1 x.2).isSome = true

theorem Booted.kept (h : Installed kb pd) (hb : Booted kb pd m) (hcov : Covered m) :
    Kept (bootTables kb * 0x400000) (bootEntries kb m) m (seen m) := by
  have hle := h.tables_le
  have hsize := h.size
  have hid : ∀ p, p < 0x4000000 → (IdentityMapped m p ↔ p < bootTables kb * 0x400000) :=
    fun p hp => hb.identityMapped_iff h hp
  have hshares := hb.shares h
  -- a task has only entries of the identity mapping
  have hhas : ∀ {w i j}, Spaces.Has (seen m) w i j → ∃ c, Sees m w i j c ∧
      16 * w + i < bootTables kb ∧ pageFrom (m.pte (16 * w + i) j) =
        4096 * (1024 * (16 * w + i) + j) := by
    rintro w i j ⟨⟨hw, hi, hj⟩, hs⟩
    obtain ⟨c, hc⟩ := Option.isSome_iff_exists.mp hs
    have hsees := seen_iff.mp hc
    exact ⟨c, hsees, hb.entry h hj hsees.present⟩
  refine ⟨hb.tablesOwned h, holds_seen m, fun p hp => (hid p (by omega)).mpr hp,
    fun n hn hbit => ?_, fun x hx hp => ?_, fun w i j hA => ?_, fun q hq => ?_,
    fun w i j v k l hA hB hw hlow hq => ?_⟩
  · have hfree := hcov n hn hbit
    rw [hb.bit n hn] at hbit
    have hat : FreeAtBoot (memoryEnd kb) (firstFree kb pd) n := by simpa using hbit
    exact (hid _ (hat.2.trans_le hsize)).mp hfree
  · have hj := (mem_tablesFrom.mp hx).2
    obtain ⟨hd, hq⟩ := hb.entry h hj hp
    omega
  · obtain ⟨c, hsees, hd, -⟩ := hhas hA
    have hw : w = 0 := by omega
    subst hw
    rw [bootEntries, Finset.mem_filter]
    rw [Nat.mul_zero, Nat.zero_add] at hd
    refine ⟨hA.mem_windows, .inr ?_⟩
    show (seen m 0 (16 * 0 + i) j).isSome = true
    rw [Nat.mul_zero, Nat.zero_add]
    exact hA.2
  · have hle : refs (bootEntries kb m) m q ≤ refs windows m q :=
      Finset.card_le_card (Finset.filter_subset_filter _ (Finset.filter_subset _ _))
    have hm := hshares.counted q hq
    cases hbit : m.bit q with
    | true =>
      rw [if_pos hbit] at hm
      omega
    | false =>
      -- a free page is not data of task 0
      have hzero : refs (bootEntries kb m) m q = 0 := by
        refine refs_eq_zero fun x hx hmaps => ?_
        obtain ⟨hxw, hor⟩ := Finset.mem_filter.mp hx
        obtain ⟨hd, -⟩ := hb.entry h (mem_tablesFrom.mp hxw).2 hmaps.1
        obtain ⟨c, hc⟩ := Option.isSome_iff_exists.mp (hor.resolve_left (Nat.not_le.mpr hd))
        have hdata := (seen_iff.mp hc).data
        refine hdata.ne_free hbit ?_
        have hnr := hmaps.covered.2
        have hlow := hmaps.2.1
        rw [pageNr_high hlow] at hnr
        rw [frame, Nat.mul_zero, Nat.zero_add, pageFrame]
        simp only [lowMem] at hnr hlow
        omega
      have hnn := hshares.nonneg q hq hbit
      omega
  · obtain ⟨c, -, hd, hp⟩ := hhas hA
    obtain ⟨c', -, hd', hp'⟩ := hhas hB
    have hi := hA.1.2
    have hk := hB.1.2
    omega

end

theorem lowMem_le_userEntry {n : Nat} (hn : n < mmPages) :
    lowMem ≤ pageFrom (userEntry (pageAddr n)) := by
  rw [pageFrom_userEntry_pageAddr hn]
  exact Nat.le_add_left _ _

/-- Task 1 gets a page after the first fork, and stores to it. -/
theorem Booted.firstStore {s : Mm} (hb : Booted 16384 2064 s)
    (hkept : ∀ {as t A}, Run.Traces SpaceStep as (s, seen s) (t, A) →
      Kept (bootTables 16384 * 0x400000) (bootEntries 16384 s) t A) {a : Nat}
    (ha : pgdirIdx a = 21) (v : BitVec 32) :
    ∃ t A as n, Run.Traces SpaceStep as (s, seen s) (t, A) ∧
      A 1 5 (pageIdx a) = some (Function.update (fun _ => 0) 0 v) ∧
        t.pte 21 (pageIdx a) = userEntry (pageAddr n) ∧ 18 ≤ (freePages t).card := by
  have htables : bootTables 16384 = 4 := by decide
  have hcard : 2027 ≤ (freePages s).card := hb.free_card (k := 3840) (by decide) (by decide)
  have hj := pageIdx_lt a
  obtain ⟨s₁, he₁, hc₁, hcard₁⟩ := fork_supplied (hb.tablesOwned installed_16MB)
    (show 0 < nrTasks by decide) zero_lt_one (show 1 < nrTasks by decide) (by decide) (by omega)
  have habsent : isPresent (s₁.pte (pgdirIdx a) (pageIdx a)) = false := by
    have hno : ¬ HasTable s 5 := hb.absent (by omega)
    rw [ha, hc₁.entries 21 _ hj, if_neg fun h => hno h.2, if_neg (by omega),
      hb.pte installed_16MB hj, if_neg (by omega)]
    decide
  obtain ⟨n, s₂, he₂, hg⟩ := emptyFault_supplied hc₁.owned (show 1 < nrTasks by decide)
    (ha ▸ ⟨by decide, by decide⟩) habsent (by omega)
  have hcard₂ := hg.spare
  have hself := hg.self
  rw [ha] at hself
  have hA₂ : (((seen s).step (.event (.fork 0 1))).step (.event (.emptyFault 1 a))) 1 5 (pageIdx a) =
      some fun _ => 0 := if_pos ⟨rfl, by rw [ha], rfl⟩
  have hr₂ : Run.Traces SpaceStep [.event (.fork 0 1), .event (.emptyFault 1 a)] (s, seen s)
      (s₂, ((seen s).step (.event (.fork 0 1))).step (.event (.emptyFault 1 a))) :=
    .cons (.event _ he₁ (by simp)) (.cons (.event _ he₂ (by simp)) (.nil _))
  generalize ((seen s).step (.event (.fork 0 1))).step (.event (.emptyFault 1 a)) = A₂ at hA₂ hr₂
  have hhas : A₂.Has 1 5 (pageIdx a) := ⟨⟨by decide, by decide, hj⟩, by rw [hA₂]; rfl⟩
  obtain ⟨c, hc, hsees⟩ := (hkept hr₂).holds.sees hhas
  obtain ⟨-, hpte⟩ := sameTables_data hsees.data 0 v
  have hr₃ := Run.traces_concat.mpr ⟨_, hr₂, SpaceStep.store 0 v hhas
    (show isWritable (s₂.pte 21 _) = true by rw [hself, isWritable_userEntry])
    (show lowMem ≤ pageFrom (s₂.pte 21 _) by rw [hself]; exact lowMem_le_userEntry hg.lt)⟩
  refine ⟨_, _, _, n, hr₃, ?_, by rw [hpte, hself], ?_⟩
  · rw [Spaces.step, Spaces.set, if_pos ⟨rfl, rfl, rfl⟩, hA₂]
    rfl
  · show 18 ≤ (freePages s₂).card
    omega

/-- Task 2 gets a copy of the page of task 1 after a fork, and stores to it. -/
theorem Kept.secondStore {T : Nat} {S : Finset (Nat × Nat)} {m : Mm} {A : Spaces} (hT : T ≤ 16)
    (hS : S ⊆ windows) (hin : ∀ x ∈ windows, T ≤ x.1 → x ∈ S) (h : Kept (T * 0x400000) S m A)
    {b j n : Nat} {c : Nat → BitVec 32} (hb : pgdirIdx b = 37 ∧ pageIdx b = j)
    (hA : A 1 5 j = some c) (hpte : m.pte 21 j = userEntry (pageAddr n))
    (hfree : 18 ≤ (freePages m).card) (v : BitVec 32) :
    ∃ t B as, Run.Traces SpaceStep as (m, A) (t, B) ∧ B 1 5 j = some c ∧
      B 2 5 j = some (Function.update c 0 v) := by
  have hj : j < 1024 := hb.2 ▸ pageIdx_lt b
  obtain ⟨m₁, he₁, hc₁, hcard⟩ := fork_supplied h.owned (show 1 < nrTasks by decide)
    Nat.two_pos (show 2 < nrTasks by decide) (by decide) (by omega)
  have hs₁ := SpaceStep.event A he₁ (by simp)
  have h₁ := h.step hT hS hin hs₁
  have hA₁ : A.step (.event (.fork 1 2)) 1 5 j = some c ∧
      A.step (.event (.fork 1 2)) 2 5 j = some c := ⟨hA, hA⟩
  generalize A.step (.event (.fork 1 2)) = A₁ at hs₁ h₁ hA₁
  have hentry : m₁.pte 37 j = copied (userEntry (pageAddr n)) := by
    rw [← hpte]
    refine hc₁.pte_copy (i := 5) (by decide) hj ?_
    rw [hpte]
    exact isPresent_userEntry _
  have hp : isPresent (m₁.pte (pgdirIdx b) (pageIdx b)) = true := by
    rw [hb.1, hb.2, hentry, isPresent_copied, isPresent_userEntry]
  have hone : HasFree m₁ := hasFree_of_card (by omega)
  have he₂ : EventStep (.writeFault 2 b) m₁ (m₁.doWpPage b) := by
    refine .writeFault (by decide) (hb.1 ▸ ⟨by decide, by decide⟩) hp ?_ hone
    rw [hb.1, hb.2, hentry, isWritable_copied]
  have hs₂ := SpaceStep.event A₁ he₂ (by simp)
  obtain ⟨w, hw, -, hww, hloww⟩ := doWpPage_writable h₁.owned hp hone
  rw [hb.1, hb.2] at hw
  have hhas : A₁.Has 2 5 j := ⟨⟨by decide, by decide, hj⟩, by rw [hA₁.2]; rfl⟩
  have hs₃ := SpaceStep.store (m := m₁.doWpPage b) 0 v hhas
    (show isWritable ((m₁.doWpPage b).pte 37 _) = true by rw [hw, hww])
    (show lowMem ≤ pageFrom ((m₁.doWpPage b).pte 37 _) by rw [hw]; exact hloww)
  refine ⟨_, _, _, .cons hs₁ (.cons hs₂ (.cons hs₃ (.nil _))), hA₁.1, ?_⟩
  rw [Spaces.step, Spaces.set, if_pos ⟨rfl, rfl, rfl⟩, hA₁.2, Option.map_some]

/-- Both tasks have their own page in the end. -/
theorem Booted.stores {s : Mm} (hb : Booted 16384 2064 s) (hcov : Covered s) {a b : Nat}
    (ha : pgdirIdx a = 21) (hab : pgdirIdx b = 37 ∧ pageIdx b = pageIdx a) (v v' : BitVec 32) :
    ∃ t A as, Run.Traces SpaceStep as (s, seen s) (t, A) ∧
      A 1 5 (pageIdx a) = some (Function.update (fun _ => 0) 0 v) ∧
        A 2 5 (pageIdx a) = some (Function.update (fun _ => 0) 0 v') := by
  have hS : bootEntries 16384 s ⊆ windows := Finset.filter_subset _ _
  have hin : ∀ x ∈ windows, bootTables 16384 ≤ x.1 → x ∈ bootEntries 16384 s :=
    fun x hx hT => Finset.mem_filter.mpr ⟨hx, .inl hT⟩
  have hkept : ∀ {as t A}, Run.Traces SpaceStep as (s, seen s) (t, A) →
      Kept (bootTables 16384 * 0x400000) (bootEntries 16384 s) t A := fun hr =>
    (hb.kept installed_16MB hcov).run installed_16MB.tables_le hS hin hr
  obtain ⟨t, A, as, n, hr, hA, hpte, hfree⟩ := hb.firstStore hkept ha v
  obtain ⟨u, B, bs, hr', h₁, h₂⟩ :=
    (hkept hr).secondStore installed_16MB.tables_le hS hin hab hA hpte hfree v'
  rw [Function.update_idem] at h₂
  exact ⟨u, B, as ++ bs, hr.append hr', h₁, h₂⟩

end Gpos.Mm
