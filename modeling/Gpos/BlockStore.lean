import Gpos.BufferOps
import Gpos.Run

/-! The buffer cache as a store of blocks. Nothing ever writes a dirty buffer
to the disk, so what was stored last is safe only while its buffer stays. -/

namespace Gpos.BlockStore

open Cache BufferTasks

/-- `held` are the buffers that the callers have not released, and `stored`
remembers what they last put into each block. -/
structure St where
  cache : Cache
  held : List Ref
  stored : Nat → Nat → Option Block

/-- `store` changes `b_data` and sets `b_dirt`; with `fill` it also sets
`b_uptodate`, as `new_block` does for a block it does not read. -/
inductive Action
  | getblk (dev block : Nat)
  | bread (dev block : Nat)
  | store (r : Ref) (data : Block) (fill : Bool)
  | brelse (r : Ref)

def fillHead (data : Block) (fill : Bool) (b : BufferHead) : BufferHead :=
  { storeHead data b with bUptodate := fill || b.bUptodate }

def remember (r : Ref) (data : Block) (stored : Nat → Nat → Option Block) :
    Nat → Nat → Option Block :=
  fun dev block => if dev = r.dev ∧ block = r.block then some data else stored dev block

def step (disk : Disk) : Action → St → Option St
  | .getblk dev block, s =>
    if 0 < dev ∧ dev < 2 ^ 16 ∧ block < 2 ^ 32 then
      (s.cache.getblk dev block).map fun x =>
        { s with cache := x.2, held := ⟨x.1, dev, block⟩ :: s.held }
    else none
  | .bread dev block, s =>
    if 0 < dev ∧ dev < 2 ^ 16 ∧ block < 2 ^ 32 then
      (s.cache.bread disk dev block).map fun x =>
        { s with cache := x.2, held := (x.1.map fun bh => ⟨bh, dev, block⟩).toList ++ s.held }
    else none
  | .store r data fill, s =>
    if r ∈ s.held then
      some { s with
        cache := s.cache.modify r.bh (fillHead data fill), stored := remember r data s.stored }
    else none
  | .brelse r, s =>
    if r ∈ s.held then (s.cache.brelse r.bh).map fun c =>
      { s with cache := c, held := s.held.erase r } else none

def boot (bufferEnd : Nat) (c : Cache) : St :=
  { cache := bufferInit bufferEnd c, held := [], stored := fun _ _ => none }

/-- A successful `bread` of a block returns what was last stored in it. -/
def Kept (disk : Disk) (s : St) : Prop :=
  ∀ dev block bh c d, s.stored dev block = some d →
    s.cache.bread disk dev block = some (some bh, c) → (c.buf bh).bData = d

/-- The block has a buffer to spare: its own one, or an unused one that is clean. -/
def HasRoom (c : Cache) (dev block : Nat) : Prop :=
  (∀ b, c.Caches b dev block → (c.buf b).bCount < 255) ∧
    ((∀ b, ¬ c.Caches b dev block) → ∃ b, b < c.nrBuffers ∧ (c.buf b).bCount = 0 ∧
      (c.buf b).bDirt = false)

instance (c : Cache) (dev block : Nat) : Decidable (HasRoom c dev block) :=
  decidable_of_iff
    ((∀ b < c.nrBuffers, (c.buf b).bDev = dev ∧ (c.buf b).bBlocknr = block →
      (c.buf b).bCount < 255) ∧
    ((∀ b < c.nrBuffers, ¬ ((c.buf b).bDev = dev ∧ (c.buf b).bBlocknr = block)) →
      ∃ b < c.nrBuffers, (c.buf b).bCount = 0 ∧ (c.buf b).bDirt = false))
    (by simp only [HasRoom, Caches, and_imp, not_and])

def Safe (s : St) : Action → Prop
  | .getblk dev block | .bread dev block => HasRoom s.cache dev block
  | .store r _ fill => fill = true ∨ (s.cache.buf r.bh).bUptodate = true
  | .brelse _ => True

instance (s : St) : ∀ a, Decidable (Safe s a)
  | .getblk _ _ => inferInstanceAs (Decidable (HasRoom _ _ _))
  | .bread _ _ => inferInstanceAs (Decidable (HasRoom _ _ _))
  | .store _ _ _ => inferInstanceAs (Decidable (_ ∨ _))
  | .brelse _ => isTrue trivial

/-- No step on the way gives a dirty buffer to another block. -/
def KeepsDirty (disk : Disk) (s : St) : Prop :=
  ∀ a t, Safe s a → step disk a s = some t → ∀ b, b < s.cache.nrBuffers →
    (s.cache.buf b).bDirt = true → (t.cache.buf b).bDev = (s.cache.buf b).bDev ∧
      (t.cache.buf b).bBlocknr = (s.cache.buf b).bBlocknr

/-- `d` is in an up-to-date buffer of the block that is marked for writing. -/
def Holds (c : Cache) (dev block : Nat) (d : Block) : Prop :=
  ∃ b, c.Caches b dev block ∧ (c.buf b).bUptodate = true ∧ (c.buf b).bDirt = true ∧
    (c.buf b).bData = d

structure Inv (s : St) : Prop where
  ready : Ready s.cache s.held
  holds : ∀ dev block d, s.stored dev block = some d → dev ≠ 0 ∧ Holds s.cache dev block d

/-- What a step leaves alone in a buffer that is dirty and up to date. -/
def KeepsStored (c c' : Cache) : Prop :=
  c'.nrBuffers = c.nrBuffers ∧ ∀ b, b < c.nrBuffers → (c.buf b).bDirt = true →
    (c'.buf b).bDev = (c.buf b).bDev ∧ (c'.buf b).bBlocknr = (c.buf b).bBlocknr ∧
      ((c.buf b).bUptodate = true → (c'.buf b).bUptodate = true ∧ (c'.buf b).bDirt = true ∧
        (c'.buf b).bData = (c.buf b).bData)

section

variable {c c' c₁ c₂ : Cache} {R : Multiset Ref} {dev block bh : Nat} {disk : Disk}

theorem KeepsStored.holds (h : KeepsStored c c') {d : Block} (hh : Holds c dev block d) :
    Holds c' dev block d := by
  obtain ⟨b, ⟨hb, hdev, hblk⟩, hup, hdirt, hdata⟩ := hh
  have hk := h.2 b hb hdirt
  have hk' := hk.2.2 hup
  exact ⟨b, ⟨h.1 ▸ hb, hk.1.trans hdev, hk.2.1.trans hblk⟩, hk'.1, hk'.2.1, hk'.2.2.trans hdata⟩

theorem keepsStored_modify (i : Nat) {f : BufferHead → BufferHead} (hf : KeepsShape f)
    (hs : (c.buf i).bUptodate = true → (f (c.buf i)).bUptodate = true ∧
      (f (c.buf i)).bDirt = (c.buf i).bDirt ∧ (f (c.buf i)).bData = (c.buf i).bData) :
    KeepsStored c (c.modify i f) := by
  refine ⟨rfl, fun b _ hd => ?_⟩
  rw [modify_buf]
  split
  next e =>
    subst e
    exact ⟨(hf _).1, (hf _).2.1, fun hup => ⟨(hs hup).1, (hs hup).2.1.trans hd, (hs hup).2.2⟩⟩
  next => exact ⟨rfl, rfl, fun hup => ⟨hup, hd, rfl⟩⟩

/-- The buffer that `getblk` takes from another block is clean if there is a clean one. -/
theorem clean_of_best (hu : Unlocked c) (hroom : HasRoom c dev block)
    (hnew : ∀ b, ¬ c.Caches b dev block) (hbest : ∀ b, b < c.nrBuffers → (c.buf b).bCount = 0 →
      badness (c.buf bh) ≤ badness (c.buf b)) : (c.buf bh).bDirt = false := by
  obtain ⟨b, hb, h0, hclean⟩ := hroom.2 hnew
  have hle := hbest b hb h0
  simp only [badness, hclean, hu b hb, Bool.toNat_false] at hle
  cases hd : (c.buf bh).bDirt with
  | false => rfl
  | true =>
    rw [hd, Bool.toNat_true] at hle
    omega

theorem keepsStored_got (hu : Unlocked c) (hroom : HasRoom c dev block)
    (hg : Got c dev block bh c') : KeepsStored c c' := by
  cases hg with
  | hit hc he =>
    subst he
    exact keepsStored_modify bh keepsShape_incCount fun hup => ⟨hup, rfl, rfl⟩
  | miss hnew _ h0 hbest he =>
    refine ⟨he.nrBuffers, fun b _ hd => ?_⟩
    have hne : b ≠ bh := by
      rintro rfl
      rw [clean_of_best hu hroom hnew hbest] at hd
      cases hd
    have hold := he.old b hne
    refine ⟨by simpa using congrArg BufferHead.bDev hold,
      by simpa using congrArg BufferHead.bBlocknr hold,
      fun hup => ⟨?_, ?_, by simpa using congrArg BufferHead.bData hold⟩⟩
    · rw [← hup]
      simpa using congrArg BufferHead.bUptodate hold
    · rw [← hd]
      simpa using congrArg BufferHead.bDirt hold

theorem Got.dirty (hu : Unlocked c) (hroom : HasRoom c dev block) (hg : Got c dev block bh c')
    {b : Nat} (hd : (c.buf b).bDirt = true) : (c'.buf b).bDirt = true := by
  cases hg with
  | hit hc he =>
    subst he
    rw [modify_buf]
    split <;> exact hd
  | miss hnew _ h0 hbest he =>
    have hne : b ≠ bh := by
      rintro rfl
      rw [clean_of_best hu hroom hnew hbest] at hd
      cases hd
    rw [← hd]
    simpa using congrArg BufferHead.bDirt (he.old b hne)

theorem KeepsStored.trans (h : KeepsStored c c₁) (h' : KeepsStored c₁ c₂)
    (hd : ∀ b, b < c.nrBuffers → (c.buf b).bDirt = true → (c₁.buf b).bDirt = true) :
    KeepsStored c c₂ := by
  refine ⟨h'.1.trans h.1, fun b hb hdirt => ?_⟩
  have h1 := h.2 b hb hdirt
  have h2 := h'.2 b (h.1.symm ▸ hb) (hd b hb hdirt)
  exact ⟨h2.1.trans h1.1, h2.2.1.trans h1.2.1, fun hup =>
    ⟨(h2.2.2 (h1.2.2 hup).1).1, (h2.2.2 (h1.2.2 hup).1).2.1,
      (h2.2.2 (h1.2.2 hup).1).2.2.trans (h1.2.2 hup).2.2⟩⟩

theorem keepsStored_fetched {x : Option Nat} (hf : Fetched disk bh c x c') : KeepsStored c c' := by
  have hread : (c.buf bh).bUptodate = false → KeepsStored c (c.modify bh (readHead disk)) :=
    fun hup => keepsStored_modify bh keepsShape_readHead fun h => by rw [hup] at h; cases h
  cases hf with
  | ready _ => exact ⟨rfl, fun b _ hd => ⟨rfl, rfl, fun hup => ⟨hup, hd, rfl⟩⟩⟩
  | read hup => exact hread hup
  | failed hup he =>
    rcases he with rfl | rfl
    · exact keepsStored_modify bh keepsShape_decCount fun h => ⟨h, rfl, rfl⟩
    · -- the buffer was not up to date, so nothing is asked of it
      refine ⟨rfl, fun b hb hd => ?_⟩
      have hk := (hread hup).2 b hb hd
      rw [modify_buf]
      split
      next e =>
        subst e
        exact ⟨hk.1, hk.2.1, fun h => by rw [hup] at h; cases h⟩
      next => exact hk

end

theorem Inv.kept {disk : Disk} {s : St} (hi : Inv s) : Kept disk s := by
  intro dev block bh c d hs he
  obtain ⟨hd, b, hb, hup, -, hdata⟩ := hi.holds dev block d hs
  rcases getblk_eq hi.ready.sound.inv hi.ready.unlocked block
    hd with ⟨bh', c', hget, hg⟩ | ⟨-, hnew, -⟩
  · cases hg with
    | hit hc he' =>
      obtain rfl := hi.ready.sound.inv.unique b bh' dev block hd hb hc
      have hbuf : c'.buf b = incCount (s.cache.buf b) := by rw [he', modify_buf, if_pos rfl]
      rw [bread_hit hget (by rw [hbuf]; exact hup), Option.some.injEq, Prod.mk.injEq,
        Option.some.injEq] at he
      rw [← he.1, ← he.2, hbuf]
      exact hdata
    | miss hnew => exact absurd hb (hnew b)
  · exact absurd hb (hnew b)

theorem Inv.of_keepsStored {s t : St} (hi : Inv s) (hr : Ready t.cache t.held)
    (hs : t.stored = s.stored) (hk : KeepsStored s.cache t.cache) : Inv t :=
  ⟨hr, fun dev block d h => ⟨(hi.holds dev block d (hs ▸ h)).1,
    hk.holds (hi.holds dev block d (hs ▸ h)).2⟩⟩

theorem keepsShape_fillHead (data : Block) (fill : Bool) : KeepsShape (fillHead data fill) :=
  fun _ => ⟨rfl, rfl, rfl, rfl, rfl, rfl⟩

theorem Inv.store {s : St} (hi : Inv s) {r : Ref} (hr : r ∈ s.held) (data : Block) (fill : Bool)
    (hsafe : fill = true ∨ (s.cache.buf r.bh).bUptodate = true) :
    Inv { s with
      cache := s.cache.modify r.bh (fillHead data fill), stored := remember r data s.stored } := by
  have hid := hi.ready.sound.ident r hr
  have hs := sameShape_modify s.cache r.bh (keepsShape_fillHead data fill)
  refine ⟨hi.ready.modify r.bh (keepsShape_fillHead data fill) (fun _ => rfl) fun _ h => h, ?_⟩
  intro dev block d h
  simp only [remember] at h
  split at h
  next e =>
    obtain ⟨rfl, rfl⟩ := e
    refine ⟨hid.1, r.bh, (hs.caches _ _ _).mpr hid.2, ?_⟩
    rw [modify_buf, if_pos rfl]
    exact ⟨by rcases hsafe with h | h <;> simp [fillHead, h], rfl, Option.some.inj h⟩
  next hne =>
    obtain ⟨hd, b, hb, hup, hdirt, hdata⟩ := hi.holds dev block d h
    have hbr : r.bh ≠ b := by
      rintro rfl
      exact hne ⟨hb.2.1.symm.trans hid.2.2.1, hb.2.2.symm.trans hid.2.2.2⟩
    refine ⟨hd, b, (hs.caches _ _ _).mpr hb, ?_⟩
    rw [modify_buf, if_neg hbr]
    exact ⟨hup, hdirt, hdata⟩

/-- A safe step keeps the invariant and moves no dirty buffer. -/
theorem step_inv {disk : Disk} {s t : St} {a : Action} (hi : Inv s) (hsafe : Safe s a)
    (h : step disk a s = some t) :
      Inv t ∧ ∀ b, b < s.cache.nrBuffers → (s.cache.buf b).bDirt = true →
        (t.cache.buf b).bDev = (s.cache.buf b).bDev ∧
          (t.cache.buf b).bBlocknr = (s.cache.buf b).bBlocknr := by
  have hu := hi.ready.unlocked
  cases a with
  | getblk dev block =>
    simp only [step] at h
    split_ifs at h with hg
    obtain ⟨⟨bh, c⟩, hget, rfl⟩ := Option.map_eq_some_iff.mp h
    have hgot := getblk_got hi.ready.sound.inv hu (Nat.ne_of_gt hg.1) hget
    have hk := keepsStored_got hu hsafe hgot
    exact ⟨hi.of_keepsStored (hgot.ready hi.ready (Nat.ne_of_gt hg.1) hsafe.1) rfl hk,
      fun b hb hd => ⟨(hk.2 b hb hd).1, (hk.2 b hb hd).2.1⟩⟩
  | bread dev block =>
    simp only [step] at h
    split_ifs at h with hg
    obtain ⟨⟨x, c⟩, hread, rfl⟩ := Option.map_eq_some_iff.mp h
    obtain ⟨bh, c₁, hgot, hf, hr⟩ := bread_spec hi.ready (Nat.ne_of_gt hg.1) hsafe.1 hread
    have hk := (keepsStored_got hu hsafe hgot).trans (keepsStored_fetched hf) fun b _ hd =>
      Got.dirty hu hsafe hgot hd
    refine ⟨hi.of_keepsStored ?_ rfl hk, fun b hb hd => ⟨(hk.2 b hb hd).1, (hk.2 b hb hd).2.1⟩⟩
    simpa using hr
  | store r data fill =>
    simp only [step] at h
    split_ifs at h with hr
    obtain rfl := Option.some.inj h
    have hs := (sameShape_modify s.cache r.bh (keepsShape_fillHead data fill)).buf
    exact ⟨hi.store hr data fill hsafe, fun b _ _ => ⟨(hs b).1, (hs b).2.1⟩⟩
  | brelse r =>
    simp only [step] at h
    split_ifs at h with hr
    obtain ⟨c, hc, rfl⟩ := Option.map_eq_some_iff.mp h
    have hheld : (s.held : Multiset Ref) = r ::ₘ (s.held.erase r : Multiset Ref) :=
      Multiset.coe_eq_coe.mpr (List.perm_cons_erase hr)
    have hbr := Ready.brelse (hheld ▸ hi.ready)
    rw [hbr.1] at hc
    obtain rfl := Option.some.inj hc
    have hk : KeepsStored s.cache (s.cache.modify r.bh decCount) :=
      keepsStored_modify r.bh keepsShape_decCount fun h => ⟨h, rfl, rfl⟩
    exact ⟨hi.of_keepsStored hbr.2 rfl hk, fun b hb hd => ⟨(hk.2 b hb hd).1, (hk.2 b hb hd).2.1⟩⟩

theorem boot_inv {bufferEnd : Nat} (hroom : RoomForBuffer bufferEnd) (c : Cache) :
    Inv (boot bufferEnd c) := by
  have hspec := bufferInit_spec hroom c
  refine ⟨⟨⟨hspec.1, fun b hb => (hspec.2.2 b hb).2.1, by simp [boot]⟩, by simp [boot, countRefs],
    fun b hb => (hspec.2.2 b hb).2.2⟩, by simp [boot]⟩

/-- As long as every step is safe, no update is lost and no dirty buffer is recycled. -/
theorem kept_of_safe (disk : Disk) {bufferEnd : Nat} (hroom : RoomForBuffer bufferEnd) (c : Cache)
    (as : List Action) (hsafe : Run.Meets (step disk) Safe as (boot bufferEnd c)) :
    Run.Always (step disk) (fun s => Kept disk s ∧ KeepsDirty disk s) as (boot bufferEnd c) :=
  (Run.always_of_meets (fun _ _ _ hi h hs => (step_inv hi hs h).1)
    (boot_inv hroom c) hsafe).mono fun _ hi =>
    ⟨hi.kept, fun _ _ hs h => (step_inv hi hs h).2⟩

def zeroDisk : Disk where
  blkDev m := m == 3
  ok _ _ := true
  data _ _ := 0

theorem boot_one : boot 0x100424 blank =
    ⟨(({ blank.initHead 0 with freeList := 0 }).setPrevFree 0 (some 0)).setNextFree 0 (some 0), [],
      fun _ _ => none⟩ := by
  have h : initLoop 0x100424 0 { blank with nrBuffers := 0 } = blank.initHead 0 := by
    rw [initLoop_succ (by decide), initLoop_stop (by decide)]
    rfl
  unfold boot bufferInit
  rw [h]
  rfl

theorem boot_two : boot 0x100848 blank =
    ⟨(({ (blank.initHead 0).initHead 1 with freeList := 0 }).setPrevFree 0 (some 1)).setNextFree 1
      (some 0), [], fun _ _ => none⟩ := by
  have h : initLoop 0x100848 0 { blank with nrBuffers := 0 } = (blank.initHead 0).initHead 1 := by
    rw [initLoop_succ (by decide), if_neg (by decide), initLoop_succ (by decide),
      initLoop_stop (by decide)]
    rfl
  unfold boot bufferInit
  rw [h]
  rfl

/-- Block 5 is filled and released, block 6 takes the other buffer, and block 5 is read again. -/
def readBack : List Action :=
  [.getblk 0x301 5, .store ⟨0, 0x301, 5⟩ 1 true, .brelse ⟨0, 0x301, 5⟩, .bread 0x301 6,
    .brelse ⟨1, 0x301, 6⟩, .bread 0x301 5]

theorem kept_of_safe_readBack :
    Run.Always (step zeroDisk) (fun s => Kept zeroDisk s ∧ KeepsDirty zeroDisk s) readBack
      (boot 0x100848 blank) ∧
    (Run.exec (step zeroDisk) readBack (boot 0x100848 blank)).map
      (fun s => (s.held, (s.cache.buf 0).bData)) = some ([⟨0, 0x301, 5⟩], 1) := by
  refine ⟨kept_of_safe zeroDisk (by decide) blank _ ?_, ?_⟩
  · rw [boot_two]
    decide +kernel
  · rw [boot_two]
    decide +kernel

/-- Block 5 is filled and released, and then block 6 takes the only buffer. -/
def dropped : List Action :=
  [.getblk 0x301 5, .store ⟨0, 0x301, 5⟩ 1 true, .brelse ⟨0, 0x301, 5⟩, .bread 0x301 6,
    .brelse ⟨0, 0x301, 6⟩]

/-- Whether a `bread` of block 5 would succeed with other data than was stored. -/
def readsOther (s : St) : Bool :=
  match s.cache.bread zeroDisk 0x301 5 with
  | some (some bh, c) => (s.stored 0x301 5).any (· != (c.buf bh).bData)
  | _ => false

theorem not_kept_of_readsOther {s : St} (h : readsOther s = true) : ¬ Kept zeroDisk s := by
  unfold readsOther at h
  split at h
  next bh c he =>
    obtain ⟨d, hd, hne⟩ := (Option.any_eq_true _ _).mp h
    exact fun hk => bne_iff_ne.mp hne (hk 0x301 5 bh c d hd he).symm
  next => cases h

theorem update_lost :
    ¬ Run.Always (step zeroDisk) (Kept zeroDisk) dropped (boot 0x100424 blank) := by
  have hrun : (Run.exec (step zeroDisk) dropped (boot 0x100424 blank)).any readsOther = true := by
    rw [boot_one]
    decide +kernel
  obtain ⟨t, ht, hr⟩ := (Option.any_eq_true _ _).mp hrun
  exact fun h => not_kept_of_readsOther hr (h.last ht)

end Gpos.BlockStore
