import Gpos.BufferInit
import Gpos.BufferRefs

/-! The functions of the buffer cache as one task runs them from start to end.
`none` is a panic, or a sleep that nothing ends because no other task runs. -/

namespace Gpos.Cache

open BufferTasks

/-- The disks: which majors have a request function, and for every block whether
reading it succeeds and what it puts into the buffer. -/
structure Disk where
  blkDev : Nat → Bool
  ok : Nat → Nat → Bool
  data : Nat → Nat → Block

/-- Nothing runs while the function waits, so its second look at the identity
of the buffer sees what `find_buffer` saw. -/
def getHashTable (dev block : Nat) (c : Cache) : Option (Option Nat × Cache) :=
  match c.findBuffer dev block with
  | none => none
  | some none => some (none, c)
  | some (some bh) => if (c.buf bh).bLock then none else some (some bh, c.modify bh incCount)

def getblk (dev block : Nat) (c : Cache) : Option (Nat × Cache) :=
  match c.getHashTable dev block with
  | none => none
  | some (some bh, c) => some (bh, c)
  | some (none, c) =>
    match c.pickVictim with
    | none => none
    -- `sleep_on (&buffer_wait)`
    | some none => none
    | some (some bh) =>
      if (c.buf bh).bLock then none else (c.retarget bh dev block).map fun c => (bh, c)

def brelse (bh : Nat) (c : Cache) : Option Cache :=
  if (c.buf bh).bLock then none
  else if (c.buf bh).bCount = 0 then none
  else some (c.modify bh decCount)

/-- What a request to read leaves in the header; `add_request` clears `b_dirt`. -/
def readHead (disk : Disk) (b : BufferHead) : BufferHead :=
  { b with
    bDirt := false, bUptodate := disk.ok b.bDev b.bBlocknr, bData := disk.data b.bDev b.bBlocknr }

/-- `ll_rw_block (READ, bh)` and the wait for the request to end. -/
def llRwRead (disk : Disk) (bh : Nat) (c : Cache) : Option Cache :=
  if ¬ disk.blkDev (major (c.buf bh).bDev) then some c
  else if (c.buf bh).bLock then none
  else if (c.buf bh).bUptodate then some c
  else some (c.modify bh (readHead disk))

def bread (disk : Disk) (dev block : Nat) (c : Cache) : Option (Option Nat × Cache) :=
  match c.getblk dev block with
  | none => none
  | some (bh, c) =>
    if (c.buf bh).bUptodate then some (some bh, c)
    else match c.llRwRead disk bh with
      | none => none
      | some c =>
        if (c.buf bh).bUptodate then some (some bh, c)
        else (c.brelse bh).map fun c => (none, c)

def Unlocked (c : Cache) : Prop := ∀ b, b < c.nrBuffers → (c.buf b).bLock = false

/-- The buffer that `getblk` returns was found in its hash queue, or it was the
best of the unused ones and has been taken for the block. -/
inductive Got (c : Cache) (dev block bh : Nat) (c' : Cache) : Prop
  | hit (h : c.Caches bh dev block) (he : c' = c.modify bh incCount) : Got c dev block bh c'
  | miss (h : ∀ b, ¬ c.Caches b dev block) (hb : bh < c.nrBuffers) (h0 : (c.buf bh).bCount = 0)
      (hbest : ∀ b, b < c.nrBuffers → (c.buf b).bCount = 0 → badness (c.buf bh) ≤ badness (c.buf b))
      (he : Retargeted c bh dev block c') : Got c dev block bh c'

theorem getHashTable_eq {c : Cache} (h : CacheInv c) (hu : Unlocked c) {dev : Nat} (block : Nat)
    (hd : dev ≠ 0) :
      (∃ b, c.getHashTable dev block = some (some b, c.modify b incCount) ∧ c.Caches b dev block) ∨
        c.getHashTable dev block = some (none, c) ∧ ∀ b, ¬ c.Caches b dev block := by
  rcases h.findBuffer block hd with ⟨b, hb, hc⟩ | ⟨hn, hnew⟩
  · refine .inl ⟨b, ?_, hc⟩
    simp only [getHashTable, hb, hu b hc.1, Bool.false_eq_true, if_false]
  · exact .inr ⟨by simp only [getHashTable, hn], hnew⟩

/-- `getblk` returns unless the block is not cached and every buffer is in use. -/
theorem getblk_eq {c : Cache} (h : CacheInv c) (hu : Unlocked c) {dev : Nat} (block : Nat)
    (hd : dev ≠ 0) : (∃ bh c', c.getblk dev block = some (bh, c') ∧ Got c dev block bh c') ∨
      c.getblk dev block = none ∧ (∀ b, ¬ c.Caches b dev block) ∧ ∀ b, b < c.nrBuffers →
        (c.buf b).bCount ≠ 0 := by
  rcases getHashTable_eq h hu block hd with ⟨b, hb, hc⟩ | ⟨hn, hnew⟩
  · exact .inl ⟨b, _, by simp only [getblk, hb], .hit hc rfl⟩
  · obtain ⟨v, hv, hbest⟩ := h.pickVictim
    cases v with
    | none =>
      exact .inr ⟨by simp only [getblk, hn, hv], hnew, fun b hb => hbest b (List.mem_range.mpr hb)⟩
    | some v =>
      have hlt := List.mem_range.mp hbest.1
      obtain ⟨c', he, hr⟩ := h.retarget hlt hd hnew
      refine .inl ⟨v, c', ?_, .miss hnew hlt hbest.2.1
        (fun b hb => hbest.2.2 b (List.mem_range.mpr hb)) hr⟩
      simp only [getblk, hn, hv, hu v hlt, Bool.false_eq_true, if_false, he, Option.map_some]

theorem getblk_got {c c' : Cache} (h : CacheInv c) (hu : Unlocked c) {dev block bh : Nat}
    (hd : dev ≠ 0) (he : c.getblk dev block = some (bh, c')) : Got c dev block bh c' := by
  rcases getblk_eq h hu block hd with ⟨b, d, hb, hg⟩ | ⟨hn, -⟩
  · rw [hb, Option.some.injEq, Prod.mk.injEq] at he
    exact he.1 ▸ he.2 ▸ hg
  · rw [hn] at he
    cases he

/-- The counts are those of the references `R`, and no buffer is locked. -/
structure Ready (c : Cache) (R : Multiset Ref) : Prop where
  sound : Sound c R
  fits : ∀ b, countRefs b R < 256
  unlocked : Unlocked c

section

variable {c c' : Cache} {R R' : Multiset Ref} {dev block bh : Nat} {r : Ref} {disk : Disk}

theorem Ready.of_effect (h : Ready c R) (he : Effect c R c' R') (hf : ∀ b, countRefs b R' < 256)
    (hu : Unlocked c') : Ready c' R' :=
  ⟨he.sound h.sound h.fits, hf, hu⟩

theorem Ready.count (h : Ready c R) {b : Nat} (hb : b < c.nrBuffers) :
    (c.buf b).bCount = countRefs b R := by
  have hcount := h.sound.count b hb
  rwa [Nat.mod_eq_of_lt (h.fits b)] at hcount

theorem unlocked_modify (h : Unlocked c) (i : Nat) {f : BufferHead → BufferHead}
    (hf : ∀ b, b.bLock = false → (f b).bLock = false) : Unlocked (c.modify i f) := by
  intro b hb
  rw [modify_buf]
  split
  · exact hf _ (h b hb)
  · exact h b hb

theorem Ready.modify (h : Ready c R) (i : Nat) {f : BufferHead → BufferHead} (hf : KeepsShape f)
    (hc : ∀ b, (f b).bCount = b.bCount) (hl : ∀ b, b.bLock = false → (f b).bLock = false) :
    Ready (c.modify i f) R :=
  h.of_effect (.flags i hf hc) h.fits (unlocked_modify h.unlocked i hl)

theorem fits_cons (hf : ∀ b, countRefs b R < 256) (hr : countRefs r.bh R < 255) (b : Nat) :
    countRefs b (r ::ₘ R) < 256 := by
  rw [countRefs_cons]
  split
  next e => exact e ▸ Nat.succ_lt_succ hr
  next => exact hf b

theorem Got.caches (hg : Got c dev block bh c') : c'.Caches bh dev block := by
  cases hg with
  | hit h he =>
    subst he
    exact ((sameShape_modify c bh keepsShape_incCount).caches _ _ _).mpr h
  | miss _ hb _ _ he => exact he.caches_self hb

theorem Got.nrBuffers (hg : Got c dev block bh c') : c'.nrBuffers = c.nrBuffers := by
  cases hg with
  | hit _ he => rw [he]; rfl
  | miss _ _ _ _ he => exact he.nrBuffers

theorem Retargeted.unlocked (h : Retargeted c bh dev block c') (hu : Unlocked c) : Unlocked c' := by
  intro b hb
  rw [h.nrBuffers] at hb
  rw [← hu b hb]
  by_cases e : b = bh
  · subst e
    simpa using congrArg BufferHead.bLock h.new
  · simpa using congrArg BufferHead.bLock (h.old b e)

theorem Got.ready (h : Ready c R) (hd : dev ≠ 0) (hg : Got c dev block bh c')
    (hroom : ∀ b, c.Caches b dev block → (c.buf b).bCount < 255) :
    Ready c' (⟨bh, dev, block⟩ ::ₘ R) := by
  cases hg with
  | hit hc he =>
    subst he
    have hlt : countRefs bh R < 255 := h.count hc.1 ▸ hroom bh hc
    exact h.of_effect (.take ⟨bh, dev, block⟩ hd hc) (fits_cons h.fits hlt)
      (unlocked_modify h.unlocked bh fun _ hl => hl)
  | miss hnew hb h0 hbest he =>
    have hlt : countRefs bh R < 255 := by rw [← h.count hb, h0]; omega
    exact h.of_effect (.reuse ⟨bh, dev, block⟩ hd hb h0 he) (fits_cons h.fits hlt)
      (he.unlocked h.unlocked)

theorem Ready.brelse (h : Ready c (r ::ₘ R)) :
    c.brelse r.bh = some (c.modify r.bh decCount) ∧ Ready (c.modify r.bh decCount) R := by
  have hb := (h.sound.ident r (Multiset.mem_cons_self r R)).2.1
  have hcount := h.count hb
  rw [countRefs_cons, if_pos rfl] at hcount
  constructor
  · simp only [Cache.brelse, h.unlocked r.bh hb, Bool.false_eq_true, if_false, hcount,
      Nat.add_eq_zero_iff, Nat.succ_ne_self, and_false]
  · refine h.of_effect (.drop r rfl) (fun b => ?_) (unlocked_modify h.unlocked r.bh fun _ hl => hl)
    have hf := h.fits b
    rw [countRefs_cons] at hf
    omega

/-- A waiting `getblk` has found a reference on every buffer. -/
theorem card_of_starved (h : Ready c R) (hfull : ∀ b, b < c.nrBuffers → (c.buf b).bCount ≠ 0) :
    c.nrBuffers ≤ R.card := by
  have hsub : (Multiset.range c.nrBuffers) ≤ R.map Ref.bh := by
    rw [Multiset.le_iff_subset (Multiset.nodup_range _)]
    intro b hb
    have hlt := Multiset.mem_range.mp hb
    have hpos : 0 < countRefs b R := by
      rw [← h.count hlt]
      exact Nat.pos_of_ne_zero (hfull b hlt)
    obtain ⟨r, hr, he⟩ := Multiset.countP_pos.mp hpos
    exact Multiset.mem_map.mpr ⟨r, hr, he⟩
  have hle := Multiset.card_le_card hsub
  rwa [Multiset.card_range, Multiset.card_map] at hle

theorem Ready.room (h : Ready c R) (hfew : R.card < 255) :
    ∀ b, b < c.nrBuffers → (c.buf b).bCount < 255 := by
  intro b hb
  rw [h.count hb]
  exact (Multiset.countP_le_card _ _).trans_lt hfew

theorem Ready.getblk (h : Ready c R) (hd : dev ≠ 0) (block : Nat) (hfew : R.card < 255)
    (hspare : R.card < c.nrBuffers) :
    ∃ bh c', c.getblk dev block = some (bh, c') ∧ Got c dev block bh c' ∧
      Ready c' (⟨bh, dev, block⟩ ::ₘ R) := by
  rcases getblk_eq h.sound.inv h.unlocked block hd with ⟨bh, c', hget, hg⟩ | ⟨-, -, hfull⟩
  · exact ⟨bh, c', hget, hg, hg.ready h hd fun b hb => h.room hfew b hb.1⟩
  · exact absurd (card_of_starved h hfull) (by omega)

theorem keepsShape_readHead : KeepsShape (readHead disk) := fun _ => ⟨rfl, rfl, rfl, rfl, rfl, rfl⟩

theorem Ready.llRwRead (h : Ready c R) (disk : Disk) (hb : bh < c.nrBuffers) :
    ∃ c', c.llRwRead disk bh = some c' ∧ Ready c' R ∧
      (c' = c ∨ (c.buf bh).bUptodate = false ∧ c' = c.modify bh (readHead disk)) := by
  unfold Cache.llRwRead
  rw [h.unlocked bh hb]
  by_cases hd : disk.blkDev (major (c.buf bh).bDev) = true
  · cases hup : (c.buf bh).bUptodate with
    | true => exact ⟨c, by simp [hd], h, .inl rfl⟩
    | false =>
      exact ⟨_, by simp [hd], h.modify bh keepsShape_readHead (fun _ => rfl) fun _ hl =>
        hl, .inr ⟨rfl, rfl⟩⟩
  · exact ⟨c, by simp [hd], h, .inl rfl⟩

theorem bread_hit (he : c.getblk dev block = some (bh, c')) (hup : (c'.buf bh).bUptodate = true) :
    c.bread disk dev block = some (some bh, c') := by
  simp only [Cache.bread, he, hup, if_true]

/-- How `bread` gets from what `getblk` left, in `c`, to its result. -/
inductive Fetched (disk : Disk) (bh : Nat) (c : Cache) : Option Nat → Cache → Prop
  | ready (hup : (c.buf bh).bUptodate = true) : Fetched disk bh c (some bh) c
  | read (hup : (c.buf bh).bUptodate = false) :
    Fetched disk bh c (some bh) (c.modify bh (readHead disk))
  | failed (hup : (c.buf bh).bUptodate = false) {c' : Cache}
      (he : c' = c ∨ c' = c.modify bh (readHead disk)) :
        Fetched disk bh c none (c'.modify bh decCount)

theorem bread_spec (h : Ready c R) (hd : dev ≠ 0)
    (hroom : ∀ b, c.Caches b dev block → (c.buf b).bCount < 255) {x : Option Nat}
    (he : c.bread disk dev block = some (x, c')) :
      ∃ bh c₁, Got c dev block bh c₁ ∧ Fetched disk bh c₁ x c' ∧
        Ready c' ((x.map fun bh => (⟨bh, dev, block⟩ : Ref)).toList + R) := by
  unfold Cache.bread at he
  split at he
  next => cases he
  next bh c₁ hget =>
    have hg := getblk_got h.sound.inv h.unlocked hd hget
    have hr := hg.ready h hd hroom
    have hb : bh < c₁.nrBuffers := hg.caches.1
    refine ⟨bh, c₁, hg, ?_⟩
    cases hup : (c₁.buf bh).bUptodate with
    | true =>
      simp only [hup, if_true, Option.some.injEq, Prod.mk.injEq] at he
      obtain ⟨rfl, rfl⟩ := he
      exact ⟨.ready hup, by simpa using hr⟩
    | false =>
      simp only [hup, Bool.false_eq_true, if_false] at he
      obtain ⟨c₂, hc₂, hr₂, hcases⟩ := hr.llRwRead disk hb
      simp only [hc₂] at he
      have hor : c₂ = c₁ ∨ c₂ = c₁.modify bh (readHead disk) := hcases.imp id And.right
      cases hup₂ : (c₂.buf bh).bUptodate with
      | true =>
        simp only [hup₂, if_true, Option.some.injEq, Prod.mk.injEq] at he
        obtain ⟨rfl, rfl⟩ := he
        refine ⟨?_, by simpa using hr₂⟩
        rcases hor with rfl | rfl
        · rw [hup] at hup₂
          cases hup₂
        · exact .read hup
      | false =>
        have hbr := Ready.brelse hr₂
        simp only [hup₂, Bool.false_eq_true, if_false, hbr.1, Option.map_some, Option.some.injEq,
          Prod.mk.injEq] at he
        obtain ⟨rfl, rfl⟩ := he
        exact ⟨.failed hup hor, by simpa using hbr.2⟩

/-- The count of a buffer with 255 references begins again at zero, and it cannot be released. -/
theorem bread_wrap (h : Ready c R) (hd : dev ≠ 0) {b : Nat} (hb : c.Caches b dev block)
    (hfull : (c.buf b).bCount = 255) {x : Option Nat} (he : c.bread disk dev block = some (x, c')) :
    ∀ b', x = some b' → (c'.buf b').bCount = 0 := by
  have hread {d d' : Cache} (bh : Nat) (h0 : (d.buf bh).bCount = 0)
    (he : d.llRwRead disk bh = some d') : (d'.buf bh).bCount = 0 := by
    unfold llRwRead at he
    split_ifs at he
    all_goals rw [← Option.some.inj he]
    · exact h0
    · rw [modify_buf, if_pos rfl]
      exact h0
    · exact h0
  unfold Cache.bread at he
  split at he
  next => cases he
  next bh c₁ hget =>
    have h0 : (c₁.buf bh).bCount = 0 := by
      cases getblk_got h.sound.inv h.unlocked hd hget with
      | hit hc he =>
        obtain rfl := h.sound.inv.unique _ _ _ _ hd hc hb
        rw [he, modify_buf, if_pos rfl, incCount, hfull]
      | miss hnew => exact absurd hb (hnew b)
    split at he
    next =>
      cases he
      exact fun b' hb' => Option.some.inj hb' ▸ h0
    next =>
      split at he
      next => cases he
      next c₂ hll =>
        have h0₂ := hread bh h0 hll
        split at he
        next =>
          cases he
          exact fun b' hb' => Option.some.inj hb' ▸ h0₂
        next =>
          rw [Cache.brelse, if_pos h0₂, ite_self] at he
          cases he

end

/-! The state that `buffer_init` leaves. -/

section

variable {bufferEnd : Nat} (hroom : RoomForBuffer bufferEnd) (c : Cache)

include hroom

theorem ready_bufferInit : Ready (bufferInit bufferEnd c) 0 := by
  obtain ⟨hinv, -, hbuf⟩ := bufferInit_spec hroom c
  exact ⟨⟨hinv, fun b hb => (hbuf b hb).2.1, by simp⟩, by simp [countRefs],
    fun b hb => (hbuf b hb).2.2⟩

theorem bufferInit_not_caches {dev : Nat} (hd : dev ≠ 0) (b block : Nat) :
    ¬ (bufferInit bufferEnd c).Caches b dev block := by
  rintro ⟨hb, he, -⟩
  exact hd (he.symm.trans ((bufferInit_spec hroom c).2.2 b hb).1)

theorem getblk_bufferInit {dev : Nat} (hd : dev ≠ 0) (block : Nat) :
    ∃ bh c', Got (bufferInit bufferEnd c) dev block bh c' ∧ Ready c' (⟨bh, dev, block⟩ ::ₘ 0) := by
  have hpos := (bufferInit_spec hroom c).2.1
  obtain ⟨bh, c', -, hg, hr⟩ :=
    (ready_bufferInit hroom c).getblk hd block (by simp) (by simpa using hpos)
  exact ⟨bh, c', hg, hr⟩

end

end Gpos.Cache
