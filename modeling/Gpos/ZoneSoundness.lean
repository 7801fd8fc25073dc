import Gpos.ZoneMap

/-! The zone map over runs of `new_block` and `free_block`. -/

namespace Gpos.Zones

open Cache BufferTasks Bitmap

/-- Bit `n` of a map, if its block is loaded. -/
def mapBit (map : Nat → Option Nat) (c : Cache) (n : Nat) : Option Bool :=
  (map (n / 8192)).map fun bh => (c.buf bh).bData.getLsbD (n % 8192)

def zoneBit (sb : SuperBlock) (c : Cache) (n : Nat) : Option Bool :=
  (sb.sZmap (n / 8192)).map fun bh => (c.buf bh).bData.getLsbD (n % 8192)

def zoneNr (sb : SuperBlock) (z : Nat) : Nat := z + 1 - sb.sFirstdatazone

/-- The mounted file system: the references `R` keep the blocks of the zone map
in their buffers, one buffer for each block, and bit 0 is set. -/
structure Mounted (sbs : Nat → SuperBlock) (dev : Nat) (sb : SuperBlock) (R : Multiset Ref)
    (c : Cache) : Prop where
  super : getSuper sbs dev = some sb
  first : 1 ≤ sb.sFirstdatazone
  ready : Ready c R
  slots : ∀ i bh, sb.sZmap i = some bh → i < 8 ∧ ∃ r ∈ R, r.bh = bh
  distinct : ∀ i j bh, sb.sZmap i = some bh → sb.sZmap j = some bh → i = j
  zero : zoneBit sb c 0 ≠ some false

/-- The blocks of the zone map are in buffers of their own, which `R` keeps. -/
structure Loaded (sbs : Nat → SuperBlock) (dev : Nat) (sb : SuperBlock) (R : Multiset Ref)
    (c : Cache) : Prop where
  super : getSuper sbs dev = some sb
  ready : Ready c R
  slots : ∀ i bh, sb.sZmap i = some bh → i < 8 ∧ ∃ r ∈ R, r.bh = bh
  distinct : ∀ i j bh, sb.sZmap i = some bh → sb.sZmap j = some bh → i = j

section

variable {sbs : Nat → SuperBlock} {dev : Nat} {sb : SuperBlock} {R : Multiset Ref} {c c' : Cache}

theorem Mounted.loaded (h : Mounted sbs dev sb R c) : Loaded sbs dev sb R c :=
  ⟨h.super, h.ready, h.slots, h.distinct⟩

theorem getSuper_dev (h : getSuper sbs dev = some sb) : dev ≠ 0 := by
  rintro rfl
  cases h

theorem getSuper_const {sb₀ : SuperBlock} (h : getSuper (fun _ => sb₀) dev = some sb) :
    sb = sb₀ ∧ sb₀.sDev = dev := by
  rw [Zones.getSuper] at h
  split at h
  next => cases h
  next =>
    obtain ⟨x, hx, rfl⟩ := Option.map_eq_some_iff.mp h
    have hdev := List.find?_some hx
    exact ⟨rfl, of_decide_eq_true hdev⟩

theorem Loaded.device (h : Loaded sbs dev sb R c) : dev ≠ 0 := getSuper_dev h.super

theorem Loaded.bit_of_data (h : Loaded sbs dev sb R c) {i bh n : Nat} (hi : sb.sZmap i = some bh)
    (hn : n < 8192) (v : Bool) (hdata : ∀ b, (∃ k, sb.sZmap k = some b) → ∀ j, j < 8192 →
      (c'.buf b).bData.getLsbD j = if b = bh ∧ j = n then v else (c.buf b).bData.getLsbD j)
    (k : Nat) : zoneBit sb c' k = if k = i * 8192 + n then some v else zoneBit sb c k := by
  rw [zoneBit, zoneBit]
  have hmod : k % 8192 < 8192 := Nat.mod_lt _ (by decide)
  cases hk : sb.sZmap (k / 8192) with
  | none =>
    have hne : k ≠ i * 8192 + n := by
      rintro rfl
      rw [show (i * 8192 + n) / 8192 = i by omega, hi] at hk
      cases hk
    rw [if_neg hne]
    rfl
  | some b =>
    simp only [Option.map_some]
    rw [hdata b ⟨_, hk⟩ _ hmod]
    by_cases he : k = i * 8192 + n
    · have hq : k / 8192 = i := by omega
      rw [hq, hi] at hk
      rw [if_pos he, if_pos ⟨(Option.some.inj hk).symm, by omega⟩]
    · rw [if_neg he, if_neg]
      · rintro ⟨rfl, hj⟩
        have := h.distinct _ _ _ hk hi
        omega
/-- What the search of the map found, from block `i` on. -/
structure Found (map : Nat → Option Nat) (c : Cache) (i k bh j : Nat) : Prop where
  le : i ≤ k
  slot : map k = some bh
  lt : j < 8192
  clear : (c.buf bh).bData.getLsbD j = false
  below : ∀ n, n < j → (c.buf bh).bData.getLsbD n = true
  before : ∀ k', i ≤ k' → k' < k → ∀ b, map k' = some b → ∀ n, n < 8192 →
    (c.buf b).bData.getLsbD n = true

theorem full_of_findFirstZero {b : Block} (h : ¬ findFirstZero b < 8192) (n : Nat) (hn : n < 8192) :
    b.getLsbD n = true :=
  (findFirstZero_spec b).below n (Nat.lt_of_lt_of_le hn (Nat.not_lt.mp h))

theorem searchMap_some {map : Nat → Option Nat} {n i k bh j : Nat}
    (h : searchMap map c n i = some (k, bh, j)) : Found map c i k bh j := by
  induction n generalizing i with
  | zero => cases h
  | succ n ih =>
    rw [searchMap] at h
    split at h
    next hm =>
      have hf := ih h
      refine ⟨Nat.le_of_succ_le hf.le, hf.slot, hf.lt, hf.clear, hf.below, fun k' hk hlt b hb => ?_⟩
      by_cases hki : k' = i
      · rw [hki, hm] at hb
        cases hb
      · exact hf.before k' (by omega) hlt b hb
    next b hm =>
      split at h
      next hlt =>
        cases h
        have hz := findFirstZero_spec (c.buf bh).bData
        exact ⟨Nat.le_refl _, hm, hlt, hz.clear hlt, hz.below, fun k' hk hlt' => by omega⟩
      next hfull =>
        have hf := ih h
        refine ⟨Nat.le_of_succ_le hf.le, hf.slot, hf.lt, hf.clear, hf.below,
          fun k' hk hlt b' hb n hn => ?_⟩
        by_cases hki : k' = i
        · rw [hki, hm] at hb
          cases hb
          exact full_of_findFirstZero hfull n hn
        · exact hf.before k' (by omega) hlt b' hb n hn

theorem searchMap_none {map : Nat → Option Nat} {n i : Nat} (h : searchMap map c n i = none) :
    ∀ k, i ≤ k → k < i + n → ∀ b, map k = some b → ∀ j, j < 8192 →
      (c.buf b).bData.getLsbD j = true := by
  induction n generalizing i with
  | zero => exact fun k hk hlt => by omega
  | succ n ih =>
    intro k hk hlt b hb j hj
    rw [searchMap] at h
    by_cases hki : k = i
    · rw [hki] at hb
      rw [hb] at h
      simp only at h
      split at h
      next => cases h
      next hfull => exact full_of_findFirstZero hfull j hj
    · split at h
      next => exact ih h k (by omega) (by omega) b hb j hj
      next =>
        split at h
        next => cases h
        next => exact ih h k (by omega) (by omega) b hb j hj

theorem mapBit_of_none {map : Nat → Option Nat} (hlt : ∀ k b, map k = some b → k < 8)
    (hs : searchMap map c 8 0 = none) (n : Nat) : mapBit map c n ≠ some false := by
  rw [mapBit]
  cases hk : map (n / 8192) with
  | none => exact (Option.some_ne_none _).symm
  | some b =>
    have := hlt _ _ hk
    rw [Option.map_some, searchMap_none hs _ (Nat.zero_le _) (by omega) b hk _
      (Nat.mod_lt _ (by decide))]
    simp

theorem Found.mapBit_ne {map : Nat → Option Nat} {k bh j n : Nat} (hf : Found map c 0 k bh j)
    (hn : n < k * 8192 + j) : mapBit map c n ≠ some false := by
  rw [mapBit]
  cases hk : map (n / 8192) with
  | none => exact (Option.some_ne_none _).symm
  | some b =>
    have hmod : n % 8192 < 8192 := Nat.mod_lt _ (by decide)
    rw [Option.map_some]
    rcases Nat.lt_or_ge (n / 8192) k with hlow | hhigh
    · rw [hf.before _ (Nat.zero_le _) hlow b hk _ hmod]
      simp
    · have hlt' := hf.lt
      have heq : n / 8192 = k := by omega
      rw [heq, hf.slot] at hk
      obtain rfl := Option.some.inj hk
      rw [hf.below _ (by omega)]
      simp

theorem Found.mapBit_eq {map : Nat → Option Nat} {k bh j : Nat} (hf : Found map c 0 k bh j) :
    mapBit map c (k * 8192 + j) = some false := by
  have hlt := hf.lt
  rw [mapBit, show (k * 8192 + j) / 8192 = k by omega, hf.slot,
    show (k * 8192 + j) % 8192 = j by omega, Option.map_some, hf.clear]

/-- A buffer that is found by `getblk` and held by nobody else. -/
structure Alone (c : Cache) (dev block bh : Nat) (c' : Cache) : Prop where
  caches : c'.Caches bh dev block
  unused : (c.buf bh).bCount = 0
  room : ∀ b, c.Caches b dev block → (c.buf b).bCount < 255
  data : ∀ i, i ≠ bh → (c'.buf i).bData = (c.buf i).bData

theorem Got.alone (h : Ready c R) (hd : dev ≠ 0) {block bh : Nat} (hg : Got c dev block bh c')
    (h1 : (c'.buf bh).bCount = 1) : Alone c dev block bh c' := by
  have hcaches := hg.caches
  cases hg with
  | hit hc he =>
    have hcount := h.count hc.1
    have hfit := h.fits bh
    rw [he, modify_buf, if_pos rfl, incCount] at h1
    simp only at h1
    have h0 : (c.buf bh).bCount = 0 := by omega
    refine ⟨hcaches, h0, fun b hb => ?_, fun i hi => ?_⟩
    · obtain rfl := h.sound.inv.unique _ _ _ _ hd hb hc
      omega
    · rw [he, modify_buf, if_neg (Ne.symm hi)]
  | miss hnew _ h0 _ he =>
    refine ⟨hcaches, h0, fun b hb => absurd hb (hnew b), fun i hi => ?_⟩
    simpa using congrArg BufferHead.bData (he.old i hi)

theorem Loaded.used (h : Loaded sbs dev sb R c) {i bh : Nat} (hi : sb.sZmap i = some bh) :
    0 < (c.buf bh).bCount := by
  obtain ⟨r, hr, rfl⟩ := (h.slots i bh hi).2
  exact h.ready.sound.count_pos h.ready.fits hr

theorem Mounted.congr (h : Mounted sbs dev sb R c) (hr : Ready c' R)
    (hz : zoneBit sb c' 0 ≠ some false) : Mounted sbs dev sb R c' :=
  ⟨h.super, h.first, hr, h.slots, h.distinct, hz⟩

theorem keepsShape_data (f : Block → Block) :
    KeepsShape fun b => { b with bData := f b.bData, bDirt := true } :=
  fun _ => ⟨rfl, rfl, rfl, rfl, rfl, rfl⟩

theorem Loaded.setMapBit (h : Loaded sbs dev sb R c) {i bh j : Nat} (hi : sb.sZmap i = some bh)
    (hj : j < 8192) : Ready (setMapBit bh j c) R ∧
      ∀ k, zoneBit sb (Zones.setMapBit bh j c) k = if k = i * 8192 + j then some true
        else zoneBit sb c k := by
  refine ⟨h.ready.modify bh (keepsShape_data _) (fun _ => rfl) fun _ hl => hl,
    h.bit_of_data hi hj true fun b _ n hn => ?_⟩
  rw [Zones.setMapBit, modify_buf]
  by_cases hb : bh = b
  · subst hb
    rw [if_pos rfl, getLsbD_setBit hj]
    simp
  · rw [if_neg hb, if_neg fun hc => hb hc.1.symm]

theorem Loaded.clearMapBit (h : Loaded sbs dev sb R c) {i bh j : Nat} (hi : sb.sZmap i = some bh)
    (hj : j < 8192) : Ready (clearMapBit bh j c) R ∧
      ∀ k, zoneBit sb (Zones.clearMapBit bh j c) k = if k = i * 8192 + j then some false
        else zoneBit sb c k := by
  refine ⟨h.ready.modify bh (keepsShape_data _) (fun _ => rfl) fun _ hl => hl,
    h.bit_of_data hi hj false fun b _ n hn => ?_⟩
  rw [Zones.clearMapBit, modify_buf]
  by_cases hb : bh = b
  · subst hb
    rw [if_pos rfl, getLsbD_clearBit hj]
    simp
  · rw [if_neg hb, if_neg fun hc => hb hc.1.symm]

theorem Loaded.sameBits (h : Loaded sbs dev sb R c) {bh : Nat} (h0 : (c.buf bh).bCount = 0)
    (hdata : ∀ i, i ≠ bh → (c'.buf i).bData = (c.buf i).bData) (k : Nat) :
    zoneBit sb c' k = zoneBit sb c k := by
  rw [zoneBit, zoneBit]
  cases hk : sb.sZmap (k / 8192) with
  | none => rfl
  | some b =>
    have hb : b ≠ bh := by
      rintro rfl
      have := h.used hk
      omega
    rw [Option.map_some, Option.map_some, hdata b hb]

/-- The buffer of a zone as `new_block` leaves it. -/
def Zeroed (c : Cache) (dev z : Nat) : Prop :=
  ∃ b, c.Caches b dev z ∧ (c.buf b).bCount = 0 ∧ (c.buf b).bUptodate = true ∧
    (c.buf b).bDirt = true ∧ (c.buf b).bData = 0

theorem keepsShape_zeroHead : KeepsShape zeroHead := fun _ => ⟨rfl, rfl, rfl, rfl, rfl, rfl⟩

theorem keepsShape_forgetHead : KeepsShape forgetHead := fun _ => ⟨rfl, rfl, rfl, rfl, rfl, rfl⟩

theorem takeZone_spec (h : Loaded sbs dev sb R c) {j z : Nat}
    (he : takeZone dev j c = some (z, c')) :
    z = j ∧ Ready c' R ∧ (∀ k, zoneBit sb c' k = zoneBit sb c k) ∧ Zeroed c' dev j := by
  unfold takeZone at he
  split at he
  next => cases he
  next bh c₁ hget =>
    split at he
    next => cases he
    next h1 =>
      have hg := getblk_got h.ready.sound.inv h.ready.unlocked h.device hget
      have ha := Got.alone h.ready h.device hg (not_not.mp h1)
      have hr₁ :=
        (hg.ready h.ready h.device ha.room).modify bh keepsShape_zeroHead
          (fun _ => rfl) fun _ hl => hl
      obtain ⟨hbr, hr₂⟩ := hr₁.brelse
      rw [hbr, Option.map_some, Option.some.injEq, Prod.mk.injEq] at he
      obtain ⟨rfl, rfl⟩ := he
      have hdata : ∀ i, i ≠ bh → (((c₁.modify bh zeroHead).modify bh decCount).buf i).bData =
        (c.buf i).bData := by
        intro i hi
        rw [modify_buf, if_neg (Ne.symm hi), modify_buf, if_neg (Ne.symm hi)]
        exact ha.data i hi
      have hbits := h.sameBits ha.unused hdata
      refine ⟨rfl, hr₂, hbits, bh, ?_, ?_, ?_, ?_, ?_⟩
      · exact ((sameShape_modify _ bh keepsShape_decCount).caches _ _ _).mpr
          (((sameShape_modify _ bh keepsShape_zeroHead).caches _ _ _).mpr ha.caches)
      all_goals rw [modify_buf, if_pos rfl, modify_buf, if_pos rfl]
      · simp only [decCount, zeroHead, not_not.mp h1]
      all_goals rfl

/-- What `new_block` does when it returns a zone. -/
structure Taken (sb : SuperBlock) (c : Cache) (dev z : Nat) (c' : Cache) : Prop where
  first : sb.sFirstdatazone ≤ z
  last : z < sb.sNzones
  free : zoneBit sb c (zoneNr sb z) = some false
  bits : ∀ k, zoneBit sb c' k = if k = zoneNr sb z then some true else zoneBit sb c k
  zeroed : Zeroed c' dev z

/-- The zones are all allocated, as far as they have a bit. -/
def Full (sb : SuperBlock) (c : Cache) : Prop :=
  ∀ z, sb.sFirstdatazone ≤ z → z < sb.sNzones → zoneBit sb c (zoneNr sb z) ≠ some false

theorem Mounted.full_of_none (h : Mounted sbs dev sb R c) (hs : searchMap sb.sZmap c 8 0 = none) :
    Full sb c :=
  fun _ _ _ => mapBit_of_none (fun k b hk => (h.slots k b hk).1) hs _

theorem Mounted.full_of_past (h : Mounted sbs dev sb R c) {k bh j : Nat}
    (hf : Found sb.sZmap c 0 k bh j) (hpast : sb.sNzones ≤ j + k * 8192 + sb.sFirstdatazone - 1) :
    Full sb c := by
  intro z hz hlt
  have hfirst := h.first
  refine hf.mapBit_ne ?_
  unfold zoneNr
  omega

theorem Mounted.found_pos (h : Mounted sbs dev sb R c) {k bh j : Nat}
    (hf : Found sb.sZmap c 0 k bh j) : 0 < k * 8192 + j := by
  by_contra h0
  have hk : k = 0 := by omega
  have hj : j = 0 := by omega
  subst hk hj
  refine h.zero ?_
  rw [zoneBit, Nat.zero_div, hf.slot, Option.map_some]
  exact congrArg some hf.clear

theorem newBlock_spec (h : Mounted sbs dev sb R c) {z : Nat}
    (he : newBlock sbs dev c = some (z, c')) :
      Mounted sbs dev sb R c' ∧ (z ≠ 0 ∧ Taken sb c dev z c' ∨
        z = 0 ∧ Full sb c ∧ ∀ k, zoneBit sb c k = some true → zoneBit sb c' k = some true) := by
  have hfirst := h.first
  unfold newBlock at he
  rw [h.super] at he
  simp only at he
  split at he
  next hs =>
    obtain ⟨rfl, rfl⟩ := Prod.mk.inj (Option.some.inj he)
    exact ⟨h, .inr ⟨rfl, h.full_of_none hs, fun _ hk => hk⟩⟩
  next i bh j hs =>
    have hf := searchMap_some hs
    have hpos := h.found_pos hf
    obtain ⟨hr₁, hbits⟩ := h.loaded.setMapBit hf.slot hf.lt
    have h₁ : Mounted sbs dev sb R (setMapBit bh j c) := h.congr hr₁ (by
      rw [hbits, if_neg (by omega)]
      exact h.zero)
    have hzone : zoneOf sb (j + i * 8192) = j + i * 8192 + sb.sFirstdatazone - 1 :=
      if_neg (by omega)
    rw [hf.clear, if_neg Bool.false_ne_true] at he
    split at he
    next hpast =>
      obtain ⟨rfl, rfl⟩ := Prod.mk.inj (Option.some.inj he)
      refine ⟨h₁, .inr ⟨rfl, h.full_of_past hf hpast.2, fun k hk => ?_⟩⟩
      rw [hbits, hk]
      exact ite_self _
    next hin =>
      rw [hzone] at he
      obtain ⟨rfl, hr₂, hsame, hzero⟩ := takeZone_spec h₁.loaded he
      have h₂ : Mounted sbs dev sb R c' := h₁.congr hr₂ (by rw [hsame]; exact h₁.zero)
      have hnr : zoneNr sb (j + i * 8192 + sb.sFirstdatazone - 1) = i * 8192 + j := by
        unfold zoneNr
        omega
      refine ⟨h₂, .inl ⟨by omega, by omega, by omega, ?_, fun k => ?_, hzero⟩⟩
      · rw [hnr]
        exact hf.mapBit_eq
      · rw [hsame, hbits, hnr]

/-- What `free_block` does to the map. -/
structure Freed (sb : SuperBlock) (c : Cache) (z : Nat) (c' : Cache) : Prop where
  first : sb.sFirstdatazone ≤ z
  last : z < sb.sNzones
  used : zoneBit sb c (zoneNr sb z) = some true
  bits : ∀ k, zoneBit sb c' k = if k = zoneNr sb z then some false else zoneBit sb c k

theorem clearZone_spec (h : Mounted sbs dev sb R c) {nr : Nat} (hnr : 0 < nr)
    (he : clearZone sb nr c = some c') : Mounted sbs dev sb R c' ∧ zoneBit sb c nr = some true ∧
      ∀ k, zoneBit sb c' k = if k = nr then some false else zoneBit sb c k := by
  unfold clearZone at he
  split at he
  next => cases he
  next bh hs =>
    split at he
    next hset =>
      obtain rfl := Option.some.inj he
      obtain ⟨hr, hbits⟩ := h.loaded.clearMapBit hs (Nat.mod_lt nr (by decide : 0 < 8192))
      rw [show nr / 8192 * 8192 + nr % 8192 = nr by omega] at hbits
      refine ⟨h.congr hr ?_, ?_, hbits⟩
      · rw [hbits, if_neg (by omega)]
        exact h.zero
      · rw [zoneBit, hs, Option.map_some, hset]
    next => cases he

/-- Nobody holds the buffer of the zone. -/
def Unheld (c : Cache) (dev z : Nat) : Prop := ∀ b, c.Caches b dev z → (c.buf b).bCount = 0

theorem freeBlock_spec (h : Mounted sbs dev sb R c) {z : Nat} (hu : Unheld c dev z)
    (he : freeBlock sbs dev z c = some c') : Mounted sbs dev sb R c' ∧ Freed sb c z c' := by
  have hfirst := h.first
  unfold freeBlock at he
  rw [h.super] at he
  simp only at he
  split at he
  next => cases he
  next hin =>
    push Not at hin
    have hpos : 0 < z + 1 - sb.sFirstdatazone := by omega
    rcases getHashTable_eq h.ready.sound.inv h.ready.unlocked z
      h.loaded.device with ⟨b, hb, hc⟩ | ⟨hb, -⟩
    · have h0 := hu b hc
      have hcount : (((c.modify b incCount).buf b).bCount) = 1 := by
        rw [modify_buf, if_pos rfl, incCount, h0]
      rw [hb] at he
      simp only [hcount, ne_eq, not_true_eq_false, if_false] at he
      have hroom : ∀ b', c.Caches b' dev z → (c.buf b').bCount < 255 :=
        fun b' hb' => by rw [hu b' hb']; decide
      have hg : Got c dev z b (c.modify b incCount) := .hit hc rfl
      obtain ⟨hbr, hr⟩ :=
        ((hg.ready h.ready h.loaded.device hroom).modify b keepsShape_forgetHead (fun _ => rfl)
        fun _ hl => hl).brelse
      rw [hbr, Option.bind_some] at he
      have hbits : ∀ k, zoneBit sb (((c.modify b incCount).modify b forgetHead).modify b decCount)
        k = zoneBit sb c k :=
        h.loaded.sameBits h0 fun i hi => by
          rw [modify_buf, if_neg (Ne.symm hi), modify_buf, if_neg (Ne.symm hi), modify_buf,
            if_neg (Ne.symm hi)]
      obtain ⟨h₁, hused, hcl⟩ := clearZone_spec (h.congr hr (by rw [hbits]; exact h.zero)) hpos he
      refine ⟨h₁, hin.1, hin.2, by rw [← hbits]; exact hused, fun k => ?_⟩
      rw [hcl, hbits]
      rfl
    · rw [hb] at he
      obtain ⟨h₁, hused, hcl⟩ := clearZone_spec h hpos he
      exact ⟨h₁, hin.1, hin.2, hused, hcl⟩

theorem freeBlock_some (h : Mounted sbs dev sb R c) {z : Nat} (hfirst : sb.sFirstdatazone ≤ z)
    (hlast : z < sb.sNzones) (hused : zoneBit sb c (zoneNr sb z) = some true)
    (hu : Unheld c dev z) : ∃ c', freeBlock sbs dev z c = some c' := by
  have hclear : ∀ d : Cache, zoneBit sb d (zoneNr sb z) = some true →
    ∃ c', clearZone sb (zoneNr sb z) d = some c' := by
    intro d hd
    rw [zoneBit] at hd
    obtain ⟨bh, hs, hbit⟩ := Option.map_eq_some_iff.mp hd
    exact ⟨_, by rw [clearZone, hs]; simp only [hbit, if_true]; rfl⟩
  unfold freeBlock
  rw [h.super]
  simp only
  rw [if_neg (by omega)]
  rcases getHashTable_eq h.ready.sound.inv h.ready.unlocked z
    h.loaded.device with ⟨b, hb, hc⟩ | ⟨hb, -⟩
  · have h0 := hu b hc
    have hcount : (((c.modify b incCount).buf b).bCount) = 1 := by
      rw [modify_buf, if_pos rfl, incCount, h0]
    have hroom : ∀ b', c.Caches b' dev z → (c.buf b').bCount < 255 :=
      fun b' hb' => by rw [hu b' hb']; decide
    have hg : Got c dev z b (c.modify b incCount) := .hit hc rfl
    obtain ⟨hbr, -⟩ :=
      ((hg.ready h.ready h.loaded.device hroom).modify b keepsShape_forgetHead (fun _ => rfl)
      fun _ hl => hl).brelse
    have hbits : ∀ k, zoneBit sb (((c.modify b incCount).modify b forgetHead).modify b decCount) k =
      zoneBit sb c k :=
      h.loaded.sameBits h0 fun i hi => by
        rw [modify_buf, if_neg (Ne.symm hi), modify_buf, if_neg (Ne.symm hi), modify_buf,
          if_neg (Ne.symm hi)]
    rw [hb]
    simp only [hcount, ne_eq, not_true_eq_false, if_false, hbr, Option.bind_some]
    exact hclear _ (by rw [hbits]; exact hused)
  · rw [hb]
    exact hclear c hused

end

/-! Runs of the two functions. -/

/-- `live` are the zones that `new_block` has returned and that have not been freed since. -/
structure St where
  cache : Cache
  live : List Nat

inductive Call
  | newBlock
  | freeBlock (zone : Nat)

def step (sbs : Nat → SuperBlock) (dev : Nat) : Call → St → Option St
  | .newBlock, s =>
    (newBlock sbs dev s.cache).map fun r => ⟨r.2, if r.1 = 0 then s.live else r.1 :: s.live⟩
  | .freeBlock zone, s =>
    (freeBlock sbs dev zone s.cache).map fun c => ⟨c, s.live.filter (· ≠ zone)⟩

/-- The caller frees only zones whose buffer nobody holds. -/
def Allowed (dev : Nat) (s : St) : Call → Prop
  | .newBlock => True
  | .freeBlock zone => Unheld s.cache dev zone

/-- What the calls promise, for the state they start from. -/
def CallSound (sbs : Nat → SuperBlock) (dev : Nat) (sb : SuperBlock) (s : St) : Call → Prop
  | .newBlock => ∀ z c', newBlock sbs dev s.cache = some (z, c') →
    (z ≠ 0 → Taken sb s.cache dev z c' ∧ z ∉ s.live ∧
      ∃ c'', freeBlock sbs dev z c' = some c'' ∧ ∀ k, zoneBit sb c'' k = zoneBit sb s.cache k) ∧
    (z = 0 → Full sb s.cache)
  | .freeBlock z => ∀ c', freeBlock sbs dev z s.cache = some c' → Freed sb s.cache z c'

/-- Zones that are not freed stay allocated. -/
structure RunInv (sbs : Nat → SuperBlock) (dev : Nat) (sb : SuperBlock) (R : Multiset Ref)
    (s : St) : Prop where
  mounted : Mounted sbs dev sb R s.cache
  live : ∀ z ∈ s.live, sb.sFirstdatazone ≤ z ∧ zoneBit sb s.cache (zoneNr sb z) = some true

section

variable {sbs : Nat → SuperBlock} {dev : Nat} {sb : SuperBlock} {R : Multiset Ref}

theorem zoneNr_inj {z w : Nat} (hz : sb.sFirstdatazone ≤ z) (hw : sb.sFirstdatazone ≤ w)
    (h : zoneNr sb z = zoneNr sb w) : z = w := by
  unfold zoneNr at h
  omega

theorem Taken.restore {c c' : Cache} {z : Nat} (h : Mounted sbs dev sb R c')
    (ht : Taken sb c dev z c') :
    ∃ c'', freeBlock sbs dev z c' = some c'' ∧ ∀ k, zoneBit sb c'' k = zoneBit sb c k := by
  obtain ⟨b, hb, h0, -⟩ := ht.zeroed
  have hu : Unheld c' dev z := fun b' hb' => by
    rw [h.ready.sound.inv.unique _ _ _ _ h.loaded.device hb' hb]
    exact h0
  obtain ⟨c'', he⟩ := freeBlock_some h ht.first ht.last (by rw [ht.bits, if_pos rfl]) hu
  refine ⟨c'', he, fun k => ?_⟩
  rw [(freeBlock_spec h hu he).2.bits, ht.bits]
  split
  next hk => rw [hk, ht.free]
  next => rfl

theorem step_inv {s t : St} {a : Call} (hi : RunInv sbs dev sb R s) (ha : Allowed dev s a)
    (h : step sbs dev a s = some t) : RunInv sbs dev sb R t := by
  cases a with
  | newBlock =>
    obtain ⟨⟨z, c'⟩, he, rfl⟩ := Option.map_eq_some_iff.mp h
    obtain ⟨hm, hcases⟩ := newBlock_spec hi.mounted he
    refine ⟨hm, fun w hw => ?_⟩
    rcases hcases with ⟨hz, ht⟩ | ⟨hz, -, hkeep⟩
    · simp only [if_neg hz, List.mem_cons] at hw
      rw [ht.bits]
      rcases hw with rfl | hw
      · exact ⟨ht.first, if_pos rfl⟩
      · obtain ⟨hwf, hwb⟩ := hi.live w hw
        exact ⟨hwf, by rw [hwb]; exact ite_self _⟩
    · simp only [if_pos hz] at hw
      exact ⟨(hi.live w hw).1, hkeep _ (hi.live w hw).2⟩
  | freeBlock z =>
    obtain ⟨c', he, rfl⟩ := Option.map_eq_some_iff.mp h
    obtain ⟨hm, hf⟩ := freeBlock_spec hi.mounted ha he
    refine ⟨hm, fun w hw => ?_⟩
    obtain ⟨hw, hne⟩ := List.mem_filter.mp hw
    obtain ⟨hwf, hwb⟩ := hi.live w hw
    refine ⟨hwf, ?_⟩
    rw [hf.bits, if_neg, hwb]
    exact fun hk => (by simpa using hne : w ≠ z) (zoneNr_inj hwf hf.first hk)

theorem callSound {s : St} {a : Call} (hi : RunInv sbs dev sb R s) (ha : Allowed dev s a) :
    CallSound sbs dev sb s a := by
  cases a with
  | newBlock =>
    intro z c' he
    obtain ⟨hm, hcases⟩ := newBlock_spec hi.mounted he
    rcases hcases with ⟨hz, ht⟩ | ⟨hz, hfull, -⟩
    · refine ⟨fun _ => ⟨ht, fun hlive => ?_, ht.restore hm⟩, fun h0 => absurd h0 hz⟩
      have hused := (hi.live z hlive).2
      rw [ht.free] at hused
      cases hused
    · exact ⟨fun h0 => absurd hz h0, fun _ => hfull⟩
  | freeBlock z => exact fun c' he => (freeBlock_spec hi.mounted ha he).2

/-- Along every run that does not panic and frees only zones whose buffer
nobody holds, the two functions do what they promise. -/
theorem zones_sound {s : St} (h : Mounted sbs dev sb R s.cache) (hlive : s.live = [])
    (as : List Call) (ha : Run.Meets (step sbs dev) (Allowed dev) as s) :
    Run.Meets (step sbs dev) (CallSound sbs dev sb) as s := by
  have hi : RunInv sbs dev sb R s := ⟨h, by rw [hlive]; exact nofun⟩
  clear h hlive
  induction as generalizing s with
  | nil => exact trivial
  | cons a as ih =>
    intro t ht
    obtain ⟨hallow, hrest⟩ := ha t ht
    exact ⟨callSound hi hallow, ih hrest (step_inv hi hallow ht)⟩

end

/-- Twenty zones, the data from zone 5 on, and a map of one block. -/
def smallSuper (bh : Nat) : SuperBlock where
  sNinodes := 8
  sNzones := 20
  sImapBlocks := 1
  sZmapBlocks := 1
  sFirstdatazone := 5
  sImap _ := none
  sZmap i := if i = 0 then some bh else none
  sDev := 0x301
  sIsup := none
  sImount := none

theorem smallSuper_mounted {c : Cache} {bh : Nat} (h : Ready c (⟨bh, 0x301, 3⟩ ::ₘ 0)) :
    Mounted (fun _ => smallSuper bh) 0x301 (smallSuper bh) (⟨bh, 0x301, 3⟩ ::ₘ 0)
      (setMapBit bh 0 c) where
  super := rfl
  first := by show 1 ≤ 5; decide
  ready := h.modify bh (keepsShape_data _) (fun _ => rfl) fun _ hl => hl
  slots i b hi := by
    simp only [smallSuper] at hi
    split at hi
    next hi0 => exact ⟨by omega, _, Multiset.mem_cons_self _ _, Option.some.inj hi⟩
    next => cases hi
  distinct i j b hi hj := by
    simp only [smallSuper] at hi hj
    split at hi
    next hi0 =>
      split at hj
      next hj0 => rw [hi0, hj0]
      next => cases hj
    next => cases hi
  zero := by
    have hslot : (smallSuper bh).sZmap (0 / 8192) = some bh := rfl
    rw [zoneBit, hslot, Option.map_some, setMapBit, modify_buf, if_pos rfl,
      getLsbD_setBit (by decide)]
    simp

theorem zones_sound_small : ∃ bh s, Run.Meets (step (fun _ => smallSuper bh) 0x301)
    (CallSound (fun _ => smallSuper bh) 0x301 (smallSuper bh)) [.newBlock, .newBlock] s := by
  obtain ⟨bh, c, -, hr⟩ := @getblk_bufferInit 0x110000 (by decide) blank 0x301 (by decide) 3
  exact ⟨bh, ⟨setMapBit bh 0 c, []⟩, zones_sound (smallSuper_mounted hr) rfl _ fun _ _ =>
    ⟨trivial, fun _ _ => ⟨trivial, trivial⟩⟩⟩

end Gpos.Zones
