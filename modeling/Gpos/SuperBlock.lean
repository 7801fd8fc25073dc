import Gpos.Buffer

/-! Reading the super block of the root device and its maps, from `fs/super.c`.
The sizes of the maps come from the disk; an access that the arrays or their
entries do not allow is a fault. -/

namespace Gpos.Super

inductive Fault
  | subscript (i : Nat)
  | null (i : Nat)

abbrev Bits := Nat → Bool

/-- `s_imap` or `s_zmap`. -/
abbrev Slots := Fin 8 → Option Bits

structure DSuperBlock where
  sNinodes : UInt16
  sNzones : UInt16
  sImapBlocks : UInt16
  sZmapBlocks : UInt16
  sFirstdatazone : UInt16
  sLogZoneSize : UInt16
  sMaxSize : UInt32
  sMagic : UInt16

structure SuperBlock extends DSuperBlock where
  sImap : Slots
  sZmap : Slots
  sDev : UInt16

def superMagic : UInt16 := 0x137F

/-- What each `bread` of `read_super` returns, the reads of the maps by loop counter. -/
structure Reads where
  super : Option DSuperBlock
  imap : Nat → Option Bits
  zmap : Nat → Option Bits

/-- The loop that reads a map, with `n` rounds to go and the count of the blocks read. -/
def readMap (bread : Nat → Option Bits) : Nat → Nat → Slots → Except Fault (Nat × Slots)
  | 0, i, slots => .ok (i, slots)
  | n + 1, i, slots =>
    if h : i < 8 then
      match bread i with
      | some bh => readMap bread n (i + 1) (Function.update slots ⟨i, h⟩ (some bh))
      | none => .ok (i, Function.update slots ⟨i, h⟩ none)
    else .error (.subscript i)

def slotBits (slots : Slots) (i : Nat) : Except Fault Bits :=
  if h : i < 8 then
    match slots ⟨i, h⟩ with
    | some bh => .ok bh
    | none => .error (.null i)
  else .error (.subscript i)

/-- `b_data[0] |= 1` in the first block of a map. -/
def setFirst (slots : Slots) : Except Fault Slots := do
  let bh ← slotBits slots 0
  return Function.update slots 0 (some (Function.update bh 0 true))

/-- `read_super` for a device that is in no slot of the table yet; `none` is NULL. -/
def readSuper (dev : UInt16) (r : Reads) : Except Fault (Option SuperBlock) :=
  if dev = 0 then .ok none else
  match r.super with
  | none => .ok none
  | some d =>
    if d.sMagic ≠ superMagic then .ok none
    else do
      let imap ← readMap r.imap d.sImapBlocks.toNat 0 fun _ => none
      let zmap ← readMap r.zmap d.sZmapBlocks.toNat 0 fun _ => none
      if 2 + imap.1 + zmap.1 ≠ 2 + d.sImapBlocks.toNat + d.sZmapBlocks.toNat then return none
      else
        let sImap ← setFirst imap.2
        let sZmap ← setFirst zmap.2
        return some { d with sImap := sImap, sZmap := sZmap, sDev := dev }

/-- `while (-- i >= 0)` over the bits of a map, which counts those that are clear. -/
def countFree (slots : Slots) : Nat → Except Fault Nat
  | 0 => .ok 0
  | i + 1 => do
    let bh ← slotBits slots (i / 8192)
    let free ← countFree slots i
    return if bh (i % 8192) then free else free + 1

/-- `mount_root` with the result of its `iget`, and the two counts of free
zones and free inodes; `none` is one of its panics. -/
def mountRoot (dev : UInt16) (r : Reads) (iget : Bool) : Except Fault (Option (Nat × Nat)) :=
  if Cache.major dev.toNat = 2 then .ok none
  else do
    match ← readSuper dev r with
    | none => return none
    | some p =>
      if iget = false then return none
      else
        let zones ← countFree p.sZmap p.sNzones.toNat
        let inodes ← countFree p.sImap (p.sNinodes.toNat + 1)
        return some (zones, inodes)

/-- No access is a fault. -/
def Safe {α : Type} (e : Except Fault α) : Prop := ∃ a, e = .ok a

theorem safe_bind {α β : Type} {e : Except Fault α} {f : α → Except Fault β} :
    Safe (e >>= f) ↔ ∃ a, e = .ok a ∧ Safe (f a) := by
  cases e with
  | error => exact iff_of_false (fun ⟨_, h⟩ => nomatch h) (fun ⟨_, h, _⟩ => nomatch h)
  | ok a =>
    constructor
    · exact fun h => ⟨a, rfl, h⟩
    · rintro ⟨_, h, hs⟩
      cases h
      exact hs

theorem safe_ok {α : Type} (a : α) : Safe (Except.ok a : Except Fault α) := ⟨a, rfl⟩

/-- A read that fails within the array, or a map that fits. -/
def Fits (bread : Nat → Option Bits) (n : Nat) : Prop := n ≤ 8 ∨ ∃ k, k < 8 ∧ bread k = none

/-- The blocks below `a` are loaded, and the map is complete exactly when all its reads succeed. -/
structure Loaded (bread : Nat → Option Bits) (n a : Nat) (slots : Slots) : Prop where
  le : a ≤ n
  all : a = n ↔ ∀ k, k < n → bread k ≠ none
  slot : ∀ k : Fin 8, slots k ≠ none ↔ k.1 < a

theorem readMap_safe_iff {bread : Nat → Option Bits} {n i : Nat} {slots : Slots} (hi : i ≤ 8) :
    Safe (readMap bread n i slots) ↔ i + n ≤ 8 ∨ ∃ k, i ≤ k ∧ k < 8 ∧ bread k = none := by
  induction n generalizing i slots with
  | zero => exact iff_of_true (safe_ok _) (Or.inl hi)
  | succ n ih =>
    rw [readMap]
    by_cases h : i < 8
    · rw [dif_pos h]
      cases hb : bread i with
      | none => exact iff_of_true (safe_ok _) (Or.inr ⟨i, Nat.le_refl i, h, hb⟩)
      | some bh =>
        rw [ih h]
        refine or_congr (by omega) ⟨fun ⟨k, hk, hr⟩ => ⟨k, by omega, hr⟩,
          fun ⟨k, hk, hlt, hn⟩ => ⟨k, ?_, hlt, hn⟩⟩
        have hki : k ≠ i := by
          rintro rfl
          rw [hb] at hn
          cases hn
        omega
    · rw [dif_neg h]
      refine iff_of_false (fun ⟨_, h⟩ => nomatch h) ?_
      rintro (hle | ⟨k, hk, hlt, -⟩) <;> omega

theorem readMap_loaded {bread : Nat → Option Bits} {n i a : Nat} {slots slots' : Slots}
    (hslots : ∀ k : Fin 8, slots k ≠ none ↔ k.1 < i)
    (he : readMap bread n i slots = .ok (a, slots')) :
    i ≤ a ∧ a ≤ i + n ∧ (a = i + n ↔ ∀ k, i ≤ k → k < i + n → bread k ≠ none) ∧
      ∀ k : Fin 8, slots' k ≠ none ↔ k.1 < a := by
  induction n generalizing i slots with
  | zero =>
    cases he
    exact ⟨Nat.le_refl _, Nat.le_refl _, iff_of_true rfl fun k hk hlt => by omega, hslots⟩
  | succ n ih =>
    rw [readMap] at he
    by_cases h : i < 8
    · rw [dif_pos h] at he
      cases hb : bread i with
      | none =>
        rw [hb] at he
        obtain ⟨rfl, rfl⟩ := Prod.mk.inj (Except.ok.inj he)
        refine ⟨Nat.le_refl _, by omega, iff_of_false (by omega) fun hall => ?_, fun k => ?_⟩
        · exact hall i (Nat.le_refl i) (by omega) hb
        · by_cases hk : k = ⟨i, h⟩
          · subst hk
            simp
          · rw [Function.update_of_ne hk, hslots]
      | some bh =>
        rw [hb] at he
        have hnext : ∀ k : Fin 8, Function.update slots ⟨i, h⟩ (some bh) k ≠ none ↔
          k.1 < i + 1 := by
          intro k
          by_cases hk : k = ⟨i, h⟩
          · subst hk
            simp
          · rw [Function.update_of_ne hk, hslots]
            have : k.1 ≠ i := fun hki => hk (Fin.ext hki)
            omega
        obtain ⟨hia, han, hall, hs⟩ := ih hnext he
        refine ⟨by omega, by omega, ?_, hs⟩
        rw [show i + (n + 1) = i + 1 + n by omega, hall]
        constructor
        · intro hr k hk hlt
          by_cases hki : k = i
          · rw [hki, hb]
            exact Option.some_ne_none bh
          · exact hr k (by omega) hlt
        · exact fun hr k hk hlt => hr k (by omega) hlt
    · rw [dif_neg h] at he
      cases he

theorem readMap_zero {bread : Nat → Option Bits} {n : Nat} :
    (Safe (readMap bread n 0 fun _ => none) ↔ Fits bread n) ∧
      ∀ a slots, readMap bread n 0 (fun _ => none) = .ok (a, slots) → Loaded bread n a slots := by
  refine ⟨?_, fun a slots he => ?_⟩
  · rw [readMap_safe_iff (by decide), Fits]
    simp
  · obtain ⟨-, hle, hall, hs⟩ := readMap_loaded (by simp) he
    simp only [Nat.zero_add, Nat.zero_le, true_imp_iff] at hle hall
    exact ⟨hle, hall, hs⟩

theorem slotBits_safe_iff {slots : Slots} {i : Nat} :
    Safe (slotBits slots i) ↔ ∃ h : i < 8, slots ⟨i, h⟩ ≠ none := by
  rw [slotBits]
  by_cases h : i < 8
  · rw [dif_pos h]
    cases hs : slots ⟨i, h⟩ with
    | none => exact iff_of_false (fun ⟨_, h⟩ => nomatch h) fun ⟨_, hn⟩ => hn hs
    | some bh => exact iff_of_true (safe_ok _) ⟨h, by rw [hs]; exact Option.some_ne_none bh⟩
  · rw [dif_neg h]
    exact iff_of_false (fun ⟨_, h⟩ => nomatch h) fun ⟨h', _⟩ => h h'

theorem setFirst_safe_iff {slots : Slots} : Safe (setFirst slots) ↔ slots 0 ≠ none := by
  rw [setFirst, safe_bind]
  constructor
  · rintro ⟨bh, he, -⟩
    exact (slotBits_safe_iff.mp ⟨bh, he⟩).2
  · intro h
    obtain ⟨bh, he⟩ := slotBits_safe_iff.mpr ⟨(by decide : 0 < 8), h⟩
    exact ⟨bh, he, safe_ok _⟩

theorem setFirst_slot {slots slots' : Slots} (he : setFirst slots = .ok slots') (k : Fin 8) :
    slots' k ≠ none ↔ slots k ≠ none := by
  rw [setFirst] at he
  cases hs : slotBits slots 0 with
  | error => rw [hs] at he; cases he
  | ok bh =>
    rw [hs] at he
    cases he
    by_cases hk : k = 0
    · subst hk
      have h0 := (slotBits_safe_iff.mp ⟨bh, hs⟩).2
      simpa using h0
    · rw [Function.update_of_ne hk]

theorem countFree_safe_iff {slots : Slots} {n : Nat} :
    Safe (countFree slots n) ↔ ∀ i, i < n → ∃ h : i / 8192 < 8, slots ⟨i / 8192, h⟩ ≠ none := by
  induction n with
  | zero => exact iff_of_true (safe_ok _) fun i hi => by omega
  | succ n ih =>
    rw [countFree, safe_bind]
    constructor
    · rintro ⟨bh, he, hs⟩ i hi
      obtain ⟨free, hf, -⟩ := safe_bind.mp hs
      by_cases hin : i = n
      · subst hin
        exact slotBits_safe_iff.mp ⟨bh, he⟩
      · exact ih.mp ⟨free, hf⟩ i (by omega)
    · intro h
      obtain ⟨bh, he⟩ := slotBits_safe_iff.mpr (h n (Nat.lt_succ_self n))
      obtain ⟨free, hf⟩ := ih.mpr fun i hi => h i (by omega)
      exact ⟨bh, he, safe_bind.mpr ⟨free, hf, safe_ok _⟩⟩

/-- All the reads of a map succeed. -/
def Complete (bread : Nat → Option Bits) (n : Nat) : Prop := ∀ k, k < n → bread k ≠ none

/-- Each map ends within its array or has a read that fails there. If both are
read completely, neither is empty, and if the root inode is read too, they have
a bit for each of the numbers that `mount_root` looks up. -/
structure MapsFit (d : DSuperBlock) (r : Reads) (iget : Bool) : Prop where
  imap : Fits r.imap d.sImapBlocks.toNat
  zmap : Fits r.zmap d.sZmapBlocks.toNat
  nonempty : Complete r.imap d.sImapBlocks.toNat → Complete r.zmap d.sZmapBlocks.toNat →
    0 < d.sImapBlocks.toNat ∧ 0 < d.sZmapBlocks.toNat
  bits : Complete r.imap d.sImapBlocks.toNat → Complete r.zmap d.sZmapBlocks.toNat → iget = true →
    d.sNzones.toNat ≤ 8192 * d.sZmapBlocks.toNat ∧ d.sNinodes.toNat < 8192 * d.sImapBlocks.toNat

theorem countFree_safe_of_slots {slots : Slots} {a n : Nat}
    (hs : ∀ k : Fin 8, slots k ≠ none ↔ k.1 < a) (hn : n ≤ 65536) :
    Safe (countFree slots n) ↔ n ≤ 8192 * a := by
  rw [countFree_safe_iff]
  constructor
  · intro h
    by_contra hlt
    obtain ⟨h8, hne⟩ := h (n - 1) (by omega)
    have := (hs ⟨(n - 1) / 8192, h8⟩).mp hne
    simp only at this
    omega
  · intro h i hi
    have h8 : i / 8192 < 8 := by omega
    refine ⟨h8, (hs ⟨i / 8192, h8⟩).mpr ?_⟩
    simp only
    omega

/-- The part of `read_super` after both maps are read, and the counts. -/
def mountMaps (d : DSuperBlock) (iget : Bool) (imap zmap : Nat × Slots) :
    Except Fault (Option (Nat × Nat)) :=
  if 2 + imap.1 + zmap.1 ≠ 2 + d.sImapBlocks.toNat + d.sZmapBlocks.toNat then .ok none
  else do
    let sImap ← setFirst imap.2
    let sZmap ← setFirst zmap.2
    if iget = false then return none
    else
      let zones ← countFree sZmap d.sNzones.toNat
      let inodes ← countFree sImap (d.sNinodes.toNat + 1)
      return some (zones, inodes)

theorem mountRoot_eq {dev : UInt16} (hdev : dev ≠ 0) (hmajor : Cache.major dev.toNat ≠ 2)
    {r : Reads} {d : DSuperBlock} (hr : r.super = some d) (hm : d.sMagic = superMagic) (iget : Bool) : mountRoot dev r iget =
      readMap r.imap d.sImapBlocks.toNat 0 (fun _ => none) >>= fun imap =>
        readMap r.zmap d.sZmapBlocks.toNat 0 (fun _ => none) >>= mountMaps d iget imap := by
  rw [mountRoot, if_neg hmajor, readSuper, if_neg hdev, hr]
  simp only [hm, ne_eq, not_true_eq_false, if_false]
  cases readMap r.imap d.sImapBlocks.toNat 0 fun _ => none with
  | error => rfl
  | ok imap =>
    cases readMap r.zmap d.sZmapBlocks.toNat 0 fun _ => none with
    | error => rfl
    | ok zmap =>
      simp only [mountMaps, bind, Except.bind]
      by_cases hne : 2 + imap.1 + zmap.1 = 2 + d.sImapBlocks.toNat + d.sZmapBlocks.toNat
      · simp only [hne, ne_eq, not_true_eq_false, if_false]
        cases setFirst imap.2 with
        | error => rfl
        | ok sImap =>
          cases setFirst zmap.2 with
          | error => rfl
          | ok sZmap => rfl
      · simp only [hne, ne_eq, not_false_eq_true, if_true]
        rfl

theorem mountMaps_safe_iff {d : DSuperBlock} {r : Reads} {imap zmap : Nat × Slots}
    (hi : Loaded r.imap d.sImapBlocks.toNat imap.1 imap.2)
    (hz : Loaded r.zmap d.sZmapBlocks.toNat zmap.1 zmap.2)
    (iget : Bool) : Safe (mountMaps d iget imap zmap) ↔
      (Complete r.imap d.sImapBlocks.toNat → Complete r.zmap d.sZmapBlocks.toNat →
        (0 < d.sImapBlocks.toNat ∧ 0 < d.sZmapBlocks.toNat) ∧ (iget = true →
          d.sNzones.toNat ≤ 8192 * d.sZmapBlocks.toNat ∧
            d.sNinodes.toNat < 8192 * d.sImapBlocks.toNat)) := by
  have hile := hi.le
  have hzle := hz.le
  have hzones := d.sNzones.toNat_lt
  have hinodes := d.sNinodes.toNat_lt
  rw [mountMaps]
  by_cases heq : imap.1 = d.sImapBlocks.toNat ∧ zmap.1 = d.sZmapBlocks.toNat
  · have hci := hi.all.mp heq.1
    have hcz := hz.all.mp heq.2
    rw [if_neg (by omega), safe_bind]
    have h0 : ∀ {slots : Slots} {a : Nat}, (∀ k : Fin 8, slots k ≠ none ↔ k.1 < a) →
      (slots 0 ≠ none ↔ 0 < a) :=
      fun h => h 0
    constructor
    · rintro ⟨sImap, hsi, hrest⟩ - -
      obtain ⟨sZmap, hsz, hrest⟩ := safe_bind.mp hrest
      have h1 := (h0 hi.slot).mp (setFirst_safe_iff.mp ⟨_, hsi⟩)
      have h2 := (h0 hz.slot).mp (setFirst_safe_iff.mp ⟨_, hsz⟩)
      refine ⟨⟨heq.1 ▸ h1, heq.2 ▸ h2⟩, fun hg => ?_⟩
      rw [if_neg (by simp [hg])] at hrest
      obtain ⟨zones, hzc, hrest⟩ := safe_bind.mp hrest
      obtain ⟨inodes, hic, -⟩ := safe_bind.mp hrest
      have hz' :=
        (countFree_safe_of_slots (fun k => (setFirst_slot hsz k).trans (hz.slot k))
          (by omega)).mp ⟨_, hzc⟩
      have hi' :=
        (countFree_safe_of_slots (fun k => (setFirst_slot hsi k).trans (hi.slot k))
          (by omega)).mp ⟨_, hic⟩
      rw [heq.1] at hi'
      rw [heq.2] at hz'
      exact ⟨hz', hi'⟩
    · intro h
      obtain ⟨⟨h1, h2⟩, hbits⟩ := h hci hcz
      obtain ⟨sImap, hsi⟩ := setFirst_safe_iff.mpr ((h0 hi.slot).mpr (heq.1.symm ▸ h1))
      obtain ⟨sZmap, hsz⟩ := setFirst_safe_iff.mpr ((h0 hz.slot).mpr (heq.2.symm ▸ h2))
      refine ⟨sImap, hsi, safe_bind.mpr ⟨sZmap, hsz, ?_⟩⟩
      by_cases hg : iget = true
      · rw [if_neg (by simp [hg])]
        obtain ⟨hz', hi'⟩ := hbits hg
        obtain ⟨zones, hzc⟩ := (countFree_safe_of_slots (n := d.sNzones.toNat)
          (fun k => (setFirst_slot hsz k).trans (hz.slot k)) (by omega)).mpr (heq.2.symm ▸ hz')
        obtain ⟨inodes, hic⟩ := (countFree_safe_of_slots (n := d.sNinodes.toNat + 1)
          (fun k => (setFirst_slot hsi k).trans (hi.slot k)) (by omega)).mpr (heq.1.symm ▸ hi')
        exact safe_bind.mpr ⟨zones, hzc, safe_bind.mpr ⟨inodes, hic, safe_ok _⟩⟩
      · rw [if_pos (by simpa using hg)]
        exact safe_ok _
  · rw [if_pos (by omega)]
    exact iff_of_true (safe_ok _) fun hci hcz => absurd ⟨hi.all.mpr hci, hz.all.mpr hcz⟩ heq

/-- Mounting is safe exactly for the super blocks whose sizes fit the arrays
and each other, for every pattern of reads that succeed. -/
theorem mountRoot_safe_iff (dev : UInt16) (r : Reads) (iget : Bool) :
    Safe (mountRoot dev r iget) ↔
      ∀ d, dev ≠ 0 → Cache.major dev.toNat ≠ 2 → r.super = some d → d.sMagic = superMagic →
        MapsFit d r iget := by
  by_cases hmajor : Cache.major dev.toNat = 2
  · rw [mountRoot, if_pos hmajor]
    exact iff_of_true (safe_ok _) fun _ _ hne => absurd hmajor hne
  by_cases hread : ∃ d, (dev ≠ 0 ∧ r.super = some d) ∧ d.sMagic = superMagic
  · obtain ⟨d, ⟨hdev, hr⟩, hm⟩ := hread
    rw [mountRoot_eq hdev hmajor hr hm, safe_bind]
    have hi := @readMap_zero r.imap d.sImapBlocks.toNat
    have hz := @readMap_zero r.zmap d.sZmapBlocks.toNat
    constructor
    · rintro ⟨imap, hei, hrest⟩ d' - - hr' -
      obtain rfl := Option.some.inj (hr.symm.trans hr')
      obtain ⟨zmap, hez, hrest⟩ := safe_bind.mp hrest
      have hs := (mountMaps_safe_iff (hi.2 _ _ hei) (hz.2 _ _ hez) iget).mp hrest
      exact ⟨hi.1.mp ⟨_, hei⟩, hz.1.mp ⟨_, hez⟩, fun hci hcz => (hs hci hcz).1,
        fun hci hcz => (hs hci hcz).2⟩
    · intro h
      have hfit := h d hdev hmajor hr hm
      obtain ⟨imap, hei⟩ := hi.1.mpr hfit.imap
      obtain ⟨zmap, hez⟩ := hz.1.mpr hfit.zmap
      refine ⟨imap, hei, safe_bind.mpr ⟨zmap, hez, ?_⟩⟩
      exact (mountMaps_safe_iff (hi.2 _ _ hei) (hz.2 _ _ hez) iget).mpr
        fun hci hcz => ⟨hfit.nonempty hci hcz, hfit.bits hci hcz⟩
  · refine iff_of_true ?_ fun d hdev _ hr hm => absurd ⟨d, ⟨hdev, hr⟩, hm⟩ hread
    have hnone : readSuper dev r = .ok none := by
      rw [readSuper]
      by_cases hdev : dev = 0
      · rw [if_pos hdev]
      · rw [if_neg hdev]
        cases hr : r.super with
        | none => rfl
        | some d =>
          have hm : d.sMagic ≠ superMagic := fun hm => hread ⟨d, ⟨hdev, hr⟩, hm⟩
          simp only [hm, ne_eq, not_false_eq_true, if_true]
    rw [mountRoot, if_neg hmajor, hnone]
    exact safe_ok _

/-- Nine blocks of the inode map, all readable, do not fit. -/
theorem imap_overrun : ∃ (d : DSuperBlock) (r : Reads), d.sMagic = superMagic ∧ r.super = some d ∧
    mountRoot 0x301 r true = .error (.subscript 8) :=
  ⟨⟨64, 64, 9, 1, 5, 0, 0, superMagic⟩,
    ⟨some ⟨64, 64, 9, 1, 5, 0, 0, superMagic⟩, fun _ => some fun _ => false,
      fun _ => some fun _ => false⟩, rfl, rfl, rfl⟩

end Gpos.Super
