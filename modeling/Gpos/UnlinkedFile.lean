import Gpos.FileZones
import Gpos.InodeAllocator

/-! What `iput` frees of a file without links. The call of `truncate` in it is
commented out, so that the zones of the file stay allocated. -/

namespace Gpos.Imap

open Fs Cache Zones Bitmap BufferTasks Program

section

variable (disk : Disk)

/-- What a block holds, as `bread` would find it. -/
def blockOf (c : Cache) (dev z : Nat) : Block :=
  match (List.range c.nrBuffers).find? fun b => (c.buf b).bDev = dev ∧ (c.buf b).bBlocknr = z ∧
    (c.buf b).bUptodate with
  | some b => (c.buf b).bData
  | none => disk.data dev z

/-- The inode with a number, in memory or on the disk. -/
def inodeOf (s : Fs) (sb : SuperBlock) (dev num : Nat) : MInode :=
  match findSlot s.inodeTable dev num with
  | some i => s.inodeTable i
  | none =>
    readInodeAt (blockOf disk s.cache dev (inodeBlock sb num))
      ((num - 1) % inodesPerBlock) zeroInode

/-- The zones that an inode refers to. That of a device has none. -/
def inodeZones (block : Nat → Block) (n : MInode) : List Nat :=
  if isReg n.iMode ∨ isDir n.iMode then fileZones block n else []

def zonesOf (s : Fs) (sb : SuperBlock) (dev num : Nat) : List Nat :=
  inodeZones (blockOf disk s.cache dev) (inodeOf disk s sb dev num)

/-- Every zone that is marked allocated is one of an allocated inode. -/
def NoLeak (s : Fs) (sb : SuperBlock) (dev : Nat) : Prop :=
  ∀ z, sb.sFirstdatazone ≤ z → z < sb.sNzones → zoneBit sb s.cache (zoneNr sb z) = some true →
    ∃ num, 1 ≤ num ∧ inodeBit s dev num = some true ∧ z ∈ zonesOf disk s sb dev num

/-- Nothing of the inode is left allocated. -/
structure StorageFreed (sb : SuperBlock) (dev num : Nat) (s t : Fs) : Prop where
  inode : inodeBit t dev num = some false
  zones : ∀ z ∈ zonesOf disk s sb dev num, zoneBit sb t.cache (zoneNr sb z) = some false
  noLeak : NoLeak disk s sb dev → NoLeak disk t sb dev

/-- A mounted device, an inode of it in slot `i` without links and with one
reference, and files whose zones are data zones. The references `R` keep the
blocks of the maps. -/
structure Unlinked (sbs : Nat → SuperBlock) (R : Multiset Ref) (sb : SuperBlock) (dev num i : Nat)
    (s : Fs) : Prop where
  imap : Held sbs R
  zmap : ∀ k b, sb.sZmap k = some b → (⟨b, dev, 2 + sb.sImapBlocks + k⟩ : Ref) ∈ R
  super : getSuper sbs dev = some sb
  supers : s.superBlock = sbs
  ready : Ready s.cache R
  layout : 2 + sb.sImapBlocks ≤ sb.sFirstdatazone
  slot : findSlot s.inodeTable dev num = some i
  first : 1 ≤ num
  last : num ≤ sb.sNinodes
  bit : inodeBit s dev num = some true
  links : (s.inodeTable i).iNlinks = 0
  count : (s.inodeTable i).iCount = 1
  lock : (s.inodeTable i).iLock = false
  pipe : (s.inodeTable i).iPipe = false
  allocated : ∀ z ∈ zonesOf disk s sb dev num, zoneBit sb s.cache (zoneNr sb z) = some true
  inside : ∀ n, inodeBit s dev n = some true → ∀ z ∈ zonesOf disk s sb dev n, sb.sFirstdatazone ≤ z

end

section

variable {block block' : Nat → Block}

theorem fileZones_congr {n : MInode} (h : ∀ w ∈ fileZones block n, block' w = block w) :
    fileZones block' n = fileZones block n := by
  have hind := @tree_congr block block' 1 (n.iZone 7) fun w hw =>
    h w (List.mem_append_right _ (List.mem_append_left _ hw))
  have hdind := @tree_congr block block' 2 (n.iZone 8) fun w hw =>
    h w (List.mem_append_right _ (List.mem_append_right _ hw))
  rw [fileZones, fileZones, hind.1, hdind.1]
  rfl

theorem inodeZones_congr {n : MInode} (h : ∀ w ∈ inodeZones block n, block' w = block w) :
    inodeZones block' n = inodeZones block n := by
  unfold inodeZones at h ⊢
  split
  next hm =>
    rw [if_pos hm] at h
    exact fileZones_congr h
  next => rfl

theorem treeZones_eq_nil {n z : Nat} : treeZones block n z = [] ↔ z = 0 := by
  cases n with
  | zero =>
    rw [treeZones]
    split <;> simp_all
  | succ n =>
    rw [treeZones]
    split <;> simp_all

theorem inodeZones_eq_nil {n : MInode} :
    inodeZones block n = [] ↔ (isReg n.iMode ∨ isDir n.iMode → ∀ k, k < 9 → n.iZone k = 0) := by
  unfold inodeZones
  split
  next hm =>
    have hiff : fileZones block n = [] ↔ ∀ k, k < 9 → n.iZone k = 0 := by
      rw [fileZones, List.append_eq_nil_iff, List.append_eq_nil_iff, List.flatMap_eq_nil_iff,
        treeZones_eq_nil, treeZones_eq_nil]
      constructor
      · rintro ⟨hdirect, h7, h8⟩ k hk
        by_cases hlt : k < 7
        · exact treeZones_eq_nil.mp (hdirect k (List.mem_range.mpr hlt))
        · obtain rfl | rfl : k = 7 ∨ k = 8 := by omega
          · exact h7
          · exact h8
      · intro h
        refine ⟨fun k hk => ?_, h 7 (by decide), h 8 (by decide)⟩
        have hlt := List.mem_range.mp hk
        exact treeZones_eq_nil.mpr (h k (by omega))
    rw [hiff]
    exact ⟨fun h _ => h, fun h => h hm⟩
  next hm => exact iff_of_true rfl fun h => absurd h hm

end

section

variable {disk : Disk} {sbs : Nat → SuperBlock} {R : Multiset Ref} {sb : SuperBlock}
    {dev num i : Nat} {s t : Fs}

theorem findSlot_some (h : findSlot s.inodeTable dev num = some i) :
    (s.inodeTable i).iDev = dev ∧ (s.inodeTable i).iNum = num := by
  have hp := List.find?_some h
  simpa using hp

def clearIn (num : Nat) (b : BufferHead) : BufferHead :=
  { b with bData := Bitmap.clearBit (num % 8192) b.bData, bDirt := true }

/-- The state after the inode in slot `i` is freed, with the block of its map in buffer `bh`. -/
def freed (s : Fs) (num i bh : Nat) : Fs :=
  { s with
    cache := s.cache.modify bh (clearIn num),
    inodeTable := Function.update s.inodeTable i zeroInode }

theorem Unlinked.freeInode_eq (h : Unlinked disk sbs R sb dev num i s) :
    ∃ bh, sb.sImap (num / 8192) = some bh ∧ freeInode i s = some ((), freed s num i bh) := by
  obtain ⟨hdev, hnum⟩ := findSlot_some h.slot
  have hsb : getSuper s.superBlock dev = some sb := by rw [h.supers, h.super]
  have hsuper : Fs.getSuper (s.inodeTable i).iDev s = some (sb, s) := by
    rw [Fs.getSuper, hdev, hsb]
    rfl
  have hfirst := h.first
  have hlast := h.last
  have hbit := h.bit
  rw [inodeBit, hsb, Option.bind_some, mapBit] at hbit
  obtain ⟨bh, hbh, -⟩ := Option.map_eq_some_iff.mp hbit
  refine ⟨bh, hbh, ?_⟩
  have hdev0 : (s.inodeTable i).iDev ≠ 0 := hdev ▸ getSuper_dev hsb
  have hone : ¬ 1 < (s.inodeTable i).iCount := by
    rw [h.count]
    decide
  rw [freeInode, bind_of_eq (a := s.inodeTable i) (t := s) rfl, if_neg hdev0, if_neg hone,
    if_neg (not_not.mpr h.links), bind_of_eq hsuper, hnum, if_neg (by omega), hbh]
  rfl

theorem Unlinked.iput_eq (h : Unlinked disk sbs R sb dev num i s) :
    iput disk i s = freeInode i s := by
  have hdev0 : (s.inodeTable i).iDev ≠ 0 := (findSlot_some h.slot).1 ▸ getSuper_dev h.super
  have hwait : waitOnInode i s = some ((), s) := by
    rw [waitOnInode, bind_of_eq (a := s.inodeTable i) (t := s) rfl, h.lock]
    rfl
  have hcount0 : (s.inodeTable i).iCount ≠ 0 := by
    rw [h.count]
    decide
  have hone : ¬ 1 < (s.inodeTable i).iCount := by
    rw [h.count]
    decide
  rw [iput, bind_of_eq hwait, bind_of_eq (a := s.inodeTable i) (t := s) rfl, if_neg hcount0, h.pipe,
    if_neg Bool.false_ne_true, if_neg hdev0, putRound,
    bind_of_eq (a := s.inodeTable i) (t := s) rfl, if_neg hone, if_pos h.links]

theorem Unlinked.behind (h : Unlinked disk sbs R sb dev num i s) {k bh z : Nat}
    (hk : sb.sImap k = some bh) (hz : s.cache.Caches bh dev z) : z < 2 + sb.sImapBlocks := by
  obtain ⟨-, hlt, hmem⟩ := h.imap dev sb k bh h.super hk
  have hid := (h.ready.sound.ident _ hmem).2
  have hblock : 2 + k = z := hid.2.2.symm.trans hz.2.2
  omega

theorem Unlinked.zoneBit_freed (h : Unlinked disk sbs R sb dev num i s) {bh : Nat}
    (hbh : sb.sImap (num / 8192) = some bh) (n : Nat) :
    zoneBit sb (freed s num i bh).cache n = zoneBit sb s.cache n := by
  unfold zoneBit
  cases hb : sb.sZmap (n / 8192) with
  | none => rfl
  | some b =>
    have hid := (h.ready.sound.ident _ (h.zmap _ b hb)).2
    have hne : ¬ bh = b := by
      rintro rfl
      have := h.behind hbh hid
      dsimp only at this
      omega
    rw [Option.map_some, Option.map_some]
    show some (((s.cache.modify bh (clearIn num)).buf b).bData.getLsbD _) = _
    rw [modify_buf, if_neg hne]

theorem Unlinked.blockOf_freed (h : Unlinked disk sbs R sb dev num i s) {bh : Nat}
    (hbh : sb.sImap (num / 8192) = some bh) {z : Nat} (hz : 2 + sb.sImapBlocks ≤ z) :
    blockOf disk (freed s num i bh).cache dev z = blockOf disk s.cache dev z := by
  have hbuf : ∀ b, ((freed s num i bh).cache.buf b).bDev = (s.cache.buf b).bDev ∧
      ((freed s num i bh).cache.buf b).bBlocknr = (s.cache.buf b).bBlocknr ∧
      ((freed s num i bh).cache.buf b).bUptodate = (s.cache.buf b).bUptodate := by
    intro b
    show ((s.cache.modify bh (clearIn num)).buf b).bDev = _ ∧ _
    rw [freed, modify_buf]
    split
    next he => exact he ▸ ⟨rfl, rfl, rfl⟩
    next => exact ⟨rfl, rfl, rfl⟩
  have hn : (freed s num i bh).cache.nrBuffers = s.cache.nrBuffers := rfl
  unfold blockOf
  simp only [hbuf, hn]
  split
  next b hb =>
    have hp := List.find?_some hb
    have hlt := List.mem_range.mp (List.mem_of_find?_eq_some hb)
    simp only [decide_eq_true_eq] at hp
    have hne : ¬ bh = b := by
      rintro rfl
      have := h.behind hbh ⟨hlt, hp.1, hp.2.1⟩
      omega
    show ((s.cache.modify bh (clearIn num)).buf b).bData = _
    rw [modify_buf, if_neg hne]
  next => rfl

theorem Unlinked.findSlot_freed (h : Unlinked disk sbs R sb dev num i s) (bh : Nat) {n : Nat}
    (hn : n ≠ num) :
    findSlot (freed s num i bh).inodeTable dev n = findSlot s.inodeTable dev n := by
  obtain ⟨-, hnum⟩ := findSlot_some h.slot
  have hdev := getSuper_dev h.super
  unfold findSlot
  congr 1
  funext j
  by_cases hj : j = i
  · subst hj
    have hself : (freed s num j bh).inodeTable j = zeroInode := Function.update_self ..
    rw [hself, hnum]
    simp [zeroInode, Ne.symm hdev, Ne.symm hn]
  · have hother : (freed s num i bh).inodeTable j = s.inodeTable j := Function.update_of_ne hj _ _
    rw [hother]

theorem Unlinked.inodeOf_freed (h : Unlinked disk sbs R sb dev num i s) {bh : Nat}
    (hbh : sb.sImap (num / 8192) = some bh) {n : Nat} (hn : n ≠ num) :
    inodeOf disk (freed s num i bh) sb dev n = inodeOf disk s sb dev n := by
  unfold inodeOf
  rw [h.findSlot_freed bh hn, h.blockOf_freed hbh (inodeBlock_le sb n)]
  split
  next j hj =>
    have hne : j ≠ i := by
      rintro rfl
      exact hn ((findSlot_some hj).2.symm.trans (findSlot_some h.slot).2)
    exact Function.update_of_ne hne _ _
  next => rfl

theorem Unlinked.zonesOf_freed (h : Unlinked disk sbs R sb dev num i s) {bh : Nat}
    (hbh : sb.sImap (num / 8192) = some bh) {n : Nat} (hn : n ≠ num)
    (hbit : inodeBit s dev n = some true) :
    zonesOf disk (freed s num i bh) sb dev n = zonesOf disk s sb dev n := by
  rw [zonesOf, h.inodeOf_freed hbh hn]
  refine inodeZones_congr fun w hw => h.blockOf_freed hbh ?_
  exact h.layout.trans (h.inside n hbit w hw)

theorem Unlinked.inodeBit_freed (h : Unlinked disk sbs R sb dev num i s) {bh : Nat}
    (hfree : freeInode i s = some ((), freed s num i bh)) (n : Nat) :
    inodeBit (freed s num i bh) dev n = if n = num then some false else inodeBit s dev n := by
  obtain ⟨hdev, hnum⟩ := findSlot_some h.slot
  have hsteady : Steady sbs R (inodeBit s) s := ⟨h.supers, h.ready, fun _ _ => rfl⟩
  obtain ⟨-, -, -, hcases⟩ := freeInode_spec h.imap hsteady rfl hfree
  rw [if_neg (hdev ▸ getSuper_dev h.super), hdev, hnum] at hcases
  rw [hcases.bits, withBit]
  simp only [true_and]

theorem Unlinked.noLeak_freed (h : Unlinked disk sbs R sb dev num i s) {bh : Nat}
    (hbh : sb.sImap (num / 8192) = some bh) (hfree : freeInode i s = some ((), freed s num i bh))
    (hnone : zonesOf disk s sb dev num = []) (hno : NoLeak disk s sb dev) :
    NoLeak disk (freed s num i bh) sb dev := by
  intro z hz hz' hbit
  rw [h.zoneBit_freed hbh] at hbit
  obtain ⟨n, hfirst, hn, hmem⟩ := hno z hz hz' hbit
  have hne : n ≠ num := by
    rintro rfl
    rw [hnone] at hmem
    cases hmem
  refine ⟨n, hfirst, ?_, ?_⟩
  · rw [h.inodeBit_freed hfree, if_neg hne, hn]
  · rwa [h.zonesOf_freed hbh hne hn]

theorem Unlinked.zonesOf_eq (h : Unlinked disk sbs R sb dev num i s) :
    zonesOf disk s sb dev num = inodeZones (blockOf disk s.cache dev) (s.inodeTable i) := by
  rw [zonesOf, inodeOf, h.slot]

theorem Unlinked.storageFreed_iff (h : Unlinked disk sbs R sb dev num i s) {bh : Nat}
    (hbh : sb.sImap (num / 8192) = some bh) (hfree : freeInode i s = some ((), freed s num i bh)) :
    StorageFreed disk sb dev num s (freed s num i bh) ↔
      (isReg (s.inodeTable i).iMode ∨ isDir (s.inodeTable i).iMode → ∀ k, k < 9 →
        (s.inodeTable i).iZone k = 0) := by
  rw [← @inodeZones_eq_nil (blockOf disk s.cache dev), ← h.zonesOf_eq]
  constructor
  · intro hf
    refine List.eq_nil_iff_forall_not_mem.mpr fun z hz => ?_
    have hclear := hf.zones z hz
    rw [h.zoneBit_freed hbh, h.allocated z hz] at hclear
    cases hclear
  · intro hnone
    refine ⟨?_, ?_, h.noLeak_freed hbh hfree hnone⟩
    · rw [h.inodeBit_freed hfree, if_pos rfl]
    · rw [hnone]
      simp

/-- The storage of a file that loses its last reference is freed exactly if it has no zones. -/
theorem iput_storageFreed_iff (h : Unlinked disk sbs R sb dev num i s) :
    ∃ t, iput disk i s = some ((), t) ∧ (StorageFreed disk sb dev num s t ↔
      (isReg (s.inodeTable i).iMode ∨ isDir (s.inodeTable i).iMode → ∀ k, k < 9 →
        (s.inodeTable i).iZone k = 0)) := by
  obtain ⟨bh, hbh, hfree⟩ := h.freeInode_eq
  exact ⟨_, h.iput_eq.trans hfree, h.storageFreed_iff hbh hfree⟩

end

/-- Maps of one block each, in the buffers `bh` and `bh'`. -/
def twoMaps (bh bh' : Nat) : SuperBlock where
  sNinodes := 8
  sNzones := 20
  sImapBlocks := 1
  sZmapBlocks := 1
  sFirstdatazone := 4
  sImap k := if k = 0 then some bh else none
  sZmap k := if k = 0 then some bh' else none
  sDev := 0x301
  sIsup := none
  sImount := none

/-- A regular file without links, with `z` as its first zone. -/
def oneZone (z : Nat) : MInode :=
  { zeroInode with
    iMode := 0o100644, iDev := 0x301, iNum := 1, iCount := 1,
    iZone := fun k => if k = 0 then z else 0 }

/-- Inode 1 and zone 5 are marked allocated. -/
def marked (c : Cache) (bh bh' : Nat) : Cache :=
  (c.modify bh fun b => { b with bData := 2, bDirt := true }).modify bh' fun b =>
    { b with bData := 4, bDirt := true }

def oneFile (c : Cache) (bh bh' z : Nat) : Fs where
  cache := marked c bh bh'
  inodeTable j := if j = 0 then oneZone z else zeroInode
  lastInode := 0
  superBlock _ := twoMaps bh bh'
  stuck := []

theorem oneZone_zones (block : Nat → Block) {z : Nat} :
    inodeZones block (oneZone z) = if z = 0 then [] else [z] := by
  have hmode : isReg (oneZone z).iMode ∨ isDir (oneZone z).iMode :=
    Or.inl (show isReg 0o100644 = true by decide)
  rw [inodeZones, if_pos hmode]
  simp [fileZones, treeZones, oneZone, List.range_succ]

theorem twoBuffers : 2 ≤ (bufferInit 0x110000 blank).nrBuffers := by
  show 2 ≤ (initLoop 0x110000 0 { blank with nrBuffers := 0 }).nrBuffers
  rw [initLoop_succ (by decide), initLoop_succ (by decide)]
  exact (initLoop_spec _ 2 _ rfl (initHead_fresh (initHead_fresh (by simp)))).1

theorem held_twoMaps {bh bh' : Nat} {R : Multiset Ref} (h : (⟨bh, 0x301, 2⟩ : Ref) ∈ R) :
    Held (fun _ => twoMaps bh bh') R := by
  intro dev sb k b hs hk
  obtain ⟨rfl, rfl⟩ := getSuper_const hs
  simp only [twoMaps] at hk
  split at hk
  next hk0 =>
    obtain rfl := Option.some.inj hk
    subst hk0
    exact ⟨by decide, (by decide : 0 < 1), h⟩
  next => cases hk

theorem exists_twoMaps :
    ∃ c bh bh', bh ≠ bh' ∧ Ready c (⟨bh', 0x301, 3⟩ ::ₘ ⟨bh, 0x301, 2⟩ ::ₘ 0) := by
  obtain ⟨bh, c, hg, hr⟩ := @getblk_bufferInit 0x110000 (by decide) blank 0x301 (by decide) 2
  have htwo := hg.nrBuffers.ge.trans' twoBuffers
  obtain ⟨bh', c', -, -, hr'⟩ := hr.getblk (by decide : 0x301 ≠ 0) 3 (by simp) (by simp; omega)
  refine ⟨c', bh, bh', ?_, hr'⟩
  rintro rfl
  have h3 := (hr'.sound.ident ⟨bh, 0x301, 3⟩ (by simp)).2
  have h2 := (hr'.sound.ident ⟨bh, 0x301, 2⟩ (by simp)).2
  have hblock : 2 = 3 := h2.2.2.symm.trans h3.2.2
  cases hblock

theorem getLsbD_two_pow {k : Nat} (hk : k < 8192) (j : Nat) :
    (BitVec.ofNat 8192 (2 ^ k)).getLsbD j = decide (j = k) := by
  rw [BitVec.getLsbD_ofNat, Nat.testBit_two_pow]
  by_cases h : j = k
  · subst h
    simp [hk]
  · simp [h, Ne.symm h]

section

variable {c : Cache} {bh bh' : Nat} (z : Nat)

theorem marked_imap (hne : bh ≠ bh') :
    ((marked c bh bh').buf bh).bData = BitVec.ofNat 8192 (2 ^ 1) := by
  rw [marked, modify_buf, if_neg hne.symm, modify_buf, if_pos rfl]
  rfl

theorem marked_zmap : ((marked c bh bh').buf bh').bData = BitVec.ofNat 8192 (2 ^ 2) := by
  rw [marked, modify_buf, if_pos rfl]
  rfl

theorem oneFile_inodeBit (hne : bh ≠ bh') (n : Nat) :
    inodeBit (oneFile c bh bh' z) 0x301 n = if n / 8192 = 0 then some (decide (n % 8192 = 1))
      else none := by
  have hsuper : getSuper (fun _ => twoMaps bh bh') 0x301 = some (twoMaps bh bh') := rfl
  rw [inodeBit, oneFile, hsuper, Option.bind_some, mapBit, twoMaps]
  dsimp only
  split
  · rw [Option.map_some, marked_imap hne, getLsbD_two_pow (by decide)]
  · rfl

theorem oneFile_zoneBit (n : Nat) :
    zoneBit (twoMaps bh bh') (oneFile c bh bh' z).cache n =
      if n / 8192 = 0 then some (decide (n % 8192 = 2)) else none := by
  rw [zoneBit, oneFile, twoMaps]
  dsimp only
  split
  · rw [Option.map_some, marked_zmap, getLsbD_two_pow (by decide)]
  · rfl

theorem oneFile_zoneBit_five :
    zoneBit (twoMaps bh bh') (oneFile c bh bh' z).cache
      (zoneNr (twoMaps bh bh') 5) = some true := by
  have hnr : zoneNr (twoMaps bh bh') 5 = 2 := rfl
  rw [hnr, oneFile_zoneBit]
  rfl

theorem oneFile_zonesOf (disk : Disk) :
    zonesOf disk (oneFile c bh bh' z) (twoMaps bh bh') 0x301 1 = if z = 0 then [] else [z] := by
  have hslot : findSlot (oneFile c bh bh' z).inodeTable 0x301 1 = some 0 := rfl
  rw [zonesOf, inodeOf, hslot]
  exact oneZone_zones _

theorem oneFile_unlinked (hne : bh ≠ bh') (hr : Ready c (⟨bh', 0x301, 3⟩ ::ₘ ⟨bh, 0x301, 2⟩ ::ₘ 0))
    (hz : z = 0 ∨ z = 5) :
    Unlinked noDisk (fun _ => twoMaps bh bh') (⟨bh', 0x301, 3⟩ ::ₘ ⟨bh, 0x301, 2⟩ ::ₘ 0)
      (twoMaps bh bh') 0x301 1 0 (oneFile c bh bh' z) where
  imap := held_twoMaps (by simp)
  zmap k b hk := by
    simp only [twoMaps] at hk
    split at hk
    next hk0 =>
      obtain rfl := Option.some.inj hk
      subst hk0
      exact Multiset.mem_cons_self _ _
    next => cases hk
  super := rfl
  supers := rfl
  ready :=
    (hr.modify bh (keepsShape_data fun _ => 2) (fun _ => rfl) fun _ hl => hl).modify bh'
      (keepsShape_data fun _ => 4)
    (fun _ => rfl) fun _ hl => hl
  layout := (by decide : 2 + 1 ≤ 4)
  slot := rfl
  first := by decide
  last := (by decide : 1 ≤ 8)
  bit := by rw [oneFile_inodeBit z hne]; rfl
  links := rfl
  count := rfl
  lock := rfl
  pipe := rfl
  allocated w hw := by
    rw [oneFile_zonesOf] at hw
    obtain rfl | rfl := hz
    · cases hw
    · obtain rfl := List.mem_singleton.mp hw
      exact oneFile_zoneBit_five 5
  inside n hn w hw := by
    rw [oneFile_inodeBit z hne] at hn
    split at hn
    next h0 =>
      have h1 : n % 8192 = 1 := by simpa using hn
      obtain rfl : n = 1 := by omega
      rw [oneFile_zonesOf] at hw
      obtain rfl | rfl := hz
      · cases hw
      · obtain rfl := List.mem_singleton.mp hw
        exact (by decide : 4 ≤ 5)
    next => cases hn

theorem oneFile_noLeak (hne : bh ≠ bh') (disk : Disk) :
    NoLeak disk (oneFile c bh bh' 5) (twoMaps bh bh') 0x301 := by
  intro w hfirst hlast hbit
  have hw : 4 ≤ w ∧ w < 20 := ⟨hfirst, hlast⟩
  have hnr : zoneNr (twoMaps bh bh') w = w + 1 - 4 := rfl
  rw [oneFile_zoneBit, hnr, if_pos (by omega)] at hbit
  have h2 : (w + 1 - 4) % 8192 = 2 := by simpa using hbit
  obtain rfl : w = 5 := by omega
  refine ⟨1, Nat.le_refl 1, by rw [oneFile_inodeBit 5 hne]; rfl, ?_⟩
  rw [oneFile_zonesOf]
  exact List.mem_singleton_self 5

end

/-- Zone 5 of the file stays allocated, and no inode refers to it. -/
theorem iput_zone_leak :
    ∃ sbs R sb s, Unlinked noDisk sbs R sb 0x301 1 0 s ∧ zonesOf noDisk s sb 0x301 1 = [5] ∧
      (∀ r ∈ R, r.block ≠ 5) ∧ NoLeak noDisk s sb 0x301 ∧ ∃ t, iput noDisk 0 s = some ((), t) ∧
        ¬ StorageFreed noDisk sb 0x301 1 s t ∧ ¬ NoLeak noDisk t sb 0x301 := by
  obtain ⟨c, bh, bh', hne, hr⟩ := exists_twoMaps
  have hu := oneFile_unlinked 5 hne hr (Or.inr rfl)
  obtain ⟨b, hb, hfree⟩ := hu.freeInode_eq
  have hleak : ¬ NoLeak noDisk (freed (oneFile c bh bh' 5) 1 0 b) (twoMaps bh bh') 0x301 := by
    intro hno
    have hbit := (hu.zoneBit_freed hb _).trans (oneFile_zoneBit_five 5)
    obtain ⟨n, -, hn, -⟩ := hno 5 (by decide : 4 ≤ 5) (by decide : 5 < 20) hbit
    rw [hu.inodeBit_freed hfree, oneFile_inodeBit 5 hne] at hn
    split_ifs at hn with h1 h0
    · cases hn
    · have hmod : n % 8192 = 1 := by simpa using hn
      omega
  refine ⟨_, _, _, _, hu, oneFile_zonesOf 5 noDisk, by simp, oneFile_noLeak hne noDisk, _,
    hu.iput_eq.trans hfree, ?_, hleak⟩
  exact fun hfreed => hleak (hfreed.noLeak (oneFile_noLeak hne noDisk))

theorem iput_storageFreed_small :
    ∃ sb s t, iput noDisk 0 s = some ((), t) ∧ StorageFreed noDisk sb 0x301 1 s t := by
  obtain ⟨c, bh, bh', hne, hr⟩ := exists_twoMaps
  obtain ⟨t, hput, hiff⟩ := iput_storageFreed_iff (oneFile_unlinked 0 hne hr (Or.inl rfl))
  refine ⟨_, _, t, hput, hiff.mpr fun _ k _ => ?_⟩
  show (if k = 0 then 0 else 0) = 0
  exact ite_self 0

end Gpos.Imap
