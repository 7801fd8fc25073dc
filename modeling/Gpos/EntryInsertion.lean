import Gpos.DirOps
import Gpos.Volume

/-! `add_entry` and `find_entry` on a volume. -/

namespace Gpos.Volume

open BlockMap Fs

/-- The searches on a volume, which is mounted on an inode or not. The counts of inodes are not followed. -/
def dirOps (mounted : Option Nat) : DirOps Volume where
  toOps := ops
  inode i := fun v => some (v.inodeTable i, v)
  modifyInode i f := fun v => some ((), v.setInode i (f (v.inodeTable i)))
  data bh := fun v => some (v.block bh, v)
  setData bh _ f := fun v => some ((), v.setBlock bh (f (v.block bh)))
  sImount _ := pure mounted
  iput _ := pure ()
  raiseCount _ := pure ()

def entries (v : Volume) (d : Nat) : Nat := Image.entries (v.inodeTable d)

def entryZone (v : Volume) (d i : Nat) : Nat := v.zoneAt d (i / dirEntriesPerBlock)

def inodeOf (v : Volume) (d i : Nat) : Nat :=
  deInode (v.block (v.entryZone d i)) (i % dirEntriesPerBlock)

def nameOf (v : Volume) (d i : Nat) : Name :=
  Image.entryName (v.block (v.entryZone d i)) (i % dirEntriesPerBlock)

def Named (v : Volume) (d : Nat) (name : Name) (i : Nat) : Prop :=
  v.inodeOf d i ≠ 0 ∧ v.nameOf d i = name.take nameLen

/-- Every entry of the directory lies in a block. -/
def NoHoles (v : Volume) (d : Nat) : Prop :=
  ∀ i < v.entries d, ∃ z ≠ 0, BlockMap.bmap ops d (i / dirEntriesPerBlock) v = some (z, v)

/-- `find_entry` does not leave the directory: the name is not `..`, or the
directory is the root of the task or no root of a device that is mounted elsewhere. -/
def Stays (v : Volume) (mounted root : Option Nat) (d : Nat) (name : Name) : Prop :=
  Image.dotDot name → root = some d ∨ (v.inodeTable d).iNum ≠ rootIno ∨
    mounted = none ∨ mounted = some d

section

variable {v : Volume} {d : Nat} {name : Name}

theorem NoHoles.zone (h : v.NoHoles d) {i : Nat} (hi : i < v.entries d) :
    i / dirEntriesPerBlock < maxBlocks ∧ v.entryZone d i ≠ 0 := by
  obtain ⟨z, hz, he⟩ := h i hi
  have hk : i / dirEntriesPerBlock < maxBlocks := by
    by_contra hbig
    rw [BlockMap.bmap, bmapCreate, if_pos (Nat.not_lt.mp hbig)] at he
    cases he
  rw [bmap_eq d hk] at he
  cases he
  exact ⟨hk, hz⟩

theorem noHoles_of_zone (h : ∀ i < v.entries d, i / dirEntriesPerBlock < maxBlocks ∧
    v.entryZone d i ≠ 0) : v.NoHoles d :=
  fun i hi => ⟨_, (h i hi).2, bmap_eq d (h i hi).1⟩

theorem NoHoles.blockAt (h : v.NoHoles d) {i : Nat} (hi : i < v.entries d) :
    Image.blockAt v.reader (v.inodeTable d) (i / dirEntriesPerBlock) =
      some (some (v.entryZone d i, v.block (v.entryZone d i))) :=
  image_blockAt v d (h.zone hi).1 (h.zone hi).2

theorem NoHoles.named_iff (h : v.NoHoles d) {i : Nat} (hi : i < v.entries d) :
    Image.Named v.reader (v.inodeTable d) name i ↔ v.Named d name i :=
  Image.named_iff rfl (h.blockAt hi)

theorem NoHoles.clear (h : v.NoHoles d) : Image.Clear v.reader (v.inodeTable d) name 0 := by
  intro k _ hlt _
  have hk : dirEntriesPerBlock * k / dirEntriesPerBlock = k := Nat.mul_div_cancel_left k (by decide)
  have hb := h.blockAt hlt
  rw [hk] at hb
  exact .inl ⟨_, hb⟩

theorem scanDir_eq (h : v.NoHoles d) (mounted : Option Nat) (name : Name)
    (len rounds bh de i : Nat) :
      (dirOps mounted).scanDir d len name (v.entries d) rounds bh de i v =
        (Image.scan v.reader (v.inodeTable d) len name (v.entries d) rounds
          (some (bh, v.block bh)) de i).map fun r => (r, v) := by
  induction rounds generalizing bh de i with
  | zero => rfl
  | succ rounds ih =>
    rw [DirOps.scanDir, Image.scan]
    by_cases hend : v.entries d ≤ i
    · rw [if_pos hend, if_pos hend]
      rfl
    rw [if_neg hend, if_neg hend]
    by_cases hde : de < dirEntriesPerBlock
    · rw [if_pos hde, if_neg (Nat.not_le.mpr hde)]
      show (if matchEntry len name (v.block bh) de then _ else _ : Program Volume _) v = _
      split
      · rfl
      · exact ih bh (de + 1) (i + 1)
    · have hi := Nat.not_le.mp hend
      obtain ⟨hk, hz⟩ := h.zone hi
      have hmap : BlockMap.bmap (dirOps mounted).toOps d (i / dirEntriesPerBlock) v =
        some (v.entryZone d i, v) := bmap_eq d hk
      have hnext : (dirOps mounted).nextBlock d (v.entryZone d i) v =
        some (some (v.entryZone d i), v) := by
        rw [DirOps.nextBlock, if_neg hz]
        rfl
      rw [if_neg hde, if_pos (Nat.not_lt.mp hde), h.blockAt hi,
        Program.bind_of_eq (a := ()) (t := v) rfl, Program.bind_of_eq hmap,
        Program.bind_of_eq hnext]
      show (if matchEntry len name (v.block (v.entryZone d i)) 0 then _
        else _ : Program Volume _) v = Option.map _
          (if matchEntry len name (v.block (v.entryZone d i)) 0 then _ else _)
      split
      · rfl
      · exact ih _ 1 (i + 1)

theorem upwards_eq {mounted root : Option Nat} (hs : v.Stays mounted root d name) :
    (dirOps mounted).upwards root d (min name.length nameLen) name v =
      some ((d, if Image.dotDot name ∧ (root == some d) = true then 1 else min name.length nameLen),
        v) := by
  have hlen : min name.length nameLen = 2 ↔ name.length = 2 := by
    have h14 : nameLen = 14 := rfl
    omega
  rw [DirOps.upwards]
  by_cases hdot : Image.dotDot name
  · rw [if_pos ⟨hlen.mpr hdot.1, hdot.2⟩]
    by_cases hroot : root = some d
    · rw [if_pos hroot, if_pos ⟨hdot, beq_iff_eq.mpr hroot⟩]
      rfl
    · rw [if_neg hroot, if_neg fun hc => hroot (beq_iff_eq.mp hc.2)]
      show (if (v.inodeTable d).iNum = rootIno then _ else _ : Program Volume _) v = _
      split
      next hnum =>
        rcases ((hs hdot).resolve_left hroot).resolve_left (not_not.mpr hnum) with rfl | rfl <;> rfl
      next => rfl
  · rw [if_neg fun hc => hdot ⟨hlen.mp hc.1, hc.2⟩, if_neg fun hc => hdot hc.1]
    rfl

theorem findEntry_eq (h : v.NoHoles d) {mounted root : Option Nat}
    (hs : v.Stays mounted root d name) : (dirOps mounted).findEntry root d name v =
      (Image.findEntry v.reader (v.inodeTable d) (root == some d) name).map fun r =>
        ((d, r), v) := by
  show (if min name.length nameLen = 0 then _ else _ : Program Volume _) v = _
  rw [Image.findEntry]
  split
  · rfl
  rw [Program.bind_of_eq (upwards_eq hs)]
  show (if (v.inodeTable d).iZone 0 = 0 then _ else _ : Program Volume _) v = _
  split
  · rfl
  · have hscan :=
      scanDir_eq h mounted name (if Image.dotDot name ∧ (root == some d) = true then 1
        else min name.length nameLen)
      (v.entries d + 1) ((v.inodeTable d).iZone 0) 0 0
    rw [Program.bind_of_eq (a := some ((v.inodeTable d).iZone 0)) (t := v) rfl]
    show ((dirOps mounted).scanDir d _ name (v.entries d) (v.entries d + 1)
      ((v.inodeTable d).iZone 0) 0 0 >>= _) v = _
    rw [Program.bind_eq, hscan, Option.bind_map]
    exact Option.map_eq_bind.symm

theorem findEntry_first (h : v.NoHoles d) (hzone : (v.inodeTable d).iZone 0 ≠ 0)
    {mounted root : Option Nat} (hs : v.Stays mounted root d name) (hname : ∀ c ∈ name, c ≠ 0)
    (hlen : name ≠ []) : ∃ r, (dirOps mounted).findEntry root d name v = some ((d, r), v) ∧
      Image.IsFirst v.reader (v.inodeTable d) (Image.searchName (root == some d) name) r := by
  obtain ⟨r, hr, hf⟩ :=
    (@Image.findEntry_ends v.reader (v.inodeTable d) name
      (root == some d) _ hzone rfl hname hlen).mpr h.clear
  exact ⟨r, by rw [findEntry_eq h hs, hr]; rfl, hf⟩

def extended (v : Volume) (d bh de i : Nat) : Volume :=
  if (v.inodeTable d).iSize ≤ i * 16 then
    (v.setBlock bh (putBits (v.block bh) (128 * de) 16 0)).setInode d
      { v.inodeTable d with iSize := (i + 1) * 16, iDirt := true, iCtime := 0 }
  else v

def claimed (v : Volume) (d : Nat) (name : Name) (bh de i : Nat) : Volume :=
  let v := v.extended d bh de i
  (v.setInode d { v.inodeTable d with iMtime := 0 }).setBlock bh
    (putName name (min name.length nameLen) de (v.block bh))

theorem extendDir_eq (mounted : Option Nat) (bh de i : Nat) :
    (dirOps mounted).extendDir d bh de i v = some ((), v.extended d bh de i) := by
  show (if (v.inodeTable d).iSize ≤ i * 16 then _ else _ : Program Volume _) v = _
  rw [extended]
  split <;> rfl

theorem claimEntry_eq (mounted : Option Nat) (bh de i : Nat) :
    (dirOps mounted).claimEntry d (min name.length nameLen) name bh de i v =
      if deInode ((v.extended d bh de i).block bh) de = 0 then some (true, v.claimed d name bh de i)
      else some (false, v.extended d bh de i) := by
  rw [DirOps.claimEntry, Program.bind_of_eq (extendDir_eq mounted bh de i)]
  show (if deInode ((v.extended d bh de i).block bh) de = 0 then _ else _ : Program Volume _)
    (v.extended d bh de i) = _
  split <;> rfl

theorem claimEntry_end (mounted : Option Nat) {bh de i : Nat} (hde : de < dirEntriesPerBlock)
    (h : (v.inodeTable d).iSize ≤ i * 16) :
    (dirOps mounted).claimEntry d (min name.length nameLen) name bh de i v =
      some (true, v.claimed d name bh de i) := by
  have h64 : dirEntriesPerBlock = 64 := rfl
  rw [claimEntry_eq, if_pos]
  rw [extended, if_pos h]
  show getBits (Function.update v.block bh (putBits (v.block bh) (128 * de) 16 0) bh)
    (128 * de) 16 = 0
  rw [Function.update_self, getBits_putBits _ (by omega), Nat.zero_mod]

theorem claimEntry_inside (mounted : Option Nat) {bh de i : Nat}
    (h : i * 16 < (v.inodeTable d).iSize) :
      (dirOps mounted).claimEntry d (min name.length nameLen) name bh de i v =
        if deInode (v.block bh) de = 0 then some (true, v.claimed d name bh de i)
          else some (false, v) := by
  rw [claimEntry_eq, extended, if_neg (Nat.not_le.mpr h)]

/-- What `add_entry` has found when it takes entry `f`: the entries in front of
it are in use, and it is not or lies behind the end of the directory. Its block
is there in `v₁`. -/
structure Found (v : Volume) (d f z : Nat) (v₁ : Volume) : Prop where
  bound : f ≤ v.entries d
  live : ∀ i < f, v.inodeOf d i ≠ 0
  free : f < v.entries d → v.inodeOf d f = 0
  zone : v₁.entryZone d f = z
  pos : z ≠ 0
  small : f / dirEntriesPerBlock < maxBlocks
  step : v₁ = v ∨ f = v.entries d ∧ f % dirEntriesPerBlock = 0 ∧
    Created v d (f / dirEntriesPerBlock) z v₁

/-- The loop of `add_entry` in front of entry `i`, with entry `de` of block `k` in its buffer. -/
structure Scanning (v : Volume) (d k bh de i : Nat) : Prop where
  index : i = 64 * k + de
  small : k < maxBlocks
  buffer : v.zoneAt d k = bh
  pos : bh ≠ 0
  bound : i ≤ v.entries d
  live : ∀ j < i, v.inodeOf d j ≠ 0

theorem iSize_eq (hsize : (v.inodeTable d).iSize % 16 = 0) :
    (v.inodeTable d).iSize = 16 * v.entries d :=
  (Nat.mul_div_cancel' (Nat.dvd_of_mod_eq_zero hsize)).symm

theorem Scanning.next {k bh de i : Nat} (hs : v.Scanning d k bh de i) (hlt : i < v.entries d)
    (hused : v.inodeOf d i ≠ 0) : v.Scanning d k bh (de + 1) (i + 1) := by
  refine ⟨by rw [hs.index, Nat.add_assoc], hs.small, hs.buffer, hs.pos, hlt, fun j hj => ?_⟩
  rcases Nat.lt_succ_iff_lt_or_eq.mp hj with hj | rfl
  · exact hs.live j hj
  · exact hused

theorem claimEntry_found (hsize : (v.inodeTable d).iSize % 16 = 0) (mounted : Option Nat)
    (name : Name) {k bh de i : Nat} (hs : v.Scanning d k bh de i) (hde : de < dirEntriesPerBlock) :
    ((dirOps mounted).claimEntry d (min name.length nameLen) name bh de i v =
      some (true, v.claimed d name bh de i) ∧ Found v d i bh v ∧ de = i % dirEntriesPerBlock) ∨
    ((dirOps mounted).claimEntry d (min name.length nameLen) name bh de i v = some (false, v) ∧
      i < v.entries d ∧ v.inodeOf d i ≠ 0) := by
  have h64 : dirEntriesPerBlock = 64 := rfl
  have hE := iSize_eq hsize
  have hindex := hs.index
  have hbound := hs.bound
  have hdiv : i / dirEntriesPerBlock = k := show i / 64 = k by omega
  have hmod : i % dirEntriesPerBlock = de := show i % 64 = de by omega
  have hentry : v.inodeOf d i = deInode (v.block bh) de := by
    rw [inodeOf, entryZone, hdiv, hs.buffer, hmod]
  have hfound : (i < v.entries d → v.inodeOf d i = 0) → Found v d i bh v := fun hf =>
    ⟨hbound, hs.live, hf, by rw [entryZone, hdiv, hs.buffer], hs.pos, hdiv ▸ hs.small, .inl rfl⟩
  by_cases hend : i = v.entries d
  · exact .inl ⟨claimEntry_end mounted hde (by omega),
      hfound fun hlt => absurd hlt (by omega), hmod.symm⟩
  · rw [claimEntry_inside mounted (by omega)]
    split
    next hfree => exact .inl ⟨rfl, hfound fun _ => hentry.trans hfree, hmod.symm⟩
    next hused => exact .inr ⟨rfl, by omega, fun h0 => hused (hentry.symm.trans h0)⟩

theorem scanFree_found (hv : v.Ok) (hsize : (v.inodeTable d).iSize % 16 = 0) (hno : v.NoHoles d)
    (mounted : Option Nat) {rounds bh k de i z e : Nat} {v' : Volume} (hs : v.Scanning d k bh de i)
    (hde : de ≤ dirEntriesPerBlock) (h : (dirOps mounted).scanFree d
      (min name.length nameLen) name rounds bh de i v = some (some (z, e), v')) :
    ∃ f v₁, Found v d f z v₁ ∧ e = f % dirEntriesPerBlock ∧ v' = v₁.claimed d name z e f := by
  have h64 : dirEntriesPerBlock = 64 := rfl
  induction rounds generalizing bh k de i with
  | zero => cases h
  | succ rounds ih =>
    rw [DirOps.scanFree] at h
    split at h
    next hlt =>
      rcases claimEntry_found hsize mounted name hs hlt with ⟨hc, hf, he⟩ | ⟨hc, hi, hused⟩
      · rw [Program.bind_of_eq hc, if_pos rfl] at h
        cases h
        exact ⟨i, v, hf, he, rfl⟩
      · rw [Program.bind_of_eq hc] at h
        exact ih (hs.next hi hused) hlt h
    next hge =>
      have hindex := hs.index
      have hbound := hs.bound
      have hdiv : i / dirEntriesPerBlock = k + 1 := show i / 64 = k + 1 by omega
      have hmod : i % dirEntriesPerBlock = 0 := show i % 64 = 0 by omega
      rw [Program.bind_of_eq (a := ()) (t := v) rfl] at h
      obtain ⟨z₁, v₁, hcreate, h⟩ := Program.bind_some.mp h
      split at h
      · cases h
      next hz₁ =>
        rw [Program.bind_of_eq (a := v₁.inodeTable d) (t := v₁) rfl,
          Program.bind_of_eq (a := some z₁) (t := v₁) rfl] at h
        dsimp only at h
        by_cases hend : i = v.entries d
        · -- the directory is full, so that it grows by an entry of a block that may be new
          have hc := createBlock_created hv hcreate
          have hrest := hc.iSize d
          have hE := iSize_eq hsize
          rw [Program.bind_of_eq (claimEntry_end mounted (by decide) (by omega)), if_pos rfl] at h
          cases h
          exact ⟨i, v₁, ⟨hbound, hs.live, fun hlt => absurd hlt (by omega), hc.value, hz₁, hc.small,
            .inr ⟨hend, hmod, hc⟩⟩, hmod.symm, rfl⟩
        · obtain ⟨hsmall, hzone⟩ := hno.zone (show i < v.entries d by omega)
          have hstill : BlockMap.createBlock (dirOps mounted).toOps d (i / dirEntriesPerBlock) v =
            some (v.entryZone d i, v) :=
            bmapCreate_still hsmall fun _ => hzone
          rw [hstill] at hcreate
          cases hcreate
          have hs' : v.Scanning d (k + 1) (v.entryZone d i) 0 i :=
            ⟨by omega, hdiv ▸ hsmall, by rw [entryZone, hdiv], hzone, hbound, hs.live⟩
          rcases claimEntry_found hsize mounted name hs'
            (by decide) with ⟨hc, hf, he⟩ | ⟨hc, hi, hused⟩
          · rw [Program.bind_of_eq hc, if_pos rfl] at h
            cases h
            exact ⟨i, v, hf, he, rfl⟩
          · rw [Program.bind_of_eq hc] at h
            exact ih (hs'.next hi hused) (by decide) h

/-- The caller of `add_entry` puts the inode number into the entry. -/
def entered (v : Volume) (d : Nat) (name : Name) (z e f n : Nat) : Volume :=
  let v := v.claimed d name z e f
  v.setBlock z (putBits (v.block z) (128 * e) 16 n)

theorem extended_block (bh de i w : Nat) (hw : w ≠ bh) :
    (v.extended d bh de i).block w = v.block w := by
  rw [extended]
  split
  · exact Function.update_of_ne hw _ _
  · rfl

theorem extended_entry {bh de i : Nat} {o l : Nat} (h : o + l ≤ 128 * de ∨ 128 * de + 16 ≤ o)
    (ho : o + l ≤ 8192) :
    ((v.extended d bh de i).block bh).extractLsb' o l = (v.block bh).extractLsb' o l := by
  rw [extended]
  split
  · show (Function.update v.block bh _ bh).extractLsb' o l = _
    rw [Function.update_self]
    exact extractLsb'_putBits_of_disjoint _ h ho
  · rfl

theorem entered_block_self (z e f n : Nat) :
    (v.entered d name z e f n).block z = fillEntry name e n ((v.extended d z e f).block z) := by
  show Function.update (Function.update (v.extended d z e f).block z _) z
    (putBits (Function.update (v.extended d z e f).block z _ z) _ _ _) z = _
  rw [Function.update_self, Function.update_self]
  rfl

theorem entered_block (e f n : Nat) {z w : Nat} (hw : w ≠ z) :
    (v.entered d name z e f n).block w = v.block w := by
  show Function.update (Function.update (v.extended d z e f).block z _) z _ w = _
  rw [Function.update_of_ne hw, Function.update_of_ne hw, extended_block z e f w hw]

theorem entered_inode (v : Volume) (d : Nat) (name : Name) (z e f n m : Nat) :
    ∃ t t' b, (v.entered d name z e f n).inodeTable m =
      { v.inodeTable m with
        iSize :=
          if m = d ∧ (v.inodeTable d).iSize ≤ f * 16 then (f + 1) * 16 else (v.inodeTable m).iSize
        iDirt := b, iMtime := t, iCtime := t' } := by
  show ∃ t t' b, Function.update (v.extended d z e f).inodeTable d
    { (v.extended d z e f).inodeTable d with iMtime := 0 } m = _
  by_cases hm : m = d
  · subst hm
    rw [Function.update_self, extended]
    split
    next hle =>
      refine ⟨0, 0, true, ?_⟩
      show ({ Function.update v.inodeTable m _ m with iMtime := 0 } : MInode) = _
      rw [Function.update_self, if_pos ⟨rfl, hle⟩]
    next hgt =>
      refine ⟨0, (v.inodeTable m).iCtime, (v.inodeTable m).iDirt, ?_⟩
      rw [if_neg fun hc => hgt hc.2]
  · rw [Function.update_of_ne hm, if_neg fun hc => hm hc.1]
    refine ⟨(v.inodeTable m).iMtime, (v.inodeTable m).iCtime, (v.inodeTable m).iDirt, ?_⟩
    rw [extended]
    split
    · exact Function.update_of_ne hm _ _
    · rfl

theorem entered_map (v : Volume) (d : Nat) (name : Name) (z e f n : Nat) :
    (v.entered d name z e f n).bits = v.bits ∧ (v.entered d name z e f n).firstDataZone =
      v.firstDataZone ∧ (v.entered d name z e f n).nzones = v.nzones := by
  have hext : (v.extended d z e f).bits = v.bits ∧
      (v.extended d z e f).firstDataZone = v.firstDataZone ∧
        (v.extended d z e f).nzones = v.nzones := by
    rw [extended]
    split <;> exact ⟨rfl, rfl, rfl⟩
  exact hext

theorem entered_ok (d : Nat) (name : Name) (hv : v.Ok) {i k z : Nat} (hk : k < maxBlocks)
    (hz : v.zoneAt i k = z) (e f n : Nat) :
    (v.entered d name z e f n).Ok ∧ ∀ m l, l < maxBlocks →
      (v.entered d name z e f n).zoneAt m l = v.zoneAt m l := by
  obtain ⟨hbits, hfirst, hnzones⟩ := entered_map v d name z e f n
  have hzone : (v.entered d name z e f n).disk.zone = v.disk.zone := by
    funext m j
    obtain ⟨t, t', b, he⟩ := entered_inode v d name z e f n m
    show ((v.entered d name z e f n).inodeTable m).iZone j = _
    rw [he]
    rfl
  have hwords : ∀ w ≠ z, (v.entered d name z e f n).disk.words w = v.disk.words w := by
    intro w hw
    funext j
    show getBits ((v.entered d name z e f n).block w) (16 * j) 16 = _
    rw [entered_block e f n hw]
    rfl
  have href := fun m p hp => Disk.ref_written hv.trees hk hz hzone hwords m (p := p) hp
  exact ⟨⟨hv.trees.congr hfirst hbits href, hnzones.trans_le hv.fits⟩,
    fun m l hl => href m _ (Place.ofBlock_ok hl)⟩

theorem entered_beside (v : Volume) (d : Nat) (name : Name) (z f n : Nat) {e de : Nat}
    (hde : de < dirEntriesPerBlock) (hne : de ≠ e) :
      deInode ((v.entered d name z e f n).block z) de = deInode (v.block z) de ∧
        Image.entryName ((v.entered d name z e f n).block z) de =
          Image.entryName (v.block z) de := by
  have h64 : dirEntriesPerBlock = 64 := rfl
  have h14 : nameLen = 14 := rfl
  rw [entered_block_self, deInode_fillEntry_of_ne _ hde hne, entryName_fillEntry_of_ne _ hde hne]
  constructor
  · rw [deInode, deInode, getBits, getBits, extended_entry (by omega) (by omega)]
  · rw [Image.entryName, Image.entryName]
    refine congrArg _ (List.map_congr_left fun j hj => ?_)
    have hj := List.mem_range.mp hj
    rw [deName, deName, extended_entry (by omega) (by omega)]

/-- What is left of the directory when entry `f` has been found, maybe in a new block. -/
theorem Found.same {f z : Nat} {v₁ : Volume} (hf : Found v d f z v₁) (hv : v.Ok)
    (hno : v.NoHoles d) :
    v₁.Ok ∧ (v₁.inodeTable d).iSize = (v.inodeTable d).iSize ∧
      (v₁.inodeTable d).iNum = (v.inodeTable d).iNum ∧
        ∀ i < v.entries d, v₁.entryZone d i = v.entryZone d i ∧
          v₁.block (v.entryZone d i) = v.block (v.entryZone d i) := by
  rcases hf.step with rfl | ⟨hend, hmod, hc⟩
  · exact ⟨hv, rfl, rfl, fun _ _ => ⟨rfl, rfl⟩⟩
  · refine ⟨hc.ok, hc.iSize d, hc.iNum d, fun i hi => ?_⟩
    obtain ⟨hsmall, hzone⟩ := hno.zone hi
    have hdiv : i / dirEntriesPerBlock ≠ f / dirEntriesPerBlock := by
      have hmod' : f % 64 = 0 := hmod
      show i / 64 ≠ f / 64
      omega
    exact ⟨hc.others d _ hsmall fun h => hdiv h.2, hc.block d _ hsmall hzone⟩

/-- What the insertion of an entry makes of a directory. -/
structure Inserted (v : Volume) (d : Nat) (name : Name) (f z n : Nat) (v' : Volume) : Prop where
  noHoles : v'.NoHoles d
  size : (v'.inodeTable d).iSize = if f = v.entries d then (v.inodeTable d).iSize + 16
    else (v.inodeTable d).iSize
  num : (v'.inodeTable d).iNum = (v.inodeTable d).iNum
  bound : f ≤ v.entries d
  live : ∀ i < f, v.inodeOf d i ≠ 0
  free : f < v.entries d → v.inodeOf d f = 0
  zone : v'.entryZone d f = z
  inode : v'.inodeOf d f = n
  name : v'.nameOf d f = name.take nameLen
  others : ∀ i < v.entries d, i ≠ f → v'.entryZone d i = v.entryZone d i ∧
    v'.inodeOf d i = v.inodeOf d i ∧ v'.nameOf d i = v.nameOf d i

theorem Found.inserted {f z n : Nat} {v₁ : Volume} (hf : Found v d f z v₁) (hv : v.Ok)
    (hno : v.NoHoles d) (hsize : (v.inodeTable d).iSize % 16 = 0) (hname : ∀ c ∈ name, c ≠ 0)
    (hn : n < 65536) :
    Inserted v d name f z n (v₁.entered d name z (f % dirEntriesPerBlock) f n) := by
  obtain ⟨hv₁, hsize₁, hnum₁, hsame⟩ := hf.same hv hno
  obtain ⟨-, hzones⟩ := entered_ok d name hv₁ hf.small hf.zone (f % dirEntriesPerBlock) f n
  obtain ⟨t, t', b, hinode⟩ := entered_inode v₁ d name z (f % dirEntriesPerBlock) f n d
  have hE := iSize_eq hsize
  have hbound := hf.bound
  have hmodlt : f % dirEntriesPerBlock < dirEntriesPerBlock := Nat.mod_lt _ (by decide)
  have hzone : (v₁.entered d name z (f % dirEntriesPerBlock) f n).entryZone d f = z :=
    (hzones d _ hf.small).trans hf.zone
  have hsize' : ((v₁.entered d name z (f % dirEntriesPerBlock) f n).inodeTable d).iSize =
      if f = v.entries d then (v.inodeTable d).iSize + 16 else (v.inodeTable d).iSize := by
    rw [hinode]
    show (if d = d ∧ (v₁.inodeTable d).iSize ≤ f * 16 then (f + 1) * 16
      else (v₁.inodeTable d).iSize) = _
    rw [hsize₁]
    split <;> split <;> omega
  have hothers : ∀ i < v.entries d, (v₁.entered d name z (f % dirEntriesPerBlock) f n).entryZone d
    i = v.entryZone d i :=
    fun i hi => (hzones d _ (hno.zone hi).1).trans (hsame i hi).1
  refine ⟨noHoles_of_zone fun i hi => ?_, hsize', ?_, hbound, hf.live, hf.free, hzone, ?_, ?_,
    fun i hi hne => ⟨hothers i hi, ?_⟩⟩
  · by_cases hlt : i < v.entries d
    · rw [hothers i hlt]
      exact hno.zone hlt
    · have hif : i = f := by
        have hi' :
            i < ((v₁.entered d name z (f % dirEntriesPerBlock) f n).inodeTable d).iSize / 16 := hi
        rw [hsize'] at hi'
        split at hi' <;> omega
      rw [hif, hzone]
      exact ⟨hf.small, hf.pos⟩
  · rw [hinode]
    exact hnum₁
  · rw [inodeOf, hzone, entered_block_self, deInode_fillEntry _ hmodlt, Nat.mod_eq_of_lt hn]
  · rw [nameOf, hzone, entered_block_self, entryName_fillEntry _ hmodlt hname]
  · rw [inodeOf, inodeOf, nameOf, nameOf, hothers i hi]
    by_cases hz : v.entryZone d i = z
    · -- both entries lie in block `z`, which is one block of the directory
      obtain ⟨hsmall, hpos⟩ := hno.zone hi
      have hplace :=
        hv₁.trees.distinct d _ d _ (Place.ofBlock_ok hsmall) (Place.ofBlock_ok hf.small)
        (fun h0 => hpos ((hsame i hi).1.symm.trans h0))
          ((hsame i hi).1.trans (hz.trans hf.zone.symm))
      have hdiv : i / 64 = f / 64 := Place.ofBlock_inj hplace.2
      have hmod : i % dirEntriesPerBlock ≠ f % dirEntriesPerBlock := show i % 64 ≠ f % 64 by omega
      have hblock := (hsame i hi).2
      rw [hz] at hblock ⊢
      obtain ⟨hin, hna⟩ := entered_beside v₁ d name z f n (Nat.mod_lt i (by decide)) hmod
      exact ⟨hin.trans (by rw [hblock]), hna.trans (by rw [hblock])⟩
    · rw [entered_block _ f n hz, (hsame i hi).2]
      exact ⟨rfl, rfl⟩

theorem Inserted.entries {f z n : Nat} {v' : Volume} (h : Inserted v d name f z n v') :
    v'.entries d = if f = v.entries d then v.entries d + 1 else v.entries d := by
  show (v'.inodeTable d).iSize / 16 = _
  rw [h.size]
  split
  · exact Nat.add_div_right _ (by decide)
  · rfl

theorem Inserted.named {f z n : Nat} {v' : Volume} (h : Inserted v d name f z n v') {c : Name}
    (hc : c.take nameLen ≠ name.take nameLen) {i : Nat} (hi : i < v'.entries d) :
    v'.Named d c i ↔ i < v.entries d ∧ v.Named d c i := by
  have hbound := h.bound
  by_cases hf : i = f
  · subst hf
    refine iff_of_false (fun hn => hc ?_) fun hn => hn.2.1 (h.free hn.1)
    rw [← hn.2, h.name]
  · have hlt : i < v.entries d := by
      rw [h.entries] at hi
      split at hi <;> omega
    rw [Named, Named, (h.others i hlt hf).2.1, (h.others i hlt hf).2.2]
    exact ⟨fun hn => ⟨hlt, hn⟩, fun hn => hn.2⟩

theorem Inserted.first {f z n : Nat} {v' : Volume} (h : Inserted v d name f z n v')
    (hno : v.NoHoles d) {c : Name} (hc : c.take nameLen ≠ name.take nameLen)
    {r : Option (Nat × Nat)} (hr : Image.IsFirst v.reader (v.inodeTable d) c r) :
    Image.IsFirst v'.reader (v'.inodeTable d) c r := by
  have hle : v.entries d ≤ v'.entries d := by
    rw [h.entries]
    split <;> omega
  have hnamed : ∀ i < v'.entries d, Image.Named v'.reader (v'.inodeTable d) c i →
    i < v.entries d ∧ Image.Named v.reader (v.inodeTable d) c i := by
    intro i hi hn
    obtain ⟨hlt, hn⟩ := (h.named hc hi).mp ((h.noHoles.named_iff hi).mp hn)
    exact ⟨hlt, (hno.named_iff hlt).mpr hn⟩
  cases r with
  | none => exact fun i hi hn => hr i (hnamed i hi hn).1 (hnamed i hi hn).2
  | some r =>
    obtain ⟨i, hi, hn, hfirst, hmap, hde⟩ := hr
    have hi' : i < v'.entries d := lt_of_lt_of_le hi hle
    have hin : v'.Named d c i := (h.named hc hi').mpr ⟨hi, (hno.named_iff hi).mp hn⟩
    have hne : i ≠ f := by
      rintro rfl
      exact hc (hin.2.symm.trans h.name)
    refine ⟨i, hi', (h.noHoles.named_iff hi').mpr hin,
      fun j hj hn => hfirst j hj (hnamed j (hj.trans hi') hn).2, ?_, hde⟩
    rw [Image.bmap_of_blockAt (h.noHoles.blockAt hi'), (h.others i hi hne).1, ← hmap,
      Image.bmap_of_blockAt (hno.blockAt hi)]

theorem Inserted.first_new {f z n : Nat} {v' : Volume} (h : Inserted v d name f z n v') (hn : n ≠ 0)
    (habsent : ∀ i < v.entries d, ¬ v.Named d name i) :
    Image.IsFirst v'.reader (v'.inodeTable d) name (some (z, f % dirEntriesPerBlock)) := by
  have hbound := h.bound
  have hf : f < v'.entries d := by
    rw [h.entries]
    split <;> omega
  refine ⟨f, hf, (h.noHoles.named_iff hf).mpr ⟨h.inode.symm ▸ hn, h.name⟩,
    fun j hj hnj => ?_, ?_, rfl⟩
  · have hjE : j < v.entries d := by omega
    have hnj := (h.noHoles.named_iff (hj.trans hf)).mp hnj
    rw [Named, (h.others j hjE (by omega)).2.1, (h.others j hjE (by omega)).2.2] at hnj
    exact habsent j hjE hnj
  · rw [Image.bmap_of_blockAt (h.noHoles.blockAt hf), h.zone]

theorem Inserted.zone_ne {f z n : Nat} {v' : Volume} (h : Inserted v d name f z n v') :
    (v'.inodeTable d).iZone 0 ≠ 0 := by
  have hbound := h.bound
  have hpos : 0 < v'.entries d := by
    rw [h.entries]
    split <;> omega
  exact (h.noHoles.zone hpos).2

theorem findEntry_of_first (hno : v.NoHoles d) (hzone : (v.inodeTable d).iZone 0 ≠ 0)
    {mounted root : Option Nat} (hs : v.Stays mounted root d name) (hname : ∀ c ∈ name, c ≠ 0)
    (hlen : name ≠ []) {r : Option (Nat × Nat)}
    (hr : Image.IsFirst v.reader (v.inodeTable d) (Image.searchName (root == some d) name) r) :
    (dirOps mounted).findEntry root d name v = some ((d, r), v) := by
  obtain ⟨r', he, hr'⟩ := findEntry_first hno hzone hs hname hlen
  rw [he, hr'.unique hr]

theorem addEntry_eq (mounted : Option Nat) (hzone : (v.inodeTable d).iZone 0 ≠ 0)
    (hlen : min name.length nameLen ≠ 0) : (dirOps mounted).addEntry d name v =
      (dirOps mounted).scanFree d (min name.length nameLen) name (v.entries d + 2)
        ((v.inodeTable d).iZone 0) 0 0 v := by
  rw [DirOps.addEntry, if_neg hlen]
  show (if (v.inodeTable d).iZone 0 = 0 then _ else _ : Program Volume _) v = _
  rw [if_neg hzone]
  rfl

theorem addEntry_inserted (hv : v.Ok) (hno : v.NoHoles d) (hsize : (v.inodeTable d).iSize % 16 = 0)
    (hname : ∀ c ∈ name, c ≠ 0) {mounted : Option Nat} {z e n : Nat} (hn : n < 65536)
    {v₁ v' : Volume} (hadd : (dirOps mounted).addEntry d name v = some (some (z, e), v₁))
    (hset : (dirOps mounted).setEntryInode z e n v₁ = some ((), v')) :
    (v.inodeTable d).iZone 0 ≠ 0 ∧ ∃ f, e = f % dirEntriesPerBlock ∧
      Inserted v d name f z n v' := by
  have hlen : min name.length nameLen ≠ 0 := by
    intro h0
    rw [DirOps.addEntry, if_pos h0] at hadd
    cases hadd
  have hzone : (v.inodeTable d).iZone 0 ≠ 0 := by
    intro h0
    have hnone : (dirOps mounted).addEntry d name v = some (none, v) := by
      rw [DirOps.addEntry, if_neg hlen]
      show (if (v.inodeTable d).iZone 0 = 0 then _ else _ : Program Volume _) v = _
      rw [if_pos h0]
      rfl
    rw [hnone] at hadd
    cases hadd
  rw [addEntry_eq mounted hzone hlen] at hadd
  have hs : v.Scanning d 0 ((v.inodeTable d).iZone 0) 0 0 :=
    ⟨rfl, by decide, rfl, hzone, Nat.zero_le _, fun j hj => absurd hj (Nat.not_lt_zero j)⟩
  obtain ⟨f, u, hf, rfl, rfl⟩ := scanFree_found hv hsize hno mounted hs (Nat.zero_le _) hadd
  cases hset
  exact ⟨hzone, f, rfl, hf.inserted hv hno hsize hname hn⟩

theorem addEntry_bare (mounted : Option Nat) (hlen : min name.length nameLen ≠ 0)
    (hzone : (v.inodeTable d).iZone 0 ≠ 0) (hsize : (v.inodeTable d).iSize = 0) :
    (dirOps mounted).addEntry d name v =
      some (some ((v.inodeTable d).iZone 0, 0), v.claimed d name
        ((v.inodeTable d).iZone 0) 0 0) := by
  have hclaim :=
    @claimEntry_end v d name mounted ((v.inodeTable d).iZone 0) 0 0 (by decide) hsize.le
  rw [addEntry_eq mounted hzone hlen, DirOps.scanFree, if_pos (by decide),
    Program.bind_of_eq hclaim, if_pos rfl]
  rfl

/-- After `add_entry` a search finds the new entry, every other name is found where it was, the
entries in use are as they were, and the directory has grown if all were in use. -/
theorem addEntry_findEntry (hv : v.Ok) (hno : v.NoHoles d) (hsize : (v.inodeTable d).iSize % 16 = 0)
    (hname : ∀ c ∈ name, c ≠ 0) (hlen : name ≠ []) (habsent : ∀ i < v.entries d, ¬ v.Named d name i)
    {mounted root : Option Nat} (hstays : v.Stays mounted root d name)
    (hroot : Image.dotDot name → root ≠ some d) {z e n : Nat} (hpos : n ≠ 0) (hn : n < 65536)
    {v₁ v' : Volume} (hadd : (dirOps mounted).addEntry d name v = some (some (z, e), v₁))
    (hset : (dirOps mounted).setEntryInode z e n v₁ = some ((), v')) :
    (dirOps mounted).findEntry root d name v' = some ((d, some (z, e)), v') ∧
      deInode (v'.block z) e = n ∧ (∀ c : Name, (∀ x ∈ c, x ≠ 0) → v.Stays mounted root d c →
        (Image.searchName (root == some d) c).take nameLen ≠ name.take nameLen →
        ∃ r, (dirOps mounted).findEntry root d c v = some ((d, r), v) ∧
          (dirOps mounted).findEntry root d c v' = some ((d, r), v')) ∧
      (∀ i < v.entries d, v.inodeOf d i ≠ 0 →
        v'.entryZone d i = v.entryZone d i ∧ v'.inodeOf d i = v.inodeOf d i ∧
          v'.nameOf d i = v.nameOf d i) ∧
      (v'.inodeTable d).iSize =
        if ∀ i < v.entries d, v.inodeOf d i ≠ 0 then (v.inodeTable d).iSize + 16
          else (v.inodeTable d).iSize := by
  obtain ⟨hzone, f, rfl, h⟩ := addEntry_inserted hv hno hsize hname hn hadd hset
  have hbound := h.bound
  have hstays' : ∀ {c : Name}, v.Stays mounted root d c → v'.Stays mounted root d c :=
    fun hc hdot => by
    rw [h.num]
    exact hc hdot
  have hsearch : Image.searchName (root == some d) name = name :=
    if_neg fun hc => hroot hc.1 (beq_iff_eq.mp hc.2)
  refine ⟨?_, ?_, fun c hc hs hne => ?_, fun i hi hused => h.others i hi ?_, ?_⟩
  · refine findEntry_of_first h.noHoles h.zone_ne (hstays' hstays) hname hlen ?_
    rw [hsearch]
    exact h.first_new hpos habsent
  · rw [← h.zone]
    exact h.inode
  · by_cases hnil : c = []
    · subst hnil
      exact ⟨none, rfl, rfl⟩
    · obtain ⟨r, he, hr⟩ := findEntry_first hno hzone hs hc hnil
      exact ⟨r, he, findEntry_of_first h.noHoles h.zone_ne (hstays' hs) hc hnil
        (h.first hno hne hr)⟩
  · rintro rfl
    exact hused (h.free hi)
  · rw [h.size]
    refine ite_congr (propext ⟨fun hf i hi => h.live i (hf ▸ hi), fun hall => ?_⟩)
      (fun _ => rfl) fun _ => rfl
    by_contra hne
    exact hall f (by omega) (h.free (by omega))

end

/-- A root directory of one block. -/
def rootOf (b : Block) (size : Nat) : Volume where
  order := []
  firstDataZone := 5
  nzones := 8
  bits n := n ≤ 1
  block z := if z = 5 then b else 0
  inodeTable i :=
    if i = 0 then { zeroInode with
      iMode := 0o040000, iNum := 1, iSize := size, iZone := fun k => if k = 0 then 5 else 0 }
    else zeroInode

theorem rootOf_ref {b : Block} {size i : Nat} {p : Place} (h : (rootOf b size).disk.ref i p ≠ 0) :
    i = 0 ∧ p = .zone 0 ∧ (rootOf b size).disk.ref i p = 5 := by
  have hzone : ∀ k, (rootOf b size).disk.zone i k = if i = 0 ∧ k = 0 then 5 else 0 := by
    intro k
    show (if i = 0 then _ else zeroInode : MInode).iZone k = _
    by_cases hi : i = 0
    · simp [hi]
    · simp [hi, zeroInode]
  have hentry : ∀ k j, k ≠ 0 → (rootOf b size).disk.entryOf
      ((rootOf b size).disk.zone i k) j = 0 := by
    intro k j hk
    rw [hzone k, if_neg fun hc => hk hc.2]
    rfl
  cases p with
  | zone k =>
    have hz : (rootOf b size).disk.ref i (.zone k) = _ := hzone k
    rw [hz] at h ⊢
    split at h
    next hc =>
      obtain ⟨rfl, rfl⟩ := hc
      exact ⟨rfl, rfl, rfl⟩
    next => exact absurd rfl h
  | ind j => exact absurd (hentry 7 j (by decide)) h
  | dind j => exact absurd (hentry 8 j (by decide)) h
  | leaf j k =>
    have hz : (rootOf b size).disk.ref i (.leaf j k) = (rootOf b size).disk.entryOf
      ((rootOf b size).disk.entryOf ((rootOf b size).disk.zone i 8) j) k := rfl
    rw [hz, hentry 8 j (by decide)] at h
    exact absurd rfl h

theorem rootOf_ok (b : Block) (size : Nat) : (rootOf b size).Ok := by
  refine ⟨⟨(by decide : 1 ≤ 5), rfl, fun n p m q _ _ hne he => ?_, fun n p _ hne => ?_⟩,
    (by decide : 8 ≤ 65536)⟩
  · obtain ⟨rfl, rfl, -⟩ := rootOf_ref hne
    obtain ⟨rfl, rfl, -⟩ := rootOf_ref (he ▸ hne)
    exact ⟨rfl, rfl⟩
  · rw [(rootOf_ref hne).2.2]
    exact ⟨Nat.le_refl 5, rfl⟩

/-- The second of the three entries is deleted. -/
def usedRoot : Volume :=
  rootOf (3 ||| 98 <<< 16 ||| (100 <<< 16) <<< 128 ||| (4 ||| 99 <<< 16) <<< 256) 48

theorem usedRoot_addEntry : (dirOps none).addEntry 0 [97] usedRoot =
    some (some (5, 1), usedRoot.claimed 0 [97] 5 1 1) := by
  have hlive : deInode (usedRoot.block 5) 0 ≠ 0 := by decide +kernel
  have hfree : deInode (usedRoot.block 5) 1 = 0 := by decide +kernel
  have hfirst := @claimEntry_inside usedRoot 0 [97] none 5 0 0 (by decide)
  have hsecond := @claimEntry_inside usedRoot 0 [97] none 5 1 1 (by decide)
  rw [if_neg hlive] at hfirst
  rw [if_pos hfree] at hsecond
  rw [addEntry_eq none (by decide) (by decide)]
  show (dirOps none).scanFree 0 _ [97] (4 + 1) 5 0 0 usedRoot = _
  rw [DirOps.scanFree, if_pos (by decide), Program.bind_of_eq hfirst]
  show (dirOps none).scanFree 0 _ [97] (3 + 1) 5 1 1 usedRoot = _
  rw [DirOps.scanFree, if_pos (by decide), Program.bind_of_eq hsecond, if_pos rfl]
  rfl

theorem usedRoot_noHoles : usedRoot.NoHoles 0 := by
  refine noHoles_of_zone fun i hi => ?_
  have hlt : i < 3 := hi
  rw [entryZone, Nat.div_eq_of_lt (hlt.trans (by decide))]
  exact ⟨by decide, (by decide : 5 ≠ 0)⟩

theorem addEntry_findEntry_used :
    ∃ v₁ v', (dirOps none).addEntry 0 [97] usedRoot = some (some (5, 1), v₁) ∧
      (dirOps none).setEntryInode 5 1 7 v₁ = some ((), v') ∧
        (dirOps none).findEntry (some 0) 0 [97] v' = some ((0, some (5, 1)), v') ∧
      (v'.inodeOf 0 2 = usedRoot.inodeOf 0 2 ∧ v'.nameOf 0 2 = usedRoot.nameOf 0 2) ∧
      (v'.inodeTable 0).iSize = 48 := by
  have hadd := usedRoot_addEntry
  have habsent : ∀ i < 3, ¬ (usedRoot.inodeOf 0 i ≠ 0 ∧
    usedRoot.nameOf 0 i = ([97] : Name).take nameLen) := by decide +kernel
  have hstays : usedRoot.Stays none (some 0) 0 [97] := fun h => absurd h (by decide)
  obtain ⟨hnew, -, -, hothers, hsize⟩ := addEntry_findEntry (rootOf_ok _ _) usedRoot_noHoles rfl
    (by decide) (by decide) habsent hstays (fun h => absurd h (by decide))
    (by decide : (7 : Nat) ≠ 0) (by decide) hadd rfl
  have hfree : ¬ ∀ i < 3, usedRoot.inodeOf 0 i ≠ 0 := by decide +kernel
  exact ⟨_, _, hadd, rfl, hnew, (hothers 2 (by decide) (by decide +kernel)).2,
    hsize.trans (if_neg hfree)⟩

/-- A root directory with a block, but without entries. -/
def bareRoot : Volume := rootOf 0 0

theorem bareRoot_ref {i : Nat} {p : Place} (h : bareRoot.disk.ref i p ≠ 0) :
    i = 0 ∧ p = .zone 0 ∧ bareRoot.disk.ref i p = 5 := rootOf_ref h

theorem bareRoot_ok : bareRoot.Ok := rootOf_ok 0 0

theorem bareRoot_empty {i : Nat} : ¬ i < bareRoot.entries 0 := Nat.not_lt_zero i

theorem bareRoot_addEntry (name : Name) (hname : min name.length nameLen ≠ 0) :
    (dirOps none).addEntry 0 name bareRoot = some (some (5, 0), bareRoot.claimed 0 name 5 0 0) :=
  addEntry_bare none hname (by decide) rfl

/-- In the root of the task `find_entry` looks for `.` when it is asked for `..`. -/
theorem addEntry_dots :
    ¬ ∀ (v : Volume) (d : Nat) (name : Name) (mounted root : Option Nat) (z e n : Nat) (v₁ v' : Volume), v.Ok →
    v.NoHoles d → (v.inodeTable d).iSize % 16 = 0 → (∀ c ∈ name, c ≠ 0) → name ≠ [] →
      (∀ i < v.entries d, ¬ v.Named d name i) →
    n ≠ 0 → n < 65536 → (dirOps mounted).addEntry d name v = some (some (z, e), v₁) →
    (dirOps mounted).setEntryInode z e n v₁ = some ((), v') →
    (dirOps mounted).findEntry root d name v' = some ((d, some (z, e)), v') := by
  intro h
  have hnone : bareRoot.NoHoles 0 := fun _ hi => absurd hi bareRoot_empty
  have hadd := bareRoot_addEntry [dot, dot] (by decide)
  have hfind :=
    h bareRoot 0 [dot, dot] none (some 0) 5 0 1 _ _ bareRoot_ok hnone rfl (by decide) (by decide)
    (fun _ hi => absurd hi bareRoot_empty) (by decide) (by decide) hadd rfl
  obtain ⟨-, f, -, hins⟩ :=
    addEntry_inserted bareRoot_ok hnone rfl (by decide) (by decide) hadd (n := 1) rfl
  obtain ⟨r, hr, hfirst⟩ :=
    @findEntry_first _ 0 [dot, dot] hins.noHoles hins.zone_ne none (some 0) (fun _ => .inl rfl)
      (by decide) (by decide)
  rw [hfind] at hr
  cases hr
  obtain ⟨i, hi, hn, -⟩ := hfirst
  exact bareRoot_empty ((hins.named (by decide) hi).mp ((hins.noHoles.named_iff hi).mp hn)).1

/-- A directory of one full block. The zone of the block is that of the next block, too. -/
def sharedZone : Volume where
  order := []
  firstDataZone := 5
  nzones := 8
  bits n := n ≤ 1
  block _ := BitVec.allOnes 8192
  inodeTable i :=
    if i = 0 then { zeroInode with
      iMode := 0o040000, iSize := 1024, iZone := fun k => if k ≤ 1 then 5 else 0 } else zeroInode

/-- Without `Trees` the new entry can lie on one that is in use. -/
theorem addEntry_shared :
    ¬ ∀ (v : Volume) (d : Nat) (name : Name) (mounted : Option Nat) (z e n : Nat) (v₁ v' : Volume),
    v.NoHoles d → (v.inodeTable d).iSize % 16 = 0 → (∀ c ∈ name, c ≠ 0) → name ≠ [] →
    (∀ i < v.entries d, ¬ v.Named d name i) → n ≠ 0 → n < 65536 →
    (dirOps mounted).addEntry d name v = some (some (z, e), v₁) →
    (dirOps mounted).setEntryInode z e n v₁ = some ((), v') → ∀ i < v.entries d, v.inodeOf d i ≠ 0 →
      v'.inodeOf d i = v.inodeOf d i := by
  intro h
  have hzone : ∀ i < 64, sharedZone.entryZone 0 i = 5 := by decide +kernel
  have hno : sharedZone.NoHoles 0 := noHoles_of_zone fun i hi => by
    refine ⟨lt_of_le_of_lt (Nat.div_le_self _ _) (lt_trans hi (by decide)), ?_⟩
    rw [hzone i hi]
    decide
  have hname : ∀ de < 64, Image.entryName (BitVec.allOnes 8192) de ≠ [97] := by decide +kernel
  have hrun : ((dirOps none).addEntry 0 [97] sharedZone).map
    (fun r => (r.1, (r.2.inodeTable 0).iZone 0)) = some (some (5, 0), 5) := by
    decide +kernel
  obtain ⟨⟨r, v₁⟩, hadd, hr⟩ := Option.map_eq_some_iff.mp hrun
  obtain ⟨rfl, hz⟩ := Prod.mk.inj hr
  have hkeep := h sharedZone 0 [97] none 5 0 7 v₁ _ hno rfl (by decide) (by decide)
    (fun i _ hn => hname (i % 64) (Nat.mod_lt i (by decide)) hn.2) (by decide)
      (by decide) hadd rfl 0 (by decide) (by decide +kernel)
  have hold : sharedZone.inodeOf 0 0 = 65535 := by decide +kernel
  have hnew : (v₁.setBlock 5 (putBits (v₁.block 5) (128 * 0) 16 7)).inodeOf 0 0 = 7 := by
    have hfive : (v₁.setBlock 5 (putBits (v₁.block 5) (128 * 0) 16 7)).entryZone 0 0 = 5 := hz
    rw [inodeOf, hfive]
    show getBits (Function.update v₁.block 5 (putBits (v₁.block 5) (128 * 0) 16 7) 5) (128 * 0) 16 =
      7
    rw [Function.update_self, getBits_putBits _ (by decide)]
    exact Nat.mod_eq_of_lt (by decide)
  rw [hold] at hkeep
  exact absurd (hnew.symm.trans hkeep) (by decide)

end Gpos.Volume
