import Gpos.BootLoad
import Gpos.DirEntries
import Gpos.ZoneSoundness

/-! The records of the inodes on the disk: what `read_inode` and `write_inode`
do to them when `bread` returns what a block holds, and where the boot loader
looks for them. -/

namespace Gpos

namespace Fs

/-- What `read_inode` and `write_inode` use. A buffer is an `H`, and `setData`
sets `b_dirt`. -/
structure RecordOps (S H : Type) where
  inode : Nat → Program S MInode
  modifyInode : Nat → (MInode → MInode) → Program S Unit
  getSuper : Nat → Program S SuperBlock
  bread : Nat → Nat → Program S (Option H)
  data : H → Program S Block
  setData : H → (Block → Block) → Program S Unit
  brelse : H → Program S Unit

namespace RecordOps

variable {S H : Type} (o : RecordOps S H)

def waitOnInode (i : Nat) : Program S Unit := do
  if (← o.inode i).iLock then failure

def lockInode (i : Nat) : Program S Unit := do
  o.waitOnInode i
  o.modifyInode i fun n => { n with iLock := true }

def unlockInode (i : Nat) : Program S Unit := o.modifyInode i fun n => { n with iLock := false }

def readInode (i : Nat) : Program S Unit := do
  o.lockInode i
  let n ← o.inode i
  let sb ← o.getSuper n.iDev
  match ← o.bread n.iDev (inodeBlock sb n.iNum) with
  | none => failure
  | some bh => do
    let b ← o.data bh
    o.modifyInode i (readInodeAt b ((n.iNum - 1) % inodesPerBlock))
    o.brelse bh
    o.unlockInode i

def writeInode (i : Nat) : Program S Unit := do
  o.lockInode i
  let n ← o.inode i
  if n.iDirt = false ∨ n.iDev = 0 then o.unlockInode i
  else
    let sb ← o.getSuper n.iDev
    match ← o.bread n.iDev (inodeBlock sb n.iNum) with
    | none => failure
    | some bh => do
      o.setData bh fun b => writeInodeAt b ((n.iNum - 1) % inodesPerBlock) n
      o.modifyInode i fun n => { n with iDirt := false }
      o.brelse bh
      o.unlockInode i

end RecordOps

def cacheOps (disk : Cache.Disk) : RecordOps Fs Nat where
  inode := inode
  modifyInode := modifyInode
  getSuper := getSuper
  bread := bread disk
  data bh := fun s => some ((s.cache.buf bh).bData, s)
  setData bh f := modifyBuf bh fun b => { b with bData := f b.bData, bDirt := true }
  brelse := brelse

theorem readInode_cacheOps (disk : Cache.Disk) (i : Nat) :
    (cacheOps disk).readInode i = readInode disk i := by
  refine bind_congr fun _ => bind_congr fun _ => bind_congr fun _ => bind_congr fun x => ?_
  cases x <;> rfl

theorem writeInode_cacheOps (disk : Cache.Disk) (i : Nat) :
    (cacheOps disk).writeInode i = writeInode disk i := by
  refine bind_congr fun _ => bind_congr fun n => ?_
  refine ite_congr rfl (fun _ => rfl) fun _ => bind_congr fun _ => bind_congr fun x => ?_
  cases x <;> rfl

/-- The blocks of the devices and what they hold now. -/
structure Store where
  block : Nat → Nat → Block
  inodeTable : Nat → MInode
  superBlock : Nat → SuperBlock

/-- A field of a block: where it lies, how wide it is, and its value. -/
structure Field where
  off : Nat
  w : Nat
  v : Nat

def putFields (fs : List Field) (b : Block) : Block :=
  fs.foldl (fun b f => putBits b f.off f.w f.v) b

theorem extractLsb'_putFields {fs : List Field} {o l : Nat}
    (h : ∀ f ∈ fs, o + l ≤ f.off ∨ f.off + f.w ≤ o) (ho : o + l ≤ 8192) (b : Block) :
    (putFields fs b).extractLsb' o l = b.extractLsb' o l := by
  induction fs generalizing b with
  | nil => rfl
  | cons f fs ih =>
    obtain ⟨hf, hfs⟩ := List.forall_mem_cons.mp h
    rw [putFields, List.foldl_cons]
    exact (ih hfs _).trans (extractLsb'_putBits_of_disjoint b hf ho)

theorem getBits_putFields {fs : List Field} (h : fs.Pairwise fun f g => f.off + f.w ≤ g.off)
    (hfit : ∀ f ∈ fs, f.off + f.w ≤ 8192) {f : Field} (hf : f ∈ fs) (b : Block) :
    getBits (putFields fs b) f.off f.w = f.v % 2 ^ f.w := by
  induction fs generalizing b with
  | nil => cases hf
  | cons g fs ih =>
    obtain ⟨hg, hfs⟩ := List.pairwise_cons.mp h
    rcases List.mem_cons.mp hf with rfl | hf
    · rw [putFields, List.foldl_cons, getBits]
      have hh :=
        extractLsb'_putFields (fun g hgm => .inl (hg g hgm)) (hfit f List.mem_cons_self)
          (putBits b f.off f.w f.v)
      rw [putFields] at hh
      rw [hh, extractLsb'_putBits b (hfit f List.mem_cons_self), BitVec.toNat_ofNat]
    · exact ih hfs (fun g hg => hfit g (List.mem_cons_of_mem _ hg)) hf _

/-- `struct d_inode` -/
def inodeFields (n : Nat) (i : MInode) : List Field :=
  [⟨256 * n, 16, i.iMode⟩, ⟨256 * n + 16, 16, i.iUid⟩, ⟨256 * n + 32, 32, i.iSize⟩,
    ⟨256 * n + 64, 32, i.iMtime⟩, ⟨256 * n + 96, 8, i.iGid⟩, ⟨256 * n + 104, 8, i.iNlinks⟩] ++
    (List.range 9).map fun k => ⟨256 * n + 112 + 16 * k, 16, i.iZone k⟩

theorem writeInodeAt_eq (b : Block) (n : Nat) (i : MInode) :
    writeInodeAt b n i = putFields (inodeFields n i) b := by
  rw [putFields, inodeFields, List.foldl_append, List.foldl_map]
  rfl

theorem inodeFields_pairwise (n : Nat) (i : MInode) :
    (inodeFields n i).Pairwise fun f g => f.off + f.w ≤ g.off := by
  have htrans : IsTrans Field fun f g => f.off + f.w ≤ g.off := ⟨fun f g h hfg hgh => by omega⟩
  rw [← List.isChain_iff_pairwise]
  simp [inodeFields, List.range_succ]

theorem inodeFields_within {n : Nat} {i : MInode} {f : Field} (hf : f ∈ inodeFields n i) :
    256 * n ≤ f.off ∧ f.off + f.w ≤ 256 * n + 256 := by
  simp only [inodeFields, List.mem_append, List.mem_cons, List.not_mem_nil, or_false, List.mem_map,
    List.mem_range] at hf
  rcases hf with (rfl | rfl | rfl | rfl | rfl | rfl) | ⟨k, hk, rfl⟩ <;> constructor <;>
    dsimp only <;> omega

/-- The fields are in the ranges of their types. -/
structure InRange (i : MInode) : Prop where
  iMode : i.iMode < 2 ^ 16
  iUid : i.iUid < 2 ^ 16
  iSize : i.iSize < 2 ^ 32
  iMtime : i.iMtime < 2 ^ 32
  iGid : i.iGid < 2 ^ 8
  iNlinks : i.iNlinks < 2 ^ 8
  iZone : ∀ k, k < 9 → i.iZone k < 2 ^ 16

/-- The part of two inodes that is on the disk is the same. -/
structure SameRecord (i j : MInode) : Prop where
  iMode : i.iMode = j.iMode
  iUid : i.iUid = j.iUid
  iSize : i.iSize = j.iSize
  iMtime : i.iMtime = j.iMtime
  iGid : i.iGid = j.iGid
  iNlinks : i.iNlinks = j.iNlinks
  iZone : ∀ k, k < 9 → i.iZone k = j.iZone k

theorem readInodeAt_writeInodeAt {n : Nat} (hn : n < inodesPerBlock) {i : MInode} (hi : InRange i)
    (b : Block) (j : MInode) : SameRecord (readInodeAt (writeInodeAt b n i) n j) i := by
  have h32 : inodesPerBlock = 32 := rfl
  have hget {f : Field} (hf : f ∈ inodeFields n i) (hv : f.v < 2 ^ f.w) :
    getBits (writeInodeAt b n i) f.off f.w = f.v := by
    rw [writeInodeAt_eq, getBits_putFields (inodeFields_pairwise n i) (fun g hg => ?_) hf,
      Nat.mod_eq_of_lt hv]
    have hw := inodeFields_within hg
    omega
  refine ⟨hget (f := ⟨256 * n, 16, i.iMode⟩) ?_ hi.iMode,
    hget (f := ⟨256 * n + 16, 16, i.iUid⟩) ?_ hi.iUid,
    hget (f := ⟨256 * n + 32, 32, i.iSize⟩) ?_ hi.iSize,
    hget (f := ⟨256 * n + 64, 32, i.iMtime⟩) ?_ hi.iMtime,
    hget (f := ⟨256 * n + 96, 8, i.iGid⟩) ?_ hi.iGid,
    hget (f := ⟨256 * n + 104, 8, i.iNlinks⟩) ?_ hi.iNlinks, fun k hk => ?_⟩
  case refine_7 =>
    rw [readInodeAt]
    dsimp only
    rw [if_pos hk]
    refine hget (f := ⟨256 * n + 112 + 16 * k, 16, i.iZone k⟩)
      (List.mem_append_right _ ?_) (hi.iZone k hk)
    exact List.mem_map.mpr ⟨k, List.mem_range.mpr hk, rfl⟩
  all_goals simp [inodeFields]

def recordAt (b : Block) (n : Nat) : BitVec 256 := b.extractLsb' (256 * n) 256

theorem recordAt_writeInodeAt {n m : Nat} (hm : m < inodesPerBlock) (h : m ≠ n) (b : Block)
    (i : MInode) : recordAt (writeInodeAt b n i) m = recordAt b m := by
  have h32 : inodesPerBlock = 32 := rfl
  rw [recordAt, writeInodeAt_eq]
  refine extractLsb'_putFields (fun f hf => ?_) (by omega) b
  have hw := inodeFields_within hf
  omega

namespace Store

def ops : RecordOps Store (Nat × Nat) where
  inode i := fun s => some (s.inodeTable i, s)
  modifyInode i f :=
    fun s => some ((), { s with inodeTable := Function.update s.inodeTable i (f (s.inodeTable i)) })
  getSuper dev := fun s => (Zones.getSuper s.superBlock dev).map fun sb => (sb, s)
  bread dev block := fun s => some (some (dev, block), s)
  data bh := fun s => some (s.block bh.1 bh.2, s)
  setData bh f := fun s =>
    some ((), { s with
      block := Function.update s.block bh.1 (Function.update (s.block bh.1) bh.2
        (f (s.block bh.1 bh.2))) })
  brelse _ := pure ()

section

variable {s : Store} {i k a : Nat} {sb : SuperBlock} {m : MInode}

def setInode (i : Nat) (n : MInode) (s : Store) : Store :=
  { s with inodeTable := Function.update s.inodeTable i n }

def setBlock (dev z : Nat) (b : Block) (s : Store) : Store :=
  { s with block := Function.update s.block dev (Function.update (s.block dev) z b) }

theorem writeInode_eq (hsuper : Zones.getSuper s.superBlock (s.inodeTable i).iDev = some sb)
    (hlock : (s.inodeTable i).iLock = false) (hdirt : (s.inodeTable i).iDirt = true) :
    ops.writeInode i s =
      some ((), (s.setBlock (s.inodeTable i).iDev (inodeBlock sb (s.inodeTable i).iNum)
        (writeInodeAt (s.block (s.inodeTable i).iDev (inodeBlock sb (s.inodeTable i).iNum))
          (((s.inodeTable i).iNum - 1) % inodesPerBlock) (s.inodeTable i))).setInode i
            { s.inodeTable i with iDirt := false, iLock := false }) := by
  have hdev := Zones.getSuper_dev hsuper
  simp [RecordOps.writeInode, RecordOps.lockInode, RecordOps.waitOnInode, RecordOps.unlockInode,
    ops, Program.bind_eq, Program.pure_eq, hsuper, hlock, hdirt, hdev, setInode, setBlock]
  rfl

theorem readInode_eq (hsuper : Zones.getSuper s.superBlock (s.inodeTable i).iDev = some sb)
    (hlock : (s.inodeTable i).iLock = false) :
    ops.readInode i s = some ((), s.setInode i
      { readInodeAt (s.block (s.inodeTable i).iDev (inodeBlock sb (s.inodeTable i).iNum))
        (((s.inodeTable i).iNum - 1) % inodesPerBlock) (s.inodeTable i) with iLock := false }) := by
  simp [RecordOps.readInode, RecordOps.lockInode, RecordOps.waitOnInode, RecordOps.unlockInode, ops,
    Program.bind_eq, Program.pure_eq, hsuper, hlock, setInode]
  rfl

/-- The blocks of the inode table. -/
def InTable (sb : SuperBlock) (z : Nat) : Prop :=
  2 + sb.sImapBlocks + sb.sZmapBlocks ≤ z ∧ z ≤
    2 + sb.sImapBlocks + sb.sZmapBlocks + (sb.sNinodes - 1) / inodesPerBlock

def record (s : Store) (dev : Nat) (sb : SuperBlock) (num : Nat) : BitVec 256 :=
  recordAt (s.block dev (inodeBlock sb num)) ((num - 1) % inodesPerBlock)

theorem record_setBlock {dev b : Nat} (ha : 1 ≤ a) (hb : 1 ≤ b) (hab : b ≠ a) (s : Store)
    (n : MInode) :
    (s.setBlock dev (inodeBlock sb a) (writeInodeAt (s.block dev (inodeBlock sb a))
      ((a - 1) % inodesPerBlock) n)).record dev sb b = s.record dev sb b := by
  have h32 : inodesPerBlock = 32 := rfl
  simp only [record, setBlock, Function.update_self]
  by_cases hz : inodeBlock sb b = inodeBlock sb a
  · rw [hz, Function.update_self, recordAt_writeInodeAt (Nat.mod_lt _ (by decide))]
    unfold inodeBlock at hz
    rw [h32] at hz ⊢
    omega
  · rw [Function.update_of_ne hz]

/-- What `write_inode` writes, `read_inode` reads into any slot, and it writes nothing else. -/
theorem writeInode_roundTrip (hsuper : Zones.getSuper s.superBlock (s.inodeTable i).iDev = some sb)
    (hlock : (s.inodeTable i).iLock = false) (hdirt : (s.inodeTable i).iDirt = true)
    (hr : InRange (s.inodeTable i))
    (ha : 1 ≤ (s.inodeTable i).iNum) (ha' : (s.inodeTable i).iNum ≤ sb.sNinodes) :
    ∃ t, ops.writeInode i s = some ((), t) ∧
      (∀ k m, m.iDev = (s.inodeTable i).iDev → m.iNum = (s.inodeTable i).iNum → m.iLock = false →
        ∃ u, ops.readInode k (t.setInode k m) = some ((), u) ∧
          SameRecord (u.inodeTable k) (s.inodeTable i)) ∧
      (∀ b, 1 ≤ b → b ≤ sb.sNinodes → b ≠ (s.inodeTable i).iNum →
        t.record (s.inodeTable i).iDev sb b = s.record (s.inodeTable i).iDev sb b) ∧
      ∀ d z, ¬ (d = (s.inodeTable i).iDev ∧ InTable sb z) → t.block d z = s.block d z := by
  refine ⟨_, writeInode_eq hsuper hlock hdirt, fun k m hd hn hl => ?_,
    fun b hb _ hne => record_setBlock ha hb hne s _, fun d z hz => ?_⟩
  · refine ⟨_, @readInode_eq _ k sb ?_ ?_, ?_⟩
    · simpa [setInode, setBlock, hd] using hsuper
    · simpa [setInode] using hl
    · have hh := readInodeAt_writeInodeAt (Nat.mod_lt ((s.inodeTable i).iNum - 1) (by decide)) hr
        (s.block (s.inodeTable i).iDev (inodeBlock sb (s.inodeTable i).iNum)) m
      simp only [setInode, setBlock, Function.update_self, hd, hn]
      exact ⟨hh.iMode, hh.iUid, hh.iSize, hh.iMtime, hh.iGid, hh.iNlinks, hh.iZone⟩
  · simp only [setInode, setBlock]
    by_cases hd : d = (s.inodeTable i).iDev
    · rw [hd, Function.update_self, Function.update_of_ne]
      rintro rfl
      refine hz ⟨hd, Nat.le_add_right _ _, Nat.add_le_add_left (Nat.div_le_div_right ?_) _⟩
      omega
    · rw [Function.update_of_ne hd]

end

def oneBlock : Store where
  block _ _ := 0
  inodeTable i :=
    if i = 0 then { zeroInode with
      iMode := 0o100644, iSize := 70000, iDev := 0x301, iNum := 5, iDirt := true } else zeroInode
  superBlock _ := Zones.smallSuper 0

theorem writeInode_roundTrip_small : ∃ t, ops.writeInode 0 oneBlock = some ((), t) ∧
    (∀ k m, m.iDev = 0x301 → m.iNum = 5 → m.iLock = false →
      ∃ u, ops.readInode k (t.setInode k m) = some ((), u) ∧
        SameRecord (u.inodeTable k) (oneBlock.inodeTable 0)) ∧
    (∀ b, 1 ≤ b → b ≤ 8 → b ≠ 5 → t.record 0x301 (Zones.smallSuper 0) b =
      oneBlock.record 0x301 (Zones.smallSuper 0) b) ∧
    ∀ d z, ¬ (d = 0x301 ∧ InTable (Zones.smallSuper 0) z) → t.block d z = oneBlock.block d z :=
  @writeInode_roundTrip oneBlock 0 (Zones.smallSuper 0) rfl rfl rfl
    ⟨by decide, by decide, by decide, by decide, by decide, by decide,
      fun _ _ => Nat.two_pow_pos 16⟩ (by decide) (by decide)

end Store

end Fs

namespace Boot

open Fs

/-- The loader reads the block that the kernel reads, and returns a pointer to
the entry in it that the kernel copies. -/
def ReadsRecord (sb : SuperBlock) (block : Nat → Block) (ino : Nat) (m : Memory) : Prop :=
  getInode ⟨sb.sImapBlocks, sb.sZmapBlocks, block⟩ ino m =
    (Function.update m inodes (block (inodeBlock sb ino)), inodes, (ino - 1) % inodesPerBlock)

section

variable {sb : SuperBlock} {block : Nat → Block} {ino : Nat} {m : Memory}

/-- In front of the first entry of a block lies no entry of the block. -/
theorem not_readsRecord (h0 : ino % inodesPerBlock = 0) : ¬ ReadsRecord sb block ino m := by
  intro h
  unfold ReadsRecord getInode at h
  dsimp only at h
  rw [if_pos h0] at h
  have hat : inodes - 1 = inodes := congrArg (fun r => r.2.1) h
  exact absurd hat (by decide)

theorem readsRecord (h0 : ino % inodesPerBlock ≠ 0) : ReadsRecord sb block ino m := by
  have h32 : inodesPerBlock = 32 := rfl
  have hdiv : (ino - 1) / inodesPerBlock = ino / inodesPerBlock := by
    rw [h32] at h0 ⊢
    omega
  have hmod : (ino - 1) % inodesPerBlock = ino % inodesPerBlock - 1 := by
    rw [h32] at h0 ⊢
    omega
  unfold ReadsRecord getInode readBlock
  dsimp only
  rw [if_neg h0, inodeBlock, hdiv, hmod]

end

/-- The last inode of each block is looked for in front of the next block. -/
theorem readsRecord_iff (sb : SuperBlock) (block : Nat → Block) (ino : Nat) (m : Memory) :
    ReadsRecord sb block ino m ↔ ino % inodesPerBlock ≠ 0 :=
  ⟨fun h h0 => not_readsRecord h0 h, readsRecord⟩

theorem not_readsRecord_32 : ¬ ∀ (sb : SuperBlock) (block : Nat → Block) (ino : Nat) (m : Memory),
    1 ≤ ino → ino ≤ sb.sNinodes → ReadsRecord sb block ino m :=
  fun h => not_readsRecord rfl (h { Zones.smallSuper 0 with sNinodes := 64 } (fun _ => 0) 32
    (fun _ => 0) (by decide) (by decide))

end Boot

end Gpos
