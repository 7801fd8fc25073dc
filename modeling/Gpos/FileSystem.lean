import Gpos.BlockMap
import Gpos.ZoneMap

/-! The functions of `fs/inode.c`, `fs/bitmap.c` and `fs/truncate.c` on the
buffer cache, as one task runs them from start to end. A program without an
outcome has panicked, gone through a null pointer or waits without an end. -/

namespace Gpos

/-- The fields from `iMode` to `iZone` are those of `struct d_inode`. -/
structure MInode where
  iMode : Nat
  iUid : Nat
  iSize : Nat
  iMtime : Nat
  iGid : Nat
  iNlinks : Nat
  iZone : Nat → Nat
  iAtime : Nat
  iCtime : Nat
  iDev : Nat
  iNum : Nat
  iCount : BitVec 16
  iLock : Bool
  iDirt : Bool
  iPipe : Bool
  iMount : Bool

/-- `stuck` records the buffers that `free_block` has left a reference on. -/
structure Fs where
  cache : Cache
  inodeTable : Nat → MInode
  lastInode : Nat
  superBlock : Nat → SuperBlock
  stuck : List Nat

namespace Fs

open Cache BlockMap Zones

def nrInode : Nat := 32

def inodesPerBlock : Nat := 32

def noDisk : Cache.Disk := ⟨fun _ => false, fun _ _ => false, fun _ _ => 0⟩

def zeroInode : MInode := ⟨0, 0, 0, 0, 0, 0, fun _ => 0, 0, 0, 0, 0, 0, false, false, false, false⟩

def isDir (mode : Nat) : Bool := mode &&& 0o170000 == 0o040000

def isReg (mode : Nat) : Bool := mode &&& 0o170000 == 0o100000

def isChr (mode : Nat) : Bool := mode &&& 0o170000 == 0o020000

/-! Counts of 16 bits. -/

theorem toNat_raise {c : BitVec 16} (h : c ≠ BitVec.allOnes 16) : (c + 1).toNat = c.toNat + 1 := by
  have hlt := c.isLt
  have hne : c.toNat ≠ 65535 := fun he => h (BitVec.eq_of_toNat_eq he)
  bv_omega

theorem toNat_drop {c : BitVec 16} {n : Nat} (h : c.toNat = n + 1) : (c - 1).toNat = n := by
  have hlt := c.isLt
  bv_omega

/-! The bytes of a block. -/

def getBits (b : Block) (off w : Nat) : Nat := (b.extractLsb' off w).toNat

def putBits (b : Block) (off w v : Nat) : Block :=
  (b &&& ~~~ ((BitVec.allOnes w).setWidth 8192 <<< off)) |||
    ((BitVec.ofNat w v).setWidth 8192 <<< off)

/-- The part of an inode that `read_inode` copies from entry `n` of a block. -/
def readInodeAt (b : Block) (n : Nat) (i : MInode) : MInode :=
  { i with
    iMode := getBits b (256 * n) 16
    iUid := getBits b (256 * n + 16) 16
    iSize := getBits b (256 * n + 32) 32
    iMtime := getBits b (256 * n + 64) 32
    iGid := getBits b (256 * n + 96) 8
    iNlinks := getBits b (256 * n + 104) 8
    iZone := fun k => if k < 9 then getBits b (256 * n + 112 + 16 * k) 16 else i.iZone k }

def writeInodeAt (b : Block) (n : Nat) (i : MInode) : Block :=
  let b := putBits b (256 * n) 16 i.iMode
  let b := putBits b (256 * n + 16) 16 i.iUid
  let b := putBits b (256 * n + 32) 32 i.iSize
  let b := putBits b (256 * n + 64) 32 i.iMtime
  let b := putBits b (256 * n + 96) 8 i.iGid
  let b := putBits b (256 * n + 104) 8 i.iNlinks
  (List.range 9).foldl (fun b k => putBits b (256 * n + 112 + 16 * k) 16 (i.iZone k)) b

/-! Access to the state. -/

def onCache {α : Type} (f : Cache → Option (α × Cache)) : Program Fs α :=
  fun s => (f s.cache).map fun r => (r.1, { s with cache := r.2 })

def modifyBuf (bh : Nat) (f : BufferHead → BufferHead) : Program Fs Unit :=
  onCache fun c => some ((), c.modify bh f)

def readBuf (bh : Nat) : Program Fs BufferHead := fun s => some (s.cache.buf bh, s)

def inode (i : Nat) : Program Fs MInode := fun s => some (s.inodeTable i, s)

def modifyInode (i : Nat) (f : MInode → MInode) : Program Fs Unit :=
  fun s => some ((), { s with inodeTable := Function.update s.inodeTable i (f (s.inodeTable i)) })

def bread (disk : Cache.Disk) (dev block : Nat) : Program Fs (Option Nat) :=
  onCache (Cache.bread disk dev block)

def brelse (bh : Nat) : Program Fs Unit := onCache fun c => (c.brelse bh).map fun c => ((), c)

/-- `get_super`; the callers panic without a super block. -/
def getSuper (dev : Nat) : Program Fs SuperBlock :=
  fun s => (Zones.getSuper s.superBlock dev).map fun sb => (sb, s)

def newBlock (dev : Nat) : Program Fs Nat := fun s => onCache (Zones.newBlock s.superBlock dev) s

/-- The buffer of a block that somebody else holds, too. -/
def inUse (dev block : Nat) (c : Cache) : Option Nat :=
  (c.getHashTable dev block).bind fun r => r.1.filter fun bh => (r.2.buf bh).bCount ≠ 1

def freeBlock (dev block : Nat) : Program Fs Unit := fun s =>
  (Zones.freeBlock s.superBlock dev block s.cache).map fun c =>
    ((), { s with cache := c, stuck := (inUse dev block s.cache).toList ++ s.stuck })

def waitOnInode (i : Nat) : Program Fs Unit := do
  if (← inode i).iLock then failure

def lockInode (i : Nat) : Program Fs Unit := do
  waitOnInode i
  modifyInode i fun n => { n with iLock := true }

def unlockInode (i : Nat) : Program Fs Unit := modifyInode i fun n => { n with iLock := false }

def inodeBlock (sb : SuperBlock) (num : Nat) : Nat :=
  2 + sb.sImapBlocks + sb.sZmapBlocks + (num - 1) / inodesPerBlock

section

variable (disk : Cache.Disk)

def readInode (i : Nat) : Program Fs Unit := do
  lockInode i
  let n ← inode i
  let sb ← getSuper n.iDev
  match ← bread disk n.iDev (inodeBlock sb n.iNum) with
  | none => failure
  | some bh => do
    let b ← readBuf bh
    modifyInode i (readInodeAt b.bData ((n.iNum - 1) % inodesPerBlock))
    brelse bh
    unlockInode i

def writeInode (i : Nat) : Program Fs Unit := do
  lockInode i
  let n ← inode i
  if n.iDirt = false ∨ n.iDev = 0 then unlockInode i
  else
    let sb ← getSuper n.iDev
    match ← bread disk n.iDev (inodeBlock sb n.iNum) with
    | none => failure
    | some bh => do
      modifyBuf bh fun b =>
        { b with bData := writeInodeAt b.bData ((n.iNum - 1) % inodesPerBlock) n, bDirt := true }
      modifyInode i fun n => { n with iDirt := false }
      brelse bh
      unlockInode i

def clearInode (i : Nat) : Program Fs Unit := modifyInode i fun _ => zeroInode

/-- A clear bit is reported, but it is no panic. -/
def freeInode (i : Nat) : Program Fs Unit := do
  let n ← inode i
  if n.iDev = 0 then clearInode i
  else if 1 < n.iCount then failure
  else if n.iNlinks ≠ 0 then failure
  else
    let sb ← getSuper n.iDev
    if n.iNum < 1 ∨ sb.sNinodes < n.iNum then failure
    else match sb.sImap (n.iNum / 8192) with
    | none => failure
    | some bh => do
      modifyBuf bh fun b =>
        { b with bData := Bitmap.clearBit (n.iNum % 8192) b.bData, bDirt := true }
      clearInode i

def dropCount (i : Nat) : Program Fs Unit :=
  modifyInode i fun n => { n with iCount := n.iCount - 1 }

def raiseCount (i : Nat) : Program Fs Unit :=
  modifyInode i fun n => { n with iCount := n.iCount + 1 }

/-- `repeat` of `iput`. The inode is clean after `write_inode`, so that two rounds are enough. -/
def putRound (i : Nat) : Nat → Program Fs Unit
  | 0 => failure
  | rounds + 1 => do
    let n ← inode i
    if 1 < n.iCount then dropCount i
    else if n.iNlinks = 0 then freeInode i
    else if n.iDirt then
      writeInode disk i
      waitOnInode i
      putRound i rounds
    else dropCount i

/-- The page of a pipe is not part of the state. -/
def putPipe (i : Nat) : Program Fs Unit := do
  dropCount i
  if (← inode i).iCount = 0 then modifyInode i fun n => { n with iDirt := false, iPipe := false }

def iput (i : Nat) : Program Fs Unit := do
  waitOnInode i
  let n ← inode i
  if n.iCount = 0 then failure
  else if n.iPipe then putPipe i
  else if n.iDev = 0 then dropCount i
  else putRound disk i 2

/-- The `for` loop of `get_empty_inode`, with `last_inode` and the best slot so far. -/
def scanInodes (table : Nat → MInode) : Nat → Nat → Option Nat → Nat × Option Nat
  | 0, last, best => (last, best)
  | n + 1, last, best =>
    let last := if nrInode ≤ last + 1 then 0 else last + 1
    if (table last).iCount = 0 then
      if (table last).iDirt = false ∧ (table last).iLock = false then (last, some last)
      else scanInodes table n last (some last)
    else scanInodes table n last best

def pickInode : Program Fs (Option Nat) := fun s =>
  let r := scanInodes s.inodeTable nrInode s.lastInode none
  some (r.2, { s with lastInode := r.1 })

/-- A slot that stays dirty is written back for ever. -/
def flushInode (i : Nat) : Program Fs Unit := do
  if (← inode i).iDirt then
    writeInode disk i
    waitOnInode i
    if (← inode i).iDirt then failure

/-- Nobody raises the count of the slot while it is written back, so that the
outer loop of `get_empty_inode` ends here. -/
def takeInode (i : Nat) : Program Fs Nat := do
  if (← inode i).iCount = 0 then
    clearInode i
    modifyInode i fun n => { n with iCount := 1 }
    return i
  else failure

def getEmptyInode : Program Fs Nat := do
  match ← pickInode with
  | none => failure
  | some i => do
    waitOnInode i
    flushInode disk i
    takeInode i

def rootIno : Nat := 1

/-- The search of `iget` for the slot of an inode. -/
def findSlot (table : Nat → MInode) (dev nr : Nat) : Option Nat :=
  (List.range nrInode).find? fun i => (table i).iDev = dev ∧ (table i).iNum = nr

/-- The super block that is mounted on an inode. -/
def mountedOn (sbs : Nat → SuperBlock) (i : Nat) : Option SuperBlock :=
  ((List.range nrSuper).find? fun k => (sbs k).sImount = some i).map sbs

/-- The `while` loop of `iget`; it starts again behind a mount point. -/
def igetLoop (empty : Nat) : Nat → Nat → Nat → Program Fs Nat
  | 0, _, _ => failure
  | rounds + 1, dev, nr => do
    let slot ← fun s => some (findSlot s.inodeTable dev nr, s)
    match slot with
    | none =>
      modifyInode empty fun n => { n with iDev := dev, iNum := nr }
      readInode disk empty
      return empty
    | some i => do
      waitOnInode i
      raiseCount i
      if (← inode i).iMount then
        let sb ← fun s => some (mountedOn s.superBlock i, s)
        match sb with
        | none =>
          iput disk empty
          return i
        | some sb => do
          iput disk i
          igetLoop empty rounds sb.sDev rootIno
      else
        iput disk empty
        return i

def iget (dev nr : Nat) : Program Fs Nat := do
  if dev = 0 then failure
  else
    let empty ← getEmptyInode disk
    igetLoop disk empty (nrSuper + 1) dev nr

/-- The user and the group of the task that calls. -/
structure Creds where
  euid : Nat
  egid : Nat

/-- The end of `new_inode`. -/
def nameInode (i dev num : Nat) (creds : Creds) : Program Fs Unit :=
  modifyInode i fun n =>
    { n with
      iCount := 1, iNlinks := 1, iDev := dev, iUid := creds.euid, iGid := creds.egid,
        iDirt := true, iNum := num
      iMtime := 0, iAtime := 0, iCtime := 0 }

/-- Without a clear bit the slot is given back. -/
def newInode (dev : Nat) (creds : Creds) : Program Fs (Option Nat) := do
  let i ← getEmptyInode disk
  let sb ← getSuper dev
  let found ← fun s => some (searchMap sb.sImap s.cache 8 0, s)
  match found with
  | none =>
    iput disk i
    return none
  | some (k, bh, j) => do
    if sb.sNinodes < j + k * 8192 then
      iput disk i
      return none
    else
      let b ← readBuf bh
      if b.bData.getLsbD j then failure
      else
        modifyBuf bh fun b => { b with bData := Bitmap.setBit j b.bData, bDirt := true }
        nameInode i dev (j + k * 8192) creds
        return some i

def ops : Ops Fs where
  iDev i := do return (← inode i).iDev
  iZone i k := do return (← inode i).iZone k
  setZone i k v :=
    modifyInode i fun n =>
      { n with iZone := Function.update n.iZone k v, iDirt := true, iCtime := 0 }
  newBlock := newBlock
  bread := bread disk
  entry bh j := do return getBits (← readBuf bh).bData (16 * j) 16
  setEntry bh j v :=
    modifyBuf bh fun b => { b with bData := putBits b.bData (16 * j) 16 v, bDirt := true }
  brelse := brelse

def bmap (i block : Nat) : Program Fs Nat := BlockMap.bmap (ops disk) i block

def createBlock (i block : Nat) : Program Fs Nat := BlockMap.createBlock (ops disk) i block

/-- The loop over the entries of an index block, which are read as it comes to them. -/
def freeEntries (free : Nat → Program Fs Unit) (bh : Nat) : Nat → Program Fs Unit
  | 0 => pure ()
  | n + 1 => do
    freeEntries free bh n
    let z := getBits (← readBuf bh).bData (16 * n) 16
    if z ≠ 0 then free z

def freeListed (free : Nat → Program Fs Unit) (dev block : Nat) : Program Fs Unit := do
  match ← bread disk dev block with
  | none => pure ()
  | some bh => do
    freeEntries free bh 512
    brelse bh

/-- `free_ind` and `free_dind`, which differ in what they do with an entry. -/
def freeIndex (free : Nat → Nat → Program Fs Unit) (dev block : Nat) : Program Fs Unit := do
  if block ≠ 0 then
    freeListed disk (free dev) dev block
    freeBlock dev block

def freeInd (dev block : Nat) : Program Fs Unit := freeIndex disk freeBlock dev block

def freeDind (dev block : Nat) : Program Fs Unit := freeIndex disk (freeInd disk) dev block

/-- The loop over the direct zones. -/
def freeDirect (i : Nat) : Nat → Program Fs Unit
  | 0 => pure ()
  | k + 1 => do
    freeDirect i k
    let n ← inode i
    if n.iZone k ≠ 0 then
      freeBlock n.iDev (n.iZone k)
      modifyInode i fun n => { n with iZone := Function.update n.iZone k 0 }

def truncate (i : Nat) : Program Fs Unit := do
  let n ← inode i
  if isReg n.iMode ∨ isDir n.iMode then
    freeDirect i 7
    freeInd disk n.iDev ((← inode i).iZone 7)
    freeDind disk n.iDev ((← inode i).iZone 8)
    modifyInode i fun n =>
      { n with
        iZone := Function.update (Function.update n.iZone 8 0) 7 0
        iSize := 0, iDirt := true, iMtime := 0, iCtime := 0 }

end

end Fs

end Gpos
