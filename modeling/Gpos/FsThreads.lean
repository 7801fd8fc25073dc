import Gpos.Open
import Gpos.Threads

/-! The functions of `fs/inode.c`, `fs/bitmap.c`, `fs/truncate.c` and `fs/namei.c` that may
sleep, as threads. A part goes at most from one place where the code may sleep to the next.
No super block is locked. -/

namespace Gpos.Sleeping

open Fs Cache

/-- What is read of the state. -/
def look {α : Type} (f : Fs → α) : Program Fs α := fun s => some (f s, s)

section

variable (disk : Cache.Disk) (rounds : Nat)

def writeInode (i : Nat) : Thread Fs Unit := do
  lockInode i
  let n ← inode i
  if n.iDirt = false ∨ n.iDev = 0 then unlockInode i
  else
    let sb ← getSuper n.iDev
    match ← bread disk n.iDev (inodeBlock sb n.iNum) with
    | none => (failure : Program Fs Unit)
    | some bh => do
      let n ← inode i
      modifyBuf bh fun b =>
        { b with bData := writeInodeAt b.bData ((n.iNum - 1) % inodesPerBlock) n, bDirt := true }
      modifyInode i fun n => { n with iDirt := false }
      brelse bh
      unlockInode i

/-- The end of `iget`, and `read_inode` up to `bread`. Nobody has locked the slot. -/
def openInode (i dev nr : Nat) : Program Fs (MInode × SuperBlock) := do
  modifyInode i fun n => { n with iDev := dev, iNum := nr }
  lockInode i
  let n ← inode i
  let sb ← getSuper n.iDev
  return (n, sb)

/-- `read_inode` from `bread` on. -/
def readInode (i : Nat) (n : MInode) (sb : SuperBlock) : Thread Fs Unit := do
  match ← bread disk n.iDev (inodeBlock sb n.iNum) with
  | none => (failure : Program Fs Unit)
  | some bh => do
    let b ← readBuf bh
    modifyInode i (readInodeAt b.bData ((n.iNum - 1) % inodesPerBlock))
    brelse bh
    unlockInode i

/-- `repeat` of `iput` up to `write_inode`, and whether it comes to it. -/
def putStep (i : Nat) : Program Fs Bool := do
  let n ← inode i
  if 1 < n.iCount then
    dropCount i
    return false
  else if n.iNlinks = 0 then
    freeInode i
    return false
  else if n.iDirt then return true
  else
    dropCount i
    return false

def putRound (i : Nat) : Nat → Thread Fs Unit
  | 0 => (failure : Program Fs Unit)
  | rounds + 1 => do
    if ← putStep i then
      writeInode disk i
      waitOnInode i
      putRound i rounds

def iput (i : Nat) : Thread Fs Unit := do
  waitOnInode i
  let n ← inode i
  if n.iCount = 0 then (failure : Program Fs Unit)
  else if n.iPipe then putPipe i
  else if n.iDev = 0 then dropCount i
  else putRound disk i rounds

/-- `while (inode->i_dirt)` in `get_empty_inode` -/
def flushLoop (i : Nat) : Nat → Thread Fs Unit
  | 0 => (failure : Program Fs Unit)
  | rounds + 1 => do
    if (← inode i).iDirt then
      writeInode disk i
      waitOnInode i
      flushLoop i rounds

/-- The end of `get_empty_inode`, and what its caller does before it may sleep again. -/
def takeStep {α : Type} (act : Nat → Program Fs α) (i : Nat) : Program Fs (Option α) := do
  if (← inode i).iCount = 0 then
    clearInode i
    modifyInode i fun n => { n with iCount := 1 }
    return some (← act i)
  else return none

/-- The outer loop of `get_empty_inode`. -/
def emptyLoop {α : Type} (act : Nat → Program Fs α) : Nat → Thread Fs α
  | 0 => (failure : Program Fs α)
  | n + 1 => do
    match ← pickInode with
    | none => (failure : Program Fs α)
    | some i => do
      waitOnInode i
      flushLoop disk i rounds
      match ← takeStep act i with
      | none => emptyLoop act n
      | some a => return a

def getEmptyInode {α : Type} (act : Nat → Program Fs α) : Thread Fs α :=
  emptyLoop disk rounds act rounds

/-- The slot that `iget` has found, if it still holds the inode. -/
def holdInode (i dev nr : Nat) : Program Fs Bool := do
  waitOnInode i
  let n ← inode i
  if n.iDev = dev ∧ n.iNum = nr then
    raiseCount i
    return true
  else return false

def igetLoop (empty : Nat) : Nat → Nat → Nat → Thread Fs Nat
  | 0, _, _ => (failure : Program Fs Nat)
  | n + 1, dev, nr => do
    match ← look fun s => findSlot s.inodeTable dev nr with
    | none =>
      let r ← openInode empty dev nr
      readInode disk empty r.1 r.2
      return empty
    | some i => do
      if ← holdInode i dev nr then
        if (← inode i).iMount then
          match ← look fun s => (List.range Zones.nrSuper).find? fun k =>
              (s.superBlock k).sImount = some i with
          | none =>
            iput disk rounds empty
            return i
          | some k => do
            iput disk rounds i
            let sb ← superAt k
            igetLoop empty n sb.sDev rootIno
        else
          iput disk rounds empty
          return i
      else igetLoop empty n dev nr

def iget (dev nr : Nat) : Thread Fs Nat := do
  if dev = 0 then (failure : Program Fs Nat)
  else
    let empty ← getEmptyInode disk rounds fun i => pure i
    igetLoop disk rounds empty rounds dev nr

/-- `new_inode` behind `get_empty_inode`, and whether there was a clear bit. -/
def claimInode (dev : Nat) (creds : Creds) (i : Nat) : Program Fs (Nat × Bool) := do
  let sb ← getSuper dev
  match ← look fun s => Zones.searchMap sb.sImap s.cache 8 0 with
  | none => return (i, false)
  | some (k, bh, j) => do
    if sb.sNinodes < j + k * 8192 then return (i, false)
    else
      let b ← readBuf bh
      if b.bData.getLsbD j then failure
      else
        modifyBuf bh fun b => { b with bData := Bitmap.setBit j b.bData, bDirt := true }
        nameInode i dev (j + k * 8192) creds
        return (i, true)

def newInode (dev : Nat) (creds : Creds) : Thread Fs (Option Nat) := do
  let r ← getEmptyInode disk rounds (claimInode dev creds)
  if r.2 then return some r.1
  else
    iput disk rounds r.1
    return none

/-! `_bmap` -/

def zoneOrNew (create : Bool) (i k : Nat) : Thread Fs Nat := do
  let z := (← inode i).iZone k
  if create ∧ z = 0 then
    let n ← inode i
    let z ← newBlock n.iDev
    if z ≠ 0 then
      modifyInode i fun n =>
        { n with iZone := Function.update n.iZone k z, iDirt := true, iCtime := 0 }
    return z
  else return z

def entryOrNew (create : Bool) (i z k : Nat) : Thread Fs Nat := do
  if z = 0 then return 0
  else
    let n ← inode i
    match ← bread disk n.iDev z with
    | none => return 0
    | some bh => do
      let e := getBits (← readBuf bh).bData (16 * k) 16
      if create ∧ e = 0 then
        let n ← inode i
        let e ← newBlock n.iDev
        if e ≠ 0 then
          modifyBuf bh fun b => { b with bData := putBits b.bData (16 * k) 16 e, bDirt := true }
        brelse bh
        return e
      else
        brelse bh
        return e

def bmapCreate (create : Bool) (i block : Nat) : Thread Fs Nat := do
  if BlockMap.maxBlocks ≤ block then (failure : Program Fs Nat)
  else if block < 7 then zoneOrNew create i block
  else if block - 7 < 512 then
    let z ← zoneOrNew create i 7
    entryOrNew disk create i z (block - 7)
  else
    let block := block - 7 - 512
    let z ← zoneOrNew create i 8
    let e ← entryOrNew disk create i z (block / 512)
    entryOrNew disk create i e (block % 512)

/-! `truncate` -/

def freeEntries (free : Nat → Thread Fs Unit) (bh : Nat) : Nat → Thread Fs Unit
  | 0 => pure ()
  | n + 1 => do
    freeEntries free bh n
    let z := getBits (← readBuf bh).bData (16 * n) 16
    if z ≠ 0 then free z

def freeIndex (free : Nat → Nat → Thread Fs Unit) (dev block : Nat) : Thread Fs Unit := do
  if block ≠ 0 then
    match ← bread disk dev block with
    | none => pure ()
    | some bh => do
      freeEntries (free dev) bh 512
      brelse bh
    freeBlock dev block

def freeInd (dev block : Nat) : Thread Fs Unit :=
  freeIndex disk (fun dev z => liftM (freeBlock dev z)) dev block

def freeDind (dev block : Nat) : Thread Fs Unit := freeIndex disk (freeInd disk) dev block

def freeDirect (i : Nat) : Nat → Thread Fs Unit
  | 0 => pure ()
  | k + 1 => do
    freeDirect i k
    let n ← inode i
    if n.iZone k ≠ 0 then
      freeBlock n.iDev (n.iZone k)
      modifyInode i fun n => { n with iZone := Function.update n.iZone k 0 }

def truncate (i : Nat) : Thread Fs Unit := do
  let n ← inode i
  if isReg n.iMode ∨ isDir n.iMode then
    freeDirect i 7
    let n ← inode i
    freeInd disk n.iDev (n.iZone 7)
    let n ← inode i
    freeDind disk n.iDev (n.iZone 8)
    modifyInode i fun n =>
      { n with
        iZone := Function.update (Function.update n.iZone 8 0) 7 0
        iSize := 0, iDirt := true, iMtime := 0, iCtime := 0 }

/-! The directories -/

def nextBlock (dir block : Nat) : Thread Fs (Option Nat) := do
  if block = 0 then return none
  else
    let n ← inode dir
    bread disk n.iDev block

def scanDir (dir len : Nat) (name : Name) (entries : Nat) :
    Nat → Nat → Nat → Nat → Thread Fs (Option (Nat × Nat))
  | 0, _, _, _ => (failure : Program Fs (Option (Nat × Nat)))
  | n + 1, bh, de, i => do
    if entries ≤ i then
      brelse bh
      return none
    else if de < dirEntriesPerBlock then
      let b ← readBuf bh
      if matchEntry len name b.bData de then return some (bh, de)
      else scanDir dir len name entries n bh (de + 1) (i + 1)
    else
      brelse bh
      let block ← bmapCreate disk false dir (i / dirEntriesPerBlock)
      match ← nextBlock disk dir block with
      | none =>
        if entries ≤ i + dirEntriesPerBlock then return none
        else (failure : Program Fs (Option (Nat × Nat)))
      | some bh => do
        let b ← readBuf bh
        if matchEntry len name b.bData 0 then return some (bh, 0)
        else scanDir dir len name entries n bh 1 (i + 1)

def upwards (root : Option Nat) (dir len : Nat) (name : Name) : Thread Fs (Nat × Nat) := do
  if len = 2 ∧ name.getD 0 0 = dot ∧ name.getD 1 0 = dot then
    if root = some dir then return (dir, 1)
    else
      let n ← inode dir
      if n.iNum = rootIno then
        let sb ← getSuper n.iDev
        match sb.sImount with
        | none => return (dir, len)
        | some mounted => do
          iput disk rounds dir
          raiseCount mounted
          return (mounted, len)
      else return (dir, len)
  else return (dir, len)

def findEntry (root : Option Nat) (dir : Nat) (name : Name) :
    Thread Fs (Nat × Option (Nat × Nat)) := do
  let len := min name.length nameLen
  let entries := (← inode dir).iSize / 16
  if len = 0 then return (dir, none)
  else
    let r ← upwards disk rounds root dir len name
    let n ← inode r.1
    if n.iZone 0 = 0 then return (r.1, none)
    else match ← bread disk n.iDev (n.iZone 0) with
    | none => return (r.1, none)
    | some bh => do
      let e ← scanDir disk r.1 r.2 name entries (entries + 1) bh 0 0
      return (r.1, e)

def scanFree (dir len : Nat) (name : Name) :
    Nat → Nat → Nat → Nat → Thread Fs (Option (Nat × Nat))
  | 0, _, _, _ => (failure : Program Fs (Option (Nat × Nat)))
  | n + 1, bh, de, i => do
    if de < dirEntriesPerBlock then
      if ← claimEntry dir len name bh de i then return some (bh, de)
      else scanFree dir len name n bh (de + 1) (i + 1)
    else
      brelse bh
      let block ← bmapCreate disk true dir (i / dirEntriesPerBlock)
      if block = 0 then return none
      else
        let m ← inode dir
        match ← bread disk m.iDev block with
        | none => (failure : Program Fs (Option (Nat × Nat)))
        | some bh => do
          if ← claimEntry dir len name bh 0 i then return some (bh, 0)
          else scanFree dir len name n bh 1 (i + 1)

/-- The directory may grow meanwhile, so that the entries do not bound the rounds. -/
def addEntry (dir : Nat) (name : Name) : Thread Fs (Option (Nat × Nat)) := do
  let len := min name.length nameLen
  if len = 0 then return none
  else
    let n ← inode dir
    if n.iZone 0 = 0 then return none
    else match ← bread disk n.iDev (n.iZone 0) with
    | none => return none
    | some bh => scanFree disk dir len name (n.iSize / 16 + 2 + rounds) bh 0 0

/-! `open_namei` -/

def walk (root : Option Nat) : List Name → Nat → Thread Fs (Option Nat)
  | [], i => do
    let n ← inode i
    if isDir n.iMode = false ∨ permission n mayExec = false then
      iput disk rounds i
      return none
    else return some i
  | name :: names, i => do
    let n ← inode i
    if isDir n.iMode = false ∨ permission n mayExec = false then
      iput disk rounds i
      return none
    else
      let r ← findEntry disk rounds root i name
      match r.2 with
      | none =>
        iput disk rounds r.1
        return none
      | some e => do
        let b ← readBuf e.1
        let n ← inode r.1
        brelse e.1
        iput disk rounds r.1
        let i ← iget disk rounds n.iDev (deInode b.bData e.2)
        walk root names i

/-- The start of `get_dir`. -/
def startDir (root pwd : Nat) (path : Name) : Program Fs (Option Nat) := do
  if (← inode root).iCount = 0 ∨ (← inode pwd).iCount = 0 then failure
  else if path = [] then return none
  else
    let i := if path.head? = some slash then root else pwd
    raiseCount i
    return some i

def getDir (t : Task) (path : Name) : Thread Fs (Option Nat) := do
  match t.root, t.pwd with
  | some root, some pwd => do
    match ← startDir root pwd path with
    | none => return none
    | some i => walk disk rounds t.root (splitPath path).dropLast i
  | _, _ => (failure : Program Fs (Option Nat))

def refuse (is : List Nat) (e : Nat) : Thread Fs (Except Nat Nat) := do
  match is with
  | [] => return .error e
  | i :: is => do
    iput disk rounds i
    refuse is e

def openNew (t : Task) (dir : Nat) (name : Name) (flag mode : BitVec 32) :
    Thread Fs (Except Nat Nat) := do
  if flag &&& oCreat = 0 then refuse disk rounds [dir] enoent
  else
    let d ← inode dir
    if permission d mayWrite = false then refuse disk rounds [dir] eacces
    else
      match ← newInode disk rounds d.iDev ⟨t.euid, t.egid⟩ with
      | none => refuse disk rounds [dir] enospc
      | some i => do
        modifyInode i fun n => { n with iUid := t.euid, iMode := mode.toNat, iDirt := true }
        match ← addEntry disk rounds dir name with
        | none => do
          modifyInode i fun n => { n with iNlinks := (n.iNlinks + 255) % 256 }
          refuse disk rounds [i, dir] enospc
        | some e => do
          let n ← inode i
          modifyBuf e.1 fun b =>
            { b with bData := putBits b.bData (128 * e.2) 16 n.iNum, bDirt := true }
          brelse e.1
          iput disk rounds dir
          return .ok i

def openFound (dir bh de : Nat) (flag : BitVec 32) : Thread Fs (Except Nat Nat) := do
  let b ← readBuf bh
  let d ← inode dir
  brelse bh
  iput disk rounds dir
  if flag &&& oExcl ≠ 0 then refuse disk rounds [] eexist
  else
    let i ← iget disk rounds d.iDev (deInode b.bData de)
    let n ← inode i
    if (isDir n.iMode ∧ flag &&& oAccmode ≠ 0) ∨
      permission n (accMode flag) = false then refuse disk rounds [i] eperm
    else
      modifyInode i fun n => { n with iAtime := 0 }
      if flag &&& oTrunc ≠ 0 then
        truncate disk i
        return .ok i
      else return .ok i

def openNamei (t : Task) (path : Name) (flag mode : BitVec 32) : Thread Fs (Except Nat Nat) := do
  let flag := if flag &&& oTrunc ≠ 0 ∧ flag &&& oAccmode = 0 then flag ||| oWronly else flag
  let mode := mode &&& (0o777 &&& ~~~ t.umask) ||| iRegular
  let name := (splitPath path).getLastD []
  match ← getDir disk rounds t path with
  | none => return .error enoent
  | some dir => do
    if name.length = 0 then
      if flag &&& (oAccmode ||| oCreat ||| oTrunc) = 0 then return .ok dir
      else refuse disk rounds [dir] eisdir
    else
      let r ← findEntry disk rounds t.root dir name
      match r.2 with
      | none => openNew disk rounds t r.1 name flag mode
      | some e => openFound disk rounds r.1 e.1 e.2 flag

end

end Gpos.Sleeping
