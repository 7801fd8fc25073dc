import Gpos.Directory
import Gpos.Fork

/-! `mount_root`, `open_namei` and the system calls on files: `fs/super.c`,
`fs/namei.c`, `fs/open.c`, `fs/fcntl.c` and what `copy_process` does to the
counts. -/

namespace Gpos

/-- `NR_OPEN`, `NR_FILE` and `NR_TASKS` are the sizes of the arrays. -/
structure File where
  fMode : Nat
  fFlags : BitVec 16
  fCount : BitVec 16
  fInode : Option Nat
  fPos : Nat

structure Task where
  pid : Nat
  father : Int
  leader : Bool
  tty : Int
  umask : BitVec 32
  euid : Nat
  egid : Nat
  pwd : Option Nat
  root : Option Nat
  executable : Option Nat
  closeOnExec : BitVec 32
  filp : Fin 20 → Option (Fin 64)

namespace Fs

open Cache Zones

/-! `read_super` -/

def superMagic : Nat := 0x137F

def modifySuper (k : Nat) (f : SuperBlock → SuperBlock) : Program Fs Unit :=
  fun s => some ((), { s with superBlock := Function.update s.superBlock k (f (s.superBlock k)) })

def superAt (k : Nat) : Program Fs SuperBlock := fun s => some (s.superBlock k, s)

/-- The part of a super block that comes from the disk. -/
def readSuperAt (b : Block) (sb : SuperBlock) : SuperBlock :=
  { sb with
    sNinodes := getBits b 0 16
    sNzones := getBits b 16 16
    sImapBlocks := getBits b 32 16
    sZmapBlocks := getBits b 48 16
    sFirstdatazone := getBits b 64 16 }

/-- The slot of the table that is given up again. -/
def forgetSuper (k : Nat) : Program Fs (Option Nat) := do
  modifySuper k fun sb => { sb with sDev := 0 }
  return none

def setImap (k i : Nat) (bh : Option Nat) : Program Fs Unit :=
  modifySuper k fun sb => { sb with sImap := Function.update sb.sImap i bh }

def setZmap (k i : Nat) (bh : Option Nat) : Program Fs Unit :=
  modifySuper k fun sb => { sb with sZmap := Function.update sb.sZmap i bh }

/-- `brelse` of the buffers of a map. -/
def releaseSlots (map : Nat → Option Nat) : Nat → Program Fs Unit
  | 0 => pure ()
  | n + 1 => do
    releaseSlots map n
    match map n with
    | none => pure ()
    | some bh => brelse bh

/-- `b_data[0] |= 1` in the first block of a map. -/
def setFirst (map : Nat → Option Nat) : Program Fs Unit :=
  match map 0 with
  | none => failure
  | some bh => modifyBuf bh fun b => { b with bData := Bitmap.setBit 0 b.bData }

/-- The loop of `mount_root` over the bits of a map, which counts those that are clear. -/
def countFree (map : Nat → Option Nat) : Nat → Program Fs Nat
  | 0 => pure 0
  | i + 1 =>
    match map (i / 8192) with
    | none => failure
    | some bh => do
      let free ← countFree map i
      return if (← readBuf bh).bData.getLsbD (i % 8192) then free else free + 1

section

variable (disk : Cache.Disk)

/-- The loop that reads the blocks of a map, with `n` of them to go. There are eight slots. -/
def readMap (setSlot : Nat → Option Nat → Program Fs Unit) (dev : Nat) :
    Nat → Nat → Nat → Program Fs Nat
  | 0, _, block => pure block
  | n + 1, i, block => do
    if 8 ≤ i then failure
    else
      let x ← bread disk dev block
      setSlot i x
      if x.isSome then readMap setSlot dev n (i + 1) (block + 1) else return block

def readMaps (k dev : Nat) : Program Fs (Option Nat) := do
  modifySuper k fun sb => { sb with sImap := fun _ => none, sZmap := fun _ => none }
  let sb ← superAt k
  let block ← readMap disk (setImap k) dev sb.sImapBlocks 0 2
  let block ← readMap disk (setZmap k) dev sb.sZmapBlocks 0 block
  let sb ← superAt k
  if block ≠ 2 + sb.sImapBlocks + sb.sZmapBlocks then
    releaseSlots sb.sImap 8
    releaseSlots sb.sZmap 8
    forgetSuper k
  else
    setFirst sb.sImap
    setFirst sb.sZmap
    return some k

def slotOf (dev : Nat) : Program Fs (Option Nat) :=
  fun s => some ((List.range nrSuper).find? fun k => (s.superBlock k).sDev = dev, s)

/-- The slot of the super block. -/
def readSuper (dev : Nat) : Program Fs (Option Nat) := do
  if dev = 0 then return none
  else match ← slotOf dev with
  | some k => return some k
  | none =>
    match ← slotOf 0 with
    | none => return none
    | some k => do
      modifySuper k fun sb => { sb with sDev := dev, sIsup := none, sImount := none }
      match ← bread disk dev 1 with
      | none => forgetSuper k
      | some bh => do
        let b ← readBuf bh
        modifySuper k (readSuperAt b.bData)
        brelse bh
        if getBits b.bData 128 16 ≠ superMagic then forgetSuper k
        else readMaps disk k dev

/-! `open_namei` -/

def slash : BitVec 8 := 47

def oAccmode : BitVec 32 := 3

def oWronly : BitVec 32 := 1

def oCreat : BitVec 32 := 0o100

def oExcl : BitVec 32 := 0o200

def oTrunc : BitVec 32 := 0o1000

def iRegular : BitVec 32 := 0o100000

def eperm : Nat := 1

def enoent : Nat := 2

def eacces : Nat := 13

def eexist : Nat := 17

def eisdir : Nat := 21

def enospc : Nat := 28

def mayExec : Nat := 1

def mayWrite : Nat := 2

def accMode (flag : BitVec 32) : Nat := [4, 2, 6, 0o377].getD (flag &&& oAccmode).toNat 0

/-- Nothing is checked for now. -/
def permission (_ : MInode) (_mask : Nat) : Bool := true

/-- The names between the slashes. -/
def splitPath (path : Name) : List Name :=
  (if path.head? = some slash then path.tail else path).splitOn slash

/-- The loop of `get_dir`: `names` is what comes before the last slash. -/
def walk (root : Option Nat) (names : List Name) (i : Nat) : Program Fs (Option Nat) := do
  let n ← inode i
  if isDir n.iMode = false ∨ permission n mayExec = false then
    iput disk i
    return none
  else
    match names with
    | [] => return some i
    | name :: names => do
      let (i, e) ← findEntry disk root i name
      match e with
      | none =>
        iput disk i
        return none
      | some (bh, de) => do
        let inr := deInode (← readBuf bh).bData de
        let idev := (← inode i).iDev
        brelse bh
        iput disk i
        let i ← iget disk idev inr
        walk root names i

def getDir (t : Task) (path : Name) : Program Fs (Option Nat) := do
  match t.root, t.pwd with
  | some root, some pwd => do
    if (← inode root).iCount = 0 ∨ (← inode pwd).iCount = 0 then failure
    else if path = [] then return none
    else
      let i := if path.head? = some slash then root else pwd
      raiseCount i
      walk disk t.root (splitPath path).dropLast i
  | _, _ => failure

/-- The directory, and the last name of the path. -/
def dirNamei (t : Task) (path : Name) : Program Fs (Option (Nat × Name)) := do
  match ← getDir disk t path with
  | none => return none
  | some dir => return some (dir, (splitPath path).getLastD [])

/-- Puts the inodes and ends with an error. -/
def refuse (is : List Nat) (e : Nat) : Program Fs (Except Nat Nat) := do
  match is with
  | [] => return .error e
  | i :: is => do
    iput disk i
    refuse is e

/-- The part of `open_namei` for a name that is not there. -/
def openNew (t : Task) (dir : Nat) (name : Name) (flag mode : BitVec 32) :
    Program Fs (Except Nat Nat) := do
  if flag &&& oCreat = 0 then refuse disk [dir] enoent
  else
    let d ← inode dir
    if permission d mayWrite = false then refuse disk [dir] eacces
    else
      match ← newInode disk d.iDev ⟨t.euid, t.egid⟩ with
      | none => refuse disk [dir] enospc
      | some i => do
        modifyInode i fun n => { n with iUid := t.euid, iMode := mode.toNat, iDirt := true }
        match ← addEntry disk dir name with
        | none => do
          modifyInode i fun n => { n with iNlinks := (n.iNlinks + 255) % 256 }
          refuse disk [i, dir] enospc
        | some (bh, de) => do
          let n ← inode i
          modifyBuf bh fun b =>
            { b with bData := putBits b.bData (128 * de) 16 n.iNum, bDirt := true }
          brelse bh
          iput disk dir
          return .ok i

/-- The part of `open_namei` for the entry of a name. -/
def openFound (dir bh de : Nat) (flag : BitVec 32) : Program Fs (Except Nat Nat) := do
  let inr := deInode (← readBuf bh).bData de
  let dev := (← inode dir).iDev
  brelse bh
  iput disk dir
  if flag &&& oExcl ≠ 0 then refuse disk [] eexist
  else
    let i ← iget disk dev inr
    let n ← inode i
    if (isDir n.iMode ∧ flag &&& oAccmode ≠ 0) ∨
      permission n (accMode flag) = false then refuse disk [i] eperm
    else
      modifyInode i fun n => { n with iAtime := 0 }
      if flag &&& oTrunc ≠ 0 then
        truncate disk i
        return .ok i
      else return .ok i

/-- The inode that is opened, or an error number. -/
def openNamei (t : Task) (path : Name) (flag mode : BitVec 32) : Program Fs (Except Nat Nat) := do
  let flag := if flag &&& oTrunc ≠ 0 ∧ flag &&& oAccmode = 0 then flag ||| oWronly else flag
  let mode := mode &&& (0o777 &&& ~~~ t.umask) ||| iRegular
  match ← dirNamei disk t path with
  | none => return .error enoent
  | some (dir, name) => do
    if name.length = 0 then
      if flag &&& (oAccmode ||| oCreat ||| oTrunc) = 0 then return .ok dir
      else refuse disk [dir] eisdir
    else
      let (dir, e) ← findEntry disk t.root dir name
      match e with
      | none => openNew disk t dir name flag mode
      | some (bh, de) => openFound disk dir bh de flag

end

end Fs

/-- `callable` is the static variable of `sys_setup`. -/
structure Sys where
  fs : Fs
  fileTable : Fin 64 → File
  task : Fin 8 → Option Task
  lastPid : Nat
  callable : Bool

namespace Sys

open Fs

def einval : Nat := 22

def ebadf : Nat := 9

def emfile : Nat := 24

def onFs {α : Type} (x : Program Fs α) : Program Sys α :=
  fun s => (x s.fs).map fun r => (r.1, { s with fs := r.2 })

def modifyTask (k : Fin 8) (f : Task → Task) : Program Sys Unit :=
  fun s => some ((), { s with task := Function.update s.task k ((s.task k).map f) })

def modifyFile (i : Fin 64) (f : File → File) : Program Sys Unit :=
  fun s => some ((), { s with fileTable := Function.update s.fileTable i (f (s.fileTable i)) })

def current (k : Fin 8) : Program Sys Task := fun s => (s.task k).map fun t => (t, s)

def setFilp (k : Fin 8) (fd : Fin 20) (f : Option (Fin 64)) : Program Sys Unit :=
  modifyTask k fun t => { t with filp := Function.update t.filp fd f }

def clearCloseOnExec (k : Fin 8) (fd : Fin 20) : Program Sys Unit :=
  modifyTask k fun t => { t with closeOnExec := t.closeOnExec &&& ~~~ ((1 : BitVec 32) <<< fd.val) }

def freeFd (t : Task) : Option (Fin 20) := (List.finRange 20).find? fun fd => t.filp fd = none

def freeFile : Program Sys (Option (Fin 64)) :=
  fun s => some ((List.finRange 64).find? fun f => (s.fileTable f).fCount = 0, s)

def minor (a : Nat) : Nat := a % 256

/-- The error exits of `sys_open` after the file was taken. -/
def refuseOpen (k : Fin 8) (fd : Fin 20) (f : Fin 64) (e : Nat) : Program Sys Int := do
  setFilp k fd none
  modifyFile f fun file => { file with fCount := 0 }
  return -e

/-- The leader of a session that has no terminal takes this one. -/
def takeTty (k : Fin 8) (t : Task) (n : MInode) : Program Sys Unit :=
  if isChr n.iMode ∧ Cache.major (n.iZone 0) = 4 ∧ t.leader ∧ t.tty < 0 then
    modifyTask k fun t => { t with tty := minor (n.iZone 0) }
  else pure ()

section

variable (disk : Cache.Disk)

/-- The end of `sys_open`, with the inode that was opened. -/
def finishOpen (k : Fin 8) (fd : Fin 20) (f : Fin 64) (flag : BitVec 32) (i : Nat) :
    Program Sys Int := do
  let t ← current k
  let n ← onFs (inode i)
  if isChr n.iMode ∧ Cache.major (n.iZone 0) = 5 ∧ t.tty < 0 then
    onFs (iput disk i)
    refuseOpen k fd f eperm
  else
    takeTty k t n
    modifyFile f fun _ => ⟨n.iMode, flag.setWidth 16, 1, some i, 0⟩
    return (fd : Nat)

def sysOpen (k : Fin 8) (path : Name) (flag mode : BitVec 32) : Program Sys Int := do
  let t ← current k
  let mode := mode &&& (0o777 &&& ~~~ t.umask)
  match freeFd t with
  | none => return -einval
  | some fd => do
    clearCloseOnExec k fd
    match ← freeFile with
    | none => return -einval
    | some f => do
      setFilp k fd (some f)
      modifyFile f fun file => { file with fCount := file.fCount + 1 }
      match ← onFs (openNamei disk t path flag mode) with
      | .error e => refuseOpen k fd f e
      | .ok i => finishOpen disk k fd f flag i

/-- The file of a descriptor that may be any number. -/
def fileOf (t : Task) (fd : Nat) : Option (Fin 64) := if h : fd < 20 then t.filp ⟨fd, h⟩ else none

/-- `dupfd` with `arg` zero. -/
def sysDup (k : Fin 8) (fildes : Nat) : Program Sys Int := do
  let t ← current k
  match fileOf t fildes with
  | none => return -ebadf
  | some f =>
    match freeFd t with
    | none => return -emfile
    | some fd => do
      clearCloseOnExec k fd
      setFilp k fd (some f)
      modifyFile f fun file => { file with fCount := file.fCount + 1 }
      return (fd : Nat)

end

/-! `sys_fork`, with the memory left out -/

def pidTaken (s : Sys) (n : Nat) : Bool :=
  (List.finRange 8).any fun k => (s.task k).any fun t => t.pid = n

/-- `repeat` of `find_empty_process`, with the rounds it may still take. -/
def pickPid (s : Sys) : Nat → Nat → Option Nat
  | 0, _ => none
  | rounds + 1, lastPid =>
    if pidTaken s (Fork.nextPid lastPid) then pickPid s rounds (Fork.nextPid lastPid)
      else some (Fork.nextPid lastPid)

def findEmptyProcess : Program Sys (Option (Fin 8)) := fun s =>
  (pickPid s 9 s.lastPid).map fun n =>
    ((List.finRange 8).find? fun k => k.val ≠ 0 ∧ s.task k = none, { s with lastPid := n })

/-- The loop over `filp`. -/
def raiseFiles (filp : Fin 20 → Option (Fin 64)) : List (Fin 20) → Program Sys Unit
  | [] => pure ()
  | fd :: fds => do
    match filp fd with
    | none => pure ()
    | some f => modifyFile f fun file => { file with fCount := file.fCount + 1 }
    raiseFiles filp fds

def raiseInode (i : Option Nat) : Program Fs Unit :=
  match i with
  | none => pure ()
  | some i => raiseCount i

def copyProcess (nr k : Fin 8) : Program Sys Int := do
  let t ← current k
  let lastPid ← fun s => some (s.lastPid, s)
  fun s =>
    some ((), { s with
      task := Function.update s.task nr
        (some { t with pid := lastPid, father := t.pid, leader := false }) })
  raiseFiles t.filp (List.finRange 20)
  onFs (raiseInode t.pwd)
  onFs (raiseInode t.root)
  onFs (raiseInode t.executable)
  return lastPid

/-- `memory` says whether there is enough of it for the new task. -/
def sysFork (memory : Bool) (k : Fin 8) : Program Sys Int := do
  match ← findEmptyProcess with
  | none => return -Fork.eagain
  | some nr => if memory then copyProcess nr k else return -Fork.eagain

/-! `sys_setup` -/

section

variable (disk : Cache.Disk) (rootDev : Nat)

def mountRoot (k : Fin 8) : Program Sys Unit := do
  fun s => some ((), { s with fileTable := fun f => { s.fileTable f with fCount := 0 } })
  if Cache.major rootDev = 2 then failure
  else
    onFs fun s =>
      some ((), { s with
        superBlock := fun n => if n < Zones.nrSuper then { s.superBlock n with sDev := 0 }
          else s.superBlock n })
    match ← onFs (readSuper disk rootDev) with
    | none => failure
    | some p => do
      let mi ← onFs (iget disk rootDev rootIno)
      onFs (modifyInode mi fun n => { n with iCount := n.iCount + 3 })
      onFs (modifySuper p fun sb => { sb with sIsup := some mi, sImount := some mi })
      modifyTask k fun t => { t with pwd := some mi, root := some mi }
      let sb ← onFs (superAt p)
      let _ ← onFs (countFree sb.sZmap sb.sNzones)
      let _ ← onFs (countFree sb.sImap (sb.sNinodes + 1))

/-- Reads the partition tables of the drives. -/
def readDrives : Nat → Program Fs Unit
  | 0 => pure ()
  | n + 1 => do
    readDrives n
    match ← bread disk (0x300 + n * 5) 0 with
    | none => failure
    | some bh => do
      let b ← readBuf bh
      if getBits b.bData 4080 8 ≠ 0x55 ∨ getBits b.bData 4088 8 ≠ 0xAA then failure
      else brelse bh

/-- `nrHd` is the number of drives that the BIOS has found. -/
def sysSetup (nrHd : Nat) (k : Fin 8) : Program Sys Int := fun s =>
  if s.callable then
    (do
      fun s => some ((), { s with callable := false })
      onFs (readDrives disk nrHd)
      mountRoot disk rootDev k
      return 0 : Program Sys Int) s
  else some (-1, s)

/-! Runs of system calls -/

inductive Syscall
  | setup (nrHd : Nat)
  | open (path : Name) (flag mode : BitVec 32)
  | dup (fildes : Nat)
  | fork (memory : Bool)

def runSyscall (k : Fin 8) : Syscall → Program Sys Int
  | .setup nrHd => sysSetup disk rootDev nrHd k
  | .open path flag mode => sysOpen disk k path flag mode
  | .dup fildes => sysDup k fildes
  | .fork memory => sysFork memory k

def step (a : Fin 8 × Syscall) (s : Sys) : Option Sys :=
  if (s.task a.1).isSome then (runSyscall disk rootDev a.1 a.2 s).map Prod.snd else none

end

end Sys

end Gpos
