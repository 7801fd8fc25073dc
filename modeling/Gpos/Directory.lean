import Gpos.FileSystem

/-! The searches of `fs/namei.c` in a directory. -/

namespace Gpos.Fs

open Cache

def nameLen : Nat := 14

def dirEntriesPerBlock : Nat := 64

theorem div_dirEntriesPerBlock {k de : Nat} (h : de < dirEntriesPerBlock) :
    (dirEntriesPerBlock * k + de) / dirEntriesPerBlock = k := by
  rw [Nat.mul_add_div (by decide), Nat.div_eq_of_lt h, Nat.add_zero]

theorem mod_dirEntriesPerBlock {k de : Nat} (h : de < dirEntriesPerBlock) :
    (dirEntriesPerBlock * k + de) % dirEntriesPerBlock = de := by
  rw [Nat.mul_add_mod, Nat.mod_eq_of_lt h]

abbrev Name := List (BitVec 8)

def dot : BitVec 8 := 46

def deInode (b : Block) (de : Nat) : Nat := getBits b (128 * de) 16

def deName (b : Block) (de j : Nat) : BitVec 8 := b.extractLsb' (128 * de + 16 + 8 * j) 8

/-- `match`, on the first `len` bytes of the name. -/
def matchEntry (len : Nat) (name : Name) (b : Block) (de : Nat) : Bool :=
  if deInode b de = 0 ∨ nameLen < len then false
  else if len < nameLen ∧ deName b de len ≠ 0 then false
  else (List.range len).all fun j => name.getD j 0 == deName b de j

section

variable (disk : Cache.Disk)

/-- The next block of a directory, if it is there and can be read. -/
def nextBlock (dir block : Nat) : Program Fs (Option Nat) := do
  if block = 0 then return none
  else bread disk (← inode dir).iDev block

/-- The `while` loop of `find_entry`. Behind a block that is missing it ends
or goes through a null pointer. -/
def scanDir (dir len : Nat) (name : Name) (entries : Nat) :
    Nat → Nat → Nat → Nat → Program Fs (Option (Nat × Nat))
  | 0, _, _, _ => failure
  | rounds + 1, bh, de, i => do
    if entries ≤ i then
      brelse bh
      return none
    else if de < dirEntriesPerBlock then
      if matchEntry len name (← readBuf bh).bData de then return some (bh, de)
      else scanDir dir len name entries rounds bh (de + 1) (i + 1)
    else
      brelse bh
      match ← nextBlock disk dir (← bmap disk dir (i / dirEntriesPerBlock)) with
      | none => if entries ≤ i + dirEntriesPerBlock then return none else failure
      | some bh => do
        if matchEntry len name (← readBuf bh).bData 0 then return some (bh, 0)
        else scanDir dir len name entries rounds bh 1 (i + 1)

/-- The treatment of `..` at the root of the task and at the root of a file
system: the directory and the length to search with. -/
def upwards (root : Option Nat) (dir len : Nat) (name : Name) : Program Fs (Nat × Nat) := do
  if len = 2 ∧ name.getD 0 0 = dot ∧ name.getD 1 0 = dot then
    if root = some dir then return (dir, 1)
    else if (← inode dir).iNum = rootIno then
      let sb ← getSuper (← inode dir).iDev
      match sb.sImount with
      | none => return (dir, len)
      | some mounted => do
        iput disk dir
        raiseCount mounted
        return (mounted, len)
    else return (dir, len)
  else return (dir, len)

/-- The directory that was searched, and the buffer and the number of the entry. -/
def findEntry (root : Option Nat) (dir : Nat) (name : Name) :
    Program Fs (Nat × Option (Nat × Nat)) := do
  let len := min name.length nameLen
  let entries := (← inode dir).iSize / 16
  if len = 0 then return (dir, none)
  else
    let (dir, len) ← upwards disk root dir len name
    let n ← inode dir
    if n.iZone 0 = 0 then return (dir, none)
    else match ← bread disk n.iDev (n.iZone 0) with
    | none => return (dir, none)
    | some bh => do return (dir, ← scanDir disk dir len name entries (entries + 1) bh 0 0)

/-- The name of an entry, filled up with zeros. -/
def putName (name : Name) (len de : Nat) (b : Block) : Block :=
  (List.range nameLen).foldl
    (fun b j => putBits b (128 * de + 16 + 8 * j) 8
      (if j < len then (name.getD j 0).toNat else 0)) b

/-- The directory grows by one entry at its end. -/
def extendDir (dir bh de i : Nat) : Program Fs Unit := do
  if (← inode dir).iSize ≤ i * 16 then
    modifyBuf bh fun b => { b with bData := putBits b.bData (128 * de) 16 0 }
    modifyInode dir fun n => { n with iSize := (i + 1) * 16, iDirt := true, iCtime := 0 }

/-- One entry in the loop of `add_entry`, and whether it was free. -/
def claimEntry (dir len : Nat) (name : Name) (bh de i : Nat) : Program Fs Bool := do
  extendDir dir bh de i
  if deInode (← readBuf bh).bData de = 0 then
    modifyInode dir fun n => { n with iMtime := 0 }
    modifyBuf bh fun b => { b with bData := putName name len de b.bData, bDirt := true }
    return true
  else return false

/-- The loop of `add_entry`. Behind a block that cannot be read it goes through a null pointer. -/
def scanFree (dir len : Nat) (name : Name) : Nat → Nat → Nat → Nat → Program Fs (Option (Nat × Nat))
  | 0, _, _, _ => failure
  | rounds + 1, bh, de, i => do
    if de < dirEntriesPerBlock then
      if ← claimEntry dir len name bh de i then return some (bh, de)
      else scanFree dir len name rounds bh (de + 1) (i + 1)
    else
      brelse bh
      let block ← createBlock disk dir (i / dirEntriesPerBlock)
      if block = 0 then return none
      else
        match ← bread disk (← inode dir).iDev block with
        | none => failure
        | some bh => do
          if ← claimEntry dir len name bh 0 i then return some (bh, 0)
          else scanFree dir len name rounds bh 1 (i + 1)

def addEntry (dir : Nat) (name : Name) : Program Fs (Option (Nat × Nat)) := do
  let len := min name.length nameLen
  if len = 0 then return none
  else
    let n ← inode dir
    if n.iZone 0 = 0 then return none
    else match ← bread disk n.iDev (n.iZone 0) with
    | none => return none
    | some bh => scanFree disk dir len name (n.iSize / 16 + 2) bh 0 0

end

end Gpos.Fs
