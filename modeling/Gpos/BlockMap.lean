import Gpos.Program
import Mathlib.Logic.Function.Basic

/-! `_bmap` of `fs/inode.c`, over the operations it uses of inodes, of the zone
map and of the buffer cache. -/

namespace Gpos.BlockMap

/-- `entry` and `setEntry` are the 16-bit words of a buffer, `setEntry` with
`b_dirt` and `setZone` with `i_dirt` and `i_ctime`. -/
structure Ops (S : Type) where
  iDev : Nat → Program S Nat
  iZone : Nat → Nat → Program S Nat
  setZone : Nat → Nat → Nat → Program S Unit
  newBlock : Nat → Program S Nat
  bread : Nat → Nat → Program S (Option Nat)
  entry : Nat → Nat → Program S Nat
  setEntry : Nat → Nat → Nat → Program S Unit
  brelse : Nat → Program S Unit

def maxBlocks : Nat := 7 + 512 + 512 * 512

section

variable {S : Type}

/-- `inode->i_zone[i]`, with a new zone if there is none. -/
def zoneOrNew (o : Ops S) (create : Bool) (inode i : Nat) : Program S Nat := do
  let z ← o.iZone inode i
  if create ∧ z = 0 then
    let z ← o.newBlock (← o.iDev inode)
    if z ≠ 0 then
      o.setZone inode i z
    return z
  else return z

/-- Entry `i` of the index block `z`, with a new zone if there is none. -/
def entryOrNew (o : Ops S) (create : Bool) (inode z i : Nat) : Program S Nat := do
  if z = 0 then return 0
  else match ← o.bread (← o.iDev inode) z with
  | none => return 0
  | some bh => do
    let e ← o.entry bh i
    if create ∧ e = 0 then
      let e ← o.newBlock (← o.iDev inode)
      if e ≠ 0 then
        o.setEntry bh i e
      o.brelse bh
      return e
    else
      o.brelse bh
      return e

/-- `failure` is the panic of a block that is too big. -/
def bmapCreate (o : Ops S) (create : Bool) (inode block : Nat) : Program S Nat := do
  if maxBlocks ≤ block then failure
  else if block < 7 then zoneOrNew o create inode block
  else if block - 7 < 512 then
    let z ← zoneOrNew o create inode 7
    entryOrNew o create inode z (block - 7)
  else
    let block := block - 7 - 512
    let z ← zoneOrNew o create inode 8
    let i ← entryOrNew o create inode z (block / 512)
    entryOrNew o create inode i (block % 512)

def bmap (o : Ops S) (inode block : Nat) : Program S Nat := bmapCreate o false inode block

def createBlock (o : Ops S) (inode block : Nat) : Program S Nat := bmapCreate o true inode block

end

end Gpos.BlockMap
