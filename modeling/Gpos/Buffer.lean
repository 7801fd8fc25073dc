import Mathlib.Data.BitVec
import Mathlib.Logic.Function.Basic

/-! The buffer heads of `fs/buffer.c`, their two intrusive queues, and the
stretches of its functions between two calls that can sleep. Buffer heads are
numbered from `start_buffer` on, and `none` is a null pointer. -/

namespace Gpos

/-- `BLOCK_SIZE` is 1024 bytes. Bit `n` of a block is bit `n % 8` of its byte `n / 8`, which is
how `btsl` and `btrl` count and where the bits of little-endian words lie. -/
abbrev Block := BitVec 8192

structure BufferHead where
  bData : Block
  bBlocknr : Nat
  bDev : Nat
  bUptodate : Bool
  bDirt : Bool
  bCount : Nat
  bLock : Bool
  bPrev : Option Nat
  bNext : Option Nat
  bPrevFree : Option Nat
  bNextFree : Option Nat

structure Cache where
  nrBuffers : Nat
  buf : Nat → BufferHead
  hashTable : Nat → Option Nat
  freeList : Nat

namespace Cache

def nrHash : Nat := 307

def hashfn (dev block : Nat) : Nat := (dev ^^^ block) % nrHash

def modify (i : Nat) (f : BufferHead → BufferHead) (c : Cache) : Cache :=
  { c with buf := Function.update c.buf i (f (c.buf i)) }

def setHash (h : Nat) (v : Option Nat) (c : Cache) : Cache :=
  { c with hashTable := Function.update c.hashTable h v }

def setNext (i : Nat) (v : Option Nat) : Cache → Cache := modify i fun b => { b with bNext := v }

def setPrev (i : Nat) (v : Option Nat) : Cache → Cache := modify i fun b => { b with bPrev := v }

def setNextFree (i : Nat) (v : Option Nat) : Cache → Cache :=
  modify i fun b => { b with bNextFree := v }

def setPrevFree (i : Nat) (v : Option Nat) : Cache → Cache :=
  modify i fun b => { b with bPrevFree := v }

/-- The hash queue part of `remove_from_queues`. -/
def removeFromHash (bh : Nat) (c : Cache) : Cache :=
  let next := (c.buf bh).bNext
  let prev := (c.buf bh).bPrev
  let c := match next with
    | none => c
    | some n => c.setPrev n prev
  let c := match prev with
    | none => c
    | some p => c.setNext p next
  let h := hashfn (c.buf bh).bDev (c.buf bh).bBlocknr
  if c.hashTable h = some bh then c.setHash h (c.buf bh).bNext else c

/-- The free list part of `remove_from_queues`; `none` is its panic. -/
def removeFromFree (bh : Nat) (c : Cache) : Option Cache :=
  match (c.buf bh).bPrevFree, (c.buf bh).bNextFree with
  | some p, some n =>
    let c := (c.setNextFree p (some n)).setPrevFree n (some p)
    some (if c.freeList = bh then { c with freeList := n } else c)
  | _, _ => none

def removeFromQueues (bh : Nat) (c : Cache) : Option Cache :=
  (c.removeFromHash bh).removeFromFree bh

/-- `insert_into_queues` puts the buffer at the end of the free list. The
list is never empty, and `none` stands for a null pointer in it. -/
def insertIntoFree (bh : Nat) (c : Cache) : Option Cache :=
  let c := c.setNextFree bh (some c.freeList)
  let c := c.setPrevFree bh (c.buf c.freeList).bPrevFree
  match (c.buf c.freeList).bPrevFree with
  | none => none
  | some p => some ((c.setNextFree p (some bh)).setPrevFree c.freeList (some bh))

/-- The buffer goes to the front of its hash queue if it has a device. -/
def insertIntoHash (bh : Nat) (c : Cache) : Cache :=
  let c := (c.setPrev bh none).setNext bh none
  if (c.buf bh).bDev = 0 then c else
  let h := hashfn (c.buf bh).bDev (c.buf bh).bBlocknr
  match c.hashTable h with
  | some n => ((c.setNext bh (some n)).setHash h (some bh)).setPrev n (some bh)
  | none => c.setHash h (some bh)

def insertIntoQueues (bh : Nat) (c : Cache) : Option Cache :=
  (c.insertIntoFree bh).map (insertIntoHash bh)

/-- `sizeof (struct buffer_head)` with 4-byte pointers. -/
def headSize : Nat := 36

/-- `start_buffer`, which is `LOW_MEM`. -/
def startBuffer : Nat := 0x100000

/-- The loop of `buffer_init`, with `b` before the decrement of the loop test
and `h` the number of the next header. -/
def initLoop (b h : Nat) (c : Cache) : Cache :=
  if hb : startBuffer + (h + 1) * headSize ≤ b - 1024 then
    let c := c.modify h fun bh =>
      { bh with
        bDev := 0, bDirt := false, bCount := 0, bLock := false, bUptodate := false
        bNext := none, bPrev := none, bPrevFree := some (h - 1), bNextFree := some (h + 1) }
    have : (if b - 1024 = 0x100000 then 0xA0000 else b - 1024) < b := by
      simp only [startBuffer, headSize] at hb
      split <;> omega
    initLoop (if b - 1024 = 0x100000 then 0xA0000 else b - 1024) (h + 1)
      { c with nrBuffers := c.nrBuffers + 1 }
  else c
termination_by b

def bufferInit (bufferEnd : Nat) (c : Cache) : Cache :=
  let c := initLoop bufferEnd 0 { c with nrBuffers := 0 }
  let last := c.nrBuffers - 1
  let c := ({ c with freeList := 0 }).setPrevFree 0 (some last)
  let c := c.setNextFree last (some 0)
  { c with hashTable := fun _ => none }

/-- The walk of `find_buffer` along a hash queue. The outer `none` says that
`fuel` steps did not reach the end of the queue. -/
def findFrom (c : Cache) (dev block : Nat) : Nat → Option Nat → Option (Option Nat)
  | _, none => some none
  | 0, some _ => none
  | fuel + 1, some tmp =>
    if (c.buf tmp).bDev = dev ∧ (c.buf tmp).bBlocknr = block then some (some tmp)
    else findFrom c dev block fuel (c.buf tmp).bNext

def findBuffer (c : Cache) (dev block : Nat) : Option (Option Nat) :=
  c.findFrom dev block c.nrBuffers (c.hashTable (hashfn dev block))

def badness (b : BufferHead) : Nat := 2 * b.bDirt.toNat + b.bLock.toNat

/-- The `do` loop of `getblk`, from `tmp` on and with the best buffer `bh` so
far; the outer `none` says that `fuel` steps did not come back to `free_list`
or that the list has a null pointer. -/
def scanFree (c : Cache) : Nat → Nat → Option Nat → Option (Option Nat)
  | 0, _, _ => none
  | fuel + 1, tmp, bh =>
    let better := (c.buf tmp).bCount = 0 ∧ ∀ b ∈ bh, badness (c.buf tmp) < badness (c.buf b)
    if better ∧ badness (c.buf tmp) = 0 then some (some tmp) else
    let bh := if better then some tmp else bh
    match (c.buf tmp).bNextFree with
    | none => none
    | some next => if next = c.freeList then some bh else scanFree c fuel next bh

def pickVictim (c : Cache) : Option (Option Nat) :=
  c.scanFree c.nrBuffers c.freeList none

/-- The end of `getblk`, after the last check and up to the return. -/
def retarget (bh dev block : Nat) (c : Cache) : Option Cache :=
  let c := c.modify bh fun b => { b with bCount := 1, bDirt := false, bUptodate := false }
  (c.removeFromQueues bh).bind fun c =>
    (c.modify bh fun b => { b with bDev := dev, bBlocknr := block }).insertIntoQueues bh

def major (dev : Nat) : Nat := dev / 256

def incCount (b : BufferHead) : BufferHead := { b with bCount := (b.bCount + 1) % 256 }

def decCount (b : BufferHead) : BufferHead := { b with bCount := (b.bCount + 255) % 256 }

/-- The holder of the buffer changes its data and sets `b_dirt`. -/
def storeHead (data : Block) (b : BufferHead) : BufferHead :=
  { b with bData := data, bDirt := true }

end Cache

end Gpos
