import Mathlib.Algebra.Group.Int.Defs
import Mathlib.Algebra.Group.Nat.Defs
import Mathlib.Logic.Function.Basic
import Mathlib.Data.List.Range

/-! Page allocation and page tables of `mm/memory.c`. The kernel reaches a
physical page through the identity mapping in the window of task 0, so memory is
a function of frame and word; `copy_page` in `un_wp_page` reads behind an entry that
has just been replaced. Addresses are numbers below `2 ^ 32`. -/

namespace Gpos

/-- `refcount none` is what `mms_page` reaches through its null pointer, and
`pgDir` is the frame of `_pg_dir`. `_refcount` is a `long`; it counts entries of page
tables, of which there are `2 ^ 20`, and stays below `2 ^ 31`. -/
structure Mm where
  memMap : Nat → BitVec 32
  refcount : Option Nat → Int
  mem : Nat → Nat → BitVec 32
  highMemory : Nat
  pgDir : Nat

namespace Mm

def lowMem : Nat := 0x100000

def mmBitmaps : Nat := 512

def mmPages : Nat := 16384

/-- `MAP_NR` and `PAGE_NR`; an address below `LOW_MEM` wraps around. -/
def pageNr (addr : Nat) : Nat :=
  if lowMem ≤ addr then (addr - lowMem) / 4096 else (addr + (2 ^ 32 - lowMem)) / 4096

def getBitpos (addr : Nat) : Option (Nat × Nat) :=
  if mmBitmaps ≤ pageNr addr / 32 then none else some (pageNr addr / 32, pageNr addr % 32)

def mmsPage (addr : Nat) : Option Nat := if pageNr addr < mmPages then some (pageNr addr) else none

def addRef (p : Option Nat) (d : Int) (m : Mm) : Mm :=
  { m with refcount := Function.update m.refcount p (m.refcount p + d) }

def setWord (pos : Nat) (w : BitVec 32) (m : Mm) : Mm :=
  { m with memMap := Function.update m.memMap pos w }

def store (f j : Nat) (w : BitVec 32) (m : Mm) : Mm :=
  { m with mem := Function.update m.mem f (Function.update (m.mem f) j w) }

def fillPage (f : Nat) (content : Nat → BitVec 32) (m : Mm) : Mm :=
  { m with mem := Function.update m.mem f content }

def setMemMap (addr : Nat) (m : Mm) : Mm :=
  match getBitpos (addr / 4096 * 4096) with
  | none => m
  | some (pos, idx) =>
    (m.setWord pos (m.memMap pos ||| 1#32 <<< idx)).addRef (mmsPage (addr / 4096 * 4096)) 1

/-- `none` is the panic of `clear_mem_map`. -/
def clearMemMap (addr : Nat) (m : Mm) : Option Mm :=
  match getBitpos addr with
  | none => some m
  | some (pos, idx) =>
    let m := m.addRef (mmsPage addr) (-1)
    if m.refcount (mmsPage addr) = 0 then some (m.setWord pos (m.memMap pos &&& ~~~(1#32 <<< idx)))
    else if m.refcount (mmsPage addr) < 0 then none
    else some m

def freePage (addr : Nat) (m : Mm) : Option Mm :=
  if addr < lowMem then some m
  else if m.highMemory ≤ addr then none
  else m.clearMemMap addr

/-- `repe scasl` downwards over the `n` lowest words of the map. -/
def scas (memMap : Nat → BitVec 32) : Nat → Nat
  | 0 => 0xFFFFFFFF
  | n + 1 => if memMap n = 0xFFFFFFFF#32 then scas memMap n else n

/-- The loop over the bits of the word, with `idx` before its decrement. -/
def bitLoop (w : BitVec 32) : Nat → Int
  | 0 => -1
  | idx + 1 => if w.getLsbD idx then bitLoop w idx else idx

/-- With all words full `pos` is `0xFFFFFFFF`, which is not below zero, so the
search goes on in the word before the map. -/
def freeAddr (m : Mm) : Nat :=
  let pos := scas m.memMap mmBitmaps
  (((pos * 32 + bitLoop (m.memMap pos) 32) * 4096 + lowMem : Int) % 2 ^ 32).toNat

def getFreePage (m : Mm) : Nat × Mm :=
  (m.freeAddr, (m.fillPage (m.freeAddr / 4096) fun _ => 0).setMemMap m.freeAddr)

def isPresent (w : BitVec 32) : Bool := w.getLsbD 0

def isWritable (w : BitVec 32) : Bool := w.getLsbD 1

def pageFrom (w : BitVec 32) : Nat := (w &&& 0xFFFFF000#32).toNat

/-- One round of the inner loop of `copy_page_tables`. -/
def copyEntry (fromTable toTable j : Nat) (m : Mm) : Mm :=
  let thisPage := m.mem fromTable j
  if isPresent thisPage = false then m else
  let thisPage := thisPage &&& ~~~2#32
  let m := m.store toTable j thisPage
  if lowMem ≤ thisPage.toNat then (m.store fromTable j thisPage).addRef
    (mmsPage thisPage.toNat) 1 else m

def copyTable (fromTable toTable n : Nat) (m : Mm) : Mm :=
  match n with
  | 0 => m
  | n + 1 => copyEntry fromTable toTable n (copyTable fromTable toTable n m)

/-- A present directory entry, with the new table in the page that
`get_free_page` returns. -/
def copyDir (fromDir toDir : Nat) (m : Mm) : Mm :=
  copyTable (pageFrom (m.mem m.pgDir fromDir) / 4096) (m.getFreePage.1 / 4096) 1024
    (m.getFreePage.2.store m.pgDir toDir (BitVec.ofNat 32 m.getFreePage.1 ||| 7#32))

/-- The outer loop of `copy_page_tables`, with its result. -/
def copyDirs (fromDir toDir size : Nat) (m : Mm) : Int × Mm :=
  match size with
  | 0 => (0, m)
  | size + 1 =>
    if isPresent (m.mem m.pgDir fromDir) = false then copyDirs (fromDir + 1) (toDir + 1) size m
    else if m.getFreePage.1 = 0 then (-1, m.getFreePage.2)
    else copyDirs (fromDir + 1) (toDir + 1) size (copyDir fromDir toDir m)

def copyPageTables (src dst size : Nat) (m : Mm) : Int × Mm :=
  copyDirs (src / 2 ^ 22 % 1024) (dst / 2 ^ 22 % 1024) ((size + 0x3FFFFF) / 2 ^ 22) m

def pgdirIdx (address : Nat) : Nat := address / 2 ^ 22 % 1024

def pageIdx (address : Nat) : Nat := address / 2 ^ 12 % 1024

def pde (address : Nat) (m : Mm) : BitVec 32 := m.mem m.pgDir (pgdirIdx address)

def putPage (page address : Nat) (m : Mm) : Nat × Mm :=
  if isPresent (m.pde address) then
    (page, m.store (pageFrom (m.pde address) / 4096) (pageIdx address)
      (BitVec.ofNat 32 page ||| 7#32))
  else if m.getFreePage.1 = 0 then (0, m.getFreePage.2)
  else
    let table := m.getFreePage.1
    let m := m.getFreePage.2.store m.pgDir (pgdirIdx address) (BitVec.ofNat 32 table ||| 7#32)
    (page, m.store (table / 4096) (pageIdx address) (BitVec.ofNat 32 page ||| 7#32))

def getEmptyPage (address : Nat) (m : Mm) : Option Mm :=
  let tmp := m.getFreePage.1
  let m := m.getFreePage.2
  if tmp = 0 ∨ (m.putPage tmp address).1 = 0 then
    (if tmp = 0 then m else (m.putPage tmp address).2).freePage tmp
  else some (m.putPage tmp address).2

/-- The frame behind a linear address, which is its own where nothing is mapped. -/
def linear (address : Nat) (m : Mm) : Nat :=
  let entry := m.mem (pageFrom (m.pde address) / 4096) (pageIdx address)
  if isPresent (m.pde address) ∧ isPresent entry then pageFrom entry / 4096 else address / 4096

/-- The end of `un_wp_page`, which gives the entry in word `j` of frame `f` a
page of its own. -/
def unshare (f j : Nat) (m : Mm) : Mm :=
  let oldPage := pageFrom (m.mem f j)
  let newPage := m.getFreePage.1
  let m := m.getFreePage.2
  let m := if lowMem ≤ oldPage then m.addRef (mmsPage oldPage) (-1) else m
  let m := m.store f j (BitVec.ofNat 32 newPage ||| 7#32)
  -- in the window of task 0 the entry that has been replaced is that of the old page itself
  m.fillPage (newPage / 4096) (m.mem (m.linear oldPage))

/-- `un_wp_page` of the entry in word `j` of frame `f`. -/
def unWpPage (f j : Nat) (m : Mm) : Mm :=
  if lowMem ≤ pageFrom (m.mem f j) ∧ m.refcount (mmsPage (pageFrom (m.mem f j))) = 1 then
    m.store f j (m.mem f j ||| 2#32)
  else m.unshare f j

def doWpPage (address : Nat) (m : Mm) : Mm :=
  m.unWpPage (pageFrom (m.pde address) / 4096) (pageIdx address)

/-- The window of a task is 64 MB, and so is the limit of its segments. -/
def window (nr : Nat) : Nat := nr * 0x4000000

def copyMem (src nr : Nat) (m : Mm) : Int × Mm :=
  m.copyPageTables (window src) (window nr) 0x4000000

/-! The state that the boot code leaves. -/

/-- `paging_frames` for a memory size in KB. -/
def pagingFrames (kb : Nat) : Nat :=
  let mb := if kb % 1024 = 0 then kb / 1024 else kb / 1024 + 1
  mb / 4 + 1

/-- A loop that stores `n` words from address `edi` on. -/
def storeWords (edi : Nat) (w : Nat → BitVec 32) (n : Nat) (m : Mm) : Mm :=
  match n with
  | 0 => m
  | n + 1 => (storeWords edi w n m).store ((edi + 4 * n) / 4096) ((edi + 4 * n) % 4096 / 4) (w n)

def setupPaging (kb endKernel : Nat) (m : Mm) : Mm :=
  let frames := pagingFrames kb
  let m := { m with pgDir := endKernel / 4096 }
  let m := m.storeWords endKernel (fun _ => 0) (frames * 1024)
  let m :=
    m.storeWords endKernel (fun i => BitVec.ofNat 32 (endKernel + 7 + 4096 * (i + 1))) (frames - 1)
  m.storeWords (endKernel + 4096) (fun i => BitVec.ofNat 32 (7 + 4096 * i)) ((frames - 1) * 1024)

/-- The loop at the end of `mm_init`. -/
def markFree (memoryEnd addr : Nat) (m : Mm) : Option Mm :=
  if h : addr < memoryEnd then (m.clearMemMap addr).bind fun m => markFree memoryEnd (addr + 4096) m
  else some m
termination_by memoryEnd - addr
decreasing_by omega

def mainMemoryStart (kb endKernel : Nat) : Nat := endKernel + pagingFrames kb * 4096

def memoryEnd (kb : Nat) : Nat := kb * 1024

def mmInit (kb endKernel : Nat) (m : Mm) : Option Mm :=
  markFree (memoryEnd kb) (mainMemoryStart kb endKernel)
    { m with
      highMemory := memoryEnd kb
      memMap := fun pos => if pos < mmBitmaps then 0xFFFFFFFF#32 else m.memMap pos
      mem := fun f => if 256 ≤ f ∧ f < 2048 then fun _ => 0 else m.mem f
      refcount := fun
        | none => m.refcount none
        | some n => if n < mmPages then 1 else 0 }

def boot (kb endKernel : Nat) (m : Mm) : Option Mm :=
  (m.setupPaging kb endKernel).mmInit kb endKernel

end Mm

end Gpos
