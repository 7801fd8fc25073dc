import Mathlib.Data.BitVec
import Mathlib.Data.List.Basic

/-! The floppy boot loaders `boot.S` and `loader.S`, which load a file of the root directory of a
FAT12 disk. A program without an outcome has divided by too little, reads for ever a sector that
cannot be read, or has run out of rounds. -/

namespace Gpos.Floppy

/-- The bytes of memory by their physical address. -/
abbrev Memory := Nat → BitVec 8

/-- The bytes of the sectors. -/
abbrev Disk := Nat → Nat → BitVec 8

def bytsPerSec : Nat := 512

def secPerTrk : Nat := 18

def numHeads : Nat := 2

def totSec : Nat := 2880

def rootDirSectors : Nat := 14

def secNoOfRootDir : Nat := 19

def secNoOfFat1 : Nat := 1

def deltaSecNo : Nat := 17

def baseOfLoader : Nat := 0x9000

def offsetOfLoader : Nat := 0x400

def baseOfKernel : Nat := 0x1000

def offsetOfKernel : Nat := 0

/-- What `int 0x13` is given in `%al`, `%ch`, `%cl` and `%dh`. -/
structure Chs where
  count : Nat
  cylinder : Nat
  sector : Nat
  head : Nat

/-- Sectors are read in one track only, and there are 80 cylinders. -/
def Chs.Readable (c : Chs) : Prop :=
  0 < c.sector ∧ c.sector - 1 + c.count ≤ secPerTrk ∧ c.head < numHeads ∧ c.cylinder < 80

instance (c : Chs) : Decidable c.Readable := inferInstanceAs (Decidable (_ ∧ _))

def Chs.first (c : Chs) : Nat := (c.cylinder * numHeads + c.head) * secPerTrk + (c.sector - 1)

/-- The registers that `ReadSector` computes. `div` takes a quotient of eight bits. -/
def chs (ax cl : Nat) : Option Chs :=
  if ax / secPerTrk < 256 then
    some ⟨cl, ax / secPerTrk / 2, ax % secPerTrk + 1, ax / secPerTrk % 2⟩
  else none

def int13 (d : Disk) (c : Chs) (es bx : Nat) (m : Memory) : Memory := fun a =>
  if es * 16 + bx ≤ a ∧ a < es * 16 + bx + c.count * bytsPerSec then
    d (c.first + (a - (es * 16 + bx)) / bytsPerSec) ((a - (es * 16 + bx)) % bytsPerSec)
  else m a

/-- A read that fails is tried again, so one that cannot succeed never ends. -/
def readSector (d : Disk) (ax cl es bx : Nat) (m : Memory) : Option Memory :=
  (chs ax cl).bind fun c => if c.Readable then some (int13 d c es bx m) else none

def word (m : Memory) (a : Nat) : Nat := (m a).toNat + 256 * (m (a + 1)).toNat

/-- Segment of the two sectors of the FAT, below the loader. -/
def baseOfFat : Nat := baseOfLoader - 0x100

def getFATEntry (d : Disk) (ax : Nat) (m : Memory) : Option (Nat × Memory) :=
  if ax * 12 / 8 < 2 ^ 16 then
    let odd := ax * 12 % 8
    let offset := ax * 12 / 8
    (readSector d (offset / bytsPerSec + secNoOfFat1) 2 baseOfFat 0 m).map fun m =>
      let w := word m (baseOfFat * 16 + offset % bytsPerSec)
      ((if odd = 0 then w else w >>> 4) &&& 0xfff, m)
  else none

/-- `LABEL_CMP_FILENAME`: whether all characters are the same, and `%di` then. -/
def cmpFilename (m : Memory) (es : Nat) : List (BitVec 8) → Nat → Bool × Nat
  | [], di => (true, di)
  | c :: cs, di => if m (es * 16 + di) = c then cmpFilename m es cs (di + 1) else (false, di)

/-- `and $0xffe0, %di` -/
def entryHead (di : Nat) : Nat := di / 32 * 32

/-- `LABEL_SEARCH_FOR_LOADERBIN` with the entries that are left of the sector. -/
def searchSector (m : Memory) (es : Nat) (name : List (BitVec 8)) : Nat → Nat → Option Nat
  | 0, _ => none
  | dx + 1, di =>
    match cmpFilename m es name di with
    | (true, di) => some (entryHead di)
    | (false, di) => searchSector m es name dx (entryHead di + 0x20)

/-- `LABEL_SEARCH_IN_ROOT_DIR_BEGIN` with `wRootDirSizeForLoop` and `wSectorNo`. In the end there
is no entry with the name. -/
def searchRootDir (d : Disk) (name : List (BitVec 8)) (off : Nat) :
    Nat → Nat → Memory → Option (Option Nat × Memory)
  | 0, _, m => some (none, m)
  | size + 1, sector, m =>
    (readSector d sector 1 baseOfLoader off m).bind fun m =>
      match searchSector m baseOfLoader name 0x10 off with
      | some di => some (some di, m)
      | none => searchRootDir d name off size (sector + 1) m

/-- `LABEL_GOON_LOADING_FILE` with the rounds it may still take: `%ax` is the sector, and the
index of its cluster is on the stack. -/
def goonLoadingFile (d : Disk) (es : Nat) : Nat → Nat → Nat → Nat → Memory → Option Memory
  | 0, _, _, _, _ => none
  | rounds + 1, ax, index, bx, m =>
    (readSector d ax 1 es bx m).bind fun m =>
      (getFATEntry d index m).bind fun (entry, m) =>
        if entry = 0xfff then some m else
        goonLoadingFile d es rounds ((entry + rootDirSectors + deltaSecNo) % 2 ^ 16) entry
          ((bx + bytsPerSec) % 2 ^ 16) m

/-- What the two loaders have each for itself: the name, where a sector of the directory is read,
and where the file goes. -/
structure Loader where
  name : List (BitVec 8)
  dirOffset : Nat
  base : Nat
  offset : Nat

/-- From the search to `LABEL_FILE_LOADED`, or to `LABEL_NO_LOADERBIN` without memory. -/
def Loader.load (l : Loader) (d : Disk) (rounds : Nat) (m : Memory) : Option (Option Memory) :=
  (searchRootDir d l.name l.dirOffset rootDirSectors secNoOfRootDir m).bind fun
    | (none, _) => some none
    | (some di, m) =>
      let index := word m (baseOfLoader * 16 + (di + 0x1a))
      (goonLoadingFile d l.base rounds ((index + rootDirSectors + deltaSecNo) % 2 ^ 16) index
        l.offset m).map some

def chars (s : String) : List (BitVec 8) := s.toList.map fun c => BitVec.ofNat 8 c.toNat

/-- `boot.S` -/
def boot : Loader := ⟨chars "LOADER  BIN", offsetOfLoader, baseOfLoader, offsetOfLoader⟩

/-- `loader.S` -/
def loader : Loader := ⟨chars "KERNEL  BIN", 0, baseOfKernel, offsetOfKernel⟩

/-- `rep movsw` upwards of `n` words from offset 0 on. -/
def repMovsw (ds es : Nat) : Nat → Memory → Memory
  | 0, m => m
  | n + 1, m =>
    let m := repMovsw ds es n m
    Function.update (Function.update m (es * 16 + 2 * n) (m (ds * 16 + 2 * n)))
      (es * 16 + 2 * n + 1) (m (ds * 16 + 2 * n + 1))

/-- `do_move` with the rounds it may still take. -/
def doMove : Nat → Nat → Memory → Option Memory
  | 0, _, _ => none
  | rounds + 1, ax, m =>
    let es := ax
    let ax := (ax + 0x1000) % 2 ^ 16
    if ax = 0x9000 then some m else doMove rounds ax (repMovsw ax es 0x8000 m)

/-- `loader.S` up to the jump to the kernel, as far as the memory goes. -/
def loadKernel (d : Disk) (rounds : Nat) (m : Memory) : Option (Option Memory) :=
  (loader.load d rounds m).bind fun
    | none => some none
    | some m => (doMove rounds 0 m).map some

end Gpos.Floppy
