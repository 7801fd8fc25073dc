import Gpos.BufferOps
import Gpos.Run

/-! `new_block` and `free_block` of `fs/bitmap.c`, on the buffers that hold the
zone map and on the buffers of the zones. -/

namespace Gpos

/-- `sZmap` holds the buffers of the zone map, below index 8. -/
structure SuperBlock where
  sNinodes : Nat
  sNzones : Nat
  sImapBlocks : Nat
  sZmapBlocks : Nat
  sFirstdatazone : Nat
  sImap : Nat → Option Nat
  sZmap : Nat → Option Nat
  sDev : Nat
  sIsup : Option Nat
  sImount : Option Nat

namespace Bitmap

/-- `bsfl`, which finds nothing in zero. -/
def bsf (w : BitVec 32) : Option Nat := (List.range 32).find? fun i => w.getLsbD i

/-- The loop of `find_first_zero` with the rounds left and the bits in `ecx`. -/
def zeroFrom (b : Block) : Nat → Nat → Nat
  | 0, ecx => ecx
  | n + 1, ecx =>
    match bsf (~~~ b.extractLsb' ecx 32) with
    | some edx => ecx + edx
    | none => zeroFrom b n (ecx + 32)

def findFirstZero (b : Block) : Nat := zeroFrom b 256 0

def setBit (nr : Nat) (b : Block) : Block := b ||| BitVec.twoPow 8192 nr

def clearBit (nr : Nat) (b : Block) : Block := b &&& ~~~ BitVec.twoPow 8192 nr

theorem getLsbD_setBit {nr : Nat} (h : nr < 8192) (b : Block) (i : Nat) :
    (setBit nr b).getLsbD i = if i = nr then true else b.getLsbD i := by
  rw [setBit, BitVec.getLsbD_or, BitVec.getLsbD_twoPow, decide_eq_true h, Bool.true_and]
  by_cases hi : i = nr
  · rw [if_pos hi, decide_eq_true hi.symm, Bool.or_true]
  · rw [if_neg hi, decide_eq_false (Ne.symm hi), Bool.or_false]

theorem getLsbD_clearBit {nr : Nat} (h : nr < 8192) (b : Block) (i : Nat) :
    (clearBit nr b).getLsbD i = if i = nr then false else b.getLsbD i := by
  rw [clearBit, BitVec.getLsbD_and, BitVec.getLsbD_not, BitVec.getLsbD_twoPow,
    decide_eq_true h, Bool.true_and]
  by_cases hi : i = nr
  · rw [if_pos hi, decide_eq_true hi.symm, Bool.not_true, Bool.and_false, Bool.and_false]
  · rw [if_neg hi, decide_eq_false (Ne.symm hi), Bool.not_false, Bool.and_true]
    by_cases hlt : i < 8192
    · rw [decide_eq_true hlt, Bool.and_true]
    · rw [BitVec.getLsbD_of_ge b i (Nat.not_lt.mp hlt), Bool.false_and]

theorem bsf_some {w : BitVec 32} {i : Nat} (h : bsf w = some i) :
    i < 32 ∧ w.getLsbD i = true ∧ ∀ j, j < i → w.getLsbD j = false := by
  rw [bsf, List.find?_range_eq_some] at h
  refine ⟨List.mem_range.mp h.2.1, h.1, fun j hj => ?_⟩
  simpa using h.2.2 j hj

theorem bsf_none {w : BitVec 32} (h : bsf w = none) {i : Nat} (hi : i < 32) :
    w.getLsbD i = false := by
  have := List.find?_eq_none.mp h i (List.mem_range.mpr hi)
  simpa using this

theorem getLsbD_word (b : Block) (ecx i : Nat) (hi : i < 32) :
    (~~~ b.extractLsb' ecx 32).getLsbD i = !b.getLsbD (ecx + i) := by
  rw [BitVec.getLsbD_not, BitVec.getLsbD_extractLsb', decide_eq_true hi,
    Bool.true_and, Bool.true_and]

/-- `r` is the first clear bit of the block, or there is none below `n`. -/
structure FirstZero (b : Block) (n r : Nat) : Prop where
  le : r ≤ n
  below : ∀ i, i < r → b.getLsbD i = true
  clear : r < n → b.getLsbD r = false

theorem zeroFrom_spec (b : Block) (n ecx : Nat) (hbelow : ∀ i, i < ecx → b.getLsbD i = true) :
    FirstZero b (ecx + 32 * n) (zeroFrom b n ecx) := by
  induction n generalizing ecx with
  | zero => exact ⟨Nat.le_refl _, hbelow, fun h => absurd h (Nat.lt_irrefl _)⟩
  | succ n ih =>
    rw [zeroFrom]
    split
    next edx he =>
      obtain ⟨hlt, hbit, hno⟩ := bsf_some he
      refine ⟨by omega, fun i hi => ?_, fun _ => ?_⟩
      · by_cases hi' : i < ecx
        · exact hbelow i hi'
        · have hw := hno (i - ecx) (by omega)
          rw [getLsbD_word b ecx _ (by omega), show ecx + (i - ecx) = i by omega] at hw
          simpa using hw
      · rw [getLsbD_word b ecx edx hlt] at hbit
        simpa using hbit
    next hn =>
      have h := ih (ecx + 32) fun i hi => by
        by_cases hi' : i < ecx
        · exact hbelow i hi'
        · have hw := bsf_none hn (i := i - ecx) (by omega)
          rw [getLsbD_word b ecx _ (by omega), show ecx + (i - ecx) = i by omega] at hw
          simpa using hw
      rwa [show ecx + 32 + 32 * n = ecx + 32 * (n + 1) by omega] at h

theorem findFirstZero_spec (b : Block) : FirstZero b 8192 (findFirstZero b) :=
  zeroFrom_spec b 256 0 fun i hi => absurd hi (Nat.not_lt_zero i)

end Bitmap

namespace Zones

open Cache BufferTasks Bitmap

def nrSuper : Nat := 8

/-- No super block is locked once it is mounted. -/
def getSuper (sbs : Nat → SuperBlock) (dev : Nat) : Option SuperBlock :=
  if dev = 0 then none else ((List.range nrSuper).find? fun s => (sbs s).sDev = dev).map sbs

/-- The search of `new_block` and `new_inode` from map block `i` on: the block,
its buffer and the bit. -/
def searchMap (map : Nat → Option Nat) (c : Cache) : Nat → Nat → Option (Nat × Nat × Nat)
  | 0, _ => none
  | n + 1, i =>
    match map i with
    | none => searchMap map c n (i + 1)
    | some bh =>
      if findFirstZero (c.buf bh).bData < 8192 then some (i, bh, findFirstZero (c.buf bh).bData)
      else searchMap map c n (i + 1)

def setMapBit (bh nr : Nat) : Cache → Cache :=
  modify bh fun b => { b with bData := setBit nr b.bData, bDirt := true }

def clearMapBit (bh nr : Nat) : Cache → Cache :=
  modify bh fun b => { b with bData := clearBit nr b.bData, bDirt := true }

/-- `clear_block` and the two flags after it. -/
def zeroHead (b : BufferHead) : BufferHead :=
  { b with bData := 0, bUptodate := true, bDirt := true }

/-- The end of `new_block`, with the number of the zone. -/
def takeZone (dev j : Nat) (c : Cache) : Option (Nat × Cache) :=
  match c.getblk dev j with
  | none => none
  | some (bh, c) =>
    if (c.buf bh).bCount ≠ 1 then none
    else ((c.modify bh zeroHead).brelse bh).map fun c => (j, c)

/-- The number of a zone is an `int`, which the code converts for `getblk`. -/
def zoneOf (sb : SuperBlock) (n : Nat) : Nat :=
  if n + sb.sFirstdatazone = 0 then 2 ^ 32 - 1 else n + sb.sFirstdatazone - 1

/-- `none` is a panic, or a wait that does not end. -/
def newBlock (sbs : Nat → SuperBlock) (dev : Nat) (c : Cache) : Option (Nat × Cache) :=
  match getSuper sbs dev with
  | none => none
  | some sb =>
    match searchMap sb.sZmap c 8 0 with
    | none => some (0, c)
    | some (i, bh, j) =>
      if (c.buf bh).bData.getLsbD j then none
      -- -1 is below any number of zones
      else if j + i * 8192 + sb.sFirstdatazone ≠ 0 ∧
        sb.sNzones ≤ j + i * 8192 + sb.sFirstdatazone - 1 then some (0, setMapBit bh j c)
      else takeZone dev (zoneOf sb (j + i * 8192)) (setMapBit bh j c)

/-- `clear_bit` in the map; a block of the map that is not loaded is a null pointer. -/
def clearZone (sb : SuperBlock) (nr : Nat) (c : Cache) : Option Cache :=
  match sb.sZmap (nr / 8192) with
  | none => none
  | some bh =>
    if (c.buf bh).bData.getLsbD (nr % 8192) then some (clearMapBit bh (nr % 8192) c) else none

def forgetHead (b : BufferHead) : BufferHead := { b with bDirt := false, bUptodate := false }

def freeBlock (sbs : Nat → SuperBlock) (dev block : Nat) (c : Cache) : Option Cache :=
  match getSuper sbs dev with
  | none => none
  | some sb =>
    if block < sb.sFirstdatazone ∨ sb.sNzones ≤ block then none
    else match c.getHashTable dev block with
      | none => none
      | some (none, c) => clearZone sb (block + 1 - sb.sFirstdatazone) c
      | some (some bh, c) =>
        -- the reference stays
        if (c.buf bh).bCount ≠ 1 then some c
        else ((c.modify bh forgetHead).brelse bh).bind
          (clearZone sb (block + 1 - sb.sFirstdatazone))

end Zones

end Gpos
