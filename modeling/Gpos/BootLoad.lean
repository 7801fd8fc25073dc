import Gpos.EntrySearch

/-! The boot loader's `load_bin` against the block map of the kernel. Memory
is a sequence of pieces of 1024 bytes, and no access crosses their bounds. -/

namespace Gpos.Boot

open Fs BlockMap

abbrev Memory := Nat → Block

/-- The partition, and what the super block in memory says about it. -/
structure Partition where
  sImapBlocks : Nat
  sZmapBlocks : Nat
  block : Nat → Block

/-- 2M -/
def inodes : Nat := 2048

/-- 4M -/
def dataZone : Nat := 4096

def dataZone2 : Nat := 4097

/-- 8M -/
def kernelStartAddress : Nat := 8192

def zonesPerBlock : Nat := 512

def word (b : Block) (j : Nat) : Nat := getBits b (16 * j) 16

/-- Where `load_bin` writes next, and the memory. -/
structure Load where
  mem : Memory
  kernelAddr : Nat

section

variable (p : Partition)

def readBlock (z a : Nat) (m : Memory) : Memory := Function.update m a (p.block z)

/-- The memory, and where the inode lies in it: the piece and the number in
the piece. In front of the first inode of the block lies the last one of the
piece before it. -/
def getInode (ino : Nat) (m : Memory) : Memory × Nat × Nat :=
  let blockIdx := ino / inodesPerBlock
  let ino := ino % inodesPerBlock
  let m := readBlock p (2 + p.sImapBlocks + p.sZmapBlocks + blockIdx) inodes m
  (m, if ino = 0 then (inodes - 1, inodesPerBlock - 1) else (inodes, ino - 1))

def dInode (a : Nat × Nat) (m : Memory) : MInode := readInodeAt (m a.1) a.2 zeroInode

def load (z : Nat) (s : Load) : Load := ⟨readBlock p z s.kernelAddr s.mem, s.kernelAddr + 1⟩

/-- The loops of `load_bin`: the entries of a table one after another, which
ends at the first zero. -/
def walk (entry : Memory → Nat → Nat) (body : Nat → Load → Load) : Nat → Nat → Load → Load
  | 0, _, s => s
  | rounds + 1, i, s =>
    if entry s.mem i = 0 then s else walk entry body rounds (i + 1) (body (entry s.mem i) s)

def intoMem (z a : Nat) (s : Load) : Load := { s with mem := readBlock p z a s.mem }

def loadDirect (a : Nat × Nat) (s : Load) : Load :=
  walk (fun m i => (dInode a m).iZone i) (load p) 7 0 s

def loadZones (table : Nat) (s : Load) : Load :=
  walk (fun m z => word (m table) z) (load p) zonesPerBlock 0 s

def loadTables (s : Load) : Load :=
  walk (fun m i => word (m dataZone) i) (fun z s => loadZones p dataZone2 (intoMem p z dataZone2 s))
    zonesPerBlock 0 s

def loadIndirect (a : Nat × Nat) (s : Load) : Load :=
  let z := (dInode a s.mem).iZone 7
  if z = 0 then s else loadZones p dataZone (intoMem p z dataZone s)

def loadDouble (a : Nat × Nat) (s : Load) : Load :=
  let z := (dInode a s.mem).iZone 8
  if z = 0 then s else loadTables p (intoMem p z dataZone s)

def loadBin (ino : Nat) (m : Memory) : Memory :=
  let (m, a) := getInode p ino m
  if (dInode a m).iSize = 0 then m
  else (loadDouble p a (loadIndirect p a (loadDirect p a ⟨m, kernelStartAddress⟩))).mem

end

/-! What the kernel says. -/

section

variable (p : Partition)

def reader : Image.Reader := fun z => some (p.block z)

def kernelInode (ino : Nat) : MInode :=
  readInodeAt (p.block (2 + p.sImapBlocks + p.sZmapBlocks + (ino - 1) / inodesPerBlock))
    ((ino - 1) % inodesPerBlock) zeroInode

def bmap (ino k : Nat) : Option Nat := Image.bmap (reader p) (kernelInode p ino) k

/-- Every block of the file that is there lies in its place. -/
def Loaded (ino : Nat) (m : Memory) : Prop :=
  ∀ k z, 1024 * k < (kernelInode p ino).iSize → bmap p ino k = some z → z ≠ 0 →
    m (kernelStartAddress + k) = p.block z

/-- In the file no block that is there lies behind a hole. -/
def NoHole (ino : Nat) : Prop :=
  ∀ k z, 1024 * k < (kernelInode p ino).iSize → bmap p ino k = some z → z ≠ 0 →
    ∀ j < k, bmap p ino j ≠ some 0

end

/-! The load, up to a block `h` in front of which there is no hole; `f` is the block map. -/

section

variable {p : Partition} {f : Nat → Nat} {h : Nat}

/-- The first `c` blocks of the file lie in their places. -/
structure Filled (p : Partition) (f : Nat → Nat) (c : Nat) (s : Load) : Prop where
  addr : kernelStartAddress + c ≤ s.kernelAddr
  mem : ∀ j < c, s.mem (kernelStartAddress + j) = p.block (f j)

/-- In front of block `c` the load is at the right place as long as no hole lies behind it. -/
structure Progress (p : Partition) (f : Nat → Nat) (h c : Nat) (s : Load) : Prop where
  filled : Filled p f (min c h) s
  addr : c ≤ h → s.kernelAddr = kernelStartAddress + c

theorem Filled.load {c : Nat} {s : Load} (hs : Filled p f c s) (z : Nat) :
    Filled p f c (load p z s) := by
  refine ⟨hs.addr.trans (Nat.le_succ _), fun j hj => ?_⟩
  have hne : kernelStartAddress + j ≠ s.kernelAddr := by
    have := hs.addr
    omega
  exact (Function.update_of_ne hne _ _).trans (hs.mem j hj)

theorem Progress.load {c z : Nat} {s : Load} (hs : Progress p f h c s) (hz : c < h → z = f c) :
    Progress p f h (c + 1) (load p z s) := by
  rcases lt_or_ge c h with hlt | hge
  · have haddr := hs.addr hlt.le
    have hfilled := hs.filled.load z
    rw [Nat.min_eq_left hlt.le] at hfilled
    refine ⟨?_, fun _ => congrArg (· + 1) haddr⟩
    rw [Nat.min_eq_left hlt]
    refine ⟨(congrArg (· + 1) haddr).ge, fun j hj => ?_⟩
    rcases Nat.lt_succ_iff_lt_or_eq.mp hj with hj | rfl
    · exact hfilled.mem j hj
    · show Function.update s.mem s.kernelAddr (p.block z) _ = _
      rw [haddr, hz hlt, Function.update_self]
  · have hfilled := hs.filled.load z
    rw [Nat.min_eq_right hge] at hfilled
    exact ⟨by rwa [Nat.min_eq_right (by omega)], fun hle => by omega⟩

theorem Progress.stop {c d : Nat} {s : Load} (hs : Progress p f h c s) (hc : h ≤ c) (hd : c < d) :
    Progress p f h d s := by
  have hfilled := hs.filled
  rw [Nat.min_eq_right hc] at hfilled
  exact ⟨by rwa [Nat.min_eq_right (by omega)], fun hle => by omega⟩

theorem Progress.intoMem {c : Nat} {s : Load} (hs : Progress p f h c s) (z : Nat) {a : Nat}
    (ha : a < kernelStartAddress) : Progress p f h c (intoMem p z a s) := by
  refine ⟨⟨hs.filled.addr, fun j hj => ?_⟩, hs.addr⟩
  exact (Function.update_of_ne (by omega) _ _).trans (hs.filled.mem j hj)

theorem load_mem {c z a : Nat} {s : Load} (hs : Progress p f h c s) (ha : a < kernelStartAddress) :
    (load p z s).mem a = s.mem a := by
  have := hs.filled.addr
  exact Function.update_of_ne (by omega) _ _

/-- The rule of the loops: `P i` holds in front of entry `i`, and `P n` at the end. -/
theorem walk_rule {entry : Memory → Nat → Nat} {body : Nat → Load → Load} {n : Nat}
    {P : Nat → Load → Prop} (hzero : ∀ i s, i < n → P i s → entry s.mem i = 0 → P n s)
    (hbody : ∀ i s, i < n → P i s → entry s.mem i ≠ 0 → P (i + 1) (body (entry s.mem i) s))
    (k : Nat) {i : Nat} {s : Load} (hi : i + k = n) (hs : P i s) : P n (walk entry body k i s) := by
  induction k generalizing i s with
  | zero =>
    obtain rfl : i = n := hi
    exact hs
  | succ k ih =>
    unfold walk
    split
    next h0 => exact hzero i s (by omega) hs h0
    next h0 => exact ih (by omega) (hbody i s (by omega) hs h0)

theorem walk_progress {t : Block → Nat → Nat} {table base n : Nat} {s : Load}
    (hbelow : table < kernelStartAddress) (hs : Progress p f h base s)
    (hf : ∀ i < n, t (s.mem table) i = f (base + i)) (hnz : ∀ j < h, f j ≠ 0) :
      Progress p f h (base + n) (walk (fun m i => t (m table) i) (load p) n 0 s) ∧
        ∀ a < kernelStartAddress, (walk (fun m i => t (m table) i) (load p) n 0 s).mem a =
          s.mem a := by
  refine @walk_rule (fun m i => t (m table) i) (load p) n
    (fun i s' => Progress p f h (base + i) s' ∧ ∀ a < kernelStartAddress, s'.mem a = s.mem a)
    ?_ ?_ n 0 s (Nat.zero_add n) ⟨hs, fun _ _ => rfl⟩
  · rintro i s' hi ⟨hs', hm⟩ h0
    refine ⟨hs'.stop ?_ (by omega), hm⟩
    by_contra hlt
    exact hnz (base + i) (not_le.mp hlt) (by rw [← hf i hi, ← hm table hbelow]; exact h0)
  · rintro i s' hi ⟨hs', hm⟩ h0
    refine ⟨hs'.load fun _ => ?_, fun a ha => (load_mem hs' ha).trans (hm a ha)⟩
    rw [← hf i hi, ← hm table hbelow]

theorem loadZones_progress {table base : Nat} {s : Load} (hbelow : table < kernelStartAddress)
    (hs : Progress p f h base s) (hf : ∀ i < zonesPerBlock, word (s.mem table) i = f (base + i))
    (hnz : ∀ j < h, f j ≠ 0) :
    Progress p f h (base + zonesPerBlock) (loadZones p table s) ∧
      ∀ a < kernelStartAddress, (loadZones p table s).mem a = s.mem a :=
  walk_progress hbelow hs hf hnz

theorem intoMem_self (z a : Nat) (s : Load) : (intoMem p z a s).mem a = p.block z :=
  Function.update_self ..

theorem intoMem_of_ne {z a a' : Nat} (s : Load) (hne : a' ≠ a) :
    (intoMem p z a s).mem a' = s.mem a' := Function.update_of_ne hne _ _

theorem loadTables_progress {base : Nat} {b : Block} {s : Load} (hs : Progress p f h base s)
    (hb : s.mem dataZone = b) (hf : ∀ i < zonesPerBlock, ∀ j < zonesPerBlock, f
      (base + (512 * i + j)) = if word b i = 0 then 0 else word (p.block (word b i)) j)
    (hnz : ∀ j < h, f j ≠ 0) : Progress p f h (base + 512 * zonesPerBlock) (loadTables p s) := by
  have hend : Progress p f h (base + 512 * zonesPerBlock) (loadTables p s) ∧
    (loadTables p s).mem dataZone = b := by
    refine @walk_rule (fun m i => word (m dataZone) i)
      (fun z s => loadZones p dataZone2 (intoMem p z dataZone2 s)) zonesPerBlock
      (fun i s => Progress p f h (base + 512 * i) s ∧ s.mem dataZone = b) ?_ ?_ zonesPerBlock 0 s
        (Nat.zero_add _) ⟨hs, hb⟩
    · rintro i s hi ⟨hs, hb⟩ h0
      refine ⟨hs.stop ?_ (by omega), hb⟩
      by_contra hlt
      refine hnz (base + 512 * i) (not_le.mp hlt) ?_
      have hfirst := hf i hi 0 (by decide)
      rwa [Nat.add_zero, if_pos (by rw [← hb]; exact h0)] at hfirst
    · rintro i s hi ⟨hs, hb⟩ h0
      have hbelow : dataZone2 < kernelStartAddress := by decide
      have hzones :=
        loadZones_progress hbelow (hs.intoMem (word (s.mem dataZone) i) hbelow) (fun j hj => ?_) hnz
      · refine ⟨?_, (hzones.2 dataZone (by decide)).trans ((intoMem_of_ne s (by decide)).trans hb)⟩
        have hstep := hzones.1
        rwa [Nat.add_assoc] at hstep
      · rw [intoMem_self, Nat.add_assoc, hf i hi j hj, ← hb, if_neg h0]
  exact hend.1

theorem loadIndirect_progress {a : Nat × Nat} {s : Load} (ha : a.1 < dataZone)
    (hs : Progress p f h 7 s) (hf : ∀ i < zonesPerBlock, f (7 + i) =
      if (dInode a s.mem).iZone 7 = 0 then 0 else word (p.block ((dInode a s.mem).iZone 7)) i)
    (hnz : ∀ j < h, f j ≠ 0) :
    Progress p f h 519 (loadIndirect p a s) ∧ (loadIndirect p a s).mem a.1 = s.mem a.1 := by
  have hbelow : dataZone < kernelStartAddress := by decide
  unfold loadIndirect
  dsimp only
  split
  next h0 =>
    refine ⟨hs.stop ?_ (by decide), rfl⟩
    by_contra hlt
    refine hnz 7 (not_le.mp hlt) ?_
    have hfirst := hf 0 (by decide)
    rwa [if_pos h0] at hfirst
  next h0 =>
    have hzones := loadZones_progress hbelow (hs.intoMem ((dInode a s.mem).iZone 7) hbelow)
      (fun i hi => by rw [intoMem_self, hf i hi, if_neg h0]) hnz
    exact ⟨hzones.1, (hzones.2 a.1 (by omega)).trans (intoMem_of_ne s (by omega))⟩

theorem loadDouble_progress {a : Nat × Nat} {s : Load} (hs : Progress p f h 519 s)
    (hf : ∀ i < zonesPerBlock, ∀ j < zonesPerBlock, f (519 + (512 * i + j)) =
      if (dInode a s.mem).iZone 8 = 0 then 0
      else if word (p.block ((dInode a s.mem).iZone 8)) i = 0 then 0
      else word (p.block (word (p.block ((dInode a s.mem).iZone 8)) i)) j)
    (hnz : ∀ j < h, f j ≠ 0) : Progress p f h maxBlocks (loadDouble p a s) := by
  unfold loadDouble
  dsimp only
  split
  next h0 =>
    refine hs.stop ?_ (by decide)
    by_contra hlt
    refine hnz 519 (not_le.mp hlt) ?_
    have hfirst := hf 0 (by decide) 0 (by decide)
    rwa [if_pos h0] at hfirst
  next h0 =>
    refine loadTables_progress (hs.intoMem ((dInode a s.mem).iZone 8) (by decide)) (intoMem_self ..)
      (fun i hi j hj => ?_) hnz
    rw [hf i hi j hj, if_neg h0]

theorem indexEntry_reader (z j : Nat) :
    Image.indexEntry (reader p) z j = if z = 0 then 0 else word (p.block z) j := rfl

/-- The inode in memory is that of the kernel, but for the last one of a block. -/
theorem dInode_getInode {ino : Nat} (hino : ino % inodesPerBlock ≠ 0) (m : Memory) :
    (getInode p ino m).2.1 = inodes ∧ dInode (getInode p ino m).2 (getInode p ino m).1 =
      kernelInode p ino := by
  have h32 : inodesPerBlock = 32 := rfl
  have hat : (getInode p ino m).2 = (inodes, ino % inodesPerBlock - 1) := by
    show (if ino % inodesPerBlock = 0 then _ else _) = _
    rw [if_neg hino]
  have hmem : (getInode p ino m).1 inodes = p.block
    (2 + p.sImapBlocks + p.sZmapBlocks + ino / inodesPerBlock) := by
    simp only [getInode, readBlock, Function.update_self]
  have hdiv : (ino - 1) / inodesPerBlock = ino / inodesPerBlock := by
    rw [h32] at hino ⊢
    omega
  have hmod : (ino - 1) % inodesPerBlock = ino % inodesPerBlock - 1 := by
    rw [h32] at hino ⊢
    omega
  rw [hat]
  refine ⟨rfl, ?_⟩
  rw [dInode, hmem, kernelInode, hdiv, hmod]

theorem dInode_congr {a : Nat × Nat} {m m' : Memory} (he : m a.1 = m' a.1) :
    dInode a m = dInode a m' := by
  rw [dInode, he, dInode]

/-- A file without a hole in front of one of its blocks is loaded as the kernel maps it. -/
theorem loadBin_loaded {ino : Nat} (hino : ino % inodesPerBlock ≠ 0) (hhole : NoHole p ino)
    (m : Memory) : Loaded p ino (loadBin p ino m) := by
  intro k z hk hz hz0
  obtain ⟨hat, hinode⟩ := dInode_getInode hino m
  have hmax : k < maxBlocks := by
    by_contra hge
    rw [bmap, Image.bmap_eq_none (not_lt.mp hge)] at hz
    cases hz
  obtain ⟨f, hf⟩ : ∃ f : Nat → Nat, ∀ j < maxBlocks, bmap p ino j = some (f j) :=
    ⟨fun j => (bmap p ino j).getD 0, fun j hj => by
      obtain ⟨v, hv⟩ := @Image.bmap_isSome (reader p) (kernelInode p ino) j hj
      show Image.bmap (reader p) (kernelInode p ino) j =
        some ((Image.bmap (reader p) (kernelInode p ino) j).getD 0)
      rw [hv, Option.getD_some]⟩
  have hzk : f k = z := Option.some.inj ((hf k hmax).symm.trans hz)
  have hnz : ∀ j < k + 1, f j ≠ 0 := by
    intro j hj h0
    rcases Nat.lt_succ_iff_lt_or_eq.mp hj with hj | rfl
    · exact hhole k z hk hz hz0 j hj (by rw [hf j (by omega), h0])
    · exact hz0 (hzk.symm.trans h0)
  have hsize : (dInode (getInode p ino m).2 (getInode p ino m).1).iSize ≠ 0 := by
    rw [hinode]
    omega
  generalize hget : getInode p ino m = r at hat hinode hsize
  obtain ⟨m', a⟩ := r
  dsimp only at hat hinode hsize
  have hstart : Progress p f (k + 1) 0 ⟨m', kernelStartAddress⟩ :=
    ⟨⟨Nat.le_refl _, fun j hj => absurd hj (by omega)⟩, fun _ => rfl⟩
  have hbelow : a.1 < kernelStartAddress := by
    rw [hat]
    decide
  have hblocks : maxBlocks = 262663 := rfl
  have hzones : zonesPerBlock = 512 := rfl
  have hdirect :=
    walk_progress (t := fun b i => (readInodeAt b a.2 zeroInode).iZone i)
      (n := 7) hbelow hstart (fun i hi => by
    show (dInode a m').iZone i = f (0 + i)
    rw [hinode, Nat.zero_add]
    exact Option.some.inj ((Image.bmap_direct hi).symm.trans (hf i (by omega)))) hnz
  have hinode₁ : dInode a (loadDirect p a ⟨m', kernelStartAddress⟩).mem = kernelInode p ino :=
    (dInode_congr (hdirect.2 a.1 hbelow)).trans hinode
  have hindirect :=
    loadIndirect_progress (s := loadDirect p a ⟨m', kernelStartAddress⟩)
      (by rw [hat]; decide) hdirect.1 (fun i hi => by
    rw [hinode₁, ← indexEntry_reader]
    exact Option.some.inj ((hf (7 + i) (by omega)).symm.trans (Image.bmap_indirect hi))) hnz
  have hinode₂ : dInode a (loadIndirect p a (loadDirect p a ⟨m', kernelStartAddress⟩)).mem =
    kernelInode p ino :=
    (dInode_congr hindirect.2).trans hinode₁
  have hdouble := loadDouble_progress (a := a) hindirect.1 (fun i hi j hj => by
    rw [hinode₂]
    refine Option.some.inj ((hf _ (by omega)).symm.trans ((Image.bmap_double hi hj).trans ?_))
    simp only [indexEntry_reader]
    by_cases h8 : (kernelInode p ino).iZone 8 = 0
    · rw [if_pos h8, if_pos h8, if_pos rfl]
    · rw [if_neg h8, if_neg h8]) hnz
  have hfilled := hdouble.filled
  rw [Nat.min_eq_right hmax] at hfilled
  have hmem := hfilled.mem k (Nat.lt_succ_self k)
  rw [loadBin, hget]
  dsimp only
  rw [if_neg hsize, hmem, hzk]

end

/-- A partition whose first inode has a size and three zones. -/
def threeZones (size z₀ z₁ z₂ : Nat) : Partition where
  sImapBlocks := 0
  sZmapBlocks := 0
  block z :=
    if z = 2 then BitVec.ofNat 8192 size <<< 32 ||| BitVec.ofNat 8192 z₀ <<< 112 |||
      BitVec.ofNat 8192 z₁ <<< 128 ||| BitVec.ofNat 8192 z₂ <<< 144
    else BitVec.ofNat 8192 z

theorem loadBin_loaded_twoZones :
    Loaded (threeZones 2048 5 6 0) 1 (loadBin (threeZones 2048 5 6 0) 1 fun _ => 0) := by
  refine loadBin_loaded (by decide) (fun k z hk hz hz0 j hj => ?_) _
  have hsize : (kernelInode (threeZones 2048 5 6 0) 1).iSize = 2048 := by decide +kernel
  have hk2 : k < 2 := by omega
  have hj0 : j = 0 := by omega
  subst hj0
  decide +kernel

/-- The block behind a hole is not loaded. -/
theorem loadBin_hole :
    ¬ ∀ (p : Partition) (ino : Nat) (m : Memory), 0 < (kernelInode p ino).iSize →
      Loaded p ino (loadBin p ino m) := by
  intro h
  have hthird :=
    h (threeZones 3072 5 0 6) 1 (fun _ => 0) (by decide +kernel) 2 6 (by decide +kernel)
      (by decide +kernel) (by decide)
  revert hthird
  decide +kernel

end Gpos.Boot
