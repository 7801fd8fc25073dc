import Gpos.Floppy

/-! What the floppy loaders put into memory: the clusters of the file in the order of its chain in
the FAT. -/

namespace Gpos.Floppy

/-- Bit `n` of the first FAT, where entry `k` has the twelve bits from bit `12 * k` on. -/
def fatBit (d : Disk) (n : Nat) : Bool :=
  (d (secNoOfFat1 + n / 8 / bytsPerSec) (n / 8 % bytsPerSec)).getLsbD (n % 8)

def fatEntry (d : Disk) (k : Nat) : Nat := Nat.ofBits fun i : Fin 12 => fatBit d (12 * k + i)

/-- Byte `j` of entry `e` of the root directory. -/
def dirByte (d : Disk) (e j : Nat) : BitVec 8 := d (secNoOfRootDir + e / 16) (e % 16 * 32 + j)

def Named (d : Disk) (name : List (BitVec 8)) (e : Nat) : Prop :=
  ∀ j (h : j < name.length), dirByte d e j = name[j]

def firstCluster (d : Disk) (e : Nat) : Nat :=
  (dirByte d e 0x1a).toNat + 256 * (dirByte d e 0x1b).toNat

def dirEntries : Nat := rootDirSectors * 16

/-- The sector of a cluster. -/
def clusterSector (c : Nat) : Nat := c + (rootDirSectors + deltaSecNo)

/-- The clusters behind `c` up to the end of the file. -/
def Chain (d : Disk) : Nat → List Nat → Prop
  | c, [] => fatEntry d c = 0xfff
  | c, c' :: cs => fatEntry d c = c' ∧ c' ≠ 0xfff ∧ Chain d c' cs

/-- The first entry with the name is that of a file of the clusters `c :: cs`. -/
structure File (d : Disk) (name : List (BitVec 8)) (c : Nat) (cs : List Nat) : Prop where
  entry : ∃ e, e < dirEntries ∧ Named d name e ∧ (∀ e', e' < e → ¬ Named d name e') ∧
    firstCluster d e = c
  chain : Chain d c cs
  onDisk : ∀ x ∈ c :: cs, clusterSector x < totSec

/-- The file goes to whole sectors of its segment, which is not where the FAT is. -/
structure Loader.Fits (l : Loader) : Prop where
  name : l.name.length < 32
  dirOffset : l.dirOffset % 32 = 0
  offset : l.offset % 512 = 0 ∧ l.offset < 2 ^ 16
  fat : l.base * 16 + 0x10000 ≤ baseOfFat * 16 ∨ baseOfFat * 16 + 0x400 ≤ l.base * 16

theorem fits_boot : boot.Fits := ⟨by decide, by decide, by decide, by decide⟩

theorem fits_loader : loader.Fits := ⟨by decide, by decide, by decide, by decide⟩

variable {d : Disk} {m m' : Memory} {es : Nat} {name : List (BitVec 8)}

/-! The sectors. -/

/-- `ReadSector` asks for the sector it is given. -/
theorem chs_first {ax cl : Nat} {c : Chs} (h : chs ax cl = some c) :
    c.first = ax ∧ c.count = cl ∧ (c.Readable ↔ ax < totSec ∧ ax % secPerTrk + cl ≤ secPerTrk) := by
  unfold chs at h
  split at h
  next hlt =>
    obtain rfl := Option.some.inj h
    simp only [Chs.first, Chs.Readable, numHeads, secPerTrk, totSec] at hlt ⊢
    refine ⟨by omega, trivial, by omega, by omega⟩
  next => cases h

theorem readSector_of_lt {ax : Nat} (cl es bx : Nat) (hax : ax < totSec)
    (hcl : ax % secPerTrk + cl ≤ secPerTrk) : ∃ m', readSector d ax cl es bx m = some m' ∧
      ∀ a, m' a = if es * 16 + bx ≤ a ∧ a < es * 16 + bx + cl * bytsPerSec then
        d (ax + (a - (es * 16 + bx)) / bytsPerSec) ((a - (es * 16 + bx)) % bytsPerSec)
          else m a := by
  have hlt : ax / secPerTrk < 256 := by
    simp only [totSec, secPerTrk] at hax ⊢
    omega
  obtain ⟨c, hc⟩ : ∃ c, chs ax cl = some c := ⟨_, if_pos hlt⟩
  obtain ⟨hfirst, hcount, hread⟩ := chs_first hc
  refine ⟨int13 d c es bx m, ?_, fun a => ?_⟩
  · rw [readSector, hc, Option.bind_some, if_pos (hread.mpr ⟨hax, hcl⟩)]
  · rw [int13, hfirst, hcount]

theorem lt_of_readSector {ax cl bx : Nat} (h : readSector d ax cl es bx m = some m') :
    ax < totSec := by
  obtain ⟨c, hc, h⟩ := Option.bind_eq_some_iff.mp h
  split at h
  next hread => exact ((chs_first hc).2.2.mp hread).1
  next => cases h

/-! The FAT. -/

theorem word_testBit (m : Memory) (a j : Nat) :
    (word m a).testBit j = if j < 8 then (m a).getLsbD j else (m (a + 1)).getLsbD (j - 8) := by
  have h := Nat.testBit_two_pow_mul_add (m (a + 1)).toNat (m a).isLt j
  rw [word, Nat.add_comm]
  exact h

theorem fatEntry_testBit (d : Disk) (k i : Nat) :
    (fatEntry d k).testBit i = (decide (i < 12) && fatBit d (12 * k + i)) := by
  by_cases hi : i < 12
  · rw [fatEntry, Nat.testBit_ofBits_lt _ _ hi, decide_eq_true hi, Bool.true_and]
  · rw [fatEntry, Nat.testBit_ofBits_ge _ _ (by omega), decide_eq_false hi, Bool.false_and]

/-- The word at a byte of the two sectors that are read has the bits of the FAT from there on,
also where it lies in both. -/
theorem word_fat {o base : Nat} (hm : ∀ a, base ≤ a → a < base + 2 * bytsPerSec → m a =
      d (o / bytsPerSec + secNoOfFat1 + (a - base) / bytsPerSec) ((a - base) % bytsPerSec))
    {j : Nat} (hj : j < 16) :
    (word m (base + o % bytsPerSec)).testBit j = fatBit d (8 * o + j) := by
  have hat : ∀ b, b ≤ 1 → m (base + o % bytsPerSec + b) =
      d (secNoOfFat1 + (o + b) / bytsPerSec) ((o + b) % bytsPerSec) := by
    intro b hb
    rw [hm _ (by omega) (by simp only [bytsPerSec]; omega),
      show base + o % bytsPerSec + b - base = o % bytsPerSec + b by omega,
      show o / bytsPerSec + secNoOfFat1 + (o % bytsPerSec + b) / bytsPerSec =
        secNoOfFat1 + (o + b) / bytsPerSec by simp only [bytsPerSec]; omega,
      show (o % bytsPerSec + b) % bytsPerSec = (o + b) % bytsPerSec by
        simp only [bytsPerSec]; omega]
  rw [word_testBit, fatBit]
  split
  next hlt =>
    rw [show (8 * o + j) / 8 = o + 0 by omega, show (8 * o + j) % 8 = j by omega,
      ← hat 0 (by omega), Nat.add_zero]
  next hge =>
    rw [show (8 * o + j) / 8 = o + 1 by omega, show (8 * o + j) % 8 = j - 8 by omega,
      ← hat 1 le_rfl]

theorem fatEntry_lt (d : Disk) (k : Nat) : fatEntry d k < 2 ^ 12 := Nat.ofBits_lt_two_pow _

/-- An entry is read as the FAT has it. -/
theorem getFATEntry_of_lt {k : Nat} (hk : k < 2 ^ 12) :
    ∃ m', getFATEntry d k m = some (fatEntry d k, m') ∧
      ∀ a, a < baseOfFat * 16 ∨ baseOfFat * 16 + 0x400 ≤ a → m' a = m a := by
  have hsector : k * 12 / 8 / bytsPerSec + secNoOfFat1 < 13 := by
    simp only [bytsPerSec, secNoOfFat1]
    omega
  obtain ⟨m', hread, hm⟩ := readSector_of_lt (d := d) (m := m) 2 baseOfFat 0
    (show k * 12 / 8 / bytsPerSec + secNoOfFat1 < totSec by simp only [totSec]; omega)
    (by rw [Nat.mod_eq_of_lt (hsector.trans (by decide))]; simp only [secPerTrk]; omega)
  simp only [Nat.add_zero] at hm
  refine ⟨m', ?_, fun a ha => ?_⟩
  · rw [getFATEntry, if_pos (by omega)]
    dsimp only
    rw [hread]
    refine congrArg some (Prod.ext (Nat.eq_of_testBit_eq fun i => ?_) rfl)
    have hbit := @word_fat d m' (k * 12 / 8) (baseOfFat * 16) fun a ha ha' => by
      rw [hm, if_pos ⟨ha, ha'⟩]
    have hmask : (0xfff : Nat).testBit i = decide (i < 12) := Nat.testBit_two_pow_sub_one 12 i
    rw [fatEntry_testBit, Nat.testBit_and, hmask, Bool.and_comm]
    by_cases hi : i < 12
    · congr 1
      split
      next heven =>
        rw [hbit (by omega)]
        congr 1
        omega
      next hodd =>
        rw [Nat.testBit_shiftRight, hbit (by omega)]
        congr 1
        omega
    · rw [decide_eq_false hi, Bool.false_and, Bool.false_and]
  · rw [hm, if_neg (by simp only [bytsPerSec]; omega)]

theorem lt_of_getFATEntry {k : Nat} {r : Nat × Memory} (h : getFATEntry d k m = some r) :
    k < 43691 := by
  unfold getFATEntry at h
  split at h
  next hlt => omega
  next => cases h

/-! The search. -/

def Matches (m : Memory) (a : Nat) (name : List (BitVec 8)) : Prop :=
  ∀ j (h : j < name.length), m (a + j) = name[j]

theorem cmpFilename_spec (m : Memory) (es : Nat) (name : List (BitVec 8)) (di : Nat) :
    ((cmpFilename m es name di).1 = true ↔ Matches m (es * 16 + di) name) ∧
      di ≤ (cmpFilename m es name di).2 ∧ (cmpFilename m es name di).2 ≤ di + name.length := by
  induction name generalizing di with
  | nil => exact ⟨iff_of_true rfl nofun, le_rfl, le_rfl⟩
  | cons c cs ih =>
    rw [cmpFilename]
    split
    next heq =>
      obtain ⟨hiff, hle, hle'⟩ := ih (di + 1)
      refine ⟨hiff.trans ⟨fun h j hj => ?_, fun h j hj => ?_⟩, by omega, ?_⟩
      · cases j with
        | zero => exact heq
        | succ j =>
          have hrest := h j (Nat.lt_of_succ_lt_succ hj)
          rwa [show es * 16 + (di + 1) + j = es * 16 + di + (j + 1) by omega] at hrest
      · have hrest := h (j + 1) (Nat.succ_lt_succ hj)
        rwa [show es * 16 + di + (j + 1) = es * 16 + (di + 1) + j by omega] at hrest
      · rw [List.length_cons]
        omega
    next hne =>
      exact ⟨iff_of_false Bool.false_ne_true fun h => hne (h 0 (Nat.succ_pos _)), le_rfl,
        Nat.le_add_right _ _⟩

/-- One entry of a sector. -/
theorem searchSector_succ (hname : name.length < 32) {di : Nat} (hdi : di % 32 = 0) (dx : Nat) :
    (Matches m (es * 16 + di) name → searchSector m es name (dx + 1) di = some di) ∧
      (¬ Matches m (es * 16 + di) name →
        searchSector m es name (dx + 1) di = searchSector m es name dx (di + 0x20)) := by
  obtain ⟨hiff, hle, hle'⟩ := cmpFilename_spec m es name di
  rw [searchSector]
  rcases hc : cmpFilename m es name di with ⟨found, di'⟩
  rw [hc] at hiff hle hle'
  have hhead : entryHead di' = di := by
    simp only [entryHead] at hle hle' ⊢
    omega
  cases found with
  | true => exact ⟨fun _ => congrArg some hhead, fun hno => absurd (hiff.mp rfl) hno⟩
  | false =>
    refine ⟨fun hyes => absurd (hiff.mpr hyes) Bool.false_ne_true, fun _ => ?_⟩
    dsimp only
    rw [hhead]

theorem searchSector_some (hname : name.length < 32) {di i : Nat} (hdi : di % 32 = 0) {dx : Nat}
    (hi : i < dx) (hmatch : Matches m (es * 16 + (di + 32 * i)) name)
    (hno : ∀ i', i' < i → ¬ Matches m (es * 16 + (di + 32 * i')) name) :
    searchSector m es name dx di = some (di + 32 * i) := by
  induction dx generalizing di i with
  | zero => cases hi
  | succ dx ih =>
    cases i with
    | zero => exact (searchSector_succ hname hdi dx).1 hmatch
    | succ i =>
      rw [(searchSector_succ hname hdi dx).2 (hno 0 (Nat.succ_pos _)),
        ih (i := i) (by omega) (by omega)
          (by rwa [show di + 0x20 + 32 * i = di + 32 * (i + 1) by omega])
          fun i' hi' => by
            rw [show di + 0x20 + 32 * i' = di + 32 * (i' + 1) by omega]
            exact hno (i' + 1) (by omega)]
      congr 1
      omega

theorem searchSector_none (hname : name.length < 32) {di : Nat} (hdi : di % 32 = 0) {dx : Nat}
    (hno : ∀ i, i < dx → ¬ Matches m (es * 16 + (di + 32 * i)) name) :
    searchSector m es name dx di = none := by
  induction dx generalizing di with
  | zero => rfl
  | succ dx ih =>
    rw [(searchSector_succ hname hdi dx).2 (hno 0 (Nat.succ_pos _))]
    refine ih (by omega) fun i hi => ?_
    rw [show di + 0x20 + 32 * i = di + 32 * (i + 1) by omega]
    exact hno (i + 1) (by omega)

/-- Memory holds the sector of the directory in which entry `e` lies. -/
def HoldsEntry (d : Disk) (off e : Nat) (m : Memory) : Prop :=
  ∀ j, j < 32 → m (baseOfLoader * 16 + (off + 32 * (e % 16)) + j) = dirByte d e j

/-- One sector of the directory. -/
theorem readSector_rootDir {s : Nat} (hs : s < rootDirSectors) (off : Nat) :
    ∃ m', readSector d (secNoOfRootDir + s) 1 baseOfLoader off m = some m' ∧
      ∀ e, e / 16 = s → HoldsEntry d off e m' := by
  have hs' : s < 14 := hs
  obtain ⟨m', hread, hm⟩ := readSector_of_lt (d := d) (m := m) 1 baseOfLoader off
    (show secNoOfRootDir + s < totSec by simp only [secNoOfRootDir, totSec]; omega)
    (by simp only [secPerTrk]; omega)
  refine ⟨m', hread, fun e he j hj => ?_⟩
  generalize baseOfLoader * 16 = base at hm ⊢
  rw [hm, if_pos (by simp only [bytsPerSec]; omega), dirByte, he,
    show base + (off + 32 * (e % 16)) + j - (base + off) = e % 16 * 32 + j by omega,
    show (e % 16 * 32 + j) / bytsPerSec = 0 by simp only [bytsPerSec]; omega,
    show (e % 16 * 32 + j) % bytsPerSec = e % 16 * 32 + j by simp only [bytsPerSec]; omega,
    Nat.add_zero]

theorem HoldsEntry.matches_iff {off e : Nat} (h : HoldsEntry d off e m) (hname : name.length < 32) :
    Matches m (baseOfLoader * 16 + (off + 32 * (e % 16))) name ↔ Named d name e := by
  refine forall₂_congr fun j hj => ?_
  rw [h j (hj.trans hname)]

/-- The first entry with the name is found. -/
theorem searchRootDir_some {off e : Nat} (hname : name.length < 32) (hoff : off % 32 = 0)
    (he : e < dirEntries) (hnamed : Named d name e) (hfirst : ∀ e', e' < e → ¬ Named d name e')
    {size s : Nat} (hs : s + size = rootDirSectors) (hse : s ≤ e / 16) :
    ∃ m', searchRootDir d name off size (secNoOfRootDir + s) m =
      some (some (off + 32 * (e % 16)), m') ∧ HoldsEntry d off e m' := by
  have he' : e < 14 * 16 := he
  have hs' : s + size = 14 := hs
  induction size generalizing s m with
  | zero => omega
  | succ size ih =>
    obtain ⟨m₁, hread, hholds⟩ := readSector_rootDir (d := d) (m := m) (s := s)
      (by simp only [rootDirSectors]; omega) off
    rw [searchRootDir, hread, Option.bind_some]
    rcases Nat.lt_or_eq_of_le hse with hlt | heq
    · have hnone : searchSector m₁ baseOfLoader name 0x10 off = none := by
        refine searchSector_none hname hoff fun i hi => ?_
        have hentry := (hholds (16 * s + i) (by omega)).matches_iff hname
        rw [show (16 * s + i) % 16 = i by omega] at hentry
        exact hentry.not.mpr (hfirst _ (by omega))
      rw [hnone]
      exact ih (s := s + 1) (by omega) (by omega) (by omega)
    · have hsome : searchSector m₁ baseOfLoader name 0x10 off = some (off + 32 * (e % 16)) := by
        refine searchSector_some hname hoff (by omega)
          (((hholds e heq.symm).matches_iff hname).mpr hnamed) fun i hi => ?_
        have hentry := (hholds (16 * s + i) (by omega)).matches_iff hname
        rw [show (16 * s + i) % 16 = i by omega] at hentry
        exact hentry.not.mpr (hfirst _ (by omega))
      rw [hsome]
      exact ⟨m₁, rfl, hholds e heq.symm⟩

theorem searchRootDir_none {off : Nat} (hname : name.length < 32) (hoff : off % 32 = 0)
    (hno : ∀ e, e < dirEntries → ¬ Named d name e) {size s : Nat}
    (hs : s + size = rootDirSectors) :
    ∃ m', searchRootDir d name off size (secNoOfRootDir + s) m = some (none, m') := by
  have hs' : s + size = 14 := hs
  induction size generalizing s m with
  | zero => exact ⟨m, rfl⟩
  | succ size ih =>
    obtain ⟨m₁, hread, hholds⟩ := readSector_rootDir (d := d) (m := m) (s := s)
      (by simp only [rootDirSectors]; omega) off
    have hnone : searchSector m₁ baseOfLoader name 0x10 off = none := by
      refine searchSector_none hname hoff fun i hi => ?_
      have hentry := (hholds (16 * s + i) (by omega)).matches_iff hname
      rw [show (16 * s + i) % 16 = i by omega] at hentry
      exact hentry.not.mpr (hno _ (by simp only [dirEntries, rootDirSectors]; omega))
    rw [searchRootDir, hread, Option.bind_some, hnone]
    exact ih (s := s + 1) (by omega) (by omega)

/-! The clusters. -/

/-- Sector `k` of the segment holds the sector of cluster `c`. -/
def HoldsCluster (d : Disk) (es k c : Nat) (m : Memory) : Prop :=
  ∀ j, j < bytsPerSec → m (es * 16 + bytsPerSec * (k % 128) + j) = d (clusterSector c) j

/-- Where neither the FAT nor one of the sectors `s + i` of the segment lies. -/
def Clear (es s n a : Nat) : Prop :=
  (a < baseOfFat * 16 ∨ baseOfFat * 16 + 0x400 ≤ a) ∧
    ∀ i, i < n → a < es * 16 + bytsPerSec * ((s + i) % 128) ∨
      es * 16 + bytsPerSec * ((s + i) % 128) + bytsPerSec ≤ a

/-- One round reads the sector of a cluster and the entry that names the next one. -/
theorem round_spec {c s : Nat} (hc : clusterSector c < totSec) (hs : s < 128)
    (hfat : es * 16 + 0x10000 ≤ baseOfFat * 16 ∨ baseOfFat * 16 + 0x400 ≤ es * 16) :
    ∃ m₁ m₂, readSector d (clusterSector c) 1 es (bytsPerSec * s) m = some m₁ ∧
      getFATEntry d c m₁ = some (fatEntry d c, m₂) ∧ HoldsCluster d es s c m₂ ∧
        ∀ a, Clear es s 1 a → m₂ a = m a := by
  have hc' : c + 31 < 2880 := hc
  obtain ⟨m₁, hread, hm₁⟩ := readSector_of_lt (d := d) (m := m) 1 es (bytsPerSec * s) hc (by
      have := Nat.mod_lt (clusterSector c) (show 0 < secPerTrk by decide)
      omega)
  obtain ⟨m₂, hget, hm₂⟩ := getFATEntry_of_lt (d := d) (m := m₁) (k := c) (by omega)
  have hmod : s % 128 = s := Nat.mod_eq_of_lt hs
  refine ⟨m₁, m₂, hread, hget, fun j hj => ?_, fun a ha => ?_⟩
  · have hj' : j < 512 := hj
    rw [hmod, hm₂ _ (by simp only [bytsPerSec]; omega), hm₁, if_pos ⟨by omega, by omega⟩,
      Nat.add_sub_cancel_left, Nat.div_eq_of_lt hj, Nat.mod_eq_of_lt hj, Nat.add_zero]
  · obtain ⟨haf, has⟩ := ha
    have has₀ := has 0 (by omega)
    rw [Nat.add_zero, hmod] at has₀
    rw [hm₂ a haf, hm₁, if_neg (by simp only [bytsPerSec] at has₀ ⊢; omega)]

/-- The last 128 clusters of the file are in memory, each in its sector of the segment. -/
theorem goonLoadingFile_spec {c : Nat} {cs : List Nat} (hchain : Chain d c cs)
    (hdisk : ∀ x ∈ c :: cs, clusterSector x < totSec)
    (hfat : es * 16 + 0x10000 ≤ baseOfFat * 16 ∨ baseOfFat * 16 + 0x400 ≤ es * 16) {s : Nat}
    (hs : s < 128) {rounds : Nat} (hr : cs.length < rounds) :
    ∃ m', goonLoadingFile d es rounds (clusterSector c) c (bytsPerSec * s) m = some m' ∧
      (∀ i (h : i < (c :: cs).length), (c :: cs).length ≤ i + 128 →
        HoldsCluster d es (s + i) (c :: cs)[i] m') ∧
      ∀ a, Clear es s (c :: cs).length a → m' a = m a := by
  induction cs generalizing c s m rounds with
  | nil =>
    obtain ⟨rounds, rfl⟩ : ∃ n, rounds = n + 1 := ⟨rounds - 1, by omega⟩
    obtain ⟨m₁, m₂, hread, hget, hholds, hsame⟩ := round_spec (d := d) (m := m)
      (hdisk c List.mem_cons_self) hs hfat
    have hend : fatEntry d c = 0xfff := hchain
    rw [goonLoadingFile, hread, Option.bind_some, hget, Option.bind_some]
    refine ⟨m₂, if_pos hend, fun i hi _ => ?_, hsame⟩
    obtain rfl : i = 0 := by simpa using hi
    exact hholds
  | cons c' cs ih =>
    obtain ⟨rounds, rfl⟩ : ∃ n, rounds = n + 1 := ⟨rounds - 1, by omega⟩
    obtain ⟨m₁, m₂, hread, hget, hholds, hsame⟩ := round_spec (d := d) (m := m)
      (hdisk c List.mem_cons_self) hs hfat
    obtain ⟨hnext, hne, hrest⟩ := hchain
    have hc' : c' + 31 < 2880 := hdisk c' (by simp)
    obtain ⟨m', hload, hclusters, hother⟩ := ih (m := m₂) (s := (s + 1) % 128) hrest
      (fun x hx => hdisk x (List.mem_cons_of_mem c hx)) (Nat.mod_lt _ (by decide))
      (show cs.length < rounds by simpa using hr)
    have hslot : ∀ i, ((s + 1) % 128 + i) % 128 = (s + (i + 1)) % 128 := fun i => by omega
    refine ⟨m', ?_, fun i hi hlen => ?_, fun a ha => ?_⟩
    · rw [goonLoadingFile, hread, Option.bind_some, hget, Option.bind_some, hnext]
      dsimp only
      rw [if_neg hne,
        show (c' + rootDirSectors + deltaSecNo) % 2 ^ 16 = clusterSector c' by
          simp only [clusterSector, rootDirSectors, deltaSecNo]
          omega,
        show (bytsPerSec * s + bytsPerSec) % 2 ^ 16 = bytsPerSec * ((s + 1) % 128) by
          simp only [bytsPerSec]
          omega]
      exact hload
    · cases i with
      | succ i =>
        intro j hj
        have hat := hclusters i (Nat.lt_of_succ_lt_succ hi)
          (by simp only [List.length_cons] at hlen ⊢; omega) j hj
        rwa [hslot] at hat
      | zero =>
        intro j hj
        have hj' : j < 512 := hj
        -- no later cluster comes to the sector of the first one
        rw [Nat.add_zero, hother, hholds j hj]
        · rfl
        · refine ⟨?_, fun i hi => ?_⟩
          · simp only [bytsPerSec]
            omega
          · rw [hslot]
            simp only [List.length_cons] at hlen hi
            simp only [bytsPerSec]
            omega
    · rw [hother, hsame]
      · exact ⟨ha.1, fun i hi => ha.2 i (by rw [List.length_cons]; omega)⟩
      · refine ⟨ha.1, fun i hi => ?_⟩
        rw [hslot]
        exact ha.2 (i + 1) (by rw [List.length_cons]; omega)

/-- Whatever is loaded was a chain of clusters of the disk, and the last entry was `0xfff`. -/
theorem chain_of_goonLoadingFile {rounds index bx : Nat} (hindex : index < 2 ^ 16)
    (h : goonLoadingFile d es rounds ((index + rootDirSectors + deltaSecNo) % 2 ^ 16) index bx m =
      some m') :
    ∃ cs, Chain d index cs ∧ ∀ x ∈ index :: cs, clusterSector x < totSec := by
  induction rounds generalizing index bx m with
  | zero => cases h
  | succ rounds ih =>
    obtain ⟨m₁, hread, h⟩ := Option.bind_eq_some_iff.mp h
    obtain ⟨⟨entry, m₂⟩, hget, h⟩ := Option.bind_eq_some_iff.mp h
    have hsector : (index + 14 + 17) % 2 ^ 16 < 2880 := lt_of_readSector hread
    have hlt := lt_of_getFATEntry hget
    have hdisk : clusterSector index < totSec := by
      simp only [clusterSector, rootDirSectors, deltaSecNo, totSec]
      omega
    obtain ⟨m₃, hget', -⟩ := getFATEntry_of_lt (d := d) (m := m₁) (k := index) (by omega)
    obtain ⟨rfl, rfl⟩ := Prod.mk.inj (Option.some.inj (hget.symm.trans hget'))
    dsimp only at h
    split at h
    next hend => exact ⟨[], hend, fun x hx => List.mem_singleton.mp hx ▸ hdisk⟩
    next hne =>
      obtain ⟨cs, hchain, hrest⟩ := ih ((fatEntry_lt d index).trans (by decide)) h
      exact ⟨_ :: cs, ⟨rfl, hne, hchain⟩, fun x hx => (List.mem_cons.mp hx).elim
        (fun he => he ▸ hdisk) (hrest x)⟩

variable {l : Loader}

/-- The search, and the cluster that is read from the entry. -/
theorem load_eq (hl : l.Fits) {e : Nat} (he : e < dirEntries) (hnamed : Named d l.name e)
    (hfirst : ∀ e', e' < e → ¬ Named d l.name e') (rounds : Nat) (m : Memory) :
    ∃ m₁, l.load d rounds m = (goonLoadingFile d l.base rounds
      ((firstCluster d e + rootDirSectors + deltaSecNo) % 2 ^ 16) (firstCluster d e) l.offset
        m₁).map some := by
  obtain ⟨m₁, hsearch, hholds⟩ := searchRootDir_some (m := m) hl.name hl.dirOffset he hnamed hfirst
    (Nat.zero_add rootDirSectors) (Nat.zero_le _)
  have hword : word m₁ (baseOfLoader * 16 + (l.dirOffset + 32 * (e % 16) + 0x1a)) =
      firstCluster d e := by
    rw [word, firstCluster, ← hholds 0x1a (by decide), ← hholds 0x1b (by decide)]
    rfl
  refine ⟨m₁, ?_⟩
  rw [Nat.add_zero] at hsearch
  rw [Loader.load, hsearch, Option.bind_some]
  dsimp only
  rw [hword]

/-- A file is loaded with its clusters one after another, modulo the size of a segment: where it
is longer, the last 128 of them stay. -/
theorem load_file (hl : l.Fits) {c : Nat} {cs : List Nat} (hf : File d l.name c cs) {rounds : Nat}
    (hr : cs.length < rounds) : ∃ m', l.load d rounds m = some (some m') ∧
      ∀ i (h : i < (c :: cs).length), (c :: cs).length ≤ i + 128 → ∀ j, j < bytsPerSec →
        m' (l.base * 16 + (l.offset + bytsPerSec * i) % 2 ^ 16 + j) =
          d (clusterSector (c :: cs)[i]) j := by
  obtain ⟨⟨e, he, hnamed, hfirst, hcluster⟩, hchain, hdisk⟩ := hf
  obtain ⟨m₁, hload⟩ := load_eq hl he hnamed hfirst rounds m
  obtain ⟨hmod, hlt⟩ := hl.offset
  have hslot : l.offset = bytsPerSec * (l.offset / 512) := by
    simp only [bytsPerSec]
    omega
  have hc : c + 31 < 2880 := hdisk c List.mem_cons_self
  obtain ⟨m', hm', hclusters, -⟩ := goonLoadingFile_spec (m := m₁) (s := l.offset / 512) hchain
    hdisk hl.fat (by omega) hr
  refine ⟨m', ?_, fun i hi hlen j hj => ?_⟩
  · rw [hload, hcluster, show (c + rootDirSectors + deltaSecNo) % 2 ^ 16 = clusterSector c by
      simp only [clusterSector, rootDirSectors, deltaSecNo]
      omega, hslot, hm']
    rfl
  · have hat := hclusters i hi hlen j hj
    rwa [show bytsPerSec * ((l.offset / 512 + i) % 128) = (l.offset + bytsPerSec * i) % 2 ^ 16 by
      simp only [bytsPerSec]
      omega] at hat

theorem load_missing (hl : l.Fits) (hno : ∀ e, e < dirEntries → ¬ Named d l.name e)
    (rounds : Nat) (m : Memory) : l.load d rounds m = some none := by
  obtain ⟨m₁, hsearch⟩ := searchRootDir_none (d := d) (m := m) hl.name hl.dirOffset hno
    (Nat.zero_add rootDirSectors)
  rw [Nat.add_zero] at hsearch
  rw [Loader.load, hsearch, Option.bind_some]

theorem firstCluster_lt (d : Disk) (e : Nat) : firstCluster d e < 2 ^ 16 := by
  have h₁ := (dirByte d e 0x1a).isLt
  have h₂ := (dirByte d e 0x1b).isLt
  rw [firstCluster]
  omega

theorem exists_first {P : Nat → Prop} {n : Nat} (h : ∃ e, e < n ∧ P e) :
    ∃ e, e < n ∧ P e ∧ ∀ e', e' < e → ¬ P e' := by
  classical
  obtain ⟨hlt, hp⟩ := Nat.find_spec h
  exact ⟨Nat.find h, hlt, hp, fun e' he' hn => Nat.find_min h he' ⟨he'.trans hlt, hn⟩⟩

/-- A loader ends with a file in memory exactly when the first entry with the name is that of a
chain of clusters of the disk up to the mark `0xfff`, and it ends without one exactly when there
is no such entry. With other marks it never ends. -/
theorem load_iff (hl : l.Fits) :
    ((∃ rounds m', l.load d rounds m = some (some m')) ↔ ∃ c cs, File d l.name c cs) ∧
      ((∃ rounds, l.load d rounds m = some none) ↔ ∀ e, e < dirEntries → ¬ Named d l.name e) := by
  refine ⟨⟨?_, ?_⟩, ?_, fun hno => ⟨0, load_missing hl hno 0 m⟩⟩
  · rintro ⟨rounds, m', h⟩
    by_cases hsome : ∃ e, e < dirEntries ∧ Named d l.name e
    · obtain ⟨e, he, hnamed, hfirst⟩ := exists_first hsome
      obtain ⟨m₁, hload⟩ := load_eq hl he hnamed hfirst rounds m
      rw [hload] at h
      obtain ⟨m₂, hgo, -⟩ := Option.map_eq_some_iff.mp h
      obtain ⟨cs, hchain, hdisk⟩ := chain_of_goonLoadingFile (firstCluster_lt d _) hgo
      exact ⟨_, cs, ⟨_, he, hnamed, hfirst, rfl⟩, hchain, hdisk⟩
    · rw [load_missing hl (fun e he hn => hsome ⟨e, he, hn⟩)] at h
      cases h
  · rintro ⟨c, cs, hf⟩
    obtain ⟨m', h, -⟩ := load_file (m := m) hl hf (Nat.lt_succ_self cs.length)
    exact ⟨_, m', h⟩
  · rintro ⟨rounds, h⟩ e he hn
    obtain ⟨e, he, hnamed, hfirst⟩ := exists_first ⟨e, he, hn⟩
    obtain ⟨m₁, hload⟩ := load_eq hl he hnamed hfirst rounds m
    rw [hload] at h
    obtain ⟨m₂, -, h⟩ := Option.map_eq_some_iff.mp h
    cases h

/-! The move of the kernel. -/

theorem repMovsw_spec (s : Nat) {n : Nat} (hn : n ≤ 0x8000) (m : Memory) (a : Nat) :
    repMovsw (s + 0x1000) s n m a =
      if s * 16 ≤ a ∧ a < s * 16 + 2 * n then m (a + 0x10000) else m a := by
  induction n generalizing a with
  | zero => rw [repMovsw, if_neg (by omega)]
  | succ n ih =>
    have hfar : ∀ b, b ≤ 1 → repMovsw (s + 0x1000) s n m ((s + 0x1000) * 16 + 2 * n + b) =
        m (s * 16 + 2 * n + b + 0x10000) := fun b hb => by
      rw [ih (by omega), if_neg (by omega)]
      congr 1
      omega
    rw [repMovsw, Function.update_apply, Function.update_apply]
    by_cases h₁ : a = s * 16 + 2 * n + 1
    · rw [if_pos h₁, if_pos (by omega), h₁]
      exact hfar 1 le_rfl
    · by_cases h₂ : a = s * 16 + 2 * n
      · rw [if_neg h₁, if_pos h₂, if_pos (by omega), h₂]
        simpa only [Nat.add_zero] using hfar 0 (by omega)
      · rw [if_neg h₁, if_neg h₂, ih (by omega)]
        by_cases h : s * 16 ≤ a ∧ a < s * 16 + 2 * n
        · rw [if_pos h, if_pos (by omega)]
        · rw [if_neg h, if_neg (by omega)]

/-- The half megabyte behind the first segment comes to address 0. -/
theorem doMove_spec {rounds : Nat} (hr : 9 ≤ rounds) (m : Memory) :
    ∃ m', doMove rounds 0 m = some m' ∧
      ∀ a, m' a = if a < 0x80000 then m (a + 0x10000) else m a := by
  have hrun : ∀ k, k ≤ 8 → ∀ rounds, k < rounds → ∀ m : Memory,
      ∃ m', doMove rounds (0x1000 * (8 - k)) m = some m' ∧ ∀ a, m' a =
        if 0x10000 * (8 - k) ≤ a ∧ a < 0x80000 then m (a + 0x10000) else m a := by
    intro k
    induction k with
    | zero =>
      intro _ rounds hlt m
      obtain ⟨rounds, rfl⟩ : ∃ n, rounds = n + 1 := ⟨rounds - 1, by omega⟩
      exact ⟨m, rfl, fun a => (if_neg (by omega)).symm⟩
    | succ k ih =>
      intro hk rounds hlt m
      obtain ⟨rounds, rfl⟩ : ∃ n, rounds = n + 1 := ⟨rounds - 1, by omega⟩
      have hax : (0x1000 * (8 - (k + 1)) + 0x1000) % 2 ^ 16 = 0x1000 * (8 - k) := by omega
      have hsegment : 0x1000 * (8 - k) = 0x1000 * (8 - (k + 1)) + 0x1000 := by omega
      obtain ⟨m', hm', hall⟩ := ih (by omega) rounds (by omega)
        (repMovsw (0x1000 * (8 - k)) (0x1000 * (8 - (k + 1))) 0x8000 m)
      refine ⟨m', ?_, fun a => ?_⟩
      · rw [doMove, hax, if_neg (by omega), hm']
      · rw [hall, hsegment, repMovsw_spec _ le_rfl, repMovsw_spec _ le_rfl]
        split_ifs <;> first | rfl | omega
  obtain ⟨m', hm', hall⟩ := hrun 8 le_rfl rounds (by omega) m
  refine ⟨m', hm', fun a => ?_⟩
  rw [hall]
  simp

/-- A kernel of up to 128 clusters lies at address 0 when the loader jumps to it, and of a longer
one the last 128 clusters do. -/
theorem load_kernel {c : Nat} {cs : List Nat} (hf : File d loader.name c cs) {rounds : Nat}
    (hr : cs.length < rounds) (h9 : 9 ≤ rounds) :
    ∃ m', loadKernel d rounds m = some (some m') ∧
      ∀ i (h : i < (c :: cs).length), (c :: cs).length ≤ i + 128 → ∀ j, j < bytsPerSec →
        m' (bytsPerSec * i % 2 ^ 16 + j) = d (clusterSector (c :: cs)[i]) j := by
  obtain ⟨m₁, hload, hclusters⟩ := load_file (m := m) fits_loader hf hr
  obtain ⟨m', hmove, hall⟩ := doMove_spec h9 m₁
  refine ⟨m', ?_, fun i hi hlen j hj => ?_⟩
  · rw [loadKernel, hload, Option.bind_some]
    dsimp only
    rw [hmove, Option.map_some]
  · have hat := hclusters i hi hlen j hj
    have hbase : loader.base * 16 = 0x10000 := rfl
    have hoff : loader.offset = 0 := rfl
    have hj' : j < 512 := hj
    rw [hbase, hoff, Nat.zero_add] at hat
    rw [hall, if_pos (by omega), ← hat]
    congr 1
    omega

/-! A disk with one file of the name of the kernel, of clusters 2 and 4. -/

def kernelDisk : Disk := fun s j =>
  if s = 19 then
    if j < 11 then loader.name.getD j 0 else if j = 0x1a then 2 else 0
  else if s = 1 then
    if j = 3 then 4 else if j = 6 then 0xff else if j = 7 then 0x0f else 0
  else if s = 35 then 0x35 else 0

theorem file_kernelDisk : File kernelDisk loader.name 2 [4] := by
  refine ⟨⟨0, by decide, ?_, nofun, by decide⟩, ⟨by decide, by decide,
    (by decide : fatEntry kernelDisk 4 = 0xfff)⟩, by decide⟩
  unfold Named
  decide

/-- `loader.S` finds its file there, and `boot.S` does not. -/
theorem load_iff_kernelDisk :
    (∃ rounds m', loader.load kernelDisk rounds (fun _ => 0) = some (some m')) ∧
      ∃ rounds, boot.load kernelDisk rounds (fun _ => 0) = some none := by
  have hno : ∀ e, e < dirEntries → ¬ Named kernelDisk boot.name e := by
    unfold Named
    decide +kernel
  exact ⟨(load_iff fits_loader).1.mpr ⟨2, [4], file_kernelDisk⟩, (load_iff fits_boot).2.mpr hno⟩

theorem load_kernel_small : ∃ m', loadKernel kernelDisk 9 (fun _ => 0) = some (some m') ∧
    m' 513 = 0x35 := by
  obtain ⟨m', hload, hclusters⟩ :=
    load_kernel (m := fun _ => 0) file_kernelDisk (by decide) le_rfl
  exact ⟨m', hload, hclusters 1 (by decide) (by decide) 1 (by decide)⟩

end Gpos.Floppy
