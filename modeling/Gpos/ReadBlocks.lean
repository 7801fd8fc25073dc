import Mathlib.Data.BitVec
import Mathlib.Logic.Function.Basic

/-! `read_blocks` of the boot loader, with the registers of the disk controller
that it programs and the bytes that it stores. -/

namespace Gpos.Loader

def hdNsector : BitVec 16 := 0x1f2

def hdSector : BitVec 16 := 0x1f3

def hdLcyl : BitVec 16 := 0x1f4

def hdHcyl : BitVec 16 := 0x1f5

def hdCurrent : BitVec 16 := 0x1f6

def hdStatus : BitVec 16 := 0x1f7

def hdReadCmd : BitVec 8 := 0x20

def baseSector : BitVec 32 := 0x800

/-- A command with the registers that it was sent with. -/
structure Command where
  code : BitVec 8
  nsector : BitVec 8
  sector : BitVec 8
  lcyl : BitVec 8
  hcyl : BitVec 8
  current : BitVec 8

/-- The 28 bits of the address of the first sector. -/
def Command.start (c : Command) : Nat :=
  c.sector.toNat + 2 ^ 8 * c.lcyl.toNat + 2 ^ 16 * c.hcyl.toNat + 2 ^ 24 * (c.current &&& 0x0f).toNat

/-- For the controller zero stands for 256 sectors. -/
def Command.count (c : Command) : Nat := if c.nsector = 0 then 256 else c.nsector.toNat

/-- `status` is what each read of the status register gives, `sector` are the words of each
sector, and `after` is what is read when all words of a command were read. -/
structure Drive where
  status : Nat → BitVec 8
  sector : Nat → Nat → BitVec 16
  after : Nat → BitVec 16

/-- The words of a command, one after another. -/
def Drive.word (d : Drive) (c : Command) (i : Nat) : BitVec 16 :=
  if i < 256 * c.count then d.sector (c.start + i / 256) (i % 256) else d.after i

/-- The stores are in their order. -/
structure St where
  ports : BitVec 16 → BitVec 8
  commands : List Command
  stores : List (BitVec 32 × BitVec 8)

/-- `outb %al, %dx`; a write to the status register is a command. -/
def outb (dx : BitVec 16) (eax : BitVec 32) (s : St) : St :=
  let al := eax.setWidth 8
  if dx = hdStatus then
    { s with commands := s.commands ++ [⟨al, s.ports hdNsector, s.ports hdSector, s.ports hdLcyl,
      s.ports hdHcyl, s.ports hdCurrent⟩] }
  else { s with ports := Function.update s.ports dx al }

/-- The part of `read_blocks` up to the command. -/
def program (blockIdx counts : BitVec 32) (s : St) : St :=
  let eax := counts <<< 1
  let s := outb hdNsector eax s
  let eax := blockIdx <<< 1
  let eax := eax + baseSector
  let s := outb hdSector eax s
  let eax := eax >>> 8
  let s := outb hdLcyl eax s
  let eax := eax >>> 8
  let s := outb hdHcyl eax s
  let eax := eax >>> 8
  let eax := eax &&& 0x0f
  let eax := eax ||| 0xe0
  let s := outb hdCurrent eax s
  outb hdStatus (hdReadCmd.setWidth 32) s

/-- The loop at `1:` with the rounds it may still take, which waits for `DRQ_STAT`. -/
def waitDrq (d : Drive) : Nat → Nat → Option Unit
  | 0, _ => none
  | rounds + 1, i => if d.status i &&& 0x88 = 0x08 then some () else waitDrq d rounds (i + 1)

/-- `mov %ax, (%ebx)` -/
def movw (ebx : BitVec 32) (ax : BitVec 16) (s : St) : St :=
  { s with stores := s.stores ++ [(ebx, ax.setWidth 8), (ebx + 1, (ax >>> 8).setWidth 8)] }

/-- The loop at `2:`, which ends when `%ecx` comes to zero; `i` words were read. -/
def transfer (word : Nat → BitVec 16) (i : Nat) (ecx ebx : BitVec 32) (s : St) : St :=
  let s := movw ebx (word i) s
  let ebx := ebx + 2
  if ecx - 1 = 0 then s else transfer word (i + 1) (ecx - 1) ebx s
termination_by (ecx - 1).toNat
decreasing_by bv_omega

/-- `shl %cl, %eax`; the processor takes the count modulo 32. -/
def shl (eax ecx : BitVec 32) : BitVec 32 := eax <<< (ecx.toNat % 32)

def readBlocks (d : Drive) (rounds : Nat) (blockIdx counts buffer : BitVec 32) (s : St) :
    Option St :=
  let s := program blockIdx counts s
  (waitDrq d rounds 0).bind fun _ =>
    s.commands.getLast?.map fun c => transfer (d.word c) 0 (shl 256 counts) buffer s

/-- Byte `k` from sector `start` on. -/
def Drive.byte (d : Drive) (start k : Nat) : BitVec 8 :=
  let w := d.sector (start + k / 512) (k % 512 / 2)
  if k % 2 = 0 then w.setWidth 8 else (w >>> 8).setWidth 8

/-- What `read_blocks` is asked for: one command for the sectors of the blocks, and a store of
each of their bytes, from the buffer on. -/
structure Reads (d : Drive) (blockIdx counts buffer : BitVec 32) (s s' : St) : Prop where
  command : ∃ c, s'.commands = s.commands ++ [c] ∧ c.code = hdReadCmd ∧ c.current &&& 0xf0 = 0xe0 ∧
    c.start = baseSector.toNat + 2 * blockIdx.toNat ∧ c.count = 2 * counts.toNat
  stores : s'.stores = s.stores ++ (List.range (1024 * counts.toNat)).map fun k =>
    (buffer + BitVec.ofNat 32 k, d.byte (baseSector.toNat + 2 * blockIdx.toNat) k)

/-! The command. -/

def sent (blockIdx counts : BitVec 32) : Command :=
  let lba := (blockIdx <<< 1) + baseSector
  ⟨hdReadCmd, (counts <<< 1).setWidth 8, lba.setWidth 8, (lba >>> 8).setWidth 8,
    (lba >>> 8 >>> 8).setWidth 8, ((lba >>> 8 >>> 8 >>> 8 &&& 0x0f) ||| 0xe0).setWidth 8⟩

theorem program_commands (blockIdx counts : BitVec 32) (s : St) :
    (program blockIdx counts s).commands = s.commands ++ [sent blockIdx counts] := by
  simp [program, outb, sent, hdStatus, hdNsector, hdSector, hdLcyl, hdHcyl, hdCurrent, hdReadCmd]

theorem program_stores (blockIdx counts : BitVec 32) (s : St) :
    (program blockIdx counts s).stores = s.stores := by
  simp [program, outb, hdStatus, hdNsector, hdSector, hdLcyl, hdHcyl, hdCurrent]

theorem current_low (x : BitVec 8) : ((x &&& 0x0f) ||| 0xe0) &&& 0x0f = x &&& 0x0f := by
  revert x
  decide

theorem current_high (x : BitVec 8) : ((x &&& 0x0f) ||| 0xe0) &&& 0xf0 = 0xe0 := by
  revert x
  decide

theorem toNat_and_low (x : BitVec 8) : (x &&& 0x0f).toNat = x.toNat % 16 := by
  have hmask : (0x0f : BitVec 8).toNat = 2 ^ 4 - 1 := by decide
  rw [BitVec.toNat_and, hmask, Nat.and_two_pow_sub_one_eq_mod]

theorem toNat_lba {blockIdx counts : BitVec 32}
    (hfit : baseSector.toNat + 2 * blockIdx.toNat + 2 * counts.toNat ≤ 2 ^ 28) :
    ((blockIdx <<< 1) + baseSector).toNat = baseSector.toNat + 2 * blockIdx.toNat := by
  simp only [baseSector] at hfit ⊢
  bv_omega

theorem sent_current (blockIdx counts : BitVec 32) :
    (sent blockIdx counts).current =
      (((blockIdx <<< 1) + baseSector) >>> 8 >>> 8 >>> 8).setWidth 8 &&& 0x0f ||| 0xe0 := by
  simp only [sent, BitVec.setWidth_or, BitVec.setWidth_and]
  rfl

theorem sent_start {blockIdx counts : BitVec 32}
    (hfit : baseSector.toNat + 2 * blockIdx.toNat + 2 * counts.toNat ≤ 2 ^ 28)
    (hpos : 1 ≤ counts.toNat) :
    (sent blockIdx counts).start = baseSector.toNat + 2 * blockIdx.toNat := by
  have hlt : ((blockIdx <<< 1) + baseSector).toNat < 2 ^ 28 := by
    rw [toNat_lba hfit]
    omega
  rw [Command.start, sent_current, current_low, toNat_and_low, ← toNat_lba hfit]
  simp only [sent, BitVec.toNat_setWidth, BitVec.toNat_ushiftRight, Nat.shiftRight_eq_div_pow]
  generalize ((blockIdx <<< 1) + baseSector).toNat = x at hlt ⊢
  omega

theorem sent_count {blockIdx counts : BitVec 32} (hpos : 1 ≤ counts.toNat)
    (hle : counts.toNat ≤ 127) : (sent blockIdx counts).count = 2 * counts.toNat := by
  have hn : ((counts <<< 1).setWidth 8).toNat = 2 * counts.toNat := by
    rw [BitVec.toNat_setWidth, BitVec.toNat_shiftLeft, Nat.shiftLeft_eq]
    omega
  rw [Command.count, if_neg fun hz => ?_]
  · exact hn
  · have hz : (counts <<< 1).setWidth 8 = 0 := hz
    rw [hz] at hn
    simp at hn
    omega

/-! The transfer. -/

def stored (word : Nat → BitVec 16) (i : Nat) (ebx : BitVec 32) (j : Nat) :
    List (BitVec 32 × BitVec 8) :=
  [(ebx + BitVec.ofNat 32 (2 * j), (word (i + j)).setWidth 8),
    (ebx + BitVec.ofNat 32 (2 * j + 1), (word (i + j) >>> 8).setWidth 8)]

theorem stored_succ (word : Nat → BitVec 16) (i : Nat) (ebx : BitVec 32) (j : Nat) :
    stored word (i + 1) (ebx + 2) j = stored word i ebx (j + 1) := by
  have haddr : ∀ k, ebx + 2 + BitVec.ofNat 32 k = ebx + BitVec.ofNat 32 (k + 2) := fun k => by
    rw [BitVec.ofNat_add, BitVec.add_assoc, BitVec.add_comm 2]
    rfl
  simp only [stored, haddr, show i + 1 + j = i + (j + 1) by omega]
  rfl

theorem transfer_commands (word : Nat → BitVec 16) (i : Nat) (ecx ebx : BitVec 32) (s : St) :
    (transfer word i ecx ebx s).commands = s.commands := by
  fun_induction transfer word i ecx ebx s with
  | case1 => rfl
  | case2 i ecx ebx s s₁ ebx₁ hne ih => exact ih

theorem transfer_stores (word : Nat → BitVec 16) (i : Nat) (ecx ebx : BitVec 32) (s : St) :
    (transfer word i ecx ebx s).stores =
      s.stores ++ (List.range ((ecx - 1).toNat + 1)).flatMap (stored word i ebx) := by
  fun_induction transfer word i ecx ebx s with
  | case1 i ecx ebx s s₁ hz =>
    rw [hz]
    simp [s₁, movw, stored]
  | case2 i ecx ebx s s₁ ebx₁ hne ih =>
    have hn : (ecx - 1).toNat = (ecx - 1 - 1).toNat + 1 := by bv_omega
    have hfirst : s₁.stores = s.stores ++ stored word i ebx 0 := by simp [s₁, movw, stored]
    have hnext : stored word (i + 1) ebx₁ = fun j => stored word i ebx (j + 1) :=
      funext (stored_succ word i ebx)
    rw [ih, hfirst, hn, hnext, List.append_assoc]
    conv_rhs => rw [List.range_succ_eq_map, List.flatMap_cons, List.flatMap_map]

/-- The words that the loop transfers. -/
def words (counts : BitVec 32) : Nat := (shl 256 counts - 1).toNat + 1

theorem words_iff {counts : BitVec 32} (hpos : 1 ≤ counts.toNat) (hle : counts.toNat ≤ 127) :
    words counts = 512 * counts.toNat ↔ counts.toNat = 1 ∨ counts.toNat = 2 := by
  have hall : ∀ n < 128, 1 ≤ n → (words (BitVec.ofNat 32 n) = 512 * n ↔ n = 1 ∨ n = 2) := by
    decide +kernel
  have hn := hall counts.toNat (by omega) hpos
  rwa [BitVec.ofNat_toNat, BitVec.setWidth_eq] at hn

theorem flatMap_pairs {α : Type*} (f : Nat → α) (n : Nat) :
    (List.range n).flatMap (fun j => [f (2 * j), f (2 * j + 1)]) = (List.range (2 * n)).map f := by
  induction n with
  | zero => rfl
  | succ n ih =>
    rw [List.range_succ, List.flatMap_append, ih, show 2 * (n + 1) = 2 * n + 1 + 1 by omega,
      List.range_succ, List.range_succ]
    simp

theorem byte_word (d : Drive) {c : Command} {j : Nat} (hj : j < 256 * c.count) :
    d.byte c.start (2 * j) = (d.word c j).setWidth 8 ∧
      d.byte c.start (2 * j + 1) = (d.word c j >>> 8).setWidth 8 := by
  have hw : d.word c j = d.sector (c.start + j / 256) (j % 256) := if_pos hj
  constructor
  · rw [hw, Drive.byte, if_pos (by omega), show 2 * j / 512 = j / 256 by omega,
      show 2 * j % 512 / 2 = j % 256 by omega]
  · rw [hw, Drive.byte, if_neg (by omega), show (2 * j + 1) / 512 = j / 256 by omega,
      show (2 * j + 1) % 512 / 2 = j % 256 by omega]

theorem readBlocks_eq (d : Drive) (blockIdx counts buffer : BitVec 32) (s : St)
    {rounds : Nat} (hw : waitDrq d rounds 0 = some ()) :
    readBlocks d rounds blockIdx counts buffer s =
      some (transfer (d.word (sent blockIdx counts)) 0 (shl 256 counts) buffer
        (program blockIdx counts s)) := by
  simp [readBlocks, hw, program_commands]

theorem waitDrq_of_ready {d : Drive} {n : Nat} (h : d.status n &&& 0x88 = 0x08) {i rounds : Nat}
    (hi : i ≤ n) (hr : n < i + rounds) : waitDrq d rounds i = some () := by
  induction rounds generalizing i with
  | zero => omega
  | succ rounds ih =>
    unfold waitDrq
    split
    next => rfl
    next hne =>
      have hin : i ≠ n := fun he => hne (he ▸ h)
      exact ih (by omega) (by omega)

theorem reads_of_words {d : Drive} {blockIdx counts buffer : BitVec 32} {s : St}
    (hfit : baseSector.toNat + 2 * blockIdx.toNat + 2 * counts.toNat ≤ 2 ^ 28)
    (hpos : 1 ≤ counts.toNat) (hle : counts.toNat ≤ 127) :
    Reads d blockIdx counts buffer s (transfer (d.word (sent blockIdx counts)) 0 (shl 256 counts) buffer
      (program blockIdx counts s)) ↔ words counts = 512 * counts.toNat := by
  have hstart := sent_start hfit hpos
  have hcount := @sent_count blockIdx counts hpos hle
  have hstores := transfer_stores (d.word (sent blockIdx counts)) 0 (shl 256 counts) buffer
    (program blockIdx counts s)
  rw [program_stores] at hstores
  constructor
  · intro h
    have hlen := congrArg List.length (hstores.symm.trans h.stores)
    simp [stored, words] at hlen ⊢
    omega
  · intro h
    refine ⟨⟨sent blockIdx counts, ?_, rfl, ?_, hstart, hcount⟩, ?_⟩
    · rw [transfer_commands, program_commands]
    · rw [sent_current, current_high]
    · rw [hstores, ← words, h, show 1024 * counts.toNat = 2 * (512 * counts.toNat) by omega,
        ← flatMap_pairs]
      congr 1
      refine List.flatMap_congr fun j hj => ?_
      have hb := @byte_word d (sent blockIdx counts) j (by rw [hcount]; have := List.mem_range.mp hj; omega)
      rw [hstart] at hb
      rw [hb.1, hb.2, stored, Nat.zero_add]

/-- Enough rounds of the loop at `1:` give a result, and it is what was asked for exactly if one
block or two are asked for. -/
theorem readBlocks_reads_iff {d : Drive} (hready : ∃ n, d.status n &&& 0x88 = 0x08)
    {blockIdx counts : BitVec 32}
    (hfit : baseSector.toNat + 2 * blockIdx.toNat + 2 * counts.toNat ≤ 2 ^ 28)
    (hpos : 1 ≤ counts.toNat) (hle : counts.toNat ≤ 127) (buffer : BitVec 32) (s : St) :
    ∃ n s', (∀ rounds, n ≤ rounds → readBlocks d rounds blockIdx counts buffer s = some s') ∧
      (Reads d blockIdx counts buffer s s' ↔ counts.toNat = 1 ∨ counts.toNat = 2) := by
  obtain ⟨n, hn⟩ := hready
  refine ⟨n + 1, _, fun rounds hr => readBlocks_eq d blockIdx counts buffer s
    (waitDrq_of_ready hn (Nat.zero_le n) (by omega)), ?_⟩
  exact (reads_of_words hfit hpos hle).trans (words_iff hpos hle)

/-- A drive of zeros that is ready at once. -/
def zeroDrive : Drive := ⟨fun _ => 0x58, fun _ _ => 0, fun _ => 0⟩

def reset : St := ⟨fun _ => 0, [], []⟩

theorem readBlocks_reads_two :
    ∃ n s', (∀ rounds, n ≤ rounds → readBlocks zeroDrive rounds 1 2 0x200000 reset = some s') ∧
      (Reads zeroDrive 1 2 0x200000 reset s' ↔
        (2 : BitVec 32).toNat = 1 ∨ (2 : BitVec 32).toNat = 2) :=
  readBlocks_reads_iff ⟨0, by decide⟩ (by decide) (by decide) (by decide) 0x200000 reset

/-- For three blocks the loop transfers four. -/
theorem three_blocks_overrun :
    ¬ ∀ (d : Drive) (blockIdx counts buffer : BitVec 32) (s : St),
      (∃ n, d.status n &&& 0x88 = 0x08) →
      baseSector.toNat + 2 * blockIdx.toNat + 2 * counts.toNat ≤ 2 ^ 28 →
      1 ≤ counts.toNat → counts.toNat ≤ 127 →
      ∃ rounds s', readBlocks d rounds blockIdx counts buffer s = some s' ∧
        Reads d blockIdx counts buffer s s' := by
  intro h
  obtain ⟨rounds, s', hrun, hreads⟩ :=
    h zeroDrive 0 3 0x200000 reset ⟨0, by decide⟩ (by decide) (by decide) (by decide)
  have hwait : waitDrq zeroDrive rounds 0 = some () := by
    cases rounds with
    | zero => simp [readBlocks, waitDrq] at hrun
    | succ rounds => exact waitDrq_of_ready (n := 0) (by decide) le_rfl (by omega)
  rw [readBlocks_eq _ _ _ _ _ hwait] at hrun
  cases hrun
  have hwords := (reads_of_words (by decide) (by decide) (by decide)).mp hreads
  revert hwords
  decide

end Gpos.Loader
