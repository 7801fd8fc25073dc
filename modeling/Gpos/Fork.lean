import Gpos.PageFaults
import Mathlib.Data.Fintype.Pigeonhole

/-! `sys_fork`. The structs of the tasks lie in memory, so that a page handed
out twice shows. -/

namespace Gpos

/-- `task[]` and `current` hold pointers, zero is `NULL`. The counts are found
under the addresses of the files and the inodes. -/
structure Kernel where
  mm : Mm
  task : Nat → Nat
  current : Nat
  lastPid : Nat
  fCount : Nat → BitVec 16
  iCount : Nat → BitVec 16

namespace Fork

open Mm

def eagain : Int := 11

def enomem : Int := 12

def nrOpen : Nat := 20

/-! Words of `struct task_struct`. -/

def state : Nat := 0
def counter : Nat := 1
def priority : Nat := 2
def pid : Nat := 3
def father : Nat := 4
def leader : Nat := 7
def pwd : Nat := 10
def root : Nat := 11
def executable : Nat := 12
def filp : Nat := 17
def ldt : Nat := 43
def tss : Nat := 49
def taskWords : Nat := 75

def field (m : Mm) (p i : Nat) : BitVec 32 := m.mem ((p + 4 * i) / 4096) ((p + 4 * i) % 4096 / 4)

def setField (p i : Nat) (w : BitVec 32) (m : Mm) : Mm :=
  m.store ((p + 4 * i) / 4096) ((p + 4 * i) % 4096 / 4) w

/-- `*p = *current` -/
def copyTask (current p n : Nat) (m : Mm) : Mm :=
  match n with
  | 0 => m
  | n + 1 => setField p n (field m current n) (copyTask current p n m)

/-- `get_base` of entry `n` of the local descriptor table. -/
def getBase (m : Mm) (p n : Nat) : Nat :=
  (field m p (ldt + 2 * n)).toNat / 2 ^ 16 + (field m p (ldt + 2 * n + 1)).toNat % 2 ^ 8 * 2 ^ 16 +
    (field m p (ldt + 2 * n + 1)).toNat / 2 ^ 24 * 2 ^ 24

def setBase (p n base : Nat) (m : Mm) : Mm :=
  let low := (field m p (ldt + 2 * n)).toNat % 2 ^ 16 + base % 2 ^ 16 * 2 ^ 16
  let m' := setField p (ldt + 2 * n) (BitVec.ofNat 32 low) m
  let high :=
    (field m' p (ldt + 2 * n + 1)).toNat / 2 ^ 8 % 2 ^ 16 * 2 ^ 8 + base / 2 ^ 16 % 2 ^ 8 +
      base / 2 ^ 24 * 2 ^ 24
  setField p (ldt + 2 * n + 1) (BitVec.ofNat 32 high) m'

/-- `get_limit` of entry `n`, in pages when the granularity bit is set. -/
def getLimit (m : Mm) (p n : Nat) : Nat :=
  let limit :=
    (field m p (ldt + 2 * n)).toNat % 2 ^ 16 + (field m p (ldt + 2 * n + 1)).toNat /
      2 ^ 16 % 2 ^ 4 * 2 ^ 16
  if (field m p (ldt + 2 * n + 1)).getLsbD 23 then (limit * 4096 + 4096) % 2 ^ 32 else limit + 1

/-- The registers that the system call has on its stack. -/
structure Regs where
  ebp : BitVec 32
  edi : BitVec 32
  esi : BitVec 32
  ebx : BitVec 32
  ecx : BitVec 32
  edx : BitVec 32
  fs : BitVec 32
  es : BitVec 32
  ds : BitVec 32
  eip : BitVec 32
  cs : BitVec 32
  eflags : BitVec 32
  esp : BitVec 32
  ss : BitVec 32

/-- The fields that `copy_process` sets in the copy, in its order. -/
def newFields (k : Kernel) (nr p : Nat) (r : Regs) : List (Nat × (Mm → BitVec 32)) :=
  [(state, fun _ => 2), (pid, fun _ => BitVec.ofNat 32 k.lastPid),
    (father, fun m => field m k.current pid), (leader, fun _ => 0),
    (counter, fun m => field m p priority), (tss, fun _ => 0),
    (tss + 1, fun _ => BitVec.ofNat 32 (4096 + p)), (tss + 2, fun _ => 0x10),
    (tss + 7, fun m => BitVec.ofNat 32 (4096 * m.pgDir)), (tss + 8, fun _ => r.eip),
    (tss + 9, fun _ => r.eflags), (tss + 10, fun _ => 0), (tss + 11, fun _ => r.ecx),
    (tss + 12, fun _ => r.edx), (tss + 13, fun _ => r.ebx), (tss + 14, fun _ => r.esp),
    (tss + 15, fun _ => r.ebp), (tss + 16, fun _ => r.esi), (tss + 17, fun _ => r.edi),
    (tss + 18, fun _ => r.es &&& 0xffff), (tss + 19, fun _ => r.cs &&& 0xffff),
    (tss + 20, fun _ => r.ss &&& 0xffff), (tss + 21, fun _ => r.ds &&& 0xffff),
    (tss + 22, fun _ => r.fs &&& 0xffff), (tss + 24, fun _ => BitVec.ofNat 32 (nr * 16 + 40)),
    (tss + 25, fun _ => 0x80000000)]

def setFields (p : Nat) (fs : List (Nat × (Mm → BitVec 32))) (m : Mm) : Mm :=
  fs.foldl (fun m f => setField p f.1 (f.2 m) m) m

def copyMem (nr p current : Nat) (m : Mm) : Int × Mm :=
  let dataLimit := getLimit m current 2
  let oldDataBase := getBase m current 2
  let m := setBase p 2 (window nr) (setBase p 1 (window nr) m)
  let e := m.copyPageTables oldDataBase (window nr) dataLimit
  (if e.1 ≠ 0 then -enomem else 0, e.2)

def raise (counts : Nat → BitVec 16) (p : Nat) : Nat → BitVec 16 :=
  if p = 0 then counts else Function.update counts p (counts p + 1)

/-- The end of `copy_process`: the counts of the files and the inodes. -/
def countUp (p : Nat) (k : Kernel) : Kernel :=
  { k with
    fCount :=
      (List.range nrOpen).foldl (fun c i => raise c (field k.mm p (filp + i)).toNat) k.fCount
    iCount :=
      [pwd, root, executable].foldl (fun c i => raise c (field k.mm k.current i).toNat) k.iCount
    mm := setField p state 0 k.mm }

/-- `none` is the panic of `free_page`. -/
def copyProcess (nr : Nat) (r : Regs) (k : Kernel) : Option (Int × Kernel) :=
  let p := k.mm.getFreePage.1
  let m := k.mm.getFreePage.2
  if p = 0 then some (-eagain, { k with mm := m }) else
  let e :=
    copyMem nr p k.current (setFields p (newFields k nr p r) (copyTask k.current p taskWords m))
  if e.1 ≠ 0 then (e.2.freePage p).map fun m =>
    (-eagain, { k with mm := m, task := Function.update k.task nr 0 })
  else some (k.lastPid, countUp p { k with mm := e.2, task := Function.update k.task nr p })

def nextPid (lastPid : Nat) : Nat := if lastPid + 1 < 2 ^ 31 then lastPid + 1 else 1

def Taken (k : Kernel) (n : Nat) : Prop :=
  ∃ i, i < nrTasks ∧ k.task i ≠ 0 ∧ field k.mm (k.task i) pid = BitVec.ofNat 32 n

instance (k : Kernel) (n : Nat) : Decidable (Taken k n) :=
  decidable_of_iff (∃ i ∈ List.range nrTasks, k.task i ≠ 0 ∧
    field k.mm (k.task i) pid = BitVec.ofNat 32 n) (by simp [Taken])

/-- `repeat` of `find_empty_process`, with the rounds it may still take. -/
def pickPid (k : Kernel) : Nat → Nat → Option Nat
  | 0, _ => none
  | rounds + 1, lastPid =>
    if Taken k (nextPid lastPid) then pickPid k rounds (nextPid lastPid) else some (nextPid lastPid)

def findSlot (k : Kernel) : Option Nat := (List.range' 1 (nrTasks - 1)).find? fun i => k.task i = 0

def findEmptyProcess (k : Kernel) : Option (Int × Kernel) :=
  (pickPid k (nrTasks + 1) k.lastPid).map fun n =>
    ((findSlot k).elim (-eagain) Nat.cast, { k with lastPid := n })

def sysFork (r : Regs) (k : Kernel) : Option (Int × Kernel) :=
  (findEmptyProcess k).bind fun e => if e.1 < 0 then some e else copyProcess e.1.toNat r e.2

/-! The need for memory and the refusal. -/

def freePages (m : Mm) : Nat := (List.range mmPages).countP fun n => !m.bit n

/-- One page for the struct and one for each table in the window of the parent. -/
def needed (k : Kernel) : Nat :=
  1 + (List.range ((getLimit k.mm k.current 2 + 0x3FFFFF) / 2 ^ 22)).countP fun i =>
    isPresent (k.mm.mem k.mm.pgDir (getBase k.mm k.current 2 / 2 ^ 22 % 1024 + i))

def Short (k : Kernel) : Prop := freePages k.mm < needed k

/-- Every slot but that of the first task is taken. -/
def NoSlot (k : Kernel) : Prop := ∀ i, 1 ≤ i → i < nrTasks → k.task i ≠ 0

structure Undone (k k' : Kernel) : Prop where
  task : k'.task = k.task
  dirs : k'.mm.mem k'.mm.pgDir = k.mm.mem k.mm.pgDir
  memMap : k'.mm.memMap = k.mm.memMap
  refcount : k'.mm.refcount = k.mm.refcount
  fCount : k'.fCount = k.fCount
  iCount : k'.iCount = k.iCount

def Refused (r : Regs) (k : Kernel) : Prop :=
  ∃ e k', sysFork r k = some (e, k') ∧ e < 0 ∧ Undone k k'

/-! `find_empty_process` always finds a number. -/

theorem nextPid_iterate (lastPid : Nat) : ∀ j, j + 2 < 2 ^ 31 →
    nextPid^[j + 1] lastPid = if nextPid lastPid + j < 2 ^ 31 then nextPid lastPid + j
      else nextPid lastPid + j - 2 ^ 31 + 1
  | 0, _ => by
    have : nextPid lastPid < 2 ^ 31 := by unfold nextPid; split <;> omega
    rw [Function.iterate_one, Nat.add_zero, if_pos this]
  | j + 1, hj => by
    have ih := nextPid_iterate lastPid j (by omega)
    have : nextPid lastPid < 2 ^ 31 := by unfold nextPid; split <;> omega
    rw [Function.iterate_succ_apply', ih]
    generalize nextPid lastPid = q at *
    unfold nextPid
    split <;> split <;> split <;> omega

theorem nextPid_iterate_lt (lastPid j : Nat) (hj : j + 2 < 2 ^ 31) :
    nextPid^[j + 1] lastPid < 2 ^ 31 := by
  have : nextPid lastPid < 2 ^ 31 := by unfold nextPid; split <;> omega
  rw [nextPid_iterate lastPid j hj]
  split <;> omega

theorem nextPid_iterate_inj {lastPid i j : Nat} (hi : i + 2 < 2 ^ 31) (hj : j + 2 < 2 ^ 31)
    (h : nextPid^[i + 1] lastPid = nextPid^[j + 1] lastPid) : i = j := by
  have hpos : 0 < nextPid lastPid := by unfold nextPid; split <;> omega
  have hlt : nextPid lastPid < 2 ^ 31 := by unfold nextPid; split <;> omega
  rw [nextPid_iterate lastPid i hi, nextPid_iterate lastPid j hj] at h
  split at h <;> split at h <;> omega

theorem taken_of_pickPid {k : Kernel} {rounds lastPid : Nat} (h : pickPid k rounds lastPid = none) :
    ∀ j, j < rounds → Taken k (nextPid^[j + 1] lastPid) := by
  induction rounds generalizing lastPid with
  | zero => exact fun j hj => absurd hj (Nat.not_lt_zero j)
  | succ rounds ih =>
    rw [pickPid] at h
    split at h
    next ht =>
      rintro (_ | j) hj
      · exact ht
      · rw [Function.iterate_succ_apply]
        exact ih h j (by omega)
    next => cases h

/-- Two of the numbers tried in `NR_TASKS + 1` rounds would be the number of one task. -/
theorem pickPid_isSome (k : Kernel) (lastPid : Nat) :
    ∃ n, pickPid k (nrTasks + 1) lastPid = some n := by
  cases hp : pickPid k (nrTasks + 1) lastPid with
  | some n => exact ⟨n, rfl⟩
  | none =>
    have htaken := taken_of_pickPid hp
    choose i hi _ hpid using fun j : Fin (nrTasks + 1) => htaken j j.isLt
    obtain ⟨a, b, hab, heq⟩ :=
      Fintype.exists_ne_map_eq_of_card_lt (fun j => (⟨i j, hi j⟩ : Fin nrTasks))
        (by simp [Fintype.card_fin])
    have hsame : i a = i b := congrArg Fin.val heq
    have hword : BitVec.ofNat 32 (nextPid^[a + 1] lastPid) =
      BitVec.ofNat 32 (nextPid^[b + 1] lastPid) := by
      rw [← hpid a, ← hpid b, hsame]
    have ha : a.val < 9 := a.isLt
    have hb : b.val < 9 := b.isLt
    have hla := nextPid_iterate_lt lastPid a (by omega)
    have hlb := nextPid_iterate_lt lastPid b (by omega)
    have hval := congrArg BitVec.toNat hword
    rw [BitVec.toNat_ofNat, BitVec.toNat_ofNat, Nat.mod_eq_of_lt (by omega),
      Nat.mod_eq_of_lt (by omega)] at hval
    exact absurd (Fin.ext (nextPid_iterate_inj (by omega) (by omega) hval)) hab

theorem findSlot_none {k : Kernel} : findSlot k = none ↔ NoSlot k := by
  simp only [findSlot, List.find?_eq_none, List.mem_range'_1, decide_eq_true_eq, NoSlot]
  constructor
  · exact fun h i hi hlt => h i ⟨hi, by simp only [nrTasks] at *; omega⟩
  · exact fun h i hi => h i hi.1 (by simp only [nrTasks] at *; omega)

theorem copyMem_fst (nr p current : Nat) (m : Mm) : (copyMem nr p current m).1 = 0 :=
  if_neg (not_not.mpr (copyDirs_fst _ _ _ _))

/-- The page search has no failure, so neither has `copy_process`. -/
theorem copyProcess_fst (nr : Nat) (r : Regs) (k : Kernel) :
    ∃ k', copyProcess nr r k = some ((k.lastPid : Int), k') := by
  rw [copyProcess, if_neg (getFreePage_ne_zero k.mm)]
  simp only
  rw [if_neg (not_not.mpr (copyMem_fst _ _ _ _))]
  exact ⟨_, rfl⟩

theorem sysFork_noSlot {k : Kernel} (h : NoSlot k) (r : Regs) :
    ∃ n, sysFork r k = some (-eagain, { k with lastPid := n }) := by
  obtain ⟨n, hn⟩ := pickPid_isSome k k.lastPid
  refine ⟨n, ?_⟩
  rw [sysFork, findEmptyProcess, hn, findSlot_none.mpr h]
  rfl

theorem sysFork_slot {k : Kernel} (h : ¬ NoSlot k) (r : Regs) :
    ∃ (n : Nat) (k' : Kernel), sysFork r k = some ((n : Int), k') := by
  obtain ⟨n, hn⟩ := pickPid_isSome k k.lastPid
  obtain ⟨i, hi⟩ := Option.ne_none_iff_exists'.mp (findSlot_none.not.mpr h)
  obtain ⟨k', hk'⟩ := copyProcess_fst i r { k with lastPid := n }
  refine ⟨n, k', ?_⟩
  rw [sysFork, findEmptyProcess, hn, hi]
  simp only [Option.map_some, Option.bind_some, Option.elim_some]
  rw [if_neg (by omega)]
  exact hk'

theorem refused_iff (r : Regs) (k : Kernel) : Refused r k ↔ NoSlot k := by
  constructor
  · rintro ⟨e, k', he, hneg, -⟩
    by_contra hslot
    obtain ⟨n, k'', hn⟩ := sysFork_slot hslot r
    rw [hn] at he
    obtain ⟨rfl, -⟩ := Prod.mk.inj (Option.some.inj he)
    omega
  · intro h
    obtain ⟨n, hn⟩ := sysFork_noSlot h r
    exact ⟨_, _, hn, by decide, ⟨rfl, rfl, rfl, rfl, rfl, rfl⟩⟩

/-- A fork that is short of memory is refused when no slot is left, and then only. -/
theorem short_refused_iff (r : Regs) (k : Kernel) :
    (Short k → Refused r k) ↔ (¬ Short k ∨ NoSlot k) := by
  rw [refused_iff, imp_iff_not_or]

/-- All pages are used; the only task is the first one, with its struct at 1.5 MB. -/
def fullKernel : Kernel where
  mm :=
    { memMap := fun _ => 0xFFFFFFFF#32
      refcount := fun _ => 1
      mem := fun f j =>
        if f = 384 ∧ (j = ldt + 2 ∨ j = ldt + 4) then 0x3FFF#32
        else if f = 384 ∧ j = ldt + 3 then 0xc0fa00#32
        else if f = 384 ∧ j = ldt + 5 then 0xc0f200#32
        else if f = 2064 ∧ j < 4 then BitVec.ofNat 32 (4096 * (2065 + j) + 7)
        else 0
      highMemory := 0x1000000
      pgDir := 2064 }
  task i := if i = 0 then 384 * 4096 else 0
  current := 384 * 4096
  lastPid := 0
  fCount _ := 0
  iCount _ := 0

def someRegs : Regs := ⟨0, 0, 0, 0, 0, 0, 0x17, 0x17, 0x17, 0, 0x0f, 0x202, 0, 0x17⟩

theorem fork_not_refused : Short fullKernel ∧ ¬ Refused someRegs fullKernel := by
  constructor
  · have hfull : freePages fullKernel.mm = 0 := by
      rw [freePages, List.countP_eq_zero]
      intro n _
      have hn : (0xFFFFFFFF#32).getLsbD (n % 32) = true := allOnes_bit _ (Nat.mod_lt _ (by decide))
      simpa [Mm.bit, fullKernel] using hn
    rw [Short, hfull, needed]
    exact Nat.lt_of_lt_of_le Nat.zero_lt_one (Nat.le_add_right 1 _)
  · rw [refused_iff]
    exact fun h => h 1 le_rfl (by decide) rfl

end Fork

end Gpos
