import Gpos.BufferInit
import Mathlib.Order.CompletePartialOrder
import Mathlib.Order.Interval.Set.Disjoint

/-! Where `buffer_init` puts the headers and the blocks. The headers grow upwards
from `start_buffer` and the blocks downwards from `buffer_end`. -/

namespace Gpos.Cache

open Links

/-- `bData` are the addresses that the headers have in `b_data`. -/
structure Pool where
  cache : Cache
  bData : Nat → Nat

namespace Pool

/-- The test for `0x100000` never holds, since the headers begin there. -/
theorem next_ne {b h : Nat} (hb : startBuffer + (h + 1) * headSize ≤ b - 1024) :
    b - 1024 ≠ 0x100000 := by
  simp only [startBuffer, headSize] at hb
  omega

theorem next_lt {b h : Nat} (hb : startBuffer + (h + 1) * headSize ≤ b - 1024) :
    (if b - 1024 = 0x100000 then 0xA0000 else b - 1024) < b := by
  rw [if_neg (next_ne hb)]
  simp only [startBuffer, headSize] at hb
  omega

/-- The loop of `buffer_init`, with `b` before the decrement of the loop test. -/
def initLoop (b h : Nat) (p : Pool) : Pool :=
  if hb : startBuffer + (h + 1) * headSize ≤ b - 1024 then
    have := next_lt hb
    initLoop (if b - 1024 = 0x100000 then 0xA0000 else b - 1024) (h + 1)
      ⟨p.cache.initHead h, Function.update p.bData h (b - 1024)⟩
  else p
termination_by b

def bufferInit (bufferEnd : Nat) (p : Pool) : Pool :=
  let p := initLoop bufferEnd 0 { p with cache := { p.cache with nrBuffers := 0 } }
  let last := p.cache.nrBuffers - 1
  let c := ({ p.cache with freeList := 0 }).setPrevFree 0 (some last)
  let c := c.setNextFree last (some 0)
  { p with cache := { c with hashTable := fun _ => none } }

end Pool

def header (i : Nat) : Set Nat :=
  Set.Ico (startBuffer + i * headSize) (startBuffer + (i + 1) * headSize)

def dataBlock (a : Nat) : Set Nat := Set.Ico a (a + 1024)

/-- The headers and the blocks of `n` buffers lie apart from each other in the memory up to
`bufferEnd`, and there is no room for more of both. -/
structure Layout (bufferEnd n : Nat) (bData : Nat → Nat) : Prop where
  headers_inside : ∀ i < n, header i ⊆ Set.Ico startBuffer bufferEnd
  blocks_inside : ∀ i < n, dataBlock (bData i) ⊆ Set.Ico startBuffer bufferEnd
  headers_apart : ∀ i < n, ∀ j < n, i ≠ j → Disjoint (header i) (header j)
  blocks_apart : ∀ i < n, ∀ j < n, i ≠ j → Disjoint (dataBlock (bData i)) (dataBlock (bData j))
  apart : ∀ i < n, ∀ j < n, Disjoint (header i) (dataBlock (bData j))
  different : Set.InjOn bData {i | i < n}
  full : ¬ ∃ a, dataBlock a ⊆ Set.Ico startBuffer bufferEnd ∧
    (∀ i ≤ n, Disjoint (header i) (dataBlock a)) ∧
      ∀ j < n, Disjoint (dataBlock (bData j)) (dataBlock a)

theorem Pool.initLoop_stop {b h : Nat} {p : Pool}
    (hb : ¬ startBuffer + (h + 1) * headSize ≤ b - 1024) : p.initLoop b h = p := by
  unfold Pool.initLoop
  exact dif_neg hb

theorem Pool.initLoop_succ {b h : Nat} {p : Pool}
    (hb : startBuffer + (h + 1) * headSize ≤ b - 1024) :
    p.initLoop b h =
      Pool.initLoop (b - 1024) (h + 1) ⟨p.cache.initHead h, Function.update p.bData h (b - 1024)⟩ := by
  conv_lhs => unfold Pool.initLoop
  rw [dif_pos hb]
  simp only [if_neg (next_ne hb)]

theorem Pool.initLoop_cache (b h : Nat) (p : Pool) :
    (p.initLoop b h).cache = p.cache.initLoop b h := by
  induction b using Nat.strong_induction_on generalizing h p with
  | _ b ih =>
    by_cases hb : startBuffer + (h + 1) * headSize ≤ b - 1024
    · have hdec := next_lt hb
      rw [if_neg (next_ne hb)] at hdec
      rw [Pool.initLoop_succ hb, Cache.initLoop_succ hb, if_neg (next_ne hb)]
      exact ih _ hdec (h + 1) _
    · rw [Pool.initLoop_stop hb, Cache.initLoop_stop hb]

theorem Pool.bufferInit_cache (bufferEnd : Nat) (p : Pool) :
    (p.bufferInit bufferEnd).cache = p.cache.bufferInit bufferEnd := by
  simp only [Pool.bufferInit, Pool.initLoop_cache, Cache.bufferInit]

/-- In front of header `h` the loop has put `h` blocks below `e`, and the headers do not
reach the last of them. -/
theorem Pool.initLoop_spec {e b h : Nat} {p : Pool} (hn : p.cache.nrBuffers = h)
    (hb : b + 1024 * h = e) (hle : startBuffer + h * headSize ≤ b)
    (hd : ∀ i < h, p.bData i + 1024 * (i + 1) = e) :
    ∃ n, (p.initLoop b h).cache.nrBuffers = n ∧ startBuffer + n * headSize + 1024 * n ≤ e ∧
      e < startBuffer + (n + 1) * headSize + 1024 * (n + 1) ∧
        ∀ i < n, (p.initLoop b h).bData i + 1024 * (i + 1) = e := by
  induction b using Nat.strong_induction_on generalizing h p with
  | _ b ih =>
    by_cases hroom : startBuffer + (h + 1) * headSize ≤ b - 1024
    · have hdec : 1024 < b := by
        simp only [startBuffer, headSize] at hroom
        omega
      rw [Pool.initLoop_succ hroom]
      refine ih (b - 1024) (by omega) (by simp [initHead, hn]) (by omega) hroom fun i hi => ?_
      by_cases hih : i = h
      · subst hih
        simp only [Function.update_self]
        omega
      · simp only [Function.update_of_ne hih]
        exact hd i (by omega)
    · rw [Pool.initLoop_stop hroom]
      refine ⟨h, hn, by omega, ?_, hd⟩
      have hpos : startBuffer ≤ b := le_trans (Nat.le_add_right _ _) hle
      simp only [startBuffer] at hpos
      omega

theorem exists_header {n a : Nat} (h : startBuffer ≤ a) (h' : a < startBuffer + n * headSize) :
    ∃ i < n, a ∈ header i := by
  refine ⟨(a - startBuffer) / headSize, ?_, ?_⟩
  · exact (Nat.div_lt_iff_lt_mul (by decide)).mpr (by omega)
  · simp only [header, Set.mem_Ico, headSize]
    omega

theorem exists_block {e n a : Nat} {bData : Nat → Nat} (h : e ≤ a + 1024 * n) (h' : a < e)
    (hd : ∀ i < n, bData i + 1024 * (i + 1) = e) : ∃ i < n, a ∈ dataBlock (bData i) := by
  have hi : (e - 1 - a) / 1024 < n := (Nat.div_lt_iff_lt_mul (by decide)).mpr (by omega)
  refine ⟨_, hi, ?_⟩
  have := hd _ hi
  simp only [dataBlock, Set.mem_Ico]
  omega

theorem layout_of {e n : Nat} {bData : Nat → Nat}
    (hfit : startBuffer + n * headSize + 1024 * n ≤ e)
    (hfull : e < startBuffer + (n + 1) * headSize + 1024 * (n + 1))
    (hd : ∀ i < n, bData i + 1024 * (i + 1) = e) : Layout e n bData := by
  have hblock : ∀ i < n, startBuffer + n * headSize ≤ bData i := fun i hi => by
    have := hd i hi
    omega
  refine ⟨fun i hi => ?_, fun i hi => ?_, fun i hi j hj hij => ?_, fun i hi j hj hij => ?_,
    fun i hi j hj => ?_, fun i hi j hj he => ?_, ?_⟩
  · refine Set.Ico_subset_Ico (Nat.le_add_right _ _) ?_
    simp only [headSize] at hfit ⊢
    omega
  · have := hd i hi
    have := hblock i hi
    exact Set.Ico_subset_Ico (by omega) (by omega)
  · refine Set.Ico_disjoint_Ico.mpr ?_
    simp only [headSize]
    omega
  · have := hd i hi
    have := hd j hj
    exact Set.Ico_disjoint_Ico.mpr (by omega)
  · have := hblock j hj
    refine Set.Ico_disjoint_Ico.mpr ?_
    simp only [headSize] at this ⊢
    omega
  · have hi' := hd i hi
    have hj' := hd j hj
    rw [he] at hi'
    omega
  · rintro ⟨a, hin, hheader, hapart⟩
    have hfirst := hin (show a ∈ dataBlock a from ⟨le_rfl, by omega⟩)
    have hlast := hin (show a + 1023 ∈ dataBlock a from ⟨by omega, by omega⟩)
    -- the block begins behind the headers and ends in front of the blocks
    have hbegin : startBuffer + (n + 1) * headSize ≤ a := by
      by_contra hlt
      obtain ⟨i, hi, ha⟩ := exists_header hfirst.1 (not_le.mp hlt)
      exact Set.disjoint_left.mp (hheader i (Nat.le_of_lt_succ hi)) ha ⟨le_rfl, by omega⟩
    have hend : a + 1023 + 1024 * n < e := by
      by_contra hge
      obtain ⟨j, hj, ha⟩ := exists_block (not_lt.mp hge) hlast.2 hd
      exact Set.disjoint_left.mp (hapart j hj) ha ⟨by omega, by omega⟩
    omega

/-- The free list is the circle of all headers in their order. -/
structure InOrder (c : Cache) : Prop where
  first : c.freeList = 0
  next : ∀ i < c.nrBuffers, (c.buf i).bNextFree = some ((i + 1) % c.nrBuffers)
  prev : ∀ i < c.nrBuffers, (c.buf i).bPrevFree = some ((i + c.nrBuffers - 1) % c.nrBuffers)

theorem bufferInit_inOrder (bufferEnd : Nat) (c : Cache) : InOrder (c.bufferInit bufferEnd) := by
  have hall := (initLoop_spec bufferEnd 0 { c with nrBuffers := 0 } rfl (by simp)).2
  have hbuf := fun i => bufferInit_buf bufferEnd i c
  have hnr : (c.bufferInit bufferEnd).nrBuffers =
    (initLoop bufferEnd 0 { c with nrBuffers := 0 }).nrBuffers := rfl
  generalize initLoop bufferEnd 0 { c with nrBuffers := 0 } = d at hall hbuf hnr
  refine ⟨rfl, fun i hi => ?_, fun i hi => ?_⟩
  · rw [hnr] at hi ⊢
    simp only [hbuf, (hall i hi).bNextFree]
    by_cases hlast : d.nrBuffers - 1 = i
    · rw [if_pos hlast, show i + 1 = d.nrBuffers by omega, Nat.mod_self]
    · rw [if_neg hlast, Nat.mod_eq_of_lt (by omega)]
  · rw [hnr] at hi ⊢
    simp only [hbuf, (hall i hi).bPrevFree]
    by_cases hfirst : 0 = i
    · rw [if_pos hfirst, Nat.mod_eq_of_lt (by omega)]
      simp [← hfirst]
    · rw [if_neg hfirst, show i + d.nrBuffers - 1 = i - 1 + d.nrBuffers by omega,
        Nat.add_mod_right, Nat.mod_eq_of_lt (by omega)]

/-- `buffer_init` lays out at least one buffer as `Layout` says, and all headers are on the
free list. -/
theorem bufferInit_layout {bufferEnd : Nat} (hroom : RoomForBuffer bufferEnd) (p : Pool) :
    1 ≤ (p.bufferInit bufferEnd).cache.nrBuffers ∧
      Layout bufferEnd (p.bufferInit bufferEnd).cache.nrBuffers (p.bufferInit bufferEnd).bData ∧
        InOrder (p.bufferInit bufferEnd).cache := by
  rw [Pool.bufferInit_cache]
  refine ⟨(bufferInit_spec hroom p.cache).2.1, ?_, bufferInit_inOrder bufferEnd p.cache⟩
  obtain ⟨n, hn, hfit, hfull, hd⟩ :=
    @Pool.initLoop_spec bufferEnd bufferEnd 0 { p with cache := { p.cache with nrBuffers := 0 } }
      rfl rfl (by unfold RoomForBuffer at hroom; omega) nofun
  have hnr : (p.cache.bufferInit bufferEnd).nrBuffers = n := by
    rw [← hn, Pool.initLoop_cache]
    rfl
  rw [hnr]
  exact layout_of hfit hfull hd

/-- The kernel's own pool ends at 4 MB. -/
theorem bufferInit_layout_4MB :
    1 ≤ (Pool.bufferInit 0x400000 ⟨blank, fun _ => 0⟩).cache.nrBuffers ∧
      Layout 0x400000 (Pool.bufferInit 0x400000 ⟨blank, fun _ => 0⟩).cache.nrBuffers
        (Pool.bufferInit 0x400000 ⟨blank, fun _ => 0⟩).bData ∧
          InOrder (Pool.bufferInit 0x400000 ⟨blank, fun _ => 0⟩).cache :=
  bufferInit_layout (by decide) _

end Gpos.Cache
