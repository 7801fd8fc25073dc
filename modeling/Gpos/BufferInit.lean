import Gpos.BufferReuse

/-! `buffer_init` leaves every buffer on the free list and none in a hash queue. -/

namespace Gpos.Cache

open Links

/-- A header as the loop of `buffer_init` leaves it, `b_data` apart. -/
structure Fresh (b : BufferHead) (i : Nat) : Prop where
  bDev : b.bDev = 0
  bDirt : b.bDirt = false
  bCount : b.bCount = 0
  bLock : b.bLock = false
  bUptodate : b.bUptodate = false
  bNext : b.bNext = none
  bPrev : b.bPrev = none
  bPrevFree : b.bPrevFree = some (i - 1)
  bNextFree : b.bNextFree = some (i + 1)

def initHead (h : Nat) (c : Cache) : Cache :=
  { c.modify h fun bh =>
      { bh with
        bDev := 0, bDirt := false, bCount := 0, bLock := false, bUptodate := false
        bNext := none, bPrev := none, bPrevFree := some (h - 1), bNextFree := some (h + 1) } with
    nrBuffers := c.nrBuffers + 1 }

theorem initLoop_succ {b h : Nat} {c : Cache} (hb : startBuffer + (h + 1) * headSize ≤ b - 1024) :
    initLoop b h c =
      initLoop (if b - 1024 = 0x100000 then 0xA0000 else b - 1024) (h + 1) (c.initHead h) := by
  conv_lhs => unfold initLoop
  rw [dif_pos hb]
  rfl

theorem initLoop_stop {b h : Nat} {c : Cache} (hb : ¬ startBuffer + (h + 1) * headSize ≤ b - 1024) :
    initLoop b h c = c := by
  unfold initLoop
  exact dif_neg hb

theorem initHead_fresh {h : Nat} {c : Cache} (hfr : ∀ i, i < h → Fresh (c.buf i) i) :
    ∀ i, i < h + 1 → Fresh ((c.initHead h).buf i) i := by
  intro i hi
  simp only [initHead, modify_buf]
  split
  next e =>
    subst e
    exact ⟨rfl, rfl, rfl, rfl, rfl, rfl, rfl, rfl, rfl⟩
  next e => exact hfr i (by omega)

theorem initLoop_spec (b h : Nat) (c : Cache) (hn : c.nrBuffers = h)
    (hfr : ∀ i, i < h → Fresh (c.buf i) i) : h ≤ (initLoop b h c).nrBuffers ∧
      ∀ i, i < (initLoop b h c).nrBuffers → Fresh ((initLoop b h c).buf i) i := by
  induction b using Nat.strong_induction_on generalizing h c with
  | _ b ih =>
    by_cases hb : startBuffer + (h + 1) * headSize ≤ b - 1024
    · have hdec : (if b - 1024 = 0x100000 then 0xA0000 else b - 1024) < b := by
        simp only [startBuffer, headSize] at hb
        split <;> omega
      rw [initLoop_succ hb]
      have hh := ih _ hdec (h + 1) (c.initHead h) (by rw [← hn]; rfl) (initHead_fresh hfr)
      exact ⟨by omega, hh.2⟩
    · rw [initLoop_stop hb]
      exact ⟨hn.ge, fun i hi => hfr i (hn ▸ hi)⟩

theorem initLoop_pos {b : Nat} {c : Cache} (hn : c.nrBuffers = 0)
    (hb : startBuffer + headSize ≤ b - 1024) : 0 < (initLoop b 0 c).nrBuffers := by
  rw [initLoop_succ (by simpa using hb)]
  exact (initLoop_spec _ 1 _ (by simp [initHead, hn]) (initHead_fresh (by simp))).1

theorem ring_range (nx pv : Option Nat → Option Nat) {n : Nat} (hpos : 0 < n)
    (hnx : ∀ i, i < n → nx (some i) = some (if i + 1 = n then 0 else i + 1))
    (hpv : ∀ i, i < n → pv (some i) = some (if i = 0 then n - 1 else i - 1)) :
    Ring nx pv ((List.range n).map some) := by
  obtain ⟨k, rfl⟩ : ∃ k, n = k + 1 := ⟨n - 1, by omega⟩
  have hr : (List.range (k + 1)).map some = some 0 :: ((List.range k).map Nat.succ).map some := by
    rw [List.range_succ_eq_map, List.map_cons]
  rw [hr]
  change Linked nx pv (_ :: _ ++ _)
  rw [← hr]
  refine List.isChain_iff_getElem.mpr fun i hi => ?_
  have hik : i < k + 1 := by simpa using hi
  rw [List.getElem_append_left (by simpa using hik)]
  by_cases he : i + 1 < k + 1
  · rw [List.getElem_append_left (by simpa using he)]
    simp only [List.getElem_map, List.getElem_range]
    refine ⟨by rw [hnx i hik, if_neg (by omega)], by rw [hpv _ he, if_neg (by omega)]; rfl⟩
  · obtain rfl : i = k := by omega
    rw [List.getElem_append_right (by simp)]
    simp only [List.getElem_map, List.getElem_range, List.getElem_singleton]
    exact ⟨by rw [hnx i hik, if_pos rfl], by rw [hpv 0 hpos, if_pos rfl]; rfl⟩

/-- The pool that `buffer_init` sets up for `buffer_end` has at least one buffer. -/
def RoomForBuffer (bufferEnd : Nat) : Prop := startBuffer + headSize ≤ bufferEnd - 1024

instance (bufferEnd : Nat) : Decidable (RoomForBuffer bufferEnd) :=
  inferInstanceAs (Decidable (_ ≤ _))

def blank : Cache where
  nrBuffers := 0
  buf _ := ⟨0, 0, 0, false, false, 0, false, none, none, none, none⟩
  hashTable _ := none
  freeList := 0

theorem bufferInit_buf (bufferEnd i : Nat) (c : Cache) :
    (bufferInit bufferEnd c).buf i =
      let d := initLoop bufferEnd 0 { c with nrBuffers := 0 }
      { d.buf i with
        bPrevFree := if 0 = i then some (d.nrBuffers - 1) else (d.buf i).bPrevFree
        bNextFree := if d.nrBuffers - 1 = i then some 0 else (d.buf i).bNextFree } := by
  simp only [bufferInit, setPrevFree, setNextFree, modify_buf]
  split_ifs <;> rfl

theorem bufferInit_spec {bufferEnd : Nat} (hroom : RoomForBuffer bufferEnd) (c : Cache) :
    CacheInv (bufferInit bufferEnd c) ∧ 0 < (bufferInit bufferEnd c).nrBuffers ∧
      ∀ b, b < (bufferInit bufferEnd c).nrBuffers → ((bufferInit bufferEnd c).buf b).bDev = 0 ∧
        ((bufferInit bufferEnd c).buf b).bCount = 0 ∧
          ((bufferInit bufferEnd c).buf b).bLock = false := by
  have hpos : 0 < (initLoop bufferEnd 0 { c with nrBuffers := 0 }).nrBuffers :=
    initLoop_pos rfl hroom
  have hall := (initLoop_spec bufferEnd 0 { c with nrBuffers := 0 } rfl (by simp)).2
  have hbuf := fun i => bufferInit_buf bufferEnd i c
  have hnr : (bufferInit bufferEnd c).nrBuffers =
    (initLoop bufferEnd 0 { c with nrBuffers := 0 }).nrBuffers := rfl
  have hfree : (bufferInit bufferEnd c).freeList = 0 := rfl
  have hhash : (bufferInit bufferEnd c).hashTable = fun _ => none := rfl
  generalize he : initLoop bufferEnd 0 { c with nrBuffers := 0 } = d at hpos hall hbuf hnr
  have hdev : ∀ i, i < d.nrBuffers → ((bufferInit bufferEnd c).buf i).bDev = 0 := fun i hi => by
    rw [hbuf]
    exact (hall i hi).bDev
  refine ⟨⟨⟨List.range d.nrBuffers, ?_, List.nodup_range, fun b => by rw [List.mem_range, hnr], ?_⟩,
    ⟨fun _ => [], fun h => ⟨none, ?_⟩, fun _ => List.nodup_nil, fun h b => ?_,
      fun b hb _ _ => ?_⟩, ?_⟩,
    by rw [hnr]; exact hpos, fun b hb => ?_⟩
  · refine ring_range _ _ hpos (fun i hi => ?_) fun i hi => ?_
    · simp only [nxFree, hbuf, (hall i hi).bNextFree]
      split_ifs <;> first | rfl | omega
    · simp only [pvFree, hbuf, (hall i hi).bPrevFree]
      split_ifs <;> first | rfl | omega
  · rw [hfree]
    obtain ⟨k, hk⟩ : ∃ k, d.nrBuffers = k + 1 := ⟨d.nrBuffers - 1, by omega⟩
    rw [hk, List.range_succ_eq_map, List.head?_cons]
  · exact linked_pair.mpr ⟨by rw [nxHash, hhash], rfl⟩
  · simp only [List.not_mem_nil, false_iff]
    rintro ⟨hb, -, hne, -⟩
    exact hne (hdev b (hnr ▸ hb))
  · rw [hbuf]
    exact ⟨(hall b (hnr ▸ hb)).bNext, (hall b (hnr ▸ hb)).bPrev⟩
  · rintro a b dev block hd ⟨ha, rfl, -⟩ -
    exact absurd (hdev a (hnr ▸ ha)) hd
  · rw [hbuf]
    have hf := hall b (hnr ▸ hb)
    exact ⟨hf.bDev, hf.bCount, hf.bLock⟩

end Gpos.Cache
