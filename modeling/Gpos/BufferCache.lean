import Gpos.BufferQueues

/-! The representation invariant of the buffer cache, what the two searches
of `getblk` find under it, and how `getblk` takes a buffer for another block. -/

namespace Gpos.Cache

open Links

def Caches (c : Cache) (b dev block : Nat) : Prop :=
  b < c.nrBuffers ∧ (c.buf b).bDev = dev ∧ (c.buf b).bBlocknr = block

structure CacheInv (c : Cache) : Prop where
  free : ∃ l, FreeInv c l
  hash : ∃ chain, HashInv c none chain
  unique : ∀ a b dev block, dev ≠ 0 → c.Caches a dev block → c.Caches b dev block → a = b

/-- Identities and links are as before; the other fields may differ. -/
structure SameShape (c c' : Cache) : Prop where
  nrBuffers : c'.nrBuffers = c.nrBuffers
  hashTable : c'.hashTable = c.hashTable
  freeList : c'.freeList = c.freeList
  buf : ∀ i, (c'.buf i).bDev = (c.buf i).bDev ∧ (c'.buf i).bBlocknr = (c.buf i).bBlocknr ∧
    (c'.buf i).bNext = (c.buf i).bNext ∧ (c'.buf i).bPrev = (c.buf i).bPrev ∧
    (c'.buf i).bNextFree = (c.buf i).bNextFree ∧ (c'.buf i).bPrevFree = (c.buf i).bPrevFree

theorem FreeInv.congr {c c' : Cache} {l : List Nat} (h : FreeInv c l)
    (hn : c'.nrBuffers = c.nrBuffers) (hfl : c'.freeList = c.freeList)
    (hb : ∀ i, (c'.buf i).bNextFree = (c.buf i).bNextFree ∧
      (c'.buf i).bPrevFree = (c.buf i).bPrevFree) :
    FreeInv c' l := by
  refine ⟨h.ring.congr fun x _ => ?_, h.nodup, fun b => by rw [h.mem, hn], by rw [h.head, hfl]⟩
  cases x with
  | none => exact ⟨rfl, rfl⟩
  | some i => exact hb i

theorem FreeOut.congr {c c' : Cache} {b : Nat} {l : List Nat} (h : FreeOut c b l)
    (hn : c'.nrBuffers = c.nrBuffers) (hfl : c'.freeList = c.freeList)
    (hb : ∀ i, (c'.buf i).bNextFree = (c.buf i).bNextFree ∧
      (c'.buf i).bPrevFree = (c.buf i).bPrevFree) :
    FreeOut c' b l := by
  refine ⟨h.ring.congr fun x _ => ?_, h.nodup, fun a => by rw [h.mem, hn],
    by rw [hfl, (hb b).2]; exact h.head⟩
  cases x with
  | none => exact ⟨rfl, rfl⟩
  | some i => exact hb i

theorem HashInv.congr {c c' : Cache} {out : Option Nat} {chain : Nat → List Nat}
    (h : HashInv c out chain) (hn : c'.nrBuffers = c.nrBuffers) (ht : c'.hashTable = c.hashTable)
    (hl : ∀ i, (c'.buf i).bNext = (c.buf i).bNext ∧ (c'.buf i).bPrev = (c.buf i).bPrev)
    (hb : ∀ i, some i ≠ out → (c'.buf i).bDev = (c.buf i).bDev ∧
      (c'.buf i).bBlocknr = (c.buf i).bBlocknr) :
    HashInv c' out chain := by
  refine ⟨fun k => ?_, h.nodup, fun k b => ?_, fun b hb' ho hd => ?_⟩
  · obtain ⟨last, hr⟩ := h.ring k
    refine ⟨last, hr.congr fun x _ => ?_⟩
    cases x with
    | none => exact ⟨congrFun ht k, rfl⟩
    | some i => exact hl i
  · rw [h.mem, hn]
    by_cases ho : some b = out
    · simp [ho]
    · rw [(hb b ho).1, (hb b ho).2]
  · rw [(hl b).1, (hl b).2]
    exact h.unhashed b (hn ▸ hb') ho ((hb b ho).1 ▸ hd)

theorem SameShape.caches {c c' : Cache} (h : SameShape c c') (b dev block : Nat) :
    c'.Caches b dev block ↔ c.Caches b dev block := by
  simp only [Caches, h.nrBuffers, (h.buf b).1, (h.buf b).2.1]

theorem CacheInv.congr {c c' : Cache} (h : CacheInv c) (hs : SameShape c c') : CacheInv c' := by
  obtain ⟨l, hl⟩ := h.free
  obtain ⟨chain, hc⟩ := h.hash
  refine ⟨⟨l, hl.congr hs.nrBuffers hs.freeList fun i => (hs.buf i).2.2.2.2⟩,
    ⟨chain, hc.congr hs.nrBuffers hs.hashTable (fun i => ?_) fun i _ =>
      ⟨(hs.buf i).1, (hs.buf i).2.1⟩⟩, ?_⟩
  · exact ⟨(hs.buf i).2.2.1, (hs.buf i).2.2.2.1⟩
  · intro a b dev block hd ha hb
    exact h.unique a b dev block hd ((hs.caches a dev block).mp ha) ((hs.caches b dev block).mp hb)

/-- The fields that a modification of one header must leave alone. -/
def KeepsShape (f : BufferHead → BufferHead) : Prop :=
  ∀ b, (f b).bDev = b.bDev ∧ (f b).bBlocknr = b.bBlocknr ∧ (f b).bNext = b.bNext ∧
    (f b).bPrev = b.bPrev ∧ (f b).bNextFree = b.bNextFree ∧ (f b).bPrevFree = b.bPrevFree

theorem sameShape_modify (c : Cache) (i : Nat) {f : BufferHead → BufferHead} (hf : KeepsShape f) :
    SameShape c (c.modify i f) := by
  refine ⟨rfl, rfl, rfl, fun j => ?_⟩
  rw [modify_buf]
  split
  · exact hf _
  · exact ⟨rfl, rfl, rfl, rfl, rfl, rfl⟩

theorem CacheInv.modify {c : Cache} (h : CacheInv c) (i : Nat) {f : BufferHead → BufferHead}
    (hf : KeepsShape f) : CacheInv (c.modify i f) :=
  h.congr (sameShape_modify c i hf)

theorem nodup_length_le {l : List Nat} {n : Nat} (hnd : l.Nodup) (h : ∀ b ∈ l, b < n) :
    l.length ≤ n := by
  have hs :=
    (@List.Nodup.subperm Nat l (List.range n) hnd fun b hb => List.mem_range.mpr (h b hb)).length_le
  simpa using hs

theorem findFrom_eq (c : Cache) (dev block h : Nat) (last : Option Nat) (l : List Nat)
    (x : Option Nat) (hl : Linked (c.nxHash h) (c.pvHash last) (x :: l.map some ++ [none]))
    (fuel : Nat) (hf : l.length ≤ fuel) : c.findFrom dev block fuel (c.nxHash h x) =
      some (l.find? fun b => (c.buf b).bDev = dev ∧ (c.buf b).bBlocknr = block) := by
  induction l generalizing x fuel with
  | nil =>
    have hx : c.nxHash h x = none := (linked_pair.mp hl).1
    cases fuel <;> simp [hx, findFrom]
  | cons b l ih =>
    have hh := List.isChain_cons_cons.mp hl
    obtain ⟨fuel, rfl⟩ : ∃ k, fuel = k + 1 :=
      ⟨fuel - 1, by simp only [List.length_cons] at hf; omega⟩
    rw [hh.1.1, findFrom, List.find?_cons]
    by_cases hb : (c.buf b).bDev = dev ∧ (c.buf b).bBlocknr = block
    · simp [hb]
    · rw [if_neg hb, decide_eq_false hb]
      exact ih (some b) hh.2 fuel (by simp only [List.length_cons] at hf; omega)

/-- `find_buffer` comes to an end, and it finds the buffer of a block if there is one. -/
theorem CacheInv.findBuffer {c : Cache} (h : CacheInv c) {dev : Nat} (block : Nat) (hd : dev ≠ 0) :
    (∃ b, c.findBuffer dev block = some (some b) ∧ c.Caches b dev block) ∨
      c.findBuffer dev block = some none ∧ ∀ b, ¬ c.Caches b dev block := by
  obtain ⟨chain, hc⟩ := h.hash
  obtain ⟨last, hr⟩ := hc.ring (hashfn dev block)
  have hlen : (chain (hashfn dev block)).length ≤ c.nrBuffers :=
    nodup_length_le (hc.nodup _) fun b hb => ((hc.mem _ b).mp hb).1
  have he : c.findBuffer dev block = _ :=
    findFrom_eq c dev block (hashfn dev block) last _ none hr _ hlen
  rw [he]
  cases hfind : (chain (hashfn dev block)).find? fun b => (c.buf b).bDev = dev ∧
    (c.buf b).bBlocknr = block with
  | some b =>
    have hp := List.find?_some hfind
    have hm := (hc.mem _ b).mp (List.mem_of_find?_eq_some hfind)
    exact .inl ⟨b, rfl, hm.1, by simpa using hp⟩
  | none =>
    refine .inr ⟨rfl, fun b hb => ?_⟩
    have hm : b ∈ chain (hashfn dev block) :=
      (hc.mem _ b).mpr ⟨hb.1, by simp, hb.2.1.symm ▸ hd, by rw [hb.2.1, hb.2.2]⟩
    have hn := List.find?_eq_none.mp hfind b hm
    simp [hb.2.1, hb.2.2] at hn

/-- `r` is a least bad buffer among the unused ones in `V`, or there is none. -/
def Best (c : Cache) (V : List Nat) : Option Nat → Prop
  | none => ∀ b ∈ V, (c.buf b).bCount ≠ 0
  | some v => v ∈ V ∧ (c.buf v).bCount = 0 ∧
    ∀ b ∈ V, (c.buf b).bCount = 0 → badness (c.buf v) ≤ badness (c.buf b)

theorem Best.append {c : Cache} {V : List Nat} {r : Option Nat} (h : Best c V r) (tmp : Nat) :
    Best c (V ++ [tmp]) (if (c.buf tmp).bCount = 0 ∧
      ∀ b ∈ r, badness (c.buf tmp) < badness (c.buf b) then some tmp else r) := by
  split
  next hb =>
    refine ⟨by simp, hb.1, fun a ha h0 => ?_⟩
    rcases List.mem_append.mp ha with ha | ha
    · cases r with
      | none => exact absurd h0 (h a ha)
      | some v => exact (hb.2 v rfl).le.trans (h.2.2 a ha h0)
    · rw [List.mem_singleton.mp ha]
  next hb =>
    cases r with
    | none =>
      intro a ha
      rcases List.mem_append.mp ha with ha | ha
      · exact h a ha
      · rw [List.mem_singleton.mp ha]
        exact fun h0 => hb ⟨h0, by simp⟩
    | some v =>
      refine ⟨List.mem_append_left _ h.1, h.2.1, fun a ha h0 => ?_⟩
      rcases List.mem_append.mp ha with ha | ha
      · exact h.2.2 a ha h0
      · rw [List.mem_singleton.mp ha] at h0 ⊢
        exact not_lt.mp fun hlt => hb ⟨h0, by simpa using hlt⟩

theorem Best.zero {c : Cache} {V : List Nat} {tmp : Nat} (hm : tmp ∈ V)
    (h0 : (c.buf tmp).bCount = 0) (hb : badness (c.buf tmp) = 0) : Best c V (some tmp) :=
  ⟨hm, h0, fun b _ _ => by omega⟩

theorem scanFree_best (c : Cache) (todo : List Nat) (V : List Nat) (tmp : Nat) (bh : Option Nat)
    (fuel : Nat) (hf : todo.length < fuel) (hnot : c.freeList ∉ todo)
    (hl : Linked c.nxFree c.pvFree ((tmp :: todo).map some ++ [some c.freeList]))
    (hb : Best c V bh) :
    ∃ r, c.scanFree fuel tmp bh = some r ∧ Best c (V ++ tmp :: todo) r := by
  induction todo generalizing V tmp bh fuel with
  | nil =>
    obtain ⟨fuel, rfl⟩ : ∃ k, fuel = k + 1 :=
      ⟨fuel - 1, by simp only [List.length_nil] at hf; omega⟩
    have hnext : (c.buf tmp).bNextFree = some c.freeList := (linked_pair.mp hl).1
    rw [scanFree]
    split
    next hz => exact ⟨_, rfl, Best.zero (by simp) hz.1.1 hz.2⟩
    next => exact ⟨_, by simp only [hnext, if_true], hb.append tmp⟩
  | cons next todo ih =>
    obtain ⟨fuel, rfl⟩ : ∃ k, fuel = k + 1 :=
      ⟨fuel - 1, by simp only [List.length_cons] at hf; omega⟩
    have hh := List.isChain_cons_cons.mp hl
    have hnext : (c.buf tmp).bNextFree = some next := hh.1.1
    simp only [List.mem_cons, not_or] at hnot
    rw [scanFree]
    split
    next hz => exact ⟨_, rfl, Best.zero (by simp) hz.1.1 hz.2⟩
    next =>
      simp only [hnext, if_neg (Ne.symm hnot.1)]
      obtain ⟨r, hr, hbest⟩ :=
        ih (V ++ [tmp]) next _ fuel (by simp only [List.length_cons] at hf; omega)
        hnot.2 hh.2 (hb.append tmp)
      exact ⟨r, hr, by simpa using hbest⟩

/-- The victim search comes to an end, and it finds a least bad unused buffer if there is one. -/
theorem CacheInv.pickVictim {c : Cache} (h : CacheInv c) :
    ∃ r, c.pickVictim = some r ∧ Best c (List.range c.nrBuffers) r := by
  obtain ⟨l, hl⟩ := h.free
  obtain ⟨m, rfl⟩ : ∃ m, l = c.freeList :: m := by
    cases l with
    | nil => simpa using hl.head
    | cons a m => exact ⟨m, by rw [show a = c.freeList by simpa using hl.head]⟩
  have hlen := nodup_length_le hl.nodup fun b hb => (hl.mem b).mp hb
  obtain ⟨r, hr, hbest⟩ := scanFree_best c m [] c.freeList none c.nrBuffers hlen
    (List.nodup_cons.mp hl.nodup).1 hl.ring (by simp [Best])
  refine ⟨r, hr, ?_⟩
  have hm : ∀ b, b ∈ c.freeList :: m ↔ b ∈ List.range c.nrBuffers := fun b => by
    rw [hl.mem, List.mem_range]
  cases r with
  | none => exact fun b hb => hbest b ((hm b).mpr hb)
  | some v => exact ⟨(hm v).mp hbest.1, hbest.2.1, fun b hb => hbest.2.2 b ((hm b).mpr hb)⟩

end Gpos.Cache
