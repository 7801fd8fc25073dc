import Gpos.Buffer
import Gpos.Links

/-! The two queues of the buffer cache as rings: the free list as it stands,
and every hash queue with the null pointer as one more node. -/

namespace Gpos.Cache

open Links

def nxFree (c : Cache) : Option Nat → Option Nat
  | none => none
  | some i => (c.buf i).bNextFree

def pvFree (c : Cache) : Option Nat → Option Nat
  | none => none
  | some i => (c.buf i).bPrevFree

def nxHash (c : Cache) (h : Nat) : Option Nat → Option Nat
  | none => c.hashTable h
  | some i => (c.buf i).bNext

def pvHash (c : Cache) (last : Option Nat) : Option Nat → Option Nat
  | none => last
  | some i => (c.buf i).bPrev

structure FreeInv (c : Cache) (l : List Nat) : Prop where
  ring : Ring c.nxFree c.pvFree (l.map some)
  nodup : l.Nodup
  mem : ∀ b, b ∈ l ↔ b < c.nrBuffers
  head : l.head? = some c.freeList

/-- The free list while `b` is out of it; it was the only buffer if `l` is empty. -/
structure FreeOut (c : Cache) (b : Nat) (l : List Nat) : Prop where
  ring : Ring c.nxFree c.pvFree (l.map some)
  nodup : l.Nodup
  mem : ∀ a, a ∈ l ↔ a < c.nrBuffers ∧ a ≠ b
  head : l.head? = some c.freeList ∨
    l = [] ∧ c.freeList = b ∧ (c.buf b).bPrevFree = some b

/-- The hash queues, with the buffer `out` in none of them. -/
structure HashInv (c : Cache) (out : Option Nat) (chain : Nat → List Nat) : Prop where
  ring : ∀ h, ∃ last, Ring (c.nxHash h) (c.pvHash last) (none :: (chain h).map some)
  nodup : ∀ h, (chain h).Nodup
  mem : ∀ h b, b ∈ chain h ↔ b < c.nrBuffers ∧ some b ≠ out ∧ (c.buf b).bDev ≠ 0 ∧
    hashfn (c.buf b).bDev (c.buf b).bBlocknr = h
  unhashed : ∀ b, b < c.nrBuffers → some b ≠ out → (c.buf b).bDev = 0 →
    (c.buf b).bNext = none ∧ (c.buf b).bPrev = none

/-- Nothing but the links of the free list differs. -/
def EqButFree (c c' : Cache) : Prop :=
  c'.nrBuffers = c.nrBuffers ∧ c'.hashTable = c.hashTable ∧
    ∀ i, c'.buf i = { c.buf i with
      bPrevFree := (c'.buf i).bPrevFree, bNextFree := (c'.buf i).bNextFree }

/-- Nothing but the links of the hash queues differs. -/
def EqButHash (c c' : Cache) : Prop :=
  c'.nrBuffers = c.nrBuffers ∧ c'.freeList = c.freeList ∧
    ∀ i, c'.buf i = { c.buf i with bPrev := (c'.buf i).bPrev, bNext := (c'.buf i).bNext }

theorem modify_buf (c : Cache) (i : Nat) (f : BufferHead → BufferHead) (j : Nat) :
    (c.modify i f).buf j = if i = j then f (c.buf j) else c.buf j := by
  by_cases h : i = j
  · subst h
    simp [modify]
  · simp [modify, h, Function.update_of_ne (Ne.symm h)]

@[simp] theorem modify_nrBuffers (c : Cache) (i : Nat) (f : BufferHead → BufferHead) :
    (c.modify i f).nrBuffers = c.nrBuffers := rfl

@[simp] theorem modify_hashTable (c : Cache) (i : Nat) (f : BufferHead → BufferHead) :
    (c.modify i f).hashTable = c.hashTable := rfl

@[simp] theorem modify_freeList (c : Cache) (i : Nat) (f : BufferHead → BufferHead) :
    (c.modify i f).freeList = c.freeList := rfl

/-- The two neighbours of `b` in its hash queue point past it. -/
def bypass (b : Nat) (c : Cache) : Cache :=
  let c' := match (c.buf b).bNext with
    | none => c
    | some n => c.setPrev n (c.buf b).bPrev
  match (c.buf b).bPrev with
  | none => c'
  | some p => c'.setNext p (c.buf b).bNext

theorem bypass_buf (c : Cache) (b i : Nat) : (c.bypass b).buf i = { c.buf i with
    bNext := if (c.buf b).bPrev = some i then (c.buf b).bNext else (c.buf i).bNext
    bPrev := if (c.buf b).bNext = some i then (c.buf b).bPrev else (c.buf i).bPrev } := by
  unfold bypass
  cases (c.buf b).bNext <;> cases (c.buf b).bPrev <;>
    simp only [setPrev, setNext, modify_buf, Option.some.injEq, reduceCtorEq, if_false]
  all_goals split_ifs <;> rfl

theorem bypass_rest (c : Cache) (b : Nat) : (c.bypass b).hashTable = c.hashTable ∧
    (c.bypass b).nrBuffers = c.nrBuffers ∧ (c.bypass b).freeList = c.freeList := by
  unfold bypass
  split <;> split <;> exact ⟨rfl, rfl, rfl⟩

theorem removeFromHash_eq (c : Cache) (b : Nat) :
    c.removeFromHash b =
      if c.hashTable (hashfn (c.buf b).bDev (c.buf b).bBlocknr) = some b then
        (c.bypass b).setHash (hashfn (c.buf b).bDev (c.buf b).bBlocknr) (c.buf b).bNext
      else c.bypass b := by
  have h : c.removeFromHash b =
      if (c.bypass b).hashTable (hashfn ((c.bypass b).buf b).bDev ((c.bypass b).buf b).bBlocknr) =
        some b then
        (c.bypass b).setHash (hashfn ((c.bypass b).buf b).bDev ((c.bypass b).buf b).bBlocknr)
          ((c.bypass b).buf b).bNext
      else c.bypass b := rfl
  rw [h, (bypass_rest c b).1, bypass_buf]
  simp only [ite_self]

theorem removeFromHash_frame (c : Cache) (b : Nat) : EqButHash c (c.removeFromHash b) := by
  have hr := bypass_rest c b
  rw [removeFromHash_eq]
  split
  · exact ⟨hr.2.1, hr.2.2,
      fun i => by rw [show ((c.bypass b).setHash _ _).buf i = _ from bypass_buf c b i]⟩
  · exact ⟨hr.2.1, hr.2.2, fun i => by rw [bypass_buf]⟩

theorem HashInv.ring_at {c : Cache} {out : Option Nat} {chain : Nat → List Nat}
    (hi : HashInv c out chain) {h b : Nat} (hb : b ∈ chain h) :
    ∃ last p s, chain h = p ++ b :: s ∧
      Ring (c.nxHash h) (c.pvHash last) ((none :: p.map some) ++ some b :: s.map some) ∧
      ((none :: p.map some) ++ some b :: s.map some).Nodup ∧
      (c.hashTable h = some b ↔ (c.buf b).bPrev = none) := by
  obtain ⟨last, hr⟩ := hi.ring h
  obtain ⟨p, s, hs⟩ := List.append_of_mem hb
  have hnd : (none :: (chain h).map some).Nodup := by
    simpa using (hi.nodup h).map (Option.some_injective Nat)
  have hl := hr.links (show some b ∈ none :: (chain h).map some by simpa using hb)
  have hl₀ := hr.links (show none ∈ none :: (chain h).map some by simp)
  refine ⟨last, p, s, hs, by simpa [hs] using hr, by simpa [hs] using hnd, ?_, ?_⟩
  · intro he
    have := hl₀.2.2.2
    rwa [show c.nxHash h none = some b from he] at this
  · intro he
    have := hl.2.2.1
    rwa [show c.pvHash last (some b) = none from he] at this

theorem removeFromHash_buf (c : Cache) (b i : Nat) : (c.removeFromHash b).buf i = { c.buf i with
    bNext := if (c.buf b).bPrev = some i then (c.buf b).bNext else (c.buf i).bNext
    bPrev := if (c.buf b).bNext = some i then (c.buf b).bPrev else (c.buf i).bPrev } := by
  rw [removeFromHash_eq, ← bypass_buf]
  split <;> rfl

theorem removeFromHash_table (c : Cache) (b h : Nat) : (c.removeFromHash b).hashTable h =
    if h = hashfn (c.buf b).bDev (c.buf b).bBlocknr ∧ c.hashTable h = some b then (c.buf b).bNext
    else c.hashTable h := by
  rw [removeFromHash_eq]
  split
  next he =>
    simp only [setHash, (bypass_rest c b).1, Function.update_apply]
    by_cases hh : h = hashfn (c.buf b).bDev (c.buf b).bBlocknr
    · simp [hh, he]
    · simp [hh]
  next he =>
    rw [(bypass_rest c b).1, if_neg]
    rintro ⟨rfl, hh⟩
    exact he hh

theorem HashInv.not_mem_of_ne {c : Cache} {out : Option Nat} {chain : Nat → List Nat}
    (hi : HashInv c out chain) {h h' b : Nat} (hb : b ∈ chain h) (hne : h' ≠ h) : b ∉ chain h' :=
  fun hb' => hne (((hi.mem h' b).mp hb').2.2.2.symm.trans ((hi.mem h b).mp hb).2.2.2)

/-- A buffer without a device is in no queue, and taking it out changes nothing. -/
theorem HashInv.remove_unhashed {c : Cache} {chain : Nat → List Nat} (hi : HashInv c none chain)
    {b : Nat} (hb : b < c.nrBuffers) (hd : (c.buf b).bDev = 0) : c.removeFromHash b = c := by
  have hl := hi.unhashed b hb (by simp) hd
  have hby : c.bypass b = c := by simp [bypass, hl.1, hl.2]
  rw [removeFromHash_eq, hby, if_neg]
  intro he
  obtain ⟨last, hr⟩ := hi.ring (hashfn (c.buf b).bDev (c.buf b).bBlocknr)
  have hm := (hr.links (show none ∈ none :: (chain _).map some by simp)).1
  rw [show c.nxHash _ none = some b from he] at hm
  have hb' : b ∈ chain (hashfn (c.buf b).bDev (c.buf b).bBlocknr) := by simpa using hm
  exact ((hi.mem _ b).mp hb').2.2.1 hd

theorem HashInv.removed_buf {c : Cache} {out : Option Nat} {chain : Nat → List Nat}
    (hi : HashInv c out chain) {h b i : Nat} (hb : b ∈ chain h) (hfar : i ∉ chain h) :
      ((c.removeFromHash b).buf i).bNext = (c.buf i).bNext ∧
        ((c.removeFromHash b).buf i).bPrev = (c.buf i).bPrev := by
  obtain ⟨last, hr⟩ := hi.ring h
  have hlinks := hr.links (show some b ∈ none :: (chain h).map some by simpa using hb)
  have hprev : (c.buf b).bPrev ≠ some i := fun e => hfar (by
    have := hlinks.2.1
    rw [show c.pvHash last (some b) = some i from e] at this
    simpa using this)
  have hnext : (c.buf b).bNext ≠ some i := fun e => hfar (by
    have := hlinks.1
    rw [show c.nxHash _ (some b) = some i from e] at this
    simpa using this)
  rw [removeFromHash_buf]
  exact ⟨if_neg hprev, if_neg hnext⟩

theorem HashInv.removed_ring {c : Cache} {out : Option Nat} {chain : Nat → List Nat}
    (hi : HashInv c out chain) {b : Nat} (hin : b ∈ chain
      (hashfn (c.buf b).bDev (c.buf b).bBlocknr)) :
    ∃ last, Ring ((c.removeFromHash b).nxHash (hashfn (c.buf b).bDev (c.buf b).bBlocknr))
      ((c.removeFromHash b).pvHash last)
        (none :: ((chain (hashfn (c.buf b).bDev (c.buf b).bBlocknr)).erase b).map some) := by
  obtain ⟨last, p, s, hs, hr, hnd, hhead⟩ := hi.ring_at hin
  refine ⟨if (c.buf b).bNext = none then (c.buf b).bPrev else last, ?_⟩
  have hp : b ∉ p := by
    have hnd' := hi.nodup (hashfn (c.buf b).bDev (c.buf b).bBlocknr)
    rw [hs] at hnd'
    exact fun hm => (List.nodup_append.mp hnd').2.2 b hm b (by simp) rfl
  rw [hs, List.erase_append_right _ hp, List.erase_cons_head, List.map_append, ← List.cons_append]
  refine (hr.erase hnd).congr fun x _ => ?_
  cases x with
  | none =>
    constructor
    · change (c.removeFromHash b).hashTable _ = _
      rw [removeFromHash_table, Function.update_apply]
      simp only [true_and, hhead, pvHash, nxHash, eq_comm (a := none)]
    · simp only [pvHash, nxHash, Function.update_apply, eq_comm (a := none)]
  | some i =>
    constructor
    · change ((c.removeFromHash b).buf i).bNext = _
      rw [removeFromHash_buf, Function.update_apply]
      simp only [pvHash, nxHash, eq_comm (a := some i)]
    · change ((c.removeFromHash b).buf i).bPrev = _
      rw [removeFromHash_buf, Function.update_apply]
      simp only [pvHash, nxHash, eq_comm (a := some i)]

theorem HashInv.remove {c : Cache} {chain : Nat → List Nat} (hi : HashInv c none chain) {b : Nat}
    (hb : b < c.nrBuffers) : HashInv (c.removeFromHash b) (some b) fun h => (chain h).erase b := by
  have hf := removeFromHash_frame c b
  have hdev : ∀ i, ((c.removeFromHash b).buf i).bDev = (c.buf i).bDev := fun i => by rw [hf.2.2 i]
  have hblk : ∀ i, ((c.removeFromHash b).buf i).bBlocknr = (c.buf i).bBlocknr :=
    fun i => by rw [hf.2.2 i]
  have hmem : ∀ h a, a ∈ (chain h).erase b ↔ a < (c.removeFromHash b).nrBuffers ∧ some a ≠ some b ∧
      ((c.removeFromHash b).buf a).bDev ≠ 0 ∧
      hashfn ((c.removeFromHash b).buf a).bDev ((c.removeFromHash b).buf a).bBlocknr = h := by
    intro h a
    rw [(hi.nodup h).mem_erase_iff, hi.mem h a, hf.1, hdev, hblk]
    simp only [ne_eq, Option.some.injEq, reduceCtorEq, not_false_eq_true, true_and]
    tauto
  by_cases hd : (c.buf b).bDev = 0
  · rw [hi.remove_unhashed hb hd]
    have hnot : ∀ h, b ∉ chain h := fun h hh => ((hi.mem h b).mp hh).2.2.1 hd
    refine ⟨fun h => ?_, fun h => (hi.nodup h).erase b, ?_,
      fun a ha _ => hi.unhashed a ha (by simp)⟩
    · simpa only [List.erase_of_not_mem (hnot h)] using hi.ring h
    · simpa only [hi.remove_unhashed hb hd] using hmem
  · have hin : b ∈ chain (hashfn (c.buf b).bDev (c.buf b).bBlocknr) :=
      (hi.mem _ b).mpr ⟨hb, by simp, hd, rfl⟩
    refine ⟨fun h => ?_, fun h => (hi.nodup h).erase b, hmem, fun a ha _ hda => ?_⟩
    · by_cases hh : h = hashfn (c.buf b).bDev (c.buf b).bBlocknr
      · subst hh
        exact hi.removed_ring hin
      · obtain ⟨last, hr⟩ := hi.ring h
        rw [List.erase_of_not_mem (hi.not_mem_of_ne hin hh)]
        refine ⟨last, hr.congr fun x hx => ?_⟩
        cases x with
        | none =>
          refine ⟨?_, rfl⟩
          change (c.removeFromHash b).hashTable h = _
          rw [removeFromHash_table, if_neg (fun e => hh e.1)]
          rfl
        | some i => exact hi.removed_buf hin (hi.not_mem_of_ne (by simpa using hx) (Ne.symm hh))
    · rw [hdev] at hda
      obtain ⟨hnext, hprev⟩ := hi.removed_buf hin fun e => ((hi.mem _ a).mp e).2.2.1 hda
      rw [hnext, hprev]
      exact hi.unhashed a (hf.1 ▸ ha) (by simp) hda

theorem insertIntoHash_buf (c : Cache) {b : Nat} (hd : (c.buf b).bDev ≠ 0) (i : Nat) :
    (c.insertIntoHash b).buf i = { c.buf i with
      bNext :=
        if b = i then c.hashTable (hashfn (c.buf b).bDev (c.buf b).bBlocknr) else (c.buf i).bNext
      bPrev := if c.hashTable (hashfn (c.buf b).bDev (c.buf b).bBlocknr) = some i then some b
        else if b = i then none else (c.buf i).bPrev } := by
  cases hh : c.hashTable (hashfn (c.buf b).bDev (c.buf b).bBlocknr) <;>
    simp only [insertIntoHash, setPrev, setNext, setHash, modify_buf, modify_hashTable, if_true,
      hd, if_false, hh, Option.some.injEq, reduceCtorEq]
  · split_ifs <;> rfl
  · split_ifs <;> rfl

theorem insertIntoHash_rest (c : Cache) {b : Nat} (hd : (c.buf b).bDev ≠ 0) :
    (c.insertIntoHash b).hashTable =
      Function.update c.hashTable (hashfn (c.buf b).bDev (c.buf b).bBlocknr) (some b) ∧
    (c.insertIntoHash b).nrBuffers = c.nrBuffers ∧ (c.insertIntoHash b).freeList = c.freeList := by
  cases hh : c.hashTable (hashfn (c.buf b).bDev (c.buf b).bBlocknr) <;>
    simp only [insertIntoHash, setPrev, setNext, setHash, modify_buf, modify_hashTable, if_true,
      hd, if_false, hh, modify_nrBuffers, modify_freeList, and_self]

theorem insertIntoHash_frame (c : Cache) {b : Nat} (hd : (c.buf b).bDev ≠ 0) :
    EqButHash c (c.insertIntoHash b) :=
  ⟨(insertIntoHash_rest c hd).2.1, (insertIntoHash_rest c hd).2.2,
    fun i => by rw [insertIntoHash_buf c hd]⟩

theorem HashInv.inserted_buf {c : Cache} {out : Option Nat} {chain : Nat → List Nat} {b i : Nat}
    (hi : HashInv c out chain) (hd : (c.buf b).bDev ≠ 0) (hbi : b ≠ i)
    (hfar : i ∉ chain (hashfn (c.buf b).bDev (c.buf b).bBlocknr)) :
    ((c.insertIntoHash b).buf i).bNext = (c.buf i).bNext ∧
      ((c.insertIntoHash b).buf i).bPrev = (c.buf i).bPrev := by
  obtain ⟨last, hr⟩ := hi.ring (hashfn (c.buf b).bDev (c.buf b).bBlocknr)
  have hne : c.hashTable (hashfn (c.buf b).bDev (c.buf b).bBlocknr) ≠ some i := fun e => hfar (by
    have hm := (hr.links (show none ∈ none :: (chain _).map some by simp)).1
    rw [show c.nxHash _ none = some i from e] at hm
    simpa using hm)
  rw [insertIntoHash_buf c hd]
  exact ⟨if_neg hbi, by simp only [if_neg hbi, if_neg hne]⟩

theorem HashInv.inserted_ring {c : Cache} {out : Option Nat} {chain : Nat → List Nat} {b : Nat}
    (hi : HashInv c out chain) (hd : (c.buf b).bDev ≠ 0)
    (hnot : b ∉ chain (hashfn (c.buf b).bDev (c.buf b).bBlocknr)) :
    ∃ last, Ring ((c.insertIntoHash b).nxHash (hashfn (c.buf b).bDev (c.buf b).bBlocknr))
      ((c.insertIntoHash b).pvHash last)
        (none :: (b :: chain (hashfn (c.buf b).bDev (c.buf b).bBlocknr)).map some) := by
  have hrest := insertIntoHash_rest c hd
  obtain ⟨last, hr⟩ := hi.ring (hashfn (c.buf b).bDev (c.buf b).bBlocknr)
  have hnd : (none :: (chain (hashfn (c.buf b).bDev (c.buf b).bBlocknr)).map some).Nodup := by
    simpa using (hi.nodup _).map (Option.some_injective Nat)
  have hy : some b ∉ none :: (chain (hashfn (c.buf b).bDev (c.buf b).bBlocknr)).map some := by
    simpa using hnot
  refine ⟨if c.hashTable (hashfn (c.buf b).bDev (c.buf b).bBlocknr) = none then some b else last,
    (hr.insert_after hnd hy).congr fun x _ => ?_⟩
  cases x with
  | none =>
    constructor
    · change (c.insertIntoHash b).hashTable _ = _
      rw [hrest.1, Function.update_self, Function.update_self]
    · simp [pvHash, nxHash, Function.update_apply, eq_comm]
  | some i =>
    constructor
    · change ((c.insertIntoHash b).buf i).bNext = _
      rw [insertIntoHash_buf c hd]
      simp [nxHash, Function.update_apply, eq_comm]
    · change ((c.insertIntoHash b).buf i).bPrev = _
      rw [insertIntoHash_buf c hd]
      simp [pvHash, nxHash, Function.update_apply, eq_comm]

theorem HashInv.insert {c : Cache} {chain : Nat → List Nat} {b : Nat}
    (hi : HashInv c (some b) chain) (hb : b < c.nrBuffers) (hd : (c.buf b).bDev ≠ 0) :
    HashInv (c.insertIntoHash b) none (Function.update chain
      (hashfn (c.buf b).bDev (c.buf b).bBlocknr)
        (b :: chain (hashfn (c.buf b).bDev (c.buf b).bBlocknr))) := by
  have hf := insertIntoHash_frame c hd
  have hdev : ∀ i, ((c.insertIntoHash b).buf i).bDev = (c.buf i).bDev := fun i => by rw [hf.2.2 i]
  have hblk : ∀ i, ((c.insertIntoHash b).buf i).bBlocknr = (c.buf i).bBlocknr :=
    fun i => by rw [hf.2.2 i]
  have hnot : ∀ h, b ∉ chain h := fun h hh => ((hi.mem h b).mp hh).2.1 rfl
  refine ⟨fun h => ?_, fun h => ?_, fun h a => ?_, fun a ha _ hda => ?_⟩
  · by_cases hh : h = hashfn (c.buf b).bDev (c.buf b).bBlocknr
    · subst hh
      rw [Function.update_self]
      exact hi.inserted_ring hd (hnot _)
    · rw [Function.update_of_ne hh]
      obtain ⟨last, hr⟩ := hi.ring h
      refine ⟨last, hr.congr fun x hx => ?_⟩
      cases x with
      | none =>
        refine ⟨?_, rfl⟩
        change (c.insertIntoHash b).hashTable h = _
        rw [(insertIntoHash_rest c hd).1, Function.update_of_ne hh]
        rfl
      | some i =>
        have hi' : i ∈ chain h := by simpa using hx
        exact hi.inserted_buf hd (fun e => hnot h (e ▸ hi')) (hi.not_mem_of_ne hi' (Ne.symm hh))
  · by_cases hh : h = hashfn (c.buf b).bDev (c.buf b).bBlocknr
    · rw [hh, Function.update_self]
      exact List.nodup_cons.mpr ⟨hnot _, hi.nodup _⟩
    · rw [Function.update_of_ne hh]
      exact hi.nodup h
  · rw [hdev, hblk, hf.1]
    by_cases hh : h = hashfn (c.buf b).bDev (c.buf b).bBlocknr
    · rw [hh, Function.update_self, List.mem_cons, hi.mem]
      by_cases ha : a = b
      · simp [ha, hb, hd]
      · simp [ha]
    · rw [Function.update_of_ne hh, hi.mem]
      by_cases ha : a = b
      · simp [ha, Ne.symm hh]
      · simp [ha]
  · rw [hdev] at hda
    have hab : b ≠ a := fun e => hd (e ▸ hda)
    obtain ⟨hnext, hprev⟩ := hi.inserted_buf hd hab fun e => ((hi.mem _ a).mp e).2.2.1 hda
    rw [hnext, hprev]
    exact hi.unhashed a (hf.1 ▸ ha) (by simpa using hab.symm) hda

theorem removeFromFree_eq {c : Cache} {b p n : Nat} (hp : (c.buf b).bPrevFree = some p)
    (hn : (c.buf b).bNextFree = some n) : ∃ c', c.removeFromFree b = some c' ∧ EqButFree c c' ∧
      c'.freeList = (if c.freeList = b then n else c.freeList) ∧
      ∀ i, (c'.buf i).bNextFree = (if p = i then some n else (c.buf i).bNextFree) ∧
        (c'.buf i).bPrevFree = if n = i then some p else (c.buf i).bPrevFree := by
  have he : c.removeFromFree b = some { (c.setNextFree p (some n)).setPrevFree n (some p) with
      freeList := if c.freeList = b then n else c.freeList } := by
    simp only [removeFromFree, hp, hn, Option.some.injEq]
    rw [show ((c.setNextFree p (some n)).setPrevFree n (some p)).freeList = c.freeList from rfl]
    split <;> rfl
  refine ⟨_, he, ⟨rfl, rfl, fun i => ?_⟩, rfl, fun i => ?_⟩
  · simp only [setNextFree, setPrevFree, modify_buf]
    split_ifs <;> rfl
  · simp only [setNextFree, setPrevFree, modify_buf]
    split_ifs <;> exact ⟨rfl, rfl⟩

theorem insertIntoFree_eq {c : Cache} {b z : Nat} (hz : (c.buf c.freeList).bPrevFree = some z) :
    ∃ c', c.insertIntoFree b = some c' ∧ EqButFree c c' ∧ c'.freeList = c.freeList ∧
      ∀ i, (c'.buf i).bNextFree =
          (if z = i then some b else if b = i then some c.freeList else (c.buf i).bNextFree) ∧
        (c'.buf i).bPrevFree =
          if c.freeList = i then some b else if b = i then some z else (c.buf i).bPrevFree := by
  have hz' :
    (((c.setNextFree b (some c.freeList)).setPrevFree b (some z)).buf c.freeList).bPrevFree =
      some z := by
    simp only [setNextFree, setPrevFree, modify_buf]
    split_ifs <;> simp [hz]
  have hz₁ : ((c.setNextFree b (some c.freeList)).buf c.freeList).bPrevFree = some z := by
    simp only [setNextFree, modify_buf]
    split_ifs <;> exact hz
  have he : c.insertIntoFree b =
    some ((((c.setNextFree b (some c.freeList)).setPrevFree b (some z)).setNextFree z
      (some b)).setPrevFree c.freeList (some b)) := by
    simp only [insertIntoFree]
    rw [show (c.setNextFree b (some c.freeList)).freeList = c.freeList from rfl, hz₁,
      show ((c.setNextFree b (some c.freeList)).setPrevFree b (some z)).freeList =
        c.freeList from rfl, hz']
  refine ⟨_, he, ⟨rfl, rfl, fun i => ?_⟩, rfl, fun i => ?_⟩
  · simp only [setNextFree, setPrevFree, modify_buf]
    split_ifs <;> rfl
  · simp only [setNextFree, setPrevFree, modify_buf]
    split_ifs <;> exact ⟨rfl, rfl⟩

theorem FreeInv.neighbours {c : Cache} {l : List Nat} (hi : FreeInv c l) {b : Nat}
    (hb : b < c.nrBuffers) :
    ∃ n p, (c.buf b).bNextFree = some n ∧ (c.buf b).bPrevFree = some p := by
  have hlinks := hi.ring.links (List.mem_map_of_mem ((hi.mem b).mpr hb))
  obtain ⟨n, -, hn⟩ := List.mem_map.mp hlinks.1
  obtain ⟨p, -, hp⟩ := List.mem_map.mp hlinks.2.1
  exact ⟨n, p, hn.symm, hp.symm⟩

theorem FreeInv.remove {c : Cache} {l : List Nat} (hi : FreeInv c l) {b : Nat}
    (hb : b < c.nrBuffers) :
    ∃ c', c.removeFromFree b = some c' ∧ EqButFree c c' ∧ FreeOut c' b (l.erase b) := by
  obtain ⟨q, s, hs⟩ := List.append_of_mem ((hi.mem b).mpr hb)
  have hnd := hi.nodup
  rw [hs] at hnd
  have hq : b ∉ q := fun hm => (List.nodup_append.mp hnd).2.2 b hm b (by simp) rfl
  have hr : Ring c.nxFree c.pvFree (q.map some ++ some b :: s.map some) := by
    simpa [hs] using hi.ring
  obtain ⟨n, p, hn, hp⟩ := hi.neighbours hb
  obtain ⟨c', he, hf, hfl, hbuf⟩ := removeFromFree_eq hp hn
  have herase : l.erase b = q ++ s := by
    rw [hs, List.erase_append_right _ hq, List.erase_cons_head]
  refine ⟨c', he, hf, ?_⟩
  rw [herase]
  refine ⟨?_, hnd.sublist ((List.Sublist.refl q).append (List.sublist_cons_self b s)), fun a => ?_,
    ?_⟩
  · rw [List.map_append]
    have hnd' : (q.map some ++ some b :: s.map some).Nodup := by
      simpa using hnd.map (Option.some_injective Nat)
    refine (hr.erase hnd').congr fun x hx => ?_
    cases x with
    | none => simp at hx
    | some i =>
      simp only [nxFree, pvFree, Function.update_apply, hp, hn, (hbuf i).1, (hbuf i).2,
        Option.some.injEq, eq_comm (a := i), and_self]
  · rw [← herase, hi.nodup.mem_erase_iff, hi.mem, hf.1]
    exact and_comm
  · have hhead := hi.head
    rw [hs] at hhead
    by_cases hfb : c.freeList = b
    · -- `b` is the head, so the list starts after it
      have hq' : q = [] := by
        cases q with
        | nil => rfl
        | cons a q =>
          have ha : a = b := by simpa [hfb] using hhead
          exact absurd (by simp [ha]) hq
      subst hq'
      cases s with
      | nil =>
        have hself := Links.linked_pair.mp hr
        have hpb : p = b := by simpa [pvFree, hp] using hself.2
        have hnb : n = b := by simpa [nxFree, hn] using hself.1
        refine .inr ⟨rfl, by rw [hfl, if_pos hfb, hnb], ?_⟩
        rw [(hbuf b).2, if_pos hnb, hpb]
      | cons x s =>
        have hx := (List.isChain_cons_cons.mp hr).1
        have hnx : n = x := by simpa [nxFree, hn] using hx.1
        exact .inl (by simp [hfl, hfb, hnx])
    · cases q with
      | nil => simp [Ne.symm hfb] at hhead
      | cons a q => exact .inl (by simpa [hfl, hfb] using hhead)

theorem FreeOut.insert {c : Cache} {b : Nat} {l : List Nat} (ho : FreeOut c b l)
    (hb : b < c.nrBuffers) :
    ∃ c', c.insertIntoFree b = some c' ∧ EqButFree c c' ∧ FreeInv c' (l ++ [b]) := by
  have hbl : b ∉ l := fun hm => ((ho.mem b).mp hm).2 rfl
  have hmem : ∀ c', EqButFree c c' → ∀ a, a ∈ l ++ [b] ↔ a < c'.nrBuffers := by
    intro c' hf a
    rw [List.mem_append, ho.mem, List.mem_singleton, hf.1]
    by_cases ha : a = b
    · simp [ha, hb]
    · simp [ha]
  have hnd : (l ++ [b]).Nodup :=
    List.nodup_append.mpr ⟨ho.nodup, by simp, by simpa using fun a ha (e : a = b) => hbl (e ▸ ha)⟩
  rcases ho.head with hhead | ⟨rfl, hfl, hpf⟩
  · obtain ⟨m, rfl⟩ : ∃ m, l = c.freeList :: m := by
      cases l with
      | nil => simp at hhead
      | cons a m => exact ⟨m, by rw [← Option.some.inj hhead]⟩
    have hr : Ring c.nxFree c.pvFree (some c.freeList :: m.map some) := ho.ring
    obtain ⟨z, hz⟩ : ∃ z, (c.buf c.freeList).bPrevFree = some z := by
      have hm : c.pvFree (some c.freeList) ∈ (c.freeList :: m).map some := hr.head_links.2.1
      obtain ⟨z, _, hz⟩ := List.mem_map.mp hm
      exact ⟨z, hz.symm⟩
    obtain ⟨c', he, hf, hfl', hbuf⟩ := insertIntoFree_eq (b := b) hz
    have hfirst : some c.freeList ∉ m.map some := by
      simpa using (List.nodup_cons.mp ho.nodup).1
    refine ⟨c', he, hf, ?_, hnd, hmem c' hf, by simp [hfl']⟩
    rw [List.map_append]
    refine (hr.insert hfirst (by simpa using hbl)).congr fun x hx => ?_
    cases x with
    | none => simp at hx
    | some i =>
      simp only [nxFree, pvFree, Function.update_apply, hz, (hbuf i).1, (hbuf i).2,
        Option.some.injEq, eq_comm (a := i), and_self]
  · obtain ⟨c', he, hf, hfl', hbuf⟩ := insertIntoFree_eq (b := b) (hfl.symm ▸ hpf)
    refine ⟨c', he, hf, ?_, hnd, hmem c' hf, by simp [hfl', hfl]⟩
    refine Links.linked_pair.mpr ⟨?_, ?_⟩
    · change (c'.buf b).bNextFree = some b
      rw [(hbuf b).1, hfl, if_pos rfl]
    · change (c'.buf b).bPrevFree = some b
      rw [(hbuf b).2, if_pos hfl]

end Gpos.Cache
