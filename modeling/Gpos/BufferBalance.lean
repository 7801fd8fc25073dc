import Gpos.Directory
import Mathlib.Algebra.Group.Pi.Basic
import Mathlib.Data.BitVec

/-! What the functions of the buffer cache do to the counts of the buffers. The
counts have eight bits, and so they are added up. -/

namespace Gpos.Fs

open Cache BlockMap Zones Program

def counts (c : Cache) : Nat → BitVec 8 := fun b => BitVec.ofNat 8 (c.buf b).bCount

def one (bh : Nat) : Nat → BitVec 8 := Pi.single bh 1

section

variable {c c' : Cache} {dev block bh : Nat}

theorem counts_congr (h : ∀ b, (c'.buf b).bCount = (c.buf b).bCount) : counts c' = counts c :=
  funext fun b => congrArg (BitVec.ofNat 8) (h b)

theorem counts_modify (bh : Nat) {f : BufferHead → BufferHead} (hf : ∀ b, (f b).bCount = b.bCount) :
    counts (c.modify bh f) = counts c := counts_congr (BufferTasks.count_modify c bh hf)

theorem counts_incCount (c : Cache) (bh : Nat) :
    counts (c.modify bh incCount) = counts c + one bh := by
  funext b
  rw [counts, modify_buf, Pi.add_apply, one]
  by_cases h : bh = b
  · subst h
    rw [if_pos rfl, Pi.single_eq_same, counts]
    apply BitVec.eq_of_toNat_eq
    simp [incCount]
  · rw [if_neg h, Pi.single_eq_of_ne (Ne.symm h), add_zero]
    rfl

theorem counts_decCount (c : Cache) (bh : Nat) :
    counts (c.modify bh decCount) = counts c - one bh := by
  funext b
  rw [counts, modify_buf, Pi.sub_apply, one]
  by_cases h : bh = b
  · subst h
    rw [if_pos rfl, Pi.single_eq_same, counts]
    apply BitVec.eq_of_toNat_eq
    simp [decCount]
    omega
  · rw [if_neg h, Pi.single_eq_of_ne (Ne.symm h), sub_zero]
    rfl

@[simp] theorem counts_setNext (i : Nat) (v : Option Nat) : counts (c.setNext i v) = counts c :=
  counts_modify i fun _ => rfl

@[simp] theorem counts_setPrev (i : Nat) (v : Option Nat) : counts (c.setPrev i v) = counts c :=
  counts_modify i fun _ => rfl

@[simp] theorem counts_setNextFree (i : Nat) (v : Option Nat) :
    counts (c.setNextFree i v) = counts c :=
  counts_modify i fun _ => rfl

@[simp] theorem counts_setPrevFree (i : Nat) (v : Option Nat) :
    counts (c.setPrevFree i v) = counts c :=
  counts_modify i fun _ => rfl

@[simp] theorem counts_setHash (h : Nat) (v : Option Nat) : counts (c.setHash h v) = counts c := rfl

theorem counts_removeFromQueues (h : c.removeFromQueues bh = some c') : counts c' = counts c := by
  have hhash : counts (c.removeFromHash bh) = counts c := counts_congr fun b =>
    (congrArg BufferHead.bCount ((removeFromHash_frame c bh).2.2 b)).trans rfl
  rw [removeFromQueues] at h
  generalize c.removeFromHash bh = d at h hhash
  rw [← hhash]
  unfold removeFromFree at h
  split at h
  next p n _ _ =>
    obtain rfl := Option.some.inj h
    split
    · exact (counts_setPrevFree n (some p)).trans (counts_setNextFree p (some n))
    · exact (counts_setPrevFree n (some p)).trans (counts_setNextFree p (some n))
  next => cases h

theorem counts_insertIntoHash (c : Cache) (bh : Nat) : counts (c.insertIntoHash bh) = counts c := by
  unfold insertIntoHash
  simp only
  split
  · simp only [counts_setNext, counts_setPrev]
  · split <;> simp only [counts_setNext, counts_setPrev, counts_setHash]

theorem counts_insertIntoQueues (h : c.insertIntoQueues bh = some c') : counts c' = counts c := by
  obtain ⟨d, hd, rfl⟩ := Option.map_eq_some_iff.mp h
  rw [counts_insertIntoHash]
  unfold insertIntoFree at hd
  simp only at hd
  split at hd
  next => cases hd
  next p _ =>
    obtain rfl := Option.some.inj hd
    simp only [counts_setNextFree, counts_setPrevFree]

theorem counts_retarget (h0 : (c.buf bh).bCount = 0) (h : c.retarget bh dev block = some c') :
    counts c' = counts c + one bh := by
  unfold retarget at h
  obtain ⟨d, hd, hi⟩ := Option.bind_eq_some_iff.mp h
  have hm : counts (d.modify bh fun b => { b with bDev := dev, bBlocknr := block }) = counts d :=
    counts_modify bh fun _ => rfl
  rw [counts_insertIntoQueues hi, hm, counts_removeFromQueues hd]
  funext b
  rw [counts, modify_buf, Pi.add_apply, one]
  by_cases hb : bh = b
  · subst hb
    rw [if_pos rfl, Pi.single_eq_same, counts, h0]
    rfl
  · rw [if_neg hb, Pi.single_eq_of_ne (Ne.symm hb), add_zero]
    rfl

theorem scanFree_unused {fuel tmp v : Nat} {best : Option Nat}
    (hb : ∀ b ∈ best, (c.buf b).bCount = 0) (h : c.scanFree fuel tmp best = some (some v)) :
    (c.buf v).bCount = 0 := by
  induction fuel generalizing tmp best with
  | zero => cases h
  | succ fuel ih =>
    rw [Cache.scanFree] at h
    by_cases hz : ((c.buf tmp).bCount = 0 ∧ ∀ b ∈ best, badness (c.buf tmp) < badness (c.buf b)) ∧
      badness (c.buf tmp) = 0
    · simp only [if_pos hz] at h
      obtain rfl := Option.some.inj (Option.some.inj h)
      exact hz.1.1
    · simp only [if_neg hz] at h
      have hbest :
        ∀ b ∈ (if (c.buf tmp).bCount = 0 ∧ ∀ b ∈ best, badness (c.buf tmp) < badness (c.buf b)
          then some tmp else best), (c.buf b).bCount = 0 := by
        intro b hmem
        split at hmem
        next hz =>
          obtain rfl := Option.some.inj hmem
          exact hz.1
        next => exact hb b hmem
      generalize (if (c.buf tmp).bCount = 0 ∧ ∀ b ∈ best, badness (c.buf tmp) < badness (c.buf b)
        then some tmp else best) = best' at h hbest
      cases hn : (c.buf tmp).bNextFree with
      | none =>
        rw [hn] at h
        cases h
      | some next =>
        rw [hn] at h
        simp only at h
        split at h
        · exact hbest v (Option.some.inj h)
        · exact ih hbest h

theorem counts_getHashTable {x : Option Nat} (h : c.getHashTable dev block = some (x, c')) :
    counts c' = counts c + x.elim 0 one := by
  unfold getHashTable at h
  split at h
  next => cases h
  next =>
    cases h
    exact (add_zero _).symm
  next =>
    split at h
    next => cases h
    next =>
      cases h
      exact counts_incCount c _

theorem counts_getblk (h : c.getblk dev block = some (bh, c')) : counts c' = counts c + one bh := by
  unfold getblk at h
  split at h
  next => cases h
  next b d hd =>
    cases h
    exact counts_getHashTable hd
  next d hd =>
    have hc := counts_getHashTable hd
    rw [Option.elim_none, add_zero] at hc
    split at h
    next => cases h
    next => cases h
    next v hv =>
      split at h
      next => cases h
      next =>
        obtain ⟨c₂, hr, he⟩ := Option.map_eq_some_iff.mp h
        cases he
        rw [counts_retarget (scanFree_unused (by simp) hv) hr, hc]

theorem counts_brelse (h : c.brelse bh = some c') : counts c' = counts c - one bh := by
  unfold Cache.brelse at h
  split at h
  · cases h
  · split at h
    · cases h
    · obtain rfl := Option.some.inj h
      exact counts_decCount c bh

theorem counts_llRwRead {disk : Cache.Disk} (h : c.llRwRead disk bh = some c') :
    counts c' = counts c := by
  unfold llRwRead at h
  split at h
  · cases h
    rfl
  · split at h
    · cases h
    · split at h
      · cases h
        rfl
      · cases h
        exact counts_modify bh fun _ => rfl

theorem counts_bread {disk : Cache.Disk} {x : Option Nat}
    (h : Cache.bread disk dev block c = some (x, c')) : counts c' = counts c + x.elim 0 one := by
  unfold Cache.bread at h
  split at h
  next => cases h
  next b d hd =>
    have hg := counts_getblk hd
    split at h
    next =>
      cases h
      exact hg
    next =>
      split at h
      next => cases h
      next d₂ hd₂ =>
        have hl := counts_llRwRead hd₂
        split at h
        next =>
          cases h
          rw [hl]
          exact hg
        next =>
          obtain ⟨d₃, hr, he⟩ := Option.map_eq_some_iff.mp h
          cases he
          rw [counts_brelse hr, hl, hg, Option.elim_none, add_zero, add_sub_cancel_right]

theorem counts_newBlock {sbs : Nat → SuperBlock} {z : Nat}
    (h : Zones.newBlock sbs dev c = some (z, c')) : counts c' = counts c := by
  unfold Zones.newBlock at h
  split at h
  next => cases h
  next =>
    split at h
    next =>
      cases h
      rfl
    next =>
      split at h
      next => cases h
      next =>
        split at h
        next =>
          cases h
          exact counts_modify _ fun _ => rfl
        next =>
          unfold takeZone at h
          split at h
          next => cases h
          next b d hd =>
            split at h
            next => cases h
            next =>
              obtain ⟨d₂, hr, he⟩ := Option.map_eq_some_iff.mp h
              cases he
              have hz : counts (d.modify b zeroHead) = counts d := counts_modify b fun _ => rfl
              rw [counts_brelse hr, hz, counts_getblk hd, add_sub_cancel_right]
              exact counts_modify _ fun _ => rfl

theorem counts_clearZone {sb : SuperBlock} {nr : Nat} (h : clearZone sb nr c = some c') :
    counts c' = counts c := by
  unfold clearZone at h
  split at h
  · cases h
  · split at h
    · cases h
      exact counts_modify _ fun _ => rfl
    · cases h

/-- `free_block` leaves a reference on a buffer that is in use. -/
theorem counts_freeBlock {sbs : Nat → SuperBlock} (h : Zones.freeBlock sbs dev block c = some c') :
    counts c' = counts c + (inUse dev block c).elim 0 one := by
  unfold Zones.freeBlock at h
  split at h
  next => cases h
  next =>
    split at h
    next => cases h
    next =>
      split at h
      next => cases h
      next d hd =>
        have hc := counts_getHashTable hd
        rw [counts_clearZone h, hc]
        simp only [inUse, hd, Option.bind_some, Option.filter_none, Option.elim_none]
      next b d hd =>
        have hc := counts_getHashTable hd
        simp only [inUse, hd, Option.bind_some]
        split at h
        next h1 =>
          cases h
          rw [Option.filter_some_pos (by simpa using h1)]
          exact hc
        next h1 =>
          obtain ⟨d₂, hr, hz⟩ := Option.bind_eq_some_iff.mp h
          have hf : counts (d.modify b forgetHead) = counts d := counts_modify b fun _ => rfl
          rw [Option.filter_some_neg (by simpa using h1), counts_clearZone hz, counts_brelse hr, hf,
            hc, Option.elim_some, Option.elim_none, add_zero, add_sub_cancel_right]

end

end Gpos.Fs
