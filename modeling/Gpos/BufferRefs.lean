import Gpos.BufferTasks

/-! What the steps of the buffer cache do to its buffers and to the references
that the tasks hold on them, and the invariant that follows. -/

namespace Gpos.BufferTasks

open Cache Holdings

/-- The reference that a task holds through a call it has not returned from. -/
def Loc.pending : Loc → List Ref
  | .hashWait _ r | .lockWait r | .slotWait r | .ioWait r | .releaseWait r => [r]
  | .idle | .lookup .. | .poolWait .. | .victimWait .. => []

def Loc.Ok (n : Nat) : Loc → Prop
  | .lookup _ dev _ | .poolWait _ dev _ => dev ≠ 0
  | .victimWait _ r => r.dev ≠ 0 ∧ r.bh < n
  | .idle | .hashWait .. | .lockWait _ | .slotWait _ | .ioWait _ | .releaseWait _ => True

def countRefs (b : Nat) (R : Multiset Ref) : Nat := R.countP fun r => r.bh = b

/-- The counts are right and every reference still names its block. -/
structure Sound (c : Cache) (R : Multiset Ref) : Prop where
  inv : CacheInv c
  count : ∀ b, b < c.nrBuffers → (c.buf b).bCount = countRefs b R % 256
  ident : ∀ r ∈ R, r.dev ≠ 0 ∧ c.Caches r.bh r.dev r.block

/-- What one step can do to the cache and to the references on it. -/
inductive Effect (c : Cache) (R : Multiset Ref) : Cache → Multiset Ref → Prop
  | keep {c' : Cache} (hs : SameShape c c') (hc : ∀ i, (c'.buf i).bCount =
    (c.buf i).bCount) : Effect c R c' R
  | take (r : Ref) (hd : r.dev ≠ 0) (h : c.Caches r.bh r.dev r.block) :
      Effect c R (c.modify r.bh incCount) (r ::ₘ R)
  | drop (r : Ref) {R' : Multiset Ref} (h : R = r ::ₘ R') : Effect c R (c.modify r.bh decCount) R'
  | reuse (r : Ref) {c' : Cache} (hd : r.dev ≠ 0) (hb : r.bh < c.nrBuffers)
      (h0 : (c.buf r.bh).bCount = 0) (h : Retargeted c r.bh r.dev r.block c') :
        Effect c R c' (r ::ₘ R)

theorem countRefs_cons (b : Nat) (r : Ref) (R : Multiset Ref) :
    countRefs b (r ::ₘ R) = countRefs b R + if r.bh = b then 1 else 0 :=
  Multiset.countP_cons _ r R

theorem countRefs_pos {r : Ref} {R : Multiset Ref} (h : r ∈ R) : 0 < countRefs r.bh R :=
  Multiset.countP_pos.mpr ⟨r, h, rfl⟩

theorem keepsShape_incCount : KeepsShape incCount := fun _ => ⟨rfl, rfl, rfl, rfl, rfl, rfl⟩

theorem keepsShape_decCount : KeepsShape decCount := fun _ => ⟨rfl, rfl, rfl, rfl, rfl, rfl⟩

section

variable {c c' : Cache} {R R' : Multiset Ref}

theorem count_modify (c : Cache) (bh : Nat) {f : BufferHead → BufferHead}
    (hf : ∀ b, (f b).bCount = b.bCount) (i : Nat) :
    ((c.modify bh f).buf i).bCount = (c.buf i).bCount := by
  rw [modify_buf]
  split
  · exact hf _
  · rfl

theorem Effect.flags (bh : Nat) {f : BufferHead → BufferHead} (hf : KeepsShape f)
    (hc : ∀ b, (f b).bCount = b.bCount) : Effect c R (c.modify bh f) R :=
  .keep (sameShape_modify c bh hf) (count_modify c bh hc)

theorem Sound.count_pos (h : Sound c R) (hfit : ∀ b, countRefs b R < 256) {r : Ref} (hr : r ∈ R) :
    0 < (c.buf r.bh).bCount := by
  have hc := h.count r.bh (h.ident r hr).2.1
  have hp := countRefs_pos hr
  rw [Nat.mod_eq_of_lt (hfit _)] at hc
  omega

theorem Effect.nrBuffers (he : Effect c R c' R') : c'.nrBuffers = c.nrBuffers := by
  cases he with
  | keep hs _ => exact hs.nrBuffers
  | take _ _ _ => rfl
  | drop _ _ => rfl
  | reuse _ _ _ _ h => exact h.nrBuffers

theorem Effect.card_le (he : Effect c R c' R') : R'.card ≤ R.card + 1 := by
  cases he with
  | keep _ _ => exact Nat.le_succ _
  | take r _ _ => exact (Multiset.card_cons r R).le
  | drop r h => rw [h, Multiset.card_cons]; omega
  | reuse r _ _ _ _ => exact (Multiset.card_cons r R).le

theorem Effect.sound (he : Effect c R c' R') (h : Sound c R) (hfit : ∀ b, countRefs b R < 256) :
    Sound c' R' := by
  cases he with
  | keep hs hc =>
    refine ⟨h.inv.congr hs, fun b hb => ?_, fun r hr => ⟨(h.ident r hr).1, ?_⟩⟩
    · rw [hc b]
      exact h.count b (hs.nrBuffers ▸ hb)
    · exact (hs.caches _ _ _).mpr (h.ident r hr).2
  | take r hd hc =>
    have hs := sameShape_modify c r.bh keepsShape_incCount
    refine ⟨h.inv.congr hs, fun b hb => ?_, fun q hq => ?_⟩
    · rw [modify_buf, countRefs_cons]
      split
      next => simp only [incCount, h.count b hb, Nat.mod_add_mod]
      next => exact h.count b hb
    · rw [hs.caches]
      rcases Multiset.mem_cons.mp hq with rfl | hq
      · exact ⟨hd, hc⟩
      · exact h.ident q hq
  | drop r hR =>
    have hs := sameShape_modify c r.bh keepsShape_decCount
    refine ⟨h.inv.congr hs, fun b hb => ?_, fun q hq => ?_⟩
    · have hcount := h.count b hb
      rw [hR, countRefs_cons] at hcount
      rw [modify_buf]
      split
      next e =>
        rw [if_pos e] at hcount
        simp only [decCount, hcount]
        omega
      next e => rwa [if_neg e, Nat.add_zero] at hcount
    · rw [hs.caches]
      exact h.ident q (hR ▸ Multiset.mem_cons_of_mem hq)
  | reuse r hd hb h0 hr =>
    have hzero : countRefs r.bh R = 0 := by
      have hc := h.count r.bh hb
      rw [Nat.mod_eq_of_lt (hfit _)] at hc
      omega
    refine ⟨hr.inv, fun b hb' => ?_, fun q hq => ?_⟩
    · rw [countRefs_cons]
      by_cases e : r.bh = b
      · subst e
        have hone : (c'.buf r.bh).bCount = 1 := by simpa using congrArg BufferHead.bCount hr.new
        rw [hone, hzero, if_pos rfl]
      · have hold : (c'.buf b).bCount = (c.buf b).bCount := by
          simpa using congrArg BufferHead.bCount (hr.old b (Ne.symm e))
        rw [hold, if_neg e]
        exact h.count b (hr.nrBuffers ▸ hb')
    · rcases Multiset.mem_cons.mp hq with rfl | hq
      · exact ⟨hd, hr.caches_self hb⟩
      · have hne : q.bh ≠ r.bh := fun e => by
          have := countRefs_pos hq
          rw [e] at this
          omega
        exact ⟨(h.ident q hq).1, (hr.caches hne _ _).mpr (h.ident q hq).2⟩

theorem Effect.identity (he : Effect c R c' R') {b : Nat} (hb : 0 < (c.buf b).bCount) :
    (c'.buf b).bDev = (c.buf b).bDev ∧ (c'.buf b).bBlocknr = (c.buf b).bBlocknr := by
  cases he with
  | keep hs _ => exact ⟨(hs.buf b).1, (hs.buf b).2.1⟩
  | take r _ _ =>
    have hs := (sameShape_modify c r.bh keepsShape_incCount).buf b
    exact ⟨hs.1, hs.2.1⟩
  | drop r _ =>
    have hs := (sameShape_modify c r.bh keepsShape_decCount).buf b
    exact ⟨hs.1, hs.2.1⟩
  | reuse r _ _ h0 hr =>
    have hne : b ≠ r.bh := fun e => by
      rw [e] at hb
      omega
    exact ⟨by simpa using congrArg BufferHead.bDev (hr.old b hne),
      by simpa using congrArg BufferHead.bBlocknr (hr.old b hne)⟩

end

end Gpos.BufferTasks
