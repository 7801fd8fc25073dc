import Gpos.References
import Gpos.ZoneSoundness

/-! The balance of buffer references over a whole call of the file system. -/

namespace Gpos.Fs

open Cache BlockMap Zones Program

/-- The functions that take and drop buffers. -/
inductive Call
  | bmap (i block : Nat)
  | createBlock (i block : Nat)
  | newBlock (dev : Nat)
  | freeBlock (dev block : Nat)
  | newInode (dev : Nat) (creds : Creds)
  | freeInode (i : Nat)
  | iget (dev nr : Nat)
  | iput (i : Nat)
  | truncate (i : Nat)
  | findEntry (root : Option Nat) (dir : Nat) (name : Name)
  | addEntry (dir : Nat) (name : Name)

def runCall (disk : Cache.Disk) : Call → Program Fs (Option Nat)
  | .bmap i block => do
    let _ ← bmap disk i block
    return none
  | .createBlock i block => do
    let _ ← createBlock disk i block
    return none
  | .newBlock dev => do
    let _ ← newBlock dev
    return none
  | .freeBlock dev block => do
    freeBlock dev block
    return none
  | .newInode dev creds => do
    let _ ← newInode disk dev creds
    return none
  | .freeInode i => do
    freeInode i
    return none
  | .iget dev nr => do
    let _ ← iget disk dev nr
    return none
  | .iput i => do
    iput disk i
    return none
  | .truncate i => do
    truncate disk i
    return none
  | .findEntry root dir name => do return (← findEntry disk root dir name).2.map Prod.fst
  | .addEntry dir name => do return (← addEntry disk dir name).map Prod.fst

def Call.frees : Call → Bool
  | .freeBlock .. | .truncate .. => true
  | _ => false

def buffers (s : Fs) : (Nat → BitVec 8) × (Nat → Int) := (ledger s).1

def given (x : Option Nat) : (Nat → BitVec 8) × (Nat → Int) := x.elim 0 fun bh => (one bh, 0)

section

variable {disk : Cache.Disk}

theorem buffers_of_keeps {α : Type} {x : Program Fs α} (h : Keeps ledger x) :
    Adds buffers (x >>= fun _ => pure none) given :=
  Keeps.andThen (h.map Prod.fst) fun _ => .pure rfl

theorem buffers_of_adds {α : Type} {x : Program Fs α} {δ : α → Ledger} (h : Adds ledger x δ)
    (h0 : ∀ a, (δ a).1 = 0) : Adds buffers (x >>= fun _ => pure none) given := by
  have hkeeps : Keeps buffers x := Adds.keeps ((h.map (AddMonoidHom.fst _ _)).congr h0)
  exact hkeeps.andThen fun _ => .pure rfl

theorem keeps_freeInode (i : Nat) : Keeps buffers (freeInode i) := fun s a t h =>
  (congrArg Prod.fst (makes_freeInode i s a t h)).trans (add_zero _)

theorem fst_held (r : Option (Nat × Nat)) : (held r).1 = given (r.map Prod.fst) := by
  cases r <;> rfl

theorem buffers_runCall {c : Call} (hc : c.frees = false) :
    Adds buffers (runCall disk c) given := by
  cases c with
  | bmap i block => exact buffers_of_keeps (keeps_bmapCreate false i block)
  | createBlock i block => exact buffers_of_keeps (keeps_bmapCreate true i block)
  | newBlock dev => exact buffers_of_keeps (keeps_newBlock dev)
  | freeBlock dev block => cases hc
  | newInode dev creds =>
    exact buffers_of_adds (adds_newInode dev creds) fun r => by cases r <;> rfl
  | freeInode i => exact (keeps_freeInode i).andThen fun _ => .pure rfl
  | iget dev nr => exact buffers_of_adds (adds_iget dev nr) fun _ => rfl
  | iput i => exact buffers_of_adds (adds_iput i) fun _ => neg_zero
  | truncate i => cases hc
  | findEntry root dir name =>
    refine ((adds_findEntry root dir name).map (AddMonoidHom.fst _ _)).bind fun r => .pure ?_
    have hr : (iref r.1 - iref dir + held r.2).1 = (held r.2).1 := by simp [iref, irefs]
    exact sub_eq_zero.mpr ((fst_held r.2).symm.trans hr.symm)
  | addEntry dir name =>
    refine ((adds_addEntry dir name).map (AddMonoidHom.fst _ _)).bind fun r => .pure ?_
    exact sub_eq_zero.mpr (fst_held r).symm

theorem balance_runCall (c : Call) : Adds balance (runCall disk c) fun x => x.elim 0 one := by
  cases hc : c.frees with
  | false =>
    intro s x t h
    refine (congrArg Prod.fst (buffers_runCall hc s x t h)).trans ?_
    cases x <;> rfl
  | true =>
    cases c with
    | freeBlock dev block =>
      exact ((keeps_freeBlock dev block).map Prod.fst).andThen fun _ => .pure rfl
    | truncate i => exact ((keeps_truncate i).map Prod.fst).andThen fun _ => .pure rfl
    | _ => cases hc

theorem sum_one (l : List Nat) (b : Nat) : (l.map one).sum b = BitVec.ofNat 8 (l.count b) := by
  induction l with
  | nil => rfl
  | cons a l ih =>
    rw [List.map_cons, List.sum_cons, Pi.add_apply, ih, List.count_cons, one]
    by_cases h : a = b
    · subst h
      rw [Pi.single_eq_same, beq_self_eq_true, if_pos rfl]
      apply BitVec.eq_of_toNat_eq
      simp [Nat.add_comm]
    · rw [Pi.single_eq_of_ne (Ne.symm h), zero_add, if_neg (by simpa using h), Nat.add_zero]

/-- The references that `free_block` leaves on a buffer come round to nothing. -/
def Level (left : List Nat) : Prop := ∀ b, 256 ∣ left.count b

theorem sum_one_eq_zero (l : List Nat) : (l.map one).sum = 0 ↔ Level l := by
  constructor
  · intro h b
    have hb := congrArg BitVec.toNat ((sum_one l b).symm.trans (congrFun h b))
    simpa [Nat.dvd_iff_mod_eq_zero] using hb
  · intro h
    funext b
    rw [sum_one]
    apply BitVec.eq_of_toNat_eq
    simpa [Nat.dvd_iff_mod_eq_zero] using h b

theorem balanced_iff_level (c : Call) {s t : Fs} {x : Option Nat} (hs : s.stuck = [])
    (h : runCall disk c s = some (x, t)) :
    counts t.cache = counts s.cache + x.elim 0 one ↔ Level t.stuck := by
  have hb := balance_runCall c s x t h
  rw [balance, balance, hs, List.map_nil, List.sum_nil, sub_zero, sub_eq_iff_eq_add] at hb
  rw [hb, ← sum_one_eq_zero]
  exact add_eq_left

theorem stuck_freeBlock {dev block : Nat} {s t : Fs} {x : Option Nat} (hs : s.stuck = [])
    (h : runCall disk (.freeBlock dev block) s = some (x, t)) :
    t.stuck = (inUse dev block s.cache).toList := by
  obtain ⟨a, u, hf, he⟩ := bind_some.mp h
  obtain ⟨c, -, hc⟩ := Option.map_eq_some_iff.mp hf
  cases he
  cases hc
  rw [hs, List.append_nil]

/-- A call is balanced unless `free_block` meets a buffer that is in use. Only
`free_block` and `truncate` can meet one. -/
theorem runCall_balanced_iff (c : Call) {s t : Fs} {x : Option Nat} (hs : s.stuck = [])
    (h : runCall disk c s = some (x, t)) :
    (counts t.cache = counts s.cache + x.elim 0 one ↔ Level t.stuck) ∧
      (c.frees = false → t.stuck = []) ∧ ∀ dev block, c = .freeBlock dev block →
        t.stuck = (inUse dev block s.cache).toList := by
  refine ⟨balanced_iff_level c hs h, fun hc => ?_, ?_⟩
  · have hl := congrArg Prod.snd (buffers_runCall hc s x t h)
    refine List.eq_nil_iff_forall_not_mem.mpr fun b hmem => ?_
    have hcount := congrFun hl b
    have hx : (given x).2 = 0 := by cases x <;> rfl
    simp only [buffers, ledger, Prod.snd_add, hx, hs, List.count_nil, Pi.add_apply, Pi.zero_apply,
      Nat.cast_zero, add_zero, Nat.cast_eq_zero, List.count_eq_zero] at hcount
    exact hcount hmem
  · rintro dev block rfl
    exact stuck_freeBlock hs h

end

theorem freeBlock_in_use :
    ∃ s t : Fs, s.stuck = [] ∧ runCall noDisk (.freeBlock 0x301 5) s = some (none, t) ∧
      (inUse 0x301 5 s.cache).isSome := by
  obtain ⟨bh, c, hg, hc⟩ := @getblk_bufferInit 0x110000 (by decide) blank 0x301 (by decide) 5
  rcases @getHashTable_eq _ hc.sound.inv hc.unlocked 0x301 5
    (by decide) with ⟨b, hb, hcache⟩ | ⟨-, hnone⟩
  · obtain rfl := hc.sound.inv.unique _ _ _ _ (by decide) hcache hg.caches
    have hcount : ((c.modify b incCount).buf b).bCount ≠ 1 := by
      have hone : BufferTasks.countRefs b (⟨b, 0x301, 5⟩ ::ₘ 0) = 1 := by
        rw [BufferTasks.countRefs_cons, if_pos rfl]
        rfl
      rw [modify_buf, if_pos rfl, incCount, hc.count hcache.1, hone]
      exact (by decide : (1 + 1) % 256 ≠ 1)
    have hin : inUse 0x301 5 c = some b := by
      simp only [inUse, hb, Option.bind_some]
      exact Option.filter_some_pos (by simpa using hcount)
    have hfree : Zones.freeBlock (fun _ => smallSuper 0) 0x301 5 c =
      some (c.modify b incCount) := by
      have hsb : Zones.getSuper (fun _ => smallSuper 0) 0x301 = some (smallSuper 0) := rfl
      simp only [Zones.freeBlock, hsb, hb, if_pos hcount]
      rfl
    refine ⟨⟨c, fun _ => zeroInode, 0, fun _ => smallSuper 0, []⟩,
      ⟨c.modify b incCount, fun _ => zeroInode, 0, fun _ => smallSuper 0, [b]⟩, rfl, ?_,
      by rw [hin]; rfl⟩
    refine bind_some.mpr ⟨(), _, ?_, rfl⟩
    exact Option.map_eq_some_iff.mpr ⟨_, hfree, by rw [hin]; rfl⟩
  · exact absurd hg.caches (hnone bh)

theorem not_level_singleton (b : Nat) : ¬ Level [b] := by
  intro h
  have hb := h b
  rw [List.count_singleton_self] at hb
  omega

/-- The reference that `get_hash_table` took is not given back. -/
theorem freeBlock_leak : ∃ s t : Fs, runCall noDisk (.freeBlock 0x301 5) s = some (none, t) ∧
    counts t.cache ≠ counts s.cache := by
  obtain ⟨s, t, hs, h, hin⟩ := freeBlock_in_use
  refine ⟨s, t, h, fun he => ?_⟩
  have hlevel := (balanced_iff_level _ hs h).mp (he.trans (add_zero _).symm)
  obtain ⟨b, hb⟩ := Option.isSome_iff_exists.mp hin
  rw [stuck_freeBlock hs h, hb] at hlevel
  exact not_level_singleton b hlevel

theorem runCall_balanced_iff_small : ∃ s t : Fs,
    (counts t.cache = counts s.cache + (none : Option Nat).elim 0 one ↔ Level t.stuck) ∧
      ((Call.freeBlock 0x301 5).frees = false → t.stuck = []) ∧
        ∀ dev block, Call.freeBlock 0x301 5 = .freeBlock dev block →
          t.stuck = (inUse dev block s.cache).toList := by
  obtain ⟨s, t, hs, h, -⟩ := freeBlock_in_use
  exact ⟨s, t, runCall_balanced_iff _ hs h⟩

end Gpos.Fs
