import Gpos.BufferMoves
import Gpos.Run

/-! The buffer cache keeps its representation invariant along every run of
tasks that hold fewer than 256 references to one buffer. -/

namespace Gpos.BufferTasks

open Cache Holdings

/-- The free list is one circle, linked both ways, with every buffer once. -/
def FreeListOk (c : Cache) : Prop :=
  ∃ l : List Nat, l.Nodup ∧ (∀ b, b ∈ l ↔ b < c.nrBuffers) ∧ l.head? = some c.freeList ∧
    ∀ i a b, l[i]? = some a → l[(i + 1) % l.length]? = some b →
      (c.buf a).bNextFree = some b ∧ (c.buf b).bPrevFree = some a

/-- Every hash queue is a list that starts at its entry of `hash_table`, is linked
both ways and ends with a null pointer at either side, and the buffers in it are
those whose device is not 0 and whose block has this hash value. -/
def HashChainsOk (c : Cache) : Prop :=
  ∀ h, ∃ l : List Nat, l.Nodup ∧ c.hashTable h = l.head? ∧
    (∀ b, l.head? = some b → (c.buf b).bPrev = none) ∧
    (∀ b, l.getLast? = some b → (c.buf b).bNext = none) ∧
    (∀ i a b, l[i]? = some a → l[i + 1]? = some b →
      (c.buf a).bNext = some b ∧ (c.buf b).bPrev = some a) ∧
    ∀ b, b ∈ l ↔ b < c.nrBuffers ∧ (c.buf b).bDev ≠ 0 ∧ hashfn (c.buf b).bDev (c.buf b).bBlocknr = h

theorem freeListOk {c : Cache} (h : CacheInv c) : FreeListOk c := by
  obtain ⟨l, hl⟩ := h.free
  refine ⟨l, hl.nodup, hl.mem, hl.head, fun i a b ha hb => ?_⟩
  exact hl.ring.succ (i := i) (a := some a) (b := some b) (by simp [ha]) (by simp [hb])

theorem hashChainsOk {c : Cache} (h : CacheInv c) : HashChainsOk c := by
  obtain ⟨chain, hc⟩ := h.hash
  intro k
  obtain ⟨last, hr⟩ := hc.ring k
  have hlen : (none :: (chain k).map some).length = (chain k).length + 1 := by simp
  have hhead : c.hashTable k = (chain k).head? := by
    have hh := hr.head_links
    cases hl : chain k with
    | nil => simpa [hl, nxHash] using hh.1
    | cons b l =>
      rw [hl] at hr
      exact (List.isChain_cons_cons.mp hr).1.1
  refine ⟨chain k, hc.nodup k, hhead, fun b hb => ?_, fun b hb => ?_,
    fun i a b ha hb => ?_, fun b => ?_⟩
  · rw [List.head?_eq_getElem?] at hb
    have hlt : 0 < (chain k).length := (List.getElem?_eq_some_iff.mp hb).1
    exact (hr.succ (i := 0) (a := none) (b := some b) (by simp)
      (by rw [hlen, Nat.mod_eq_of_lt (by omega)]; simp [hb])).2
  · rw [List.getLast?_eq_getElem?] at hb
    have hlt := (List.getElem?_eq_some_iff.mp hb).1
    exact (hr.succ (i := (chain k).length) (a := some b) (b := none)
      (by rw [List.getElem?_cons, if_neg (by omega), List.getElem?_map, hb]; rfl)
      (by rw [hlen, Nat.mod_self]; simp)).1
  · have hlt := (List.getElem?_eq_some_iff.mp hb).1
    exact hr.succ (i := i + 1) (a := some a) (b := some b) (by simp [ha])
      (by rw [hlen, Nat.mod_eq_of_lt (by omega)]; simp [hb])
  · rw [hc.mem]
    simp

/-- The device and block that a task waits to get a buffer for. -/
def Loc.asked : Loc → Option (Nat × Nat)
  | .lookup _ dev block | .poolWait _ dev block => some (dev, block)
  | .hashWait _ r | .victimWait _ r | .lockWait r | .slotWait r | .ioWait r => some (r.dev, r.block)
  | .idle | .releaseWait _ => none

section

variable {T : Type*} [DecidableEq T]

theorem found_returns (t : T) (op : Op) (r : Ref) (s : St T) :
    ((found t op r s).loc t).asked = some (r.dev, r.block) ∧ (found t op r s).held t = s.held t ∨
      ((found t op r s).loc t).asked = none ∧ (found t op r s).held t = r :: s.held t := by
  rcases found_cases t op r s with h | h | h <;> rw [h]
  · exact .inr ⟨by rw [ret_loc]; rfl, by simp only [ret, Function.update_self]⟩
  · exact .inl ⟨by rw [goto_loc]; rfl, rfl⟩
  · exact .inl ⟨by rw [goto_loc]; rfl, rfl⟩

/-- A task in a call goes on asking for the same block, or the call returns
nothing, or it returns a buffer for that block. -/
def Returns (t : T) (dev block : Nat) (s s' : St T) : Prop :=
  (s'.loc t).asked = some (dev, block) ∧ s'.held t = s.held t ∨
    (s'.loc t).asked = none ∧ (s'.held t = s.held t ∨
      ∃ bh, s'.held t = ⟨bh, dev, block⟩ :: s.held t)

theorem Returns.goto {s s' : St T} {t : T} {dev block : Nat} {l : Loc} (s₁ : St T)
    (hh : s₁.held = s.held) (he : some (goto t l s₁) = some s')
    (hl : l.asked = some (dev, block) ∨ l.asked = none) : Returns t dev block s s' := by
  obtain rfl := Option.some.inj he
  rw [Returns, goto_loc, show (BufferTasks.goto t l s₁).held = s.held from hh]
  tauto

theorem Returns.found {s s' : St T} {t : T} {dev block : Nat} (op : Op) {r : Ref} (s₁ : St T)
    (hh : s₁.held = s.held) (hr : (r.dev, r.block) = (dev, block))
    (he : some (found t op r s₁) = some s') : Returns t dev block s s' := by
  obtain rfl := Option.some.inj he
  obtain ⟨rfl, rfl⟩ := Prod.mk.inj hr
  have hret := found_returns t op r s₁
  rw [hh] at hret
  exact hret.imp id fun h => ⟨h.1, .inr ⟨r.bh, h.2⟩⟩

theorem run_returns {s s' : St T} {t : T} {dev block : Nat}
    (ha : (s.loc t).asked = some (dev, block)) (h : run t s = some s') :
    Returns t dev block s s' := by
  unfold run at h
  split at h
  next => simp at h
  next op dev' block' hl =>
    rw [hl] at ha
    unfold runLookup at h
    split at h
    · simp at h
    · exact .goto (onBuffer _ incCount s) rfl h (.inl ha)
    · split at h
      · exact .goto _ rfl h (.inr rfl)
      · split at h
        · simp at h
        · exact .goto _ rfl h (.inl ha)
        · exact .goto _ rfl h (.inl ha)
  next op r hl =>
    rw [hl] at ha
    unfold runHashWait at h
    split_ifs at h
    · exact .found op s rfl (Option.some.inj ha) h
    · exact .goto (onBuffer r.bh decCount s) rfl h (.inl ha)
  next op dev' block' hl =>
    rw [hl] at ha
    exact .goto _ rfl h (.inl ha)
  next op r hl =>
    rw [hl] at ha
    unfold runVictimWait at h
    split_ifs at h
    · exact .goto _ rfl h (.inl ha)
    · split at h
      · simp at h
      · exact .goto _ rfl h (.inl ha)
      · obtain ⟨c, -, hc⟩ := Option.map_eq_some_iff.mp h
        exact .found op { s with cache := c } rfl (Option.some.inj ha) (congrArg some hc)
  next r hl =>
    rw [hl] at ha
    unfold runLockWait at h
    split_ifs at h
    · exact .goto _ rfl h (.inl ha)
    · exact .goto (onBuffer r.bh lockHead s) rfl h (.inl ha)
  next r hl =>
    rw [hl] at ha
    unfold runSlotWait at h
    split_ifs at h
    exact .goto (onBuffer r.bh cleanHead { s with requests := r.bh :: s.requests }) rfl h (.inl ha)
  next r hl =>
    rw [hl] at ha
    unfold runIoWait at h
    split_ifs at h
    · exact .found .getblk s rfl (Option.some.inj ha) h
    · exact .goto _ rfl h (.inr rfl)
  next r hl =>
    rw [hl] at ha
    simp [Loc.asked] at ha

variable [Fintype T]

/-- The two queues are well formed, no block is cached twice, every buffer that a
task got is for the block it asked for, and whatever step comes next leaves the
buffers in use with their blocks. -/
structure Consistent (s : St T) : Prop where
  freeList : FreeListOk s.cache
  hashChains : HashChainsOk s.cache
  unique : ∀ a b dev block, dev ≠ 0 → s.cache.Caches a dev block →
    s.cache.Caches b dev block → a = b
  held : ∀ t, ∀ r ∈ s.held t, s.cache.Caches r.bh r.dev r.block ∧ 0 < (s.cache.buf r.bh).bCount
  kept : ∀ a s', step a s = some s' → ∀ b, 0 < (s.cache.buf b).bCount →
    (s'.cache.buf b).bDev = (s.cache.buf b).bDev ∧
      (s'.cache.buf b).bBlocknr = (s.cache.buf b).bBlocknr
  returned : ∀ t dev block s', (s.loc t).asked = some (dev, block) → run t s = some s' →
    (s'.loc t).asked = some (dev, block) ∧ s'.held t = s.held t ∨
      (s'.loc t).asked = none ∧ (s'.held t = s.held t ∨
        ∃ bh, s'.held t = ⟨bh, dev, block⟩ :: s.held t ∧ s'.cache.Caches bh dev block)

theorem Inv.consistent {s : St T} (hi : Inv s) (hfit : RefsFit s) : Consistent s := by
  have hheld : ∀ {s : St T}, Inv s → ∀ t, ∀ r ∈ s.held t, r ∈ refs s ∧
    s.cache.Caches r.bh r.dev r.block :=
    fun hi t r hr => by
      have hm : r ∈ refs _ := mem_total.mpr ⟨t, List.mem_append_right _ hr⟩
      exact ⟨hm, (hi.sound.ident r hm).2⟩
  refine ⟨freeListOk hi.sound.inv, hashChainsOk hi.sound.inv, hi.sound.inv.unique, fun t r hr => ?_,
    fun a s' h b hb => (step_moves hi h).effect.identity hb, fun t dev block s' ha h => ?_⟩
  · exact ⟨(hheld hi t r hr).2, hi.sound.count_pos hfit (hheld hi t r hr).1⟩
  · refine (run_returns ha h).imp id (And.imp id (Or.imp id ?_))
    rintro ⟨bh, hbh⟩
    exact ⟨bh, hbh, (hheld ((run_moves hi h).inv hi hfit) t ⟨bh, dev, block⟩ (by simp [hbh])).2⟩

omit [DecidableEq T] in
theorem boot_inv {bufferEnd : Nat} (hroom : RoomForBuffer bufferEnd) (c : Cache)
    (blkDev : Nat → Bool) : Inv (boot bufferEnd c blkDev : St T) := by
  have hspec := bufferInit_spec hroom c
  have hr : refs (boot bufferEnd c blkDev : St T) = 0 := total_empty
  refine ⟨⟨hspec.1, fun b hb => ?_, ?_⟩, fun t => trivial⟩
  · rw [hr]
    exact (hspec.2.2 b hb).2.1
  · rw [hr]
    exact fun r hr => absurd hr (Multiset.notMem_zero r)

theorem cache_consistent {bufferEnd : Nat} (hroom : RoomForBuffer bufferEnd) (c : Cache)
    (blkDev : Nat → Bool) (as : List (Action T))
    (hfit : Run.Always step RefsFit as (boot bufferEnd c blkDev)) :
    Run.Always step Consistent as (boot bufferEnd c blkDev) :=
  hfit.carry (fun _ _ _ hi hf h => (step_moves hi h).inv hi hf) (fun _ hi hf => hi.consistent hf)
    (boot_inv hroom c blkDev)

/-- A run is short enough when it has fewer steps than references fit in the count. -/
theorem refsFit_short {s : St T} (hi : Inv s) (as : List (Action T))
    (h : (refs s).card + as.length < 256) : Run.Always step RefsFit as s := by
  have hfit : RefsFit s := fun b => (Multiset.countP_le_card _ _).trans_lt (by omega)
  induction as generalizing s with
  | nil => exact hfit
  | cons a as ih =>
    refine ⟨hfit, fun s' hs' => ?_⟩
    have hm := step_moves hi hs'
    have hc := hm.effect.card_le
    simp only [List.length_cons] at h
    exact ih (hm.inv hi hfit) (by omega) fun b => (Multiset.countP_le_card _ _).trans_lt (by omega)

end

/-- Two tasks ask for one block; both find the same free buffer, and the second
one has to start again. -/
theorem cache_consistent_race : Run.Always step Consistent
    [.call 0 .getblk 0x301 5, .call 1 .bread 0x301 5, .run 0, .run 1, .run 0,
      .run 1, .run 1, .run 1, .store 0 ⟨0, 0x301, 5⟩ 1, .brelse 0 ⟨0, 0x301, 5⟩, .run 0]
    (boot 0x101000 Cache.blank fun m => m == 3 : St (Fin 2)) :=
  cache_consistent (by decide) Cache.blank _ _
    (refsFit_short (boot_inv (by decide) _ _) _ (by
      rw [show refs (boot 0x101000 Cache.blank fun m => m == 3 : St (Fin 2)) = 0 from total_empty]
      decide))

end Gpos.BufferTasks
