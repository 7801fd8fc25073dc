import Gpos.Open

/-! `read_super` with the locks of the super blocks, and with reads of the disk
that may fail at any time. -/

namespace Gpos

/-- The fields of `struct super_block` that nothing else uses. -/
structure SuperRest where
  sLogZoneSize : Nat
  sMaxSize : Nat
  sMagic : Nat
  sTime : Nat
  sLock : Bool
  sRdOnly : Bool
  sDirt : Bool

/-- `reads` counts the calls of `bread`. -/
structure Mounts where
  fs : Fs
  rest : Nat → SuperRest
  reads : Nat

namespace Mounts

open Fs Cache Zones BufferTasks

section

variable {α : Type}

def onFs (x : Program Fs α) : Program Mounts α :=
  fun s => (x s.fs).map fun r => (r.1, { s with fs := r.2 })

def modifyRest (k : Nat) (f : SuperRest → SuperRest) : Program Mounts Unit :=
  fun s => some ((), { s with rest := Function.update s.rest k (f (s.rest k)) })

def restAt (k : Nat) : Program Mounts SuperRest := fun s => some (s.rest k, s)

/-- Nobody else runs who would give the lock back. -/
def waitOnSuper (k : Nat) : Program Mounts Unit :=
  fun s => if (s.rest k).sLock then none else some ((), s)

def lockSuper (k : Nat) : Program Mounts Unit := do
  waitOnSuper k
  modifyRest k fun r => { r with sLock := true }

def freeSuper (k : Nat) : Program Mounts Unit := modifyRest k fun r => { r with sLock := false }

def getSuper (dev : Nat) : Program Mounts (Option Nat) := do
  match ← onFs (slotOf dev) with
  | none => return none
  | some k => do
    waitOnSuper k
    return some k

/-- `*((struct d_super_block *) s) = *((struct d_super_block *) bh->b_data)` -/
def copySuper (k : Nat) (b : Block) : Program Mounts Unit := do
  onFs (modifySuper k (readSuperAt b))
  modifyRest k fun r =>
    { r with
      sLogZoneSize := getBits b 80 16, sMaxSize := getBits b 96 32, sMagic := getBits b 128 16 }

def giveUp (k : Nat) : Program Mounts (Option Nat) := do
  onFs (modifySuper k fun sb => { sb with sDev := 0 })
  freeSuper k
  return none

end

section

-- Each call of `bread` finds a disk of its own.
variable (disks : Nat → Cache.Disk)

def bread (dev block : Nat) : Program Mounts (Option Nat) :=
  fun s => (Fs.bread (disks s.reads) dev block s.fs).map fun r =>
    (r.1, { s with fs := r.2, reads := s.reads + 1 })

/-- The loop that reads the blocks of a map, with `n` of them to go. There are eight slots. -/
def readMap (setSlot : Nat → Option Nat → Program Fs Unit) (dev : Nat) :
    Nat → Nat → Nat → Program Mounts Nat
  | 0, _, block => pure block
  | n + 1, i, block => do
    if 8 ≤ i then failure
    else
      let x ← bread disks dev block
      onFs (setSlot i x)
      if x.isSome then readMap setSlot dev n (i + 1) (block + 1) else return block

def readMaps (k dev : Nat) : Program Mounts (Option Nat) := do
  onFs (modifySuper k fun sb => { sb with sImap := fun _ => none, sZmap := fun _ => none })
  let sb ← onFs (superAt k)
  let block ← readMap disks (setImap k) dev sb.sImapBlocks 0 2
  let block ← readMap disks (setZmap k) dev sb.sZmapBlocks 0 block
  let sb ← onFs (superAt k)
  if block ≠ 2 + sb.sImapBlocks + sb.sZmapBlocks then
    onFs (releaseSlots sb.sImap 8)
    onFs (releaseSlots sb.sZmap 8)
    giveUp k
  else
    onFs (setFirst sb.sImap)
    onFs (setFirst sb.sZmap)
    freeSuper k
    return some k

/-- A slot that is empty is filled. -/
def fillSuper (k dev : Nat) : Program Mounts (Option Nat) := do
  onFs (modifySuper k fun sb => { sb with sDev := dev, sIsup := none, sImount := none })
  modifyRest k fun r => { r with sTime := 0, sRdOnly := false, sDirt := false }
  lockSuper k
  match ← bread disks dev 1 with
  | none => giveUp k
  | some bh => do
    let b ← onFs (readBuf bh)
    copySuper k b.bData
    onFs (brelse bh)
    if (← restAt k).sMagic ≠ superMagic then giveUp k else readMaps disks k dev

def readSuper (dev : Nat) : Program Mounts (Option Nat) := do
  if dev = 0 then return none
  else match ← getSuper dev with
  | some k => return some k
  | none =>
    match ← onFs (slotOf 0) with
    | none => return none
    | some k => fillSuper disks k dev

end

/-! The steps on the table of the super blocks. -/

section

variable {s : Mounts} {k : Nat}

theorem onFs_eq {α : Type} {x : Program Fs α} {a : α} {f : Fs} (h : x s.fs = some (a, f)) :
    onFs x s = some (a, { s with fs := f }) := by
  simp only [onFs, h, Option.map_some]

theorem waitOnSuper_eq (h : (s.rest k).sLock = false) : waitOnSuper k s = some ((), s) := by
  rw [waitOnSuper, h]
  rfl

theorem lockSuper_eq (h : (s.rest k).sLock = false) :
    lockSuper k s =
      some ((), { s with rest := Function.update s.rest k { s.rest k with sLock := true } }) :=
  Program.bind_of_eq (waitOnSuper_eq h)

theorem copySuper_eq (s : Mounts) (k : Nat) (b : Block) :
    ∃ t, copySuper k b s = some ((), t) ∧ modifySuper k (readSuperAt b) s.fs = some ((), t.fs) ∧
      (t.rest k).sMagic = getBits b 128 16 := by
  refine ⟨_, rfl, rfl, ?_⟩
  show (Function.update s.rest k _ k).sMagic = _
  rw [Function.update_self]

theorem slotOf_eq (dev : Nat) (f : Fs) :
    ∃ found, slotOf dev f = some (found, f) ∧ ∀ k, found = some k →
      k < nrSuper ∧ (f.superBlock k).sDev = dev := by
  refine ⟨_, rfl, fun k hk => ⟨List.mem_range.mp (List.mem_of_find?_eq_some hk), ?_⟩⟩
  have hp := List.find?_some hk
  exact of_decide_eq_true hp

theorem getSuper_eq (hs : ∀ k, k < nrSuper → (s.rest k).sLock = false) (dev : Nat) :
    ∃ found, getSuper dev s = some (found, s) ∧ slotOf dev s.fs = some (found, s.fs) ∧
      ∀ k, found = some k → k < nrSuper ∧ (s.fs.superBlock k).sDev = dev := by
  obtain ⟨found, hslot, hfound⟩ := slotOf_eq dev s.fs
  refine ⟨found, ?_, hslot, hfound⟩
  rw [getSuper, Program.bind_of_eq (onFs_eq hslot)]
  cases found with
  | none => rfl
  | some k => exact Program.bind_of_eq (waitOnSuper_eq (hs k (hfound k rfl).1))

end

/-! What `bread` does. -/

/-- The buffers of `bs` hold the blocks from `block` on. -/
def refsOf (dev : Nat) : Nat → List Nat → Multiset Ref
  | _, [] => 0
  | block, b :: bs => ⟨b, dev, block⟩ ::ₘ refsOf dev (block + 1) bs

theorem bread_total {c : Cache} {R : Multiset Ref} {dev block : Nat} (h : Ready c R) (hd : dev ≠ 0)
    (hroom : ∀ b, c.Caches b dev block → (c.buf b).bCount < 255) (disk : Disk) :
    (∃ x c', c.bread disk dev block = some (x, c')) ∨
      c.bread disk dev block = none ∧ c.nrBuffers ≤ R.card := by
  rcases getblk_eq h.sound.inv h.unlocked block hd with ⟨bh, c', hget, hg⟩ | ⟨hget, -, hfull⟩
  · left
    have hr := hg.ready h hd hroom
    simp only [Cache.bread, hget]
    split
    · exact ⟨_, _, rfl⟩
    · obtain ⟨c₂, hc₂, hr₂, -⟩ := hr.llRwRead disk hg.caches.1
      simp only [hc₂]
      split
      · exact ⟨_, _, rfl⟩
      · exact ⟨_, _, by rw [(Ready.brelse hr₂).1, Option.map_some]⟩
  · right
    exact ⟨by simp only [Cache.bread, hget], card_of_starved h hfull⟩

theorem uptodate_got {c c' : Cache} {dev block bh b : Nat} (hg : Got c dev block bh c')
    (hb : 0 < (c.buf b).bCount) : (c'.buf b).bUptodate = (c.buf b).bUptodate := by
  cases hg with
  | hit _ he =>
    rw [he, modify_buf]
    split
    next e => rw [← e]; rfl
    next => rfl
  | miss _ _ h0 _ he =>
    have hne : b ≠ bh := by
      rintro rfl
      omega
    simpa using congrArg BufferHead.bUptodate (he.old b hne)

theorem uptodate_decCount (c : Cache) (bh b : Nat) :
    ((c.modify bh decCount).buf b).bUptodate = (c.buf b).bUptodate := by
  rw [modify_buf]
  split
  next e => rw [← e]; rfl
  next => rfl

theorem uptodate_fetched {disk : Disk} {c c' : Cache} {bh b : Nat} {x : Option Nat}
    (hf : Fetched disk bh c x c') (hb : (c.buf b).bUptodate = true) :
    (c'.buf b).bUptodate = true := by
  have hne : (c.buf bh).bUptodate = false → bh ≠ b := by
    rintro hup rfl
    rw [hup] at hb
    cases hb
  cases hf with
  | ready => exact hb
  | read hup => rwa [modify_buf, if_neg (hne hup)]
  | failed hup he =>
    rw [uptodate_decCount]
    rcases he with rfl | rfl
    · exact hb
    · rwa [modify_buf, if_neg (hne hup)]

theorem nrBuffers_fetched {disk : Disk} {c c' : Cache} {bh : Nat} {x : Option Nat}
    (hf : Fetched disk bh c x c') : c'.nrBuffers = c.nrBuffers := by
  cases hf with
  | ready => rfl
  | read => rfl
  | failed _ he => rcases he with rfl | rfl <;> rfl

theorem bread_uptodate {disk : Disk} {c c' : Cache} {dev block bh : Nat}
    (he : c.bread disk dev block = some (some bh, c')) : (c'.buf bh).bUptodate = true := by
  unfold Cache.bread at he
  split at he
  next => cases he
  next =>
    split at he
    next hup => cases he; exact hup
    next =>
      split at he
      next => cases he
      next =>
        split at he
        next hup => cases he; exact hup
        next =>
          obtain ⟨_, _, h⟩ := Option.map_eq_some_iff.mp he
          cases h

/-- What a call of `bread` leaves. -/
structure Read (R : Multiset Ref) (dev block : Nat) (s : Mounts) (x : Option Nat)
    (t : Mounts) : Prop where
  ready : Ready t.fs.cache ((x.map fun bh => (⟨bh, dev, block⟩ : Ref)).toList + R)
  size : t.fs.cache.nrBuffers = s.fs.cache.nrBuffers
  fresh : ∀ bh, x = some bh → (t.fs.cache.buf bh).bUptodate = true
  kept : ∀ r ∈ R, (s.fs.cache.buf r.bh).bUptodate = true → (t.fs.cache.buf r.bh).bUptodate = true
  super : t.fs.superBlock = s.fs.superBlock
  rest : t.rest = s.rest

theorem bread_yields (disks : Nat → Disk) {R : Multiset Ref} {dev block : Nat} {s : Mounts}
    (h : Ready s.fs.cache R) (hd : dev ≠ 0)
    (hroom : ∀ b, s.fs.cache.Caches b dev block → (s.fs.cache.buf b).bCount < 255) :
    Program.Yields (s.fs.cache.nrBuffers ≤ R.card) s (bread disks dev block)
      (Read R dev block s) := by
  rcases bread_total h hd hroom (disks s.reads) with ⟨x, c', he⟩ | ⟨hn, hfull⟩
  · obtain ⟨bh, c₁, hg, hf, hr⟩ := bread_spec h hd hroom he
    have hrun : bread disks dev block s = some (x,
      { s with fs := { s.fs with cache := c' }, reads := s.reads + 1 }) := by
      simp only [bread, Fs.bread, onCache, he, Option.map_some]
    refine Program.Yields.of_eq hrun ⟨hr, ?_, ?_, ?_, rfl, rfl⟩
    · show c'.nrBuffers = _
      rw [nrBuffers_fetched hf, hg.nrBuffers]
    · rintro bh' rfl
      exact bread_uptodate he
    · intro r hr' hup
      apply uptodate_fetched hf
      rwa [uptodate_got hg (h.sound.count_pos h.fits hr')]
  · refine Or.inr ⟨?_, hfull⟩
    simp only [bread, Fs.bread, onCache, hn, Option.map_none]

/-! The references on the blocks that were read. -/

theorem refsOf_append (dev block : Nat) (bs cs : List Nat) :
    refsOf dev block (bs ++ cs) = refsOf dev block bs + refsOf dev (block + bs.length) cs := by
  induction bs generalizing block with
  | nil => simp [refsOf]
  | cons b bs ih =>
    rw [List.cons_append, refsOf, refsOf, ih, Multiset.cons_add, List.length_cons,
      Nat.add_right_comm, Nat.add_assoc]

@[simp] theorem card_refsOf (dev block : Nat) (bs : List Nat) :
    (refsOf dev block bs).card = bs.length := by
  induction bs generalizing block with
  | nil => rfl
  | cons b bs ih => rw [refsOf, Multiset.card_cons, ih, List.length_cons]

theorem mem_refsOf {dev block : Nat} {bs : List Nat} {r : Ref} :
    r ∈ refsOf dev block bs ↔ ∃ i, bs[i]? = some r.bh ∧ r = ⟨r.bh, dev, block + i⟩ := by
  induction bs generalizing block with
  | nil => simp [refsOf]
  | cons b bs ih =>
    rw [refsOf, Multiset.mem_cons, ih]
    constructor
    · rintro (rfl | ⟨i, hi, hr⟩)
      · exact ⟨0, rfl, rfl⟩
      · refine ⟨i + 1, hi, ?_⟩
        rwa [← Nat.add_assoc, Nat.add_right_comm]
    · rintro ⟨_ | i, hi, hr⟩
      · left
        rw [hr, Option.some.inj hi.symm]
        rfl
      · right
        refine ⟨i, hi, ?_⟩
        rwa [Nat.add_right_comm, Nat.add_assoc]

/-- Nobody holds a buffer 255 times, apart from the references `L` on blocks of the device before
the next one. -/
theorem room_of_low {c : Cache} {L R : Multiset Ref} {dev block : Nat} (h : Ready c (L + R))
    (hR : ∀ b, countRefs b R < 255) (hL : ∀ r ∈ L, r.block < block) {b : Nat}
    (hb : c.Caches b dev block) : (c.buf b).bCount < 255 := by
  have hzero : countRefs b L = 0 := by
    apply Multiset.countP_eq_zero.mpr
    rintro r hr rfl
    have hid := (h.sound.ident r (Multiset.mem_add.mpr (Or.inl hr))).2
    have hlt := hL r hr
    have he : r.block = block := hid.2.2.symm.trans hb.2.2
    omega
  rw [h.count hb.1, countRefs, Multiset.countP_add]
  rw [countRefs] at hzero
  rw [hzero, Nat.zero_add]
  exact hR b

/-! One of the two arrays of slots. -/

structure MapField where
  get : SuperBlock → Nat → Option Nat
  set : (Nat → Option Nat) → SuperBlock → SuperBlock
  get_set : ∀ m sb, get (set m sb) = m
  set_set : ∀ m m' sb, set m (set m' sb) = set m sb
  set_get : ∀ sb, set (get sb) sb = sb

def imapField : MapField :=
  ⟨fun sb => sb.sImap, fun m sb => { sb with sImap := m }, fun _ _ => rfl,
    fun _ _ _ => rfl, fun _ => rfl⟩

def zmapField : MapField :=
  ⟨fun sb => sb.sZmap, fun m sb => { sb with sZmap := m }, fun _ _ => rfl,
    fun _ _ _ => rfl, fun _ => rfl⟩

def MapField.setSlot (F : MapField) (k i : Nat) (x : Option Nat) : Program Fs Unit :=
  modifySuper k fun sb => F.set (Function.update (F.get sb) i x) sb

theorem setImap_eq (k : Nat) : setImap k = imapField.setSlot k := rfl

theorem setZmap_eq (k : Nat) : setZmap k = zmapField.setSlot k := rfl

theorem update_concat (pre : List Nat) (b : Nat) :
    Function.update (fun i => pre[i]?) pre.length (some b) = fun i => (pre ++ [b])[i]? := by
  funext i
  rcases Nat.lt_trichotomy i pre.length with h | rfl | h
  · rw [Function.update_of_ne (Nat.ne_of_lt h), List.getElem?_append_left h]
  · simp
  · rw [Function.update_of_ne (Nat.ne_of_gt h)]
    rw [List.getElem?_eq_none (Nat.le_of_lt h), List.getElem?_eq_none]
    rw [List.length_append]
    exact h

/-- What a loop over one of the maps leaves, with the buffers that it has put into the slots. -/
structure Mapped (F : MapField) (k dev : Nat) (R : Multiset Ref) (pre : List Nat) (n block : Nat)
    (s : Mounts) (block' : Nat) (bs : List Nat) (t : Mounts) : Prop where
  length : bs.length ≤ n
  next : block' = block + bs.length
  ready : Ready t.fs.cache (refsOf dev block bs + R)
  size : t.fs.cache.nrBuffers = s.fs.cache.nrBuffers
  fresh : ∀ b ∈ bs, (t.fs.cache.buf b).bUptodate = true
  kept : ∀ r ∈ R, (s.fs.cache.buf r.bh).bUptodate = true → (t.fs.cache.buf r.bh).bUptodate = true
  super : t.fs.superBlock = Function.update s.fs.superBlock k
    (F.set (fun i => (pre ++ bs)[i]?) (s.fs.superBlock k))
  rest : t.rest = s.rest

theorem readMap_yields (disks : Nat → Disk) (F : MapField) {k dev : Nat} (hd : dev ≠ 0) {w : Prop}
    {R₀ : Multiset Ref} (hR : ∀ b, countRefs b R₀ < 255) (n : Nat) (pre : List Nat) {block : Nat}
    {L : Multiset Ref} {s : Mounts} (h : Ready s.fs.cache (L + R₀)) (hL : ∀ r ∈ L, r.block < block)
    (hpre : F.get (s.fs.superBlock k) = fun i => pre[i]?) (hlen : pre.length + n ≤ 8)
    (hw : s.fs.cache.nrBuffers < (L + R₀).card + n → w) :
      Program.Yields w s (readMap disks (F.setSlot k) dev n pre.length block) fun block' t =>
        ∃ bs, Mapped F k dev (L + R₀) pre n block s block' bs t := by
  induction n generalizing pre block L s with
  | zero =>
    refine Program.Yields.of_eq rfl ⟨[], Nat.le_refl 0, rfl, ?_, rfl, by simp,
      fun _ _ hup => hup, ?_, rfl⟩
    · simpa [refsOf] using h
    · rw [List.append_nil, ← hpre, F.set_get, Function.update_eq_self]
  | succ n ih =>
    rw [readMap, if_neg (by omega)]
    have hroom : ∀ b, s.fs.cache.Caches b dev block → (s.fs.cache.buf b).bCount < 255 :=
      fun b hb => room_of_low h hR hL hb
    have hwait : s.fs.cache.nrBuffers ≤ (L + R₀).card → w := fun hle => hw (by omega)
    refine ((bread_yields disks h hd hroom).mono hwait fun _ _ ht => ht).bind fun x t ht => ?_
    have hget : F.get (t.fs.superBlock k) = fun i => pre[i]? := by rw [ht.super, hpre]
    cases x with
    | none =>
      refine Program.Yields.of_eq rfl ⟨[], Nat.zero_le _, rfl, ?_, ht.size, by simp,
        ht.kept, ?_, ht.rest⟩
      · simpa [refsOf] using ht.ready
      · have hnone : Function.update (fun i => pre[i]?) pre.length none = fun i => pre[i]? := by
          rw [Function.update_eq_self_iff]
          exact (List.getElem?_eq_none (Nat.le_refl _)).symm
        show Function.update t.fs.superBlock k
          (F.set (Function.update (F.get (t.fs.superBlock k)) pre.length none)
            (t.fs.superBlock k)) = _
        rw [hget, hnone, List.append_nil, ht.super]
    | some bh =>
      have hready : Ready t.fs.cache ((⟨bh, dev, block⟩ ::ₘ L) + R₀) := by
        have hr := ht.ready
        rwa [Option.map_some, Option.toList_some, Multiset.coe_singleton, ← Multiset.add_assoc,
          Multiset.singleton_add] at hr
      have hlow : ∀ r ∈ ⟨bh, dev, block⟩ ::ₘ L, r.block < block + 1 := by
        intro r hr
        rcases Multiset.mem_cons.mp hr with rfl | hr
        · exact Nat.lt_succ_self block
        · exact Nat.lt_succ_of_lt (hL r hr)
      have hlen' : (pre ++ [bh]).length = pre.length + 1 := by simp
      let sb := F.set (fun i => (pre ++ [bh])[i]?) (t.fs.superBlock k)
      let t' : Mounts :=
        { t with fs := { t.fs with superBlock := Function.update t.fs.superBlock k sb } }
      have hset : onFs (F.setSlot k pre.length (some bh)) t = some ((), t') := by
        simp only [t', sb, ← update_concat, ← hget]
        rfl
      refine Program.Yields.step hset ?_
      rw [Option.isSome_some, if_pos rfl, ← hlen']
      have hlen8 : (pre ++ [bh]).length + n ≤ 8 := by omega
      have hget' : F.get (t'.fs.superBlock k) = fun i => (pre ++ [bh])[i]? := by
        simp only [t', sb, Function.update_self, F.get_set]
      have hwait' : t.fs.cache.nrBuffers < (⟨bh, dev, block⟩ ::ₘ L + R₀).card + n → w := by
        intro hlt
        apply hw
        rw [← ht.size]
        rw [Multiset.cons_add, Multiset.card_cons] at hlt
        omega
      refine (ih (pre ++ [bh]) (s := t') hready hlow hget' hlen8 hwait').mono id ?_
      · rintro block' u ⟨bs, hm⟩
        refine ⟨bh :: bs, ?_, ?_, ?_, hm.size.trans ht.size, ?_, ?_, ?_, hm.rest.trans ht.rest⟩
        · have := hm.length
          simp only [List.length_cons]
          omega
        · have := hm.next
          simp only [List.length_cons]
          omega
        · have hr := hm.ready
          rwa [Multiset.cons_add, Multiset.add_cons, ← Multiset.cons_add] at hr
        · intro b hb
          rcases List.mem_cons.mp hb with rfl | hb
          · exact hm.kept ⟨b, dev, block⟩ (by simp) (ht.fresh b rfl)
          · exact hm.fresh b hb
        · intro r hr hup
          exact hm.kept r (by simp [hr]) (ht.kept r hr hup)
        · rw [hm.super, ← ht.super]
          simp [t', sb, F.set_set]

theorem releaseSlots_run {dev block : Nat} {bs : List Nat} {R : Multiset Ref} {f : Fs}
    (h : Ready f.cache (refsOf dev block bs + R)) (n : Nat) :
      ∃ c, releaseSlots (fun i => bs[i]?) n f = some ((), { f with cache := c }) ∧
      Ready c (refsOf dev (block + n) (bs.drop n) + R) ∧ c.nrBuffers = f.cache.nrBuffers ∧
        ∀ b, (c.buf b).bUptodate = (f.cache.buf b).bUptodate := by
  induction n with
  | zero => exact ⟨f.cache, rfl, h, rfl, fun _ => rfl⟩
  | succ n ih =>
    obtain ⟨c, hrun, hc, hsize, hup⟩ := ih
    rw [releaseSlots, Program.bind_of_eq hrun]
    cases hb : bs[n]? with
    | none =>
      have hle := List.getElem?_eq_none_iff.mp hb
      rw [List.drop_eq_nil_of_le hle] at hc
      rw [List.drop_eq_nil_of_le (Nat.le_succ_of_le hle)]
      exact ⟨c, rfl, hc, hsize, hup⟩
    | some bh =>
      obtain ⟨hlt, hget⟩ := List.getElem?_eq_some_iff.mp hb
      rw [List.drop_eq_getElem_cons hlt, hget, refsOf, Multiset.cons_add] at hc
      obtain ⟨hrel, hc'⟩ := Ready.brelse hc
      refine ⟨_, ?_, hc', hsize, fun b => (uptodate_decCount c bh b).trans (hup b)⟩
      simp only [Fs.brelse, onCache, hrel, Option.map_some]

theorem setFirst_run (bs : List Nat) (hbs : bs ≠ []) {R : Multiset Ref} {f : Fs}
    (h : Ready f.cache R) :
    ∃ c, setFirst (fun i => bs[i]?) f = some ((), { f with cache := c }) ∧ Ready c R ∧
      c.nrBuffers = f.cache.nrBuffers ∧ ∀ b, (c.buf b).bUptodate = (f.cache.buf b).bUptodate := by
  obtain ⟨b, bs, rfl⟩ := List.exists_cons_of_ne_nil hbs
  let f' : BufferHead → BufferHead := fun b => { b with bData := Bitmap.setBit 0 b.bData }
  have hshape : KeepsShape f' := fun _ => ⟨rfl, rfl, rfl, rfl, rfl, rfl⟩
  refine ⟨f.cache.modify b f', rfl, h.modify b hshape (fun _ => rfl) fun _ hl => hl,
    rfl, fun i => ?_⟩
  rw [modify_buf]
  split
  next e => rw [← e]
  next => rfl

/-! The two outcomes, as seen from a state before. -/

/-- The cache and the slots other than `k`. -/
structure Aside (k : Nat) (R R' : Multiset Ref) (s t : Mounts) : Prop where
  ready : Ready t.fs.cache R'
  size : t.fs.cache.nrBuffers = s.fs.cache.nrBuffers
  kept : ∀ r ∈ R, (s.fs.cache.buf r.bh).bUptodate = true → (t.fs.cache.buf r.bh).bUptodate = true
  super : ∀ j, j ≠ k → t.fs.superBlock j = s.fs.superBlock j
  rest : ∀ j, j ≠ k → t.rest j = s.rest j

structure Dropped (k : Nat) (R : Multiset Ref) (s t : Mounts) : Prop extends Aside k R R s t where
  dev : (t.fs.superBlock k).sDev = 0
  unlocked : (t.rest k).sLock = false

structure Filled (k dev : Nat) (R : Multiset Ref) (s t : Mounts) (is zs : List Nat) : Prop
    extends Aside k R (refsOf dev 2 (is ++ zs) + R) s t where
  dev : (t.fs.superBlock k).sDev = dev
  unlocked : (t.rest k).sLock = false
  imapLength : is.length = (t.fs.superBlock k).sImapBlocks
  zmapLength : zs.length = (t.fs.superBlock k).sZmapBlocks
  imap : (t.fs.superBlock k).sImap = fun i => is[i]?
  zmap : (t.fs.superBlock k).sZmap = fun i => zs[i]?
  fresh : ∀ b ∈ is ++ zs, (t.fs.cache.buf b).bUptodate = true

/-- The header names one to eight blocks for each map. -/
structure Sized (im zm : Nat) : Prop where
  imap : 1 ≤ im ∧ im ≤ 8
  zmap : 1 ≤ zm ∧ zm ≤ 8

def Result (k dev : Nat) (R : Multiset Ref) (s : Mounts) (r : Option Nat) (t : Mounts) : Prop :=
  r = none ∧ Dropped k R s t ∨ r = some k ∧ ∃ is zs, Filled k dev R s t is zs

/-- What the two loops leave. -/
structure MapsRead (k dev im zm : Nat) (R : Multiset Ref) (s : Mounts) (block : Nat)
    (is zs : List Nat) (t : Mounts) : Prop where
  imapLength : is.length ≤ im
  zmapLength : zs.length ≤ zm
  next : block = 2 + is.length + zs.length
  ready : Ready t.fs.cache (refsOf dev 2 is + (refsOf dev (2 + is.length) zs + R))
  size : t.fs.cache.nrBuffers = s.fs.cache.nrBuffers
  fresh : ∀ b ∈ is ++ zs, (t.fs.cache.buf b).bUptodate = true
  kept : ∀ r ∈ R, (s.fs.cache.buf r.bh).bUptodate = true → (t.fs.cache.buf r.bh).bUptodate = true
  super : t.fs.superBlock = Function.update s.fs.superBlock k
    { s.fs.superBlock k with sImap := fun i => is[i]?, sZmap := fun i => zs[i]? }
  rest : t.rest = s.rest

theorem loops_yields {β : Type} {Q : β → Mounts → Prop} (disks : Nat → Disk) {k dev im zm : Nat}
    (hd : dev ≠ 0) {w : Prop} {R : Multiset Ref} {s : Mounts} (hR : ∀ b, countRefs b R < 255)
    (h : Ready s.fs.cache R) (him : im ≤ 8) (hzm : zm ≤ 8)
    (himap : (s.fs.superBlock k).sImap = fun _ => none)
    (hzmap : (s.fs.superBlock k).sZmap = fun _ => none)
    (hw : s.fs.cache.nrBuffers < R.card + 16 → w) {f : Nat → Program Mounts β}
    (hf : ∀ block t is zs, MapsRead k dev im zm R s block is zs t →
      Program.Yields w t (f block) Q) :
    Program.Yields w s (readMap disks (setImap k) dev im 0 2 >>= fun block =>
      readMap disks (setZmap k) dev zm 0 block >>= f) Q := by
  have hnil : (fun _ => none : Nat → Option Nat) = fun i => ([] : List Nat)[i]? := rfl
  have hfirst := readMap_yields disks imapField hd (w := w) hR im [] (k := k) (L := 0) (s := s)
    (by rwa [Multiset.zero_add]) (show ∀ r ∈ (0 : Multiset Ref), r.block < 2 by simp)
      (himap.trans hnil) (by simpa using him) (by
      intro hlt
      rw [Multiset.zero_add] at hlt
      exact hw (by omega))
  refine hfirst.bind fun block t ⟨is, ht⟩ => ?_
  have hlow : ∀ r ∈ refsOf dev 2 is, r.block < block := by
    intro r hr
    obtain ⟨i, hi, he⟩ := mem_refsOf.mp hr
    have hlt := (List.getElem?_eq_some_iff.mp hi).1
    rw [he, ht.next]
    show 2 + i < 2 + is.length
    omega
  have hready := ht.ready
  rw [Multiset.zero_add] at hready
  have hz : zmapField.get (t.fs.superBlock k) = fun i => ([] : List Nat)[i]? := by
    rw [ht.super, Function.update_self]
    exact hzmap
  have hsecond :=
    readMap_yields disks zmapField hd (w := w) hR zm [] hready hlow hz (by simpa using hzm) (by
    intro hlt
    have := ht.length
    rw [ht.size, Multiset.card_add, card_refsOf] at hlt
    exact hw (by omega))
  refine hsecond.bind fun block' u ⟨zs, hu⟩ => hf block' u is zs ?_
  refine ⟨ht.length, hu.length, ?_, ?_, hu.size.trans ht.size, ?_, ?_, ?_, hu.rest.trans ht.rest⟩
  · rw [hu.next, ht.next]
  · have hr := hu.ready
    rwa [ht.next, ← Multiset.add_assoc, Multiset.add_comm (refsOf dev (2 + is.length) zs),
      Multiset.add_assoc] at hr
  · intro b hb
    rcases List.mem_append.mp hb with hb | hb
    · obtain ⟨i, hi⟩ := List.mem_iff_getElem?.mp hb
      have hmem : (⟨b, dev, 2 + i⟩ : Ref) ∈ refsOf dev 2 is := mem_refsOf.mpr ⟨i, hi, rfl⟩
      exact hu.kept _ (Multiset.mem_add.mpr (Or.inl hmem)) (ht.fresh b hb)
    · exact hu.fresh b hb
  · intro r hr hup
    exact hu.kept r (Multiset.mem_add.mpr (Or.inr hr)) (ht.kept r (by simpa using hr) hup)
  · rw [hu.super, ht.super, Function.update_idem, Function.update_self]
    rfl

theorem giveUp_run (k : Nat) (s : Mounts) : giveUp k s = some (none, { s with
    fs :=
      { s.fs with
        superBlock := Function.update s.fs.superBlock k { s.fs.superBlock k with sDev := 0 } }
    rest := Function.update s.rest k { s.rest k with sLock := false } }) := rfl

theorem giveUp_dropped {k : Nat} {R : Multiset Ref} {s t : Mounts} (h : Aside k R R s t) :
    Program.Yields False t (giveUp k) fun r u => r = none ∧ Dropped k R s u := by
  refine Program.Yields.of_eq (giveUp_run k t) ⟨rfl, ⟨h.ready, h.size, h.kept, ?_, ?_⟩, ?_, ?_⟩
  · intro j hj
    exact (Function.update_of_ne hj _ _).trans (h.super j hj)
  · intro j hj
    exact (Function.update_of_ne hj _ _).trans (h.rest j hj)
  · simp
  · simp

theorem aside_of_slot {k : Nat} {R : Multiset Ref} {s t : Mounts} (h : Ready s.fs.cache R)
    (hc : t.fs.cache = s.fs.cache) (hsuper : ∀ j, j ≠ k → t.fs.superBlock j = s.fs.superBlock j)
    (hrest : ∀ j, j ≠ k → t.rest j = s.rest j) : Aside k R R s t := by
  refine ⟨hc ▸ h, by rw [hc], ?_, hsuper, hrest⟩
  intro r _ hup
  rwa [hc]

theorem Aside.trans {k : Nat} {R R' : Multiset Ref} {s t u : Mounts} (h : Aside k R R s t)
    (h' : Aside k R R' t u) : Aside k R R' s u := by
  refine ⟨h'.ready, h'.size.trans h.size, ?_, ?_, ?_⟩
  · intro r hr hup
    exact h'.kept r hr (h.kept r hr hup)
  · intro j hj
    exact (h'.super j hj).trans (h.super j hj)
  · intro j hj
    exact (h'.rest j hj).trans (h.rest j hj)

theorem Aside.result {k dev : Nat} {R : Multiset Ref} {s t u : Mounts} {r : Option Nat}
    (h : Aside k R R s t) (hr : Result k dev R t r u) : Result k dev R s r u := by
  rcases hr with ⟨rfl, hd⟩ | ⟨rfl, is, zs, hf⟩
  · exact Or.inl ⟨rfl, h.trans hd.toAside, hd.dev, hd.unlocked⟩
  · refine Or.inr ⟨rfl, is, zs, ?_⟩
    exact ⟨h.trans hf.toAside, hf.dev, hf.unlocked, hf.imapLength, hf.zmapLength, hf.imap,
      hf.zmap, hf.fresh⟩

theorem MapsRead.slot {k dev im zm block : Nat} {R : Multiset Ref} {s t : Mounts} {is zs : List Nat}
    (h : MapsRead k dev im zm R s block is zs t) :
    t.fs.superBlock k = { s.fs.superBlock k with
      sImap := fun i => is[i]?, sZmap := fun i => zs[i]? } := by
  rw [h.super, Function.update_self]

theorem MapsRead.dropped {k dev im zm block : Nat} {R : Multiset Ref} {s t : Mounts}
    {is zs : List Nat} (h : MapsRead k dev im zm R s block is zs t) (him : im ≤ 8) (hzm : zm ≤ 8) :
    Program.Yields False t (do
      onFs (releaseSlots (fun i => is[i]?) 8)
      onFs (releaseSlots (fun i => zs[i]?) 8)
      giveUp k) fun r u => r = none ∧ Dropped k R s u := by
  obtain ⟨c, hrun, hc, hsize, hup⟩ := releaseSlots_run h.ready 8
  rw [List.drop_eq_nil_of_le (h.imapLength.trans him), refsOf, Multiset.zero_add] at hc
  obtain ⟨c', hrun', hc', hsize', hup'⟩ := releaseSlots_run (f := { t.fs with cache := c }) hc 8
  rw [List.drop_eq_nil_of_le (h.zmapLength.trans hzm), refsOf, Multiset.zero_add] at hc'
  refine Program.Yields.step (onFs_eq hrun) (Program.Yields.step (onFs_eq hrun')
    (giveUp_dropped ?_))
  refine ⟨hc', hsize'.trans (hsize.trans h.size), ?_, ?_, fun j _ => congrFun h.rest j⟩
  · intro r hr hupr
    exact ((hup' r.bh).trans (hup r.bh)).trans (h.kept r hr hupr)
  · intro j hj
    show t.fs.superBlock j = _
    rw [h.super, Function.update_of_ne hj]

theorem MapsRead.filled {k dev block : Nat} {R : Multiset Ref} {s t : Mounts} {is zs : List Nat}
    (h : MapsRead k dev (s.fs.superBlock k).sImapBlocks
      (s.fs.superBlock k).sZmapBlocks R s block is zs t)
    (hdev : (s.fs.superBlock k).sDev = dev)
    (hsized : Sized (s.fs.superBlock k).sImapBlocks (s.fs.superBlock k).sZmapBlocks)
    (hall : block = 2 + (s.fs.superBlock k).sImapBlocks + (s.fs.superBlock k).sZmapBlocks) :
    Program.Yields False t (do
      onFs (setFirst fun i => is[i]?)
      onFs (setFirst fun i => zs[i]?)
      freeSuper k
      return some k) fun r u => r = some k ∧ Filled k dev R s u is zs := by
  have him := hsized.imap
  have hzm := hsized.zmap
  have hlen := h.imapLength
  have hlen' := h.zmapLength
  have hnext := h.next
  obtain ⟨c, hrun, hc, hsize, hup⟩ := setFirst_run is (List.ne_nil_of_length_pos (by omega)) h.ready
  obtain ⟨c', hrun', hc', hsize', hup'⟩ :=
    setFirst_run zs (List.ne_nil_of_length_pos (by omega)) (f := { t.fs with cache := c }) hc
  refine Program.Yields.step (onFs_eq hrun) (Program.Yields.step (onFs_eq hrun')
    (Program.Yields.of_eq rfl ⟨rfl, ?_⟩))
  have hkeep : ∀ b, (c'.buf b).bUptodate = (t.fs.cache.buf b).bUptodate :=
    fun b => (hup' b).trans (hup b)
  refine ⟨⟨?_, hsize'.trans (hsize.trans h.size), ?_, ?_, ?_⟩, ?_, ?_, ?_, ?_, ?_, ?_, ?_⟩
  · show Ready c' _
    rwa [refsOf_append, Multiset.add_assoc]
  · intro r hr hupr
    exact (hkeep r.bh).trans (h.kept r hr hupr)
  · intro j hj
    show t.fs.superBlock j = _
    rw [h.super, Function.update_of_ne hj]
  · intro j hj
    exact (Function.update_of_ne hj _ _).trans (congrFun h.rest j)
  · exact (congrArg SuperBlock.sDev h.slot).trans hdev
  · show (Function.update t.rest k _ k).sLock = false
    rw [Function.update_self]
  · refine Eq.trans ?_ (congrArg SuperBlock.sImapBlocks h.slot).symm
    dsimp only
    omega
  · refine Eq.trans ?_ (congrArg SuperBlock.sZmapBlocks h.slot).symm
    dsimp only
    omega
  · exact congrArg SuperBlock.sImap h.slot
  · exact congrArg SuperBlock.sZmap h.slot
  · intro b hb
    exact (hkeep b).trans (h.fresh b hb)

theorem readMaps_yields (disks : Nat → Disk) {k dev : Nat} (hd : dev ≠ 0) {w : Prop}
    {R : Multiset Ref} {s : Mounts} (hR : ∀ b, countRefs b R < 255) (h : Ready s.fs.cache R)
    (hdev : (s.fs.superBlock k).sDev = dev)
    (hsized : Sized (s.fs.superBlock k).sImapBlocks (s.fs.superBlock k).sZmapBlocks)
    (hw : s.fs.cache.nrBuffers < R.card + 16 → w) :
    Program.Yields w s (readMaps disks k dev) (Result k dev R s) := by
  let sb : SuperBlock := { s.fs.superBlock k with sImap := fun _ => none, sZmap := fun _ => none }
  let s₁ : Mounts :=
    { s with fs := { s.fs with superBlock := Function.update s.fs.superBlock k sb } }
  have hk : s₁.fs.superBlock k = sb := Function.update_self ..
  have hclear :
    onFs (modifySuper k fun sb => { sb with sImap := fun _ => none, sZmap := fun _ => none }) s =
      some ((), s₁) := rfl
  have hsuper : onFs (superAt k) s₁ = some (s₁.fs.superBlock k, s₁) := rfl
  have haside : Aside k R R s s₁ :=
    aside_of_slot h rfl (fun j hj => Function.update_of_ne hj _ _) fun _ _ => rfl
  have hsized₁ : Sized (s₁.fs.superBlock k).sImapBlocks (s₁.fs.superBlock k).sZmapBlocks := by
    rwa [hk]
  have hdev₁ : (s₁.fs.superBlock k).sDev = dev := by rwa [hk]
  refine Program.Yields.step hclear (Program.Yields.step hsuper ?_)
  refine loops_yields disks hd (s := s₁) hR h hsized₁.imap.2 hsized₁.zmap.2 (by rw [hk])
    (by rw [hk]) hw ?_
  intro block t is zs ht
  have hsuper' : onFs (superAt k) t = some ({ s₁.fs.superBlock k with
    sImap := fun i => is[i]?, sZmap := fun i => zs[i]? }, t) := by
    rw [← ht.slot]
    rfl
  refine Program.Yields.step hsuper' ?_
  split
  next =>
    exact (ht.dropped hsized₁.imap.2 hsized₁.zmap.2).mono False.elim fun _ _ hr =>
      haside.result (Or.inl hr)
  next hall =>
    exact (ht.filled hdev₁ hsized₁ (not_not.mp hall)).mono False.elim fun _ _ hr =>
      haside.result (Or.inr ⟨hr.1, is, zs, hr.2⟩)

/-- The header that a read of block 1 finds is `Sized`. -/
def HeaderSized (disk : Disk) (dev : Nat) (c : Cache) : Prop :=
  ∀ bh c', c.bread disk dev 1 = some (some bh, c') →
    Sized (getBits (c'.buf bh).bData 32 16) (getBits (c'.buf bh).bData 48 16)

theorem headerSized_of_disk {disk : Disk} {c : Cache} {R : Multiset Ref} {dev : Nat} (h : Ready c R)
    (hd : dev ≠ 0) (hnew : ∀ b, ¬ c.Caches b dev 1)
    (hsized : Sized (getBits (disk.data dev 1) 32 16) (getBits (disk.data dev 1) 48 16)) :
    HeaderSized disk dev c := by
  intro bh c' he
  obtain ⟨bh', c₁, hg, hf, -⟩ := bread_spec h hd (fun b hb => absurd hb (hnew b)) he
  cases hg with
  | hit hc => exact absurd hc (hnew bh')
  | miss _ _ _ _ hr =>
    have hup := congrArg BufferHead.bUptodate hr.new
    have hdev := congrArg BufferHead.bDev hr.new
    have hblock := congrArg BufferHead.bBlocknr hr.new
    simp only [BufferHead.contents_bUptodate, BufferHead.contents_bDev,
      BufferHead.contents_bBlocknr] at hup hdev hblock
    cases hf with
    | ready ht => exact absurd (ht.symm.trans hup) (by decide)
    | read _ =>
      rw [modify_buf, if_pos rfl, readHead, hdev, hblock]
      exact hsized

theorem copied_yields (disks : Nat → Disk) {k dev bh : Nat} (hd : dev ≠ 0) {w : Prop}
    {R : Multiset Ref} {s t : Mounts} (hR : ∀ b, countRefs b R < 255)
    (ht : Read R dev 1 s (some bh) t) (hdev : (s.fs.superBlock k).sDev = dev)
    (hsized : Sized (getBits (t.fs.cache.buf bh).bData 32 16)
      (getBits (t.fs.cache.buf bh).bData 48 16)) (hw : s.fs.cache.nrBuffers < R.card + 16 → w) :
    Program.Yields w t (do
      let b ← onFs (readBuf bh)
      copySuper k b.bData
      onFs (Fs.brelse bh)
      if (← restAt k).sMagic ≠ superMagic then giveUp k
        else readMaps disks k dev) (Result k dev R s) := by
  have hr := ht.ready
  rw [Option.map_some, Option.toList_some, Multiset.coe_singleton, Multiset.singleton_add] at hr
  obtain ⟨hrel, hc⟩ := Ready.brelse hr
  let b := (t.fs.cache.buf bh).bData
  let sb := readSuperAt b (t.fs.superBlock k)
  let r : SuperRest :=
    { t.rest k with
      sLogZoneSize := getBits b 80 16, sMaxSize := getBits b 96 32, sMagic := getBits b 128 16 }
  let t₁ : Mounts := { t with
    fs := { t.fs with superBlock := Function.update t.fs.superBlock k sb }
    rest := Function.update t.rest k r }
  let t₂ : Mounts := { t₁ with fs := { t₁.fs with cache := t.fs.cache.modify bh decCount } }
  have hcopy : copySuper k b t = some ((), t₁) := rfl
  have hbrelse : onFs (Fs.brelse bh) t₁ = some ((), t₂) := by
    refine onFs_eq ?_
    simp only [Fs.brelse, onCache, t₁, hrel, Option.map_some]
  have hmagic : restAt k t₂ = some (t₂.rest k, t₂) := rfl
  have haside : Aside k R R s t₂ := by
    refine ⟨hc, ht.size, ?_, ?_, ?_⟩
    · intro r hr hup
      exact (uptodate_decCount _ _ _).trans (ht.kept r hr hup)
    · intro j hj
      exact (Function.update_of_ne hj _ _).trans (congrFun ht.super j)
    · intro j hj
      exact (Function.update_of_ne hj _ _).trans (congrFun ht.rest j)
  refine Program.Yields.step (a := t.fs.cache.buf bh) (t := t) rfl ?_
  refine Program.Yields.step hcopy (Program.Yields.step hbrelse (Program.Yields.step hmagic ?_))
  split
  next => exact (giveUp_dropped haside).mono False.elim fun _ _ hr => Or.inl hr
  next =>
    have hk : t₂.fs.superBlock k = sb := Function.update_self ..
    have hdev' : (t₂.fs.superBlock k).sDev = dev := by
      rw [hk]
      exact (congrArg SuperBlock.sDev (congrFun ht.super k)).trans hdev
    have hsized' : Sized (t₂.fs.superBlock k).sImapBlocks (t₂.fs.superBlock k).sZmapBlocks := by
      rw [hk]
      exact hsized
    have hw' : t₂.fs.cache.nrBuffers < R.card + 16 → w := fun hlt => hw (haside.size ▸ hlt)
    exact (readMaps_yields disks hd hR haside.ready hdev' hsized' hw').mono id
      fun _ _ hr => haside.result hr

theorem fillSuper_yields (disks : Nat → Disk) {k dev : Nat} (hd : dev ≠ 0) {w : Prop}
    {R : Multiset Ref} {s : Mounts} (hR : ∀ b, countRefs b R < 255) (h : Ready s.fs.cache R)
    (hlock : (s.rest k).sLock = false) (hsized : HeaderSized (disks s.reads) dev s.fs.cache)
    (hw : s.fs.cache.nrBuffers < R.card + 16 → w) :
    Program.Yields w s (fillSuper disks k dev) (Result k dev R s) := by
  let sb : SuperBlock := { s.fs.superBlock k with sDev := dev, sIsup := none, sImount := none }
  let r : SuperRest := { s.rest k with sTime := 0, sRdOnly := false, sDirt := false }
  let s₁ : Mounts :=
    { s with fs := { s.fs with superBlock := Function.update s.fs.superBlock k sb } }
  let s₂ : Mounts := { s₁ with rest := Function.update s.rest k r }
  let s₃ : Mounts := { s₂ with rest := Function.update s₂.rest k { s₂.rest k with sLock := true } }
  have hlock₂ : (s₂.rest k).sLock = false := by
    show (Function.update s.rest k r k).sLock = false
    rwa [Function.update_self]
  refine Program.Yields.step (t := s₁) rfl (Program.Yields.step (t := s₂) rfl
    (Program.Yields.step (t := s₃) (lockSuper_eq hlock₂) ?_))
  have haside : Aside k R R s s₃ := by
    refine aside_of_slot h rfl (fun j hj => Function.update_of_ne hj _ _) fun j hj => ?_
    exact (Function.update_of_ne hj _ _).trans (Function.update_of_ne hj _ _)
  have hroom : ∀ b, s₃.fs.cache.Caches b dev 1 → (s₃.fs.cache.buf b).bCount < 255 := by
    intro b hb
    refine room_of_low (L := 0) ?_ hR (by simp) hb
    rwa [Multiset.zero_add]
  have hbread :=
    (bread_yields disks (s := s₃) h hd hroom).self.mono
      (fun hle => hw (Nat.lt_of_le_of_lt hle (by simp))) fun _ _ hq => hq
  refine hbread.bind fun x t ⟨hrun, ht⟩ => ?_
  cases x with
  | none =>
    have hready : Ready t.fs.cache R := by
      have hr := ht.ready
      rwa [Option.map_none, Option.toList_none, Multiset.coe_nil, Multiset.zero_add] at hr
    have hread : Aside k R R s₃ t :=
      ⟨hready, ht.size, ht.kept, fun j _ => congrFun ht.super j, fun j _ => congrFun ht.rest j⟩
    exact (giveUp_dropped (haside.trans hread)).mono False.elim fun _ _ hr => Or.inl hr
  | some bh =>
    have hfound : s.fs.cache.bread (disks s.reads) dev 1 = some (some bh, t.fs.cache) := by
      obtain ⟨⟨x, c⟩, hx, he⟩ := Option.map_eq_some_iff.mp hrun
      obtain ⟨⟨y, c'⟩, hy, he'⟩ := Option.map_eq_some_iff.mp hx
      cases he'
      cases he
      exact hy
    have hdev : (s₃.fs.superBlock k).sDev = dev := by
      show (Function.update s.fs.superBlock k sb k).sDev = dev
      rw [Function.update_self]
    exact (copied_yields disks hd hR ht hdev (hsized bh _ hfound) hw).mono id
      fun _ _ hr => haside.result hr

/-! The table of the super blocks. -/

/-- The slots of a map hold the buffers of `n` consecutive blocks. -/
def LoadedFrom (c : Cache) (map : Nat → Option Nat) (n dev block : Nat) : Prop :=
  (∀ i, i < n → ∃ b, map i = some b ∧ c.Caches b dev (block + i) ∧ (c.buf b).bUptodate = true ∧
    0 < (c.buf b).bCount) ∧ ∀ i, n ≤ i → map i = none

structure Loaded (s : Mounts) (k dev : Nat) : Prop where
  lt : k < nrSuper
  unlocked : (s.rest k).sLock = false
  imap : LoadedFrom s.fs.cache (s.fs.superBlock k).sImap (s.fs.superBlock k).sImapBlocks dev 2
  zmap : LoadedFrom s.fs.cache (s.fs.superBlock k).sZmap (s.fs.superBlock k).sZmapBlocks dev
    (2 + (s.fs.superBlock k).sImapBlocks)
  dev : (s.fs.superBlock k).sDev = dev

/-- Nothing is left behind: a slot that is not as it was before is empty again. -/
structure Restored (s t : Mounts) : Prop where
  count : ∀ b, b < s.fs.cache.nrBuffers → (t.fs.cache.buf b).bCount = (s.fs.cache.buf b).bCount
  slots : ∀ k, (t.fs.superBlock k = s.fs.superBlock k ∧ t.rest k = s.rest k) ∨
    ((t.rest k).sLock = false ∧ (t.fs.superBlock k).sDev = 0)

/-- The buffers that the maps of a slot hold. -/
structure Holds (R : Multiset Ref) (s : Mounts) (k : Nat) (is zs : List Nat) : Prop where
  imapLength : is.length = (s.fs.superBlock k).sImapBlocks
  zmapLength : zs.length = (s.fs.superBlock k).sZmapBlocks
  imap : (s.fs.superBlock k).sImap = fun i => is[i]?
  zmap : (s.fs.superBlock k).sZmap = fun i => zs[i]?
  refs : ∀ r ∈ refsOf (s.fs.superBlock k).sDev 2 (is ++ zs), r ∈ R ∧
    (s.fs.cache.buf r.bh).bUptodate = true

/-- `R` are the references on buffers that are held. -/
structure Settled (R : Multiset Ref) (s : Mounts) : Prop where
  ready : Ready s.fs.cache R
  unlocked : ∀ k, k < nrSuper → (s.rest k).sLock = false
  holds : ∀ k, k < nrSuper → (s.fs.superBlock k).sDev ≠ 0 → ∃ is zs, Holds R s k is zs

theorem loadedFrom_of_refs {c : Cache} {R : Multiset Ref} {dev block : Nat} {bs : List Nat}
    (h : Ready c R) (hr : ∀ r ∈ refsOf dev block bs, r ∈ R ∧ (c.buf r.bh).bUptodate = true) :
    LoadedFrom c (fun i => bs[i]?) bs.length dev block := by
  constructor
  · intro i hi
    have hb : bs[i]? = some bs[i] := List.getElem?_eq_getElem hi
    have hmem : (⟨bs[i], dev, block + i⟩ : Ref) ∈ refsOf dev block bs := mem_refsOf.mpr ⟨i, hb, rfl⟩
    obtain ⟨hR, hup⟩ := hr _ hmem
    exact ⟨bs[i], hb, (h.sound.ident _ hR).2, hup, h.sound.count_pos h.fits hR⟩
  · intro i hi
    exact List.getElem?_eq_none hi

theorem Settled.loaded {R : Multiset Ref} {s : Mounts} (h : Settled R s) {k : Nat}
    (hk : k < nrSuper) (hd : (s.fs.superBlock k).sDev ≠ 0) :
    Loaded s k (s.fs.superBlock k).sDev := by
  obtain ⟨is, zs, hh⟩ := h.holds k hk hd
  have hrefs := hh.refs
  rw [refsOf_append] at hrefs
  refine ⟨hk, h.unlocked k hk, ?_, ?_, rfl⟩
  · rw [hh.imap, ← hh.imapLength]
    exact loadedFrom_of_refs h.ready fun r hr => hrefs r (Multiset.mem_add.mpr (Or.inl hr))
  · rw [hh.zmap, ← hh.zmapLength, ← hh.imapLength]
    exact loadedFrom_of_refs h.ready fun r hr => hrefs r (Multiset.mem_add.mpr (Or.inr hr))

theorem Holds.aside {k j : Nat} {R R' : Multiset Ref} {s t : Mounts} {is zs : List Nat}
    (h : Holds R s j is zs) (ha : Aside k R (R' + R) s t) (hj : j ≠ k) :
    Holds (R' + R) t j is zs := by
  have hsuper := ha.super j hj
  refine ⟨?_, ?_, ?_, ?_, ?_⟩
  · rw [hsuper, h.imapLength]
  · rw [hsuper, h.zmapLength]
  · rw [hsuper, h.imap]
  · rw [hsuper, h.zmap]
  · rw [hsuper]
    intro r hr
    obtain ⟨hR, hup⟩ := h.refs r hr
    exact ⟨Multiset.mem_add.mpr (Or.inr hR), ha.kept r hR hup⟩

theorem Settled.aside {k : Nat} {R R' : Multiset Ref} {s t : Mounts} (h : Settled R s)
    (ha : Aside k R (R' + R) s t) (hlock : (t.rest k).sLock = false)
    (hk : (t.fs.superBlock k).sDev ≠ 0 → ∃ is zs, Holds (R' + R) t k is zs) :
    Settled (R' + R) t := by
  refine ⟨ha.ready, fun j hj => ?_, fun j hj hd => ?_⟩
  · by_cases he : j = k
    · rwa [he]
    · rw [ha.rest j he]
      exact h.unlocked j hj
  · by_cases he : j = k
    · subst he
      exact hk hd
    · rw [ha.super j he] at hd
      obtain ⟨is, zs, hh⟩ := h.holds j hj hd
      exact ⟨is, zs, hh.aside ha he⟩

theorem Settled.dropped {k : Nat} {R : Multiset Ref} {s t : Mounts} (h : Settled R s)
    (hd : Dropped k R s t) : Settled R t ∧ Restored s t := by
  constructor
  · have haside : Aside k R (0 + R) s t := by
      rw [Multiset.zero_add]
      exact hd.toAside
    have := h.aside haside hd.unlocked fun hne => absurd hd.dev hne
    rwa [Multiset.zero_add] at this
  · refine ⟨fun b hb => ?_, fun j => ?_⟩
    · rw [h.ready.count hb, hd.ready.count (hd.size ▸ hb)]
    · by_cases he : j = k
      · subst he
        exact Or.inr ⟨hd.unlocked, hd.dev⟩
      · exact Or.inl ⟨hd.super j he, hd.rest j he⟩

theorem Settled.filled {k dev : Nat} {R : Multiset Ref} {s t : Mounts} {is zs : List Nat}
    (h : Settled R s) (hf : Filled k dev R s t is zs) :
    Settled (refsOf dev 2 (is ++ zs) + R) t := by
  refine h.aside hf.toAside hf.unlocked fun _ =>
    ⟨is, zs, hf.imapLength, hf.zmapLength, hf.imap, hf.zmap, ?_⟩
  rw [hf.dev]
  intro r hr
  refine ⟨Multiset.mem_add.mpr (Or.inl hr), ?_⟩
  obtain ⟨i, hi, -⟩ := mem_refsOf.mp hr
  exact hf.fresh r.bh (List.mem_of_getElem? hi)

/-- `read_super` returns a slot with the maps of the device or leaves nothing behind. It may wait
only where all buffers are held. -/
theorem readSuper_yields (disks : Nat → Disk) {dev : Nat} {R : Multiset Ref} {s : Mounts}
    (h : Settled R s) (hR : ∀ b, countRefs b R < 255)
    (hsized : HeaderSized (disks s.reads) dev s.fs.cache) :
      Program.Yields (s.fs.cache.nrBuffers < R.card + 16) s (readSuper disks dev) fun r t =>
        ((∃ k, r = some k ∧ Loaded t k dev) ∨ r = none ∧ Restored s t) ∧ ∃ R', Settled R' t := by
  have hsame : Restored s s := ⟨fun _ _ => rfl, fun _ => Or.inl ⟨rfl, rfl⟩⟩
  unfold readSuper
  split
  next => exact Program.Yields.of_eq rfl ⟨Or.inr ⟨rfl, hsame⟩, R, h⟩
  next hd =>
    obtain ⟨found, hget, -, hfound⟩ := getSuper_eq h.unlocked dev
    refine Program.Yields.step hget ?_
    cases found with
    | some k =>
      obtain ⟨hlt, hdev⟩ := hfound k rfl
      have hload := h.loaded hlt (hdev ▸ hd)
      rw [hdev] at hload
      exact Program.Yields.of_eq rfl ⟨Or.inl ⟨k, rfl, hload⟩, R, h⟩
    | none =>
      obtain ⟨empty, hempty, hlt⟩ := slotOf_eq 0 s.fs
      refine Program.Yields.step (onFs_eq hempty) ?_
      cases empty with
      | none => exact Program.Yields.of_eq rfl ⟨Or.inr ⟨rfl, hsame⟩, R, h⟩
      | some k =>
        have hunlocked := h.unlocked k (hlt k rfl).1
        refine (fillSuper_yields disks hd hR h.ready hunlocked hsized id).mono id ?_
        rintro r t (⟨rfl, hdrop⟩ | ⟨rfl, is, zs, hf⟩)
        · exact ⟨Or.inr ⟨rfl, (h.dropped hdrop).2⟩, R, (h.dropped hdrop).1⟩
        · have hset := h.filled hf
          have hload := hset.loaded (hlt k rfl).1 (hf.dev ▸ hd)
          rw [hf.dev] at hload
          exact ⟨Or.inl ⟨k, rfl, hload⟩, _, hset⟩

def smallHeader : Block := putBits (putBits (putBits 0 32 16 2) 48 16 1) 128 16 superMagic

def failing : Nat → Disk
  | 2 => ⟨fun m => m == 3, fun _ _ => false, fun _ _ => 0⟩
  | _ => ⟨fun m => m == 3, fun _ _ => true, fun _ block => if block = 1 then smallHeader else 0⟩

def emptySlot : SuperBlock := ⟨0, 0, 0, 0, 0, fun _ => none, fun _ => none, 0, none, none⟩

theorem readSuper_yields_failing : ∃ s : Mounts,
    Program.Yields (s.fs.cache.nrBuffers < 0 + 16) s (readSuper failing 0x301) fun r t =>
      ((∃ k, r = some k ∧ Loaded t k 0x301) ∨ r = none ∧ Restored s t) ∧ ∃ R', Settled R' t := by
  have hready := @ready_bufferInit 0x110000 (by decide) blank
  let s : Mounts := ⟨⟨bufferInit 0x110000 blank, fun _ => zeroInode, 0, fun _ => emptySlot, []⟩,
    fun _ => ⟨0, 0, 0, 0, false, false, false⟩, 0⟩
  have hset : Settled 0 s := ⟨hready, fun _ _ => rfl, fun _ _ hne => absurd rfl hne⟩
  have hheader : HeaderSized (failing 0) 0x301 s.fs.cache := by
    refine headerSized_of_disk hready (by decide)
      (fun b => bufferInit_not_caches (by decide) blank (by decide) b 1) ?_
    exact ⟨by decide +kernel, by decide +kernel⟩
  exact ⟨s, readSuper_yields failing hset (by simp [countRefs]) hheader⟩

end Mounts

end Gpos
