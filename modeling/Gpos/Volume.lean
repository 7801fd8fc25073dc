import Gpos.BlockTrees
import Gpos.DirEntries

/-! One device, when every `bread` succeeds and returns what the block holds:
its zone trees are those of `BlockMap.Disk`. -/

namespace Gpos

namespace BlockMap

open Program

/-- The operations do what the others do, seen through `f`. The zones that are allocated have `P`. -/
structure Simulates {S T : Type} (f : S → T) (Q : S → Prop) (P : Nat → Prop) (o : Ops S)
    (o' : Ops T) : Prop where
  iDev : ∀ i, Follows f Q (fun _ => True) (o.iDev i) (o'.iDev i)
  iZone : ∀ i k, Follows f Q (fun _ => True) (o.iZone i k) (o'.iZone i k)
  setZone : ∀ i k v, P v → Follows f Q (fun _ => True) (o.setZone i k v) (o'.setZone i k v)
  newBlock : ∀ dev, Follows f Q P (o.newBlock dev) (o'.newBlock dev)
  bread : ∀ dev z, Follows f Q (fun _ => True) (o.bread dev z) (o'.bread dev z)
  entry : ∀ bh j, Follows f Q (fun _ => True) (o.entry bh j) (o'.entry bh j)
  setEntry : ∀ bh j v, j < 512 → P v → Follows f Q (fun _ => True) (o.setEntry bh j v)
    (o'.setEntry bh j v)
  brelse : ∀ bh, Follows f Q (fun _ => True) (o.brelse bh) (o'.brelse bh)

section

variable {S T : Type} {f : S → T} {Q : S → Prop} {P : Nat → Prop} {o : Ops S} {o' : Ops T}

theorem Simulates.zoneOrNew (h : Simulates f Q P o o') (create : Bool) (i k : Nat) :
    Follows f Q (fun _ => True) (zoneOrNew o create i k) (zoneOrNew o' create i k) := by
  refine (h.iZone i k).bind fun z _ => Follows.ite (fun _ => ?_) fun _ => Follows.pure trivial
  refine (h.iDev i).bind fun dev _ => (h.newBlock dev).bind fun z hz => ?_
  exact Follows.ite (fun _ => (h.setZone i k z hz).bind fun _ _ => Follows.pure trivial) fun _ =>
    Follows.pure trivial

theorem Simulates.entryOrNew (h : Simulates f Q P o o') (create : Bool) (i z : Nat) {j : Nat}
    (hj : j < 512) :
    Follows f Q (fun _ => True) (entryOrNew o create i z j) (entryOrNew o' create i z j) := by
  refine Follows.ite (fun _ => Follows.pure trivial) fun _ => (h.iDev i).bind fun dev _ =>
    (h.bread dev z).bind fun bh _ => ?_
  cases bh with
  | none => exact Follows.pure trivial
  | some bh =>
    refine (h.entry bh j).bind fun e _ => Follows.ite (fun _ => ?_) fun _ => ?_
    · refine (h.iDev i).bind fun dev _ => (h.newBlock dev).bind fun e he => ?_
      exact Follows.ite (fun _ => (h.setEntry bh j e hj he).bind fun _ _ =>
        (h.brelse bh).bind fun _ _ => Follows.pure trivial) fun _ =>
        (h.brelse bh).bind fun _ _ => Follows.pure trivial
    · exact (h.brelse bh).bind fun _ _ => Follows.pure trivial

theorem Simulates.bmapCreate (h : Simulates f Q P o o') (create : Bool) (i k : Nat) :
    Follows f Q (fun _ => True) (bmapCreate o create i k) (bmapCreate o' create i k) := by
  refine Follows.ite (fun _ => Follows.failure) fun hk =>
    Follows.ite (fun _ => h.zoneOrNew create i k) fun _ => ?_
  refine Follows.ite (fun hj => (h.zoneOrNew create i 7).bind fun z _ =>
    h.entryOrNew create i z hj) fun _ => ?_
  have hmax : maxBlocks = 262663 := rfl
  exact (h.zoneOrNew create i 8).bind fun z _ =>
    (h.entryOrNew create i z (by omega)).bind fun z _ =>
    h.entryOrNew create i z (Nat.mod_lt _ (by decide))

end

end BlockMap

open BlockMap Fs

/-- The zone map as in `BlockMap.Disk`, the blocks, and the inodes in memory. -/
structure Volume where
  order : List Nat
  firstDataZone : Nat
  nzones : Nat
  bits : Nat → Bool
  block : Nat → Block
  inodeTable : Nat → MInode

namespace Volume

def setBlock (z : Nat) (b : Block) (v : Volume) : Volume :=
  { v with block := Function.update v.block z b }

def setInode (i : Nat) (n : MInode) (v : Volume) : Volume :=
  { v with inodeTable := Function.update v.inodeTable i n }

def disk (v : Volume) : Disk where
  order := v.order
  firstDataZone := v.firstDataZone
  nzones := v.nzones
  bits := v.bits
  zone i k := (v.inodeTable i).iZone k
  words z j := getBits (v.block z) (16 * j) 16

/-- `new_block`: the first clear bit, which stays set when its zone does not exist. -/
def newBlock (v : Volume) : Nat × Volume :=
  match v.order.find? fun n => !v.bits n with
  | none => (0, v)
  | some n =>
    let v' := { v with bits := Function.update v.bits n true }
    if v.nzones ≤ n + v.firstDataZone - 1 then (0, v')
    else (n + v.firstDataZone - 1, v'.setBlock (n + v.firstDataZone - 1) 0)

/-- The buffer of a block is named by its number, and all is on device 1. -/
def ops : Ops Volume where
  iDev _ := pure 1
  iZone i k := fun v => some ((v.inodeTable i).iZone k, v)
  setZone i k z := fun v =>
    some ((), v.setInode i { v.inodeTable i with
      iZone := Function.update (v.inodeTable i).iZone k z, iDirt := true, iCtime := 0 })
  newBlock _ := fun v => some v.newBlock
  bread _ z := pure (some z)
  entry bh j := fun v => some (getBits (v.block bh) (16 * j) 16, v)
  setEntry bh j z := fun v => some ((), v.setBlock bh (putBits (v.block bh) (16 * j) 16 z))
  brelse _ := pure ()

/-- The number of a zone fits into an entry. -/
def Fits (v : Volume) : Prop := v.nzones ≤ 65536

section

variable {v : Volume}

theorem disk_setZone (i k z : Nat) (n : MInode)
    (hz : n.iZone = Function.update (v.inodeTable i).iZone k z) :
    (v.setInode i n).disk = v.disk.setZone i k z := by
  have hzone : (v.setInode i n).disk.zone = Function.update v.disk.zone i
    (Function.update (v.disk.zone i) k z) := by
    funext j
    by_cases hj : j = i
    · subst hj
      rw [Function.update_self]
      funext l
      show (Function.update v.inodeTable j n j).iZone l = _
      rw [Function.update_self, hz]
      rfl
    · rw [Function.update_of_ne hj]
      funext l
      show (Function.update v.inodeTable i n j).iZone l = _
      rw [Function.update_of_ne hj]
      rfl
  rw [Disk.setZone, ← hzone]
  rfl

theorem getBits_putBits (b : Block) {off w x : Nat} (ho : off + w ≤ 8192) :
    getBits (putBits b off w x) off w = x % 2 ^ w := by
  rw [getBits, extractLsb'_putBits b ho, BitVec.toNat_ofNat]

theorem getBits_putBits_of_disjoint (b : Block) {off w x o l : Nat} (h : o + l ≤ off ∨ off + w ≤ o)
    (ho : o + l ≤ 8192) : getBits (putBits b off w x) o l = getBits b o l := by
  rw [getBits, getBits, extractLsb'_putBits_of_disjoint b h ho]

theorem getBits_out (b : Block) {o l : Nat} (ho : 8192 ≤ o) : getBits b o l = 0 := by
  have hzero : b.extractLsb' o l = 0 := BitVec.eq_of_getLsbD_eq fun i hi => by
    rw [BitVec.getLsbD_extractLsb', BitVec.getLsbD_of_ge b _ (by omega)]
    simp
  rw [getBits, hzero]
  rfl

theorem disk_setEntry (z : Nat) {j x : Nat} (hj : j < 512) (hx : x < 65536) :
    (v.setBlock z (putBits (v.block z) (16 * j) 16 x)).disk = v.disk.setWord z j x := by
  have hwords : (v.setBlock z (putBits (v.block z) (16 * j) 16 x)).disk.words =
      Function.update v.disk.words z (Function.update (v.disk.words z) j x) := by
    funext w k
    show getBits (Function.update v.block z (putBits (v.block z) (16 * j) 16 x) w) (16 * k) 16 = _
    by_cases hw : w = z
    · subst hw
      rw [Function.update_self, Function.update_self]
      by_cases hk : k = j
      · subst hk
        rw [getBits_putBits _ (by omega), Function.update_self]
        exact Nat.mod_eq_of_lt hx
      · rw [Function.update_of_ne hk]
        by_cases hin : k < 512
        · exact getBits_putBits_of_disjoint _ (by omega) (by omega)
        · show _ = getBits (v.block w) (16 * k) 16
          rw [getBits_out _ (by omega), getBits_out _ (by omega)]
    · rw [Function.update_of_ne hw, Function.update_of_ne hw]
      rfl
  rw [Disk.setWord, ← hwords]
  rfl

theorem disk_clear (z : Nat) : (v.setBlock z 0).disk = v.disk.clear z := by
  have hwords : (v.setBlock z 0).disk.words = Function.update v.disk.words z fun _ => 0 := by
    funext w k
    show getBits (Function.update v.block z 0 w) (16 * k) 16 = _
    by_cases hw : w = z
    · subst hw
      rw [Function.update_self, Function.update_self, getBits]
      simp
    · rw [Function.update_of_ne hw, Function.update_of_ne hw]
      rfl
  rw [Disk.clear, ← hwords]
  rfl

theorem newBlock_disk (v : Volume) : v.disk.newBlock = (v.newBlock.1, v.newBlock.2.disk) := by
  unfold Disk.newBlock newBlock
  show (match v.order.find? fun n => !v.bits n with
    | none => (0, v.disk)
    | some n => if v.nzones ≤ n + v.firstDataZone - 1 then (0, v.disk.take n)
      else (n + v.firstDataZone - 1, (v.disk.take n).clear (n + v.firstDataZone - 1))) = _
  split
  next => rfl
  next n _ =>
    dsimp only
    split
    · rfl
    · rw [disk_clear]
      rfl

theorem newBlock_lt (hv : v.Fits) : v.newBlock.1 < 65536 ∧ v.newBlock.2.Fits := by
  unfold newBlock
  split
  next => exact ⟨Nat.succ_pos 65535, hv⟩
  next n _ =>
    dsimp only
    split
    · exact ⟨Nat.succ_pos 65535, hv⟩
    next h => exact ⟨lt_of_lt_of_le (Nat.not_le.mp h) hv, hv⟩

end

/-- The inodes and the blocks of a volume are the zone trees that `BlockTrees` is about. -/
theorem simulates : Simulates disk Fits (· < 65536) ops Disk.ops where
  iDev _ := Program.Follows.pure trivial
  iZone i k v hv := ⟨rfl, fun _ _ h => by cases h; exact ⟨hv, trivial⟩⟩
  setZone i k z _ v hv := by
    refine ⟨?_, fun _ _ h => by cases h; exact ⟨hv, trivial⟩⟩
    exact congrArg (fun d => some ((), d)) (disk_setZone i k z _ rfl)
  newBlock _ v hv := by
    refine ⟨congrArg some (newBlock_disk v).symm, fun z t h => ?_⟩
    obtain ⟨rfl, rfl⟩ := Prod.mk.inj (Option.some.inj h)
    exact ⟨(newBlock_lt hv).2, (newBlock_lt hv).1⟩
  bread _ _ := Program.Follows.pure trivial
  entry bh j v hv := ⟨rfl, fun _ _ h => by cases h; exact ⟨hv, trivial⟩⟩
  setEntry bh j z hj hz v hv := by
    refine ⟨?_, fun _ _ h => by cases h; exact ⟨hv, trivial⟩⟩
    exact congrArg (fun d => some ((), d)) (disk_setEntry bh hj hz)
  brelse _ := Program.Follows.pure trivial

/-- The zone trees are disjoint and allocated. -/
structure Ok (v : Volume) : Prop where
  trees : v.disk.Trees
  fits : v.Fits

/-- Block `k` of an inode, zero for none. -/
def zoneAt (v : Volume) (i k : Nat) : Nat := v.disk.ref i (.ofBlock k)

section

variable {v : Volume}

theorem zoneOrNew_still {create : Bool} {i k : Nat}
    (h : create = true → (v.inodeTable i).iZone k ≠ 0) :
    zoneOrNew ops create i k v = some (v.disk.ref i (.zone k), v) := by
  have hc : ¬ (create = true ∧ (v.inodeTable i).iZone k = 0) := fun hc => h hc.1 hc.2
  show (if create = true ∧ (v.inodeTable i).iZone k = 0 then _ else _ : Program Volume Nat) v = _
  rw [if_neg hc]
  rfl

theorem entryOrNew_still {create : Bool} (i : Nat) {z j : Nat}
    (h : create = true → z ≠ 0 → v.disk.entryOf z j ≠ 0) :
    entryOrNew ops create i z j v = some (v.disk.entryOf z j, v) := by
  by_cases hz : z = 0
  · rw [entryOrNew, if_pos hz, Disk.entryOf, if_pos hz]
    rfl
  · have he : v.disk.entryOf z j = getBits (v.block z) (16 * j) 16 := if_neg hz
    have hc : ¬ (create = true ∧ getBits (v.block z) (16 * j) 16 = 0) :=
      fun hc => h hc.1 hz (he.trans hc.2)
    rw [entryOrNew, if_neg hz, he]
    show (if create = true ∧ getBits (v.block z) (16 * j) 16 = 0 then _
      else _ : Program Volume Nat) v = _
    rw [if_neg hc]
    rfl

theorem bmapCreate_still {create : Bool} {i k : Nat} (hk : k < maxBlocks)
    (h : create = true → v.zoneAt i k ≠ 0) :
    bmapCreate ops create i k v = some (v.zoneAt i k, v) := by
  have hentry : ∀ {z j}, v.disk.entryOf z j ≠ 0 → z ≠ 0 := fun hne hz => hne (if_pos hz)
  rw [bmapCreate, if_neg (Nat.not_le.mpr hk)]
  unfold zoneAt at h ⊢
  by_cases h7 : k < 7
  · have hp : Place.ofBlock k = .zone k := if_pos h7
    rw [hp] at h ⊢
    rw [if_pos h7]
    exact zoneOrNew_still h
  by_cases h512 : k - 7 < 512
  · have hp : Place.ofBlock k = .ind (k - 7) := by rw [Place.ofBlock, if_neg h7, if_pos h512]
    rw [hp] at h ⊢
    rw [if_neg h7, if_pos h512, Program.bind_of_eq (zoneOrNew_still fun hc => hentry (h hc))]
    exact entryOrNew_still i fun hc _ => h hc
  · have hp : Place.ofBlock k = .leaf ((k - 7 - 512) / 512) ((k - 7 - 512) % 512) := by
      rw [Place.ofBlock, if_neg h7, if_neg h512]
    rw [hp] at h ⊢
    rw [if_neg h7, if_neg h512, Program.bind_of_eq
      (zoneOrNew_still fun hc => hentry (hentry (h hc)))]
    show (entryOrNew ops create i (v.disk.zone i 8) _ >>= _) v = _
    rw [Program.bind_of_eq (entryOrNew_still i fun hc _ => hentry (h hc))]
    exact entryOrNew_still i fun hc _ => h hc

theorem bmap_eq (i : Nat) {k : Nat} (hk : k < maxBlocks) :
    BlockMap.bmap ops i k v = some (v.zoneAt i k, v) :=
  bmapCreate_still hk Bool.noConfusion

/-- What is left of the inodes when the search for a block has changed their zones. -/
def rest (v : Volume) (i : Nat) : MInode :=
  { v.inodeTable i with iZone := fun _ => 0, iDirt := false, iCtime := 0 }

theorem keeps_setZone (i k z : Nat) : Program.Keeps rest (ops.setZone i k z) := by
  intro s a t h
  cases h
  funext j
  show ({ Function.update s.inodeTable i _ j with iZone := _, iDirt := _, iCtime := _ } : MInode) =
    _
  by_cases hj : j = i
  · subst hj
    rw [Function.update_self]
    rfl
  · rw [Function.update_of_ne hj]
    rfl

theorem keeps_newBlock (dev : Nat) : Program.Keeps rest (ops.newBlock dev) := by
  intro s a t h
  obtain ⟨-, rfl⟩ := Prod.mk.inj (Option.some.inj h)
  show s.newBlock.2.rest = s.rest
  unfold newBlock
  split
  · rfl
  · dsimp only
    split <;> rfl

theorem keeps_get {α : Type} (f : Volume → α) :
    Program.Keeps rest (fun v => some (f v, v) : Program Volume α) := by
  intro s a t h
  cases h
  rfl

theorem keeps_zoneOrNew (create : Bool) (i k : Nat) :
    Program.Keeps rest (zoneOrNew ops create i k) := by
  refine (keeps_get fun v => (v.inodeTable i).iZone k).bind fun z => .ite ?_ (.pure _)
  refine (Program.Keeps.pure _).bind fun dev => (keeps_newBlock dev).bind fun z => ?_
  exact .ite ((keeps_setZone i k z).bind fun _ => .pure _) (.pure _)

theorem keeps_entryOrNew (create : Bool) (i z j : Nat) :
    Program.Keeps rest (entryOrNew ops create i z j) := by
  refine .ite (.pure _) ((Program.Keeps.pure _).bind fun dev =>
    (Program.Keeps.pure (some z)).bind fun x => ?_)
  cases x with
  | none => exact .pure 0
  | some bh =>
    refine (keeps_get fun v => getBits (v.block bh) (16 * j) 16).bind fun e =>
      .ite ?_ ((Program.Keeps.pure _).bind fun _ => .pure _)
    refine (Program.Keeps.pure _).bind fun dev => (keeps_newBlock dev).bind fun e => ?_
    refine .ite (Program.Keeps.bind ?_ fun _ => (Program.Keeps.pure _).bind fun _ => .pure _)
      ((Program.Keeps.pure _).bind fun _ => .pure _)
    intro s a t h
    cases h
    rfl

theorem keeps_bmapCreate (create : Bool) (i k : Nat) :
    Program.Keeps rest (bmapCreate ops create i k) := by
  refine .ite .failure <| .ite (keeps_zoneOrNew create i k) <| .ite ?_ ?_
  · exact (keeps_zoneOrNew create i 7).bind fun z => keeps_entryOrNew create i z _
  · refine (keeps_zoneOrNew create i 8).bind fun z =>
      (keeps_entryOrNew create i z _).bind fun e => ?_
    exact keeps_entryOrNew create i e _

theorem block_ext {b b' : Block} (h : ∀ j, getBits b (16 * j) 16 = getBits b' (16 * j) 16) :
    b = b' := by
  refine BitVec.eq_of_getLsbD_eq fun n hn => ?_
  have hword : b.extractLsb' (16 * (n / 16)) 16 = b'.extractLsb' (16 * (n / 16)) 16 :=
    BitVec.eq_of_toNat_eq (h (n / 16))
  have hbit := congrArg (fun x => x.getLsbD (n % 16)) hword
  simpa [BitVec.getLsbD_extractLsb', Nat.div_add_mod, Nat.mod_lt] using hbit

/-- What `create_block` for block `k` makes of a volume. -/
structure Created (v : Volume) (i k z : Nat) (v' : Volume) : Prop where
  small : k < maxBlocks
  ok : v'.Ok
  value : v'.zoneAt i k = z
  others : ∀ m l, l < maxBlocks → ¬ (m = i ∧ l = k) → v'.zoneAt m l = v.zoneAt m l
  block : ∀ m l, l < maxBlocks → v.zoneAt m l ≠ 0 → v'.block (v.zoneAt m l) = v.block (v.zoneAt m l)
  rest : v'.rest = v.rest

theorem createBlock_created (hv : v.Ok) {i k z : Nat} {v' : Volume}
    (h : BlockMap.createBlock ops i k v = some (z, v')) : Created v i k z v' := by
  have hk : k < maxBlocks := by
    by_contra hbig
    rw [BlockMap.createBlock, bmapCreate, if_pos (Nat.not_lt.mp hbig)] at h
    cases h
  obtain ⟨hsim, hkeep⟩ := simulates.bmapCreate true i k v hv.fits
  rw [BlockMap.createBlock] at h
  rw [h, Option.map_some] at hsim
  obtain ⟨z', d', he, hm⟩ := Disk.bmapCreate_mapped hv.trees true i hk
  rw [he] at hsim
  obtain ⟨rfl, rfl⟩ := Prod.mk.inj (Option.some.inj hsim)
  refine ⟨hk, ⟨hm.trees, (hkeep z v' h).1⟩, hm.value, hm.others,
    fun m l hl hne => block_ext fun j => ?_, keeps_bmapCreate true i k v z v' h⟩
  exact congrFun (Disk.bmapCreate_words hv.trees he hl hne) j

theorem Created.iSize {i k z : Nat} {v' : Volume} (h : Created v i k z v') (m : Nat) :
    (v'.inodeTable m).iSize = (v.inodeTable m).iSize := by
  have hrest : (v'.rest m).iSize = (v.rest m).iSize := by rw [h.rest]
  exact hrest

theorem Created.iNum {i k z : Nat} {v' : Volume} (h : Created v i k z v') (m : Nat) :
    (v'.inodeTable m).iNum = (v.inodeTable m).iNum := by
  have hrest : (v'.rest m).iNum = (v.rest m).iNum := by rw [h.rest]
  exact hrest

end

/-- Every block can be read. -/
def reader (v : Volume) : Image.Reader := fun z => some (v.block z)

theorem image_bmap (v : Volume) (i : Nat) {k : Nat} (hk : k < maxBlocks) :
    Image.bmap v.reader (v.inodeTable i) k = some (v.zoneAt i k) := by
  have hmax : maxBlocks = 262663 := rfl
  have hentry : ∀ z j, Image.indexEntry v.reader z j = v.disk.entryOf z j := fun _ _ => rfl
  unfold zoneAt
  by_cases h7 : k < 7
  · rw [Image.bmap_direct h7, Place.ofBlock, if_pos h7]
    rfl
  by_cases h512 : k - 7 < 512
  · have h := @Image.bmap_indirect v.reader (v.inodeTable i) (k - 7) h512
    rw [show 7 + (k - 7) = k by omega] at h
    rw [h, Place.ofBlock, if_neg h7, if_pos h512]
    rfl
  · have h :=
      @Image.bmap_double v.reader (v.inodeTable i) ((k - 519) / 512) ((k - 519) % 512)
        (by omega) (by omega)
    rw [Nat.div_add_mod, show 519 + (k - 519) = k by omega] at h
    rw [h, Place.ofBlock, if_neg h7, if_neg h512, show k - 7 - 512 = k - 519 by omega]
    rfl

theorem image_blockAt (v : Volume) (i : Nat) {k : Nat} (hk : k < maxBlocks)
    (hz : v.zoneAt i k ≠ 0) :
    Image.blockAt v.reader (v.inodeTable i) k =
      some (some (v.zoneAt i k, v.block (v.zoneAt i k))) := by
  rw [Image.blockAt, image_bmap v i hk, Option.map_some, if_neg hz]
  rfl

end Volume

end Gpos
