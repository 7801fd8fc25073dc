import Gpos.Volume

/-! `truncate` on a volume with the references on its buffers. -/

namespace Gpos

namespace Fs

/-- What `truncate` uses. -/
structure FreeOps (S : Type) where
  inode : Nat → Program S MInode
  modifyInode : Nat → (MInode → MInode) → Program S Unit
  bread : Nat → Nat → Program S (Option Nat)
  data : Nat → Program S Block
  brelse : Nat → Program S Unit
  freeBlock : Nat → Nat → Program S Unit

namespace FreeOps

variable {S : Type} (o : FreeOps S)

def freeEntries (free : Nat → Program S Unit) (bh : Nat) : Nat → Program S Unit
  | 0 => pure ()
  | n + 1 => do
    freeEntries free bh n
    let z := getBits (← o.data bh) (16 * n) 16
    if z ≠ 0 then free z

def freeListed (free : Nat → Program S Unit) (dev block : Nat) : Program S Unit := do
  match ← o.bread dev block with
  | none => pure ()
  | some bh => do
    o.freeEntries free bh 512
    o.brelse bh

def freeIndex (free : Nat → Nat → Program S Unit) (dev block : Nat) : Program S Unit := do
  if block ≠ 0 then
    o.freeListed (free dev) dev block
    o.freeBlock dev block

def freeInd (dev block : Nat) : Program S Unit := o.freeIndex o.freeBlock dev block

def freeDind (dev block : Nat) : Program S Unit := o.freeIndex o.freeInd dev block

def freeDirect (i : Nat) : Nat → Program S Unit
  | 0 => pure ()
  | k + 1 => do
    freeDirect i k
    let n ← o.inode i
    if n.iZone k ≠ 0 then
      o.freeBlock n.iDev (n.iZone k)
      o.modifyInode i fun n => { n with iZone := Function.update n.iZone k 0 }

def truncate (i : Nat) : Program S Unit := do
  let n ← o.inode i
  if isReg n.iMode ∨ isDir n.iMode then
    o.freeDirect i 7
    o.freeInd n.iDev ((← o.inode i).iZone 7)
    o.freeDind n.iDev ((← o.inode i).iZone 8)
    o.modifyInode i fun n =>
      { n with
        iZone := Function.update (Function.update n.iZone 8 0) 7 0
        iSize := 0, iDirt := true, iMtime := 0, iCtime := 0 }

end FreeOps

def freeOps (disk : Cache.Disk) : FreeOps Fs where
  inode := inode
  modifyInode := modifyInode
  bread := bread disk
  data bh := do return (← readBuf bh).bData
  brelse := brelse
  freeBlock := freeBlock

section

variable (disk : Cache.Disk)

theorem freeEntries_freeOps (free : Nat → Program Fs Unit) (bh n : Nat) :
    (freeOps disk).freeEntries free bh n = freeEntries free bh n := by
  induction n with
  | zero => rfl
  | succ n ih =>
    rw [FreeOps.freeEntries, ih]
    rfl

theorem freeIndex_freeOps (free : Nat → Nat → Program Fs Unit) (dev block : Nat) :
    (freeOps disk).freeIndex free dev block = freeIndex disk free dev block := by
  refine ite_congr rfl (fun _ => ?_) fun _ => rfl
  refine congrArg (fun x : Program Fs Unit => x >>= fun _ => freeBlock dev block)
    (bind_congr fun x => ?_)
  cases x with
  | none => rfl
  | some bh =>
    dsimp only
    rw [freeEntries_freeOps]
    rfl

theorem freeDirect_freeOps (i n : Nat) : (freeOps disk).freeDirect i n = freeDirect i n := by
  induction n with
  | zero => rfl
  | succ n ih =>
    rw [FreeOps.freeDirect, ih]
    rfl

theorem truncate_freeOps (i : Nat) : (freeOps disk).truncate i = truncate disk i := by
  have hind : (freeOps disk).freeInd = freeInd disk := by
    funext dev block
    exact freeIndex_freeOps disk freeBlock dev block
  have hdind : (freeOps disk).freeDind = freeDind disk := by
    funext dev block
    rw [FreeOps.freeDind, hind]
    exact freeIndex_freeOps disk (freeInd disk) dev block
  rw [FreeOps.truncate, freeDirect_freeOps, hind, hdind]
  rfl

end

end Fs

open Fs

/-- `count` are the references on the buffers of the blocks, and `stored` is what the disk holds behind them. -/
structure HeldVolume extends Volume where
  count : Nat → Nat
  readable : Nat → Bool
  stored : Nat → Block

namespace HeldVolume

def zoneNr (s : HeldVolume) (z : Nat) : Nat := z + 1 - s.firstDataZone

/-- The bit of a zone is cleared, and its buffer forgets what it holds. -/
def cleared (z : Nat) (s : HeldVolume) : HeldVolume :=
  { s with
    bits := Function.update s.bits (s.zoneNr z) false,
    block := Function.update s.block z (s.stored z) }

/-- `free_block`. It leaves a reference on a buffer that somebody else holds. -/
def freeBlock (z : Nat) : Program HeldVolume Unit := fun s =>
  if z < s.firstDataZone ∨ s.nzones ≤ z then none
  else if s.count z ≠ 0 then some ((), { s with
    count := Function.update s.count z (s.count z + 1) })
  else if s.bits (s.zoneNr z) then some ((), s.cleared z)
  else none

/-- The buffer of a block is named by its number. -/
def ops : FreeOps HeldVolume where
  inode i := fun s => some (s.inodeTable i, s)
  modifyInode i f :=
    fun s => some ((), { s with inodeTable := Function.update s.inodeTable i (f (s.inodeTable i)) })
  bread _ z := fun s =>
    if s.readable z then
      some (some z, { s with count := Function.update s.count z (s.count z + 1) })
    else some (none, s)
  data bh := fun s => some (s.block bh, s)
  brelse bh := fun s =>
    if s.count bh = 0 then none else
      some ((), { s with count := Function.update s.count bh (s.count bh - 1) })
  freeBlock _ z := freeBlock z

end HeldVolume

/-- The zones of a tree with index blocks of a depth. An index block stands behind what it lists. -/
def treeZones (block : Nat → Block) : Nat → Nat → List Nat
  | 0, z => if z = 0 then [] else [z]
  | n + 1, z =>
    if z = 0 then [] else
      (List.range 512).flatMap (fun j => treeZones block n (getBits (block z) (16 * j) 16)) ++ [z]

def treeIndex (block : Nat → Block) : Nat → Nat → List Nat
  | 0, _ => []
  | n + 1, z =>
    if z = 0 then [] else
      z :: (List.range 512).flatMap fun j => treeIndex block n (getBits (block z) (16 * j) 16)

/-- The direct, the indirect and the double-indirect zones of a file with the index blocks. -/
def fileZones (block : Nat → Block) (n : MInode) : List Nat :=
  (List.range 7).flatMap (fun k => treeZones block 0 (n.iZone k)) ++
    (treeZones block 1 (n.iZone 7) ++ treeZones block 2 (n.iZone 8))

def fileIndex (block : Nat → Block) (n : MInode) : List Nat :=
  treeIndex block 1 (n.iZone 7) ++ treeIndex block 2 (n.iZone 8)

section

variable {block block' : Nat → Block}

theorem tree_congr {n z : Nat} (h : ∀ w ∈ treeZones block n z, block' w = block w) :
    treeZones block' n z = treeZones block n z ∧ treeIndex block' n z = treeIndex block n z := by
  induction n generalizing z with
  | zero => exact ⟨rfl, rfl⟩
  | succ n ih =>
    rw [treeZones, treeZones, treeIndex, treeIndex]
    by_cases hz : z = 0
    · simp only [if_pos hz, and_self]
    · rw [treeZones, if_neg hz] at h
      have hself : block' z = block z := h z (List.mem_append_right _ List.mem_cons_self)
      have hsub : ∀ j < 512, treeZones block' n (getBits (block z) (16 * j) 16) =
          treeZones block n (getBits (block z) (16 * j) 16) ∧
            treeIndex block' n (getBits (block z) (16 * j) 16) =
              treeIndex block n (getBits (block z) (16 * j) 16) := fun j hj =>
        ih fun w hw => h w (List.mem_append_left _
          (List.mem_flatMap.mpr ⟨j, List.mem_range.mpr hj, hw⟩))
      rw [if_neg hz, if_neg hz, if_neg hz, if_neg hz, hself]
      exact ⟨congrArg (· ++ [z]) (List.flatMap_congr fun j hj => (hsub j (List.mem_range.mp hj)).1),
        congrArg (z :: ·) (List.flatMap_congr fun j hj => (hsub j (List.mem_range.mp hj)).2)⟩

end

namespace HeldVolume

/-- The zones are distinct and allocated, and nobody holds their buffers. -/
structure Owned (s : HeldVolume) (l : List Nat) : Prop where
  distinct : l.Nodup
  inside : ∀ z ∈ l, s.firstDataZone ≤ z ∧ z < s.nzones
  allocated : ∀ z ∈ l, s.bits (s.zoneNr z) = true
  unheld : ∀ z ∈ l, s.count z = 0

/-- The bits of the zones are cleared, and no others. -/
structure Freed (l : List Nat) (s s' : HeldVolume) : Prop where
  bits : ∀ n, s'.bits n = if n ∈ l.map s.zoneNr then false else s.bits n
  block : ∀ w ∉ l, s'.block w = s.block w
  count : s'.count = s.count
  first : s'.firstDataZone = s.firstDataZone
  nzones : s'.nzones = s.nzones
  readable : s'.readable = s.readable

section

variable {s s' s'' : HeldVolume} {l l' : List Nat}

theorem zoneNr_inj {z w : Nat} (hz : s.firstDataZone ≤ z) (hw : s.firstDataZone ≤ w)
    (h : s.zoneNr z = s.zoneNr w) : z = w := by
  unfold zoneNr at h
  omega

theorem Freed.zoneNr (h : Freed l s s') : s'.zoneNr = s.zoneNr := by
  funext z
  rw [HeldVolume.zoneNr, HeldVolume.zoneNr, h.first]

theorem Freed.nil (s : HeldVolume) : Freed [] s s :=
  ⟨fun _ => rfl, fun _ _ => rfl, rfl, rfl, rfl, rfl⟩

theorem Freed.append (h : Freed l s s') (h' : Freed l' s' s'') : Freed (l ++ l') s s'' := by
  refine ⟨fun n => ?_, fun w hw => ?_, h'.count.trans h.count, h'.first.trans h.first,
    h'.nzones.trans h.nzones, h'.readable.trans h.readable⟩
  · rw [h'.bits, h.bits, h.zoneNr, List.map_append]
    by_cases hl' : n ∈ l'.map s.zoneNr
    · rw [if_pos hl', if_pos (List.mem_append_right _ hl')]
    · rw [if_neg hl']
      refine ite_congr (propext ⟨List.mem_append_left _,
        fun hm => (List.mem_append.mp hm).resolve_right hl'⟩) (fun _ => rfl) fun _ => rfl
  · rw [List.mem_append, not_or] at hw
    rw [h'.block w hw.2, h.block w hw.1]

theorem Freed.inode (h : Freed l s s') (table : Nat → MInode) :
    Freed l s { s' with inodeTable := table } :=
  ⟨h.bits, h.block, h.count, h.first, h.nzones, h.readable⟩

theorem Owned.left (h : Owned s (l ++ l')) : Owned s l :=
  ⟨(List.nodup_append.mp h.distinct).1, fun z hz => h.inside z (List.mem_append_left _ hz),
    fun z hz => h.allocated z (List.mem_append_left _ hz),
    fun z hz => h.unheld z (List.mem_append_left _ hz)⟩

theorem Owned.rest (h : Owned s (l ++ l')) (hf : Freed l s s') : Owned s' l' := by
  obtain ⟨-, hnodup, hdisjoint⟩ := List.nodup_append.mp h.distinct
  refine ⟨hnodup, fun z hz => ?_, fun z hz => ?_, fun z hz => ?_⟩
  · rw [hf.first, hf.nzones]
    exact h.inside z (List.mem_append_right _ hz)
  · rw [hf.bits, hf.zoneNr, if_neg, h.allocated z (List.mem_append_right _ hz)]
    intro hm
    obtain ⟨w, hw, he⟩ := List.mem_map.mp hm
    have hwz :=
      zoneNr_inj (h.inside w (List.mem_append_left _ hw)).1
        (h.inside z (List.mem_append_right _ hz)).1 he
    exact hdisjoint w hw z hz hwz
  · rw [hf.count]
    exact h.unheld z (List.mem_append_right _ hz)

theorem Owned.tree {n z : Nat} (h : Owned s (l ++ treeZones s.block n z)) (hf : Freed l s s') :
    treeZones s'.block n z = treeZones s.block n z ∧
      treeIndex s'.block n z = treeIndex s.block n z :=
  tree_congr fun w hw => hf.block w fun hm => (List.nodup_append.mp h.distinct).2.2 w hm w hw rfl

theorem freeBlock_freed {z : Nat} (h : Owned s [z]) :
    ∃ s', freeBlock z s = some ((), s') ∧ Freed [z] s s' ∧ s'.inodeTable = s.inodeTable := by
  have hz := List.mem_singleton_self z
  have hin := h.inside z hz
  refine ⟨s.cleared z, by rw [freeBlock, if_neg (by omega), if_neg (not_not.mpr (h.unheld z hz)),
    if_pos (h.allocated z hz)], ⟨fun n => ?_, fun w hw => ?_, rfl, rfl, rfl, rfl⟩, rfl⟩
  · show Function.update s.bits (s.zoneNr z) false n = _
    rw [List.map_singleton, Function.update_apply]
    simp only [List.mem_singleton]
  · exact Function.update_of_ne (fun he => hw (List.mem_singleton.mpr he)) _ _

/-- What `free` does with the tree of a zone. -/
def Frees (n : Nat) (free : Nat → Program HeldVolume Unit) : Prop :=
  ∀ s z, z ≠ 0 → Owned s (treeZones s.block n z) →
    (∀ w ∈ treeIndex s.block n z, s.readable w = true) →
      ∃ s', free z s = some ((), s') ∧ Freed (treeZones s.block n z) s s' ∧
        s'.inodeTable = s.inodeTable

theorem freeBlock_frees : Frees 0 freeBlock := by
  intro s z hz ho _
  rw [treeZones, if_neg hz] at ho ⊢
  exact freeBlock_freed ho

/-- The trees that an index block lists up to entry `m`. -/
def listed (block : Nat → Block) (n z m : Nat) : List Nat :=
  (List.range m).flatMap fun j => treeZones block n (getBits (block z) (16 * j) 16)

theorem listed_succ (block : Nat → Block) (n z m : Nat) :
    listed block n z (m + 1) = listed block n z m ++
      treeZones block n (getBits (block z) (16 * m) 16) := by
  rw [listed, List.range_succ, List.flatMap_append, List.flatMap_singleton]
  rfl

theorem freeEntries_frees {n : Nat} {free : Nat → Program HeldVolume Unit} (hfree : Frees n free)
    {z m : Nat} (ho : Owned s (listed s.block n z m)) (hz : z ∉ listed s.block n z m)
    (hread : ∀ j < m, ∀ w ∈ treeIndex s.block n (getBits (s.block z) (16 * j) 16),
      s.readable w = true) :
    ∃ s', ops.freeEntries free z m s = some ((), s') ∧ Freed (listed s.block n z m) s s' ∧
      s'.inodeTable = s.inodeTable := by
  induction m with
  | zero => exact ⟨s, rfl, Freed.nil s, rfl⟩
  | succ m ih =>
    rw [listed_succ] at ho hz ⊢
    rw [List.mem_append, not_or] at hz
    obtain ⟨s₁, he₁, hf₁, hi₁⟩ := ih ho.left hz.1 fun j hj => hread j (Nat.lt_succ_of_lt hj)
    have hentry : getBits (s₁.block z) (16 * m) 16 = getBits (s.block z) (16 * m) 16 := by
      rw [hf₁.block z hz.1]
    rw [FreeOps.freeEntries, Program.bind_of_eq he₁,
      Program.bind_of_eq (a := s₁.block z) (t := s₁) rfl, hentry]
    by_cases h0 : getBits (s.block z) (16 * m) 16 = 0
    · have hnil : treeZones s.block n (getBits (s.block z) (16 * m) 16) = [] := by
        rw [h0]
        cases n <;> exact if_pos rfl
      rw [if_neg (not_not.mpr h0), hnil, List.append_nil]
      exact ⟨s₁, rfl, hf₁, hi₁⟩
    · obtain ⟨hzones, hindex⟩ := ho.tree hf₁
      have ho₁ := ho.rest hf₁
      rw [← hzones] at ho₁
      obtain ⟨s₂, he₂, hf₂, hi₂⟩ := hfree s₁ _ h0 ho₁ fun w hw => by
        rw [hindex] at hw
        rw [hf₁.readable]
        exact hread m (Nat.lt_succ_self m) w hw
      rw [if_pos h0]
      rw [hzones] at hf₂
      exact ⟨s₂, he₂, hf₁.append hf₂, hi₂.trans hi₁⟩

/-- The index block is held while its children are freed, and it is released before it is freed itself. -/
theorem freeIndex_frees {n : Nat} {free : Nat → Nat → Program HeldVolume Unit}
    (hfree : ∀ dev, Frees n (free dev)) (dev : Nat) : Frees (n + 1) (ops.freeIndex free dev) := by
  intro s z hz ho hread
  rw [treeZones, if_neg hz] at ho ⊢
  rw [treeIndex, if_neg hz] at hread
  -- `t` is `s` with a reference on the index block
  let t : HeldVolume := { s with count := Function.update s.count z (s.count z + 1) }
  have hout : z ∉ listed s.block n z 512 :=
    fun hm => (List.nodup_append.mp ho.distinct).2.2 z hm z List.mem_cons_self rfl
  have hcount : s.count z = 0 := ho.unheld z (List.mem_append_right _ List.mem_cons_self)
  have hot : Owned t (listed t.block n z 512) :=
    ⟨ho.left.distinct, ho.left.inside, ho.left.allocated, fun w hw => by
      have hne : w ≠ z := by
        intro he
        rw [he] at hw
        exact hout hw
      exact (Function.update_of_ne hne _ _).trans (ho.left.unheld w hw)⟩
  obtain ⟨t', het, hft, hit⟩ := freeEntries_frees (hfree dev) hot hout fun j hj w hw =>
    hread w (List.mem_cons_of_mem _ (List.mem_flatMap.mpr ⟨j, List.mem_range.mpr hj, hw⟩))
  have hheld : t'.count z = 1 := by
    rw [hft.count]
    exact (Function.update_self _ _ _).trans (by rw [hcount])
  -- `u` is `t'` without it
  let u : HeldVolume := { t' with count := Function.update t'.count z (t'.count z - 1) }
  have hcounts : u.count = s.count := by
    show Function.update t'.count z (t'.count z - 1) = s.count
    rw [hheld, hft.count]
    show Function.update (Function.update s.count z _) z 0 = s.count
    rw [Function.update_idem, ← hcount, Function.update_eq_self]
  have hlisted : ops.freeListed (free dev) dev z s = some ((), u) := by
    rw [FreeOps.freeListed]
    have hbread : ops.bread dev z s = some (some z, t) := if_pos (hread z List.mem_cons_self)
    rw [Program.bind_of_eq hbread]
    dsimp only
    rw [Program.bind_of_eq het]
    exact if_neg (by rw [hheld]; exact Nat.one_ne_zero)
  have hfu : Freed (listed s.block n z 512) s u :=
    ⟨hft.bits, hft.block, hcounts, hft.first, hft.nzones, hft.readable⟩
  obtain ⟨s', he, hf, hi⟩ := freeBlock_freed (ho.rest hfu)
  refine ⟨s', ?_, hfu.append hf, hi.trans hit⟩
  rw [FreeOps.freeIndex, if_pos hz, Program.bind_of_eq hlisted]
  exact he

theorem freeInd_frees (dev : Nat) : Frees 1 (ops.freeInd dev) :=
  freeIndex_frees (fun _ => freeBlock_frees) dev

theorem freeDind_frees (dev : Nat) : Frees 2 (ops.freeDind dev) := freeIndex_frees freeInd_frees dev

theorem freeIndex_zones {n : Nat} {free : Nat → Nat → Program HeldVolume Unit} {dev : Nat}
    (hfree : Frees (n + 1) (ops.freeIndex free dev)) {z : Nat}
    (ho : Owned s (treeZones s.block (n + 1) z))
    (hread : ∀ w ∈ treeIndex s.block (n + 1) z, s.readable w = true) :
    ∃ s', ops.freeIndex free dev z s = some ((), s') ∧ Freed (treeZones s.block (n + 1) z) s s' ∧
      s'.inodeTable = s.inodeTable := by
  by_cases hz : z = 0
  · subst hz
    exact ⟨s, rfl, Freed.nil s, rfl⟩
  · exact hfree s z hz ho hread

theorem Freed.index {s₁ : HeldVolume} {n : Nat} {free : Nat → Nat → Program HeldVolume Unit}
    {dev : Nat} (hfree : Frees (n + 1) (ops.freeIndex free dev)) {z : Nat}
    (ho : Owned s (l ++ treeZones s.block (n + 1) z)) (hf : Freed l s s₁)
    (hread : ∀ w ∈ treeIndex s.block (n + 1) z, s.readable w = true) :
    ∃ s₂, ops.freeIndex free dev z s₁ = some ((), s₂) ∧
      Freed (l ++ treeZones s.block (n + 1) z) s s₂ ∧ s₂.inodeTable = s₁.inodeTable := by
  obtain ⟨hzones, hindex⟩ := ho.tree hf
  have ho₁ := ho.rest hf
  rw [← hzones] at ho₁
  obtain ⟨s₂, he, hf₂, hi⟩ := freeIndex_zones hfree ho₁ fun w hw => by
    rw [hindex] at hw
    rw [hf.readable]
    exact hread w hw
  rw [hzones] at hf₂
  exact ⟨s₂, he, hf.append hf₂, hi⟩

/-- The direct zones up to zone `m`. -/
def direct (block : Nat → Block) (n : MInode) (m : Nat) : List Nat :=
  (List.range m).flatMap fun k => treeZones block 0 (n.iZone k)

theorem direct_succ (block : Nat → Block) (n : MInode) (m : Nat) :
    direct block n (m + 1) = direct block n m ++ treeZones block 0 (n.iZone m) := by
  rw [direct, List.range_succ, List.flatMap_append, List.flatMap_singleton]
  rfl

theorem freeDirect_freed {i m : Nat} (ho : Owned s (direct s.block (s.inodeTable i) m)) :
    ∃ s', ops.freeDirect i m s = some ((), s') ∧ Freed (direct s.block (s.inodeTable i) m) s s' ∧
      s'.inodeTable = Function.update s.inodeTable i
        { s.inodeTable i with
          iZone := fun k => if k < m then 0 else (s.inodeTable i).iZone k } := by
  induction m with
  | zero =>
    refine ⟨s, rfl, Freed.nil s, ?_⟩
    simp only [Nat.not_lt_zero, if_false, Function.update_eq_self]
  | succ m ih =>
    rw [direct_succ] at ho ⊢
    obtain ⟨s₁, he₁, hf₁, hi₁⟩ := ih ho.left
    have hnode : s₁.inodeTable i = { s.inodeTable i with
      iZone := fun k => if k < m then 0 else (s.inodeTable i).iZone k } := by
      rw [hi₁, Function.update_self]
    have hzone : (s₁.inodeTable i).iZone m = (s.inodeTable i).iZone m := by
      rw [hnode]
      exact if_neg (Nat.lt_irrefl m)
    rw [FreeOps.freeDirect, Program.bind_of_eq he₁,
      Program.bind_of_eq (a := s₁.inodeTable i) (t := s₁) rfl, hzone]
    by_cases hz : (s.inodeTable i).iZone m = 0
    · have hsame : (fun k => if k < m then 0 else (s.inodeTable i).iZone k) = fun k =>
        if k < m + 1 then 0 else (s.inodeTable i).iZone k := by
        funext k
        by_cases hk : k = m
        · rw [hk, if_neg (Nat.lt_irrefl m), if_pos (Nat.lt_succ_self m), hz]
        · exact ite_congr (propext (by omega)) (fun _ => rfl) fun _ => rfl
      rw [if_neg (not_not.mpr hz), treeZones, if_pos hz, List.append_nil]
      exact ⟨s₁, rfl, hf₁, by rw [hi₁, hsame]⟩
    · have ho₁ := ho.rest hf₁
      rw [if_pos hz]
      rw [treeZones, if_neg hz] at ho₁ ⊢
      obtain ⟨s₂, he₂, hf₂, hi₂⟩ := freeBlock_freed ho₁
      have hstep : Function.update (fun k => if k < m then 0 else (s.inodeTable i).iZone k) m 0 =
          fun k => if k < m + 1 then 0 else (s.inodeTable i).iZone k := by
        funext k
        by_cases hk : k = m
        · rw [hk, Function.update_self, if_pos (Nat.lt_succ_self m)]
        · rw [Function.update_of_ne hk]
          exact ite_congr (propext (by omega)) (fun _ => rfl) fun _ => rfl
      have hblock : ops.freeBlock (s₁.inodeTable i).iDev ((s.inodeTable i).iZone m) s₁ =
        some ((), s₂) := he₂
      rw [Program.bind_of_eq hblock]
      refine ⟨_, rfl, (hf₁.append hf₂).inode _, ?_⟩
      show Function.update s₂.inodeTable i { s₂.inodeTable i with
        iZone := Function.update (s₂.inodeTable i).iZone m 0 } = _
      rw [hi₂, hnode, hi₁, Function.update_idem, hstep]

theorem zones_cleared (zone : Nat → Nat) {k : Nat} (hk : k < 9) :
    Function.update (Function.update (fun k => if k < 7 then 0 else zone k) 8 0) 7 0 k = 0 := by
  by_cases h7 : k = 7
  · rw [h7, Function.update_self]
  by_cases h8 : k = 8
  · rw [h8, Function.update_of_ne (by decide), Function.update_self]
  · rw [Function.update_of_ne h7, Function.update_of_ne h8]
    exact if_pos (by omega)

/-- `truncate` does not panic. It clears the bits of the zones of the file and no others,
and it keeps no buffer. -/
theorem truncate_freed {i : Nat} (hmode : isReg (s.inodeTable i).iMode = true ∨
    isDir (s.inodeTable i).iMode = true) (ho : Owned s (fileZones s.block (s.inodeTable i)))
    (hread : ∀ w ∈ fileIndex s.block (s.inodeTable i), s.readable w = true) :
    ∃ s', ops.truncate i s = some ((), s') ∧ (∀ n, s'.bits n =
      if n ∈ (fileZones s.block (s.inodeTable i)).map s.zoneNr then false else s.bits n) ∧
      (∀ k < 9, (s'.inodeTable i).iZone k = 0) ∧ (s'.inodeTable i).iSize = 0 ∧
      (s'.inodeTable i).iDirt = true ∧ s'.count = s.count := by
  have ho' :
    Owned s ((direct s.block (s.inodeTable i) 7 ++
      treeZones s.block 1 ((s.inodeTable i).iZone 7)) ++
        treeZones s.block 2 ((s.inodeTable i).iZone 8)) := by
    rw [List.append_assoc]
    exact ho
  obtain ⟨s₁, he₁, hf₁, hi₁⟩ := freeDirect_freed ho'.left.left
  have hnode : s₁.inodeTable i = { s.inodeTable i with
    iZone := fun k => if k < 7 then 0 else (s.inodeTable i).iZone k } := by
    rw [hi₁, Function.update_self]
  have hz₇ : (s₁.inodeTable i).iZone 7 = (s.inodeTable i).iZone 7 := by
    rw [hnode]
    rfl
  have hz₈ : (s₁.inodeTable i).iZone 8 = (s.inodeTable i).iZone 8 := by
    rw [hnode]
    rfl
  obtain ⟨s₂, he₂, hf₂, hi₂⟩ :=
    Freed.index (freeInd_frees (s.inodeTable i).iDev) ho'.left hf₁ fun w hw =>
    hread w (List.mem_append_left _ hw)
  obtain ⟨s₃, he₃, hf₃, hi₃⟩ :=
    Freed.index (freeDind_frees (s.inodeTable i).iDev) ho' hf₂ fun w hw =>
    hread w (List.mem_append_right _ hw)
  have hrun : ops.truncate i s = some ((), { s₃ with
      inodeTable := Function.update s₃.inodeTable i
        { s₃.inodeTable i with
          iZone := Function.update (Function.update (s₃.inodeTable i).iZone 8 0) 7 0
          iSize := 0, iDirt := true, iMtime := 0, iCtime := 0 } }) := by
    have hind : ops.freeInd (s.inodeTable i).iDev ((s.inodeTable i).iZone 7) s₁ = some ((), s₂) :=
      he₂
    have hdind : ops.freeDind (s.inodeTable i).iDev ((s.inodeTable i).iZone 8) s₂ = some ((), s₃) :=
      he₃
    rw [FreeOps.truncate, Program.bind_of_eq (a := s.inodeTable i) (t := s) rfl, if_pos hmode,
      Program.bind_of_eq he₁, Program.bind_of_eq (a := s₁.inodeTable i) (t := s₁) rfl, hz₇,
      Program.bind_of_eq hind, Program.bind_of_eq (a := s₂.inodeTable i) (t := s₂) rfl, hi₂, hz₈,
      Program.bind_of_eq hdind]
    rfl
  have hbits := hf₃.bits
  rw [List.append_assoc] at hbits
  refine ⟨_, hrun, hbits, fun k hk => ?_, ?_, ?_, hf₃.count⟩
  · show (Function.update s₃.inodeTable i _ i).iZone k = 0
    rw [Function.update_self, hi₃, hi₂, hnode]
    exact zones_cleared _ hk
  · show (Function.update s₃.inodeTable i _ i).iSize = 0
    rw [Function.update_self]
  · show (Function.update s₃.inodeTable i _ i).iDirt = true
    rw [Function.update_self]

end

/-- A file with a direct zone, and with one that its index block 6 lists. -/
def smallFile : HeldVolume where
  order := []
  firstDataZone := 5
  nzones := 9
  bits _ := true
  block z := if z = 6 then 7 else 0
  inodeTable _ :=
    { zeroInode with
      iMode := 0o100000, iSize := 8000, iZone := fun k => if k = 0 then 5
        else if k = 7 then 6 else 0 }
  count _ := 0
  readable _ := true
  stored _ := 0

theorem smallFile_zones : fileZones smallFile.block (smallFile.inodeTable 0) = [5, 7, 6] := by
  decide +kernel

theorem truncate_freed_small :
    ∃ s', ops.truncate 0 smallFile = some ((), s') ∧ s'.bits 3 = false ∧ s'.bits 4 = true := by
  have ho : Owned smallFile (fileZones smallFile.block (smallFile.inodeTable 0)) := by
    rw [smallFile_zones]
    exact ⟨by decide, by decide, fun _ _ => rfl, fun _ _ => rfl⟩
  obtain ⟨s', he, hbits, -⟩ := truncate_freed (.inl (by decide)) ho fun _ _ => rfl
  rw [smallFile_zones] at hbits
  exact ⟨s', he, (hbits 3).trans (by decide), (hbits 4).trans (by decide)⟩

end HeldVolume

end Gpos
