import Gpos.FileZones
import Gpos.TreeStorage

/-! The files of a volume over runs of `create_block`, `truncate` and stores into blocks that are
there: no zone is lost or used twice, and the blocks are those of a plain store of files. -/

namespace Gpos

open BlockMap Fs

/-- The places of a tree whose index blocks have `m` entries, in the order of `fileZones`. -/
def places (m : Nat) : List Place :=
  (List.range 7).map .zone ++ (((List.range m).map .ind ++ [.zone 7]) ++
    ((List.range m).flatMap (fun j => (List.range m).map (.leaf j) ++ [.dind j]) ++ [.zone 8]))

theorem mem_places {m : Nat} {p : Place} :
    p ∈ places m ↔ match p with
      | .zone i => i < 9
      | .ind j | .dind j => j < m
      | .leaf j k => j < m ∧ k < m := by
  cases p with
  | zone i => simp [places]; omega
  | ind j => simp [places]
  | dind j => simp [places]
  | leaf j k => simp [places]

theorem ok_iff_mem {p : Place} : p.Ok ↔ p ∈ places 512 := by
  rw [mem_places]
  cases p <;> exact Iff.rfl

theorem nodup_places (m : Nat) : (places m).Nodup := by
  have hmap : ∀ {f : Nat → Place} (q : Place), Function.Injective f → (∀ j, f j ≠ q) →
      ((List.range m).map f ++ [q]).Nodup := fun q hf hq =>
    List.nodup_append.mpr ⟨List.nodup_range.map hf, List.nodup_singleton _, fun a ha b hb he => by
      obtain ⟨j, -, rfl⟩ := List.mem_map.mp ha
      exact hq j (he.trans (List.mem_singleton.mp hb))⟩
  have hdouble : ((List.range m).flatMap fun j =>
      (List.range m).map (Place.leaf j) ++ [.dind j]).Nodup := by
    refine List.nodup_flatMap.mpr ⟨fun j _ => hmap _ (fun _ _ h => (Place.leaf.inj h).2) nofun,
      List.nodup_range.imp fun {j l} hjl p hp hq => ?_⟩
    simp only [List.mem_append, List.mem_map, List.mem_singleton] at hp hq
    rcases hp with ⟨k, -, rfl⟩ | rfl <;> rcases hq with ⟨k', -, he⟩ | he
    · exact hjl (Place.leaf.inj he).1.symm
    · exact Place.noConfusion he
    · exact Place.noConfusion he
    · exact hjl (Place.dind.inj he)
  have hind := hmap (.zone 7) (fun _ _ h => Place.ind.inj h) nofun
  refine List.nodup_append.mpr ⟨List.nodup_range.map fun _ _ h => Place.zone.inj h,
    List.nodup_append.mpr ⟨hind, List.nodup_append.mpr ⟨hdouble, List.nodup_singleton _, ?_⟩, ?_⟩,
    ?_⟩
  all_goals
    rintro p hp q hq rfl
    cases p <;> simp at hp hq <;> omega

section

variable {block : Nat → Block}

/-- The numbers of a list that are zones. -/
def zonesIn (l : List Nat) : List Nat := l.filter (· ≠ 0)

theorem zonesIn_append (l l' : List Nat) : zonesIn (l ++ l') = zonesIn l ++ zonesIn l' :=
  List.filter_append l l'

theorem zonesIn_flatMap {α : Type} (l : List α) (f : α → List Nat) :
    zonesIn (l.flatMap f) = l.flatMap fun x => zonesIn (f x) := List.filter_flatMap

theorem treeZones_leaf (z : Nat) : treeZones block 0 z = zonesIn [z] := by
  by_cases hz : z = 0
  · rw [treeZones, if_pos hz, hz]
    rfl
  · rw [treeZones, if_neg hz, zonesIn, List.filter_singleton, decide_eq_true hz]
    rfl

theorem treeZones_none (n : Nat) : treeZones block n 0 = [] := by
  cases n <;> exact if_pos rfl

theorem treeZones_index (v : Volume) (n z : Nat) : treeZones v.block (n + 1) z =
    (List.range 512).flatMap (fun j => treeZones v.block n (v.disk.entryOf z j)) ++
      zonesIn [z] := by
  by_cases hz : z = 0
  · have hentry : ∀ j, v.disk.entryOf z j = 0 := fun j => if_pos hz
    simp only [hentry, treeZones_none]
    rw [List.flatMap_eq_nil_iff.mpr fun _ _ => rfl, hz]
    exact treeZones_none _
  · have hentry : ∀ j, v.disk.entryOf z j = getBits (v.block z) (16 * j) 16 := fun j => if_neg hz
    rw [treeZones, if_neg hz, zonesIn, List.filter_singleton, decide_eq_true hz]
    simp only [hentry]
    rfl

theorem flatMap_leaf (l : List Nat) (f : Nat → Nat) :
    l.flatMap (fun j => treeZones block 0 (f j)) = zonesIn (l.map f) := by
  rw [List.map_eq_flatMap, zonesIn_flatMap]
  exact List.flatMap_congr fun j _ => treeZones_leaf (f j)

/-- The zones of a file are those at the places of its tree. -/
theorem fileZones_eq (v : Volume) (i : Nat) :
    fileZones v.block (v.inodeTable i) = zonesIn ((places 512).map (v.disk.ref i)) := by
  have hone : ∀ z, treeZones v.block 1 z =
      zonesIn ((List.range 512).map (v.disk.entryOf z) ++ [z]) := fun z => by
    rw [treeZones_index, zonesIn_append, flatMap_leaf]
  have htwo : ∀ z, treeZones v.block 2 z = zonesIn ((List.range 512).flatMap (fun j =>
      (List.range 512).map (v.disk.entryOf (v.disk.entryOf z j)) ++ [v.disk.entryOf z j]) ++
        [z]) := fun z => by
    rw [treeZones_index, zonesIn_append, zonesIn_flatMap]
    simp only [hone]
  rw [fileZones, flatMap_leaf, hone, htwo]
  simp only [places, zonesIn_append, List.map_append, List.map_flatMap, List.map_map,
    List.map_cons, List.map_nil]
  rfl

end

namespace HeldVolume

/-- The map agrees with the trees, every block can be read, and nobody holds a buffer. -/
structure Kept (s : HeldVolume) : Prop where
  exact : s.disk.Exact
  fits : s.Fits
  readable : ∀ z, s.readable z = true
  unheld : ∀ z, s.count z = 0

section

variable {s s' : HeldVolume} {i : Nat}

theorem mem_fileZones {w : Nat} :
    w ∈ fileZones s.block (s.inodeTable i) ↔ w ≠ 0 ∧ ∃ p : Place, p.Ok ∧ s.disk.ref i p = w := by
  rw [fileZones_eq, zonesIn, List.mem_filter, List.mem_map, decide_eq_true_iff]
  simp only [ok_iff_mem]
  exact and_comm

theorem Kept.owned (h : Kept s) (i : Nat) : Owned s (fileZones s.block (s.inodeTable i)) := by
  have ht := h.exact.trees
  refine ⟨?_, fun z hz => ?_, fun z hz => ?_, fun z _ => h.unheld z⟩
  · rw [fileZones_eq]
    refine List.pairwise_filter.mpr (List.pairwise_map.mpr ?_)
    refine (nodup_places 512).imp_of_mem fun {p q} hp hq hpq hne _ heq => hpq ?_
    rw [decide_eq_true_iff] at hne
    exact (ht.distinct i p i q (ok_iff_mem.mpr hp) (ok_iff_mem.mpr hq) hne heq).2
  · obtain ⟨hne, p, hp, rfl⟩ := mem_fileZones.mp hz
    exact ⟨(ht.used i p hp hne).1, h.exact.inside i p hp hne⟩
  · obtain ⟨hne, p, hp, rfl⟩ := mem_fileZones.mp hz
    exact (ht.used i p hp hne).2

end

/-! What `truncate` leaves alone -/

abbrev searchOrder (s : HeldVolume) : List Nat := s.order

theorem keeps_freeBlock (z : Nat) : Program.Keeps searchOrder (freeBlock z) := by
  intro s a t h
  unfold freeBlock at h
  split at h
  · cases h
  · split at h
    · cases h
      rfl
    · split at h
      · cases h
        rfl
      · cases h

theorem keeps_freeEntries {free : Nat → Program HeldVolume Unit}
    (hfree : ∀ z, Program.Keeps searchOrder (free z)) (bh n : Nat) :
    Program.Keeps searchOrder (ops.freeEntries free bh n) := by
  induction n with
  | zero => exact .pure ()
  | succ n ih =>
    exact ih.bind fun _ => (Program.Keeps.read _).bind fun b => .ite (hfree _) (.pure ())

theorem keeps_freeIndex {free : Nat → Nat → Program HeldVolume Unit}
    (hfree : ∀ dev z, Program.Keeps searchOrder (free dev z)) (dev z : Nat) :
    Program.Keeps searchOrder (ops.freeIndex free dev z) := by
  have hbread : Program.Keeps searchOrder (ops.bread dev z) := by
    intro s a t h
    change (if s.readable z then _ else _ : Option (Option Nat × HeldVolume)) = _ at h
    split at h <;> cases h <;> rfl
  have hbrelse : ∀ bh, Program.Keeps searchOrder (ops.brelse bh) := by
    intro bh s a t h
    change (if s.count bh = 0 then _ else _ : Option (Unit × HeldVolume)) = _ at h
    split at h <;> cases h
    rfl
  refine .ite (Program.Keeps.bind (hbread.bind fun x => ?_) fun _ => keeps_freeBlock z) (.pure ())
  cases x with
  | none => exact .pure ()
  | some bh => exact (keeps_freeEntries (hfree dev) bh 512).bind fun _ => hbrelse bh

theorem keeps_modifyInode (i : Nat) (f : MInode → MInode) :
    Program.Keeps searchOrder (ops.modifyInode i f) := by
  intro s a t h
  cases h
  rfl

theorem keeps_freeDirect (i n : Nat) : Program.Keeps searchOrder (ops.freeDirect i n) := by
  induction n with
  | zero => exact .pure ()
  | succ n ih =>
    exact ih.bind fun _ => (Program.Keeps.read _).bind fun n => .ite
      ((keeps_freeBlock _).bind fun _ => keeps_modifyInode i _) (.pure ())

theorem keeps_truncate (i : Nat) : Program.Keeps searchOrder (ops.truncate i) := by
  have hread : Program.Keeps searchOrder (ops.inode i) := Program.Keeps.read _
  have hind : ∀ dev z, Program.Keeps searchOrder (ops.freeInd dev z) :=
    keeps_freeIndex fun _ => keeps_freeBlock
  refine hread.bind fun n => .ite ((keeps_freeDirect i 7).bind fun _ => hread.bind fun n' =>
    (hind _ _).bind fun _ => hread.bind fun n'' => ?_) (.pure ())
  exact (keeps_freeIndex hind _ _).bind fun _ => keeps_modifyInode i _

section

variable {s s' : HeldVolume} {i : Nat}

/-- `truncate` frees the zones of the file, and forgets them. -/
theorem truncate_run (hmode : isReg (s.inodeTable i).iMode = true ∨
    isDir (s.inodeTable i).iMode = true) (ho : Owned s (fileZones s.block (s.inodeTable i)))
    (hread : ∀ w, s.readable w = true) :
    ∃ s', ops.truncate i s = some ((), s') ∧
      Freed (fileZones s.block (s.inodeTable i)) s s' ∧ s'.order = s.order ∧
      (∀ m ≠ i, s'.inodeTable m = s.inodeTable m) ∧ (∀ k < 9, (s'.inodeTable i).iZone k = 0) ∧
      (s'.inodeTable i).iMode = (s.inodeTable i).iMode := by
  have ho' : Owned s ((direct s.block (s.inodeTable i) 7 ++
      treeZones s.block 1 ((s.inodeTable i).iZone 7)) ++
        treeZones s.block 2 ((s.inodeTable i).iZone 8)) := by
    rw [List.append_assoc]
    exact ho
  obtain ⟨s₁, he₁, hf₁, hi₁⟩ := freeDirect_freed ho'.left.left
  obtain ⟨s₂, he₂, hf₂, hi₂⟩ :=
    Freed.index (freeInd_frees (s.inodeTable i).iDev) ho'.left hf₁ fun w _ => hread w
  obtain ⟨s₃, he₃, hf₃, hi₃⟩ :=
    Freed.index (freeDind_frees (s.inodeTable i).iDev) ho' hf₂ fun w _ => hread w
  have hnode : s₁.inodeTable i = { s.inodeTable i with
      iZone := fun k => if k < 7 then 0 else (s.inodeTable i).iZone k } := by
    rw [hi₁, Function.update_self]
  let s' : HeldVolume := { s₃ with
      inodeTable := Function.update s₃.inodeTable i
        { s₃.inodeTable i with
          iZone := Function.update (Function.update (s₃.inodeTable i).iZone 8 0) 7 0
          iSize := 0, iDirt := true, iMtime := 0, iCtime := 0 } }
  have hrun : ops.truncate i s = some ((), s') := by
    have hz₇ : (s₁.inodeTable i).iZone 7 = (s.inodeTable i).iZone 7 := by
      rw [hnode]
      rfl
    have hz₈ : (s₁.inodeTable i).iZone 8 = (s.inodeTable i).iZone 8 := by
      rw [hnode]
      rfl
    have hind : ops.freeInd (s.inodeTable i).iDev ((s.inodeTable i).iZone 7) s₁ = some ((), s₂) :=
      he₂
    have hdind : ops.freeDind (s.inodeTable i).iDev ((s.inodeTable i).iZone 8) s₂ =
        some ((), s₃) := he₃
    rw [FreeOps.truncate, Program.bind_of_eq (a := s.inodeTable i) (t := s) rfl, if_pos hmode,
      Program.bind_of_eq he₁, Program.bind_of_eq (a := s₁.inodeTable i) (t := s₁) rfl, hz₇,
      Program.bind_of_eq hind, Program.bind_of_eq (a := s₂.inodeTable i) (t := s₂) rfl, hi₂, hz₈,
      Program.bind_of_eq hdind]
    rfl
  have hself : s'.inodeTable i = { s₃.inodeTable i with
      iZone := Function.update (Function.update (s₃.inodeTable i).iZone 8 0) 7 0
      iSize := 0, iDirt := true, iMtime := 0, iCtime := 0 } := Function.update_self _ _ _
  have htable : s₃.inodeTable = s₁.inodeTable := hi₃.trans hi₂
  refine ⟨s', hrun, ?_, keeps_truncate i s () s' hrun, fun m hm => ?_, fun k hk => ?_, ?_⟩
  · rw [List.append_assoc] at hf₃
    exact hf₃.inode _
  · show Function.update s₃.inodeTable i _ m = _
    rw [Function.update_of_ne hm, htable, hi₁, Function.update_of_ne hm]
  · rw [hself, htable, hnode]
    exact zones_cleared _ hk
  · rw [hself, htable, hnode]

end

end HeldVolume

/-- A store puts a whole block into the buffer of a block that is there. -/
inductive StorageCall
  | createBlock (i k : Nat)
  | truncate (i : Nat)
  | store (i k : Nat) (b : Block)

/-- Every file is a partial function from block numbers to blocks. -/
structure FileStore where
  block : Nat → Nat → Option Block
  full : Prop

namespace FileStore

def put (f : FileStore) (i k : Nat) (x : Option Block) (m l : Nat) : Option Block :=
  if m = i ∧ l = k then x else f.block m l

/-- When a block cannot be created no zone is left; its index blocks may have taken the last. -/
inductive Step : StorageCall → FileStore → FileStore → Prop
  | found {i k : Nat} {f : FileStore} (h : f.block i k ≠ none) : Step (.createBlock i k) f f
  | created {i k : Nat} {f g : FileStore} (h : f.block i k = none) (hf : ¬ f.full)
      (hg : g.block = f.put i k (some 0)) : Step (.createBlock i k) f g
  | noRoom {i k : Nat} {f g : FileStore} (h : f.block i k = none) (hf : g.full)
      (hg : g.block = f.block) : Step (.createBlock i k) f g
  | truncated {i : Nat} {f g : FileStore} (hf : ∀ k, f.block i k ≠ none → ¬ g.full)
      (hg : g.block = Function.update f.block i fun _ => none) : Step (.truncate i) f g
  | stored {i k : Nat} {b : Block} {f g : FileStore} (hf : g.full = f.full)
      (hg : g.block = f.put i k ((f.block i k).map fun _ => b)) : Step (.store i k b) f g

end FileStore

namespace HeldVolume

def step : StorageCall → HeldVolume → Option HeldVolume
  | .createBlock i k, s => (createBlock Volume.ops i k s.toVolume).map fun r =>
    { s with toVolume := r.2 }
  | .truncate i, s => (ops.truncate i s).map Prod.snd
  | .store i k b, s => (bmap Volume.ops i k s.toVolume).map fun r =>
    if r.1 = 0 then s else { s with toVolume := r.2.setBlock r.1 b }

def files (s : HeldVolume) : FileStore where
  block i k := if k < maxBlocks ∧ s.zoneAt i k ≠ 0 then some (s.block (s.zoneAt i k)) else none
  full := s.disk.Full

/-- `create_block` panics when the block is too big, and `truncate` leaves the inodes of devices
alone. -/
def Allowed (s : HeldVolume) : StorageCall → Prop
  | .createBlock _ k | .store _ k _ => k < maxBlocks
  | .truncate i => isReg (s.inodeTable i).iMode = true ∨ isDir (s.inodeTable i).iMode = true

/-- What a call makes of the files and the map. -/
def Refined (c : StorageCall) (s : HeldVolume) : Prop :=
  ∃ t, step c s = some t ∧ Kept t ∧ (∀ m, (t.inodeTable m).iMode = (s.inodeTable m).iMode) ∧
    FileStore.Step c s.files t.files

section

variable {s t : HeldVolume} {i k m l : Nat} {b : Block}

theorem files_none (h : s.zoneAt i k = 0) : s.files.block i k = none := if_neg fun hc => hc.2 h

theorem files_some (hk : k < maxBlocks) (h : s.zoneAt i k ≠ 0) :
    s.files.block i k = some (s.block (s.zoneAt i k)) := if_pos ⟨hk, h⟩

theorem zone_of_files (h : s.files.block i k ≠ none) : k < maxBlocks ∧ s.zoneAt i k ≠ 0 := by
  by_contra hc
  exact h (if_neg hc)

theorem files_congr (hz : l < maxBlocks → t.zoneAt m l = s.zoneAt m l)
    (hb : l < maxBlocks → s.zoneAt m l ≠ 0 → t.block (s.zoneAt m l) = s.block (s.zoneAt m l)) :
    t.files.block m l = s.files.block m l := by
  by_cases hl : l < maxBlocks
  · by_cases h0 : s.zoneAt m l = 0
    · rw [files_none h0, files_none ((hz hl).trans h0)]
    · rw [files_some hl h0, files_some hl (by rwa [hz hl]), hz hl, hb hl h0]
  · exact (if_neg fun hc => hl hc.1).trans (if_neg fun hc => hl hc.1).symm

theorem Kept.ok (h : Kept s) : s.toVolume.Ok := ⟨h.exact.trees, h.fits⟩

theorem Kept.createBlock (h : Kept s) (hk : k < maxBlocks) : Refined (.createBlock i k) s := by
  obtain ⟨z, d', hd, hf⟩ := Disk.createBlock_filled h.exact i hk
  have hsim := (Volume.simulates.bmapCreate true i k s.toVolume h.fits).1
  obtain ⟨⟨z, v'⟩, hv, he⟩ := Option.map_eq_some_iff.mp (hsim.trans hd)
  cases he
  have hc := Volume.createBlock_created h.ok hv
  let t : HeldVolume := { s with toVolume := v' }
  refine ⟨t, congrArg (Option.map _) hv, ⟨hf.exact, hc.ok.fits, h.readable, h.unheld⟩,
    fun m => ?_, ?_⟩
  · have hrest : (v'.rest m).iMode = (s.rest m).iMode := by rw [hc.rest]
    exact hrest
  by_cases hz : s.zoneAt i k = 0
  · have hother : ∀ m l, ¬ (m = i ∧ l = k) → t.files.block m l = s.files.block m l :=
      fun m l hne => files_congr (fun hl => hc.others m l hl hne) fun hl => hc.block m l hl
    by_cases h0 : z = 0
    · refine .noRoom (files_none hz) (hf.full h0) (funext₂ fun m l => ?_)
      by_cases hm : m = i ∧ l = k
      · obtain ⟨rfl, rfl⟩ := hm
        rw [files_none hz]
        exact files_none (hc.value.trans h0)
      · exact hother m l hm
    · refine .created (files_none hz) (hf.room hz h0) (funext₂ fun m l => ?_)
      rw [FileStore.put]
      split
      next hm =>
        obtain ⟨rfl, rfl⟩ := hm
        have hzero : v'.block z = 0 := Volume.block_ext fun j =>
          (congrFun (hf.zero hz h0) j).trans (by simp [getBits])
        have hvalue : t.zoneAt m l = z := hc.value
        rw [files_some hk (hvalue.symm ▸ h0), hvalue]
        exact congrArg some hzero
      next hm => exact hother m l hm
  · have hstill : bmapCreate Volume.ops true i k s.toVolume = some (s.zoneAt i k, s.toVolume) :=
      Volume.bmapCreate_still hk fun _ => hz
    obtain ⟨-, rfl⟩ := Prod.mk.inj (Option.some.inj (hv.symm.trans hstill))
    exact .found (by rw [files_some hk hz]; exact Option.some_ne_none _)

theorem Kept.truncate (h : Kept s) (hmode : isReg (s.inodeTable i).iMode = true ∨
    isDir (s.inodeTable i).iMode = true) : Refined (.truncate i) s := by
  have ht := h.exact.trees
  have ho := h.owned i
  obtain ⟨t, hrun, hfreed, horder, htable, hzone, hsame⟩ := truncate_run hmode ho h.readable
  have hfirst : t.disk.firstDataZone = s.disk.firstDataZone := hfreed.first
  have hnzones : t.disk.nzones = s.disk.nzones := hfreed.nzones
  have horder' : t.disk.order = s.disk.order := horder
  have hself : ∀ {p : Place}, p.Ok → t.disk.ref i p = 0 := Disk.ref_of_zone hzone
  have hnot : ∀ {m p}, m ≠ i → p.Ok → s.disk.ref m p ≠ 0 →
      s.disk.ref m p ∉ fileZones s.block (s.inodeTable i) := fun hm hp hne hin => by
    obtain ⟨-, q, hq, he⟩ := mem_fileZones.mp hin
    exact hm (ht.distinct _ _ i q hp hq hne he.symm).1
  have hblock : ∀ {m p}, m ≠ i → p.Ok → s.disk.ref m p ≠ 0 →
      t.block (s.disk.ref m p) = s.block (s.disk.ref m p) := fun hm hp hne =>
    hfreed.block _ (hnot hm hp hne)
  have hother : ∀ {m p}, m ≠ i → p.Ok → t.disk.ref m p = s.disk.ref m p := fun {m p} hm hp =>
    Disk.ref_keep (congrArg MInode.iZone (htable m hm))
      (fun q hq hne => funext fun j => congrArg (getBits · (16 * j) 16) (hblock hm hq hne)) hp
  have hused : ∀ w, t.disk.Used w ↔
      s.disk.Used w ∧ w ∉ fileZones s.block (s.inodeTable i) := fun w => by
    show t.firstDataZone ≤ w ∧ t.bits (w + 1 - t.firstDataZone) = true ↔
      (s.firstDataZone ≤ w ∧ s.bits (w + 1 - s.firstDataZone) = true) ∧ _
    rw [hfreed.first, hfreed.bits]
    split
    next hin =>
      obtain ⟨z, hz, he⟩ := List.mem_map.mp hin
      refine iff_of_false (fun hc => Bool.noConfusion hc.2) fun hc => hc.2 ?_
      rwa [← zoneNr_inj (ho.inside z hz).1 hc.1.1 he]
    next hout => exact ⟨fun hc => ⟨hc, fun hw => hout (List.mem_map_of_mem hw)⟩, And.left⟩
  have hzero : t.bits 0 = true := by
    rw [hfreed.bits, if_neg]
    · exact ht.zero
    · intro hin
      obtain ⟨z, hz, he⟩ := List.mem_map.mp hin
      have hle := (ho.inside z hz).1
      unfold zoneNr at he
      omega
  have hne : ∀ {m p}, p.Ok → t.disk.ref m p ≠ 0 → m ≠ i := fun hp hne hm => hne (hm ▸ hself hp)
  have htrees : t.disk.Trees := by
    refine ⟨hfirst.symm ▸ ht.first, hzero, fun m p m' p' hp hp' h0 he => ?_,
      fun m p hp h0 => ?_⟩
    · have hm := hne hp h0
      have hm' := hne hp' (he ▸ h0)
      rw [hother hm hp] at h0 he
      rw [hother hm' hp'] at he
      exact ht.distinct m p m' p' hp hp' h0 he
    · have hm := hne hp h0
      rw [hother hm hp] at h0 ⊢
      exact (hused _).mpr ⟨ht.used m p hp h0, hnot hm hp h0⟩
  have hexact : t.disk.Exact := by
    refine ⟨htrees, fun m p hp h0 => ?_, fun w hlt hw => ?_, ?_, fun n hn hle => ?_⟩
    · have hm := hne hp h0
      rw [hother hm hp] at h0 ⊢
      exact hnzones.symm ▸ h.exact.inside m p hp h0
    · obtain ⟨hw, hout⟩ := (hused w).mp hw
      obtain ⟨m, p, hp, rfl⟩ := h.exact.reached w (hnzones ▸ hlt) hw
      have hm : m ≠ i := fun hm => hout (mem_fileZones.mpr ⟨h.exact.pos hw, p, hp, hm ▸ rfl⟩)
      exact ⟨m, p, hp, hother hm hp⟩
    · rw [hfirst, hnzones, horder']
      exact h.exact.searched
    · rw [horder'] at hn
      rw [hfirst, hnzones] at hle
      show t.bits n = true
      rw [hfreed.bits, if_neg]
      · exact h.exact.surplus n hn hle
      · intro hin
        obtain ⟨z, hz, he⟩ := List.mem_map.mp hin
        have hin' := ho.inside z hz
        change s.nzones ≤ n + s.firstDataZone - 1 at hle
        unfold zoneNr at he
        omega
  refine ⟨t, congrArg (Option.map _) hrun, ⟨hexact, ?_, fun z => ?_, fun z => ?_⟩, fun m => ?_, ?_⟩
  · show t.nzones ≤ 65536
    rw [hfreed.nzones]
    exact h.fits
  · rw [hfreed.readable]
    exact h.readable z
  · rw [hfreed.count]
    exact h.unheld z
  · by_cases hm : m = i
    · exact hm ▸ hsame
    · rw [htable m hm]
  · refine .truncated (fun k hk hfull => ?_) (funext₂ fun m l => ?_)
    · obtain ⟨hk, hz⟩ := zone_of_files hk
      have hok := Place.ofBlock_ok hk
      have hin := h.exact.inside i _ hok hz
      have hw := hfull (s.zoneAt i k) (hfirst.symm ▸ (ht.used i _ hok hz).1)
        (hnzones.symm ▸ hin)
      exact ((hused _).mp hw).2 (mem_fileZones.mpr ⟨hz, _, hok, rfl⟩)
    · by_cases hm : m = i
      · rw [hm, Function.update_self]
        by_contra hc
        obtain ⟨hl, h0⟩ := zone_of_files hc
        exact h0 (hself (Place.ofBlock_ok hl))
      · rw [Function.update_of_ne hm]
        exact files_congr (fun hl => hother hm (Place.ofBlock_ok hl)) fun hl =>
          hblock hm (Place.ofBlock_ok hl)

/-- A block of a file is no index block, and belongs to no other file. -/
theorem Kept.store (h : Kept s) (hk : k < maxBlocks) : Refined (.store i k b) s := by
  have ht := h.exact.trees
  have hbmap := Volume.bmap_eq (v := s.toVolume) i hk
  by_cases hz : s.zoneAt i k = 0
  · refine ⟨s, ?_, h, fun _ => rfl, .stored rfl (funext₂ fun m l => ?_)⟩
    · rw [step, hbmap, Option.map_some, if_pos hz]
    · rw [FileStore.put, files_none hz]
      split
      next hm =>
        obtain ⟨rfl, rfl⟩ := hm
        exact files_none hz
      next => rfl
  · let t : HeldVolume := { s with toVolume := s.setBlock (s.zoneAt i k) b }
    have hblock : ∀ w ≠ s.zoneAt i k, t.block w = s.block w := fun w hw =>
      Function.update_of_ne hw _ _
    have hwords : ∀ w ≠ s.zoneAt i k, t.disk.words w = s.disk.words w := fun w hw =>
      funext fun j => congrArg (getBits · (16 * j) 16) (hblock w hw)
    have href : ∀ m {p : Place}, p.Ok → t.disk.ref m p = s.disk.ref m p := fun m _ hp =>
      Disk.ref_written ht hk rfl (show t.disk.zone = s.disk.zone from rfl) hwords m hp
    refine ⟨t, ?_, ⟨h.exact.congr rfl rfl rfl rfl fun m _ => href m, h.fits, h.readable, h.unheld⟩,
      fun _ => rfl, .stored rfl (funext₂ fun m l => ?_)⟩
    · rw [step, hbmap, Option.map_some, if_neg hz]
    · rw [FileStore.put]
      have hzone : l < maxBlocks → t.zoneAt m l = s.zoneAt m l := fun hl =>
        href m (Place.ofBlock_ok hl)
      split
      next hm =>
        obtain ⟨rfl, rfl⟩ := hm
        rw [files_some hk (by rwa [hzone hk]), hzone hk, files_some hk hz, Option.map_some]
        exact congrArg some (Function.update_self _ _ _)
      next hm =>
        refine files_congr hzone fun hl h0 => hblock _ fun he => hm ?_
        obtain ⟨rfl, hp⟩ := ht.distinct m _ i _ (Place.ofBlock_ok hl) (Place.ofBlock_ok hk) h0 he
        exact ⟨rfl, Place.ofBlock_inj hp⟩

/-- From a volume whose map agrees with its trees, allowed calls do not panic, and the map goes on
to agree with the trees: no zone is lost, and none is used twice. The files are those of the plain
store. -/
theorem storage_refines (h : Kept s) {calls : List StorageCall} (hc : ∀ c ∈ calls, Allowed s c) :
    ∃ t, Run.exec step calls s = some t ∧ Kept t ∧
      Run.Traces FileStore.Step calls s.files t.files := by
  let J (u : HeldVolume) : Prop := Kept u ∧ ∀ m, (u.inodeTable m).iMode = (s.inodeTable m).iMode
  have hstep : ∀ c u, J u → Allowed s c →
      ∃ v, step c u = some v ∧ J v ∧ FileStore.Step c u.files v.files := by
    rintro c u ⟨hu, hmode⟩ hc
    have hcall : Refined c u := by
      cases c with
      | createBlock i k => exact hu.createBlock hc
      | truncate i =>
        refine hu.truncate ?_
        rw [hmode i]
        exact hc
      | store i k b => exact hu.store hc
    obtain ⟨v, hv, hkept, hmode', hfiles⟩ := hcall
    exact ⟨v, hv, ⟨hkept, fun m => (hmode' m).trans (hmode m)⟩, hfiles⟩
  obtain ⟨t, he, ⟨ht, -⟩, hr⟩ := Run.exec_traces hstep ⟨h, fun _ => rfl⟩ hc
  exact ⟨t, he, ht, hr⟩

end

/-- Three zones and no file. -/
def bareVolume : HeldVolume where
  order := [0, 1, 2, 3]
  firstDataZone := 5
  nzones := 8
  bits n := n == 0
  block _ := 0
  inodeTable _ := { zeroInode with iMode := 0o100000 }
  count _ := 0
  readable _ := true
  stored _ := 0

theorem bareVolume_kept : Kept bareVolume := by
  have hused : ∀ w, ¬ bareVolume.disk.Used w := by
    rintro w ⟨hle, hbit⟩
    change 5 ≤ w at hle
    change (w + 1 - 5 == 0) = true at hbit
    have hzero := eq_of_beq hbit
    omega
  have href : ∀ n {p : Place}, p.Ok → bareVolume.disk.ref n p = 0 := fun n _ =>
    Disk.ref_of_zone fun _ _ => rfl
  refine ⟨⟨⟨by decide, rfl, fun n p _ _ hp _ h => absurd (href n hp) h,
    fun n p hp h => absurd (href n hp) h⟩, fun n p hp h => absurd (href n hp) h,
    fun w _ hw => absurd hw (hused w), fun w hle hlt => ?_, by decide⟩,
    (by decide : 8 ≤ 65536), fun _ => rfl, fun _ => rfl⟩
  change 5 ≤ w at hle
  change w < 8 at hlt
  obtain rfl | rfl | rfl : w = 5 ∨ w = 6 ∨ w = 7 := by omega
  all_goals decide

theorem storage_refines_bare :
    let calls := [.createBlock 0 600, .store 0 600 1, .createBlock 1 3, .truncate 0]
    ∃ t, Run.exec step calls bareVolume = some t ∧ Kept t ∧
      Run.Traces FileStore.Step calls bareVolume.files t.files :=
  storage_refines bareVolume_kept (List.forall_mem_cons.mpr ⟨(by decide : 600 < maxBlocks),
    List.forall_mem_cons.mpr ⟨(by decide : 600 < maxBlocks), List.forall_mem_cons.mpr
      ⟨(by decide : 3 < maxBlocks), List.forall_mem_singleton.mpr (.inl (by decide))⟩⟩⟩)

end HeldVolume

end Gpos
