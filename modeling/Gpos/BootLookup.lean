import Gpos.BootLoad

/-! The boot loader's `path_lookup` against the kernel, which looks up a path
with `get_dir` and `find_entry`. Nothing is mounted. -/

namespace Gpos.Boot

open Fs BlockMap

def slash : BitVec 8 := 47

/-- Behind the end of a string lies a zero. -/
def strncmp (src dest : Nat → BitVec 8) : Nat → Nat → Int
  | 0, _ => 0
  | len + 1, j =>
    if src j ≠ 0 ∧ dest j ≠ 0 ∧ src j = dest j then strncmp src dest len (j + 1)
    else if src j = 0 ∧ dest j ≠ 0 then -1
    else if src j ≠ 0 ∧ dest j = 0 then 1
    else if (dest j).slt (src j) then 1
    else if (src j).slt (dest j) then -1
    else 0

section

variable (p : Partition)

/-- The loop over the entries of a block, which ends at the first one that is not in use. -/
def scanItems (part : Name) (len : Nat) (b : Block) : Nat → Nat → Option Nat
  | 0, _ => none
  | rounds + 1, item =>
    if deInode b item = 0 then none
    else if strncmp (fun j => part.getD j 0) (deName b item) len 0 = 0 then some (deInode b item)
    else scanItems part len b rounds (item + 1)

def scanZones (inode : MInode) (part : Name) (len : Nat) : Nat → Nat → Option Nat
  | 0, _ => none
  | rounds + 1, i =>
    if inode.iZone i = 0 then none
    else match scanItems part len (p.block (inode.iZone i)) dirEntriesPerBlock 0 with
    | some ino => some ino
    | none => scanZones inode part len rounds (i + 1)

/-- The outer loop; `entry` is the inode number of the last entry. The blocks
of directories are read to 3M, where no inode is looked for. -/
def lookupLoop : Nat → Name → Nat → Nat → Memory → Option Nat
  | 0, _, _, _, _ => none
  | rounds + 1, path, ino, entry, m =>
    if path = [] then some entry
    else
      let len := (path.takeWhile (· ≠ slash)).length
      let r := getInode p ino m
      match scanZones p (dInode r.2 r.1) path len 7 0 with
      | none => none
      | some ino => lookupLoop rounds ((path.drop len).dropWhile (· = slash)) ino ino r.1

/-- The inode number of the entry. Without a component it is what lies at 3M. -/
def pathLookup (path : Name) (m : Memory) : Option Nat :=
  if path.head? ≠ some slash then none
  else lookupLoop p (path.length + 1) (path.dropWhile (· = slash)) rootIno (deInode (m 3072) 0) m

/-- `find_entry` in the kernel, and the inode number of the entry. -/
def find (ino : Nat) (name : Name) : Option (Option Nat) :=
  (Image.findEntry (reader p) (kernelInode p ino) (ino == rootIno) name).map fun r =>
    r.map fun e => deInode (p.block e.1) e.2

/-- The loop of `get_dir`: the directory and the name in it. -/
def getDir : Nat → Nat → Name → Option (Option (Nat × Name))
  | 0, _, _ => none
  | rounds + 1, ino, path =>
    if isDir (kernelInode p ino).iMode = false then some none
    else
      let name := path.takeWhile (· ≠ slash)
      match path.drop name.length with
      | [] => some (some (ino, name))
      | _ :: rest =>
        match find p ino name with
        | none => none
        | some none => some none
        | some (some ino) => getDir rounds ino rest

/-- What becomes of the directory and the name. -/
def lookupLast (r : Option (Option (Nat × Name))) : Option (Option Nat) :=
  r.bind fun r => match r with
  | none => some none
  | some (ino, name) => if name = [] then some (some ino) else find p ino name

/-- The inode number that a path from the root leads to. -/
def kernelLookup (path : Name) : Option (Option Nat) :=
  lookupLast p (getDir p path.length rootIno path.tail)

end

def joined (comps : List Name) : Name := comps.flatMap fun c => slash :: c

/-- A component has up to 14 characters. -/
structure Component (c : Name) : Prop where
  pos : c ≠ []
  short : c.length ≤ nameLen
  chars : ∀ x ∈ c, x ≠ 0 ∧ x ≠ slash

section

variable (p : Partition)

/-- The directory uses only direct zones and has no hole. -/
def DirectOnly (n : MInode) : Prop := n.iSize ≤ 7 * 1024 ∧ ∀ k, 1024 * k < n.iSize → n.iZone k ≠ 0

def blockOf (n : MInode) (i : Nat) : Block := p.block (n.iZone (i / dirEntriesPerBlock))

def Holds (n : MInode) (c : Name) (i : Nat) : Prop :=
  isDir n.iMode = true ∧ i < Image.entries n ∧ Image.Named (reader p) n c i

/-- The loader comes to entry `i`, whose name begins with `c`. -/
structure Begins (n : MInode) (c : Name) (i : Nat) : Prop where
  direct : i / dirEntriesPerBlock < 7
  zones : ∀ k ≤ i / dirEntriesPerBlock, n.iZone k ≠ 0
  used : ∀ de ≤ i % dirEntriesPerBlock, deInode (blockOf p n i) de ≠ 0
  chars : ∀ j < c.length, c.getD j 0 = deName (blockOf p n i) (i % dirEntriesPerBlock) j

/-- The first entry with the name is that of inode `v`. -/
def FirstInode (n : MInode) (c : Name) (v : Nat) : Prop :=
  ∃ i, Holds p n c i ∧ (∀ j < i, ¬ Holds p n c j) ∧
    v = deInode (blockOf p n i) (i % dirEntriesPerBlock)

/-- At this directory the loader reads the right inode, no entry in front of
the one with the name begins with it, no entry in front of it in its block is
unused, and `..` in the root leads where `.` does. -/
structure Alike (ino : Nat) (c : Name) : Prop where
  slot : ino % inodesPerBlock ≠ 0
  front : ∀ i, Begins p (kernelInode p ino) c i → ∃ j ≤ i, Holds p (kernelInode p ino) c j
  used : ∀ i, Holds p (kernelInode p ino) c i → (∀ j < i, ¬ Holds p (kernelInode p ino) c j) →
    ∀ de < i % dirEntriesPerBlock, deInode (blockOf p (kernelInode p ino) i) de ≠ 0
  dots : Image.dotDot c → ino = rootIno → ∀ v, FirstInode p (kernelInode p ino) c v ↔
    FirstInode p (kernelInode p ino) [dot] v

/-- The directories of a path are searched alike. -/
def Along : Nat → List Name → Prop
  | _, [] => True
  | ino, c :: cs => Alike p ino c ∧ ∀ v, FirstInode p (kernelInode p ino) c v → Along v cs

end

theorem strncmp_eq_zero {src dest : Nat → BitVec 8} (len j : Nat)
    (hsrc : ∀ i < len, src (j + i) ≠ 0) :
    strncmp src dest len j = 0 ↔ ∀ i < len, src (j + i) = dest (j + i) := by
  induction len generalizing j with
  | zero => exact iff_of_true rfl fun i hi => absurd hi (Nat.not_lt_zero i)
  | succ len ih =>
    have h0 : src j ≠ 0 := hsrc 0 (Nat.succ_pos len)
    unfold strncmp
    split
    next heq =>
      rw [ih (j + 1) fun i hi =>
        by rw [Nat.add_assoc, Nat.add_comm 1]; exact hsrc (i + 1) (by omega)]
      constructor
      · intro h i hi
        cases i with
        | zero => exact heq.2.2
        | succ i =>
          rw [Nat.add_comm i 1, ← Nat.add_assoc]
          exact h i (by omega)
      · intro h i hi
        rw [Nat.add_assoc, Nat.add_comm 1]
        exact h (i + 1) (by omega)
    next hne =>
      have hdiff : src j ≠ dest j := fun he => hne ⟨h0, he ▸ h0, he⟩
      refine iff_of_false ?_ fun h => hdiff (h 0 (Nat.succ_pos len))
      rw [if_neg (fun h => h0 h.1)]
      split
      · decide
      · have hint : (src j).toInt ≠ (dest j).toInt := fun h => hdiff (BitVec.eq_of_toInt_eq h)
        split
        · decide
        next hlt =>
          have hlt' : (src j).slt (dest j) = true := by
            rw [BitVec.slt_iff_toInt_lt] at hlt ⊢
            omega
          rw [if_pos hlt']
          decide

section

variable {p : Partition} {part : Name} {len : Nat}

/-- The entry of a block that the loop stops at. -/
def HitsItem (part : Name) (len : Nat) (b : Block) (de : Nat) : Prop :=
  (∀ d ≤ de, deInode b d ≠ 0) ∧ ∀ j < len, part.getD j 0 = deName b de j

def ItemResult (part : Name) (len : Nat) (b : Block) (bound : Nat) : Option Nat → Prop
  | none => ∀ d < bound, ¬ HitsItem part len b d
  | some v =>
    ∃ de < bound, HitsItem part len b de ∧ (∀ d < de, ¬ HitsItem part len b d) ∧ v = deInode b de

theorem scanItems_spec {b : Block} (hpart : ∀ j < len, part.getD j 0 ≠ 0) (rounds item : Nat)
    (hused : ∀ d < item, deInode b d ≠ 0) (hfirst : ∀ d < item, ¬ HitsItem part len b d) :
    ItemResult part len b (item + rounds) (scanItems part len b rounds item) := by
  induction rounds generalizing item with
  | zero => exact hfirst
  | succ rounds ih =>
    unfold scanItems
    split
    next h0 =>
      intro d hd hhit
      rcases lt_or_ge d item with hlt | hge
      · exact hfirst d hlt hhit
      · exact hhit.1 item hge h0
    next hin =>
      have hle : ∀ d ≤ item, deInode b d ≠ 0 := by
        intro d hd
        rcases eq_or_lt_of_le hd with rfl | hlt
        · exact hin
        · exact hused d hlt
      have hcmp := @strncmp_eq_zero (fun j => part.getD j 0) (deName b item) len 0
        (fun j hj => by rw [Nat.zero_add]; exact hpart j hj)
      simp only [Nat.zero_add] at hcmp
      split
      next hz => exact ⟨item, by omega, ⟨hle, hcmp.mp hz⟩, hfirst, rfl⟩
      next hz =>
        have hnext := ih (item + 1) (fun d hd => hle d (by omega)) fun d hd => by
          rcases Nat.lt_succ_iff_lt_or_eq.mp hd with hd | rfl
          · exact hfirst d hd
          · exact fun hhit => hz (hcmp.mpr hhit.2)
        rwa [Nat.add_assoc, Nat.add_comm 1] at hnext

theorem begins_iff {n : MInode} {c : Name} {i : Nat} (hi : i / dirEntriesPerBlock < 7)
    (hpart : ∀ j < c.length, part.getD j 0 = c.getD j 0)
    (hzones : ∀ k ≤ i / dirEntriesPerBlock, n.iZone k ≠ 0) :
    Begins p n c i ↔ HitsItem part c.length (blockOf p n i) (i % dirEntriesPerBlock) :=
  ⟨fun h => ⟨h.used, fun j hj => (hpart j hj).trans (h.chars j hj)⟩,
    fun h => ⟨hi, hzones, h.1, fun j hj => (hpart j hj).symm.trans (h.2 j hj)⟩⟩

/-- What the loader finds: the first entry that begins with the component. -/
def ZoneResult (p : Partition) (n : MInode) (c : Name) : Option Nat → Prop
  | none => ∀ i, ¬ Begins p n c i
  | some v =>
    ∃ i, Begins p n c i ∧ (∀ j < i, ¬ Begins p n c j) ∧
      v = deInode (blockOf p n i) (i % dirEntriesPerBlock)

theorem scanZones_spec {n : MInode} {c : Name} (hc : ∀ x ∈ c, x ≠ 0)
    (hpart : ∀ j < c.length, part.getD j 0 = c.getD j 0) (rounds k : Nat) (hk : k + rounds = 7)
    (hzones : ∀ k' < k, n.iZone k' ≠ 0) (hfirst : ∀ i, i / dirEntriesPerBlock < k →
      ¬ Begins p n c i) : ZoneResult p n c (scanZones p n part c.length rounds k) := by
  have hpart0 : ∀ j < c.length, part.getD j 0 ≠ 0 := by
    intro j hj
    rw [hpart j hj, List.getD_eq_getElem?_getD, List.getElem?_eq_getElem hj]
    exact hc _ (List.getElem_mem hj)
  induction rounds generalizing k with
  | zero => exact fun i hb => hfirst i (by have := hb.direct; omega) hb
  | succ rounds ih =>
    unfold scanZones
    split
    next h0 =>
      intro i hb
      rcases lt_or_ge (i / dirEntriesPerBlock) k with hlt | hge
      · exact hfirst i hlt hb
      · exact hb.zones k hge h0
    next hzone =>
      have hle : ∀ k' ≤ k, n.iZone k' ≠ 0 := by
        intro k' hk'
        rcases eq_or_lt_of_le hk' with rfl | hlt
        · exact hzone
        · exact hzones k' hlt
      have hhit : ∀ i, i / dirEntriesPerBlock = k →
          (Begins p n c i ↔ HitsItem part c.length (p.block (n.iZone k))
            (i % dirEntriesPerBlock)) := by
        intro i hi
        rw [begins_iff (by omega) hpart (hi ▸ hle), blockOf, hi]
      have hitems := @scanItems_spec part c.length (p.block (n.iZone k)) hpart0 dirEntriesPerBlock 0
        (fun d hd => absurd hd (Nat.not_lt_zero d)) fun d hd => absurd hd (Nat.not_lt_zero d)
      rw [Nat.zero_add] at hitems
      cases hscan : scanItems part c.length (p.block (n.iZone k)) dirEntriesPerBlock 0 with
      | some v =>
        rw [hscan] at hitems
        obtain ⟨de, hde, hhits, hnone, hv⟩ := hitems
        have hdiv := @div_dirEntriesPerBlock k de hde
        have hmod := @mod_dirEntriesPerBlock k de hde
        refine ⟨dirEntriesPerBlock * k + de, (hhit _ hdiv).mpr (hmod.symm ▸ hhits),
          fun j hj hb => ?_, ?_⟩
        · rcases lt_or_ge (j / dirEntriesPerBlock) k with hlt | hge
          · exact hfirst j hlt hb
          · have hle' := Nat.div_le_div_right (c := dirEntriesPerBlock) hj.le
            have hjk : j / dirEntriesPerBlock = k := by omega
            refine hnone (j % dirEntriesPerBlock) ?_ ((hhit j hjk).mp hb)
            have hsplit := Nat.div_add_mod j dirEntriesPerBlock
            rw [hjk] at hsplit
            omega
        · rw [blockOf, hdiv, hmod]
          exact hv
      | none =>
        rw [hscan] at hitems
        refine ih (k + 1) (by omega) (fun k' hk' => hle k' (by omega)) fun i hi hb => ?_
        rcases Nat.lt_succ_iff_lt_or_eq.mp hi with hi | hi
        · exact hfirst i hi hb
        · exact hitems _ (Nat.mod_lt _ (by decide)) ((hhit i hi).mp hb)

/-! What the kernel finds in a directory. -/

def Finds (p : Partition) (n : MInode) (c : Name) : Option Nat → Prop
  | none => ∀ i, ¬ Holds p n c i
  | some v => FirstInode p n c v

variable {n : MInode} {c : Name} {i ino : Nat}

theorem exists_first {P : Nat → Prop} (h : P i) : ∃ j ≤ i, P j ∧ ∀ k < j, ¬ P k := by
  classical
  exact ⟨Nat.find ⟨i, h⟩, Nat.find_min' _ h, Nat.find_spec _, fun k hk => Nat.find_min _ hk⟩

theorem Finds.unique {r r' : Option Nat} (h : Finds p n c r) (h' : Finds p n c r') : r = r' := by
  cases r with
  | none =>
    cases r' with
    | none => rfl
    | some v =>
      obtain ⟨i, hi, -⟩ := h'
      exact absurd hi (h i)
  | some v =>
    obtain ⟨i, hi, hfirst, hv⟩ := h
    cases r' with
    | none => exact absurd hi (h' i)
    | some v' =>
      obtain ⟨i', hi', hfirst', hv'⟩ := h'
      have heq : i = i' := by
        rcases lt_trichotomy i i' with hlt | heq | hlt
        · exact absurd hi (hfirst' i hlt)
        · exact heq
        · exact absurd hi' (hfirst i' hlt)
      rw [hv, hv', heq]

theorem Finds.congr {d : Name} (hcd : ∀ v, FirstInode p n c v ↔ FirstInode p n d v) {r : Option Nat}
    (h : Finds p n c r) : Finds p n d r := by
  cases r with
  | some v => exact (hcd v).mp h
  | none =>
    intro i hi
    obtain ⟨j, -, hj, hfirst⟩ := exists_first hi
    obtain ⟨i', hi', -⟩ := (hcd _).mpr ⟨j, hj, hfirst, rfl⟩
    exact h i' hi'

theorem DirectOnly.zone (hn : DirectOnly n) (hi : i < Image.entries n) :
    i / dirEntriesPerBlock < 7 ∧ ∀ k ≤ i / dirEntriesPerBlock, n.iZone k ≠ 0 := by
  have h64 : dirEntriesPerBlock = 64 := rfl
  have hsize := hn.1
  rw [Image.entries] at hi
  rw [h64]
  exact ⟨by omega, fun k hk => hn.2 k (by omega)⟩

theorem blockAt_direct {k : Nat} (hk : k < 7) (hz : n.iZone k ≠ 0) :
    Image.blockAt (reader p) n k = some (some (n.iZone k, p.block (n.iZone k))) := by
  rw [Image.blockAt, Image.bmap_direct hk, Option.map_some, if_neg hz]
  rfl

theorem find_spec (hn : DirectOnly (kernelInode p ino))
    (hdir : isDir (kernelInode p ino).iMode = true) (hc : Component c) :
    ∃ r, find p ino c = some r ∧ Finds p (kernelInode p ino)
      (Image.searchName (ino == rootIno) c) r := by
  by_cases hzone : (kernelInode p ino).iZone 0 = 0
  · have hempty : (kernelInode p ino).iSize = 0 := by
      by_contra hne
      exact hn.2 0 (by omega) hzone
    refine ⟨none, ?_, fun i hi => ?_⟩
    · rw [find, Image.findEntry]
      dsimp only
      rw [if_pos hzone, ite_self]
      rfl
    · have := hi.2.1
      rw [Image.entries, hempty] at this
      exact absurd this (Nat.not_lt_zero i)
  · have hend :=
      @Image.findEntry_ends (reader p) (kernelInode p ino) c (ino == rootIno) _ hzone rfl
        (fun x hx => (hc.chars x hx).1) hc.pos
    obtain ⟨r, hr, hfirst⟩ := hend.mpr fun k' _ hk' _ => Or.inl ⟨_, blockAt_direct (by
      have := (hn.zone hk').1
      rwa [Nat.mul_div_cancel_left _ (by decide)] at this)
        ((hn.zone hk').2 k' (by rw [Nat.mul_div_cancel_left _ (by decide)]))⟩
    refine ⟨_, by rw [find, hr, Option.map_some], ?_⟩
    cases r with
    | none => exact fun i hi => hfirst i hi.2.1 hi.2.2
    | some e =>
      obtain ⟨i, hi, hnamed, hnone, hz, hde⟩ := hfirst
      have hz' : (kernelInode p ino).iZone (i / dirEntriesPerBlock) = e.1 :=
        Option.some.inj ((Image.bmap_direct (hn.zone hi).1).symm.trans hz)
      refine ⟨i, ⟨hdir, hi, hnamed⟩, fun j hj hh => hnone j hj hh.2.2, ?_⟩
      rw [blockOf, hz', ← hde]

theorem Holds.spec (hn : DirectOnly n) (hc : Component c) (h : Holds p n c i) :
    deInode (blockOf p n i) (i % dirEntriesPerBlock) ≠ 0 ∧
      ∀ j < c.length, c.getD j 0 = deName (blockOf p n i) (i % dirEntriesPerBlock) j := by
  have hzone := hn.zone h.2.1
  have hnamed := (Image.named_iff rfl (blockAt_direct hzone.1 (hzone.2 _ (le_refl _)))).mp h.2.2
  rw [← blockOf] at hnamed
  have hmatch :=
    (Image.matchEntry_iff (fun x hx => (hc.chars x hx).1) (blockOf p n i)
      (i % dirEntriesPerBlock)).mpr hnamed
  refine ⟨hnamed.1, fun j hj => ?_⟩
  have hlen : min c.length nameLen = c.length := Nat.min_eq_left hc.short
  rw [hlen, matchEntry, if_neg (not_or.mpr ⟨hnamed.1, not_lt.mpr hc.short⟩)] at hmatch
  split at hmatch
  · cases hmatch
  · exact beq_iff_eq.mp (List.all_eq_true.mp hmatch j (List.mem_range.mpr hj))

theorem Alike.begins (ha : Alike p ino c) (hn : DirectOnly (kernelInode p ino)) (hc : Component c)
    (hi : Holds p (kernelInode p ino) c i) (hfirst : ∀ j < i, ¬ Holds p (kernelInode p ino) c j) :
    Begins p (kernelInode p ino) c i := by
  have hspec := hi.spec hn hc
  have hzone := hn.zone hi.2.1
  refine ⟨hzone.1, hzone.2, fun de hde => ?_, hspec.2⟩
  rcases eq_or_lt_of_le hde with rfl | hlt
  · exact hspec.1
  · exact ha.used i hi hfirst de hlt

theorem Alike.finds (ha : Alike p ino c) (hn : DirectOnly (kernelInode p ino)) (hc : Component c)
    {r : Option Nat} (hr : ZoneResult p (kernelInode p ino) c r) :
    Finds p (kernelInode p ino) c r := by
  cases r with
  | none =>
    intro i hi
    obtain ⟨j, -, hj, hfirst⟩ := exists_first hi
    exact hr j (ha.begins hn hc hj hfirst)
  | some v =>
    obtain ⟨i, hi, hnone, hv⟩ := hr
    obtain ⟨j, hji, hj⟩ := ha.front i hi
    obtain ⟨k, hkj, hk, hfirst⟩ := exists_first hj
    have hki : k = i := by
      by_contra hne
      exact hnone k (by omega) (ha.begins hn hc hk hfirst)
    subst hki
    exact ⟨k, hk, hfirst, hv⟩

theorem Alike.find_eq (ha : Alike p ino c) (hn : DirectOnly (kernelInode p ino))
    (hdir : isDir (kernelInode p ino).iMode = true) (hc : Component c) {r : Option Nat}
    (hr : ZoneResult p (kernelInode p ino) c r) : find p ino c = some r := by
  obtain ⟨r', hr', hfinds⟩ := find_spec hn hdir hc
  have hname : Finds p (kernelInode p ino) c r' := by
    rw [Image.searchName] at hfinds
    split at hfinds
    next h => exact hfinds.congr fun v => (ha.dots h.1 (beq_iff_eq.mp h.2) v).symm
    next => exact hfinds
  rw [hr', hname.unique (ha.finds hn hc hr)]

/-! The components of a path. -/

theorem takeWhile_component {l rest : Name} (hl : ∀ x ∈ l, x ≠ slash)
    (hrest : rest.head? = some slash ∨ rest = []) : (l ++ rest).takeWhile (· ≠ slash) = l := by
  induction l with
  | nil =>
    rcases hrest with h | rfl
    · cases rest with
      | nil => cases h
      | cons d rest =>
        cases h
        simp
    · rfl
  | cons d l ih =>
    rw [List.cons_append, List.takeWhile_cons, if_pos (by simpa using hl d (List.mem_cons_self ..)),
      ih fun x hx => hl x (List.mem_cons_of_mem _ hx)]

theorem joined_cons (c : Name) (cs : List Name) : joined (c :: cs) = slash :: (c ++ joined cs) := by
  simp [joined]

theorem joined_head (cs : List Name) : (joined cs).head? = some slash ∨ joined cs = [] := by
  cases cs with
  | nil => exact Or.inr rfl
  | cons c cs => exact Or.inl (by rw [joined_cons]; rfl)

theorem length_joined (cs : List Name) : cs.length ≤ (joined cs).length := by
  induction cs with
  | nil => exact Nat.zero_le _
  | cons c cs ih =>
    rw [joined_cons, List.length_cons, List.length_cons, List.length_append]
    omega

theorem Component.head (hc : Component c) (rest : Name) :
    (c ++ rest).dropWhile (· = slash) = c ++ rest := by
  cases c with
  | nil => exact absurd rfl hc.pos
  | cons x c =>
    rw [List.cons_append, List.dropWhile_cons, if_neg
      (by simpa using (hc.chars x (List.mem_cons_self ..)).2)]

theorem dropWhile_joined {cs : List Name} (hcs : ∀ c ∈ cs, Component c) :
    (joined cs).dropWhile (· = slash) = (joined cs).tail := by
  cases cs with
  | nil => rfl
  | cons c cs =>
    rw [joined_cons, List.dropWhile_cons, if_pos (by simp), (hcs c (List.mem_cons_self ..)).head]
    rfl

theorem drop_component (c rest : Name) : (c ++ rest).drop c.length = rest := by simp

theorem component_scan (hc : Component c) (rest : Name) :
    ZoneResult p n c (scanZones p n (c ++ rest) c.length 7 0) := by
  refine scanZones_spec (fun x hx => (hc.chars x hx).1) (fun j hj => ?_) 7 0 rfl
    (fun k hk => absurd hk (Nat.not_lt_zero k))
    fun i hi => absurd hi (Nat.not_lt_zero _)
  rw [List.getD_eq_getElem?_getD, List.getD_eq_getElem?_getD, List.getElem?_append_left hj]

theorem lookupLoop_succ (hino : ino % inodesPerBlock ≠ 0) (hc : Component c) (cs : List Name)
    (rounds entry : Nat) (m : Memory) :
      ∃ m', lookupLoop p (rounds + 1) (c ++ joined cs) ino entry m =
        match scanZones p (kernelInode p ino) (c ++ joined cs) c.length 7 0 with
      | none => none
      | some v => lookupLoop p rounds ((joined cs).dropWhile (· = slash)) v v m' := by
  have hne : c ++ joined cs ≠ [] := by simp [hc.pos]
  have hlen : ((c ++ joined cs).takeWhile (· ≠ slash)).length = c.length := by
    rw [takeWhile_component (fun x hx => (hc.chars x hx).2) (joined_head cs)]
  refine ⟨(getInode p ino m).1, ?_⟩
  rw [lookupLoop, if_neg hne]
  dsimp only
  rw [hlen, (dInode_getInode hino m).2, drop_component]

theorem getDir_last (hdir : isDir (kernelInode p ino).iMode = true) (hc : Component c)
    (rounds : Nat) : lookupLast p (getDir p (rounds + 1) ino (c ++ joined [])) = find p ino c := by
  have hname := takeWhile_component (fun x hx => (hc.chars x hx).2) (joined_head [])
  rw [getDir, if_neg (by simp [hdir])]
  dsimp only
  rw [hname, drop_component]
  show (if c = [] then some (some ino) else find p ino c) = find p ino c
  rw [if_neg hc.pos]

theorem getDir_next (hdir : isDir (kernelInode p ino).iMode = true) (hc : Component c) (d : Name)
    (cs : List Name) (rounds : Nat) {r : Option Nat} (hr : find p ino c = some r) :
      lookupLast p (getDir p (rounds + 1) ino (c ++ joined (d :: cs))) = r.elim (some none) fun v =>
        lookupLast p (getDir p rounds v (d ++ joined cs)) := by
  have hname := takeWhile_component (fun x hx => (hc.chars x hx).2) (joined_head (d :: cs))
  rw [getDir, if_neg (by simp [hdir])]
  dsimp only
  rw [hname, drop_component, joined_cons]
  dsimp only
  rw [hr]
  cases r <;> rfl

theorem getDir_file (hdir : isDir (kernelInode p ino).iMode = false) (path : Name) (rounds : Nat) :
    lookupLast p (getDir p (rounds + 1) ino path) = some none := by
  rw [getDir, if_pos hdir]
  rfl

theorem Alike.none_of_file (ha : Alike p ino c) (hdir : isDir (kernelInode p ino).iMode = false)
    {r : Option Nat} (hr : ZoneResult p (kernelInode p ino) c r) : r = none := by
  cases r with
  | none => rfl
  | some v =>
    obtain ⟨i, hi, -⟩ := hr
    obtain ⟨j, -, hj⟩ := ha.front i hi
    rw [hj.1] at hdir
    cases hdir

/-- The loader and the kernel go the same way from every directory. -/
theorem lookup_eq (hdirs : ∀ ino, isDir (kernelInode p ino).iMode = true →
    DirectOnly (kernelInode p ino)) (cs : List Name) {c : Name} {ino entry rounds rounds' : Nat}
    {m : Memory} (hc : Component c) (hcs : ∀ c ∈ cs, Component c) (ha : Along p ino (c :: cs))
    (hr : cs.length < rounds) (hr' : cs.length + 1 < rounds') :
    lookupLast p (getDir p rounds ino (c ++ joined cs)) =
      some (lookupLoop p rounds' (c ++ joined cs) ino entry m) := by
  induction cs generalizing c ino entry rounds rounds' m with
  | nil =>
    obtain ⟨rounds, rfl⟩ : ∃ k, rounds = k + 1 := ⟨rounds - 1, by omega⟩
    obtain ⟨rounds', rfl⟩ : ∃ k, rounds' = k + 1 + 1 := ⟨rounds' - 2, by simp at hr'; omega⟩
    obtain ⟨m', hloop⟩ := @lookupLoop_succ p c ino ha.1.slot hc [] (rounds' + 1) entry m
    have hscan := @component_scan p (kernelInode p ino) c hc (joined [])
    generalize scanZones p (kernelInode p ino) (c ++ joined []) c.length 7 0 = r at hloop hscan
    rw [hloop]
    cases hdir : isDir (kernelInode p ino).iMode with
    | false =>
      rw [ha.1.none_of_file hdir hscan, getDir_file hdir]
    | true =>
      rw [getDir_last hdir hc, ha.1.find_eq (hdirs ino hdir) hdir hc hscan]
      cases r <;> rfl
  | cons d cs ih =>
    obtain ⟨rounds, rfl⟩ : ∃ k, rounds = k + 1 := ⟨rounds - 1, by omega⟩
    obtain ⟨rounds', rfl⟩ : ∃ k, rounds' = k + 1 := ⟨rounds' - 1, by omega⟩
    obtain ⟨m', hloop⟩ := @lookupLoop_succ p c ino ha.1.slot hc (d :: cs) rounds' entry m
    have hscan := @component_scan p (kernelInode p ino) c hc (joined (d :: cs))
    generalize scanZones p (kernelInode p ino) (c ++ joined (d :: cs)) c.length 7 0 =
      r at hloop hscan
    rw [hloop]
    cases hdir : isDir (kernelInode p ino).iMode with
    | false =>
      rw [ha.1.none_of_file hdir hscan, getDir_file hdir]
    | true =>
      rw [getDir_next hdir hc d cs rounds (ha.1.find_eq (hdirs ino hdir) hdir hc hscan)]
      cases r with
      | none => rfl
      | some v =>
        have hd : Component d := hcs d (List.mem_cons_self ..)
        have hpath : (joined (d :: cs)).dropWhile (· = slash) = d ++ joined cs := by
          rw [dropWhile_joined hcs, joined_cons]
          rfl
        dsimp only [Option.elim]
        rw [hpath]
        have hv : FirstInode p (kernelInode p ino) c v := ha.1.finds (hdirs ino hdir) hc hscan
        exact ih hd (fun c hc => hcs c (List.mem_cons_of_mem _ hc)) (ha.2 v hv)
          (Nat.lt_of_succ_lt_succ hr) (Nat.lt_of_succ_lt_succ hr')

/-- Along directories that are searched alike the loader finds what the kernel finds. -/
theorem pathLookup_eq (hdirs : ∀ ino, isDir (kernelInode p ino).iMode = true →
    DirectOnly (kernelInode p ino)) {comps : List Name} (hcomps : ∀ c ∈ comps, Component c)
    (hne : comps ≠ []) (ha : Along p rootIno comps) (m : Memory) :
    kernelLookup p (joined comps) = some (pathLookup p (joined comps) m) := by
  cases comps with
  | nil => exact absurd rfl hne
  | cons c cs =>
    have hc : Component c := hcomps c (List.mem_cons_self ..)
    have hlen := length_joined cs
    have hpath : (joined (c :: cs)).dropWhile (· = slash) = c ++ joined cs := by
      rw [dropWhile_joined hcomps, joined_cons]
      rfl
    have hlong : cs.length < (joined (c :: cs)).length := by
      rw [joined_cons, List.length_cons, List.length_append]
      omega
    have hhead : (joined (c :: cs)).head? = some slash := by
      rw [joined_cons]
      rfl
    have htail : (joined (c :: cs)).tail = c ++ joined cs := by
      rw [joined_cons]
      rfl
    rw [kernelLookup, pathLookup, if_neg (not_not.mpr hhead), hpath, htail]
    exact lookup_eq hdirs cs hc (fun d hd => hcomps d (List.mem_cons_of_mem _ hd)) ha hlong
      (Nat.succ_lt_succ hlong)

end

/-- A directory of one block, whose entry `k` is the first that begins with `c`; from `e` on
the entries are unused. -/
structure OneBlock (p : Partition) (n : MInode) (c : Name) (k e : Nat) : Prop where
  dir : isDir n.iMode = true
  entries : Image.entries n = e
  short : e < dirEntriesPerBlock
  zone : n.iZone 0 ≠ 0
  last : n.iZone 1 = 0
  used : ∀ de < e, deInode (p.block (n.iZone 0)) de ≠ 0
  rest : deInode (p.block (n.iZone 0)) e = 0
  inside : k < e
  named : Image.entryName (p.block (n.iZone 0)) k = c.take nameLen
  front : ∀ i < k, ∃ j < c.length, c.getD j 0 ≠ deName (p.block (n.iZone 0)) i j

namespace OneBlock

variable {p : Partition} {n : MInode} {c : Name} {ino k e i : Nat}

theorem div (h : OneBlock p n c k e) (hi : i < e) : i / dirEntriesPerBlock = 0 :=
  Nat.div_eq_of_lt (hi.trans h.short)

theorem mod (h : OneBlock p n c k e) (hi : i < e) : i % dirEntriesPerBlock = i :=
  Nat.mod_eq_of_lt (hi.trans h.short)

theorem holds (h : OneBlock p n c k e) : Holds p n c k := by
  refine ⟨h.dir, h.entries ▸ h.inside, (Image.named_iff (h.div h.inside)
    (blockAt_direct (by decide) h.zone)).mpr ?_⟩
  rw [h.mod h.inside]
  exact ⟨h.used k h.inside, h.named⟩

theorem lt_of_begins (h : OneBlock p n c k e) (hi : Begins p n c i) : i < e := by
  have h64 : dirEntriesPerBlock = 64 := rfl
  have hfirst : i / dirEntriesPerBlock = 0 := by
    by_contra hne
    exact hi.zones 1 (Nat.one_le_iff_ne_zero.mpr hne) h.last
  by_contra hge
  have hmod : e ≤ i % dirEntriesPerBlock := by
    rw [h64] at hfirst ⊢
    omega
  refine hi.used e hmod ?_
  rw [blockOf, hfirst]
  exact h.rest

theorem le_of_begins (h : OneBlock p n c k e) (hi : Begins p n c i) : k ≤ i := by
  by_contra hlt
  obtain ⟨j, hj, hne⟩ := h.front i (not_le.mp hlt)
  have hchar := hi.chars j hj
  rw [blockOf, h.div (h.lt_of_begins hi), h.mod (h.lt_of_begins hi)] at hchar
  exact hne hchar

theorem alike (h : OneBlock p (kernelInode p ino) c k e) (hslot : ino % inodesPerBlock ≠ 0)
    (hdots : ¬ Image.dotDot c) : Alike p ino c := by
  refine ⟨hslot, fun i hi => ⟨k, h.le_of_begins hi, h.holds⟩, fun i hi _ de hde => ?_,
    fun hc => absurd hc hdots⟩
  have hlt : i < e := h.entries ▸ hi.2.1
  rw [h.mod hlt] at hde
  rw [blockOf, h.div hlt]
  exact h.used de (hde.trans hlt)

theorem firstInode (h : OneBlock p n c k e) (hn : DirectOnly n) (hc : Component c) {v : Nat}
    (hv : FirstInode p n c v) : v = deInode (p.block (n.iZone 0)) k := by
  have hfirst : ∀ j < k, ¬ Holds p n c j := by
    intro j hj hheld
    obtain ⟨x, hx, hne⟩ := h.front j hj
    have hchar := (hheld.spec hn hc).2 x hx
    rw [blockOf, h.div (hj.trans h.inside), h.mod (hj.trans h.inside)] at hchar
    exact hne hchar
  have hkth : FirstInode p n c (deInode (p.block (n.iZone 0)) k) := by
    refine ⟨k, h.holds, hfirst, ?_⟩
    rw [blockOf, h.div h.inside, h.mod h.inside]
  exact Option.some.inj (@Finds.unique p n c (some v) (some _) hv hkth)

end OneBlock

/-! A root with a file and a directory in it, where the other file is. -/

def rootData : Block :=
  (1 ||| 46 <<< 16) ||| (1 ||| 46 <<< 16 ||| 46 <<< 24) <<< 128 |||
    (3 ||| 97 <<< 16 ||| 98 <<< 24) <<< 256 ||| (2 ||| 99 <<< 16) <<< 384

def subData : Block :=
  (2 ||| 46 <<< 16) ||| (1 ||| 46 <<< 16 ||| 46 <<< 24) <<< 128 ||| (4 ||| 107 <<< 16) <<< 256

def small : Partition where
  sImapBlocks := 0
  sZmapBlocks := 0
  block z :=
    if z = 2 then 0o040755 ||| 64 <<< 32 ||| 5 <<< 112 |||
      (0o040755 ||| 48 <<< 32 ||| 6 <<< 112) <<< 256 ||| 0o100644 <<< 512 ||| 0o100644 <<< 768
    else if z = 5 then rootData
    else if z = 6 then subData
    else 0

theorem small_block {z : Nat} (hz : z ≠ 2) :
    small.block z = rootData ∨ small.block z = subData ∨ small.block z = 0 := by
  rw [small]
  dsimp only
  rw [if_neg hz]
  split
  · exact .inl rfl
  split
  · exact .inr (.inl rfl)
  · exact .inr (.inr rfl)

theorem small_direct (ino : Nat) (hdir : isDir (kernelInode small ino).iMode = true) :
    DirectOnly (kernelInode small ino) := by
  have hslot : (ino - 1) % inodesPerBlock < 32 := Nat.mod_lt _ (by decide)
  rw [kernelInode] at hdir ⊢
  generalize (ino - 1) % inodesPerBlock = s at hdir hslot ⊢
  by_cases h2 : 2 + small.sImapBlocks + small.sZmapBlocks + (ino - 1) / inodesPerBlock = 2
  · rw [h2] at hdir ⊢
    have hdirs : ∀ s < 32, isDir (readInodeAt (small.block 2) s zeroInode).iMode = true →
      (readInodeAt (small.block 2) s zeroInode).iSize ≤ 1024 ∧
        (readInodeAt (small.block 2) s zeroInode).iZone 0 ≠ 0 := by decide +kernel
    obtain ⟨hsize, hzone⟩ := hdirs s hslot hdir
    refine ⟨by omega, fun k hk => ?_⟩
    obtain rfl : k = 0 := by omega
    exact hzone
  · have hnone : ∀ s < 32, isDir (readInodeAt rootData s zeroInode).iMode = false ∧
        isDir (readInodeAt subData s zeroInode).iMode = false ∧
          isDir (readInodeAt 0 s zeroInode).iMode = false := by decide +kernel
    obtain ⟨hroot, hsub, hzero⟩ := hnone s hslot
    rcases small_block h2 with h | h | h
    · rw [h, hroot] at hdir
      cases hdir
    · rw [h, hsub] at hdir
      cases hdir
    · rw [h, hzero] at hdir
      cases hdir

theorem small_root : OneBlock small (kernelInode small rootIno) [99] 3 4 := by
  constructor <;> decide +kernel

theorem small_sub : OneBlock small (kernelInode small 2) [107] 2 3 := by
  constructor <;> decide +kernel

theorem pathLookup_eq_small :
    kernelLookup small (joined [[99], [107]]) = some (pathLookup small (joined [[99], [107]])
      fun _ => 0) := by
  have hc : Component [99] := ⟨by decide, by decide, by decide⟩
  have hk : Component [107] := ⟨by decide, by decide, by decide⟩
  have ha : Along small rootIno [[99], [107]] := by
    refine ⟨small_root.alike (by decide) (by decide), fun v hv => ⟨?_, fun _ _ => trivial⟩⟩
    have hnum : deInode (small.block ((kernelInode small rootIno).iZone 0)) 3 = 2 := by
      decide +kernel
    rw [small_root.firstInode (small_direct _ small_root.dir) hc hv, hnum]
    exact small_sub.alike (by decide) (by decide)
  exact pathLookup_eq small_direct (by simpa using ⟨hc, hk⟩) (by decide) ha _

/-- The loader takes `ab` for `a`. -/
theorem pathLookup_begin : ¬ ∀ (p : Partition) (comps : List Name) (m : Memory),
    (∀ ino, isDir (kernelInode p ino).iMode = true → DirectOnly (kernelInode p ino)) →
      (∀ c ∈ comps, Component c) → comps ≠ [] → kernelLookup p (joined comps) =
        some (pathLookup p (joined comps) m) := by
  intro h
  have hc : Component [97] := ⟨by decide, by decide, by decide⟩
  have heq := h small [[97]] (fun _ => 0) small_direct (by simpa using hc) (by decide)
  revert heq
  decide +kernel

end Gpos.Boot
