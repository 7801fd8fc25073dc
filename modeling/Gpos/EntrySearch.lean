import Gpos.Directory

/-! `find_entry` on the contents of a disk. What `bread` gives for a block
does not change, so that a search is a function of the directory. -/

namespace Gpos.Image

open Fs BlockMap

/-- The blocks of a device; `none` for a block that cannot be read. -/
abbrev Reader := Nat → Option Block

section

variable (read : Reader) (dir : MInode)

/-- What `_bmap` works on; a buffer is known by the number of its block. -/
def ops : Ops Unit where
  iDev _ := pure dir.iDev
  iZone _ k := pure (dir.iZone k)
  setZone _ _ _ := failure
  newBlock _ := failure
  bread _ z := pure ((read z).map fun _ => z)
  entry z j := fun s => (read z).map fun b => (getBits b (16 * j) 16, s)
  setEntry _ _ _ := failure
  brelse _ := pure ()

/-- `none` is the panic of a block that is too big. -/
def bmap (k : Nat) : Option Nat := ((BlockMap.bmap (ops read dir) 0 k).run ()).map Prod.fst

/-- Block `k` of the directory with its number, if it is there and can be read. -/
def blockAt (k : Nat) : Option (Option (Nat × Block)) :=
  (bmap read dir k).map fun z => if z = 0 then none else (read z).map fun b => (z, b)

/-- The `while` loop of `find_entry`. Behind a block that is missing there is
no buffer, and the loop goes through the null pointer if it is not at its end. -/
def scan (len : Nat) (name : Name) (entries : Nat) :
    Nat → Option (Nat × Block) → Nat → Nat → Option (Option (Nat × Nat))
  | 0, _, _, _ => none
  | rounds + 1, bh, de, i =>
    if entries ≤ i then some none
    else match bh with
    | none => none
    | some bh =>
      if dirEntriesPerBlock ≤ de then
        match blockAt read dir (i / dirEntriesPerBlock) with
        | none => none
        | some none => scan len name entries rounds none de (i + dirEntriesPerBlock)
        | some (some bh) =>
          if matchEntry len name bh.2 0 then some (some (bh.1, 0))
            else scan len name entries rounds (some bh) 1 (i + 1)
      else if matchEntry len name bh.2 de then some (some (bh.1, de))
      else scan len name entries rounds (some bh) (de + 1) (i + 1)

def dotDot (name : Name) : Prop := name.length = 2 ∧ name.getD 0 0 = dot ∧ name.getD 1 0 = dot

instance (name : Name) : Decidable (dotDot name) := inferInstanceAs (Decidable (_ ∧ _))

def entries : Nat := dir.iSize / 16

/-- The number of the block and that of the entry in it; `isRoot` tells that
the directory is the root of the task. Nothing is mounted. -/
def findEntry (isRoot : Bool) (name : Name) : Option (Option (Nat × Nat)) :=
  let len := min name.length nameLen
  if len = 0 then some none
  else
    let len := if dotDot name ∧ isRoot then 1 else len
    if dir.iZone 0 = 0 then some none
    else match read (dir.iZone 0) with
    | none => some none
    | some b => scan read dir len name (entries dir) (entries dir + 1) (some (dir.iZone 0, b)) 0 0

end

/-- The name of an entry, without the zeros behind it. -/
def entryName (b : Block) (de : Nat) : Name :=
  ((List.range nameLen).map (deName b de)).takeWhile (· ≠ 0)

section

variable (read : Reader) (dir : MInode)

/-- Entry `i` of the directory with the number of its block. -/
def entryAt (i : Nat) : Option (Nat × Block) := (blockAt read dir (i / dirEntriesPerBlock)).join

def Named (name : Name) (i : Nat) : Prop :=
  ∃ z b, entryAt read dir i = some (z, b) ∧ deInode b (i % dirEntriesPerBlock) ≠ 0 ∧
    entryName b (i % dirEntriesPerBlock) = name.take nameLen

def IsFirst (name : Name) : Option (Nat × Nat) → Prop
  | none => ∀ i < entries dir, ¬ Named read dir name i
  | some (z, de) => ∃ i < entries dir, Named read dir name i ∧ (∀ j < i, ¬ Named read dir name j) ∧
      bmap read dir (i / dirEntriesPerBlock) = some z ∧ de = i % dirEntriesPerBlock

/-- The loop gets over block `k`: a block that is missing is the last one. -/
def Passes (k : Nat) : Prop :=
  (∃ bh, blockAt read dir k = some (some bh)) ∨
    blockAt read dir k = some none ∧ entries dir ≤ dirEntriesPerBlock * (k + 1)

/-- The loop gets over every later block that it comes to. -/
def Clear (name : Name) (k : Nat) : Prop :=
  ∀ k', k < k' → dirEntriesPerBlock * k' < entries dir →
    (∀ i < dirEntriesPerBlock * k', ¬ Named read dir name i) → Passes read dir k'

end

theorem takeWhile_eq_iff {l m : Name} (hm : ∀ c ∈ m, c ≠ 0) (hl : m.length ≤ l.length) :
    l.takeWhile (· ≠ 0) = m ↔ (∀ j < m.length, m.getD j 0 = l.getD j 0) ∧
      (m.length < l.length → l.getD m.length 0 = 0) := by
  induction m generalizing l with
  | nil =>
    cases l with
    | nil => simp
    | cons c l => simp [List.takeWhile_cons]
  | cons d m ih =>
    cases l with
    | nil => simp at hl
    | cons c l =>
      have hd : d ≠ 0 := hm d (List.mem_cons_self ..)
      have ih := @ih l (fun c hc => hm c (List.mem_cons_of_mem _ hc)) (by simpa using hl)
      by_cases hcd : c = d
      · subst hcd
        simp only [List.takeWhile_cons, decide_eq_true hd, if_true, List.cons.injEq, true_and, ih,
          List.length_cons, Nat.add_lt_add_iff_right, List.getD_cons_succ]
        refine and_congr_left fun _ => ⟨fun h j hj => ?_, fun h j hj => h (j + 1) (by omega)⟩
        cases j with
        | zero => rfl
        | succ j => exact h j (by omega)
      · constructor
        · intro h
          rw [List.takeWhile_cons] at h
          split at h
          · exact absurd (List.cons.inj h).1 hcd
          · cases h
        · rintro ⟨h, -⟩
          exact absurd (h 0 (Nat.succ_pos _)).symm hcd

theorem matchEntry_iff {name : Name} (hname : ∀ c ∈ name, c ≠ 0) (b : Block) (de : Nat) :
    matchEntry (min name.length nameLen) name b de = true ↔
      deInode b de ≠ 0 ∧ entryName b de = name.take nameLen := by
  have hbytes : ∀ j < nameLen, ((List.range nameLen).map (deName b de)).getD j 0 =
    deName b de j := by
    intro j hj
    simp [List.getD_eq_getElem?_getD, List.getElem?_map, List.getElem?_range hj]
  have hlen : (name.take nameLen).length = min name.length nameLen := by
    rw [List.length_take, Nat.min_comm]
  have htake : ∀ j < min name.length nameLen, (name.take nameLen).getD j 0 = name.getD j 0 := by
    intro j hj
    simp [List.getD_eq_getElem?_getD, show j < nameLen by omega]
  have hle : min name.length nameLen ≤ nameLen := Nat.min_le_right _ _
  rw [entryName, takeWhile_eq_iff (fun c hc => hname c (List.mem_of_mem_take hc)) (by simp),
    hlen, matchEntry, List.length_map, List.length_range]
  by_cases hin : deInode b de = 0
  · simp [hin]
  · rw [if_neg (not_or.mpr ⟨hin, not_lt.mpr hle⟩)]
    split
    next hend =>
      refine iff_of_false (by simp) fun h => hend.2 ?_
      rw [← hbytes _ hend.1]
      exact h.2.2 hend.1
    next hend =>
      rw [List.all_eq_true]
      refine ⟨fun h => ⟨hin, fun j hj => ?_, fun hlt => ?_⟩, fun h j hj => ?_⟩
      · rw [htake j hj, hbytes j (by omega)]
        exact beq_iff_eq.mp (h j (List.mem_range.mpr hj))
      · rw [hbytes _ hlt]
        by_contra hne
        exact hend ⟨hlt, hne⟩
      · have hj := List.mem_range.mp hj
        have := h.2.1 j hj
        rw [htake j hj, hbytes j (by omega)] at this
        exact beq_iff_eq.mpr this

section

variable {read : Reader} {dir : MInode} {name : Name} {len : Nat}

theorem named_iff {i k z : Nat} {b : Block} (hk : i / dirEntriesPerBlock = k)
    (hb : blockAt read dir k = some (some (z, b))) :
    Named read dir name i ↔ deInode b (i % dirEntriesPerBlock) ≠ 0 ∧
      entryName b (i % dirEntriesPerBlock) = name.take nameLen := by
  have hat : entryAt read dir i = some (z, b) := by rw [entryAt, hk, hb]; rfl
  constructor
  · rintro ⟨z', b', h, hn⟩
    rw [hat] at h
    cases h
    exact hn
  · exact fun hn => ⟨z, b, hat, hn⟩

theorem bmap_of_blockAt {k z : Nat} {b : Block} (hb : blockAt read dir k = some (some (z, b))) :
    bmap read dir k = some z := by
  rw [blockAt, Option.map_eq_some_iff] at hb
  obtain ⟨w, hw, h⟩ := hb
  split at h
  · cases h
  · obtain ⟨b', -, h⟩ := Option.map_eq_some_iff.mp h
    cases h
    exact hw

theorem IsFirst.unique {r r' : Option (Nat × Nat)} (h : IsFirst read dir name r)
    (h' : IsFirst read dir name r') : r = r' := by
  cases r with
  | none =>
    cases r' with
    | none => rfl
    | some _ =>
      obtain ⟨i, hi, hn, -⟩ := h'
      exact absurd hn (h i hi)
  | some _ =>
    obtain ⟨i, hi, hn, hfirst, hmap, hde⟩ := h
    cases r' with
    | none => exact absurd hn (h' i hi)
    | some _ =>
      obtain ⟨j, hj, hn', hfirst', hmap', hde'⟩ := h'
      obtain rfl : i = j := (Nat.lt_trichotomy i j).elim (fun hlt => absurd hn (hfirst' i hlt))
        fun h => h.elim id fun hgt => absurd hn' (hfirst j hgt)
      exact congrArg some (Prod.ext (Option.some.inj (hmap.symm.trans hmap')) (hde.trans hde'.symm))

/-- The loop in front of entry `i` ends right if and only if it gets over the blocks behind block `k`. -/
def Ends (read : Reader) (dir : MInode) (name : Name) (k : Nat)
    (outcome : Option (Option (Nat × Nat))) : Prop :=
  (∃ r, outcome = some r ∧ IsFirst read dir name r) ↔ Clear read dir name k

theorem ends_match {i k z : Nat} {b : Block} (hi : i < entries dir)
    (hk : i / dirEntriesPerBlock = k) (hb : blockAt read dir k = some (some (z, b)))
    (hn : Named read dir name i) (hfirst : ∀ j < i, ¬ Named read dir name j) :
    Ends read dir name k (some (some (z, i % dirEntriesPerBlock))) := by
  refine iff_of_true ⟨_, rfl, i, hi, hn, hfirst, ?_, rfl⟩ fun k' hlt _ hnone =>
    absurd hn (hnone i ?_)
  · rw [hk]
    exact bmap_of_blockAt hb
  · have : i < dirEntriesPerBlock * (k + 1) := by
      rw [← hk]
      exact Nat.lt_mul_div_succ i (by decide)
    exact lt_of_lt_of_le this (Nat.mul_le_mul_left _ hlt)

theorem Ends.next {k : Nat} {outcome : Option (Option (Nat × Nat))}
    (h : Ends read dir name (k + 1) outcome)
    (hb : ∃ bh, blockAt read dir (k + 1) = some (some bh)) : Ends read dir name k outcome := by
  refine h.trans ⟨fun hc k' hlt hk hn => ?_, fun hc k' hlt => hc k' (by omega)⟩
  rcases eq_or_lt_of_le (Nat.succ_le_of_lt hlt) with rfl | hlt
  · exact Or.inl hb
  · exact hc k' hlt hk hn

theorem ends_stop {k : Nat} (hle : entries dir ≤ dirEntriesPerBlock * (k + 1))
    (hnone : ∀ j < entries dir, ¬ Named read dir name j) : Ends read dir name k (some none) := by
  refine iff_of_true ⟨_, rfl, hnone⟩ fun k' hlt hk _ => absurd hk (not_lt.mpr (hle.trans ?_))
  exact Nat.mul_le_mul_left _ hlt

theorem ends_lost {k : Nat} (hlt : dirEntriesPerBlock * (k + 1) < entries dir)
    (hnone : ∀ j < dirEntriesPerBlock * (k + 1), ¬ Named read dir name j)
    (hp : ¬ Passes read dir (k + 1)) :
    Ends read dir name k none :=
  iff_of_false (fun ⟨_, h, _⟩ => nomatch h) fun hc => hp (hc (k + 1) (Nat.lt_succ_self k) hlt hnone)

theorem scan_none (rounds : Nat) {de i : Nat} :
    scan read dir len name (entries dir) (rounds + 1) none de i =
      if entries dir ≤ i then some none else none := rfl

theorem ends_missing {k i : Nat} (hi : i = dirEntriesPerBlock * (k + 1)) (hlt : i < entries dir)
    (hb : blockAt read dir (k + 1) = some none) (hfirst : ∀ j < i, ¬ Named read dir name j) :
    Ends read dir name k (if entries dir ≤ i + dirEntriesPerBlock then some none else none) := by
  have hsucc : dirEntriesPerBlock * (k + 1 + 1) = i + dirEntriesPerBlock := by
    rw [hi]; exact Nat.mul_succ _ _
  split
  next hle =>
    have hnone : ∀ j < entries dir, ¬ Named read dir name j := by
      intro j hj hn
      rcases lt_or_ge j i with hji | hji
      · exact hfirst j hji hn
      · obtain ⟨z, b, hat, -⟩ := hn
        have hk : j / dirEntriesPerBlock = k + 1 := by
          refine Nat.div_eq_of_lt_le ?_ ?_
          · rwa [Nat.mul_comm, ← hi]
          · rw [Nat.mul_comm, hsucc]
            omega
        rw [entryAt, hk, hb] at hat
        cases hat
    refine iff_of_true ⟨_, rfl, hnone⟩ fun k' hk' hin _ => ?_
    rcases eq_or_lt_of_le (Nat.succ_le_of_lt hk') with rfl | hk'
    · exact Or.inr ⟨hb, hsucc ▸ hle⟩
    · have hfar : dirEntriesPerBlock * (k + 1 + 1) ≤ dirEntriesPerBlock * k' :=
        Nat.mul_le_mul_left _ hk'
      omega
  next hgt =>
    refine ends_lost (hi ▸ hlt) (hi ▸ hfirst) ?_
    rintro (⟨bh, h⟩ | ⟨-, h⟩)
    · rw [hb] at h
      cases h
    · exact hgt (hsucc ▸ h)

theorem ends_scan {text : Name}
    (hmatch : ∀ b de, matchEntry len text b de = true ↔
      deInode b de ≠ 0 ∧ entryName b de = name.take nameLen) (rounds : Nat)
    {z k de i : Nat} {b : Block} (hb : blockAt read dir k = some (some (z, b)))
    (hde : de ≤ dirEntriesPerBlock)
    (hi : i = dirEntriesPerBlock * k + de) (hle : i ≤ entries dir) (hr : entries dir < i + rounds)
    (hfirst : ∀ j < i, ¬ Named read dir name j) :
    Ends read dir name k (scan read dir len text (entries dir) rounds (some (z, b)) de i) := by
  induction rounds generalizing z k de i b with
  | zero => omega
  | succ rounds ih =>
    have hsucc : dirEntriesPerBlock * (k + 1) = dirEntriesPerBlock * k + dirEntriesPerBlock :=
      Nat.mul_succ _ _
    rw [scan]
    split
    next hend => exact ends_stop (by omega) fun j hj => hfirst j (by omega)
    next hgo =>
      dsimp only
      split
      next hfull =>
        have hi' : i = dirEntriesPerBlock * (k + 1) := by omega
        have hk : i / dirEntriesPerBlock = k + 1 := by
          rw [hi', Nat.mul_div_cancel_left _ (by decide)]
        have hmod : i % dirEntriesPerBlock = 0 := by rw [hi', Nat.mul_mod_right]
        rw [hk]
        split
        next hpanic =>
          refine ends_lost (hi' ▸ not_le.mp hgo) (hi' ▸ hfirst) ?_
          rintro (⟨bh, h⟩ | ⟨h, -⟩) <;> rw [hpanic] at h <;> cases h
        next hmissing =>
          obtain ⟨rounds, rfl⟩ : ∃ n, rounds = n + 1 := ⟨rounds - 1, by omega⟩
          rw [scan_none]
          exact ends_missing hi' (not_le.mp hgo) hmissing hfirst
        next bh hb' =>
          have hn := @named_iff read dir name i (k + 1) bh.1 bh.2 hk hb'
          rw [hmod, ← hmatch] at hn
          refine Ends.next ?_ ⟨bh, hb'⟩
          split
          next hm =>
            have hend := ends_match (not_le.mp hgo) hk hb' (hn.mpr hm) hfirst
            rwa [hmod] at hend
          next hm =>
            refine ih hb' (by decide) (congrArg (· + 1) hi') (by omega) (by omega) fun j hj => ?_
            rcases Nat.lt_succ_iff_lt_or_eq.mp hj with hj | rfl
            · exact hfirst j hj
            · exact fun h => hm (hn.mp h)
      next hroom =>
        have hk : i / dirEntriesPerBlock = k := by rw [hi, div_dirEntriesPerBlock (not_le.mp hroom)]
        have hmod : i % dirEntriesPerBlock = de := by
          rw [hi, mod_dirEntriesPerBlock (not_le.mp hroom)]
        have hn := @named_iff read dir name i k z b hk hb
        rw [hmod, ← hmatch] at hn
        split
        next hm =>
          rw [← hmod]
          exact ends_match (not_le.mp hgo) hk hb (hn.mpr hm) hfirst
        next hm =>
          refine ih hb (by omega) (by omega) (by omega) (by omega) fun j hj => ?_
          rcases Nat.lt_succ_iff_lt_or_eq.mp hj with hj | rfl
          · exact hfirst j hj
          · exact fun h => hm (hn.mp h)

/-- A directory whose first block cannot be read is searched as if it were empty. -/
def FirstReadable (read : Reader) (dir : MInode) (name : Name) : Prop :=
  read (dir.iZone 0) = none → ∀ i < entries dir, ¬ Named read dir name i

theorem bmap_direct {k : Nat} (hk : k < 7) : bmap read dir k = some (dir.iZone k) := by
  have hbig : ¬ maxBlocks ≤ k := by
    have : 7 ≤ maxBlocks := by decide
    omega
  simp [bmap, BlockMap.bmap, bmapCreate, hbig, hk, zoneOrNew, ops]

def indexEntry (read : Reader) (z j : Nat) : Nat :=
  if z = 0 then 0 else ((read z).map fun b => getBits b (16 * j) 16).getD 0

theorem entryOrNew_eq (z j : Nat) :
    entryOrNew (ops read dir) false 0 z j = fun s => some (indexEntry read z j, s) := by
  funext s
  unfold entryOrNew indexEntry
  split
  · rfl
  · cases h : read z with
    | none => simp [ops, h, Program.bind_eq, Program.pure_eq]
    | some b => simp [ops, h, Program.bind_eq, Program.pure_eq]

theorem zoneOrNew_eq (k : Nat) :
    zoneOrNew (ops read dir) false 0 k = fun s => some (dir.iZone k, s) := by
  funext s
  simp [zoneOrNew, ops, Program.pure_eq]

theorem bmap_indirect {j : Nat} (hj : j < 512) :
    bmap read dir (7 + j) = some (indexEntry read (dir.iZone 7) j) := by
  have hbig : ¬ maxBlocks ≤ 7 + j := by
    have : maxBlocks = 262663 := rfl
    omega
  have hdirect : ¬ 7 + j < 7 := by omega
  rw [bmap, BlockMap.bmap, bmapCreate, if_neg hbig, if_neg hdirect, Nat.add_sub_cancel_left,
    if_pos hj, zoneOrNew_eq]
  show Option.map Prod.fst (entryOrNew (ops read dir) false 0 (dir.iZone 7) j ()) = _
  rw [entryOrNew_eq]
  rfl

theorem bmap_double {a b : Nat} (ha : a < 512) (hb : b < 512) :
    bmap read dir (519 + (512 * a + b)) = some (indexEntry read
      (indexEntry read (dir.iZone 8) a) b) := by
  have hbig : ¬ maxBlocks ≤ 519 + (512 * a + b) := by
    have : maxBlocks = 262663 := rfl
    omega
  have hdirect : ¬ 519 + (512 * a + b) < 7 := by omega
  have hindirect : ¬ 519 + (512 * a + b) - 7 < 512 := by omega
  have hrest : 519 + (512 * a + b) - 7 - 512 = 512 * a + b := by omega
  have hdiv : (512 * a + b) / 512 = a := by omega
  have hmod : (512 * a + b) % 512 = b := by omega
  rw [bmap, BlockMap.bmap, bmapCreate, if_neg hbig, if_neg hdirect, if_neg hindirect, zoneOrNew_eq]
  dsimp only
  rw [hrest, hdiv, hmod]
  show Option.map Prod.fst ((entryOrNew (ops read dir) false 0 (dir.iZone 8) a >>=
    fun i => entryOrNew (ops read dir) false 0 i b) ()) = _
  rw [entryOrNew_eq, Program.bind_eq, Option.bind_some, entryOrNew_eq]
  rfl

theorem bmap_eq_none {k : Nat} (hk : maxBlocks ≤ k) : bmap read dir k = none := by
  rw [bmap, BlockMap.bmap, bmapCreate, if_pos hk]
  rfl

theorem bmap_isSome {k : Nat} (hk : k < maxBlocks) : ∃ z, bmap read dir k = some z := by
  have hmax : maxBlocks = 262663 := rfl
  by_cases hdirect : k < 7
  · exact ⟨_, bmap_direct hdirect⟩
  by_cases hindirect : k < 519
  · have h := @bmap_indirect read dir (k - 7) (by omega)
    rw [show 7 + (k - 7) = k by omega] at h
    exact ⟨_, h⟩
  · have h := @bmap_double read dir ((k - 519) / 512) ((k - 519) % 512) (by omega) (by omega)
    rw [Nat.div_add_mod, show 519 + (k - 519) = k by omega] at h
    exact ⟨_, h⟩

/-- The name that is searched for: `..` is `.` in the root of the task. -/
def searchName (isRoot : Bool) (name : Name) : Name := if dotDot name ∧ isRoot then [dot] else name

theorem matchEntry_search {isRoot : Bool} (hname : ∀ c ∈ name, c ≠ 0) (b : Block) (de : Nat) :
    matchEntry (if dotDot name ∧ isRoot then 1 else min name.length nameLen) name b de = true ↔
      deInode b de ≠ 0 ∧ entryName b de = (searchName isRoot name).take nameLen := by
  unfold searchName
  split
  next h =>
    have hone : matchEntry 1 name b de = matchEntry (min [dot].length nameLen) [dot] b de := by
      have hfirst : name.getD 0 0 = [dot].getD 0 0 := h.1.2.1
      show (if _ then false else if _ then false else (List.range 1).all fun j =>
        name.getD j 0 == deName b de j) = if _ then false else if _ then false
          else (List.range 1).all fun j => [dot].getD j 0 == deName b de j
      simp only [List.range_one, List.all_cons, hfirst]
      rfl
    rw [hone]
    exact matchEntry_iff (by decide) b de
  next => exact matchEntry_iff hname b de

theorem findEntry_ends {isRoot : Bool} {b : Block} (hzone : dir.iZone 0 ≠ 0)
    (hread : read (dir.iZone 0) = some b) (hname : ∀ c ∈ name, c ≠ 0) (hlen : name ≠ []) :
    Ends read dir (searchName isRoot name) 0 (findEntry read dir isRoot name) := by
  have hpos : min name.length nameLen ≠ 0 := by
    have := List.length_pos_iff.mpr hlen
    have : 0 < nameLen := by decide
    omega
  have hb : blockAt read dir 0 = some (some (dir.iZone 0, b)) := by
    rw [blockAt, bmap_direct (by decide), Option.map_some, if_neg hzone, hread]
    rfl
  rw [findEntry, if_neg hpos, if_neg hzone, hread]
  exact ends_scan (matchEntry_search hname) (entries dir + 1) hb (Nat.zero_le _) rfl
    (Nat.zero_le _) (by omega)
    fun j hj => absurd hj (Nat.not_lt_zero j)

/-- The search gives the first entry with the name if and only if every block
that is missing in front of it is the last one. -/
theorem findEntry_iff (isRoot : Bool) (hzone : dir.iZone 0 ≠ 0) (hname : ∀ c ∈ name, c ≠ 0)
    (hlen : name ≠ []) (hdots : ¬ dotDot name) :
    (∃ r, findEntry read dir isRoot name = some r ∧ IsFirst read dir name r) ↔
      FirstReadable read dir name ∧ (read (dir.iZone 0) ≠ none → Clear read dir name 0) := by
  cases hread : read (dir.iZone 0) with
  | none =>
    have hnone : findEntry read dir isRoot name = some none := by
      rw [findEntry, hread]
      dsimp only
      split <;> rfl
    refine ⟨fun ⟨r, hr, hf⟩ => ⟨fun _ => ?_, fun h => absurd rfl h⟩,
      fun h => ⟨none, hnone, h.1 hread⟩⟩
    rw [hnone] at hr
    cases hr
    exact hf
  | some b =>
    have hend := @findEntry_ends read dir name isRoot b hzone hread hname hlen
    rw [searchName, if_neg (fun h => hdots h.1)] at hend
    refine hend.trans ⟨fun h => ⟨fun h' => ?_, fun _ => h⟩, fun h => h.2 (by simp)⟩
    rw [hread] at h'
    cases h'

end

/-- The first block has entries of other names, the next one has an unused entry in front. -/
def entryBlocks : Reader := fun z =>
  some (if z = 1 then 1 ||| 97 <<< 16 ||| (2 ||| 98 <<< 16 ||| 99 <<< 24) <<< 128
    else if z = 2 then 98 <<< 16 ||| (3 ||| 98 <<< 16) <<< 128
    else 0)

/-- A directory of three blocks, the last one is a hole. -/
def smallDir : MInode :=
  { zeroInode with
    iMode := 0o040000, iSize := 130 * 16
    iZone := fun k => if k = 0 then 1 else if k = 1 then 2 else 0 }

theorem findEntry_small : findEntry entryBlocks smallDir true [98] = some (some (2, 1)) ∧
    IsFirst entryBlocks smallDir [98] (some (2, 1)) := by
  obtain ⟨r, hr, hfirst⟩ : ∃ r, findEntry entryBlocks smallDir true [98] = some r ∧
      IsFirst entryBlocks smallDir [98] r := by
    refine (findEntry_iff true (by decide) (by decide) (by decide) (by decide)).mpr
      ⟨fun h => (nomatch h), fun _ k hk hlt _ => ?_⟩
    have h64 : dirEntriesPerBlock = 64 := rfl
    have hsize : entries smallDir = 130 := rfl
    rw [h64, hsize] at hlt
    obtain rfl | rfl : k = 1 ∨ k = 2 := by omega
    · exact .inl ⟨_, rfl⟩
    · exact .inr ⟨rfl, by decide⟩
  have hfind : findEntry entryBlocks smallDir true [98] = some (some (2, 1)) := by decide +kernel
  rw [hfind] at hr
  cases hr
  exact ⟨hfind, hfirst⟩

/-- Here the second block is the hole. -/
def holedDir : MInode :=
  { zeroInode with
    iMode := 0o040000, iSize := 129 * 16, iZone := fun k => if k = 0 ∨ k = 2 then 1 else 0 }

/-- The search goes on behind the hole without a buffer. -/
theorem findEntry_holed :
    ¬ ∀ (read : Reader) (dir : MInode) (isRoot : Bool) (name : Name), dir.iZone 0 ≠ 0 →
    (∀ c ∈ name, c ≠ 0) → name ≠ [] → ¬ dotDot name → (∀ z, read z ≠ none) →
      ∃ r, findEntry read dir isRoot name = some r ∧ IsFirst read dir name r := by
  intro h
  obtain ⟨r, hr, -⟩ :=
    h (fun _ => some 0) holedDir true [97] (by decide) (by decide) (by decide) (by decide) (by simp)
  have hlost : findEntry (fun _ => some 0) holedDir true [97] = none := by decide +kernel
  rw [hlost] at hr
  cases hr

end Gpos.Image
