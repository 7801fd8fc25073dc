import Gpos.DirEntries
import Gpos.Run

/-! Tasks that open names in a directory with `O_CREAT`. A task goes on from
one point where it can sleep to the next; a block is searched in between. -/

namespace Gpos.Creat

open Fs Image

structure Dir where
  iSize : Nat
  /-- What `bmap` leads to. -/
  block : Nat → Option Block

/-- Where a task is in `open_namei`; `i` is an entry at the start of a block. -/
inductive Pc
  | out
  /-- `find_entry` in front of the block of entry `i`. -/
  | lookup (name : Name) (entries i : Nat)
  /-- `new_inode` -/
  | create (name : Name)
  /-- `add_entry` in front of `create_block`. -/
  | insert (name : Name) (v : BitVec 16) (i : Nat)
  /-- `create_block`, which has found no block. -/
  | grow (name : Name) (v : BitVec 16) (i : Nat)
  /-- `add_entry` waits for the block. -/
  | fetch (name : Name) (v : BitVec 16) (i : Nat)
  /-- `iget` of an entry that was found. -/
  | load (name : Name) (v : Nat)

/-- The number of tasks in `create_block` is recorded, and the files that were
opened. After a null pointer, or two tasks in `create_block` at once, which can
lose blocks, nothing is known any more. -/
structure St (T : Type) where
  dir : Dir
  pc : T → Pc
  growers : Nat
  unknown : Bool
  opened : List (Name × Nat)

/-- A task begins, or gets an answer: whether the call was successful, and the number of the new inode. -/
inductive Event
  | enter (name : Name)
  | answer (ok : Bool) (v : BitVec 16)

/-- The first entry of a block that `find_entry` takes. -/
def findIn (len : Nat) (name : Name) (entries i : Nat) (b : Block) : Option Nat :=
  (List.range dirEntriesPerBlock).find? fun de => decide (i + de < entries) &&
    matchEntry len name b de

/-- The first entry of a block that `add_entry` takes. -/
def freeIn (iSize i : Nat) (b : Block) : Option Nat :=
  (List.range dirEntriesPerBlock).find? fun de => decide (iSize ≤ 16 * (i + de)) ||
    decide (deInode b de = 0)

/-- The new entry, behind the last one or at one that is not in use. -/
def Dir.add (d : Dir) (name : Name) (v i de : Nat) (b : Block) : Dir where
  iSize := if d.iSize ≤ 16 * (i + de) then 16 * (i + de + 1) else d.iSize
  block := Function.update d.block (i / dirEntriesPerBlock) (some (fillEntry name de v b))

section

variable {T : Type} [DecidableEq T]

def St.goto (s : St T) (t : T) (p : Pc) : St T := { s with pc := Function.update s.pc t p }

def St.finish (s : St T) (t : T) (name : Name) (v : Nat) : St T :=
  { s.goto t .out with opened := (name, v) :: s.opened }

variable (root : T → Bool)

/-- The length to search with; `..` in the root of the task is `.`. -/
def seekLen (t : T) (name : Name) : Nat :=
  if root t = true ∧ dotDot name then 1 else min name.length nameLen

def lookupStep (t : T) (name : Name) (entries i : Nat) (b : Option Block) (s : St T) : St T :=
  match b with
  | none =>
    if i = 0 ∨ entries ≤ i + dirEntriesPerBlock then s.goto t (.create name)
      else { s with unknown := true }
  | some b =>
    match findIn (seekLen root t name) name entries i b with
    | some de => s.goto t (.load name (deInode b de))
    | none =>
      s.goto t (if entries ≤ i + dirEntriesPerBlock then .create name
        else .lookup name entries (i + dirEntriesPerBlock))

def insertStep (t : T) (name : Name) (v : BitVec 16) (i : Nat) (s : St T) : St T :=
  if (s.dir.block (i / dirEntriesPerBlock)).isSome then s.goto t (.fetch name v i)
  else { s.goto t (.grow name v i) with
    growers := s.growers + 1, unknown := decide (s.growers ≠ 0) }

def growStep (t : T) (name : Name) (v : BitVec 16) (i : Nat) (ok : Bool) (s : St T) : St T :=
  if ok then
    { s.goto t (.fetch name v i) with
      dir := { s.dir with block := Function.update s.dir.block (i / dirEntriesPerBlock) (some 0) }
      growers := s.growers - 1 }
  else { s.goto t .out with growers := s.growers - 1 }

def fetchStep (t : T) (name : Name) (v : BitVec 16) (i : Nat) (b : Option Block) (s : St T) :
    St T :=
  match b with
  | none => if i = 0 then s.goto t .out else { s with unknown := true }
  | some b =>
    match freeIn s.dir.iSize i b with
    | some de => { s.finish t name v.toNat with dir := s.dir.add name v.toNat i de b }
    | none => s.goto t (.insert name v (i + dirEntriesPerBlock))

/-- The task goes on to the next point where it can sleep. -/
def step (a : T × Event) (s : St T) : Option (St T) :=
  if s.unknown then none
  else match s.pc a.1, a.2 with
  | .out, .enter name =>
    if name = [] ∨ 0 ∈ name then none else some (s.goto a.1 (.lookup name (s.dir.iSize / 16) 0))
  | .lookup name entries i, .answer ok _ =>
    some (lookupStep root a.1 name entries i (if ok then s.dir.block
      (i / dirEntriesPerBlock) else none) s)
  | .create name, .answer ok v =>
    some (s.goto a.1 (if ok = true ∧ (s.dir.block 0).isSome then .fetch name v 0 else .out))
  | .insert name v i, .answer ok _ =>
    some (if ok then insertStep a.1 name v i s else s.goto a.1 .out)
  | .grow name v i, .answer ok _ => some (growStep a.1 name v i ok s)
  | .fetch name v i, .answer ok _ =>
    some (fetchStep a.1 name v i (if ok then s.dir.block (i / dirEntriesPerBlock) else none) s)
  | .load name v, .answer ok _ => some (if ok then s.finish a.1 name v else s.goto a.1 .out)
  | _, _ => none

end

/-- An entry that is in use: its name and its inode. -/
def Dir.entry (d : Dir) (j : Nat) : Option (Name × Nat) :=
  if j < d.iSize / 16 then
    (d.block (j / dirEntriesPerBlock)).bind fun b =>
      if deInode b (j % dirEntriesPerBlock) = 0 then none
      else some (entryName b (j % dirEntriesPerBlock), deInode b (j % dirEntriesPerBlock))
  else none

/-- No two entries have the same name. -/
def Dir.Unique (d : Dir) : Prop :=
  ∀ i j x v w, d.entry i = some (x, v) → d.entry j = some (x, w) → i = j

section

variable {T : Type}

/-- Names are unique, and a name was opened as one inode. -/
def Safe (s : St T) : Prop :=
  s.dir.Unique ∧ ∀ p ∈ s.opened, ∀ q ∈ s.opened, p.1.take nameLen = q.1.take nameLen → p.2 = q.2

/-- The name that a task has looked up and may still insert. -/
def Pc.pending : Pc → Option Name
  | .lookup name _ _ | .create name | .insert name _ _ | .grow name _ _ | .fetch name _ _ =>
    some (name.take nameLen)
  | _ => none

/-- The condition on a step: a name is not opened between the lookup and the
insertion of another task, blocks of the directory can be read, and two
tasks do not add a block at once. -/
def Apart (root : T → Bool) (s : St T) (a : T × Event) : Prop :=
  match s.pc a.1, a.2 with
  | .out, .enter name =>
    ¬ (root a.1 = true ∧ dotDot name) ∧ ∀ t, t ≠ a.1 → (s.pc t).pending ≠ some (name.take nameLen)
  | .lookup _ _ i, .answer ok _ => ok = true ∧ (s.dir.block (i / dirEntriesPerBlock)).isSome
  | .create _, .answer _ v => v ≠ 0
  | .insert _ _ i, .answer _ _ => (s.dir.block (i / dirEntriesPerBlock)).isSome ∨ s.growers = 0
  | .fetch _ _ i, .answer ok _ => ok = true ∨ i = 0
  | _, _ => True

instance [Fintype T] [DecidableEq T] (root : T → Bool) (s : St T) (a : T × Event) :
    Decidable (Apart root s a) := by
  unfold Apart
  split <;> infer_instance

def atStart (d : Dir) : St T := ⟨d, fun _ => .out, 0, false, []⟩

end

theorem findIn_some {len entries i de : Nat} {name : Name} {b : Block}
    (h : findIn len name entries i b = some de) :
    de < dirEntriesPerBlock ∧ i + de < entries ∧ matchEntry len name b de = true := by
  have hmem := List.mem_range.mp (List.mem_of_find?_eq_some h)
  have hp := List.find?_some h
  rw [Bool.and_eq_true, decide_eq_true_eq] at hp
  exact ⟨hmem, hp⟩

theorem findIn_none {len entries i de : Nat} {name : Name} {b : Block}
    (h : findIn len name entries i b = none) (hde : de < dirEntriesPerBlock)
    (hlt : i + de < entries) : ¬ matchEntry len name b de = true := by
  have hp := List.find?_eq_none.mp h de (List.mem_range.mpr hde)
  rw [Bool.and_eq_true, decide_eq_true_eq] at hp
  exact fun hm => hp ⟨hlt, hm⟩

theorem freeIn_some {iSize i de : Nat} {b : Block} (h : freeIn iSize i b = some de) :
    de < dirEntriesPerBlock ∧ (iSize ≤ 16 * (i + de) ∨ deInode b de = 0) ∧
      ∀ k < de, 16 * (i + k) < iSize := by
  obtain ⟨hp, hmem, hbefore⟩ := List.find?_range_eq_some.mp h
  rw [Bool.or_eq_true, decide_eq_true_eq, decide_eq_true_eq] at hp
  refine ⟨List.mem_range.mp hmem, hp, fun k hk => ?_⟩
  have hno := hbefore k hk
  simp only [Bool.not_eq_true', Bool.or_eq_false_iff, decide_eq_false_iff_not, Nat.not_le] at hno
  exact hno.1

theorem freeIn_none {iSize i : Nat} {b : Block} (h : freeIn iSize i b = none) (hsize : 16 ∣ iSize) :
    16 * (i + dirEntriesPerBlock) ≤ iSize := by
  have h64 : dirEntriesPerBlock = 64 := rfl
  have hp := List.find?_eq_none.mp h 63 (List.mem_range.mpr (by omega))
  simp only [Bool.or_eq_true, decide_eq_true_eq, not_or, Nat.not_le] at hp
  obtain ⟨n, rfl⟩ := hsize
  omega

section

variable {d : Dir} {name : Name} {v : BitVec 16} {i de : Nat} {b : Block}

theorem entry_eq_some {j w : Nat} {x : Name} :
    d.entry j = some (x, w) ↔ j < d.iSize / 16 ∧ ∃ b, d.block (j / dirEntriesPerBlock) = some b ∧
      deInode b (j % dirEntriesPerBlock) ≠ 0 ∧ entryName b (j % dirEntriesPerBlock) = x ∧
        deInode b (j % dirEntriesPerBlock) = w := by
  unfold Dir.entry
  by_cases hj : j < d.iSize / 16
  · rw [if_pos hj, Option.bind_eq_some_iff]
    refine ⟨fun ⟨b, hb, he⟩ => ⟨hj, b, hb, ?_⟩, fun ⟨_, b, hb, hn, hx, hw⟩ => ⟨b, hb, ?_⟩⟩
    · split at he
      · cases he
      next hn =>
        cases he
        exact ⟨hn, rfl, rfl⟩
    · rw [if_neg hn, hx, hw]
  · rw [if_neg hj]
    exact iff_of_false (by simp) fun h => hj h.1

theorem place_of_start (hi : i % dirEntriesPerBlock = 0) (hde : de < dirEntriesPerBlock) :
    (i + de) / dirEntriesPerBlock = i / dirEntriesPerBlock ∧
      (i + de) % dirEntriesPerBlock = de := by
  have h64 : dirEntriesPerBlock = 64 := rfl
  rw [h64] at hi hde ⊢
  omega

theorem entry_add_self (hi : i % dirEntriesPerBlock = 0) (hde : de < dirEntriesPerBlock)
    (hname : 0 ∉ name) (hv : v ≠ 0) (hlt : i + de < (d.add name v.toNat i de b).iSize / 16) :
    (d.add name v.toNat i de b).entry (i + de) = some (name.take nameLen, v.toNat) := by
  obtain ⟨hdiv, hmod⟩ := place_of_start hi hde
  have hnum : deInode (fillEntry name de v.toNat b) de = v.toNat := by
    rw [deInode_fillEntry b hde, Nat.mod_eq_of_lt v.isLt]
  have hblock : (d.add name v.toNat i de b).block (i / dirEntriesPerBlock) =
    some (fillEntry name de v.toNat b) :=
    Function.update_self ..
  refine entry_eq_some.mpr ⟨hlt, fillEntry name de v.toNat b, ?_⟩
  rw [hdiv, hmod, hnum]
  exact ⟨hblock, fun h0 => hv (BitVec.eq_of_toNat_eq h0),
    entryName_fillEntry b hde fun c hc h0 => hname (h0 ▸ hc), rfl⟩

theorem entry_add_of_ne (hi : i % dirEntriesPerBlock = 0)
    (hb : d.block (i / dirEntriesPerBlock) = some b) {j : Nat} (hj : j ≠ i + de)
    (hlt : j < (d.add name v.toNat i de b).iSize / 16 ↔ j < d.iSize / 16) :
    (d.add name v.toNat i de b).entry j = d.entry j := by
  have hplace : j / dirEntriesPerBlock = i / dirEntriesPerBlock → j % dirEntriesPerBlock ≠ de := by
    have h64 : dirEntriesPerBlock = 64 := rfl
    intro hdiv' hmod'
    rw [h64] at hdiv' hmod' hi
    omega
  refine Option.ext fun ⟨x, w⟩ => ?_
  rw [entry_eq_some, entry_eq_some, hlt]
  refine and_congr_right fun _ => ?_
  unfold Dir.add
  dsimp only
  rw [Function.update_apply]
  split
  next hk =>
    have hne := hplace hk
    have hmod : j % dirEntriesPerBlock < dirEntriesPerBlock := Nat.mod_lt _ (by decide)
    rw [hk, hb]
    constructor
    · rintro ⟨b', hb', h⟩
      cases hb'
      rw [deInode_fillEntry_of_ne b hmod hne, entryName_fillEntry_of_ne b hmod hne] at h
      exact ⟨b, rfl, h⟩
    · rintro ⟨b', hb', h⟩
      cases hb'
      refine ⟨_, rfl, ?_⟩
      rw [deInode_fillEntry_of_ne b hmod hne, entryName_fillEntry_of_ne b hmod hne]
      exact h
  next => rfl

theorem entry_add (hsize : 16 ∣ d.iSize) (hi : i % dirEntriesPerBlock = 0) (hle : 16 * i ≤ d.iSize)
    (hb : d.block (i / dirEntriesPerBlock) = some b) (hfree : freeIn d.iSize i b = some de)
    (hname : 0 ∉ name) (hv : v ≠ 0) :
    d.entry (i + de) = none ∧ (d.add name v.toNat i de b).entry =
      Function.update d.entry (i + de) (some (name.take nameLen, v.toNat)) ∧
        16 ∣ (d.add name v.toNat i de b).iSize ∧ d.iSize ≤ (d.add name v.toNat i de b).iSize := by
  obtain ⟨hde, hor, hbefore⟩ := freeIn_some hfree
  obtain ⟨n, hn⟩ := hsize
  obtain ⟨hdiv, hmod⟩ := place_of_start hi hde
  have hlast : 16 * (i + de) ≤ d.iSize := by
    cases de with
    | zero => exact hle
    | succ k =>
      have := hbefore k (Nat.lt_succ_self k)
      omega
  have hbound (j : Nat) : j < (d.add name v.toNat i de b).iSize / 16 ↔
    j < d.iSize / 16 ∨ j = i + de := by
    unfold Dir.add
    dsimp only
    split <;> omega
  refine ⟨?_, funext fun j => ?_, ?_, ?_⟩
  · refine Option.eq_none_iff_forall_not_mem.mpr fun ⟨x, w⟩ he => ?_
    obtain ⟨hlt, b', hb', hne, -⟩ := entry_eq_some.mp he
    rw [hdiv, hb] at hb'
    cases hb'
    rw [hmod] at hne
    rcases hor with hge | hzero
    · omega
    · exact hne hzero
  · rw [Function.update_apply]
    split
    next hj =>
      subst hj
      exact entry_add_self hi hde hname hv ((hbound _).mpr (Or.inr rfl))
    next hj => exact entry_add_of_ne hi hb hj ((hbound j).trans (or_iff_left hj))
  · unfold Dir.add
    dsimp only
    split
    · exact Nat.dvd_mul_right 16 _
    · exact ⟨n, hn⟩
  · unfold Dir.add
    dsimp only
    split <;> omega

section

variable {d' : Dir} {k : Nat} {x₀ : Name} {w₀ : Nat}
    (he : d'.entry = Function.update d.entry k (some (x₀, w₀)))

include he

theorem entry_update_cases {j : Nat} {x : Name} {w : Nat} (hj : d'.entry j = some (x, w)) :
    d.entry j = some (x, w) ∨ j = k ∧ x = x₀ ∧ w = w₀ := by
  rw [he, Function.update_apply] at hj
  split at hj
  next hjk =>
    cases hj
    exact Or.inr ⟨hjk, rfl, rfl⟩
  next => exact Or.inl hj

theorem entry_update_old (hnone : d.entry k = none) {j : Nat} {x : Name} {w : Nat}
    (hj : d.entry j = some (x, w)) : d'.entry j = some (x, w) := by
  rw [he, Function.update_apply]
  split
  next hjk =>
    rw [hjk, hnone] at hj
    cases hj
  next => exact hj

theorem Dir.Unique.update (h : d.Unique) (habsent : ∀ j w, d.entry j ≠ some (x₀, w)) :
    d'.Unique := by
  intro i j x v w hi hj
  rcases entry_update_cases he hi with hi | ⟨rfl, rfl, rfl⟩
  · rcases entry_update_cases he hj with hj | ⟨rfl, rfl, rfl⟩
    · exact h i j x v w hi hj
    · exact absurd hi (habsent i v)
  · rcases entry_update_cases he hj with hj | ⟨rfl, -, -⟩
    · exact absurd hj (habsent j w)
    · rfl

end

theorem entry_grow {k : Nat} (hb : d.block k = none) :
    ({ d with block := Function.update d.block k (some 0) } : Dir).entry = d.entry := by
  refine funext fun j => Option.ext fun ⟨x, w⟩ => ?_
  rw [entry_eq_some, entry_eq_some]
  refine and_congr_right fun _ => ?_
  dsimp only
  rw [Function.update_apply]
  split
  next hk =>
    rw [hk, hb]
    refine iff_of_false (fun ⟨b, h0, hne, _⟩ => ?_) (by simp)
    cases h0
    exact hne (by simp [deInode, getBits])
  next => rfl

def Absent (d : Dir) (name : Name) : Prop := ∀ j v, d.entry j ≠ some (name.take nameLen, v)

/-- `add_entry` in front of entry `i`. -/
structure Inserting (d : Dir) (name : Name) (v : BitVec 16) (i : Nat) : Prop where
  clean : 0 ∉ name
  inode : v ≠ 0
  absent : Absent d name
  start : i % dirEntriesPerBlock = 0
  size : 16 * i ≤ d.iSize

/-- What a task has found out about the directory. -/
def At (d : Dir) (dots : Bool) : Pc → Prop
  | .out => True
  | .lookup name entries i =>
      0 ∉ name ∧ ¬ (dots = true ∧ dotDot name) ∧ i % dirEntriesPerBlock = 0 ∧
        entries ≤ d.iSize / 16 ∧ ∀ j v, d.entry j = some (name.take nameLen, v) →
          i ≤ j ∧ j < entries
  | .create name => 0 ∉ name ∧ Absent d name
  | .insert name v i => Inserting d name v i
  | .grow name v i => Inserting d name v i ∧ d.block (i / dirEntriesPerBlock) = none
  | .fetch name v i => Inserting d name v i ∧ (d.block (i / dirEntriesPerBlock)).isSome
  | .load name v => ∃ j, d.entry j = some (name.take nameLen, v)

def Pc.Growing : Pc → Prop
  | .grow _ _ _ => True
  | _ => False

end

section

variable {T : Type} {root : T → Bool}

structure Inv (root : T → Bool) (s : St T) : Prop where
  known : s.unknown = false
  size : 16 ∣ s.dir.iSize
  unique : s.dir.Unique
  opened : ∀ p ∈ s.opened, ∃ j, s.dir.entry j = some (p.1.take nameLen, p.2)
  apart : ∀ t u x, t ≠ u → (s.pc t).pending = some x → (s.pc u).pending ≠ some x
  alone : ∀ t u, (s.pc t).Growing → (s.pc u).Growing → t = u
  growers : ∀ t, (s.pc t).Growing → s.growers = 1
  place : ∀ t, At s.dir (root t) (s.pc t)

theorem Inv.safe {s : St T} (h : Inv root s) : Safe s := by
  refine ⟨h.unique, fun p hp q hq he => ?_⟩
  obtain ⟨i, hi⟩ := h.opened p hp
  obtain ⟨j, hj⟩ := h.opened q hq
  rw [← he] at hj
  obtain rfl := h.unique i j _ _ _ hi hj
  exact (Prod.mk.inj (Option.some.inj (hi.symm.trans hj))).2

theorem inv_atStart {d : Dir} (hsize : 16 ∣ d.iSize) (hd : d.Unique) :
    Inv root (atStart d : St T) where
  known := rfl
  size := hsize
  unique := hd
  opened _ hp := nomatch hp
  apart _ _ _ _ ht := nomatch ht
  alone _ _ ht := ht.elim
  growers _ ht := ht.elim
  place _ := trivial

variable [DecidableEq T] {s : St T} {t : T}

theorem Inv.next (h : Inv root s) {s' : St T} {p : Pc} (hpc : s'.pc = Function.update s.pc t p)
    (hknown : s'.unknown = false) (hsize : 16 ∣ s'.dir.iSize) (hunique : s'.dir.Unique)
    (hopened : ∀ q ∈ s'.opened, ∃ j, s'.dir.entry j = some (q.1.take nameLen, q.2))
    (hp : ∀ x, p.pending = some x → (s.pc t).pending = some x ∨ ∀ u, u ≠ t →
      (s.pc u).pending ≠ some x) (hg : p.Growing → ∀ u, ¬ (s.pc u).Growing)
    (hgrowers : ∀ u, (s'.pc u).Growing → s'.growers = 1) (hat : At s'.dir (root t) p)
    (hothers : ∀ u, u ≠ t → At s'.dir (root u) (s.pc u)) : Inv root s' := by
  refine ⟨hknown, hsize, hunique, hopened, fun u w x hne hu hw => ?_, fun u w hu hw => ?_,
    hgrowers, fun u => ?_⟩
  · rw [hpc, Function.update_apply] at hu hw
    split at hu
    next hut =>
      subst hut
      rw [if_neg (Ne.symm hne)] at hw
      rcases hp x hu with hold | hnew
      · exact h.apart u w x hne hold hw
      · exact hnew w (Ne.symm hne) hw
    next hut =>
      split at hw
      next hwt =>
        subst hwt
        rcases hp x hw with hold | hnew
        · exact h.apart u w x hne hu hold
        · exact hnew u hut hu
      next => exact h.apart u w x hne hu hw
  · rw [hpc, Function.update_apply] at hu hw
    split at hu
    next hut =>
      split at hw
      next hwt => exact hut.trans hwt.symm
      next => exact absurd hw (hg hu w)
    next =>
      split at hw
      next => exact absurd hu (hg hw u)
      next => exact h.alone u w hu hw
  · rw [hpc, Function.update_apply]
    split
    next hut =>
      subst hut
      exact hat
    next hut => exact hothers u hut

theorem growing_of_update {p : Pc} (hp : ¬ p.Growing) {u : T}
    (hu : (Function.update s.pc t p u).Growing) : (s.pc u).Growing := by
  rw [Function.update_apply] at hu
  split at hu
  · exact absurd hu hp
  · exact hu

theorem Inv.goto (h : Inv root s) {p : Pc} (hat : At s.dir (root t) p) (hg : ¬ p.Growing)
    (hp : ∀ x, p.pending = some x → (s.pc t).pending = some x ∨ ∀ u, u ≠ t →
      (s.pc u).pending ≠ some x) : Inv root (s.goto t p) := by
  refine @Inv.next T root _ s t h (s.goto t p) p rfl h.known h.size h.unique h.opened hp
    (fun hp => absurd hp hg) (fun u hu => ?_) hat fun u _ => h.place u
  exact h.growers u (growing_of_update hg hu)

theorem Inv.out (h : Inv root s) : Inv root (s.goto t .out) :=
  h.goto trivial id fun _ hx => nomatch hx

/-- What is known stays true when entries with other names are added. -/
theorem At.mono {d d' : Dir} {dots : Bool} {p : Pc} (h : At d dots p) (hs : d.iSize ≤ d'.iSize)
    (hnew : ∀ j x w, d'.entry j = some (x, w) → p.pending = some x → d.entry j = some (x, w))
    (hold : ∀ j x w, d.entry j = some (x, w) → d'.entry j = some (x, w))
    (hb : ∀ k, (d.block k).isSome → (d'.block k).isSome)
    (hg : ∀ name v i, p = .grow name v i → d.block (i / dirEntriesPerBlock) = none →
      d'.block (i / dirEntriesPerBlock) = none) :
    At d' dots p := by
  have habsent : ∀ name, p.pending = some (name.take nameLen) → Absent d name → Absent d' name :=
    fun name hp ha j w he => ha j w (hnew j _ w he hp)
  have hinserting : ∀ {name v i}, p.pending = some (name.take nameLen) → Inserting d name v i →
    Inserting d' name v i :=
    fun hp hi => ⟨hi.clean, hi.inode, habsent _ hp hi.absent, hi.start, hi.size.trans hs⟩
  cases p with
  | out => trivial
  | lookup name entries i =>
    obtain ⟨hclean, hdots, hi, hentries, hrest⟩ := h
    exact ⟨hclean, hdots, hi, hentries.trans (Nat.div_le_div_right hs),
      fun j w he => hrest j w (hnew j _ w he rfl)⟩
  | create name => exact ⟨h.1, habsent name rfl h.2⟩
  | insert name v i => exact hinserting rfl h
  | grow name v i => exact ⟨hinserting rfl h.1, hg name v i rfl h.2⟩
  | fetch name v i => exact ⟨hinserting rfl h.1, hb _ h.2⟩
  | load name v =>
    obtain ⟨j, hj⟩ := h
    exact ⟨j, hold j _ v hj⟩

theorem inv_lookup (h : Inv root s) {name : Name} {entries i : Nat} {b : Block}
    (hpc : s.pc t = .lookup name entries i) (hb : s.dir.block (i / dirEntriesPerBlock) = some b) :
    Inv root (lookupStep root t name entries i (some b) s) := by
  have h64 : dirEntriesPerBlock = 64 := rfl
  have hat := h.place t
  rw [hpc] at hat
  obtain ⟨hclean, hdots, hi, hentries, hrest⟩ := hat
  have hmatch := matchEntry_iff fun c hc h0 => hclean (h0 ▸ hc)
  have hplace : ∀ {de}, de < dirEntriesPerBlock →
    (i + de) / dirEntriesPerBlock = i / dirEntriesPerBlock ∧
      (i + de) % dirEntriesPerBlock = de := by
    intro de hde
    rw [h64] at hi hde ⊢
    omega
  have hpending : ∀ x, some (name.take nameLen) = some x → (s.pc t).pending = some x ∨ ∀ u, u ≠ t →
    (s.pc u).pending ≠ some x := by
    intro x hx
    rw [hpc]
    exact Or.inl hx
  unfold lookupStep
  dsimp only
  rw [seekLen, if_neg hdots]
  cases hfind : findIn (min name.length nameLen) name entries i b with
  | some de =>
    obtain ⟨hde, hlt, hm⟩ := findIn_some hfind
    obtain ⟨hne, hname⟩ := (hmatch b de).mp hm
    obtain ⟨hdiv, hmod⟩ := hplace hde
    refine h.goto ⟨i + de, entry_eq_some.mpr ⟨by omega, b, by rw [hdiv]; exact hb, ?_⟩⟩ id
      fun x hx => nomatch hx
    rw [hmod]
    exact ⟨hne, hname, rfl⟩
  | none =>
    -- no entry of this block has the name
    have hbehind : ∀ j v, s.dir.entry j = some (name.take nameLen, v) →
      i + dirEntriesPerBlock ≤ j ∧ j < entries := by
      intro j v he
      obtain ⟨hij, hj⟩ := hrest j v he
      refine ⟨Nat.not_lt.mp fun hlt => ?_, hj⟩
      obtain ⟨de, rfl⟩ := Nat.exists_eq_add_of_le hij
      have hde : de < dirEntriesPerBlock := by omega
      obtain ⟨hdiv, hmod⟩ := hplace hde
      obtain ⟨-, b', hb', hne, hname, -⟩ := entry_eq_some.mp he
      rw [hdiv, hb] at hb'
      cases hb'
      rw [hmod] at hne hname
      exact findIn_none hfind hde hj ((hmatch b de).mpr ⟨hne, hname⟩)
    dsimp only
    split
    next hend =>
      refine h.goto ⟨hclean, fun j v he => ?_⟩ id hpending
      have := hbehind j v he
      omega
    next => exact h.goto ⟨hclean, hdots, by rw [h64] at hi ⊢; omega, hentries, hbehind⟩ id hpending

theorem inv_insert (h : Inv root s) {name : Name} {v : BitVec 16} {i : Nat}
    (hpc : s.pc t = .insert name v i) (ha : (s.dir.block (i / dirEntriesPerBlock)).isSome ∨
      s.growers = 0) : Inv root (insertStep t name v i s) := by
  have hat := h.place t
  rw [hpc] at hat
  have hpending : ∀ x, some (name.take nameLen) = some x → (s.pc t).pending = some x ∨ ∀ u, u ≠ t →
    (s.pc u).pending ≠ some x := by
    intro x hx
    rw [hpc]
    exact Or.inl hx
  unfold insertStep
  split
  next hb => exact h.goto ⟨hat, hb⟩ id hpending
  next hb =>
    have hzero : s.growers = 0 := ha.resolve_left hb
    have hnone : ∀ u, ¬ (s.pc u).Growing := fun u hu => by
      have := h.growers u hu
      omega
    refine h.next rfl (by simp [hzero]) h.size h.unique h.opened hpending (fun _ => hnone)
      (fun u _ => ?_) ⟨hat, Option.not_isSome_iff_eq_none.mp hb⟩
      fun u _ => h.place u
    show s.growers + 1 = 1
    omega

theorem not_growing_of_update (h : Inv root s) (hpc : (s.pc t).Growing) {p : Pc} (hp : ¬ p.Growing)
    (u : T) : ¬ (Function.update s.pc t p u).Growing := by
  rw [Function.update_apply]
  split
  · exact hp
  next hut => exact fun hu => hut (h.alone u t hu hpc)

theorem inv_grow (h : Inv root s) {name : Name} {v : BitVec 16} {i : Nat} {ok : Bool}
    (hpc : s.pc t = .grow name v i) : Inv root (growStep t name v i ok s) := by
  have hat := h.place t
  rw [hpc] at hat
  obtain ⟨hins, hb⟩ := hat
  have hgrowing : (s.pc t).Growing := by
    rw [hpc]
    trivial
  unfold growStep
  split
  · have he := entry_grow hb
    have hold : ∀ k, (s.dir.block k).isSome →
      (Function.update s.dir.block (i / dirEntriesPerBlock) (some 0) k).isSome := by
      intro k hk
      rw [Function.update_apply]
      split
      · rfl
      · exact hk
    have hmono : ∀ u p, At s.dir (root u) p → ¬ p.Growing →
        At { s.dir with block := Function.update s.dir.block (i / dirEntriesPerBlock) (some 0) }
          (root u) p := by
      intro u p hp hg
      refine hp.mono (Nat.le_refl _) (fun j x w hj _ => ?_) (fun j x w hj => ?_) hold
        fun name v i hpi _ => ?_
      · rwa [he] at hj
      · rwa [he]
      · rw [hpi] at hg
        exact absurd trivial hg
    refine h.next rfl h.known h.size (fun j k x v w hj hk => ?_) (fun q hq => ?_) (fun x hx => ?_)
      (fun hg => hg.elim) (fun u hu => ?_)
      ⟨hmono t (.insert name v i) hins id, ?_⟩ fun u hut => hmono u _ (h.place u) fun hu =>
        hut (h.alone u t hu hgrowing)
    · rw [he] at hj hk
      exact h.unique j k x v w hj hk
    · rw [he]
      exact h.opened q hq
    · rw [hpc]
      exact Or.inl hx
    · exact absurd hu (not_growing_of_update h hgrowing id u)
    · show (Function.update s.dir.block (i / dirEntriesPerBlock) (some 0)
        (i / dirEntriesPerBlock)).isSome = true
      rw [Function.update_self]
      rfl
  · refine h.next rfl h.known h.size h.unique h.opened (fun x hx => nomatch hx) (fun hg => hg.elim)
      (fun u hu => ?_) trivial fun u _ => h.place u
    exact absurd hu (not_growing_of_update h hgrowing id u)

theorem inv_finish (h : Inv root s) {name : Name} {v : Nat}
    (he : ∃ j, s.dir.entry j = some (name.take nameLen, v)) : Inv root (s.finish t name v) := by
  refine h.next rfl h.known h.size h.unique (fun q hq => ?_) (fun x hx => nomatch hx)
    (fun hg => hg.elim) (fun u hu => ?_) trivial
    fun u _ => h.place u
  · rcases List.mem_cons.mp hq with rfl | hq
    · exact he
    · exact h.opened q hq
  · exact h.growers u (growing_of_update (t := t) (p := .out) id hu)

theorem inv_fetch (h : Inv root s) {name : Name} {v : BitVec 16} {i : Nat} {b : Block}
    (hpc : s.pc t = .fetch name v i) (hb : s.dir.block (i / dirEntriesPerBlock) = some b) :
    Inv root (fetchStep t name v i (some b) s) := by
  have hat := h.place t
  rw [hpc] at hat
  have hins := hat.1
  have hg : ¬ (s.pc t).Growing := by
    rw [hpc]
    exact id
  unfold fetchStep
  dsimp only
  cases hfree : freeIn s.dir.iSize i b with
  | some de =>
    obtain ⟨hnone, he, hsize, hle⟩ :=
      entry_add h.size hins.start hins.size hb hfree hins.clean hins.inode
    have hself : (s.dir.add name v.toNat i de b).entry (i + de) =
      some (name.take nameLen, v.toNat) := by
      rw [he, Function.update_self]
    refine h.next rfl h.known hsize (h.unique.update he hins.absent) (fun q hq => ?_)
      (fun x hx => nomatch hx) (fun hg => hg.elim)
      (fun u hu => ?_) trivial fun u hut => (h.place u).mono hle (fun j x w hj hp => ?_)
        (fun _ _ _ => entry_update_old he hnone) (fun k hk => ?_)
        fun name' v' i' hgrow hb' => ?_
    · rcases List.mem_cons.mp hq with rfl | hq
      · exact ⟨i + de, hself⟩
      · obtain ⟨j, hj⟩ := h.opened q hq
        exact ⟨j, entry_update_old he hnone hj⟩
    · exact h.growers u (growing_of_update (t := t) (p := .out) id hu)
    · rcases entry_update_cases he hj with hj | ⟨-, rfl, -⟩
      · exact hj
      · refine absurd hp (h.apart t u _ (Ne.symm hut) ?_)
        rw [hpc]
        rfl
    · show (Function.update s.dir.block (i / dirEntriesPerBlock) _ k).isSome = true
      rw [Function.update_apply]
      split
      · rfl
      · exact hk
    · show Function.update s.dir.block (i / dirEntriesPerBlock) _ (i' / dirEntriesPerBlock) = none
      rw [Function.update_apply]
      split
      next hk =>
        rw [hk, hb] at hb'
        cases hb'
      next => exact hb'
  | none =>
    have h64 : dirEntriesPerBlock = 64 := rfl
    have hstart := hins.start
    refine h.goto ⟨hins.clean, hins.inode, hins.absent, ?_,
      freeIn_none hfree h.size⟩ id fun x hx => ?_
    · rw [h64] at hstart ⊢
      omega
    · rw [hpc]
      exact Or.inl hx

theorem inv_step {a : T × Event} {s' : St T} (h : Inv root s) (hs : step root a s = some s')
    (ha : Apart root s a) : Inv root s' := by
  obtain ⟨t, e⟩ := a
  have hat := h.place t
  unfold step at hs
  unfold Apart at ha
  rw [if_neg (by rw [h.known]; exact Bool.false_ne_true)] at hs
  dsimp only at hs ha
  cases hpc : s.pc t with
  | out =>
    rw [hpc] at hs ha
    cases e with
    | answer ok v => cases hs
    | enter name =>
      dsimp only at hs ha
      split at hs
      · cases hs
      next hname =>
        cases hs
        refine h.goto ⟨(not_or.mp hname).2, ha.1, Nat.zero_mod _, Nat.le_refl _,
          fun j v he => ⟨Nat.zero_le _, (entry_eq_some.mp he).1⟩⟩ id
          fun x hx => ?_
        cases hx
        exact Or.inr ha.2
  | lookup name entries i =>
    rw [hpc] at hs ha
    cases e with
    | enter name => cases hs
    | answer ok v =>
      dsimp only at hs ha
      cases hs
      obtain ⟨rfl, hb⟩ := ha
      obtain ⟨b, hb⟩ := Option.isSome_iff_exists.mp hb
      rw [if_pos rfl, hb]
      exact inv_lookup h hpc hb
  | create name =>
    rw [hpc] at hs ha hat
    cases e with
    | enter name => cases hs
    | answer ok v =>
      dsimp only at hs ha
      cases hs
      split
      next hok =>
        refine h.goto ⟨⟨hat.1, ha, hat.2, Nat.zero_mod _, Nat.zero_le _⟩, hok.2⟩ id fun x hx => ?_
        rw [hpc]
        exact Or.inl hx
      next => exact h.out
  | insert name v i =>
    rw [hpc] at hs ha
    cases e with
    | enter name => cases hs
    | answer ok _ =>
      dsimp only at hs ha
      cases hs
      split
      · exact inv_insert h hpc ha
      · exact h.out
  | grow name v i =>
    rw [hpc] at hs
    cases e with
    | enter name => cases hs
    | answer ok _ =>
      dsimp only at hs
      cases hs
      exact inv_grow h hpc
  | fetch name v i =>
    rw [hpc] at hs ha hat
    cases e with
    | enter name => cases hs
    | answer ok _ =>
      dsimp only at hs ha
      cases hs
      cases ok with
      | true =>
        obtain ⟨b, hb⟩ := Option.isSome_iff_exists.mp hat.2
        rw [if_pos rfl, hb]
        exact inv_fetch h hpc hb
      | false =>
        rw [if_neg Bool.false_ne_true, fetchStep, if_pos (ha.resolve_left Bool.false_ne_true)]
        exact h.out
  | load name v =>
    rw [hpc] at hs hat
    cases e with
    | enter name => cases hs
    | answer ok _ =>
      dsimp only at hs
      cases hs
      split
      · exact inv_finish h hat
      · exact h.out

/-- As long as no name is opened between the lookup and the insertion of
another task, no two entries have the same name, and a name is opened as one inode. -/
theorem names_unique {d : Dir} (hsize : 16 ∣ d.iSize) (hd : d.Unique) {run : List (T × Event)}
    (h : Run.Meets (step root) (Apart root) run (atStart d)) :
    Run.Always (step root) Safe run (atStart d) :=
  (Run.always_of_meets (fun _ _ _ hi hstep ha => inv_step hi hstep ha)
    (inv_atStart hsize hd) h).mono fun _ hi => hi.safe

end

def emptyDir : Dir := ⟨0, fun k => if k = 0 then some 0 else none⟩

theorem emptyDir_unique : emptyDir.Unique := fun i j x v w hi => by
  rw [entry_eq_some] at hi
  exact absurd hi.1 (Nat.not_lt_zero i)

/-- Two tasks create a file each, and the first one then opens the file of the second one. -/
def createTwo : List (Bool × Event) :=
  [(false, .enter [97]), (true, .enter [98]), (false, .answer true 0), (true, .answer true 0),
    (false, .answer true 2), (true, .answer true 3), (false, .answer true 0),
    (true, .answer true 0), (false, .enter [98]), (false, .answer true 0), (false, .answer true 0)]

theorem names_unique_createTwo :
    Run.Always (step fun _ => false) Safe createTwo (atStart emptyDir) ∧
      (Run.exec (step fun _ => false) createTwo (atStart emptyDir)).map
        (fun s => (s.dir.entry 0, s.dir.entry 1, s.opened)) =
          some (some ([97], 2), some ([98], 3), [([98], 3), ([98], 3), ([97], 2)]) :=
  ⟨names_unique (Dvd.intro 0 rfl) emptyDir_unique (by decide +kernel), by decide +kernel⟩

/-- Two tasks that have both looked up a name insert it twice. -/
theorem names_doubled :
    ¬ ∀ (root : Bool → Bool) (d : Dir) (run : List (Bool × Event)), 16 ∣ d.iSize → d.Unique →
      Run.Always (step root) Safe run (atStart d) := by
  intro h
  have hrun :=
    h (fun _ => false) emptyDir [(false, .enter [97]), (true, .enter [97]), (false, .answer true 0),
      (true, .answer true 0), (false, .answer true 2), (true, .answer true 3),
      (false, .answer true 0), (true, .answer true 0)] (Dvd.intro 0 rfl) emptyDir_unique
  have hentries : (Run.exec (step fun _ => false) [(false, .enter [97]), (true, .enter [97]),
    (false, .answer true 0), (true, .answer true 0), (false, .answer true 2),
    (true, .answer true 3), (false, .answer true 0), (true, .answer true 0)] (atStart emptyDir)).map
      (fun s => (s.dir.entry 0, s.dir.entry 1)) =
        some (some ([97], 2), some ([97], 3)) := by decide +kernel
  obtain ⟨s, hs, he⟩ := Option.map_eq_some_iff.mp hentries
  obtain ⟨h₀, h₁⟩ := Prod.mk.inj he
  exact absurd ((hrun.last hs).1 0 1 _ _ _ h₀ h₁) Nat.zero_ne_one

end Gpos.Creat
