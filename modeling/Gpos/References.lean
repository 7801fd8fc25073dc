import Gpos.BufferBalance
import Mathlib.Algebra.BigOperators.Group.Finset.Basic
import Mathlib.Algebra.Group.Pi.Lemmas
import Mathlib.Tactic.Abel

/-! The references on buffers and on inodes that the functions of the file
system take and drop, in one ledger. -/

namespace Gpos.Fs

open Cache BlockMap Zones Program

/-- The counts without the references that `free_block` has left. -/
def balance (s : Fs) : Nat → BitVec 8 := counts s.cache - (s.stuck.map one).sum

def iCounts (s : Fs) : Nat → BitVec 16 := fun i => (s.inodeTable i).iCount

def names (o : Option Nat) (i : Nat) : Nat := if o = some i then 1 else 0

/-- How often the super blocks name an inode. -/
def mounts (s : Fs) (i : Nat) : Nat :=
  ∑ n ∈ Finset.range nrSuper, (names (s.superBlock n).sIsup i + names (s.superBlock n).sImount i)

/-- The counts of the inodes, and how often the super blocks name them. -/
abbrev Inodes : Type := (Nat → BitVec 16) × (Nat → Int)

/-- For buffers, for what `free_block` has left on them, and for inodes. -/
abbrev Ledger : Type := ((Nat → BitVec 8) × (Nat → Int)) × Inodes

def ledger (s : Fs) : Ledger :=
  ((balance s, fun b => s.stuck.count b), (iCounts s, fun i => mounts s i))

/-- The ledger without what `free_block` has left on the buffers. -/
def settled (s : Fs) : (Nat → BitVec 8) × Inodes := (balance s, (iCounts s, fun i => mounts s i))

def ref (bh : Nat) : Ledger := ((one bh, 0), 0)

/-- A reference on one inode, with a count of `c`. -/
def irefs (i : Nat) (c : BitVec 16) : Ledger := (0, (Pi.single i c, 0))

def iref (i : Nat) : Ledger := irefs i 1

section

variable {α : Type} {disk : Cache.Disk}

theorem adds_onCache {f : Cache → Option (α × Cache)} {δ : α → Nat → BitVec 8}
    (h : ∀ c a c', f c = some (a, c') → counts c' = counts c + δ a) :
    Adds ledger (onCache f) fun a => ((δ a, 0), 0) := by
  intro s a t ht
  obtain ⟨⟨b, c⟩, hf, he⟩ := Option.map_eq_some_iff.mp ht
  cases he
  refine Prod.ext (Prod.ext ?_ (add_zero _).symm) (add_zero _).symm
  show counts c - _ = counts s.cache - _ + δ b
  rw [h _ _ _ hf]
  exact add_sub_right_comm _ _ _

theorem keeps_onCache {f : Cache → Option (α × Cache)}
    (h : ∀ c a c', f c = some (a, c') → counts c' = counts c) : Keeps ledger (onCache f) :=
  Adds.keeps (@adds_onCache _ f (fun _ => 0) fun c a c' hf => (h c a c' hf).trans (add_zero _).symm)

theorem adds_bread (dev block : Nat) : Adds ledger (bread disk dev block) fun x => x.elim 0 ref :=
  (adds_onCache fun _ _ _ h => counts_bread h).congr fun x => by cases x <;> rfl

theorem adds_brelse (bh : Nat) : Adds ledger (brelse bh) fun _ => - ref bh := by
  refine (@adds_onCache _ _ (fun _ => - one bh) fun c a c' h => ?_).congr fun _ =>
    Prod.ext (Prod.ext rfl neg_zero.symm) neg_zero.symm
  obtain ⟨d, hd, he⟩ := Option.map_eq_some_iff.mp h
  cases he
  rw [counts_brelse hd, sub_eq_add_neg]

theorem keeps_modifyBuf (bh : Nat) {f : BufferHead → BufferHead}
    (hf : ∀ b, (f b).bCount = b.bCount) : Keeps ledger (modifyBuf bh f) :=
  keeps_onCache fun c a c' h => by
    cases h
    exact counts_modify bh hf

theorem keeps_readBuf (bh : Nat) : Keeps ledger (readBuf bh) := .read _

theorem keeps_inode (i : Nat) : Keeps ledger (inode i) := .read _

theorem iCounts_update (s : Fs) (i : Nat) (n : MInode) :
    iCounts { s with inodeTable := Function.update s.inodeTable i n } =
      Function.update (iCounts s) i n.iCount := by
  funext j
  by_cases h : j = i
  · subst h
    simp [iCounts]
  · simp [iCounts, Function.update_of_ne h]

theorem ledger_update (s : Fs) (i : Nat) (n : MInode) :
    ledger { s with inodeTable := Function.update s.inodeTable i n } =
      ledger s + irefs i (n.iCount - (s.inodeTable i).iCount) := by
  refine Prod.ext (add_zero _).symm (Prod.ext ?_ (add_zero _).symm)
  show iCounts _ = iCounts s + Pi.single i _
  rw [iCounts_update]
  funext j
  by_cases hj : j = i
  · subst hj
    simp [iCounts]
  · simp [Function.update_of_ne hj, Pi.single_eq_of_ne hj]

theorem irefs_zero (i : Nat) : irefs i 0 = 0 := Prod.ext rfl (Prod.ext (Pi.single_zero i) rfl)

theorem neg_irefs (i : Nat) (c : BitVec 16) : - irefs i c = irefs i (- c) := by
  refine Prod.ext neg_zero (Prod.ext (funext fun j => ?_) neg_zero)
  show - (Pi.single i c : Nat → BitVec 16) j = (Pi.single i (- c) : Nat → BitVec 16) j
  by_cases hj : j = i
  · subst hj
    rw [Pi.single_eq_same, Pi.single_eq_same]
  · rw [Pi.single_eq_of_ne hj, Pi.single_eq_of_ne hj]
    rfl

theorem keeps_modifyInode (i : Nat) (f : MInode → MInode) (hf : ∀ n, (f n).iCount = n.iCount) :
    Keeps ledger (modifyInode i f) := by
  intro s a t h
  cases h
  rw [ledger_update, hf, sub_self, irefs_zero, add_zero]

theorem adds_raiseCount (i : Nat) : Adds ledger (raiseCount i) fun _ => iref i := by
  intro s a t h
  cases h
  rw [ledger_update, add_sub_cancel_left]
  rfl

theorem adds_dropCount (i : Nat) : Adds ledger (dropCount i) fun _ => - iref i := by
  intro s a t h
  cases h
  rw [ledger_update, sub_sub_cancel_left, iref, neg_irefs]

theorem keeps_getSuper (dev : Nat) : Keeps ledger (getSuper dev) := by
  intro s a t h
  obtain ⟨sb, -, he⟩ := Option.map_eq_some_iff.mp h
  cases he
  rfl

theorem keeps_newBlock (dev : Nat) : Keeps ledger (newBlock dev) :=
  fun s => keeps_onCache (fun _ _ _ h => counts_newBlock h) s

theorem keeps_waitOnInode (i : Nat) : Keeps ledger (waitOnInode i) :=
  (keeps_inode i).bind fun _ => .ite .failure (.pure _)

theorem keeps_lockInode (i : Nat) : Keeps ledger (lockInode i) :=
  (keeps_waitOnInode i).bind fun _ => keeps_modifyInode i _ (by intro; rfl)

theorem keeps_unlockInode (i : Nat) : Keeps ledger (unlockInode i) :=
  keeps_modifyInode i _ (by intro; rfl)

theorem keeps_readInode (i : Nat) : Keeps ledger (readInode disk i) := by
  refine (keeps_lockInode i).bind fun _ => (keeps_inode i).bind fun n =>
    (keeps_getSuper n.iDev).bind fun sb => ?_
  refine Adds.borrow (adds_bread _ _) .failure fun bh => ?_
  refine (keeps_readBuf bh).andThen fun b => (keeps_modifyInode i _ (by intro; rfl)).andThen
    fun _ => ?_
  exact (adds_brelse bh).giveBack (keeps_unlockInode i)

theorem keeps_writeInode (i : Nat) : Keeps ledger (writeInode disk i) := by
  refine (keeps_lockInode i).bind fun _ => (keeps_inode i).bind fun n =>
    .ite (keeps_unlockInode i) ?_
  refine (keeps_getSuper n.iDev).bind fun sb => Adds.borrow (adds_bread _ _) .failure fun bh => ?_
  refine (keeps_modifyBuf bh (by intro; rfl)).andThen fun _ =>
    (keeps_modifyInode i _ (by intro; rfl)).andThen fun _ => ?_
  exact (adds_brelse bh).giveBack (keeps_unlockInode i)

theorem keeps_pickInode : Keeps ledger pickInode := by
  intro s a t h
  cases h
  rfl

theorem keeps_flushInode (i : Nat) : Keeps ledger (flushInode disk i) := by
  refine (keeps_inode i).bind fun n => .ite ?_ (.pure _)
  refine (keeps_writeInode i).bind fun _ => (keeps_waitOnInode i).bind fun _ => ?_
  exact (keeps_inode i).bind fun n => .ite .failure (.pure _)

/-- The ledger without the references on an inode. -/
def dropped (i : Nat) (l : Ledger) : Ledger := l + irefs i (- l.2.1 i)

theorem makes_clearInode (i : Nat) : Makes ledger (clearInode i) (dropped i) := by
  intro s a t h
  cases h
  rw [ledger_update]
  exact congrArg (fun c => ledger s + irefs i c) (zero_sub _)

theorem makes_freeInode (i : Nat) : Makes ledger (freeInode i) (dropped i) := by
  refine (keeps_inode i).thenMakes fun n => .ite (makes_clearInode i) <|
    .ite .failure <| .ite .failure ?_
  refine (keeps_getSuper n.iDev).thenMakes fun sb => .ite .failure ?_
  split
  · exact .failure
  · exact (keeps_modifyBuf _ (by intro; rfl)).thenMakes fun _ => makes_clearInode i

theorem dropped_one {s : Fs} {i : Nat} (h : (s.inodeTable i).iCount = 1) :
    dropped i (ledger s) = ledger s + - iref i := by
  rw [iref, neg_irefs, ← h]
  rfl

theorem eq_one_of_not_lt {c : BitVec 16} (h0 : c ≠ 0) (h1 : ¬ 1 < c) : c = 1 := by bv_omega

theorem putRound_adds {i rounds : Nat} {s t : Fs} {a : Unit} (h0 : (s.inodeTable i).iCount ≠ 0)
    (h : putRound disk i rounds s = some (a, t)) : ledger t = ledger s + - iref i := by
  induction rounds generalizing s with
  | zero => cases h
  | succ rounds ih =>
    obtain ⟨n, u, hn, h⟩ := bind_some.mp h
    cases hn
    split at h
    · exact adds_dropCount i _ _ _ h
    next h1 =>
    split at h
    · rw [makes_freeInode i _ _ _ h, dropped_one (eq_one_of_not_lt h0 h1)]
    · split at h
      · obtain ⟨_, u, hw, h⟩ := bind_some.mp h
        obtain ⟨_, v, hv, h⟩ := bind_some.mp h
        have hu : ledger v = ledger s :=
          (keeps_waitOnInode i _ _ _ hv).trans (keeps_writeInode i _ _ _ hw)
        have hc : (v.inodeTable i).iCount = (s.inodeTable i).iCount :=
          congrFun (congrArg (·.2.1) hu) i
        rw [ih (hc ▸ h0) h, hu]
      · exact adds_dropCount i _ _ _ h

theorem adds_putPipe (i : Nat) : Adds ledger (putPipe i) fun _ => - iref i :=
  (adds_dropCount i).giveBack ((keeps_inode i).bind fun _ =>
    .ite (keeps_modifyInode i _ (by intro; rfl)) (.pure _))

theorem adds_iput (i : Nat) : Adds ledger (iput disk i) fun _ => - iref i := by
  refine (keeps_waitOnInode i).andThen fun _ s a t h => ?_
  obtain ⟨n, u, hn, h⟩ := bind_some.mp h
  cases hn
  split at h
  · cases h
  next h0 =>
  split at h
  · exact adds_putPipe i _ _ _ h
  · split at h
    · exact adds_dropCount i _ _ _ h
    · exact putRound_adds h0 h

theorem takeInode_spec {i j : Nat} {s t : Fs} (h : takeInode i s = some (j, t)) :
    ledger t = ledger s + iref j ∧ (t.inodeTable j).iCount = 1 := by
  obtain ⟨n, u, hn, h⟩ := bind_some.mp h
  cases hn
  split at h
  next h0 =>
    obtain ⟨_, u, hu, h⟩ := bind_some.mp h
    obtain ⟨_, v, hv, h⟩ := bind_some.mp h
    have hl : ledger u = ledger s := by
      rw [makes_clearInode i _ _ _ hu]
      refine (congrArg (fun c => ledger s + irefs i c) ((congrArg _ h0).trans neg_zero)).trans ?_
      rw [irefs_zero, add_zero]
    cases hu
    cases hv
    cases h
    constructor
    · rw [ledger_update, hl]
      simp [iref, zeroInode]
    · simp
  next => cases h

theorem getEmptyInode_spec {j : Nat} {s t : Fs} (h : getEmptyInode disk s = some (j, t)) :
    ledger t = ledger s + iref j ∧ (t.inodeTable j).iCount = 1 := by
  obtain ⟨x, u, hp, h⟩ := bind_some.mp h
  cases x with
  | none => cases h
  | some i =>
    obtain ⟨_, v, hv, h⟩ := bind_some.mp h
    obtain ⟨_, w, hw, h⟩ := bind_some.mp h
    obtain ⟨ht, hc⟩ := takeInode_spec h
    rw [ht, keeps_flushInode i _ _ _ hw, keeps_waitOnInode i _ _ _ hv, keeps_pickInode _ _ _ hp]
    exact ⟨rfl, hc⟩

theorem adds_getEmptyInode : Adds ledger (getEmptyInode disk) iref :=
  fun _ _ _ h => (getEmptyInode_spec h).1

theorem adds_igetLoop (empty rounds dev nr : Nat) :
    Adds ledger (igetLoop disk empty rounds dev nr) fun r => iref r - iref empty := by
  induction rounds generalizing dev nr with
  | zero => exact .failure
  | succ rounds ih =>
    refine (Keeps.read _).andThen fun slot => ?_
    cases slot with
    | none =>
      refine (keeps_modifyInode empty _ (by intro; rfl)).andThen fun _ =>
        (keeps_readInode empty).andThen fun _ => .pure ?_
      exact sub_self _
    | some i =>
      have hfound : Adds ledger (iput disk empty >>= fun _ => pure i) fun r =>
        iref r - iref empty - iref i :=
        (adds_iput empty).bind fun _ => .pure (by abel)
      refine (keeps_waitOnInode i).andThen fun _ => (adds_raiseCount i).bind fun _ =>
        (keeps_inode i).andThen fun n => ?_
      refine .ite ((Keeps.read _).andThen fun sb => ?_) hfound
      cases sb with
      | none => exact hfound
      | some sb => exact (adds_iput i).bind fun _ => (ih sb.sDev rootIno).congr fun _ => by abel

theorem adds_iget (dev nr : Nat) : Adds ledger (iget disk dev nr) iref :=
  .ite .failure (adds_getEmptyInode.bind fun empty => adds_igetLoop empty _ dev nr)

theorem keeps_nameInode {i dev num : Nat} {creds : Creds} {s t : Fs} {a : Unit}
    (h1 : (s.inodeTable i).iCount = 1) (h : nameInode i dev num creds s = some (a, t)) :
    ledger t = ledger s := by
  cases h
  rw [ledger_update, h1]
  exact (congrArg (fun c => ledger s + irefs i c) (sub_self 1)).trans (by rw [irefs_zero, add_zero])

theorem adds_newInode (dev : Nat) (creds : Creds) :
    Adds ledger (newInode disk dev creds) fun r => r.elim 0 iref := by
  intro s a t h
  obtain ⟨i, u, hi, h⟩ := bind_some.mp h
  obtain ⟨hu, h1⟩ := getEmptyInode_spec hi
  obtain ⟨sb, v, hv, h⟩ := bind_some.mp h
  have hgone : Adds ledger (iput disk i >>= fun _ => pure none) fun r => r.elim 0 iref - iref i :=
    (adds_iput i).bind fun _ => .pure (by simp)
  have hrest : ∀ r : Option Nat, ledger t = ledger v + (r.elim 0 iref - iref i) →
      ledger t = ledger s + r.elim 0 iref := by
    intro r hr
    rw [hr, keeps_getSuper dev _ _ _ hv, hu]
    abel
  refine hrest a ?_
  obtain ⟨found, w, hw, h⟩ := bind_some.mp h
  cases hw
  generalize searchMap sb.sImap v.cache 8 0 = found at h
  cases found with
  | none => exact hgone _ _ _ h
  | some f =>
    obtain ⟨k, bh, j⟩ := f
    simp only at h
    split at h
    · exact hgone _ _ _ h
    · obtain ⟨b, w, hw, h⟩ := bind_some.mp h
      cases hw
      split at h
      · cases h
      · obtain ⟨_, w, hw, h⟩ := bind_some.mp h
        obtain ⟨_, x, hx, h⟩ := bind_some.mp h
        cases h
        have hm : ledger w = ledger v := keeps_modifyBuf bh (by intro; rfl) _ _ _ hw
        have hc : (w.inodeTable i).iCount = 1 := by
          have hcounts := congrArg (·.2.1) (hm.trans (keeps_getSuper dev _ _ _ hv))
          exact (congrFun hcounts i).trans h1
        rw [keeps_nameInode hc hx, hm]
        simp

theorem keeps_zoneOrNew (create : Bool) (i k : Nat) :
    Keeps ledger (zoneOrNew (ops disk) create i k) := by
  refine ((keeps_inode i).bind fun _ => .pure _).bind fun z => .ite ?_ (.pure _)
  refine ((keeps_inode i).bind fun _ => .pure _).bind fun dev =>
    (keeps_newBlock dev).bind fun z => ?_
  have hset : Keeps ledger ((ops disk).setZone i k z) :=
    keeps_modifyInode i
      (fun n => { n with iZone := Function.update n.iZone k z, iDirt := true, iCtime := 0 })
        (by intro; rfl)
  exact .ite (hset.bind fun _ => .pure _) (.pure _)

theorem keeps_entryOrNew (create : Bool) (i z j : Nat) :
    Keeps ledger (entryOrNew (ops disk) create i z j) := by
  refine .ite (.pure _) (((keeps_inode i).bind fun _ => .pure _).bind fun dev => ?_)
  refine Adds.borrow (adds_bread dev z) (.pure 0) fun bh => ?_
  refine ((keeps_readBuf bh).bind fun _ => .pure _).andThen fun e =>
    .ite ?_ ((adds_brelse bh).giveBack (.pure e))
  refine ((keeps_inode i).bind fun _ => .pure _).andThen fun dev =>
    (keeps_newBlock dev).andThen fun e => ?_
  have hset : Keeps ledger ((ops disk).setEntry bh j e) := keeps_modifyBuf bh (by intro; rfl)
  exact .ite (hset.andThen fun _ => (adds_brelse bh).giveBack (.pure e))
    ((adds_brelse bh).giveBack (.pure e))

theorem keeps_bmapCreate (create : Bool) (i block : Nat) :
    Keeps ledger (bmapCreate (ops disk) create i block) := by
  refine .ite .failure <| .ite (keeps_zoneOrNew create i block) <| .ite ?_ ?_
  · exact (keeps_zoneOrNew create i 7).bind fun z => keeps_entryOrNew create i z _
  · refine (keeps_zoneOrNew create i 8).bind fun z =>
      (keeps_entryOrNew create i z _).bind fun e => ?_
    exact keeps_entryOrNew create i e _

/-- The references that a search returns, on the buffer of the entry. -/
def held (r : Option (Nat × Nat)) : Ledger := r.elim 0 fun e => ref e.1

theorem adds_nextBlock (dir block : Nat) :
    Adds ledger (nextBlock disk dir block) fun x => x.elim 0 ref :=
  .ite (.pure rfl) ((keeps_inode dir).andThen fun _ => adds_bread _ _)

theorem adds_scanDir (dir len : Nat) (name : Name) (entries rounds bh de i : Nat) :
    Adds ledger (scanDir disk dir len name entries rounds bh de i) fun r => held r - ref bh := by
  induction rounds generalizing bh de i with
  | zero => exact .failure
  | succ rounds ih =>
    refine .ite ?_ <| .ite ?_ ?_
    · exact (adds_brelse bh).bind fun _ => .pure (by simp [held])
    · refine (keeps_readBuf bh).andThen fun b => .ite (.pure ?_) (ih bh _ _)
      exact sub_self _
    · refine (adds_brelse bh).bind fun _ => Adds.congr (δ := held) ?_ (by simp)
      refine (keeps_bmapCreate false dir _).andThen fun block =>
        (adds_nextBlock dir block).bind fun x => ?_
      cases x with
      | none => exact .ite (.pure (by simp [held])) .failure
      | some bh' =>
        refine (keeps_readBuf bh').andThen fun b => .ite (.pure ?_) (ih bh' _ _)
        exact sub_self _

/-- The reference on the directory goes over to the one that is searched. -/
theorem adds_upwards (root : Option Nat) (dir len : Nat) (name : Name) :
    Adds ledger (upwards disk root dir len name) fun r => iref r.1 - iref dir := by
  have hsame : ∀ len, Adds ledger (pure (dir, len) : Program Fs (Nat × Nat)) fun r =>
    iref r.1 - iref dir :=
    fun len => .pure (sub_self _)
  refine .ite (.ite (hsame 1) ((keeps_inode dir).andThen fun n => .ite ?_ (hsame len))) (hsame len)
  refine (keeps_inode dir).andThen fun n => (keeps_getSuper _).andThen fun sb => ?_
  split
  next => exact hsame len
  next mounted _ =>
    exact (adds_iput dir).bind fun _ => (adds_raiseCount mounted).bind fun _ => .pure (by abel)

theorem adds_findEntry (root : Option Nat) (dir : Nat) (name : Name) :
    Adds ledger (findEntry disk root dir name) fun r => iref r.1 - iref dir + held r.2 := by
  have hnone : ∀ d, Adds ledger (pure (d, none) : Program Fs (Nat × Option (Nat × Nat)))
      fun r => iref r.1 - iref dir + held r.2 - (iref d - iref dir) := fun d =>
        .pure (by simp [held])
  refine (keeps_inode dir).andThen fun n => .ite
    ((hnone dir).congr fun _ => by rw [sub_self, sub_zero]) ?_
  refine (adds_upwards root dir _ name).bind fun r => (keeps_inode r.1).andThen fun n =>
    .ite (hnone r.1) ?_
  refine (adds_bread _ _).bind fun x => ?_
  cases x with
  | none => exact (hnone r.1).congr fun _ => (sub_zero _).symm
  | some bh =>
    refine (adds_scanDir _ _ _ _ _ _ _ _).bind fun e => .pure ?_
    simp only [Option.elim_some]
    abel

theorem keeps_extendDir (dir bh de i : Nat) : Keeps ledger (extendDir dir bh de i) :=
  (keeps_inode dir).bind fun _ =>
    .ite ((keeps_modifyBuf bh (by intro; rfl)).bind fun _ =>
      keeps_modifyInode dir _ (by intro; rfl)) (.pure _)

theorem keeps_claimEntry (dir len : Nat) (name : Name) (bh de i : Nat) :
    Keeps ledger (claimEntry dir len name bh de i) := by
  refine (keeps_extendDir dir bh de i).bind fun _ => (keeps_readBuf bh).bind fun b =>
    .ite ?_ (.pure _)
  exact (keeps_modifyInode dir _ (by intro; rfl)).bind fun _ =>
    (keeps_modifyBuf bh (by intro; rfl)).bind fun _ => .pure _

theorem adds_scanFree (dir len : Nat) (name : Name) (rounds bh de i : Nat) :
    Adds ledger (scanFree disk dir len name rounds bh de i) fun r => held r - ref bh := by
  induction rounds generalizing bh de i with
  | zero => exact .failure
  | succ rounds ih =>
    refine .ite ?_ ?_
    · refine (keeps_claimEntry dir len name bh de i).andThen fun ok => .ite (.pure ?_) (ih bh _ _)
      exact sub_self _
    · refine (adds_brelse bh).bind fun _ => Adds.congr (δ := held) ?_ (by simp)
      refine (keeps_bmapCreate true dir _).andThen fun block => .ite (.pure rfl) ?_
      refine (keeps_inode dir).andThen fun n => (adds_bread _ _).bind fun x => ?_
      cases x with
      | none => exact .failure
      | some bh' =>
        refine (keeps_claimEntry dir len name bh' 0 i).andThen fun ok =>
          .ite (.pure ?_) (ih bh' _ _)
        exact sub_self _

theorem adds_addEntry (dir : Nat) (name : Name) : Adds ledger (addEntry disk dir name) held := by
  refine .ite (.pure rfl) ((keeps_inode dir).andThen fun n =>
    .ite (.pure rfl) ((adds_bread _ _).bind fun x => ?_))
  cases x with
  | none => exact .pure (sub_zero 0)
  | some bh => exact adds_scanFree _ _ _ _ _ _ _

theorem settled_of_keeps {α : Type} {x : Program Fs α} (h : Keeps ledger x) : Keeps settled x :=
  h.map fun l => (l.1.1, l.2)

theorem settled_of_adds {α : Type} {x : Program Fs α} {δ : α → Ledger} (h : Adds ledger x δ) :
    Adds settled x fun a => ((δ a).1.1, (δ a).2) :=
  fun s a t ht => congrArg (fun l : Ledger => (l.1.1, l.2)) (h s a t ht)

theorem keeps_freeBlock (dev block : Nat) : Keeps settled (freeBlock dev block) := by
  intro s a t h
  obtain ⟨c, hc, he⟩ := Option.map_eq_some_iff.mp h
  cases he
  refine Prod.ext ?_ rfl
  show counts c - _ = counts s.cache - _
  rw [counts_freeBlock hc]
  cases inUse dev block s.cache with
  | none => simp
  | some bh =>
    simp only [Option.elim_some, Option.toList_some, List.singleton_append,
      List.map_cons, List.sum_cons]
    rw [add_comm (one bh)]
    exact add_sub_add_right_eq_sub _ _ _

theorem keeps_freeEntries {free : Nat → Program Fs Unit} (hfree : ∀ z, Keeps settled (free z))
    (bh n : Nat) : Keeps settled (freeEntries free bh n) := by
  induction n with
  | zero => exact .pure _
  | succ n ih =>
    exact ih.bind fun _ => (settled_of_keeps (keeps_readBuf bh)).bind fun b =>
      .ite (hfree _) (.pure _)

theorem keeps_freeListed {free : Nat → Program Fs Unit} (hfree : ∀ z, Keeps settled (free z))
    (dev block : Nat) : Keeps settled (freeListed disk free dev block) := by
  have hread := (settled_of_adds (@adds_bread disk dev block)).congr fun x =>
    (by cases x <;> rfl : _ = x.elim 0 fun bh => ((ref bh).1.1, (ref bh).2))
  refine hread.borrow (.pure _) fun bh => (keeps_freeEntries hfree bh 512).andThen fun _ => ?_
  exact (settled_of_adds (adds_brelse bh)).congr fun _ => rfl

theorem keeps_freeIndex {free : Nat → Nat → Program Fs Unit}
    (hfree : ∀ dev z, Keeps settled (free dev z)) (dev block : Nat) :
    Keeps settled (freeIndex disk free dev block) :=
  .ite ((keeps_freeListed (hfree dev) dev block).bind fun _ => keeps_freeBlock dev block) (.pure _)

theorem keeps_freeDirect (i k : Nat) : Keeps settled (freeDirect i k) := by
  induction k with
  | zero => exact .pure _
  | succ k ih =>
    refine ih.bind fun _ => (settled_of_keeps (keeps_inode i)).bind fun n => .ite ?_ (.pure _)
    exact (keeps_freeBlock _ _).bind fun _ => settled_of_keeps
      (keeps_modifyInode i _ (by intro; rfl))

theorem keeps_truncate (i : Nat) : Keeps settled (truncate disk i) := by
  have hinode := settled_of_keeps (keeps_inode i)
  refine hinode.bind fun n => .ite ((keeps_freeDirect i 7).bind fun _ =>
    hinode.bind fun n7 => ?_) (.pure _)
  refine (keeps_freeIndex keeps_freeBlock _ _).bind fun _ => hinode.bind fun n8 => ?_
  refine (keeps_freeIndex (keeps_freeIndex keeps_freeBlock) _ _).bind fun _ => ?_
  exact settled_of_keeps (keeps_modifyInode i _ (by intro; rfl))

end

end Gpos.Fs
