import Gpos.InodeAllocator
import Gpos.Open
import Gpos.Run

/-! The inodes that are written back have a device. A slot without one is clean, and it
holds nothing that could make it dirty: no mode of a file or a directory, and no zone. -/

namespace Gpos.WriteBack

open Fs Cache BlockMap Program Imap

structure Vacant (n : MInode) : Prop where
  clean : n.iDirt = false
  noReg : isReg n.iMode = false
  noDir : isDir n.iMode = false
  noZone : ∀ k, n.iZone k = 0

theorem vacant_zeroInode : Vacant zeroInode := ⟨rfl, rfl, rfl, fun _ => rfl⟩

/-- A slot without a device is vacant. -/
def Settled (n : MInode) : Prop := n.iDev = 0 → Vacant n

def Backed (s : Fs) : Prop := ∀ i, Settled (s.inodeTable i)

/-- A change of a slot that leaves it without a device leaves it as vacant as it was. -/
def Tame (f : MInode → MInode) : Prop := ∀ n, Settled n → Settled (f n)

theorem tame_of_same {f : MInode → MInode} (hd : ∀ n, (f n).iDev = n.iDev)
    (hv : ∀ n, Vacant n → Vacant (f n)) : Tame f :=
  fun n hn h0 => hv n (hn (hd n ▸ h0))

section

variable {α : Type} {x : Program Fs α} {disk : Cache.Disk} {s : Fs} {i : Nat}

/-- Slot `i` has a device. -/
def HasDev (i : Nat) (s : Fs) : Prop := (s.inodeTable i).iDev ≠ 0

def BackedBut (i : Nat) (s : Fs) : Prop := ∀ k, k ≠ i → Settled (s.inodeTable k)

/-- In a backed table, slot `i` has a device. -/
structure Held (i : Nat) (s : Fs) : Prop where
  backed : Backed s
  dev : HasDev i s

theorem BackedBut.held (h : BackedBut i s) (hd : HasDev i s) : Held i s := by
  refine ⟨fun k => ?_, hd⟩
  by_cases hk : k = i
  · exact fun h0 => absurd (hk ▸ h0) hd
  · exact h k hk

theorem BackedBut.held_of {n : MInode} (h : BackedBut i s) (hn : s.inodeTable i = n)
    (hd : n.iDev ≠ 0) : Held i s := h.held (by rwa [HasDev, hn])

/-! Programs that leave the table alone, and changes of one slot. -/

theorem ensures_of_table (h : Keeps (fun s : Fs => s.inodeTable) x) (P : (Nat → MInode) → Prop) :
    Ensures (fun s => P s.inodeTable) x fun _ s => P s.inodeTable := by
  intro s a t hs ht
  have he : t.inodeTable = s.inodeTable := h s a t ht
  rw [he]
  exact hs

theorem backs_of_table (h : Keeps (fun s : Fs => s.inodeTable) x) :
    Ensures Backed x fun _ => Backed := ensures_of_table h fun table => ∀ i, Settled (table i)

theorem holds_of_table (h : Keeps (fun s : Fs => s.inodeTable) x) :
    Ensures (Held i) x fun _ => Held i :=
  fun s a t hs ht => ⟨backs_of_table h s a t hs.backed ht,
    ensures_of_table h (fun table => (table i).iDev ≠ 0) s a t hs.dev ht⟩

theorem backs_modifyInode (i : Nat) {f : MInode → MInode} (hf : Tame f) :
    Ensures Backed (modifyInode i f) fun _ => Backed := by
  intro s a t hs ht
  cases ht
  intro k
  by_cases hk : k = i
  · subst hk
    simpa using hf _ (hs k)
  · simpa [hk] using hs k

theorem Backed.but (h : Backed s) (i : Nat) : BackedBut i s := fun k _ => h k

theorem frees_modifyInode (i : Nat) (f : MInode → MInode) :
    Ensures (BackedBut i) (modifyInode i f) fun _ => BackedBut i := by
  intro s a t hs ht
  cases ht
  intro k hk
  simpa [hk] using hs k hk

/-- In a slot with a device anything may be changed but the device. -/
theorem holds_modifyInode {j : Nat} {f : MInode → MInode} (hf : ∀ n, (f n).iDev = n.iDev)
    (hj : j = i ∨ Tame f) : Ensures (Held i) (modifyInode j f) fun _ => Held i := by
  intro s a t hs ht
  have hdev : HasDev i t := by
    cases ht
    by_cases hij : i = j
    · subst hij
      simpa [HasDev, hf] using hs.dev
    · simpa [HasDev, hij] using hs.dev
  rcases hj with rfl | htame
  · exact (frees_modifyInode j f s a t (hs.backed.but j) ht).held hdev
  · exact ⟨backs_modifyInode j htame s a t hs.backed ht, hdev⟩

/-- What is read of a slot. -/
theorem ensures_inode (P : Fs → Prop) (i : Nat) :
    Ensures P (inode i) fun n s => P s ∧ s.inodeTable i = n := by
  intro s a t hs ht
  cases ht
  exact ⟨hs, rfl⟩

/-- There is no super block of device zero. -/
theorem ensures_getSuper (P : Fs → Prop) (dev : Nat) :
    Ensures P (Fs.getSuper dev) fun _ s => P s ∧ dev ≠ 0 := by
  intro s sb t hs h
  obtain ⟨sb', hsb, he⟩ := Option.map_eq_some_iff.mp h
  cases he
  exact ⟨hs, Zones.getSuper_dev hsb⟩

theorem ensures_newBlock (P : (Nat → MInode) → Prop) (dev : Nat) :
    Ensures (fun s => P s.inodeTable) (Fs.newBlock dev) fun _ s => P s.inodeTable ∧ dev ≠ 0 := by
  refine fun s z t hs h => ⟨ensures_of_table (table_onCache _) P s z t hs h, ?_⟩
  rintro rfl
  cases h

/-! What the functions keep. -/

theorem tame_lock : Tame fun n => { n with iLock := true } :=
  tame_of_same (fun _ => rfl) fun _ h => ⟨h.clean, h.noReg, h.noDir, h.noZone⟩

theorem tame_unlock : Tame fun n => { n with iLock := false } :=
  tame_of_same (fun _ => rfl) fun _ h => ⟨h.clean, h.noReg, h.noDir, h.noZone⟩

theorem tame_clean : Tame fun n => { n with iDirt := false } :=
  tame_of_same (fun _ => rfl) fun _ h => ⟨rfl, h.noReg, h.noDir, h.noZone⟩

theorem tame_zero : Tame fun _ => zeroInode := fun _ _ _ => vacant_zeroInode

theorem tame_count (c : MInode → BitVec 16) : Tame fun n => { n with iCount := c n } :=
  tame_of_same (fun _ => rfl) fun _ h => ⟨h.clean, h.noReg, h.noDir, h.noZone⟩

theorem backs_lockInode (i : Nat) : Ensures Backed (lockInode i) fun _ => Backed :=
  (backs_of_table (table_wait i)).bind fun _ => backs_modifyInode i tame_lock

theorem backs_unlockInode (i : Nat) : Ensures Backed (unlockInode i) fun _ => Backed :=
  backs_modifyInode i tame_unlock

theorem backs_dropCount (i : Nat) : Ensures Backed (dropCount i) fun _ => Backed :=
  backs_modifyInode i (tame_count _)

theorem backs_raiseCount (i : Nat) : Ensures Backed (raiseCount i) fun _ => Backed :=
  backs_modifyInode i (tame_count _)

/-- Reading a slot. -/
theorem reads_inode (P : Fs → Prop) (i : Nat) : Ensures P (inode i) fun _ => P :=
  (ensures_inode P i).mono (fun _ h => h) fun _ _ h => h.1

theorem backs_writeInode (i : Nat) : Ensures Backed (writeInode disk i) fun _ => Backed := by
  refine (backs_lockInode i).bind fun _ => (reads_inode Backed i).bind fun n =>
    .ite (backs_unlockInode i) ?_
  refine (backs_of_table (table_getSuper n.iDev)).bind fun sb =>
    (backs_of_table (table_onCache _)).bind fun x => ?_
  cases x with
  | none => exact .failure
  | some bh =>
    exact (backs_of_table (table_onCache _)).bind fun _ =>
      (backs_modifyInode i tame_clean).bind fun _ =>
      (backs_of_table (table_onCache _)).bind fun _ => backs_unlockInode i

theorem backs_freeInode (i : Nat) : Ensures Backed (freeInode i) fun _ => Backed := by
  have hclear := backs_modifyInode i tame_zero
  refine (reads_inode Backed i).bind fun n => .ite hclear (.ite .failure (.ite .failure ?_))
  refine (backs_of_table (table_getSuper n.iDev)).bind fun sb => .ite .failure ?_
  split
  · exact .failure
  · exact (backs_of_table (table_onCache _)).bind fun _ => hclear

theorem backs_putRound (i rounds : Nat) :
    Ensures Backed (putRound disk i rounds) fun _ => Backed := by
  induction rounds with
  | zero => exact .failure
  | succ rounds ih =>
    refine (reads_inode Backed i).bind fun n => .ite (backs_dropCount i)
      (.ite (backs_freeInode i) (.ite ?_ (backs_dropCount i)))
    exact (backs_writeInode i).bind fun _ => (backs_of_table (table_wait i)).bind fun _ => ih

theorem backs_putPipe (i : Nat) : Ensures Backed (putPipe i) fun _ => Backed :=
  (backs_dropCount i).bind fun _ => (reads_inode Backed i).bind fun _ =>
    .ite (backs_modifyInode i (tame_of_same (fun _ => rfl) fun _ h =>
      ⟨rfl, h.noReg, h.noDir, h.noZone⟩)) (.pure fun _ h => h)

theorem backs_iput (i : Nat) : Ensures Backed (iput disk i) fun _ => Backed :=
  (backs_of_table (table_wait i)).bind fun _ => (reads_inode Backed i).bind fun _ =>
    .ite .failure (.ite (backs_putPipe i) (.ite (backs_dropCount i) (backs_putRound i 2)))

theorem backs_flushInode (i : Nat) : Ensures Backed (flushInode disk i) fun _ => Backed :=
  (reads_inode Backed i).bind fun _ => .ite
    ((backs_writeInode i).bind fun _ => (backs_of_table (table_wait i)).bind fun _ =>
      (reads_inode Backed i).bind fun _ => .ite .failure (.pure fun _ h => h))
    (.pure fun _ h => h)

theorem backs_getEmptyInode : Ensures Backed (getEmptyInode disk) fun _ => Backed := by
  have hpick : Keeps (fun s : Fs => s.inodeTable) pickInode := by
    intro s a t h
    cases h
    rfl
  refine (backs_of_table hpick).bind fun x => ?_
  cases x with
  | none => exact .failure
  | some i =>
    refine (backs_of_table (table_wait i)).bind fun _ => (backs_flushInode i).bind fun _ => ?_
    refine (reads_inode Backed i).bind fun _ => .ite ?_ .failure
    exact (backs_modifyInode i tame_zero).bind fun _ =>
      (backs_modifyInode i (tame_count _)).bind fun _ => .pure fun _ h => h

/-- Slot `i` gets a device, or `read_inode` finds no super block. -/
theorem backs_readInode (i : Nat) : Ensures (BackedBut i) (readInode disk i) fun _ => Backed := by
  have hwait := ensures_of_table (table_wait i) fun table => ∀ k, k ≠ i → Settled (table k)
  refine (hwait.bind fun _ => frees_modifyInode i _).bind fun _ =>
    (ensures_inode (BackedBut i) i).bind fun n => (ensures_getSuper _ n.iDev).bind fun sb => ?_
  have hread : Ensures (Held i) (bread disk n.iDev (inodeBlock sb n.iNum)) fun _ => Held i :=
    holds_of_table (table_onCache _)
  refine (hread.mono (fun s h => h.1.1.held_of h.1.2 h.2) fun _ _ h => h).bind fun x => ?_
  cases x with
  | none => exact .failure
  | some bh =>
    refine (holds_of_table (Keeps.read _)).bind fun b =>
      (holds_modifyInode (by intro; rfl) (.inl rfl)).bind fun _ =>
      (holds_of_table (table_onCache _)).bind fun _ => ?_
    exact (backs_unlockInode i).mono (fun _ h => h.backed) fun _ _ h => h

theorem backs_igetLoop (empty rounds : Nat) (dev nr : Nat) :
    Ensures Backed (igetLoop disk empty rounds dev nr) fun _ => Backed := by
  induction rounds generalizing dev nr with
  | zero => exact .failure
  | succ rounds ih =>
    refine (backs_of_table (Keeps.read _)).bind fun slot => ?_
    cases slot with
    | none =>
      refine ((frees_modifyInode empty _).mono (fun _ h => h.but empty) fun _ _ h => h).bind
        fun _ => (backs_readInode empty).bind fun _ => .pure fun _ h => h
    | some i =>
      have hfound : Ensures Backed (iput disk empty >>= fun _ => pure i) fun _ => Backed :=
        (backs_iput empty).bind fun _ => .pure fun _ h => h
      refine (backs_of_table (table_wait i)).bind fun _ => (backs_raiseCount i).bind fun _ =>
        (reads_inode Backed i).bind fun _ => .ite ?_ hfound
      refine (backs_of_table (Keeps.read _)).bind fun sb => ?_
      cases sb with
      | none => exact hfound
      | some sb => exact (backs_iput i).bind fun _ => ih sb.sDev rootIno

theorem backs_iget (dev nr : Nat) : Ensures Backed (iget disk dev nr) fun _ => Backed :=
  .ite .failure (backs_getEmptyInode.bind fun empty => backs_igetLoop empty _ dev nr)

/-- What `new_inode` returns has a device. -/
theorem backs_newInode (dev : Nat) (creds : Creds) : Ensures Backed (newInode disk dev creds)
    fun r s => r.elim (Backed s) fun i => Held i s := by
  refine backs_getEmptyInode.bind fun i => (ensures_getSuper Backed dev).bind fun sb =>
    Ensures.assume fun hdev => (backs_of_table (Keeps.read _)).bind fun found => ?_
  have hgive : Ensures Backed (iput disk i >>= fun _ => pure none)
      fun r s => r.elim (Backed s) fun i => Held i s :=
    (backs_iput i).bind fun _ => .pure fun _ h => h
  split
  · exact hgive
  next k bh j =>
    refine .ite hgive ((backs_of_table (Keeps.read _)).bind fun b => .ite .failure ?_)
    refine (backs_of_table (table_onCache _)).bind fun _ => ?_
    have hname : Ensures Backed (nameInode i dev (j + k * 8192) creds) fun _ => Held i := by
      intro s a t hs h
      refine (frees_modifyInode i _ s a t (hs.but i) h).held ?_
      cases h
      simpa [HasDev] using hdev
    exact hname.bind fun _ => .pure fun _ h => h

/-! The blocks of a file. -/

theorem backs_zoneOrNew (create : Bool) (i k : Nat) :
    Ensures Backed (zoneOrNew (ops disk) create i k) fun _ => Backed := by
  have hread : Ensures Backed ((ops disk).iZone i k) fun _ => Backed :=
    (reads_inode Backed i).bind fun n => .pure fun _ h => h
  have hdev : Ensures Backed ((ops disk).iDev i) fun d s => Backed s ∧ (s.inodeTable i).iDev = d :=
    (ensures_inode Backed i).bind fun n => .pure fun s h => ⟨h.1, h.2 ▸ rfl⟩
  refine hread.bind fun z => .ite (hdev.bind fun d => ?_) (.pure fun _ h => h)
  have hnew := ensures_newBlock
    (fun table => (∀ k, Settled (table k)) ∧ (table i).iDev = d) d
  refine (hnew.mono (fun _ h => h) fun z s h => Held.mk h.1.1 (h.1.2.trans_ne h.2)).bind fun z => ?_
  have hset : Ensures (Held i) ((ops disk).setZone i k z) fun _ => Held i :=
    holds_modifyInode (f := fun n =>
      { n with iZone := Function.update n.iZone k z, iDirt := true, iCtime := 0 })
      (fun _ => rfl) (.inl rfl)
  exact .ite (hset.bind fun _ => .pure fun _ h => h.backed) (.pure fun _ h => h.backed)

theorem table_entryOrNew (create : Bool) (i z j : Nat) :
    Keeps (fun s : Fs => s.inodeTable) (entryOrNew (ops disk) create i z j) := by
  refine .ite (.pure _) (((Keeps.read _).bind fun _ => .pure _).bind fun dev =>
    (table_onCache _).bind fun x => ?_)
  cases x with
  | none => exact .pure _
  | some bh =>
    have hrelse (e : Nat) : Keeps (fun s : Fs => s.inodeTable)
        (brelse bh >>= fun _ => pure e) := (table_onCache _).bind fun _ => .pure _
    have hset (e : Nat) : Keeps (fun s : Fs => s.inodeTable) ((ops disk).setEntry bh j e) :=
      table_onCache fun c => some ((), c.modify bh fun b =>
        { b with bData := putBits b.bData (16 * j) 16 e, bDirt := true })
    have hnew (dev : Nat) : Keeps (fun s : Fs => s.inodeTable) (Fs.newBlock dev) :=
      fun s => table_onCache _ s
    refine ((Keeps.read _).bind fun _ => .pure _).bind fun e => .ite ?_ (hrelse e)
    refine ((Keeps.read _).bind fun _ => .pure _).bind fun dev => (hnew dev).bind fun e => ?_
    exact .ite ((hset e).bind fun _ => hrelse e) (hrelse e)

theorem backs_bmapCreate (create : Bool) (i block : Nat) :
    Ensures Backed (bmapCreate (ops disk) create i block) fun _ => Backed := by
  refine .ite .failure <| .ite (backs_zoneOrNew create i block) <| .ite ?_ ?_
  · exact (backs_zoneOrNew create i 7).bind fun z =>
      backs_of_table (table_entryOrNew create i z _)
  · refine (backs_zoneOrNew create i 8).bind fun z =>
      (backs_of_table (table_entryOrNew create i z _)).bind fun e => ?_
    exact backs_of_table (table_entryOrNew create i e _)

/-! The device of a slot stays while its file grows. -/

/-- The device of slot `i`. -/
def dev (i : Nat) (s : Fs) : Nat := (s.inodeTable i).iDev

theorem dev_of_table (h : Keeps (fun s : Fs => s.inodeTable) x) : Keeps (dev i) x :=
  h.map fun table => (table i).iDev

theorem dev_modifyInode (j : Nat) {f : MInode → MInode} (hf : ∀ n, (f n).iDev = n.iDev) :
    Keeps (dev i) (modifyInode j f) := by
  intro s a t h
  cases h
  show (Function.update s.inodeTable j (f (s.inodeTable j)) i).iDev = (s.inodeTable i).iDev
  by_cases hi : i = j
  · rw [hi, Function.update_self, hf]
  · rw [Function.update_of_ne hi]

theorem dev_bmapCreate (create : Bool) (j block : Nat) :
    Keeps (dev i) (bmapCreate (ops disk) create j block) := by
  have hnew (d : Nat) : Keeps (dev i) (Fs.newBlock d) := dev_of_table fun s => table_onCache _ s
  have hset (k z : Nat) : Keeps (dev i) ((ops disk).setZone j k z) :=
    dev_modifyInode j (f := fun n =>
      { n with iZone := Function.update n.iZone k z, iDirt := true, iCtime := 0 }) fun _ => rfl
  have hzone (k : Nat) : Keeps (dev i) (zoneOrNew (ops disk) create j k) := by
    refine ((Keeps.read _).bind fun _ => .pure _).bind fun z => .ite ?_ (.pure _)
    refine ((Keeps.read _).bind fun _ => .pure _).bind fun d => (hnew d).bind fun z => ?_
    exact .ite ((hset k z).bind fun _ => .pure _) (.pure _)
  have hentry (z k : Nat) : Keeps (dev i) (entryOrNew (ops disk) create j z k) :=
    dev_of_table (table_entryOrNew create j z k)
  refine .ite .failure <| .ite (hzone block) <| .ite ?_ ?_
  · exact (hzone 7).bind fun z => hentry z _
  · exact (hzone 8).bind fun z => (hentry z _).bind fun e => hentry e _

theorem holds_of_dev (hb : Ensures Backed x fun _ => Backed) (hd : Keeps (dev i) x) :
    Ensures (Held i) x fun _ => Held i :=
  fun s a t hs ht => ⟨hb s a t hs.backed ht, (hd s a t ht).trans_ne hs.dev⟩

theorem holds_bmapCreate (create : Bool) (j block : Nat) :
    Ensures (Held i) (bmapCreate (ops disk) create j block) fun _ => Held i :=
  holds_of_dev (backs_bmapCreate create j block) (dev_bmapCreate create j block)

/-! `truncate` -/

theorem table_freeBlock (dev block : Nat) :
    Keeps (fun s : Fs => s.inodeTable) (Fs.freeBlock dev block) := by
  intro s a t h
  obtain ⟨c, -, he⟩ := Option.map_eq_some_iff.mp h
  cases he
  rfl

theorem table_freeEntries {free : Nat → Program Fs Unit}
    (hfree : ∀ z, Keeps (fun s : Fs => s.inodeTable) (free z)) (bh n : Nat) :
    Keeps (fun s : Fs => s.inodeTable) (freeEntries free bh n) := by
  induction n with
  | zero => exact .pure ()
  | succ n ih => exact ih.bind fun _ => (Keeps.read _).bind fun b => .ite (hfree _) (.pure ())

theorem table_freeIndex {free : Nat → Nat → Program Fs Unit}
    (hfree : ∀ dev z, Keeps (fun s : Fs => s.inodeTable) (free dev z)) (dev block : Nat) :
    Keeps (fun s : Fs => s.inodeTable) (freeIndex disk free dev block) := by
  have hlisted : Keeps (fun s : Fs => s.inodeTable) (freeListed disk (free dev) dev block) := by
    refine (table_onCache _).bind fun x => ?_
    cases x with
    | none => exact .pure ()
    | some bh => exact (table_freeEntries (hfree dev) bh 512).bind fun _ => table_onCache _
  exact .ite (hlisted.bind fun _ => table_freeBlock dev block) (.pure ())

theorem table_freeInd (dev block : Nat) :
    Keeps (fun s : Fs => s.inodeTable) (freeInd disk dev block) :=
  table_freeIndex table_freeBlock dev block

theorem holds_freeDirect (i k : Nat) : Ensures (Held i) (freeDirect i k) fun _ => Held i := by
  induction k with
  | zero => exact .pure fun _ h => h
  | succ k ih =>
    refine ih.bind fun _ => (reads_inode (Held i) i).bind fun n => .ite ?_ (.pure fun _ h => h)
    exact (holds_of_table (table_freeBlock _ _)).bind fun _ =>
      holds_modifyInode (f := fun n => { n with iZone := Function.update n.iZone k 0 })
        (fun _ => rfl) (.inl rfl)

/-- A file or a directory has a device. -/
theorem backs_truncate (i : Nat) : Ensures Backed (truncate disk i) fun _ => Backed := by
  refine (ensures_inode Backed i).bind fun n => ?_
  split
  next hmode =>
    have hheld (s : Fs) (h : Backed s ∧ s.inodeTable i = n) : Held i s := by
      refine ⟨h.1, fun h0 => ?_⟩
      have hv := h.1 i h0
      rw [h.2] at hv
      rw [hv.noReg, hv.noDir] at hmode
      exact hmode.elim Bool.noConfusion Bool.noConfusion
    have hdirect := (holds_freeDirect i 7).mono hheld fun _ _ h => h
    refine hdirect.bind fun _ => (reads_inode (Held i) i).bind fun m =>
      (holds_of_table (table_freeInd _ _)).bind fun _ => (reads_inode (Held i) i).bind fun m' =>
      (holds_of_table (table_freeIndex table_freeInd _ _)).bind fun _ => ?_
    refine Ensures.mono (holds_modifyInode (i := i) ?_ (.inl rfl)) (fun _ h => h) fun _ _ h => h.backed
    exact fun _ => rfl
  · exact .pure fun _ h => h.1

/-! The directories -/

theorem backs_scanDir (dir len : Nat) (name : Name) (entries rounds bh de i : Nat) :
    Ensures Backed (scanDir disk dir len name entries rounds bh de i) fun _ => Backed := by
  induction rounds generalizing bh de i with
  | zero => exact .failure
  | succ rounds ih =>
    have hrelse (bh : Nat) : Ensures Backed (brelse bh) fun _ => Backed :=
      backs_of_table (table_onCache _)
    have hnext (block : Nat) : Ensures Backed (nextBlock disk dir block) fun _ => Backed :=
      .ite (.pure fun _ h => h) ((reads_inode Backed dir).bind fun _ =>
        backs_of_table (table_onCache _))
    refine .ite ((hrelse bh).bind fun _ => .pure fun _ h => h) (.ite ?_ ?_)
    · exact (backs_of_table (Keeps.read _)).bind fun b => .ite (.pure fun _ h => h) (ih bh _ _)
    · refine (hrelse bh).bind fun _ => (backs_bmapCreate false dir _).bind fun block =>
        (hnext block).bind fun x => ?_
      cases x with
      | none => exact .ite (.pure fun _ h => h) .failure
      | some bh' =>
        exact (backs_of_table (Keeps.read _)).bind fun b => .ite (.pure fun _ h => h) (ih bh' _ _)

theorem backs_upwards (root : Option Nat) (dir len : Nat) (name : Name) :
    Ensures Backed (upwards disk root dir len name) fun _ => Backed := by
  have hsame (len : Nat) : Ensures Backed (pure (dir, len) : Program Fs (Nat × Nat))
      fun _ => Backed := .pure fun _ h => h
  refine .ite (.ite (hsame 1) ((reads_inode Backed dir).bind fun n => .ite ?_ (hsame len)))
    (hsame len)
  refine (reads_inode Backed dir).bind fun n =>
    (backs_of_table (table_getSuper _)).bind fun sb => ?_
  split
  next => exact hsame len
  next mounted _ =>
    exact (backs_iput dir).bind fun _ => (backs_raiseCount mounted).bind fun _ => .pure fun _ h => h

theorem backs_findEntry (root : Option Nat) (dir : Nat) (name : Name) :
    Ensures Backed (findEntry disk root dir name) fun _ => Backed := by
  refine (reads_inode Backed dir).bind fun n => .ite (.pure fun _ h => h) ?_
  refine (backs_upwards root dir _ name).bind fun r => (reads_inode Backed r.1).bind fun m =>
    .ite (.pure fun _ h => h) ((backs_of_table (table_onCache _)).bind fun x => ?_)
  cases x with
  | none => exact .pure fun _ h => h
  | some bh => exact (backs_scanDir r.1 r.2 name _ _ bh 0 0).bind fun e => .pure fun _ h => h

theorem holds_claimEntry (dir len : Nat) (name : Name) (bh de i : Nat) :
    Ensures (Held dir) (claimEntry dir len name bh de i) fun _ => Held dir := by
  have hbuf (f : BufferHead → BufferHead) : Ensures (Held dir) (modifyBuf bh f) fun _ => Held dir :=
    holds_of_table (table_onCache _)
  have hextend : Ensures (Held dir) (extendDir dir bh de i) fun _ => Held dir :=
    (reads_inode (Held dir) dir).bind fun n => .ite ((hbuf _).bind fun _ =>
      holds_modifyInode (by intro; rfl) (.inl rfl)) (.pure fun _ h => h)
  refine hextend.bind fun _ => (holds_of_table (Keeps.read _)).bind fun b => .ite ?_
    (.pure fun _ h => h)
  exact (holds_modifyInode (by intro; rfl) (.inl rfl)).bind fun _ => (hbuf _).bind fun _ =>
    .pure fun _ h => h

theorem holds_scanFree (dir len : Nat) (name : Name) (rounds bh de i : Nat) :
    Ensures (Held dir) (scanFree disk dir len name rounds bh de i) fun _ => Held dir := by
  induction rounds generalizing bh de i with
  | zero => exact .failure
  | succ rounds ih =>
    have hclaim (bh de : Nat) : Ensures (Held dir) (do
        if ← claimEntry dir len name bh de i then return some (bh, de)
        else scanFree disk dir len name rounds bh (de + 1) (i + 1)) fun _ => Held dir :=
      (holds_claimEntry dir len name bh de i).bind fun free =>
        .ite (.pure fun _ h => h) (ih bh _ _)
    refine .ite (hclaim bh de) ((holds_of_table (table_onCache _)).bind fun _ =>
      (holds_bmapCreate true dir _).bind fun block => .ite (.pure fun _ h => h) ?_)
    refine (reads_inode (Held dir) dir).bind fun n =>
      (holds_of_table (table_onCache _)).bind fun x => ?_
    cases x with
    | none => exact .failure
    | some bh' => exact hclaim bh' 0

/-- A directory with a zone has a device. -/
theorem backs_addEntry (dir : Nat) (name : Name) :
    Ensures Backed (addEntry disk dir name) fun _ => Backed := by
  refine .ite (.pure fun _ h => h) ((ensures_inode Backed dir).bind fun n => ?_)
  split
  · exact .pure fun _ h => h.1
  next hzone =>
    have hheld (s : Fs) (h : Backed s ∧ s.inodeTable dir = n) : Held dir s :=
      ⟨h.1, fun h0 => hzone (h.2 ▸ (h.1 dir h0).noZone 0)⟩
    have hread : Ensures (Held dir) (bread disk n.iDev (n.iZone 0)) fun _ => Held dir :=
      holds_of_table (table_onCache _)
    refine (hread.mono hheld fun _ _ h => h).bind fun x => ?_
    cases x with
    | none => exact .pure fun _ h => h.backed
    | some bh =>
      exact (holds_scanFree dir _ name _ bh 0 0).mono (fun _ h => h) fun _ _ h => h.backed

/-! `open_namei` -/

theorem backs_walk (root : Option Nat) (names : List Name) (i : Nat) :
    Ensures Backed (walk disk root names i) fun _ => Backed := by
  induction names generalizing i with
  | nil =>
    exact (reads_inode Backed i).bind fun n =>
      .ite ((backs_iput i).bind fun _ => .pure fun _ h => h) (.pure fun _ h => h)
  | cons name names ih =>
    refine (reads_inode Backed i).bind fun n =>
      .ite ((backs_iput i).bind fun _ => .pure fun _ h => h) ?_
    refine (backs_findEntry root i name).bind fun r => ?_
    obtain ⟨i, e⟩ := r
    cases e with
    | none => exact (backs_iput i).bind fun _ => .pure fun _ h => h
    | some e =>
      exact (backs_of_table (Keeps.read _)).bind fun b => (reads_inode Backed i).bind fun m =>
        (backs_of_table (table_onCache _)).bind fun _ => (backs_iput i).bind fun _ =>
        (backs_iget _ _).bind fun i => ih i

theorem backs_getDir (t : Task) (path : Name) :
    Ensures Backed (getDir disk t path) fun _ => Backed := by
  rw [getDir]
  split
  next root pwd _ _ =>
    refine (reads_inode Backed root).bind fun n => (reads_inode Backed pwd).bind fun m =>
      .ite .failure (.ite (.pure fun _ h => h) ?_)
    exact (backs_raiseCount _).bind fun _ => backs_walk t.root _ _
  · exact .failure

theorem backs_refuse (is : List Nat) (e : Nat) :
    Ensures Backed (refuse disk is e) fun _ => Backed := by
  induction is with
  | nil => exact .pure fun _ h => h
  | cons i is ih => exact (backs_iput i).bind fun _ => ih

/-- `open_namei` makes the new inode dirty when it has its device. -/
theorem backs_openNew (t : Task) (dir : Nat) (name : Name) (flag mode : BitVec 32) :
    Ensures Backed (openNew disk t dir name flag mode) fun _ => Backed := by
  refine .ite (backs_refuse _ _) ((reads_inode Backed dir).bind fun d =>
    .ite (backs_refuse _ _) ((backs_newInode d.iDev ⟨t.euid, t.egid⟩).bind fun r => ?_))
  cases r with
  | none => exact backs_refuse _ _
  | some i =>
    have hmode : Ensures (Held i) (modifyInode i fun n =>
        { n with iUid := t.euid, iMode := mode.toNat, iDirt := true }) fun _ => Held i :=
      holds_modifyInode (by intro; rfl) (.inl rfl)
    refine (hmode.mono (fun _ h => h) fun _ _ h => h.backed).bind fun _ =>
      (backs_addEntry dir name).bind fun e => ?_
    cases e with
    | none =>
      have htame : Tame fun n => { n with iNlinks := (n.iNlinks + 255) % 256 } :=
        tame_of_same (fun _ => rfl) fun _ h => ⟨h.clean, h.noReg, h.noDir, h.noZone⟩
      exact (backs_modifyInode i htame).bind fun _ => backs_refuse _ _
    | some e =>
      exact (reads_inode Backed i).bind fun n => (backs_of_table (table_onCache _)).bind fun _ =>
        (backs_of_table (table_onCache _)).bind fun _ => (backs_iput dir).bind fun _ =>
        .pure fun _ h => h

theorem backs_openFound (dir bh de : Nat) (flag : BitVec 32) :
    Ensures Backed (openFound disk dir bh de flag) fun _ => Backed := by
  refine (backs_of_table (Keeps.read _)).bind fun b => (reads_inode Backed dir).bind fun d =>
    (backs_of_table (table_onCache _)).bind fun _ => (backs_iput dir).bind fun _ =>
    .ite (backs_refuse _ _) ((backs_iget _ _).bind fun i => (reads_inode Backed i).bind fun n =>
    .ite (backs_refuse _ _) ?_)
  have htame : Tame fun n => { n with iAtime := 0 } :=
    tame_of_same (fun _ => rfl) fun _ h => ⟨h.clean, h.noReg, h.noDir, h.noZone⟩
  refine (backs_modifyInode i htame).bind fun _ => .ite ?_ (.pure fun _ h => h)
  exact (backs_truncate i).bind fun _ => .pure fun _ h => h

theorem backs_openNamei (t : Task) (path : Name) (flag mode : BitVec 32) :
    Ensures Backed (openNamei disk t path flag mode) fun _ => Backed := by
  have hdir : Ensures Backed (dirNamei disk t path) fun _ => Backed := by
    refine (backs_getDir t path).bind fun r => ?_
    cases r with
    | none => exact .pure fun _ h => h
    | some dir => exact .pure fun _ h => h
  refine hdir.bind fun r => ?_
  cases r with
  | none => exact .pure fun _ h => h
  | some r =>
    refine .ite (.ite (.pure fun _ h => h) (backs_refuse _ _)) ?_
    refine (backs_findEntry t.root r.1 r.2).bind fun r => ?_
    obtain ⟨dir, e⟩ := r
    cases e with
    | none => exact backs_openNew t dir _ _ _
    | some e => exact backs_openFound dir e.1 e.2 _

/-! The runs of these functions. -/

/-- `rest` is what happens elsewhere to the buffers, the super blocks and `last_inode`. -/
inductive Call
  | iget (dev nr : Nat)
  | iput (i : Nat)
  | newInode (dev : Nat) (creds : Creds)
  | freeInode (i : Nat)
  | getEmptyInode
  | bmap (i block : Nat)
  | createBlock (i block : Nat)
  | truncate (i : Nat)
  | addEntry (dir : Nat) (name : Name)
  | openNamei (t : Task) (path : Name) (flag mode : BitVec 32)
  | rest (cache : Cache) (superBlock : Nat → SuperBlock) (lastInode : Nat)

def Call.run (disk : Cache.Disk) : Call → Program Fs Unit
  | .iget dev nr => do let _ ← Fs.iget disk dev nr
  | .iput i => Fs.iput disk i
  | .newInode dev creds => do let _ ← Fs.newInode disk dev creds
  | .freeInode i => Fs.freeInode i
  | .getEmptyInode => do let _ ← Fs.getEmptyInode disk
  | .bmap i block => do let _ ← Fs.bmap disk i block
  | .createBlock i block => do let _ ← Fs.createBlock disk i block
  | .truncate i => Fs.truncate disk i
  | .addEntry dir name => do let _ ← Fs.addEntry disk dir name
  | .openNamei t path flag mode => do let _ ← Fs.openNamei disk t path flag mode
  | .rest cache superBlock lastInode => fun s => some ((), { s with cache, superBlock, lastInode })

def step (a : Cache.Disk × Call) (s : Fs) : Option Fs := (a.2.run a.1 s).map Prod.snd

def boot (cache : Cache) (superBlock : Nat → SuperBlock) : Fs :=
  ⟨cache, fun _ => zeroInode, 0, superBlock, []⟩

theorem backed_boot (cache : Cache) (superBlock : Nat → SuperBlock) :
    Backed (boot cache superBlock) := fun _ _ => vacant_zeroInode

theorem Ensures.void (hx : Ensures Backed x fun _ => Backed) :
    Ensures Backed (x >>= fun _ => pure ()) fun _ => Backed :=
  hx.bind fun _ => .pure fun _ h => h

theorem backs_call (c : Call) : Ensures Backed (c.run disk) fun _ => Backed := by
  cases c with
  | iget dev nr => exact Ensures.void (backs_iget dev nr)
  | iput i => exact backs_iput i
  | newInode dev creds =>
    refine (backs_newInode dev creds).bind fun r => .pure fun s h => ?_
    cases r with
    | none => exact h
    | some i => exact h.backed
  | freeInode i => exact backs_freeInode i
  | getEmptyInode => exact Ensures.void backs_getEmptyInode
  | bmap i block => exact Ensures.void (backs_bmapCreate false i block)
  | createBlock i block => exact Ensures.void (backs_bmapCreate true i block)
  | truncate i => exact backs_truncate i
  | addEntry dir name => exact Ensures.void (backs_addEntry dir name)
  | openNamei t path flag mode => exact Ensures.void (backs_openNamei t path flag mode)
  | rest cache superBlock lastInode =>
    intro s a t hs h
    cases h
    exact hs

theorem Backed.step {a : Cache.Disk × Call} {t : Fs} (hs : Backed s) (h : step a s = some t) :
    Backed t := by
  obtain ⟨r, hr, rfl⟩ := Option.map_eq_some_iff.mp h
  exact backs_call a.2 s r.1 r.2 hs hr

end

end Gpos.WriteBack
