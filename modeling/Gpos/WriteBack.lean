import Gpos.SleepingLoops

/-! The loops of `get_empty_inode` and `iput` that write an inode back. -/

namespace Gpos.WriteBack

open Fs Cache BlockMap Program Imap

section

variable {α : Type} {x : Program Fs α} {disk : Cache.Disk} {s : Fs} {i : Nat}

/-- Calls of other tasks. A run in which they make inode `i` dirty is left out. -/
def runs (i : Nat) (calls : List (Cache.Disk × Call)) : Program Fs Unit := fun s =>
  ((Run.exec step calls s).filter fun t => (s.inodeTable i).iDirt || !(t.inodeTable i).iDirt).map
    fun t => ((), t)

theorem runs_some {calls : List (Cache.Disk × Call)} {r : Unit} {t : Fs}
    (h : runs i calls s = some (r, t)) : Run.exec step calls s = some t ∧
      ((s.inodeTable i).iDirt = false → (t.inodeTable i).iDirt = false) := by
  obtain ⟨u, hu, he⟩ := Option.map_eq_some_iff.mp h
  cases he
  obtain ⟨hrun, hquiet⟩ := Option.filter_eq_some_iff.mp hu
  refine ⟨hrun, fun hc => ?_⟩
  rw [hc] at hquiet
  simpa using hquiet

theorem backs_runs (calls : List (Cache.Disk × Call)) :
    Ensures Backed (runs i calls) fun _ => Backed := fun _ _ _ hs h =>
  (Run.always_of_step (fun _ _ _ hs h => Backed.step hs h) hs).last (runs_some h).1

/-- `write_inode` among other tasks, which run while it waits for the lock, for
the block and for the buffer. -/
def writeAmong (disk : Cache.Disk) (others : Nat → List (Cache.Disk × Call)) (i : Nat) :
    Program Fs Unit := do
  runs i (others 0)
  lockInode i
  let n ← inode i
  if n.iDirt = false ∨ n.iDev = 0 then unlockInode i
  else
    let sb ← getSuper n.iDev
    runs i (others 1)
    match ← bread disk n.iDev (inodeBlock sb n.iNum) with
    | none => failure
    | some bh => do
      let n ← inode i
      modifyBuf bh fun b =>
        { b with bData := writeInodeAt b.bData ((n.iNum - 1) % inodesPerBlock) n, bDirt := true }
      modifyInode i fun n => { n with iDirt := false }
      runs i (others 2)
      brelse bh
      unlockInode i

/-- `write_inode` and `wait_on_inode` -/
def writeBack (disk : Cache.Disk) (others : Nat → List (Cache.Disk × Call)) (i : Nat) :
    Program Fs Unit := do
  writeAmong disk others i
  runs i (others 3)
  waitOnInode i

/-- `while (inode->i_dirt)` in `get_empty_inode` -/
def flushLoop (disk : Cache.Disk) (i : Nat) :
    Nat → (Nat → Nat → List (Cache.Disk × Call)) → Program Fs Unit
  | 0, _ => failure
  | rounds + 1, others => do
    if (← inode i).iDirt then
      writeBack disk (others 0) i
      flushLoop disk i rounds fun k => others (k + 1)

/-- `repeat` in `iput` -/
def putLoop (disk : Cache.Disk) (i : Nat) :
    Nat → (Nat → Nat → List (Cache.Disk × Call)) → Program Fs Unit
  | 0, _ => failure
  | rounds + 1, others => do
    let n ← inode i
    if 1 < n.iCount then dropCount i
    else if n.iNlinks = 0 then freeInode i
    else if n.iDirt then
      writeBack disk (others 0) i
      putLoop disk i rounds fun k => others (k + 1)
    else dropCount i

/-- The loop of `get_empty_inode` with one write-back. -/
def flushOnce (disk : Cache.Disk) (i : Nat) (others : Nat → List (Cache.Disk × Call)) :
    Program Fs Unit := do
  if (← inode i).iDirt then writeBack disk others i

/-- The end of `iput` for a clean inode. -/
def putClean (i : Nat) : Program Fs Unit := do
  let n ← inode i
  if 1 < n.iCount then dropCount i
  else if n.iNlinks = 0 then freeInode i
  else dropCount i

/-- The loop of `iput` with one write-back. -/
def putOnce (disk : Cache.Disk) (i : Nat) (others : Nat → List (Cache.Disk × Call)) :
    Program Fs Unit := do
  let n ← inode i
  if 1 < n.iCount then dropCount i
  else if n.iNlinks = 0 then freeInode i
  else if n.iDirt then
    writeBack disk others i
    putClean i
  else dropCount i

/-- Inode `i` is clean in a backed table. -/
structure Clean (i : Nat) (s : Fs) : Prop where
  backed : Backed s
  clean : (s.inodeTable i).iDirt = false

theorem clean_of_table (h : Keeps (fun s : Fs => s.inodeTable) x) :
    Ensures (Clean i) x fun _ => Clean i :=
  fun s a t hs ht => ⟨backs_of_table h s a t hs.backed ht,
    ensures_of_table h (fun table => (table i).iDirt = false) s a t hs.clean ht⟩

theorem clean_runs (calls : List (Cache.Disk × Call)) :
    Ensures (Clean i) (runs i calls) fun _ => Clean i := fun s a t hs ht =>
  ⟨backs_runs calls s a t hs.backed ht, (runs_some ht).2 hs.clean⟩

theorem clean_unlockInode (i : Nat) : Ensures (Clean i) (unlockInode i) fun _ => Clean i := by
  intro s a t hs ht
  refine ⟨backs_unlockInode i s a t hs.backed ht, ?_⟩
  cases ht
  simpa using hs.clean

/-- Behind `write_inode` an inode is clean: a dirty one has a device. -/
theorem cleans_writeAmong (others : Nat → List (Cache.Disk × Call)) :
    Ensures Backed (writeAmong disk others i) fun _ => Clean i := by
  refine (backs_runs _).bind fun _ => (backs_lockInode i).bind fun _ =>
    (ensures_inode Backed i).bind fun n => ?_
  split
  next hskip =>
    refine (clean_unlockInode i).mono (fun s hs => ⟨hs.1, ?_⟩) fun _ _ h => h
    rw [hs.2]
    rcases hskip with hclean | hdev
    · exact hclean
    · rw [← hs.2] at hdev ⊢
      exact (hs.1 i hdev).clean
  next =>
    have hback (s : Fs) (hs : Backed s ∧ s.inodeTable i = n) : Backed s := hs.1
    refine ((backs_of_table (table_getSuper n.iDev)).mono hback fun _ _ h => h).bind fun sb =>
      (backs_runs _).bind fun _ => (backs_of_table (table_onCache _)).bind fun x => ?_
    cases x with
    | none => exact .failure
    | some bh =>
      have hwrite : Ensures Backed (modifyInode i fun n => { n with iDirt := false })
          fun _ => Clean i := by
        intro s a t hs ht
        refine ⟨backs_modifyInode i tame_clean s a t hs ht, ?_⟩
        cases ht
        simp
      exact (reads_inode Backed i).bind fun n => (backs_of_table (table_onCache _)).bind fun _ =>
        hwrite.bind fun _ => (clean_runs (others 2)).bind fun _ =>
        (clean_of_table (table_onCache _)).bind fun _ => clean_unlockInode i

theorem cleans_writeBack (others : Nat → List (Cache.Disk × Call)) :
    Ensures Backed (writeBack disk others i) fun _ => Clean i :=
  (cleans_writeAmong others).bind fun _ => (clean_runs (others 3)).bind fun _ =>
    clean_of_table (table_wait i)

theorem flushLoop_clean (hc : (s.inodeTable i).iDirt = false) (rounds : Nat)
    (others : Nat → Nat → List (Cache.Disk × Call)) :
    flushLoop disk i (rounds + 1) others s = some ((), s) := by
  show (if (s.inodeTable i).iDirt then _ else pure () : Program Fs Unit) s = _
  rw [hc]
  rfl

theorem putLoop_clean (hc : (s.inodeTable i).iDirt = false) (rounds : Nat)
    (others : Nat → Nat → List (Cache.Disk × Call)) :
    putLoop disk i (rounds + 1) others s = putClean i s := by
  show (if 1 < (s.inodeTable i).iCount then dropCount i
    else if (s.inodeTable i).iNlinks = 0 then freeInode i
    else if (s.inodeTable i).iDirt then _ else dropCount i : Program Fs Unit) s = _
  rw [hc]
  rfl

theorem flushLoop_eq (hs : Backed s) (others : Nat → Nat → List (Cache.Disk × Call))
    (rounds : Nat) :
    flushLoop disk i (rounds + 2) others s = flushOnce disk i (others 0) s := by
  show (if (s.inodeTable i).iDirt then _ else pure () : Program Fs Unit) s =
    (if (s.inodeTable i).iDirt then writeBack disk (others 0) i else pure () : Program Fs Unit) s
  split
  · refine ((cleans_writeBack (others 0)).bind_congr (fun _ t ht => ?_) hs).trans
      (congrFun (bind_pure (writeBack disk (others 0) i)) s)
    exact flushLoop_clean ht.clean rounds _
  · rfl

theorem putLoop_eq (hs : Backed s) (others : Nat → Nat → List (Cache.Disk × Call))
    (rounds : Nat) :
    putLoop disk i (rounds + 2) others s = putOnce disk i (others 0) s := by
  rw [putLoop, putOnce]
  show (if 1 < (s.inodeTable i).iCount then dropCount i
    else if (s.inodeTable i).iNlinks = 0 then freeInode i
    else if (s.inodeTable i).iDirt then _ else dropCount i : Program Fs Unit) s =
    (if 1 < (s.inodeTable i).iCount then dropCount i
    else if (s.inodeTable i).iNlinks = 0 then freeInode i
    else if (s.inodeTable i).iDirt then _ else dropCount i : Program Fs Unit) s
  split_ifs
  · rfl
  · rfl
  · exact (cleans_writeBack (others 0)).bind_congr
      (fun _ t ht => putLoop_clean ht.clean rounds _) hs
  · rfl

/-- A dirty inode without a device, which `write_inode` refuses, would keep the loop going. -/
theorem flushLoop_spins (hd : (s.inodeTable i).iDirt = true) (h0 : (s.inodeTable i).iDev = 0)
    (hl : (s.inodeTable i).iLock = false) (rounds : Nat) :
    flushLoop disk i rounds (fun _ _ => []) s = none := by
  have hruns (t : Fs) : runs i [] t = some ((), t) := by
    simp [runs, Run.exec, Option.filter]
  have hwait : waitOnInode i s = some ((), s) := by
    rw [waitOnInode, bind_of_eq (a := s.inodeTable i) (t := s) rfl, if_neg (by simp [hl])]
    rfl
  have hback : writeBack disk (fun _ => []) i s = some ((), s) := by
    have hunlock : unlockInode i { s with
        inodeTable := Function.update s.inodeTable i ({ s.inodeTable i with iLock := true }) } =
          some ((), s) := by
      simp [unlockInode, modifyInode, ← hl]
    rw [writeBack, bind_of_eq (a := ()) (t := s) ?_, bind_of_eq (hruns s), hwait]
    rw [writeAmong, bind_of_eq (hruns s), lockInode, bind_assoc, bind_of_eq hwait,
      bind_of_eq (a := ()) rfl, bind_of_eq (a := { s.inodeTable i with iLock := true }) ?_]
    · rw [if_pos (.inr h0), hunlock]
    · simp [inode]
  induction rounds with
  | zero => rfl
  | succ rounds ih =>
    show (if (s.inodeTable i).iDirt then _ else pure () : Program Fs Unit) s = _
    rw [if_pos hd, bind_of_eq hback]
    exact ih

theorem Backed.dev_ne (h : Backed s) (hd : (s.inodeTable i).iDirt = true) :
    (s.inodeTable i).iDev ≠ 0 := by
  intro h0
  rw [(h i h0).clean] at hd
  cases hd

/-- In every state that the calls reach, one after the other or cut by other tasks where they
sleep, a dirty inode has a device, and the loops of `get_empty_inode` and of `iput` end behind
one write-back if the other tasks do not make the inode dirty meanwhile. -/
theorem write_back_ends (cache : Cache) (superBlock : Nat → SuperBlock) :
    (∀ calls : List (Cache.Disk × Call), Run.Always step (fun s => ∀ i,
      ((s.inodeTable i).iDirt = true → (s.inodeTable i).iDev ≠ 0) ∧
        ∀ (disk : Cache.Disk) (others : Nat → Nat → List (Cache.Disk × Call)) (rounds : Nat),
          flushLoop disk i (rounds + 2) others s = flushOnce disk i (others 0) s ∧
            putLoop disk i (rounds + 2) others s = putOnce disk i (others 0) s)
      calls (boot cache superBlock)) ∧
    ∀ (T : Type) [Fintype T] [DecidableEq T] (s : Sleeping.Kernel T),
      Sleeping.Reaches (Sleeping.start T cache superBlock) s → ∀ i,
        ((s.fs.inodeTable i).iDirt = true → (s.fs.inodeTable i).iDev ≠ 0) ∧
          ∀ E, (∀ u v, E u v → Sleeping.Quiet i u v) → Sleeping.EndOnce E i s := by
  constructor
  · intro calls
    have hbacked : Run.Always step Backed calls (boot cache superBlock) :=
      Run.always_of_step (fun _ _ _ hs h => Backed.step hs h) (backed_boot cache superBlock)
    exact hbacked.mono fun s hs i => ⟨hs.dev_ne, fun disk others rounds =>
      ⟨flushLoop_eq hs others rounds, putLoop_eq hs others rounds⟩⟩
  · intro T _ _ s hs i
    have hcounted : Sleeping.Counted s := (Sleeping.counted_start cache superBlock).reaches hs
    exact ⟨hcounted.backed.dev_ne, fun _ hE => hcounted.endOnce hE⟩

end

end Gpos.WriteBack
