import Gpos.InodeTasks

/-! The loops of `get_empty_inode` and `iput` that write an inode back, among the other tasks. -/

namespace Gpos.Sleeping

open Fs Cache WriteBack Thread Imap

/-- The loop of `get_empty_inode` with one write-back. -/
def flushOnce (disk : Cache.Disk) (i : Nat) : Thread Fs Unit := do
  if (← inode i).iDirt then
    writeInode disk i
    waitOnInode i

/-- The end of `iput` for a clean inode. -/
def putClean (i : Nat) : Program Fs Unit := do
  let n ← inode i
  if 1 < n.iCount then dropCount i
  else if n.iNlinks = 0 then freeInode i
  else dropCount i

/-- The loop of `iput` with one write-back. -/
def putOnce (disk : Cache.Disk) (i : Nat) : Thread Fs Unit := do
  if ← putStep i then
    writeInode disk i
    waitOnInode i
    putClean i

theorem putStep_clean {i : Nat} {s : Fs} (h : (s.inodeTable i).iDirt = false) :
    putStep i s = (putClean i s).map fun r => (false, r.2) := by
  show (if 1 < (s.inodeTable i).iCount then dropCount i >>= fun _ => pure false
    else if (s.inodeTable i).iNlinks = 0 then freeInode i >>= fun _ => pure false
    else if (s.inodeTable i).iDirt then pure true
    else dropCount i >>= fun _ => pure false : Program Fs Bool) s =
    ((if 1 < (s.inodeTable i).iCount then dropCount i
    else if (s.inodeTable i).iNlinks = 0 then freeInode i
    else dropCount i : Program Fs Unit) s).map fun r => (false, r.2)
  have hclean : ¬ (s.inodeTable i).iDirt = true := by simp [h]
  rw [if_neg hclean]
  have hthen (x : Program Fs Unit) :
      (x >>= fun _ => pure false : Program Fs Bool) s = (x s).map fun r => (false, r.2) := by
    rw [Program.bind_eq]
    cases x s <;> rfl
  split_ifs
  · exact hthen _
  · exact hthen _
  · exact hthen _

theorem putStep_again {i : Nat} {s t : Fs} (h : putStep i s = some (true, t)) : t = s := by
  obtain ⟨n, u, hn, h⟩ := Program.bind_some.mp h
  cases hn
  have hthen {x : Program Fs Unit} (hx : (x >>= fun _ => pure false : Program Fs Bool) s =
      some (true, t)) : t = s := by
    obtain ⟨_, v, -, hv⟩ := Program.bind_some.mp hx
    cases hv
  split_ifs at h
  · exact hthen h
  · exact hthen h
  · cases h
    rfl
  · exact hthen h

section

variable {T : Type} [Fintype T]

def Kernel.put (fs : Fs) (s : Kernel T) : Kernel T := { s with fs }

/-- Inode `i` is clean. -/
structure Rests (i : Nat) (s : Kernel T) : Prop where
  counted : Counted s
  clean : (s.fs.inodeTable i).iDirt = false

variable {α : Type} {x : Program Fs α} {disk : Cache.Disk} {i n : Nat} {s s' : Kernel T}
  {E : Kernel T → Kernel T → Prop}

/-- A part that leaves the references alone. -/
def Idle (x : Program Fs α) : Prop := ∀ r, Part (fun _ => True) Good r x fun _ r' => r' = r

theorem idle_of_table (h : Program.Keeps (fun s : Fs => s.inodeTable) x) : Idle x :=
  fun _ => part_of_table h

theorem Counted.part (h : Counted s) (hx : Idle x) {a : α} {fs : Fs}
    (ht : x s.fs = some (a, fs)) : Counted (s.put fs) := by
  obtain ⟨held, hgood, hheld⟩ := h
  rw [← zero_add (_ + unmarked s.refs)] at hgood
  obtain ⟨r, hr, rfl⟩ := hx 0 _ _ _ _ trivial hgood ht
  rw [zero_add] at hr
  exact ⟨held, hr, hheld⟩

/-- A step of another task that does not make inode `i` dirty. -/
def Quiet [DecidableEq T] (i : Nat) (s s' : Kernel T) : Prop :=
  Step s s' ∧ ((s.fs.inodeTable i).iDirt = false → (s'.fs.inodeTable i).iDirt = false)

section

variable [DecidableEq T] (hE : ∀ u v, E u v → Quiet i u v)

include hE

theorem stable_counted : Stable E (Counted (T := T)) := fun _ _ hs he => hs.step (hE _ _ he).1

theorem stable_rests : Stable E (Rests i) := fun _ _ hs he =>
  ⟨hs.counted.step (hE _ _ he).1, (hE _ _ he).2 hs.clean⟩

theorem counted_part (hx : Idle x) :
    Leads E Kernel.fs Kernel.put Counted (liftM x) fun _ => Counted :=
  .lift (stable_counted hE) (fun _ => stable_counted hE) fun _ _ _ hs ht => hs.part hx ht

theorem rests_part (hx : Idle x)
    (hc : Program.Keeps (fun s : Fs => (s.inodeTable i).iDirt) x) :
    Leads E Kernel.fs Kernel.put (Rests i) (liftM x) fun _ => Rests i :=
  .lift (stable_rests hE) (fun _ => stable_rests hE) fun s a t hs ht =>
    ⟨hs.counted.part hx ht, (hc s.fs a t ht).trans hs.clean⟩

theorem rests_of_table (h : Program.Keeps (fun s : Fs => s.inodeTable) x) :
    Leads E Kernel.fs Kernel.put (Rests i) (liftM x) fun _ => Rests i :=
  rests_part hE (idle_of_table h) fun s a t ht =>
    congrArg (fun table => (table i).iDirt) (h s a t ht)

/-- Behind `write_inode` an inode is clean: a dirty one has a device. -/
theorem rests_writeInode :
    Leads E Kernel.fs Kernel.put Counted (writeInode disk i) fun _ => Rests i := by
  have hread : Leads E Kernel.fs Kernel.put Counted (liftM (inode i))
      fun n s => Counted s ∧ (n.iDirt = false ∨ n.iDev = 0 → Rests i s) := by
    refine .lift (stable_counted hE) (fun n s s' hs he =>
      ⟨stable_counted hE _ _ hs.1 he, fun hn => stable_rests hE _ _ (hs.2 hn) he⟩) ?_
    intro s n t hs ht
    cases ht
    refine ⟨hs, fun hn => ⟨hs, ?_⟩⟩
    rcases hn with hclean | hdev
    · exact hclean
    · exact (hs.backed i hdev).clean
  have hunlock : Leads E Kernel.fs Kernel.put (Rests i) (liftM (unlockInode i)) fun _ => Rests i :=
    rests_part hE (fun _ => part_modify i (fun _ => rfl) (fun _ => rfl) (.inl tame_unlock)) (by
      intro s a t h
      cases h
      simp)
  have hclean : Leads E Kernel.fs Kernel.put Counted
      (liftM (modifyInode i fun n => { n with iDirt := false })) fun _ => Rests i := by
    refine .lift (stable_counted hE) (fun _ => stable_rests hE) fun s a t hs ht => ⟨?_, ?_⟩
    · exact hs.part (fun _ => part_modify i (by intro; rfl) (by intro; rfl) (.inl tame_clean)) ht
    · cases ht
      simp [Kernel.put]
  refine (counted_part hE fun _ => part_lockInode i).bind fun _ => hread.bind fun n =>
    .ite (fun hn => hunlock.mono (fun s hs => hs.2 hn) fun _ _ h => h) fun _ => ?_
  refine .mono ?_ (fun _ hs => hs.1) fun _ _ h => h
  refine (counted_part hE (idle_of_table (table_getSuper n.iDev))).bind fun sb =>
    (counted_part hE (idle_of_table (table_onCache _))).bind fun b => ?_
  cases b with
  | none => exact .lift (stable_counted hE) (fun _ => stable_rests hE) fun _ _ _ _ h => nomatch h
  | some bh =>
    exact (counted_part hE (idle_of_table (Program.Keeps.read _))).bind fun m =>
      (counted_part hE (idle_of_table (table_onCache _))).bind fun _ => hclean.bind fun _ =>
      (rests_of_table hE (table_onCache _)).bind fun _ => hunlock

theorem rests_flushLoop (hs : Rests i s) :
    Among E Kernel.fs Kernel.put (flushLoop disk i (n + 1)) s () s' ↔
      Relation.ReflTransGen E s s' := by
  have hclean {u : Kernel T} (hu : Relation.ReflTransGen E s u) :
      ¬ (u.fs.inodeTable i).iDirt = true := by
    rw [((stable_rests hE).many hs hu).clean]
    exact Bool.false_ne_true
  refine among_lift.trans ⟨?_, fun h => ⟨s', _, _, h, rfl, ?_⟩⟩
  · rintro ⟨u, m, t, hu, hm, hrest⟩
    cases hm
    rw [if_neg (hclean hu)] at hrest
    exact hu.trans hrest.2
  · rw [if_neg (hclean h)]
    exact ⟨rfl, .refl⟩

/-- The loop of `get_empty_inode` ends behind one write-back. -/
theorem among_flushLoop (hs : Counted s) :
    Among E Kernel.fs Kernel.put (flushLoop disk i (n + 2)) s () s' ↔
      Among E Kernel.fs Kernel.put (flushOnce disk i) s () s' := by
  refine Leads.congr (counted_part hE (idle_of_table (Program.Keeps.read _))) (fun m u hu => ?_) hs
  split
  · refine Leads.congr (rests_writeInode hE) (fun _ v hv => ?_) hu
    exact Leads.congr (g := fun _ => pure ()) (rests_of_table hE (table_wait i)) (fun _ w hw =>
      (rests_flushLoop hE hw).trans ⟨fun h => ⟨rfl, h⟩, fun h => h.2⟩) hv
  · rfl

theorem rests_putRound (hs : Rests i s) :
    Among E Kernel.fs Kernel.put (putRound disk i (n + 1)) s () s' ↔
      Among E Kernel.fs Kernel.put (liftM (putClean i)) s () s' := by
  have hstep {u : Kernel T} (hu : Relation.ReflTransGen E s u) :=
    putStep_clean ((stable_rests hE).many hs hu).clean
  refine among_lift.trans ⟨?_, ?_⟩
  · rintro ⟨u, again, t, hu, hx, hrest⟩
    rw [hstep hu] at hx
    obtain ⟨r, hr, he⟩ := Option.map_eq_some_iff.mp hx
    cases he
    exact ⟨u, (), r.2, hu, hr, rfl, hrest.2⟩
  · rintro ⟨u, _, t, hu, hx, hrest⟩
    have hput : putClean i u.fs = some ((), t) := hx
    refine ⟨u, false, t, hu, ?_, hrest⟩
    rw [hstep hu, hput]
    rfl

/-- The loop of `iput` ends behind one write-back. -/
theorem among_putRound (hs : Counted s) :
    Among E Kernel.fs Kernel.put (putRound disk i (n + 2)) s () s' ↔
      Among E Kernel.fs Kernel.put (putOnce disk i) s () s' := by
  have hstep : Leads E Kernel.fs Kernel.put Counted (liftM (putStep i))
      fun again s => again = true → Counted s := by
    refine .lift (stable_counted hE)
      (fun _ s s' hs he h => stable_counted hE s s' (hs h) he) ?_
    rintro s again t hs ht rfl
    rw [putStep_again ht]
    exact hs
  refine Leads.congr hstep (fun again u hu => ?_) hs
  split
  next h =>
    exact Leads.congr (rests_writeInode hE) (fun _ v hv => Leads.congr
      (rests_of_table hE (table_wait i)) (fun _ w hw => rests_putRound hE hw) hv) (hu h)
  · rfl

end

variable [DecidableEq T]

/-- The loops of `get_empty_inode` and `iput` for inode `i` end behind one write-back
if the other tasks take steps of `E`. -/
def EndOnce (E : Kernel T → Kernel T → Prop) (i : Nat) (s : Kernel T) : Prop :=
  ∀ (disk : Cache.Disk) (rounds : Nat) (s' : Kernel T),
    (Among E Kernel.fs Kernel.put (flushLoop disk i (rounds + 2)) s () s' ↔
      Among E Kernel.fs Kernel.put (flushOnce disk i) s () s') ∧
    (Among E Kernel.fs Kernel.put (putRound disk i (rounds + 2)) s () s' ↔
      Among E Kernel.fs Kernel.put (putOnce disk i) s () s')

theorem Counted.endOnce (hs : Counted s) (hE : ∀ u v, E u v → Quiet i u v) : EndOnce E i s :=
  fun _ _ _ => ⟨among_flushLoop hE hs, among_putRound hE hs⟩

end

end Gpos.Sleeping
