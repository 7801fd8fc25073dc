import Gpos.Open
import Gpos.References

/-! The references on inodes that `open_namei` takes and drops. -/

namespace Gpos.Fs

open Cache Program

def inodes (s : Fs) : Inodes := (ledger s).2

def use (i : Nat) : Inodes := (iref i).2

section

variable {α : Type} {x : Program Fs α} {disk : Cache.Disk}

theorem inodes_of_keeps (h : Keeps ledger x) : Keeps inodes x := h.map Prod.snd

theorem inodes_of_adds {δ : α → Ledger} (h : Adds ledger x δ) : Adds inodes x fun a => (δ a).2 :=
  h.map (AddMonoidHom.snd _ _)

theorem inodes_of_buffers {δ : α → Ledger} (h : Adds ledger x δ) (h0 : ∀ a, (δ a).2 = 0) :
    Keeps inodes x :=
  Adds.keeps ((inodes_of_adds h).congr h0)

theorem inodes_inode (i : Nat) : Keeps inodes (inode i) := .read _

theorem inodes_readBuf (bh : Nat) : Keeps inodes (readBuf bh) := .read _

theorem inodes_brelse (bh : Nat) : Keeps inodes (brelse bh) :=
  inodes_of_buffers (adds_brelse bh) fun _ => neg_zero

theorem inodes_iput (i : Nat) :
    Adds inodes (iput disk i) fun _ => - use i := inodes_of_adds (adds_iput i)

theorem inodes_iget (dev nr : Nat) : Adds inodes (iget disk dev nr) use :=
  inodes_of_adds (adds_iget dev nr)

theorem inodes_raiseCount (i : Nat) :
    Adds inodes (raiseCount i) fun _ => use i := inodes_of_adds (adds_raiseCount i)

theorem snd_held (e : Option (Nat × Nat)) : (held e).2 = 0 := by
  cases e <;> rfl

theorem inodes_findEntry (root : Option Nat) (dir : Nat) (name : Name) :
    Adds inodes (findEntry disk root dir name) fun r => use r.1 - use dir := by
  refine (inodes_of_adds (adds_findEntry root dir name)).congr fun r => ?_
  rw [Prod.snd_add, snd_held, add_zero]
  rfl

theorem inodes_newInode (dev : Nat) (creds : Creds) :
    Adds inodes (newInode disk dev creds) fun r => r.elim 0 use :=
  (inodes_of_adds (adds_newInode dev creds)).congr fun r => by cases r <;> rfl

theorem inodes_addEntry (dir : Nat) (name : Name) : Keeps inodes (addEntry disk dir name) :=
  inodes_of_buffers (adds_addEntry dir name) snd_held

theorem inodes_truncate (i : Nat) : Keeps inodes (truncate disk i) :=
  (keeps_truncate i).map Prod.snd

theorem inodes_modifyInode (i : Nat) (f : MInode → MInode) (hf : ∀ n, (f n).iCount = n.iCount) :
    Keeps inodes (modifyInode i f) := inodes_of_keeps (keeps_modifyInode i f hf)

theorem inodes_walk (root : Option Nat) (names : List Name) (i : Nat) :
    Adds inodes (walk disk root names i) fun r => r.elim 0 use - use i := by
  induction names generalizing i with
  | nil =>
    refine (inodes_inode i).andThen fun n => .ite ?_ (.pure (sub_self _))
    exact (inodes_iput i).bind fun _ => .pure (by simp)
  | cons name names ih =>
    refine (inodes_inode i).andThen fun n => .ite ?_
      ((inodes_findEntry root i name).bind fun r => ?_)
    · exact (inodes_iput i).bind fun _ => .pure (by simp)
    · obtain ⟨dir, e⟩ := r
      cases e with
      | none => exact (inodes_iput dir).bind fun _ => .pure (by simp only [Option.elim_none]; abel)
      | some e =>
        refine (inodes_readBuf e.1).andThen fun b => (inodes_inode dir).andThen fun d => ?_
        refine (inodes_brelse e.1).andThen fun _ => (inodes_iput dir).bind fun _ =>
          (inodes_iget _ _).bind fun next => ?_
        exact (ih next).congr fun r => by simp only; abel

theorem inodes_getDir (t : Task) (path : Name) :
    Adds inodes (getDir disk t path) fun r => r.elim 0 use := by
  unfold getDir
  split
  next root pwd _ _ =>
    refine (inodes_inode root).andThen fun _ => (inodes_inode pwd).andThen fun _ => .ite .failure <|
      .ite (.pure rfl) ?_
    exact (inodes_raiseCount _).bind fun _ => inodes_walk _ _ _
  next => exact .failure

/-- The reference that the result of `open_namei` stands for. -/
def opened : Except Nat Nat → Inodes
  | .ok i => use i
  | .error _ => 0

theorem inodes_refuse (is : List Nat) (e : Nat) :
    Adds inodes (refuse disk is e) fun r => opened r - (is.map use).sum := by
  induction is with
  | nil => exact .pure (sub_self _)
  | cons i is ih =>
    refine (inodes_iput i).bind fun _ => ih.congr fun r => ?_
    rw [List.map_cons, List.sum_cons]
    abel

theorem inodes_openNew (t : Task) (dir : Nat) (name : Name) (flag mode : BitVec 32) :
    Adds inodes (openNew disk t dir name flag mode) fun r => opened r - use dir := by
  have hrefuse : ∀ e, Adds inodes (refuse disk [dir] e) fun r => opened r - use dir := fun e =>
    (inodes_refuse [dir] e).congr fun r => by rw [List.map_singleton, List.sum_singleton]
  refine .ite (hrefuse enoent) ((inodes_inode dir).andThen fun d => .ite (hrefuse eacces) ?_)
  refine (inodes_newInode _ _).bind fun x => ?_
  cases x with
  | none => exact (hrefuse enospc).congr fun _ => (sub_zero _).symm
  | some i =>
    refine (inodes_modifyInode i _ (by intro; rfl)).andThen fun _ =>
      (inodes_addEntry dir name).andThen fun e => ?_
    cases e with
    | none =>
      refine (inodes_modifyInode i _ (by intro; rfl)).andThen fun _ =>
        (inodes_refuse [i, dir] enospc).congr fun r => ?_
      simp only [List.map_cons, List.map_nil, List.sum_cons, List.sum_nil, Option.elim_some]
      abel
    | some e =>
      refine (inodes_inode i).andThen fun n => (inodes_of_keeps
        (keeps_modifyBuf e.1 (by intro; rfl))).andThen fun _ => ?_
      refine (inodes_brelse e.1).andThen fun _ => (inodes_iput dir).bind fun _ => .pure ?_
      simp only [opened, Option.elim_some]
      abel

theorem inodes_openFound (dir bh de : Nat) (flag : BitVec 32) :
    Adds inodes (openFound disk dir bh de flag) fun r => opened r - use dir := by
  refine (inodes_readBuf bh).andThen fun b => (inodes_inode dir).andThen fun d =>
    (inodes_brelse bh).andThen fun _ => ?_
  refine (inodes_iput dir).bind fun _ => .ite ((inodes_refuse [] eexist).congr fun r => ?_) ?_
  · rw [List.map_nil, List.sum_nil]
    abel
  · refine (inodes_iget _ _).bind fun i => (inodes_inode i).andThen fun n => .ite ?_ ?_
    · refine (inodes_refuse [i] eperm).congr fun r => ?_
      rw [List.map_singleton, List.sum_singleton]
      abel
    · have hok : Adds inodes (pure (.ok i) : Program Fs (Except Nat Nat)) fun r =>
        opened r - use dir - -use dir - use i :=
        .pure (by simp only [opened]; abel)
      exact (inodes_modifyInode i _ (by intro; rfl)).andThen fun _ =>
        .ite ((inodes_truncate i).andThen fun _ => hok) hok

theorem inodes_openNamei (t : Task) (path : Name) (flag mode : BitVec 32) :
    Adds inodes (openNamei disk t path flag mode) opened := by
  refine Adds.bind (δ := fun r => r.elim 0 fun d => use d.1) ?_ fun x => ?_
  · refine (inodes_getDir t path).bind fun x => ?_
    cases x with
    | none => exact .pure (sub_self _)
    | some dir => exact .pure (sub_self _)
  · cases x with
    | none => exact .pure (sub_self _)
    | some d =>
      refine .ite (.ite (.pure (sub_self _)) ?_) ((inodes_findEntry _ d.1 d.2).bind fun r => ?_)
      · refine (inodes_refuse [d.1] eisdir).congr fun r => ?_
        rw [List.map_singleton, List.sum_singleton]
        rfl
      · obtain ⟨dir, e⟩ := r
        cases e with
        | none =>
          refine (inodes_openNew t dir d.2 _ _).congr fun r => ?_
          simp only [Option.elim_some]
          abel
        | some e =>
          refine (inodes_openFound dir e.1 e.2 _).congr fun r => ?_
          simp only [Option.elim_some]
          abel

end

end Gpos.Fs
