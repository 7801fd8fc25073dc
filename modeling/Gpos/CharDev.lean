import Gpos.SetupCounts
import Gpos.TtyWrite
import Mathlib.Tactic.IntervalCases

/-! `sys_write` and `rw_char`, up to the loop of `tty_write`. -/

namespace Gpos

namespace Sys

open Fs Tty
open Cache (major)

def enodev : Nat := 19

/-- A result, or the loop of `tty_write` over an entry of `tty_table`. -/
inductive Reply
  | result (r : Int)
  | enter (channel : Nat) (call : Tty.Call)

def ttyTable : List TtyStruct := [console]

/-- `buf` gives the bytes from the address on. -/
def ttyWrite (channel : Nat) (buf : Nat → BitVec 8) (nr : Int) : Reply :=
  if 2 < channel ∨ nr < 0 then .result (-1) else .enter channel
    (.start ((List.range nr.toNat).map buf))

def rwTtyx (_rw minor : Nat) (buf : Nat → BitVec 8) (count : Int) : Reply :=
  ttyWrite minor buf count

def crwTable : List (Option (Nat → Nat → (Nat → BitVec 8) → Int → Reply)) :=
  [none, none, none, none, some rwTtyx, none, none, none]

def rwChar (rw dev : Nat) (buf : Nat → BitVec 8) (count : Int) : Reply :=
  if crwTable.length ≤ major dev then .result (-enodev) else
  match crwTable.getD (major dev) none with
  | none => .result (-enodev)
  | some call => call rw (minor dev) buf count

def file (f : Fin 64) : Program Sys File := fun s => some (s.fileTable f, s)

/-- `WRITE` is one. A file without an inode is no open file. The message about the mode in front
of the last error is left out. -/
def sysWrite (k : Fin 8) (fd : Nat) (buf : Nat → BitVec 8) (count : Int) : Program Sys Reply := do
  let t ← current k
  if count < 0 then return .result (-einval) else
  match fileOf t fd with
  | none => return .result (-einval)
  | some f =>
    if count = 0 then return .result 0 else
    match (← file f).fInode with
    | none => failure
    | some i => do
      let n ← onFs (inode i)
      if isChr n.iMode then return rwChar 1 (n.iZone 0) buf count else return .result (-einval)

/-- An error, the zero of an empty call, or an entry that exists. -/
def Proper (count : Int) : Reply → Prop
  | .result r => r < 0 ∨ count = 0 ∧ r = 0
  | .enter channel _ => channel < ttyTable.length

/-- A task that runs, and every file of it is open. -/
structure Opened (s : Sys) (k : Fin 8) (t : Task) : Prop where
  task : s.task k = some t
  inode : ∀ fd f, fileOf t fd = some f → ∃ i, (s.fileTable f).fInode = some i

/-- Something is written to a terminal that passes the bound of `tty_write` and is not in the table. -/
def Stray (s : Sys) (t : Task) (fd : Nat) (count : Int) : Prop :=
  0 < count ∧ ∃ f i, fileOf t fd = some f ∧ (s.fileTable f).fInode = some i ∧
    isChr (s.fs.inodeTable i).iMode ∧ major ((s.fs.inodeTable i).iZone 0) = 4 ∧
    (minor ((s.fs.inodeTable i).iZone 0) = 1 ∨ minor ((s.fs.inodeTable i).iZone 0) = 2)

theorem proper_einval (count : Int) : Proper count (.result (-einval)) := Or.inl (by decide)

theorem proper_ttyWrite {count : Int} (hcount : 0 < count) (channel : Nat) (buf : Nat → BitVec 8) :
    Proper count (ttyWrite channel buf count) ↔ ¬ (channel = 1 ∨ channel = 2) := by
  unfold ttyWrite
  split
  next h =>
    have hno : ¬ (channel = 1 ∨ channel = 2) := by omega
    exact iff_of_true (Or.inl (by decide)) hno
  next h =>
    show channel < 1 ↔ _
    omega

theorem crwTable_getD {n : Nat} (hn : n < 8) :
    crwTable.getD n none = if n = 4 then some rwTtyx else none := by
  interval_cases n <;> rfl

theorem proper_rwChar {count : Int} (hcount : 0 < count) (dev : Nat) (buf : Nat → BitVec 8) :
    Proper count (rwChar 1 dev buf count) ↔ ¬ (major dev = 4 ∧
      (minor dev = 1 ∨ minor dev = 2)) := by
  unfold rwChar
  split
  next hbig =>
    have hge : 8 ≤ major dev := hbig
    exact iff_of_true (Or.inl (by decide)) (by omega)
  next hbig =>
    have hlt : major dev < 8 := Nat.lt_of_not_le hbig
    rw [crwTable_getD hlt]
    by_cases h4 : major dev = 4
    · simp only [h4, if_true, true_and]
      exact proper_ttyWrite hcount (minor dev) buf
    · simp only [h4, if_false, false_and, not_false_iff, iff_true]
      exact Or.inl (by decide)

section

variable {s : Sys} {k : Fin 8} {t : Task}

theorem sysWrite_eq (ht : s.task k = some t) (fd : Nat) (buf : Nat → BitVec 8) (count : Int) :
    sysWrite k fd buf count s = (if count < 0 then return .result (-einval) else
      match fileOf t fd with
      | none => return .result (-einval)
      | some f =>
        if count = 0 then return .result 0 else
        match (s.fileTable f).fInode with
        | none => failure
        | some i =>
          return (if isChr (s.fs.inodeTable i).iMode then rwChar 1
            ((s.fs.inodeTable i).iZone 0) buf count else .result (-einval)) :
              Program Sys Reply) s := by
  have hcur : current k s = some (t, s) := by simp [current, ht]
  rw [sysWrite, Program.bind_of_eq hcur]
  split
  · rfl
  · cases fileOf t fd with
    | none => rfl
    | some f =>
      simp only
      split
      · rfl
      · rw [Program.bind_of_eq (show file f s = some (s.fileTable f, s) from rfl)]
        cases (s.fileTable f).fInode with
        | none => rfl
        | some i =>
          simp only
          rw [Program.bind_of_eq (show onFs (inode i) s = some (s.fs.inodeTable i, s) from rfl)]
          split <;> rfl

/-- A task with open files gets an error or an entry of `tty_table` that exists, unless it writes
to the second or the third terminal. -/
theorem sysWrite_proper_iff (h : Opened s k t) (fd : Nat) (buf : Nat → BitVec 8) (count : Int) :
    (∃ r, sysWrite k fd buf count s = some (r, s) ∧ Proper count r) ↔ ¬ Stray s t fd count := by
  rw [sysWrite_eq h.task]
  by_cases hneg : count < 0
  · rw [if_pos hneg]
    refine iff_of_true ⟨_, rfl, proper_einval count⟩ fun hs => ?_
    have := hs.1
    omega
  · rw [if_neg hneg]
    cases hf : fileOf t fd with
    | none =>
      refine iff_of_true ⟨_, rfl, proper_einval count⟩ fun hs => ?_
      obtain ⟨f, i, hf', -⟩ := hs.2
      rw [hf] at hf'
      cases hf'
    | some f =>
      obtain ⟨i, hi⟩ := h.inode fd f hf
      by_cases hzero : count = 0
      · simp only [if_pos hzero]
        refine iff_of_true ⟨_, rfl, Or.inr ⟨hzero, rfl⟩⟩ fun hs => ?_
        have := hs.1
        omega
      · have hpos : 0 < count := by omega
        simp only [if_neg hzero, hi]
        have hstray : Stray s t fd count ↔ isChr (s.fs.inodeTable i).iMode = true ∧
            major ((s.fs.inodeTable i).iZone 0) = 4 ∧
              (minor ((s.fs.inodeTable i).iZone 0) = 1 ∨
                minor ((s.fs.inodeTable i).iZone 0) = 2) := by
          simp [Stray, hpos, hf, hi]
        have hrun : ∀ r : Reply, (∃ r', (return r : Program Sys Reply) s = some (r', s) ∧
          Proper count r') ↔ Proper count r :=
          fun r => ⟨fun ⟨r', he, hp⟩ => by cases he; exact hp, fun hp => ⟨r, rfl, hp⟩⟩
        rw [hrun, hstray]
        by_cases hchr : isChr (s.fs.inodeTable i).iMode = true
        · rw [if_pos hchr, proper_rwChar hpos]
          simp only [hchr, true_and]
        · rw [if_neg hchr]
          exact iff_of_true (proper_einval count) fun hs => hchr hs.1

end

def writer : Task := { initTask with filp := fun fd => if fd.val = 0 then some 0 else none }

/-- The first task has opened a terminal as file zero. -/
def terminal (dev : Nat) : Sys :=
  { atBoot Cache.blank with
    fs :=
      { (atBoot Cache.blank).fs with
        inodeTable := fun _ => { zeroInode with iMode := 0o020666, iZone := fun _ => dev } }
    fileTable := fun _ => ⟨0o020666, 2, 1, some 0, 0⟩
    task := fun k => if k.val = 0 then some writer else none }

theorem opened_terminal (dev : Nat) : Opened (terminal dev) 0 writer := ⟨rfl, fun _ _ _ => ⟨0, rfl⟩⟩

theorem sysWrite_proper_console :
    (∃ r, sysWrite 0 0 (fun _ => 65) 1 (terminal 0x400) = some (r, terminal 0x400) ∧ Proper 1 r) ↔
      ¬ Stray (terminal 0x400) writer 0 1 :=
  sysWrite_proper_iff (opened_terminal 0x400) 0 (fun _ => 65) 1

/-- A character for the second terminal goes on with an entry behind the end of the table. -/
theorem sysWrite_behind_table :
    ∃ r, sysWrite 0 0 (fun _ => 65) 1 (terminal 0x401) = some (r, terminal 0x401) ∧ ¬ Proper 1 r :=
  ⟨.enter 1 (.start [65]), rfl, show ¬ 1 < ttyTable.length by decide⟩

end Sys

end Gpos
