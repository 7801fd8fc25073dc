import Gpos.FileSystem

/-! Tasks in `iget`, `iput`, `new_inode`, `get_empty_inode` and `write_inode`.
A task goes on from one place where the code may sleep to the next. Where the
code only may sleep the task always stops, so that the runs are more than the
real interleavings. No super block is locked, there is no mount point and no
pipe, and an inode gets another reference only while `i_count` does not run over. -/

namespace Gpos.InodeTable

open Fs

structure Slot where
  iDev : Nat
  iNum : Nat
  iCount : BitVec 16
  iNlinks : Nat
  iLock : Bool
  iDirt : Bool

def Slot.id (x : Slot) : Nat × Nat := (x.iDev, x.iNum)

def zeroSlot : Slot := ⟨0, 0, 0, 0, false, false⟩

/-- Who calls `get_empty_inode`. -/
inductive Caller
  | plain
  | iget (dev nr : Nat)
  | new (dev : Nat)

/-- What is left after `iput`: nothing, or the slot that `iget` has found. -/
inductive Then
  | done
  | found (r : Fin nrInode)

/-- Who calls `write_inode`. -/
inductive Writer
  | call
  | empty (c : Caller)
  | put (k : Then)

/-- What a task waits for. -/
inductive Loc
  | out
  | emptyWait (c : Caller) (n : Fin nrInode)
  | writeLock (w : Writer) (n : Fin nrInode)
  | writeRead (w : Writer) (n : Fin nrInode)
  | writeRelse (w : Writer) (n : Fin nrInode)
  | scanWait (dev nr : Nat) (empty n : Fin nrInode)
  | readLock (n : Fin nrInode)
  | readRead (n : Fin nrInode)
  | readRelse (n : Fin nrInode)
  /-- `again` is behind `repeat`. -/
  | putWait (k : Then) (again : Bool) (n : Fin nrInode)

/-- An inode is assigned to a slot: by whom, who has got the slot from
`get_empty_inode` last, and what was in it. -/
structure Assignment (T : Type*) where
  task : T
  owner : Option T
  slot : Slot

/-- Behind `write_inode`. -/
def Writer.back (w : Writer) (n : Fin nrInode) : Loc :=
  match w with
  | .call => .out
  | .empty c => .emptyWait c n
  | .put k => .putWait k true n

/-- `alloc` is the inode map, `named` are the inodes that an entry of a
directory names, `links` are the link counts on the disk and `refs` the
references to the slots outside of these functions. `owner` is who has got the
slot from `get_empty_inode` last. `cleared` has what was in the slots that
`get_empty_inode` has cleared. -/
structure St (T : Type*) where
  table : Fin nrInode → Slot
  lastInode : Fin nrInode
  alloc : Nat × Nat → Bool
  named : Nat × Nat → Bool
  links : Nat × Nat → Nat
  refs : Fin nrInode → Nat
  loc : T → Loc
  owner : Fin nrInode → Option T
  cleared : List Slot
  assigned : List (Assignment T)

/-- A task calls something, does something with an inode that it has a
reference to, or goes on; `free` is what `find_first_zero` gives. -/
inductive Event
  | iget (dev nr : Nat)
  | new (dev : Nat)
  | getEmpty
  | write (n : Fin nrInode)
  | iput (n : Fin nrInode)
  | dup (n : Fin nrInode)
  | touch (n : Fin nrInode)
  | name (n : Fin nrInode)
  | unlink (n : Fin nrInode)
  | go (free : Option Nat)

/-- The `for` loop of `get_empty_inode`, with `last_inode` and the best slot so far. -/
def pick (table : Fin nrInode → Slot) :
    Nat → Fin nrInode → Option (Fin nrInode) → Fin nrInode × Option (Fin nrInode)
  | 0, last, best => (last, best)
  | i + 1, last, best =>
    let last := if h : last.val + 1 < nrInode then ⟨last.val + 1, h⟩ else ⟨0, by decide⟩
    if (table last).iCount = 0 then
      if (table last).iDirt = false ∧ (table last).iLock = false then (last, some last)
      else pick table i last (some last)
    else pick table i last best

/-- The search of `iget`. -/
def find (table : Fin nrInode → Slot) (dev nr : Nat) : Option (Fin nrInode) :=
  (List.finRange nrInode).find? fun n => decide ((table n).iDev = dev ∧ (table n).iNum = nr)

namespace St

variable {T : Type*} [DecidableEq T] (s : St T)

def set (n : Fin nrInode) (x : Slot) : St T := { s with table := Function.update s.table n x }

def assign (t : T) (n : Fin nrInode) (x : Slot) : St T :=
  { s.set n x with assigned := ⟨t, s.owner n, s.table n⟩ :: s.assigned }

def goto (t : T) (l : Loc) : St T := { s with loc := Function.update s.loc t l }

def addRef (n : Fin nrInode) : St T := { s with refs := Function.update s.refs n (s.refs n + 1) }

def dropRef (n : Fin nrInode) : St T := { s with refs := Function.update s.refs n (s.refs n - 1) }

def setAlloc (i : Nat × Nat) (b : Bool) : St T := { s with alloc := Function.update s.alloc i b }

def begin (t : T) (c : Caller) : Option (St T) :=
  match pick s.table nrInode s.lastInode none with
  | (_, none) => none
  | (last, some n) => some ({ s with lastInode := last }.goto t (.emptyWait c n))

/-- The rest of `iget` from the search on. -/
def scan (t : T) (dev nr : Nat) (e : Fin nrInode) : St T :=
  match find s.table dev nr with
  | some n => s.goto t (.scanWait dev nr e n)
  | none =>
    if (s.table e).iLock then
      (s.assign t e { s.table e with iDev := dev, iNum := nr }).goto t (.readLock e)
    else
      (s.assign t e { s.table e with iDev := dev, iNum := nr, iLock := true }).goto t (.readRead e)

/-- The rest of `new_inode` with the empty slot. -/
def fresh (t : T) (dev : Nat) (e : Fin nrInode) (free : Option Nat) : Option (St T) :=
  match free with
  | none => some (s.goto t (.putWait .done false e))
  | some nr =>
    if s.alloc (dev, nr) then none
    else some ((((s.setAlloc (dev, nr) true).assign t e
      { s.table e with
        iDev := dev, iNum := nr, iCount := 1, iNlinks := 1, iDirt := true }).addRef e).goto t .out)

/-- `memset` and `i_count = 1` in `get_empty_inode` -/
def clear (t : T) (n : Fin nrInode) : St T :=
  { s.set n { zeroSlot with iCount := 1 } with
    owner := Function.update s.owner n (some t)
    cleared := s.table n :: s.cleared }

/-- Behind the waits of `get_empty_inode`. -/
def take (t : T) (c : Caller) (n : Fin nrInode) (free : Option Nat) : Option (St T) :=
  if (s.table n).iDirt then some (s.goto t (.writeLock (.empty c) n))
  else if (s.table n).iCount ≠ 0 then s.begin t c
  else
    match c with
    | .plain => some (((s.clear t n).addRef n).goto t .out)
    | .iget dev nr => some ((s.clear t n).scan t dev nr n)
    | .new dev => (s.clear t n).fresh t dev n free

/-- Behind `lock_inode` in `write_inode`. -/
def write (t : T) (w : Writer) (n : Fin nrInode) : St T :=
  if (s.table n).iDirt = false ∨ (s.table n).iDev = 0 then s.goto t (w.back n)
  else (s.set n { s.table n with iLock := true }).goto t (.writeRead w n)

/-- The inode is copied into its block. -/
def store (n : Fin nrInode) : St T :=
  { s with links := Function.update s.links (s.table n).id (s.table n).iNlinks }.set n
    { s.table n with iDirt := false }

/-- The inode is copied out of its block. -/
def load (n : Fin nrInode) : St T := s.set n { s.table n with iNlinks := s.links (s.table n).id }

def finish (t : T) (k : Then) : St T :=
  match k with
  | .done => s.goto t .out
  | .found r => (s.addRef r).goto t .out

/-- `i_count++` -/
def raise (n : Fin nrInode) : Option (St T) :=
  if (s.table n).iCount = BitVec.allOnes 16 then none
  else some (s.set n { s.table n with iCount := (s.table n).iCount + 1 })

def lower (n : Fin nrInode) : St T := s.set n { s.table n with iCount := (s.table n).iCount - 1 }

/-- `free_inode` -/
def free (n : Fin nrInode) : St T :=
  if (s.table n).iDev = 0 then s.set n zeroSlot
  else (s.setAlloc (s.table n).id false).set n zeroSlot

/-- Behind the waits of `iput`. -/
def put (t : T) (k : Then) (again : Bool) (n : Fin nrInode) : Option (St T) :=
  if again = false ∧ (s.table n).iCount = 0 then none
  else if again = false ∧ (s.table n).iDev = 0 then some ((s.lower n).finish t k)
  else if 1 < (s.table n).iCount then some ((s.lower n).finish t k)
  else if (s.table n).iNlinks = 0 then some ((s.free n).finish t k)
  else if (s.table n).iDirt then some (s.goto t (.writeLock (.put k) n))
  else some ((s.lower n).finish t k)

/-- A task that waits goes on. -/
def resume (t : T) (free : Option Nat) : Option (St T) :=
  match s.loc t with
  | .out => none
  | .emptyWait c n => if (s.table n).iLock then none else s.take t c n free
  | .writeLock w n => if (s.table n).iLock then none else some (s.write t w n)
  | .writeRead w n => some ((s.store n).goto t (.writeRelse w n))
  | .writeRelse w n => some ((s.set n { s.table n with iLock := false }).goto t (w.back n))
  | .scanWait dev nr e n =>
    if (s.table n).iLock then none
    else if (s.table n).iDev = dev ∧ (s.table n).iNum = nr then
      (s.raise n).map fun s => s.goto t (.putWait (.found n) false e)
    else some (s.scan t dev nr e)
  | .readLock n =>
    if (s.table n).iLock then none
      else some ((s.set n { s.table n with iLock := true }).goto t (.readRead n))
  | .readRead n => some ((s.load n).goto t (.readRelse n))
  | .readRelse n => some (((s.set n { s.table n with iLock := false }).addRef n).goto t .out)
  | .putWait k again n => if (s.table n).iLock then none else s.put t k again n

/-- What happens outside: an inode gets another reference, is changed, is
entered into a directory, or loses the link of an entry that could not be made. -/
def outside (e : Event) : Option (St T) :=
  match e with
  | .dup n => if s.refs n = 0 then none else (s.raise n).map fun s => s.addRef n
  | .touch n => if s.refs n = 0 then none else some (s.set n { s.table n with iDirt := true })
  | .name n =>
    if s.refs n = 0 ∨ (s.table n).iDev = 0 ∨ (s.table n).iNlinks = 0 then none
    else some { s with named := Function.update s.named (s.table n).id true }
  | .unlink n =>
    if s.refs n = 0 ∨ (s.table n).iNlinks = 0 ∨ s.named (s.table n).id = true then none
    else some (s.set n { s.table n with iNlinks := (s.table n).iNlinks - 1 })
  | _ => none

/-- A task that is in none of the functions. -/
def enter (t : T) (e : Event) : Option (St T) :=
  match e with
  | .iget dev nr => if dev = 0 ∨ s.named (dev, nr) = false then none else s.begin t (.iget dev nr)
  | .new dev => if dev = 0 then none else s.begin t (.new dev)
  | .getEmpty => s.begin t .plain
  | .write n => some (s.goto t (.writeLock .call n))
  | .iput n => if s.refs n = 0 then none else some ((s.dropRef n).goto t (.putWait .done false n))
  | e => s.outside e

end St

section

variable {T : Type*} [DecidableEq T]

def step (a : T × Event) (s : St T) : Option (St T) :=
  match a.2, s.loc a.1 with
  | .go free, _ => s.resume a.1 free
  | e, .out => s.enter a.1 e
  | _, _ => none

end

variable {T : Type*}

/-- An inode is in one slot at most, `get_empty_inode` clears slots that are
neither in use nor dirty, and an inode is only assigned to a slot that the same
task has got from `get_empty_inode` and that nobody else uses. -/
def Safe (s : St T) : Prop :=
  (∀ m n, (s.table m).iDev ≠ 0 → (s.table m).id = (s.table n).id → m = n) ∧
    (∀ x ∈ s.cleared, x.iCount = 0 ∧ x.iDirt = false) ∧
    ∀ a ∈ s.assigned, a.owner = some a.task ∧ a.slot.iDev = 0 ∧ a.slot.iCount = 1

def boot (alloc named : Nat × Nat → Bool) (links : Nat × Nat → Nat) : St T where
  table _ := zeroSlot
  lastInode := ⟨0, by decide⟩
  alloc := alloc
  named := named
  links := links
  refs _ := 0
  loc _ := .out
  owner _ := none
  cleared := []
  assigned := []

end Gpos.InodeTable
