import Gpos.FileSystem

/-! `truncate` of one file by two tasks. A task runs from one place where the
code may sleep, in `bread`, `get_hash_table` or `get_super`, to the next.
Another task may come in at any of these places, also when the code would have
gone on there without sleeping. -/

namespace Gpos.Truncation

/-- What a task goes on with when the function it has called returns. `deep`
tells `free_dind` from `free_ind`. -/
inductive Frame
  | direct (i : Nat)
  | ind
  | dind
  | entries (deep : Bool) (block j : Nat)
deriving DecidableEq

/-- Where a task sleeps. In `getHashTable` and `io` it holds the buffer. -/
inductive Wait
  | getSuper (zone : Nat)
  | getHashTable (zone : Nat)
  | getblk (deep : Bool) (block : Nat)
  | io (deep : Bool) (block : Nat)
deriving DecidableEq

inductive Loc
  | before
  | inside (w : Wait) (stack : List Frame)
  | finished
deriving DecidableEq

/-- The inode, the words that the blocks hold, the zone map by the number of
the bit, and the buffers by the number of the block. `cleared` are the zones
that were passed to `clear_bit`. -/
structure Shared where
  inode : MInode
  words : Nat → Nat → Nat
  firstDataZone : Nat
  nzones : Nat
  bits : Nat → Bool
  cached : Nat → Bool
  bCount : Nat → Nat
  cleared : List Nat
  panicked : Bool

def panic (s : Shared) : Shared × Loc := ({ s with panicked := true }, .finished)

def bitOf (s : Shared) (zone : Nat) : Nat := zone + 1 - s.firstDataZone

def setCount (block n : Nat) (s : Shared) : Shared :=
  { s with bCount := Function.update s.bCount block n }

def brelse (block : Nat) (s : Shared) : Option Shared :=
  if s.bCount block = 0 then none else some (setCount block (s.bCount block - 1) s)

/-- The first index from `i` on where `f` is not zero, in a loop up to `n`. -/
def next (f : Nat → Nat) (i n : Nat) : Option Nat := (List.range' i (n - i)).find? fun k => f k ≠ 0

def finish (s : Shared) : Shared × Loc :=
  ({ s with
      inode := { s.inode with
        iZone := Function.update (Function.update s.inode.iZone 8 0) 7 0
        iSize := 0, iDirt := true, iMtime := 0, iCtime := 0 } }, .finished)

def startDind (s : Shared) : Shared × Loc :=
  if s.inode.iZone 8 = 0 then finish s else (s, .inside (.getblk true (s.inode.iZone 8)) [.dind])

def startInd (s : Shared) : Shared × Loc :=
  if s.inode.iZone 7 = 0 then startDind s else (s, .inside (.getblk false (s.inode.iZone 7)) [.ind])

/-- The loop of `truncate` over the direct zones, from `i` on. -/
def directFrom (i : Nat) (s : Shared) : Shared × Loc :=
  match next s.inode.iZone i 7 with
  | some k => (s, .inside (.getSuper (s.inode.iZone k)) [.direct k])
  | none => startInd s

/-- The index block is released, and `free_block` is called for it. -/
def leaveIndex (block : Nat) (stack : List Frame) (s : Shared) : Shared × Loc :=
  match brelse block s with
  | some s => (s, .inside (.getSuper block) stack)
  | none => panic s

/-- The loop over the entries of an index block, from `j` on. -/
def entriesFrom (deep : Bool) (block j : Nat) (stack : List Frame) (s : Shared) : Shared × Loc :=
  match next (s.words block) j 512 with
  | some k =>
    (s, .inside (if deep then .getblk false (s.words block k) else .getSuper (s.words block k))
      (.entries deep block k :: stack))
  | none => leaveIndex block stack s

def ret (stack : List Frame) (s : Shared) : Shared × Loc :=
  match stack with
  | [] => (s, .finished)
  | .direct k :: _ =>
    directFrom (k + 1) { s with inode := { s.inode with
      iZone := Function.update s.inode.iZone k 0 } }
  | .ind :: _ => startDind s
  | .dind :: _ => finish s
  | .entries deep block k :: stack => entriesFrom deep block (k + 1) stack s

/-- The end of `free_block`. -/
def clearBit (zone : Nat) (stack : List Frame) (s : Shared) : Shared × Loc :=
  if s.bits (bitOf s zone) then
    ret stack { s with
      cleared := zone :: s.cleared, bits := Function.update s.bits (bitOf s zone) false }
  else panic { s with cleared := zone :: s.cleared }

/-- A task goes on from where it sleeps; `ok` is whether a read has succeeded. -/
def resume (w : Wait) (ok : Bool) (stack : List Frame) (s : Shared) : Shared × Loc :=
  match w with
  | .getSuper zone =>
    if zone < s.firstDataZone ∨ s.nzones ≤ zone then panic s
    else if s.cached zone then (setCount zone (s.bCount zone + 1) s,
      .inside (.getHashTable zone) stack)
    else clearBit zone stack s
  | .getHashTable zone =>
    -- the reference stays
    if s.bCount zone ≠ 1 then ret stack s
    else clearBit zone stack (setCount zone (s.bCount zone - 1) s)
  | .getblk deep block =>
    (setCount block (s.bCount block + 1) { s with cached := Function.update s.cached block true },
      .inside (.io deep block) stack)
  | .io deep block =>
    if ok then entriesFrom deep block 0 stack s else leaveIndex block stack s

def truncate (s : Shared) : Shared × Loc :=
  if Fs.isReg s.inode.iMode ∨ Fs.isDir s.inode.iMode then directFrom 0 s else (s, .finished)

structure St where
  shared : Shared
  loc : Bool → Loc

/-- `evict` is `getblk` for a block of another file, which takes a buffer without users. -/
inductive Action
  | start (t : Bool)
  | run (t : Bool) (ok : Bool)
  | evict (block : Nat)

def goto (t : Bool) (r : Shared × Loc) (s : St) : St := ⟨r.1, Function.update s.loc t r.2⟩

/-- Nothing runs after a panic. -/
def step (a : Action) (s : St) : Option St :=
  if s.shared.panicked then none
  else match a with
  | .start t => if s.loc t = .before then some (goto t (truncate s.shared) s) else none
  | .run t ok =>
    match s.loc t with
    | .inside w stack => some (goto t (resume w ok stack s.shared) s)
    | _ => none
  | .evict block =>
    if s.shared.bCount block = 0 then
      some { s with shared := { s.shared with
        cached := Function.update s.shared.cached block false } }
    else none

end Gpos.Truncation
