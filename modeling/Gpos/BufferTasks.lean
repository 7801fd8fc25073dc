import Gpos.BufferInit
import Gpos.Holdings

/-! Tasks inside the buffer cache. A task runs from one place where the code
may sleep to the next. Another task may come in at any of these places, also
when the code would have gone on there without sleeping, so every real
interleaving is among the runs. -/

namespace Gpos.BufferTasks

open Cache

/-- A buffer and the block that the task asked for when it got it. -/
structure Ref where
  bh : Nat
  dev : Nat
  block : Nat
deriving DecidableEq

inductive Op
  | getHashTable
  | getblk
  | bread
deriving DecidableEq

/-- Where a task is. The locations after `lookup` are named by what the code waits for. -/
inductive Loc
  | idle
  | lookup (op : Op) (dev block : Nat)
  | hashWait (op : Op) (r : Ref)
  | poolWait (op : Op) (dev block : Nat)
  | victimWait (op : Op) (r : Ref)
  | lockWait (r : Ref)
  | slotWait (r : Ref)
  | ioWait (r : Ref)
  | releaseWait (r : Ref)
deriving DecidableEq

/-- `requests` are the buffers of the busy request slots, and `blkDev` tells
which majors have a request function. -/
structure St (T : Type*) where
  cache : Cache
  requests : List Nat
  blkDev : Nat → Bool
  loc : T → Loc
  held : T → List Ref

def nrRequest : Nat := 32

def lockHead (b : BufferHead) : BufferHead := { b with bLock := true }

def cleanHead (b : BufferHead) : BufferHead := { b with bDirt := false }

/-- `data` is what a read without an error has put into the buffer. -/
def endHead (data : Option Block) (b : BufferHead) : BufferHead :=
  { b with bUptodate := data.isSome, bLock := false, bData := data.getD b.bData }

section

variable {T : Type*} [DecidableEq T]

def goto (t : T) (l : Loc) (s : St T) : St T := { s with loc := Function.update s.loc t l }

/-- The function that `t` is in returns the buffer of `r`. -/
def ret (t : T) (r : Ref) (s : St T) : St T :=
  { s with loc := Function.update s.loc t .idle, held := Function.update s.held t (r :: s.held t) }

def onBuffer (bh : Nat) (f : BufferHead → BufferHead) (s : St T) : St T :=
  { s with cache := s.cache.modify bh f }

/-- `getblk` or `get_hash_table` has found its buffer, and `bread` goes on to
`ll_rw_block` if the buffer is not up to date. -/
def found (t : T) (op : Op) (r : Ref) (s : St T) : St T :=
  match op with
  | .getHashTable | .getblk => ret t r s
  | .bread =>
    if (s.cache.buf r.bh).bUptodate then ret t r s
    else if s.blkDev (major (s.cache.buf r.bh).bDev) then goto t (.lockWait r) s
    else goto t (.ioWait r) s

/-- From `find_buffer` in `get_hash_table` to the first place to sleep. -/
def runLookup (t : T) (op : Op) (dev block : Nat) (s : St T) : Option (St T) :=
  match s.cache.findBuffer dev block with
  | none => none
  | some (some bh) => some (goto t (.hashWait op ⟨bh, dev, block⟩) (onBuffer bh incCount s))
  | some none =>
    if op = .getHashTable then some (goto t .idle s)
    else match s.cache.pickVictim with
      | none => none
      | some none => some (goto t (.poolWait op dev block) s)
      | some (some bh) => some (goto t (.victimWait op ⟨bh, dev, block⟩) s)

/-- The check of `get_hash_table` after `wait_on_buffer`. -/
def runHashWait (t : T) (op : Op) (r : Ref) (s : St T) : Option (St T) :=
  if (s.cache.buf r.bh).bLock then none
  else if (s.cache.buf r.bh).bDev = r.dev ∧ (s.cache.buf r.bh).bBlocknr = r.block then
    some (found t op r s)
  else some (goto t (.lookup op r.dev r.block) (onBuffer r.bh decCount s))

/-- The end of `getblk`, from the wait for the victim on. -/
def runVictimWait (t : T) (op : Op) (r : Ref) (s : St T) : Option (St T) :=
  if (s.cache.buf r.bh).bLock then none
  else if (s.cache.buf r.bh).bCount ≠ 0 then some (goto t (.lookup op r.dev r.block) s)
  else match s.cache.findBuffer r.dev r.block with
    | none => none
    | some (some _) => some (goto t (.lookup op r.dev r.block) s)
    | some none =>
      (s.cache.retarget r.bh r.dev r.block).map fun c => found t op r { s with cache := c }

/-- `make_request` for a read, from `lock_buffer` on. -/
def runLockWait (t : T) (r : Ref) (s : St T) : Option (St T) :=
  if (s.cache.buf r.bh).bLock then none
  else if (s.cache.buf r.bh).bUptodate then some (goto t (.ioWait r) s)
  else some (goto t (.slotWait r) (onBuffer r.bh lockHead s))

/-- The search for a free request slot, and `add_request`. -/
def runSlotWait (t : T) (r : Ref) (s : St T) : Option (St T) :=
  if s.requests.length < nrRequest then
    some (goto t (.ioWait r) (onBuffer r.bh cleanHead { s with requests := r.bh :: s.requests }))
  else none

/-- The end of `bread`; a failed read goes on to `brelse`. -/
def runIoWait (t : T) (r : Ref) (s : St T) : Option (St T) :=
  if (s.cache.buf r.bh).bLock then none
  else if (s.cache.buf r.bh).bUptodate then some (ret t r s)
  else some (goto t (.releaseWait r) s)

/-- `brelse` after its `wait_on_buffer`; `none` is its panic. -/
def runReleaseWait (t : T) (r : Ref) (s : St T) : Option (St T) :=
  if (s.cache.buf r.bh).bLock then none
  else if (s.cache.buf r.bh).bCount = 0 then none
  else some (goto t .idle (onBuffer r.bh decCount s))

def run (t : T) (s : St T) : Option (St T) :=
  match s.loc t with
  | .idle => none
  | .lookup op dev block => runLookup t op dev block s
  | .hashWait op r => runHashWait t op r s
  | .poolWait op dev block => some (goto t (.lookup op dev block) s)
  | .victimWait op r => runVictimWait t op r s
  | .lockWait r => runLockWait t r s
  | .slotWait r => runSlotWait t r s
  | .ioWait r => runIoWait t r s
  | .releaseWait r => runReleaseWait t r s

/-- `end_request` of a read. -/
def endRequest (bh : Nat) (data : Option Block) (s : St T) : Option (St T) :=
  if bh ∈ s.requests then
    some (onBuffer bh (endHead data) { s with requests := s.requests.erase bh })
  else none

inductive Action (T : Type*)
  | call (t : T) (op : Op) (dev block : Nat)
  | brelse (t : T) (r : Ref)
  | store (t : T) (r : Ref) (data : Block)
  | run (t : T)
  | endRequest (bh : Nat) (data : Option Block)

def step : Action T → St T → Option (St T)
  | .call t op dev block, s =>
    if s.loc t = .idle ∧ 0 < dev ∧ dev < 2 ^ 16 ∧ block < 2 ^ 32 then
      some (goto t (.lookup op dev block) s)
    else none
  | .brelse t r, s =>
    if s.loc t = .idle ∧ r ∈ s.held t then
      some (goto t (.releaseWait r) { s with
        held := Function.update s.held t ((s.held t).erase r) })
    else none
  | .store t r data, s =>
    if s.loc t = .idle ∧ r ∈ s.held t then some (onBuffer r.bh (storeHead data) s) else none
  | .run t, s => run t s
  | .endRequest bh data, s => endRequest bh data s

def boot (bufferEnd : Nat) (c : Cache) (blkDev : Nat → Bool) : St T :=
  { cache := bufferInit bufferEnd c, requests := [], blkDev, loc := fun _ => .idle,
    held := fun _ => [] }

end

end Gpos.BufferTasks
