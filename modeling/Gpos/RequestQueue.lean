import Gpos.Buffer
import Gpos.Chain
import Gpos.Run

/-! The request queue of `ll_rw_blk.c`. A task runs from one `sleep_on` to the
next; an interrupt that completes the current request may come in between, and
also after `make_request` has filled a slot and before `add_request` blocks
interrupts. -/

namespace Gpos.Requests

inductive Cmd
  | read
  | write
deriving DecidableEq

inductive Rw
  | read
  | write
  | reada
  | writea
deriving DecidableEq

def Rw.ahead : Rw → Bool
  | .reada | .writea => true
  | .read | .write => false

def Rw.cmd : Rw → Cmd
  | .read | .reada => .read
  | .write | .writea => .write

/-- `buffer` is the buffer head that the data belongs to. -/
structure Request where
  dev : Int
  cmd : Cmd
  errors : Nat
  sector : Nat
  nrSectors : Nat
  buffer : Option Nat
  waiting : Option Nat
  bh : Option Nat
  next : Option Nat

/-- A task sleeps in `lock_buffer` or on `wait_for_request`. -/
inductive Loc
  | idle
  | lockWait (cmd : Cmd) (ahead : Bool) (bh : Nat)
  | slotWait (cmd : Cmd) (bh : Nat)

/-- What a run has done: how many requests were added, which of them is in
each slot, and those that were ended. The code does not read it. -/
structure History where
  issued : Nat
  ticket : Nat → Nat
  ended : List Nat

/-- `adding` is the slot that is filled and not yet in the queue. -/
structure State (T : Type*) where
  request : Nat → Request
  currentRequest : Option Nat
  buf : Nat → BufferHead
  adding : Option Nat
  loc : T → Loc
  history : History

def nrRequest : Nat := 32

/-- `IN_ORDER` -/
def inOrder (s1 s2 : Request) : Bool :=
  (s1.cmd = .read && s2.cmd = .write) || (s1.cmd = s2.cmd &&
    (decide (s1.dev < s2.dev) || (s1.dev = s2.dev && decide (s1.sector < s2.sector))))

/-- The search for an empty slot below `req`. -/
def findSlot (request : Nat → Request) : Nat → Option Nat
  | 0 => none
  | req + 1 => if (request req).dev < 0 then some req else findSlot request req

/-- The slots from which `make_request` starts its search. -/
def slotLimit : Cmd → Nat
  | .read => nrRequest
  | .write => nrRequest * 2 / 3

section

variable {T : Type*} [DecidableEq T]

def goto (t : T) (l : Loc) (s : State T) : State T := { s with loc := Function.update s.loc t l }

def setBuf (bh : Nat) (f : BufferHead → BufferHead) (s : State T) : State T :=
  { s with buf := Function.update s.buf bh (f (s.buf bh)) }

def setRequest (r : Nat) (f : Request → Request) (s : State T) : State T :=
  { s with request := Function.update s.request r (f (s.request r)) }

def setLock (v : Bool) (b : BufferHead) : BufferHead := { b with bLock := v }

/-- The end of `make_request`, from `repeat` to the call of `add_request`. -/
def takeSlot (t : T) (cmd : Cmd) (ahead : Bool) (bh : Nat) (s : State T) : State T :=
  match findSlot s.request (slotLimit cmd) with
  | none =>
    if ahead then goto t .idle (setBuf bh (setLock false) s) else goto t (.slotWait cmd bh) s
  | some r =>
    goto t .idle { setRequest r (fun _ =>
      { dev := (s.buf bh).bDev
        cmd := cmd
        errors := 0
        sector := (s.buf bh).bBlocknr * 2 % 2 ^ 32
        nrSectors := 2
        buffer := some bh
        waiting := none
        bh := some bh
        next := none }) s with adding := some r }

/-- `lock_buffer` and the check after it. -/
def lockBuffer (t : T) (cmd : Cmd) (ahead : Bool) (bh : Nat) (s : State T) : State T :=
  if (s.buf bh).bLock then goto t (.lockWait cmd ahead bh) s
  else if (cmd = .write ∧ (s.buf bh).bDirt = false) ∨
    (cmd = .read ∧ (s.buf bh).bUptodate = true) then goto t .idle s
  else takeSlot t cmd ahead bh (setBuf bh (setLock true) s)

def makeRequest (t : T) (rw : Rw) (bh : Nat) (s : State T) : State T :=
  if rw.ahead && (s.buf bh).bLock then s else lockBuffer t rw.cmd rw.ahead bh s

def issue (r : Nat) (h : History) : History :=
  { h with issued := h.issued + 1, ticket := Function.update h.ticket r h.issued }

/-- `add_request`, with as many steps for its loop as there are slots. -/
def addRequest (r : Nat) (s : State T) : Option (State T) :=
  let s := setRequest r (fun q => { q with next := none }) s
  let s := match (s.request r).bh with
    | none => s
    | some bh => setBuf bh (fun b => { b with bDirt := false }) s
  match s.currentRequest with
  | none => some { s with currentRequest := some r, adding := none, history := issue r s.history }
  | some c =>
    (Chain.walk (fun q => (s.request q).next)
      (fun tmp nx => (inOrder (s.request tmp) (s.request r) ||
        !inOrder (s.request tmp) (s.request nx)) &&
          inOrder (s.request r) (s.request nx)) nrRequest c).map fun tmp =>
      let s := setRequest r (fun q => { q with next := (s.request tmp).next }) s
      { setRequest tmp (fun q => { q with next := some r }) s with
        adding := none, history := issue r s.history }

/-- `end_request` of the current request `c`. -/
def endRequest (uptodate : Bool) (c : Nat) (s : State T) : State T :=
  let s := match (s.request c).bh with
    | none => s
    | some bh => setBuf bh (fun b => { b with bUptodate := uptodate, bLock := false }) s
  let s := setRequest c (fun q => { q with dev := -1 }) s
  { s with
    currentRequest := (s.request c).next
    history := { s.history with ended := s.history.ticket c :: s.history.ended } }

/-- `change` is what the rest of the kernel does to a buffer, which never
touches its lock. -/
inductive Act (T : Type*)
  | call (t : T) (rw : Rw) (bh : Nat)
  | resume (t : T)
  | add
  | complete (uptodate : Bool)
  | change (bh : Nat) (b : BufferHead)

/-- No task runs between the filling of a slot and the `add_request` that follows. -/
def enabled (s : State T) : Act T → Prop
  | .call t _ _ => s.adding = none ∧ s.loc t = .idle
  | .resume t => s.adding = none ∧ s.loc t ≠ .idle
  | .add => s.adding ≠ none
  | .complete _ => s.currentRequest ≠ none
  | .change _ _ => True

def step (a : Act T) (s : State T) : Option (State T) :=
  match a with
  | .call t rw bh =>
    match s.adding, s.loc t with
    | none, .idle => some (makeRequest t rw bh s)
    | _, _ => none
  | .resume t =>
    match s.adding, s.loc t with
    | none, .lockWait cmd ahead bh => some (lockBuffer t cmd ahead bh s)
    | none, .slotWait cmd bh => some (takeSlot t cmd false bh s)
    | _, _ => none
  | .add =>
    match s.adding with
    | none => none
    | some r => addRequest r s
  | .complete uptodate =>
    match s.currentRequest with
    | none => none
    | some c => some (endRequest uptodate c s)
  | .change bh b => some (setBuf bh (fun b' => setLock b'.bLock b) s)

end

end Gpos.Requests
