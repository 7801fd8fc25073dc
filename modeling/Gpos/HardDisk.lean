import Gpos.Run
import Mathlib.Algebra.Group.Nat.Defs

/-! The driver `hd.c` on its queue of requests. A step is what runs between
two moments at which the driver waits for an interrupt, or at which an interrupt
can be for a handler that an earlier command has left: in the loop of
`do_hd_request` for `DRQ_STAT`, at its end without `DRQ_STAT`, and while
`reset_controller` or `end_request(0)` prints its messages. Such an interrupt is
handled on top of the call that waits there. -/

namespace Gpos.Hd

inductive Cmd
  | read
  | write
deriving DecidableEq

/-- `dev` is the minor number and `buffer` counts from the start of the data
of `bh`, whose block number is `blocknr`. The code does not read `completed`:
it counts the sectors for which the controller has reported success. -/
structure Request where
  dev : Nat
  cmd : Cmd
  errors : Nat
  sector : Nat
  nrSectors : Nat
  buffer : Nat
  bh : Nat
  blocknr : Nat
  completed : Nat

structure HdStruct where
  startSect : Nat
  nrSects : Nat

structure HdIStruct where
  head : Nat
  sect : Nat
  cyl : Nat

structure Config where
  nrHd : Nat
  hd : Nat → HdStruct
  hdInfo : Nat → HdIStruct

/-- What `do_hd` points to. -/
inductive Handler
  | readIntr
  | writeIntr
  | recalIntr
deriving DecidableEq

/-- What the driver has done: a command for a request, a transfer of 256 words
of the request to or from a sector of its drive, the end of a request. -/
inductive Event
  | sent (r : Request) (sec head cyl : Nat)
  | moved (r : Request) (sector : Nat)
  | ended (r : Request) (uptodate : Bool)

/-- A call of the driver that waits. In the loop for `DRQ_STAT`, and when it
ends without it, interrupts are enabled in a task (`sti`), and disabled in a
handler that has printed nothing. A message enables them (`sti` in `set_cursor`):
those of `end_request(0)`, and those of `reset_controller`, which it prints when the
controller does not answer as it should. `count` tells that `end_request(0)` was
called by `bad_rw_intr`, which then looks at the errors. -/
inductive Frame
  | poll (sti : Bool)
  | timeout (sti : Bool)
  | reset (nr : Nat)
  | print (count : Bool)
deriving DecidableEq

/-- `CURRENT` is the head of the queue, `frames` are the calls that wait, the
last one first, and `sector` is the sector that the command of the controller
has come to. `fault` records an access through the null pointer, and after
`halted` nothing happens any more. -/
structure State where
  queue : List Request
  doHd : Option Handler
  recalibrate : Bool
  reset : Bool
  frames : List Frame
  sector : Nat
  fault : Bool
  halted : Bool
  log : List Event

def maxErrors : Nat := 7

def wrap (n : Nat) : Nat := n % 2 ^ 32

/-- A write through the null pointer, or a read of a pointer; what follows is unknown. -/
def crash (s : State) : State := { s with fault := true, halted := true }

/-- `end_request(1)` -/
def endRequest (s : State) : State :=
  match s.queue with
  | [] => crash s
  | r :: rest => { s with queue := rest, log := .ended r true :: s.log }

/-- `end_request(0)` up to its messages. The buffer is unlocked, the request is still `CURRENT`. -/
def failRequest (count : Bool) (s : State) : State :=
  match s.queue with
  | [] => crash s
  | r :: _ => { s with frames := .print count :: s.frames, log := .ended r false :: s.log }

/-- The last comparison of `bad_rw_intr`; `low` is its outcome for a null pointer. -/
def checkErrors (low : Bool) (s : State) : State :=
  match s.queue with
  | [] => { s with fault := true, reset := s.reset || low }
  | r :: _ => if maxErrors / 2 < r.errors then { s with reset := true } else s

section

variable (c : Config)

/-- The registers take a byte of the sector and two of the cylinder. -/
def hdOut (drive sect head cyl : Nat) (intrAddr : Handler) (s : State) : State :=
  if 1 < drive ∨ 15 < head then { s with halted := true }
  else
    { s with
      doHd := some intrAddr
      sector :=
        (cyl % 65536 * (c.hdInfo drive).head + head) * (c.hdInfo drive).sect + sect % 256 - 1 }

/-- `reset_hd` up to the messages of `reset_controller`. -/
def resetHd (nr : Nat) (s : State) : State := { s with frames := .reset nr :: s.frames }

/-- `reset_hd` from there on. -/
def resetDone (nr : Nat) (s : State) : State :=
  hdOut c nr (c.hdInfo nr).sect ((c.hdInfo nr).head - 1) (c.hdInfo nr).cyl .recalIntr s

/-- What `do_hd_request` does not refuse. -/
def Accepts (r : Request) : Prop := r.dev < 5 * c.nrHd ∧ wrap (r.sector + 2) ≤ (c.hd r.dev).nrSects

instance (r : Request) : Decidable (Accepts c r) := inferInstanceAs (Decidable (_ ∧ _))

/-- The transfer of 256 words. -/
def portMove (s : State) : State :=
  match s.queue with
  | [] => crash s
  | r :: _ => { s with sector := s.sector + 1, log := .moved r s.sector :: s.log }

def waitDrq (sti : Bool) (s : State) : State := { s with frames := .poll sti :: s.frames }

/-- The loop for `DRQ_STAT` is at its end. -/
def drqDone (sti drq : Bool) (s : State) : State :=
  if drq then portMove s else { s with frames := .timeout sti :: s.frames }

/-- The command for the current request. -/
def sendCommand (sti : Bool) (r : Request) (s : State) : State :=
  let block := wrap (r.sector + (c.hd r.dev).startSect)
  let dev := r.dev / 5
  let sec := block % (c.hdInfo dev).sect + 1
  let block := block / (c.hdInfo dev).sect
  let cyl := block / (c.hdInfo dev).head
  let head := block % (c.hdInfo dev).head
  if s.reset then resetHd dev { s with reset := false, recalibrate := true }
  else if s.recalibrate then hdOut c dev 0 0 0 .recalIntr { s with recalibrate := false }
  else
    let s := { s with log := .sent r sec head cyl :: s.log }
    match r.cmd with
    | .write => waitDrq sti (hdOut c dev sec head cyl .writeIntr s)
    | .read => hdOut c dev sec head cyl .readIntr s

/-- `do_hd_request` from `repeat` -/
def doHdRequest (sti : Bool) (s : State) : State :=
  match s.queue with
  | [] => s
  | r :: _ => if Accepts c r then sendCommand c sti r s else failRequest false s

/-- `bad_rw_intr`, and `do_hd_request` behind it. -/
def badRwIntr (sti : Bool) (s : State) : State :=
  match s.queue with
  | [] => crash s
  | r :: rest =>
    let s := { s with queue := { r with errors := r.errors + 1 } :: rest }
    if maxErrors ≤ r.errors + 1 then failRequest true s
      else doHdRequest c sti (checkErrors false s)

/-- `end_request(0)` from its messages on, and what its caller goes on with. -/
def printed (count low : Bool) (s : State) : State :=
  match s.queue with
  | [] => crash s
  | _ :: rest =>
    let s := { s with queue := rest }
    doHdRequest c true (if count then checkErrors low s else s)

def setCurrent (f : Request → Request) (s : State) : State :=
  match s.queue with
  | [] => crash s
  | r :: rest => { s with queue := f r :: rest }

/-- The sector is transferred, and the request goes on with the next one. -/
def advance (r : Request) : Request :=
  { r with
    sector := wrap (r.sector + 1), nrSectors := r.nrSectors - 1, buffer := r.buffer + 512,
    completed := r.completed + 1 }

/-- The result of a handler that has seen the last sector, or `none`. -/
def lastSector (s : State) : Bool :=
  match s.queue with
  | [] => false
  | r :: _ => r.nrSectors == 0

def recalIntr (ok : Bool) (s : State) : State :=
  if ok then doHdRequest c false s else badRwIntr c false s

/-- The fields `sector` and `buffer` are not advanced at the last sector. -/
def writeDone (r : Request) : Request :=
  if r.nrSectors - 1 = 0 then { r with nrSectors := r.nrSectors - 1, completed := r.completed + 1 }
    else advance r

def writeIntr (ok : Bool) (s : State) : State :=
  if ok then
    let s := setCurrent writeDone s
    if lastSector s then doHdRequest c false (endRequest s)
      else portMove { s with doHd := some .writeIntr }
  else badRwIntr c false s

def readIntr (ok : Bool) (s : State) : State :=
  if ok then
    let s := setCurrent (fun r => { advance r with errors := 0 }) (portMove s)
    if lastSector s then doHdRequest c false (endRequest s)
      else { s with doHd := some .readIntr }
  else badRwIntr c false s

def interrupt (ok : Bool) (s : State) : State :=
  let handler := s.doHd
  let s := { s with doHd := none }
  match handler with
  | none => s
  | some .recalIntr => recalIntr c ok s
  | some .writeIntr => writeIntr c ok s
  | some .readIntr => readIntr c ok s

/-- `IN_ORDER`, on requests for one major number -/
def inOrder (s1 s2 : Request) : Bool :=
  (s1.cmd = .read && s2.cmd = .write) ||
    (s1.cmd = s2.cmd && (decide (s1.dev < s2.dev) ||
      (s1.dev = s2.dev && decide (s1.sector < s2.sector))))

/-- The loop of `add_request`, behind the request `tmp`. -/
def insert (req tmp : Request) : List Request → List Request
  | [] => [req]
  | next :: rest =>
    if (inOrder tmp req || !inOrder tmp next) && inOrder req next then req :: next :: rest
    else next :: insert req next rest

/-- The request that `make_request` fills in. -/
def newRequest (dev : Nat) (cmd : Cmd) (bh blocknr : Nat) : Request :=
  ⟨dev, cmd, 0, wrap (2 * blocknr), 2, 0, bh, blocknr, 0⟩

def addRequest (req : Request) (s : State) : State :=
  match s.queue with
  | [] => doHdRequest c true { s with queue := [req] }
  | r :: rest => { s with queue := r :: insert req r rest }

/-- Interrupts are enabled, in `reset_controller` by a message if not before. -/
def enabled : List Frame → Bool
  | .poll false :: _ => false
  | .timeout false :: _ => false
  | _ => true

/-- A task adds a request, the loop for `DRQ_STAT` comes to its end, the driver goes on
behind it or behind messages, or the controller interrupts. -/
inductive Action
  | add (dev : Nat) (cmd : Cmd) (bh blocknr : Nat)
  | drq (drq : Bool)
  | timeout
  | reset
  | printed (low : Bool)
  | interrupt (ok : Bool)

def step (a : Action) (s : State) : Option State :=
  if s.halted then none
  else match a, s.frames with
  | .add dev cmd bh blocknr, [] => some (addRequest c (newRequest dev cmd bh blocknr) s)
  | .drq drq, .poll sti :: below => some (drqDone sti drq { s with frames := below })
  | .timeout, .timeout sti :: below => some (badRwIntr c sti { s with frames := below })
  | .reset, .reset nr :: below => some (resetDone c nr { s with frames := below })
  | .printed low, .print count :: below => some (printed c count low { s with frames := below })
  | .interrupt ok, frames => if enabled frames then some (interrupt c ok s) else none
  | _, _ => none

end

def start : State := ⟨[], none, false, false, [], 0, false, false, []⟩

end Gpos.Hd
