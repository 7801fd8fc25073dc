import Gpos.Program
import Gpos.RingBuffer

/-! The terminal queues and `copy_to_cooked` of `tty_io.c`. Characters are
signed; the function `tty->write` is a parameter, and `E` is what it works on
besides the terminal. -/

namespace Gpos.Tty

abbrev Queue := RingBuffer 10 (BitVec 8)

structure Termios where
  cIflag : BitVec 32
  cOflag : BitVec 32
  cLflag : BitVec 32
  intrChar : BitVec 8
  quitChar : BitVec 8
  eraseChar : BitVec 8
  killChar : BitVec 8
  eofChar : BitVec 8
  startChar : BitVec 8
  stopChar : BitVec 8

namespace Termios

variable (t : Termios)

def iNlCr : Bool := t.cIflag &&& 0o100#32 != 0

def iNoCr : Bool := t.cIflag &&& 0o200#32 != 0

def iCrNl : Bool := t.cIflag &&& 0o400#32 != 0

def iUcLc : Bool := t.cIflag &&& 0o1000#32 != 0

def oPost : Bool := t.cOflag &&& 0o1#32 != 0

def oLcUc : Bool := t.cOflag &&& 0o2#32 != 0

def oNlCr : Bool := t.cOflag &&& 0o4#32 != 0

def oCrNl : Bool := t.cOflag &&& 0o10#32 != 0

def oNlRet : Bool := t.cOflag &&& 0o40#32 != 0

def lIsig : Bool := t.cLflag &&& 0o1#32 != 0

def lCanon : Bool := t.cLflag &&& 0o2#32 != 0

def lEcho : Bool := t.cLflag &&& 0o10#32 != 0

def lEchoCtl : Bool := t.cLflag &&& 0o1000#32 != 0

end Termios

/-- A character equals a control character, which is unsigned. -/
def isChar (c cc : BitVec 8) : Bool := c.toInt == cc.toNat

/-- `data` is that of the secondary queue, the only one that is used. -/
structure TtyStruct where
  termios : Termios
  stopped : Bool
  readQ : Queue
  writeQ : Queue
  secondary : Queue
  data : Nat

def emptyQueue : Queue := ⟨0, 0, fun _ => 0⟩

/-- `tty_table[0]` -/
def console : TtyStruct where
  termios := ⟨0o400, 0o5, 0o5013, 3, 28, 127, 21, 4, 17, 19⟩
  stopped := false
  readQ := emptyQueue
  writeQ := emptyQueue
  secondary := emptyQueue
  data := 0

structure Dev (E : Type) where
  tty : TtyStruct
  rest : E

section

variable {E : Type}

def tty : Program (Dev E) TtyStruct := fun s => some (s.tty, s)

def modify (f : TtyStruct → TtyStruct) : Program (Dev E) Unit :=
  fun s => some ((), { s with tty := f s.tty })

/-- `PUTCH` of some characters to the write queue. -/
def putWrite (cs : List (BitVec 8)) : Program (Dev E) Unit :=
  modify fun t => { t with writeQ := cs.foldl RingBuffer.put t.writeQ }

def setSecondary (f : Queue → Queue) : Program (Dev E) Unit :=
  modify fun t => { t with secondary := f t.secondary }

/-- The mapping of carriage returns and newlines; `none` for a character that is ignored. -/
def mapInput (t : Termios) (c : BitVec 8) : Option (BitVec 8) :=
  if c = 13 then if t.iCrNl then some 10 else if t.iNoCr then none else some c
  else if c = 10 ∧ t.iNlCr then some 13
  else some c

/-- `tolower`; for a negative character `isupper` reads what lies before its
table, and `below` is what it finds there. -/
def toLower (below : BitVec 8 → Bool) (c : BitVec 8) : BitVec 8 :=
  if (if c.slt 0 then below c else 65 ≤ c.toNat ∧ c.toNat ≤ 90) then c + 32 else c

/-- `toupper`, with the same table. -/
def toUpper (below : BitVec 8 → Bool) (c : BitVec 8) : BitVec 8 :=
  if (if c.slt 0 then below c else 97 ≤ c.toNat ∧ c.toNat ≤ 122) then c - 32 else c

def isEnd (t : Termios) (c : BitVec 8) : Bool := c == 10 || isChar c t.eofChar

/-- There is no character to erase. -/
def AtLineStart (t : TtyStruct) : Prop :=
  t.secondary.Empty ∨ isEnd t.termios t.secondary.last = true

instance (t : TtyStruct) : Decidable (AtLineStart t) := inferInstanceAs (Decidable (_ ∨ _))

/-- The echo of a character that is put into the secondary queue. -/
def echoOf (t : Termios) (c : BitVec 8) : List (BitVec 8) :=
  if c = 10 then [10, 13]
  else if c.slt 32 then if t.lEchoCtl then [94, c + 64] else []
  else [c]

def eraseEchoOf (c : BitVec 8) : List (BitVec 8) := if c.slt 32 then [127, 127] else [127]

section

variable (below : BitVec 8 → Bool) (write : Program (Dev E) Unit)

def echo (cs : List (BitVec 8)) : Program (Dev E) Unit := do
  if (← tty).termios.lEcho then
    putWrite cs
    write

def eraseLast : Program (Dev E) Unit := do
  echo write (eraseEchoOf (← tty).secondary.last)
  setSecondary RingBuffer.unput

/-- The loop of the kill character. -/
def killLine : Nat → Program (Dev E) Unit
  | 0 => failure
  | rounds + 1 => do
    if AtLineStart (← tty) then pure ()
    else
      eraseLast write
      killLine rounds

def eraseOne : Program (Dev E) Unit := do
  if AtLineStart (← tty) then pure () else eraseLast write

def accept (c : BitVec 8) : Program (Dev E) Unit := do
  modify fun t => { t with data := if isEnd t.termios c then t.data + 1 else t.data }
  echo write (echoOf (← tty).termios c)
  setSecondary fun q => q.put c

/-- The signals of `tty_intr` reach nobody. -/
def dispatch (rounds : Nat) (t : Termios) (c : BitVec 8) : Program (Dev E) Unit :=
  if t.lCanon ∧ isChar c t.killChar then killLine write rounds
  else if t.lCanon ∧ isChar c t.eraseChar then eraseOne write
  else if t.lCanon ∧ isChar c t.stopChar then modify fun t => { t with stopped := true }
  else if t.lCanon ∧ isChar c t.startChar then modify fun t => { t with stopped := false }
  else if t.lIsig ∧ (isChar c t.intrChar ∨ isChar c t.quitChar) then pure ()
  else accept write c

/-- What becomes of one character of the read queue. -/
def cook (rounds : Nat) (c : BitVec 8) : Program (Dev E) Unit := do
  let t := (← tty).termios
  match mapInput t c with
  | none => pure ()
  | some c => dispatch write rounds t (if t.iUcLc then toLower below c else c)

def copyToCooked : Nat → Program (Dev E) Unit
  | 0 => failure
  | rounds + 1 => do
    let t ← tty
    if t.readQ.Empty ∨ t.secondary.Full then pure ()
    else
      modify fun t => { t with readQ := t.readQ.next }
      cook below write rounds t.readQ.first
      copyToCooked rounds

end

section

variable {below : BitVec 8 → Bool} {write : Program (Dev E) Unit} {s : Dev E} {rounds : Nat}

theorem echo_on (h : s.tty.termios.lEcho = true) (cs : List (BitVec 8)) :
    echo write cs s =
      write { s with tty := { s.tty with writeQ := cs.foldl RingBuffer.put s.tty.writeQ } } := by
  show (if s.tty.termios.lEcho = true then _ else _ : Program (Dev E) Unit) s = _
  rw [if_pos h]
  rfl

theorem echo_off (h : ¬ s.tty.termios.lEcho = true) (cs : List (BitVec 8)) :
    echo write cs s = some ((), s) := by
  show (if s.tty.termios.lEcho = true then _ else _ : Program (Dev E) Unit) s = _
  rw [if_neg h]
  rfl

theorem killLine_stop (h : AtLineStart s.tty) : killLine write (rounds + 1) s = some ((), s) := by
  show (if AtLineStart s.tty then _ else _ : Program (Dev E) Unit) s = _
  rw [if_pos h]
  rfl

theorem killLine_next (h : ¬ AtLineStart s.tty) :
    killLine write (rounds + 1) s = (eraseLast write >>= fun _ => killLine write rounds) s := by
  show (if AtLineStart s.tty then _ else _ : Program (Dev E) Unit) s = _
  rw [if_neg h]

theorem copyToCooked_stop (h : s.tty.readQ.Empty ∨ s.tty.secondary.Full) :
    copyToCooked below write (rounds + 1) s = some ((), s) := by
  show (if s.tty.readQ.Empty ∨ s.tty.secondary.Full then _ else _ : Program (Dev E) Unit) s = _
  rw [if_pos h]
  rfl

theorem copyToCooked_next (h : ¬ (s.tty.readQ.Empty ∨ s.tty.secondary.Full)) :
    copyToCooked below write (rounds + 1) s = (cook below write rounds s.tty.readQ.first >>=
      fun _ =>
        copyToCooked below write rounds) { s with
          tty := { s.tty with readQ := s.tty.readQ.next } } := by
  show (if s.tty.readQ.Empty ∨ s.tty.secondary.Full then _ else _ : Program (Dev E) Unit) s = _
  rw [if_neg h]
  rfl

end

end

end Gpos.Tty
