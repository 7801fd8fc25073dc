import Gpos.ConsoleScroll
import Gpos.Grid

/-! The console as a parser that does not know the screen and a display of
cells that does not know the characters. What the memory shows is the display. -/

namespace Gpos.Console

open Grid

/-! The display -/

structure Frame where
  x : Nat
  y : Nat
  top : Nat
  bottom : Nat
  attr : Nat
  savedX : Nat
  savedY : Nat

structure Display extends Frame where
  screen : Nat → Nat → BitVec 16

/-- What the parser makes of a character. The last of them is the end of an escape sequence that is
none of the others. -/
inductive Action
  | nothing
  | put (c : Nat)
  | lf
  | ri
  | cr
  | del
  | back
  | tab
  | newLine
  | column (x : UInt32)
  | line (y : UInt32)
  | place (x y : UInt32)
  | up (n : UInt32)
  | down (n : UInt32)
  | right (n : UInt32)
  | left (n : UInt32)
  | downFirst (n : UInt32)
  | upFirst (n : UInt32)
  | insertChars (nr : UInt32)
  | deleteChars (nr : UInt32)
  | insertLines (nr : UInt32)
  | deleteLines (nr : UInt32)
  | eraseDisplay (par : UInt32)
  | eraseLine (par : UInt32)
  | attributes (pars : List UInt32)
  | region (t b : UInt32)
  | save
  | restore
  | test

namespace Display

variable (w h : Nat) (d : Display)

/-- The column after the last one is a place of the cursor. -/
def goto (x y : Nat) : Display := if w < x ∨ h ≤ y then d else { d with x := x, y := y }

def lf : Display :=
  if d.y + 1 < d.bottom then { d with y := d.y + 1 }
  else { d with screen := shiftUp videoEraseChar d.top d.bottom 1 d.screen }

def ri : Display :=
  if d.top < d.y then { d with y := d.y - 1 }
  else { d with screen := shiftDown videoEraseChar d.top d.bottom 1 d.screen }

def erase (p : Nat → Nat → Prop) [∀ y x, Decidable (p y x)] : Display :=
  { d with screen := fill videoEraseChar p d.screen }

def del : Display :=
  if d.x = 0 then d
  else { d.erase fun y x => y = d.y ∧ x = d.x - 1 with x := d.x - 1 }

def wrap : Display := ({ d with x := d.x - w } : Display).lf

def write (c : Nat) : Display :=
  { d with
    x := d.x + 1
    screen := fill (BitVec.ofNat 16 (d.attr * 256 + c)) (fun y x => y = d.y ∧ x = d.x) d.screen }

def put (c : Nat) : Display := if w ≤ d.x then (d.wrap w).write c else d.write c

def tab : Display :=
  let d := { d with x := d.x + (8 - d.x % 8) }
  if w < d.x then d.wrap w else d

def eraseDisplay (par : Nat) : Display :=
  match par with
  | 0 => d.erase fun y x => ¬ Before y x d.y d.x
  | 1 => d.erase fun y x => Before y x d.y d.x
  | 2 => d.erase fun _ _ => True
  | _ => d

def eraseLine (par : Nat) : Display :=
  match par with
  | 0 => d.erase fun y x => y = d.y ∧ d.x ≤ x
  | 1 => d.erase fun y x => y = d.y ∧ x < d.x
  | 2 => d.erase fun y _ => y = d.y
  | _ => d

def insertChars (nr : Nat) : Display :=
  { d with screen := shiftRight videoEraseChar d.y d.x w (repetitions w nr) d.screen }

def deleteChars (nr : Nat) : Display :=
  { d with screen := shiftLeft videoEraseChar d.y d.x w (repetitions w nr) d.screen }

def insertLines (nr : Nat) : Display :=
  { d with screen := shiftDown videoEraseChar d.y h (repetitions h nr) d.screen }

def deleteLines (nr : Nat) : Display :=
  { d with screen := shiftUp videoEraseChar d.y h (repetitions h nr) d.screen }

def rendition (attr : Nat) (par : UInt32) : Nat :=
  if par = 0 then 0x07
  else if par = 1 then 0x0f
  else if par = 4 then 0x0f
  else if par = 7 then 0x70
  else if par = 27 then 0x07
  else attr

def save : Display := { d with savedX := d.x, savedY := d.y }

def restore : Display := d.goto w h d.savedX d.savedY

end Display

/-- What an action does to the display, with the arithmetic of the words for the movements. -/
def Action.act (w h : Nat) (a : Action) (d : Display) : Display :=
  match a with
  | nothing => d
  | put c => d.put w c
  | lf => d.lf
  | ri => d.ri
  | cr => { d with x := 0 }
  | del => d.del
  | back => { d with x := d.x - 1 }
  | tab => d.tab w
  | newLine => d.goto w h 0 (d.y + 1)
  | column x => d.goto w h x.toNat d.y
  | line y => d.goto w h d.x y.toNat
  | place x y => d.goto w h x.toNat y.toNat
  | up n => d.goto w h d.x (UInt32.ofNat d.y - n).toNat
  | down n => d.goto w h d.x (UInt32.ofNat d.y + n).toNat
  | right n => d.goto w h (UInt32.ofNat d.x + n).toNat d.y
  | left n => d.goto w h (UInt32.ofNat d.x - n).toNat d.y
  | downFirst n => d.goto w h 0 (UInt32.ofNat d.y + n).toNat
  | upFirst n => d.goto w h 0 (UInt32.ofNat d.y - n).toNat
  | insertChars nr => d.insertChars w nr.toNat
  | deleteChars nr => d.deleteChars w nr.toNat
  | insertLines nr => d.insertLines h nr.toNat
  | deleteLines nr => d.deleteLines h nr.toNat
  | eraseDisplay par => d.eraseDisplay par.toNat
  | eraseLine par => d.eraseLine par.toNat
  | attributes pars => { d with attr := pars.foldl Display.rendition d.attr }
  | region t b => if t < b ∧ b.toNat ≤ h then { d with top := t.toNat, bottom := b.toNat } else d
  | save => d.save
  | restore => d.restore w h
  | test =>
    if d.x = '7'.toNat then d.save else if d.x = '8'.toNat then d.restore w h else d

/-! The parser -/

structure Parser where
  state : Nat
  npar : Nat
  par : Nat → UInt32
  ques : Bool

namespace Parser

variable (p : Parser)

def dec (i : Nat) : Parser :=
  { p with par := Function.update p.par i (if p.par i = 0 then 0 else p.par i - 1) }

def default (i : Nat) (v : UInt32) : Parser :=
  { p with par := Function.update p.par i (if p.par i = 0 then v else p.par i) }

def move (f : UInt32 → Action) : Parser × Action := (p.default 0 1, f ((p.default 0 1).par 0))

section

variable (h : Nat)

def command (c : Nat) : Parser × Action :=
  if c = 'G'.toNat ∨ c = 96 then (p.dec 0, .column ((p.dec 0).par 0))
  else if c = 'A'.toNat then p.move .up
  else if c = 'B'.toNat ∨ c = 'e'.toNat then p.move .down
  else if c = 'C'.toNat ∨ c = 'a'.toNat then p.move .right
  else if c = 'D'.toNat then p.move .left
  else if c = 'E'.toNat then p.move .downFirst
  else if c = 'F'.toNat then p.move .upFirst
  else if c = 'd'.toNat then (p.dec 0, .line ((p.dec 0).par 0))
  else if c = 'H'.toNat ∨ c = 'f'.toNat then
    ((p.dec 0).dec 1, .place (((p.dec 0).dec 1).par 1) (((p.dec 0).dec 1).par 0))
  else if c = 'J'.toNat then (p, .eraseDisplay (p.par 0))
  else if c = 'K'.toNat then (p, .eraseLine (p.par 0))
  else if c = 'L'.toNat then (p, .insertLines (p.par 0))
  else if c = 'M'.toNat then (p, .deleteLines (p.par 0))
  else if c = 'P'.toNat then (p, .deleteChars (p.par 0))
  else if c = '@'.toNat then (p, .insertChars (p.par 0))
  else if c = 'm'.toNat then (p, .attributes ((List.range (p.npar + 1)).map p.par))
  else if c = 'r'.toNat then
    ((p.dec 0).default 1 (UInt32.ofNat h),
      .region (((p.dec 0).default 1 (UInt32.ofNat h)).par 0)
        (((p.dec 0).default 1 (UInt32.ofNat h)).par 1))
  else if c = 's'.toNat then (p, .save)
  else if c = 'u'.toNat then (p, .restore)
  else (p, .nothing)

def csi (c : Nat) : Parser × Action := command { p with state := 0 } h c

def parameter (c : Nat) : Parser × Action :=
  if c = ';'.toNat ∧ p.npar < nPar - 1 then ({ p with npar := p.npar + 1 }, .nothing)
  else if '0'.toNat ≤ c ∧ c ≤ '9'.toNat then
    ({ p with
      par := Function.update p.par p.npar (10 * p.par p.npar +
        UInt32.ofNat c - UInt32.ofNat '0'.toNat) }, .nothing)
  else csi { p with state := 4 } h c

def introduce (c : Nat) : Parser × Action :=
  let p : Parser := ⟨3, 0, fun _ => 0, decide (c = '?'.toNat)⟩
  if c = '?'.toNat then (p, .nothing) else p.parameter h c

end

def escape (c : Nat) : Parser × Action :=
  let p := { p with state := 0 }
  if c = '['.toNat then ({ p with state := 2 }, .nothing)
  else if c = 'E'.toNat then (p, .newLine)
  else if c = 'M'.toNat then (p, .ri)
  else if c = 'D'.toNat then (p, .lf)
  else if c = 'Z'.toNat then (p, .nothing)
  else (p, .test)

def plain (eraseChar c : Nat) : Parser × Action :=
  if 31 < c ∧ c < 127 then (p, .put c)
  else if c = 27 then ({ p with state := 1 }, .nothing)
  else if c = 10 ∨ c = 11 ∨ c = 12 then (p, .lf)
  else if c = 13 then (p, .cr)
  else if c < 128 ∧ c = eraseChar then (p, .del)
  else if c = 8 then (p, .back)
  else if c = 9 then (p, .tab)
  else (p, .nothing)

def next (h eraseChar c : Nat) : Parser × Action :=
  match p.state with
  | 0 => p.plain eraseChar c
  | 1 => p.escape c
  | 2 => introduce h c
  | 3 => p.parameter h c
  | 4 => p.csi h c
  | _ => (p, .nothing)

end Parser

/-- The actions of a stream of characters. -/
def decode (h eraseChar : Nat) : Parser → List Nat → List Action
  | _, [] => []
  | p, c :: cs => (p.next h eraseChar c).2 :: decode h eraseChar (p.next h eraseChar c).1 cs

def perform (w h : Nat) (as : List Action) (d : Display) : Display :=
  as.foldl (fun d a => a.act w h d) d

end Gpos.Console
