import Mathlib.Logic.Function.Iterate

/-! The console of `console.c`: the video memory, the cursor and the parser of
the escape sequences. The memory holds one word per character cell, under the
address of its first byte. A store outside of the memory of the display is
recorded. -/

namespace Gpos.Console

inductive VideoType
  | mda
  | cga
  | egam
  | egac
deriving DecidableEq

structure Geometry where
  videoType : VideoType
  videoNumColumns : Nat
  videoNumLines : Nat

namespace Geometry

def videoSizeRow (g : Geometry) : Nat := g.videoNumColumns * 2

def videoMemStart (g : Geometry) : Nat :=
  match g.videoType with
  | .mda | .egam => 0xb0000
  | .cga | .egac => 0xb8000

def videoMemEnd (g : Geometry) : Nat :=
  match g.videoType with
  | .mda => 0xb2000
  | .egam => 0xb8000
  | .cga => 0xba000
  | .egac => 0xbc000

end Geometry

structure Ram where
  mem : Nat → BitVec 16
  stray : Bool

def videoEraseChar : BitVec 16 := 0x0720#16

section

variable (g : Geometry)

def poke (a : Nat) (w : BitVec 16) (m : Ram) : Ram where
  mem := Function.update m.mem a w
  stray := m.stray || !decide (g.videoMemStart ≤ a ∧ a + 2 ≤ g.videoMemEnd)

/-- `rep stosw` of the erase character. -/
def stosw (n edi : Nat) (m : Ram) : Ram :=
  match n with
  | 0 => m
  | n + 1 => stosw n (edi + 2) (poke g edi videoEraseChar m)

/-- `rep stosw` with the direction flag set. -/
def stoswDown (n edi : Nat) (m : Ram) : Ram :=
  match n with
  | 0 => m
  | n + 1 => stoswDown n (edi - 2) (poke g edi videoEraseChar m)

/-- `movsl` moves two words at once. -/
def movl (edi esi : Nat) (m : Ram) : Ram :=
  poke g (edi + 2) (m.mem (esi + 2)) (poke g edi (m.mem esi) m)

/-- `rep movsl` -/
def movsl (n edi esi : Nat) (m : Ram) : Ram :=
  match n with
  | 0 => m
  | n + 1 => movsl n (edi + 4) (esi + 4) (movl g edi esi m)

/-- `rep movsl` with the direction flag set. -/
def movslDown (n edi esi : Nat) (m : Ram) : Ram :=
  match n with
  | 0 => m
  | n + 1 => movslDown n (edi - 4) (esi - 4) (movl g edi esi m)

end

/-- The variables that do not depend on where the screen lies in the memory. -/
structure Cursor where
  x : Nat
  y : Nat
  top : Nat
  bottom : Nat
  state : Nat
  npar : Nat
  par : Nat → UInt32
  ques : Bool
  attr : Nat
  savedX : Nat
  savedY : Nat

structure Con extends Cursor where
  origin : Nat
  scrEnd : Nat
  pos : Nat
  ram : Ram

def nPar : Nat := 16

section

variable (g : Geometry)

/-- `gotoxy` thinks that `x = video_num_columns` is ok. -/
def gotoxy (newX newY : Nat) (s : Con) : Con :=
  if g.videoNumColumns < newX ∨ g.videoNumLines ≤ newY then s
  else { s with x := newX, y := newY, pos := s.origin + newY * g.videoSizeRow + newX * 2 }

/-- The copying in `scrup`, which the two kinds of display share. -/
def scrupRegion (s : Con) : Con :=
  let count := (s.bottom - s.top - 1) * g.videoNumColumns / 2
  let edi := s.origin + g.videoSizeRow * s.top
  let ram := movsl g count edi (s.origin + g.videoSizeRow * (s.top + 1)) s.ram
  { s with ram := stosw g g.videoNumColumns (edi + 4 * count) ram }

/-- The scroll that moves the origin, and goes back to the start of the memory
when the screen would pass its end. -/
def scrupOrigin (s : Con) : Con :=
  let s := { s with
    origin := s.origin + g.videoSizeRow
    pos := s.pos + g.videoSizeRow
    scrEnd := s.scrEnd + g.videoSizeRow }
  if g.videoMemEnd < s.scrEnd then
    let count := (g.videoNumLines - 1) * g.videoNumColumns / 2
    { s with
      ram :=
        stosw g g.videoNumColumns (g.videoMemStart + 4 * count)
          (movsl g count g.videoMemStart s.origin s.ram)
      scrEnd := s.scrEnd - (s.origin - g.videoMemStart)
      pos := s.pos - (s.origin - g.videoMemStart)
      origin := g.videoMemStart }
  else { s with ram := stosw g g.videoNumColumns (s.scrEnd - g.videoSizeRow) s.ram }

def scrup (s : Con) : Con :=
  if (g.videoType = .egac ∨ g.videoType = .egam) ∧ s.top = 0 ∧
    s.bottom = g.videoNumLines then scrupOrigin g s
  else scrupRegion g s

def scrdown (s : Con) : Con :=
  let count := (s.bottom - s.top - 1) * g.videoNumColumns / 2
  let edi := s.origin + g.videoSizeRow * s.bottom - 4
  let ram := movslDown g count edi (s.origin + g.videoSizeRow * (s.bottom - 1) - 4) s.ram
  { s with ram := stoswDown g g.videoNumColumns (edi - 4 * count + 2) ram }

/-- The loop of `insert_char` with `n` rounds to go. -/
def insertLoop (n p : Nat) (old : BitVec 16) (m : Ram) : Ram :=
  match n with
  | 0 => m
  | n + 1 => insertLoop n (p + 2) (m.mem p) (poke g p old m)

def insertChar (s : Con) : Con :=
  { s with ram := insertLoop g (g.videoNumColumns - s.x) s.pos videoEraseChar s.ram }

/-- `insert_line` and `delete_line` scroll the part of the screen from the cursor on. -/
def fromCursor (scroll : Con → Con) (s : Con) : Con :=
  { scroll { s with top := s.y, bottom := g.videoNumLines } with top := s.top, bottom := s.bottom }

def insertLine : Con → Con := fromCursor g (scrdown g)

/-- The loop of `delete_char` with `n` rounds to go, and the store after it. -/
def deleteLoop (n p : Nat) (m : Ram) : Ram :=
  match n with
  | 0 => poke g p videoEraseChar m
  | n + 1 => deleteLoop n (p + 2) (poke g p (m.mem (p + 2)) m)

def deleteChar (s : Con) : Con :=
  if g.videoNumColumns ≤ s.x then s
  else { s with ram := deleteLoop g (g.videoNumColumns - s.x - 1) s.pos s.ram }

def deleteLine : Con → Con := fromCursor g (scrup g)

def lf (s : Con) : Con :=
  if s.y + 1 < s.bottom then { s with y := s.y + 1, pos := s.pos + g.videoSizeRow } else scrup g s

def ri (s : Con) : Con :=
  if s.top < s.y then { s with y := s.y - 1, pos := s.pos - g.videoSizeRow } else scrdown g s

def cr (s : Con) : Con := { s with pos := s.pos - s.x * 2, x := 0 }

def del (s : Con) : Con :=
  if s.x ≠ 0 then { s with
    pos := s.pos - 2, x := s.x - 1, ram := poke g (s.pos - 2) videoEraseChar s.ram } else s

/-- How often a command with the parameter `nr` is done. -/
def repetitions (limit nr : Nat) : Nat := if limit < nr then limit else if nr = 0 then 1 else nr

def csiAt (nr : Nat) : Con → Con := (insertChar g)^[repetitions g.videoNumColumns nr]

def csiL (nr : Nat) : Con → Con := (insertLine g)^[repetitions g.videoNumLines nr]

def csiP (nr : Nat) : Con → Con := (deleteChar g)^[repetitions g.videoNumColumns nr]

def csiM (nr : Nat) : Con → Con := (deleteLine g)^[repetitions g.videoNumLines nr]

def csiJ (par : Nat) (s : Con) : Con :=
  match par with
  | 0 => { s with ram := stosw g ((s.scrEnd - s.pos) / 2) s.pos s.ram }
  | 1 => { s with ram := stosw g ((s.pos - s.origin) / 2) s.origin s.ram }
  | 2 => { s with ram := stosw g (g.videoNumColumns * g.videoNumLines) s.origin s.ram }
  | _ => s

def csiK (par : Nat) (s : Con) : Con :=
  match par with
  | 0 => if g.videoNumColumns ≤ s.x then s
    else { s with ram := stosw g (g.videoNumColumns - s.x) s.pos s.ram }
  | 1 =>
    { s with
      ram := stosw g (if s.x < g.videoNumColumns then s.x else g.videoNumColumns)
        (s.pos - s.x * 2) s.ram }
  | 2 => { s with ram := stosw g g.videoNumColumns (s.pos - s.x * 2) s.ram }
  | _ => s

end

def csim (s : Con) : Con :=
  { s with attr := (List.range (s.npar + 1)).foldl (fun attr i =>
      if s.par i = 0 then 0x07
      else if s.par i = 1 then 0x0f
      else if s.par i = 4 then 0x0f
      else if s.par i = 7 then 0x70
      else if s.par i = 27 then 0x07
      else attr) s.attr }

def saveCur (s : Con) : Con := { s with savedX := s.x, savedY := s.y }

/-- `if (par[i]) par[i]--` -/
def decPar (i : Nat) (s : Con) : Con :=
  { s with par := Function.update s.par i (if s.par i = 0 then 0 else s.par i - 1) }

/-- `if (!par[i]) par[i] = v` -/
def defaultPar (i : Nat) (v : UInt32) (s : Con) : Con :=
  { s with par := Function.update s.par i (if s.par i = 0 then v else s.par i) }

section

variable (g : Geometry)

def restoreCur (s : Con) : Con := gotoxy g s.savedX s.savedY s

/-- A cursor movement, with its default parameter of 1. -/
def move (newX newY : Con → Nat) (s : Con) : Con :=
  gotoxy g (newX (defaultPar 0 1 s)) (newY (defaultPar 0 1 s)) (defaultPar 0 1 s)

/-- The end of case 'r', which sets the scroll region. -/
def setRegion (s : Con) : Con :=
  if s.par 0 < s.par 1 ∧ (s.par 1).toNat ≤ g.videoNumLines then
    { s with top := (s.par 0).toNat, bottom := (s.par 1).toNat }
  else s

/-- The commands of control sequences, by their last character. -/
def command (c : Nat) (s : Con) : Con :=
  if c = 'G'.toNat ∨ c = 96 then gotoxy g ((decPar 0 s).par 0).toNat s.y (decPar 0 s)
  else if c = 'A'.toNat then move g (·.x) (fun s => (UInt32.ofNat s.y - s.par 0).toNat) s
  else if c = 'B'.toNat ∨ c = 'e'.toNat then move g (·.x)
    (fun s => (UInt32.ofNat s.y + s.par 0).toNat) s
  else if c = 'C'.toNat ∨ c = 'a'.toNat then move g
    (fun s => (UInt32.ofNat s.x + s.par 0).toNat) (·.y) s
  else if c = 'D'.toNat then move g (fun s => (UInt32.ofNat s.x - s.par 0).toNat) (·.y) s
  else if c = 'E'.toNat then move g (fun _ => 0) (fun s => (UInt32.ofNat s.y + s.par 0).toNat) s
  else if c = 'F'.toNat then move g (fun _ => 0) (fun s => (UInt32.ofNat s.y - s.par 0).toNat) s
  else if c = 'd'.toNat then gotoxy g s.x ((decPar 0 s).par 0).toNat (decPar 0 s)
  else if c = 'H'.toNat ∨ c = 'f'.toNat then
    gotoxy g ((decPar 1 (decPar 0 s)).par 1).toNat ((decPar 1 (decPar 0 s)).par 0).toNat
      (decPar 1 (decPar 0 s))
  else if c = 'J'.toNat then csiJ g (s.par 0).toNat s
  else if c = 'K'.toNat then csiK g (s.par 0).toNat s
  else if c = 'L'.toNat then csiL g (s.par 0).toNat s
  else if c = 'M'.toNat then csiM g (s.par 0).toNat s
  else if c = 'P'.toNat then csiP g (s.par 0).toNat s
  else if c = '@'.toNat then csiAt g (s.par 0).toNat s
  else if c = 'm'.toNat then csim s
  else if c = 'r'.toNat then setRegion g (defaultPar 1 (UInt32.ofNat g.videoNumLines) (decPar 0 s))
  else if c = 's'.toNat then saveCur s
  else if c = 'u'.toNat then restoreCur g s
  else s

/-- Case 4 of `con_write`, the last character of a control sequence. -/
def csi (c : Nat) (s : Con) : Con := command g c { s with state := 0 }

/-- Case 3, a parameter, which a character that is none leaves for case 4. -/
def parameter (c : Nat) (s : Con) : Con :=
  if c = ';'.toNat ∧ s.npar < nPar - 1 then { s with npar := s.npar + 1 }
  else if '0'.toNat ≤ c ∧ c ≤ '9'.toNat then
    { s with
      par := Function.update s.par s.npar (10 * s.par s.npar +
        UInt32.ofNat c - UInt32.ofNat '0'.toNat) }
  else csi g c { s with state := 4 }

/-- Case 2, the character after ESC [. -/
def introduce (c : Nat) (s : Con) : Con :=
  let s := { s with par := fun _ => 0, npar := 0, state := 3, ques := decide (c = '?'.toNat) }
  if c = '?'.toNat then s else parameter g c s

/-- Case 1, the character after ESC. The last two tests are of `x`, as in the
source; ESC Z, which only answers the terminal, does nothing here. -/
def escape (c : Nat) (s : Con) : Con :=
  let s := { s with state := 0 }
  if c = '['.toNat then { s with state := 2 }
  else if c = 'E'.toNat then gotoxy g 0 (s.y + 1) s
  else if c = 'M'.toNat then ri g s
  else if c = 'D'.toNat then lf g s
  else if c = 'Z'.toNat then s
  else if s.x = '7'.toNat then saveCur s
  else if s.x = '8'.toNat then restoreCur g s
  else s

/-- The wrap to the next line of a cursor that has passed the last column. -/
def wrap (s : Con) : Con :=
  lf g { s with x := s.x - g.videoNumColumns, pos := s.pos - g.videoSizeRow }

def printChar (c : Nat) (s : Con) : Con :=
  { s with
    ram := poke g s.pos (BitVec.ofNat 16 (s.attr * 256 + c)) s.ram
    pos := s.pos + 2
    x := s.x + 1 }

def tab (s : Con) : Con :=
  let s := { s with x := s.x + (8 - s.x % 8), pos := s.pos + (8 - s.x % 8) * 2 }
  if g.videoNumColumns < s.x then wrap g s else s

/-- Case 0. Bytes from 128 on are negative characters, which pass no test. -/
def plain (eraseChar c : Nat) (s : Con) : Con :=
  if 31 < c ∧ c < 127 then printChar g c (if g.videoNumColumns ≤ s.x then wrap g s else s)
  else if c = 27 then { s with state := 1 }
  else if c = 10 ∨ c = 11 ∨ c = 12 then lf g s
  else if c = 13 then cr s
  else if c < 128 ∧ c = eraseChar then del g s
  else if c = 8 then if s.x ≠ 0 then { s with x := s.x - 1, pos := s.pos - 2 } else s
  else if c = 9 then tab g s
  else s

def conWriteChar (eraseChar c : Nat) (s : Con) : Con :=
  match s.state with
  | 0 => plain g eraseChar c s
  | 1 => escape g c s
  | 2 => introduce g c s
  | 3 => parameter g c s
  | 4 => csi g c s
  | _ => s

/-- `con_write` for the characters in the queue. -/
def conWrite (eraseChar : Nat) (cs : List Nat) (s : Con) : Con :=
  cs.foldl (fun s c => conWriteChar g eraseChar c s) s

end

end Gpos.Console
