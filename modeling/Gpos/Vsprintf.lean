import Gpos.Program
import Mathlib.Data.BitVec

/-! `number` and `vsprintf` of `vsprintf.c`. An `int` is a word of 32 bits and wraps around; what
is written to `str` is appended to it. -/

namespace Gpos.Vsprintf

def chr (c : Char) : BitVec 8 := BitVec.ofNat 8 c.toNat

def text (s : String) : List (BitVec 8) := s.toList.map chr

def isDigit (c : BitVec 8) : Bool := (chr '0').sle c && c.sle (chr '9')

def zeropad : BitVec 32 := 1

def signed : BitVec 32 := 2

def plus : BitVec 32 := 4

def space : BitVec 32 := 8

def left : BitVec 32 := 16

def special : BitVec 32 := 32

def small : BitVec 32 := 64

def has (type flag : BitVec 32) : Bool := type &&& flag != 0

theorem toInt_pred {b x : BitVec 32} (h : b.slt x) : (x - 1).toInt = x.toInt - 1 := by
  have hlt := BitVec.slt_iff_toInt_lt.mp h
  have hb := BitVec.le_toInt b
  have hx := BitVec.toInt_lt (x := x)
  have hone : (1 : BitVec 32).toInt = 1 := rfl
  rw [BitVec.toInt_sub, hone, Int.bmod_eq_of_le (by omega) (by omega)]

theorem zero_slt {x : BitVec 32} : BitVec.slt 0 x ↔ 0 < x.toInt := BitVec.slt_iff_toInt_lt

/-- `while (bound < size--) *str++ = c` -/
def pad (bound : BitVec 32) (c : BitVec 8) (size : BitVec 32) (str : List (BitVec 8)) :
    List (BitVec 8) × BitVec 32 :=
  if bound.slt size then pad bound c (size - 1) (str ++ [c]) else (str, size - 1)
termination_by (size.toInt - bound.toInt).toNat
decreasing_by
  rename_i h
  have hlt := BitVec.slt_iff_toInt_lt.mp h
  rw [toInt_pred h]
  omega

/-- `while (num != 0) tmp[i++] = digits[do_div(num, base)]`, with the room left in `tmp`. -/
def divLoop (digits : List (BitVec 8)) (base : BitVec 32) :
    Nat → BitVec 32 → List (BitVec 8) → Option (List (BitVec 8))
  | 0, num, tmp => if num = 0 then some tmp else none
  | room + 1, num, tmp =>
    if num = 0 then some tmp
    else divLoop digits base room (num / base) (tmp ++ [digits.getD (num % base).toNat 0])

/-- `while (i-- > 0) *str++ = tmp[i]` -/
def putTmp (tmp : List (BitVec 8)) : Nat → List (BitVec 8) → List (BitVec 8)
  | 0, str => str
  | i + 1, str => putTmp tmp i (str ++ [tmp.getD i 0])

def lowerDigits : List (BitVec 8) := text "0123456789abcdefghijklmnopqrstuvwxyz"

def upperDigits : List (BitVec 8) := text "0123456789ABCDEFGHIJKLMNOPQRSTUVWXYZ"

/-- `none` where the function returns `NULL` or `tmp` is too short. -/
def number (str : List (BitVec 8)) (num base size precision type : BitVec 32) :
    Option (List (BitVec 8)) := do
  let digits := if has type small then lowerDigits else upperDigits
  let type := if has type left then type &&& ~~~zeropad else type
  if base.slt 2 || (36#32).slt base then none
  let c := if has type zeropad then chr '0' else chr ' '
  let negative := has type signed && num.slt 0
  let sign := if negative then chr '-' else
    if has type plus then chr '+' else if has type space then chr ' ' else 0
  let num := if negative then -num else num
  let size := if sign ≠ 0 then size - 1 else size
  let size := if has type special then
    if base = 16 then size - 2 else if base = 8 then size - 1 else size else size
  let tmp ← if num = 0 then some [chr '0'] else divLoop digits base 36 num []
  let i := BitVec.ofNat 32 tmp.length
  let precision := if precision.slt i then i else precision
  let size := size - precision
  let (str, size) := if has type (zeropad + left) then (str, size) else pad 0 (chr ' ') size str
  let str := if sign ≠ 0 then str ++ [sign] else str
  let str := if has type special then
    if base = 8 then str ++ [chr '0'] else
    if base = 16 then str ++ [chr '0', digits.getD 33 0] else str else str
  let (str, size) := if has type left then (str, size) else pad 0 c size str
  let (str, _) := pad i (chr '0') precision str
  let str := putTmp tmp tmp.length str
  let (str, _) := pad 0 (chr ' ') size str
  some str

/-- What a conversion works on besides the format: the arguments still to come, what was
written, and the stores of `%n`. -/
structure Out where
  args : List (BitVec 32)
  str : List (BitVec 8)
  stores : List (BitVec 32 × BitVec 32)

/-- `none` when the list is exhausted. -/
def vaArg : Program Out (BitVec 32) := fun o =>
  match o.args with
  | [] => none
  | a :: args => some (a, { o with args := args })

def put (cs : List (BitVec 8)) : Program Out Unit := fun o => some ((), { o with str := o.str ++ cs })

/-- `while (--width > 0) *str++ = ' '` -/
def padChar (width : BitVec 32) (str : List (BitVec 8)) : List (BitVec 8) × BitVec 32 :=
  if BitVec.slt 0 (width - 1) then padChar (width - 1) (str ++ [chr ' ']) else (str, width - 1)
termination_by (width - 1).toInt.toNat
decreasing_by
  rename_i h
  have hlt := zero_slt.mp h
  rw [toInt_pred h]
  omega

/-- A loop that writes to `str` and leaves a variable changed. -/
def padWith (loop : List (BitVec 8) → List (BitVec 8) × BitVec 32) : Program Out (BitVec 32) :=
  fun o => some ((loop o.str).2, { o with str := (loop o.str).1 })

def putNumber (base size precision type : BitVec 32) : Program Out Unit := do
  let num ← vaArg
  fun o => (number o.str num base size precision type).map fun str => ((), { o with str := str })

/-- `s = va_arg(args, char *)` with the bytes that it points to up to the first `NUL`. -/
def stringArg (strings : BitVec 32 → List (BitVec 8)) : Program Out (List (BitVec 8)) := do
  let s ← vaArg
  return if s = 0 then text "<NULL>" else strings s

/-- The `switch` over the character `c` of the conversion, but for the step back of `fmt`. -/
def convert (strings : BitVec 32 → List (BitVec 8)) (c : BitVec 8)
    (flags fieldWidth precision : BitVec 32) : Program Out Unit :=
  if c = chr 'c' then do
    let fieldWidth ← if has flags left then pure fieldWidth else padWith (padChar fieldWidth)
    let a ← vaArg
    put [a.setWidth 8]
    let _ ← padWith (padChar fieldWidth)
  else if c = chr 's' then do
    let s ← stringArg strings
    let len := BitVec.ofNat 32 s.length
    let len := if precision.slt 0 then len else if precision.slt len then precision else len
    let fieldWidth ← if has flags left then pure fieldWidth
      else padWith (pad len (chr ' ') fieldWidth)
    put (s.take len.toInt.toNat)
    let _ ← padWith (pad len (chr ' ') fieldWidth)
  else if c = chr 'o' then putNumber 8 fieldWidth precision flags
  else if c = chr 'p' then
    if fieldWidth = -1 then putNumber 16 8 precision (flags ||| zeropad)
    else putNumber 16 fieldWidth precision flags
  else if c = chr 'x' then putNumber 16 fieldWidth precision (flags ||| small)
  else if c = chr 'X' then putNumber 16 fieldWidth precision flags
  else if c = chr 'd' ∨ c = chr 'i' then putNumber 10 fieldWidth precision (flags ||| signed)
  else if c = chr 'u' then putNumber 10 fieldWidth precision flags
  else if c = chr 'n' then do
    let ip ← vaArg
    fun o => some ((), { o with stores := o.stores ++ [(ip, BitVec.ofNat 32 o.str.length)] })
  else do
    if c ≠ chr '%' then put [chr '%']
    if c ≠ 0 then put [c]

/-- `fmt` is the position in the format. -/
structure St where
  fmt : Nat
  out : Out

def liftOut {α : Type} (x : Program Out α) : Program St α := fun s =>
  (x s.out).map fun r => (r.1, { s with out := r.2 })

/-! The scanner. Its loops take the rounds that they have left. -/

section

variable (f : List (BitVec 8))

/-- `*fmt`; behind the format stands the `NUL`, and there is nothing behind it. -/
def peek : Program St (BitVec 8) := fun s =>
  if h : s.fmt < f.length then some (f[s.fmt], s) else if s.fmt = f.length then some (0, s) else none

def next : Program St Unit := fun s => some ((), { s with fmt := s.fmt + 1 })

/-- `--fmt`, which does not leave the format. -/
def back : Program St Unit := fun s =>
  if s.fmt = 0 then none else some ((), { s with fmt := s.fmt - 1 })

def skipAtoi : Nat → BitVec 32 → Program St (BitVec 32)
  | 0, _ => failure
  | rounds + 1, i => do
    let c ← peek f
    if isDigit c then
      next
      skipAtoi rounds (i * 10 + c.signExtend 32 - (chr '0').signExtend 32)
    else return i

/-- The flag of a character. -/
def flagOf (c : BitVec 8) : Option (BitVec 32) :=
  if c = chr '-' then some left else if c = chr '+' then some plus
  else if c = chr ' ' then some space else if c = chr '#' then some special
  else if c = chr '0' then some zeropad else none

/-- From `repeat` on. -/
def scanFlags : Nat → BitVec 32 → Program St (BitVec 32)
  | 0, _ => failure
  | rounds + 1, flags => do
    next
    let c ← peek f
    match flagOf c with
    | some flag => scanFlags rounds (flags ||| flag)
    | none => return flags

/-- The field width, and the flags with what a negative argument makes of them. -/
def scanWidth (rounds : Nat) (flags : BitVec 32) : Program St (BitVec 32 × BitVec 32) := do
  let c ← peek f
  if isDigit c then
    let fieldWidth ← skipAtoi f rounds 0
    return (fieldWidth, flags)
  else if c = chr '*' then
    next
    let fieldWidth ← liftOut vaArg
    return if fieldWidth.slt 0 then (-fieldWidth, flags ||| left) else (fieldWidth, flags)
  else return (-1, flags)

def scanPrecision (rounds : Nat) : Program St (BitVec 32) := do
  let c ← peek f
  if c = chr '.' then
    next
    let c ← peek f
    let precision ← if isDigit c then skipAtoi f rounds 0
      else if c = chr '*' then do
        next
        liftOut vaArg
      else pure (-1)
    return if precision.slt 0 then 0 else precision
  else return -1

def isQualifier (c : BitVec 8) : Bool := c == chr 'h' || c == chr 'l' || c == chr 'L'

/-- The qualifier has no use later. -/
def scanQualifier : Program St Unit := do
  let c ← peek f
  if isQualifier c then next

variable (strings : BitVec 32 → List (BitVec 8))

/-- What is done at a `%`. -/
def conversion (rounds : Nat) : Program St Unit := do
  let flags ← scanFlags f rounds 0
  let (fieldWidth, flags) ← scanWidth f rounds flags
  let precision ← scanPrecision f rounds
  scanQualifier f
  let c ← peek f
  liftOut (convert strings c flags fieldWidth precision)
  if c = 0 then back

/-- `for (str = buf; *fmt; ++fmt)` -/
def scanLoop : Nat → Program St Unit
  | 0 => failure
  | rounds + 1 => do
    let c ← peek f
    if c = 0 then return
    if c ≠ chr '%' then liftOut (put [c]) else conversion f strings rounds
    next
    scanLoop rounds

/-- What `vsprintf` leaves behind `buf`, what it returns, and the rest of the state. -/
structure Printed where
  buf : List (BitVec 8)
  len : BitVec 32
  stores : List (BitVec 32 × BitVec 32)
  args : List (BitVec 32)

def vsprintf (rounds : Nat) (args : List (BitVec 32)) : Option Printed :=
  (scanLoop f strings rounds ⟨0, ⟨args, [], []⟩⟩).map fun r =>
    ⟨r.2.out.str ++ [0], BitVec.ofNat 32 r.2.out.str.length, r.2.out.stores, r.2.out.args⟩

end

end Gpos.Vsprintf
