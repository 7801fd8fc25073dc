import Gpos.PutQueue
import Mathlib.Tactic.IntervalCases

/-! `keyboard_interrupt` of `kb.S`, up to the call of `do_tty_interrupt`. The
routines are given the registers as the handler has them. -/

namespace Gpos

namespace Keyboard

structure Regs where
  eax : BitVec 32
  ebx : BitVec 32
  ecx : BitVec 32
  edx : BitVec 32

def Regs.al (r : Regs) : BitVec 8 := r.eax.setWidth 8

def Regs.setAl (v : BitVec 8) (r : Regs) : Regs :=
  { r with eax := (r.eax &&& 0xffffff00) ||| v.setWidth 32 }

def Regs.setAh (v : BitVec 8) (r : Regs) : Regs :=
  { r with eax := (r.eax &&& 0xffff00ff#32) ||| (v.setWidth 32 <<< 8) }

def Regs.setAx (v : BitVec 16) (r : Regs) : Regs :=
  { r with eax := (r.eax &&& 0xffff0000) ||| v.setWidth 32 }

/-- `ports` is what was sent to the ports, the last one at the end. -/
structure Kbd where
  mode : BitVec 8
  leds : BitVec 8
  e0 : BitVec 8
  readQ : TtyQueue
  ports : List (Nat × BitVec 8)

def outb (v : BitVec 8) (port : Nat) (k : Kbd) : Kbd := { k with ports := k.ports ++ [(port, v)] }

def put (r : Regs) (k : Kbd) : Option Kbd :=
  (putQueue r.eax r.ebx k.readQ).map fun q => { k with readQ := q }

/-! Of the keys that change the mode the left one and the right one, after an `e0`, have adjacent bits. -/

def modeBit (b : BitVec 8) (k : Kbd) : BitVec 8 := if k.e0 = 0 then b else b + b

def press (b : BitVec 8) (k : Kbd) : Kbd := { k with mode := k.mode ||| modeBit b k }

def release (b : BitVec 8) (k : Kbd) : Kbd := { k with mode := k.mode &&& ~~~ modeBit b k }

def ctrl : Kbd → Kbd := press 0x04

def alt : Kbd → Kbd := press 0x10

def unctrl : Kbd → Kbd := release 0x04

def unalt : Kbd → Kbd := release 0x10

def lshift (k : Kbd) : Kbd := { k with mode := k.mode ||| 0x01 }

def unlshift (k : Kbd) : Kbd := { k with mode := k.mode &&& 0xfe }

def rshift (k : Kbd) : Kbd := { k with mode := k.mode ||| 0x02 }

def unrshift (k : Kbd) : Kbd := { k with mode := k.mode &&& 0xfd }

/-- `kb_wait` waits for the controller. -/
def setLeds (k : Kbd) : Kbd := outb k.leds 0x60 (outb 0xed 0x60 k)

def caps (k : Kbd) : Kbd :=
  if k.mode &&& 0x80 ≠ 0 then k
  else setLeds { k with leds := k.leds ^^^ 4, mode := (k.mode ^^^ 0x40) ||| 0x80 }

def uncaps (k : Kbd) : Kbd := { k with mode := k.mode &&& 0x7f }

def scroll (k : Kbd) : Kbd := setLeds { k with leds := k.leds ^^^ 1 }

def num (k : Kbd) : Kbd := setLeds { k with leds := k.leds ^^^ 2 }

def ascii (s : String) : List (BitVec 8) := s.toList.map fun c => BitVec.ofNat 8 c.toNat

def numTable : List (BitVec 8) := ascii "789 456 1230,"

def curTable : List (BitVec 8) := ascii "HA5 DGC YB623"

def cur (r : Regs) (k : Kbd) : Option Kbd :=
  let r := r.setAl (curTable.getD r.eax.toNat 0)
  let r := if r.al ≤ 57 then r.setAh 126 else r
  let r := { r with eax := r.eax <<< 16 }.setAx 0x5b1b
  put { r with ebx := 0 } k

/-- `none` is the way to `reboot`, which does not return. -/
def cursor (r : Regs) (k : Kbd) : Option Kbd :=
  if r.al < 0x47 then some k else
  let r := r.setAl (r.al - 0x47)
  if 12 < r.al then some k else
  if r.al = 12 ∧ k.mode &&& 0x0c ≠ 0 ∧ k.mode &&& 0x30 ≠ 0 then none else
  if k.e0 = 1 ∨ k.leds &&& 2 = 0 ∨ k.mode &&& 3 ≠ 0 then cur r k else
  let r := { r with ebx := 0 }
  put (r.setAl (numTable.getD r.eax.toNat 0)) k

def funcTable : List (BitVec 32) :=
  [0x415b5b1b, 0x425b5b1b, 0x435b5b1b, 0x445b5b1b, 0x455b5b1b, 0x465b5b1b, 0x475b5b1b, 0x485b5b1b,
    0x495b5b1b, 0x4a5b5b1b, 0x4b5b5b1b, 0x4c5b5b1b]

/-- The comparison is meant to check that there is enough room. -/
def okFunc (r : Regs) (k : Kbd) : Option Kbd :=
  if r.ecx.slt 4 then some k else put { r with eax := funcTable.getD r.eax.toNat 0, ebx := 0 } k

def func (r : Regs) (k : Kbd) : Option Kbd :=
  if r.al < 0x3b then some k else
  let r := r.setAl (r.al - 0x3b)
  if r.al ≤ 9 then okFunc r k else
  let r := r.setAl (r.al - 18)
  if r.al < 10 ∨ 11 < r.al then some k else okFunc r k

/-- The end of every map. -/
def keypad (c : BitVec 8) : List (BitVec 8) :=
  List.flatten [List.replicate 16 0, [45, 0, 0, 0, 43], List.replicate 7 0, [c],
    List.replicate 10 0]

def keyMap : List (BitVec 8) :=
  List.flatten [[0, 27], ascii "1234567890-=", [127, 9], ascii "qwertyuiop[]", [13, 0],
    ascii "asdfghjkl;'", [96, 0], ascii "\\zxcvbnm,./", [0, 42, 0, 32], keypad 60]

def shiftMap : List (BitVec 8) :=
  List.flatten [[0, 27], ascii "!@#$%^&*()_+", [127, 9], ascii "QWERTYUIOP\x7b\x7d", [13, 0],
    ascii "ASDFGHJKL:\"", [126, 0], ascii "|ZXCVBNM<>?", [0, 42, 0, 32], keypad 62]

def altMap : List (BitVec 8) :=
  List.flatten [[0, 0], [0, 64, 0, 36, 0, 0, 123, 91, 93, 125, 92, 0], [0, 0],
    List.replicate 11 0, [126, 13, 0], List.replicate 11 0, [0, 0], List.replicate 11 0,
    [0, 0, 0, 0], List.replicate 16 0, List.replicate 5 0, List.replicate 7 0, [124],
    List.replicate 10 0]

def selfMap (k : Kbd) : List (BitVec 8) :=
  if k.mode &&& 0x20 ≠ 0 then altMap else if k.mode &&& 3 ≠ 0 then shiftMap else keyMap

/-- What control, caps and the left alt key make of a character. -/
def shiftSelf (mode c : BitVec 8) : BitVec 8 :=
  let c := if mode &&& 0x4c ≠ 0 ∧ 97 ≤ c ∧ c ≤ 125 then c - 32 else c
  let c := if mode &&& 0x0c ≠ 0 ∧ 64 ≤ c ∧ c < 96 then c - 64 else c
  if mode &&& 0x10 ≠ 0 then c ||| 0x80 else c

def doSelf (r : Regs) (k : Kbd) : Option Kbd :=
  let r := r.setAl ((selfMap k).getD r.eax.toNat 0)
  if r.al = 0 then some k else
  let r := r.setAl (shiftSelf k.mode r.al)
  put { r with eax := r.eax &&& 0xff, ebx := 0 } k

def minus (r : Regs) (k : Kbd) : Option Kbd :=
  if k.e0 ≠ 1 then doSelf r k else put { r with eax := 47, ebx := 0 } k

inductive Key
  | none | doSelf | ctrl | alt | unctrl | unalt | lshift | unlshift | rshift | unrshift
  | caps | uncaps | scroll | num | cursor | func | minus
deriving DecidableEq

def call : Key → Regs → Kbd → Option Kbd
  | .none, _, k => some k
  | .doSelf, r, k => doSelf r k
  | .ctrl, _, k => some (ctrl k)
  | .alt, _, k => some (alt k)
  | .unctrl, _, k => some (unctrl k)
  | .unalt, _, k => some (unalt k)
  | .lshift, _, k => some (lshift k)
  | .unlshift, _, k => some (unlshift k)
  | .rshift, _, k => some (rshift k)
  | .unrshift, _, k => some (unrshift k)
  | .caps, _, k => some (caps k)
  | .uncaps, _, k => some (uncaps k)
  | .scroll, _, k => some (scroll k)
  | .num, _, k => some (num k)
  | .cursor, r, k => cursor r k
  | .func, r, k => func r k
  | .minus, r, k => minus r k

/-- `key_table`, in parts: up to the slash, up to F12, and the rest of the codes, most of them of
keys that are released. -/
def keyTable : List Key :=
  List.flatten [[.none], List.replicate 28 .doSelf, [.ctrl], List.replicate 12 .doSelf, [.lshift],
    List.replicate 10 .doSelf, [.minus, .rshift, .doSelf, .alt, .doSelf, .caps],
    List.replicate 10 .func, [.num, .scroll, .cursor, .cursor, .cursor, .doSelf, .cursor, .cursor,
      .cursor, .doSelf, .cursor, .cursor, .cursor, .cursor, .cursor, .none, .none,
    .doSelf, .func, .func], List.replicate 68 .none, [.unctrl], List.replicate 12 .none,
    [.unlshift], List.replicate 11 .none, [.unrshift], [.none, .unalt, .none, .uncaps],
    List.replicate 69 .none]

/-- `e0_e1`; `status` is read from port 0x61. -/
def acknowledge (status : BitVec 8) (k : Kbd) : Kbd :=
  outb 0x20 0x20 (outb ((status ||| 0x80) &&& 0x7f) 0x61 (outb (status ||| 0x80) 0x61 k))

/-- `movb $0,e0` -/
def clearE0 (k : Kbd) : Kbd := { k with e0 := 0 }

def keyboardInterrupt (scan status : BitVec 8) (r : Regs) (k : Kbd) : Option Kbd :=
  let r := ({ r with eax := 0x10 }.setAl 0).setAl scan
  if r.al = 0xe0 then some (acknowledge status { k with e0 := 1 }) else
  if r.al = 0xe1 then some (acknowledge status { k with e0 := 2 }) else
  (call (keyTable.getD r.eax.toNat .none) r k).map fun k => acknowledge status (clearE0 k)

example : keyMap.length = 97 ∧ shiftMap.length = 97 ∧ altMap.length = 97 := by
  simp [keyMap, shiftMap, altMap, ascii, keypad]

/-! Every routine but `func` reads no register that the handler has not set. -/

theorem eax_handler (scan : BitVec 8) (r : Regs) :
    (({ r with eax := 0x10 }.setAl 0).setAl scan).eax = scan.setWidth 32 := by
  have hzero : (0x10 &&& 0xffffff00 ||| (0 : BitVec 8).setWidth 32 : BitVec 32) = 0 := by decide
  simp only [Regs.setAl, hzero]
  exact (congrArg (· ||| _) BitVec.zero_and).trans BitVec.zero_or

section

variable {r : Regs} {k : Kbd}

theorem cur_eax (b c d : BitVec 32) : cur r k = cur ⟨r.eax, b, c, d⟩ k := by
  unfold cur
  by_cases h : (r.setAl (curTable.getD r.eax.toNat 0)).al ≤ 57
  · have h' : (Regs.setAl (curTable.getD r.eax.toNat 0) ⟨r.eax, b, c, d⟩).al ≤ 57 := h
    simp only [if_pos h, if_pos h']
    rfl
  · have h' : ¬ (Regs.setAl (curTable.getD r.eax.toNat 0) ⟨r.eax, b, c, d⟩).al ≤ 57 := h
    simp only [if_neg h, if_neg h']
    rfl

theorem doSelf_eax (b c d : BitVec 32) : doSelf r k = doSelf ⟨r.eax, b, c, d⟩ k := by
  simp only [doSelf, put, Regs.setAl, Regs.al]
  rfl

theorem cursor_eax (b c d : BitVec 32) : cursor r k = cursor ⟨r.eax, b, c, d⟩ k := by
  have hcur : ∀ v, cur (r.setAl v) k = cur (Regs.setAl v ⟨r.eax, b, c, d⟩) k :=
    fun v => cur_eax b c d
  simp only [cursor, hcur, put, Regs.al]
  simp only [Regs.setAl]
  rfl

theorem minus_eax (b c d : BitVec 32) : minus r k = minus ⟨r.eax, b, c, d⟩ k := by
  unfold minus
  split
  · exact doSelf_eax b c d
  · rfl

theorem call_eax {key : Key} (hkey : key ≠ .func) (b c d : BitVec 32) :
    call key r k = call key ⟨r.eax, b, c, d⟩ k := by
  cases key with
  | func => exact absurd rfl hkey
  | cursor => exact cursor_eax b c d
  | doSelf => exact doSelf_eax b c d
  | minus => exact minus_eax b c d
  | _ => rfl

theorem getLsbD_highMask {i : Nat} (hi : i < 8) : (0xffffff00 : BitVec 32).getLsbD i = false := by
  interval_cases i <;> rfl

theorem al_setAl (v : BitVec 8) : (r.setAl v).al = v := by
  ext i hi
  simp only [Regs.al, Regs.setAl, BitVec.getElem_setWidth, BitVec.getLsbD_or, BitVec.getLsbD_and,
    getLsbD_highMask hi, BitVec.getLsbD_setWidth]
  have h32 : i < 32 := by omega
  simp [hi, h32]

theorem eax_setAl {w : BitVec 8} (h : r.eax = w.setWidth 32) (v : BitVec 8) :
    (r.setAl v).eax = v.setWidth 32 := by
  have hzero : w.setWidth 32 &&& 0xffffff00 = (0 : BitVec 32) := by
    refine BitVec.eq_of_getLsbD_eq fun i _ => ?_
    rw [BitVec.getLsbD_and, BitVec.getLsbD_setWidth]
    by_cases h8 : i < 8
    · rw [getLsbD_highMask h8]
      simp
    · rw [BitVec.getLsbD_of_ge w i (Nat.not_lt.mp h8)]
      simp
  simp only [Regs.setAl, h, hzero]
  exact BitVec.zero_or

theorem func_scan : ∀ scan : BitVec 8, keyTable.getD scan.toNat .none = .func → ¬ scan < 0x3b ∧
    (scan - 0x3b ≤ 9 ∨ ¬ scan - 0x3b ≤ 9 ∧ ¬ (scan - 0x3b - 18 < 10 ∨ 11 < scan - 0x3b - 18)) := by
  decide +kernel

theorem okFunc_eq (v : BitVec 8) (h : r.eax = v.setWidth 32) :
    okFunc r k = if r.ecx.slt 4 then some k else put
      ⟨funcTable.getD v.toNat 0, 0, r.ecx, r.edx⟩ k := by
  have hv : (v.setWidth 32).toNat = v.toNat := BitVec.toNat_setWidth_of_le (by decide)
  simp only [okFunc, h, hv]

theorem func_eq {scan : BitVec 8} (h : keyTable.getD scan.toNat .none = .func) :
    ∃ n, n < 12 ∧ ∀ (r : Regs) (k : Kbd), r.eax = scan.setWidth 32 →
      func r k = if r.ecx.slt 4 then some k else put ⟨funcTable.getD n 0, 0, r.ecx, r.edx⟩ k := by
  have hal : ∀ r : Regs, r.eax = scan.setWidth 32 → r.al = scan := by
    intro r he
    rw [Regs.al, he]
    simp
  obtain ⟨hlow, hnine | ⟨hnine, hten⟩⟩ := func_scan scan h
  · refine ⟨(scan - 0x3b).toNat, ?_, fun r k he => ?_⟩
    · have hle : (scan - 0x3b).toNat ≤ 9 := hnine
      omega
    · simp only [func, hal r he, if_neg hlow, al_setAl, if_pos hnine]
      exact okFunc_eq _ (eax_setAl he _)
  · refine ⟨(scan - 0x3b - 18).toNat, ?_, fun r k he => ?_⟩
    · have hle : ¬ 11 < (scan - 0x3b - 18).toNat := fun hlt => hten (Or.inr hlt)
      omega
    · simp only [func, hal r he, if_neg hlow, al_setAl, if_neg hnine, if_neg hten]
      exact okFunc_eq _ (eax_setAl (eax_setAl he _) _)

theorem encodes_func :
    ∀ n, n < 12 → Encodes (funcTable.getD n 0) 0 [0x1b, 0x5b, 0x5b, BitVec.ofNat 8 (0x41 + n)] := by
  intro n hn
  refine ⟨?_, ?_⟩
  · interval_cases n <;> simp [value, funcTable, Nat.ofDigits_cons]
  · interval_cases n <;> simp

end

/-! Two runs that differ in the registers of the interrupted program. -/

def seen (k : Kbd) : BitVec 8 × BitVec 8 × BitVec 8 × List (BitVec 8) :=
  (k.mode, k.leds, k.e0, content k.readQ)

def Alike (scan status : BitVec 8) (r₁ r₂ : Regs) (k : Kbd) : Prop :=
  (keyboardInterrupt scan status r₁ k).map seen = (keyboardInterrupt scan status r₂ k).map seen

/-- The sequence of a function key fits, and the interrupted program decides whether it is sent. -/
def Swayed (scan : BitVec 8) (r₁ r₂ : Regs) (k : Kbd) : Prop :=
  keyTable.getD scan.toNat .none = .func ∧ 4 ≤ (left k.readQ).toNat ∧ r₁.ecx.slt 4 ≠ r₂.ecx.slt 4

theorem func_ne {scan : BitVec 8} (h : keyTable.getD scan.toNat .none = .func) :
    scan ≠ 0xe0 ∧ scan ≠ 0xe1 := by
  constructor <;> rintro rfl <;> exact absurd h (by decide)

theorem seen_acknowledge (status : BitVec 8) (k : Kbd) :
    seen (acknowledge status (clearE0 k)) = (k.mode, k.leds, 0, content k.readQ) := rfl

theorem keyboardInterrupt_eq (scan status : BitVec 8) (r : Regs) (k : Kbd) :
    keyboardInterrupt scan status r k = if scan =
      0xe0 then some (acknowledge status { k with e0 := 1 }) else
    if scan = 0xe1 then some (acknowledge status { k with e0 := 2 }) else
    (call (keyTable.getD scan.toNat .none) ⟨scan.setWidth 32, r.ebx, r.ecx, r.edx⟩ k).map fun k =>
      acknowledge status (clearE0 k) := by
  have heax := eax_handler scan r
  have hto : (scan.setWidth 32).toNat = scan.toNat := BitVec.toNat_setWidth_of_le (by decide)
  have hregs : ({ r with eax := 0x10 }.setAl 0).setAl scan =
    ⟨scan.setWidth 32, r.ebx, r.ecx, r.edx⟩ := by
    rw [← heax]
    rfl
  have hal : (⟨scan.setWidth 32, r.ebx, r.ecx, r.edx⟩ : Regs).al = scan := by simp [Regs.al]
  simp only [keyboardInterrupt, hregs, hal, hto]

theorem seen_func {scan : BitVec 8} (h : keyTable.getD scan.toNat .none = .func) {k : Kbd}
    (hq : Valid k.readQ) (status : BitVec 8) :
      ∃ bytes : List (BitVec 8), bytes.length = 4 ∧
        ∀ r : Regs, (keyboardInterrupt scan status r k).map seen =
          some (k.mode, k.leds, 0, if r.ecx.slt 4 ∨ (left k.readQ).toNat < 4 then content k.readQ
            else content k.readQ ++ bytes) := by
  obtain ⟨n, hn, hfunc⟩ := func_eq h
  have henc := encodes_func n hn
  refine ⟨[0x1b, 0x5b, 0x5b, BitVec.ofNat 8 (0x41 + n)], rfl, fun r => ?_⟩
  rw [keyboardInterrupt_eq, if_neg (func_ne h).1, if_neg (func_ne h).2, h, call, hfunc _ _ rfl]
  by_cases hecx : r.ecx.slt 4
  · simp only [hecx, true_or, if_true, Option.map_some, seen_acknowledge]
  · simp only [hecx, Bool.false_eq_true, false_or, if_false, put]
    rcases Nat.lt_or_ge (left k.readQ).toNat 4 with hroom | hroom
    · obtain ⟨q', hput, hkept⟩ := putQueue_discards hq (by simp) (by simp) henc hroom
      simp only [hput, Option.map_some, seen_acknowledge, hkept.content, hroom, if_true]
    · obtain ⟨q', hput, -, -, hcontent⟩ := putQueue_fits hq (by simp) (by simp) henc hroom
      simp only [hput, Option.map_some, seen_acknowledge, hcontent, Nat.not_lt.mpr hroom, if_false]

/-- The registers of the interrupted program show in the keyboard or in what it sends exactly when
they decide about a function key whose sequence fits. -/
theorem keyboardInterrupt_alike_iff {k : Kbd} (hq : Valid k.readQ) (scan status : BitVec 8)
    (r₁ r₂ : Regs) : Alike scan status r₁ r₂ k ↔ ¬ Swayed scan r₁ r₂ k := by
  unfold Alike Swayed
  by_cases hkey : keyTable.getD scan.toNat .none = .func
  · obtain ⟨bytes, hlen, hseen⟩ := seen_func hkey hq status
    rw [hseen r₁, hseen r₂]
    have hne : content k.readQ ≠ content k.readQ ++ bytes := by
      intro he
      have := congrArg List.length he
      rw [List.length_append] at this
      omega
    rcases Nat.lt_or_ge (left k.readQ).toNat 4 with hroom | hroom
    · simp [hroom]
    · have hno : ¬ (left k.readQ).toNat < 4 := Nat.not_lt.mpr hroom
      simp only [hkey, hroom, hno, true_and, or_false]
      generalize r₁.ecx.slt 4 = a
      generalize r₂.ecx.slt 4 = b
      cases a <;> cases b <;> simp [hne, hne.symm]
  · refine iff_of_true ?_ fun hs => hkey hs.1
    rw [keyboardInterrupt_eq, keyboardInterrupt_eq, call_eax hkey r₂.ebx r₂.ecx r₂.edx]

def idle : Kbd := ⟨0, 2, 0, ⟨0, 0, none, fun _ => 0⟩, []⟩

theorem valid_idle : Valid idle.readQ := ⟨by decide, by decide⟩

theorem keyboardInterrupt_alike_idle :
    Alike 0x1e 0 ⟨1, 2, 3, 4⟩ ⟨5, 6, 7, 8⟩ idle ↔ ¬ Swayed 0x1e ⟨1, 2, 3, 4⟩ ⟨5, 6, 7, 8⟩ idle :=
  keyboardInterrupt_alike_iff valid_idle 0x1e 0 ⟨1, 2, 3, 4⟩ ⟨5, 6, 7, 8⟩

/-- F1 is lost when the interrupted program has zero in `%ecx`. -/
theorem f1_depends : ¬ Alike 0x3b 0 ⟨0, 0, 4, 0⟩ ⟨0, 0, 0, 0⟩ idle := by
  have hkey : keyTable.getD (0x3b : BitVec 8).toNat .none = .func := by decide
  obtain ⟨bytes, hlen, hseen⟩ := seen_func hkey valid_idle 0
  intro h
  rw [Alike, hseen, hseen] at h
  have hcontent : content idle.readQ ++ bytes = content idle.readQ := by
    simpa [idle, left, size] using h
  have hnil : bytes = [] := List.append_right_eq_self.mp hcontent
  rw [hnil] at hlen
  cases hlen

end Keyboard

end Gpos
