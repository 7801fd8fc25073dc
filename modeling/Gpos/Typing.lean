import Gpos.Keyboard
import Gpos.LineEditing

/-! The keys that are pressed against the line that `copy_to_cooked` makes of them. Every keyboard
interrupt ends with `do_tty_interrupt`. -/

namespace Gpos.Keyboard

/-- The queue of the terminal as `kb.S` sees it. Nobody waits for it. -/
def words (q : Tty.Queue) : TtyQueue :=
  ⟨q.head.setWidth 32, q.tail.setWidth 32, none, fun i => q.buf (i.setWidth 10)⟩

/-- The flags of the keyboard. -/
structure Modifiers where
  mode : BitVec 8
  leds : BitVec 8
  e0 : BitVec 8
deriving DecidableEq

def modifiers (k : Kbd) : Modifiers := ⟨k.mode, k.leds, k.e0⟩

/-- A scan code, with what is read from port 0x61 and the registers of the interrupted program. -/
structure KeyCode where
  scan : BitVec 8
  status : BitVec 8
  regs : Regs

def KeyCode.interrupt (a : KeyCode) (m : Modifiers) (q : TtyQueue) : Option Kbd :=
  keyboardInterrupt a.scan a.status a.regs ⟨m.mode, m.leds, m.e0, q, []⟩

/-- What a key sends into an empty queue. -/
def KeyCode.sends (a : KeyCode) (m : Modifiers) : Option (List (BitVec 8) × Modifiers) :=
  (a.interrupt m (words Tty.emptyQueue)).map fun k => (content k.readQ, modifiers k)

/-- What the keys send one after another. -/
def sent : List KeyCode → Modifiers → Option (List (BitVec 8) × Modifiers)
  | [], m => some ([], m)
  | a :: as, m => (a.sends m).bind fun r => (sent as r.2).map fun r' => (r.1 ++ r'.1, r'.2)

/-- The routine puts a sequence into the queue as a whole or not at all, or it does not return. What
else it does is the same for every queue. -/
def Sends (f : Kbd → Option Kbd) (k : Kbd) : Prop :=
  (∀ q, Valid q → f { k with readQ := q } = none) ∨
    ∃ (bytes : List (BitVec 8)) (k' : Kbd), bytes.length ≤ 8 ∧ ∀ q, Valid q →
      ∃ q', f { k with readQ := q } = some { k' with readQ := q' } ∧ Valid q' ∧
        content q' = if bytes.length ≤ (left q).toNat then content q ++ bytes else content q

section

variable {k : Kbd} {f : Kbd → Option Kbd}

theorem Sends.congr {g : Kbd → Option Kbd} (hg : Sends g k)
    (h : ∀ q, f { k with readQ := q } = g { k with readQ := q }) : Sends f k := by
  rcases hg with hg | ⟨bytes, k', hlen, hg⟩
  · exact .inl fun q hq => (h q).trans (hg q hq)
  · refine .inr ⟨bytes, k', hlen, fun q hq => ?_⟩
    rw [h]
    exact hg q hq

theorem sends_none (h : ∀ q, f { k with readQ := q } = none) : Sends f k := .inl fun q _ => h q

theorem sends_nothing {k' : Kbd} (h : ∀ q, f { k with readQ := q } = some { k' with readQ := q }) :
    Sends f k :=
  .inr ⟨[], k', Nat.zero_le _, fun q hq => ⟨q, h q, hq, by simp⟩⟩

theorem sends_change {g : Kbd → Kbd} (h : ∀ q, g { k with readQ := q } = { g k with readQ := q }) :
    Sends (fun k => some (g k)) k :=
  @sends_nothing k _ (g k) fun q => congrArg some (h q)

theorem sends_put {r : Regs} {bytes : List (BitVec 8)} (hne : bytes ≠ []) (hlen : bytes.length ≤ 8)
    (hb : Encodes r.eax r.ebx bytes) : Sends (put r) k := by
  refine .inr ⟨bytes, k, hlen, fun q hq => ?_⟩
  rcases Nat.lt_or_ge (left q).toNat bytes.length with hroom | hroom
  · obtain ⟨q', h, hkept⟩ := putQueue_discards hq hne hlen hb hroom
    refine ⟨q', congrArg (Option.map _) h, ⟨hkept.head ▸ hq.head, hkept.tail ▸ hq.tail⟩, ?_⟩
    rw [if_neg (by omega)]
    exact hkept.content
  · obtain ⟨q', h, hhead, htail, hcontent⟩ := putQueue_fits hq hne hlen hb hroom
    refine ⟨q', congrArg (Option.map _) h, ⟨?_, htail ▸ hq.tail⟩, ?_⟩
    · rw [hhead]
      exact (hq.puts bytes).1.head
    · rw [if_pos hroom]
      exact hcontent

theorem encodes_one {eax : BitVec 32} (h : eax.toNat < 256) :
    Encodes eax 0 [eax.setWidth 8] := by
  refine ⟨?_, by simp⟩
  have hmod : (eax.setWidth 8).toNat = eax.toNat := by
    rw [BitVec.toNat_setWidth]
    omega
  simp [value, hmod]

theorem sends_byte {r : Regs} (heax : r.eax.toNat < 256) (hebx : r.ebx = 0) : Sends (put r) k := by
  have hb : Encodes r.eax r.ebx [r.eax.setWidth 8] := hebx.symm ▸ encodes_one heax
  exact sends_put (List.cons_ne_nil _ _) (Nat.succ_le_succ (Nat.zero_le _)) hb

/-! Every key -/

theorem toNat_setWidth (c : BitVec 8) : (c.setWidth 32).toNat = c.toNat :=
  BitVec.toNat_setWidth_of_le (by decide)

theorem sends_self {r : Regs} (k : Kbd) {c : BitVec 8} (h : r.eax = c.setWidth 32) :
    Sends (doSelf r) k := by
  have heax := eax_setAl h ((selfMap k).getD r.eax.toNat 0)
  by_cases hzero : (r.setAl ((selfMap k).getD r.eax.toNat 0)).al = 0
  · exact sends_nothing fun q => if_pos hzero
  · let r' := (r.setAl ((selfMap k).getD r.eax.toNat 0)).setAl
      (shiftSelf k.mode (r.setAl ((selfMap k).getD r.eax.toNat 0)).al)
    have hbyte : (r'.eax &&& 0xff).toNat < 256 := by
      rw [BitVec.toNat_and]
      exact lt_of_le_of_lt Nat.and_le_right (by decide)
    exact (sends_byte (r := { r' with eax := r'.eax &&& 0xff, ebx := 0 }) hbyte rfl).congr
      fun q => if_neg hzero

theorem sends_minus {r : Regs} (k : Kbd) {c : BitVec 8} (h : r.eax = c.setWidth 32) :
    Sends (minus r) k := by
  by_cases h1 : k.e0 ≠ 1
  · exact (sends_self k h).congr fun q => if_pos h1
  · exact (sends_byte (r := { r with eax := 47, ebx := 0 }) (by decide : 47 < 256) rfl).congr
      fun q => if_neg h1

/-- The sequence of a key of the keypad starts with an escape and a bracket; a tilde follows a
digit. -/
def curBytes (n : Nat) : List (BitVec 8) :=
  [0x1b, 0x5b, curTable.getD n 0] ++ if curTable.getD n 0 ≤ 57 then [0x7e] else []

def curWord (n : Nat) : BitVec 32 :=
  (if curTable.getD n 0 ≤ 57 then 0x7e005b1b else 0x5b1b) + (curTable.getD n 0).setWidth 32 <<< 16

theorem encodes_cur : ∀ n, n < 13 → Encodes (curWord n) 0 (curBytes n) := by
  intro n hn
  refine ⟨?_, ?_⟩
  · interval_cases n <;> decide
  · interval_cases n <;> decide

theorem cur_word : ∀ n, n < 13 → ((if (Regs.setAl (curTable.getD (BitVec.ofNat 32 n).toNat 0)
      ⟨BitVec.ofNat 32 n, 0, 0, 0⟩).al ≤ 57
    then Regs.setAh 126 (Regs.setAl (curTable.getD (BitVec.ofNat 32 n).toNat 0)
      ⟨BitVec.ofNat 32 n, 0, 0, 0⟩)
    else Regs.setAl (curTable.getD (BitVec.ofNat 32 n).toNat 0)
      ⟨BitVec.ofNat 32 n, 0, 0, 0⟩).eax <<< 16 &&& 0xffff0000 |||
        (0x5b1b : BitVec 16).setWidth 32 : BitVec 32) = curWord n := by
  intro n hn
  interval_cases n <;> decide

theorem cur_eq {n : Nat} (hn : n < 13) {r : Regs} (h : r.eax = BitVec.ofNat 32 n) (k : Kbd) :
    cur r k = put ⟨curWord n, 0, 0, 0⟩ k := by
  rw [cur_eax 0 0 0, h, ← cur_word n hn]
  rfl

theorem sends_cursor {r : Regs} (k : Kbd) {c : BitVec 8} (h : r.eax = c.setWidth 32) :
    Sends (cursor r) k := by
  by_cases hlow : r.al < 0x47
  · exact sends_nothing fun q => if_pos hlow
  have heax := eax_setAl h (r.al - 0x47)
  by_cases hhigh : 12 < (r.setAl (r.al - 0x47)).al
  · refine @sends_nothing k _ k fun q => ?_
    simp only [cursor, if_neg hlow, if_pos hhigh]
  by_cases hboot : (r.setAl (r.al - 0x47)).al = 12 ∧ k.mode &&& 0x0c ≠ 0 ∧ k.mode &&& 0x30 ≠ 0
  · exact sends_none fun q => by simp only [cursor, if_neg hlow, if_neg hhigh, if_pos hboot]
  have hn : (r.al - 0x47).toNat < 13 := by
    rw [al_setAl] at hhigh
    have hle : (r.al - 0x47).toNat ≤ 12 := BitVec.not_lt.mp hhigh
    omega
  by_cases hcur : k.e0 = 1 ∨ k.leds &&& 2 = 0 ∨ k.mode &&& 3 ≠ 0
  · have hlen : (curBytes (r.al - 0x47).toNat).length ≤ 8 := by
      rw [curBytes]
      split <;> exact of_decide_eq_true rfl
    have hput : Sends (put ⟨curWord (r.al - 0x47).toNat, 0, 0, 0⟩) k :=
      sends_put (List.cons_ne_nil _ _) hlen (encodes_cur _ hn)
    have hword : (r.setAl (r.al - 0x47)).eax = BitVec.ofNat 32 (r.al - 0x47).toNat := by
      rw [heax]
      exact BitVec.eq_of_toNat_eq (by simp)
    refine hput.congr fun q => ?_
    rw [← cur_eq hn hword]
    simp only [cursor, if_neg hlow, if_neg hhigh, if_neg hboot, if_pos hcur]
  · let v := numTable.getD (r.setAl (r.al - 0x47)).eax.toNat 0
    have hput : Sends (put ⟨v.setWidth 32, 0, r.ecx, r.edx⟩) k :=
      sends_byte (toNat_setWidth v ▸ v.isLt) rfl
    refine hput.congr fun q => ?_
    have hregs : Regs.setAl v { r.setAl (r.al - 0x47) with ebx := 0 } =
        ⟨v.setWidth 32, 0, r.ecx, r.edx⟩ := by
      rw [← eax_setAl (r := { r.setAl (r.al - 0x47) with ebx := 0 }) heax v]
      rfl
    simp only [cursor, if_neg hlow, if_neg hhigh, if_neg hboot, if_neg hcur]
    rw [← hregs]

theorem sends_func {r : Regs} (k : Kbd) {scan : BitVec 8}
    (hscan : keyTable.getD scan.toNat .none = .func) (h : r.eax = scan.setWidth 32) :
    Sends (func r) k := by
  obtain ⟨n, hn, hfunc⟩ := func_eq hscan
  by_cases hecx : r.ecx.slt 4
  · exact sends_nothing fun q => (hfunc r _ h).trans (if_pos hecx)
  · have hput : Sends (put ⟨funcTable.getD n 0, 0, r.ecx, r.edx⟩) k :=
      sends_put (List.cons_ne_nil _ _) (of_decide_eq_true rfl) (encodes_func n hn)
    exact hput.congr fun q => (hfunc r _ h).trans (if_neg hecx)

theorem sends_call (k : Kbd) (scan : BitVec 8) (b c d : BitVec 32) :
    Sends (call (keyTable.getD scan.toNat .none) ⟨scan.setWidth 32, b, c, d⟩) k := by
  cases hkey : keyTable.getD scan.toNat .none with
  | doSelf => exact sends_self k rfl
  | cursor => exact sends_cursor k rfl
  | func => exact sends_func k hkey rfl
  | minus => exact sends_minus k rfl
  | caps =>
    refine @sends_change k caps fun q => ?_
    unfold caps
    split <;> rfl
  | none => exact @sends_change k id fun q => rfl
  | _ => exact sends_change fun q => rfl

theorem sends_interrupt (k : Kbd) (a : KeyCode) :
    Sends (keyboardInterrupt a.scan a.status a.regs) k := by
  have heq := keyboardInterrupt_eq a.scan a.status a.regs
  by_cases h0 : a.scan = 0xe0
  · have hset : Sends (fun k => some (acknowledge a.status { k with e0 := 1 })) k :=
      sends_change fun q => rfl
    exact hset.congr fun q => (heq _).trans (if_pos h0)
  by_cases h1 : a.scan = 0xe1
  · have hset : Sends (fun k => some (acknowledge a.status { k with e0 := 2 })) k :=
      sends_change fun q => rfl
    exact hset.congr fun q => (heq _).trans ((if_neg h0).trans (if_pos h1))
  have hcall : ∀ k, keyboardInterrupt a.scan a.status a.regs k =
      (call (keyTable.getD a.scan.toNat .none)
        ⟨a.scan.setWidth 32, a.regs.ebx, a.regs.ecx, a.regs.edx⟩ k).map fun k =>
        acknowledge a.status (clearE0 k) :=
    fun k => (heq k).trans ((if_neg h0).trans (if_neg h1))
  rcases sends_call k a.scan a.regs.ebx a.regs.ecx a.regs.edx with
    hnone | ⟨bytes, k', hlen, hsome⟩
  · refine .inl fun q hq => ?_
    rw [hcall, hnone q hq]
    rfl
  · refine .inr ⟨bytes, acknowledge a.status (clearE0 k'), hlen, fun q hq => ?_⟩
    obtain ⟨q', hq', hvalid, hcontent⟩ := hsome q hq
    refine ⟨q', ?_, hvalid, hcontent⟩
    rw [hcall, hq']
    rfl

end

/-! One interrupt -/

theorem ring_words (q : Tty.Queue) : ring (words q) = q := by
  have hself : ∀ i : BitVec 10, (i.setWidth 32).setWidth 10 = i := fun i => by simp
  simp only [ring, words, hself]

theorem setWidth_lt (i : BitVec 10) : i.setWidth 32 < size := by
  rw [BitVec.lt_def, BitVec.toNat_setWidth_of_le (by decide)]
  exact i.isLt

theorem valid_words (q : Tty.Queue) : Valid (words q) := ⟨setWidth_lt q.head, setWidth_lt q.tail⟩

theorem interrupt_sends (a : KeyCode) (m : Modifiers) :
    (a.sends m = none ∧ ∀ q, Valid q → a.interrupt m q = none) ∨
      ∃ bytes m', a.sends m = some (bytes, m') ∧ bytes.length ≤ 8 ∧ ∀ q, Valid q →
        ∃ k, a.interrupt m q = some k ∧ modifiers k = m' ∧ content k.readQ =
          if bytes.length ≤ (left q).toNat then content q ++ bytes else content q := by
  have hempty := valid_words Tty.emptyQueue
  rcases sends_interrupt ⟨m.mode, m.leds, m.e0, words Tty.emptyQueue, []⟩ a with
    hnone | ⟨bytes, k, hlen, hsome⟩
  · exact .inl ⟨congrArg (Option.map _) (hnone _ hempty), hnone⟩
  · refine .inr ⟨bytes, modifiers k, ?_, hlen, fun q hq => ?_⟩
    · obtain ⟨q', hq', -, hcontent⟩ := hsome _ hempty
      have hleft : (left (words Tty.emptyQueue)).toNat = 1023 := by decide
      rw [hleft, if_pos (by omega)] at hcontent
      refine (congrArg (Option.map _) hq').trans ?_
      rw [Option.map_some, hcontent]
      rfl
    · obtain ⟨q', hq', -, hcontent⟩ := hsome q hq
      exact ⟨_, hq', rfl, hcontent⟩

structure Typing (E : Type) where
  modifiers : Modifiers
  dev : Tty.Dev E

section

variable {E : Type} {below : BitVec 8 → Bool} {write : Program (Tty.Dev E) Unit}

/-- `keyboard_interrupt` with the call of `do_tty_interrupt`. -/
def strike (below : BitVec 8 → Bool) (write : Program (Tty.Dev E) Unit) (a : KeyCode)
    (s : Typing E) : Option (Typing E) :=
  (a.interrupt s.modifiers (words s.dev.tty.readQ)).bind fun k =>
    (Tty.feed below write none
      { s.dev with tty := { s.dev.tty with readQ := ring k.readQ } }).map fun d => ⟨modifiers k, d⟩

/-- Nothing waits for `copy_to_cooked`. -/
def Typing.Done (s : Typing E) : Prop := s.dev.tty.readQ.Empty ∨ s.dev.tty.secondary.Full

def Typing.line (s : Typing E) : List (BitVec 8) := s.dev.tty.secondary.content

theorem edit_line {s : Typing E} (hs : s.Done) (t : Tty.Termios) :
    Tty.edit below t s.line s.dev.tty.readQ.content = s.line := by
  rcases hs with hempty | hfull
  · rw [(RingBuffer.content_eq_nil _).mpr hempty]
    rfl
  · refine Tty.edit_full ?_ _
    rw [Typing.line, RingBuffer.length_content]
    exact (RingBuffer.full_iff _).mp hfull

/-- A sequence that does not fit finds the line full. -/
theorem edit_sent {s : Typing E} (hs : s.Done) {bytes : List (BitVec 8)} (hlen : bytes.length ≤ 8)
    (t : Tty.Termios) :
      Tty.edit below t s.line (if bytes.length ≤ (left (words s.dev.tty.readQ)).toNat
        then s.dev.tty.readQ.content ++ bytes else s.dev.tty.readQ.content) =
      Tty.edit below t s.line bytes := by
  rcases hs with hempty | hfull
  · have hleft := toNat_left (words s.dev.tty.readQ)
    rw [ring_words, (RingBuffer.size_eq_zero _).mpr hempty] at hleft
    rw [if_pos (by omega), (RingBuffer.content_eq_nil _).mpr hempty, List.nil_append]
  · have hroom : s.line.length + 1 = 2 ^ 10 := by
      rw [Typing.line, RingBuffer.length_content]
      exact (RingBuffer.full_iff _).mp hfull
    rw [Tty.edit_full hroom, Tty.edit_full hroom]

theorem strike_line (h : Tty.Drains write) (a : KeyCode) {s : Typing E} (hs : s.Done) :
    (a.sends s.modifiers = none ∧ strike below write a s = none) ∨
      ∃ bytes m' s', a.sends s.modifiers = some (bytes, m') ∧ strike below write a s = some s' ∧
        s'.Done ∧ s'.modifiers = m' ∧ s'.dev.tty.termios = s.dev.tty.termios ∧
          s'.line = Tty.edit below s.dev.tty.termios s.line bytes := by
  have hvalid := valid_words s.dev.tty.readQ
  rcases interrupt_sends a s.modifiers with ⟨hnone, hall⟩ | ⟨bytes, m', hsome, hlen, hall⟩
  · refine .inl ⟨hnone, ?_⟩
    rw [strike, hall _ hvalid]
    rfl
  · obtain ⟨k, hk, rfl, hcontent⟩ := hall _ hvalid
    let d : Tty.Dev E := { s.dev with tty := { s.dev.tty with readQ := ring k.readQ } }
    obtain ⟨d', hd', hterm, hdone, hedit⟩ :=
      @Tty.copyToCooked_edit E below write h _ d (Nat.lt_succ_self _)
    have hfeed : Tty.feed below write none d = some d' := by rw [Tty.feed, hd', Option.map_some]
    refine .inr ⟨bytes, _, ⟨modifiers k, d'⟩, hsome, ?_, hdone, rfl, hterm, ?_⟩
    · rw [strike, hk, Option.bind_some, hfeed, Option.map_some]
    · rw [← @edit_line E below ⟨modifiers k, d'⟩ hdone s.dev.tty.termios]
      refine hedit.trans ?_
      show Tty.edit below s.dev.tty.termios s.line (content k.readQ) = _
      rw [hcontent, content, ring_words]
      exact edit_sent hs hlen _

/-- The line that the keys make, one interrupt after another, is the editor's of all that they send.
The run stops at the keys that reboot. -/
theorem strikes_edit (h : Tty.Drains write) (keys : List KeyCode) {s : Typing E} (hs : s.Done) :
    (Run.exec (strike below write) keys s).map (fun s' => (s'.line, s'.modifiers)) =
      (sent keys s.modifiers).map fun r =>
        (Tty.edit below s.dev.tty.termios s.line r.1, r.2) := by
  induction keys generalizing s with
  | nil => rfl
  | cons a keys ih =>
    rcases strike_line h a hs with
      ⟨hnone, hstop⟩ | ⟨bytes, m', s', hsome, hstep, hs', rfl, hterm, hline⟩
    · rw [sent, hnone, Run.exec, hstop]
      rfl
    · rw [Run.exec_cons hstep, ih hs', sent, hsome, Option.bind_some, Option.map_map, hterm, hline]
      refine congrArg (Option.map · _) (funext fun r => ?_)
      rw [Function.comp_apply, Tty.edit_append]

end

section

variable (g : Console.Geometry) (below : BitVec 8 → Bool)

/-- The terminal as `do_tty_interrupt` finds it. -/
def Typing.received {E : Type} (s : Typing E) (k : Kbd) : Tty.Dev E :=
  { s.dev with tty := { s.dev.tty with readQ := ring k.readQ } }

/-- No echo of these keys ends ESC Z, to which `con_write` would answer. -/
def Unasked : List KeyCode → Typing Tty.Screen → Prop
  | [], _ => True
  | a :: keys, s => ∀ k, a.interrupt s.modifiers (words s.dev.tty.readQ) = some k →
      ∃ d, Tty.feed below (Tty.conWrite g below 1) none (s.received k) = some d ∧
        Unasked keys ⟨modifiers k, d⟩

instance Unasked.decidable : ∀ keys s, Decidable (Unasked g below keys s)
  | [], _ => isTrue trivial
  | a :: keys, s =>
    match hk : a.interrupt s.modifiers (words s.dev.tty.readQ) with
    | none => isTrue fun _ h => nomatch hk.symm.trans h
    | some k =>
      match hd : Tty.feed below (Tty.conWrite g below 1) none (s.received k) with
      | none => isFalse fun h => by
        obtain ⟨_, he, _⟩ := h k hk
        exact nomatch hd.symm.trans he
      | some d =>
        have := Unasked.decidable keys ⟨modifiers k, d⟩
        decidable_of_iff (Unasked g below keys ⟨modifiers k, d⟩) <| by
          constructor
          · intro h k' hk'
            cases hk.symm.trans hk'
            exact ⟨d, hd, h⟩
          · intro h
            obtain ⟨_, he, hrest⟩ := h k hk
            cases hd.symm.trans he
            exact hrest

variable {g below}

theorem strike_of_feed {E : Type} {write : Program (Tty.Dev E) Unit} {a : KeyCode} {s : Typing E}
    {k : Kbd} {d : Tty.Dev E}
    (hk : a.interrupt s.modifiers (words s.dev.tty.readQ) = some k)
    (hd : Tty.feed below write none (s.received k) = some d) :
    strike below write a s = some ⟨modifiers k, d⟩ := by
  unfold Typing.received at hd
  rw [strike, hk, Option.bind_some, hd, Option.map_some]

theorem exec_unasked (n : Nat) {keys : List KeyCode} {s : Typing Tty.Screen}
    (hu : Unasked g below keys s) :
    Run.exec (strike below (Tty.conWrite g below (n + 1))) keys s =
      Run.exec (strike below (Tty.orDrop (Tty.conWrite g below 1))) keys s := by
  induction keys generalizing s with
  | nil => rw [Run.exec, Run.exec]
  | cons a keys ih =>
    cases hk : a.interrupt s.modifiers (words s.dev.tty.readQ) with
    | none =>
      have hstop : ∀ write : Program (Tty.Dev Tty.Screen) Unit,
          strike below write a s = none := fun write => by
        rw [strike, hk, Option.bind_none]
      rw [Run.exec, hstop, Run.exec, hstop, Option.bind_none, Option.bind_none]
    | some k =>
      obtain ⟨d, hd, hrest⟩ := hu k hk
      have hn := Tty.feed_mono (Tty.within_unasked g below n) none (s.received k) d hd
      have hdrop := Tty.feed_mono (Tty.within_orDrop (Tty.conWrite g below 1)) none
        (s.received k) d hd
      rw [Run.exec_cons (strike_of_feed hk hn), Run.exec_cons (strike_of_feed hk hdrop), ih hrest]

/-- As long as the echo does not ask the terminal, it leaves the line to the editor. -/
theorem strikes_line (n : Nat) (keys : List KeyCode) {s : Typing Tty.Screen} (hs : s.Done)
    (hu : Unasked g below keys s) :
    (Run.exec (strike below (Tty.conWrite g below (n + 1))) keys s).map
        (fun s' => (s'.line, s'.modifiers)) =
      (sent keys s.modifiers).map fun r =>
        (Tty.edit below s.dev.tty.termios s.line r.1, r.2) := by
  rw [exec_unasked n hu]
  exact strikes_edit (Tty.drains_unasked g below) keys hs

/-- The shift key and `a`, from the console as it starts. -/
theorem strikes_line_console :
    (Run.exec (strike (fun _ => false) (Tty.conWrite Console.vga (fun _ => false) 2))
      [⟨0x2a, 0, ⟨0, 0, 0, 0⟩⟩, ⟨0x1e, 0, ⟨0, 0, 0, 0⟩⟩]
      ⟨⟨0, 2, 0⟩, Tty.typing Tty.console⟩).map
        (fun s' => (s'.line, s'.modifiers)) = some ([65], ⟨1, 2, 0⟩) := by
  exact (strikes_line (g := Console.vga) (s := ⟨⟨0, 2, 0⟩, Tty.typing Tty.console⟩) 1 _
    (Or.inl rfl) (by decide +kernel)).trans (by decide +kernel)

end

end Gpos.Keyboard
