import Gpos.Run
import Gpos.Tty

/-! `tty_write` by any number of tasks. A task runs from one call of
`schedule` to the next, so one step is the rest of a sleep and a round of the
outer loop. -/

namespace Gpos.Tty

open RingBuffer

/-- A call of `tty_write`. The characters that it has put on the queue are
recorded, and `owes` says that it has put the CR of a pair, but not the NL. -/
structure Call where
  buf : List (BitVec 8)
  b : Nat
  nr : Nat
  put : List (BitVec 8)
  owes : Bool
  asleep : Bool

namespace Call

def start (buf : List (BitVec 8)) : Call := ⟨buf, 0, buf.length, [], false, false⟩

def rest (c : Call) : List (BitVec 8) := c.buf.drop c.b

def result (c : Call) : Option Nat := if c.nr = 0 then some c.b else none

end Call

/-- What the inner loop works on; `crFlag` is the static variable. -/
structure Chunk where
  crFlag : Bool
  queue : Queue
  call : Call

section

variable (below : BitVec 8 → Bool) (t : Termios)

def Chunk.putch (c : BitVec 8) (crFlag : Bool) (n : Nat) (s : Chunk) : Chunk where
  crFlag := crFlag
  queue := s.queue.put c
  call := { s.call with put := s.call.put ++ [c], b := s.call.b + n, nr := s.call.nr - n }

def mapOutput (c : BitVec 8) : BitVec 8 :=
  if c = 13 ∧ t.oCrNl then 10 else if c = 10 ∧ t.oNlRet then 13 else c

def writeChar (s : Chunk) : Chunk :=
  let c := s.call.buf.getD s.call.b 0
  if t.oPost then
    if mapOutput t c = 10 ∧ s.crFlag = false ∧ t.oNlCr then s.putch 13 true 0
    else s.putch (if t.oLcUc then toUpper below (mapOutput t c) else mapOutput t c) false 1
  else s.putch c false 1

/-- The inner loop; after 1023 rounds the queue is full. -/
def fill : Nat → Chunk → Chunk
  | 0, s => s
  | rounds + 1, s => if s.call.nr = 0 ∨ s.queue.Full then s else fill rounds (writeChar below t s)

end

/-- `E` is what `tty->write` works on besides the queue. -/
structure St (T E : Type) where
  crFlag : Bool
  writeQ : Queue
  rest : E
  call : T → Call

section

variable {T E : Type} [DecidableEq T] (below : BitVec 8 → Bool) (t : Termios)
    (write : Queue × E → Queue × E)

/-- `sleep_if_full`, which wakes up when there is room for 128 characters. -/
def awake (q : Queue) (c : Call) : Bool := if c.asleep then 128 ≤ q.left.toNat else ¬ q.Full

/-- The call of a task goes on. -/
def step (i : T) (s : St T E) : Option (St T E) :=
  let c := s.call i
  if c.nr = 0 then none
  else if awake s.writeQ c then
    let r := fill below t 1024 ⟨s.crFlag, s.writeQ, c⟩
    let w := write (r.queue, s.rest)
    let c := { r.call with asleep := false, owes := r.crFlag && decide (r.call.nr ≠ 0) }
    some ⟨r.crFlag, w.1, w.2, Function.update s.call i c⟩
  else if c.asleep then none
  else some { s with call := Function.update s.call i { c with asleep := true } }

end

/-- One CR before every NL. -/
def expand (l : List (BitVec 8)) : List (BitVec 8) :=
  l.flatMap fun c => if c = 10 then [13, 10] else [c]

theorem expand_cons (c : BitVec 8) (l : List (BitVec 8)) :
    expand (c :: l) = (if c = 10 then [13, 10] else [c]) ++ expand l :=
  List.flatMap_cons

/-- The call has written a first part of what it has to, and in the middle of a pair it owes the NL. -/
structure Sound (c : Call) (owes : Bool) : Prop where
  count : c.b + c.nr = c.buf.length
  put : c.put ++ (if owes then (expand c.rest).tail else expand c.rest) = expand c.buf
  pair : owes = true → c.nr ≠ 0 ∧ c.buf.getD c.b 0 = 10

/-- `OPOST|ONLCR` -/
def Default (t : Termios) : Prop := t.cOflag = 5

section

variable {below : BitVec 8 → Bool} {t : Termios}

theorem rest_eq {c : Call} (h : c.b + c.nr = c.buf.length) (hn : c.nr ≠ 0) :
    c.rest = c.buf.getD c.b 0 :: c.buf.drop (c.b + 1) := by
  have hlt : c.b < c.buf.length := by omega
  rw [Call.rest, List.drop_eq_getElem_cons hlt, List.getD_eq_getElem?_getD,
    List.getElem?_eq_getElem hlt, Option.getD_some]

theorem writeChar_default (ht : Default t) (s : Chunk) : writeChar below t s =
    if s.call.buf.getD s.call.b 0 = 10 ∧ s.crFlag = false then s.putch 13 true 0
    else s.putch (s.call.buf.getD s.call.b 0) false 1 := by
  have hpost : t.oPost = true := by rw [Termios.oPost, ht]; decide
  have hnlcr : t.oNlCr = true := by rw [Termios.oNlCr, ht]; decide
  have hcrnl : t.oCrNl = false := by rw [Termios.oCrNl, ht]; decide
  have hnlret : t.oNlRet = false := by rw [Termios.oNlRet, ht]; decide
  have hlcuc : t.oLcUc = false := by rw [Termios.oLcUc, ht]; decide
  have hmap : ∀ c, mapOutput t c = c := fun c => by simp [mapOutput, hcrnl, hnlret]
  simp [writeChar, hpost, hnlcr, hlcuc, hmap]

theorem sound_writeChar (ht : Default t) {s : Chunk} (h : Sound s.call s.crFlag)
    (hn : s.call.nr ≠ 0) : Sound (writeChar below t s).call (writeChar below t s).crFlag := by
  have hrest := rest_eq h.count hn
  have hput := h.put
  rw [writeChar_default ht]
  generalize hc : s.call.buf.getD s.call.b 0 = c at hrest
  rw [hrest, expand_cons] at hput
  split
  next hnl =>
    obtain ⟨rfl, hflag⟩ := hnl
    rw [hflag] at hput
    refine ⟨h.count, ?_, fun _ => ⟨hn, hc⟩⟩
    show (s.call.put ++ [13]) ++ (expand s.call.rest).tail = expand s.call.buf
    rw [hrest, expand_cons]
    simpa using hput
  next hnl =>
    refine ⟨?_, ?_, nofun⟩
    · show s.call.b + 1 + (s.call.nr - 1) = s.call.buf.length
      have := h.count
      omega
    · show (s.call.put ++ [c]) ++ expand (s.call.buf.drop (s.call.b + 1)) = expand s.call.buf
      by_cases hflag : s.crFlag = true
      · have h10 : c = 10 := hc ▸ (h.pair hflag).2
        rw [hflag, h10] at hput
        rw [h10]
        simpa using hput
      · have h10 : c ≠ 10 := fun he => hnl ⟨he, Bool.eq_false_iff.mpr hflag⟩
        rw [if_neg hflag, if_neg h10] at hput
        simpa using hput

theorem sound_fill (ht : Default t) (rounds : Nat) (s : Chunk) (h : Sound s.call s.crFlag) :
    Sound (fill below t rounds s).call (fill below t rounds s).crFlag := by
  induction rounds generalizing s with
  | zero => exact h
  | succ rounds ih =>
    unfold fill
    split
    next => exact h
    next hgo => exact ih _ (sound_writeChar ht h (not_or.mp hgo).1)

theorem writeChar_cases (s : Chunk) :
    (s.crFlag = false ∧ writeChar below t s = s.putch 13 true 0) ∨
      ∃ c, writeChar below t s = s.putch c false 1 := by
  unfold writeChar
  dsimp only
  split
  · split
    next h => exact Or.inl ⟨h.2.1, rfl⟩
    next => exact Or.inr ⟨_, rfl⟩
  · exact Or.inr ⟨_, rfl⟩

theorem fill_nr_le (rounds : Nat) (s : Chunk) : (fill below t rounds s).call.nr ≤ s.call.nr := by
  induction rounds generalizing s with
  | zero => exact le_refl _
  | succ rounds ih =>
    unfold fill
    split
    next => exact le_refl _
    next =>
      refine (ih _).trans ?_
      rcases @writeChar_cases below t s with ⟨-, h⟩ | ⟨c, h⟩ <;> rw [h] <;> exact Nat.sub_le _ _

theorem fill_buf (rounds : Nat) (s : Chunk) : (fill below t rounds s).call.buf = s.call.buf := by
  induction rounds generalizing s with
  | zero => rfl
  | succ rounds ih =>
    unfold fill
    split
    next => rfl
    next =>
      refine (ih _).trans ?_
      rcases @writeChar_cases below t s with ⟨-, h⟩ | ⟨c, h⟩ <;> rw [h] <;> rfl

theorem not_full_of_size {q : Queue} (h : q.size < 1023) : ¬ q.Full := by
  rw [full_iff]
  omega

theorem fill_shortens (rounds : Nat) {s : Chunk} (hq : s.queue.Empty) (hn : s.call.nr ≠ 0) :
    (fill below t (rounds + 2) s).call.nr < s.call.nr := by
  have hsize : s.queue.size = 0 := (size_eq_zero _).mpr hq
  have hfull : ¬ s.queue.Full := not_full_of_size (by omega)
  rw [fill, if_neg (not_or.mpr ⟨hn, hfull⟩)]
  rcases @writeChar_cases below t s with ⟨-, h⟩ | ⟨c, h⟩
  · have hnext : ¬ (s.queue.put 13).Full :=
      not_full_of_size (by rw [size_put_of_not _ hfull]; omega)
    have hgo : ¬ ((s.putch 13 true 0).call.nr = 0 ∨ (s.putch 13 true 0).queue.Full) :=
      not_or.mpr ⟨hn, hnext⟩
    rw [h, fill, if_neg hgo]
    rcases @writeChar_cases below t (s.putch 13 true 0) with ⟨hf, -⟩ | ⟨c, h'⟩
    · cases hf
    · rw [h']
      refine lt_of_le_of_lt (fill_nr_le rounds _) ?_
      show s.call.nr - 0 - 1 < s.call.nr
      omega
  · rw [h]
    refine lt_of_le_of_lt (fill_nr_le _ _) ?_
    show s.call.nr - 1 < s.call.nr
    omega

end

section

variable {T E : Type}

/-- No other call waits between the CR and the NL of a pair. -/
def Alone (s : St T E) (i : T) : Prop := ∀ j, j ≠ i → (s.call j).owes = false

/-- The condition on a step, which is empty for a call that goes to sleep. -/
def Enters (s : St T E) (i : T) : Prop := awake s.writeQ (s.call i) = true → Alone s i

instance [Fintype T] [DecidableEq T] (s : St T E) (i : T) : Decidable (Enters s i) :=
  inferInstanceAs (Decidable (_ → ∀ j, j ≠ i → (s.call j).owes = false))

structure Inv (s : St T E) : Prop where
  sound : ∀ i, Sound (s.call i) (s.call i).owes
  flag : ∀ i, Alone s i → s.crFlag = (s.call i).owes

/-- Every call has put a first part of its characters on the queue, and all of them when it returns. -/
def Safe (s : St T E) : Prop :=
  ∀ i, (s.call i).put <+: expand (s.call i).buf ∧
    ∀ n, (s.call i).result = some n → (s.call i).put = expand (s.call i).buf ∧
      n = (s.call i).buf.length

theorem Sound.congr {c c' : Call} {owes : Bool} (h : Sound c owes) (hbuf : c'.buf = c.buf)
    (hb : c'.b = c.b) (hn : c'.nr = c.nr) (hput : c'.put = c.put) : Sound c' owes := by
  refine ⟨by rw [hb, hn, hbuf]; exact h.count, ?_, by rw [hn, hbuf, hb]; exact h.pair⟩
  rw [hput, Call.rest, hbuf, hb]
  exact h.put

theorem Inv.safe {s : St T E} (h : Inv s) : Safe s := by
  intro i
  have hi := h.sound i
  refine ⟨⟨_, hi.put⟩, fun n hn => ?_⟩
  rw [Call.result] at hn
  split at hn
  next h0 =>
    cases hn
    have howes : (s.call i).owes = false := by
      by_contra ho
      exact (hi.pair (Bool.not_eq_false _ ▸ ho)).1 h0
    have hb : (s.call i).b = (s.call i).buf.length := by
      have := hi.count
      omega
    have hput := hi.put
    rw [howes, Call.rest, hb, List.drop_length] at hput
    exact ⟨by simpa [expand] using hput, hb⟩
  next => cases hn

def atStart (q : Queue) (e : E) (buf : T → List (BitVec 8)) : St T E :=
  ⟨false, q, e, fun i => .start (buf i)⟩

theorem inv_atStart (q : Queue) (e : E) (buf : T → List (BitVec 8)) : Inv (atStart q e buf) :=
  ⟨fun _ => ⟨Nat.zero_add _, rfl, nofun⟩, fun _ _ => rfl⟩

variable [DecidableEq T] {below : BitVec 8 → Bool} {t : Termios} {write : Queue × E → Queue × E}

theorem inv_write {s : St T E} {i : T} (h : Inv s) (hi : Alone s i) {flag : Bool} {q : Queue}
    {e : E} {c : Call} (hc : Sound c flag) (howes : c.owes = flag) :
    Inv ⟨flag, q, e, Function.update s.call i c⟩ := by
  refine ⟨fun j => ?_, fun j hj => ?_⟩
  · by_cases hji : j = i
    · subst hji
      simp only [Function.update_self]
      rw [howes]
      exact hc
    · simp only [Function.update_of_ne hji]
      exact h.sound j
  · by_cases hji : j = i
    · subst hji
      simp only [Function.update_self]
      exact howes.symm
    · have hoff := hj i (Ne.symm hji)
      simp only [Function.update_self] at hoff
      simp only [Function.update_of_ne hji]
      rw [← howes, hoff, hi j hji]

theorem inv_sleep {s : St T E} {i : T} (h : Inv s) :
    Inv { s with call := Function.update s.call i { s.call i with asleep := true } } := by
  have howes : ∀ j, (Function.update s.call i { s.call i with asleep := true } j).owes =
    (s.call j).owes := by
    intro j
    by_cases hji : j = i
    · subst hji
      rw [Function.update_self]
    · rw [Function.update_of_ne hji]
  refine ⟨fun j => ?_, fun j hj => ?_⟩
  · show Sound (Function.update s.call i { s.call i with asleep := true } j) _
    rw [howes]
    by_cases hji : j = i
    · subst hji
      rw [Function.update_self]
      exact (h.sound j).congr rfl rfl rfl rfl
    · rw [Function.update_of_ne hji]
      exact h.sound j
  · rw [howes]
    exact h.flag j fun k hk => (howes k).symm.trans (hj k hk)

theorem inv_step (ht : Default t) {s s' : St T E} {i : T} (h : Inv s)
    (hs : step below t write i s = some s') (hi : Enters s i) : Inv s' := by
  unfold step at hs
  dsimp only at hs
  split at hs
  · cases hs
  · split at hs
    next hawake =>
      have halone := hi hawake
      have hsound := h.sound i
      rw [← h.flag i halone] at hsound
      have hr := @sound_fill below t ht 1024 ⟨s.crFlag, s.writeQ, s.call i⟩ hsound
      generalize fill below t 1024 ⟨s.crFlag, s.writeQ, s.call i⟩ = r at hs hr
      cases hs
      refine inv_write h halone (hr.congr rfl rfl rfl rfl) ?_
      cases hflag : r.crFlag with
      | false => simp
      | true => simp [(hr.pair hflag).1]
    next =>
      split at hs
      · cases hs
      · cases hs
        exact inv_sleep h

theorem step_of_awake {s : St T E} {i : T} (hn : (s.call i).nr ≠ 0)
    (ha : awake s.writeQ (s.call i) = true) :
    ∃ s' r, r = fill below t 1024 ⟨s.crFlag, s.writeQ, s.call i⟩ ∧
      step below t write i s = some s' ∧ s'.crFlag = r.crFlag ∧
      (s'.writeQ, s'.rest) = write (r.queue, s.rest) ∧
        s'.call =
          Function.update s.call i { r.call with
            asleep := false, owes := r.crFlag && decide (r.call.nr ≠ 0) } := by
  obtain ⟨r, hr⟩ : ∃ r, r = fill below t 1024 ⟨s.crFlag, s.writeQ, s.call i⟩ := ⟨_, rfl⟩
  simp only [step, if_neg hn, if_pos ha, ← hr]
  exact ⟨_, r, rfl, rfl, rfl, rfl, rfl⟩

theorem awake_of_empty {q : Queue} (hq : q.Empty) (c : Call) : awake q c = true := by
  have hleft : q.left.toNat = 1023 := by
    have he : q.head = q.tail := hq
    rw [left, he, sub_self]
    rfl
  have hfull : ¬ q.Full := not_full_of_size (by rw [(size_eq_zero _).mpr hq]; decide)
  unfold awake
  split
  · simp [hleft]
  · simp [hfull]

theorem step_shortens {s : St T E} {i : T} (hq : s.writeQ.Empty) (hn : (s.call i).nr ≠ 0) :
    ∃ s', step below t write i s = some s' ∧ (s'.call i).nr < (s.call i).nr := by
  obtain ⟨s', r, rfl, hs, -, -, hcall⟩ :=
    @step_of_awake T E _ below t write s i hn (awake_of_empty hq _)
  refine ⟨s', hs, ?_⟩
  rw [hcall, Function.update_self]
  exact @fill_shortens below t 1022 ⟨s.crFlag, s.writeQ, s.call i⟩ hq hn

/-- As long as no call is resumed while another one is in the middle of a
pair, every call writes its buffer with a CR before each NL. -/
theorem ttyWrite_safe (ht : Default t) (q : Queue) (e : E) (buf : T → List (BitVec 8))
    {run : List T} (h : Run.Meets (step below t write) Enters run (atStart q e buf)) :
    Run.Always (step below t write) Safe run (atStart q e buf) :=
  (Run.always_of_meets (fun _ _ _ hi hs ha => inv_step ht hi hs ha) (inv_atStart q e buf) h).mono
    fun _ hi => hi.safe

def drain (q : Queue × Unit) : Queue × Unit := ({ q.1 with tail := q.1.head }, q.2)

def twoLines (i : Bool) : List (BitVec 8) := if i then [98, 10] else [97, 10]

/-- There is room for one character. -/
def nearlyFull : Queue := { emptyQueue with head := 1022 }

/-- The first call fills the queue and calls `schedule` in the middle of its buffer. -/
theorem ttyWrite_safe_twoLines :
    Run.Always (step (fun _ => false) console.termios drain) Safe [false, true, false]
      (atStart nearlyFull () twoLines) ∧
    (Run.exec (step (fun _ => false) console.termios drain) [false] (atStart nearlyFull ()
      twoLines)).map (fun s => ((s.call false).put, (s.call false).nr)) = some ([97], 1) ∧
    (Run.exec (step (fun _ => false) console.termios drain) [false, true, false]
      (atStart nearlyFull () twoLines)).map (fun s => ((s.call false).put, (s.call true).put)) =
        some ([97, 13, 10], [98, 13, 10]) := by
  have ht : Default console.termios := rfl
  exact ⟨ttyWrite_safe ht nearlyFull () twoLines (by decide +kernel), by decide +kernel,
    by decide +kernel⟩

theorem fill_plain (ht : Default t) (rounds k : Nat) {s : Chunk} (hflag : s.crFlag = false)
    (hn : k ≤ s.call.nr) (hroom : s.queue.size + k ≤ 1023)
    (hplain : ∀ j < k, s.call.buf.getD (s.call.b + j) 0 ≠ 10) :
      ∃ s' : Chunk, fill below t (rounds + k) s = fill below t rounds s' ∧ s'.crFlag = false ∧
        s'.queue.size = s.queue.size + k ∧ s'.call.buf = s.call.buf ∧ s'.call.b = s.call.b + k ∧
          s'.call.nr = s.call.nr - k := by
  induction k generalizing s with
  | zero => exact ⟨s, rfl, hflag, rfl, rfl, rfl, rfl⟩
  | succ k ih =>
    have hfull : ¬ s.queue.Full := not_full_of_size (by omega)
    have hnext : fill below t (rounds + (k + 1)) s =
      fill below t (rounds + k) (s.putch (s.call.buf.getD s.call.b 0) false 1) := by
      have hc : s.call.buf.getD s.call.b 0 ≠ 10 := hplain 0 (Nat.succ_pos k)
      rw [← Nat.add_assoc, fill, if_neg (not_or.mpr ⟨by omega, hfull⟩), writeChar_default ht,
        if_neg (not_and.mpr fun h => absurd h hc)]
    have hsize : (s.putch (s.call.buf.getD s.call.b 0) false 1).queue.size = s.queue.size + 1 :=
      size_put_of_not _ hfull
    obtain ⟨s', hs, hf, hq, hbuf, hb, hnr⟩ :=
      ih (s := s.putch (s.call.buf.getD s.call.b 0) false 1) rfl
      (show k ≤ s.call.nr - 1 by omega) (by omega)
      (fun j hj => by
        have := hplain (j + 1) (by omega)
        rwa [show s.call.b + (j + 1) = s.call.b + 1 + j by omega] at this)
    refine ⟨s', hnext.trans hs, hf, by omega, hbuf, ?_, ?_⟩
    · rw [hb]
      show s.call.b + 1 + k = s.call.b + (k + 1)
      omega
    · rw [hnr]
      show s.call.nr - 1 - k = s.call.nr - (k + 1)
      omega

def line (k : Nat) : List (BitVec 8) := List.replicate k 97 ++ [10]

theorem line_getD {k j : Nat} (h : j < k) : (line k).getD j 0 = 97 := by
  rw [line, List.getD_eq_getElem?_getD, List.getElem?_append_left (by simpa using h),
    List.getElem?_replicate_of_lt h]
  rfl

theorem line_last (k : Nat) : (line k).getD k 0 = 10 := by
  rw [line, List.getD_eq_getElem?_getD, List.getElem?_append_right (by simp)]
  simp

theorem fill_line (ht : Default t) {k : Nat} (hk : k = 1022) :
    (fill below t (2 + k) ⟨false, emptyQueue, .start (line k)⟩).crFlag = true := by
  have hzero : emptyQueue.size = 0 := by decide
  obtain ⟨s, hs, hflag, hq, hb, hi, hn⟩ :=
    @fill_plain below t ht 2 k ⟨false, emptyQueue, .start (line k)⟩ rfl
    (show k ≤ (line k).length by simp [line]) (show emptyQueue.size + k ≤ 1023 by omega)
      (fun j hj => by
      show (line k).getD (0 + j) 0 ≠ 10
      rw [Nat.zero_add, line_getD hj]
      decide)
  have hsize : s.queue.size = emptyQueue.size + k := hq
  have hnr : s.call.nr = (line k).length - k := hn
  have hbuf : s.call.buf = line k := hb
  have hat : s.call.b = 0 + k := hi
  have hlast : s.call.buf.getD s.call.b 0 = 10 := by rw [hbuf, hat, Nat.zero_add, line_last]
  have hone : s.call.nr ≠ 0 := by simp [hnr, line]
  have hfull : ¬ s.queue.Full := not_full_of_size (by omega)
  have hput : (s.queue.put 13).size = 1023 := by rw [size_put_of_not _ hfull, hsize, hzero, hk]
  have hstop : (s.queue.put 13).Full := (full_iff _).mpr (by rw [hput]; decide)
  rw [hs, fill, if_neg (not_or.mpr ⟨hone, hfull⟩), writeChar_default ht,
    if_pos ⟨hlast, hflag⟩, fill,
    if_pos (show (s.putch 13 true 0).call.nr = 0 ∨ (s.putch 13 true 0).queue.Full from Or.inr hstop)]
  rfl

/-- The CR that another call has put counts for the newline of this one. -/
theorem fill_newline (ht : Default t) (q : Queue) (hq : q.Empty) (rounds : Nat) :
    (fill below t (rounds + 1) ⟨true, q, .start [10]⟩).call.put = [10] := by
  have hfull : ¬ q.Full := not_full_of_size (by rw [(size_eq_zero _).mpr hq]; decide)
  have hgo : ¬ ((Call.start [10]).nr = 0 ∨ q.Full) := not_or.mpr ⟨by decide, hfull⟩
  rw [fill, if_neg hgo, writeChar_default ht, if_neg (fun h => by cases h.2)]
  cases rounds with
  | zero => rfl
  | succ rounds => rfl

/-- Another call is entered while the first one waits between the CR and the NL. -/
theorem ttyWrite_unsafe : ¬ ∀ (buf : Bool → List (BitVec 8)) (run : List Bool),
    Run.Always (step (fun _ => false) console.termios drain) Safe run
      (atStart emptyQueue () buf) := by
  intro h
  have ht : Default console.termios := rfl
  obtain ⟨k, hk⟩ : ∃ k, k = 1022 := ⟨_, rfl⟩
  have hnone : emptyQueue.Empty := rfl
  have hrun := h (fun i => if i then [10] else line k) [false, true]
  have hlong : (Call.start (line k)).nr ≠ 0 := by simp [Call.start, line]
  obtain ⟨s, r, hr, hs, hflag, hq, hcall⟩ :=
    @step_of_awake Bool Unit _ (fun _ => false) console.termios drain
    (atStart emptyQueue () fun i => if i then [10] else line k) false hlong (awake_of_empty hnone _)
  have hcr : s.crFlag = true := by
    rw [hflag, hr]
    have hfill := @fill_line (fun _ => false) console.termios ht k hk
    rw [show 2 + k = 1024 by omega] at hfill
    exact hfill
  have hdrain : s.writeQ = { r.queue with tail := r.queue.head } := congrArg Prod.fst hq
  have hempty : s.writeQ.Empty := by
    rw [hdrain]
    rfl
  have hcall : s.call true = .start [10] := by
    rw [hcall]
    rfl
  obtain ⟨s', r', hr', hs', -, -, hcall'⟩ :=
    @step_of_awake Bool Unit _ (fun _ => false) console.termios drain s true
    (by rw [hcall]; decide) (awake_of_empty hempty _)
  have hput : (s'.call true).put = [10] := by
    rw [hcall', Function.update_self]
    show r'.call.put = [10]
    rw [hr', hcr, hcall]
    exact fill_newline ht s.writeQ hempty 1023
  have hpre := ((hrun.2 s hs).2 s' hs' true).1
  have hbuf : (s'.call true).buf = [10] := by
    rw [hcall', Function.update_self]
    show r'.call.buf = [10]
    rw [hr', fill_buf, hcall]
    rfl
  rw [hput, hbuf] at hpre
  exact absurd hpre (by decide)

end

end Gpos.Tty
