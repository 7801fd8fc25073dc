import Gpos.Tty
import Mathlib.Data.Nat.Digits.Defs

/-! `put_queue` of `kb.S` and the macros of `tty.h`, on a queue whose head and
tail are words. -/

namespace Gpos

namespace Keyboard

/-- `procList` is the state of the task that waits. -/
structure TtyQueue where
  head : BitVec 32
  tail : BitVec 32
  procList : Option Int
  buf : BitVec 32 → BitVec 8

def size : BitVec 32 := 1024

/-! `LEFT` and `PUTCH` -/

def left (q : TtyQueue) : BitVec 32 := (q.tail - q.head - 1) &&& (size - 1)

def putch (q : TtyQueue) (c : BitVec 8) : TtyQueue :=
  { q with buf := Function.update q.buf q.head c, head := (q.head + 1) &&& (size - 1) }

/-! `put_queue` -/

def al (eax : BitVec 32) : BitVec 8 := eax.setWidth 8

/-- `shrdl $8,%ebx,%eax` -/
def shrd (eax ebx : BitVec 32) : BitVec 32 := (eax >>> 8) ||| (ebx <<< 24)

/-- The registers of the loop, with `%edx` on the queue, and the cells. -/
structure Put where
  eax : BitVec 32
  ebx : BitVec 32
  ecx : BitVec 32
  buf : BitVec 32 → BitVec 8

/-- `movb %al,buf(%edx,%ecx)`, `incl %ecx`, `andl $size-1,%ecx` -/
def store (s : Put) : Put :=
  { s with buf := Function.update s.buf s.ecx (al s.eax), ecx := (s.ecx + 1) &&& (size - 1) }

/-- The loop with the rounds it may still take; the flag says that it ends at `2:`. -/
def putLoop (tail : BitVec 32) : Nat → Put → Option (Bool × Put)
  | 0, _ => none
  | rounds + 1, s =>
    let s := store s
    if s.ecx = tail then some (false, s) else
    let s := { s with eax := shrd s.eax s.ebx }
    if s.eax = 0 then some (true, s) else putLoop tail rounds { s with ebx := s.ebx >>> 8 }

/-- The first task of the list is woken up when the sequence is in the queue. -/
def putQueue (eax ebx : BitVec 32) (q : TtyQueue) : Option TtyQueue :=
  (putLoop q.tail 8 ⟨eax, ebx, q.head, q.buf⟩).map fun e =>
    if e.1 then { q with head := e.2.ecx, buf := e.2.buf, procList := q.procList.map fun _ => 0 }
      else { q with buf := e.2.buf }

/-! The queue as a ring. -/

def ring (q : TtyQueue) : Tty.Queue :=
  ⟨q.head.setWidth 10, q.tail.setWidth 10, fun i => q.buf (i.setWidth 32)⟩

def content (q : TtyQueue) : List (BitVec 8) := (ring q).content

structure Valid (q : TtyQueue) : Prop where
  head : q.head < size
  tail : q.tail < size

theorem toNat_and_mask (x : BitVec 32) : (x &&& (size - 1)).toNat = x.toNat % 1024 := by
  have hmask : (size - 1).toNat = 2 ^ 10 - 1 := by decide
  rw [BitVec.toNat_and, hmask, Nat.and_two_pow_sub_one_eq_mod]

theorem and_mask_lt (x : BitVec 32) : x &&& (size - 1) < size := by
  rw [BitVec.lt_def, toNat_and_mask]
  exact Nat.mod_lt _ (by decide)

theorem setWidth_and_mask (x : BitVec 32) : (x &&& (size - 1)).setWidth 10 = x.setWidth 10 := by
  apply BitVec.eq_of_toNat_eq
  rw [BitVec.toNat_setWidth, toNat_and_mask, BitVec.toNat_setWidth]
  exact Nat.mod_mod _ _

theorem setWidth_setWidth_of_lt {x : BitVec 32} (h : x < size) :
    (x.setWidth 10).setWidth 32 = x := by
  have hlt : x.toNat < 1024 := h
  apply BitVec.eq_of_toNat_eq
  rw [BitVec.toNat_setWidth, BitVec.toNat_setWidth, Nat.mod_eq_of_lt (by omega : x.toNat < 2 ^ 10)]
  omega

theorem setWidth_inj {x y : BitVec 32} (hx : x < size) (hy : y < size)
    (h : x.setWidth 10 = y.setWidth 10) : x = y := by
  rw [← setWidth_setWidth_of_lt hx, h, setWidth_setWidth_of_lt hy]

theorem update_setWidth {x : BitVec 32} (hx : x < size) (f : BitVec 32 → BitVec 8) (c : BitVec 8) :
    (fun i : BitVec 10 => Function.update f x c (i.setWidth 32)) =
      Function.update (fun i => f (i.setWidth 32)) (x.setWidth 10) c := by
  funext i
  by_cases hi : i = x.setWidth 10
  · subst hi
    rw [Function.update_self, setWidth_setWidth_of_lt hx, Function.update_self]
  · have hne : i.setWidth 32 ≠ x := by
      intro he
      apply hi
      rw [← he]
      simp
    rw [Function.update_of_ne hi, Function.update_of_ne hne]

theorem Valid.putch {q : TtyQueue} (h : Valid q) (c : BitVec 8) : Valid (putch q c) :=
  ⟨and_mask_lt _, h.tail⟩

theorem setWidth_inc (x : BitVec 32) :
    ((x + 1) &&& (size - 1)).setWidth 10 = x.setWidth 10 + 1 := by
  rw [setWidth_and_mask, BitVec.setWidth_add _ _ (by decide)]
  rfl

theorem ring_putch {q : TtyQueue} (h : Valid q) (c : BitVec 8) :
    ring (putch q c) = (ring q).put c := by
  simp only [ring, Keyboard.putch, RingBuffer.put, setWidth_inc, update_setWidth h.head]

theorem Valid.puts {q : TtyQueue} (h : Valid q) (cs : List (BitVec 8)) :
    Valid (cs.foldl Keyboard.putch q) ∧ ring (cs.foldl Keyboard.putch q) =
      cs.foldl RingBuffer.put (ring q) := by
  induction cs generalizing q with
  | nil => exact ⟨h, rfl⟩
  | cons c cs ih =>
    rw [List.foldl_cons, List.foldl_cons, ← ring_putch h]
    exact ih (h.putch c)

theorem toNat_left (q : TtyQueue) : (left q).toNat + (ring q).size = 1023 := by
  have hleft : (left q).toNat = (q.tail - q.head - 1).toNat % 1024 := toNat_and_mask _
  have hone : (1 : BitVec 32).toNat = 1 := rfl
  have hh := q.head.isLt
  have ht := q.tail.isLt
  rw [hleft]
  simp only [ring, RingBuffer.size, BitVec.toNat_sub, BitVec.toNat_setWidth, hone]
  omega

/-! The bytes lie in the two registers from the lowest one on, and zero follows them. -/

def value (eax ebx : BitVec 32) : Nat := eax.toNat + 2 ^ 32 * ebx.toNat

structure Encodes (eax ebx : BitVec 32) (bytes : List (BitVec 8)) : Prop where
  value : value eax ebx = Nat.ofDigits 256 (bytes.map BitVec.toNat)
  tail : ∀ b ∈ bytes.tail, b ≠ 0

section

variable {eax ebx : BitVec 32} {b : BitVec 8} {bs : List (BitVec 8)}

theorem toNat_shrd (eax ebx : BitVec 32) :
    (shrd eax ebx).toNat = eax.toNat / 256 + 2 ^ 24 * (ebx.toNat % 256) := by
  have hhigh : (ebx <<< 24).toNat = 2 ^ 24 * (ebx.toNat % 256) := by
    rw [BitVec.toNat_shiftLeft, Nat.shiftLeft_eq]
    omega
  have hlow : (eax >>> 8).toNat = eax.toNat / 256 := by
    rw [BitVec.toNat_ushiftRight, Nat.shiftRight_eq_div_pow]
  have hlt := eax.isLt
  rw [shrd, BitVec.toNat_or, hhigh, hlow, Nat.or_comm, ← Nat.two_pow_add_eq_or_of_lt (by omega),
    Nat.add_comm]

theorem value_shift (eax ebx : BitVec 32) :
    value (shrd eax ebx) (ebx >>> 8) = value eax ebx / 256 := by
  have hlow : (ebx >>> 8).toNat = ebx.toNat / 256 := by
    rw [BitVec.toNat_ushiftRight, Nat.shiftRight_eq_div_pow]
  simp only [value, toNat_shrd, hlow]
  omega

theorem Encodes.al (h : Encodes eax ebx (b :: bs)) : Keyboard.al eax = b := by
  have hv := h.value
  have hb := b.isLt
  rw [List.map_cons, Nat.ofDigits_cons, Keyboard.value] at hv
  apply BitVec.eq_of_toNat_eq
  rw [Keyboard.al, BitVec.toNat_setWidth]
  omega

theorem Encodes.shift (h : Encodes eax ebx (b :: bs)) : Encodes (shrd eax ebx) (ebx >>> 8) bs := by
  have hv := h.value
  have hb := b.isLt
  rw [List.map_cons, Nat.ofDigits_cons] at hv
  refine ⟨?_, fun c hc => h.tail c (List.mem_of_mem_tail hc)⟩
  rw [value_shift]
  omega

/-- The zero flag says that no byte is left, since the next one would not be zero. -/
theorem Encodes.shrd_eq_zero (h : Encodes eax ebx (b :: bs)) : shrd eax ebx = 0 ↔ bs = [] := by
  have hv := h.shift.value
  have heax : shrd eax ebx = 0 ↔ (shrd eax ebx).toNat = 0 := by
    rw [← BitVec.toNat_inj]
    rfl
  rw [heax]
  cases bs with
  | nil =>
    simp only [Keyboard.value, List.map_nil, Nat.ofDigits_nil] at hv
    exact iff_of_true (by omega) rfl
  | cons c cs =>
    have hc : c ≠ 0 := h.tail c List.mem_cons_self
    have hpos : c.toNat ≠ 0 := fun hz => hc (BitVec.eq_of_toNat_eq hz)
    have hlt := c.isLt
    simp only [Keyboard.value, List.map_cons, Nat.ofDigits_cons] at hv
    exact iff_of_false (by omega) (List.cons_ne_nil c cs)

end

/-! The ring whose head is the cell that is written next. -/

def ringAt (tail : BitVec 32) (s : Put) : Tty.Queue :=
  ⟨s.ecx.setWidth 10, tail.setWidth 10, fun i => s.buf (i.setWidth 32)⟩

def shifted (s : Put) : Put := { store s with eax := shrd s.eax s.ebx, ebx := s.ebx >>> 8 }

section

variable {tail : BitVec 32} {s : Put} {b : BitVec 8} {bs : List (BitVec 8)}

theorem ringAt_store (tail : BitVec 32) (h : s.ecx < size) :
    ringAt tail (store s) = (ringAt tail s).put (al s.eax) := by
  simp only [ringAt, store, RingBuffer.put, setWidth_inc, update_setWidth h]

theorem store_cell (h : s.ecx < size) {i : Nat} (hi : i < (ringAt tail s).size) :
    (ringAt tail (store s)).buf ((ringAt tail s).tail + BitVec.ofNat 10 i) =
      (ringAt tail s).buf ((ringAt tail s).tail + BitVec.ofNat 10 i) := by
  rw [ringAt_store tail h]
  exact Function.update_of_ne (RingBuffer.index_ne hi) ..

theorem store_meets (ht : tail < size) (hs : s.ecx < size) :
    (store s).ecx = tail ↔ (ringAt tail s).Full := by
  have hmeets : (store s).ecx = tail ↔ (ringAt tail (store s)).Empty := by
    constructor
    · intro he
      rw [RingBuffer.Empty, ringAt, he]
    · intro he
      exact setWidth_inj (and_mask_lt _) ht he
  have hlt := (ringAt tail s).size_lt
  rw [hmeets, ringAt_store tail hs, ← RingBuffer.size_eq_zero, RingBuffer.size_put,
    RingBuffer.full_iff]
  omega

theorem putLoop_succ (ht : tail < size) (hs : s.ecx < size) (hb : Encodes s.eax s.ebx (b :: bs))
    (rounds : Nat) : putLoop tail (rounds + 1) s =
      if (ringAt tail s).Full then some (false, store s) else
      if bs = [] then some (true, { store s with eax := shrd s.eax s.ebx })
        else putLoop tail rounds (shifted s) := by
  have hzero : shrd (store s).eax (store s).ebx = 0 ↔ bs = [] := hb.shrd_eq_zero
  simp only [putLoop, store_meets ht hs, hzero]
  rfl

theorem ringAt_shifted (tail : BitVec 32) (hs : s.ecx < size) (hb : Encodes s.eax s.ebx (b :: bs)) :
    ringAt tail (shifted s) = (ringAt tail s).put b := by
  have hstore := ringAt_store tail hs
  rw [hb.al] at hstore
  exact hstore

theorem putLoop_fits (ht : tail < size) {rounds : Nat} (hr : bs.length < rounds) (hs : s.ecx < size)
    (hb : Encodes s.eax s.ebx (b :: bs)) (hroom : (ringAt tail s).size + bs.length < 1023) :
    ∃ t, putLoop tail rounds s = some (true, t) ∧ t.ecx < size ∧
      ringAt tail t = (b :: bs).foldl RingBuffer.put (ringAt tail s) := by
  induction bs generalizing b rounds s with
  | nil =>
    obtain ⟨n, rfl⟩ := Nat.exists_eq_add_of_lt hr
    have hfull : ¬ (ringAt tail s).Full := by
      rw [List.length_nil] at hroom
      rw [RingBuffer.full_iff]
      omega
    rw [putLoop_succ ht hs hb, if_neg hfull, if_pos rfl]
    exact ⟨_, rfl, and_mask_lt _, ringAt_shifted tail hs hb⟩
  | cons c cs ih =>
    rw [List.length_cons] at hr hroom
    obtain ⟨n, rfl⟩ := Nat.exists_eq_add_of_lt hr
    have hfull : ¬ (ringAt tail s).Full := by
      rw [RingBuffer.full_iff]
      omega
    have hring := ringAt_shifted tail hs hb
    rw [putLoop_succ ht hs hb, if_neg hfull, if_neg (List.cons_ne_nil c cs),
      List.foldl_cons, ← hring]
    apply ih (by omega) (and_mask_lt _) hb.shift
    rw [hring, RingBuffer.size_put_of_not b hfull]
    omega

/-- The round that meets the tail gives up, and the cells of the ring are as they were. -/
theorem putLoop_discards (ht : tail < size) {rounds : Nat} (hr : bs.length < rounds)
    (hs : s.ecx < size) (hb : Encodes s.eax s.ebx (b :: bs))
    (hroom : 1023 ≤ (ringAt tail s).size + bs.length) :
      ∃ t, putLoop tail rounds s = some (false, t) ∧ ∀ i, i < (ringAt tail s).size →
        (ringAt tail t).buf ((ringAt tail s).tail + BitVec.ofNat 10 i) =
          (ringAt tail s).buf ((ringAt tail s).tail + BitVec.ofNat 10 i) := by
  induction bs generalizing b rounds s with
  | nil =>
    obtain ⟨n, rfl⟩ := Nat.exists_eq_add_of_lt hr
    have hfull : (ringAt tail s).Full := by
      have hlt := (ringAt tail s).size_lt
      rw [List.length_nil] at hroom
      rw [RingBuffer.full_iff]
      omega
    rw [putLoop_succ ht hs hb, if_pos hfull]
    exact ⟨_, rfl, fun i hi => store_cell hs hi⟩
  | cons c cs ih =>
    rw [List.length_cons] at hr hroom
    obtain ⟨n, rfl⟩ := Nat.exists_eq_add_of_lt hr
    rw [putLoop_succ ht hs hb]
    by_cases hfull : (ringAt tail s).Full
    · rw [if_pos hfull]
      exact ⟨_, rfl, fun i hi => store_cell hs hi⟩
    · have hring := ringAt_shifted tail hs hb
      have hsize : (ringAt tail (shifted s)).size = (ringAt tail s).size + 1 := by
        rw [hring, RingBuffer.size_put_of_not b hfull]
      rw [if_neg hfull, if_neg (List.cons_ne_nil c cs)]
      have hlen : cs.length < cs.length + 1 + n := by omega
      obtain ⟨t, ht', hcell⟩ := ih (s := shifted s) hlen (and_mask_lt _) hb.shift (by omega)
      refine ⟨t, ht', fun i hi => ?_⟩
      exact (hcell i (by omega)).trans (store_cell hs hi)

end

/-- Nothing of the queue is lost, and it can be read as before. -/
structure Kept (q q' : TtyQueue) : Prop where
  head : q'.head = q.head
  tail : q'.tail = q.tail
  content : content q' = content q

section

variable {q : TtyQueue} {eax ebx : BitVec 32} {bytes : List (BitVec 8)}

theorem putQueue_fits (hq : Valid q) (hne : bytes ≠ []) (hlen : bytes.length ≤ 8)
    (hb : Encodes eax ebx bytes) (hroom : bytes.length ≤ (left q).toNat) :
      ∃ q', putQueue eax ebx q = some q' ∧ q'.head = (bytes.foldl putch q).head ∧ q'.tail = q.tail ∧
        content q' = content q ++ bytes := by
  obtain ⟨b, bs, rfl⟩ := List.exists_cons_of_ne_nil hne
  have hleft := toNat_left q
  rw [List.length_cons] at hlen hroom
  have hsize : (ring q).size + bs.length < 1023 := by omega
  have hrounds : bs.length < 8 := by omega
  obtain ⟨t, ht, hecx, hring⟩ :=
    putLoop_fits (s := ⟨eax, ebx, q.head, q.buf⟩) hq.tail hrounds hq.head hb hsize
  have hputs := hq.puts (b :: bs)
  have hcontent : ((b :: bs).foldl RingBuffer.put (ring q)).content = content q ++ b :: bs :=
    RingBuffer.content_puts _ (by rw [List.length_cons]; omega)
  have hput : putQueue eax ebx q =
    some { q with head := t.ecx, buf := t.buf, procList := q.procList.map fun _ => 0 } := by
    rw [putQueue, ht]
    rfl
  refine ⟨_, hput, ?_, rfl, ?_⟩
  · have hhead : t.ecx.setWidth 10 = ((b :: bs).foldl putch q).head.setWidth 10 := by
      have h1 := congrArg RingBuffer.head hring
      have h2 := congrArg RingBuffer.head hputs.2
      exact h1.trans h2.symm
    exact setWidth_inj hecx hputs.1.head hhead
  · rw [← hcontent]
    exact congrArg RingBuffer.content hring

theorem putQueue_discards (hq : Valid q) (hne : bytes ≠ []) (hlen : bytes.length ≤ 8)
    (hb : Encodes eax ebx bytes) (hroom : (left q).toNat < bytes.length) :
    ∃ q', putQueue eax ebx q = some q' ∧ Kept q q' := by
  obtain ⟨b, bs, rfl⟩ := List.exists_cons_of_ne_nil hne
  have hleft := toNat_left q
  rw [List.length_cons] at hlen hroom
  have hsize : 1023 ≤ (ring q).size + bs.length := by omega
  have hrounds : bs.length < 8 := by omega
  obtain ⟨t, ht, hcell⟩ :=
    putLoop_discards (s := ⟨eax, ebx, q.head, q.buf⟩) hq.tail hrounds hq.head hb hsize
  have hput : putQueue eax ebx q = some { q with buf := t.buf } := by
    rw [putQueue, ht]
    rfl
  refine ⟨_, hput, rfl, rfl, ?_⟩
  apply List.map_congr_left
  intro i hi
  exact hcell i (List.mem_range.mp hi)

/-- A sequence of one to eight bytes is put into the queue as a whole, as `PUTCH` does, or not at all. -/
theorem putQueue_all_or_nothing (hq : Valid q) (hne : bytes ≠ []) (hlen : bytes.length ≤ 8)
    (hb : Encodes eax ebx bytes) : ∃ q', putQueue eax ebx q = some q' ∧
      (bytes.length ≤ (left q).toNat → q'.head = (bytes.foldl putch q).head ∧ q'.tail = q.tail ∧
        content q' = content q ++ bytes) ∧
      ((left q).toNat < bytes.length → Kept q q') := by
  rcases Nat.lt_or_ge (left q).toNat bytes.length with hroom | hroom
  · obtain ⟨q', h, hkept⟩ := putQueue_discards hq hne hlen hb hroom
    exact ⟨q', h, fun hle => absurd hle (by omega), fun _ => hkept⟩
  · obtain ⟨q', h, hhead, htail, hcontent⟩ := putQueue_fits hq hne hlen hb hroom
    exact ⟨q', h, fun _ => ⟨hhead, htail, hcontent⟩, fun hlt => absurd hroom (by omega)⟩

end

theorem encodes_f1 : Encodes 0x415b5b1b 0 [0x1b, 0x5b, 0x5b, 0x41] := ⟨rfl, by decide⟩

/-- The sequence of F1 in an empty queue at the end of the buffer. -/
theorem putQueue_all_or_nothing_f1 :
    ∃ q', putQueue 0x415b5b1b 0 ⟨1022, 1022, none, fun _ => 0⟩ = some q' ∧
    (4 ≤ 1023 → q'.head = 2 ∧ q'.tail = 1022 ∧ content q' = [0x1b, 0x5b, 0x5b, 0x41]) ∧
      (1023 < 4 → Kept ⟨1022, 1022, none, fun _ => 0⟩ q') :=
  putQueue_all_or_nothing (q := ⟨1022, 1022, none, fun _ => 0⟩) ⟨by decide, by decide⟩ (by decide)
    (by decide) encodes_f1

end Keyboard

end Gpos
