import Gpos.DiskTransfers
import Mathlib.Logic.Function.Basic

/-! The driver as a device whose transfers of blocks are atomic. The controller
moves one sector after another, and again after an error; a sector that a write
has not finished may hold anything. -/

namespace Gpos.Hd

/-- The halves of the blocks in the buffers, and the sectors of the drives. -/
@[ext]
structure Memory (D : Type) where
  buf : Nat → Nat → D
  disk : Nat → Nat → D

variable {D : Type}

def place (c : Config) (r : Request) (half : Nat) : Nat :=
  (c.hd r.dev).startSect + 2 * r.blocknr + half

/-- The transfer of 256 words. -/
def Memory.move (r : Request) (half sector : Nat) (m : Memory D) : Memory D :=
  match r.cmd with
  | .read =>
    { m with
      buf := Function.update m.buf r.bh
        (Function.update (m.buf r.bh) half (m.disk (r.dev / 5) sector)) }
  | .write =>
    { m with
      disk := Function.update m.disk (r.dev / 5)
        (Function.update (m.disk (r.dev / 5)) sector (m.buf r.bh half)) }

/-- The sector that a write has come to holds anything. -/
def Spoils (c : Config) (r : Request) (m m' : Memory D) : Prop :=
  m' = m ∨ r.cmd = .write ∧ ∃ v, m' = { m with
    disk := Function.update m.disk (r.dev / 5)
      (Function.update (m.disk (r.dev / 5)) ((c.hd r.dev).startSect + r.sector) v) }

def Effect (c : Config) (e : Event) (m m' : Memory D) : Prop :=
  match e with
  | .sent r _ _ _ => Spoils c r m m'
  | .moved r sector => m' = m.move r (r.buffer / 512) sector
  | .ended r uptodate => if uptodate then m' = m else Spoils c r m m'

/-! The device -/

/-- The whole block. -/
def Memory.transfer (c : Config) (r : Request) (m : Memory D) : Memory D :=
  (m.move r 0 (place c r 0)).move r 1 (place c r 1)

/-- Nothing but the target of the request differs. -/
structure Off (c : Config) (r : Request) (a m : Memory D) : Prop where
  buf : ∀ b k, m.buf b k = a.buf b k ∨ r.cmd = .read ∧ b = r.bh ∧ k < 2
  disk : ∀ d x, m.disk d x = a.disk d x ∨
    r.cmd = .write ∧ d = r.dev / 5 ∧ ∃ k < 2, x = place c r k

/-- A request that fails leaves anything in its target. -/
def Outcome (c : Config) (o : Request × Bool) (a a' : Memory D) : Prop :=
  if o.2 then a' = a.transfer c o.1 else Off c o.1 a a'

def outcome : Event → Option (Request × Bool)
  | .sent _ _ _ _ => none
  | .moved _ _ => none
  | .ended r uptodate => some (r, uptodate)

/-- The requests that have ended, the first one at the beginning. -/
def outcomes (log : List Event) : List (Request × Bool) := log.reverse.filterMap outcome

/-- What memory there can be after what the driver has done. -/
def Evolves (c : Config) (m₀ : Memory D) (log : List Event) (m : Memory D) : Prop :=
  Run.Traces (Effect c) log.reverse m₀ m

def Answers (c : Config) (m₀ : Memory D) (log : List Event) (a : Memory D) : Prop :=
  Run.Traces (Outcome c) (outcomes log) m₀ a

section

variable {c : Config} {m₀ m m' a a' : Memory D} {log : List Event} {r : Request}

theorem evolves_cons {e : Event} :
    Evolves c m₀ (e :: log) m' ↔ ∃ m, Evolves c m₀ log m ∧ Effect c e m m' := by
  rw [Evolves, List.reverse_cons, Run.traces_concat]
  rfl

theorem answers_quiet {e : Event} (he : outcome e = none) :
    Answers c m₀ (e :: log) a ↔ Answers c m₀ log a := by
  rw [Answers, outcomes, List.reverse_cons, List.filterMap_append, List.filterMap_cons_none he,
    List.filterMap_nil, List.append_nil]
  rfl

theorem answers_ended {uptodate : Bool} :
    Answers c m₀ (.ended r uptodate :: log) a' ↔
      ∃ a, Answers c m₀ log a ∧ Outcome c (r, uptodate) a a' := by
  have ho : outcome (.ended r uptodate) = some (r, uptodate) := rfl
  rw [Answers, outcomes, List.reverse_cons, List.filterMap_append, List.filterMap_cons_some ho,
    List.filterMap_nil, Run.traces_concat]
  rfl

theorem Off.refl : Off c r a a := ⟨fun _ _ => .inl rfl, fun _ _ => .inl rfl⟩

theorem Off.trans (h : Off c r a m) (h' : Off c r m m') : Off c r a m' := by
  refine ⟨fun b k => ?_, fun d x => ?_⟩
  · rcases h'.buf b k with he | ht
    · rw [he]
      exact h.buf b k
    · exact .inr ht
  · rcases h'.disk d x with he | ht
    · rw [he]
      exact h.disk d x
    · exact .inr ht

theorem move_buf (half sector b k : Nat) :
    (m.move r half sector).buf b k =
      if r.cmd = .read ∧ b = r.bh ∧ k = half then m.disk (r.dev / 5) sector else m.buf b k := by
  unfold Memory.move
  cases r.cmd with
  | read =>
    by_cases hb : b = r.bh
    · subst hb
      simp [Function.update_apply]
    · simp [hb]
  | write => simp

theorem move_disk (half sector d x : Nat) :
    (m.move r half sector).disk d x =
      if r.cmd = .write ∧ d = r.dev / 5 ∧ x = sector then m.buf r.bh half else m.disk d x := by
  unfold Memory.move
  cases r.cmd with
  | read => simp
  | write =>
    by_cases hd : d = r.dev / 5
    · subst hd
      simp [Function.update_apply]
    · simp [hd]

theorem off_move {k : Nat} (hk : k < 2) : Off c r m (m.move r k (place c r k)) := by
  refine ⟨fun b j => ?_, fun d x => ?_⟩
  · rw [move_buf]
    by_cases ht : r.cmd = .read ∧ b = r.bh ∧ j = k
    · exact .inr ⟨ht.1, ht.2.1, ht.2.2 ▸ hk⟩
    · exact .inl (if_neg ht)
  · rw [move_disk]
    by_cases ht : r.cmd = .write ∧ d = r.dev / 5 ∧ x = place c r k
    · exact .inr ⟨ht.1, ht.2.1, k, hk, ht.2.2⟩
    · exact .inl (if_neg ht)

/-- A half of the block is the same on both sides. -/
def Same (c : Config) (r : Request) (m : Memory D) (k : Nat) : Prop :=
  m.buf r.bh k = m.disk (r.dev / 5) (place c r k)

theorem place_ne {j k : Nat} (h : j ≠ k) : place c r j ≠ place c r k := by
  unfold place
  omega

theorem same_move (k : Nat) : Same c r (m.move r k (place c r k)) k := by
  rw [Same, move_buf, move_disk]
  cases r.cmd <;> simp

theorem Same.move {j k : Nat} (h : Same c r m j) (hjk : j ≠ k) :
    Same c r (m.move r k (place c r k)) j := by
  rw [Same, move_buf, move_disk, if_neg (by simp [hjk]), if_neg (by simp [place_ne hjk])]
  exact h

/-- What a write may spoil is the sector that comes next. -/
theorem Spoils.keeps {k : Nat} (h : Spoils c r m m')
    (hk : (c.hd r.dev).startSect + r.sector = place c r k) (hlt : k < 2) :
    Off c r m m' ∧ ∀ j, j ≠ k → Same c r m j → Same c r m' j := by
  rcases h with rfl | ⟨hcmd, v, rfl⟩
  · exact ⟨.refl, fun j _ hs => hs⟩
  · rw [hk]
    refine ⟨⟨fun _ _ => .inl rfl, fun d x => ?_⟩, fun j hj hs => ?_⟩
    · by_cases hd : d = r.dev / 5
      · subst hd
        by_cases hx : x = place c r k
        · exact .inr ⟨hcmd, rfl, k, hlt, hx⟩
        · left
          simp [Function.update_of_ne hx]
      · left
        simp [Function.update_of_ne hd]
    · unfold Same at hs ⊢
      simp [Function.update_of_ne (place_ne hj), hs]

theorem Off.disk_read (h : Off c r a m) (hr : r.cmd = .read) (d x : Nat) :
    m.disk d x = a.disk d x := by
  rcases h.disk d x with he | ⟨hw, -⟩
  · exact he
  · rw [hr] at hw
    cases hw

theorem Off.buf_write (h : Off c r a m) (hw : r.cmd = .write) (b k : Nat) :
    m.buf b k = a.buf b k := by
  rcases h.buf b k with he | ⟨hr, -⟩
  · exact he
  · rw [hw] at hr
    cases hr

theorem transfer_read (hr : r.cmd = .read) (k : Nat) (hk : k < 2) :
    (a.transfer c r).buf r.bh k = a.disk (r.dev / 5) (place c r k) := by
  rw [Memory.transfer, move_buf, move_buf, move_disk]
  obtain rfl | rfl : k = 0 ∨ k = 1 := by omega
  · simp [hr]
  · simp [hr]

theorem transfer_write (hw : r.cmd = .write) (k : Nat) (hk : k < 2) :
    (a.transfer c r).disk (r.dev / 5) (place c r k) = a.buf r.bh k := by
  have hne : place c r 0 ≠ place c r 1 := place_ne (by decide)
  rw [Memory.transfer, move_disk, move_disk, move_buf]
  obtain rfl | rfl : k = 0 ∨ k = 1 := by omega
  · simp [hw, hne]
  · simp [hw]

theorem off_transfer : Off c r a (a.transfer c r) :=
  (off_move (by decide)).trans (off_move (by decide))

/-- When both halves are the same, the block has been transferred. -/
theorem Off.transfer (h : Off c r a m) (hs : ∀ k < 2, Same c r m k) : m = a.transfer c r := by
  have ht : Off c r a (a.transfer c r) := off_transfer
  refine Memory.ext (funext fun b => funext fun k => ?_) (funext fun d => funext fun x => ?_)
  · by_cases hin : r.cmd = .read ∧ b = r.bh ∧ k < 2
    · obtain ⟨hr, rfl, hk⟩ := hin
      rw [hs k hk, h.disk_read hr, transfer_read hr k hk]
    · rw [(h.buf b k).resolve_right hin, (ht.buf b k).resolve_right hin]
  · by_cases hin : r.cmd = .write ∧ d = r.dev / 5 ∧ ∃ k < 2, x = place c r k
    · obtain ⟨hw, rfl, k, hk, rfl⟩ := hin
      rw [← hs k hk, h.buf_write hw, transfer_write hw k hk]
    · rw [(h.disk d x).resolve_right hin, (ht.disk d x).resolve_right hin]

/-! What has been done for the current request. -/

/-- No request is being served. -/
def Done (c : Config) (m₀ : Memory D) (log : List Event) : Prop :=
  ∀ m, Evolves c m₀ log m → Answers c m₀ log m

/-- `n` halves of the block have been transferred. -/
def Doing (c : Config) (m₀ : Memory D) (log : List Event) (r : Request) (n : Nat) : Prop :=
  ∀ m, Evolves c m₀ log m → ∃ a, Answers c m₀ log a ∧ Off c r a m ∧ ∀ k < n, Same c r m k

theorem Done.doing (h : Done c m₀ log) (r : Request) : Doing c m₀ log r 0 :=
  fun m hm => ⟨m, h m hm, .refl, fun k hk => absurd hk (Nat.not_lt_zero k)⟩

theorem Doing.congr {r' : Request} {n : Nat} (h : Doing c m₀ log r n) (hd : r'.dev = r.dev)
    (hc : r'.cmd = r.cmd) (hb : r'.bh = r.bh) (hn : r'.blocknr = r.blocknr) :
    Doing c m₀ log r' n := by
  intro m hm
  obtain ⟨a, ha, hoff, hs⟩ := h m hm
  have hplace : place c r' = place c r := by
    funext k
    rw [place, place, hd, hn]
  refine ⟨a, ha, ⟨fun b k => ?_, fun d x => ?_⟩, fun k hk => ?_⟩
  · rw [hc, hb]
    exact hoff.buf b k
  · rw [hc, hd, hplace]
    exact hoff.disk d x
  · rw [Same, hb, hd, hplace]
    exact hs k hk

theorem Doing.mono {n k : Nat} (h : Doing c m₀ log r n) (hk : k ≤ n) : Doing c m₀ log r k := by
  intro m hm
  obtain ⟨a, ha, hoff, hs⟩ := h m hm
  exact ⟨a, ha, hoff, fun j hj => hs j (Nat.lt_of_lt_of_le hj hk)⟩

theorem Doing.sent (h : Doing c m₀ log r r.completed) (hr : Sound r) (sec head cyl : Nat) :
    Doing c m₀ (.sent r sec head cyl :: log) r r.completed := by
  intro m' hm'
  obtain ⟨m, hm, he⟩ := evolves_cons.mp hm'
  obtain ⟨a, ha, hoff, hs⟩ := h m hm
  have hnext : (c.hd r.dev).startSect + r.sector = place c r r.completed := by
    rw [place, hr.sector, Nat.add_assoc]
  obtain ⟨hspoil, hkeep⟩ := he.keeps hnext hr.completed
  exact ⟨a, (answers_quiet rfl).mpr ha, hoff.trans hspoil,
    fun k hk => hkeep k (Nat.ne_of_lt hk) (hs k hk)⟩

theorem Doing.moved (h : Doing c m₀ log r r.completed) (hr : Sound r) :
    Doing c m₀ (.moved r ((c.hd r.dev).startSect + r.sector) :: log) r (r.completed + 1) := by
  intro m' hm'
  obtain ⟨m, hm, he⟩ := evolves_cons.mp hm'
  obtain ⟨a, ha, hoff, hs⟩ := h m hm
  have hhalf : r.buffer / 512 = r.completed := by
    rw [hr.buffer]
    exact Nat.mul_div_cancel_left _ (by decide)
  have hplace : (c.hd r.dev).startSect + r.sector = place c r r.completed := by
    rw [place, hr.sector, Nat.add_assoc]
  have he' : m' = m.move r r.completed (place c r r.completed) := by
    rw [← hplace, ← hhalf]
    exact he
  rw [he']
  refine ⟨a, (answers_quiet rfl).mpr ha, hoff.trans (off_move hr.completed), fun k hk => ?_⟩
  rcases Nat.lt_succ_iff_lt_or_eq.mp hk with hlt | rfl
  · exact (hs k hlt).move (Nat.ne_of_lt hlt)
  · exact same_move _

theorem Doing.succeeded (h : Doing c m₀ log r 2) : Done c m₀ (.ended r true :: log) := by
  intro m' hm'
  obtain ⟨m, hm, he⟩ := evolves_cons.mp hm'
  obtain ⟨a, ha, hoff, hs⟩ := h m hm
  have he' : m' = m := he
  rw [he', answers_ended]
  exact ⟨a, ha, hoff.transfer hs⟩

theorem Doing.failed (h : Doing c m₀ log r r.completed) (hr : Sound r) :
    Done c m₀ (.ended r false :: log) := by
  intro m' hm'
  obtain ⟨m, hm, he⟩ := evolves_cons.mp hm'
  obtain ⟨a, ha, hoff, -⟩ := h m hm
  have hnext : (c.hd r.dev).startSect + r.sector = place c r r.completed := by
    rw [place, hr.sector, Nat.add_assoc]
  have he' : Spoils c r m m' := he
  exact answers_ended.mpr ⟨a, ha, hoff.trans (he'.keeps hnext hr.completed).1⟩

/-! The steps of the driver. -/

/-- The head of the queue is being served, and no other request has been begun. -/
def Serves (c : Config) (m₀ : Memory D) (log : List Event) (l : List Request) : Prop :=
  match l with
  | [] => Done c m₀ log
  | r :: rest => Doing c m₀ log r r.completed ∧ ∀ q ∈ rest, q.completed = 0

theorem Done.serves (h : Done c m₀ log) {l : List Request} (hl : ∀ q ∈ l, q.completed = 0) :
    Serves c m₀ log l := by
  cases l with
  | nil => exact h
  | cons r rest =>
    rw [List.forall_mem_cons] at hl
    refine ⟨?_, hl.2⟩
    rw [hl.1]
    exact h.doing r

/-- A handler is that of the current request. After a transfer of a write it waits for the
result. -/
structure Handles (c : Config) (m₀ : Memory D) (s : State) (r : Request) : Prop where
  read : s.doHd = some .readIntr → r.cmd = .read
  write : s.doHd = some .writeIntr → r.cmd = .write
  moved : s.doHd = some .writeIntr → s.frames = [] → Doing c m₀ s.log r (r.completed + 1)

/-- A request whose messages are printed is done, although it is still the current one. While the
controller is reset, a handler may be left that is called for nothing any more. -/
structure Serving (c : Config) (m₀ : Memory D) (s : State) : Prop where
  serves : printing s = false → Serves c m₀ s.log s.queue
  failed : printing s = true → Done c m₀ s.log ∧ ∀ q ∈ s.queue.tail, q.completed = 0
  handles : s.halted = false → printing s = false → resetting s = false →
    ∀ r rest, s.queue = r :: rest → Handles c m₀ s r

section

variable {s : State} {rest : List Request}

theorem serving_of (h : Serves c m₀ s.log s.queue) (hp : printing s = false)
    (hh : s.halted = false → ∀ r rest, s.queue = r :: rest → Handles c m₀ s r) :
    Serving c m₀ s :=
  ⟨fun _ => h, fun hp' => absurd (hp.symm.trans hp') Bool.false_ne_true, fun hrun _ _ => hh hrun⟩

theorem serving_halted (h : Serves c m₀ s.log s.queue) (hp : printing s = false)
    (hh : s.halted = true) : Serving c m₀ s :=
  serving_of h hp fun hrun => by rw [hh] at hrun; cases hrun

theorem serving_head (h : Serves c m₀ s.log s.queue) (hp : printing s = false)
    (hq : s.queue = r :: rest) (hh : Handles c m₀ s r) : Serving c m₀ s := by
  refine serving_of h hp fun _ r' rest' hq' => ?_
  rw [hq] at hq'
  cases hq'
  exact hh

theorem serving_other (h : Serves c m₀ s.log s.queue) (hp : printing s = false)
    (hr : s.doHd ≠ some .readIntr) (hw : s.doHd ≠ some .writeIntr) : Serving c m₀ s :=
  serving_of h hp fun _ _ _ _ =>
    ⟨fun hd => absurd hd hr, fun hd => absurd hd hw, fun hd => absurd hd hw⟩

theorem hdOut_cases (c : Config) (drive sect head cyl : Nat) (h : Handler) (s : State) :
    hdOut c drive sect head cyl h s = { s with halted := true } ∨
      ∃ x, hdOut c drive sect head cyl h s = { s with doHd := some h, sector := x } := by
  unfold hdOut
  split
  · exact .inl rfl
  · exact .inr ⟨_, rfl⟩

theorem Serves.recal (h : Serves c m₀ s.log s.queue) (hf : s.frames = [])
    (drive sect head cyl : Nat) : Serving c m₀ (hdOut c drive sect head cyl .recalIntr s) := by
  rcases hdOut_cases c drive sect head cyl .recalIntr s with he | ⟨x, he⟩
  · rw [he]
    exact serving_halted h (printing_nil hf) rfl
  · rw [he]
    exact serving_other h (printing_nil hf) (by simp) (by simp)

theorem Serves.send (h : Serves c m₀ s.log s.queue) (sti : Bool) (hf : s.frames = [])
    (hq : s.queue = r :: rest) (hr : Sound r) : Serving c m₀ (sendCommand c sti r s) := by
  unfold sendCommand
  dsimp only
  split
  · exact ⟨fun _ => h, nofun, fun _ _ => nofun⟩
  split
  · exact Serves.recal (s := { s with recalibrate := false }) h hf ..
  generalize wrap (r.sector + (c.hd r.dev).startSect) = block
  generalize hsec : block % (c.hdInfo (r.dev / 5)).sect + 1 = sec
  generalize hhead : block / (c.hdInfo (r.dev / 5)).sect % (c.hdInfo (r.dev / 5)).head = head
  generalize hcyl : block / (c.hdInfo (r.dev / 5)).sect / (c.hdInfo (r.dev / 5)).head = cyl
  have hs : Serves c m₀ (.sent r sec head cyl :: s.log) s.queue := by
    rw [hq] at h ⊢
    exact ⟨h.1.sent hr sec head cyl, h.2⟩
  split
  next hcmd =>
    rcases hdOut_cases c (r.dev / 5) sec head cyl .writeIntr
      { s with log := .sent r sec head cyl :: s.log } with he | ⟨x, he⟩
    · rw [he]
      exact serving_halted hs rfl rfl
    · rw [he]
      refine serving_head (s := { s with
        frames := .poll sti :: s.frames, doHd := some .writeIntr, sector := x
        log := .sent r sec head cyl :: s.log }) hs rfl hq
        ⟨fun hd => ?_, fun _ => hcmd, fun _ hw => ?_⟩
      · cases hd
      · cases hw
  next hcmd =>
    rcases hdOut_cases c (r.dev / 5) sec head cyl .readIntr
      { s with log := .sent r sec head cyl :: s.log } with he | ⟨x, he⟩
    · rw [he]
      exact serving_halted hs (printing_nil hf) rfl
    · rw [he]
      refine serving_head hs (printing_nil hf) hq
        ⟨fun _ => hcmd, fun hd => ?_, fun hd => ?_⟩
      · cases hd
      · cases hd

theorem Serves.failRequest (h : Serves c m₀ s.log s.queue) (count : Bool)
    (hq : s.queue = r :: rest) (hr : Sound r) : Serving c m₀ (failRequest count s) := by
  rw [hq] at h
  rw [failRequest_cons hq]
  have hzero : ∀ q ∈ s.queue.tail, q.completed = 0 := by
    rw [hq]
    exact h.2
  exact ⟨nofun, fun _ => ⟨h.1.failed hr, hzero⟩, fun _ => nofun⟩

theorem Serves.doHdRequest (h : Serves c m₀ s.log s.queue) (sti : Bool)
    (hs : ∀ q ∈ s.queue, Sound q) (hf : s.frames = []) : Serving c m₀ (doHdRequest c sti s) := by
  unfold Hd.doHdRequest
  split
  next hq =>
    refine serving_of h (printing_nil hf) fun _ r rest hcons => ?_
    rw [hq] at hcons
    cases hcons
  next r rest hq =>
    have hsound : Sound r := hs r (hq ▸ List.mem_cons_self)
    split
    next => exact h.send sti hf hq hsound
    next => exact h.failRequest false hq hsound

theorem Serves.badRwIntr (h : Serves c m₀ s.log s.queue) (sti : Bool) (hu : Unwaited c s) :
    Serving c m₀ (badRwIntr c sti s) := by
  cases hq : s.queue with
  | nil =>
    rw [Hd.badRwIntr, hq]
    exact serving_halted h (printing_nil hu.frames) rfl
  | cons r rest =>
    have hqueue := hu.queue
    rw [hq] at h hqueue
    have hr := hqueue r List.mem_cons_self
    have hbad : Sound { r with errors := r.errors + 1 } :=
      ⟨hr.small, hr.sector, hr.nrSectors, hr.completed, hr.buffer⟩
    have hserves : Serves c m₀ s.log ({ r with errors := r.errors + 1 } :: rest) :=
      ⟨h.1.congr rfl rfl rfl rfl, h.2⟩
    obtain ⟨b, he⟩ := @badRwIntr_cons c s sti r rest hq
    rw [he]
    split
    · exact Serves.failRequest (s := { s with
        queue := { r with errors := r.errors + 1 } :: rest }) hserves true rfl hbad
    · exact Serves.doHdRequest (s := { s with
        queue := { r with errors := r.errors + 1 } :: rest, reset := b }) hserves sti
        (List.forall_mem_cons.mpr ⟨hbad, fun q hmem => hqueue q (List.mem_cons_of_mem _ hmem)⟩)
        hu.frames

theorem Done.printed (h : Done c m₀ s.log) (count low : Bool)
    (hzero : ∀ q ∈ s.queue.tail, q.completed = 0) (hu : Unwaited c s) :
    Serving c m₀ (printed c count low s) := by
  cases hq : s.queue with
  | nil =>
    rw [Hd.printed, hq]
    refine serving_halted ?_ (printing_nil hu.frames) rfl
    show Serves c m₀ s.log s.queue
    rw [hq]
    exact h
  | cons r rest =>
    have hqueue := hu.queue
    rw [hq] at hzero hqueue
    obtain ⟨b, f, he, -⟩ := @printed_cons c s count low r rest hq
    rw [he]
    exact Serves.doHdRequest (s := { s with queue := rest, reset := b, fault := f })
      (h.serves hzero) true (fun q hmem => hqueue q (List.mem_cons_of_mem _ hmem)) hu.frames

theorem Serves.portMove (h : Serves c m₀ s.log s.queue) (hf : s.frames = [])
    (hq : s.queue = r :: rest) (hr : Sound r)
    (hsector : s.sector = (c.hd r.dev).startSect + r.sector)
    (hd : s.doHd = some .writeIntr) (hcmd : r.cmd = .write) : Serving c m₀ (portMove s) := by
  rw [hq] at h
  have hmoved := h.1.moved hr
  rw [← hsector] at hmoved
  rw [portMove_cons hq]
  refine serving_head ?_ (printing_nil hf) hq
    ⟨fun hread => ?_, fun _ => hcmd, fun _ _ => hmoved⟩
  · show Serves c m₀ (.moved r s.sector :: s.log) s.queue
    rw [hq]
    exact ⟨hmoved.mono (Nat.le_succ _), h.2⟩
  · have hread' : s.doHd = some .readIntr := hread
    rw [hd] at hread'
    cases hread'

theorem Serves.writeIntr (h : Serves c m₀ s.log s.queue) (ok : Bool) (hu : Unwaited c s)
    (hp : ∀ r rest, s.queue = r :: rest → s.sector = (c.hd r.dev).startSect + r.sector + 1 ∧
      r.cmd = .write ∧ Doing c m₀ s.log r (r.completed + 1)) :
    Serving c m₀ (writeIntr c ok s) := by
  cases ok with
  | false => exact h.badRwIntr false hu
  | true =>
    cases hq : s.queue with
    | nil =>
      rw [writeIntr_nil hq]
      exact serving_halted h (printing_nil hu.frames) rfl
    | cons r rest =>
      have hr := hu.queue r (hq ▸ List.mem_cons_self)
      have hrest : ∀ q ∈ rest, Sound q :=
        fun q hmem => hu.queue q (hq ▸ List.mem_cons_of_mem r hmem)
      obtain ⟨hsector, hcmd, hdoing⟩ := hp r rest hq
      rw [hq] at h
      rw [writeIntr_cons hq]
      split
      next hl =>
        rw [hr.last hl] at hdoing
        have hwhole : Doing c m₀ s.log (writeDone r) 2 := by
          refine hdoing.congr ?_ ?_ ?_ ?_ <;> rw [writeDone, if_pos hl]
        rw [@endRequest_cons { s with queue := writeDone r :: rest } (writeDone r) rest rfl]
        exact Serves.doHdRequest (s := { s with
          queue := rest, log := .ended (writeDone r) true :: s.log })
          (hwhole.succeeded.serves h.2) false hrest hu.frames
      next hl =>
        obtain ⟨hadv, hnext⟩ := hr.advance hl
        refine Serves.portMove (s := { s with queue := advance r :: rest, doHd := some .writeIntr })
          ⟨hdoing.congr rfl rfl rfl rfl, h.2⟩ hu.frames rfl hadv ?_ rfl hcmd
        show s.sector = (c.hd r.dev).startSect + (advance r).sector
        rw [hsector, hnext, Nat.add_assoc]

theorem Serves.readIntr (h : Serves c m₀ s.log s.queue) (ok : Bool) (hu : Unwaited c s)
    (hp : ∀ r rest, s.queue = r :: rest → s.sector = (c.hd r.dev).startSect + r.sector ∧
      r.cmd = .read) :
    Serving c m₀ (readIntr c ok s) := by
  cases ok with
  | false => exact h.badRwIntr false hu
  | true =>
    cases hq : s.queue with
    | nil =>
      rw [readIntr_nil hq]
      exact serving_halted h (printing_nil hu.frames) rfl
    | cons r rest =>
      have hr := hu.queue r (hq ▸ List.mem_cons_self)
      have hrest : ∀ q ∈ rest, Sound q :=
        fun q hmem => hu.queue q (hq ▸ List.mem_cons_of_mem r hmem)
      obtain ⟨hsector, hcmd⟩ := hp r rest hq
      rw [hq] at h
      have hmoved := h.1.moved hr
      rw [← hsector] at hmoved
      have hnew : Doing c m₀ (.moved r s.sector :: s.log) { advance r with errors := 0 }
          (r.completed + 1) := hmoved.congr rfl rfl rfl rfl
      rw [readIntr_cons hq]
      split
      next hl =>
        rw [hr.last hl] at hnew
        rw [@endRequest_cons (afterRead s r rest) { advance r with errors := 0 } rest rfl]
        exact Serves.doHdRequest (s := { afterRead s r rest with
          queue := rest
          log := .ended { advance r with errors := 0 } true :: (afterRead s r rest).log })
          (hnew.succeeded.serves h.2) false hrest hu.frames
      next hl =>
        refine serving_head (s := { afterRead s r rest with doHd := some .readIntr })
          ⟨hnew, h.2⟩ (printing_nil hu.frames) rfl
          ⟨fun _ => hcmd, fun hd => ?_, fun hd => ?_⟩
        · cases hd
        · cases hd

theorem Serves.recalIntr (h : Serves c m₀ s.log s.queue) (ok : Bool) (hu : Unwaited c s) :
    Serving c m₀ (recalIntr c ok s) := by
  cases ok with
  | false => exact h.badRwIntr false hu
  | true => exact h.doHdRequest false hu.queue hu.frames

theorem Serving.interrupt (h : Serving c m₀ s) (ok : Bool) (hu : Transfers c s)
    (hf : s.doHd ≠ none → s.frames = []) (hh : s.halted = false) :
    Serving c m₀ (interrupt c ok s) := by
  cases hd : s.doHd with
  | none =>
    rw [interrupt_none ok hd]
    exact h
  | some handler =>
    have hf := hf (by simp [hd])
    have hp := printing_nil hf
    have hidle : Unwaited c { s with doHd := none } := ⟨hu.log, hu.queue, hf⟩
    have hs : Serves c m₀ ({ s with doHd := none } : State).log
      ({ s with doHd := none } : State).queue := h.serves hp
    unfold Hd.interrupt
    rw [hd]
    dsimp only
    cases handler with
    | recalIntr => exact hs.recalIntr ok hidle
    | writeIntr =>
      refine hs.writeIntr ok hidle fun r rest hq => ?_
      have hhand := h.handles hh hp (resetting_nil hf) r rest hq
      exact ⟨(hu.placed hh r rest hq).write hf hd, hhand.write hd, hhand.moved hd hf⟩
    | readIntr =>
      refine hs.readIntr ok hidle fun r rest hq => ?_
      exact ⟨(hu.placed hh r rest hq).read hf hd,
        (h.handles hh hp (resetting_nil hf) r rest hq).read hd⟩

theorem Serving.addRequest (h : Serving c m₀ s) {req : Request} (hreq : Sound req)
    (hzero : req.completed = 0) (hf : s.frames = []) : Serving c m₀ (addRequest c req s) := by
  have hp := printing_nil hf
  have hs := h.serves hp
  unfold Hd.addRequest
  split
  next hq =>
    rw [hq] at hs
    refine Serves.doHdRequest (s := { s with queue := [req] }) (Done.serves hs ?_) true ?_ hf
    · simpa using hzero
    · simpa using hreq
  next r rest hq =>
    rw [hq] at hs
    refine serving_of ⟨hs.1, fun q hmem => ?_⟩ (printing_nil hf) fun hh r' rest' hq' => ?_
    · rcases mem_insert hmem with rfl | hmem
      · exact hzero
      · exact hs.2 q hmem
    · cases hq'
      have hhand := h.handles hh hp (resetting_nil hf) r rest hq
      exact ⟨hhand.read, hhand.write, hhand.moved⟩

theorem Serves.drqDone (h : Serves c m₀ s.log s.queue) (sti drq : Bool) (hu : Unwaited c s)
    (hp : ∀ r rest, s.queue = r :: rest → s.doHd = some .writeIntr ∧
      s.sector = (c.hd r.dev).startSect + r.sector ∧ r.cmd = .write) :
    Serving c m₀ (drqDone sti drq s) := by
  unfold Hd.drqDone
  split
  · cases hq : s.queue with
    | nil =>
      rw [Hd.portMove, hq]
      exact serving_halted h (printing_nil hu.frames) rfl
    | cons r rest =>
      obtain ⟨hw, hsector, hcmd⟩ := hp r rest hq
      exact h.portMove hu.frames hq (hu.queue r (hq ▸ List.mem_cons_self)) hsector hw hcmd
  · refine serving_of h rfl fun _ r rest hq => ?_
    obtain ⟨hw, -, hcmd⟩ := hp r rest hq
    exact ⟨fun hd => absurd (Option.some.inj (hw.symm.trans hd)) (by decide), fun _ => hcmd,
      fun _ hnil => absurd hnil (List.cons_ne_nil _ _)⟩

theorem serving_step {a : Action} {t : State} (h : Serving c m₀ s) (hu : Transfers c s)
    (hs : step c a s = some t) (ha : Quiet s a) : Serving c m₀ t := by
  obtain ⟨hh, ⟨dev, cmd, bh, blocknr, rfl, hf, rfl⟩ | ⟨drq, sti, rfl, hf, rfl⟩ |
    ⟨sti, rfl, hf, rfl⟩ | ⟨nr, rfl, hf, rfl⟩ | ⟨low, count, rfl, hf, rfl⟩ | ⟨ok, rfl, rfl⟩⟩ :=
    step_alone hs hu.once
  · exact h.addRequest (sound_newRequest dev cmd bh ha) rfl hf
  · have hp : printing s = false := by rw [printing, hf]
    refine Serves.drqDone (s := { s with frames := [] }) (h.serves hp) sti drq
      ⟨hu.log, hu.queue, rfl⟩ fun r rest hq => ?_
    obtain ⟨hd, hsector⟩ := (hu.placed hh r rest hq).first sti hf
    exact ⟨hd, hsector, (h.handles hh hp (by rw [resetting, hf]) r rest hq).write hd⟩
  · have hp : printing s = false := by rw [printing, hf]
    exact Serves.badRwIntr (s := { s with frames := [] }) (h.serves hp) sti ⟨hu.log, hu.queue, rfl⟩
  · have hp : printing s = false := by rw [printing, hf]
    exact Serves.recal (s := { s with frames := [] }) (h.serves hp) rfl ..
  · obtain ⟨hdone, hzero⟩ := h.failed (by rw [printing, hf])
    exact Done.printed (s := { s with frames := [] }) hdone count low hzero
      ⟨hu.log, hu.queue, rfl⟩
  · exact h.interrupt ok hu ha hh

theorem serving_start : Serving c m₀ start := by
  refine serving_of (fun m hm => ?_) rfl fun _ _ _ hq => by cases hq
  cases hm
  exact .nil m₀

end

end

/-- A handler of the right direction is called, and a device that transfers whole blocks has given
the same answers with the memory that there is now, up to the target of the current request. -/
structure Atomic (c : Config) (m₀ : Memory D) (s : State) : Prop where
  direction : s.halted = false → printing s = false → resetting s = false →
    ∀ r rest, s.queue = r :: rest →
      (s.doHd = some .readIntr → r.cmd = .read) ∧ (s.doHd = some .writeIntr → r.cmd = .write)
  device : ∀ m, Evolves c m₀ s.log m → ∃ a, Answers c m₀ s.log a ∧
    (s.queue = [] ∨ printing s = true → m = a) ∧ ∀ r rest, s.queue = r :: rest → Off c r a m

theorem Serving.atomic {c : Config} {m₀ : Memory D} {s : State} (h : Serving c m₀ s) :
    Atomic c m₀ s := by
  refine ⟨fun hh hp hr r rest hq => ?_, fun m hm => ?_⟩
  · have hhand := h.handles hh hp hr r rest hq
    exact ⟨hhand.read, hhand.write⟩
  · cases hp : printing s with
    | true => exact ⟨m, (h.failed hp).1 m hm, fun _ => rfl, fun _ _ _ => .refl⟩
    | false =>
      have hs := h.serves hp
      cases hq : s.queue with
      | nil =>
        rw [hq] at hs
        exact ⟨m, hs m hm, fun _ => rfl, fun _ _ hcons => by cases hcons⟩
      | cons r rest =>
        rw [hq] at hs
        obtain ⟨a, ha, hoff, -⟩ := hs.1 m hm
        refine ⟨a, ha, fun hdone => ?_, fun r' rest' hcons => ?_⟩
        · rcases hdone with hnil | hfalse
          · exact absurd hnil (List.cons_ne_nil _ _)
          · exact absurd hfalse Bool.false_ne_true
        · cases hcons
          exact hoff

/-- The driver is such a device, whatever the controller reports, as long as no handler is called
while a call of the driver waits. -/
theorem device_atomic {c : Config} (hc : Fits c) (m₀ : Memory D) {run : List Action}
    (h : Run.Meets (step c) Quiet run start) : Run.Always (step c) (Atomic c m₀) run start := by
  have hboth : Run.Always (step c) (fun s => Transfers c s ∧ Serving c m₀ s) run start :=
    Run.always_of_meets
      (fun _ _ _ hi hs ha => ⟨transfers_step hc hi.1 hs ha, serving_step hi.2 hi.1 hs ha⟩)
      ⟨transfers_start, serving_start⟩ h
  exact hboth.mono fun _ hs => hs.2.atomic

/-- Three requests end, the last one with an error. -/
theorem device_atomic_writeAndReads :
    Run.Always (step oneDisk) (Atomic oneDisk (⟨fun b k => 2 * b + k, fun _ x => x⟩ : Memory Nat))
      writeAndReads start :=
  device_atomic fits_oneDisk _ (by decide +kernel)

end Gpos.Hd
