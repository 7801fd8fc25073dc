import Gpos.DriverSafety

/-! The sectors that the driver transfers. -/

namespace Gpos.Hd

/-- Byte-sized and word-sized geometries, and partitions inside their disks. -/
structure Fits (c : Config) : Prop where
  head : ∀ dev < 5 * c.nrHd, 0 < (c.hdInfo (dev / 5)).head ∧ (c.hdInfo (dev / 5)).head ≤ 255
  sect : ∀ dev < 5 * c.nrHd, 0 < (c.hdInfo (dev / 5)).sect ∧ (c.hdInfo (dev / 5)).sect ≤ 255
  cyl : ∀ dev < 5 * c.nrHd, (c.hdInfo (dev / 5)).cyl ≤ 65535
  inside : ∀ dev < 5 * c.nrHd, (c.hd dev).startSect + (c.hd dev).nrSects ≤
    (c.hdInfo (dev / 5)).cyl * (c.hdInfo (dev / 5)).head * (c.hdInfo (dev / 5)).sect

/-- A command starts at the first sector that is not yet transferred, a
transfer moves a half of the block to or from its sector, and only a whole
block is up to date. -/
def Right (c : Config) : Event → Prop
  | .sent r sec head cyl =>
    (1 ≤ sec ∧ sec ≤ (c.hdInfo (r.dev / 5)).sect ∧ head < (c.hdInfo (r.dev / 5)).head) ∧
      (cyl * (c.hdInfo (r.dev / 5)).head + head) * (c.hdInfo (r.dev / 5)).sect + sec - 1 =
        (c.hd r.dev).startSect + r.sector ∧
      r.sector = 2 * r.blocknr + r.completed ∧ r.completed < 2
  | .moved r sector =>
    ∃ k < 2, r.buffer = 512 * k ∧ sector = (c.hd r.dev).startSect + 2 * r.blocknr + k
  | .ended r uptodate => uptodate = true ↔ r.completed = 2

def AllRight (c : Config) (s : State) : Prop := ∀ e ∈ s.log, Right c e

/-- No handler is called while a call of the driver waits, and the numbers of the
sectors do not overflow. -/
def Quiet (s : State) : Action → Prop
  | .add _ _ _ blocknr => 2 * blocknr + 2 < 2 ^ 32
  | .drq _ => True
  | .timeout => True
  | .reset => True
  | .printed _ => True
  | .interrupt _ => s.doHd ≠ none → s.frames = []

instance : ∀ s a, Decidable (Quiet s a)
  | _, .add .. => inferInstanceAs (Decidable (_ < _))
  | _, .drq _ => isTrue trivial
  | _, .timeout => isTrue trivial
  | _, .reset => isTrue trivial
  | _, .printed _ => isTrue trivial
  | _, .interrupt _ => inferInstanceAs (Decidable (_ → _))

structure Sound (r : Request) : Prop where
  small : 2 * r.blocknr + 2 < 2 ^ 32
  sector : r.sector = 2 * r.blocknr + r.completed
  nrSectors : r.nrSectors + r.completed = 2
  completed : r.completed < 2
  buffer : r.buffer = 512 * r.completed

/-- Where the command of the controller stands; in front of the transfer of a write it waits. -/
structure Placed (c : Config) (s : State) (r : Request) : Prop where
  read : s.frames = [] → s.doHd = some .readIntr → s.sector = (c.hd r.dev).startSect + r.sector
  first : ∀ sti, s.frames = [.poll sti] →
    s.doHd = some .writeIntr ∧ s.sector = (c.hd r.dev).startSect + r.sector
  write : s.frames = [] → s.doHd = some .writeIntr →
    s.sector = (c.hd r.dev).startSect + r.sector + 1

structure Transfers (c : Config) (s : State) : Prop where
  log : AllRight c s
  queue : ∀ r ∈ s.queue, Sound r
  once : s.frames.tail = []
  placed : s.halted = false → ∀ r rest, s.queue = r :: rest → Placed c s r

section

variable {c : Config} {s : State} {r : Request}

theorem chs_split {heads sects x : Nat} (hs : 0 < sects) (hh : 0 < heads) :
    (1 ≤ x % sects + 1 ∧ x % sects + 1 ≤ sects ∧ x / sects % heads < heads) ∧
      (x / sects / heads * heads + x / sects % heads) * sects + (x % sects + 1) - 1 = x := by
  have htrack : x / sects / heads * heads + x / sects % heads = x / sects := by
    rw [Nat.mul_comm, Nat.div_add_mod]
  have hx : x / sects * sects + x % sects = x := by rw [Nat.mul_comm, Nat.div_add_mod]
  refine ⟨⟨Nat.succ_pos _, Nat.mod_lt _ hs, Nat.mod_lt _ hh⟩, ?_⟩
  rw [htrack]
  omega

theorem cyl_lt {heads sects cyls x : Nat} (hx : x < cyls * heads * sects) :
    x / sects / heads < cyls := by
  rw [Nat.div_div_eq_div_mul, Nat.mul_comm sects]
  refine Nat.div_lt_of_lt_mul ?_
  rw [Nat.mul_comm, ← Nat.mul_assoc]
  exact hx

/-- Nothing overflows for a request that is accepted. -/
theorem Sound.block (hr : Sound r) (hc : Fits c) (ha : Accepts c r) :
    wrap (r.sector + (c.hd r.dev).startSect) = (c.hd r.dev).startSect + r.sector ∧
      (c.hd r.dev).startSect + r.sector < (c.hdInfo (r.dev / 5)).cyl * (c.hdInfo (r.dev / 5)).head *
        (c.hdInfo (r.dev / 5)).sect := by
  have h32 : (2 : Nat) ^ 32 = 4294967296 := rfl
  have hsmall := hr.small
  have hsector := hr.sector
  have hcompleted := hr.completed
  have hhead := (hc.head r.dev ha.1).2
  have hsect := (hc.sect r.dev ha.1).2
  have hcyl := hc.cyl r.dev ha.1
  have hinside := hc.inside r.dev ha.1
  have hacc := ha.2
  have htotal : (c.hdInfo (r.dev / 5)).cyl * (c.hdInfo (r.dev / 5)).head *
    (c.hdInfo (r.dev / 5)).sect ≤ 65535 * 255 * 255 :=
    Nat.mul_le_mul (Nat.mul_le_mul hcyl hhead) hsect
  generalize (c.hdInfo (r.dev / 5)).cyl * (c.hdInfo (r.dev / 5)).head *
    (c.hdInfo (r.dev / 5)).sect = total at hinside htotal ⊢
  unfold wrap at hacc ⊢
  rw [h32] at hsmall hacc ⊢
  rw [Nat.mod_eq_of_lt (by omega)] at hacc
  exact ⟨by rw [Nat.mod_eq_of_lt (by omega)]; omega, by omega⟩

/-- Nobody waits. -/
structure Unwaited (c : Config) (s : State) : Prop where
  log : AllRight c s
  queue : ∀ r ∈ s.queue, Sound r
  frames : s.frames = []

theorem Unwaited.transfers (h : Unwaited c s)
    (hp : s.halted = false → ∀ r rest, s.queue = r :: rest →
      (s.doHd = some .readIntr → s.sector = (c.hd r.dev).startSect + r.sector) ∧
        (s.doHd = some .writeIntr → s.sector = (c.hd r.dev).startSect + r.sector + 1)) :
    Transfers c s := by
  have hf := h.frames
  refine ⟨h.log, h.queue, by rw [hf]; rfl, fun hh r rest hqueue => ?_⟩
  obtain ⟨hread, hwrite⟩ := hp hh r rest hqueue
  exact ⟨fun _ => hread, fun sti hw => by simp [hf] at hw, fun _ => hwrite⟩

theorem Unwaited.halted (h : Unwaited c s) (hh : s.halted = true) : Transfers c s :=
  h.transfers fun hrun => by simp [hh] at hrun

theorem Unwaited.recal (h : Unwaited c s) (drive sect head cyl : Nat) :
    Transfers c (hdOut c drive sect head cyl .recalIntr s) := by
  unfold hdOut
  split
  · exact Unwaited.halted ⟨h.log, h.queue, h.frames⟩ rfl
  · exact Unwaited.transfers ⟨h.log, h.queue, h.frames⟩ fun _ _ _ _ => ⟨nofun, nofun⟩

theorem hdOut_sector (hr : Sound r) (hc : Fits c) (ha : Accepts c r) (h : Handler) (s : State) :
    let block := wrap (r.sector + (c.hd r.dev).startSect)
    let track := block / (c.hdInfo (r.dev / 5)).sect
    let s' :=
      hdOut c (r.dev / 5) (block % (c.hdInfo (r.dev / 5)).sect + 1)
        (track % (c.hdInfo (r.dev / 5)).head) (track / (c.hdInfo (r.dev / 5)).head) h s
    s'.halted = false →
      s' = { s with doHd := some h, sector := (c.hd r.dev).startSect + r.sector } := by
  obtain ⟨hblock, hlt⟩ := hr.block hc ha
  dsimp only
  rw [hblock]
  generalize (c.hd r.dev).startSect + r.sector = x at hlt ⊢
  obtain ⟨⟨-, hsec, -⟩, hx⟩ :=
    @chs_split (c.hdInfo (r.dev / 5)).head (c.hdInfo (r.dev / 5)).sect x (hc.sect r.dev ha.1).1
      (hc.head r.dev ha.1).1
  have hcyl := cyl_lt hlt
  have hcyls := hc.cyl r.dev ha.1
  have hsects := (hc.sect r.dev ha.1).2
  unfold hdOut
  split
  · exact fun h => nomatch h
  · intro _
    rw [Nat.mod_eq_of_lt
      (by omega : x / (c.hdInfo (r.dev / 5)).sect / (c.hdInfo (r.dev / 5)).head < 65536),
      Nat.mod_eq_of_lt (by omega : x % (c.hdInfo (r.dev / 5)).sect + 1 < 256), hx]

theorem right_sent (hr : Sound r) (hc : Fits c) (ha : Accepts c r) :
    let block := wrap (r.sector + (c.hd r.dev).startSect)
    let track := block / (c.hdInfo (r.dev / 5)).sect
    Right c (.sent r (block % (c.hdInfo (r.dev / 5)).sect + 1) (track % (c.hdInfo (r.dev / 5)).head)
      (track / (c.hdInfo (r.dev / 5)).head)) := by
  obtain ⟨hblock, -⟩ := hr.block hc ha
  dsimp only
  rw [hblock]
  obtain ⟨hrange, hx⟩ :=
    chs_split (x := (c.hd r.dev).startSect + r.sector) (hc.sect r.dev ha.1).1 (hc.head r.dev ha.1).1
  exact ⟨hrange, hx, hr.sector, hr.completed⟩

theorem AllRight.cons {e : Event} (h : AllRight c s) (he : Right c e) :
    ∀ e' ∈ e :: s.log, Right c e' := by
  intro e' he'
  rcases List.mem_cons.mp he' with rfl | he'
  · exact he
  · exact h e' he'

theorem hdOut_log (drive sect head cyl : Nat) (h : Handler) (s : State) :
    (hdOut c drive sect head cyl h s).log = s.log := by
  unfold hdOut
  split <;> rfl

theorem Unwaited.hdOut (drive sect head cyl : Nat) (hd : Handler) (h : Unwaited c s) :
    Unwaited c (hdOut c drive sect head cyl hd s) := by
  obtain ⟨hqueue, -, hframes⟩ := @hdOut_frame c drive sect head cyl hd s
  refine ⟨?_, ?_, hframes.trans h.frames⟩
  · rw [AllRight, hdOut_log]
    exact h.log
  · rw [hqueue]
    exact h.queue

theorem Unwaited.read {t : State} (ht : Unwaited c t) {rest : List Request}
    (hqueue : t.queue = r :: rest) (h : t.halted = false →
      t.doHd = some .readIntr ∧ t.sector = (c.hd r.dev).startSect + r.sector) : Transfers c t := by
  refine ht.transfers fun hh r' rest' hqueue' => ?_
  rw [hqueue] at hqueue'
  cases hqueue'
  refine ⟨fun _ => (h hh).2, fun hd => ?_⟩
  rw [(h hh).1] at hd
  cases hd

theorem Unwaited.wait {t : State} (sti : Bool) (ht : Unwaited c t) {rest : List Request}
    (hqueue : t.queue = r :: rest) (h : t.halted = false →
      t.doHd = some .writeIntr ∧ t.sector = (c.hd r.dev).startSect + r.sector) :
    Transfers c (waitDrq sti t) := by
  refine ⟨ht.log, ht.queue, ht.frames, fun hh r' rest' hqueue' => ?_⟩
  have he : r :: rest = r' :: rest' := hqueue.symm.trans hqueue'
  cases he
  exact ⟨nofun, fun _ _ => h hh, nofun⟩

theorem Unwaited.reset (h : Unwaited c s) (nr : Nat) (b : Bool) :
    Transfers c (resetHd nr { s with reset := false, recalibrate := b }) :=
  ⟨h.log, h.queue, h.frames, fun _ _ _ _ => ⟨nofun, fun _ => nofun, nofun⟩⟩

theorem Unwaited.send (hc : Fits c) (sti : Bool) {rest : List Request} (h : Unwaited c s)
    (hqueue : s.queue = r :: rest) (ha : Accepts c r) : Transfers c (sendCommand c sti r s) := by
  have hr : Sound r := h.queue r (hqueue ▸ List.mem_cons_self ..)
  unfold sendCommand
  dsimp only
  split
  · exact h.reset (r.dev / 5) true
  · split
    · exact @Unwaited.recal c { s with recalibrate := false } ⟨h.log, h.queue, h.frames⟩ _ _ _ _
    · have hevent := h.log.cons (right_sent hr hc ha)
      have hout := fun h s => @hdOut_sector c r hr hc ha h s
      dsimp only at hevent hout
      generalize wrap (r.sector + (c.hd r.dev).startSect) % (c.hdInfo (r.dev / 5)).sect + 1 =
        sec at hevent hout ⊢
      generalize wrap (r.sector + (c.hd r.dev).startSect) / (c.hdInfo (r.dev / 5)).sect %
        (c.hdInfo (r.dev / 5)).head = head at hevent hout ⊢
      generalize wrap (r.sector + (c.hd r.dev).startSect) / (c.hdInfo (r.dev / 5)).sect /
        (c.hdInfo (r.dev / 5)).head = cyl at hevent hout ⊢
      have hsent : Unwaited c { s with log := .sent r sec head cyl :: s.log } :=
        ⟨hevent, h.queue, h.frames⟩
      have hq := fun hd => (@hdOut_frame c (r.dev / 5) sec head cyl hd
        { s with log := .sent r sec head cyl :: s.log }).1.trans hqueue
      split
      next =>
        refine (hsent.hdOut _ _ _ _ _).wait sti (hq _) fun hh => ?_
        rw [hout _ _ hh]
        exact ⟨rfl, rfl⟩
      next =>
        refine (hsent.hdOut _ _ _ _ _).read (hq _) fun hh => ?_
        rw [hout _ _ hh]
        exact ⟨rfl, rfl⟩

theorem right_failed (hr : Sound r) : Right c (.ended r false) := by
  have := hr.completed
  exact ⟨nofun, fun h => by omega⟩

theorem Unwaited.failRequest (count : Bool) (h : Unwaited c s) {rest : List Request}
    (hqueue : s.queue = r :: rest) : Transfers c (failRequest count s) := by
  have hr : Sound r := h.queue r (hqueue ▸ List.mem_cons_self ..)
  rw [failRequest_cons hqueue]
  refine ⟨h.log.cons (right_failed hr), h.queue, h.frames, fun _ _ _ _ => ?_⟩
  exact ⟨nofun, fun _ hw => by simp at hw, nofun⟩

theorem Unwaited.doHdRequest (hc : Fits c) (sti : Bool) (h : Unwaited c s) :
    Transfers c (doHdRequest c sti s) := by
  unfold Hd.doHdRequest
  split
  next hqueue =>
    refine h.transfers fun _ r rest hcons => ?_
    rw [hqueue] at hcons
    cases hcons
  next r rest hqueue =>
    split
    next ha => exact h.send hc sti hqueue ha
    next => exact h.failRequest false hqueue

theorem Unwaited.badRwIntr (hc : Fits c) (sti : Bool) (h : Unwaited c s) :
    Transfers c (badRwIntr c sti s) := by
  cases hqueue : s.queue with
  | nil =>
    rw [Hd.badRwIntr, hqueue]
    exact Unwaited.halted ⟨h.log, by rw [crash]; exact h.queue, h.frames⟩ rfl
  | cons r rest =>
    have hq := h.queue
    rw [hqueue] at hq
    have hr := hq r (List.mem_cons_self ..)
    have hbad : ∀ q ∈ { r with errors := r.errors + 1 } :: rest, Sound q :=
      List.forall_mem_cons.mpr ⟨⟨hr.small, hr.sector, hr.nrSectors, hr.completed, hr.buffer⟩,
        fun q hmem => hq q (List.mem_cons_of_mem _ hmem)⟩
    obtain ⟨b, he⟩ := @badRwIntr_cons c s sti r rest hqueue
    rw [he]
    split
    · exact @Unwaited.failRequest c
        { s with queue := { r with errors := r.errors + 1 } :: rest } _ true
        ⟨h.log, hbad, h.frames⟩ rest rfl
    · exact @Unwaited.doHdRequest c
        { s with queue := { r with errors := r.errors + 1 } :: rest, reset := b } hc sti
        ⟨h.log, hbad, h.frames⟩

theorem Unwaited.printed (hc : Fits c) (count low : Bool) (h : Unwaited c s) :
    Transfers c (printed c count low s) := by
  cases hqueue : s.queue with
  | nil =>
    rw [Hd.printed, hqueue]
    exact Unwaited.halted ⟨h.log, by rw [crash]; exact h.queue, h.frames⟩ rfl
  | cons r rest =>
    have hq := h.queue
    rw [hqueue] at hq
    obtain ⟨b, f, he, -⟩ := @printed_cons c s count low r rest hqueue
    rw [he]
    exact @Unwaited.doHdRequest c { s with queue := rest, reset := b, fault := f } hc true
      ⟨h.log, fun q hmem => hq q (List.mem_cons_of_mem _ hmem), h.frames⟩

theorem right_moved (hr : Sound r) : Right c (.moved r ((c.hd r.dev).startSect + r.sector)) := by
  refine ⟨r.completed, hr.completed, hr.buffer, ?_⟩
  rw [hr.sector, Nat.add_assoc]

theorem Unwaited.portMove (hs : Unwaited c s)
    (h : ∀ r rest, s.queue = r :: rest → s.doHd = some .writeIntr ∧
      s.sector = (c.hd r.dev).startSect + r.sector) :
    Transfers c (portMove s) := by
  cases hqueue : s.queue with
  | nil =>
    rw [Hd.portMove, hqueue]
    exact Unwaited.halted ⟨hs.log, hs.queue, hs.frames⟩ rfl
  | cons r rest =>
    obtain ⟨hd, hsector⟩ := h r rest hqueue
    rw [portMove_cons hqueue]
    refine Unwaited.transfers ⟨hs.log.cons ?_, hs.queue, hs.frames⟩
      fun _ r' rest' hqueue' => ?_
    · rw [hsector]
      exact right_moved (hs.queue r (hqueue ▸ List.mem_cons_self ..))
    · have he : r :: rest = r' :: rest' := hqueue.symm.trans hqueue'
      cases he
      refine ⟨fun hr => ?_, fun _ => congrArg (· + 1) hsector⟩
      rw [hd] at hr
      cases hr

theorem Unwaited.drqDone (sti drq : Bool) (hs : Unwaited c s)
    (h : ∀ r rest, s.queue = r :: rest → s.doHd = some .writeIntr ∧
      s.sector = (c.hd r.dev).startSect + r.sector) :
    Transfers c (drqDone sti drq s) := by
  unfold Hd.drqDone
  split
  · exact hs.portMove h
  · exact ⟨hs.log, hs.queue, hs.frames, fun _ _ _ _ => ⟨nofun, fun _ => nofun, nofun⟩⟩

theorem Sound.advance (hr : Sound r) (hn : r.nrSectors - 1 ≠ 0) :
    Sound (advance r) ∧ (advance r).sector = r.sector + 1 := by
  have h32 : (2 : Nat) ^ 32 = 4294967296 := rfl
  have hsmall := hr.small
  have hsector := hr.sector
  have hcount := hr.nrSectors
  have hbuffer := hr.buffer
  have hwrap : wrap (r.sector + 1) = r.sector + 1 := by
    rw [wrap, h32, Nat.mod_eq_of_lt]
    omega
  refine ⟨⟨hr.small, ?_, ?_, ?_, ?_⟩, hwrap⟩
  · show wrap (r.sector + 1) = 2 * r.blocknr + (r.completed + 1)
    omega
  · show r.nrSectors - 1 + (r.completed + 1) = 2
    omega
  · show r.completed + 1 < 2
    omega
  · show r.buffer + 512 = 512 * (r.completed + 1)
    omega

theorem Sound.last (hr : Sound r) (hn : r.nrSectors - 1 = 0) : r.completed + 1 = 2 := by
  have := hr.nrSectors
  have := hr.completed
  omega

theorem transfers_ended (hc : Fits c) {r' : Request} {rest : List Request} (hlog : AllRight c s)
    (hqueue : s.queue = r' :: rest) (hq : ∀ r ∈ rest, Sound r) (hf : s.frames = [])
    (h2 : r'.completed = 2) : Transfers c (doHdRequest c false (endRequest s)) := by
  rw [endRequest_cons hqueue]
  exact Unwaited.doHdRequest hc false ⟨hlog.cons (iff_of_true rfl h2), hq, hf⟩

theorem writeIntr_nil (hqueue : s.queue = []) :
    writeIntr c true s = crash { s with doHd := some .writeIntr } := by
  simp [writeIntr, setCurrent, lastSector, portMove, crash, hqueue]

theorem writeIntr_cons {rest : List Request} (hqueue : s.queue = r :: rest) :
    writeIntr c true s = if r.nrSectors - 1 = 0 then doHdRequest c false
      (endRequest { s with queue := writeDone r :: rest })
    else portMove { s with queue := advance r :: rest, doHd := some .writeIntr } := by
  have hlast : lastSector { s with queue := writeDone r :: rest } = (r.nrSectors - 1 == 0) := by
    rw [lastSector]
    dsimp only
    rw [writeDone_nrSectors]
  unfold writeIntr
  rw [if_pos rfl, setCurrent_cons hqueue]
  dsimp only
  rw [hlast]
  by_cases hl : r.nrSectors - 1 = 0
  · rw [if_pos hl, if_pos (beq_iff_eq.mpr hl)]
  · rw [if_neg hl, if_neg fun h => hl (beq_iff_eq.mp h), writeDone, if_neg hl]

theorem Unwaited.writeIntr (hc : Fits c) (ok : Bool) (hs : Unwaited c s)
    (hp : ∀ r rest, s.queue = r :: rest → s.sector = (c.hd r.dev).startSect + r.sector + 1) :
    Transfers c (writeIntr c ok s) := by
  cases ok with
  | false => exact hs.badRwIntr hc false
  | true =>
    cases hqueue : s.queue with
    | nil =>
      rw [writeIntr_nil hqueue]
      exact Unwaited.halted ⟨hs.log, hs.queue, hs.frames⟩ rfl
    | cons r rest =>
      have hr := hs.queue r (hqueue ▸ List.mem_cons_self ..)
      have hrest : ∀ q ∈ rest, Sound q :=
        fun q hmem => hs.queue q (hqueue ▸ List.mem_cons_of_mem _ hmem)
      rw [writeIntr_cons hqueue]
      split
      next hl =>
        refine @transfers_ended c { s with queue := writeDone r :: rest } hc _ rest hs.log rfl hrest
          hs.frames ?_
        rw [writeDone, if_pos hl]
        exact hr.last hl
      next hl =>
        obtain ⟨hadv, hnext⟩ := hr.advance hl
        refine @Unwaited.portMove c { s with queue := advance r :: rest, doHd := some .writeIntr }
          ⟨hs.log, fun q hmem => ?_, hs.frames⟩ fun r' rest' hqueue' => ?_
        · rcases List.mem_cons.mp hmem with rfl | hmem
          · exact hadv
          · exact hrest q hmem
        · cases hqueue'
          refine ⟨rfl, (hp r rest hqueue).trans ?_⟩
          rw [hnext]
          rfl

def afterRead (s : State) (r : Request) (rest : List Request) : State :=
  { s with
    queue := { advance r with errors := 0 } :: rest, sector := s.sector + 1,
    log := .moved r s.sector :: s.log }

theorem readIntr_cons {rest : List Request} (hqueue : s.queue = r :: rest) :
    readIntr c true s = if r.nrSectors - 1 = 0 then doHdRequest c false
    (endRequest (afterRead s r rest)) else { afterRead s r rest with
      doHd := some .readIntr } := by
  have hset : setCurrent (fun r => { advance r with errors := 0 }) (portMove s) =
    afterRead s r rest := by
    rw [portMove_cons hqueue,
      @setCurrent_cons { s with
        sector := s.sector + 1, log := .moved r s.sector :: s.log } r rest hqueue]
    rfl
  unfold readIntr
  rw [if_pos rfl, hset]
  by_cases hl : r.nrSectors - 1 = 0
  · rw [if_pos hl]
    exact if_pos (beq_iff_eq.mpr hl)
  · rw [if_neg hl]
    exact if_neg fun h => hl (beq_iff_eq.mp h)

theorem readIntr_nil (hqueue : s.queue = []) :
    readIntr c true s = crash { s with doHd := some .readIntr } := by
  simp [readIntr, setCurrent, lastSector, portMove, crash, hqueue]

theorem Unwaited.readIntr (hc : Fits c) (ok : Bool) (hs : Unwaited c s)
    (hp : ∀ r rest, s.queue = r :: rest → s.sector = (c.hd r.dev).startSect + r.sector) :
    Transfers c (readIntr c ok s) := by
  cases ok with
  | false => exact hs.badRwIntr hc false
  | true =>
    cases hqueue : s.queue with
    | nil =>
      rw [readIntr_nil hqueue]
      exact Unwaited.halted ⟨hs.log, hs.queue, hs.frames⟩ rfl
    | cons r rest =>
      have hr := hs.queue r (hqueue ▸ List.mem_cons_self ..)
      have hrest : ∀ q ∈ rest, Sound q :=
        fun q hmem => hs.queue q (hqueue ▸ List.mem_cons_of_mem _ hmem)
      have hsector := hp r rest hqueue
      have hmoved : ∀ e ∈ .moved r s.sector :: s.log, Right c e :=
        hs.log.cons (hsector ▸ right_moved hr)
      rw [readIntr_cons hqueue]
      split
      next hl =>
        exact @transfers_ended c (afterRead s r rest) hc _ rest hmoved rfl hrest hs.frames
          (hr.last hl)
      next hl =>
        obtain ⟨hadv, hnext⟩ := hr.advance hl
        have hsound : Sound { advance r with errors := 0 } :=
          ⟨hadv.small, hadv.sector, hadv.nrSectors, hadv.completed, hadv.buffer⟩
        refine @Unwaited.read c { advance r with errors := 0 } { afterRead s r rest with
          doHd := some .readIntr }
          ⟨hmoved, fun q hmem => ?_, hs.frames⟩ rest rfl fun _ => ⟨rfl, ?_⟩
        · rcases List.mem_cons.mp hmem with rfl | hmem
          · exact hsound
          · exact hrest q hmem
        · show s.sector + 1 = (c.hd r.dev).startSect + (advance r).sector
          rw [hsector, hnext, Nat.add_assoc]

theorem Unwaited.recalIntr (hc : Fits c) (ok : Bool) (hs : Unwaited c s) :
    Transfers c (recalIntr c ok s) := by
  cases ok with
  | false => exact hs.badRwIntr hc false
  | true => exact hs.doHdRequest hc false

theorem interrupt_none (ok : Bool) (hd : s.doHd = none) : interrupt c ok s = s := by
  have he : ({ s with doHd := none } : State) = s := by rw [← hd]
  rw [interrupt, hd]
  exact he

theorem transfers_interrupt (hc : Fits c) (ok : Bool) (h : Transfers c s)
    (hf : s.doHd ≠ none → s.frames = []) (hh : s.halted = false) :
    Transfers c (interrupt c ok s) := by
  cases hd : s.doHd with
  | none =>
    rw [interrupt_none ok hd]
    exact h
  | some handler =>
    have hf := hf (by simp [hd])
    have hs : Unwaited c { s with doHd := none } := ⟨h.log, h.queue, hf⟩
    unfold interrupt
    rw [hd]
    dsimp only
    cases handler with
    | recalIntr => exact hs.recalIntr hc ok
    | writeIntr =>
      exact hs.writeIntr hc ok fun r rest hqueue => (h.placed hh r rest hqueue).write hf hd
    | readIntr =>
      exact hs.readIntr hc ok fun r rest hqueue => (h.placed hh r rest hqueue).read hf hd

theorem mem_insert {req tmp q : Request} {l : List Request} (h : q ∈ insert req tmp l) :
    q = req ∨ q ∈ l := by
  induction l generalizing tmp with
  | nil => exact Or.inl (List.mem_singleton.mp h)
  | cons next rest ih =>
    unfold insert at h
    split at h
    · exact List.mem_cons.mp h
    · rcases List.mem_cons.mp h with rfl | h
      · exact Or.inr (List.mem_cons_self ..)
      · exact (ih h).imp_right fun h => List.mem_cons_of_mem _ h

theorem sound_newRequest {blocknr : Nat} (dev : Nat) (cmd : Cmd) (bh : Nat)
    (h : 2 * blocknr + 2 < 2 ^ 32) : Sound (newRequest dev cmd bh blocknr) :=
  ⟨h, Nat.mod_eq_of_lt (Nat.lt_of_le_of_lt (Nat.le_add_right _ 2) h), rfl, Nat.zero_lt_two, rfl⟩

theorem transfers_addRequest (hc : Fits c) {req : Request} (h : Transfers c s) (hreq : Sound req)
    (hf : s.frames = []) : Transfers c (addRequest c req s) := by
  unfold addRequest
  split
  next hqueue =>
    refine Unwaited.doHdRequest hc true ⟨h.log, fun q hmem => ?_, hf⟩
    rw [List.mem_singleton.mp hmem]
    exact hreq
  next r rest hqueue =>
    refine ⟨h.log, fun q hmem => ?_, h.once, fun hh r' rest' hqueue' => ?_⟩
    · have hold : ∀ q ∈ r :: rest, Sound q := hqueue ▸ h.queue
      rcases List.mem_cons.mp hmem with rfl | hmem
      · exact hold q (List.mem_cons_self ..)
      · rcases mem_insert hmem with rfl | hmem
        · exact hreq
        · exact hold q (List.mem_cons_of_mem _ hmem)
    · have hplaced := h.placed hh r rest hqueue
      cases hqueue'
      exact ⟨hplaced.read, hplaced.first, hplaced.write⟩

/-- What a step does where at most one call waits. -/
theorem step_alone {a : Action} {t : State} (hs : step c a s = some t)
    (honce : s.frames.tail = []) : s.halted = false ∧
    ((∃ dev cmd bh blocknr, a = .add dev cmd bh blocknr ∧ s.frames = [] ∧
      t = addRequest c (newRequest dev cmd bh blocknr) s) ∨
    (∃ drq sti, a = .drq drq ∧ s.frames = [.poll sti] ∧
      t = drqDone sti drq { s with frames := [] }) ∨
    (∃ sti, a = .timeout ∧ s.frames = [.timeout sti] ∧
      t = badRwIntr c sti { s with frames := [] }) ∨
    (∃ nr, a = .reset ∧ s.frames = [.reset nr] ∧ t = resetDone c nr { s with frames := [] }) ∨
    (∃ low count, a = .printed low ∧ s.frames = [.print count] ∧
      t = printed c count low { s with frames := [] }) ∨
    ∃ ok, a = .interrupt ok ∧ t = interrupt c ok s) := by
  have hbelow : ∀ {f below}, s.frames = f :: below → below = [] := fun hf => by
    simpa [hf] using honce
  obtain ⟨hh, ⟨dev, cmd, bh, blocknr, ha, hf, ht⟩ | ⟨drq, sti, below, ha, hf, ht⟩ |
    ⟨sti, below, ha, hf, ht⟩ | ⟨nr, below, ha, hf, ht⟩ | ⟨low, count, below, ha, hf, ht⟩ |
    ⟨ok, ha, -, ht⟩⟩ := step_cases hs
  · exact ⟨hh, .inl ⟨dev, cmd, bh, blocknr, ha, hf, ht⟩⟩
  · obtain rfl := hbelow hf
    exact ⟨hh, .inr (.inl ⟨drq, sti, ha, hf, ht⟩)⟩
  · obtain rfl := hbelow hf
    exact ⟨hh, .inr (.inr (.inl ⟨sti, ha, hf, ht⟩))⟩
  · obtain rfl := hbelow hf
    exact ⟨hh, .inr (.inr (.inr (.inl ⟨nr, ha, hf, ht⟩)))⟩
  · obtain rfl := hbelow hf
    exact ⟨hh, .inr (.inr (.inr (.inr (.inl ⟨low, count, ha, hf, ht⟩))))⟩
  · exact ⟨hh, .inr (.inr (.inr (.inr (.inr ⟨ok, ha, ht⟩))))⟩

theorem transfers_step (hc : Fits c) {a : Action} {t : State} (h : Transfers c s)
    (hs : step c a s = some t) (ha : Quiet s a) : Transfers c t := by
  obtain ⟨hh, ⟨dev, cmd, bh, blocknr, rfl, hf, rfl⟩ | ⟨drq, sti, rfl, hf, rfl⟩ |
    ⟨sti, rfl, -, rfl⟩ | ⟨nr, rfl, -, rfl⟩ | ⟨low, count, rfl, -, rfl⟩ | ⟨ok, rfl, rfl⟩⟩ :=
    step_alone hs h.once
  · exact transfers_addRequest hc h (sound_newRequest dev cmd bh ha) hf
  · exact Unwaited.drqDone sti drq ⟨h.log, h.queue, rfl⟩ fun r rest hqueue =>
      (h.placed hh r rest hqueue).first sti hf
  · exact Unwaited.badRwIntr hc sti ⟨h.log, h.queue, rfl⟩
  · exact @Unwaited.recal c { s with frames := [] } ⟨h.log, h.queue, rfl⟩ ..
  · exact Unwaited.printed hc count low ⟨h.log, h.queue, rfl⟩
  · exact transfers_interrupt hc ok h ha hh

theorem transfers_start : Transfers c start :=
  ⟨nofun, nofun, rfl, fun _ _ _ h => nomatch h⟩

end

theorem fits_oneDisk : Fits oneDisk := by
  refine ⟨fun _ _ => ?_, fun _ _ => ?_, fun _ _ => ?_, fun dev _ => ?_⟩
  · show 0 < 4 ∧ 4 ≤ 255
    decide
  · show 0 < 17 ∧ 17 ≤ 255
    decide
  · show 100 ≤ 65535
    decide
  · show (if dev = 1 then (⟨17, 1000⟩ : HdStruct) else ⟨0, 0⟩).startSect +
      (if dev = 1 then (⟨17, 1000⟩ : HdStruct) else ⟨0, 0⟩).nrSects ≤ 100 * 4 * 17
    split <;> decide

/-- A write of which the first command times out, a read whose errors reset the controller, and
one that fails. -/
def writeAndReads : List Action :=
  [.add 1 .write 0 5, .drq false, .timeout, .drq true, .add 1 .read 1 499, .interrupt true,
    .interrupt true, .interrupt false, .interrupt false, .interrupt false, .interrupt false, .reset,
    .interrupt true, .interrupt true, .interrupt true, .interrupt true, .add 1 .read 2 499,
    .interrupt true, .interrupt false, .printed false]

end Gpos.Hd
