import Gpos.HardDisk

/-! The driver and its current request: when it works on one that is missing. -/

namespace Gpos.Hd

/-- No access has gone through the null pointer, and a handler has a request. -/
def Safe (s : State) : Prop := s.fault = false ∧ (s.doHd ≠ none → s.queue ≠ [])

def afterError (s : State) : List Request :=
  match s.queue with
  | [] => []
  | r :: rest => if maxErrors ≤ r.errors + 1 then rest else r :: rest

def lastOne (s : State) : Bool :=
  match s.queue with
  | [] => false
  | r :: _ => r.nrSectors - 1 == 0

section

variable (c : Config)

/-- A request that will be accepted is in the list. -/
def Remains (l : List Request) : Prop := ∃ r ∈ l, Accepts c r

instance (l : List Request) : Decidable (Remains c l) :=
  inferInstanceAs (Decidable (∃ r ∈ l, Accepts c r))

/-- `end_request(0)` prints its messages. -/
def printing (s : State) : Bool :=
  match s.frames with
  | .print _ :: _ => true
  | _ => false

/-- `reset_controller` is at work. -/
def resetting (s : State) : Bool :=
  match s.frames with
  | .reset _ :: _ => true
  | _ => false

/-- A call of the driver is at work outside of the loop for `DRQ_STAT`. -/
def working (s : State) : Bool :=
  match s.frames with
  | .timeout _ :: _ => true
  | .reset _ :: _ => true
  | .print _ :: _ => true
  | _ => false

/-- An error is not the last one of the last request, a request that is accepted
remains where `do_hd_request` has left a handler or is interrupted, and no
handler is called while `do_hd_request` gives up the loop for `DRQ_STAT`, the
controller is reset or a request is on its way out of the queue. -/
def Spares (s : State) : Action → Prop
  | .add .. => True
  | .drq _ => True
  | .timeout => Remains c (afterError s)
  | .reset => True
  | .printed _ => True
  | .interrupt ok => s.doHd ≠ none → working s = false ∧
      (ok = false → afterError s ≠ [] ∧ (s.frames ≠ [] → Remains c (afterError s))) ∧
      (ok = true → s.frames ≠ [] →
        (s.doHd = some .recalIntr → Remains c s.queue) ∧
        (s.doHd ≠ some .recalIntr → lastOne s = true → Remains c s.queue.tail))

instance : ∀ s a, Decidable (Spares c s a)
  | _, .add .. => isTrue trivial
  | _, .drq _ => isTrue trivial
  | s, .timeout => inferInstanceAs (Decidable (Remains c (afterError s)))
  | _, .reset => isTrue trivial
  | _, .printed _ => isTrue trivial
  | _, .interrupt _ => inferInstanceAs (Decidable (_ → _ ∧ _ ∧ _))

/-- Every call waits for `DRQ_STAT`. -/
def Polls (l : List Frame) : Prop := ∀ f ∈ l, ∃ sti, f = Frame.poll sti

/-- Where somebody prints, the request behind the current one is looked at. -/
structure Inv (s : State) : Prop where
  fault : s.fault = false
  handler : s.doHd ≠ none → s.queue ≠ []
  wait : s.frames ≠ [] → s.queue ≠ []
  below : Polls s.frames.tail
  count : s.frames.head? = some (.print true) → s.queue.tail ≠ []
  behind : printing s = true → Remains c s.queue.tail ∨ s.doHd = none ∧ s.frames.tail = []

end

section

variable {c : Config} {s : State}

theorem step_cases {a : Action} {t : State} (hs : step c a s = some t) : s.halted = false ∧
    ((∃ dev cmd bh blocknr, a = .add dev cmd bh blocknr ∧ s.frames = [] ∧
      t = addRequest c (newRequest dev cmd bh blocknr) s) ∨
    (∃ drq sti below, a = .drq drq ∧ s.frames = .poll sti :: below ∧
      t = drqDone sti drq { s with frames := below }) ∨
    (∃ sti below, a = .timeout ∧ s.frames = .timeout sti :: below ∧
      t = badRwIntr c sti { s with frames := below }) ∨
    (∃ nr below, a = .reset ∧ s.frames = .reset nr :: below ∧
      t = resetDone c nr { s with frames := below }) ∨
    (∃ low count below, a = .printed low ∧ s.frames = .print count :: below ∧
      t = printed c count low { s with frames := below }) ∨
    ∃ ok, a = .interrupt ok ∧ enabled s.frames = true ∧ t = interrupt c ok s) := by
  unfold step at hs
  split at hs
  · cases hs
  next hh =>
    refine ⟨Bool.eq_false_iff.mpr hh, ?_⟩
    split at hs
    next dev cmd bh blocknr hf =>
      exact .inl ⟨dev, cmd, bh, blocknr, rfl, hf, (Option.some.inj hs).symm⟩
    next drq sti below hf =>
      exact .inr (.inl ⟨drq, sti, below, rfl, hf, (Option.some.inj hs).symm⟩)
    next sti below hf =>
      exact .inr (.inr (.inl ⟨sti, below, rfl, hf, (Option.some.inj hs).symm⟩))
    next nr below hf =>
      exact .inr (.inr (.inr (.inl ⟨nr, below, rfl, hf, (Option.some.inj hs).symm⟩)))
    next low count below hf =>
      exact .inr (.inr (.inr (.inr (.inl ⟨low, count, below, rfl, hf, (Option.some.inj hs).symm⟩))))
    next ok =>
      split at hs
      next he =>
        exact .inr (.inr (.inr (.inr (.inr ⟨ok, rfl, he, (Option.some.inj hs).symm⟩))))
      next => cases hs
    next => cases hs

theorem hdOut_frame (drive sect head cyl : Nat) (h : Handler) (s : State) :
    (hdOut c drive sect head cyl h s).queue = s.queue ∧
      (hdOut c drive sect head cyl h s).fault = s.fault ∧
        (hdOut c drive sect head cyl h s).frames = s.frames := by
  unfold hdOut
  split <;> exact ⟨rfl, rfl, rfl⟩

theorem resetDone_frame (nr : Nat) (s : State) :
    (resetDone c nr s).queue = s.queue ∧ (resetDone c nr s).fault = s.fault ∧
      (resetDone c nr s).frames = s.frames := hdOut_frame ..

theorem sendCommand_frame (sti : Bool) (r : Request) (s : State) :
    (sendCommand c sti r s).queue = s.queue ∧ (sendCommand c sti r s).fault = s.fault ∧
      ((sendCommand c sti r s).frames = s.frames ∨
        (sendCommand c sti r s).frames = .poll sti :: s.frames ∨
          (sendCommand c sti r s).frames = .reset (r.dev / 5) :: s.frames) := by
  unfold sendCommand resetHd
  dsimp only
  have hout := fun drive sect head cyl h s => @hdOut_frame c drive sect head cyl h s
  split
  · exact ⟨rfl, rfl, .inr (.inr rfl)⟩
  · split
    · exact ⟨(hout ..).1, (hout ..).2.1, .inl (hout ..).2.2⟩
    · split
      · exact ⟨(hout ..).1, (hout ..).2.1, .inr (.inl (congrArg _ (hout ..).2.2))⟩
      · exact ⟨(hout ..).1, (hout ..).2.1, .inl (hout ..).2.2⟩

theorem Polls.cons {l : List Frame} (h : Polls l) (sti : Bool) : Polls (.poll sti :: l) :=
  List.forall_mem_cons.mpr ⟨⟨sti, rfl⟩, h⟩

theorem printing_nil (hf : s.frames = []) : printing s = false := by
  rw [printing, hf]

theorem resetting_nil (hf : s.frames = []) : resetting s = false := by
  rw [resetting, hf]

theorem Polls.not_printing (h : Polls s.frames) : printing s = false := by
  unfold printing
  split
  next hf =>
    obtain ⟨sti, he⟩ := h _ (hf ▸ List.mem_cons_self)
    cases he
  next => rfl

theorem Polls.no_print (h : Polls s.frames) (count : Bool) :
    s.frames.head? ≠ some (.print count) := fun hf => by
  obtain ⟨sti, he⟩ := h _ (List.mem_of_head? hf)
  cases he

theorem Inv.polls (h : Inv c s) (hw : working s = false) : Polls s.frames := by
  have hbelow := h.below
  unfold working at hw
  cases hf : s.frames with
  | nil => exact nofun
  | cons f l =>
    rw [hf] at hw hbelow
    cases f with
    | poll sti => exact hbelow.cons sti
    | timeout sti => cases hw
    | reset nr => cases hw
    | print count => cases hw

theorem Inv.of_queue (hf : s.fault = false) (hq : s.queue ≠ []) (hp : Polls s.frames) :
    Inv c s :=
  ⟨hf, fun _ => hq, fun _ => hq, fun f hm => hp f (List.mem_of_mem_tail hm),
    fun h => absurd h (hp.no_print true),
    fun h => by rw [hp.not_printing] at h; cases h⟩

/-- A call is at work, but does not print. -/
theorem inv_front {f : Frame} {below : List Frame} (hf : s.fault = false) (hq : s.queue ≠ [])
    (hs : s.frames = f :: below) (hp : Polls below) (hw : ∀ count, f ≠ .print count) :
    Inv c s := by
  refine ⟨hf, fun _ => hq, fun _ => hq, by rwa [hs], fun h => ?_, fun h => ?_⟩
  · rw [hs] at h
    exact absurd (Option.some.inj h) (hw true)
  · unfold printing at h
    rw [hs] at h
    cases f with
    | print count => exact absurd rfl (hw count)
    | poll sti => cases h
    | timeout sti => cases h
    | reset nr => cases h

theorem Inv.safe (h : Inv c s) : Safe s := ⟨h.fault, h.handler⟩

theorem failRequest_cons {r : Request} {rest : List Request} (h : s.queue = r :: rest)
    (count : Bool) :
    failRequest count s = { s with
      frames := .print count :: s.frames, log := .ended r false :: s.log } := by
  rw [failRequest, h]

theorem inv_failRequest {r : Request} {rest : List Request} (count : Bool)
    (hq : s.queue = r :: rest) (hf : s.fault = false) (hp : Polls s.frames)
    (hc : count = true → rest ≠ [])
    (h : Remains c rest ∨ s.doHd = none ∧ s.frames = []) : Inv c (failRequest count s) := by
  have hne : s.queue ≠ [] := by simp [hq]
  rw [failRequest_cons hq]
  refine ⟨hf, fun _ => hne, fun _ => hne, hp, fun hh => ?_, fun _ => ?_⟩
  · have htrue : count = true := by simpa using hh
    simpa [hq] using hc htrue
  · simpa [hq] using h

/-- `do_hd_request` sends a command or has a request behind the one that it
refuses, or there was nothing to be kept. -/
theorem inv_doHdRequest (sti : Bool) (hf : s.fault = false) (hp : Polls s.frames)
    (h : Remains c s.queue ∨ s.doHd = none ∧ s.frames = []) : Inv c (doHdRequest c sti s) := by
  unfold doHdRequest
  split
  next hq =>
    rcases h with ⟨r, hr, -⟩ | ⟨hd, hi⟩
    · rw [hq] at hr
      cases hr
    · refine ⟨hf, fun hne => absurd hd hne, fun hne => absurd hi hne, ?_, fun hh => ?_,
        fun hh => ?_⟩
      · rw [hi]
        exact nofun
      · exact absurd hh (hp.no_print true)
      · rw [hp.not_printing] at hh
        cases hh
  next r rest hq =>
    split
    next =>
      obtain ⟨hqueue, hfault, hframes⟩ := @sendCommand_frame c sti r s
      have hne : (sendCommand c sti r s).queue ≠ [] := by rw [hqueue, hq]; simp
      rcases hframes with he | he | he
      · exact Inv.of_queue (hfault.trans hf) hne (he ▸ hp)
      · exact Inv.of_queue (hfault.trans hf) hne (he ▸ hp.cons sti)
      · exact inv_front (hfault.trans hf) hne he hp nofun
    next hacc =>
      refine inv_failRequest false hq hf hp nofun (h.imp_left ?_)
      rintro ⟨q, hmem, haccq⟩
      rw [hq] at hmem
      rcases List.mem_cons.mp hmem with rfl | hmem
      · exact absurd haccq hacc
      · exact ⟨q, hmem, haccq⟩

theorem checkErrors_eq (low : Bool) (hne : s.queue ≠ []) :
    ∃ b, checkErrors low s = { s with reset := b } := by
  unfold checkErrors
  split
  next hq => exact absurd hq hne
  next =>
    split
    · exact ⟨true, rfl⟩
    · exact ⟨s.reset, rfl⟩

theorem badRwIntr_cons (sti : Bool) {r : Request} {rest : List Request}
    (hq : s.queue = r :: rest) :
    ∃ b, badRwIntr c sti s =
      if maxErrors ≤ r.errors + 1 then
        failRequest true { s with queue := { r with errors := r.errors + 1 } :: rest }
      else
        doHdRequest c sti
          { s with queue := { r with errors := r.errors + 1 } :: rest, reset := b } := by
  obtain ⟨b, hb⟩ :=
    @checkErrors_eq { s with queue := { r with errors := r.errors + 1 } :: rest } false (by simp)
  refine ⟨b, ?_⟩
  rw [badRwIntr, hq]
  dsimp only
  rw [hb]

theorem inv_badRwIntr (sti : Bool) (hf : s.fault = false) (hp : Polls s.frames)
    (hne : afterError s ≠ [])
    (h : Remains c (afterError s) ∨ s.doHd = none ∧ s.frames = []) :
    Inv c (badRwIntr c sti s) := by
  cases hq : s.queue with
  | nil => simp [afterError, hq] at hne
  | cons r rest =>
    obtain ⟨b, hb⟩ := @badRwIntr_cons c s sti r rest hq
    have hafter : afterError s = if maxErrors ≤ r.errors + 1 then rest else r :: rest := by
      rw [afterError, hq]
    rw [hafter] at hne h
    rw [hb]
    split
    next hl =>
      rw [if_pos hl] at hne h
      exact inv_failRequest true rfl hf hp (fun _ => hne) h
    next hl =>
      rw [if_neg hl] at h
      refine inv_doHdRequest sti hf hp (h.imp_left ?_)
      rintro ⟨q, hmem, hacc⟩
      rcases List.mem_cons.mp hmem with rfl | hmem
      · exact ⟨_, List.mem_cons_self, hacc⟩
      · exact ⟨q, List.mem_cons_of_mem _ hmem, hacc⟩

/-- The comparison behind the messages goes through the null pointer if no request is left. -/
theorem printed_cons (count low : Bool) {r : Request} {rest : List Request}
    (hq : s.queue = r :: rest) :
    ∃ b f, printed c count low s =
        doHdRequest c true { s with queue := rest, reset := b, fault := f } ∧
      ((count = true → rest ≠ []) → f = s.fault) := by
  have he : printed c count low s = doHdRequest c true
      (if count then checkErrors low { s with queue := rest } else { s with queue := rest }) := by
    rw [printed, hq]
  cases count with
  | false => exact ⟨s.reset, s.fault, he, fun _ => rfl⟩
  | true =>
    cases hrest : rest with
    | nil =>
      subst hrest
      exact ⟨s.reset || low, true, he, fun h => absurd rfl (h rfl)⟩
    | cons r' rest' =>
      obtain ⟨b, hb⟩ := @checkErrors_eq { s with queue := rest } low (by simp [hrest])
      rw [if_pos rfl, hb, hrest] at he
      exact ⟨b, s.fault, he, fun _ => rfl⟩

theorem inv_printed {count : Bool} {below : List Frame} (low : Bool) (h : Inv c s)
    (hf : s.frames = .print count :: below) :
    Inv c (printed c count low { s with frames := below }) := by
  have hq := h.wait (by simp [hf])
  have hp : Polls below := by simpa [hf] using h.below
  have hbehind := h.behind (by rw [printing, hf])
  obtain ⟨r, rest, hqueue⟩ := List.exists_cons_of_ne_nil hq
  have hrest : Remains c rest ∨ s.doHd = none ∧ below = [] := by
    simpa [hqueue, hf] using hbehind
  obtain ⟨b, f, he, hfault⟩ := @printed_cons c { s with frames := below } count low r rest hqueue
  have hsame : f = s.fault := hfault fun hc => by
    subst hc
    simpa [hqueue] using h.count (by rw [hf]; rfl)
  rw [he, hsame]
  exact inv_doHdRequest true h.fault hp hrest

theorem remains_or_idle {l : List Request} (hd : s.doHd = none)
    (h : s.frames ≠ [] → Remains c l) : Remains c l ∨ s.doHd = none ∧ s.frames = [] := by
  by_cases hf : s.frames = []
  · exact .inr ⟨hd, hf⟩
  · exact .inl (h hf)

theorem Remains.ne_nil {l : List Request} (h : Remains c l) : l ≠ [] := by
  rintro rfl
  obtain ⟨r, hr, -⟩ := h
  cases hr

theorem inv_portMove (hf : s.fault = false) (hq : s.queue ≠ []) (hp : Polls s.frames) :
    Inv c (portMove s) := by
  unfold portMove
  split
  next h => exact absurd h hq
  next => exact Inv.of_queue hf hq hp

theorem inv_addRequest (req : Request) (h : Inv c s) (hf : s.frames = []) :
    Inv c (addRequest c req s) := by
  have hp : Polls s.frames := by
    rw [hf]
    exact nofun
  unfold addRequest
  split
  next hq =>
    have hd : s.doHd = none := Classical.byContradiction fun hne => h.handler hne hq
    exact inv_doHdRequest true h.fault hp (.inr ⟨hd, hf⟩)
  next => exact Inv.of_queue h.fault (by simp) hp

theorem inv_drqDone (sti drq : Bool) (hf : s.fault = false) (hq : s.queue ≠ [])
    (hp : Polls s.frames) : Inv c (drqDone sti drq s) := by
  unfold drqDone
  split
  next => exact inv_portMove hf hq hp
  next => exact inv_front hf hq rfl hp nofun

theorem endRequest_cons {r : Request} {rest : List Request} (h : s.queue = r :: rest) :
    endRequest s = { s with queue := rest, log := .ended r true :: s.log } := by
  rw [endRequest, h]

theorem inv_endRequest (hf : s.fault = false) (hq : s.queue ≠ []) (hd : s.doHd = none)
    (hp : Polls s.frames) (h : s.frames ≠ [] → Remains c s.queue.tail) :
    Inv c (doHdRequest c false (endRequest s)) := by
  cases hqueue : s.queue with
  | nil => exact absurd hqueue hq
  | cons r rest =>
    rw [hqueue] at h
    rw [endRequest_cons hqueue]
    exact inv_doHdRequest false hf hp (remains_or_idle hd h)

theorem writeDone_nrSectors (r : Request) : (writeDone r).nrSectors = r.nrSectors - 1 := by
  unfold writeDone
  split <;> rfl

theorem setCurrent_cons {r : Request} {rest : List Request} (h : s.queue = r :: rest)
    (f : Request → Request) : setCurrent f s = { s with queue := f r :: rest } := by
  rw [setCurrent, h]

theorem portMove_cons {r : Request} {rest : List Request} (h : s.queue = r :: rest) :
    portMove s = { s with sector := s.sector + 1, log := .moved r s.sector :: s.log } := by
  rw [portMove, h]

section

variable {ok : Bool} (hf : s.fault = false) (hd : s.doHd = none) (hp : Polls s.frames)
  (herr : ok = false → afterError s ≠ [] ∧ (s.frames ≠ [] → Remains c (afterError s)))

include hf hd hp herr

theorem inv_error (h : ok = false) : Inv c (badRwIntr c false s) :=
  inv_badRwIntr false hf hp (herr h).1 (remains_or_idle hd (herr h).2)

theorem inv_writeIntr (hq : s.queue ≠ [])
    (hlast : ok = true → s.frames ≠ [] → lastOne s = true → Remains c s.queue.tail) :
    Inv c (writeIntr c ok s) := by
  cases ok with
  | false => exact inv_error hf hd hp herr rfl
  | true =>
    cases hqueue : s.queue with
    | nil => exact absurd hqueue hq
    | cons r rest =>
      unfold writeIntr
      rw [setCurrent_cons hqueue]
      dsimp only
      rw [if_pos rfl]
      split
      next hl =>
        refine inv_endRequest hf (by simp) hd hp fun ht => ?_
        have hone : lastOne s = true := by
          rw [lastOne, hqueue]
          have hnone : ((writeDone r).nrSectors == 0) = true := hl
          rwa [writeDone_nrSectors] at hnone
        have htail := hlast rfl ht hone
        rwa [hqueue] at htail
      next => exact inv_portMove hf (by simp) hp

theorem inv_readIntr (hq : s.queue ≠ [])
    (hlast : ok = true → s.frames ≠ [] → lastOne s = true → Remains c s.queue.tail) :
    Inv c (readIntr c ok s) := by
  cases ok with
  | false => exact inv_error hf hd hp herr rfl
  | true =>
    cases hqueue : s.queue with
    | nil => exact absurd hqueue hq
    | cons r rest =>
      unfold readIntr
      rw [portMove_cons hqueue]
      rw [@setCurrent_cons { s with
        sector := s.sector + 1, log := .moved r s.sector :: s.log } r rest hqueue]
      dsimp only
      rw [if_pos rfl]
      split
      next hl =>
        refine inv_endRequest hf (by simp) hd hp fun ht => ?_
        have hone : lastOne s = true := by
          rw [lastOne, hqueue]
          exact hl
        have htail := hlast rfl ht hone
        rwa [hqueue] at htail
      next => exact Inv.of_queue hf (by simp) hp

theorem inv_recalIntr (hok : ok = true → s.frames ≠ [] → Remains c s.queue) :
    Inv c (recalIntr c ok s) := by
  cases ok with
  | false => exact inv_error hf hd hp herr rfl
  | true => exact inv_doHdRequest false hf hp (remains_or_idle hd (hok rfl))

end

theorem inv_interrupt {ok : Bool} (h : Inv c s) (hs : Spares c s (.interrupt ok)) :
    Inv c (interrupt c ok s) := by
  unfold interrupt
  dsimp only
  cases hd : s.doHd with
  | none =>
    have he : ({ s with doHd := none } : State) = s := by rw [← hd]
    rw [he]
    exact h
  | some handler =>
    have hne : s.doHd ≠ none := by simp [hd]
    have hq := h.handler hne
    obtain ⟨hwork, herr, hok⟩ := hs hne
    have hp := h.polls hwork
    cases handler with
    | recalIntr =>
      exact @inv_recalIntr c { s with doHd := none } ok h.fault rfl hp herr
        fun ho ht => (hok ho ht).1 hd
    | writeIntr =>
      exact @inv_writeIntr c { s with doHd := none } ok h.fault rfl hp herr hq
        fun ho ht => (hok ho ht).2 (by simp [hd])
    | readIntr =>
      exact @inv_readIntr c { s with doHd := none } ok h.fault rfl hp herr hq
        fun ho ht => (hok ho ht).2 (by simp [hd])

theorem inv_step {a : Action} {t : State} (h : Inv c s) (hs : step c a s = some t)
    (ha : Spares c s a) : Inv c t := by
  obtain ⟨-, ⟨dev, cmd, bh, blocknr, rfl, hf, rfl⟩ | ⟨drq, sti, below, rfl, hf, rfl⟩ |
    ⟨sti, below, rfl, hf, rfl⟩ | ⟨nr, below, rfl, hf, rfl⟩ | ⟨low, count, below, rfl, hf, rfl⟩ |
    ⟨ok, rfl, -, rfl⟩⟩ := step_cases hs
  · exact inv_addRequest _ h hf
  · have hp : Polls below := by simpa [hf] using h.below
    exact inv_drqDone sti drq h.fault (h.wait (by simp [hf])) hp
  · have hp : Polls below := by simpa [hf] using h.below
    exact inv_badRwIntr sti h.fault hp ha.ne_nil (.inl ha)
  · have hp : Polls below := by simpa [hf] using h.below
    obtain ⟨hqueue, hfault, hframes⟩ := @resetDone_frame c nr { s with frames := below }
    have hq := h.wait (by simp [hf])
    exact Inv.of_queue (hfault.trans h.fault) (by rwa [hqueue]) (by rwa [hframes])
  · exact inv_printed low h hf
  · exact inv_interrupt h ha

theorem inv_start : Inv c start :=
  ⟨rfl, fun h => absurd rfl h, fun h => absurd rfl h, nofun, nofun, nofun⟩

/-- As long as every error and every interrupt spares a request, the driver has one whenever
it works on one. -/
theorem driver_safe {run : List Action} (h : Run.Meets (step c) (Spares c) run start) :
    Run.Always (step c) Safe run start :=
  (Run.always_of_meets (fun _ _ _ hi hs ha => inv_step hi hs ha) inv_start h).mono
    fun _ hi => hi.safe

end

def oneDisk : Config :=
  ⟨1, fun dev => if dev = 1 then ⟨17, 1000⟩ else ⟨0, 0⟩, fun _ => ⟨4, 17, 100⟩⟩

/-- A write that is refused between two others. The handler that refuses it waits for the
second one with interrupts enabled, and is interrupted. -/
def refusedBetween : List Action :=
  [.add 1 .write 0 5, .drq true, .add 0 .write 1 1, .add 1 .write 2 6, .interrupt true,
    .interrupt true, .interrupt true, .printed false, .interrupt false, .drq true, .drq true,
    .interrupt true, .interrupt true]

theorem driver_safe_refusedBetween :
    Run.Always (step oneDisk) Safe refusedBetween start := driver_safe (by decide +kernel)

/-- A read that fails. The controller is reset from the fourth error on. -/
def sevenErrors : List Action :=
  [.add 1 .read 0 5, .interrupt false, .interrupt false, .interrupt false, .interrupt false,
    .reset, .interrupt false, .reset, .interrupt false, .reset, .interrupt false, .printed false]

/-- The last error of the last request. -/
theorem driver_unsafe :
    ¬ ∀ (c : Config) (run : List Action), Run.Always (step c) Safe run start := by
  intro h
  have hrun := h oneDisk sevenErrors
  have hlast : (Run.exec (step oneDisk) sevenErrors start).map State.fault = some true := by
    decide +kernel
  obtain ⟨s, hs, hfault⟩ := Option.map_eq_some_iff.mp hlast
  have hsafe := (hrun.last hs).1
  rw [hfault] at hsafe
  cases hsafe

end Gpos.Hd
