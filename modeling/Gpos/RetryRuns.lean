import Gpos.Retries

/-! Every request is ended after so many results of the controller. -/

namespace Gpos.Hd

/-- No handler is called while a call of the driver waits. -/
def Calm (s : State) : Action → Prop
  | .interrupt _ => s.doHd ≠ none → s.frames = []
  | .add .. => True
  | .drq _ => True
  | .timeout => True
  | .reset => True
  | .printed _ => True

instance : ∀ s a, Decidable (Calm s a)
  | _, .interrupt _ => inferInstanceAs (Decidable (_ → _))
  | _, .add .. => isTrue trivial
  | _, .drq _ => isTrue trivial
  | _, .timeout => isTrue trivial
  | _, .reset => isTrue trivial
  | _, .printed _ => isTrue trivial

/-- The end of a loop without `DRQ_STAT` counts where the driver goes on. An interrupt
while the controller is reset is the result of nothing. -/
def isResult (s : State) : Action → Bool
  | .add .. => false
  | .drq drq => drq
  | .timeout => true
  | .reset => false
  | .printed _ => false
  | .interrupt _ => !resetting s

def isError (s : State) : Action → Bool
  | .add .. => false
  | .drq _ => false
  | .timeout => true
  | .reset => false
  | .printed _ => false
  | .interrupt ok => !ok && !resetting s

/-- The same request, perhaps at another sector. -/
def SameRequest (p q : Request) : Prop :=
  p.dev = q.dev ∧ p.cmd = q.cmd ∧ p.bh = q.bh ∧ p.blocknr = q.blocknr

/-- Between the states the request was ended with success. -/
def Succeeds (s t : State) (r : Request) : Prop :=
  ∃ new r', t.log = new ++ s.log ∧ SameRequest r' r ∧ Event.ended r' true ∈ new

/-- The results that a request can take, with a recalibration for each error. -/
def maxResults : Nat := 111

/-- The current request succeeds, unless it has too many errors. -/
def Finishes (c : Config) (s : State) : Prop :=
  ∀ r rest, s.queue = r :: rest → InRange c r → ∀ run t, Run.exec (step c) run s = some t →
    Run.Meets (step c) Calm run s → Run.Meets (step c) (Retries c) run s →
  r.errors + Run.count (step c) isError run s < maxErrors →
    maxResults < Run.count (step c) isResult run s → Succeeds s t r

/-- The range check lets the current request pass. -/
def Passes (c : Config) (s : State) : Prop := ∃ r rest, s.queue = r :: rest ∧ Accepts c r

/-- The current request is at the controller, or it has failed. -/
structure Attended (c : Config) (s : State) : Prop where
  once : s.frames.tail = []
  handler : printing s = false → resetting s = false → s.queue ≠ [] → s.doHd ≠ none
  recal : s.doHd = some .recalIntr → Passes c s ∧ s.reset = false ∧ s.frames = []
  reset : ∀ nr, s.frames = [.reset nr] → nr < c.nrHd ∧ Passes c s ∧ s.reset = false
  failed : printing s = true → ∀ r rest, s.queue = r :: rest → InRange c r → maxErrors ≤ r.errors

/-- What stands between the request and its next sector. -/
def phase (s : State) : Nat :=
  match s.frames with
  | .reset _ :: _ => 3
  | _ :: _ => 1
  | [] => if s.doHd = some .recalIntr then (if s.recalibrate then 3 else 2) else 0

/-- What the request has before it, whatever the phase. -/
def load (r : Request) : Nat := 40 * r.nrSectors + 4 * (maxErrors - r.errors)

def weight (s : State) (r : Request) : Nat := load r + phase s

/-- The request is still the current one, with at least `n` results less before it than `w`. -/
def Proceeds (t : State) (r : Request) (w n errors : Nat) : Prop :=
  ∃ r' rest, t.queue = r' :: rest ∧ SameRequest r' r ∧ weight t r' + n ≤ w ∧ r'.errors ≤ errors

section

variable {c : Config} {s : State} {r : Request}

theorem hdOut_addressed {drive head : Nat} (hd : drive ≤ 1) (hh : head ≤ 15) (sect cyl : Nat)
    (h : Handler) (s : State) : hdOut c drive sect head cyl h s = { s with
      doHd := some h
      sector :=
        (cyl % 65536 * (c.hdInfo drive).head + head) * (c.hdInfo drive).sect + sect % 256 - 1 } :=
  if_neg (by omega)

theorem resetDone_addressed (hc : Addressable c) {nr : Nat} (hnr : nr < c.nrHd) (s : State) :
    resetDone c nr s = { s with
      doHd := some .recalIntr
      sector :=
        ((c.hdInfo nr).cyl % 65536 * (c.hdInfo nr).head + ((c.hdInfo nr).head - 1)) *
          (c.hdInfo nr).sect + (c.hdInfo nr).sect % 256 - 1 } := by
  have hdrives := hc.drives
  have hheads := (hc.head nr hnr).2
  exact hdOut_addressed (by omega) (by omega) _ _ _ s

theorem sendCommand_cases (hc : Addressable c) (sti : Bool) (hdev : r.dev < 5 * c.nrHd)
    (s : State) :
    (s.reset = true ∧ sendCommand c sti r s =
      resetHd (r.dev / 5) { s with reset := false, recalibrate := true }) ∨
      (s.reset = false ∧ s.recalibrate = true ∧ ∃ x, sendCommand c sti r s =
        { s with recalibrate := false, doHd := some .recalIntr, sector := x }) ∨
      (s.reset = false ∧ s.recalibrate = false ∧ ∃ x l, sendCommand c sti r s =
        waitDrq sti { s with doHd := some .writeIntr, sector := x, log := l } ∨
          sendCommand c sti r s = { s with doHd := some .readIntr, sector := x, log := l }) := by
  have hdrives := hc.drives
  have hdrive : r.dev / 5 ≤ 1 := by omega
  obtain ⟨hpos, hheads⟩ := hc.head (r.dev / 5) (by omega)
  have hhead : ∀ x, x % (c.hdInfo (r.dev / 5)).head ≤ 15 := fun x => by
    have hlt := Nat.mod_lt x hpos
    omega
  unfold sendCommand
  dsimp only
  cases hr : s.reset with
  | true => exact Or.inl ⟨rfl, rfl⟩
  | false =>
    rw [if_neg Bool.false_ne_true]
    cases hrecal : s.recalibrate with
    | true =>
      rw [if_pos rfl, hdOut_addressed hdrive (Nat.zero_le 15)]
      exact Or.inr (Or.inl ⟨rfl, rfl, _, rfl⟩)
    | false =>
      rw [if_neg Bool.false_ne_true]
      refine Or.inr (Or.inr ⟨rfl, rfl, ?_⟩)
      split
      · rw [hdOut_addressed hdrive (hhead _)]
        exact ⟨_, _, Or.inl rfl⟩
      · rw [hdOut_addressed hdrive (hhead _)]
        exact ⟨_, _, Or.inr rfl⟩

theorem attended_transfer {h : Handler} (hd : s.doHd = some h) (hne : h ≠ .recalIntr)
    (honce : s.frames.tail = []) (hp : printing s = false) (hr : resetting s = false) :
    Attended c s :=
  ⟨honce, fun _ _ _ hn => absurd (hd.symm.trans hn) (Option.some_ne_none h),
    fun he => absurd (Option.some.inj (hd.symm.trans he)) hne,
    fun nr hf => by simp [resetting, hf] at hr,
    fun h => absurd (hp.symm.trans h) Bool.false_ne_true⟩

theorem frames_ne_reset (hf : s.frames = []) (nr : Nat) : s.frames ≠ [.reset nr] := by
  simp [hf]

theorem attended_recal (hd : s.doHd = some .recalIntr) (hq : Passes c s) (hr : s.reset = false)
    (hf : s.frames = []) : Attended c s :=
  ⟨by rw [hf]; rfl, fun _ _ _ hn => absurd (hd.symm.trans hn) (Option.some_ne_none _),
    fun _ => ⟨hq, hr, hf⟩, fun nr hs => absurd hs (frames_ne_reset hf nr),
    fun h => absurd ((printing_nil hf).symm.trans h) Bool.false_ne_true⟩

theorem phase_sendCommand (hc : Addressable c) (sti : Bool) (hdev : r.dev < 5 * c.nrHd)
    (hf : s.frames = []) : phase (sendCommand c sti r s) ≤ 3 ∧
      (s.reset = false → phase (sendCommand c sti r s) ≤ if s.recalibrate then 2 else 1) := by
  rcases sendCommand_cases hc sti hdev s with ⟨hr, he⟩ | ⟨hr, hrecal, x, he⟩ | ⟨hr, hrecal, x, l,
    he | he⟩ <;> rw [he]
  · refine ⟨by simp [phase, resetHd], fun h => ?_⟩
    exact absurd (h.symm.trans hr) Bool.false_ne_true
  · exact ⟨by simp [phase, hf], fun _ => by simp [phase, hf, hrecal]⟩
  · exact ⟨by simp [phase, waitDrq], fun _ => by simp [phase, waitDrq, hrecal]⟩
  · exact ⟨by simp [phase, hf], fun _ => by simp [phase, hf]⟩

theorem attended_nil (hq : s.queue = []) (hf : s.frames = []) (hd : s.doHd ≠ some .recalIntr) :
    Attended c s :=
  ⟨by rw [hf]; rfl, fun _ _ h => absurd hq h, fun h => absurd h hd,
    fun nr hs => absurd hs (frames_ne_reset hf nr),
    fun _ r rest h => absurd (hq.symm.trans h) nofun⟩

section

variable (hf : s.frames = []) (hd : s.doHd ≠ some .recalIntr)

include hf hd

theorem attended_sendCommand (hc : Addressable c) (sti : Bool) {rest : List Request}
    (hqueue : s.queue = r :: rest) (ha : Accepts c r) : Attended c (sendCommand c sti r s) := by
  have hdev := ha.1
  rcases sendCommand_cases hc sti hdev s with ⟨-, he⟩ | ⟨hr, -, x, he⟩ | ⟨-, -, x, l, he | he⟩ <;>
    rw [he]
  · refine ⟨hf, fun _ hr => absurd hr Bool.true_eq_false.mp, fun h => absurd h hd, fun nr hs => ?_,
      nofun⟩
    have hnr : r.dev / 5 = nr := by
      simpa [resetHd, hf] using hs
    exact ⟨by omega, ⟨r, rest, hqueue, ha⟩, rfl⟩
  · exact attended_recal rfl ⟨r, rest, hqueue, ha⟩ hr hf
  · exact attended_transfer rfl (by decide) hf rfl rfl
  · exact attended_transfer rfl (by decide) (by simp [hf]) (printing_nil hf) (resetting_nil hf)

theorem attended_failRequest (count : Bool) {rest : List Request} (hqueue : s.queue = r :: rest)
    (hu : Unfailed c (failRequest count s)) : Attended c (failRequest count s) := by
  rw [failRequest_cons hqueue] at hu ⊢
  refine ⟨hf, fun hp => absurd hp Bool.true_eq_false.mp, fun h => absurd h hd,
    fun nr hs => by simp at hs, fun _ r' rest' h hin => ?_⟩
  obtain ⟨rfl, rfl⟩ := List.cons.inj (hqueue.symm.trans h)
  exact hu r List.mem_cons_self hin

theorem attended_doHdRequest (hc : Addressable c) (sti : Bool)
    (hu : Unfailed c (doHdRequest c sti s)) : Attended c (doHdRequest c sti s) := by
  unfold doHdRequest at hu ⊢
  split
  next hq => exact attended_nil hq hf hd
  next r rest hq =>
    rw [hq] at hu
    dsimp only at hu
    split
    next ha => exact attended_sendCommand hf hd hc sti hq ha
    next ha =>
      rw [if_neg ha] at hu
      exact attended_failRequest hf hd false hq hu

theorem attended_badRwIntr (hc : Addressable c) (sti : Bool) (hu : Unfailed c (badRwIntr c sti s)) :
    Attended c (badRwIntr c sti s) := by
  cases hqueue : s.queue with
  | nil =>
    rw [badRwIntr, hqueue]
    exact attended_nil hqueue hf hd
  | cons r rest =>
    obtain ⟨b, he⟩ := @badRwIntr_cons c s sti r rest hqueue
    rw [he] at hu ⊢
    split
    next hl =>
      rw [if_pos hl] at hu
      exact @attended_failRequest c
        { s with queue := { r with errors := r.errors + 1 } :: rest } _ hf hd true rest rfl hu
    next hl =>
      rw [if_neg hl] at hu
      exact @attended_doHdRequest c
        { s with queue := { r with errors := r.errors + 1 } :: rest, reset := b } hf hd hc sti hu

theorem attended_printed (hc : Addressable c) (count low : Bool)
    (hu : Unfailed c (printed c count low s)) : Attended c (printed c count low s) := by
  cases hqueue : s.queue with
  | nil =>
    rw [printed, hqueue]
    exact attended_nil hqueue hf hd
  | cons r rest =>
    obtain ⟨b, f, he, -⟩ := @printed_cons c s count low r rest hqueue
    rw [he] at hu ⊢
    exact @attended_doHdRequest c { s with queue := rest, reset := b, fault := f } hf hd hc true hu

theorem attended_drqDone (sti drq : Bool) (hn : s.queue ≠ [] → s.doHd ≠ none) :
    Attended c (drqDone sti drq s) := by
  unfold drqDone
  cases drq with
  | false =>
    exact ⟨hf, fun _ _ => hn, fun h => absurd h hd, fun nr hs => by simp at hs,
      fun h => absurd h Bool.false_ne_true⟩
  | true =>
    rw [if_pos rfl]
    cases hqueue : s.queue with
    | nil =>
      rw [portMove, hqueue]
      exact attended_nil hqueue hf hd
    | cons r rest =>
      rw [portMove_cons hqueue]
      exact ⟨by rw [hf]; rfl, fun _ _ => hn, fun h => absurd h hd,
        fun nr hs => absurd hs (frames_ne_reset hf nr),
        fun h => absurd ((printing_nil hf).symm.trans h) Bool.false_ne_true⟩

theorem attended_ended (hc : Addressable c) {rest : List Request} (hqueue : s.queue = r :: rest)
    (hu : Unfailed c (doHdRequest c false (endRequest s))) :
    Attended c (doHdRequest c false (endRequest s)) := by
  rw [endRequest_cons hqueue] at hu ⊢
  exact @attended_doHdRequest c { s with queue := rest, log := .ended r true :: s.log } hf hd hc
    false hu

theorem attended_writeIntr (hc : Addressable c) (ok : Bool) (hu : Unfailed c (writeIntr c ok s)) :
    Attended c (writeIntr c ok s) := by
  cases ok with
  | false => exact attended_badRwIntr hf hd hc false hu
  | true =>
    cases hqueue : s.queue with
    | nil =>
      rw [writeIntr_nil hqueue]
      exact attended_nil hqueue hf (by simp [crash])
    | cons r rest =>
      rw [writeIntr_cons hqueue] at hu ⊢
      split
      next hl =>
        rw [if_pos hl] at hu
        exact @attended_ended c { s with queue := writeDone r :: rest } _ hf hd hc rest rfl hu
      next =>
        rw [@portMove_cons { s with queue := advance r :: rest, doHd := some .writeIntr } _ _ rfl]
        exact attended_transfer rfl (by decide) (by simp [hf]) (printing_nil hf) (resetting_nil hf)

theorem attended_readIntr (hc : Addressable c) (ok : Bool) (hu : Unfailed c (readIntr c ok s)) :
    Attended c (readIntr c ok s) := by
  cases ok with
  | false => exact attended_badRwIntr hf hd hc false hu
  | true =>
    cases hqueue : s.queue with
    | nil =>
      rw [readIntr_nil hqueue]
      exact attended_nil hqueue hf (by simp [crash])
    | cons r rest =>
      rw [readIntr_cons hqueue] at hu ⊢
      split
      next hl =>
        rw [if_pos hl] at hu
        exact @attended_ended c (afterRead s r rest) _ hf hd hc rest rfl hu
      next =>
        exact attended_transfer rfl (by decide) (by simp [afterRead, hf]) (printing_nil hf)
          (resetting_nil hf)

end

theorem attended_interrupt (hc : Addressable c) (h : Attended c s) (ok : Bool)
    (hf : s.doHd ≠ none → s.frames = []) (hu : Unfailed c (interrupt c ok s)) :
    Attended c (interrupt c ok s) := by
  cases hd : s.doHd with
  | none =>
    rw [interrupt_none ok hd]
    exact h
  | some handler =>
    have hf := hf (by simp [hd])
    unfold interrupt at hu ⊢
    rw [hd] at hu ⊢
    dsimp only at hu ⊢
    have hnone : ({ s with doHd := none } : State).doHd ≠ some .recalIntr := nofun
    cases handler with
    | recalIntr =>
      cases ok with
      | false => exact @attended_badRwIntr c { s with doHd := none } hf hnone hc false hu
      | true => exact @attended_doHdRequest c { s with doHd := none } hf hnone hc false hu
    | writeIntr => exact @attended_writeIntr c { s with doHd := none } hf hnone hc ok hu
    | readIntr => exact @attended_readIntr c { s with doHd := none } hf hnone hc ok hu

theorem Attended.not_recal (h : Attended c s) (hf : s.frames ≠ []) : s.doHd ≠ some .recalIntr :=
  fun hd => hf (h.recal hd).2.2

theorem attended_addRequest (hc : Addressable c) {req : Request} (h : Attended c s)
    (hf : s.frames = []) (hu : Unfailed c (addRequest c req s)) :
    Attended c (addRequest c req s) := by
  unfold addRequest at hu ⊢
  cases hqueue : s.queue with
  | nil =>
    rw [hqueue] at hu
    exact @attended_doHdRequest c { s with queue := [req] } hf
      (fun hd => by obtain ⟨⟨r, rest, hq, -⟩, -⟩ := h.recal hd; simp [hqueue] at hq) hc true hu
  | cons r rest =>
    have hne : s.queue ≠ [] := by simp [hqueue]
    refine ⟨h.once, fun hp hr _ => h.handler hp hr hne, fun hd => ?_,
      fun nr hs => absurd hs (frames_ne_reset hf nr),
      fun hp => absurd ((printing_nil hf).symm.trans hp) Bool.false_ne_true⟩
    obtain ⟨⟨q, l, hq, ha⟩, hrest⟩ := h.recal hd
    obtain ⟨rfl, -⟩ := List.cons.inj (hqueue.symm.trans hq)
    exact ⟨⟨r, _, rfl, ha⟩, hrest⟩

theorem attended_step (hc : Addressable c) {a : Action} {t : State} (h : Attended c s)
    (hs : step c a s = some t) (ha : Calm s a) (hu : Unfailed c t) : Attended c t := by
  obtain ⟨-, ⟨dev, cmd, bh, blocknr, rfl, hf, rfl⟩ | ⟨drq, sti, rfl, hf, rfl⟩ |
    ⟨sti, rfl, hf, rfl⟩ | ⟨nr, rfl, hf, rfl⟩ | ⟨low, count, rfl, hf, rfl⟩ | ⟨ok, rfl, rfl⟩⟩ :=
    step_alone hs h.once
  · exact attended_addRequest hc h hf hu
  · exact @attended_drqDone c { s with frames := [] } rfl (h.not_recal (by simp [hf])) sti drq
      (h.handler (by rw [printing, hf]) (by rw [resetting, hf]))
  · exact @attended_badRwIntr c { s with frames := [] } rfl (h.not_recal (by simp [hf])) hc sti hu
  · obtain ⟨hnr, hq, hr⟩ := h.reset nr hf
    rw [resetDone_addressed hc hnr]
    exact attended_recal rfl hq hr rfl
  · exact @attended_printed c { s with frames := [] } rfl (h.not_recal (by simp [hf])) hc count low
      hu
  · exact attended_interrupt hc h ok ha hu

/-- A recalibration was for a request that the range check lets pass. -/
theorem Attended.resumes (hc : Addressable c) (h : Attended c s) (htr : Tracks s) {a : Action} :
    Resumes c s a := by
  intro hr r rest hqueue hone hend
  cases a with
  | interrupt ok =>
    obtain ⟨⟨q, l, hq, ha⟩, -⟩ := h.recal hr.2
    obtain ⟨rfl, -⟩ := List.cons.inj (hqueue.symm.trans hq)
    exact absurd hend ((((htr r rest hqueue).1.accepts_iff hc ⟨hend.1, hend.2.le⟩).mp ha) hone)
  | _ => cases hr

theorem attended_start : Attended c start := attended_nil rfl rfl nofun

theorem error_proceeds (hc : Addressable c) (sti : Bool) {rest : List Request}
    (hqueue : s.queue = r :: rest) (hf : s.frames = []) (hr : Going r)
    (hin : InRange c r) (hend : r.completed = 1 → ¬ AtEnd c r) (he : r.errors + 1 < maxErrors) :
    Proceeds (badRwIntr c sti s) r (load r) 1 (r.errors + 1) := by
  obtain ⟨b, hbad⟩ := @badRwIntr_cons c s sti r rest hqueue
  have hgoing : Going { r with errors := r.errors + 1 } := ⟨hr.sector, hr.nrSectors, hr.completed⟩
  have hacc : Accepts c { r with errors := r.errors + 1 } := (hgoing.accepts_iff hc hin).mpr hend
  rw [hbad, if_neg (by omega), @doHdRequest_accepted c { s with
    queue := { r with errors := r.errors + 1 } :: rest, reset := b } _ sti rest rfl hacc]
  obtain ⟨hphase, -⟩ :=
    @phase_sendCommand c { s with
      queue := { r with errors := r.errors + 1 } :: rest, reset := b }
    { r with errors := r.errors + 1 } hc sti hin.1 hf
  refine ⟨_, rest, (sendCommand_frame sti _ _).1, ⟨rfl, rfl, rfl, rfl⟩, ?_, Nat.le_refl _⟩
  rw [weight, load, load]
  dsimp only
  omega

theorem recal_proceeds (hc : Addressable c) {rest : List Request} (hqueue : s.queue = r :: rest)
    (hf : s.frames = []) (hr : s.reset = false) (ha : Accepts c r) :
    Proceeds (doHdRequest c false s) r (load r + if s.recalibrate then 3 else 2) 1 r.errors := by
  rw [doHdRequest_accepted false hqueue ha]
  obtain ⟨-, hphase⟩ := phase_sendCommand hc false ha.1 hf
  refine ⟨r, rest, (sendCommand_frame false r s).1.trans hqueue, ⟨rfl, rfl, rfl, rfl⟩,
    ?_, Nat.le_refl _⟩
  have hle := hphase hr
  rw [weight]
  cases hrecal : s.recalibrate <;> rw [hrecal] at hle <;> simp at hle ⊢ <;> omega

theorem ended_succeeds {r' : Request} {rest : List Request} {t : State} {l : List Event}
    (hqueue : t.queue = r' :: rest) (hlog : t.log = l ++ s.log) (hr : SameRequest r' r) :
    Succeeds s (doHdRequest c false (endRequest t)) r := by
  rw [endRequest_cons hqueue]
  obtain ⟨new, hnew⟩ :=
    @doHdRequest_suffix c false { t with queue := rest, log := .ended r' true :: t.log }
  refine ⟨new ++ .ended r' true :: l, r', ?_, hr, by simp⟩
  have hcalc : new ++ .ended r' true :: (l ++ s.log) = (new ++ .ended r' true :: l) ++ s.log := by
    simp
  rw [← hcalc, ← hlog]
  exact hnew.symm

theorem writeIntr_proceeds {rest : List Request} (hqueue : s.queue = r :: rest)
    (hf : s.frames = []) (hr : Going r) :
    Succeeds s (writeIntr c true s) r ∨ Proceeds (writeIntr c true s) r (load r) 1 r.errors := by
  have hcount := hr.nrSectors
  have hcompleted := hr.completed
  rw [writeIntr_cons hqueue]
  split
  next hl =>
    refine Or.inl
      (@ended_succeeds c s r
        (writeDone r) rest { s with queue := writeDone r :: rest } [] rfl rfl ?_)
    rw [writeDone, if_pos hl]
    exact ⟨rfl, rfl, rfl, rfl⟩
  next hl =>
    rw [@portMove_cons { s with queue := advance r :: rest, doHd := some .writeIntr } _ _ rfl]
    refine Or.inr ⟨advance r, rest, rfl, ⟨rfl, rfl, rfl, rfl⟩, ?_, Nat.le_refl _⟩
    simp only [weight, load, phase, advance, hf]
    simp
    omega

theorem readIntr_proceeds {rest : List Request} (hqueue : s.queue = r :: rest)
    (hf : s.frames = []) (hr : Going r) :
    Succeeds s (readIntr c true s) r ∨ Proceeds (readIntr c true s) r (load r) 1 r.errors := by
  have hcount := hr.nrSectors
  have hcompleted := hr.completed
  rw [readIntr_cons hqueue]
  split
  next =>
    exact Or.inl (@ended_succeeds c s r _ rest (afterRead s r rest) [.moved r s.sector] rfl rfl
      ⟨rfl, rfl, rfl, rfl⟩)
  next hl =>
    refine Or.inr ⟨_, rest, rfl, ⟨rfl, rfl, rfl, rfl⟩, ?_, Nat.zero_le _⟩
    simp only [weight, load, phase, advance, afterRead, hf, maxErrors]
    simp
    omega

theorem interrupt_proceeds (hc : Addressable c) {ok : Bool} (htr : Tracks s)
    (hat : Attended c s) (hd : s.doHd ≠ none) (hf : s.frames = [])
    {rest : List Request} (hqueue : s.queue = r :: rest) (hin : InRange c r)
    (hret : Retries c s (.interrupt ok)) (he : ok = false → r.errors + 1 < maxErrors) :
    Succeeds s (interrupt c ok s) r ∨
      Proceeds (interrupt c ok s) r (weight s r) 1 (r.errors + if ok then 0 else 1) := by
  obtain ⟨hr, -⟩ := htr r rest hqueue
  have hload : load r ≤ weight s r := Nat.le_add_right _ _
  have hmono : ∀ {t : State} {e : Nat}, Proceeds t r (load r) 1 e →
    Proceeds t r (weight s r) 1 e := by
    rintro t e ⟨r', rest', h₁, h₂, h₃, h₄⟩
    exact ⟨r', rest', h₁, h₂, h₃.trans hload, h₄⟩
  unfold interrupt
  dsimp only
  cases hdo : s.doHd with
  | none => exact absurd hdo hd
  | some handler =>
    cases ok with
    | false =>
      have hend : r.completed = 1 → ¬ AtEnd c r := fun hone hat' => by
        have hlast := hret ⟨rfl, hd⟩ r rest hqueue hone hat'
        have hless := he rfl
        omega
      have herror :=
        hmono (@error_proceeds c { s with doHd := none } r hc false rest hqueue hf hr hin hend
          (he rfl))
      cases handler <;> exact Or.inr herror
    | true =>
      cases handler with
      | recalIntr =>
        have hphase : weight s r = load r + if s.recalibrate then 3 else 2 := by
          simp [weight, phase, hf, hdo]
        obtain ⟨⟨q, l, hq, hacc⟩, hreset, -⟩ := hat.recal hdo
        obtain ⟨rfl, -⟩ := List.cons.inj (hqueue.symm.trans hq)
        rw [hphase]
        exact Or.inr (@recal_proceeds c { s with doHd := none } r hc rest hqueue hf hreset hacc)
      | writeIntr =>
        exact (@writeIntr_proceeds c { s with doHd := none } r rest hqueue hf hr).imp_right hmono
      | readIntr =>
        exact (@readIntr_proceeds c { s with doHd := none } r rest hqueue hf hr).imp_right hmono

theorem drqDone_proceeds (sti : Bool) {drq : Bool} {w : Nat} (hf : s.frames = [])
    {rest : List Request} (hqueue : s.queue = r :: rest) (hd : s.doHd ≠ some .recalIntr)
    (hw : load r + 1 ≤ w) :
    Proceeds (drqDone sti drq s) r w (if drq then 1 else 0) r.errors := by
  unfold drqDone
  cases drq with
  | false =>
    have hphase :
        weight ({ s with frames := .timeout sti :: s.frames } : State) r = load r + 1 := by
      simp [weight, phase]
    exact ⟨r, rest, hqueue, ⟨rfl, rfl, rfl, rfl⟩, hphase ▸ hw, Nat.le_refl _⟩
  | true =>
    rw [if_pos rfl, portMove_cons hqueue]
    have hphase : weight ({ s with sector := s.sector + 1, log := .moved r s.sector :: s.log } :
      State) r = load r := by
      simp [weight, phase, hf, hd]
    exact ⟨r, rest, hqueue, ⟨rfl, rfl, rfl, rfl⟩, hphase ▸ hw, Nat.le_refl _⟩

theorem Attended.not_printing (h : Attended c s) {rest : List Request}
    (hqueue : s.queue = r :: rest) (hin : InRange c r) (hfew : r.errors < maxErrors) :
    printing s = false := by
  cases hp : printing s with
  | false => rfl
  | true => exact absurd (h.failed hp r rest hqueue hin) (Nat.not_le.mpr hfew)

/-- A step ends the request with success, or brings it nearer to its end. -/
theorem step_proceeds (hc : Addressable c) {a : Action} {t : State} (htr : Tracks s)
    (hat : Attended c s) (hs : step c a s = some t) (ha : Calm s a)
    (hret : Retries c s a) {rest : List Request} (hqueue : s.queue = r :: rest)
    (hin : InRange c r) (hfew : r.errors < maxErrors)
    (he : isError s a = true → r.errors + 1 < maxErrors) :
    Succeeds s t r ∨ Proceeds t r (weight s r) (if isResult s a then 1 else 0)
      (r.errors + if isError s a then 1 else 0) := by
  have hne : s.queue ≠ [] := by simp [hqueue]
  have hprint := hat.not_printing hqueue hin hfew
  obtain ⟨-, ⟨dev, cmd, bh, blocknr, rfl, hf, rfl⟩ | ⟨drq, sti, rfl, hf, rfl⟩ |
    ⟨sti, rfl, hf, rfl⟩ | ⟨nr, rfl, hf, rfl⟩ | ⟨low, count, rfl, hf, rfl⟩ | ⟨ok, rfl, rfl⟩⟩ :=
    step_alone hs hat.once
  · rw [addRequest, hqueue]
    exact Or.inr ⟨r, _, rfl, ⟨rfl, rfl, rfl, rfl⟩, Nat.le_refl _, Nat.le_refl _⟩
  · have hw : load r + 1 ≤ weight s r := by simp [weight, phase, hf]
    exact Or.inr (@drqDone_proceeds { s with frames := [] } r sti drq _ rfl rest hqueue
      (hat.not_recal (by simp [hf])) hw)
  · have hless : r.errors + 1 < maxErrors := he rfl
    have hend : r.completed = 1 → ¬ AtEnd c r := fun hone hat' => by
      have hlast := hret trivial r rest hqueue hone hat'
      omega
    have hw : weight s r = load r + 1 := by simp [weight, phase, hf]
    obtain ⟨r', rest', h₁, h₂, h₃, h₄⟩ := @error_proceeds c { s with frames := [] } r hc sti rest
      hqueue rfl (htr r rest hqueue).1 hin hend hless
    rw [hw]
    exact Or.inr ⟨r', rest', h₁, h₂, h₃.trans (Nat.le_succ _), h₄⟩
  · have hw : weight s r = load r + 3 := by simp [weight, phase, hf]
    rw [hw, resetDone_addressed hc (hat.reset nr hf).1]
    refine Or.inr ⟨r, rest, hqueue, ⟨rfl, rfl, rfl, rfl⟩, ?_, Nat.le_refl _⟩
    have hphase : phase { s with frames := [], doHd := some .recalIntr } ≤ 3 := by
      simp only [phase, if_true]
      split <;> omega
    exact Nat.add_le_add_left hphase _
  · rw [printing, hf] at hprint
    cases hprint
  · cases hreset : resetting s with
    | true =>
      have hd : s.doHd = none := Classical.byContradiction fun hd => by
        rw [resetting_nil (ha hd)] at hreset
        cases hreset
      rw [interrupt_none ok hd, isResult, isError, hreset]
      exact Or.inr ⟨r, rest, hqueue, ⟨rfl, rfl, rfl, rfl⟩, Nat.le_refl _, by simp⟩
    | false =>
      have hcount : (if isError s (.interrupt ok) then 1 else 0) = if ok then 0 else 1 := by
        rw [isError, hreset]
        cases ok <;> rfl
      have hresult : (if isResult s (.interrupt ok) then 1 else 0) = 1 := by
        rw [isResult, hreset]
        rfl
      have hd := hat.handler hprint hreset hne
      rw [hcount, hresult]
      exact interrupt_proceeds hc htr hat hd (ha hd) hqueue hin hret fun h =>
        he (by rw [isError, h, hreset]; rfl)

theorem Succeeds.later {t u : State} (h : Succeeds s t r) (hlog : t.log <:+ u.log) :
    Succeeds s u r := by
  obtain ⟨new, r', ht, hr, hmem⟩ := h
  obtain ⟨more, hmore⟩ := hlog
  exact ⟨more ++ new, r', by rw [← hmore, ht, List.append_assoc], hr, List.mem_append_right _ hmem⟩

theorem Succeeds.earlier {t u : State} {r' : Request} (h : Succeeds t u r') (hlog : s.log <:+ t.log)
    (hr : SameRequest r' r) : Succeeds s u r := by
  obtain ⟨new, q, hu, hq, hmem⟩ := h
  obtain ⟨more, hmore⟩ := hlog
  refine ⟨new ++ more, q, by rw [hu, ← hmore, List.append_assoc], ?_, List.mem_append_left _ hmem⟩
  exact ⟨hq.1.trans hr.1, hq.2.1.trans hr.2.1, hq.2.2.1.trans hr.2.2.1, hq.2.2.2.trans hr.2.2.2⟩

theorem run_succeeds (hc : Addressable c) {run : List Action} {t : State} (htr : Tracks s)
    (hu : Unfailed c s) (hat : Attended c s) (he : Run.exec (step c) run s = some t)
    (hcalm : Run.Meets (step c) Calm run s) (hret : Run.Meets (step c) (Retries c) run s)
    {rest : List Request} (hqueue : s.queue = r :: rest) (hin : InRange c r)
    (hfew : r.errors + Run.count (step c) isError run s < maxErrors)
    (hlong : weight s r < Run.count (step c) isResult run s) : Succeeds s t r := by
  induction run generalizing s r rest with
  | nil => cases hlong
  | cons a run ih =>
    obtain ⟨u, hs, hrun⟩ := Option.bind_eq_some_iff.mp he
    obtain ⟨hca, hcalm⟩ := hcalm u hs
    obtain ⟨hra, hret⟩ := hret u hs
    rw [Run.count_cons hs] at hfew hlong
    have herr : isError s a = true → r.errors + 1 < maxErrors := fun h => by
      rw [if_pos h] at hfew
      omega
    rcases step_proceeds hc htr hat hs hca hra hqueue hin (by omega)
      herr with hdone | ⟨r', rest', hq', hsame, hw, he'⟩
    · exact hdone.later (exec_suffix hrun)
    · obtain ⟨htr', hu'⟩ := unfailed_step hc htr hu hs
      have hin' : InRange c r' := by
        rw [InRange, hsame.1, hsame.2.2.2]
        exact hin
      have hnow := hu'.mpr ⟨hra, hat.resumes hc htr⟩
      exact (ih htr' hnow (attended_step hc hat hs hca hnow) hrun hcalm hret hq' hin' (by omega)
        (by omega)).earlier
        (step_suffix hs) hsame

theorem weight_le (hr : Going r) : weight s r ≤ maxResults := by
  have hcount := hr.nrSectors
  have hphase : phase s ≤ 3 := by
    unfold phase
    split
    · omega
    · omega
    · split
      · split <;> omega
      · omega
  unfold weight load maxResults maxErrors
  omega

/-- No request is lost to the range check exactly in the runs in which the driver does not come
back, with an error or behind a recalibration, to a request at the end of its partition of which
the first sector is done. Where no handler is called while a call waits, it is the errors alone
that count, and every request succeeds that has fewer than `MAX_ERRORS` of them. -/
theorem retries_iff (hc : Addressable c) (run : List Action) :
    (Run.Always (step c) (Unfailed c) run start ↔
      Run.Meets (step c) (fun s a => Retries c s a ∧ Resumes c s a) run start) ∧
    (Run.Meets (step c) Calm run start → Run.Meets (step c) (Retries c) run start →
      Run.Always (step c) (fun s => Unfailed c s ∧ Finishes c s) run start) := by
  refine ⟨Run.always_iff_meets (fun _ _ _ htr hu hs =>
    unfailed_step hc htr hu hs) tracks_start nofun, fun hcalm hret => ?_⟩
  have hall : Run.Always (step c) (fun s => (Tracks s ∧ Unfailed c s) ∧
    Attended c s) run start := by
    refine Run.always_of_meets (fun s a t h hs ha => ?_)
      ⟨⟨tracks_start, nofun⟩, attended_start⟩ (hcalm.and hret)
    obtain ⟨htr, hu⟩ := unfailed_step hc h.1.1 h.1.2 hs
    have hnow := hu.mpr ⟨ha.2, h.2.resumes hc h.1.1⟩
    exact ⟨⟨htr, hnow⟩, attended_step hc h.2 hs ha.1 hnow⟩
  exact hall.mono fun s ⟨⟨htr, hu⟩, hat⟩ =>
    ⟨hu, fun r rest hqueue hin bs t he hbc hbr hfew hlong =>
      run_succeeds hc htr hu hat he hbc hbr hqueue hin hfew
        ((weight_le (htr r rest hqueue).1).trans_lt hlong)⟩

end

theorem addressable_oneDisk : Addressable oneDisk := by
  refine ⟨by decide, fun _ _ => (by decide : 0 < 4 ∧ 4 ≤ 16), fun dev _ => ?_⟩
  show (if dev = 1 then (⟨17, 1000⟩ : HdStruct) else ⟨0, 0⟩).nrSects < 2 ^ 32
  split <;> decide

theorem retries_iff_read :
    (Run.Always (step oneDisk) (Unfailed oneDisk) [.add 1 .read 0 499, .interrupt true] start ↔
      Run.Meets (step oneDisk) (fun s a => Retries oneDisk s a ∧ Resumes oneDisk s a)
        [.add 1 .read 0 499, .interrupt true] start) ∧
    (Run.Meets (step oneDisk) Calm [.add 1 .read 0 499, .interrupt true] start →
      Run.Meets (step oneDisk) (Retries oneDisk) [.add 1 .read 0 499, .interrupt true] start →
      Run.Always (step oneDisk) (fun s => Unfailed oneDisk s ∧ Finishes oneDisk s)
        [.add 1 .read 0 499, .interrupt true] start) :=
  retries_iff addressable_oneDisk _

/-- A read of the last block of the partition has its only error at its second sector. -/
theorem retry_fails :
    ¬ ∀ (c : Config) (run : List Action), Addressable c →
      Run.Always (step c) (Unfailed c) run start := by
  intro h
  have hrun :=
    h oneDisk [.add 1 .read 0 499, .interrupt true, .interrupt false] addressable_oneDisk
  have hlast : (Run.exec (step oneDisk) [.add 1 .read 0 499, .interrupt true,
    .interrupt false] start).map
      (fun s => s.log.head?.bind fun e => match e with
        | .ended r uptodate => some (r.dev, r.blocknr, r.errors, uptodate)
        | _ => none) = some (some (1, 499, 1, false)) := by
    decide +kernel
  obtain ⟨s, hs, he⟩ := Option.map_eq_some_iff.mp hlast
  obtain ⟨e, hhead, he⟩ := Option.bind_eq_some_iff.mp he
  cases e with
  | ended r uptodate =>
    obtain ⟨hdev, hblock, herrors, rfl⟩ : r.dev = 1 ∧ r.blocknr = 499 ∧ r.errors = 1 ∧
      uptodate = false := by simpa using he
    have hin : InRange oneDisk r := by
      rw [InRange, hdev, hblock]
      decide
    have hfew := (hrun.last hs) r (List.mem_of_mem_head? hhead) hin
    rw [herrors] at hfew
    exact absurd hfew (by decide)
  | sent r sec head cyl => cases he
  | moved r sector => cases he

end Gpos.Hd
