import Gpos.DiskTransfers
import Mathlib.Data.List.Infix

/-! The range check of `do_hd_request` on a request that is tried again. -/

namespace Gpos.Hd

/-- What the driver can address. -/
structure Addressable (c : Config) : Prop where
  drives : c.nrHd ≤ 2
  head : ∀ drive < c.nrHd, 0 < (c.hdInfo drive).head ∧ (c.hdInfo drive).head ≤ 16
  word : ∀ dev < 5 * c.nrHd, (c.hd dev).nrSects < 2 ^ 32

/-- The two sectors of the block are in the partition. -/
def InRange (c : Config) (r : Request) : Prop :=
  r.dev < 5 * c.nrHd ∧ wrap (2 * r.blocknr) + 2 ≤ (c.hd r.dev).nrSects

/-- The two sectors of the block are the last ones of the partition. -/
def AtEnd (c : Config) (r : Request) : Prop :=
  r.dev < 5 * c.nrHd ∧ wrap (2 * r.blocknr) + 2 = (c.hd r.dev).nrSects

/-- A request in the partition fails with its last error only. -/
def Unfailed (c : Config) (s : State) : Prop :=
  ∀ r, Event.ended r false ∈ s.log → InRange c r → maxErrors ≤ r.errors

/-- An error of the controller, for which a handler or a loop has waited. -/
def Errs (s : State) : Action → Prop
  | .add .. => False
  | .drq _ => False
  | .timeout => True
  | .reset => False
  | .printed _ => False
  | .interrupt ok => ok = false ∧ s.doHd ≠ none

/-- A recalibration comes to its end. -/
def Recalibrates (s : State) : Action → Prop
  | .interrupt ok => ok = true ∧ s.doHd = some .recalIntr
  | _ => False

/-- After its first sector a request at the end of the partition has no error, but its last one. -/
def Retries (c : Config) (s : State) (a : Action) : Prop :=
  Errs s a → ∀ r rest, s.queue = r :: rest → r.completed = 1 → AtEnd c r → maxErrors ≤ r.errors + 1

/-- With such a request the driver does not go on behind a recalibration either. The first sector
can have come in an interrupt while the controller was reset. -/
def Resumes (c : Config) (s : State) (a : Action) : Prop :=
  Recalibrates s a → ∀ r rest, s.queue = r :: rest → r.completed = 1 → AtEnd c r →
    maxErrors ≤ r.errors

/-- The request is at its first sector that is not completed. -/
structure Going (r : Request) : Prop where
  sector : r.sector = wrap (2 * r.blocknr) + r.completed
  nrSectors : r.nrSectors + r.completed = 2
  completed : r.completed < 2

structure New (r : Request) : Prop extends Going r where
  none : r.completed = 0

/-- Only the current request has been worked on. -/
def Tracks (s : State) : Prop :=
  ∀ r rest, s.queue = r :: rest → Going r ∧ ∀ q ∈ rest, New q

section

variable {c : Config} {s : State} {r : Request}

theorem Going.accepts_iff (hc : Addressable c) (hr : Going r) (hin : InRange c r) :
    Accepts c r ↔ (r.completed = 1 → ¬ AtEnd c r) := by
  have hword := hc.word r.dev hin.1
  have hfit := hin.2
  have hcompleted := hr.completed
  have heven : wrap (2 * r.blocknr) % 2 = 0 := by
    unfold wrap
    omega
  rw [Accepts, AtEnd, hr.sector]
  simp only [hin.1, true_and]
  generalize wrap (2 * r.blocknr) = f at hfit heven ⊢
  generalize (c.hd r.dev).nrSects = n at hword hfit ⊢
  unfold wrap
  omega

theorem New.accepts (hc : Addressable c) (hr : New r) (hin : InRange c r) : Accepts c r :=
  (hr.toGoing.accepts_iff hc hin).mpr fun h => by
    rw [hr.none] at h
    cases h

/-- What the range check finds of a request that is tried again. -/
theorem Going.checked_iff (hc : Addressable c) (hr : Going r) :
    (InRange c r → maxErrors ≤ r.errors ∨ Accepts c r) ↔
      (r.completed = 1 → AtEnd c r → maxErrors ≤ r.errors) := by
  refine ⟨fun h hone hend => ?_, fun h hin => ?_⟩
  · have hin : InRange c r := ⟨hend.1, hend.2.le⟩
    exact (h hin).resolve_right fun ha => (hr.accepts_iff hc hin).mp ha hone hend
  · by_cases hl : maxErrors ≤ r.errors
    · exact Or.inl hl
    · exact Or.inr ((hr.accepts_iff hc hin).mpr fun hone hend => hl (h hone hend))

theorem sendCommand_log (sti : Bool) (r : Request) (s : State) :
    (sendCommand c sti r s).log = s.log ∨ ∃ sec head cyl, (sendCommand c sti r s).log =
      .sent r sec head cyl :: s.log := by
  unfold sendCommand resetHd
  dsimp only
  split
  · exact Or.inl rfl
  · split
    · exact Or.inl (hdOut_log ..)
    · split
      · exact Or.inr ⟨_, _, _, hdOut_log ..⟩
      · exact Or.inr ⟨_, _, _, hdOut_log ..⟩

theorem sendCommand_suffix (sti : Bool) (r : Request) (s : State) :
    s.log <:+ (sendCommand c sti r s).log := by
  rcases @sendCommand_log c sti r s with h | ⟨sec, head, cyl, h⟩ <;> rw [h]
  exact List.suffix_cons _ _

theorem failRequest_suffix (count : Bool) (s : State) : s.log <:+ (failRequest count s).log := by
  unfold failRequest
  split
  · exact List.suffix_rfl
  · exact List.suffix_cons _ _

theorem doHdRequest_suffix (sti : Bool) (s : State) : s.log <:+ (doHdRequest c sti s).log := by
  unfold doHdRequest
  split
  · exact List.suffix_rfl
  next r rest hq =>
    split
    · exact sendCommand_suffix sti r s
    · exact failRequest_suffix false s

theorem Unfailed.congr {t : State} (h : Unfailed c s) (hlog : t.log = s.log) : Unfailed c t := by
  unfold Unfailed
  rw [hlog]
  exact h

theorem Unfailed.cons {t : State} {e : Event} (h : Unfailed c s) (hlog : t.log = e :: s.log)
    (he : ∀ r, e = .ended r false → InRange c r → maxErrors ≤ r.errors) : Unfailed c t := by
  intro r hr
  rw [hlog] at hr
  rcases List.mem_cons.mp hr with hr | hr
  · exact he r hr.symm
  · exact h r hr

theorem Unfailed.moved {t : State} {sector : Nat} (h : Unfailed c s)
    (hlog : t.log = .moved r sector :: s.log) : Unfailed c t :=
  h.cons hlog fun r' he => by cases he

theorem Unfailed.sendCommand (h : Unfailed c s) (sti : Bool) (r : Request) :
    Unfailed c (sendCommand c sti r s) := by
  rcases @sendCommand_log c sti r s with hl | ⟨sec, head, cyl, hl⟩
  · exact h.congr hl
  · exact h.cons hl nofun

theorem Tracks.queue_nil (hq : s.queue = []) : Tracks s :=
  fun _ _ h => absurd (hq.symm.trans h) nofun

theorem tracks_cons {rest : List Request} (hq : s.queue = r :: rest) (hr : Going r)
    (hrest : ∀ q ∈ rest, New q) : Tracks s := fun r' rest' h => by
  obtain ⟨rfl, rfl⟩ := List.cons.inj (hq.symm.trans h)
  exact ⟨hr, hrest⟩

/-- The messages are those of an error of the request. -/
theorem unfailed_failRequest (count : Bool) {rest : List Request} (hqueue : s.queue = r :: rest)
    (hr : Going r) (hrest : ∀ q ∈ rest, New q) (hu : Unfailed c s) :
    Tracks (failRequest count s) ∧
      (Unfailed c (failRequest count s) ↔ (InRange c r → maxErrors ≤ r.errors)) := by
  rw [failRequest_cons hqueue]
  refine ⟨tracks_cons hqueue hr hrest, fun h hin => h r List.mem_cons_self hin, fun h =>
    hu.cons rfl fun r' he hin => ?_⟩
  cases he
  exact h hin

theorem doHdRequest_accepted (sti : Bool) {rest : List Request} (hqueue : s.queue = r :: rest)
    (ha : Accepts c r) : doHdRequest c sti s = sendCommand c sti r s := by
  rw [doHdRequest, hqueue]
  exact if_pos ha

theorem doHdRequest_refused (sti : Bool) {rest : List Request} (hqueue : s.queue = r :: rest)
    (ha : ¬ Accepts c r) : doHdRequest c sti s = failRequest false s := by
  rw [doHdRequest, hqueue]
  exact if_neg ha

theorem first_doHdRequest (sti : Bool) {rest : List Request} (hqueue : s.queue = r :: rest)
    (hr : Going r) (hrest : ∀ q ∈ rest, New q) (hu : Unfailed c s) :
      Tracks (doHdRequest c sti s) ∧ (Unfailed c (doHdRequest c sti s) ↔
        (InRange c r → maxErrors ≤ r.errors ∨ Accepts c r)) := by
  by_cases ha : Accepts c r
  · rw [doHdRequest_accepted sti hqueue ha]
    exact ⟨tracks_cons ((sendCommand_frame sti r s).1.trans hqueue) hr hrest,
      iff_of_true (hu.sendCommand sti r) fun _ => Or.inr ha⟩
  · rw [doHdRequest_refused sti hqueue ha]
    obtain ⟨ht, hut⟩ := unfailed_failRequest false hqueue hr hrest hu
    exact ⟨ht, hut.trans ⟨fun h hin => Or.inl (h hin), fun h hin => (h hin).resolve_right ha⟩⟩

theorem fresh_doHdRequest (hc : Addressable c) (sti : Bool) (hq : ∀ q ∈ s.queue, New q)
    (hu : Unfailed c s) : Tracks (doHdRequest c sti s) ∧ Unfailed c (doHdRequest c sti s) := by
  cases hqueue : s.queue with
  | nil =>
    have he : doHdRequest c sti s = s := by rw [doHdRequest, hqueue]
    rw [he]
    exact ⟨Tracks.queue_nil hqueue, hu⟩
  | cons r rest =>
    rw [hqueue] at hq
    have hr := hq r List.mem_cons_self
    obtain ⟨ht, hut⟩ :=
      first_doHdRequest sti hqueue hr.toGoing (fun q hm => hq q (List.mem_cons_of_mem r hm)) hu
    exact ⟨ht, hut.mpr fun hin => Or.inr (hr.accepts hc hin)⟩

theorem forall_cons_eq {rest : List Request} {P : Request → Prop} :
    (∀ r' rest', r :: rest = r' :: rest' → P r') ↔ P r :=
  ⟨fun h => h r rest rfl, fun h _ _ he => (List.cons.inj he).1 ▸ h⟩

/-- An error loses a request exactly at the last sector of a partition. -/
theorem error_badRwIntr (hc : Addressable c) (sti : Bool) (h : Tracks s) (hu : Unfailed c s) :
    Tracks (badRwIntr c sti s) ∧ (Unfailed c (badRwIntr c sti s) ↔
      ∀ r rest, s.queue = r :: rest → r.completed = 1 → AtEnd c r → maxErrors ≤ r.errors + 1) := by
  cases hqueue : s.queue with
  | nil =>
    have hcrash : badRwIntr c sti s = crash s := by rw [badRwIntr, hqueue]
    rw [hcrash]
    exact ⟨Tracks.queue_nil hqueue, iff_of_true (hu.congr rfl) (by simp)⟩
  | cons r rest =>
    obtain ⟨hr, hrest⟩ := h r rest hqueue
    have hbad : Going { r with errors := r.errors + 1 } := ⟨hr.sector, hr.nrSectors, hr.completed⟩
    obtain ⟨b, he⟩ := @badRwIntr_cons c s sti r rest hqueue
    rw [he, forall_cons_eq]
    split
    next hl =>
      obtain ⟨ht, hut⟩ := @unfailed_failRequest c
        { s with queue := { r with errors := r.errors + 1 } :: rest } _ true rest rfl hbad hrest
        (hu.congr rfl)
      exact ⟨ht, iff_of_true (hut.mpr fun _ => hl) fun _ _ => hl⟩
    next =>
      obtain ⟨ht, hut⟩ :=
        @first_doHdRequest c { s with
          queue := { r with errors := r.errors + 1 } :: rest, reset := b }
        { r with errors := r.errors + 1 } sti rest rfl hbad hrest (hu.congr rfl)
      exact ⟨ht, hut.trans (hbad.checked_iff hc)⟩

theorem unfailed_printed (hc : Addressable c) (count low : Bool) (h : Tracks s)
    (hu : Unfailed c s) :
    Tracks (printed c count low s) ∧ Unfailed c (printed c count low s) := by
  cases hqueue : s.queue with
  | nil =>
    have hcrash : printed c count low s = crash s := by rw [printed, hqueue]
    rw [hcrash]
    exact ⟨Tracks.queue_nil hqueue, hu.congr rfl⟩
  | cons r rest =>
    obtain ⟨b, f, he, -⟩ := @printed_cons c s count low r rest hqueue
    rw [he]
    exact @fresh_doHdRequest c { s with queue := rest, reset := b, fault := f } hc true
      (h r rest hqueue).2 (hu.congr rfl)

theorem Going.advance (hr : Going r) (hn : r.nrSectors - 1 ≠ 0) :
    Going (advance r) ∧ (Hd.advance r).completed = 1 := by
  have hsector := hr.sector
  have hcount := hr.nrSectors
  have hone : r.completed = 0 := by omega
  have heven : wrap (wrap (2 * r.blocknr) + 1) = wrap (2 * r.blocknr) + 1 := by
    unfold wrap
    omega
  refine ⟨⟨?_, ?_, ?_⟩, ?_⟩
  · show wrap (r.sector + 1) = wrap (2 * r.blocknr) + (r.completed + 1)
    rw [hsector, hone]
    exact heven
  · show r.nrSectors - 1 + (r.completed + 1) = 2
    omega
  · show r.completed + 1 < 2
    omega
  · show r.completed + 1 = 1
    omega

theorem ended_doHdRequest (hc : Addressable c) {t : State} {rest : List Request}
    (hqueue : t.queue = r :: rest) (hrest : ∀ q ∈ rest, New q) (hu : Unfailed c t) :
    Tracks (doHdRequest c false (endRequest t)) ∧
      Unfailed c (doHdRequest c false (endRequest t)) := by
  rw [endRequest_cons hqueue]
  exact @fresh_doHdRequest c { t with queue := rest, log := .ended r true :: t.log } hc false hrest
    (hu.cons rfl nofun)

theorem success_recalIntr (hc : Addressable c) (h : Tracks s) (hu : Unfailed c s) :
    Tracks (recalIntr c true s) ∧ (Unfailed c (recalIntr c true s) ↔
      ∀ r rest, s.queue = r :: rest → r.completed = 1 → AtEnd c r → maxErrors ≤ r.errors) := by
  rw [recalIntr, if_pos rfl]
  cases hqueue : s.queue with
  | nil =>
    obtain ⟨ht, hut⟩ := @fresh_doHdRequest c s hc false (by rw [hqueue]; nofun) hu
    exact ⟨ht, iff_of_true hut (by simp)⟩
  | cons r rest =>
    obtain ⟨hr, hrest⟩ := h r rest hqueue
    obtain ⟨ht, hut⟩ := first_doHdRequest false hqueue hr hrest hu
    rw [forall_cons_eq]
    exact ⟨ht, hut.trans (hr.checked_iff hc)⟩

theorem success_writeIntr (hc : Addressable c) (h : Tracks s) (hu : Unfailed c s) :
    Tracks (writeIntr c true s) ∧ Unfailed c (writeIntr c true s) := by
  cases hqueue : s.queue with
  | nil =>
    rw [writeIntr_nil hqueue]
    exact ⟨Tracks.queue_nil hqueue, hu.congr rfl⟩
  | cons r rest =>
    obtain ⟨hr, hrest⟩ := h r rest hqueue
    rw [writeIntr_cons hqueue]
    split
    next =>
      exact @ended_doHdRequest c _ hc { s with queue := writeDone r :: rest } rest rfl
        hrest (hu.congr rfl)
    next hl =>
      rw [@portMove_cons { s with queue := advance r :: rest, doHd := some .writeIntr } _ _ rfl]
      exact ⟨tracks_cons rfl (hr.advance hl).1 hrest, hu.moved rfl⟩

theorem success_readIntr (hc : Addressable c) (h : Tracks s) (hu : Unfailed c s) :
    Tracks (readIntr c true s) ∧ Unfailed c (readIntr c true s) := by
  cases hqueue : s.queue with
  | nil =>
    rw [readIntr_nil hqueue]
    exact ⟨Tracks.queue_nil hqueue, hu.congr rfl⟩
  | cons r rest =>
    obtain ⟨hr, hrest⟩ := h r rest hqueue
    have hmoved : Unfailed c (afterRead s r rest) := hu.moved rfl
    rw [readIntr_cons hqueue]
    split
    next => exact ended_doHdRequest hc rfl hrest hmoved
    next hl =>
      have hadv := (hr.advance hl).1
      exact ⟨tracks_cons rfl ⟨hadv.sector, hadv.nrSectors, hadv.completed⟩ hrest, hmoved.congr rfl⟩

theorem unfailed_interrupt (hc : Addressable c) (ok : Bool) (h : Tracks s) (hu : Unfailed c s) :
    Tracks (interrupt c ok s) ∧ (Unfailed c (interrupt c ok s) ↔
      Retries c s (.interrupt ok) ∧ Resumes c s (.interrupt ok)) := by
  have hfree : Unfailed c { s with doHd := none } := hu.congr rfl
  have hfirst : Tracks { s with doHd := none } := h
  cases hd : s.doHd with
  | none =>
    have hresumes : Resumes c s (.interrupt ok) := fun hr => absurd (hd.symm.trans hr.2) nofun
    rw [interrupt_none ok hd]
    exact ⟨h, iff_of_true hu ⟨fun he => absurd hd he.2, hresumes⟩⟩
  | some handler =>
    have hne : s.doHd ≠ none := by simp [hd]
    unfold interrupt
    rw [hd]
    dsimp only
    cases ok with
    | false =>
      have hresumes : Resumes c s (.interrupt false) := fun hr => absurd hr.1 Bool.false_ne_true
      have hiff : Retries c s (.interrupt false) ↔
          ∀ r rest, s.queue = r :: rest → r.completed = 1 → AtEnd c r → maxErrors ≤ r.errors + 1 :=
            forall_prop_of_true ⟨rfl, hne⟩
      rw [and_iff_left hresumes, hiff]
      cases handler <;> exact error_badRwIntr hc false hfirst hfree
    | true =>
      have hretries : Retries c s (.interrupt true) := fun he => absurd he.1 Bool.noConfusion
      rw [and_iff_right hretries]
      cases handler with
      | recalIntr =>
        have hiff : Resumes c s (.interrupt true) ↔
            ∀ r rest, s.queue = r :: rest → r.completed = 1 → AtEnd c r → maxErrors ≤ r.errors :=
          forall_prop_of_true ⟨rfl, hd⟩
        rw [hiff]
        exact success_recalIntr hc hfirst hfree
      | writeIntr =>
        obtain ⟨ht, hut⟩ := success_writeIntr hc hfirst hfree
        exact ⟨ht, iff_of_true hut fun hr => absurd (hd.symm.trans hr.2) nofun⟩
      | readIntr =>
        obtain ⟨ht, hut⟩ := success_readIntr hc hfirst hfree
        exact ⟨ht, iff_of_true hut fun hr => absurd (hd.symm.trans hr.2) nofun⟩

theorem unfailed_timeout (hc : Addressable c) (sti : Bool) (h : Tracks s) (hu : Unfailed c s) :
    Tracks (badRwIntr c sti s) ∧ (Unfailed c (badRwIntr c sti s) ↔
      Retries c s .timeout ∧ Resumes c s .timeout) := by
  have hiff : Retries c s .timeout ↔
      ∀ r rest, s.queue = r :: rest → r.completed = 1 → AtEnd c r → maxErrors ≤ r.errors + 1 :=
        forall_prop_of_true trivial
  have hresumes : Resumes c s .timeout := fun hr => False.elim hr
  obtain ⟨ht, hut⟩ := error_badRwIntr hc sti h hu
  exact ⟨ht, hut.trans (hiff.symm.trans (and_iff_left hresumes).symm)⟩

theorem unfailed_drqDone (sti drq : Bool) (h : Tracks s) (hu : Unfailed c s) :
    Tracks (drqDone sti drq s) ∧ Unfailed c (drqDone sti drq s) := by
  cases drq with
  | false => exact ⟨h, hu.congr rfl⟩
  | true =>
    rw [drqDone, if_pos rfl]
    cases hqueue : s.queue with
    | nil =>
      have hcrash : portMove s = crash s := by rw [portMove, hqueue]
      rw [hcrash]
      exact ⟨Tracks.queue_nil hqueue, hu.congr rfl⟩
    | cons r rest =>
      rw [portMove_cons hqueue]
      exact ⟨h, hu.moved rfl⟩

theorem unfailed_resetDone (nr : Nat) (h : Tracks s) (hu : Unfailed c s) :
    Tracks (resetDone c nr s) ∧ Unfailed c (resetDone c nr s) := by
  refine ⟨?_, hu.congr (hdOut_log ..)⟩
  rw [Tracks, (resetDone_frame nr s).1]
  exact h

theorem new_newRequest (dev : Nat) (cmd : Cmd) (bh blocknr : Nat) :
    New (newRequest dev cmd bh blocknr) :=
  ⟨⟨rfl, rfl, Nat.zero_lt_two⟩, rfl⟩

theorem unfailed_addRequest (hc : Addressable c) {req : Request} (hreq : New req) (h : Tracks s)
    (hu : Unfailed c s) : Tracks (addRequest c req s) ∧ Unfailed c (addRequest c req s) := by
  unfold addRequest
  split
  next hqueue =>
    exact @fresh_doHdRequest c { s with queue := [req] } hc true
      (fun q hm => List.mem_singleton.mp hm ▸ hreq) (hu.congr rfl)
  next r rest hqueue =>
    obtain ⟨hr, hrest⟩ := h r rest hqueue
    exact ⟨tracks_cons rfl hr fun q hm => (mem_insert hm).elim (fun e => e ▸ hreq) (hrest q),
      hu.congr rfl⟩

theorem unfailed_step (hc : Addressable c) {a : Action} {t : State} (h : Tracks s)
    (hu : Unfailed c s) (hs : step c a s = some t) :
    Tracks t ∧ (Unfailed c t ↔ Retries c s a ∧ Resumes c s a) := by
  obtain ⟨-, ⟨dev, cmd, bh, blocknr, rfl, -, rfl⟩ | ⟨drq, sti, below, rfl, -, rfl⟩ |
    ⟨sti, below, rfl, -, rfl⟩ | ⟨nr, below, rfl, -, rfl⟩ | ⟨low, count, below, rfl, -, rfl⟩ |
    ⟨ok, rfl, -, rfl⟩⟩ := step_cases hs
  · obtain ⟨ht, hut⟩ := unfailed_addRequest hc (new_newRequest dev cmd bh blocknr) h hu
    exact ⟨ht, iff_of_true hut ⟨nofun, nofun⟩⟩
  · obtain ⟨ht, hut⟩ := @unfailed_drqDone c { s with frames := below } sti drq h (hu.congr rfl)
    exact ⟨ht, iff_of_true hut ⟨nofun, nofun⟩⟩
  · exact @unfailed_timeout c { s with frames := below } hc sti h (hu.congr rfl)
  · obtain ⟨ht, hut⟩ := @unfailed_resetDone c { s with frames := below } nr h (hu.congr rfl)
    exact ⟨ht, iff_of_true hut ⟨nofun, nofun⟩⟩
  · obtain ⟨ht, hut⟩ := @unfailed_printed c { s with frames := below } hc count low h (hu.congr rfl)
    exact ⟨ht, iff_of_true hut ⟨nofun, nofun⟩⟩
  · exact unfailed_interrupt hc ok h hu

theorem tracks_start : Tracks start := Tracks.queue_nil rfl

theorem badRwIntr_suffix (sti : Bool) (s : State) : s.log <:+ (badRwIntr c sti s).log := by
  cases hqueue : s.queue with
  | nil =>
    rw [badRwIntr, hqueue]
    exact List.suffix_rfl
  | cons r rest =>
    obtain ⟨b, he⟩ := @badRwIntr_cons c s sti r rest hqueue
    rw [he]
    split
    · exact failRequest_suffix true { s with queue := { r with errors := r.errors + 1 } :: rest }
    · exact @doHdRequest_suffix c sti
        { s with queue := { r with errors := r.errors + 1 } :: rest, reset := b }

theorem printed_suffix (count low : Bool) (s : State) :
    s.log <:+ (printed c count low s).log := by
  cases hqueue : s.queue with
  | nil =>
    rw [printed, hqueue]
    exact List.suffix_rfl
  | cons r rest =>
    obtain ⟨b, f, he, -⟩ := @printed_cons c s count low r rest hqueue
    rw [he]
    exact @doHdRequest_suffix c true { s with queue := rest, reset := b, fault := f }

theorem portMove_suffix (s : State) : s.log <:+ (portMove s).log := by
  unfold portMove
  split
  · exact List.suffix_rfl
  · exact List.suffix_cons _ _

theorem drqDone_suffix (sti drq : Bool) (s : State) : s.log <:+ (drqDone sti drq s).log := by
  unfold drqDone
  split
  · exact portMove_suffix s
  · exact List.suffix_rfl

theorem ended_suffix (s : State) : s.log <:+ (doHdRequest c false (endRequest s)).log := by
  refine List.IsSuffix.trans ?_ (doHdRequest_suffix false _)
  unfold endRequest
  split
  · exact List.suffix_rfl
  · exact List.suffix_cons _ _

theorem writeIntr_suffix (ok : Bool) (s : State) : s.log <:+ (writeIntr c ok s).log := by
  cases ok with
  | false => exact badRwIntr_suffix false s
  | true =>
    cases hqueue : s.queue with
    | nil =>
      rw [writeIntr_nil hqueue]
      exact List.suffix_rfl
    | cons r rest =>
      rw [writeIntr_cons hqueue]
      split
      · exact @ended_suffix c { s with queue := writeDone r :: rest }
      · exact portMove_suffix { s with queue := advance r :: rest, doHd := some .writeIntr }

theorem readIntr_suffix (ok : Bool) (s : State) : s.log <:+ (readIntr c ok s).log := by
  cases ok with
  | false => exact badRwIntr_suffix false s
  | true =>
    cases hqueue : s.queue with
    | nil =>
      rw [readIntr_nil hqueue]
      exact List.suffix_rfl
    | cons r rest =>
      have hmoved : s.log <:+ (afterRead s r rest).log := List.suffix_cons _ _
      rw [readIntr_cons hqueue]
      split
      · exact hmoved.trans (ended_suffix _)
      · exact hmoved

theorem interrupt_suffix (ok : Bool) (s : State) : s.log <:+ (interrupt c ok s).log := by
  unfold interrupt
  dsimp only
  cases s.doHd with
  | none => exact List.suffix_rfl
  | some handler =>
    cases handler with
    | recalIntr =>
      cases ok with
      | false => exact @badRwIntr_suffix c false { s with doHd := none }
      | true => exact @doHdRequest_suffix c false { s with doHd := none }
    | writeIntr => exact writeIntr_suffix ok { s with doHd := none }
    | readIntr => exact readIntr_suffix ok { s with doHd := none }

theorem step_suffix {a : Action} {t : State} (hs : step c a s = some t) : s.log <:+ t.log := by
  obtain ⟨-, ⟨dev, cmd, bh, blocknr, rfl, -, rfl⟩ | ⟨drq, sti, below, rfl, -, rfl⟩ |
    ⟨sti, below, rfl, -, rfl⟩ | ⟨nr, below, rfl, -, rfl⟩ | ⟨low, count, below, rfl, -, rfl⟩ |
    ⟨ok, rfl, -, rfl⟩⟩ := step_cases hs
  · unfold addRequest
    split
    · exact @doHdRequest_suffix c true { s with queue := [newRequest dev cmd bh blocknr] }
    · exact List.suffix_rfl
  · exact drqDone_suffix sti drq { s with frames := below }
  · exact @badRwIntr_suffix c sti { s with frames := below }
  · rw [show (resetDone c nr { s with frames := below }).log = s.log from hdOut_log ..]
  · exact @printed_suffix c count low { s with frames := below }
  · exact interrupt_suffix ok s

theorem exec_suffix {run : List Action} {t : State} (h : Run.exec (step c) run s = some t) :
    s.log <:+ t.log := by
  induction run generalizing s with
  | nil =>
    cases h
    exact List.suffix_rfl
  | cons a run ih =>
    obtain ⟨u, hu, ht⟩ := Option.bind_eq_some_iff.mp h
    exact (step_suffix hu).trans (ih ht)

end

end Gpos.Hd
