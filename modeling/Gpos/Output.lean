import Gpos.ConsoleStream
import Gpos.Merged
import Gpos.TtyWrite
import Gpos.Typing

/-! What the screen shows when any number of tasks write to the console and keys
are pressed between the rounds of `tty_write`: the characters of all the calls,
merged, with the echo. -/

namespace Gpos.Tty

open Program RingBuffer

/-! The calls and the console -/

/-- The console terminal with its keyboard, and the echo so far, which the code does not read. -/
structure Terminal where
  tty : TtyStruct
  con : Console.Con
  modifiers : Keyboard.Modifiers
  echoed : List (BitVec 8)

def Terminal.after (u : Dev Screen) (m : Keyboard.Modifiers) (d : Terminal) : Terminal :=
  ⟨u.tty, u.rest.con, m, d.echoed ++ u.rest.queued⟩

/-- A round of a call of `tty_write`, or a keyboard interrupt, with the depth to which `con_write`
may call itself. -/
inductive Event (T : Type)
  | write (i : T) (depth : Nat)
  | key (a : Keyboard.KeyCode) (depth : Nat)

section

variable {T : Type} [DecidableEq T] (g : Console.Geometry) (below : BitVec 8 → Bool)

/-- What a task that is awake has put before it calls `con_write`. -/
def filled (i : T) (s : St T Terminal) : Chunk :=
  fill below s.rest.tty.termios 1024 ⟨s.crFlag, s.writeQ, s.call i⟩

def handed (i : T) (s : St T Terminal) : Dev Screen :=
  atCall { s.rest.tty with writeQ := (filled below i s).queue } s.rest.con

/-- The state behind a call of `con_write` that ends in `u`. -/
def written (i : T) (u : Dev Screen) (s : St T Terminal) : St T Terminal where
  crFlag := (filled below i s).crFlag
  writeQ := u.tty.writeQ
  rest := s.rest.after u s.rest.modifiers
  call := Function.update s.call i { (filled below i s).call with
    asleep := false
    owes := (filled below i s).crFlag && decide ((filled below i s).call.nr ≠ 0) }

/-- The call of a task goes on; `tty->write` is `con_write`. -/
def writeStep (i : T) (depth : Nat) (s : St T Terminal) : Option (St T Terminal) :=
  let c := s.call i
  if c.nr = 0 then none
  else if awake s.writeQ c then
    (conWrite g below depth (handed below i s)).map fun r => written below i r.2 s
  else if c.asleep then none
  else some { s with call := Function.update s.call i { c with asleep := true } }

/-- The terminal as `do_tty_interrupt` finds it. -/
def struck (k : Keyboard.Kbd) (s : St T Terminal) : Dev Screen :=
  atCall { s.rest.tty with readQ := Keyboard.ring k.readQ, writeQ := s.writeQ } s.rest.con

/-- `keyboard_interrupt` with the call of `do_tty_interrupt`. -/
def keyStep (a : Keyboard.KeyCode) (depth : Nat) (s : St T Terminal) : Option (St T Terminal) :=
  (a.interrupt s.rest.modifiers (Keyboard.words s.rest.tty.readQ)).bind fun k =>
    (copyToCooked below (conWrite g below depth) depth (struck k s)).map fun r =>
      { s with writeQ := r.2.tty.writeQ, rest := s.rest.after r.2 (Keyboard.modifiers k) }

def eventStep : Event T → St T Terminal → Option (St T Terminal)
  | .write i depth => writeStep g below i depth
  | .key a depth => keyStep g below a depth

/-- When a task writes, no other call waits in the middle of a pair, and no echo comes in front of a
character that `con_write` is still to take. -/
def Takes (s : St T Terminal) : Event T → Prop
  | .write i _ =>
    Enters s i ∧ Undisturbed g below (filled below i s).queue.size (handed below i s)
  | .key _ _ => True

end

section

variable {T : Type} {g : Console.Geometry} {below : BitVec 8 → Bool} {t : Termios}
    {con₀ : Console.Con}

theorem fill_content (n : Nat) (s : Chunk) :
    ∃ cs, (fill below t n s).queue.content = s.queue.content ++ cs ∧
      (fill below t n s).call.put = s.call.put ++ cs := by
  induction n generalizing s with
  | zero => exact ⟨[], (List.append_nil _).symm, (List.append_nil _).symm⟩
  | succ n ih =>
    unfold fill
    split
    next => exact ⟨[], (List.append_nil _).symm, (List.append_nil _).symm⟩
    next hgo =>
      have hone : ∃ c, (writeChar below t s).queue = s.queue.put c ∧
          (writeChar below t s).call.put = s.call.put ++ [c] := by
        rcases @writeChar_cases below t s with ⟨-, h⟩ | ⟨c, h⟩
        · exact ⟨13, by rw [h]; rfl, by rw [h]; rfl⟩
        · exact ⟨c, by rw [h]; rfl, by rw [h]; rfl⟩
      obtain ⟨c, hq, hp⟩ := hone
      obtain ⟨cs, hcontent, hput⟩ := ih (writeChar below t s)
      refine ⟨c :: cs, ?_, ?_⟩
      · rw [hcontent, hq, content_put c (not_or.mp hgo).2, List.append_assoc]
        rfl
      · rw [hput, hp, List.append_assoc]
        rfl

/-- `copy_to_cooked` puts the echo on the empty queue and draws it. -/
theorem copyToCooked_draws {fuel : Nat} {tty : TtyStruct} {u : Dev Screen} (he : tty.writeQ.Empty)
    (h : copyToCooked below (conWrite g below fuel) fuel (atCall tty con₀) = some ((), u)) :
    u.tty.writeQ.Empty ∧ u.tty.termios = tty.termios ∧
      u.rest.con = Console.conWrite g tty.termios.eraseChar.toNat
        (u.rest.queued.map BitVec.toNat) con₀ := by
  have hquiet : Quiet ([], []) (atCall tty con₀) := ⟨⟨rfl, rfl, (content_eq_nil _).mpr he⟩, he⟩
  have hstart : Drawn g tty.termios con₀ (atCall tty con₀) := ⟨rfl, rfl⟩
  obtain ⟨⟨-, -, horder⟩, hempty⟩ :=
    (Tame.copyToCooked (settles_conWrite g below fuel) fuel).quiet ([], []) _ _ u hquiet h
  obtain ⟨hterm, hcon⟩ := (kept_drawn (drawn_conWrite fuel)).copyToCooked fuel _ _ u hstart h
  rw [(content_eq_nil _).mpr hempty, List.append_nil, List.nil_append] at horder
  rw [horder] at hcon
  exact ⟨hempty, hterm, hcon⟩

theorem copyToCooked_returns {tty : TtyStruct} (he : tty.writeQ.Empty) :
    ∃ fuel u, copyToCooked below (conWrite g below fuel) fuel (atCall tty con₀) = some ((), u) := by
  have hquiet : Quiet ([], []) (atCall tty con₀) := ⟨⟨rfl, rfl, (content_eq_nil _).mpr he⟩, he⟩
  obtain ⟨fuel, _, u, hu, _⟩ := (digests (weight tty.readQ)).run _ ⟨hquiet, Nat.le_refl _⟩
  exact ⟨fuel, u, hu⟩

variable [DecidableEq T] {s s' : St T Terminal}

/-- All that the calls have put and all that was echoed, merged, is what the console was drawn
from. -/
def Prints (g : Console.Geometry) (t : Termios) (con₀ : Console.Con) (s : St T Terminal) : Prop :=
  ∃ out : List (Option T × BitVec 8),
    (∀ i, Merged.part out (some i) = (s.call i).put) ∧ Merged.part out none = s.rest.echoed ∧
      s.rest.con = Console.conWrite g t.eraseChar.toNat (out.map fun x => x.2.toNat) con₀

theorem Prints.more (h : Prints g t con₀ s) (out : List (Option T × BitVec 8))
    (hput : ∀ i, (s'.call i).put = (s.call i).put ++ Merged.part out (some i))
    (hecho : s'.rest.echoed = s.rest.echoed ++ Merged.part out none)
    (hcon : s'.rest.con = Console.conWrite g t.eraseChar.toNat
      ((out.map Prod.snd).map BitVec.toNat) s.rest.con) : Prints g t con₀ s' := by
  obtain ⟨before, hbefore, hechoed, hdrawn⟩ := h
  refine ⟨before ++ out, fun i => ?_, ?_, ?_⟩
  · rw [Merged.part_append, hbefore, hput]
  · rw [Merged.part_append, hechoed, hecho]
  · rw [List.map_append, Console.conWrite_append, ← hdrawn, hcon, List.map_map]
    rfl

structure Joined (g : Console.Geometry) (t : Termios) (con₀ : Console.Con)
    (s : St T Terminal) : Prop where
  calls : Inv s
  empty : s.writeQ.Empty
  termios : s.rest.tty.termios = t
  prints : Prints g t con₀ s

section

variable {i : T} {depth : Nat}

theorem writeStep_awake (haw : awake s.writeQ (s.call i) = true)
    (h : writeStep g below i depth s = some s') :
    (s.call i).nr ≠ 0 ∧ ∃ u, conWrite g below depth (handed below i s) = some ((), u) ∧
      s' = written below i u s := by
  by_cases hn : (s.call i).nr = 0
  · rw [writeStep, if_pos hn] at h
    cases h
  · rw [writeStep, if_neg hn, if_pos haw] at h
    obtain ⟨⟨_, u⟩, hu, rfl⟩ := Option.map_eq_some_iff.mp h
    exact ⟨hn, u, hu, rfl⟩

/-- It is a step of `tty_write`. -/
theorem step_written (hn : (s.call i).nr ≠ 0) (haw : awake s.writeQ (s.call i) = true)
    (u : Dev Screen) : step below s.rest.tty.termios
      (fun _ => (u.tty.writeQ, s.rest.after u s.rest.modifiers)) i s =
        some (written below i u s) := by
  rw [step, if_neg hn, if_pos haw]
  rfl

theorem written_put (i j : T) (u : Dev Screen) (s : St T Terminal) :
    ((written below i u s).call j).put =
      if j = i then (filled below i s).call.put else (s.call j).put := by
  by_cases hji : j = i
  · rw [if_pos hji, hji]
    simp only [written, Function.update_self]
  · rw [if_neg hji]
    simp only [written, Function.update_of_ne hji]

theorem joined_write (ht : Default t) (h : Joined g t con₀ s)
    (hs : writeStep g below i depth s = some s') (hi : Enters s i)
    (hu : Undisturbed g below (filled below i s).queue.size (handed below i s)) :
    Joined g t con₀ s' := by
  have haw := awake_of_empty h.empty (s.call i)
  obtain ⟨hn, u, hrun, rfl⟩ := writeStep_awake haw hs
  have hcalls : Inv (written below i u s) :=
    inv_step (h.termios.symm ▸ ht) h.calls (step_written hn haw u) hi
  obtain ⟨hempty, hterm, hcon⟩ := conWrite_takes hrun hu
  obtain ⟨cs, hcontent, hput⟩ := @fill_content below s.rest.tty.termios 1024
    ⟨s.crFlag, s.writeQ, s.call i⟩
  refine ⟨hcalls, hempty, hterm.trans h.termios, h.prints.more
    (Merged.tagged (some i) cs ++ Merged.tagged none u.rest.queued) (fun j => ?_) ?_ ?_⟩
  · rw [written_put, Merged.part_append, Merged.part_tagged_of_ne (Option.some_ne_none j).symm,
      List.append_nil]
    by_cases hji : j = i
    · rw [if_pos hji, hji, Merged.part_tagged]
      exact hput
    · rw [if_neg hji, Merged.part_tagged_of_ne fun he => hji (Option.some.inj he).symm,
        List.append_nil]
  · rw [Merged.part_append, Merged.part_tagged_of_ne (Option.some_ne_none i), Merged.part_tagged,
      List.nil_append]
    rfl
  · have hqueue : (filled below i s).queue.content = cs := by
      refine hcontent.trans ?_
      rw [(content_eq_nil _).mpr h.empty, List.nil_append]
    rw [List.map_append, Merged.map_tagged, Merged.map_tagged, ← hqueue, ← h.termios]
    exact hcon

theorem joined_goes (h : Joined g t con₀ s) (hn : (s.call i).nr ≠ 0)
    (hu : Undisturbed g below (filled below i s).queue.size (handed below i s)) :
    ∃ depth s', writeStep g below i depth s = some s' ∧ (s'.call i).nr < (s.call i).nr := by
  obtain ⟨depth, u, hrun⟩ : ∃ depth u, conWrite g below depth (handed below i s) = some ((), u) :=
    @conWrite_returns g below s.rest.con
      { s.rest.tty with writeQ := (filled below i s).queue } hu
  refine ⟨depth, written below i u s, ?_, ?_⟩
  · rw [writeStep, if_neg hn, if_pos (awake_of_empty h.empty _), hrun]
    rfl
  · simp only [written, Function.update_self]
    exact @fill_shortens below s.rest.tty.termios 1022 ⟨s.crFlag, s.writeQ, s.call i⟩ h.empty hn

end

section

variable {a : Keyboard.KeyCode} {depth : Nat}

theorem joined_key (h : Joined g t con₀ s) (hs : keyStep g below a depth s = some s') :
    Joined g t con₀ s' := by
  obtain ⟨k, -, hs⟩ := Option.bind_eq_some_iff.mp hs
  obtain ⟨⟨_, u⟩, hu, rfl⟩ := Option.map_eq_some_iff.mp hs
  obtain ⟨hempty, hterm, hcon⟩ := copyToCooked_draws h.empty hu
  refine ⟨⟨h.calls.sound, h.calls.flag⟩, hempty, hterm.trans h.termios, h.prints.more
    (Merged.tagged none u.rest.queued) (fun j => ?_) ?_ ?_⟩
  · rw [Merged.part_tagged_of_ne (Option.some_ne_none j).symm, List.append_nil]
  · rw [Merged.part_tagged]
    rfl
  · rw [Merged.map_tagged, ← h.termios]
    exact hcon

theorem joined_hears (h : Joined g t con₀ s) {k : Keyboard.Kbd}
    (hk : a.interrupt s.rest.modifiers (Keyboard.words s.rest.tty.readQ) = some k) :
    ∃ depth s', keyStep g below a depth s = some s' := by
  obtain ⟨depth, u, hu⟩ : ∃ depth u,
      copyToCooked below (conWrite g below depth) depth (struck k s) = some ((), u) :=
    @copyToCooked_returns g below s.rest.con
      { s.rest.tty with readQ := Keyboard.ring k.readQ, writeQ := s.writeQ } h.empty
  refine ⟨depth,
    { s with writeQ := u.tty.writeQ, rest := s.rest.after u (Keyboard.modifiers k) }, ?_⟩
  rw [keyStep, hk, Option.bind_some, hu]
  rfl

end

end

/-- The screen is the display after the actions that the characters of `out` call for, and `out` is
what the calls have put, each in its order, and the echo. A call that has characters left goes on,
and so does a key that does not reboot. -/
structure Output {T : Type} [DecidableEq T] (g : Console.Geometry) (below : BitVec 8 → Bool)
    (t : Termios) (con₀ : Console.Con) (s : St T Terminal) : Prop where
  safe : Safe s
  screen : ∃ (out : List (Option T × BitVec 8)) (p : Console.Parser),
    (∀ i, Merged.part out (some i) = (s.call i).put) ∧ Merged.part out none = s.rest.echoed ∧
      Console.Shows g s.rest.con p (Console.perform g.videoNumColumns g.videoNumLines
        (Console.decode g.videoNumLines t.eraseChar.toNat con₀.parser
          (out.map fun x => x.2.toNat)) ⟨con₀.frame, Console.picture g con₀⟩)
  goes : ∀ i, (s.call i).nr ≠ 0 →
    Undisturbed g below (filled below i s).queue.size (handed below i s) →
      ∃ depth s', writeStep g below i depth s = some s' ∧ (s'.call i).nr < (s.call i).nr
  hears : ∀ (a : Keyboard.KeyCode) (k : Keyboard.Kbd),
    a.interrupt s.rest.modifiers (Keyboard.words s.rest.tty.readQ) = some k →
      ∃ depth s', keyStep g below a depth s = some s'

section

variable {T : Type} [DecidableEq T] {g : Console.Geometry} {below : BitVec 8 → Bool}

theorem Joined.output (hg : Console.Fits g) {t : Termios} {con₀ : Console.Con}
    (hcon : Console.Inv g con₀) {s : St T Terminal} (h : Joined g t con₀ s) :
    Output g below t con₀ s := by
  obtain ⟨out, hparts, hecho, hout⟩ := h.prints
  have hstart : Console.Shows g con₀ con₀.parser ⟨con₀.frame, Console.picture g con₀⟩ :=
    ⟨hcon, rfl, rfl, fun _ _ _ _ => rfl⟩
  obtain ⟨p, hp⟩ :=
    Console.conWrite_shows hg hstart t.eraseChar.toNat (out.map fun x => x.2.toNat)
  exact ⟨h.calls.safe, ⟨out, p, hparts, hecho, hout ▸ hp⟩, fun i hn hu => joined_goes h hn hu,
    fun a k hk => joined_hears h hk⟩

theorem joined_event {t : Termios} (ht : Default t) {con₀ : Console.Con} {s s' : St T Terminal}
    {e : Event T} (h : Joined g t con₀ s) (hs : eventStep g below e s = some s')
    (hc : Takes g below s e) : Joined g t con₀ s' := by
  cases e with
  | write i depth => exact joined_write ht h hs hc.1 hc.2
  | key a depth => exact joined_key h hs

/-- Whatever the order in which the tasks write and the keys are pressed, the screen shows what each
call has put, and the echo. -/
theorem events_shown (hg : Console.Fits g) {tty : TtyStruct} {con₀ : Console.Con}
    (ht : Default tty.termios) (hq : tty.writeQ.Empty) (hcon : Console.Inv g con₀)
    (m : Keyboard.Modifiers) (buf : T → List (BitVec 8)) {run : List (Event T)}
    (h : Run.Meets (eventStep g below) (Takes g below) run
      (atStart tty.writeQ ⟨tty, con₀, m, []⟩ buf)) :
    Run.Always (eventStep g below) (Output g below tty.termios con₀) run
      (atStart tty.writeQ ⟨tty, con₀, m, []⟩ buf) := by
  have hstart : Joined g tty.termios con₀
      (atStart tty.writeQ (⟨tty, con₀, m, []⟩ : Terminal) buf) :=
    ⟨inv_atStart _ _ _, hq, rfl, [], fun _ => rfl, rfl, rfl⟩
  exact (Run.always_of_meets (fun _ _ _ hj hs hc => joined_event ht hj hs hc) hstart h).mono
    fun _ hj => hj.output hg hcon

/-- One task, a key, and the other task. -/
theorem events_shown_twoLines :
    Run.Always (eventStep Console.vga fun _ => false)
      (Output Console.vga (fun _ => false) console.termios Console.blankScreen)
      [.write false 1, .key ⟨0x1e, 0, ⟨0, 0, 0, 0⟩⟩ 9, .write true 1]
      (atStart console.writeQ ⟨console, Console.blankScreen, ⟨0, 2, 0⟩, []⟩ twoLines) := by
  refine @events_shown Bool _ Console.vga (fun _ => false) Console.vga_fits console
    Console.blankScreen rfl rfl (Console.blankScreen_start.inv Console.vga_fits) ⟨0, 2, 0⟩ twoLines
    _ fun s h => ⟨⟨fun _ _ _ => rfl, undisturbed_of_last rfl (by decide +kernel)⟩,
      fun s' h' => ⟨trivial, fun _ _ => ⟨⟨fun _ j hj => ?_, undisturbed_of_last rfl ?_⟩, trivial⟩⟩⟩
  all_goals
    have hfirst : ((eventStep Console.vga (fun _ => false) (.write false 1)
      (atStart console.writeQ ⟨console, Console.blankScreen, ⟨0, 2, 0⟩, []⟩ twoLines)).bind
        (eventStep Console.vga (fun _ => false) (.key ⟨0x1e, 0, ⟨0, 0, 0, 0⟩⟩ 9))).map
          (fun s => ((s.call false).owes, (filled (fun _ => false) true s).queue.content)) =
            some (false, [98, 13, 10]) := by decide +kernel
    rw [h, Option.bind_some, h'] at hfirst
    obtain ⟨howes, hcontent⟩ := Prod.mk.inj (Option.some.inj hfirst)
  · cases j with
    | false => exact howes
    | true => exact absurd rfl hj
  · show 90 ∉ (filled (fun _ => false) true s').queue.content.dropLast
    rw [hcontent]
    decide

end

end Gpos.Tty
