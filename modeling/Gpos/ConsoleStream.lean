import Gpos.Answers
import Gpos.DisplayRuns
import Gpos.SavedCursor

/-! What `con_write` makes of the characters that it takes: those of its queue and
the echo of its answers. -/

namespace Gpos.Tty

open Program RingBuffer

section

variable {E : Type} {below : BitVec 8 → Bool} {write : Program (Dev E) Unit}

/-! What an echo keeps, and every change of the terminal that does not concern the write queue. -/

structure Kept (write : Program (Dev E) Unit) (I : Dev E → Prop) : Prop where
  modify : ∀ m, (∀ t, (m t).termios = t.termios) → (∀ t, (m t).writeQ = t.writeQ) →
    Ensures I (modify m) fun _ => I
  echo : ∀ cs, Ensures I (echo write cs) fun _ => I

section

variable {I : Dev E → Prop}

theorem ensures_pure : Ensures I (pure () : Program (Dev E) Unit) fun _ => I := .pure fun _ h => h

theorem ensures_tty {f : TtyStruct → Program (Dev E) Unit} (hf : ∀ t, Ensures I (f t) fun _ => I) :
    Ensures I (tty >>= f) fun _ => I :=
  fun s a s' hI hs => hf s.tty s a s' hI hs

theorem Kept.eraseLast (h : Kept write I) : Ensures I (eraseLast write) fun _ => I :=
  ensures_tty fun _ => (h.echo _).bind fun _ => h.modify _ (fun _ => rfl) fun _ => rfl

theorem Kept.killLine (h : Kept write I) (rounds : Nat) :
    Ensures I (killLine write rounds) fun _ => I := by
  induction rounds with
  | zero => exact .failure
  | succ rounds ih => exact ensures_tty fun _ => .ite ensures_pure (h.eraseLast.bind fun _ => ih)

theorem Kept.accept (h : Kept write I) (c : BitVec 8) : Ensures I (accept write c) fun _ => I := by
  refine .bind ?_ fun _ => ensures_tty fun _ => (h.echo _).bind fun _ => ?_
  · exact h.modify _ (fun _ => rfl) fun _ => rfl
  · exact h.modify _ (fun _ => rfl) fun _ => rfl

theorem Kept.dispatch (h : Kept write I) (rounds : Nat) (t : Termios) (c : BitVec 8) :
    Ensures I (dispatch write rounds t c) fun _ => I := by
  refine .ite (h.killLine rounds) <| .ite ?_ <| .ite ?_ <| .ite ?_ <| .ite ensures_pure (h.accept c)
  · exact ensures_tty fun _ => .ite ensures_pure h.eraseLast
  · exact h.modify _ (fun _ => rfl) fun _ => rfl
  · exact h.modify _ (fun _ => rfl) fun _ => rfl

theorem Kept.cook (h : Kept write I) (rounds : Nat) (c : BitVec 8) :
    Ensures I (cook below write rounds c) fun _ => I := by
  refine ensures_tty fun t => ?_
  dsimp only
  split
  · exact ensures_pure
  · exact h.dispatch rounds _ _

theorem Kept.copyToCooked (h : Kept write I) (rounds : Nat) :
    Ensures I (copyToCooked below write rounds) fun _ => I := by
  induction rounds with
  | zero => exact .failure
  | succ rounds ih =>
    refine ensures_tty fun _ => .ite ensures_pure
      (.bind ?_ fun _ => (h.cook rounds _).bind fun _ => ih)
    exact h.modify _ (fun _ => rfl) fun _ => rfl

end

end

/-! `con_write` draws what it takes. -/

section

variable {g : Console.Geometry} {below : BitVec 8 → Bool} {t : Termios} {con₀ : Console.Con}

/-- The console is what the characters that were taken make of `con₀`. -/
def Drawn (g : Console.Geometry) (t : Termios) (con₀ : Console.Con) (s : Dev Screen) : Prop :=
  s.tty.termios = t ∧
    s.rest.con = Console.conWrite g t.eraseChar.toNat (s.rest.taken.map BitVec.toNat) con₀

theorem drawn_shown {s : Dev Screen} (h : Drawn g t con₀ s) : Drawn g t con₀ (shown g s) := by
  refine ⟨h.1, ?_⟩
  show Console.conWriteChar g s.tty.termios.eraseChar.toNat s.tty.writeQ.first.toNat s.rest.con =
    Console.conWrite g t.eraseChar.toNat
      ((s.rest.taken ++ [s.tty.writeQ.first]).map BitVec.toNat) con₀
  rw [h.1, h.2, Console.conWrite, Console.conWrite, List.map_append, List.foldl_append]
  rfl

theorem drawn_answered {s : Dev Screen} (h : Drawn g t con₀ s) : Drawn g t con₀ (answered s) := h

theorem kept_drawn {write : Program (Dev Screen) Unit}
    (h : Ensures (Drawn g t con₀) write fun _ => Drawn g t con₀) : Kept write (Drawn g t con₀) where
  modify m ht _ := by
    intro s a s' hs hm
    cases hm
    exact ⟨(ht _).trans hs.1, hs.2⟩
  echo cs := by
    intro s a s' hs he
    by_cases hl : s.tty.termios.lEcho = true
    · rw [echo_on hl] at he
      have hput : Drawn g t con₀
          { s with tty := { s.tty with writeQ := cs.foldl RingBuffer.put s.tty.writeQ } } := hs
      exact h _ a s' hput he
    · rw [echo_off hl] at he
      cases he
      exact hs

theorem drawn_writeLoop {write : Program (Dev Screen) Unit}
    (h : Ensures (Drawn g t con₀) write fun _ => Drawn g t con₀) (rounds nr : Nat) :
    Ensures (Drawn g t con₀) (writeLoop g below write rounds nr) fun _ => Drawn g t con₀ := by
  induction nr with
  | zero => exact .pure fun _ hs => hs
  | succ nr ih =>
    intro s a s' hs hw
    have hnext := drawn_shown hs
    rw [writeLoop_succ] at hw
    split at hw
    · obtain ⟨_, u, hu, hl⟩ := bind_some.mp hw
      exact ih u a s' ((kept_drawn h).copyToCooked rounds _ _ u (drawn_answered hnext) hu) hl
    · exact ih _ a s' hnext hw

theorem drawn_conWrite (fuel : Nat) :
    Ensures (Drawn g t con₀) (conWrite g below fuel) fun _ => Drawn g t con₀ := by
  induction fuel with
  | zero => exact .failure
  | succ fuel ih =>
    intro s a s' hs hw
    obtain ⟨_, u, hu, hl⟩ := bind_some.mp hw
    cases hu
    obtain ⟨_, u, hu, hl⟩ := bind_some.mp hl
    cases hu
    refine drawn_writeLoop ih fuel _ _ a s' ?_ hl
    exact hs

end

section

variable {g : Console.Geometry} {below : BitVec 8 → Bool} {con₀ : Console.Con}

/-- `con_write` takes its queue and then the echo, and draws all of it. -/
theorem conWrite_takes {fuel : Nat} {tty : TtyStruct} {u : Dev Screen}
    (h : conWrite g below fuel (atCall tty con₀) = some ((), u))
    (hu : Undisturbed g below tty.writeQ.size (atCall tty con₀)) :
    u.tty.writeQ.Empty ∧ u.tty.termios = tty.termios ∧
      u.rest.con = Console.conWrite g tty.termios.eraseChar.toNat
        ((tty.writeQ.content ++ u.rest.queued).map BitVec.toNat) con₀ := by
  obtain ⟨htaken, -, hempty⟩ := (consumed_iff g below tty con₀ h).mpr hu
  have hstart : Drawn g tty.termios con₀ (atCall tty con₀) := ⟨rfl, rfl⟩
  obtain ⟨hterm, hcon⟩ := drawn_conWrite fuel _ _ u hstart h
  rw [htaken] at hcon
  exact ⟨hempty, hterm, hcon⟩

theorem conWrite_returns {tty : TtyStruct}
    (hu : Undisturbed g below tty.writeQ.size (atCall tty con₀)) :
    ∃ fuel u, conWrite g below fuel (atCall tty con₀) = some ((), u) := by
  have hbusy : Busy ([], tty.writeQ.content) (atCall tty con₀) := ⟨rfl, rfl, (List.append_nil _).symm⟩
  obtain ⟨k, u, hl⟩ := writeLoop_returns rfl hbusy hu
  refine ⟨k + 1, u, bind_some.mpr ⟨(), atCall tty con₀, ?_, hl⟩⟩
  show some ((), ({ atCall tty con₀ with
    rest := { (atCall tty con₀).rest with
      queued := [] ++ fresh (atCall tty con₀) } } : Dev Screen)) = _
  rw [fresh_atCall]
  rfl

/-- `con_write` moves the cursor and changes the screen as the parser decodes what it takes and as
the display performs the actions. It takes its queue and then the echo, unless an echo comes in
front of a character that is still to be taken. -/
theorem conWrite_decode (hg : Console.Fits g) (below : BitVec 8 → Bool) (tty : TtyStruct)
    (hcon : Console.Inv g con₀) :
    (∀ fuel u, conWrite g below fuel (atCall tty con₀) = some ((), u) →
      Console.Inv g u.rest.con ∧ Console.Displays g tty.termios.eraseChar.toNat
        (u.rest.taken.map BitVec.toNat) con₀ u.rest.con) ∧
      (Undisturbed g below tty.writeQ.size (atCall tty con₀) → ∃ fuel u,
        conWrite g below fuel (atCall tty con₀) = some ((), u) ∧
          u.rest.taken = tty.writeQ.content ++ u.rest.queued) := by
  refine ⟨fun fuel u hu => ?_, fun hund => ?_⟩
  · have hstart : Drawn g tty.termios con₀ (atCall tty con₀) := ⟨rfl, rfl⟩
    obtain ⟨-, hdrawn⟩ := drawn_conWrite fuel _ _ u hstart hu
    rw [hdrawn]
    exact ⟨hcon.conWrite hg _ _, Console.conWrite_displays hg hcon _ _⟩
  · obtain ⟨fuel, u, hu⟩ := conWrite_returns hund
    exact ⟨fuel, u, hu, ((consumed_iff g below tty con₀ hu).mpr hund).1⟩

/-- The answer to ESC Z is drawn behind it. -/
theorem conWrite_decode_answer :
    ∃ u, conWrite Console.vga (fun _ => false) 20 (atCall (writing [27, 90]) Console.blankScreen) =
      some ((), u) ∧ Console.picture Console.vga u.rest.con 0 7 = 0x0763 := by
  have htaken : (conWrite Console.vga (fun _ => false) 20
      (atCall (writing [27, 90]) Console.blankScreen)).map (fun r => r.2.rest.taken) =
        some ([27, 90] ++ [94, 91, 91, 63, 49, 59, 50, 99]) := by decide +kernel
  obtain ⟨⟨_, u⟩, hu, htaken⟩ := Option.map_eq_some_iff.mp htaken
  have hshown := ((conWrite_decode Console.vga_fits (fun _ => false) (writing [27, 90])
    (Console.blankScreen_start.inv Console.vga_fits)).1 20 u hu).2
  refine ⟨u, hu, (hshown.2 0 7 (by decide) (by decide)).trans ?_⟩
  dsimp only at htaken
  rw [htaken]
  decide +kernel

end

/-! Any number of calls, none of which answers with an echo. -/

section

variable {g : Console.Geometry} {below : BitVec 8 → Bool}

/-- `con_write` is called for the characters `cs`. -/
def writeOut (g : Console.Geometry) (below : BitVec 8 → Bool) (fuel : Nat) (cs : List (BitVec 8))
    (s : Dev Screen) : Option (Dev Screen) :=
  ((do putWrite cs; conWrite g below fuel) s).map Prod.snd

/-- The characters are taken without an echo of an answer to ESC Z. -/
def Mute (g : Console.Geometry) (below : BitVec 8 → Bool) :
    List (List (BitVec 8)) → Dev Screen → Prop
  | [], _ => True
  | cs :: calls, s => ∃ rounds t, writeLoop g below failure rounds (called cs s).tty.writeQ.size
      (called cs s) = some ((), t) ∧ Mute g below calls t

theorem kept_termios (t : Termios) :
    Kept failure fun s : Dev Screen => s.tty.termios = t where
  modify m ht _ := by
    intro s a s' hs hm
    cases hm
    exact (ht _).trans hs
  echo cs := by
    intro s a s' hs he
    by_cases hl : s.tty.termios.lEcho = true
    · rw [echo_on hl] at he
      exact nomatch he
    · rw [echo_off hl] at he
      cases he
      exact hs

theorem writeLoop_mute {rounds nr : Nat} {s t : Dev Screen} (hn : s.tty.writeQ.size = nr)
    (h : writeLoop g below failure rounds nr s = some ((), t)) :
    t.tty.writeQ.Empty ∧ t.tty.termios = s.tty.termios ∧
      t.rest.con = Console.conWrite g s.tty.termios.eraseChar.toNat
        (s.tty.writeQ.content.map BitVec.toNat) s.rest.con := by
  induction nr generalizing s with
  | zero =>
    have hempty := (size_eq_zero _).mp hn
    cases h
    refine ⟨hempty, rfl, ?_⟩
    rw [(content_eq_nil _).mpr hempty]
    rfl
  | succ nr ih =>
    rw [writeLoop_succ] at h
    rw [content_next (not_empty_of_size hn)]
    split at h
    · obtain ⟨_, u, hc, hl⟩ := bind_some.mp h
      obtain ⟨hq, hrest⟩ := (Tame.copyToCooked settles_failure rounds).same _ _ hc
      have hterm : u.tty.termios = s.tty.termios :=
        (kept_termios s.tty.termios).copyToCooked rounds (answered (shown g s)) () u rfl hc
      obtain ⟨hempty, hterm', hcon⟩ := ih (by rw [hq]; exact size_shown g hn) hl
      refine ⟨hempty, hterm'.trans hterm, hcon.trans ?_⟩
      rw [hterm, hq, hrest]
      rfl
    · obtain ⟨hempty, hterm, hcon⟩ := ih (size_shown g hn) h
      exact ⟨hempty, hterm, hcon⟩

theorem within_writeOut {fuel fuel' : Nat} (h : fuel ≤ fuel') (cs : List (BitVec 8))
    (s t : Dev Screen) (hs : writeOut g below fuel cs s = some t) :
    writeOut g below fuel' cs s = some t := by
  obtain ⟨r, hr, rfl⟩ := Option.map_eq_some_iff.mp hs
  have hmore := (Within.refl (putWrite cs)).bind (fun _ => within_conWrite h) s r hr
  rw [writeOut, hmore, Option.map_some]

/-- The console is what the characters of all the calls make of it. -/
theorem exec_mute {calls : List (List (BitVec 8))} {s : Dev Screen} (hm : Mute g below calls s)
    (hq : s.tty.writeQ.Empty) (hlen : ∀ cs ∈ calls, cs.length < 2 ^ 10) :
    ∃ fuel t, Run.exec (writeOut g below fuel) calls s = some t ∧
      t.rest.con = Console.conWrite g s.tty.termios.eraseChar.toNat
        (calls.flatten.map BitVec.toNat) s.rest.con := by
  induction calls generalizing s with
  | nil => exact ⟨0, s, rfl, rfl⟩
  | cons cs calls ih =>
    obtain ⟨rounds, u, hu, hm⟩ := hm
    obtain ⟨hcs, hlen⟩ := List.forall_mem_cons.mp hlen
    have hsize := (size_eq_zero _).mpr hq
    have hcontent : (called cs s).tty.writeQ.content = cs := by
      show (cs.foldl put s.tty.writeQ).content = cs
      rw [content_puts cs (by omega), (content_eq_nil _).mpr hq, List.nil_append]
    obtain ⟨hempty, hterm, hcon⟩ := writeLoop_mute rfl hu
    rw [hcontent] at hcon
    obtain ⟨fuel, t, ht, hcon'⟩ := ih hm hempty hlen
    have hfirst : writeOut g below (rounds + 1) cs s = some u :=
      congrArg (Option.map Prod.snd) (within_writeLoop .failure (Nat.le_refl _) _ _ _ hu)
    refine ⟨max (rounds + 1) fuel, t, ?_, ?_⟩
    · rw [Run.exec_cons (within_writeOut (le_max_left _ _) _ _ _ hfirst)]
      exact Run.exec_mono (within_writeOut (le_max_right _ _)) ht
    · rw [hcon', hterm, hcon, List.flatten_cons, List.map_append, Console.conWrite_append]
      rfl

/-- In calls without an echo whose characters meet the condition, ESC 8 and ESC [ u take the cursor
to where it was at ESC 7 or ESC [ s, and no other sequence of two characters saves a position. -/
theorem restores_of_mute (hg : Console.Fits g) {s : Dev Screen} (hcon : Console.Inv g s.rest.con)
    (h0 : s.rest.con.state = 0) (hq : s.tty.writeQ.Empty) {calls : List (List (BitVec 8))}
    (hlen : ∀ cs ∈ calls, cs.length < 2 ^ 10) (hm : Mute g below calls s) {eraseChar : Nat}
    (he : s.tty.termios.eraseChar.toNat = eraseChar) {stream : List Nat}
    (hs : calls.flatten.map BitVec.toNat = stream)
    (ha : Run.Meets (Console.step g eraseChar) Console.Agrees stream s.rest.con) :
    ∃ fuel t, Run.exec (writeOut g below fuel) calls s = some t ∧
      (∀ w, stream = Console.esc7 ++ w ++ Console.esc8 → Console.Between g eraseChar w
        (Console.conWrite g eraseChar Console.esc7 s.rest.con) →
          Console.place t.rest.con = Console.place s.rest.con) ∧
      (∀ w, stream = Console.csiS ++ w ++ Console.csiU → Console.Between g eraseChar w
        (Console.conWrite g eraseChar Console.csiS s.rest.con) →
          Console.place t.rest.con = Console.place s.rest.con) ∧
      ∀ c, c ≠ '7'.toNat → stream = [27, c] →
        Console.saved t.rest.con = Console.saved s.rest.con := by
  obtain ⟨fuel, t, ht, hdrawn⟩ := exec_mute hm hq hlen
  rw [he, hs] at hdrawn
  have hall := fun w => Console.restores_of_agrees hg eraseChar hcon h0 w
  refine ⟨fuel, t, ht, fun w hw hb => ?_, fun w hw hb => ?_, fun c hc hw => ?_⟩
  · rw [hdrawn, hw]
    exact (hall w).1 (hw ▸ ha) hb
  · rw [hdrawn, hw]
    exact (hall w).2.1 (hw ▸ ha) hb
  · rw [hdrawn, hw]
    exact (hall []).2.2 c hc (hw ▸ ha)

/-- A terminal without ECHO takes the answer to ESC Z silently. -/
def noEcho : TtyStruct := { console with termios := { console.termios with cLflag := 3 } }

theorem restores_of_mute_column55 :
    ∃ fuel t, Run.exec (writeOut Console.vga (fun _ => false) fuel)
      [[27, 55, 27, 90, 65, 27, 56]] (atCall noEcho Console.column55) = some t ∧
        Console.place t.rest.con = (55, 0) := by
  let cs : List (BitVec 8) := [27, 55, 27, 90, 65, 27, 56]
  have hrun : (writeLoop Console.vga (fun _ => false) failure 9 7
      (called cs (atCall noEcho Console.column55))).isSome := by decide +kernel
  obtain ⟨⟨_, u⟩, hu⟩ := Option.isSome_iff_exists.mp hrun
  have hsize : (called cs (atCall noEcho Console.column55)).tty.writeQ.size = 7 := by decide
  have hm : Mute Console.vga (fun _ => false) [cs] (atCall noEcho Console.column55) := by
    refine ⟨9, u, ?_, trivial⟩
    rw [hsize]
    exact hu
  obtain ⟨fuel, t, ht, hfirst, -⟩ := @restores_of_mute Console.vga (fun _ => false)
    Console.vga_fits (atCall noEcho Console.column55) Console.column55_inv rfl rfl [cs] (by decide)
    hm 127 rfl (cs.map BitVec.toNat) rfl (by decide)
  exact ⟨fuel, t, ht, hfirst [27, 90, 65] rfl ⟨by decide, by decide⟩⟩

/-- ESC 7, one character and ESC 8 leave the cursor behind the character. -/
theorem not_restored :
    Console.Between Console.vga 127 [65]
      (Console.conWrite Console.vga 127 Console.esc7 Console.blankScreen) ∧
    ∃ t, Run.exec (writeOut Console.vga (fun _ => false) 1) [[27, 55, 65, 27, 56]]
      (atCall console Console.blankScreen) = some t ∧
        Console.place t.rest.con ≠ Console.place Console.blankScreen := by
  refine ⟨⟨by decide, by decide⟩, ?_⟩
  have hrun : (Run.exec (writeOut Console.vga (fun _ => false) 1) [[27, 55, 65, 27, 56]]
      (atCall console Console.blankScreen)).map (fun t => Console.place t.rest.con) =
        some (1, 0) := by decide +kernel
  obtain ⟨t, ht, hplace⟩ := Option.map_eq_some_iff.mp hrun
  exact ⟨t, ht, hplace ▸ by decide⟩

end

end Gpos.Tty
