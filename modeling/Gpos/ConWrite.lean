import Gpos.Console
import Gpos.Tty

/-! `con_write` on its queue. The answer to ESC Z goes through `copy_to_cooked`,
whose echo calls `con_write` again. -/

namespace Gpos.Tty

open Program RingBuffer

/-- The console, and what has happened to the write queue: the characters
taken from it, the echo characters put on it, whether the tail has passed the
head, and the head up to which the echo is recorded. The code does not read these. -/
structure Screen where
  con : Console.Con
  taken : List (BitVec 8)
  queued : List (BitVec 8)
  past : Bool
  noted : BitVec 10

def response : List (BitVec 8) := [27, 91, 63, 49, 59, 50, 99]

/-- The characters that were put since the last time. -/
def fresh (s : Dev Screen) : List (BitVec 8) :=
  (List.range (s.tty.writeQ.head - s.rest.noted).toNat).map fun i =>
    s.tty.writeQ.buf (s.rest.noted + BitVec.ofNat 10 i)

def note : Program (Dev Screen) Unit := fun s =>
  some ((), { s with
    rest := { s.rest with queued := s.rest.queued ++ fresh s, noted := s.tty.writeQ.head } })

/-- `GETCH` from the write queue. -/
def getch : Program (Dev Screen) (BitVec 8) := fun s =>
  let q := s.tty.writeQ
  some (q.first,
    { tty := { s.tty with writeQ := q.next }
      rest :=
        { s.rest with taken := s.rest.taken ++ [q.first], past := s.rest.past || decide q.Empty } })

section

variable (g : Console.Geometry) (below : BitVec 8 → Bool)

/-- The `switch` of `con_write`; the result tells that the terminal is to be answered. -/
def display (c : BitVec 8) : Program (Dev Screen) Bool := fun s =>
  some (decide (s.rest.con.state = 1 ∧ c = 90),
    { s with
      rest := { s.rest with
        con := Console.conWriteChar g s.tty.termios.eraseChar.toNat c.toNat s.rest.con } })

def putResponse : Program (Dev Screen) Unit :=
  modify fun t => { t with readQ := response.foldl RingBuffer.put t.readQ }

section

variable (write : Program (Dev Screen) Unit) (rounds : Nat)

def respond : Program (Dev Screen) Unit := do
  putResponse
  copyToCooked below write rounds

def writeChar₁ (c : BitVec 8) : Program (Dev Screen) Unit := do
  if ← display g c then respond below write rounds else pure ()

/-- The `while` loop, whose number of rounds is fixed before it. -/
def writeLoop : Nat → Program (Dev Screen) Unit
  | 0 => pure ()
  | nr + 1 => do
    writeChar₁ g below write rounds (← getch)
    writeLoop nr

end

/-- `con_write`, with the depth to which it may call itself. -/
def conWrite : Nat → Program (Dev Screen) Unit
  | 0 => failure
  | fuel + 1 => do
    note
    writeLoop g below (conWrite fuel) fuel (← tty).writeQ.size

end

/-- Everything that was in the queue and every echo character was taken once, in their order. -/
def Consumed (s t : Dev Screen) : Prop :=
  t.rest.taken = s.rest.taken ++ s.tty.writeQ.content ++ t.rest.queued ∧ t.rest.past = false ∧
    t.tty.writeQ.Empty

def Consumes (g : Console.Geometry) (below : BitVec 8 → Bool) (s : Dev Screen) : Prop :=
  ∃ fuel t, conWrite g below fuel s = some ((), t) ∧ Consumed s t

/-- A call from outside, before anything was taken or echoed. -/
def atCall (t : TtyStruct) (con : Console.Con) : Dev Screen :=
  ⟨t, con, [], [], false, t.writeQ.head⟩

/-- `copy_to_cooked` goes through without an echo. -/
def Silent (below : BitVec 8 → Bool) (s t : Dev Screen) : Prop :=
  ∃ rounds, copyToCooked below failure rounds s = some ((), t)

/-- The state behind the next character, without the answer to it. -/
def shown (g : Console.Geometry) (s : Dev Screen) : Dev Screen where
  tty := { s.tty with writeQ := s.tty.writeQ.next }
  rest := { s.rest with
    taken := s.rest.taken ++ [s.tty.writeQ.first]
    past := s.rest.past || decide s.tty.writeQ.Empty
    con :=
      Console.conWriteChar g s.tty.termios.eraseChar.toNat s.tty.writeQ.first.toNat s.rest.con }

/-- The next character is the end of ESC Z. -/
def Asks (s : Dev Screen) : Prop := s.rest.con.state = 1 ∧ s.tty.writeQ.first = 90

instance (s : Dev Screen) : Decidable (Asks s) := inferInstanceAs (Decidable (_ ∧ _))

def answered (s : Dev Screen) : Dev Screen :=
  { s with tty := { s.tty with readQ := response.foldl RingBuffer.put s.tty.readQ } }

/-- No echo comes in front of a character that is still to be taken. -/
def Undisturbed (g : Console.Geometry) (below : BitVec 8 → Bool) : Nat → Dev Screen → Prop
  | 0, _ => True
  | nr + 1, s =>
    if Asks s then nr = 0 ∨ ∃ t, Silent below (answered (shown g s)) t ∧ Undisturbed g below nr t
    else Undisturbed g below nr (shown g s)

/-! `copy_to_cooked` does the more the more `tty->write` does and the more rounds it has. -/

section

variable {E : Type} {below : BitVec 8 → Bool} {write write' : Program (Dev E) Unit}
    (h : write.Within write')

include h

theorem within_echo (cs : List (BitVec 8)) : Within (echo write cs) (echo write' cs) :=
  .bind (.refl _) fun _ => .ite (.bind (.refl _) fun _ => h) (.refl _)

theorem within_eraseLast : Within (eraseLast write) (eraseLast write') :=
  .bind (.refl _) fun _ => .bind (within_echo h _) fun _ => .refl _

theorem within_killLine :
    ∀ {rounds rounds' : Nat}, rounds ≤ rounds' →
      Within (killLine write rounds) (killLine write' rounds')
  | 0, _, _ => .failure
  | _ + 1, _ + 1, hr => .bind (.refl _) fun _ => .ite (.refl _)
      (.bind (within_eraseLast h) fun _ => within_killLine (Nat.le_of_succ_le_succ hr))

theorem within_dispatch {rounds rounds' : Nat} (hr : rounds ≤ rounds') (t : Termios)
    (c : BitVec 8) : Within (dispatch write rounds t c) (dispatch write' rounds' t c) := by
  refine .ite (within_killLine h hr) (.ite ?_ (.ite (.refl _) (.ite (.refl _) (.ite (.refl _) ?_))))
  · exact .bind (.refl _) fun _ => .ite (.refl _) (within_eraseLast h)
  · exact .bind (.refl _) fun _ => .bind (.refl _) fun _ => .bind (within_echo h _) fun _ => .refl _

theorem within_cook {rounds rounds' : Nat} (hr : rounds ≤ rounds') (c : BitVec 8) :
    Within (cook below write rounds c) (cook below write' rounds' c) := by
  refine .bind (.refl _) fun t => ?_
  dsimp only
  cases mapInput t.termios c with
  | none => exact .refl _
  | some d => exact within_dispatch h hr _ _

theorem within_copyToCooked : ∀ {rounds rounds' : Nat}, rounds ≤ rounds' →
    Within (copyToCooked below write rounds) (copyToCooked below write' rounds')
  | 0, _, _ => .failure
  | _ + 1, _ + 1, hr => .bind (.refl _) fun _ => .ite (.refl _) (.bind (.refl _) fun _ =>
      .bind (within_cook h (Nat.le_of_succ_le_succ hr) _) fun _ =>
        within_copyToCooked (Nat.le_of_succ_le_succ hr))

end

section

variable {g : Console.Geometry} {below : BitVec 8 → Bool}

theorem within_writeLoop {write write' : Program (Dev Screen) Unit} (h : write.Within write')
    {rounds rounds' : Nat} (hr : rounds ≤ rounds') :
    ∀ nr, Within (writeLoop g below write rounds nr) (writeLoop g below write' rounds' nr)
  | 0 => .refl _
  | nr + 1 => by
    refine .bind (.refl _) fun c => .bind (.bind (.refl _) fun _ => .ite ?_ (.refl _)) fun _ =>
      within_writeLoop h hr nr
    exact .bind (.refl _) fun _ => within_copyToCooked h hr

theorem within_conWrite :
    ∀ {fuel fuel' : Nat}, fuel ≤ fuel' → Within (conWrite g below fuel) (conWrite g below fuel')
  | 0, _, _ => .failure
  | _ + 1, _ + 1, h => .bind (.refl _) fun _ => .bind (.refl _) fun _ =>
      within_writeLoop (within_conWrite (Nat.le_of_succ_le_succ h)) (Nat.le_of_succ_le_succ h) _

/-- What a call of `con_write` leaves: the tail has passed the head, or the queue is empty. -/
def Lost (s : Dev Screen) : Prop := s.rest.past = true ∨ s.tty.writeQ.Empty

/-- What has gone from the write queue without being taken, and what was in it. -/
abbrev Account := List (BitVec 8) × List (BitVec 8)

/-- What has gone, what was taken and what is left are what was in the queue and the echo. -/
structure Busy (base : Account) (s : Dev Screen) : Prop where
  noted : s.rest.noted = s.tty.writeQ.head
  past : s.rest.past = false
  order : base.1 ++ (s.rest.taken ++ s.tty.writeQ.content) = base.2 ++ s.rest.queued

theorem Busy.congr {base : Account} {s t : Dev Screen} (h : Busy base s)
    (hq : t.tty.writeQ = s.tty.writeQ) (hr : t.rest = s.rest) : Busy base t where
  noted := by rw [hq, hr, h.noted]
  past := by rw [hr, h.past]
  order := by rw [hq, hr, h.order]

/-- Between two calls. -/
def Quiet (base : Account) (s : Dev Screen) : Prop := Busy base s ∧ s.tty.writeQ.Empty

/-- The echo of one character: no character but the last is a Z. -/
def Echo (cs : List (BitVec 8)) : Prop := cs.length ≤ 2 ∧ 90 ∉ cs.dropLast

theorem echo_echoOf (t : Termios) (c : BitVec 8) : Echo (echoOf t c) := by
  unfold echoOf Echo
  split_ifs <;> simp

theorem echo_eraseEchoOf (c : BitVec 8) : Echo (eraseEchoOf c) := by
  unfold eraseEchoOf Echo
  split_ifs <;> simp

/-- What is known of a call of `con_write`. -/
structure Settles (write : Program (Dev Screen) Unit) : Prop where
  lost : ∀ s r, write s = some r → Lost r.2
  past : ∀ s r, write s = some r → s.rest.past = true → r.2.rest.past = true
  quiet : ∀ base cs, Echo cs → Ensures (Quiet base) (do putWrite cs; write) fun _ => Quiet base

/-- The program `x`, which calls `con_write`, against `f`, where that call fails. -/
structure Tame {α : Type} (f x : Program (Dev Screen) α) : Prop where
  same : ∀ s r, f s = some r → r.2.tty.writeQ = s.tty.writeQ ∧ r.2.rest = s.rest
  heard : ∀ s r, x s = some r → f s = some r ∨ Lost r.2
  lost : ∀ s r, x s = some r → Lost s → Lost r.2
  past : ∀ s r, x s = some r → s.rest.past = true → r.2.rest.past = true
  quiet : ∀ base, Ensures (Quiet base) x fun _ => Quiet base

namespace Tame

variable {α β : Type} {f x : Program (Dev Screen) α} {f' x' : Program (Dev Screen) α}

theorem bind {k y : α → Program (Dev Screen) β} (hx : Tame f x) (hy : ∀ a, Tame (k a) (y a)) :
    Tame (f >>= k) (x >>= y) := by
  refine ⟨fun s r h => ?_, fun s r h => ?_, fun s r h hl => ?_, fun s r h hp => ?_, fun base => ?_⟩
  · obtain ⟨a, u, hf, hk⟩ := bind_some.mp h
    have h₁ := hx.same _ _ hf
    have h₂ := (hy a).same _ _ hk
    exact ⟨h₂.1.trans h₁.1, h₂.2.trans h₁.2⟩
  · obtain ⟨a, u, hxu, hyr⟩ := bind_some.mp h
    rcases (hy a).heard _ _ hyr with hk | hl
    · rcases hx.heard _ _ hxu with hf | hl
      · exact Or.inl (bind_some.mpr ⟨a, u, hf, hk⟩)
      · exact Or.inr ((hy a).lost _ _ hyr hl)
    · exact Or.inr hl
  · obtain ⟨a, u, hxu, hyr⟩ := bind_some.mp h
    exact (hy a).lost _ _ hyr (hx.lost _ _ hxu hl)
  · obtain ⟨a, u, hxu, hyr⟩ := bind_some.mp h
    exact (hy a).past _ _ hyr (hx.past _ _ hxu hp)
  · exact (hx.quiet base).bind fun a => (hy a).quiet base

theorem plain {x : Program (Dev Screen) α}
    (h : ∀ s r, x s = some r → r.2.tty.writeQ = s.tty.writeQ ∧ r.2.rest = s.rest) : Tame x x := by
  refine ⟨h, fun _ _ h => Or.inl h, fun s r hr hl => ?_, fun s r hr hp => ?_,
    fun base s a t hs ht => ?_⟩
  · unfold Lost
    rw [(h s r hr).1, (h s r hr).2]
    exact hl
  · rw [(h s r hr).2]
    exact hp
  · obtain ⟨hq, hr⟩ := h s (a, t) ht
    refine ⟨hs.1.congr hq hr, ?_⟩
    dsimp only at hq
    rw [hq]
    exact hs.2

theorem ite {p : Prop} [Decidable p] (hx : Tame f x) (hy : Tame f' x') :
    Tame (if p then f else f') (if p then x else x') := by
  split
  · exact hx
  · exact hy

theorem pure (a : α) : Tame (pure a : Program (Dev Screen) α) (pure a) := plain fun s r h => by
  cases h
  exact ⟨rfl, rfl⟩

theorem fail : Tame (failure : Program (Dev Screen) α) failure := plain fun _ _ h => nomatch h

theorem read : Tame tty tty := plain fun s r h => by
  cases h
  exact ⟨rfl, rfl⟩

theorem change {m : TtyStruct → TtyStruct} (hm : ∀ t, (m t).writeQ = t.writeQ) :
    Tame (modify m) (modify m) := plain fun s r h => by
  cases h
  exact ⟨hm _, rfl⟩

section

variable {write : Program (Dev Screen) Unit} (h : Settles write)

include h

theorem call {cs : List (BitVec 8)} (hcs : Echo cs) :
    Tame (do putWrite cs; failure : Program (Dev Screen) Unit) (do putWrite cs; write) := by
  refine ⟨fun s r hr => ?_, fun s r hr => Or.inr ?_, fun s r hr _ => ?_, fun s r hr hp => ?_,
    fun base => h.quiet base cs hcs⟩
  · obtain ⟨a, u, _, hf⟩ := bind_some.mp hr
    exact nomatch hf
  · obtain ⟨a, u, _, hw⟩ := bind_some.mp hr
    exact h.lost _ _ hw
  · obtain ⟨a, u, _, hw⟩ := bind_some.mp hr
    exact h.lost _ _ hw
  · obtain ⟨a, u, hu, hw⟩ := bind_some.mp hr
    cases hu
    exact h.past _ _ hw hp

theorem echo {cs : List (BitVec 8)} (hcs : Echo cs) :
    Tame (Tty.echo failure cs) (Tty.echo write cs) :=
  read.bind fun _ => (call h hcs).ite (pure ())

theorem eraseLast : Tame (Tty.eraseLast failure) (Tty.eraseLast write) :=
  read.bind fun _ => (echo h (echo_eraseEchoOf _)).bind fun _ => change fun _ => rfl

theorem killLine : ∀ rounds, Tame (Tty.killLine failure rounds) (Tty.killLine write rounds)
  | 0 => fail
  | rounds + 1 => read.bind fun _ => (pure ()).ite ((eraseLast h).bind fun _ => killLine rounds)

theorem dispatch (rounds : Nat) (t : Termios) (c : BitVec 8) :
    Tame (Tty.dispatch failure rounds t c) (Tty.dispatch write rounds t c) := by
  refine (killLine h rounds).ite (.ite ?_ (.ite ?_ (.ite ?_ ((pure ()).ite ?_))))
  · exact read.bind fun _ => (pure ()).ite (eraseLast h)
  · exact change fun _ => rfl
  · exact change fun _ => rfl
  · refine .bind (change fun _ => rfl) fun _ => read.bind fun _ =>
      .bind (echo h (echo_echoOf _ _)) fun _ => ?_
    exact change fun _ => rfl

theorem cook (rounds : Nat) (c : BitVec 8) :
    Tame (Tty.cook below failure rounds c) (Tty.cook below write rounds c) := by
  refine read.bind fun t => ?_
  dsimp only
  cases mapInput t.termios c with
  | none => exact pure ()
  | some d => exact dispatch h rounds _ _

theorem copyToCooked :
    ∀ rounds, Tame (Tty.copyToCooked below failure rounds) (Tty.copyToCooked below write rounds)
  | 0 => fail
  | rounds + 1 => by
    refine read.bind fun _ => (pure ()).ite (.bind ?_ fun _ => (cook h rounds _).bind fun _ =>
      copyToCooked rounds)
    exact change fun _ => rfl

end

end Tame

theorem settles_failure : Settles failure := by
  refine ⟨fun _ _ h => (nomatch h), fun _ _ h => (nomatch h), fun _ _ _ => ?_⟩
  exact Ensures.bind (Q := fun _ _ => True) (fun _ _ _ _ _ => trivial) fun _ => .failure

theorem Silent.same {s t : Dev Screen} (h : Silent below s t) :
    t.tty.writeQ = s.tty.writeQ ∧ t.rest = s.rest := by
  obtain ⟨rounds, hr⟩ := h
  exact (Tame.copyToCooked settles_failure rounds).same s _ hr

theorem size_shown (g : Console.Geometry) {nr : Nat} {s : Dev Screen}
    (h : s.tty.writeQ.size = nr + 1) : (shown g s).tty.writeQ.size = nr :=
  Nat.succ_injective ((size_next (not_empty_of_size h)).trans h)

theorem writeLoop_succ (write : Program (Dev Screen) Unit) (rounds nr : Nat) (s : Dev Screen) :
    writeLoop g below write rounds (nr + 1) s =
      if Asks s then (copyToCooked below write rounds >>= fun _ =>
        writeLoop g below write rounds nr) (answered (shown g s))
      else writeLoop g below write rounds nr (shown g s) := by
  show ((if decide (Asks s) = true then respond below write rounds else pure ()) >>= fun _ =>
    writeLoop g below write rounds nr) (shown g s) = _
  by_cases ha : Asks s
  · rw [if_pos ha, if_pos (decide_eq_true ha), bind_eq, bind_eq, respond,
      bind_of_eq (show putResponse (shown g s) = some ((), answered (shown g s)) from rfl)]
  · rw [if_neg ha, if_neg (by rw [decide_eq_false ha]; exact Bool.false_ne_true)]
    rfl

section

variable {write : Program (Dev Screen) Unit} (h : Settles write) {rounds nr : Nat} {s : Dev Screen}
    {r : Unit × Dev Screen}

include h

theorem writeLoop_past (hr : writeLoop g below write rounds nr s = some r)
    (hp : s.rest.past = true) : r.2.rest.past = true := by
  induction nr generalizing s with
  | zero =>
    cases hr
    exact hp
  | succ nr ih =>
    have hshown : (shown g s).rest.past = true := by
      show (s.rest.past || _) = true
      rw [hp, Bool.true_or]
    rw [writeLoop_succ] at hr
    split at hr
    · obtain ⟨_, u, hc, hl⟩ := bind_some.mp hr
      exact ih hl ((Tame.copyToCooked h rounds).past _ _ hc hshown)
    · exact ih hr hshown

theorem writeLoop_past_of_lost (hr : writeLoop g below write rounds (nr + 1) s = some r)
    (hs : Lost s) : r.2.rest.past = true := by
  have hshown : (shown g s).rest.past = true := by
    show (s.rest.past || decide s.tty.writeQ.Empty) = true
    rcases hs with hp | he
    · rw [hp, Bool.true_or]
    · rw [decide_eq_true he, Bool.or_true]
  rw [writeLoop_succ] at hr
  split at hr
  · obtain ⟨_, u, hc, hl⟩ := bind_some.mp hr
    exact writeLoop_past h hl ((Tame.copyToCooked h rounds).past _ _ hc hshown)
  · exact writeLoop_past h hr hshown

theorem writeLoop_lost (hr : writeLoop g below write rounds nr s = some r)
    (hn : s.tty.writeQ.size = nr) : Lost r.2 := by
  induction nr generalizing s with
  | zero =>
    cases hr
    exact Or.inr (s.tty.writeQ.size_eq_zero.mp hn)
  | succ nr ih =>
    have hnext := size_shown g hn
    rw [writeLoop_succ] at hr
    split at hr
    · obtain ⟨_, u, hc, hl⟩ := bind_some.mp hr
      rcases (Tame.copyToCooked h rounds).heard _ _ hc with hsame | hlost
      · exact ih hl (by rw [((Tame.copyToCooked h rounds).same _ _ hsame).1]; exact hnext)
      · cases nr with
        | zero =>
          cases hl
          exact hlost
        | succ nr => exact Or.inl (writeLoop_past_of_lost h hl hlost)
    · exact ih hr hnext

/-- The tail does not pass the head unless an echo came in between. -/
theorem undisturbed_of_writeLoop (hr : writeLoop g below write rounds nr s = some r)
    (hp : r.2.rest.past = false) : Undisturbed g below nr s := by
  induction nr generalizing s with
  | zero => exact trivial
  | succ nr ih =>
    rw [writeLoop_succ] at hr
    unfold Undisturbed
    split at hr
    next ha =>
      rw [if_pos ha]
      obtain ⟨_, u, hc, hl⟩ := bind_some.mp hr
      cases nr with
      | zero => exact Or.inl rfl
      | succ nr =>
        rcases (Tame.copyToCooked h rounds).heard _ _ hc with hsame | hlost
        · exact Or.inr ⟨u, ⟨rounds, hsame⟩, ih hl⟩
        · rw [writeLoop_past_of_lost h hl hlost] at hp
          exact nomatch hp
    next ha =>
      rw [if_neg ha]
      exact ih hr

end

theorem Busy.shown {base : Account} {s : Dev Screen} (h : Busy base s)
    (hq : ¬ s.tty.writeQ.Empty) : Busy base (shown g s) where
  noted := h.noted
  past := by
    show (s.rest.past || decide s.tty.writeQ.Empty) = false
    rw [h.past, decide_eq_false hq, Bool.false_or]
  order := by
    show base.1 ++ (s.rest.taken ++ [s.tty.writeQ.first] ++ s.tty.writeQ.next.content) = _
    rw [List.append_assoc, List.singleton_append, ← content_next hq]
    exact h.order

theorem answered_writeQ (s : Dev Screen) : (answered s).tty.writeQ = s.tty.writeQ := by
  simp only [answered]

theorem answered_rest (s : Dev Screen) : (answered s).rest = s.rest := by simp only [answered]

theorem Busy.answered {base : Account} {s : Dev Screen} (h : Busy base s) :
    Busy base (answered s) :=
  h.congr (answered_writeQ s) (answered_rest s)

theorem writeLoop_quiet {write : Program (Dev Screen) Unit} (h : Settles write) {rounds nr : Nat}
    {s : Dev Screen} {r : Unit × Dev Screen} {base : Account}
    (hr : writeLoop g below write rounds nr s = some r) (hn : s.tty.writeQ.size = nr)
    (hs : Busy base s) (hu : Undisturbed g below nr s) : Quiet base r.2 := by
  induction nr generalizing s with
  | zero =>
    cases hr
    exact ⟨hs, s.tty.writeQ.size_eq_zero.mp hn⟩
  | succ nr ih =>
    have hne := not_empty_of_size hn
    have hnext := size_shown g hn
    have hbusy := hs.shown (g := g) hne
    rw [writeLoop_succ] at hr
    unfold Undisturbed at hu
    split at hr
    next ha =>
      rw [if_pos ha] at hu
      obtain ⟨_, u, hc, hl⟩ := bind_some.mp hr
      rcases hu with rfl | ⟨t, hsilent, ht⟩
      · cases hl
        exact (Tame.copyToCooked h rounds).quiet base _ _ _
          ⟨hbusy.answered, size_eq_zero _ |>.mp hnext⟩ hc
      · obtain ⟨hq, hrest⟩ := hsilent.same
        obtain ⟨rounds', hf⟩ := hsilent
        have hu :=
          within_copyToCooked (Within.failure (x := write)) (le_max_left rounds' rounds) _ _ hf
        have ht' := within_copyToCooked (Within.refl write) (le_max_right rounds' rounds) _ _ hc
        obtain rfl : t = u := by
          rw [hu] at ht'
          exact congrArg Prod.snd (Option.some.inj ht')
        exact ih hl (by rw [hq]; exact hnext) (hbusy.answered.congr hq hrest) ht
    next ha =>
      rw [if_neg ha] at hu
      exact ih hr hnext hbusy hu

theorem undisturbed_of_last {nr : Nat} {s : Dev Screen} (hn : s.tty.writeQ.size = nr)
    (hz : 90 ∉ s.tty.writeQ.content.dropLast) : Undisturbed g below nr s := by
  induction nr generalizing s with
  | zero => exact trivial
  | succ nr ih =>
    have hne := not_empty_of_size hn
    have hnext := size_shown g hn
    rw [content_next hne] at hz
    unfold Undisturbed
    cases nr with
    | zero => split_ifs <;> simp [Undisturbed]
    | succ nr =>
      have hcons : s.tty.writeQ.next.content ≠ [] := by
        rw [Ne, ← List.length_eq_zero_iff, length_content]
        show (shown g s).tty.writeQ.size ≠ 0
        omega
      rw [List.dropLast_cons_of_ne_nil hcons, List.mem_cons, not_or] at hz
      rw [if_neg fun ha => hz.1 ha.2.symm]
      exact ih hnext hz.2

/-- The state in which a call of `con_write` starts that echoes `cs`. -/
def called (cs : List (BitVec 8)) (s : Dev Screen) : Dev Screen where
  tty := { s.tty with writeQ := cs.foldl put s.tty.writeQ }
  rest := { s.rest with
    queued :=
      s.rest.queued ++ fresh { s with tty := { s.tty with writeQ := cs.foldl put s.tty.writeQ } }
    noted := (cs.foldl put s.tty.writeQ).head }

theorem fresh_put {cs : List (BitVec 8)} {s : Dev Screen} (hn : s.rest.noted = s.tty.writeQ.head)
    (hcs : cs.length < 2 ^ 10) :
    fresh { s with tty := { s.tty with writeQ := cs.foldl put s.tty.writeQ } } = cs := by
  have hempty : ({ s.tty.writeQ with tail := s.tty.writeQ.head } : Queue).size = 0 :=
    (size_eq_zero _).mpr rfl
  have hnil := (content_eq_nil { s.tty.writeQ with tail := s.tty.writeQ.head }).mpr rfl
  have hcontent := content_puts cs (q := { s.tty.writeQ with tail := s.tty.writeQ.head })
    (by rw [hempty]; omega)
  rw [puts_tail, hnil, List.nil_append] at hcontent
  refine Eq.trans ?_ hcontent
  unfold fresh content size
  dsimp only
  rw [hn]

theorem Busy.called {base : Account} {cs gone : List (BitVec 8)} {s : Dev Screen}
    (h : Busy base s) (hcs : cs.length < 2 ^ 10)
    (hgone : gone ++ (s.rest.taken ++ (cs.foldl put s.tty.writeQ).content) =
      base.1 ++ (s.rest.taken ++ s.tty.writeQ.content) ++ cs) :
    Busy (gone, base.2) (called cs s) := by
  refine ⟨rfl, h.past, hgone.trans ?_⟩
  show _ = base.2 ++ (s.rest.queued ++ _)
  rw [fresh_put h.noted hcs, h.order, List.append_assoc]

theorem Quiet.called {base : Account} {cs : List (BitVec 8)} {s : Dev Screen} (h : Quiet base s)
    (hcs : cs.length ≤ 2) : Busy base (called cs s) ∧ (called cs s).tty.writeQ.content = cs := by
  have hnil := (content_eq_nil _).mpr h.2
  have hcontent : (cs.foldl put s.tty.writeQ).content = cs := by
    rw [content_puts cs (by rw [(size_eq_zero _).mpr h.2]; omega), hnil, List.nil_append]
  exact ⟨h.1.called (by omega) (by simp [hnil, hcontent]), hcontent⟩

theorem settles_conWrite (g : Console.Geometry) (below : BitVec 8 → Bool) :
    ∀ fuel, Settles (conWrite g below fuel)
  | 0 => settles_failure
  | fuel + 1 => by
    have ih := settles_conWrite g below fuel
    refine ⟨fun s r hr => ?_, fun s r hr hp => ?_, fun base cs hcs s a t hs ht => ?_⟩
    · obtain ⟨_, _, hu, hl⟩ := bind_some.mp hr
      cases hu
      exact writeLoop_lost ih hl rfl
    · obtain ⟨_, _, hu, hl⟩ := bind_some.mp hr
      cases hu
      exact writeLoop_past ih hl hp
    · obtain ⟨_, _, hu, hw⟩ := bind_some.mp ht
      cases hu
      obtain ⟨_, _, hu, hl⟩ := bind_some.mp hw
      cases hu
      obtain ⟨hbusy, hcontent⟩ := hs.called hcs.1
      exact writeLoop_quiet ih hl rfl hbusy (undisturbed_of_last rfl (hcontent.symm ▸ hcs.2))

theorem fresh_atCall (t : TtyStruct) (con : Console.Con) : fresh (atCall t con) = [] := by
  show (List.range (t.writeQ.head - t.writeQ.head).toNat).map _ = []
  rw [BitVec.sub_self]
  rfl

/-- When `con_write` returns, it has consumed the queue once and in order if and
only if no echo came in front of a character that was still to be taken. -/
theorem consumed_iff (g : Console.Geometry) (below : BitVec 8 → Bool) (t : TtyStruct)
    (con : Console.Con) {fuel : Nat} {u : Dev Screen}
    (h : conWrite g below fuel (atCall t con) = some ((), u)) :
    Consumed (atCall t con) u ↔ Undisturbed g below t.writeQ.size (atCall t con) := by
  cases fuel with
  | zero => exact nomatch h
  | succ fuel =>
    have hs := settles_conWrite g below fuel
    obtain ⟨_, _, hu, hl⟩ := bind_some.mp h
    cases hu
    obtain ⟨_, _, hu, hl⟩ := bind_some.mp hl
    cases hu
    rw [fresh_atCall] at hl
    constructor
    · rintro ⟨_, hp, _⟩
      exact undisturbed_of_writeLoop hs hl hp
    · intro hund
      have hq : Quiet ([], t.writeQ.content) u :=
        writeLoop_quiet hs hl rfl ⟨rfl, rfl, (List.append_nil _).symm⟩ hund
      obtain ⟨⟨_, hp, ho⟩, he⟩ := hq
      refine ⟨?_, hp, he⟩
      rw [(content_eq_nil _).mpr he, List.append_nil] at ho
      exact ho

end

end Gpos.Tty
