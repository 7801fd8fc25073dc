import Gpos.Run
import Gpos.Tty
import Mathlib.Data.List.DropRight

/-! The lines that `copy_to_cooked` has completed stay as they are. -/

namespace Gpos.Tty

open Program RingBuffer

/-- The part of a line buffer up to its last terminator. -/
def completed (t : Termios) (l : List (BitVec 8)) : List (BitVec 8) :=
  l.rdropWhile fun c => !isEnd t c

theorem completed_push_end {t : Termios} {c : BitVec 8} (h : isEnd t c = true)
    (l : List (BitVec 8)) : completed t (l ++ [c]) = l ++ [c] := by
  simp [completed, h]

theorem completed_push {t : Termios} {c : BitVec 8} (h : isEnd t c = false) (l : List (BitVec 8)) :
    completed t (l ++ [c]) = completed t l := by
  simp [completed, h]

theorem completed_le (t : Termios) (l : List (BitVec 8)) : completed t l <+: l :=
  List.rdropWhile_prefix _ _

theorem completed_push_le (t : Termios) (l : List (BitVec 8)) (c : BitVec 8) :
    completed t l <+: completed t (l ++ [c]) := by
  cases h : isEnd t c with
  | true =>
    rw [completed_push_end h]
    exact (completed_le t l).trans (List.prefix_append l [c])
  | false => rw [completed_push h]

def ends (t : Termios) (l : List (BitVec 8)) : Nat := l.countP (isEnd t)

theorem ends_push (t : Termios) (l : List (BitVec 8)) (c : BitVec 8) :
    ends t (l ++ [c]) = ends t l + if isEnd t c then 1 else 0 := by
  rw [ends, ends, List.countP_append, List.countP_singleton]

/-- The lines of `s` are still there in `s'`, and `data` has followed the terminators. -/
structure Later (s s' : TtyStruct) : Prop where
  termios : s'.termios = s.termios
  tail : s'.secondary.tail = s.secondary.tail
  lines : completed s.termios s.secondary.content <+: completed s.termios s'.secondary.content
  data : s'.data + ends s.termios s.secondary.content = s.data + ends s.termios s'.secondary.content

theorem Later.refl (s : TtyStruct) : Later s s := ⟨rfl, rfl, List.prefix_refl _, rfl⟩

theorem Later.trans {s t u : TtyStruct} (h : Later s t) (h' : Later t u) : Later s u := by
  obtain ⟨hterm, htail, hlines, hdata⟩ := h'
  rw [h.termios] at hterm hlines hdata
  refine ⟨hterm, htail.trans h.tail, h.lines.trans hlines, ?_⟩
  have := h.data
  omega

theorem later_of_same {s s' : TtyStruct} (ht : s'.termios = s.termios)
    (hq : s'.secondary = s.secondary) (hd : s'.data = s.data) : Later s s' := by
  refine ⟨ht, by rw [hq], ?_, ?_⟩
  · rw [hq]
  · rw [hq, hd]

theorem later_erase {s : TtyStruct} (h : ¬ AtLineStart s) :
    Later s { s with secondary := s.secondary.unput } := by
  obtain ⟨hne, hend⟩ := not_or.mp h
  rw [Bool.not_eq_true] at hend
  refine ⟨rfl, rfl, ?_, ?_⟩
  · rw [content_unput hne, completed_push hend]
  · rw [content_unput hne, ends_push, hend]
    rfl

theorem later_accept {s : TtyStruct} {c : BitVec 8} (h : ¬ s.secondary.Full) :
    Later s { s with
      secondary := s.secondary.put c
      data := if isEnd s.termios c then s.data + 1 else s.data } := by
  refine ⟨rfl, rfl, ?_, ?_⟩
  · rw [content_put c h]
    exact completed_push_le _ _ c
  · show (if isEnd s.termios c then s.data + 1 else s.data) + ends s.termios s.secondary.content =
      s.data + ends s.termios (s.secondary.put c).content
    rw [content_put c h, ends_push]
    split <;> omega

section

variable {E : Type} {below : BitVec 8 → Bool} {write : Program (Dev E) Unit}

/-- `tty->write` empties the write queue and changes nothing else of the terminal. -/
structure Drains (write : Program (Dev E) Unit) : Prop where
  runs : ∀ s, ∃ s', write s = some ((), s')
  frame : ∀ s s', write s = some ((), s') → s'.tty = { s.tty with writeQ := s'.tty.writeQ }
  empty : ∀ s s', write s = some ((), s') → s'.tty.writeQ.Empty

/-- With such a `termios` the program has an outcome and changes the write queue alone. -/
def OnlyWrites (K : Termios → Prop) (x : Program (Dev E) Unit) : Prop :=
  ∀ s, K s.tty.termios →
    ∃ s', x s = some ((), s') ∧ s'.tty = { s.tty with writeQ := s'.tty.writeQ }

theorem onlyWrites_noEcho (cs : List (BitVec 8)) :
    OnlyWrites (fun t => ¬ t.lEcho = true) (echo write cs) :=
  fun s he => ⟨s, echo_off he cs, rfl⟩

theorem onlyWrites_echo (h : Drains write) (cs : List (BitVec 8)) :
    OnlyWrites (fun _ => True) (echo write cs) := by
  intro s _
  by_cases he : s.tty.termios.lEcho = true
  · obtain ⟨s', hs'⟩ :=
      h.runs { s with tty := { s.tty with writeQ := cs.foldl RingBuffer.put s.tty.writeQ } }
    exact ⟨s', (echo_on he cs).trans hs', (h.frame _ _ hs').trans rfl⟩
  · exact ⟨s, echo_off he cs, rfl⟩

/-- What a part of `copy_to_cooked` does to the terminal, whatever else it is given. -/
def Cooks (K : Termios → Prop) (P : TtyStruct → Prop) (x : Program (Dev E) Unit) : Prop :=
  ∀ s, K s.tty.termios → P s.tty →
    ∃ s', x s = some ((), s') ∧ Later s.tty s'.tty ∧ s'.tty.readQ = s.tty.readQ

def Ready (rounds : Nat) (t : TtyStruct) : Prop := ¬ t.secondary.Full ∧ t.secondary.size < rounds

section

variable {K : Termios → Prop} (h : ∀ cs, OnlyWrites K (echo write cs))

include h

theorem eraseLast_run (s : Dev E) (hK : K s.tty.termios) :
    ∃ s', eraseLast write s = some ((), s') ∧
      s'.tty = { s.tty with writeQ := s'.tty.writeQ, secondary := s.tty.secondary.unput } := by
  obtain ⟨u, hu, ht⟩ := h (eraseEchoOf s.tty.secondary.last) s hK
  refine ⟨{ u with tty := { u.tty with secondary := u.tty.secondary.unput } }, ?_, ?_⟩
  · show (echo write (eraseEchoOf s.tty.secondary.last) >>= fun _ =>
      setSecondary RingBuffer.unput) s = _
    rw [bind_of_eq hu]
    rfl
  · rw [ht]

omit h in
theorem cooks_pure {P : TtyStruct → Prop} : Cooks K P (pure () : Program (Dev E) Unit) :=
  fun s _ _ => ⟨s, rfl, .refl _, rfl⟩

omit h in
theorem Cooks.ite {P : TtyStruct → Prop} {p : Prop} [Decidable p] {x y : Program (Dev E) Unit}
    (hx : Cooks K P x) (hy : Cooks K P y) : Cooks K P (if p then x else y) := by
  split
  · exact hx
  · exact hy

theorem cooks_eraseOne (P : TtyStruct → Prop) : Cooks K P (eraseOne write) := by
  intro s hK _
  by_cases hs : AtLineStart s.tty
  · refine ⟨s, ?_, .refl _, rfl⟩
    show (if AtLineStart s.tty then _ else _ : Program (Dev E) Unit) s = _
    rw [if_pos hs]
    rfl
  · obtain ⟨s', hr, ht⟩ := eraseLast_run h s hK
    refine ⟨s', ?_, ?_, by rw [ht]⟩
    · show (if AtLineStart s.tty then _ else _ : Program (Dev E) Unit) s = _
      rw [if_neg hs]
      exact hr
    · exact (later_erase hs).trans (later_of_same (by rw [ht]) (by rw [ht]) (by rw [ht]))

theorem cooks_killLine (rounds : Nat) :
    Cooks K (fun t => t.secondary.size < rounds) (killLine write rounds) := by
  intro s hK hsize
  induction rounds generalizing s with
  | zero => exact absurd hsize (Nat.not_lt_zero _)
  | succ rounds ih =>
    by_cases hs : AtLineStart s.tty
    · exact ⟨s, killLine_stop hs, .refl _, rfl⟩
    · obtain ⟨u, hr, ht⟩ := eraseLast_run h s hK
      have hu := size_unput (not_or.mp hs).1
      have hsmall : u.tty.secondary.size < rounds := by
        rw [ht]
        show s.tty.secondary.unput.size < rounds
        omega
      obtain ⟨s', hk, hl, hq⟩ := ih u (by rw [ht]; exact hK) hsmall
      refine ⟨s', ?_, ?_, hq.trans (by rw [ht])⟩
      · rw [killLine_next hs, bind_of_eq hr]
        exact hk
      · exact ((later_erase hs).trans (later_of_same (by rw [ht]) (by rw [ht])
          (by rw [ht]))).trans hl

theorem cooks_accept (c : BitVec 8) :
    Cooks K (fun t => ¬ t.secondary.Full) (accept write c) := by
  intro s hK hfull
  have hmodify :
    (modify fun t => { t with data := if isEnd t.termios c then t.data + 1 else t.data } :
      Program (Dev E) Unit) s =
        some ((), { s with
          tty := { s.tty with
            data := if isEnd s.tty.termios c then s.tty.data + 1 else s.tty.data } }) := rfl
  obtain ⟨u, hu, ht⟩ := h (echoOf s.tty.termios c)
    { s with
      tty := { s.tty with
        data := if isEnd s.tty.termios c then s.tty.data + 1 else s.tty.data } } hK
  refine ⟨{ u with tty := { u.tty with secondary := u.tty.secondary.put c } }, ?_, ?_, by rw [ht]⟩
  · rw [accept, bind_of_eq hmodify]
    show (echo write (echoOf s.tty.termios c) >>= fun _ => setSecondary fun q => q.put c) _ = _
    rw [bind_of_eq hu]
    rfl
  · exact (later_accept hfull).trans (later_of_same (by rw [ht]) (by rw [ht]) (by rw [ht]))

omit h in
theorem cooks_modify {P : TtyStruct → Prop} {f : TtyStruct → TtyStruct}
    (ht : ∀ t, (f t).termios = t.termios) (hs : ∀ t, (f t).secondary = t.secondary)
    (hd : ∀ t, (f t).data = t.data) (hr : ∀ t, (f t).readQ = t.readQ) :
    Cooks K P (modify f : Program (Dev E) Unit) :=
  fun s _ _ => ⟨{ s with tty := f s.tty }, rfl, later_of_same (ht _) (hs _) (hd _), hr _⟩

omit h in
theorem Cooks.mono {P Q : TtyStruct → Prop} {x : Program (Dev E) Unit} (hx : Cooks K Q x)
    (hpq : ∀ t, P t → Q t) : Cooks K P x :=
  fun s hK hs => hx s hK (hpq _ hs)

theorem cooks_dispatch (rounds : Nat) (t : Termios) (c : BitVec 8) :
    Cooks K (Ready rounds) (dispatch write rounds t c) := by
  refine .ite ((cooks_killLine h rounds).mono fun _ hr => hr.2) <| .ite (cooks_eraseOne h _) <|
    .ite ?_ <| .ite ?_ <| .ite cooks_pure ((cooks_accept h c).mono fun _ hr => hr.1)
  · exact cooks_modify (fun _ => rfl) (fun _ => rfl) (fun _ => rfl) fun _ => rfl
  · exact cooks_modify (fun _ => rfl) (fun _ => rfl) (fun _ => rfl) fun _ => rfl

theorem cooks_cook (rounds : Nat) (c : BitVec 8) :
    Cooks K (Ready rounds) (cook below write rounds c) := by
  intro s hK hs
  rw [cook, bind_of_eq (show tty s = some (s.tty, s) from rfl)]
  cases mapInput s.tty.termios c with
  | none => exact cooks_pure s hK hs
  | some c => exact cooks_dispatch h rounds _ _ s hK hs

/-- `copy_to_cooked` returns, with as many rounds as it has characters to take
and one line to kill. -/
theorem copyToCooked_later {rounds : Nat} (s : Dev E) (hK : K s.tty.termios)
    (hr : s.tty.readQ.size + 2 ^ 10 < rounds) :
    ∃ s', copyToCooked below write rounds s = some ((), s') ∧ Later s.tty s'.tty := by
  induction rounds generalizing s with
  | zero => exact absurd hr (Nat.not_lt_zero _)
  | succ rounds ih =>
    by_cases hstop : s.tty.readQ.Empty ∨ s.tty.secondary.Full
    · exact ⟨s, copyToCooked_stop hstop, .refl _⟩
    · obtain ⟨hne, hfull⟩ := not_or.mp hstop
      have hnext := size_next hne
      have hsize := s.tty.secondary.size_lt
      obtain ⟨u, hu, hlu, hqu⟩ := @cooks_cook E below write K h rounds s.tty.readQ.first
        { s with tty := { s.tty with readQ := s.tty.readQ.next } } hK ⟨hfull, by
          show s.tty.secondary.size < rounds
          omega⟩
      have hu' : u.tty.readQ.size + 2 ^ 10 < rounds := by
        rw [hqu]
        show s.tty.readQ.next.size + 2 ^ 10 < rounds
        omega
      have hlater : Later s.tty u.tty := (later_of_same rfl rfl rfl :
        Later s.tty { s.tty with readQ := s.tty.readQ.next }).trans hlu
      obtain ⟨s', hs', hl⟩ := ih u (hlater.termios.symm ▸ hK) hu'
      refine ⟨s', ?_, hlater.trans hl⟩
      rw [copyToCooked_next hstop, bind_of_eq hu]
      exact hs'

end

/-- A key is put into the read queue, or `copy_to_cooked` is called, with more rounds than it takes. -/
def feed (below : BitVec 8 → Bool) (write : Program (Dev E) Unit) (a : Option (BitVec 8))
    (s : Dev E) : Option (Dev E) :=
  match a with
  | some c => some { s with tty := { s.tty with readQ := s.tty.readQ.put c } }
  | none => (copyToCooked below write (s.tty.readQ.size + 2 ^ 10 + 1) s).map Prod.snd

theorem feed_later (h : Drains write) (a : Option (BitVec 8)) (s : Dev E) :
    ∃ s', feed below write a s = some s' ∧ Later s.tty s'.tty := by
  cases a with
  | some c => exact ⟨_, rfl, later_of_same rfl rfl rfl⟩
  | none =>
    obtain ⟨s', hs', hl⟩ :=
      @copyToCooked_later E below write _ (onlyWrites_echo h) _ s trivial (Nat.lt_succ_self _)
    refine ⟨s', ?_, hl⟩
    rw [feed, hs']
    rfl

theorem run_later (h : Drains write) (as : List (Option (BitVec 8))) (s : Dev E) :
    ∃ s', Run.exec (feed below write) as s = some s' ∧ Later s.tty s'.tty := by
  induction as generalizing s with
  | nil => exact ⟨s, rfl, .refl _⟩
  | cons a as ih =>
    obtain ⟨u, hu, hlu⟩ := @feed_later E below write h a s
    obtain ⟨s', hs', hl⟩ := ih u
    exact ⟨s', (Run.exec_cons hu).trans hs', hlu.trans hl⟩

/-- What has been completed after the input `as` is still there after `bs`,
and `data` is the number of terminators. -/
theorem lines_immutable (h : Drains write) {s₀ : Dev E} (hempty : s₀.tty.secondary.Empty)
    (hdata : s₀.tty.data = 0) (as bs : List (Option (BitVec 8))) :
    ∃ s t, Run.exec (feed below write) as s₀ = some s ∧ Run.exec (feed below write) bs s = some t ∧
      t.tty.secondary.tail = s.tty.secondary.tail ∧
      completed s.tty.termios s.tty.secondary.content <+: t.tty.secondary.content ∧
      t.tty.data = ends t.tty.termios t.tty.secondary.content := by
  obtain ⟨s, hs, hls⟩ := @run_later E below write h as s₀
  obtain ⟨t, ht, hlt⟩ := @run_later E below write h bs s
  refine ⟨s, t, hs, ht, hlt.tail, hlt.lines.trans (completed_le _ _), ?_⟩
  have hall := hls.trans hlt
  have hcount := hall.data
  rw [(content_eq_nil _).mpr hempty, hdata] at hcount
  rw [hall.termios]
  simpa [ends] using hcount

def dropWrites : Program (Dev Unit) Unit :=
  fun s =>
    some ((), { s with
      tty := { s.tty with writeQ := { s.tty.writeQ with tail := s.tty.writeQ.head } } })

theorem drains_dropWrites : Drains dropWrites where
  runs s := ⟨_, rfl⟩
  frame s s' h := by
    cases h
    rfl
  empty s s' h := by
    cases h
    rfl

theorem lines_immutable_console : ∃ s t,
    Run.exec (feed (fun _ => false) dropWrites) [some 97, some 13, none] ⟨console, ()⟩ = some s ∧
      Run.exec (feed (fun _ => false) dropWrites) [some 98, some 21, none] s = some t ∧
      t.tty.secondary.tail = s.tty.secondary.tail ∧
      completed s.tty.termios s.tty.secondary.content <+: t.tty.secondary.content ∧
      t.tty.data = ends t.tty.termios t.tty.secondary.content :=
  @lines_immutable Unit (fun _ => false) dropWrites drains_dropWrites ⟨console, ()⟩ rfl rfl _ _

end

end Gpos.Tty
