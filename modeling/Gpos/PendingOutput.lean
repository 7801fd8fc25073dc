import Gpos.LineEditing

/-! What the echo of `copy_to_cooked` does to the characters that wait in the
write queue. -/

namespace Gpos.Tty

open Program RingBuffer

section

variable (below : BitVec 8 → Bool)

/-- The first echo that a character calls for, after the mappings of the input. -/
def echoFor (t : TtyStruct) (c : BitVec 8) : Option (List (BitVec 8)) :=
  if t.termios.lCanon ∧ isChar c t.termios.killChar then if AtLineStart t then none
    else some (eraseEchoOf t.secondary.last)
  else if t.termios.lCanon ∧ isChar c t.termios.eraseChar then if AtLineStart t then none
    else some (eraseEchoOf t.secondary.last)
  else if t.termios.lCanon ∧ isChar c t.termios.stopChar then none
  else if t.termios.lCanon ∧ isChar c t.termios.startChar then none
  else if t.termios.lIsig ∧ (isChar c t.termios.intrChar ∨ isChar c t.termios.quitChar) then none
  else some (echoOf t.termios c)

def activeEcho (t : TtyStruct) (c : BitVec 8) : Option (List (BitVec 8)) :=
  (mapped below t.termios c).bind (echoFor t)

/-- The first echo of `copy_to_cooked`. Up to it the secondary queue stays as it is. -/
def firstEcho (t : TtyStruct) : Option (List (BitVec 8)) :=
  if t.termios.lEcho = true ∧ ¬ t.secondary.Full then t.readQ.content.findSome?
    (activeEcho below t) else none

end

section

variable {E : Type} {below : BitVec 8 → Bool} {write : Program (Dev E) Unit}

theorem dispatch_quiet {s : Dev E} {c : BitVec 8} (he : echoFor s.tty c = none) :
    ∃ b, ∀ (write : Program (Dev E) Unit) rounds,
      dispatch write (rounds + 1) s.tty.termios c s =
        some ((), { s with tty := { s.tty with stopped := b } }) := by
  unfold echoFor at he
  unfold dispatch
  split_ifs at he ⊢ with hkill hline herase hline hstop hstart hsig
  · exact ⟨s.tty.stopped, fun _ _ => killLine_stop hline⟩
  · refine ⟨s.tty.stopped, fun _ _ => ?_⟩
    show (if AtLineStart s.tty then _ else _ : Program (Dev E) Unit) s = _
    rw [if_pos hline]
    rfl
  · exact ⟨true, fun _ _ => rfl⟩
  · exact ⟨false, fun _ _ => rfl⟩
  · exact ⟨s.tty.stopped, fun _ _ => rfl⟩

theorem cook_quiet {s : Dev E} {c : BitVec 8} (he : activeEcho below s.tty c = none) :
    ∃ b, ∀ (write : Program (Dev E) Unit) rounds, cook below write (rounds + 1) c s =
      some ((), { s with tty := { s.tty with stopped := b } }) := by
  unfold activeEcho mapped at he
  have htty : tty s = some (s.tty, s) := rfl
  cases hm : mapInput s.tty.termios c with
  | none =>
    refine ⟨s.tty.stopped, fun write rounds => ?_⟩
    rw [cook, bind_of_eq htty, hm]
    rfl
  | some e =>
    rw [hm] at he
    obtain ⟨b, hb⟩ := dispatch_quiet (s := s) he
    refine ⟨b, fun write rounds => ?_⟩
    rw [cook, bind_of_eq htty, hm]
    exact hb write rounds

theorem firstEcho_noEcho {t : TtyStruct} (h : ¬ t.termios.lEcho = true) :
    firstEcho below t = none := if_neg fun hc => h hc.1

theorem firstEcho_stop {t : TtyStruct} (h : t.readQ.Empty ∨ t.secondary.Full) :
    firstEcho below t = none := by
  rcases h with hempty | hfull
  · rw [firstEcho, (content_eq_nil _).mpr hempty, List.findSome?_nil, ite_self]
  · exact if_neg fun hc => hc.2 hfull

theorem firstEcho_next {t : TtyStruct} (hecho : t.termios.lEcho = true)
    (h : ¬ (t.readQ.Empty ∨ t.secondary.Full)) :
    firstEcho below t = (activeEcho below t t.readQ.first).or
      (firstEcho below { t with readQ := t.readQ.next }) := by
  obtain ⟨hne, hfull⟩ := not_or.mp h
  have hnext : firstEcho below { t with readQ := t.readQ.next } =
    t.readQ.next.content.findSome? (activeEcho below t) :=
    if_pos ⟨hecho, hfull⟩
  rw [firstEcho, if_pos ⟨hecho, hfull⟩, content_next hne, List.findSome?_cons, hnext]
  cases activeEcho below t t.readQ.first <;> rfl

/-! The first echo, and what `copy_to_cooked` does when it is out. -/

/-- The character goes into the secondary queue, or the last one leaves it, or the line does. -/
inductive After
  | accept (c : BitVec 8)
  | erase
  | kill

def After.run (write : Program (Dev E) Unit) (rounds : Nat) : After → Program (Dev E) Unit
  | .accept c => setSecondary fun q => q.put c
  | .erase => setSecondary RingBuffer.unput
  | .kill => do
    setSecondary RingBuffer.unput
    killLine write rounds

/-- The echo `cs` has been put on the write queue of `s`. -/
structure Echoed (cs : List (BitVec 8)) (s v : Dev E) : Prop where
  rest : v.rest = s.rest
  writeQ : v.tty.writeQ = cs.foldl RingBuffer.put s.tty.writeQ
  termios : v.tty.termios = s.tty.termios

def echoing (cs : List (BitVec 8)) (s : Dev E) : Dev E :=
  { s with tty := { s.tty with writeQ := cs.foldl RingBuffer.put s.tty.writeQ } }

theorem echo_then {s : Dev E} (hecho : s.tty.termios.lEcho = true) (cs : List (BitVec 8))
    (f : Unit → Program (Dev E) Unit) :
    (echo write cs >>= f) s = (write >>= f) (echoing cs s) := by
  exact bind_congr_left (echo_on hecho cs) f

theorem dispatch_echo {s : Dev E} (hecho : s.tty.termios.lEcho = true) {c : BitVec 8}
    {cs : List (BitVec 8)} (he : echoFor s.tty c = some cs) :
    ∃ (a : After) (v : Dev E), Echoed cs s v ∧ ∀ write rounds,
      dispatch write (rounds + 1) s.tty.termios c s = (write >>= fun _ => a.run write rounds) v := by
  unfold echoFor at he
  unfold dispatch
  split_ifs at he ⊢ with hkill hline herase hline hstop hstart hsig
  · cases he
    refine ⟨.kill, echoing _ s, ⟨rfl, rfl, rfl⟩, fun write rounds => ?_⟩
    rw [killLine_next hline]
    show ((echo write (eraseEchoOf s.tty.secondary.last) >>= fun _ =>
      setSecondary RingBuffer.unput) >>= fun _ => killLine write rounds) s = _
    rw [bind_assoc]
    exact echo_then hecho _ _
  · cases he
    refine ⟨.erase, echoing _ s, ⟨rfl, rfl, rfl⟩, fun write rounds => ?_⟩
    show (if AtLineStart s.tty then _ else _ : Program (Dev E) Unit) s = _
    rw [if_neg hline]
    show (echo write (eraseEchoOf s.tty.secondary.last) >>= fun _ =>
      setSecondary RingBuffer.unput) s = _
    exact echo_then hecho _ _
  · cases he
    let s₁ : Dev E :=
      { s with
        tty := { s.tty with data := if isEnd s.tty.termios c then s.tty.data + 1 else s.tty.data } }
    have hecho₁ : s₁.tty.termios.lEcho = true := hecho
    refine ⟨.accept c, echoing _ s₁, ⟨rfl, rfl, rfl⟩, fun write rounds => ?_⟩
    show (echo write (echoOf s.tty.termios c) >>= fun _ => setSecondary fun q => q.put c) s₁ = _
    exact echo_then hecho₁ _ _

theorem cook_echo {s : Dev E} (hecho : s.tty.termios.lEcho = true) {c : BitVec 8}
    {cs : List (BitVec 8)} (he : activeEcho below s.tty c = some cs) :
    ∃ (a : After) (v : Dev E), Echoed cs s v ∧ ∀ write rounds,
      cook below write (rounds + 1) c s = (write >>= fun _ => a.run write rounds) v := by
  obtain ⟨d, hd, hfor⟩ := Option.bind_eq_some_iff.mp he
  obtain ⟨e, hm, rfl⟩ := Option.map_eq_some_iff.mp hd
  obtain ⟨a, v, hv, hrun⟩ := dispatch_echo hecho hfor
  refine ⟨a, v, hv, fun write rounds => ?_⟩
  rw [cook, bind_of_eq (show tty s = some (s.tty, s) from rfl), hm]
  exact hrun write rounds

/-- Up to the first echo nothing happens to the write queue. -/
theorem copyToCooked_echo {s : Dev E} {cs : List (BitVec 8)}
    (h : firstEcho below s.tty = some cs) :
    ∃ (j : Nat) (a : After) (v : Dev E), Echoed cs s v ∧ ∀ write rounds,
      copyToCooked below write (j + (rounds + 1) + 1) s = (write >>= fun _ =>
        a.run write rounds >>= fun _ => copyToCooked below write (rounds + 1)) v := by
  have hecho : s.tty.termios.lEcho = true := by
    by_contra hno
    rw [firstEcho_noEcho hno] at h
    cases h
  induction hn : s.tty.readQ.size generalizing s with
  | zero =>
    rw [firstEcho_stop (Or.inl ((size_eq_zero _).mp hn))] at h
    cases h
  | succ n ih =>
    have hgo : ¬ (s.tty.readQ.Empty ∨ s.tty.secondary.Full) := fun hstop => by
      rw [firstEcho_stop hstop] at h
      cases h
    have hnext := size_next (not_or.mp hgo).1
    rw [firstEcho_next hecho hgo] at h
    let s₁ : Dev E := { s with tty := { s.tty with readQ := s.tty.readQ.next } }
    cases he : activeEcho below s.tty s.tty.readQ.first with
    | some cs' =>
      rw [he] at h
      cases h
      obtain ⟨a, v, hv, hrun⟩ := cook_echo (s := s₁) hecho he
      refine ⟨0, a, v, ⟨hv.rest, hv.writeQ, hv.termios⟩, fun write rounds => ?_⟩
      rw [Nat.zero_add, copyToCooked_next hgo, ← bind_assoc]
      exact bind_congr_left (hrun write rounds) _
    | none =>
      rw [he, Option.none_or] at h
      obtain ⟨b, hb⟩ : ∃ b, ∀ (write : Program (Dev E) Unit) rounds,
          cook below write (rounds + 1) s.tty.readQ.first s₁ =
            some ((), { s₁ with tty := { s₁.tty with stopped := b } }) :=
        cook_quiet (s := s₁) he
      obtain ⟨j, a, v, hv, hrun⟩ := ih (s := { s₁ with tty := { s₁.tty with stopped := b } }) h hecho
        (by show s.tty.readQ.next.size = n; omega)
      refine ⟨j + 1, a, v, ⟨hv.rest, hv.writeQ, hv.termios⟩, fun write rounds => ?_⟩
      rw [show j + 1 + (rounds + 1) + 1 = j + (rounds + 1) + 1 + 1 by omega, copyToCooked_next hgo,
        bind_of_eq (hb write _)]
      exact hrun write rounds

end

/-! `tty->write` is `con_write`. -/

section

variable {g : Console.Geometry} {below : BitVec 8 → Bool} {base : Account}

theorem echo_firstEcho {t : TtyStruct} {cs : List (BitVec 8)} (h : firstEcho below t = some cs) :
    Echo cs := by
  unfold firstEcho at h
  split at h
  next =>
    obtain ⟨c, -, he⟩ := List.exists_of_findSome?_eq_some h
    obtain ⟨d, -, hd⟩ := Option.bind_eq_some_iff.mp he
    unfold echoFor at hd
    split_ifs at hd <;> cases hd
    · exact echo_eraseEchoOf _
    · exact echo_eraseEchoOf _
    · exact echo_echoOf _ _
  next => cases h

theorem tame_setSecondary (f : Queue → Queue) : Tame (setSecondary f) (setSecondary f) :=
  .change fun _ => rfl

theorem cool_setSecondary {n : Nat} (f : Queue → Queue) :
    Returns (Cool base n) (fun _ => (setSecondary f : Program (Dev Screen) Unit)) fun _ =>
      Cool base n := cool_change (fun _ => rfl) fun _ => rfl

theorem After.within {write write' : Program (Dev Screen) Unit} (h : write.Within write')
    {rounds rounds' : Nat} (hr : rounds ≤ rounds') (a : After) :
    Within (a.run write rounds) (a.run write' rounds') := by
  cases a with
  | kill => exact .bind (.refl _) fun _ => within_killLine h hr
  | _ => exact .refl _

theorem After.tame {write : Program (Dev Screen) Unit} (h : Settles write) (a : After)
    (rounds : Nat) : Tame (a.run failure rounds) (a.run write rounds) := by
  cases a with
  | accept c => exact tame_setSecondary fun q => q.put c
  | erase => exact tame_setSecondary RingBuffer.unput
  | kill => exact (tame_setSecondary RingBuffer.unput).bind fun _ => .killLine h rounds

theorem cool_after (a : After) {n : Nat} :
    Returns (Cool base n) (fun k => a.run (conWrite g below k) k) fun _ => Cool base n := by
  cases a with
  | accept c => exact cool_setSecondary fun q => q.put c
  | erase => exact cool_setSecondary RingBuffer.unput
  | kill => exact (cool_setSecondary RingBuffer.unput).bind fun _ => cool_killLine

/-- Without an echo nothing is written. -/
theorem silent_of_firstEcho {s : Dev Screen} (h : firstEcho below s.tty = none) :
    ∃ t, Silent below s t := by
  by_cases hecho : s.tty.termios.lEcho = true
  · induction hn : s.tty.readQ.size generalizing s with
    | zero => exact ⟨s, 1, copyToCooked_stop (Or.inl ((size_eq_zero _).mp hn))⟩
    | succ n ih =>
      by_cases hstop : s.tty.readQ.Empty ∨ s.tty.secondary.Full
      · exact ⟨s, 1, copyToCooked_stop hstop⟩
      · have hnext := size_next (not_or.mp hstop).1
        rw [firstEcho_next hecho hstop, Option.or_eq_none_iff] at h
        let s₁ : Dev Screen := { s with tty := { s.tty with readQ := s.tty.readQ.next } }
        obtain ⟨b, hb⟩ := cook_quiet (s := s₁) h.1
        let s₂ : Dev Screen := { s₁ with tty := { s₁.tty with stopped := b } }
        obtain ⟨t, rounds, ht⟩ := ih (s := s₂) h.2 hecho
          (by show s.tty.readQ.next.size = n; omega)
        refine ⟨t, rounds + 1 + 1, ?_⟩
        rw [copyToCooked_next hstop, bind_of_eq (hb failure rounds)]
        exact within_copyToCooked .failure (Nat.le_succ rounds) _ _ ht
  · obtain ⟨t, ht, -⟩ := @copyToCooked_later _ below failure _ onlyWrites_noEcho _ s hecho
      (Nat.lt_succ_self _)
    exact ⟨t, _, ht⟩

/-- The echo may end ESC Z with its last character, but what waits in front of it does not. -/
theorem undisturbed_of_deaf {n : Nat} {s v : Dev Screen} {cs : List (BitVec 8)} (hd : Deaf g n s)
    (hn : s.tty.writeQ.size = n) (hcon : v.rest.con = s.rest.con)
    (herase : v.tty.termios.eraseChar = s.tty.termios.eraseChar)
    (hq : v.tty.writeQ.content = s.tty.writeQ.content ++ cs) (hcs : 90 ∉ cs.dropLast) :
    Undisturbed g below v.tty.writeQ.size v := by
  induction n generalizing s v with
  | zero =>
    rw [(content_eq_nil _).mpr ((size_eq_zero _).mp hn), List.nil_append] at hq
    exact undisturbed_of_last rfl (hq.symm ▸ hcs)
  | succ n ih =>
    have hne := not_empty_of_size hn
    have hsize : v.tty.writeQ.size = n + cs.length + 1 := by
      rw [← length_content, hq, List.length_append, length_content, hn]
      omega
    have hne' := not_empty_of_size hsize
    rw [content_next hne, content_next hne', List.cons_append, List.cons.injEq] at hq
    have hasks : ¬ Asks v := fun ha => hd.1 ⟨hcon ▸ ha.1, hq.1 ▸ ha.2⟩
    have hnext := ih (s := shown g s) (v := shown g v) hd.2 (size_shown g hn)
      (by unfold shown; dsimp only; rw [hcon, herase, hq.1]) herase hq.2
    rw [size_shown g hsize] at hnext
    rw [hsize, Undisturbed, if_neg hasks]
    exact hnext

/-- Everything that was in the write queue and every echo character was taken once or is still in
the queue, in their order. -/
def Spares (g : Console.Geometry) (below : BitVec 8 → Bool) (t : TtyStruct)
    (con : Console.Con) : Prop :=
  ∃ fuel s, copyToCooked below (conWrite g below fuel) fuel (atCall t con) = some ((), s) ∧
    s.rest.past = false ∧
      s.rest.taken ++ s.tty.writeQ.content = t.writeQ.content ++ s.rest.queued

section

variable {t : TtyStruct} {con : Console.Con} {cs gone : List (BitVec 8)} {v : Dev Screen}

/-- The state in which the first call of `con_write` takes its characters. -/
def firstCall (t : TtyStruct) (con : Console.Con) (cs : List (BitVec 8)) (v : Dev Screen) :
    Dev Screen :=
  { v with rest := (called cs (atCall t con)).rest }

theorem conWrite_first (hv : Echoed cs (atCall t con) v) (fuel : Nat) :
    conWrite g below (fuel + 1) v = writeLoop g below (conWrite g below fuel) fuel
      (firstCall t con cs v).tty.writeQ.size (firstCall t con cs v) := by
  obtain ⟨tty, rest⟩ := v
  obtain ⟨rfl, hq, -⟩ := hv
  have hnote : note ⟨tty, (atCall t con).rest⟩ =
      some ((), firstCall t con cs ⟨tty, (atCall t con).rest⟩) := by
    dsimp only at hq
    unfold note firstCall called fresh
    dsimp only
    rw [hq]
  exact bind_of_eq hnote

theorem busy_first (hv : Echoed cs (atCall t con) v) (hcs : Echo cs)
    (hgone : gone ++ (cs.foldl RingBuffer.put t.writeQ).content = t.writeQ.content ++ cs) :
    Busy (gone, t.writeQ.content) (firstCall t con cs v) := by
  have hstart : Busy ([], t.writeQ.content) (atCall t con) :=
    ⟨rfl, rfl, (List.append_nil _).symm⟩
  have hlen := hcs.1
  exact (hstart.called (by omega) hgone).congr hv.writeQ rfl

/-- After the first call all that is left to be done keeps what has been taken in order. -/
theorem quiet_after (hv : Echoed cs (atCall t con) v) (hcs : Echo cs)
    (hgone : gone ++ (cs.foldl RingBuffer.put t.writeQ).content = t.writeQ.content ++ cs)
    (hu : Undisturbed g below (firstCall t con cs v).tty.writeQ.size (firstCall t con cs v))
    (a : After) {fuel rounds rounds' : Nat} {s : Dev Screen}
    (h : (conWrite g below (fuel + 1) >>= fun _ => a.run (conWrite g below (fuel + 1)) rounds >>=
      fun _ => copyToCooked below (conWrite g below (fuel + 1)) rounds') v = some ((), s)) :
    Quiet (gone, t.writeQ.content) s := by
  obtain ⟨_, u, hrun, hrest⟩ := bind_some.mp h
  rw [conWrite_first hv] at hrun
  have hquiet := writeLoop_quiet (settles_conWrite g below fuel) hrun rfl
    (busy_first hv hcs hgone) hu
  have hsettles := settles_conWrite g below (fuel + 1)
  exact ((a.tame hsettles rounds).bind fun _ => Tame.copyToCooked hsettles rounds').quiet _ u () s
    hquiet hrest

theorem returns_after (hv : Echoed cs (atCall t con) v) (hcs : Echo cs)
    (hgone : gone ++ (cs.foldl RingBuffer.put t.writeQ).content = t.writeQ.content ++ cs)
    (hu : Undisturbed g below (firstCall t con cs v).tty.writeQ.size (firstCall t con cs v))
    (a : After) :
    ∃ k s, ∀ l, k ≤ l → (conWrite g below (l + 1) >>= fun _ => a.run (conWrite g below (l + 1)) k >>=
      fun _ => copyToCooked below (conWrite g below (l + 1)) (k + 1)) v = some ((), s) := by
  have hbusy := busy_first hv hcs hgone
  obtain ⟨k, u, hrun⟩ := writeLoop_returns rfl hbusy hu
  have hquiet := writeLoop_quiet (settles_conWrite g below k) hrun rfl hbusy hu
  have hrest := (@cool_after g below (gone, t.writeQ.content) a (weight u.tty.readQ)).bind fun _ =>
    @digests g below _ (weight u.tty.readQ)
  obtain ⟨k', _, s, hs, -⟩ := hrest.run u ⟨hquiet, Nat.le_refl _⟩
  refine ⟨max k k', s, fun l hl => ?_⟩
  have hk := (le_max_left k k').trans hl
  have hk' := (le_max_right k k').trans hl
  have hfirst : conWrite g below (l + 1) v = some ((), u) := by
    rw [conWrite_first hv]
    exact within_writeLoop (within_conWrite hk) hk _ _ _ hrun
  rw [bind_of_eq hfirst]
  obtain ⟨_, w, hw, hcook⟩ := bind_some.mp hs
  have hwrite := @within_conWrite g below _ _ (Nat.le_succ_of_le hk')
  exact bind_some.mpr ⟨(), w, a.within hwrite (le_max_right k k') _ _ hw,
    within_copyToCooked hwrite (Nat.le_succ_of_le (le_max_right k k')) _ _ hcook⟩

/-- An echo that does not fit takes what waits with it. -/
theorem not_spares (hfirst : firstEcho below t = some cs)
    (hover : 2 ^ 10 ≤ t.writeQ.size + cs.length) : ¬ Spares g below t con := by
  rintro ⟨fuel, s, hrun, -, horder⟩
  have hcs := echo_firstEcho hfirst
  obtain ⟨l, hl, hend⟩ := content_puts_over (by have := hcs.1; omega) hover
  obtain ⟨j, a, v, hv, hcook⟩ := copyToCooked_echo (s := atCall t con) hfirst
  have hgone : t.writeQ.content ++ l ++ (cs.foldl RingBuffer.put t.writeQ).content =
      t.writeQ.content ++ cs := by
    rw [List.append_assoc, ← hend]
  have hu : Undisturbed g below (firstCall t con cs v).tty.writeQ.size (firstCall t con cs v) := by
    refine undisturbed_of_last rfl ?_
    have hlast : (cs.foldl RingBuffer.put t.writeQ).content.dropLast = [] := by
      have hlen := congrArg List.length hend
      rw [List.length_append] at hlen
      have hpos := List.length_pos_of_ne_nil hl
      have htwo := hcs.1
      rw [← List.length_eq_zero_iff, List.length_dropLast]
      omega
    show 90 ∉ v.tty.writeQ.content.dropLast
    rw [hv.writeQ]
    exact hlast ▸ List.not_mem_nil
  have hle : fuel ≤ j + (fuel + 1) + 1 := by omega
  have hmore := within_copyToCooked (@within_conWrite g below _ _ hle) hle _ _ hrun
  rw [hcook] at hmore
  have hquiet : Quiet (t.writeQ.content ++ l, t.writeQ.content) s :=
    quiet_after hv hcs hgone hu a hmore
  have hlen := congrArg List.length hquiet.1.order
  rw [horder] at hlen
  have hpos := List.length_pos_of_ne_nil hl
  simp only [List.length_append] at hlen
  omega

theorem spares_of_fits (hfirst : firstEcho below t = some cs)
    (hdeaf : Deaf g t.writeQ.size (atCall t con)) (hfit : t.writeQ.size + cs.length < 2 ^ 10) :
    Spares g below t con := by
  have hcs := echo_firstEcho hfirst
  have hcontent := content_puts cs hfit
  obtain ⟨j, a, v, hv, hcook⟩ := copyToCooked_echo (s := atCall t con) hfirst
  have hgone : [] ++ (cs.foldl RingBuffer.put t.writeQ).content = t.writeQ.content ++ cs := hcontent
  have hu : Undisturbed g below (firstCall t con cs v).tty.writeQ.size (firstCall t con cs v) :=
    undisturbed_of_deaf hdeaf rfl rfl (congrArg Termios.eraseChar hv.termios)
      ((congrArg content hv.writeQ).trans hcontent) hcs.2
  obtain ⟨k, s, hs⟩ := returns_after hv hcs hgone hu a
  have hrun := hs (j + (k + 1)) (by omega)
  have hquiet : Quiet ([], t.writeQ.content) s := quiet_after hv hcs hgone hu a hrun
  exact ⟨j + (k + 1) + 1, s, (hcook _ k).trans hrun, hquiet.1.past, hquiet.1.order⟩

/-- Pending output, none of which asks the terminal, is spared exactly if the first echo, if there
is any, finds room. -/
theorem spared_iff (g : Console.Geometry) (below : BitVec 8 → Bool) (t : TtyStruct)
    (con : Console.Con)
    (hdeaf : ∀ cs, firstEcho below t = some cs → Deaf g t.writeQ.size (atCall t con)) :
    Spares g below t con ↔ ∀ cs, firstEcho below t = some cs →
      t.writeQ.size + cs.length < 2 ^ 10 := by
  cases he : firstEcho below t with
  | none =>
    refine iff_of_true ?_ fun _ h => nomatch h
    obtain ⟨u, hu⟩ := silent_of_firstEcho (s := atCall t con) he
    obtain ⟨hq, hrest⟩ := hu.same
    obtain ⟨rounds, hrun⟩ := hu
    refine ⟨rounds, u, within_copyToCooked .failure (Nat.le_refl _) _ _ hrun, ?_, ?_⟩
    · rw [hrest]
      rfl
    · rw [hq, hrest]
      exact (List.append_nil _).symm
  | some cs =>
    constructor
    · intro hs cs' hcs
      cases hcs
      by_contra hno
      exact not_spares he (Nat.not_lt.mp hno) hs
    · exact fun hfit => spares_of_fits he (hdeaf cs he) (hfit cs rfl)

/-- A key and so much output. -/
def pending (n : BitVec 10) : TtyStruct :=
  { console with readQ := emptyQueue.put 97, writeQ := ⟨n, 0, fun _ => 98⟩ }

theorem spared_iff_pending :
    Spares Console.vga (fun _ => false) (pending 1022) Console.blankScreen := by
  refine (spared_iff Console.vga (fun _ => false) (pending 1022) Console.blankScreen
    fun _ _ => deaf_of_not_mem rfl ?_).mpr fun cs hcs => ?_
  · simp [atCall, pending, content]
  · have hfirst : firstEcho (fun _ => false) (pending 1022) = some [97] := by decide
    rw [hfirst] at hcs
    cases hcs
    decide

/-- The echo of a key makes a full queue look empty, and `con_write` takes nothing. -/
theorem not_spared :
    ¬ Spares Console.vga (fun _ => false) (pending 1023) Console.blankScreen ∧
      ∃ s, copyToCooked (fun _ => false) (conWrite Console.vga (fun _ => false) 4) 4
        (atCall (pending 1023) Console.blankScreen) = some ((), s) ∧ s.rest.taken = [] ∧
          s.tty.writeQ.Empty := by
  have hfirst : firstEcho (fun _ => false) (pending 1023) = some [97] := by decide
  refine ⟨not_spares hfirst (by decide), ?_⟩
  have hrun : (copyToCooked (fun _ => false) (conWrite Console.vga (fun _ => false) 4) 4
      (atCall (pending 1023) Console.blankScreen)).any fun r =>
        r.2.rest.taken.isEmpty && decide r.2.tty.writeQ.Empty := by decide +kernel
  obtain ⟨⟨_, s⟩, hs, hboth⟩ := (Option.any_eq_true ..).mp hrun
  rw [Bool.and_eq_true, List.isEmpty_iff, decide_eq_true_iff] at hboth
  exact ⟨s, hs, hboth⟩

end

end

end Gpos.Tty
