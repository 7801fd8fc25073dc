import Gpos.ConWrite
import Gpos.ConsoleScroll

/-! `con_write` returns unless an echo comes in front of a character that is
still to be taken. The answer to ESC Z is echoed, and so is a Z in the read
queue, to which the terminal may answer again; but it has to be taken from the
read queue first, and there is no Z in an answer. -/

namespace Gpos.Console

variable (g : Geometry)

theorem wrap_state (s : Con) : (wrap g s).state = s.state := by
  unfold wrap lf
  split_ifs
  · rfl
  · rw [scrup_cursor]

theorem csi_caret (s : Con) : csi g 94 s = { s with state := 0 } := by
  simp [csi, command]

/-- The character in front of the echo of a control character ends an escape sequence. -/
theorem state_caret (eraseChar : Nat) (s : Con) : (conWriteChar g eraseChar 94 s).state ≠ 1 := by
  have hparameter : ∀ s : Con, (parameter g 94 s).state = 0 := fun s => by
    rw [parameter, if_neg fun h => absurd h.1 (by decide), if_neg (by decide), csi_caret]
  unfold conWriteChar
  split
  next h =>
    rw [plain, if_pos (by decide), printChar]
    split_ifs
    · exact (wrap_state g s).trans_ne (h.trans_ne (by decide))
    · exact h.trans_ne (by decide)
  next =>
    have hescape : (escape g 94 s).state = 0 := by
      unfold escape
      dsimp only
      rw [if_neg (by decide), if_neg (by decide), if_neg (by decide), if_neg (by decide),
        if_neg (by decide)]
      unfold saveCur restoreCur gotoxy
      split_ifs <;> rfl
    exact hescape.trans_ne (by decide)
  next =>
    rw [introduce, if_neg (by decide)]
    exact (hparameter _).trans_ne (by decide)
  next => exact (hparameter s).trans_ne (by decide)
  next =>
    rw [csi_caret]
    exact Nat.zero_ne_one
  next h _ _ _ => exact h

end Gpos.Console

namespace Gpos.Tty

open Program RingBuffer

/-- The characters of the read queue, where a Z counts for the answer to it, too. -/
def weight (q : Queue) : Nat := 8 * q.content.count 90 + q.size

theorem weight_next {q : Queue} (h : ¬ q.Empty) :
    weight q.next + (if q.first = 90 then 9 else 1) = weight q := by
  have hs := size_next h
  unfold weight
  rw [content_next h, List.count_cons]
  by_cases hz : q.first = 90
  · rw [if_pos hz, if_pos (beq_iff_eq.mpr hz)]
    omega
  · rw [if_neg hz, if_neg (by simpa using hz)]
    omega

theorem weight_put {c : BitVec 8} (hc : c ≠ 90) (q : Queue) : weight (q.put c) ≤ weight q + 1 := by
  unfold weight
  by_cases hf : q.Full
  · rw [content_put_full c hf, size_put, q.full_iff.mp hf, Nat.mod_self, List.count_nil]
    omega
  · rw [content_put c hf, size_put_of_not c hf, List.count_append, List.count_singleton,
      if_neg (by simpa using hc)]
    omega

theorem weight_puts {cs : List (BitVec 8)} (h : 90 ∉ cs) (q : Queue) :
    weight (cs.foldl put q) ≤ weight q + cs.length := by
  induction cs generalizing q with
  | nil => exact Nat.le_refl _
  | cons c cs ih =>
    rw [List.mem_cons, not_or] at h
    have hput := weight_put (Ne.symm h.1) q
    have htail := ih h.2 (q.put c)
    rw [List.foldl_cons, List.length_cons]
    omega

section

variable {g : Console.Geometry} {below : BitVec 8 → Bool} {base : Account}

/-- None of the next characters makes the terminal answer. -/
def Deaf (g : Console.Geometry) : Nat → Dev Screen → Prop
  | 0, _ => True
  | nr + 1, s => ¬ Asks s ∧ Deaf g nr (shown g s)

theorem writeLoop_deaf (write : Program (Dev Screen) Unit) (rounds : Nat) {nr : Nat}
    {s : Dev Screen} (h : Deaf g nr s) :
    ∃ t, writeLoop g below write rounds nr s = some ((), t) ∧
      t.tty = { s.tty with writeQ := t.tty.writeQ } := by
  induction nr generalizing s with
  | zero => exact ⟨s, rfl, rfl⟩
  | succ nr ih =>
    obtain ⟨t, ht, htty⟩ := ih h.2
    refine ⟨t, ?_, htty⟩
    rw [writeLoop_succ, if_neg h.1]
    exact ht

theorem deaf_of_not_mem {nr : Nat} {s : Dev Screen} (hn : s.tty.writeQ.size = nr)
    (h : 90 ∉ s.tty.writeQ.content) : Deaf g nr s := by
  induction nr generalizing s with
  | zero => exact trivial
  | succ nr ih =>
    have hne := not_empty_of_size hn
    rw [content_next hne, List.mem_cons, not_or] at h
    exact ⟨fun ha => h.1 ha.2.symm, ih (size_shown g hn) h.2⟩

theorem deaf_caret {c : BitVec 8} {s : Dev Screen} (h : s.tty.writeQ.content = [94, c]) :
    Deaf g 2 s := by
  have hne : ¬ s.tty.writeQ.Empty := fun he => by
    rw [(content_eq_nil _).mpr he] at h
    exact nomatch h
  rw [content_next hne, List.cons.injEq] at h
  refine ⟨fun ha => ?_, fun ha => ?_, trivial⟩
  · rw [ha.2] at h
    exact absurd h.1 (by decide)
  · have hstate := ha.1
    unfold shown at hstate
    dsimp only at hstate
    rw [h.1] at hstate
    exact Console.state_caret g _ _ hstate

/-- The echo of a character that is no Z. -/
def Inert (cs : List (BitVec 8)) : Prop := cs.length ≤ 2 ∧ (90 ∉ cs ∨ ∃ c, cs = [94, c])

theorem inert_echoOf (t : Termios) {c : BitVec 8} (hc : c ≠ 90) : Inert (echoOf t c) := by
  unfold echoOf
  split_ifs
  · exact ⟨by decide, Or.inl (by decide)⟩
  · exact ⟨Nat.le_refl 2, Or.inr ⟨_, rfl⟩⟩
  · exact ⟨by decide, Or.inl (by decide)⟩
  · exact ⟨Nat.le_succ 1, Or.inl (by simpa using hc.symm)⟩

theorem inert_eraseEchoOf (c : BitVec 8) : Inert (eraseEchoOf c) := by
  unfold eraseEchoOf
  split_ifs <;> exact ⟨by decide, Or.inl (by decide)⟩

theorem Inert.echo {cs : List (BitVec 8)} (h : Inert cs) : Echo cs := by
  obtain ⟨hlength, hz | ⟨c, rfl⟩⟩ := h
  · exact ⟨hlength, fun hm => hz (List.mem_of_mem_dropLast hm)⟩
  · exact ⟨hlength, by simp⟩

theorem Inert.deaf {cs : List (BitVec 8)} {s : Dev Screen} (h : Inert cs)
    (hs : s.tty.writeQ.content = cs) : Deaf g s.tty.writeQ.size s := by
  obtain ⟨_, hz | ⟨c, rfl⟩⟩ := h
  · exact deaf_of_not_mem rfl (hs ▸ hz)
  · rw [← length_content, hs]
    exact deaf_caret hs

theorem echo_inert {cs : List (BitVec 8)} (hcs : Inert cs) {k : Nat} (hk : k ≠ 0) {s : Dev Screen}
    (hs : Quiet base s) :
    ∃ t, echo (conWrite g below k) cs s = some ((), t) ∧ Quiet base t ∧
      t.tty = { s.tty with writeQ := t.tty.writeQ } := by
  obtain ⟨fuel, rfl⟩ := Nat.exists_eq_succ_of_ne_zero hk
  by_cases he : s.tty.termios.lEcho = true
  · obtain ⟨t, ht, htty⟩ :=
      @writeLoop_deaf g below (conWrite g below fuel) fuel _ _ (hcs.deaf (hs.called hcs.1).2)
    exact ⟨t, (echo_on he cs).trans ht,
      (settles_conWrite g below (fuel + 1)).quiet base cs hcs.echo s () t hs ht, htty⟩
  · exact ⟨s, echo_off he cs, hs, rfl⟩

/-- Between two calls, with so much in the read queue. -/
def Cool (base : Account) (n : Nat) (s : Dev Screen) : Prop :=
  Quiet base s ∧ weight s.tty.readQ ≤ n

theorem Cool.mono {n n' : Nat} (hn : n ≤ n') {s : Dev Screen} (h : Cool base n s) :
    Cool base n' s := ⟨h.1, h.2.trans hn⟩

variable {n n' : Nat}

theorem cool_read :
    Returns (Cool base n) (fun _ => tty) fun _ => Cool base n := .plain fun s hs =>
      ⟨s.tty, s, rfl, hs⟩

theorem cool_done :
    Returns (Cool base n) (fun _ => (pure () : Program (Dev Screen) Unit)) fun _ =>
      Cool base n := .plain fun s hs => ⟨(), s, rfl, hs⟩

theorem cool_change {m : TtyStruct → TtyStruct} (hw : ∀ t, (m t).writeQ = t.writeQ)
    (hr : ∀ t, (m t).readQ = t.readQ) :
    Returns (Cool base n) (fun _ => (modify m : Program (Dev Screen) Unit)) fun _ =>
      Cool base n := by
  refine .plain fun s hs => ⟨(), _, rfl, (Tame.change hw).quiet base s () _ hs.1 rfl, ?_⟩
  show weight (m s.tty).readQ ≤ n
  rw [hr]
  exact hs.2

theorem cool_echo {cs : List (BitVec 8)} (hcs : Inert cs) :
    Returns (Cool base n) (fun k => echo (conWrite g below k) cs) fun _ => Cool base n := by
  refine ⟨fun hk => within_echo (within_conWrite hk) cs, fun s hs => ?_⟩
  obtain ⟨t, ht, hquiet, htty⟩ := echo_inert hcs Nat.one_ne_zero hs.1
  refine ⟨1, (), t, ht, hquiet, ?_⟩
  rw [htty]
  exact hs.2

theorem eraseLast_quiet {k : Nat} (hk : k ≠ 0) {s : Dev Screen} (hs : Quiet base s) :
    ∃ t, eraseLast (conWrite g below k) s = some ((), t) ∧ Quiet base t ∧
      t.tty = { s.tty with writeQ := t.tty.writeQ, secondary := s.tty.secondary.unput } := by
  obtain ⟨t, ht, hquiet, htty⟩ :=
    @echo_inert g below base _ (inert_eraseEchoOf s.tty.secondary.last) k hk s hs
  have hrun : eraseLast (conWrite g below k) s =
      some ((), { t with tty := { t.tty with secondary := t.tty.secondary.unput } }) := by
    show (echo (conWrite g below k) (eraseEchoOf s.tty.secondary.last) >>= fun _ =>
      setSecondary RingBuffer.unput) s = _
    rw [bind_of_eq ht]
    rfl
  refine ⟨_, hrun, (Tame.eraseLast (settles_conWrite g below k)).quiet base s () _ hs hrun, ?_⟩
  dsimp only
  rw [htty]

theorem cool_eraseOne :
    Returns (Cool base n) (fun k => eraseOne (conWrite g below k)) fun _ => Cool base n := by
  refine cool_read.bind fun t => cool_done.ite ⟨fun hk => within_eraseLast (within_conWrite hk),
    fun s hs => ?_⟩
  obtain ⟨t, ht, hquiet, htty⟩ := @eraseLast_quiet g below base 1 Nat.one_ne_zero s hs.1
  refine ⟨1, (), t, ht, hquiet, ?_⟩
  rw [htty]
  exact hs.2

theorem killLine_quiet {k : Nat} (hk : k ≠ 0) {rounds : Nat} {s : Dev Screen} (hs : Quiet base s)
    (hn : s.tty.secondary.size < rounds) :
    ∃ t, killLine (conWrite g below k) rounds s = some ((), t) ∧ Quiet base t ∧
      t.tty.readQ = s.tty.readQ := by
  induction rounds generalizing s with
  | zero => exact absurd hn (Nat.not_lt_zero _)
  | succ rounds ih =>
    by_cases hstart : AtLineStart s.tty
    · exact ⟨s, killLine_stop hstart, hs, rfl⟩
    · obtain ⟨u, hu, hquiet, htty⟩ := @eraseLast_quiet g below base k hk s hs
      have hunput := size_unput (not_or.mp hstart).1
      obtain ⟨t, ht, hquiet, hread⟩ :=
        ih hquiet (by rw [htty]; show s.tty.secondary.unput.size < rounds; omega)
      refine ⟨t, ?_, hquiet, hread.trans (by rw [htty])⟩
      rw [killLine_next hstart, bind_of_eq hu]
      exact ht

theorem cool_killLine :
    Returns (Cool base n) (fun k => killLine (conWrite g below k) k) fun _ => Cool base n := by
  refine ⟨fun hk => within_killLine (within_conWrite hk) hk, fun s hs => ?_⟩
  obtain ⟨t, ht, hquiet, hread⟩ :=
    @killLine_quiet g below base _ (Nat.succ_ne_zero s.tty.secondary.size) _ s hs.1
      (Nat.lt_succ_self _)
  refine ⟨_, (), t, ht, hquiet, ?_⟩
  rw [hread]
  exact hs.2

/-- `copy_to_cooked` deals with so much in the read queue. -/
def Digests (g : Console.Geometry) (below : BitVec 8 → Bool) (base : Account)
    (n : Nat) : Prop :=
  Returns (Cool base n) (fun k => copyToCooked below (conWrite g below k) k) fun _ => Cool base n

theorem cool_echo_z (h : Digests g below base (n + 7)) :
    Returns (Cool base n) (fun k => echo (conWrite g below k) [90]) fun _ => Cool base (n + 7) := by
  refine ⟨fun hk => within_echo (within_conWrite hk) _, fun s hs => ?_⟩
  by_cases he : s.tty.termios.lEcho = true
  · have hcalled : Busy base (called [90] s) ∧ (called [90] s).tty.writeQ.content = [90] :=
      hs.1.called (by decide)
    obtain ⟨hbusy, hcontent⟩ := hcalled
    have hsize : (called [90] s).tty.writeQ.size = 1 := by rw [← length_content, hcontent]; rfl
    have hquiet : Quiet base (shown g (called [90] s)) :=
      ⟨hbusy.shown (not_empty_of_size hsize), (size_eq_zero _).mp (size_shown g hsize)⟩
    have hrun : ∀ k, echo (conWrite g below (k + 1)) [90] s =
      writeLoop g below (conWrite g below k) k 1 (called [90] s) := fun k => by
      rw [echo_on he]
      show writeLoop g below (conWrite g below k) k (called [90] s).tty.writeQ.size
        (called [90] s) = _
      rw [hsize]
    by_cases ha : Asks (called [90] s)
    · obtain ⟨k, _, t, ht, hcool⟩ :=
        h.run (answered (shown g (called [90] s))) ⟨⟨hquiet.1.answered, hquiet.2⟩,
          (weight_puts (by decide) _).trans (Nat.add_le_add_right hs.2 7)⟩
      refine ⟨k + 1, (), t, ?_, hcool⟩
      rw [hrun, writeLoop_succ, if_pos ha, bind_of_eq ht]
      rfl
    · refine ⟨1, (), shown g (called [90] s), ?_, hquiet, hs.2.trans (Nat.le_add_right n 7)⟩
      rw [hrun, writeLoop_succ, if_neg ha]
      rfl
  · exact ⟨1, (), s, echo_off he [90], hs.mono (Nat.le_add_right n 7)⟩

theorem cool_accept {c : BitVec 8} (h : ∀ t, Returns (Cool base n)
    (fun k => echo (conWrite g below k) (echoOf t c)) fun _ => Cool base n') :
    Returns (Cool base n) (fun k => accept (conWrite g below k) c) fun _ => Cool base n' := by
  refine Returns.bind (Q := fun _ => Cool base n) ?_ fun _ => cool_read.bind fun t =>
    (h t.termios).bind fun _ => ?_
  · exact cool_change (fun _ => rfl) fun _ => rfl
  · exact cool_change (fun _ => rfl) fun _ => rfl

theorem cool_dispatch {c : BitVec 8} (hn : n ≤ n')
    (h : Returns (Cool base n) (fun k => accept (conWrite g below k) c) fun _ => Cool base n')
    (t : Termios) :
    Returns (Cool base n) (fun k => dispatch (conWrite g below k) k t c) fun _ => Cool base n' := by
  have hpost : ∀ {x : Nat → Program (Dev Screen) Unit}, Returns (Cool base n) x
      (fun _ => Cool base n) → Returns (Cool base n) x fun _ => Cool base n' := fun hx =>
        hx.mono (fun _ hs => hs) fun _ _ hs => hs.mono hn
  refine (hpost cool_killLine).ite ((hpost cool_eraseOne).ite
    (.ite (hpost ?_) (.ite (hpost ?_) ((hpost cool_done).ite h))))
  · exact cool_change (fun _ => rfl) fun _ => rfl
  · exact cool_change (fun _ => rfl) fun _ => rfl

theorem toLower_z {d : BitVec 8} (h : toLower below d = 90) : d = 90 := by
  by_cases hupper : (if d.slt 0 then below d else decide (65 ≤ d.toNat ∧ d.toNat ≤ 90)) = true
  · rw [toLower, if_pos hupper] at h
    obtain rfl : d = 58 := by bv_omega
    rw [if_neg (by decide)] at hupper
    exact absurd hupper (by decide)
  · rw [toLower, if_neg hupper] at h
    exact h

theorem mapInput_z {t : Termios} {c d : BitVec 8} (hc : c ≠ 90) (h : mapInput t c = some d) :
    (if t.iUcLc then toLower below d else d) ≠ 90 := by
  have hd : d ≠ 90 := by
    unfold mapInput at h
    split_ifs at h <;> cases h
    all_goals first | decide | exact hc
  split_ifs
  · exact fun hz => hd (toLower_z hz)
  · exact hd

theorem cool_cook {c : BitVec 8} (hn : n ≤ n') (h : ∀ d, (d = 90 → c = 90) →
    Returns (Cool base n) (fun k => accept (conWrite g below k) d) fun _ => Cool base n') :
    Returns (Cool base n) (fun k => cook below (conWrite g below k) k c) fun _ => Cool base n' := by
  refine cool_read.bind fun t => ?_
  dsimp only
  cases hd : mapInput t.termios c with
  | none => exact cool_done.mono (fun _ hs => hs) fun _ _ hs => hs.mono hn
  | some d =>
    refine cool_dispatch hn (h _ fun hz => ?_) t.termios
    by_cases hc : c = 90
    · exact hc
    · exact absurd hz (mapInput_z hc hd)

theorem digests (n : Nat) : Digests g below base n := by
  induction n using Nat.strong_induction_on with
  | _ n ih =>
    refine ⟨fun hk => within_copyToCooked (within_conWrite hk) hk, fun s hs => ?_⟩
    by_cases hstop : s.tty.readQ.Empty ∨ s.tty.secondary.Full
    · exact ⟨1, (), s, copyToCooked_stop hstop, hs⟩
    · have hweight := weight_next (not_or.mp hstop).1
      have hn := hs.2
      -- the character is worth more than what it leaves in the read queue
      have hcook : ∃ m, m < n ∧ Returns (Cool base (weight s.tty.readQ.next))
          (fun k => cook below (conWrite g below k) k s.tty.readQ.first) fun _ => Cool base m := by
        by_cases hz : s.tty.readQ.first = 90
        · rw [if_pos hz] at hweight
          refine ⟨weight s.tty.readQ.next + 7, by omega,
            cool_cook (Nat.le_add_right _ 7) fun d _ => cool_accept fun t => ?_⟩
          by_cases hd : d = 90
          · rw [hd]
            exact cool_echo_z (ih _ (by omega))
          · exact (cool_echo (inert_echoOf t hd)).mono (fun _ hs => hs) fun _ _ hs =>
              hs.mono (Nat.le_add_right _ 7)
        · rw [if_neg hz] at hweight
          refine ⟨weight s.tty.readQ.next, by omega,
            cool_cook (Nat.le_refl _) fun d hd => cool_accept fun t => ?_⟩
          exact cool_echo (inert_echoOf t fun h => hz (hd h))
      obtain ⟨m, hm, hcook⟩ := hcook
      have hnext : Cool base (weight s.tty.readQ.next)
        { s with tty := { s.tty with readQ := s.tty.readQ.next } } :=
        ⟨⟨hs.1.1.congr rfl rfl, hs.1.2⟩, Nat.le_refl _⟩
      obtain ⟨k, _, u, hu, hcool⟩ := hcook.run _ hnext
      obtain ⟨l, _, t, ht, hcool⟩ := (ih m hm).run u hcool
      refine ⟨max k l + 1, (), t, ?_, hcool.mono hm.le⟩
      have hk := le_max_left k l
      have hl := le_max_right k l
      rw [copyToCooked_next hstop]
      exact bind_some.mpr ⟨(), u, within_cook (within_conWrite (Nat.le_succ_of_le hk)) hk _ _ _ hu,
        within_copyToCooked (within_conWrite (Nat.le_succ_of_le hl)) hl _ _ ht⟩

theorem writeLoop_returns {nr : Nat} {s : Dev Screen} (hn : s.tty.writeQ.size = nr)
    (hs : Busy base s) (hu : Undisturbed g below nr s) :
    ∃ k t, writeLoop g below (conWrite g below k) k nr s = some ((), t) := by
  induction nr generalizing s with
  | zero => exact ⟨0, s, rfl⟩
  | succ nr ih =>
    have hne := not_empty_of_size hn
    have hnext := size_shown g hn
    have hbusy := hs.shown (g := g) hne
    unfold Undisturbed at hu
    by_cases ha : Asks s
    · rw [if_pos ha] at hu
      rcases hu with rfl | ⟨t, hsilent, ht⟩
      · obtain ⟨k, _, t, ht, _⟩ :=
          (digests (weight (answered (shown g s)).tty.readQ)).run (answered (shown g s))
          ⟨⟨hbusy.answered, (size_eq_zero _).mp hnext⟩, Nat.le_refl _⟩
        refine ⟨k, t, ?_⟩
        rw [writeLoop_succ, if_pos ha, bind_of_eq ht]
        rfl
      · obtain ⟨hq, hrest⟩ := hsilent.same
        obtain ⟨k, u, hl⟩ := ih (by rw [hq]; exact hnext) (hbusy.answered.congr hq hrest) ht
        obtain ⟨rounds, hc⟩ := hsilent
        refine ⟨max rounds k, u, ?_⟩
        rw [writeLoop_succ, if_pos ha]
        exact bind_some.mpr ⟨(), t, within_copyToCooked .failure (le_max_left rounds k) _ _ hc,
          within_writeLoop (within_conWrite (le_max_right rounds k))
            (le_max_right rounds k) _ _ _ hl⟩
    · rw [if_neg ha] at hu
      obtain ⟨k, u, hl⟩ := ih hnext hbusy hu
      refine ⟨k, u, ?_⟩
      rw [writeLoop_succ, if_neg ha]
      exact hl

/-- `con_write` consumes its queue if and only if no echo comes in front of a
character that is still to be taken. -/
theorem conWrite_consumes (g : Console.Geometry) (below : BitVec 8 → Bool) (t : TtyStruct)
    (con : Console.Con) :
    Consumes g below (atCall t con) ↔ Undisturbed g below t.writeQ.size (atCall t con) := by
  constructor
  · rintro ⟨fuel, u, hrun, hconsumed⟩
    exact (consumed_iff g below t con hrun).mp hconsumed
  · intro hund
    have hbusy : Busy ([], t.writeQ.content) (atCall t con) := ⟨rfl, rfl, (List.append_nil _).symm⟩
    obtain ⟨k, u, hl⟩ := writeLoop_returns rfl hbusy hund
    have hrun : conWrite g below (k + 1) (atCall t con) = some ((), u) := by
      refine bind_some.mpr ⟨(), atCall t con, ?_, hl⟩
      show some ((), ({ atCall t con with
        rest := { (atCall t con).rest with
          queued := [] ++ fresh (atCall t con) } } : Dev Screen)) = _
      rw [fresh_atCall]
      rfl
    exact ⟨k + 1, u, hrun, (consumed_iff g below t con hrun).mpr hund⟩

def writing (cs : List (BitVec 8)) : TtyStruct := { console with writeQ := cs.foldl put emptyQueue }

/-- The echo of the answer to ESC Z takes the character after it. -/
theorem conWrite_overruns :
    ¬ ∀ (g : Console.Geometry) (below : BitVec 8 → Bool) (t : TtyStruct) (con : Console.Con),
    Consumes g below (atCall t con) := by
  intro h
  have hrun : (conWrite Console.vga (fun _ => false) 20
      (atCall (writing [27, 90, 97]) Console.blankScreen)).map (fun r => r.2.rest.past) =
        some true := by decide +kernel
  obtain ⟨⟨_, u⟩, hu, hp⟩ := Option.map_eq_some_iff.mp hrun
  obtain ⟨fuel, t, ht, _, hpast, _⟩ :=
    h Console.vga (fun _ => false) (writing [27, 90, 97]) Console.blankScreen
  have hu' := within_conWrite (le_max_left 20 fuel) _ _ hu
  rw [within_conWrite (le_max_right 20 fuel) _ _ ht] at hu'
  cases hu'
  rw [hpast] at hp
  exact nomatch hp

end

end Gpos.Tty
