import Gpos.Unasked
import Mathlib.Data.List.ReduceOption

/-! `copy_to_cooked` as a line editor: what the secondary queue holds is a
function of what it held and of the characters of the read queue. When the
queue is full, nothing more is taken, not even a character that erases. -/

namespace Gpos.Tty

open Program RingBuffer

/-! The editor works on lists. -/

section

variable (below : BitVec 8 → Bool) (t : Termios)

/-- What the mappings of the input make of a character. -/
def mapped (c : BitVec 8) : Option (BitVec 8) :=
  (mapInput t c).map fun c => if t.iUcLc then toLower below c else c

def erased (l : List (BitVec 8)) : List (BitVec 8) :=
  match l.getLast? with
  | none => l
  | some c => if isEnd t c then l else l.dropLast

def typed (l : List (BitVec 8)) (c : BitVec 8) : List (BitVec 8) :=
  if t.lCanon ∧ isChar c t.killChar then completed t l
  else if t.lCanon ∧ isChar c t.eraseChar then erased t l
  else if t.lCanon ∧ isChar c t.stopChar then l
  else if t.lCanon ∧ isChar c t.startChar then l
  else if t.lIsig ∧ (isChar c t.intrChar ∨ isChar c t.quitChar) then l
  else l ++ [c]

/-- The list has 1023 places. -/
def edit : List (BitVec 8) → List (BitVec 8) → List (BitVec 8)
  | l, [] => l
  | l, k :: ks =>
    if l.length + 1 = 2 ^ 10 then l else edit ((mapped below t k).elim l (typed t l)) ks

end

section

variable {below : BitVec 8 → Bool} {t : Termios}

theorem erased_nil : erased t [] = [] := rfl

theorem erased_concat (l : List (BitVec 8)) (c : BitVec 8) :
    erased t (l ++ [c]) = if isEnd t c then l ++ [c] else l := by
  simp [erased]

theorem edit_full {l : List (BitVec 8)} (h : l.length + 1 = 2 ^ 10) (ks : List (BitVec 8)) :
    edit below t l ks = l := by
  cases ks with
  | nil => rfl
  | cons k ks => rw [edit, if_pos h]

theorem edit_cons {l : List (BitVec 8)} (h : l.length + 1 ≠ 2 ^ 10) (k : BitVec 8)
    (ks : List (BitVec 8)) :
    edit below t l (k :: ks) = edit below t ((mapped below t k).elim l (typed t l)) ks := by
  rw [edit, if_neg h]

theorem edit_append (l as bs : List (BitVec 8)) :
    edit below t l (as ++ bs) = edit below t (edit below t l as) bs := by
  induction as generalizing l with
  | nil => rfl
  | cons a as ih =>
    by_cases h : l.length + 1 = 2 ^ 10
    · rw [edit_full h, edit_full h, edit_full h]
    · rw [List.cons_append, edit_cons h, edit_cons h, ih]

end

/-! `copy_to_cooked` does what the editor does. -/

section

variable {E : Type} {below : BitVec 8 → Bool} {write : Program (Dev E) Unit}

/-- A part of `copy_to_cooked` leaves `f` of what the secondary queue held. -/
def Edits (P : TtyStruct → Prop) (x : Program (Dev E) Unit)
    (f : List (BitVec 8) → List (BitVec 8)) : Prop :=
  ∀ s, P s.tty → ∃ s', x s = some ((), s') ∧ s'.tty.termios = s.tty.termios ∧
    s'.tty.readQ = s.tty.readQ ∧ s'.tty.secondary.content = f s.tty.secondary.content

variable {P : TtyStruct → Prop} {f f' : List (BitVec 8) → List (BitVec 8)}
    {x y : Program (Dev E) Unit}

theorem Edits.ite {p : Prop} [Decidable p] (hx : Edits P x f) (hy : Edits P y f') :
    Edits P (if p then x else y) fun l => if p then f l else f' l := by
  split
  · exact hx
  · exact hy

theorem Edits.mono {Q : TtyStruct → Prop} (hx : Edits Q x f) (hpq : ∀ t, P t → Q t) : Edits P x f :=
  fun s hs => hx s (hpq _ hs)

theorem edits_pure : Edits P (pure () : Program (Dev E) Unit) id :=
  fun s _ => ⟨s, rfl, rfl, rfl, rfl⟩

theorem edits_modify {m : TtyStruct → TtyStruct} (ht : ∀ t, (m t).termios = t.termios)
    (hr : ∀ t, (m t).readQ = t.readQ) (hs : ∀ t, (m t).secondary = t.secondary) :
    Edits P (modify m : Program (Dev E) Unit) id :=
  fun s _ => ⟨{ s with tty := m s.tty }, rfl, ht _, hr _, congrArg RingBuffer.content (hs _)⟩

theorem edits_eraseLast (h : Drains write) (t : Termios) :
    Edits (fun u => u.termios = t ∧ ¬ AtLineStart u) (eraseLast write) List.dropLast := by
  rintro s ⟨-, hs⟩
  obtain ⟨u, hu, ht⟩ := eraseLast_run (onlyWrites_echo h) s trivial
  refine ⟨u, hu, by rw [ht], by rw [ht], ?_⟩
  rw [ht, content_unput (not_or.mp hs).1, List.dropLast_concat]

theorem completed_atLineStart {u : TtyStruct} (h : AtLineStart u) :
    completed u.termios u.secondary.content = u.secondary.content := by
  by_cases he : u.secondary.Empty
  · rw [(content_eq_nil _).mpr he]
    rfl
  · rw [content_unput he, completed_push_end (h.resolve_left he)]

theorem completed_dropLast {u : TtyStruct} (h : ¬ AtLineStart u) :
    completed u.termios u.secondary.content.dropLast = completed u.termios u.secondary.content := by
  obtain ⟨hne, hend⟩ := not_or.mp h
  rw [Bool.not_eq_true] at hend
  rw [content_unput hne, List.dropLast_concat, completed_push hend]

theorem edits_killLine (h : Drains write) (t : Termios) (rounds : Nat) :
    Edits (fun u => u.termios = t ∧ u.secondary.size < rounds) (killLine write rounds)
      (completed t) := by
  rintro s ⟨rfl, hsize⟩
  induction rounds generalizing s with
  | zero => exact absurd hsize (Nat.not_lt_zero _)
  | succ rounds ih =>
    by_cases hs : AtLineStart s.tty
    · exact ⟨s, killLine_stop hs, rfl, rfl, (completed_atLineStart hs).symm⟩
    · obtain ⟨u, hr, hterm, hread, hcont⟩ := edits_eraseLast h s.tty.termios s ⟨rfl, hs⟩
      have hsmall : u.tty.secondary.size < rounds := by
        have hpos : s.tty.secondary.size ≠ 0 := (size_eq_zero _).not.mpr (not_or.mp hs).1
        rw [← length_content, hcont, List.length_dropLast, length_content]
        omega
      obtain ⟨s', hk, hterm', hread', hcont'⟩ := ih u hsmall
      refine ⟨s', ?_, hterm'.trans hterm, hread'.trans hread, ?_⟩
      · rw [killLine_next hs, bind_of_eq hr]
        exact hk
      · rw [hcont', hterm, hcont, completed_dropLast hs]

theorem edits_eraseOne (h : Drains write) (t : Termios) :
    Edits (fun u => u.termios = t) (eraseOne write) (erased t) := by
  rintro s rfl
  by_cases hs : AtLineStart s.tty
  · refine ⟨s, ?_, rfl, rfl, ?_⟩
    · show (if AtLineStart s.tty then _ else _ : Program (Dev E) Unit) s = _
      rw [if_pos hs]
      rfl
    · by_cases he : s.tty.secondary.Empty
      · rw [(content_eq_nil _).mpr he, erased_nil]
      · rw [content_unput he, erased_concat, if_pos (hs.resolve_left he)]
  · obtain ⟨u, hr, hterm, hread, hcont⟩ := edits_eraseLast h s.tty.termios s ⟨rfl, hs⟩
    refine ⟨u, ?_, hterm, hread, ?_⟩
    · show (if AtLineStart s.tty then _ else _ : Program (Dev E) Unit) s = _
      rw [if_neg hs]
      exact hr
    · obtain ⟨hne, hend⟩ := not_or.mp hs
      rw [hcont, content_unput hne, List.dropLast_concat, erased_concat, if_neg hend]

theorem edits_accept (h : Drains write) (c : BitVec 8) :
    Edits (fun u => ¬ u.secondary.Full) (accept write c) (· ++ [c]) := by
  intro s hfull
  let s₁ : Dev E :=
    { s with
      tty := { s.tty with data := if isEnd s.tty.termios c then s.tty.data + 1 else s.tty.data } }
  obtain ⟨u, hu, ht⟩ := onlyWrites_echo h (echoOf s.tty.termios c) s₁ trivial
  refine ⟨{ u with tty := { u.tty with secondary := u.tty.secondary.put c } }, ?_,
    by rw [ht], by rw [ht], ?_⟩
  · show (echo write (echoOf s.tty.termios c) >>= fun _ => setSecondary fun q => q.put c) s₁ = _
    rw [bind_of_eq hu]
    rfl
  · rw [ht]
    exact content_put c hfull

theorem edits_dispatch (h : Drains write) (rounds : Nat) (t : Termios) (c : BitVec 8) :
    Edits (fun u => u.termios = t ∧ Ready rounds u) (dispatch write rounds t c) fun l =>
      typed t l c := by
  refine .ite ((edits_killLine h t rounds).mono fun _ hr => ⟨hr.1, hr.2.2⟩) <|
    .ite ((edits_eraseOne h t).mono fun _ hr => hr.1) <| .ite ?_ <| .ite ?_ <|
    .ite edits_pure ((edits_accept h c).mono fun _ hr => hr.2.1)
  · exact edits_modify (fun _ => rfl) (fun _ => rfl) fun _ => rfl
  · exact edits_modify (fun _ => rfl) (fun _ => rfl) fun _ => rfl

theorem edits_cook (h : Drains write) (rounds : Nat) (t : Termios) (c : BitVec 8) :
    Edits (fun u => u.termios = t ∧ Ready rounds u) (cook below write rounds c) fun l =>
      (mapped below t c).elim l (typed t l) := by
  rintro s ⟨rfl, hs⟩
  rw [cook, bind_of_eq (show tty s = some (s.tty, s) from rfl), mapped]
  cases mapInput s.tty.termios c with
  | none => exact edits_pure s hs
  | some c => exact edits_dispatch h rounds _ _ s ⟨rfl, hs⟩

/-- The secondary queue holds what the editor makes of the read queue. Nothing is left to be done. -/
theorem copyToCooked_edit (h : Drains write) {rounds : Nat} (s : Dev E)
    (hr : s.tty.readQ.size + 2 ^ 10 < rounds) :
      ∃ s', copyToCooked below write rounds s = some ((), s') ∧ s'.tty.termios = s.tty.termios ∧
      (s'.tty.readQ.Empty ∨ s'.tty.secondary.Full) ∧
        edit below s.tty.termios s'.tty.secondary.content s'.tty.readQ.content =
          edit below s.tty.termios s.tty.secondary.content s.tty.readQ.content := by
  induction rounds generalizing s with
  | zero => exact absurd hr (Nat.not_lt_zero _)
  | succ rounds ih =>
    by_cases hstop : s.tty.readQ.Empty ∨ s.tty.secondary.Full
    · exact ⟨s, copyToCooked_stop hstop, rfl, hstop, rfl⟩
    · obtain ⟨hne, hfull⟩ := not_or.mp hstop
      have hnext := size_next hne
      have hsize := s.tty.secondary.size_lt
      let s₁ : Dev E := { s with tty := { s.tty with readQ := s.tty.readQ.next } }
      have hready : Ready rounds s₁.tty := ⟨hfull, by
        show s.tty.secondary.size < rounds
        omega⟩
      obtain ⟨u, hu, hterm, hread, hcont⟩ :=
        @edits_cook E below write h rounds s.tty.termios s.tty.readQ.first s₁ ⟨rfl, hready⟩
      have hu' : u.tty.readQ.size + 2 ^ 10 < rounds := by
        rw [hread]
        show s.tty.readQ.next.size + 2 ^ 10 < rounds
        omega
      obtain ⟨s', hs', hterm', hdone, he⟩ := ih u hu'
      refine ⟨s', ?_, hterm'.trans hterm, hdone, ?_⟩
      · rw [copyToCooked_next hstop, bind_of_eq hu]
        exact hs'
      · have hroom : s.tty.secondary.content.length + 1 ≠ 2 ^ 10 := by
          rw [length_content]
          exact (full_iff _).not.mp hfull
        rw [hterm] at he
        rw [content_next hne, edit_cons hroom]
        exact he.trans (by rw [hcont, hread])

/-! Keys that are fed in any number of calls. -/

/-- No key comes while the read queue is full. -/
def Fits (below : BitVec 8 → Bool) (write : Program (Dev E) Unit) :
    List (Option (BitVec 8)) → Dev E → Prop :=
  Run.Meets (feed below write) fun s a => a.isSome → ¬ s.tty.readQ.Full

theorem run_edit (h : Drains write) {as : List (Option (BitVec 8))} {s : Dev E}
    (hfit : Fits below write as s) :
      ∃ s', Run.exec (feed below write) as s = some s' ∧ s'.tty.termios = s.tty.termios ∧
        edit below s.tty.termios s'.tty.secondary.content s'.tty.readQ.content =
          edit below s.tty.termios s.tty.secondary.content
            (s.tty.readQ.content ++ as.reduceOption) := by
  induction as generalizing s with
  | nil => exact ⟨s, rfl, rfl, by simp [List.reduceOption]⟩
  | cons a as ih =>
    cases a with
    | some c =>
      let u : Dev E := { s with tty := { s.tty with readQ := s.tty.readQ.put c } }
      have hu : feed below write (some c) s = some u := rfl
      obtain ⟨hroom, hfit'⟩ := hfit u hu
      obtain ⟨s', hs', hterm, he⟩ := ih hfit'
      refine ⟨s', (Run.exec_cons hu).trans hs', hterm, he.trans ?_⟩
      rw [content_put c (hroom rfl), List.append_assoc, List.reduceOption_cons_of_some]
      rfl
    | none =>
      obtain ⟨u, hu, hterm, -, he⟩ := @copyToCooked_edit E below write h _ s (Nat.lt_succ_self _)
      have hfeed : feed below write none s = some u := by rw [feed, hu, Option.map_some]
      obtain ⟨s', hs', hterm', he'⟩ := ih (hfit u hfeed).2
      refine ⟨s', (Run.exec_cons hfeed).trans hs', hterm'.trans hterm, ?_⟩
      rw [hterm] at he'
      rw [he', edit_append, he, ← edit_append, List.reduceOption_cons_of_none]

/-- The keys are fed and `copy_to_cooked` is called at last. -/
theorem fed_edit (h : Drains write) {as : List (Option (BitVec 8))} {s : Dev E}
    (hfit : Fits below write as s) (hread : s.tty.readQ.Empty) :
      ∃ s', Run.exec (feed below write) (as ++ [none]) s = some s' ∧
        s'.tty.secondary.content = edit below s.tty.termios s.tty.secondary.content
          as.reduceOption := by
  obtain ⟨u, hu, hterm, he⟩ := run_edit h hfit
  obtain ⟨s', hs', -, hdone, he'⟩ := @copyToCooked_edit E below write h _ u (Nat.lt_succ_self _)
  have hfeed : feed below write none u = some s' := by rw [feed, hs', Option.map_some]
  refine ⟨s', ?_, ?_⟩
  · rw [Run.exec_append, hu]
    exact Run.exec_cons hfeed
  · rw [hterm, he, (content_eq_nil _).mpr hread, List.nil_append] at he'
    rw [← he']
    rcases hdone with hempty | hfull
    · rw [(content_eq_nil _).mpr hempty]
      rfl
    · refine (edit_full ?_ _).symm
      rw [length_content]
      exact (full_iff _).mp hfull

end

/-! What the editor makes of ordinary characters. -/

section

variable {below : BitVec 8 → Bool} {t : Termios}

/-- A character that is no terminator and no control character of the terminal. -/
structure Plain (t : Termios) (c : BitVec 8) : Prop where
  inLine : isEnd t c = false
  control : ∀ cc ∈ [t.killChar, t.eraseChar, t.stopChar, t.startChar, t.intrChar, t.quitChar],
    isChar c cc = false

/-- The mappings of the input make such a character of it. -/
def Ordinary (below : BitVec 8 → Bool) (t : Termios) (c : BitVec 8) : Prop :=
  ∃ d, mapped below t c = some d ∧ Plain t d

/-- No control character from 128 on is ever recognised. -/
theorem isChar_iff (c cc : BitVec 8) : isChar c cc = true ↔ c = cc ∧ cc.toNat < 128 := by
  have hc := c.isLt
  have hcc := cc.isLt
  rw [isChar, beq_iff_eq, BitVec.toInt_eq_toNat_cond]
  constructor
  · intro h
    have he : c.toNat = cc.toNat := by
      split at h <;> omega
    refine ⟨BitVec.eq_of_toNat_eq he, ?_⟩
    split at h <;> omega
  · rintro ⟨rfl, hlt⟩
    rw [if_pos (by omega)]

theorem plain_of_large {c : BitVec 8} (h : 128 ≤ c.toNat) : Plain t c := by
  have hno : ∀ cc, isChar c cc = false := by
    intro cc
    rw [← Bool.not_eq_true, isChar_iff]
    rintro ⟨rfl, hlt⟩
    omega
  refine ⟨?_, fun cc _ => hno cc⟩
  rw [isEnd, hno, Bool.or_false, beq_eq_false_iff_ne]
  rintro rfl
  exact absurd h (by decide)

theorem typed_plain {c : BitVec 8} (h : Plain t c) (l : List (BitVec 8)) :
    typed t l c = l ++ [c] := by
  have hc := h.control
  simp only [List.forall_mem_cons] at hc
  obtain ⟨h1, h2, h3, h4, h5, h6, -⟩ := hc
  simp only [typed, h1, h2, h3, h4, h5, h6, Bool.false_eq_true, and_false, or_self, if_false]

theorem completed_append {ds : List (BitVec 8)} (h : ∀ d ∈ ds, isEnd t d = false)
    (l : List (BitVec 8)) : completed t (l ++ ds) = completed t l := by
  induction ds using List.reverseRecOn with
  | nil => rw [List.append_nil]
  | append_singleton ds d ih =>
    rw [← List.append_assoc, completed_push (h d (by simp)), ih fun e he => h e (by simp [he])]

theorem mapped_ordinary {cs : List (BitVec 8)} (h : ∀ c ∈ cs, Ordinary below t c) :
    (cs.filterMap (mapped below t)).length = cs.length ∧
      ∀ d ∈ cs.filterMap (mapped below t), isEnd t d = false := by
  induction cs with
  | nil => simp
  | cons c cs ih =>
    obtain ⟨d, hd, hplain⟩ := h c (by simp)
    obtain ⟨hlen, hend⟩ := ih fun e he => h e (by simp [he])
    rw [List.filterMap_cons_some hd]
    exact ⟨by rw [List.length_cons, List.length_cons, hlen],
      List.forall_mem_cons.mpr ⟨hplain.inLine, hend⟩⟩

theorem edit_ordinary {cs : List (BitVec 8)} (h : ∀ c ∈ cs, Ordinary below t c)
    {l : List (BitVec 8)} (hl : l.length < 2 ^ 10) :
    edit below t l cs = l ++ (cs.filterMap (mapped below t)).take (2 ^ 10 - 1 - l.length) := by
  induction cs generalizing l with
  | nil => simp [edit]
  | cons c cs ih =>
    by_cases hfull : l.length + 1 = 2 ^ 10
    · rw [edit_full hfull, show 2 ^ 10 - 1 - l.length = 0 by omega, List.take_zero, List.append_nil]
    · obtain ⟨d, hd, hplain⟩ := h c (by simp)
      have hlen : (l ++ [d]).length = l.length + 1 := by simp
      have hih := ih (fun e he => h e (by simp [he])) (l := l ++ [d]) (by omega)
      rw [edit_cons hfull, hd, Option.elim_some, typed_plain hplain, hih,
        List.filterMap_cons_some hd, hlen]
      rw [show 2 ^ 10 - 1 - l.length = 2 ^ 10 - 1 - (l.length + 1) + 1 by omega,
        List.take_succ_cons, List.append_assoc]
      rfl

theorem ne_of_longer {l l' : List (BitVec 8)} (h : l'.length < l.length) : l ≠ l' := by
  rintro rfl
  exact absurd h (Nat.lt_irrefl _)

theorem edit_kill_iff (hcanon : t.lCanon = true) {cs : List (BitVec 8)}
    (h : ∀ c ∈ cs, Ordinary below t c) {k : BitVec 8} (hk : mapped below t k = some t.killChar)
    {l : List (BitVec 8)} (hl : l.length < 2 ^ 10) : edit below t l (cs ++ [k]) = completed t l ↔
      t.killChar.toNat < 128 ∧ l.length + cs.length + 1 < 2 ^ 10 ∨
        l.length + 1 = 2 ^ 10 ∧ completed t l = l := by
  obtain ⟨hlen, hend⟩ := mapped_ordinary h
  have hle := (completed_le t l).length_le
  rw [edit_append, edit_ordinary h hl]
  generalize hds : cs.filterMap (mapped below t) = ds at hlen hend
  by_cases hroom : l.length + cs.length + 1 < 2 ^ 10
  · have hfree : (l ++ ds).length + 1 ≠ 2 ^ 10 := by
      rw [List.length_append]
      omega
    rw [List.take_of_length_le (by omega), edit_cons hfree, hk, Option.elim_some]
    by_cases hlow : t.killChar.toNat < 128
    · have hkill : typed t (l ++ ds) t.killChar = completed t (l ++ ds) :=
        if_pos ⟨hcanon, (isChar_iff _ _).mpr ⟨rfl, hlow⟩⟩
      rw [edit, hkill, completed_append hend]
      exact iff_of_true rfl (Or.inl ⟨hlow, hroom⟩)
    · rw [edit, typed_plain (plain_of_large (Nat.not_lt.mp hlow))]
      refine iff_of_false (ne_of_longer ?_) ?_
      · simp only [List.length_append, List.length_singleton]
        omega
      · rintro (⟨hlow', -⟩ | ⟨hfull, -⟩)
        · exact hlow hlow'
        · omega
  · have hfull : (l ++ ds.take (2 ^ 10 - 1 - l.length)).length + 1 = 2 ^ 10 := by
      rw [List.length_append, List.length_take]
      omega
    rw [edit_full hfull]
    by_cases hn : l.length + 1 = 2 ^ 10
    · rw [show 2 ^ 10 - 1 - l.length = 0 by omega, List.take_zero, List.append_nil]
      constructor
      · exact fun he => Or.inr ⟨hn, he.symm⟩
      · rintro (⟨-, hroom'⟩ | ⟨-, he⟩)
        · exact absurd hroom' hroom
        · exact he.symm
    · refine iff_of_false (ne_of_longer (by omega)) ?_
      rintro (⟨-, hroom'⟩ | ⟨hn', -⟩)
      · exact hroom hroom'
      · exact hn hn'

theorem edit_erase_iff (hcanon : t.lCanon = true) {c e : BitVec 8} (h : Ordinary below t c)
    (he : mapped below t e = some t.eraseChar) (l : List (BitVec 8)) :
    edit below t l [c, e] = l ↔ l.length + 1 = 2 ^ 10 ∨
      l.length + 2 ≠ 2 ^ 10 ∧ t.eraseChar.toNat < 128 ∧
        (t.eraseChar = t.killChar → completed t l = l) := by
  by_cases hfull : l.length + 1 = 2 ^ 10
  · exact iff_of_true (edit_full hfull _) (Or.inl hfull)
  · obtain ⟨d, hd, hplain⟩ := h
    have hlen : (l ++ [d]).length = l.length + 1 := by simp
    rw [edit_cons hfull, hd, Option.elim_some, typed_plain hplain, or_iff_right hfull]
    by_cases hlast : l.length + 2 = 2 ^ 10
    · rw [edit_full (by omega)]
      exact iff_of_false (ne_of_longer (by omega)) fun hc => hc.1 hlast
    · rw [edit_cons (by omega), he, Option.elim_some, edit]
      by_cases hlow : t.eraseChar.toNat < 128
      · have hself : isChar t.eraseChar t.eraseChar = true := (isChar_iff _ _).mpr ⟨rfl, hlow⟩
        by_cases hsame : t.eraseChar = t.killChar
        · have hkill : typed t (l ++ [d]) t.eraseChar = completed t (l ++ [d]) :=
            if_pos ⟨hcanon, hsame ▸ hself⟩
          rw [hkill, completed_push hplain.inLine]
          exact ⟨fun hc => ⟨hlast, hlow, fun _ => hc⟩, fun hc => hc.2.2 hsame⟩
        · have hother : ¬ (t.lCanon ∧ isChar t.eraseChar t.killChar) :=
            fun hc => hsame ((isChar_iff _ _).mp hc.2).1
          have herase : typed t (l ++ [d]) t.eraseChar = erased t (l ++ [d]) := by
            rw [typed, if_neg hother, if_pos ⟨hcanon, hself⟩]
          rw [herase, erased_concat, if_neg (by rw [hplain.inLine]; decide)]
          exact iff_of_true rfl ⟨hlast, hlow, fun hc => absurd hc hsame⟩
      · rw [typed_plain (plain_of_large (Nat.not_lt.mp hlow))]
        refine iff_of_false (ne_of_longer ?_) fun hc => hlow hc.2.1
        simp only [List.length_append, List.length_singleton]
        omega

end

section

variable {g : Console.Geometry} {below : BitVec 8 → Bool} {s : Dev Screen}
    {as : List (Option (BitVec 8))}

/-- As long as the terminal is not asked, `con_write` leaves the line to the editor. -/
theorem unasked_edit (n : Nat) (hu : Unasked g below (as ++ [none]) s)
    (hfit : Fits below (conWrite g below (n + 1)) as s) (hread : s.tty.readQ.Empty) :
      ∃ s', Run.exec (feed below (conWrite g below (n + 1))) (as ++ [none]) s = some s' ∧
        s'.tty.secondary.content = edit below s.tty.termios s.tty.secondary.content
          as.reduceOption := by
  obtain ⟨t, ht⟩ := hu
  have hn := @feed_mono _ below _ _ (within_unasked g below n)
  have hdrop := @feed_mono _ below _ _ (within_orDrop (conWrite g below 1))
  have has : ∃ u, Run.exec (feed below (conWrite g below 1)) as s = some u := by
    rw [Run.exec_append] at ht
    obtain ⟨u, hu, -⟩ := Option.bind_eq_some_iff.mp ht
    exact ⟨u, hu⟩
  obtain ⟨u, hu⟩ := has
  have hfit' : Fits below (orDrop (conWrite g below 1)) as s := Run.Meets.along hn hdrop hu hfit
  obtain ⟨s', hs', hcont⟩ := fed_edit (drains_unasked g below) hfit' hread
  rw [Run.exec_mono hdrop ht] at hs'
  cases hs'
  exact ⟨t, Run.exec_mono hn ht, hcont⟩

/-- When the kill character and the erase character undo what was typed before them. -/
theorem undoes_iff (g : Console.Geometry) (below : BitVec 8 → Bool) (n : Nat) {s : Dev Screen}
    (hcanon : s.tty.termios.lCanon = true) (hread : s.tty.readQ.Empty) :
    (∀ cs k as, (∀ c ∈ cs, Ordinary below s.tty.termios c) →
      mapped below s.tty.termios k = some s.tty.termios.killChar →
      Unasked g below (as ++ [none]) s → Fits below (conWrite g below (n + 1)) as s →
      as.reduceOption = cs ++ [k] →
      ∃ s', Run.exec (feed below (conWrite g below (n + 1))) (as ++ [none]) s = some s' ∧
        (s'.tty.secondary.content = completed s.tty.termios s.tty.secondary.content ↔
          s.tty.termios.killChar.toNat < 128 ∧ s.tty.secondary.size + cs.length + 1 < 2 ^ 10 ∨
          s.tty.secondary.Full ∧ completed s.tty.termios s.tty.secondary.content =
            s.tty.secondary.content)) ∧
    ∀ c e as, Ordinary below s.tty.termios c →
      mapped below s.tty.termios e = some s.tty.termios.eraseChar →
      Unasked g below (as ++ [none]) s → Fits below (conWrite g below (n + 1)) as s →
      as.reduceOption = [c, e] →
      ∃ s', Run.exec (feed below (conWrite g below (n + 1))) (as ++ [none]) s = some s' ∧
        (s'.tty.secondary.content = s.tty.secondary.content ↔ s.tty.secondary.Full ∨
          s.tty.secondary.size + 2 ≠ 2 ^ 10 ∧ s.tty.termios.eraseChar.toNat < 128 ∧
            (s.tty.termios.eraseChar = s.tty.termios.killChar →
              completed s.tty.termios s.tty.secondary.content = s.tty.secondary.content)) := by
  have hlen := s.tty.secondary.length_content
  have hlt := s.tty.secondary.size_lt
  refine ⟨fun cs k as hcs hk hu hfit has => ?_, fun c e as hc he hu hfit has => ?_⟩
  · obtain ⟨s', hs', hcont⟩ := unasked_edit n hu hfit hread
    refine ⟨s', hs', ?_⟩
    rw [hcont, has, edit_kill_iff hcanon hcs hk (hlen ▸ hlt), hlen, full_iff]
  · obtain ⟨s', hs', hcont⟩ := unasked_edit n hu hfit hread
    refine ⟨s', hs', ?_⟩
    rw [hcont, has, edit_erase_iff hcanon hc he, hlen, full_iff]

def typing (tty : TtyStruct) : Dev Screen := atCall tty Console.blankScreen

theorem fits_console :
    Fits (fun _ => false) (conWrite Console.vga (fun _ => false) 2)
      [some 97, none, some 98, some 21] (typing console) := by
  unfold Fits
  decide +kernel

theorem undoes_iff_console :
    ∃ s', Run.exec (feed (fun _ => false) (conWrite Console.vga (fun _ => false) 2))
      [some 97, none, some 98, some 21, none] (typing console) = some s' ∧
        s'.tty.secondary.content = [] := by
  have ha : Ordinary (fun _ => false) console.termios 97 :=
    ⟨97, by decide, by decide, by decide⟩
  have hb : Ordinary (fun _ => false) console.termios 98 :=
    ⟨98, by decide, by decide, by decide⟩
  obtain ⟨s', hs', hiff⟩ :=
    (undoes_iff Console.vga (fun _ => false) 1 (s := typing console) (by decide) rfl).1
      [97, 98] 21 [some 97, none, some 98, some 21] (by simpa using ⟨ha, hb⟩) (by decide)
      (by decide +kernel) fits_console rfl
  exact ⟨s', hs', hiff.mpr (Or.inl ⟨by decide, by decide⟩)⟩

def almostFull : Dev Screen := typing { console with secondary := ⟨1022, 0, fun _ => 97⟩ }

theorem not_undone :
    ∃ s', Run.exec (feed (fun _ => false) (conWrite Console.vga (fun _ => false) 1))
      [some 98, some 127, none] almostFull = some s' ∧
        s'.tty.secondary.content ≠ almostFull.tty.secondary.content := by
  have hfit : Fits (fun _ => false) (conWrite Console.vga (fun _ => false) 1)
      [some 98, some 127] almostFull := by
    unfold Fits
    decide +kernel
  have hsize : almostFull.tty.secondary.size = 1022 := rfl
  have hordinary : Ordinary (fun _ => false) almostFull.tty.termios 98 :=
    ⟨98, by decide, by decide, by decide⟩
  obtain ⟨s', hs', hcont⟩ := unasked_edit 0 (by decide +kernel) hfit rfl
  refine ⟨s', hs', ?_⟩
  intro he
  rw [hcont] at he
  have hcond := (edit_erase_iff (e := 127) (by decide) hordinary (by decide) _).mp he
  rw [length_content, hsize] at hcond
  rcases hcond with hfull | ⟨hlast, -⟩
  · exact absurd hfull (by decide)
  · exact hlast rfl

end

end Gpos.Tty
