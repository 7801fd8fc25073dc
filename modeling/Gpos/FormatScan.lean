import Gpos.NumberFormat

/-! A format as literal characters and conversions, and what `vsprintf` does as a program over
them. The scanner by position runs this program and ends at the `NUL`. -/

namespace Gpos.Vsprintf

/-- The text behind a `%`; `last` is empty when the format ends before. -/
structure Conversion where
  flags : List (BitVec 8)
  width : List (BitVec 8)
  precision : List (BitVec 8)
  qualifier : List (BitVec 8)
  last : List (BitVec 8)

def Conversion.text (c : Conversion) : List (BitVec 8) :=
  c.flags ++ c.width ++ c.precision ++ c.qualifier ++ c.last

inductive Piece
  | literal (c : BitVec 8)
  | conversion (c : Conversion)

def Piece.text : Piece → List (BitVec 8)
  | literal c => [c]
  | conversion c => chr '%' :: c.text

def isFlag (c : BitVec 8) : Bool := (flagOf c).isSome

def takeWidth (l : List (BitVec 8)) : List (BitVec 8) :=
  if l.head? = some (chr '*') then [chr '*'] else l.takeWhile isDigit

def takePrecision : List (BitVec 8) → List (BitVec 8)
  | [] => []
  | c :: l => if c = chr '.' then c :: takeWidth l else []

def takeQualifier (l : List (BitVec 8)) : List (BitVec 8) := (l.take 1).takeWhile isQualifier

def Conversion.read (l : List (BitVec 8)) : Conversion :=
  let flags := l.takeWhile isFlag
  let l := l.drop flags.length
  let width := takeWidth l
  let l := l.drop width.length
  let precision := takePrecision l
  let l := l.drop precision.length
  let qualifier := takeQualifier l
  let l := l.drop qualifier.length
  ⟨flags, width, precision, qualifier, l.take 1⟩

/-- The rounds are the characters left, at least. -/
def pieces : List (BitVec 8) → List Piece
  | [] => []
  | c :: l =>
    if c = chr '%' then
      .conversion (.read l) :: pieces (l.drop (Conversion.read l).text.length)
    else .literal c :: pieces l
termination_by l => l.length
decreasing_by
  · rw [List.length_drop, List.length_cons]
    omega
  · exact Nat.lt_succ_self _

/-! The program of the pieces. -/

def flagsOf (cs : List (BitVec 8)) (flags : BitVec 32) : BitVec 32 :=
  cs.foldl (fun flags c => flags ||| (flagOf c).getD 0) flags

def atoi (cs : List (BitVec 8)) (i : BitVec 32) : BitVec 32 :=
  cs.foldl (fun i c => i * 10 + c.signExtend 32 - (chr '0').signExtend 32) i

def widthOf (cs : List (BitVec 8)) (flags : BitVec 32) : Program Out (BitVec 32 × BitVec 32) :=
  if cs = [chr '*'] then do
    let fieldWidth ← vaArg
    return if fieldWidth.slt 0 then (-fieldWidth, flags ||| left) else (fieldWidth, flags)
  else return (if cs = [] then -1 else atoi cs 0, flags)

def precisionOf : List (BitVec 8) → Program Out (BitVec 32)
  | [] => return -1
  | _ :: cs => do
    let precision ← if cs = [chr '*'] then vaArg else pure (if cs = [] then -1 else atoi cs 0)
    return if precision.slt 0 then 0 else precision

section

variable (strings : BitVec 32 → List (BitVec 8))

def Conversion.write (c : Conversion) : Program Out Unit := do
  let (fieldWidth, flags) ← widthOf c.width (flagsOf c.flags 0)
  let precision ← precisionOf c.precision
  convert strings (c.last.headD 0) flags fieldWidth precision

def Piece.write : Piece → Program Out Unit
  | literal c => put [c]
  | conversion c => c.write strings

def writeAll : List Piece → Program Out Unit
  | [] => return
  | p :: ps => do
    p.write strings
    writeAll ps

end

/-! Taking a piece off. -/

theorem append_begins {a b l : List (BitVec 8)} (ha : a <+: l) (hb : b <+: l.drop a.length) :
    a ++ b <+: l := by
  obtain ⟨s, rfl⟩ := ha
  rw [List.drop_left] at hb
  exact (List.prefix_append_right_inj a).mpr hb

theorem takeWidth_begins (l : List (BitVec 8)) : takeWidth l <+: l := by
  unfold takeWidth
  split
  next h =>
    obtain ⟨l, rfl⟩ := List.head?_eq_some_iff.mp h
    exact List.prefix_append [_] l
  next => exact List.takeWhile_prefix _

theorem takePrecision_begins (l : List (BitVec 8)) : takePrecision l <+: l := by
  cases l with
  | nil => exact List.prefix_rfl
  | cons c l =>
    by_cases hc : c = chr '.'
    · rw [takePrecision, if_pos hc]
      exact (List.prefix_cons_inj c).mpr (takeWidth_begins l)
    · rw [takePrecision, if_neg hc]
      exact List.nil_prefix

theorem takeQualifier_begins (l : List (BitVec 8)) : takeQualifier l <+: l :=
  (List.takeWhile_prefix _).trans (List.take_prefix 1 l)

theorem read_begins (l : List (BitVec 8)) : (Conversion.read l).text <+: l := by
  have hflags : l.takeWhile isFlag <+: l := List.takeWhile_prefix _
  have hwidth := append_begins hflags (takeWidth_begins _)
  have hprecision := append_begins hwidth (takePrecision_begins _)
  have hqualifier := append_begins hprecision (takeQualifier_begins _)
  have hlast := append_begins hqualifier (List.take_prefix 1 _)
  simp only [List.length_append, ← List.drop_drop] at hlast
  exact hlast

theorem pieces_text (l : List (BitVec 8)) : (pieces l).flatMap Piece.text = l := by
  fun_induction pieces with
  | case1 => rfl
  | case2 l ih =>
    rw [List.flatMap_cons, ih]
    exact congrArg (chr '%' :: ·) (List.prefix_iff_eq_append.mp (read_begins l))
  | case3 c l hc ih =>
    rw [List.flatMap_cons, ih]
    rfl

/-! From position `i` a program on the whole state does what one without the format does, and it
comes to position `j`. -/

def Moves {α : Type} (i j : Nat) (x : Program St α) (y : Program Out α) : Prop :=
  ∀ o, x ⟨i, o⟩ = (y o).map fun r => (r.1, ⟨j, r.2⟩)

section

variable {α β : Type} {i j k : Nat}

theorem Moves.pure (a : α) : Moves i i (pure a) (pure a) := fun _ => rfl

theorem Moves.liftOut (x : Program Out α) : Moves i i (liftOut x) x := fun _ => rfl

theorem Moves.next : Moves i (i + 1) next (Pure.pure ()) := fun _ => rfl

theorem Moves.back : Moves (i + 1) i back (Pure.pure ()) := fun _ => rfl

theorem Moves.bind {x : Program St α} {y : Program Out α} {g : α → Program St β}
    {h : α → Program Out β} (hx : Moves i j x y) (hg : ∀ a, Moves j k (g a) (h a)) :
    Moves i k (x >>= g) (y >>= h) := by
  intro o
  rw [Program.bind_eq, Program.bind_eq, hx o]
  cases y o with
  | none => rfl
  | some r => exact hg r.1 r.2

/-- A part that only moves. -/
theorem Moves.step {x : Program St α} {a : α} {g : α → Program St β} {y : Program Out β}
    (hx : Moves i j x (Pure.pure a)) (hg : Moves j k (g a) y) : Moves i k (x >>= g) y := by
  intro o
  have ho : x ⟨i, o⟩ = some (a, ⟨j, o⟩) := hx o
  rw [Program.bind_of_eq ho]
  exact hg o

theorem Moves.andThen {x g : Program St Unit} {y : Program Out Unit} (hx : Moves i j x y)
    (hg : Moves j k g (Pure.pure ())) : Moves i k (x >>= fun _ => g) y := by
  intro o
  rw [Program.bind_eq, hx o]
  cases y o with
  | none => rfl
  | some r => exact hg r.2

theorem Moves.congr {x : Program St α} {y : Program Out α} {j' : Nat} (h : Moves i j x y)
    (hj : j = j') : Moves i j' x y := hj ▸ h

end

/-- `l` is what the format has from position `i` on. -/
structure At (f : List (BitVec 8)) (i : Nat) (l : List (BitVec 8)) : Prop where
  le : i ≤ f.length
  drop : f.drop i = l

section

variable {f l : List (BitVec 8)} {i : Nat}

theorem At.skip {a : List (BitVec 8)} (h : At f i l) (ha : a <+: l) :
    At f (i + a.length) (l.drop a.length) := by
  have hlen := congrArg List.length h.drop
  have hle := ha.length_le
  rw [List.length_drop] at hlen
  have := h.le
  exact ⟨by omega, by rw [← List.drop_drop, h.drop]⟩

theorem At.next {c : BitVec 8} (h : At f i (c :: l)) : At f (i + 1) l :=
  h.skip (List.prefix_append [c] l)

theorem At.peek (h : At f i l) : Moves i i (peek f) (Pure.pure (l.headD 0)) := by
  intro o
  obtain ⟨hle, rfl⟩ := h
  rcases Nat.lt_or_eq_of_le hle with hlt | rfl
  · rw [List.drop_eq_getElem_cons hlt]
    exact dif_pos hlt
  · rw [List.drop_length]
    exact (dif_neg (Nat.lt_irrefl _)).trans (if_pos rfl)

theorem skipAtoi_moves {rounds : Nat} (h : At f i l) (hr : l.length < rounds) (v : BitVec 32) :
    Moves i (i + (l.takeWhile isDigit).length) (skipAtoi f rounds v)
      (pure (atoi (l.takeWhile isDigit) v)) := by
  induction rounds generalizing i l v with
  | zero => omega
  | succ rounds ih =>
    rw [skipAtoi]
    refine h.peek.step ?_
    cases l with
    | nil => exact Moves.pure v
    | cons c l =>
      rw [List.length_cons] at hr
      by_cases hc : isDigit c
      · rw [List.takeWhile_cons_of_pos hc, List.headD_cons, if_pos hc]
        refine Moves.next.step ((ih h.next (by omega) _).congr ?_)
        rw [List.length_cons]
        omega
      · rw [List.takeWhile_cons_of_neg hc, List.headD_cons, if_neg hc]
        exact Moves.pure v

theorem scanFlags_moves {rounds : Nat} (h : At f (i + 1) l) (hr : l.length < rounds)
    (flags : BitVec 32) :
    Moves i (i + 1 + (l.takeWhile isFlag).length) (scanFlags f rounds flags)
      (pure (flagsOf (l.takeWhile isFlag) flags)) := by
  induction rounds generalizing i l flags with
  | zero => omega
  | succ rounds ih =>
    rw [scanFlags]
    refine Moves.next.step (h.peek.step ?_)
    cases l with
    | nil => exact Moves.pure flags
    | cons c l =>
      rw [List.length_cons] at hr
      rw [List.headD_cons]
      cases hc : flagOf c with
      | none =>
        have hflag : ¬ isFlag c = true := by rw [isFlag, hc]; decide
        rw [List.takeWhile_cons_of_neg hflag]
        exact Moves.pure flags
      | some flag =>
        have hflag : isFlag c = true := by rw [isFlag, hc]; rfl
        have hvalue : flags ||| flag = flags ||| (flagOf c).getD 0 := by rw [hc]; rfl
        rw [List.takeWhile_cons_of_pos hflag, flagsOf, List.foldl_cons, ← hvalue]
        refine (ih h.next (by omega) _).congr ?_
        rw [List.length_cons]
        omega

/-! The three forms of a width. -/

theorem takeWidth_digits (hd : isDigit (l.headD 0)) :
    takeWidth l = l.takeWhile isDigit ∧ takeWidth l ≠ [chr '*'] ∧ takeWidth l ≠ [] := by
  cases l with
  | nil => exact absurd hd (by decide)
  | cons c l =>
    rw [List.headD_cons] at hd
    have hstar : c ≠ chr '*' := fun he => absurd (he ▸ hd) (by decide)
    rw [takeWidth, List.head?_cons, if_neg fun he => hstar (Option.some_inj.mp he),
      List.takeWhile_cons_of_pos hd]
    exact ⟨rfl, fun he => hstar (List.cons.inj he).1, List.cons_ne_nil _ _⟩

theorem takeWidth_star (hstar : l.headD 0 = chr '*') : takeWidth l = [chr '*'] := by
  cases l with
  | nil => exact absurd hstar (by decide)
  | cons c l => exact if_pos (congrArg some hstar)

theorem takeWidth_nil (hd : ¬ isDigit (l.headD 0)) (hstar : l.headD 0 ≠ chr '*') :
    takeWidth l = [] := by
  cases l with
  | nil => rfl
  | cons c l =>
    rw [List.headD_cons] at hd hstar
    rw [takeWidth, List.head?_cons, if_neg fun he => hstar (Option.some_inj.mp he),
      List.takeWhile_cons_of_neg hd]

theorem scanWidth_moves {rounds : Nat} (h : At f i l) (hr : l.length < rounds)
    (flags : BitVec 32) :
    Moves i (i + (takeWidth l).length) (scanWidth f rounds flags) (widthOf (takeWidth l) flags) := by
  unfold scanWidth widthOf
  refine h.peek.step ?_
  by_cases hd : isDigit (l.headD 0)
  · obtain ⟨he, hstar, hnil⟩ := takeWidth_digits hd
    rw [if_pos hd, if_neg hstar, if_neg hnil, he]
    exact (skipAtoi_moves h hr 0).step (Moves.pure _)
  by_cases hstar : l.headD 0 = chr '*'
  · rw [if_neg hd, if_pos hstar, takeWidth_star hstar, if_pos rfl]
    exact Moves.next.step ((Moves.liftOut vaArg).bind fun a => Moves.pure _)
  · rw [if_neg hd, if_neg hstar, takeWidth_nil hd hstar]
    exact Moves.pure _

theorem scanPrecision_moves {rounds : Nat} (h : At f i l) (hr : l.length < rounds) :
    Moves i (i + (takePrecision l).length) (scanPrecision f rounds)
      (precisionOf (takePrecision l)) := by
  unfold scanPrecision
  refine h.peek.step ?_
  cases l with
  | nil => exact Moves.pure _
  | cons c l =>
    rw [List.length_cons] at hr
    by_cases hc : c = chr '.'
    · rw [List.headD_cons, if_pos hc, takePrecision, if_pos hc, precisionOf]
      refine Moves.next.step (h.next.peek.step ?_)
      by_cases hd : isDigit (l.headD 0)
      · obtain ⟨he, hstar, hnil⟩ := takeWidth_digits hd
        rw [if_pos hd, if_neg hstar, if_neg hnil, he]
        refine Moves.bind (Moves.congr (skipAtoi_moves h.next (by omega) 0) ?_) fun a => Moves.pure _
        rw [List.length_cons]
        omega
      by_cases hstar : l.headD 0 = chr '*'
      · rw [if_neg hd, if_pos hstar, takeWidth_star hstar, if_pos rfl]
        exact Moves.next.step ((Moves.liftOut vaArg).bind fun a => Moves.pure _)
      · rw [if_neg hd, if_neg hstar, takeWidth_nil hd hstar]
        exact Moves.bind (Moves.pure _) fun a => Moves.pure _
    · rw [List.headD_cons, if_neg hc, takePrecision, if_neg hc]
      exact Moves.pure _

theorem scanQualifier_moves (h : At f i l) :
    Moves i (i + (takeQualifier l).length) (scanQualifier f) (pure ()) := by
  unfold scanQualifier
  refine h.peek.step ?_
  cases l with
  | nil => exact Moves.pure ()
  | cons c l =>
    rw [List.headD_cons, takeQualifier, List.take_succ_cons, List.take_zero]
    by_cases hc : isQualifier c
    · rw [if_pos hc, List.takeWhile_cons_of_pos hc]
      exact Moves.next
    · rw [if_neg hc, List.takeWhile_cons_of_neg hc]
      exact Moves.pure ()

variable (strings : BitVec 32 → List (BitVec 8))

theorem At.headD_ne {c : BitVec 8} (h : At f i (c :: l)) (hnul : 0 ∉ f) : c ≠ 0 := by
  rintro rfl
  exact hnul (List.mem_of_mem_drop (h.drop ▸ List.mem_cons_self))

/-- `fmt` stays at the last character, or it goes back from the `NUL`. -/
theorem last_moves (h : At f (i + 1) l) (hnul : 0 ∉ f) (y : Program Out Unit) :
    Moves (i + 1) (i + (l.take 1).length)
      (do
        liftOut y
        if l.headD 0 = 0 then back) y := by
  cases l with
  | nil => exact (Moves.liftOut y).andThen Moves.back
  | cons c l =>
    rw [List.headD_cons, if_neg (h.headD_ne hnul), List.take_succ_cons, List.take_zero]
    exact (Moves.liftOut y).andThen (Moves.pure ())

theorem conversion_moves {rounds : Nat} (h : At f (i + 1) l) (hnul : 0 ∉ f)
    (hr : l.length < rounds) :
    Moves i (i + (Conversion.read l).text.length) (conversion f strings rounds)
      ((Conversion.read l).write strings) := by
  unfold conversion Conversion.write Conversion.read
  extract_lets flags l₁ width l₂ precision l₃ qualifier l₄
  have h₁ : At f (i + 1 + flags.length) l₁ := h.skip (List.takeWhile_prefix isFlag)
  have h₂ : At f (i + 1 + flags.length + width.length) l₂ := h₁.skip (takeWidth_begins l₁)
  have h₃ : At f (i + 1 + flags.length + width.length + precision.length) l₃ :=
    h₂.skip (takePrecision_begins l₂)
  have h₄ : At f (i + 1 + flags.length + width.length + precision.length + qualifier.length) l₄ :=
    h₃.skip (takeQualifier_begins l₃)
  have hr₁ : l₁.length ≤ l.length := (List.drop_sublist flags.length l).length_le
  have hr₂ : l₂.length ≤ l₁.length := (List.drop_sublist width.length l₁).length_le
  refine (scanFlags_moves h hr 0).step ?_
  refine (scanWidth_moves h₁ (hr₁.trans_lt hr) _).bind fun a => ?_
  refine (scanPrecision_moves h₂ ((hr₂.trans hr₁).trans_lt hr)).bind fun p => ?_
  refine (scanQualifier_moves h₃).step (h₄.peek.step ?_)
  have hstart : i + 1 + flags.length + width.length + precision.length + qualifier.length =
      i + flags.length + width.length + precision.length + qualifier.length + 1 := by omega
  rw [hstart] at h₄ ⊢
  have hhead : (l₄.take 1).headD 0 = l₄.headD 0 := by
    cases l₄ <;> rfl
  clear_value l₄
  dsimp only
  rw [hhead]
  refine (last_moves h₄ hnul _).congr ?_
  simp only [Conversion.text, List.length_append]
  omega

theorem scanLoop_moves {rounds : Nat} (h : At f i l) (hnul : 0 ∉ f) (hr : l.length < rounds) :
    Moves i f.length (scanLoop f strings rounds) (writeAll strings (pieces l)) := by
  induction rounds generalizing i l with
  | zero => omega
  | succ rounds ih =>
    rw [scanLoop]
    refine h.peek.step ?_
    cases l with
    | nil =>
      have hend : i = f.length := by
        have := congrArg List.length h.drop
        rw [List.length_drop, List.length_nil] at this
        have := h.le
        omega
      rw [hend, pieces]
      exact Moves.pure ()
    | cons c l =>
      rw [List.length_cons] at hr
      rw [List.headD_cons, if_neg (h.headD_ne hnul), pieces]
      by_cases hc : c = chr '%'
      · rw [if_neg (not_not_intro hc), if_pos hc, writeAll]
        refine (conversion_moves strings h.next hnul (by omega)).bind fun _ => Moves.next.step ?_
        have hskip := h.next.skip (read_begins l)
        refine ih ?_ ?_
        · rw [show i + (Conversion.read l).text.length + 1 =
            i + 1 + (Conversion.read l).text.length by omega]
          exact hskip
        · rw [List.length_drop]
          omega
      · rw [if_pos hc, if_neg hc, writeAll]
        exact (Moves.liftOut (put [c])).bind fun _ => Moves.next.step (ih h.next (by omega))

theorem vsprintf_eq {rounds : Nat} (hnul : 0 ∉ f) (hr : f.length < rounds)
    (args : List (BitVec 32)) :
    vsprintf f strings rounds args =
      (writeAll strings (pieces f) ⟨args, [], []⟩).map fun r =>
        ⟨r.2.str ++ [0], BitVec.ofNat 32 r.2.str.length, r.2.stores, r.2.args⟩ := by
  have hat : At f 0 f := ⟨Nat.zero_le _, rfl⟩
  rw [vsprintf, scanLoop_moves strings hat hnul hr, Option.map_map]
  rfl

end

end Gpos.Vsprintf
