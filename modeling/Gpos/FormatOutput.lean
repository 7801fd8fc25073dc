import Gpos.FormatScan

/-! What `vsprintf` writes: the outputs of the pieces one after another, with one argument for each
`*` and for each conversion that shows one. -/

namespace Gpos.Vsprintf

/-- With `n` arguments the program has an outcome. It takes these and writes behind what is
there. -/
def Writes {α : Type} (n : Nat) (x : Program Out α) : Prop :=
  ∀ o, n ≤ o.args.length → ∃ a out stores, x o = some (a, ⟨o.args.drop n, o.str ++ out, stores⟩)

section

variable {α β : Type} {m n : Nat}

theorem Writes.pure (a : α) : Writes 0 (pure a : Program Out α) :=
  fun o _ => ⟨a, [], o.stores, by rw [List.drop_zero, List.append_nil]; rfl⟩

theorem Writes.bind {x : Program Out α} {f : α → Program Out β} (hx : Writes n x)
    (hf : ∀ a, Writes m (f a)) : Writes (n + m) (x >>= f) := by
  intro o ho
  obtain ⟨a, out, stores, hrun⟩ := hx o (by omega)
  have hleft : m ≤ (o.args.drop n).length := by
    rw [List.length_drop]
    omega
  obtain ⟨b, out', stores', hrun'⟩ := hf a ⟨o.args.drop n, o.str ++ out, stores⟩ hleft
  refine ⟨b, out ++ out', stores', ?_⟩
  rw [Program.bind_of_eq hrun, hrun', List.drop_drop, List.append_assoc]

theorem Writes.ite {p : Prop} [Decidable p] {x y : Program Out α} (hx : Writes n x)
    (hy : Writes n y) : Writes n (if p then x else y) := by
  split
  · exact hx
  · exact hy

theorem Writes.vaArg : Writes 1 vaArg := by
  rintro ⟨args, str, stores⟩ ho
  cases args with
  | nil => exact absurd ho (Nat.not_succ_le_zero 0)
  | cons a args => exact ⟨a, [], stores, by rw [List.append_nil]; rfl⟩

theorem Writes.put (cs : List (BitVec 8)) : Writes 0 (put cs) := fun o _ => ⟨(), cs, o.stores, rfl⟩

theorem Writes.padWith {loop : List (BitVec 8) → List (BitVec 8) × BitVec 32}
    (h : ∀ str, ∃ out, (loop str).1 = str ++ out) : Writes 0 (padWith loop) := by
  intro o _
  obtain ⟨out, hout⟩ := h o.str
  refine ⟨(loop o.str).2, out, o.stores, ?_⟩
  rw [← hout]
  rfl

end

theorem padChar_eq (width : BitVec 32) (str : List (BitVec 8)) :
    padChar width str = (str ++ List.replicate (width - 1).toInt.toNat (chr ' '),
      if BitVec.slt 0 (width - 1) then 0 else width - 1) := by
  fun_induction padChar with
  | case1 width str h ih =>
    have hlt := zero_slt.mp h
    rw [ih, if_pos h, toInt_pred h]
    refine Prod.ext ?_ ?_
    · have hn : (width - 1).toInt.toNat = ((width - 1).toInt - 1).toNat + 1 := by omega
      rw [hn, List.replicate_succ, List.append_assoc, List.singleton_append]
    · dsimp only
      split
      · rfl
      next hnot =>
        refine BitVec.eq_of_toInt_eq ?_
        have hle := mt zero_slt.mpr hnot
        have hzero : (0 : BitVec 32).toInt = 0 := rfl
        rw [toInt_pred h] at hle ⊢
        rw [hzero]
        omega
  | case2 width str h =>
    have hle := mt zero_slt.mpr h
    rw [if_neg h, Int.toNat_of_nonpos (by omega), List.replicate_zero, List.append_nil]

theorem writes_pad (bound width : BitVec 32) (c : BitVec 8) :
    Writes 0 (padWith (pad bound c width)) :=
  Writes.padWith fun str => ⟨_, congrArg Prod.fst (pad_eq bound c width str)⟩

theorem writes_padChar (width : BitVec 32) : Writes 0 (padWith (padChar width)) :=
  Writes.padWith fun str => ⟨_, congrArg Prod.fst (padChar_eq width str)⟩

theorem writes_putNumber {base : BitVec 32} (hlo : base.slt 2 = false)
    (hhi : (36#32).slt base = false) (size precision type : BitVec 32) :
    Writes 1 (putNumber base size precision type) := by
  refine Writes.vaArg.bind (m := 0) fun num o _ => ?_
  refine ⟨(), numberText num base size precision type, o.stores, ?_⟩
  rw [number_eq o.str num size precision type hlo hhi]
  rfl

/-- The conversions that show an argument. -/
def isArgument (c : BitVec 8) : Bool := (text "csopxXdiun").contains c

section

variable (strings : BitVec 32 → List (BitVec 8))

theorem writes_char (flags fieldWidth precision : BitVec 32) :
    Writes 1 (convert strings (chr 'c') flags fieldWidth precision) := by
  rw [convert, if_pos rfl]
  extract_lets rest
  have hrest : ∀ w, Writes 1 (rest w) := fun w =>
    Writes.vaArg.bind fun a => (Writes.put [a.setWidth 8]).bind fun _ =>
      (writes_padChar w).bind fun _ => Writes.pure ()
  exact Writes.ite ((Writes.pure fieldWidth).bind hrest) ((writes_padChar fieldWidth).bind hrest)

theorem writes_string (flags fieldWidth precision : BitVec 32) :
    Writes 1 (convert strings (chr 's') flags fieldWidth precision) := by
  rw [convert, if_neg (by decide), if_pos rfl]
  refine Writes.bind (n := 1) (m := 0) (Writes.vaArg.bind fun s => Writes.pure _) fun s => ?_
  extract_lets strlen len rest
  have hrest : ∀ w, Writes 0 (rest w) := fun w =>
    (Writes.put (s.take len.toInt.toNat)).bind fun _ => (writes_pad len w (chr ' ')).bind fun _ =>
      Writes.pure ()
  exact Writes.ite ((Writes.pure fieldWidth).bind hrest)
    ((writes_pad len fieldWidth (chr ' ')).bind hrest)

theorem writes_convert (c : BitVec 8) (flags fieldWidth precision : BitVec 32) :
    Writes (isArgument c).toNat (convert strings c flags fieldWidth precision) := by
  by_cases hc : c = chr 'c'
  · rw [hc]
    exact writes_char strings flags fieldWidth precision
  by_cases hs : c = chr 's'
  · rw [hs]
    exact writes_string strings flags fieldWidth precision
  rw [convert, if_neg hc, if_neg hs]
  have hnumber : ∀ {base : BitVec 32}, base = 8 ∨ base = 10 ∨ base = 16 →
      ∀ size type, Writes 1 (putNumber base size precision type) := by
    rintro base (rfl | rfl | rfl) size type <;>
      exact writes_putNumber (by decide) (by decide) size precision type
  split
  next h => rw [h]; exact hnumber (by decide) _ _
  split
  next h => rw [h]; exact Writes.ite (hnumber (by decide) _ _) (hnumber (by decide) _ _)
  split
  next h => rw [h]; exact hnumber (by decide) _ _
  split
  next h => rw [h]; exact hnumber (by decide) _ _
  split
  next h => rcases h with h | h <;> rw [h] <;> exact hnumber (by decide) _ _
  split
  next h => rw [h]; exact hnumber (by decide) _ _
  split
  next h =>
    rw [h]
    refine Writes.vaArg.bind (m := 0) fun ip o _ =>
      ⟨(), [], o.stores ++ [(ip, BitVec.ofNat 32 o.str.length)], ?_⟩
    rw [List.drop_zero, List.append_nil]
  have hnone : isArgument c = false := by
    have htext : text "csopxXdiun" = [chr 'c', chr 's', chr 'o', chr 'p', chr 'x', chr 'X', chr 'd',
      chr 'i', chr 'u', chr 'n'] := rfl
    rw [isArgument, htext, List.contains_eq_mem, decide_eq_false_iff_not]
    simp_all only [List.mem_cons, List.not_mem_nil, or_false, not_or, not_false_eq_true]
  rw [hnone]
  extract_lets rest
  have hrest : ∀ u, Writes 0 (rest u) := fun _ => Writes.ite (Writes.put [c]) (Writes.pure ())
  exact Writes.ite ((Writes.put [chr '%']).bind hrest) (hrest ())

theorem writes_widthOf (cs : List (BitVec 8)) (flags : BitVec 32) :
    Writes (if cs = [chr '*'] then 1 else 0) (widthOf cs flags) := by
  unfold widthOf
  split
  · exact Writes.vaArg.bind fun a => Writes.pure _
  · exact Writes.pure _

theorem writes_precisionOf (cs : List (BitVec 8)) :
    Writes (if cs.tail = [chr '*'] then 1 else 0) (precisionOf cs) := by
  cases cs with
  | nil => exact Writes.pure _
  | cons c cs =>
    rw [precisionOf, List.tail_cons]
    split
    · exact Writes.vaArg.bind fun a => Writes.pure _
    · exact (Writes.pure _).bind fun a => Writes.pure _

end

/-- The arguments that a conversion takes. -/
def Conversion.needs (c : Conversion) : Nat :=
  (if c.width = [chr '*'] then 1 else 0) + ((if c.precision.tail = [chr '*'] then 1 else 0) +
    (isArgument (c.last.headD 0)).toNat)

def Piece.needs : Piece → Nat
  | literal _ => 0
  | conversion c => c.needs

/-- The arguments that a format takes. -/
def needs (f : List (BitVec 8)) : Nat := ((pieces f).map Piece.needs).sum

/-- A literal character is its own output. -/
def Copies : Piece → List (BitVec 8) → Prop
  | .literal c, out => out = [c]
  | .conversion _, _ => True

section

variable (strings : BitVec 32 → List (BitVec 8))

theorem writes_conversion (c : Conversion) : Writes c.needs (c.write strings) :=
  (writes_widthOf _ _).bind fun _ => (writes_precisionOf _).bind fun _ => writes_convert _ _ _ _ _

theorem write_copies (p : Piece) {o : Out} (ho : p.needs ≤ o.args.length) :
    ∃ out stores, Copies p out ∧
      p.write strings o = some ((), ⟨o.args.drop p.needs, o.str ++ out, stores⟩) := by
  cases p with
  | literal c => exact ⟨[c], o.stores, rfl, rfl⟩
  | conversion c =>
    obtain ⟨_, out, stores, hrun⟩ := writes_conversion strings c o ho
    exact ⟨out, stores, trivial, hrun⟩

theorem writeAll_copies (ps : List Piece) {o : Out}
    (ho : (ps.map Piece.needs).sum ≤ o.args.length) :
    ∃ outs stores, List.Forall₂ Copies ps outs ∧ writeAll strings ps o =
      some ((), ⟨o.args.drop (ps.map Piece.needs).sum, o.str ++ outs.flatten, stores⟩) := by
  induction ps generalizing o with
  | nil => exact ⟨[], o.stores, List.Forall₂.nil, by simp [writeAll]; rfl⟩
  | cons p ps ih =>
    rw [List.map_cons, List.sum_cons] at ho ⊢
    obtain ⟨out, stores, hcopy, hrun⟩ := write_copies strings p (by omega : p.needs ≤ o.args.length)
    have hleft : (ps.map Piece.needs).sum ≤ (o.args.drop p.needs).length := by
      rw [List.length_drop]
      omega
    obtain ⟨outs, stores', hcopies, hall⟩ := ih (o := ⟨o.args.drop p.needs, o.str ++ out, stores⟩) hleft
    refine ⟨out :: outs, stores', List.Forall₂.cons hcopy hcopies, ?_⟩
    rw [writeAll, Program.bind_of_eq hrun, hall, List.drop_drop, List.flatten_cons,
      List.append_assoc]

/-- The format has its conversions taken apart by `pieces`; `outs` is what each piece came to.
That there is an outcome means that no byte behind the `NUL` was read. -/
theorem vsprintf_writes {f : List (BitVec 8)} (hnul : 0 ∉ f) {args : List (BitVec 32)}
    (hargs : args.length = needs f) {rounds : Nat} (hrounds : f.length < rounds) :
    (pieces f).flatMap Piece.text = f ∧ ∃ outs p,
      List.Forall₂ Copies (pieces f) outs ∧ vsprintf f strings rounds args = some p ∧
      p.buf = outs.flatten ++ [0] ∧ p.len = BitVec.ofNat 32 outs.flatten.length ∧
      (outs.flatten.length < 2 ^ 31 → p.len.toInt = outs.flatten.length) ∧ p.args = [] := by
  refine ⟨pieces_text f, ?_⟩
  obtain ⟨outs, stores, hcopies, hrun⟩ :=
    writeAll_copies strings (pieces f) (o := ⟨args, [], []⟩) hargs.ge
  refine ⟨outs, ⟨outs.flatten ++ [0], BitVec.ofNat 32 outs.flatten.length, stores, []⟩, hcopies,
    ?_, rfl, rfl, fun hlt => ?_, rfl⟩
  · rw [vsprintf_eq strings hnul hrounds, hrun]
    have hdrop : args.drop ((pieces f).map Piece.needs).sum = [] := List.drop_of_length_le hargs.le
    rw [hdrop]
    rfl
  · rw [BitVec.toInt_eq_toNat_cond, BitVec.toNat_ofNat, Nat.mod_eq_of_lt (by omega),
      if_pos (by omega)]

end

theorem vsprintf_writes_truncated :
    (pieces (text "a%-5.*l")).flatMap Piece.text = text "a%-5.*l" ∧ ∃ outs p,
      List.Forall₂ Copies (pieces (text "a%-5.*l")) outs ∧
      vsprintf (text "a%-5.*l") (fun _ => []) 8 [3] = some p ∧
      p.buf = outs.flatten ++ [0] ∧ p.len = BitVec.ofNat 32 outs.flatten.length ∧
      (outs.flatten.length < 2 ^ 31 → p.len.toInt = outs.flatten.length) ∧ p.args = [] :=
  vsprintf_writes (fun _ => []) (by decide) (by decide +kernel) (by decide)

theorem write_wide (strings : BitVec 32 → List (BitVec 8)) (a : BitVec 32) (str : List (BitVec 8)) :
    Conversion.write strings ⟨[], text "2147483647", [], [], [chr 'c']⟩ ⟨[a], str, []⟩ =
      some ((), ⟨[], str ++ List.replicate (2 ^ 31 - 2) (chr ' ') ++ [a.setWidth 8], []⟩) := by
  have hwidth : widthOf (text "2147483647") (flagsOf [] 0) ⟨[a], str, []⟩ =
      some ((2 ^ 31 - 1, 0), ⟨[a], str, []⟩) := by
    rw [widthOf, if_neg (by decide), if_neg (by decide)]
    rfl
  have hprecision : precisionOf [] ⟨[a], str, []⟩ = some (-1, ⟨[a], str, []⟩) := rfl
  have hcount : ((2 ^ 31 - 1 : BitVec 32) - 1).toInt.toNat = 2 ^ 31 - 2 := by decide
  have hpad : padWith (padChar (2 ^ 31 - 1)) ⟨[a], str, []⟩ =
      some (0, ⟨[a], str ++ List.replicate (2 ^ 31 - 2) (chr ' '), []⟩) := by
    rw [padWith, padChar_eq, if_pos (by decide), hcount]
  have harg : ∀ s, vaArg ⟨[a], s, []⟩ = some (a, ⟨[], s, []⟩) := fun _ => rfl
  have hput : ∀ s, put [a.setWidth 8] ⟨[], s, []⟩ = some ((), ⟨[], s ++ [a.setWidth 8], []⟩) :=
    fun _ => rfl
  have hnone : ∀ s, padWith (padChar 0) ⟨[], s, []⟩ = some (-1, ⟨[], s, []⟩) := fun s => by
    rw [padWith, padChar_eq, if_neg (by decide)]
    exact congrArg (fun s => some (-1, (⟨[], s, []⟩ : Out))) (List.append_nil s)
  rw [Conversion.write, Program.bind_of_eq hwidth]
  dsimp only
  rw [Program.bind_of_eq hprecision, List.headD_cons, convert, if_pos rfl, if_neg (by decide),
    Program.bind_of_eq hpad]
  dsimp only
  rw [Program.bind_of_eq (harg _), Program.bind_of_eq (hput _), Program.bind_of_eq (hnone _),
    Program.pure_eq]

/-- More characters than an `int` can count. -/
theorem vsprintf_wide : ∃ p, vsprintf (text "%2147483647ca") (fun _ => []) 14 [65] = some p ∧
    p.buf.length = 2 ^ 31 + 1 ∧ p.len.toInt = -2 ^ 31 := by
  have hpieces : pieces (text "%2147483647ca") =
      [.conversion ⟨[], text "2147483647", [], [], [chr 'c']⟩, .literal (chr 'a')] := by
    have hread : Conversion.read (text "2147483647ca") =
        ⟨[], text "2147483647", [], [], [chr 'c']⟩ := rfl
    have hrest : (text "2147483647ca").drop
        (Conversion.read (text "2147483647ca")).text.length = [chr 'a'] := rfl
    have htext : text "%2147483647ca" = chr '%' :: text "2147483647ca" := rfl
    rw [htext, pieces, if_pos rfl, hrest, hread, pieces, if_neg (by decide), pieces]
  have hrun := write_wide (fun _ => []) 65 []
  generalize hout : [] ++ List.replicate (2 ^ 31 - 2) (chr ' ') ++ [(65 : BitVec 32).setWidth 8] =
    out at hrun
  have hlen : (out ++ [chr 'a']).length = 2 ^ 31 := by
    rw [← hout, List.length_append, List.length_append, List.nil_append, List.length_replicate,
      List.length_singleton, List.length_singleton, Nat.add_assoc, Nat.sub_add_cancel (by decide)]
  have hall : writeAll (fun _ => []) (pieces (text "%2147483647ca")) ⟨[65], [], []⟩ =
      some ((), ⟨[], out ++ [chr 'a'], []⟩) := by
    rw [hpieces, writeAll, Piece.write, Program.bind_of_eq hrun]
    rfl
  refine ⟨⟨out ++ [chr 'a'] ++ [0], BitVec.ofNat 32 (out ++ [chr 'a']).length, [], []⟩, ?_, ?_, ?_⟩
  · rw [vsprintf_eq _ (by decide) (by decide), hall]
    rfl
  · rw [List.length_append, hlen, List.length_singleton]
  · rw [hlen]
    change (BitVec.ofNat 32 (2 ^ 31)).toInt = _
    decide

end Gpos.Vsprintf
