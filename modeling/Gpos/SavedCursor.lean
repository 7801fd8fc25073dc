import Gpos.ConsoleInvariant
import Gpos.Run

/-! ESC 7 and ESC 8, and ESC [ s and ESC [ u: what is saved of the cursor, and
when it is restored. Case 1 of `con_write` tests the column where it should test
the character. -/

namespace Gpos.Console

variable {g : Geometry}

def place (s : Con) : Nat × Nat := (s.x, s.y)

def saved (s : Con) : Nat × Nat := (s.savedX, s.savedY)

/-! What leaves the saved position alone. -/

@[simp] theorem saved_gotoxy (newX newY : Nat) (s : Con) :
    saved (gotoxy g newX newY s) = saved s := by
  unfold gotoxy
  split <;> rfl

@[simp] theorem saved_scrup (s : Con) : saved (scrup g s) = saved s := by
  unfold scrup scrupOrigin
  simp only
  split_ifs <;> rfl

@[simp] theorem saved_lf (s : Con) : saved (lf g s) = saved s := by
  unfold lf
  split
  next => rfl
  next => exact saved_scrup s

@[simp] theorem saved_ri (s : Con) : saved (ri g s) = saved s := by
  unfold ri
  split <;> rfl

theorem saved_iterate {f : Con → Con} (hf : ∀ s, saved (f s) = saved s) (n : Nat) (s : Con) :
    saved (f^[n] s) = saved s := by
  induction n generalizing s with
  | zero => rfl
  | succ n ih => exact (ih (f s)).trans (hf s)

theorem saved_fromCursor {scroll : Con → Con} (hs : ∀ s, saved (scroll s) = saved s) (s : Con) :
    saved (fromCursor g scroll s) = saved s := hs { s with top := s.y, bottom := g.videoNumLines }

theorem saved_deleteChar (s : Con) : saved (deleteChar g s) = saved s := by
  unfold deleteChar
  split <;> rfl

theorem saved_csiJ (par : Nat) (s : Con) : saved (csiJ g par s) = saved s := by
  unfold csiJ
  split <;> rfl

theorem saved_csiK (par : Nat) (s : Con) : saved (csiK g par s) = saved s := by
  unfold csiK
  split
  next => split <;> rfl
  all_goals rfl

theorem saved_setRegion (s : Con) : saved (setRegion g s) = saved s := by
  unfold setRegion
  split <;> rfl

theorem saved_move (newX newY : Con → Nat) (s : Con) : saved (move g newX newY s) = saved s :=
  saved_gotoxy ..

theorem saved_ite {p : Prop} [Decidable p] {s t : Con} {σ : Nat × Nat} (hs : saved s = σ)
    (ht : saved t = σ) : saved (if p then s else t) = σ := by
  split
  next => exact hs
  next => exact ht

theorem saved_command {c : Nat} (hc : c ≠ 's'.toNat) (s : Con) :
    saved (command g c s) = saved s := by
  have hscroll : ∀ s, saved (scrdown g s) = saved s := fun _ => rfl
  have hinsert : ∀ s, saved (insertChar g s) = saved s := fun _ => rfl
  unfold command
  refine saved_ite (saved_gotoxy ..) <| saved_ite (saved_move ..) <| saved_ite (saved_move ..) <|
    saved_ite (saved_move ..) <| saved_ite (saved_move ..) <| saved_ite (saved_move ..) <|
    saved_ite (saved_move ..) <| saved_ite (saved_gotoxy ..) <| saved_ite (saved_gotoxy ..) <|
    saved_ite (saved_csiJ ..) <| saved_ite (saved_csiK ..) <| saved_ite ?_ <| saved_ite ?_ <|
      saved_ite ?_ <| saved_ite ?_ <| saved_ite rfl <| saved_ite (saved_setRegion _) ?_
  · exact saved_iterate (saved_fromCursor hscroll) _ s
  · exact saved_iterate (saved_fromCursor saved_scrup) _ s
  · exact saved_iterate saved_deleteChar _ s
  · exact saved_iterate hinsert _ s
  · rw [if_neg hc]
    exact saved_ite (saved_gotoxy ..) rfl

theorem saved_parameter {c : Nat} (hc : c ≠ 's'.toNat) (s : Con) :
    saved (parameter g c s) = saved s := by
  unfold parameter
  split
  next => rfl
  next =>
    split
    next => rfl
    next => exact saved_command hc _

theorem saved_introduce {c : Nat} (hc : c ≠ 's'.toNat) (s : Con) :
    saved (introduce g c s) = saved s := by
  unfold introduce
  simp only
  split
  next => rfl
  next => exact saved_parameter hc _

theorem saved_plain (eraseChar c : Nat) (s : Con) : saved (plain g eraseChar c s) = saved s := by
  have htab : saved (tab g s) = saved s := by
    unfold tab
    exact saved_ite (saved_lf _) rfl
  have hprint : saved (printChar g c (if g.videoNumColumns ≤ s.x then wrap g s else s)) = saved s :=
    saved_ite (saved_lf _) rfl
  have hdel : saved (del g s) = saved s := saved_ite rfl rfl
  unfold plain
  exact saved_ite hprint <| saved_ite rfl <| saved_ite (saved_lf s) <| saved_ite rfl <|
    saved_ite hdel <| saved_ite (saved_ite rfl rfl) <| saved_ite htab rfl

/-! The streams of characters. -/

section

variable (g) (eraseChar : Nat)

def step (c : Nat) (s : Con) : Option Con := some (conWriteChar g eraseChar c s)

/-- The character ends ESC 7 or a control sequence with the command s. -/
def Saves (s : Con) (c : Nat) : Prop :=
  s.state = 1 ∧ c = '7'.toNat ∨ 2 ≤ s.state ∧ s.state ≤ 4 ∧ c = 's'.toNat

/-- Case 1 comes to its last two tests. -/
def Tests (s : Con) (c : Nat) : Prop :=
  s.state = 1 ∧ c ∉ ['['.toNat, 'E'.toNat, 'M'.toNat, 'D'.toNat, 'Z'.toNat]

/-- The column passes the tests that the character should pass, or the cursor is where it was saved. -/
def Agrees (s : Con) (c : Nat) : Prop :=
  Tests s c → saved s = place s ∨ (s.x = '7'.toNat ↔ c = '7'.toNat) ∧
    (s.x = '8'.toNat ↔ c = '8'.toNat)

instance (s : Con) (c : Nat) : Decidable (Saves s c) := inferInstanceAs (Decidable (_ ∨ _))

instance (s : Con) (c : Nat) : Decidable (Tests s c) := inferInstanceAs (Decidable (_ ∧ _))

instance (s : Con) (c : Nat) : Decidable (Agrees s c) := inferInstanceAs (Decidable (_ → _))

/-- Nothing is saved, and the parser comes back to its ground state. -/
structure Between (w : List Nat) (s : Con) : Prop where
  saves : Run.Meets (step g eraseChar) (fun s c => ¬ Saves s c) w s
  ground : (conWrite g eraseChar w s).state = 0

/-- After `w` the characters of `back` take the cursor to where it was before those of `save`. -/
def Restores (save back w : List Nat) (s : Con) : Prop :=
  Between g eraseChar w (conWrite g eraseChar save s) →
    place (conWrite g eraseChar (save ++ w ++ back) s) = place s

end

def esc7 : List Nat := [27, '7'.toNat]

def esc8 : List Nat := [27, '8'.toNat]

def csiS : List Nat := [27, '['.toNat, 's'.toNat]

def csiU : List Nat := [27, '['.toNat, 'u'.toNat]

theorem conWrite_append (eraseChar : Nat) (as bs : List Nat) (s : Con) :
    conWrite g eraseChar (as ++ bs) s = conWrite g eraseChar bs (conWrite g eraseChar as s) :=
  List.foldl_append

theorem meets_append {C : Con → Nat → Prop} {eraseChar : Nat} {as bs : List Nat} {s : Con} :
    Run.Meets (step g eraseChar) C (as ++ bs) s ↔
      Run.Meets (step g eraseChar) C as s ∧ Run.Meets (step g eraseChar) C bs
        (conWrite g eraseChar as s) := by
  induction as generalizing s with
  | nil => exact ⟨fun h => ⟨trivial, h⟩, fun h => h.2⟩
  | cons a as ih =>
    have hs : step g eraseChar a s = some (conWriteChar g eraseChar a s) := rfl
    rw [List.cons_append, Run.meets_cons hs, Run.meets_cons hs, ih, and_assoc]
    rfl

theorem escape_of_tests {s : Con} {c : Nat} (h : Tests s c) : escape g c s =
    if s.x = '7'.toNat then saveCur { s with state := 0 }
    else if s.x = '8'.toNat then restoreCur g { s with state := 0 } else { s with state := 0 } := by
  have hc := h.2
  simp only [List.mem_cons, List.not_mem_nil, or_false, not_or] at hc
  obtain ⟨h1, h2, h3, h4, h5⟩ := hc
  simp only [escape, if_neg h1, if_neg h2, if_neg h3, if_neg h4, if_neg h5]

theorem saved_escape {s : Con} {c : Nat} (hstate : s.state = 1) (hc : c ≠ '7'.toNat)
    (ha : Agrees s c) : saved (escape g c s) = saved s := by
  by_cases ht : Tests s c
  · rw [escape_of_tests ht]
    split
    next hx =>
      rcases ha ht with he | ⟨h7, -⟩
      · exact he.symm
      · exact absurd (h7.mp hx) hc
    next => exact saved_ite (saved_gotoxy ..) rfl
  · have hmem : c ∈ ['['.toNat, 'E'.toNat, 'M'.toNat, 'D'.toNat, 'Z'.toNat] := by
      by_contra hn
      exact ht ⟨hstate, hn⟩
    simp only [List.mem_cons, List.not_mem_nil, or_false] at hmem
    rcases hmem with rfl | rfl | rfl | rfl | rfl
    · rfl
    · exact saved_gotoxy ..
    · exact saved_ri _
    · exact saved_lf _
    · rfl

theorem saved_conWriteChar (eraseChar : Nat) {s : Con} {c : Nat} (hs : ¬ Saves s c)
    (ha : Agrees s c) : saved (conWriteChar g eraseChar c s) = saved s := by
  have hcommand : 2 ≤ s.state → s.state ≤ 4 → c ≠ 's'.toNat :=
    fun h2 h4 hc => hs (Or.inr ⟨h2, h4, hc⟩)
  unfold conWriteChar
  split
  next => exact saved_plain eraseChar c s
  next hstate => exact saved_escape hstate (fun hc => hs (Or.inl ⟨hstate, hc⟩)) ha
  next hstate => exact saved_introduce (hcommand (by omega) (by omega)) s
  next hstate => exact saved_parameter (hcommand (by omega) (by omega)) s
  next hstate => exact saved_command (hcommand (by omega) (by omega)) _
  next => rfl

theorem saved_conWrite (eraseChar : Nat) {w : List Nat} {s : Con}
    (hs : Run.Meets (step g eraseChar) (fun s c => ¬ Saves s c) w s)
    (ha : Run.Meets (step g eraseChar) Agrees w s) :
    saved (conWrite g eraseChar w s) = saved s := by
  induction w generalizing s with
  | nil => rfl
  | cons c w ih =>
    obtain ⟨hc, hs'⟩ := hs _ rfl
    obtain ⟨hc', ha'⟩ := ha _ rfl
    exact (ih hs' ha').trans (saved_conWriteChar eraseChar hc hc')

/-! The four sequences. -/

/-- A position to which `gotoxy` goes. -/
def Within (g : Geometry) (p : Nat × Nat) : Prop := p.1 ≤ g.videoNumColumns ∧ p.2 < g.videoNumLines

theorem place_gotoxy {p : Nat × Nat} (h : Within g p) (s : Con) :
    place (gotoxy g p.1 p.2 s) = p := by
  rw [gotoxy, if_neg (by have := h.1; have := h.2; omega)]
  rfl

theorem conWriteChar_esc (eraseChar : Nat) {s : Con} (h : s.state = 0) :
    conWriteChar g eraseChar 27 s = { s with state := 1 } := by
  simp [conWriteChar, h, plain]

def positions (s : Con) : (Nat × Nat) × (Nat × Nat) := (place s, saved s)

/-- What the two last tests of case 1 do, with `v` for what they test. -/
def tested (v : Nat) (p : (Nat × Nat) × (Nat × Nat)) : (Nat × Nat) × (Nat × Nat) :=
  if v = '7'.toNat then (p.1, p.1) else if v = '8'.toNat then (p.2, p.2) else p

theorem tested_eq_iff (v c : Nat) (p : (Nat × Nat) × (Nat × Nat)) :
    tested v p = tested c p ↔ p.2 = p.1 ∨ (v = '7'.toNat ↔ c = '7'.toNat) ∧
      (v = '8'.toNat ↔ c = '8'.toNat) := by
  obtain ⟨a, b⟩ := p
  have h78 : '7'.toNat ≠ '8'.toNat := by decide
  unfold tested
  split_ifs <;> simp_all [eq_comm]

theorem positions_escape {s : Con} {c : Nat} (ht : Tests s c) (hs : Within g (saved s)) :
    positions (escape g c s) = tested s.x (positions s) := by
  rw [escape_of_tests ht]
  unfold tested
  split_ifs
  · rfl
  · exact Prod.ext (place_gotoxy hs _) (saved_gotoxy ..)
  · rfl

/-- The condition is exact for one step. -/
theorem agrees_iff {s : Con} {c : Nat} (ht : Tests s c) (hs : Within g (saved s)) :
    Agrees s c ↔ positions (escape g c s) = tested c (positions s) := by
  rw [positions_escape ht hs, tested_eq_iff]
  exact ⟨fun h => h ht, fun h _ => h⟩

theorem tested_self (v : Nat) (p : Nat × Nat) : tested v (p, p) = (p, p) := by
  unfold tested
  split_ifs <;> rfl

theorem Inv.within {s : Con} (h : Inv g s) : Within g (place s) := ⟨h.x, h.y⟩

theorem positions_second {s : Con} {c : Nat} (h : Inv g s) (ht : Tests s c) (ha : Agrees s c)
    (hs : c = '8'.toNat → Within g (saved s)) (hc : c = '7'.toNat ∨ c = '8'.toNat) :
    positions (escape g c s) = tested c (positions s) := by
  rcases ha ht with he | ⟨h7, h8⟩
  · have hp : positions s = (place s, place s) := by rw [positions, he]
    rw [positions_escape ht (he ▸ h.within), hp, tested_self, tested_self]
  · rcases hc with rfl | rfl
    · rw [escape_of_tests ht, if_pos (h7.mpr rfl)]
      rfl
    · rw [positions_escape ht (hs rfl), h8.mpr rfl]

theorem positions_esc (eraseChar : Nat) {s : Con} {c : Nat} (h : Inv g s) (h0 : s.state = 0)
    (hc : c = '7'.toNat ∨ c = '8'.toNat) (hs : c = '8'.toNat → Within g (saved s))
    (ha : Run.Meets (step g eraseChar) Agrees [27, c] s) :
    positions (conWrite g eraseChar [27, c] s) = tested c (positions s) := by
  let s₁ : Con := { s with state := 1 }
  have hesc : step g eraseChar 27 s = some s₁ := congrArg some (conWriteChar_esc eraseChar h0)
  have hw : conWrite g eraseChar [27, c] s = escape g c s₁ := by
    show conWriteChar g eraseChar c (conWriteChar g eraseChar 27 s) = _
    rw [conWriteChar_esc eraseChar h0]
    rfl
  have hagrees := (ha _ hesc).2 _ rfl
  have ht : Tests s₁ c := by
    refine ⟨rfl, ?_⟩
    rcases hc with rfl | rfl <;> decide
  rw [hw]
  exact positions_second (h.parser 1 s.par s.ques h.npar) ht hagrees.1 hs hc

theorem saved_csiS (eraseChar : Nat) {s : Con} (h0 : s.state = 0) :
    saved (conWrite g eraseChar csiS s) = place s := by
  show saved (conWriteChar g eraseChar 's'.toNat
    (conWriteChar g eraseChar '['.toNat (conWriteChar g eraseChar 27 s))) = _
  rw [conWriteChar_esc eraseChar h0]
  rfl

theorem place_csiU (eraseChar : Nat) {s : Con} (h0 : s.state = 0) (hs : Within g (saved s)) :
    place (conWrite g eraseChar csiU s) = saved s := by
  show place (conWriteChar g eraseChar 'u'.toNat
    (conWriteChar g eraseChar '['.toNat (conWriteChar g eraseChar 27 s))) = _
  rw [conWriteChar_esc eraseChar h0]
  exact place_gotoxy hs _

theorem restores_of {eraseChar : Nat} {save back w : List Nat} {s : Con} (h : Inv g s)
    (hsave : saved (conWrite g eraseChar save s) = place s)
    (ha : Run.Meets (step g eraseChar) Agrees w (conWrite g eraseChar save s))
    (hback : ∀ t, t = conWrite g eraseChar (save ++ w) s → t.state = 0 → Within g (saved t) →
      place (conWrite g eraseChar back t) = saved t) : Restores g eraseChar save back w s := by
  intro hb
  have hsaved : saved (conWrite g eraseChar (save ++ w) s) = place s := by
    rw [conWrite_append, saved_conWrite eraseChar hb.saves ha, hsave]
  rw [conWrite_append, hback _ rfl _ (hsaved ▸ h.within), hsaved]
  rw [conWrite_append]
  exact hb.ground

/-- In a run whose steps meet the condition, ESC 8 and ESC [ u take the cursor to where it was at
ESC 7 or ESC [ s, and no other sequence of two characters saves a position. -/
theorem restores_of_agrees (hg : Fits g) (eraseChar : Nat) {s : Con} (h : Inv g s)
    (h0 : s.state = 0) (w : List Nat) :
    (Run.Meets (step g eraseChar) Agrees (esc7 ++ w ++ esc8) s →
      Restores g eraseChar esc7 esc8 w s) ∧
        (Run.Meets (step g eraseChar) Agrees (csiS ++ w ++ csiU) s →
          Restores g eraseChar csiS csiU w s) ∧ ∀ c, c ≠ '7'.toNat →
            Run.Meets (step g eraseChar) Agrees [27, c] s →
              saved (conWrite g eraseChar [27, c] s) = saved s := by
  refine ⟨fun ha => ?_, fun ha => ?_, fun c hc ha => ?_⟩
  · obtain ⟨hfirst, hlast⟩ := meets_append.mp ha
    obtain ⟨hsave, hw⟩ := meets_append.mp hfirst
    refine restores_of h ?_ hw fun t ht hstate hs => ?_
    · have hp := positions_esc eraseChar h h0 (Or.inl rfl) (fun he => absurd he (by decide)) hsave
      exact congrArg Prod.snd hp
    · have hi : Inv g t := ht ▸ h.conWrite hg eraseChar _
      have hp := positions_esc eraseChar hi hstate (Or.inr rfl) (fun _ => hs) (ht ▸ hlast)
      exact congrArg Prod.fst hp
  · obtain ⟨hfirst, -⟩ := meets_append.mp ha
    obtain ⟨-, hw⟩ := meets_append.mp hfirst
    exact restores_of h (saved_csiS eraseChar h0) hw fun t _ hstate hs =>
      place_csiU eraseChar hstate hs
  · refine saved_conWrite eraseChar ?_ ha
    refine Run.Meets.cons rfl ?_ (Run.Meets.cons rfl ?_ trivial)
    · rintro (⟨h1, -⟩ | ⟨h2, -, -⟩)
      · rw [h0] at h1
        cases h1
      · rw [h0] at h2
        omega
    · rw [conWriteChar_esc eraseChar h0]
      rintro (⟨-, h7⟩ | ⟨h2, -, -⟩)
      · exact hc h7
      · exact absurd (show 2 ≤ 1 from h2) (by decide)

def column55 : Con := { blankScreen with x := 55, pos := 0xb8000 + 110 }

theorem column55_inv : Inv vga column55 := by
  have h := blankScreen_start.inv vga_fits
  exact h.column (by decide) (by decide)

end Gpos.Console
