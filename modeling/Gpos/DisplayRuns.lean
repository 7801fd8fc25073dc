import Gpos.Display

/-! What the memory of the display shows after every stream of characters is what the actions of the
parser make of the display. -/

namespace Gpos.Console

open Grid

section

variable (g : Geometry)

theorem movl_mem (o a b k : Nat) (m : Ram) :
    (movl g (o + 2 * a) (o + 2 * b) m).mem (o + 2 * k) =
      if k = a + 1 then m.mem (o + 2 * (b + 1)) else if k = a then m.mem (o + 2 * b)
      else m.mem (o + 2 * k) := by
  rw [movl, show o + 2 * a + 2 = o + 2 * (a + 1) by omega, poke_mem, poke_mem]
  rfl

/-- Words that are moved to higher addresses, the last ones first, are not overwritten before they
are read. -/
theorem movslDown_mem {c a b : Nat} (o k : Nat) (hba : b ≤ a) (hb : 2 * c ≤ b + 2) (m : Ram) :
    (movslDown g c (o + 2 * a) (o + 2 * b) m).mem (o + 2 * k) =
      if k < a + 2 ∧ a + 2 ≤ k + 2 * c then m.mem (o + 2 * (k - (a - b)))
      else m.mem (o + 2 * k) := by
  induction c generalizing a b m with
  | zero => rw [movslDown, if_neg (by omega)]
  | succ c ih =>
    have hfirst : (movl g (o + 2 * a) (o + 2 * b) m).mem (o + 2 * k) =
        if k < a + 2 ∧ a ≤ k then m.mem (o + 2 * (k - (a - b))) else m.mem (o + 2 * k) := by
      rw [movl_mem]
      by_cases h1 : k = a + 1
      · rw [if_pos h1, if_pos (by omega), show k - (a - b) = b + 1 by omega]
      · by_cases h2 : k = a
        · rw [if_neg h1, if_pos h2, if_pos (by omega), show k - (a - b) = b by omega]
        · rw [if_neg h1, if_neg h2, if_neg (by omega)]
    rw [movslDown]
    cases c with
    | zero =>
      rw [movslDown, hfirst]
      exact if_congr (by omega) rfl rfl
    | succ c =>
      obtain ⟨a, rfl⟩ : ∃ j, a = j + 2 := ⟨a - 2, by omega⟩
      obtain ⟨b, rfl⟩ : ∃ j, b = j + 2 := ⟨b - 2, by omega⟩
      rw [show o + 2 * (a + 2) - 4 = o + 2 * a by omega,
        show o + 2 * (b + 2) - 4 = o + 2 * b by omega, ih (by omega) (by omega), hfirst]
      by_cases hin : k < a + 2 ∧ a + 2 ≤ k + 2 * (c + 1)
      · rw [if_pos hin, if_pos (by omega), movl_mem, if_neg (by omega), if_neg (by omega),
          show a + 2 - (b + 2) = a - b by omega]
      · rw [if_neg hin]
        exact if_congr (by omega) rfl rfl

/-- The cells up to `a` are filled from the last one on. -/
theorem stoswDown_mem {c a : Nat} (o k : Nat) (ha : c ≤ a + 1) (m : Ram) :
    (stoswDown g c (o + 2 * a) m).mem (o + 2 * k) = if k ≤ a ∧ a < k + c then videoEraseChar
      else m.mem (o + 2 * k) := by
  induction c generalizing a m with
  | zero => rw [stoswDown, if_neg (by omega)]
  | succ c ih =>
    rw [stoswDown]
    cases a with
    | zero =>
      obtain rfl : c = 0 := by omega
      rw [stoswDown, poke_mem]
      exact if_congr (by omega) rfl rfl
    | succ a =>
      rw [show o + 2 * (a + 1) - 2 = o + 2 * a by omega, ih (by omega), poke_mem]
      split_ifs <;> first | rfl | omega

theorem insertLoop_mem (c o a k : Nat) (old : BitVec 16) (m : Ram) :
    (insertLoop g c (o + 2 * a) old m).mem (o + 2 * k) =
      if a ≤ k ∧ k < a + c then if k = a then old else m.mem (o + 2 * (k - 1))
      else m.mem (o + 2 * k) := by
  induction c generalizing a old m with
  | zero => rw [insertLoop, if_neg (by omega)]
  | succ c ih =>
    rw [insertLoop, show o + 2 * a + 2 = o + 2 * (a + 1) by omega, ih, poke_mem, poke_mem]
    by_cases h1 : k = a
    · rw [if_neg (by omega), if_pos h1, if_pos (by omega), if_pos h1]
    · by_cases hin : a ≤ k ∧ k < a + (c + 1)
      · rw [if_pos (by omega), if_pos hin, if_neg h1]
        by_cases h2 : k = a + 1
        · rw [if_pos h2, show k - 1 = a by omega]
        · rw [if_neg h2, if_neg (by omega)]
      · rw [if_neg (by omega), if_neg h1, if_neg hin]

theorem deleteLoop_mem (c o a k : Nat) (m : Ram) :
    (deleteLoop g c (o + 2 * a) m).mem (o + 2 * k) =
      if a ≤ k ∧ k ≤ a + c then if k = a + c then videoEraseChar else m.mem (o + 2 * (k + 1))
      else m.mem (o + 2 * k) := by
  induction c generalizing a m with
  | zero =>
    rw [deleteLoop, poke_mem]
    split_ifs <;> first | rfl | omega
  | succ c ih =>
    rw [deleteLoop, show o + 2 * a + 2 = o + 2 * (a + 1) by omega, ih, poke_mem, poke_mem]
    by_cases h1 : k = a
    · rw [if_neg (by omega), if_pos h1, if_pos (by omega), if_neg (by omega), h1]
    · by_cases hin : a ≤ k ∧ k ≤ a + (c + 1)
      · rw [if_pos (by omega), if_pos hin, if_neg (by omega : ¬ k + 1 = a)]
        exact if_congr (by omega) rfl rfl
      · rw [if_neg (by omega), if_neg h1, if_neg hin]

end

/-! The console and the display -/

def Con.parser (s : Con) : Parser := ⟨s.state, s.npar, s.par, s.ques⟩

def Con.frame (s : Con) : Frame := ⟨s.x, s.y, s.top, s.bottom, s.attr, s.savedX, s.savedY⟩

def picture (g : Geometry) (s : Con) (y x : Nat) : BitVec 16 := cell s (y * g.videoNumColumns + x)

/-- The cells of the display that are not on the screen do not matter. -/
structure Shows (g : Geometry) (s : Con) (p : Parser) (d : Display) : Prop where
  inv : Inv g s
  parser : s.parser = p
  frame : s.frame = d.toFrame
  screen : ∀ y x, y < g.videoNumLines → x < g.videoNumColumns → picture g s y x = d.screen y x

variable {g : Geometry} {s u : Con} {p : Parser} {f f' : Nat → Nat → BitVec 16}

theorem index_lt_cells {y x : Nat} (hy : y < g.videoNumLines) (hx : x < g.videoNumColumns) :
    y * g.videoNumColumns + x < cells g :=
  (index_lt_line hx _).mpr hy

/-- The cursor or the parser changes. -/
theorem Shows.keep (h : Shows g s p ⟨s.frame, f⟩) (hi : Inv g u) (ho : u.origin = s.origin)
    (hr : u.ram = s.ram) : Shows g u u.parser ⟨u.frame, f⟩ := by
  refine ⟨hi, rfl, rfl, fun y x hy hx => ?_⟩
  rw [← h.screen y x hy hx, picture, picture, cell, cell, ho, hr]

theorem Shows.ram (h : Shows g s p ⟨s.frame, f⟩) {m : Ram} (hi : Inv g { s with ram := m })
    (hm : ∀ y x, y < g.videoNumLines → x < g.videoNumColumns →
      m.mem (s.origin + 2 * (y * g.videoNumColumns + x)) = f' y x) :
    Shows g { s with ram := m } p ⟨s.frame, f'⟩ :=
  ⟨hi, h.parser, rfl, hm⟩

theorem Shows.ite {c : Prop} [Decidable c] {d d' : Display} (h : Shows g s p d)
    (h' : Shows g u p d') : Shows g (if c then s else u) p (if c then d else d') := by
  split
  · exact h
  · exact h'

theorem Shows.iterate {c : Con → Con}
    {e : Frame → (Nat → Nat → BitVec 16) → Nat → Nat → BitVec 16}
    (hstep : ∀ s f, Shows g s p ⟨s.frame, f⟩ → Shows g (c s) p ⟨s.frame, e s.frame f⟩) (n : Nat)
    {fr : Frame} (h : Shows g s p ⟨fr, f⟩) : Shows g (c^[n] s) p ⟨fr, (e fr)^[n] f⟩ := by
  induction n generalizing s f with
  | zero => exact h
  | succ n ih =>
    obtain rfl : s.frame = fr := h.frame
    exact ih (hstep s f h)

/-! The parts of the console that write to the memory. -/

/-- A line that is scrolled up, in terms of lines and columns. -/
theorem scrolled_eq {t b : Nat} (htb : t < b) (hb : b ≤ g.videoNumLines)
    (hf : ∀ y x, y < g.videoNumLines → x < g.videoNumColumns → picture g s y x = f y x) {y x : Nat}
    (hy : y < g.videoNumLines) (hx : x < g.videoNumColumns) :
      scrolled g.videoNumColumns t b (cell s) (y * g.videoNumColumns + x) =
        shiftUp videoEraseChar t b 1 f y x := by
  obtain ⟨k, rfl⟩ : ∃ k, b = k + 1 := ⟨b - 1, by omega⟩
  have hrows := region_rows htb g.videoNumColumns
  have hend : t * g.videoNumColumns + (k + 1 - t - 1) * g.videoNumColumns =
      k * g.videoNumColumns := by
    rw [Nat.succ_mul, Nat.mul_comm g.videoNumColumns t] at hrows
    omega
  have htop := index_lt_line (y := y) hx t
  have hlast := index_lt_line (y := y) hx k
  have hbottom := index_lt_line (y := y) hx (k + 1)
  have hnext : y * g.videoNumColumns + x + g.videoNumColumns =
      (y + 1) * g.videoNumColumns + x := by
    rw [Nat.succ_mul]
    omega
  rw [Nat.succ_mul] at hbottom
  rw [scrolled, hend, hnext, shiftUp]
  by_cases hin : t ≤ y ∧ y < k + 1
  · by_cases hk : y + 1 < k + 1
    · rw [if_pos (by omega), if_pos hin, if_pos hk]
      exact hf _ _ (by omega) hx
    · rw [if_neg (by omega), if_pos (by omega), if_pos hin, if_neg hk]
  · rw [if_neg (by omega), if_neg (by omega), if_neg hin]
    exact hf y x hy hx

theorem scrup_shows (hg : Fits g) (h : Shows g s p ⟨s.frame, f⟩) :
    Shows g (scrup g s) p ⟨s.frame, shiftUp videoEraseChar s.top s.bottom 1 f⟩ := by
  have hc := @scrup_cursor g s
  refine ⟨h.inv.scrup hg, ?_, ?_, fun y x hy hx => ?_⟩
  · rw [← h.parser, Con.parser, Con.parser, hc]
  · rw [Con.frame, Con.frame, hc]
  · rw [picture, scrup_cell hg h.inv (index_lt_cells hy hx)]
    exact scrolled_eq h.inv.region h.inv.bottom h.screen hy hx

theorem scrdown_cell (hg : Fits g) {t b k : Nat} (htb : t < b) :
    cell (scrdown g { s with top := t, bottom := b }) k =
      if t * g.videoNumColumns ≤ k ∧ k < b * g.videoNumColumns then
        if k < t * g.videoNumColumns + g.videoNumColumns then videoEraseChar
        else cell s (k - g.videoNumColumns)
      else cell s k := by
  obtain ⟨l, rfl⟩ : ∃ l, b = l + 1 := ⟨b - 1, by omega⟩
  have hcount := hg.count_cells (l + 1 - t - 1)
  have hrows := region_rows htb g.videoNumColumns
  have hsize : ∀ n, g.videoSizeRow * n = 2 * (n * g.videoNumColumns) := fun n => by
    rw [Geometry.videoSizeRow]
    ring
  have hlast : (l + 1) * g.videoNumColumns = l * g.videoNumColumns + g.videoNumColumns :=
    Nat.succ_mul _ _
  have hcols := hg.columns
  rw [Nat.mul_comm g.videoNumColumns t, hlast] at hrows
  simp only [scrdown, cell, hsize, Nat.add_sub_cancel, hlast]
  generalize hn : (l + 1 - t - 1) * g.videoNumColumns / 2 = n at hcount
  rw [show s.origin + 2 * (l * g.videoNumColumns + g.videoNumColumns) - 4 - 4 * n + 2 =
      s.origin + 2 * (t * g.videoNumColumns + g.videoNumColumns - 1) by omega,
    stoswDown_mem _ _ _ (by omega)]
  cases n with
  | zero =>
    rw [movslDown]
    split_ifs <;> first | rfl | omega
  | succ n =>
    rw [show s.origin + 2 * (l * g.videoNumColumns + g.videoNumColumns) - 4 =
        s.origin + 2 * (l * g.videoNumColumns + g.videoNumColumns - 2) by omega,
      show s.origin + 2 * (l * g.videoNumColumns) - 4 =
        s.origin + 2 * (l * g.videoNumColumns - 2) by omega,
      movslDown_mem _ _ _ (by omega) (by omega),
      show l * g.videoNumColumns + g.videoNumColumns - 2 - (l * g.videoNumColumns - 2) =
        g.videoNumColumns by omega]
    split_ifs <;> first | rfl | omega

theorem scrdown_shows (hg : Fits g) (h : Shows g s p ⟨s.frame, f⟩) :
    Shows g (scrdown g s) p ⟨s.frame, shiftDown videoEraseChar s.top s.bottom 1 f⟩ := by
  refine ⟨h.inv.scrdown hg, h.parser, rfl, fun y x hy hx => ?_⟩
  have hbottom := h.inv.bottom
  have htop := index_lt_line (y := y) hx s.top
  have hline := index_lt_line (y := y) hx s.bottom
  have hnext := index_lt_line (y := y) hx (s.top + 1)
  rw [Nat.succ_mul] at hnext
  show _ = shiftDown videoEraseChar s.top s.bottom 1 f y x
  rw [picture, scrdown_cell hg h.inv.region, shiftDown]
  by_cases hin : s.top ≤ y ∧ y < s.bottom
  · rw [if_pos (by omega), if_pos hin]
    by_cases hy' : s.top + 1 ≤ y
    · obtain ⟨l, rfl⟩ : ∃ l, y = l + 1 := ⟨y - 1, by omega⟩
      have hprev : (l + 1) * g.videoNumColumns + x - g.videoNumColumns =
          l * g.videoNumColumns + x := by
        rw [Nat.succ_mul]
        omega
      rw [if_neg (by omega), if_pos hy', hprev]
      exact h.screen l x (by omega) hx
    · rw [if_pos (by omega), if_neg hy']
  · rw [if_neg (by omega), if_neg hin]
    exact h.screen y x hy hx

/-- `insert_line` and `delete_line` -/
theorem fromCursor_shows {scroll : Con → Con}
    {e : Nat → Nat → (Nat → Nat → BitVec 16) → Nat → Nat → BitVec 16}
    (hscroll : ∀ s p f, Shows g s p ⟨s.frame, f⟩ →
      Shows g (scroll s) p ⟨s.frame, e s.top s.bottom f⟩)
    (h : Shows g s p ⟨s.frame, f⟩) :
      Shows g (fromCursor g scroll s) p ⟨s.frame, e s.y g.videoNumLines f⟩ := by
  let u : Con := { s with top := s.y, bottom := g.videoNumLines }
  have hi := h.inv
  have hu : Shows g u p ⟨u.frame, f⟩ :=
    ⟨⟨hi.x, hi.y, hi.y, Nat.le_refl _, hi.npar, hi.pos, hi.scrEnd, hi.start, hi.fits, hi.aligned,
      hi.inside⟩, h.parser, rfl, h.screen⟩
  have hs := hscroll u p f hu
  have hx : (scroll u).frame = ⟨s.x, s.y, s.y, g.videoNumLines, s.attr, s.savedX, s.savedY⟩ :=
    hs.frame
  refine ⟨⟨hs.inv.x, hs.inv.y, hi.region, hi.bottom, hs.inv.npar, hs.inv.pos, hs.inv.scrEnd,
    hs.inv.start, hs.inv.fits, hs.inv.aligned, hs.inv.inside⟩, hs.parser, ?_, hs.screen⟩
  show Frame.mk (scroll u).x (scroll u).y s.top s.bottom (scroll u).attr (scroll u).savedX
    (scroll u).savedY = s.frame
  have hframe := congrArg (fun fr : Frame => { fr with top := s.top, bottom := s.bottom }) hx
  exact hframe

theorem insertChar_shows (h : Shows g s p ⟨s.frame, f⟩) :
    Shows g (insertChar g s) p
      ⟨s.frame, shiftRight videoEraseChar s.y s.x g.videoNumColumns 1 f⟩ := by
  refine h.ram h.inv.insertChar fun y x hy hx => ?_
  have hpos := h.inv.pos_eq
  have hxc := h.inv.x
  have hfrom := index_lt_iff (y := y) (l := s.y) hx hxc
  have hto := index_lt_line (y := y) hx (s.y + 1)
  have hold := h.screen y x hy hx
  rw [Nat.succ_mul] at hto
  unfold Before at hfrom
  rw [hpos, insertLoop_mem, shiftRight]
  by_cases hin : y = s.y ∧ s.x ≤ x ∧ x < g.videoNumColumns
  · rw [if_pos (by omega), if_pos hin]
    obtain ⟨rfl, hle, hlt⟩ := hin
    by_cases hx' : s.x + 1 ≤ x
    · rw [if_neg (by omega), if_pos hx',
        show s.y * g.videoNumColumns + x - 1 = s.y * g.videoNumColumns + (x - 1) by omega]
      exact h.screen s.y (x - 1) hy (by omega)
    · rw [if_pos (by omega), if_neg hx']
  · rw [if_neg (by omega), if_neg hin]
    exact hold

theorem deleteChar_shows (h : Shows g s p ⟨s.frame, f⟩) :
    Shows g (deleteChar g s) p
      ⟨s.frame, shiftLeft videoEraseChar s.y s.x g.videoNumColumns 1 f⟩ := by
  have hi := h.inv.deleteChar
  unfold deleteChar at hi ⊢
  by_cases hend : g.videoNumColumns ≤ s.x
  · rw [if_pos hend]
    refine ⟨h.inv, h.parser, rfl, fun y x hy hx => ?_⟩
    show _ = shiftLeft videoEraseChar s.y s.x g.videoNumColumns 1 f y x
    rw [shiftLeft, if_neg (by omega)]
    exact h.screen y x hy hx
  rw [if_neg hend] at hi ⊢
  refine h.ram hi fun y x hy hx => ?_
  have hpos := h.inv.pos_eq
  have hfrom := index_lt_iff (y := y) (l := s.y) hx h.inv.x
  have hto := index_lt_line (y := y) hx (s.y + 1)
  rw [Nat.succ_mul] at hto
  unfold Before at hfrom
  rw [hpos, deleteLoop_mem, shiftLeft]
  by_cases hin : y = s.y ∧ s.x ≤ x ∧ x < g.videoNumColumns
  · rw [if_pos (by omega), if_pos hin]
    obtain ⟨rfl, hle, hlt⟩ := hin
    by_cases hx' : x + 1 < g.videoNumColumns
    · rw [if_neg (by omega), if_pos hx']
      exact h.screen s.y (x + 1) hy hx'
    · rw [if_pos (by omega), if_neg hx']
  · rw [if_neg (by omega), if_neg hin]
    exact h.screen y x hy hx

/-- One cell is written. -/
theorem poke_screen (h : Shows g s p ⟨s.frame, f⟩) {y x l c : Nat} (hy : y < g.videoNumLines)
    (hx : x < g.videoNumColumns) (hc : c < g.videoNumColumns) (w : BitVec 16) :
      (poke g (s.origin + 2 * (l * g.videoNumColumns + c)) w s.ram).mem
        (s.origin + 2 * (y * g.videoNumColumns + x)) =
      fill w (fun y x => y = l ∧ x = c) f y x := by
  rw [poke_mem, fill]
  have hold := h.screen y x hy hx
  exact if_congr (index_eq_iff hx hc) rfl hold

/-- A row of cells is erased. -/
theorem stosw_screen (h : Shows g s p ⟨s.frame, f⟩) {n a y x : Nat} (hy : y < g.videoNumLines)
    (hx : x < g.videoNumColumns) {e : Nat → Nat → Prop} [∀ y x, Decidable (e y x)]
    (he : a ≤ y * g.videoNumColumns + x ∧ y * g.videoNumColumns + x < a + n ↔ e y x) :
      (stosw g n (s.origin + 2 * a) s.ram).mem (s.origin + 2 * (y * g.videoNumColumns + x)) =
        fill videoEraseChar e f y x := by
  rw [stosw_mem, fill]
  have hold := h.screen y x hy hx
  exact if_congr he rfl hold

theorem csiJ_shows (h : Shows g s p ⟨s.frame, f⟩) (par : Nat) :
    Shows g (csiJ g par s) p (Display.eraseDisplay ⟨s.frame, f⟩ par) := by
  have hi := h.inv.csiJ par
  have hpos := h.inv.pos_eq
  have hend := h.inv.scrEnd
  have hline := h.inv.line_cells
  have hxc := h.inv.x
  have hrow : g.videoNumLines * g.videoSizeRow = 2 * cells g := by
    rw [Geometry.videoSizeRow, cells]
    ring
  have hbefore := fun y x (hx : x < g.videoNumColumns) => @index_lt_iff _ y x s.y s.x hx hxc
  obtain _ | _ | _ | par := par
  · refine h.ram hi fun y x hy hx => ?_
    have hcell := index_lt_cells hy hx
    rw [hpos]
    refine stosw_screen h hy hx (.trans ?_ (hbefore y x hx).not)
    omega
  · refine h.ram hi fun y x hy hx => ?_
    refine stosw_screen (a := 0) h hy hx (.trans ?_ (hbefore y x hx))
    omega
  · refine h.ram hi fun y x hy hx => ?_
    have hcell := index_lt_cells hy hx
    refine stosw_screen (a := 0) h hy hx (iff_of_true ⟨Nat.zero_le _, ?_⟩ trivial)
    rw [Nat.zero_add, Nat.mul_comm g.videoNumColumns]
    exact hcell
  · exact h

theorem csiK_shows (h : Shows g s p ⟨s.frame, f⟩) (par : Nat) :
    Shows g (csiK g par s) p (Display.eraseLine ⟨s.frame, f⟩ par) := by
  have hi := h.inv.csiK par
  have hpos := h.inv.pos_eq
  have hxc := h.inv.x
  have hstart : s.pos - s.x * 2 = s.origin + 2 * (s.y * g.videoNumColumns) := by omega
  have hbefore := fun y x (hx : x < g.videoNumColumns) => @index_lt_iff _ y x s.y s.x hx hxc
  have hfirst := fun y x (hx : x < g.videoNumColumns) => @index_lt_line _ y x hx s.y
  have hlast := fun y x (hx : x < g.videoNumColumns) => @index_lt_line _ y x hx (s.y + 1)
  simp only [Nat.succ_mul, Before] at hbefore hlast
  obtain _ | _ | _ | par := par
  · by_cases hx : g.videoNumColumns ≤ s.x
    · have hs : csiK g 0 s = s := if_pos hx
      rw [hs]
      refine ⟨h.inv, h.parser, rfl, fun y x hy hx' => ?_⟩
      show _ = fill videoEraseChar (fun y x => y = s.y ∧ s.x ≤ x) f y x
      rw [fill, if_neg (by omega)]
      exact h.screen y x hy hx'
    · have hs : csiK g 0 s =
        { s with ram := stosw g (g.videoNumColumns - s.x) s.pos s.ram } := if_neg hx
      rw [hs] at hi ⊢
      refine h.ram hi fun y x hy hx' => ?_
      rw [hpos]
      refine stosw_screen h hy hx' ?_
      have := hbefore y x hx'
      have := hlast y x hx'
      show _ ↔ y = s.y ∧ s.x ≤ x
      omega
  · refine h.ram hi fun y x hy hx' => ?_
    rw [hstart]
    refine stosw_screen h hy hx' ?_
    have := hbefore y x hx'
    have := hfirst y x hx'
    show _ ↔ y = s.y ∧ x < s.x
    split <;> omega
  · refine h.ram hi fun y x hy hx' => ?_
    rw [hstart]
    refine stosw_screen h hy hx' ?_
    have := hfirst y x hx'
    have := hlast y x hx'
    show _ ↔ y = s.y
    omega
  · exact h

theorem gotoxy_shows (h : Shows g s p ⟨s.frame, f⟩) (x y : Nat) :
    Shows g (gotoxy g x y s) p
      (Display.goto g.videoNumColumns g.videoNumLines ⟨s.frame, f⟩ x y) := by
  have hi := h.inv.gotoxy x y
  unfold gotoxy Display.goto at *
  by_cases hout : g.videoNumColumns < x ∨ g.videoNumLines ≤ y
  · rw [if_pos hout, if_pos hout]
    exact h
  · rw [if_neg hout] at hi ⊢
    rw [if_neg hout, ← h.parser]
    exact h.keep hi rfl rfl

theorem lf_shows (hg : Fits g) (h : Shows g s p ⟨s.frame, f⟩) :
    Shows g (lf g s) p (Display.lf ⟨s.frame, f⟩) := by
  have hi := h.inv.lf hg
  unfold lf Display.lf at *
  by_cases hlt : s.y + 1 < s.bottom
  · have hlt' : s.frame.y + 1 < s.frame.bottom := hlt
    rw [if_pos hlt] at hi ⊢
    rw [if_pos hlt', ← h.parser]
    exact h.keep hi rfl rfl
  · have hlt' : ¬ s.frame.y + 1 < s.frame.bottom := hlt
    rw [if_neg hlt, if_neg hlt']
    exact scrup_shows hg h

theorem ri_shows (hg : Fits g) (h : Shows g s p ⟨s.frame, f⟩) :
    Shows g (ri g s) p (Display.ri ⟨s.frame, f⟩) := by
  have hi := h.inv.ri hg
  unfold ri Display.ri at *
  by_cases hlt : s.top < s.y
  · have hlt' : s.frame.top < s.frame.y := hlt
    rw [if_pos hlt] at hi ⊢
    rw [if_pos hlt', ← h.parser]
    exact h.keep hi rfl rfl
  · have hlt' : ¬ s.frame.top < s.frame.y := hlt
    rw [if_neg hlt, if_neg hlt']
    exact scrdown_shows hg h

theorem column_shows (h : Shows g s p ⟨s.frame, f⟩) {x pos : Nat} (hx : x ≤ g.videoNumColumns)
    (hpos : pos = s.origin + s.y * g.videoSizeRow + x * 2) :
    Shows g { s with x := x, pos := pos } p ⟨{ s.frame with x := x }, f⟩ :=
  h.parser ▸ h.keep (h.inv.column hx hpos) rfl rfl

theorem wrap_shows (hg : Fits g) (h : Shows g s p ⟨s.frame, f⟩) {x pos : Nat} (hx : x ≤ s.x + 8)
    (hlt : g.videoNumColumns ≤ x) (hpos : pos = s.origin + s.y * g.videoSizeRow + x * 2) :
    Shows g (wrap g { s with x := x, pos := pos }) p
      (Display.wrap g.videoNumColumns ⟨{ s.frame with x := x }, f⟩) := by
  have hcols := hg.columns
  have hxc := h.inv.x
  have hrow : g.videoSizeRow = g.videoNumColumns * 2 := rfl
  have hc : Shows g { s with x := x - g.videoNumColumns, pos := pos - g.videoSizeRow } p
      ⟨{ s.frame with x := x - g.videoNumColumns }, f⟩ := column_shows h (by omega) (by omega)
  exact lf_shows hg hc

theorem tab_shows (hg : Fits g) (h : Shows g s p ⟨s.frame, f⟩) :
    Shows g (tab g s) p (Display.tab g.videoNumColumns ⟨s.frame, f⟩) := by
  have hpos := h.inv.pos
  unfold tab Display.tab
  by_cases hlt : g.videoNumColumns < s.x + (8 - s.x % 8)
  · have hlt' : g.videoNumColumns < s.frame.x + (8 - s.frame.x % 8) := hlt
    simp only [if_pos hlt, if_pos hlt']
    exact wrap_shows hg h (by omega) hlt.le (by omega)
  · have hlt' : ¬ g.videoNumColumns < s.frame.x + (8 - s.frame.x % 8) := hlt
    simp only [if_neg hlt, if_neg hlt']
    exact column_shows h (Nat.not_lt.mp hlt) (by omega)

theorem printChar_shows {d : Display} (h : Shows g s p d) (hx : s.x < g.videoNumColumns)
    (c : Nat) :
    Shows g (printChar g c s) p (d.write c) := by
  obtain ⟨fr, f⟩ := d
  obtain rfl : s.frame = fr := h.frame
  refine ⟨h.inv.printChar hx c, h.parser, rfl, fun y x hy hx' => ?_⟩
  show (poke g s.pos _ s.ram).mem _ = _
  rw [h.inv.pos_eq]
  exact poke_screen h hy hx' hx _

theorem put_shows (hg : Fits g) (h : Shows g s p ⟨s.frame, f⟩) (c : Nat) :
    Shows g (printChar g c (if g.videoNumColumns ≤ s.x then wrap g s else s)) p
      (Display.put g.videoNumColumns ⟨s.frame, f⟩ c) := by
  have hcols := hg.columns
  have hxc := h.inv.x
  unfold Display.put
  by_cases hfull : g.videoNumColumns ≤ s.x
  · have hfull' : g.videoNumColumns ≤ s.frame.x := hfull
    have hw : Shows g (wrap g s) p (Display.wrap g.videoNumColumns ⟨s.frame, f⟩) :=
      wrap_shows hg h (Nat.le_add_right _ _) hfull h.inv.pos
    rw [if_pos hfull, if_pos hfull']
    refine printChar_shows hw ?_ c
    show (lf g _).x < _
    rw [lf_x]
    show s.x - g.videoNumColumns < g.videoNumColumns
    omega
  · have hfull' : ¬ g.videoNumColumns ≤ s.frame.x := hfull
    rw [if_neg hfull, if_neg hfull']
    exact printChar_shows h (Nat.not_le.mp hfull) c

theorem del_shows (h : Shows g s p ⟨s.frame, f⟩) :
    Shows g (del g s) p (Display.del ⟨s.frame, f⟩) := by
  have hi := h.inv.del
  have hpos := h.inv.pos_eq
  have hxc := h.inv.x
  unfold del Display.del at *
  by_cases hx : s.x ≠ 0
  · have hx' : ¬ s.frame.x = 0 := hx
    rw [if_pos hx] at hi ⊢
    rw [if_neg hx']
    refine ⟨hi, h.parser, rfl, fun y x hy hx'' => ?_⟩
    show (poke g (s.pos - 2) _ s.ram).mem _ = _
    rw [show s.pos - 2 = s.origin + 2 * (s.y * g.videoNumColumns + (s.x - 1)) by omega]
    exact poke_screen h hy hx'' (by omega) _
  · have hx' : s.frame.x = 0 := not_not.mp hx
    rw [if_neg hx, if_pos hx']
    exact h

/-! The parser, one state after another. -/

/-- What the parser makes of a character is done to the display. -/
def Follows (g : Geometry) (d : Display) (s : Con) (r : Parser × Action) : Prop :=
  Shows g s r.1 (r.2.act g.videoNumColumns g.videoNumLines d)

theorem Follows.ite {c : Prop} [Decidable c] {d : Display} {r r' : Parser × Action}
    (h : Follows g d s r) (h' : Follows g d u r') :
    Follows g d (if c then s else u) (if c then r else r') := by
  split
  · exact h
  · exact h'

theorem plain_follows (hg : Fits g) (h : Shows g s s.parser ⟨s.frame, f⟩) (eraseChar c : Nat) :
    Follows g ⟨s.frame, f⟩ (plain g eraseChar c s) (s.parser.plain eraseChar c) := by
  have hpos := h.inv.pos
  refine .ite (put_shows hg h c) <| .ite ?_ <| .ite (lf_shows hg h) <| .ite ?_ <|
    .ite (del_shows h) <| .ite ?_ <| .ite (tab_shows hg h) h
  · exact h.keep (h.inv.parser 1 s.par s.ques h.inv.npar) rfl rfl
  · exact column_shows h (Nat.zero_le _) (by omega)
  · have hxc := h.inv.x
    by_cases hx : s.x ≠ 0
    · rw [if_pos hx]
      exact column_shows h (by omega) (by omega)
    · rw [if_neg hx]
      have hzero : s.x - 1 = s.x := by omega
      show Shows g s s.parser ⟨{ s.frame with x := s.x - 1 }, f⟩
      rw [hzero]
      exact h

theorem restore_shows (h : Shows g s p ⟨s.frame, f⟩) :
    Shows g (restoreCur g s) p
      (Display.restore g.videoNumColumns g.videoNumLines ⟨s.frame, f⟩) :=
  gotoxy_shows h s.savedX s.savedY

theorem save_shows (h : Shows g s p ⟨s.frame, f⟩) :
    Shows g (saveCur s) p (Display.save ⟨s.frame, f⟩) :=
  h.parser ▸ h.keep h.inv.saveCur rfl rfl

theorem escape_follows (hg : Fits g) (h : Shows g s s.parser ⟨s.frame, f⟩) (c : Nat) :
    Follows g ⟨s.frame, f⟩ (escape g c s) (s.parser.escape c) := by
  have hstate : ∀ k, Shows g { s with state := k } ⟨k, s.npar, s.par, s.ques⟩ ⟨s.frame, f⟩ :=
    fun k => h.keep (h.inv.parser k s.par s.ques h.inv.npar) rfl rfl
  have h₀ := hstate 0
  refine .ite (hstate 2) <| .ite (gotoxy_shows h₀ 0 (s.y + 1)) <| .ite (ri_shows hg h₀) <|
    .ite (lf_shows hg h₀) <| .ite h₀ ?_
  exact Shows.ite (save_shows h₀) (Shows.ite (restore_shows h₀) h₀)

theorem dec_shows (h : Shows g s s.parser ⟨s.frame, f⟩) (i : Nat) :
    Shows g (decPar i s) (s.parser.dec i) ⟨s.frame, f⟩ :=
  h.keep (h.inv.decPar i) rfl rfl

theorem default_shows (h : Shows g s s.parser ⟨s.frame, f⟩) (i : Nat) (v : UInt32) :
    Shows g (defaultPar i v s) (s.parser.default i v) ⟨s.frame, f⟩ :=
  h.keep (h.inv.defaultPar i v) rfl rfl

theorem region_shows (h : Shows g s p ⟨s.frame, f⟩) :
    Shows g (setRegion g s) p
      ((Action.region (s.par 0) (s.par 1)).act g.videoNumColumns g.videoNumLines ⟨s.frame, f⟩) := by
  have hi := h.inv.setRegion
  unfold setRegion Action.act at *
  split at hi
  next hin =>
    simp only [if_pos hin]
    exact h.parser ▸ h.keep hi rfl rfl
  next hin =>
    simp only [if_neg hin]
    exact h

theorem attributes_shows (h : Shows g s s.parser ⟨s.frame, f⟩) :
    Follows g ⟨s.frame, f⟩ (csim s)
      (s.parser, .attributes ((List.range (s.npar + 1)).map s.par)) := by
  have hs := h.keep h.inv.csim rfl rfl
  have hattr : (csim s).attr =
      ((List.range (s.npar + 1)).map s.par).foldl Display.rendition s.attr := by
    rw [List.foldl_map]
    rfl
  have hframe : (⟨(csim s).frame, f⟩ : Display) =
      ⟨{ s.frame with
        attr := ((List.range (s.npar + 1)).map s.par).foldl Display.rendition s.attr }, f⟩ := by
    rw [← hattr]
    rfl
  exact (congrArg (Shows g (csim s) s.parser) hframe).mp hs

theorem insertChars_shows (h : Shows g s p ⟨s.frame, f⟩) (nr : Nat) :
    Shows g (csiAt g nr s) p (Display.insertChars g.videoNumColumns ⟨s.frame, f⟩ nr) := by
  have hs := Shows.iterate
    (e := fun fr => shiftRight videoEraseChar fr.y fr.x g.videoNumColumns 1)
    (fun s f h => insertChar_shows h) (repetitions g.videoNumColumns nr) h
  rw [shiftRight_iterate] at hs
  exact hs

theorem deleteChars_shows (h : Shows g s p ⟨s.frame, f⟩) (nr : Nat) :
    Shows g (csiP g nr s) p (Display.deleteChars g.videoNumColumns ⟨s.frame, f⟩ nr) := by
  have hs := Shows.iterate
    (e := fun fr => shiftLeft videoEraseChar fr.y fr.x g.videoNumColumns 1)
    (fun s f h => deleteChar_shows h) (repetitions g.videoNumColumns nr) h
  rw [shiftLeft_iterate] at hs
  exact hs

theorem insertLines_shows (hg : Fits g) (h : Shows g s p ⟨s.frame, f⟩) (nr : Nat) :
    Shows g (csiL g nr s) p (Display.insertLines g.videoNumLines ⟨s.frame, f⟩ nr) := by
  have hs := Shows.iterate (e := fun fr => shiftDown videoEraseChar fr.y g.videoNumLines 1)
    (fun s f h => fromCursor_shows (e := fun t b => shiftDown videoEraseChar t b 1)
      (fun s p f h => scrdown_shows hg h) h) (repetitions g.videoNumLines nr) h
  rw [shiftDown_iterate] at hs
  exact hs

theorem deleteLines_shows (hg : Fits g) (h : Shows g s p ⟨s.frame, f⟩) (nr : Nat) :
    Shows g (csiM g nr s) p (Display.deleteLines g.videoNumLines ⟨s.frame, f⟩ nr) := by
  have hs := Shows.iterate (e := fun fr => shiftUp videoEraseChar fr.y g.videoNumLines 1)
    (fun s f h => fromCursor_shows (e := fun t b => shiftUp videoEraseChar t b 1)
      (fun s p f h => scrup_shows hg h) h) (repetitions g.videoNumLines nr) h
  rw [shiftUp_iterate] at hs
  exact hs

theorem command_follows (hg : Fits g) (h : Shows g s s.parser ⟨s.frame, f⟩) (c : Nat) :
    Follows g ⟨s.frame, f⟩ (command g c s) (s.parser.command g.videoNumLines c) := by
  have hd := dec_shows h 0
  have hm := default_shows h 0 1
  have hdd := dec_shows hd 1
  have hdr := default_shows hd 1 (UInt32.ofNat g.videoNumLines)
  refine .ite (gotoxy_shows hd _ _) <| .ite (gotoxy_shows hm _ _) <| .ite (gotoxy_shows hm _ _) <|
    .ite (gotoxy_shows hm _ _) <| .ite (gotoxy_shows hm _ _) <| .ite (gotoxy_shows hm _ _) <|
    .ite (gotoxy_shows hm _ _) <| .ite (gotoxy_shows hd _ _) <| .ite (gotoxy_shows hdd _ _) <|
    .ite (csiJ_shows h _) <| .ite (csiK_shows h _) <| .ite (insertLines_shows hg h _) <|
    .ite (deleteLines_shows hg h _) <| .ite (deleteChars_shows h _) <|
    .ite (insertChars_shows h _) <| .ite (attributes_shows h) <| .ite (region_shows hdr) <|
    .ite (save_shows h) <| .ite (restore_shows h) h

theorem csi_follows (hg : Fits g) (h : Shows g s s.parser ⟨s.frame, f⟩) (c : Nat) :
    Follows g ⟨s.frame, f⟩ (csi g c s) (s.parser.csi g.videoNumLines c) := by
  have h₀ : Shows g { s with state := 0 } ⟨0, s.npar, s.par, s.ques⟩ ⟨s.frame, f⟩ :=
    h.keep (h.inv.parser 0 s.par s.ques h.inv.npar) rfl rfl
  exact command_follows hg h₀ c

theorem parameter_follows (hg : Fits g) (h : Shows g s s.parser ⟨s.frame, f⟩) (c : Nat) :
    Follows g ⟨s.frame, f⟩ (parameter g c s) (s.parser.parameter g.videoNumLines c) := by
  unfold parameter Parser.parameter
  by_cases hsep : c = ';'.toNat ∧ s.npar < nPar - 1
  · have hsep' : c = ';'.toNat ∧ s.parser.npar < nPar - 1 := hsep
    rw [if_pos hsep, if_pos hsep']
    exact h.keep (h.inv.parser s.state s.par s.ques (by have := hsep.2; omega)) rfl rfl
  · have hsep' : ¬ (c = ';'.toNat ∧ s.parser.npar < nPar - 1) := hsep
    have h₄ : Shows g { s with state := 4 } ⟨4, s.npar, s.par, s.ques⟩ ⟨s.frame, f⟩ :=
      h.keep (h.inv.parser 4 s.par s.ques h.inv.npar) rfl rfl
    rw [if_neg hsep, if_neg hsep']
    exact .ite (h.keep (h.inv.parser s.state _ s.ques h.inv.npar) rfl rfl) (csi_follows hg h₄ c)

theorem introduce_follows (hg : Fits g) (h : Shows g s s.parser ⟨s.frame, f⟩) (c : Nat) :
    Follows g ⟨s.frame, f⟩ (introduce g c s) (Parser.introduce g.videoNumLines c) := by
  have h₃ := h.keep
    (h.inv.parser 3 (fun _ => 0) (decide (c = '?'.toNat)) (show 0 < nPar by decide)) rfl rfl
  exact .ite h₃ (parameter_follows hg h₃ c)

theorem conWriteChar_follows (hg : Fits g) (h : Shows g s s.parser ⟨s.frame, f⟩)
    (eraseChar c : Nat) :
    Follows g ⟨s.frame, f⟩ (conWriteChar g eraseChar c s)
      (s.parser.next g.videoNumLines eraseChar c) := by
  have hstate : s.parser.state = s.state := rfl
  unfold conWriteChar Parser.next
  rw [hstate]
  generalize s.state = state
  obtain _ | _ | _ | _ | _ | state := state
  · exact plain_follows hg h eraseChar c
  · exact escape_follows hg h c
  · exact introduce_follows hg h c
  · exact parameter_follows hg h c
  · exact csi_follows hg h c
  · exact h

theorem conWrite_shows (hg : Fits g) {d : Display} (h : Shows g s p d) (eraseChar : Nat)
    (cs : List Nat) :
    ∃ p', Shows g (conWrite g eraseChar cs s) p'
      (perform g.videoNumColumns g.videoNumLines (decode g.videoNumLines eraseChar p cs) d) := by
  induction cs generalizing s p d with
  | nil => exact ⟨p, h⟩
  | cons c cs ih =>
    obtain ⟨fr, f⟩ := d
    obtain rfl : s.frame = fr := h.frame
    obtain rfl := h.parser
    exact ih (conWriteChar_follows hg h eraseChar c)

/-- The cursor of `t` is where the display has it and every cell of the screen is that of the
display, when the actions that the characters call for were done to the display of `s`. -/
def Displays (g : Geometry) (eraseChar : Nat) (cs : List Nat) (s t : Con) : Prop :=
  t.frame = (perform g.videoNumColumns g.videoNumLines
      (decode g.videoNumLines eraseChar s.parser cs) ⟨s.frame, picture g s⟩).toFrame ∧
    ∀ y x, y < g.videoNumLines → x < g.videoNumColumns → picture g t y x =
      (perform g.videoNumColumns g.videoNumLines
        (decode g.videoNumLines eraseChar s.parser cs) ⟨s.frame, picture g s⟩).screen y x

theorem conWrite_displays (hg : Fits g) (h : Inv g s) (eraseChar : Nat) (cs : List Nat) :
    Displays g eraseChar cs s (conWrite g eraseChar cs s) := by
  have hs : Shows g s s.parser ⟨s.frame, picture g s⟩ := ⟨h, rfl, rfl, fun y x _ _ => rfl⟩
  obtain ⟨p', hp⟩ := conWrite_shows hg hs eraseChar cs
  exact ⟨hp.frame, hp.screen⟩

end Gpos.Console
