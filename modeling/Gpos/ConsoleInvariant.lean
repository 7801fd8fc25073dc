import Gpos.Console
import Mathlib.Tactic.Ring

/-! The cursor stays on the screen and the screen in the video memory, whatever
is written to the console. -/

namespace Gpos.Console

variable {g : Geometry}

/-! The stores of the loops over the memory. -/

theorem poke_stray {a : Nat} (w : BitVec 16) (m : Ram) (h : g.videoMemStart ≤ a)
    (h' : a + 2 ≤ g.videoMemEnd) : (poke g a w m).stray = m.stray := by
  simp [poke, h, h']

theorem stosw_stray {n d : Nat} (m : Ram) (h : g.videoMemStart ≤ d)
    (h' : d + 2 * n ≤ g.videoMemEnd) : (stosw g n d m).stray = m.stray := by
  induction n generalizing d m with
  | zero => rfl
  | succ n ih => rw [stosw, ih _ (by omega) (by omega), poke_stray _ _ h (by omega)]

theorem stoswDown_stray {n d : Nat} (m : Ram) (h : g.videoMemStart + 2 * n ≤ d + 2)
    (h' : d + 2 ≤ g.videoMemEnd) : (stoswDown g n d m).stray = m.stray := by
  induction n generalizing d m with
  | zero => rfl
  | succ n ih =>
    rw [stoswDown]
    by_cases hn : n = 0
    · subst hn
      exact poke_stray _ _ (by omega) h'
    · rw [ih _ (by omega) (by omega), poke_stray _ _ (by omega) h']

theorem movl_stray {d e : Nat} (m : Ram) (h : g.videoMemStart ≤ d) (h' : d + 4 ≤ g.videoMemEnd) :
    (movl g d e m).stray = m.stray := by
  rw [movl, poke_stray _ _ (by omega) (by omega), poke_stray _ _ h (by omega)]

theorem movsl_stray {n d e : Nat} (m : Ram) (h : g.videoMemStart ≤ d)
    (h' : d + 4 * n ≤ g.videoMemEnd) : (movsl g n d e m).stray = m.stray := by
  induction n generalizing d e m with
  | zero => rfl
  | succ n ih => rw [movsl, ih _ (by omega) (by omega), movl_stray _ h (by omega)]

theorem movslDown_stray {n d e : Nat} (m : Ram) (h : g.videoMemStart + 4 * n ≤ d + 4)
    (h' : d + 4 ≤ g.videoMemEnd) : (movslDown g n d e m).stray = m.stray := by
  induction n generalizing d e m with
  | zero => rfl
  | succ n ih =>
    rw [movslDown]
    by_cases hn : n = 0
    · subst hn
      exact movl_stray _ (by omega) h'
    · rw [ih _ (by omega) (by omega), movl_stray _ (by omega) h']

theorem insertLoop_stray {n p : Nat} (old : BitVec 16) (m : Ram) (h : g.videoMemStart ≤ p)
    (h' : p + 2 * n ≤ g.videoMemEnd) : (insertLoop g n p old m).stray = m.stray := by
  induction n generalizing p old m with
  | zero => rfl
  | succ n ih => rw [insertLoop, ih _ _ (by omega) (by omega), poke_stray _ _ h (by omega)]

theorem deleteLoop_stray {n p : Nat} (m : Ram) (h : g.videoMemStart ≤ p)
    (h' : p + 2 * (n + 1) ≤ g.videoMemEnd) : (deleteLoop g n p m).stray = m.stray := by
  induction n generalizing p m with
  | zero => exact poke_stray _ _ h (by omega)
  | succ n ih => rw [deleteLoop, ih _ (by omega) (by omega), poke_stray _ _ h (by omega)]

/-- A geometry with at least 8 and an even number of columns, and a screen that fits. -/
structure Fits (g : Geometry) : Prop where
  columns : 8 ≤ g.videoNumColumns
  even : g.videoNumColumns % 2 = 0
  memory : g.videoMemStart + g.videoNumLines * g.videoSizeRow ≤ g.videoMemEnd

structure Inv (g : Geometry) (s : Con) : Prop where
  x : s.x ≤ g.videoNumColumns
  y : s.y < g.videoNumLines
  region : s.top < s.bottom
  bottom : s.bottom ≤ g.videoNumLines
  npar : s.npar < nPar
  pos : s.pos = s.origin + s.y * g.videoSizeRow + s.x * 2
  scrEnd : s.scrEnd = s.origin + g.videoNumLines * g.videoSizeRow
  start : g.videoMemStart ≤ s.origin
  fits : s.scrEnd ≤ g.videoMemEnd
  aligned : s.origin % 2 = 0
  inside : s.ram.stray = false

theorem Geometry.videoMemStart_even (g : Geometry) : g.videoMemStart % 2 = 0 := by
  unfold Geometry.videoMemStart
  split <;> rfl

theorem row_le {r n : Nat} (h : r < n) :
    r * g.videoSizeRow + g.videoSizeRow ≤ n * g.videoSizeRow := by
  rw [← Nat.succ_mul]
  exact Nat.mul_le_mul_right _ h

theorem Fits.count (hg : Fits g) (n : Nat) :
    4 * (n * g.videoNumColumns / 2) = n * g.videoSizeRow := by
  obtain ⟨k, hk⟩ : ∃ k, g.videoNumColumns = 2 * k :=
    ⟨g.videoNumColumns / 2, by have := hg.even; omega⟩
  rw [Geometry.videoSizeRow, hk, show n * (2 * k) = 2 * (n * k) by ring,
    Nat.mul_div_cancel_left _ (by decide)]
  ring

theorem region_rows {t b : Nat} (h : t < b) (w : Nat) : w * t + (b - t - 1) * w + w = b * w := by
  obtain ⟨k, rfl⟩ := Nat.exists_eq_add_of_lt h
  rw [show t + k + 1 - t - 1 = k by omega]
  ring

theorem Inv.ram {s : Con} (h : Inv g s) {m : Ram} (hm : m.stray = s.ram.stray) :
    Inv g { s with ram := m } :=
  ⟨h.x, h.y, h.region, h.bottom, h.npar, h.pos, h.scrEnd, h.start, h.fits, h.aligned,
    hm.trans h.inside⟩

theorem Inv.gotoxy {s : Con} (h : Inv g s) (newX newY : Nat) : Inv g (gotoxy g newX newY s) := by
  unfold Console.gotoxy
  split
  next => exact h
  next hno =>
    push Not at hno
    exact ⟨hno.1, hno.2, h.region, h.bottom, h.npar, rfl, h.scrEnd, h.start, h.fits,
      h.aligned, h.inside⟩

theorem Inv.scrupRegion (hg : Fits g) {s : Con} (h : Inv g s) : Inv g (scrupRegion g s) := by
  have hrows := region_rows h.region g.videoSizeRow
  have hle := Nat.mul_le_mul_right g.videoSizeRow h.bottom
  have hcount := hg.count (s.bottom - s.top - 1)
  have hstart := h.start
  have hend := h.scrEnd
  have hfits := h.fits
  have hrow : g.videoSizeRow = g.videoNumColumns * 2 := rfl
  refine h.ram ?_
  rw [stosw_stray _ (by omega) (by omega), movsl_stray _ (by omega) (by omega)]

theorem Inv.scrupOrigin (hg : Fits g) {s : Con} (h : Inv g s) : Inv g (scrupOrigin g s) := by
  have hy := row_le (g := g) h.y
  have hlines : (g.videoNumLines - 1) * g.videoSizeRow + g.videoSizeRow =
    g.videoNumLines * g.videoSizeRow := by
    rw [← Nat.succ_mul]
    congr 1
    have := h.y
    omega
  have hcount := hg.count (g.videoNumLines - 1)
  have hmem := hg.memory
  have hstart := h.start
  have hend := h.scrEnd
  have hfits := h.fits
  have hpos := h.pos
  have hrow : g.videoSizeRow = g.videoNumColumns * 2 := rfl
  unfold Console.scrupOrigin
  simp only
  split
  next hpast =>
    refine ⟨h.x, h.y, h.region, h.bottom, h.npar, ?_, ?_, Nat.le_refl _, ?_,
      g.videoMemStart_even, ?_⟩
    · simp only
      omega
    · simp only
      omega
    · simp only
      omega
    · simp only
      rw [stosw_stray _ (by omega) (by omega), movsl_stray _ (by omega) (by omega)]
      exact h.inside
  next hpast =>
    refine ⟨h.x, h.y, h.region, h.bottom, h.npar, ?_, ?_, ?_, Nat.not_lt.mp hpast, ?_, ?_⟩
    · simp only
      omega
    · simp only
      omega
    · simp only
      omega
    · have := h.aligned
      simp only
      omega
    · simp only
      rw [stosw_stray _ (by omega) (by omega)]
      exact h.inside

theorem Inv.scrup (hg : Fits g) {s : Con} (h : Inv g s) : Inv g (scrup g s) := by
  unfold Console.scrup
  split
  next => exact h.scrupOrigin hg
  next => exact h.scrupRegion hg

theorem Inv.scrdown (hg : Fits g) {s : Con} (h : Inv g s) : Inv g (scrdown g s) := by
  have hrows := region_rows h.region g.videoSizeRow
  have hle := Nat.mul_le_mul_right g.videoSizeRow h.bottom
  have hcomm := Nat.mul_comm g.videoSizeRow s.bottom
  have hcount := hg.count (s.bottom - s.top - 1)
  have hcols := hg.columns
  have hstart := h.start
  have hend := h.scrEnd
  have hfits := h.fits
  have hrow : g.videoSizeRow = g.videoNumColumns * 2 := rfl
  refine h.ram ?_
  rw [stoswDown_stray _ (by omega) (by omega), movslDown_stray _ (by omega) (by omega)]

theorem Inv.fromCursor {scroll : Con → Con} (hscroll : ∀ s, Inv g s → Inv g (scroll s)) {s : Con}
    (h : Inv g s) : Inv g (fromCursor g scroll s) := by
  have hs := hscroll { s with top := s.y, bottom := g.videoNumLines }
    ⟨h.x, h.y, h.y, Nat.le_refl _, h.npar, h.pos, h.scrEnd, h.start, h.fits, h.aligned, h.inside⟩
  exact ⟨hs.x, hs.y, h.region, h.bottom, hs.npar, hs.pos, hs.scrEnd, hs.start, hs.fits,
    hs.aligned, hs.inside⟩

theorem Inv.lf (hg : Fits g) {s : Con} (h : Inv g s) : Inv g (lf g s) := by
  unfold Console.lf
  split
  next hlt =>
    have hb := h.bottom
    have hpos := h.pos
    have hrow : (s.y + 1) * g.videoSizeRow = s.y * g.videoSizeRow + g.videoSizeRow :=
      Nat.succ_mul _ _
    refine ⟨h.x, show s.y + 1 < _ by omega, h.region, h.bottom, h.npar, ?_, h.scrEnd, h.start,
      h.fits, h.aligned, h.inside⟩
    simp only
    omega
  next => exact h.scrup hg

theorem Inv.ri (hg : Fits g) {s : Con} (h : Inv g s) : Inv g (ri g s) := by
  unfold Console.ri
  split
  next hlt =>
    have hy := h.y
    have hpos := h.pos
    obtain ⟨k, hk⟩ : ∃ k, s.y = k + 1 := ⟨s.y - 1, by omega⟩
    have hrow : (k + 1) * g.videoSizeRow = k * g.videoSizeRow + g.videoSizeRow := Nat.succ_mul _ _
    refine ⟨h.x, show s.y - 1 < _ by omega, h.region, h.bottom, h.npar, ?_, h.scrEnd, h.start,
      h.fits, h.aligned, h.inside⟩
    simp only [hk, Nat.add_sub_cancel] at hpos ⊢
    omega
  next => exact h.scrdown hg

theorem Inv.column {s : Con} (h : Inv g s) {x pos : Nat} (hx : x ≤ g.videoNumColumns)
    (hpos : pos = s.origin + s.y * g.videoSizeRow + x * 2) : Inv g { s with x := x, pos := pos } :=
  ⟨hx, h.y, h.region, h.bottom, h.npar, hpos, h.scrEnd, h.start, h.fits, h.aligned, h.inside⟩

theorem Inv.cr {s : Con} (h : Inv g s) : Inv g (cr s) := by
  have hpos := h.pos
  exact h.column (Nat.zero_le _) (by omega)

theorem Inv.line {s : Con} (h : Inv g s) :
    s.origin + s.y * g.videoSizeRow + g.videoNumColumns * 2 ≤ g.videoMemEnd := by
  have hy := row_le (g := g) h.y
  have hend := h.scrEnd
  have hfits := h.fits
  have hrow : g.videoSizeRow = g.videoNumColumns * 2 := rfl
  omega

theorem Inv.del {s : Con} (h : Inv g s) : Inv g (del g s) := by
  unfold Console.del
  split
  next hx =>
    have hpos := h.pos
    have hxc := h.x
    have hline := h.line
    have hstart := h.start
    have hc : Inv g { s with x := s.x - 1, pos := s.pos - 2 } := h.column (by omega) (by omega)
    exact hc.ram (poke_stray _ _ (by omega) (by omega))
  next => exact h

theorem Inv.insertChar {s : Con} (h : Inv g s) : Inv g (insertChar g s) := by
  have hpos := h.pos
  have hxc := h.x
  have hline := h.line
  have hstart := h.start
  exact h.ram (insertLoop_stray _ _ (by omega) (by omega))

theorem Inv.deleteChar {s : Con} (h : Inv g s) : Inv g (deleteChar g s) := by
  unfold Console.deleteChar
  split
  next => exact h
  next hx =>
    have hpos := h.pos
    have hline := h.line
    have hstart := h.start
    exact h.ram (deleteLoop_stray _ (by omega) (by omega))

theorem Inv.iterate {f : Con → Con} (hf : ∀ s, Inv g s → Inv g (f s)) (n : Nat) {s : Con}
    (h : Inv g s) : Inv g (f^[n] s) := by
  induction n generalizing s with
  | zero => exact h
  | succ n ih => exact ih (hf s h)

theorem Inv.csiJ {s : Con} (h : Inv g s) (par : Nat) : Inv g (csiJ g par s) := by
  have hy := row_le (g := g) h.y
  have hpos := h.pos
  have hend := h.scrEnd
  have hfits := h.fits
  have hstart := h.start
  have hrow : g.videoSizeRow = g.videoNumColumns * 2 := rfl
  have hxc := h.x
  unfold Console.csiJ
  split
  next => exact h.ram (stosw_stray _ (by omega) (by omega))
  next => exact h.ram (stosw_stray _ (by omega) (by omega))
  next =>
    have hsize : 2 * (g.videoNumColumns * g.videoNumLines) = g.videoNumLines * g.videoSizeRow := by
      rw [Geometry.videoSizeRow]
      ring
    exact h.ram (stosw_stray _ (by omega) (by omega))
  next => exact h

theorem Inv.csiK {s : Con} (h : Inv g s) (par : Nat) : Inv g (csiK g par s) := by
  have hpos := h.pos
  have hline := h.line
  have hstart := h.start
  have hxc := h.x
  unfold Console.csiK
  split
  next =>
    split
    next => exact h
    next => exact h.ram (stosw_stray _ (by omega) (by omega))
  next => exact h.ram (stosw_stray _ (by omega) (by split <;> omega))
  next => exact h.ram (stosw_stray _ (by omega) (by omega))
  next => exact h

theorem Inv.parser {s : Con} (h : Inv g s) (state : Nat) (par : Nat → UInt32) (ques : Bool)
    {npar : Nat} (hn : npar < nPar) :
    Inv g { s with state := state, npar := npar, par := par, ques := ques } :=
  ⟨h.x, h.y, h.region, h.bottom, hn, h.pos, h.scrEnd, h.start, h.fits, h.aligned, h.inside⟩

theorem Inv.decPar {s : Con} (h : Inv g s) (i : Nat) : Inv g (decPar i s) := h.parser _ _ _ h.npar

theorem Inv.defaultPar {s : Con} (h : Inv g s) (i : Nat) (v : UInt32) : Inv g (defaultPar i v s) :=
  h.parser _ _ _ h.npar

theorem Inv.saveCur {s : Con} (h : Inv g s) : Inv g (saveCur s) :=
  ⟨h.x, h.y, h.region, h.bottom, h.npar, h.pos, h.scrEnd, h.start, h.fits, h.aligned, h.inside⟩

theorem Inv.csim {s : Con} (h : Inv g s) : Inv g (csim s) :=
  ⟨h.x, h.y, h.region, h.bottom, h.npar, h.pos, h.scrEnd, h.start, h.fits, h.aligned, h.inside⟩

theorem Inv.move {s : Con} (h : Inv g s) (newX newY : Con → Nat) : Inv g (move g newX newY s) :=
  (h.defaultPar 0 1).gotoxy _ _

theorem Inv.setRegion {s : Con} (h : Inv g s) : Inv g (setRegion g s) := by
  unfold Console.setRegion
  split
  next hr =>
    exact ⟨h.x, h.y, UInt32.lt_iff_toNat_lt.mp hr.1, hr.2, h.npar, h.pos, h.scrEnd, h.start, h.fits,
      h.aligned, h.inside⟩
  next => exact h

theorem Inv.ite {p : Prop} [Decidable p] {s t : Con} (hs : Inv g s) (ht : Inv g t) :
    Inv g (if p then s else t) := by
  split
  next => exact hs
  next => exact ht

theorem Inv.command (hg : Fits g) {s : Con} (h : Inv g s) (c : Nat) : Inv g (command g c s) := by
  unfold Console.command
  refine .ite ((h.decPar 0).gotoxy _ _) <| .ite (h.move _ _) <| .ite (h.move _ _) <|
    .ite (h.move _ _) <| .ite (h.move _ _) <| .ite (h.move _ _) <| .ite (h.move _ _) <|
    .ite ((h.decPar 0).gotoxy _ _) <| .ite (((h.decPar 0).decPar 1).gotoxy _ _) <|
    .ite (h.csiJ _) <| .ite (h.csiK _) <| .ite ?_ <| .ite ?_ <| .ite ?_ <| .ite ?_ <| .ite h.csim <|
    .ite ((h.decPar 0).defaultPar 1 _).setRegion <| .ite h.saveCur <| .ite (h.gotoxy _ _) h
  · exact h.iterate (fun _ hs => hs.fromCursor fun _ hs => hs.scrdown hg) _
  · exact h.iterate (fun _ hs => hs.fromCursor fun _ hs => hs.scrup hg) _
  · exact h.iterate (fun _ hs => hs.deleteChar) _
  · exact h.iterate (fun _ hs => hs.insertChar) _

theorem Inv.csi (hg : Fits g) {s : Con} (h : Inv g s) (c : Nat) : Inv g (csi g c s) := by
  have h₀ : Inv g { s with state := 0 } := h.parser 0 s.par s.ques h.npar
  exact h₀.command hg c

theorem Inv.parameter (hg : Fits g) {s : Con} (h : Inv g s) (c : Nat) :
    Inv g (parameter g c s) := by
  unfold Console.parameter
  split
  next hn => exact h.parser _ _ _ (show s.npar + 1 < nPar by have := hn.2; omega)
  next =>
    split
    next => exact h.parser _ _ _ h.npar
    next =>
      have h₄ : Inv g { s with state := 4 } := h.parser 4 s.par s.ques h.npar
      exact h₄.csi hg c

theorem Inv.introduce (hg : Fits g) {s : Con} (h : Inv g s) (c : Nat) :
    Inv g (introduce g c s) := by
  have h₃ : Inv g { s with
    par := fun _ => 0, npar := 0, state := 3, ques := decide (c = '?'.toNat) } :=
    h.parser _ _ _ (by decide)
  unfold Console.introduce
  simp only
  split
  next => exact h₃
  next => exact h₃.parameter hg c

theorem Inv.escape (hg : Fits g) {s : Con} (h : Inv g s) (c : Nat) : Inv g (escape g c s) := by
  have h₀ : Inv g { s with state := 0 } := h.parser 0 s.par s.ques h.npar
  unfold Console.escape
  simp only
  split_ifs
  · exact h.parser 2 s.par s.ques h.npar
  · exact h₀.gotoxy _ _
  · exact h₀.ri hg
  · exact h₀.lf hg
  · exact h₀
  · exact h₀.saveCur
  · exact h₀.gotoxy _ _
  · exact h₀

@[simp] theorem scrup_x (s : Con) : (scrup g s).x = s.x := by
  unfold scrup scrupOrigin
  simp only
  split_ifs <;> rfl

@[simp] theorem lf_x (s : Con) : (lf g s).x = s.x := by
  unfold lf
  split
  next => rfl
  next => exact scrup_x s

theorem Inv.wrap (hg : Fits g) {s : Con} (h : Inv g s) {x pos : Nat} (hx : x ≤ s.x + 8)
    (hlt : g.videoNumColumns ≤ x) (hpos : pos = s.origin + s.y * g.videoSizeRow + x * 2) :
    Inv g (wrap g { s with x := x, pos := pos }) := by
  have hcols := hg.columns
  have hxc := h.x
  have hrow : g.videoSizeRow = g.videoNumColumns * 2 := rfl
  have hc : Inv g { s with x := x - g.videoNumColumns, pos := pos - g.videoSizeRow } :=
    h.column (by omega) (by omega)
  exact hc.lf hg

theorem Inv.printChar {s : Con} (h : Inv g s) (hx : s.x < g.videoNumColumns) (c : Nat) :
    Inv g (printChar g c s) := by
  have hpos := h.pos
  have hline := h.line
  have hstart := h.start
  have hc : Inv g { s with x := s.x + 1, pos := s.pos + 2 } := h.column hx (by omega)
  exact hc.ram (poke_stray _ _ (by omega) (by omega))

theorem Inv.tab (hg : Fits g) {s : Con} (h : Inv g s) : Inv g (tab g s) := by
  have hpos := h.pos
  unfold Console.tab
  simp only
  split
  next hlt => exact h.wrap hg (by omega) (Nat.le_of_lt hlt) (by omega)
  next hle => exact h.column (Nat.not_lt.mp hle) (by omega)

theorem Inv.plain (hg : Fits g) {s : Con} (h : Inv g s) (eraseChar c : Nat) :
    Inv g (plain g eraseChar c s) := by
  have hpos := h.pos
  have hcols := hg.columns
  have hxc := h.x
  unfold Console.plain
  split_ifs with hprint hfull
  · refine (h.wrap hg (Nat.le_add_right _ _) hfull hpos).printChar ?_ c
    rw [Console.wrap, lf_x]
    simp only
    omega
  · exact h.printChar (Nat.not_le.mp hfull) c
  · exact h.parser 1 s.par s.ques h.npar
  · exact h.lf hg
  · exact h.cr
  · exact h.del
  · exact h.column (by omega) (by omega)
  · exact h
  · exact h.tab hg
  · exact h

theorem Inv.conWriteChar (hg : Fits g) {s : Con} (h : Inv g s) (eraseChar c : Nat) :
    Inv g (conWriteChar g eraseChar c s) := by
  unfold Console.conWriteChar
  split
  next => exact h.plain hg eraseChar c
  next => exact h.escape hg c
  next => exact h.introduce hg c
  next => exact h.parameter hg c
  next => exact h.csi hg c
  next => exact h

theorem Inv.conWrite (hg : Fits g) {s : Con} (h : Inv g s) (eraseChar : Nat) (cs : List Nat) :
    Inv g (conWrite g eraseChar cs s) := by
  induction cs generalizing s with
  | nil => exact h
  | cons c cs ih => exact ih (h.conWriteChar hg eraseChar c)

/-- What `con_init` leaves, with the cursor on the screen. -/
structure Start (g : Geometry) (s : Con) : Prop where
  x : s.x < g.videoNumColumns
  y : s.y < g.videoNumLines
  top : s.top = 0
  bottom : s.bottom = g.videoNumLines
  state : s.state = 0
  npar : s.npar = 0
  origin : s.origin = g.videoMemStart
  pos : s.pos = s.origin + s.y * g.videoSizeRow + s.x * 2
  scrEnd : s.scrEnd = g.videoMemStart + g.videoNumLines * g.videoSizeRow
  stray : s.ram.stray = false

theorem Start.inv (hg : Fits g) {s : Con} (h : Start g s) : Inv g s where
  x := h.x.le
  y := h.y
  region := by rw [h.top, h.bottom]; exact Nat.zero_lt_of_lt h.y
  bottom := h.bottom.le
  npar := by rw [h.npar]; decide
  pos := h.pos
  scrEnd := by rw [h.scrEnd, h.origin]
  start := h.origin.ge
  fits := by rw [h.scrEnd]; exact hg.memory
  aligned := by rw [h.origin]; exact g.videoMemStart_even
  inside := h.stray

/-- The invariant holds after every stream of characters, and no store has left the video memory. -/
theorem conWrite_inv (hg : Fits g) {s : Con} (h : Start g s) (eraseChar : Nat) (cs : List Nat) :
    Inv g (conWrite g eraseChar cs s) := (h.inv hg).conWrite hg eraseChar cs

def vga : Geometry := ⟨.egac, 80, 25⟩

def blankScreen : Con where
  x := 0
  y := 0
  top := 0
  bottom := 25
  state := 0
  npar := 0
  par _ := 0
  ques := false
  attr := 0x07
  savedX := 0
  savedY := 0
  origin := 0xb8000
  scrEnd := 0xb8fa0
  pos := 0xb8000
  ram := ⟨fun _ => videoEraseChar, false⟩

theorem vga_fits : Fits vga := ⟨by decide, by decide, by decide⟩

theorem blankScreen_start : Start vga blankScreen :=
  ⟨by decide, by decide, rfl, rfl, rfl, rfl, rfl, rfl, rfl, rfl⟩

theorem conWrite_inv_vga : Inv vga (conWrite vga 127 [27, 91, 50, 74, 65, 9, 10, 8] blankScreen) :=
  conWrite_inv vga_fits blankScreen_start 127 _

end Gpos.Console
