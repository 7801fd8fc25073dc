import Gpos.ConsoleInvariant

/-! Two displays of different types that show the same screen go on to show the
same screen. The cells of the screen are numbered from the origin on, so that
the loops over the memory do the same to both; only `scrup` differs. -/

namespace Gpos.Console

/-- The first `n` cells from `o` and from `o'` on are the same. -/
def Agree (n o o' : Nat) (m m' : Ram) : Prop := ∀ k, k < n → m'.mem (o' + 2 * k) = m.mem (o + 2 * k)

section

variable {g g' : Geometry} {n o o' : Nat} {m m' : Ram}

theorem poke_mem (g : Geometry) (o a k : Nat) (w : BitVec 16) (m : Ram) :
    (poke g (o + 2 * a) w m).mem (o + 2 * k) = if k = a then w else m.mem (o + 2 * k) := by
  simp only [poke, Function.update_apply]
  by_cases h : k = a
  · rw [if_pos h, if_pos (by omega)]
  · rw [if_neg h, if_neg (by omega)]

theorem Agree.poke (h : Agree n o o' m m') (a : Nat) (w : BitVec 16) :
    Agree n o o' (poke g (o + 2 * a) w m) (poke g' (o' + 2 * a) w m') := by
  intro k hk
  rw [poke_mem, poke_mem, h k hk]

theorem Agree.stosw (h : Agree n o o' m m') (c a : Nat) :
    Agree n o o' (stosw g c (o + 2 * a) m) (stosw g' c (o' + 2 * a) m') := by
  induction c generalizing a m m' with
  | zero => exact h
  | succ c ih => exact ih (h.poke a videoEraseChar) (a + 1)

theorem Agree.stoswDown (h : Agree n o o' m m') {c a : Nat} (ha : c ≤ a + 1) :
    Agree n o o' (stoswDown g c (o + 2 * a) m) (stoswDown g' c (o' + 2 * a) m') := by
  induction c generalizing a m m' with
  | zero => exact h
  | succ c ih =>
    rw [Console.stoswDown, Console.stoswDown]
    cases a with
    | zero =>
      obtain rfl : c = 0 := by omega
      exact h.poke 0 videoEraseChar
    | succ a => exact ih (h.poke (a + 1) videoEraseChar) (by omega)

theorem Agree.movl (h : Agree n o o' m m') (a : Nat) {b : Nat} (hb : b + 1 < n) :
    Agree n o o' (movl g (o + 2 * a) (o + 2 * b) m) (movl g' (o' + 2 * a) (o' + 2 * b) m') := by
  have h₁ := h b (by omega)
  have h₂ : m'.mem (o' + 2 * b + 2) = m.mem (o + 2 * b + 2) := h (b + 1) hb
  rw [Console.movl, Console.movl, h₁, h₂]
  exact (h.poke a _).poke (a + 1) _

theorem Agree.movsl (h : Agree n o o' m m') {c : Nat} (a : Nat) {b : Nat} (hb : b + 2 * c ≤ n) :
    Agree n o o' (movsl g c (o + 2 * a) (o + 2 * b) m)
      (movsl g' c (o' + 2 * a) (o' + 2 * b) m') := by
  induction c generalizing a b m m' with
  | zero => exact h
  | succ c ih => exact ih (h.movl a (by omega)) (a + 2) (b := b + 2) (by omega)

theorem Agree.movslDown (h : Agree n o o' m m') {c a b : Nat} (ha : 2 * c ≤ a + 2)
    (hb : 2 * c ≤ b + 2) (hn : b + 2 ≤ n) :
    Agree n o o' (movslDown g c (o + 2 * a) (o + 2 * b) m)
      (movslDown g' c (o' + 2 * a) (o' + 2 * b) m') := by
  induction c generalizing a b m m' with
  | zero => exact h
  | succ c ih =>
    rw [Console.movslDown, Console.movslDown]
    have hm := @Agree.movl g g' n o o' m m' h a b (by omega)
    by_cases hc : c = 0
    · subst hc
      exact hm
    · obtain ⟨a, rfl⟩ : ∃ k, a = k + 2 := ⟨a - 2, by omega⟩
      obtain ⟨b, rfl⟩ : ∃ k, b = k + 2 := ⟨b - 2, by omega⟩
      exact ih hm (by omega) (by omega) (by omega)

theorem Agree.insertLoop (h : Agree n o o' m m') {c a : Nat} (ha : a + c ≤ n) (old : BitVec 16) :
    Agree n o o' (insertLoop g c (o + 2 * a) old m) (insertLoop g' c (o' + 2 * a) old m') := by
  induction c generalizing a old m m' with
  | zero => exact h
  | succ c ih =>
    rw [Console.insertLoop, Console.insertLoop, h a (by omega)]
    exact ih (h.poke a old) (a := a + 1) (by omega) _

theorem Agree.deleteLoop (h : Agree n o o' m m') {c a : Nat} (ha : a + c < n) :
    Agree n o o' (deleteLoop g c (o + 2 * a) m) (deleteLoop g' c (o' + 2 * a) m') := by
  induction c generalizing a m m' with
  | zero => exact h.poke a _
  | succ c ih =>
    have h₁ : m'.mem (o' + 2 * a + 2) = m.mem (o + 2 * a + 2) := h (a + 1) (by omega)
    rw [Console.deleteLoop, Console.deleteLoop, h₁]
    exact ih (h.poke a _) (a := a + 1) (by omega)

theorem stosw_mem (g : Geometry) (c o a k : Nat) (m : Ram) :
    (stosw g c (o + 2 * a) m).mem (o + 2 * k) = if a ≤ k ∧ k < a + c then videoEraseChar
      else m.mem (o + 2 * k) := by
  induction c generalizing a m with
  | zero => rw [stosw, if_neg (by omega)]
  | succ c ih =>
    rw [stosw, show o + 2 * a + 2 = o + 2 * (a + 1) by omega, ih, poke_mem]
    split_ifs <;> first | rfl | omega

/-- Words that are moved down to lower addresses are not overwritten before they are read. -/
theorem movsl_mem (g : Geometry) (c o k : Nat) {a b : Nat} (hab : a ≤ b) (m : Ram) :
    (movsl g c (o + 2 * a) (o + 2 * b) m).mem (o + 2 * k) =
      if a ≤ k ∧ k < a + 2 * c then m.mem (o + 2 * (b + (k - a))) else m.mem (o + 2 * k) := by
  induction c generalizing a b m with
  | zero => rw [movsl, if_neg (by omega)]
  | succ c ih =>
    have hm : ∀ j, (movl g (o + 2 * a) (o + 2 * b) m).mem (o + 2 * j) =
      if j = a + 1 then m.mem (o + 2 * (b + 1))
        else if j = a then m.mem (o + 2 * b) else m.mem (o + 2 * j) := by
      intro j
      rw [movl, show o + 2 * a + 2 = o + 2 * (a + 1) by omega, poke_mem, poke_mem]
      rfl
    rw [movsl, show o + 2 * a + 4 = o + 2 * (a + 2) by omega,
      show o + 2 * b + 4 = o + 2 * (b + 2) by omega, ih (by omega), hm, hm]
    by_cases h1 : k = a
    · subst h1
      rw [if_neg (by omega), if_neg (by omega), if_pos rfl, if_pos (by omega),
        Nat.sub_self, Nat.add_zero]
    · by_cases h2 : k = a + 1
      · subst h2
        rw [if_neg (by omega), if_pos rfl, if_pos (by omega), Nat.add_sub_cancel_left]
      · by_cases hin : a ≤ k ∧ k < a + 2 * (c + 1)
        · rw [if_pos (by omega), if_neg (by omega), if_neg (by omega), if_pos hin]
          congr 2
          omega
        · rw [if_neg (by omega), if_neg h2, if_neg h1, if_neg hin]

end

/-- The cells of the screen, row by row. -/
def cell (s : Con) (k : Nat) : BitVec 16 := s.ram.mem (s.origin + 2 * k)

def cells (g : Geometry) : Nat := g.videoNumLines * g.videoNumColumns

/-- The lines from `t` to `b` scrolled up, with lines of `w` cells. -/
def scrolled (w t b : Nat) (old : Nat → BitVec 16) (k : Nat) : BitVec 16 :=
  if t * w ≤ k ∧ k < t * w + (b - t - 1) * w then old (k + w)
  else if t * w + (b - t - 1) * w ≤ k ∧ k < t * w + (b - t - 1) * w + w then videoEraseChar
  else old k

variable {g : Geometry}

theorem Fits.count_cells (hg : Fits g) (n : Nat) :
    2 * (n * g.videoNumColumns / 2) = n * g.videoNumColumns := by
  have h := hg.count n
  rw [Geometry.videoSizeRow, ← Nat.mul_assoc] at h
  omega

theorem scrupRegion_cell (hg : Fits g) (s : Con) (k : Nat) :
    cell (scrupRegion g s) k = scrolled g.videoNumColumns s.top s.bottom (cell s) k := by
  have hcount := hg.count_cells (s.bottom - s.top - 1)
  have hsize : g.videoSizeRow * s.top = 2 * (s.top * g.videoNumColumns) := by
    rw [Geometry.videoSizeRow]
    ring
  have hnext : g.videoSizeRow * (s.top + 1) = 2 *
    (s.top * g.videoNumColumns + g.videoNumColumns) := by
    rw [Geometry.videoSizeRow]
    ring
  have hcols := hg.columns
  unfold cell scrupRegion scrolled
  simp only
  rw [hsize, hnext]
  generalize (s.bottom - s.top - 1) * g.videoNumColumns = n at hcount ⊢
  generalize s.top * g.videoNumColumns = a
  rw [show s.origin + 2 * a + 4 * (n / 2) = s.origin + 2 * (a + n) by omega, stosw_mem,
    movsl_mem _ _ _ _ (by omega), hcount]
  by_cases hin : a ≤ k ∧ k < a + n
  · rw [if_neg (by omega), if_pos hin, if_pos hin,
      show a + g.videoNumColumns + (k - a) = k + g.videoNumColumns by omega]
  · rw [if_neg hin, if_neg hin]

theorem scrupOrigin_cell (hg : Fits g) {s : Con} (h : Inv g s) (htop : s.top = 0)
    (hbottom : s.bottom = g.videoNumLines) {k : Nat} (hk : k < cells g) :
    cell (scrupOrigin g s) k = scrolled g.videoNumColumns s.top s.bottom (cell s) k := by
  have hcount := hg.count_cells (g.videoNumLines - 1)
  have hsize : g.videoSizeRow = 2 * g.videoNumColumns := Nat.mul_comm _ _
  have hlast : cells g = (g.videoNumLines - 1) * g.videoNumColumns + g.videoNumColumns := by
    obtain ⟨l, hl⟩ : ∃ l, g.videoNumLines = l + 1 := ⟨g.videoNumLines - 1, by have := h.y; omega⟩
    rw [cells, hl, Nat.add_sub_cancel, Nat.succ_mul]
  have hend : g.videoNumLines * g.videoSizeRow = 2 * cells g := by
    rw [hsize, cells]
    ring
  have hscr := h.scrEnd
  have hstart := h.start
  have halign := h.aligned
  have heven := g.videoMemStart_even
  have hshift : ∀ j, s.origin + g.videoSizeRow + 2 * j = s.origin + 2 * (j + g.videoNumColumns) :=
    fun j => by omega
  unfold cell scrupOrigin scrolled
  simp only
  rw [htop, hbottom, Nat.zero_mul, Nat.sub_zero]
  generalize (g.videoNumLines - 1) * g.videoNumColumns = n at hcount hlast ⊢
  split
  next hpast =>
    simp only
    obtain ⟨b, hb⟩ : ∃ b, s.origin + g.videoSizeRow = g.videoMemStart + 2 * b :=
      ⟨(s.origin + g.videoSizeRow - g.videoMemStart) / 2, by omega⟩
    rw [hb, show g.videoMemStart + 4 * (n / 2) = g.videoMemStart + 2 * n by omega, stosw_mem,
      show movsl g (n / 2) g.videoMemStart (g.videoMemStart + 2 * b) s.ram =
        movsl g (n / 2) (g.videoMemStart + 2 * 0) (g.videoMemStart + 2 * b) s.ram from rfl,
      movsl_mem _ _ _ _ (Nat.zero_le b), hcount]
    by_cases hin : k < n
    · rw [if_neg (by omega), if_pos (by omega), if_pos (by omega), Nat.sub_zero,
        show g.videoMemStart + 2 * (b + k) = s.origin + 2 * (k + g.videoNumColumns) by omega]
    · rw [if_pos (by omega), if_neg (by omega), if_pos (by omega)]
  next hpast =>
    simp only
    rw [show s.scrEnd + g.videoSizeRow - g.videoSizeRow =
      s.origin + g.videoSizeRow + 2 * n by omega, stosw_mem, hshift]
    by_cases hin : k < n
    · rw [if_neg (by omega), if_pos (by omega)]
    · rw [if_pos (by omega), if_neg (by omega), if_pos (by omega)]

theorem scrup_cell (hg : Fits g) {s : Con} (h : Inv g s) {k : Nat} (hk : k < cells g) :
    cell (scrup g s) k = scrolled g.videoNumColumns s.top s.bottom (cell s) k := by
  unfold scrup
  split
  next hfull => exact scrupOrigin_cell hg h hfull.2.1 hfull.2.2 hk
  next => exact scrupRegion_cell hg s k

theorem scrup_cursor (s : Con) : (scrup g s).toCursor = s.toCursor := by
  unfold scrup scrupOrigin
  simp only
  split_ifs <;> rfl

abbrev Geometry.withType (g : Geometry) (t : VideoType) : Geometry := { g with videoType := t }

/-- Two displays of the same size that show the same screen. -/
structure Twin (g : Geometry) (t : VideoType) (s s' : Con) : Prop where
  left : Inv g s
  right : Inv (g.withType t) s'
  cursor : s'.toCursor = s.toCursor
  agree : Agree (cells g) s.origin s'.origin s.ram s'.ram

theorem Inv.pos_eq {s : Con} (h : Inv g s) :
    s.pos = s.origin + 2 * (s.y * g.videoNumColumns + s.x) := by
  rw [h.pos, Geometry.videoSizeRow]
  ring

theorem Inv.line_cells {s : Con} (h : Inv g s) :
    s.y * g.videoNumColumns + g.videoNumColumns ≤ cells g := by
  rw [cells, ← Nat.succ_mul]
  exact Nat.mul_le_mul_right _ h.y

namespace Twin

variable {t : VideoType} {s s' : Con}

theorem pos (h : Twin g t s s') : s'.pos = s'.origin + 2 * (s.y * g.videoNumColumns + s.x) := by
  have hp := h.right.pos_eq
  rw [h.cursor] at hp
  exact hp

theorem ram (h : Twin g t s s') {m m' : Ram} (hl : Inv g { s with ram := m })
    (hr : Inv (g.withType t) { s' with ram := m' })
    (ha : Agree (cells g) s.origin s'.origin m m') :
      Twin g t { s with ram := m } { s' with ram := m' } :=
  ⟨hl, hr, h.cursor, ha⟩

theorem ite {p : Prop} [Decidable p] {u u' : Con} (hs : Twin g t s s') (hu : Twin g t u u') :
    Twin g t (if p then s else u) (if p then s' else u') := by
  split
  next => exact hs
  next => exact hu

theorem cond {p p' : Prop} [Decidable p] [Decidable p'] (hp : p' ↔ p) {u u' : Con}
    (hs : Twin g t s s') (hu : Twin g t u u') :
    Twin g t (if p then s else u) (if p' then s' else u') := by
  by_cases h : p
  · rw [if_pos h, if_pos (hp.mpr h)]
    exact hs
  · rw [if_neg h, if_neg (hp.not.mpr h)]
    exact hu

theorem keep {u u' : Con} (h : Twin g t s s') (hl : Inv g u) (hr : Inv (g.withType t) u')
    (hc : u'.toCursor = u.toCursor) (ho : u.origin = s.origin ∧ u.ram = s.ram)
    (ho' : u'.origin = s'.origin ∧ u'.ram = s'.ram) : Twin g t u u' := by
  refine ⟨hl, hr, hc, ?_⟩
  rw [ho.1, ho.2, ho'.1, ho'.2]
  exact h.agree

theorem gotoxy (h : Twin g t s s') (newX newY : Nat) :
    Twin g t (gotoxy g newX newY s) (gotoxy (g.withType t) newX newY s') := by
  refine h.keep (h.left.gotoxy _ _) (h.right.gotoxy _ _) ?_ ?_ ?_
  · unfold Console.gotoxy
    by_cases hout : g.videoNumColumns < newX ∨ g.videoNumLines ≤ newY
    · rw [if_pos hout, if_pos hout, h.cursor]
    · rw [if_neg hout, if_neg hout]
      simp only [h.cursor]
  · unfold Console.gotoxy
    split <;> exact ⟨rfl, rfl⟩
  · unfold Console.gotoxy
    split <;> exact ⟨rfl, rfl⟩

theorem scrup (hg : Fits g) (hg' : Fits (g.withType t)) (h : Twin g t s s') :
    Twin g t (scrup g s) (scrup (g.withType t) s') := by
  refine ⟨h.left.scrup hg, h.right.scrup hg', ?_, fun k hk => ?_⟩
  · rw [scrup_cursor, scrup_cursor, h.cursor]
  · have hl := scrup_cell hg h.left hk
    have hr := scrup_cell hg' h.right (k := k) hk
    have hold : scrolled g.videoNumColumns s.top s.bottom (cell s') k =
        scrolled g.videoNumColumns s.top s.bottom (cell s) k := by
      have hrows := region_rows h.left.region g.videoNumColumns
      have hcomm := Nat.mul_comm g.videoNumColumns s.top
      have hle : s.bottom * g.videoNumColumns ≤ cells g := Nat.mul_le_mul_right _ h.left.bottom
      unfold scrolled
      by_cases hin : s.top * g.videoNumColumns ≤ k ∧
          k < s.top * g.videoNumColumns + (s.bottom - s.top - 1) * g.videoNumColumns
      · rw [if_pos hin, if_pos hin]
        exact h.agree _ (by omega)
      · rw [if_neg hin, if_neg hin]
        split
        next => rfl
        next => exact h.agree k hk
    rw [h.cursor] at hr
    exact hr.trans (hold.trans hl.symm)

theorem scrdown (hg : Fits g) (hg' : Fits (g.withType t)) (h : Twin g t s s') :
    Twin g t (scrdown g s) (scrdown (g.withType t) s') := by
  have hcount := hg.count_cells (s.bottom - s.top - 1)
  have hrows := region_rows h.left.region g.videoNumColumns
  have hcomm := Nat.mul_comm g.videoNumColumns s.top
  have hle : s.bottom * g.videoNumColumns ≤ cells g := Nat.mul_le_mul_right _ h.left.bottom
  have hcols := hg.columns
  obtain ⟨b, hb⟩ : ∃ b, s.bottom = b + 1 := ⟨s.bottom - 1, by have := h.left.region; omega⟩
  have hlast : s.bottom * g.videoNumColumns = b * g.videoNumColumns + g.videoNumColumns := by
    rw [hb, Nat.succ_mul]
  have hsize : g.videoSizeRow * s.bottom = 2 * (s.bottom * g.videoNumColumns) := by
    rw [Geometry.videoSizeRow]
    ring
  have hprev : g.videoSizeRow * (s.bottom - 1) = 2 * (b * g.videoNumColumns) := by
    rw [Geometry.videoSizeRow, hb, Nat.add_sub_cancel]
    ring
  have hmoved : Agree (cells g) s.origin s'.origin
      (movslDown g ((s.bottom - s.top - 1) * g.videoNumColumns / 2)
        (s.origin + g.videoSizeRow * s.bottom - 4)
        (s.origin + g.videoSizeRow * (s.bottom - 1) - 4) s.ram)
      (movslDown (g.withType t) ((s.bottom - s.top - 1) * g.videoNumColumns / 2)
        (s'.origin + g.videoSizeRow * s.bottom - 4)
          (s'.origin + g.videoSizeRow * (s.bottom - 1) - 4) s'.ram) := by
    by_cases hzero : (s.bottom - s.top - 1) * g.videoNumColumns / 2 = 0
    · rw [hzero]
      exact h.agree
    · have hd : ∀ o, o + g.videoSizeRow * s.bottom - 4 =
        o + 2 * (s.bottom * g.videoNumColumns - 2) := fun o => by omega
      have he : ∀ o, o + g.videoSizeRow * (s.bottom - 1) - 4 =
        o + 2 * (b * g.videoNumColumns - 2) := fun o => by omega
      rw [hd, hd, he, he]
      exact h.agree.movslDown (by omega) (by omega) (by omega)
  have hfill : ∀ o, o + g.videoSizeRow * s.bottom - 4 - 4 *
      ((s.bottom - s.top - 1) * g.videoNumColumns / 2) + 2 =
        o + 2 * (s.top * g.videoNumColumns + g.videoNumColumns - 1) := fun o => by omega
  have hl := h.left.scrdown hg
  have hr := h.right.scrdown hg'
  unfold Console.scrdown at hl hr ⊢
  simp only [h.cursor] at hr ⊢
  refine ⟨hl, hr, rfl, ?_⟩
  have hrow : (g.withType t).videoSizeRow = g.videoSizeRow := rfl
  simp only [hrow]
  rw [hfill, hfill]
  exact hmoved.stoswDown (by omega)

theorem fromCursor {scroll scroll' : Con → Con}
    (hscroll : ∀ s s', Twin g t s s' → Twin g t (scroll s) (scroll' s')) (h : Twin g t s s') :
    Twin g t (fromCursor g scroll s) (fromCursor (g.withType t) scroll' s') := by
  have hl : Inv g { s with top := s.y, bottom := g.videoNumLines } :=
    ⟨h.left.x, h.left.y, h.left.y, Nat.le_refl _, h.left.npar, h.left.pos, h.left.scrEnd,
      h.left.start, h.left.fits, h.left.aligned, h.left.inside⟩
  have hr : Inv (g.withType t) { s' with top := s'.y, bottom := g.videoNumLines } :=
    ⟨h.right.x, h.right.y, h.right.y, Nat.le_refl _, h.right.npar, h.right.pos,
      h.right.scrEnd, h.right.start, h.right.fits, h.right.aligned, h.right.inside⟩
  have hs := hscroll _ _ (h.keep hl hr (by simp only [h.cursor]) ⟨rfl, rfl⟩ ⟨rfl, rfl⟩)
  unfold Console.fromCursor
  refine hs.keep ?_ ?_ ?_ ⟨rfl, rfl⟩ ⟨rfl, rfl⟩
  · exact ⟨hs.left.x, hs.left.y, h.left.region, h.left.bottom, hs.left.npar, hs.left.pos,
      hs.left.scrEnd, hs.left.start, hs.left.fits, hs.left.aligned, hs.left.inside⟩
  · exact ⟨hs.right.x, hs.right.y, h.right.region, h.right.bottom, hs.right.npar,
      hs.right.pos, hs.right.scrEnd, hs.right.start, hs.right.fits,
      hs.right.aligned, hs.right.inside⟩
  · have hc := hs.cursor
    simp only [h.cursor] at hc ⊢
    rw [hc]

theorem lf (hg : Fits g) (hg' : Fits (g.withType t)) (h : Twin g t s s') :
    Twin g t (lf g s) (lf (g.withType t) s') := by
  have hl := h.left.lf hg
  have hr := h.right.lf hg'
  unfold Console.lf at hl hr ⊢
  simp only [h.cursor] at hr ⊢
  split at hl
  next hlt =>
    rw [if_pos hlt] at hr ⊢
    rw [if_pos hlt]
    exact h.keep hl hr rfl ⟨rfl, rfl⟩ ⟨rfl, rfl⟩
  next hlt =>
    rw [if_neg hlt, if_neg hlt]
    exact h.scrup hg hg'

theorem ri (hg : Fits g) (hg' : Fits (g.withType t)) (h : Twin g t s s') :
    Twin g t (ri g s) (ri (g.withType t) s') := by
  have hl := h.left.ri hg
  have hr := h.right.ri hg'
  unfold Console.ri at hl hr ⊢
  simp only [h.cursor] at hr ⊢
  split at hl
  next hlt =>
    rw [if_pos hlt] at hr ⊢
    rw [if_pos hlt]
    exact h.keep hl hr rfl ⟨rfl, rfl⟩ ⟨rfl, rfl⟩
  next hlt =>
    rw [if_neg hlt, if_neg hlt]
    exact h.scrdown hg hg'

theorem cr (h : Twin g t s s') : Twin g t (cr s) (cr s') := by
  refine h.keep h.left.cr h.right.cr ?_ ⟨rfl, rfl⟩ ⟨rfl, rfl⟩
  simp only [Console.cr, h.cursor]

theorem del (h : Twin g t s s') : Twin g t (del g s) (del (g.withType t) s') := by
  have hl := h.left.del
  have hr := h.right.del
  unfold Console.del at hl hr ⊢
  have hx' : s'.x = s.x := congrArg Cursor.x h.cursor
  by_cases hx : s.x ≠ 0
  · rw [if_pos hx] at hl ⊢
    rw [if_pos (hx' ▸ hx)] at hr ⊢
    refine ⟨hl, hr, by simp only [h.cursor], ?_⟩
    have hp := h.left.pos_eq
    have hp' := h.pos
    simp only
    rw [show s.pos - 2 = s.origin + 2 * (s.y * g.videoNumColumns + s.x - 1) by omega,
      show s'.pos - 2 = s'.origin + 2 * (s.y * g.videoNumColumns + s.x - 1) by omega]
    exact h.agree.poke _ _
  · rw [if_neg hx, if_neg (hx' ▸ hx)]
    exact h

theorem insertChar (h : Twin g t s s') :
    Twin g t (insertChar g s) (insertChar (g.withType t) s') := by
  have hx := h.left.x
  have hline := h.left.line_cells
  refine ⟨h.left.insertChar, h.right.insertChar, h.cursor, ?_⟩
  simp only [Console.insertChar]
  rw [h.left.pos_eq, h.pos, h.cursor]
  exact h.agree.insertLoop (by omega) _

theorem deleteChar (h : Twin g t s s') :
    Twin g t (deleteChar g s) (deleteChar (g.withType t) s') := by
  have hl := h.left.deleteChar
  have hr := h.right.deleteChar
  have hline := h.left.line_cells
  unfold Console.deleteChar at hl hr ⊢
  have hx' : s'.x = s.x := congrArg Cursor.x h.cursor
  by_cases hx : g.videoNumColumns ≤ s.x
  · rw [if_pos hx, if_pos (hx'.symm ▸ hx)]
    exact h
  · rw [if_neg hx] at hl ⊢
    rw [if_neg (hx'.symm ▸ hx)] at hr ⊢
    refine h.ram hl hr ?_
    rw [h.left.pos_eq, h.pos, hx']
    exact h.agree.deleteLoop (by omega)

theorem iterate {f f' : Con → Con} (hf : ∀ s s', Twin g t s s' → Twin g t (f s) (f' s')) (n : Nat)
    (h : Twin g t s s') : Twin g t (f^[n] s) (f'^[n] s') := by
  induction n generalizing s s' with
  | zero => exact h
  | succ n ih => exact ih (hf s s' h)

theorem csiJ (h : Twin g t s s') (par : Nat) :
    Twin g t (csiJ g par s) (csiJ (g.withType t) par s') := by
  have hl := h.left.csiJ par
  have hr := h.right.csiJ par
  have hrow : g.videoNumLines * g.videoSizeRow = 2 * cells g := by
    rw [Geometry.videoSizeRow, cells]
    ring
  have hend := h.left.scrEnd
  have hend' : s'.scrEnd = s'.origin + g.videoNumLines * g.videoSizeRow := h.right.scrEnd
  have hp := h.left.pos_eq
  have hp' := h.pos
  unfold Console.csiJ at hl hr ⊢
  split at hl
  next =>
    refine h.ram hl hr ?_
    rw [hp, hp', show (s.scrEnd - (s.origin + 2 * (s.y * g.videoNumColumns + s.x))) / 2 =
      (s'.scrEnd - (s'.origin + 2 * (s.y * g.videoNumColumns + s.x))) / 2 by omega]
    exact h.agree.stosw _ _
  next =>
    refine h.ram hl hr ?_
    rw [show (s.pos - s.origin) / 2 = (s'.pos - s'.origin) / 2 by omega]
    exact h.agree.stosw _ 0
  next =>
    refine h.ram hl hr ?_
    exact h.agree.stosw _ 0
  next => exact h

theorem csiK (h : Twin g t s s') (par : Nat) :
    Twin g t (csiK g par s) (csiK (g.withType t) par s') := by
  have hl := h.left.csiK par
  have hr := h.right.csiK par
  have hx' : s'.x = s.x := congrArg Cursor.x h.cursor
  have hp := h.left.pos_eq
  have hp' := h.pos
  have hstart : s.pos - s.x * 2 = s.origin + 2 * (s.y * g.videoNumColumns) := by omega
  have hstart' : s'.pos - s.x * 2 = s'.origin + 2 * (s.y * g.videoNumColumns) := by omega
  unfold Console.csiK at hl hr ⊢
  rw [hx'] at hr ⊢
  split at hl
  next =>
    by_cases hx : g.videoNumColumns ≤ s.x
    · simp only [if_pos hx]
      exact h
    · simp only [if_neg hx] at hl hr ⊢
      refine h.ram hl hr ?_
      rw [hp, hp']
      exact h.agree.stosw _ _
  next =>
    refine h.ram hl hr ?_
    rw [hstart, hstart']
    exact h.agree.stosw _ _
  next =>
    refine h.ram hl hr ?_
    rw [hstart, hstart']
    exact h.agree.stosw _ _
  next => exact h

theorem parser (h : Twin g t s s') (state : Nat) (par : Nat → UInt32) (ques : Bool) {npar : Nat}
    (hn : npar < nPar) : Twin g t { s with state := state, npar := npar, par := par, ques := ques }
      { s' with state := state, npar := npar, par := par, ques := ques } :=
  h.keep (h.left.parser state par ques hn) (h.right.parser state par ques hn)
    (by simp only [h.cursor]) ⟨rfl, rfl⟩ ⟨rfl, rfl⟩

theorem decPar (h : Twin g t s s') (i : Nat) : Twin g t (decPar i s) (decPar i s') :=
  h.keep (h.left.decPar i) (h.right.decPar i) (by simp only [Console.decPar, h.cursor])
    ⟨rfl, rfl⟩ ⟨rfl, rfl⟩

theorem defaultPar (h : Twin g t s s') (i : Nat) (v : UInt32) :
    Twin g t (defaultPar i v s) (defaultPar i v s') :=
  h.keep (h.left.defaultPar i v) (h.right.defaultPar i v)
    (by simp only [Console.defaultPar, h.cursor]) ⟨rfl, rfl⟩ ⟨rfl, rfl⟩

theorem saveCur (h : Twin g t s s') : Twin g t (saveCur s) (saveCur s') :=
  h.keep h.left.saveCur h.right.saveCur (by simp only [Console.saveCur, h.cursor])
    ⟨rfl, rfl⟩ ⟨rfl, rfl⟩

theorem csim (h : Twin g t s s') : Twin g t (csim s) (csim s') :=
  h.keep h.left.csim h.right.csim (by simp only [Console.csim, h.cursor]) ⟨rfl, rfl⟩ ⟨rfl, rfl⟩

theorem setRegion (h : Twin g t s s') : Twin g t (setRegion g s) (setRegion (g.withType t) s') := by
  have hl := h.left.setRegion
  have hr := h.right.setRegion
  have hpar : s'.par = s.par := congrArg Cursor.par h.cursor
  unfold Console.setRegion at hl hr ⊢
  rw [hpar] at hr ⊢
  split at hl
  next hin =>
    rw [if_pos hin] at hr
    rw [if_pos hin, if_pos hin]
    exact h.keep hl hr (by simp only [h.cursor]) ⟨rfl, rfl⟩ ⟨rfl, rfl⟩
  next hin =>
    rw [if_neg hin, if_neg hin]
    exact h

theorem gotoxy_of (h : Twin g t s s') {newX newY newX' newY' : Nat} (hx : newX' = newX)
    (hy : newY' = newY) :
    Twin g t (Console.gotoxy g newX newY s) (Console.gotoxy (g.withType t) newX' newY' s') := by
  rw [hx, hy]
  exact h.gotoxy newX newY

theorem move (h : Twin g t s s') {newX newY : Con → Nat}
    (hx : ∀ u u' : Con, u'.toCursor = u.toCursor → newX u' = newX u)
    (hy : ∀ u u' : Con, u'.toCursor = u.toCursor → newY u' = newY u) :
    Twin g t (move g newX newY s) (move (g.withType t) newX newY s') := by
  have hd := h.defaultPar 0 1
  exact hd.gotoxy_of (hx _ _ hd.cursor) (hy _ _ hd.cursor)

theorem command (hg : Fits g) (hg' : Fits (g.withType t)) (h : Twin g t s s') (c : Nat) :
    Twin g t (command g c s) (command (g.withType t) c s') := by
  have hd := h.decPar 0
  have hdd := hd.decPar 1
  have hpar : s'.par = s.par := congrArg Cursor.par h.cursor
  have hx : s'.x = s.x := congrArg Cursor.x h.cursor
  have hy : s'.y = s.y := congrArg Cursor.y h.cursor
  have hdpar : (Console.decPar 0 s').par = (Console.decPar 0 s).par := congrArg Cursor.par hd.cursor
  have hddpar : (Console.decPar 1 (Console.decPar 0 s')).par =
    (Console.decPar 1 (Console.decPar 0 s)).par :=
    congrArg Cursor.par hdd.cursor
  unfold Console.command
  rw [hpar, hx, hy, hdpar, hddpar]
  refine .ite (hd.gotoxy _ _) <| .ite (h.move ?_ ?_) <| .ite (h.move ?_ ?_) <|
    .ite (h.move ?_ ?_) <| .ite (h.move ?_ ?_) <| .ite (h.move ?_ ?_) <| .ite (h.move ?_ ?_) <|
    .ite (hd.gotoxy _ _) <| .ite (hdd.gotoxy _ _) <| .ite (h.csiJ _) <| .ite (h.csiK _) <|
    .ite ?_ <| .ite ?_ <| .ite ?_ <| .ite ?_ <| .ite h.csim <| .ite (hd.defaultPar 1 _).setRegion <|
      .ite h.saveCur <| .ite ?_ h
  -- the targets of the movements
  iterate 12 · exact fun u u' hc => by simp only [hc]
  · exact h.iterate (fun _ _ hs => hs.fromCursor fun _ _ hs => hs.scrdown hg hg') _
  · exact h.iterate (fun _ _ hs => hs.fromCursor fun _ _ hs => hs.scrup hg hg') _
  · exact h.iterate (fun _ _ hs => hs.deleteChar) _
  · exact h.iterate (fun _ _ hs => hs.insertChar) _
  · exact h.gotoxy_of (congrArg Cursor.savedX h.cursor) (congrArg Cursor.savedY h.cursor)

theorem csi (hg : Fits g) (hg' : Fits (g.withType t)) (h : Twin g t s s') (c : Nat) :
    Twin g t (csi g c s) (csi (g.withType t) c s') := by
  have h₀ : Twin g t { s with state := 0 } { s' with state := 0 } :=
    h.keep (h.left.parser 0 s.par s.ques h.left.npar) (h.right.parser 0 s'.par s'.ques h.right.npar)
      (by simp only [h.cursor]) ⟨rfl, rfl⟩ ⟨rfl, rfl⟩
  exact h₀.command hg hg' c

theorem parameter (hg : Fits g) (hg' : Fits (g.withType t)) (h : Twin g t s s') (c : Nat) :
    Twin g t (parameter g c s) (parameter (g.withType t) c s') := by
  have hnpar : s'.npar = s.npar := congrArg Cursor.npar h.cursor
  have hsep : (c = ';'.toNat ∧ s'.npar < nPar - 1) ↔ c = ';'.toNat ∧ s.npar < nPar - 1 := by
    rw [hnpar]
  unfold Console.parameter
  by_cases hin : c = ';'.toNat ∧ s.npar < nPar - 1
  · rw [if_pos hin, if_pos (hsep.mpr hin)]
    have hn : s.npar + 1 < nPar := by
      have := hin.2
      omega
    exact h.keep (h.left.parser s.state s.par s.ques hn)
      (h.right.parser s'.state s'.par s'.ques (hnpar.symm ▸ hn))
      (by simp only [h.cursor]) ⟨rfl, rfl⟩ ⟨rfl, rfl⟩
  · rw [if_neg hin, if_neg (hsep.not.mpr hin)]
    refine .ite ?_ ?_
    · exact h.keep (h.left.parser s.state _ s.ques h.left.npar)
        (h.right.parser s'.state _ s'.ques h.right.npar)
        (by simp only [h.cursor]) ⟨rfl, rfl⟩ ⟨rfl, rfl⟩
    · have h₄ : Twin g t { s with state := 4 } { s' with state := 4 } :=
        h.keep (h.left.parser 4 s.par s.ques h.left.npar)
          (h.right.parser 4 s'.par s'.ques h.right.npar)
          (by simp only [h.cursor]) ⟨rfl, rfl⟩ ⟨rfl, rfl⟩
      exact h₄.csi hg hg' c

theorem introduce (hg : Fits g) (hg' : Fits (g.withType t)) (h : Twin g t s s') (c : Nat) :
    Twin g t (introduce g c s) (introduce (g.withType t) c s') := by
  have h₃ := h.parser 3 (fun _ => 0) (decide (c = '?'.toNat)) (show 0 < nPar by decide)
  exact .ite h₃ (h₃.parameter hg hg' c)

theorem escape (hg : Fits g) (hg' : Fits (g.withType t)) (h : Twin g t s s') (c : Nat) :
    Twin g t (escape g c s) (escape (g.withType t) c s') := by
  have hstate : ∀ k, Twin g t { s with state := k } { s' with state := k } := fun k =>
    h.keep (h.left.parser k s.par s.ques h.left.npar) (h.right.parser k s'.par s'.ques h.right.npar)
      (by simp only [h.cursor]) ⟨rfl, rfl⟩ ⟨rfl, rfl⟩
  have h₀ := hstate 0
  have hx : s'.x = s.x := congrArg Cursor.x h.cursor
  have hy : s'.y + 1 = s.y + 1 := congrArg (fun u : Cursor => u.y + 1) h.cursor
  unfold Console.escape
  refine .ite (hstate 2) <| .ite (h₀.gotoxy_of rfl hy) <| .ite (h₀.ri hg hg') <|
    .ite (h₀.lf hg hg') <| .ite h₀ <| .cond (by simp only [hx]) h₀.saveCur <|
      .cond (by simp only [hx]) ?_ h₀
  exact h₀.gotoxy_of (congrArg Cursor.savedX h₀.cursor) (congrArg Cursor.savedY h₀.cursor)

theorem column (h : Twin g t s s') {x pos pos' : Nat} (hx : x ≤ g.videoNumColumns)
    (hpos : pos = s.origin + s.y * g.videoSizeRow + x * 2)
    (hpos' : pos' = s'.origin + s.y * g.videoSizeRow + x * 2) :
    Twin g t { s with x := x, pos := pos } { s' with x := x, pos := pos' } := by
  have hy : s'.y = s.y := congrArg Cursor.y h.cursor
  refine h.keep (h.left.column hx hpos) (h.right.column hx ?_) (by simp only [h.cursor])
    ⟨rfl, rfl⟩ ⟨rfl, rfl⟩
  rw [hy]
  exact hpos'

theorem right_pos (h : Twin g t s s') : s'.pos = s'.origin + s.y * g.videoSizeRow + s.x * 2 := by
  have hp := h.right.pos
  rw [h.cursor] at hp
  exact hp

theorem wrap (hg : Fits g) (hg' : Fits (g.withType t)) (h : Twin g t s s') {x pos pos' : Nat}
    (hx : x ≤ s.x + 8) (hlt : g.videoNumColumns ≤ x)
    (hpos : pos = s.origin + s.y * g.videoSizeRow + x * 2)
    (hpos' : pos' = s'.origin + s.y * g.videoSizeRow + x * 2) :
    Twin g t (wrap g { s with x := x, pos := pos })
      (wrap (g.withType t) { s' with x := x, pos := pos' }) := by
  have hcols := hg.columns
  have hxc := h.left.x
  have hrow : g.videoSizeRow = g.videoNumColumns * 2 := rfl
  have hc : Twin g t { s with x := x - g.videoNumColumns, pos := pos - g.videoSizeRow }
      { s' with x := x - g.videoNumColumns, pos := pos' - g.videoSizeRow } :=
    h.column (by omega) (by omega) (by omega)
  exact hc.lf hg hg'

theorem printChar (h : Twin g t s s') (hx : s.x < g.videoNumColumns) (c : Nat) :
    Twin g t (printChar g c s) (printChar (g.withType t) c s') := by
  have hx' : s'.x = s.x := congrArg Cursor.x h.cursor
  have hattr : s'.attr = s.attr := congrArg Cursor.attr h.cursor
  refine ⟨h.left.printChar hx c, h.right.printChar (hx'.symm ▸ hx) c, ?_, ?_⟩
  · simp only [Console.printChar, h.cursor]
  · simp only [Console.printChar]
    rw [h.left.pos_eq, h.pos, hattr]
    exact h.agree.poke _ _

theorem tab (hg : Fits g) (hg' : Fits (g.withType t)) (h : Twin g t s s') :
    Twin g t (tab g s) (tab (g.withType t) s') := by
  have hx' : s'.x = s.x := congrArg Cursor.x h.cursor
  have hp := h.left.pos
  have hp' := h.right_pos
  unfold Console.tab
  simp only [hx']
  by_cases hlt : g.videoNumColumns < s.x + (8 - s.x % 8)
  · rw [if_pos hlt, if_pos hlt]
    exact h.wrap hg hg' (by omega) (Nat.le_of_lt hlt) (by omega) (by omega)
  · rw [if_neg hlt, if_neg hlt]
    exact h.column (by omega) (by omega) (by omega)

theorem plain (hg : Fits g) (hg' : Fits (g.withType t)) (h : Twin g t s s') (eraseChar c : Nat) :
    Twin g t (plain g eraseChar c s) (plain (g.withType t) eraseChar c s') := by
  have hx' : s'.x = s.x := congrArg Cursor.x h.cursor
  have hp := h.left.pos
  have hp' := h.right_pos
  have hxc := h.left.x
  have hcols := hg.columns
  have hsame : ({ s' with x := s.x, pos := s'.pos } : Con) = s' := by rw [← hx']
  unfold Console.plain
  refine .ite ?_ <| .ite ?_ <| .ite (h.lf hg hg') <| .ite h.cr <| .ite h.del <| .ite ?_ <|
    .ite (h.tab hg hg') h
  · by_cases hfull : g.videoNumColumns ≤ s.x
    · have hw := h.wrap hg hg' (Nat.le_add_right s.x 8) hfull hp hp'
      rw [hsame] at hw
      rw [if_pos hfull, if_pos (hx'.symm ▸ hfull)]
      refine hw.printChar ?_ c
      rw [Console.wrap, lf_x]
      simp only
      omega
    · rw [if_neg hfull, if_neg (hx'.symm ▸ hfull)]
      exact h.printChar (Nat.not_le.mp hfull) c
  · exact h.keep (h.left.parser 1 s.par s.ques h.left.npar)
      (h.right.parser 1 s'.par s'.ques h.right.npar)
      (by simp only [h.cursor]) ⟨rfl, rfl⟩ ⟨rfl, rfl⟩
  · by_cases hx : s.x ≠ 0
    · rw [if_pos hx, if_pos (hx'.symm ▸ hx), hx']
      exact h.column (by omega) (by omega) (by omega)
    · rw [if_neg hx, if_neg (hx'.symm ▸ hx)]
      exact h

theorem conWriteChar (hg : Fits g) (hg' : Fits (g.withType t)) (h : Twin g t s s')
    (eraseChar c : Nat) :
    Twin g t (conWriteChar g eraseChar c s) (conWriteChar (g.withType t) eraseChar c s') := by
  have hstate : s'.state = s.state := congrArg Cursor.state h.cursor
  unfold Console.conWriteChar
  rw [hstate]
  split
  next => exact h.plain hg hg' eraseChar c
  next => exact h.escape hg hg' c
  next => exact h.introduce hg hg' c
  next => exact h.parameter hg hg' c
  next => exact h.csi hg hg' c
  next => exact h

end Twin

/-- Displays of two types show the same screen after every stream of
characters, if they did before. -/
theorem conWrite_same {t : VideoType} (hg : Fits g) (hg' : Fits (g.withType t)) {s s' : Con}
    (h : Twin g t s s') (eraseChar : Nat) (cs : List Nat) :
    Twin g t (conWrite g eraseChar cs s) (conWrite (g.withType t) eraseChar cs s') := by
  induction cs generalizing s s' with
  | nil => exact h
  | cons c cs ih => exact ih (h.conWriteChar hg hg' eraseChar c)

theorem conWrite_same_cga :
    Twin vga .cga (conWrite vga 127 [27, 91, 77, 10, 65] blankScreen)
      (conWrite (vga.withType .cga) 127 [27, 91, 77, 10, 65] blankScreen) :=
  conWrite_same vga_fits ⟨by decide, by decide, by decide⟩
    ⟨blankScreen_start.inv vga_fits,
      Start.inv ⟨by decide, by decide, by decide⟩ ⟨by decide, by decide, rfl, rfl, rfl, rfl, rfl,
        rfl, rfl, rfl⟩, rfl,
      fun _ _ => rfl⟩ 127 _

end Gpos.Console
