import Gpos.RequestSoundness

/-! The order of the requests of one device. A run adds requests, starts the
second sector of the current request, and ends the current request. -/

namespace Gpos.Requests

/-- `make_request` has put the request `q` into the slot `r` before it is added. -/
inductive QueueAct
  | add (r : Nat) (q : Request)
  | advance
  | remove (uptodate : Bool)

section

variable {T : Type*}

def queueStep (a : QueueAct) (s : State T) : Option (State T) :=
  match a with
  | .add r q => addRequest r (setRequest r (fun _ => q) s)
  | .advance =>
    s.currentRequest.map fun c =>
      setRequest c (fun q => { q with sector := (q.sector + 1) % 2 ^ 32 }) s
  | .remove uptodate => s.currentRequest.map fun c => endRequest uptodate c s

/-- A block is two sectors. -/
def SameBlock (p q : Request) : Prop := p.dev = q.dev ∧ p.sector / 2 = q.sector / 2

instance (p q : Request) : Decidable (SameBlock p q) := inferInstanceAs (Decidable (_ ∧ _))

/-- The slot is free, and no other request is for the same block, whose buffer
is locked. The current request is at the first of its two sectors. -/
def Allowed (s : State T) : QueueAct → Prop
  | .add r q => r < nrRequest ∧ (s.request r).dev < 0 ∧ 0 ≤ q.dev ∧ q.sector < 2 ^ 32 ∧
      ∀ x < nrRequest, 0 ≤ (s.request x).dev → ¬ SameBlock q (s.request x)
  | .advance => ∀ c ∈ s.currentRequest, (s.request c).sector % 2 = 0
  | .remove _ => True

instance (s : State T) : ∀ a, Decidable (Allowed s a)
  | .add _ _ => inferInstanceAs (Decidable (_ ∧ _))
  | .advance => inferInstanceAs (Decidable (∀ c ∈ s.currentRequest, _))
  | .remove _ => isTrue trivial

structure Empty (s : State T) : Prop where
  currentRequest : s.currentRequest = none
  free : ∀ r, (s.request r).dev < 0

/-- The queue from the current request on is `l`. -/
structure Line (s : State T) (l : List Nat) : Prop where
  chain : Chain.Visits (fun r => (s.request r).next) s.currentRequest l
  used : ∀ r, r ∈ l ↔ r < nrRequest ∧ 0 ≤ (s.request r).dev
  apart : ∀ x ∈ l, ∀ y ∈ l, x ≠ y → ¬ SameBlock (s.request x) (s.request y)
  word : ∀ x ∈ l, (s.request x).sector < 2 ^ 32

theorem inOrder_trans {p q r : Request} (h : inOrder p q) (h' : inOrder q r) : inOrder p r := by
  simp only [inOrder, Bool.or_eq_true, Bool.and_eq_true, decide_eq_true_eq] at h h' ⊢
  rcases h with ⟨h₁, h₂⟩ | ⟨h₁, h₂⟩ <;> rcases h' with ⟨h₃, h₄⟩ | ⟨h₃, h₄⟩
  · simp [h₂] at h₃
  · exact Or.inl ⟨h₁, h₃ ▸ h₂⟩
  · exact Or.inl ⟨h₁.trans h₃, h₄⟩
  · exact Or.inr ⟨h₁.trans h₃, by omega⟩

theorem inOrder_asymm {p q : Request} (h : inOrder p q) : inOrder q p = false := by
  by_contra hne
  have hpp := inOrder_trans h (by simpa using hne)
  simp only [inOrder, Bool.or_eq_true, Bool.and_eq_true, decide_eq_true_eq] at hpp
  rcases hpp with ⟨h₁, h₂⟩ | ⟨-, h₂⟩
  · simp [h₁] at h₂
  · omega

theorem inOrder_block {p q p' : Request} (hpq : ¬ SameBlock p q) (hcmd : p'.cmd = p.cmd)
    (hdev : p'.dev = p.dev) (hsec : p'.sector / 2 = p.sector / 2) :
    inOrder p' q = inOrder p q ∧ inOrder q p' = inOrder q p := by
  have hs : p.dev = q.dev → p.sector / 2 ≠ q.sector / 2 := fun hd he => hpq ⟨hd, he⟩
  have hlt : p.dev = q.dev → (p'.sector < q.sector ↔ p.sector < q.sector) ∧
    (q.sector < p'.sector ↔ q.sector < p.sector) := by
    intro hd
    have hne := hs hd
    omega
  simp only [inOrder, hcmd, hdev]
  by_cases hd : p.dev = q.dev
  · simp [hd, (hlt hd).1, (hlt hd).2]
  · simp [hd, Ne.symm hd]

theorem inOrder_total {p q : Request} (h : ¬ SameBlock p q) : inOrder p q ∨ inOrder q p := by
  have hs : p.dev = q.dev → p.sector / 2 ≠ q.sector / 2 := fun hd he => h ⟨hd, he⟩
  have hlt : (p.dev < q.dev ∨ p.dev = q.dev ∧ p.sector < q.sector) ∨
    (q.dev < p.dev ∨ q.dev = p.dev ∧ q.sector < p.sector) := by
    omega
  simp only [inOrder, Bool.or_eq_true, Bool.and_eq_true, decide_eq_true_eq]
  cases hp : p.cmd <;> cases hq : q.cmd
  · exact hlt.imp (fun h => Or.inr ⟨rfl, h⟩) fun h => Or.inr ⟨rfl, h⟩
  · exact Or.inl (Or.inl ⟨rfl, rfl⟩)
  · exact Or.inr (Or.inl ⟨rfl, rfl⟩)
  · exact hlt.imp (fun h => Or.inr ⟨rfl, h⟩) fun h => Or.inr ⟨rfl, h⟩

theorem Empty.line {s : State T} (h : Empty s) : Line s [] where
  chain := h.currentRequest
  used r := iff_of_false List.not_mem_nil fun hr => absurd (h.free r) (Int.not_lt.mpr hr.2)
  apart := nofun
  word := nofun

theorem Line.length_le {s : State T} {l : List Nat} (h : Line s l) : l.length ≤ nrRequest := by
  have hsub : l ⊆ List.range nrRequest := fun r hr => List.mem_range.mpr ((h.used r).mp hr).1
  simpa using (h.chain.nodup.subperm hsub).length_le

theorem Line.unique {s : State T} {l m : List Nat} (h : Line s l)
    (hm : Chain.Visits (fun r => (s.request r).next) s.currentRequest m) :
    m = l := hm.unique h.chain

theorem Line.ne {s : State T} {l : List Nat} (h : Line s l) {r : Nat} {q : Request}
    (ha : Allowed s (.add r q)) : ∀ x ∈ l, x ≠ r := by
  rintro x hx rfl
  exact absurd ha.2.1 (Int.not_lt.mpr ((h.used x).mp hx).2)

def filled (r : Nat) (q : Request) (s : State T) : State T := setRequest r (fun _ => q) s

theorem filled_self (r : Nat) (q : Request) (s : State T) : (filled r q s).request r = q := by
  rw [filled, setRequest_request, if_pos rfl]

theorem filled_of_ne {r x : Nat} (hx : x ≠ r) (q : Request) (s : State T) :
    (filled r q s).request x = s.request x := by
  rw [filled, setRequest_request, if_neg hx]

theorem Line.add {s : State T} {l : List Nat} (h : Line s l) {r : Nat} {q : Request}
    (ha : Allowed s (.add r q)) :
    ∃ t l₁ l₂, queueStep (.add r q) s = some t ∧ l = l₁ ++ l₂ ∧ Added (filled r q s) t r l₁ l₂ ∧
      Line t (l₁ ++ r :: l₂) := by
  have hne := h.ne ha
  have hr : r ∉ l := fun hm => hne r hm rfl
  obtain ⟨hlt, hfree, hdev, hword, hblock⟩ := ha
  have hchain : Chain.Visits (fun x => ((filled r q s).request x).next)
    (filled r q s).currentRequest l :=
    h.chain.congr fun x hx => by rw [filled_of_ne (hne x hx)]
  obtain ⟨t, l₁, l₂, he, rfl, hadd⟩ := addRequest_added hchain hr h.length_le
  have hmem : ∀ x, x ∈ l₁ ++ r :: l₂ ↔ x = r ∨ x ∈ l₁ ++ l₂ := by
    intro x
    simp only [List.mem_append, List.mem_cons]
    tauto
  have hother : ∀ x, x ≠ r → (t.request x).dev = (s.request x).dev ∧
    (t.request x).sector = (s.request x).sector := by
    intro x hx
    rw [hadd.same, filled_of_ne hx]
    exact ⟨rfl, rfl⟩
  have hself : (t.request r).dev = q.dev ∧ (t.request r).sector = q.sector := by
    rw [hadd.same, filled_self]
    exact ⟨rfl, rfl⟩
  have hnew : ∀ x ∈ l₁ ++ l₂, ¬ SameBlock (t.request r) (t.request x) := by
    intro x hx
    have hx' := (h.used x).mp hx
    rw [SameBlock, hself.1, hself.2, (hother x (hne x hx)).1, (hother x (hne x hx)).2]
    exact hblock x hx'.1 hx'.2
  refine ⟨t, l₁, l₂, he, rfl, hadd, hadd.chain, fun x => ?_,
    fun x hx y hy hxy => ?_, fun x hx => ?_⟩
  · rw [hmem]
    by_cases hx : x = r
    · subst hx
      rw [hself.1]
      exact iff_of_true (Or.inl rfl) ⟨hlt, hdev⟩
    · rw [(hother x hx).1, ← h.used]
      simp [hx]
  · rcases (hmem x).mp hx with rfl | hx'
    · exact hnew y (((hmem y).mp hy).resolve_left (Ne.symm hxy))
    · rcases (hmem y).mp hy with rfl | hy'
      · exact fun hb => hnew x hx' ⟨hb.1.symm, hb.2.symm⟩
      · rw [SameBlock, (hother x (hne x hx')).1, (hother x (hne x hx')).2, (hother y (hne y hy')).1,
          (hother y (hne y hy')).2]
        exact h.apart x hx' y hy' hxy
  · rcases (hmem x).mp hx with rfl | hx'
    · rw [hself.2]
      exact hword
    · rw [(hother x (hne x hx')).2]
      exact h.word x hx'

theorem queueStep_advance {s t : State T} (hs : queueStep .advance s = some t) :
    ∃ c, s.currentRequest = some c ∧ t.currentRequest = some c ∧
      t.request = Function.update s.request c { s.request c with
        sector := ((s.request c).sector + 1) % 2 ^ 32 } := by
  obtain ⟨c, hc, rfl⟩ := Option.map_eq_some_iff.mp hs
  exact ⟨c, hc, hc, rfl⟩

theorem queueStep_remove {s t : State T} {uptodate : Bool}
    (hs : queueStep (.remove uptodate) s = some t) :
    ∃ c, s.currentRequest = some c ∧ t.currentRequest = (s.request c).next ∧
      t.request = Function.update s.request c { s.request c with dev := -1 } := by
  obtain ⟨c, hc, rfl⟩ := Option.map_eq_some_iff.mp hs
  refine ⟨c, hc, ?_, ?_⟩ <;> unfold endRequest <;> cases (s.request c).bh <;>
    simp [setRequest, setBuf]

theorem Line.advance {s t : State T} {l : List Nat} (h : Line s l) (ha : Allowed s .advance)
    (hs : queueStep .advance s = some t) :
    Line t l ∧ (∀ x, (t.request x).cmd = (s.request x).cmd) ∧ ∀ x ∈ l, ∀ y ∈ l, x ≠ y →
      before t x y = before s x y := by
  obtain ⟨c, hc, hcur, hreq⟩ := queueStep_advance hs
  cases l with
  | nil => exact absurd (hc.symm.trans h.chain) nofun
  | cons c' l =>
    obtain rfl : c' = c := Option.some.inj (h.chain.1.symm.trans hc)
    have heven : (s.request c').sector % 2 = 0 := ha c' hc
    have hword := h.word c' (by simp)
    have hself : t.request c' = { s.request c' with sector := (s.request c').sector + 1 } := by
      rw [hreq, Function.update_self, Nat.mod_eq_of_lt (by omega)]
    have hother : ∀ x, x ≠ c' → t.request x = s.request x :=
      fun x hx => by rw [hreq, Function.update_of_ne hx]
    have hall : ∀ x, (t.request x).cmd = (s.request x).cmd ∧ (t.request x).dev = (s.request x).dev ∧
        (t.request x).sector / 2 = (s.request x).sector / 2 ∧
          (t.request x).next = (s.request x).next := by
      intro x
      by_cases hx : x = c'
      · subst hx
        rw [hself]
        exact ⟨rfl, rfl, by dsimp only; omega, rfl⟩
      · rw [hother x hx]
        exact ⟨rfl, rfl, rfl, rfl⟩
    refine ⟨⟨?_, fun r => ?_, fun x hx y hy hxy => ?_, fun x hx => ?_⟩, fun x => (hall x).1,
      fun x hx y hy hxy => ?_⟩
    · rw [hcur, ← hc]
      exact h.chain.congr fun x _ => (hall x).2.2.2
    · rw [h.used, (hall r).2.1]
    · rw [SameBlock, (hall x).2.1, (hall x).2.2.1, (hall y).2.1, (hall y).2.2.1]
      exact h.apart x hx y hy hxy
    · by_cases hx' : x = c'
      · subst hx'
        rw [hself]
        dsimp only
        omega
      · rw [hother x hx']
        exact h.word x hx
    · have hxs : ¬ SameBlock (t.request x) (s.request y) := by
        rw [SameBlock, (hall x).2.1, (hall x).2.2.1]
        exact h.apart x hx y hy hxy
      rw [before, (inOrder_block (fun hb => hxs ⟨hb.1.symm, hb.2.symm⟩) (hall y).1 (hall y).2.1
        (hall y).2.2.1).2]
      exact (inOrder_block (h.apart x hx y hy hxy) (hall x).1 (hall x).2.1 (hall x).2.2.1).1

theorem Line.remove {s t : State T} {l : List Nat} {uptodate : Bool} (h : Line s l)
    (hs : queueStep (.remove uptodate) s = some t) :
    Line t l.tail ∧ ∀ x ∈ l.tail, t.request x = s.request x := by
  obtain ⟨c, hc, hcur, hreq⟩ := queueStep_remove hs
  cases l with
  | nil => exact absurd (hc.symm.trans h.chain) nofun
  | cons c' l =>
    obtain rfl : c' = c := Option.some.inj (h.chain.1.symm.trans hc)
    have hnd := List.nodup_cons.mp h.chain.nodup
    have hother : ∀ x, x ≠ c' → t.request x = s.request x :=
      fun x hx => by rw [hreq, Function.update_of_ne hx]
    have hl : ∀ x ∈ l, t.request x = s.request x := fun x hx => hother x fun e => hnd.1 (e ▸ hx)
    refine ⟨⟨?_, fun r => ?_, fun x hx y hy hxy => ?_, fun x hx => ?_⟩, hl⟩
    · rw [hcur]
      exact h.chain.2.congr fun x hx => by rw [hl x hx]
    · by_cases hr : r = c'
      · subst hr
        rw [hreq, Function.update_self]
        exact iff_of_false hnd.1 fun hd => absurd hd.2 (by simp)
      · rw [hother r hr, ← h.used]
        simp [hr]
    · rw [hl x hx, hl y hy]
      exact h.apart x (List.mem_cons_of_mem c' hx) y (List.mem_cons_of_mem c' hy) hxy
    · rw [hl x hx]
      exact h.word x (List.mem_cons_of_mem c' hx)

theorem before_trans (s : State T) (x y z : Nat) : before s x y → before s y z → before s x z :=
  inOrder_trans

theorem before_asymm (s : State T) (x y : Nat) : before s x y → before s y x = false :=
  inOrder_asymm

theorem before_filled {s : State T} {l : List Nat} (h : Line s l) {r : Nat} {q : Request}
    (ha : Allowed s (.add r q)) : ∀ x ∈ l, ∀ y ∈ l, before (filled r q s) x y = before s x y := by
  intro x hx y hy
  rw [before, filled_of_ne (h.ne ha x hx), filled_of_ne (h.ne ha y hy), before]

theorem before_total {s : State T} {l : List Nat} (h : Line s l) {r : Nat} {q : Request}
    (ha : Allowed s (.add r q)) :
    ∀ x ∈ l, before (filled r q s) x r ∨ before (filled r q s) r x := by
  intro x hx
  obtain ⟨hlt, hdev⟩ := (h.used x).mp hx
  rw [before, before, filled_of_ne (h.ne ha x hx), filled_self]
  exact (inOrder_total (ha.2.2.2.2 x hlt hdev)).symm

/-- The queue is `l` and has at most two ascending sweeps. A new request comes
behind the current one and leaves the others in their order. -/
structure Shape (s : State T) (l : List Nat) : Prop where
  queue : Chain.Visits (fun r => (s.request r).next) s.currentRequest l
  drop : Sweep.descents (before s) l ≤ 1
  sweeps : ∃ l₁ l₂, l = l₁ ++ l₂ ∧ (l₁.Pairwise fun x y => before s x y) ∧
    l₂.Pairwise fun x y => before s x y
  insertion : ∀ r q, Allowed s (.add r q) → ∃ t l₁ l₂, queueStep (.add r q) s =
    some t ∧ l = l₁ ++ l₂ ∧ Chain.Visits (fun r => (t.request r).next) t.currentRequest
    (l₁ ++ r :: l₂) ∧ (l ≠ [] → l₁ ≠ []) ∧ ∀ x ∈ l, t.request x =
      { s.request x with next := (t.request x).next }

theorem Line.shape {s : State T} {l : List Nat} (h : Line s l)
    (hd : Sweep.descents (before s) l ≤ 1) : Shape s l where
  queue := h.chain
  drop := hd
  sweeps := Sweep.two_sweeps (before_trans s) hd
  insertion r q ha := by
    obtain ⟨t, l₁, l₂, he, hl, hadd, hline⟩ := h.add ha
    refine ⟨t, l₁, l₂, he, hl, hline.chain, fun hne => hadd.head fun hc => hne ?_, fun x hx => ?_⟩
    · have hchain : Chain.Visits (fun r => (s.request r).next) none l := by
        have hcur : s.currentRequest = none := hc
        rw [← hcur]
        exact h.chain
      exact hchain.unique rfl
    · rw [hadd.same, filled_of_ne (h.ne ha x hx)]

theorem descents_step {s t : State T} {l : List Nat} (h : Line s l)
    (hd : Sweep.descents (before s) l ≤ 1) {a : QueueAct} (hs : queueStep a s = some t)
    (ha : Allowed s a) : ∃ l', Line t l' ∧ Sweep.descents (before t) l' ≤ 1 := by
  cases a with
  | add r q =>
    obtain ⟨t', l₁, l₂, he, hl, hadd, hline⟩ := h.add ha
    obtain rfl := Option.some.inj (he.symm.trans hs)
    refine ⟨l₁ ++ r :: l₂, hline, ?_⟩
    rw [before_congr hadd.same, hadd.place, ← hl]
    cases l with
    | nil => exact Nat.zero_le 1
    | cons c l =>
      refine Sweep.descents_place (fun x hx => before_total h ha x (List.mem_cons_of_mem c hx)) ?_
      rw [Sweep.descents_congr h.chain.nodup fun x hx y hy _ => before_filled h ha x hx y hy]
      exact hd
  | advance =>
    obtain ⟨hline, -, hb⟩ := h.advance ha hs
    exact ⟨l, hline, (Sweep.descents_congr h.chain.nodup hb).trans_le hd⟩
  | remove uptodate =>
    obtain ⟨hline, hreq⟩ := h.remove hs
    refine ⟨l.tail, hline, ?_⟩
    have hb : ∀ x ∈ l.tail, ∀ y ∈ l.tail, x ≠ y → before t x y = before s x y :=
      fun x hx y hy _ => by
      rw [before, hreq x hx, hreq y hy]
      rfl
    rw [Sweep.descents_congr hline.chain.nodup hb]
    cases l with
    | nil => exact hd
    | cons c l => exact Sweep.descents_tail.trans hd

/-- The elevator is on its way up, or on its way up and then once more. -/
theorem elevator_shape {s : State T} (hs : Empty s) {as : List QueueAct}
    (h : Run.Meets queueStep Allowed as s) :
    Run.Always queueStep (fun s => ∃ l, Shape s l) as s := by
  have hline : Run.Always queueStep (fun s => ∃ l, Line s l ∧
    Sweep.descents (before s) l ≤ 1) as s := by
    refine Run.always_of_meets (fun s a t hl ht ha => ?_) ⟨[], hs.line, Nat.zero_le 1⟩ h
    obtain ⟨l, hl, hd⟩ := hl
    exact descents_step hl hd ht ha
  exact hline.mono fun s ⟨l, hl, hd⟩ => ⟨l, hl.shape hd⟩

/-- Behind the current request no read is behind a write. -/
def ReadsFirst (s : State T) : Prop :=
  ∃ l, Chain.Visits (fun r => (s.request r).next) s.currentRequest l ∧
    l.tail.Pairwise fun x y => (s.request x).cmd = .write → (s.request y).cmd = .write

/-- A read that is not behind the current request in order finds no write in
the sweep that the current request begins. -/
def Spares (s : State T) : QueueAct → Prop
  | .add _ q =>
      q.cmd = .read → ∀ c l, Chain.Visits (fun r => (s.request r).next) s.currentRequest (c :: l) →
        inOrder (s.request c) q = true ∨ ∀ x ∈ Sweep.sweep (before s) c l,
        (s.request x).cmd ≠ .write
  | .advance => True
  | .remove _ => True

/-- Whether a new request keeps the reads before the writes, behind a current request. -/
theorem place_iff {s : State T} {c : Nat} {l : List Nat} (h : Line s (c :: l)) {r : Nat}
    {q : Request} (ha : Allowed s (.add r q))
    (hl : Sweep.LateLast (fun x => ((filled r q s).request x).cmd = .write) l) :
    Sweep.LateLast (fun x => ((filled r q s).request x).cmd = .write)
      (Chain.place (Sweep.fits (before (filled r q s)) r) r c l) ↔
        (q.cmd = .read → inOrder (s.request c) q = true ∨
          ∀ x ∈ Sweep.sweep (before s) c l, (s.request x).cmd ≠ .write) := by
  have htotal : ∀ x ∈ c :: l, before (filled r q s) x r ∨ before (filled r q s) r x :=
    before_total h ha
  have hcr : before (filled r q s) c r = inOrder (s.request c) q := by
    rw [before, filled_of_ne (h.ne ha c (by simp)), filled_self]
  have hsweep : Sweep.sweep (before (filled r q s)) c l = Sweep.sweep (before s) c l :=
    Sweep.sweep_congr (before_filled h ha)
  have hcmd : ∀ x ∈ Sweep.sweep (before s) c l, (filled r q s).request x = s.request x :=
    fun x hx =>
    filled_of_ne (h.ne ha x (List.mem_cons_of_mem c (Sweep.mem_of_mem_sweep hx))) q s
  cases hq : q.cmd with
  | write =>
    refine iff_of_true (hl.place_late (fun x y hxy hx => ?_) ?_) fun h => absurd h (by decide)
    · simp only [before, inOrder, Bool.or_eq_true, Bool.and_eq_true, decide_eq_true_eq] at hxy
      rcases hxy with ⟨hr, -⟩ | ⟨he, -⟩
      · rw [hr] at hx
        cases hx
      · exact he ▸ hx
    · rw [filled_self]
      exact hq
  | read =>
    have hr : ¬ ((filled r q s).request r).cmd = .write := by
      rw [filled_self, hq]
      decide
    refine ⟨fun hlast _ => ?_, fun hc => ?_⟩
    · by_contra hne
      rw [not_or] at hne
      have hrc : before (filled r q s) r c = true :=
        (htotal c (by simp)).resolve_left fun hb => hne.1 (hcr.symm.trans hb)
      have hw : ∃ w ∈ Sweep.sweep (before s) c l, (s.request w).cmd = .write := by
        have hne' := hne.2
        push Not at hne'
        exact hne'
      obtain ⟨w, hw, hwc⟩ := hw
      refine Sweep.not_lateLast_place (before_trans _) (before_asymm _) hr hrc
        (hsweep ▸ hw) ?_ hlast
      rw [hcmd w hw]
      exact hwc
    · refine hl.place (fun x hx => ?_) (fun x hx => htotal x (List.mem_cons_of_mem c hx)) hr
        ((hc rfl).imp hcr.trans fun hn x hx => ?_)
      · rw [before, inOrder, filled_self, hq, hx]
        rfl
      · rw [hsweep] at hx
        rw [hcmd x hx]
        exact hn x hx

theorem readsFirst_step {s t : State T} {a : QueueAct} (h : ∃ l, Line s l) (hp : ReadsFirst s)
    (hs : queueStep a s = some t) (ha : Allowed s a) :
    (∃ l, Line t l) ∧ (ReadsFirst t ↔ Spares s a) := by
  obtain ⟨l, hl⟩ := h
  obtain ⟨m, hm, hfirst⟩ := hp
  obtain rfl := hl.unique hm
  cases a with
  | add r q =>
    obtain ⟨t', l₁, l₂, he, hsplit, hadd, hline⟩ := hl.add ha
    obtain rfl := Option.some.inj (he.symm.trans hs)
    refine ⟨⟨_, hline⟩, ?_⟩
    have hreq : ∀ x, (t'.request x).cmd = ((filled r q s).request x).cmd :=
      fun x => by rw [hadd.same]
    have hplace := hadd.place
    rw [← hsplit] at hplace
    have hiff : ReadsFirst t' ↔
        Sweep.LateLast (fun x => ((filled r q s).request x).cmd = .write)
          (queued (filled r q s) r m).tail := by
      simp only [ReadsFirst, Sweep.LateLast, hreq, ← hplace]
      refine ⟨fun ⟨n, hn, hlast⟩ => ?_, fun hlast => ⟨_, hline.chain, hlast⟩⟩
      rwa [hline.unique hn] at hlast
    rw [hiff]
    cases m with
    | nil =>
      refine iff_of_true List.Pairwise.nil fun _ c n hn => ?_
      exact absurd (hl.unique hn) nofun
    | cons c n =>
      have hlast : Sweep.LateLast (fun x => ((filled r q s).request x).cmd = .write) n := by
        refine List.Pairwise.imp_of_mem (fun {x y} hx hy hxy => ?_) hfirst
        dsimp only
        rw [filled_of_ne (hl.ne ha x (List.mem_cons_of_mem c hx)),
          filled_of_ne (hl.ne ha y (List.mem_cons_of_mem c hy))]
        exact hxy
      refine (place_iff hl ha hlast).trans ⟨fun hc hq c' n' hn => ?_, fun hc hq => hc hq c n hm⟩
      obtain ⟨rfl, rfl⟩ := List.cons.inj (hl.unique hn)
      exact hc hq
  | advance =>
    obtain ⟨hline, hcmd, -⟩ := hl.advance ha hs
    refine ⟨⟨m, hline⟩, iff_of_true ⟨m, hline.chain, ?_⟩ trivial⟩
    simp only [hcmd]
    exact hfirst
  | remove uptodate =>
    obtain ⟨hline, hreq⟩ := hl.remove hs
    refine ⟨⟨m.tail, hline⟩, iff_of_true ⟨m.tail, hline.chain, ?_⟩ trivial⟩
    refine List.Pairwise.imp_of_mem (fun {x y} hx hy hxy => ?_) hfirst.tail
    rw [hreq x (List.mem_of_mem_tail hx), hreq y (List.mem_of_mem_tail hy)]
    exact hxy

/-- Reads stay before writes exactly in the runs in which no read arrives too late for a sweep with writes. -/
theorem reads_first_iff {s : State T} (hs : Empty s) {as : List QueueAct}
    (h : Run.Meets queueStep Allowed as s) :
    Run.Always queueStep ReadsFirst as s ↔ Run.Meets queueStep Spares as s :=
  Run.always_iff_meets_of (fun _ _ _ hl hp ht ha => readsFirst_step hl hp ht ha) ⟨[], hs.line⟩
    ⟨[], hs.line.chain, List.Pairwise.nil⟩ h

end

theorem empty_quiet : Empty quiet := ⟨rfl, fun _ => (by decide : (-1 : Int) < 0)⟩

def ask (cmd : Cmd) (block : Nat) : Request :=
  ⟨0x301, cmd, 0, block * 2, 2, some block, none, some block, none⟩

theorem elevator_shape_small : Run.Always queueStep (fun s => ∃ l, Shape s l)
    [.add 0 (ask .read 10), .add 1 (ask .write 1), .advance, .add 2 (ask .read 4), .remove true,
      .add 0 (ask .read 10)] quiet :=
  elevator_shape empty_quiet (by decide +kernel)

theorem reads_first_iff_small :
    Run.Always queueStep ReadsFirst [.add 0 (ask .read 1), .add 1 (ask .write 5),
      .add 2 (ask .read 4)] quiet ↔ Run.Meets queueStep Spares [.add 0 (ask .read 1),
        .add 1 (ask .write 5), .add 2 (ask .read 4)] quiet :=
  reads_first_iff empty_quiet (by decide +kernel)

/-- The current read is of block 10, a write waits, and a read of block 4 comes behind it. -/
theorem reads_not_first :
    ¬ ∀ (s : State (Fin 2)) (as : List QueueAct), Empty s → Run.Meets queueStep Allowed as s →
      Run.Always queueStep ReadsFirst as s := by
  intro h
  have hrun :=
    h quiet [.add 0 (ask .read 10), .add 1 (ask .write 1),
      .add 2 (ask .read 4)] empty_quiet (by decide +kernel)
  have hlast : (Run.exec queueStep [.add 0 (ask .read 10), .add 1 (ask .write 1),
    .add 2 (ask .read 4)] quiet).map
      (fun s => (s.currentRequest, (s.request 0).next, (s.request 1).next, (s.request 2).next,
        (s.request 1).cmd, (s.request 2).cmd)) =
      some (some 0, some 1, some 2, none, .write, .read) := by
    decide +kernel
  obtain ⟨t, ht, he⟩ := Option.map_eq_some_iff.mp hlast
  simp only [Prod.mk.injEq] at he
  obtain ⟨hcur, h0, h1, h2, hw, hr⟩ := he
  obtain ⟨l, hl, hfirst⟩ := hrun.last ht
  obtain rfl :=
    hl.unique (show Chain.Visits (fun r => (t.request r).next) t.currentRequest
      [0, 1, 2] from ⟨hcur, h0, h1, h2⟩)
  have hlate := (List.pairwise_cons.mp hfirst).1 2 (by simp) hw
  rw [hr] at hlate
  cases hlate

end Gpos.Requests
