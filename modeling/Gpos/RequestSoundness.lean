import Gpos.RequestQueue
import Gpos.Sweep
import Mathlib.Data.List.Perm.Basic

/-! The request queue over every order of calls and completions. Each locked
buffer belongs to one busy slot, or to one task that waits for a slot. -/

namespace Gpos.Requests

variable {T : Type*}

/-- Slot `r` is in the queue `l`, or about to be. -/
def Busy (s : State T) (l : List Nat) (r : Nat) : Prop := r ∈ l ∨ s.adding = some r

/-- The queue from `current_request` on is `l`. -/
structure Queue (s : State T) (l : List Nat) : Prop where
  chain : Chain.Visits (fun r => (s.request r).next) s.currentRequest l
  nodup : l.Nodup
  fresh : ∀ r, s.adding = some r → r ∉ l
  busy : ∀ r, Busy s l r ↔ r < nrRequest ∧ 0 ≤ (s.request r).dev
  locked : ∀ r, Busy s l r → ∃ bh, (s.request r).bh = some bh ∧ (s.buf bh).bLock = true
  distinct : ∀ r q, Busy s l r → Busy s l q → (s.request r).bh = (s.request q).bh → r = q
  writes : ∀ r, Busy s l r → (s.request r).cmd = .write → r < nrRequest * 2 / 3
  conserved : (s.history.ended ++ l.map s.history.ticket).Perm (List.range s.history.issued)

/-- How a step changes the queue. -/
inductive Moved (s t : State T) : Act T → List Nat → List Nat → Prop
  | keep {a : Act T} {l : List Nat} (hadd : a ≠ .add)
    (hend : ∀ u, a ≠ .complete u) : Moved s t a l l
  | add {r : Nat} {l₁ l₂ : List Nat} (hr : s.adding = some r) (hdone : t.adding = none)
      (hhead : s.currentRequest ≠ none → l₁ ≠ []) : Moved s t .add (l₁ ++ l₂) (l₁ ++ r :: l₂)
  | complete {uptodate : Bool} {c bh : Nat} {l : List Nat} (hc : (s.request c).bh = some bh)
      (hlock : (t.buf bh).bLock = false) (hfree : (t.request c).dev < 0) :
      Moved s t (.complete uptodate) (c :: l) l

/-- The busy slots and the waiting tasks that a buffer is locked for. -/
def Holds (s : State T) (l : List Nat) : Nat ⊕ T → Nat → Prop
  | .inl r, bh => Busy s l r ∧ (s.request r).bh = some bh
  | .inr t, bh => ∃ cmd, s.loc t = .slotWait cmd bh

structure Sound (s : State T) (l : List Nat) : Prop where
  chain : Chain.Visits (fun r => (s.request r).next) s.currentRequest l
  fresh : ∀ r, s.adding = some r → r ∉ l
  busy : ∀ r, Busy s l r ↔ r < nrRequest ∧ 0 ≤ (s.request r).dev
  full : ∀ r, Busy s l r → (s.request r).bh ≠ none
  writes : ∀ r, Busy s l r → (s.request r).cmd = .write → r < nrRequest * 2 / 3
  conserved : (s.history.ended ++ l.map s.history.ticket).Perm (List.range s.history.issued)
  locked : ∀ o bh, Holds s l o bh → (s.buf bh).bLock = true
  unique : ∀ o o' bh, Holds s l o bh → Holds s l o' bh → o = o'

theorem Sound.queue {s : State T} {l : List Nat} (h : Sound s l) : Queue s l where
  chain := h.chain
  nodup := h.chain.nodup
  fresh := h.fresh
  busy := h.busy
  locked r hr := by
    obtain ⟨bh, hb⟩ := Option.ne_none_iff_exists'.mp (h.full r hr)
    exact ⟨bh, hb, h.locked (.inl r) bh ⟨hr, hb⟩⟩
  distinct r q hr hq he := by
    obtain ⟨bh, hb⟩ := Option.ne_none_iff_exists'.mp (h.full r hr)
    exact Sum.inl.inj (h.unique (.inl r) (.inl q) bh ⟨hr, hb⟩ ⟨hq, he ▸ hb⟩)
  writes := h.writes
  conserved := h.conserved

/-- Only the holding in `gain` is new in a step, and its buffer had no holder
that stays. -/
def Passed (s s' : State T) (l l' : List Nat) (gain : Option ((Nat ⊕ T) × Nat)) : Prop :=
  ∀ o bh, Holds s' l' o bh → (gain = some (o, bh) ∧ (s'.buf bh).bLock = true) ∨
    (Holds s l o bh ∧ (∀ o₀, gain ≠ some (o₀, bh)) ∧ (s'.buf bh).bLock = (s.buf bh).bLock)

theorem Passed.locked {s s' : State T} {l l' : List Nat} {gain : Option ((Nat ⊕ T) × Nat)}
    (h : Passed s s' l l' gain) (hs : Sound s l) (o : Nat ⊕ T) (bh : Nat) (ho : Holds s' l' o bh) :
    (s'.buf bh).bLock = true := by
  rcases h o bh ho with ⟨-, hl⟩ | ⟨hold, -, hl⟩
  · exact hl
  · rw [hl, hs.locked o bh hold]

theorem Passed.unique {s s' : State T} {l l' : List Nat} {gain : Option ((Nat ⊕ T) × Nat)}
    (h : Passed s s' l l' gain) (hs : Sound s l) (o o' : Nat ⊕ T) (bh : Nat) (ho : Holds s' l' o bh)
    (ho' : Holds s' l' o' bh) : o = o' := by
  rcases h o bh ho with ⟨hg, -⟩ | ⟨hold, hne, -⟩ <;>
    rcases h o' bh ho' with ⟨hg', -⟩ | ⟨hold', hne', -⟩
  · exact congrArg Prod.fst (Option.some.inj (hg.symm.trans hg'))
  · exact absurd hg (hne' o)
  · exact absurd hg' (hne o')
  · exact hs.unique o o' bh hold hold'

theorem Sound.pass {s s' : State T} {l : List Nat} (h : Sound s l) (hreq : s'.request = s.request)
    (hcur : s'.currentRequest = s.currentRequest) (hadd : s'.adding = s.adding)
    (hhist : s'.history = s.history)
    {gain : Option ((Nat ⊕ T) × Nat)} (hp : Passed s s' l l gain) : Sound s' l := by
  have hbusy : ∀ r, Busy s' l r ↔ Busy s l r := fun r => by rw [Busy, Busy, hadd]
  refine ⟨by rw [hreq, hcur]; exact h.chain, by rw [hadd]; exact h.fresh, fun r => ?_,
    fun r hr => ?_, fun r hr => ?_, by rw [hhist]; exact h.conserved, hp.locked h, hp.unique h⟩
  · rw [hbusy, hreq]
    exact h.busy r
  · rw [hreq]
    exact h.full r ((hbusy r).mp hr)
  · rw [hreq]
    exact h.writes r ((hbusy r).mp hr)

theorem findSlot_some {request : Nat → Request} {n r : Nat} (h : findSlot request n = some r) :
    r < n ∧ (request r).dev < 0 := by
  induction n with
  | zero => cases h
  | succ n ih =>
    rw [findSlot] at h
    split_ifs at h with hd
    · obtain rfl := Option.some.inj h
      exact ⟨Nat.lt_succ_self _, hd⟩
    · exact ⟨Nat.lt_succ_of_lt (ih h).1, (ih h).2⟩

theorem slotLimit_le (cmd : Cmd) : slotLimit cmd ≤ nrRequest := by cases cmd <;> decide

section

variable [DecidableEq T]

omit [DecidableEq T] in
theorem setBuf_lock (bh : Nat) (f : BufferHead → BufferHead) (s : State T) (k : Nat) :
    ((setBuf bh f s).buf k).bLock = if k = bh then (f (s.buf bh)).bLock else (s.buf k).bLock := by
  simp only [setBuf, Function.update_apply]
  split <;> rfl

theorem holds_goto {s : State T} {l : List Nat} {t : T} {loc : Loc} {o : Nat ⊕ T} {bh : Nat}
    (h : Holds (goto t loc s) l o bh) :
    (o = .inr t ∧ ∃ cmd, loc = .slotWait cmd bh) ∨ (o ≠ .inr t ∧ Holds s l o bh) := by
  cases o with
  | inl r => exact Or.inr ⟨nofun, h⟩
  | inr t' =>
    obtain ⟨cmd, hc⟩ := h
    by_cases ht : t' = t
    · subst ht
      simp only [goto, Function.update_self] at hc
      exact Or.inl ⟨rfl, cmd, hc⟩
    · simp only [goto, Function.update_of_ne ht] at hc
      exact Or.inr ⟨fun e => ht (Sum.inr.inj e), cmd, hc⟩

/-- The task has filled slot `r` and gone on. -/
structure SlotFilled (s s' : State T) (t : T) (r : Nat) (req : Request) : Prop where
  request : s'.request = Function.update s.request r req
  adding : s'.adding = some r
  currentRequest : s'.currentRequest = s.currentRequest
  history : s'.history = s.history
  buf : s'.buf = s.buf
  loc : s'.loc = Function.update s.loc t .idle

theorem SlotFilled.new {s s' : State T} {t : T} {r : Nat} {req : Request}
    (hf : SlotFilled s s' t r req) : s'.request r = req := by
  rw [hf.request, Function.update_self]

theorem SlotFilled.old {s s' : State T} {t : T} {r : Nat} {req : Request}
    (hf : SlotFilled s s' t r req) {x : Nat} (hx : x ≠ r) : s'.request x = s.request x := by
  rw [hf.request, Function.update_of_ne hx]

theorem SlotFilled.busy {s s' : State T} {t : T} {r : Nat} {req : Request}
    (hf : SlotFilled s s' t r req) {l : List Nat} (hadd : s.adding = none) (x : Nat) :
    Busy s' l x ↔ Busy s l x ∨ x = r := by
  rw [Busy, Busy, hf.adding, hadd]
  simp only [Option.some.injEq, reduceCtorEq, or_false, eq_comm]

theorem SlotFilled.passed {s s' : State T} {t : T} {r bh : Nat} {req : Request}
    (hf : SlotFilled s s' t r req) {l : List Nat} (hadd : s.adding = none) (hbh : req.bh = some bh)
    (hlock : (s.buf bh).bLock = true) (hmine : ∀ o, Holds s l o bh → o = .inr t) :
    Passed s s' l l (some (.inl r, bh)) := by
  have hgain {o : Nat ⊕ T} {b : Nat} (ho : Holds s l o b) (hne : o ≠ .inr t) (o₀ : Nat ⊕ T) :
    some (Sum.inl r, bh) ≠ some (o₀, b) := by
    intro e
    obtain ⟨-, rfl⟩ := Prod.mk.inj (Option.some.inj e)
    exact hne (hmine o ho)
  rintro (x | t') b ho
  · obtain ⟨hbx, hb⟩ := ho
    by_cases hx : x = r
    · subst hx
      rw [hf.new, hbh] at hb
      obtain rfl := Option.some.inj hb
      exact Or.inl ⟨rfl, by rw [hf.buf, hlock]⟩
    · rw [hf.old hx] at hb
      have hho : Holds s l (.inl x) b := ⟨((hf.busy hadd x).mp hbx).resolve_right hx, hb⟩
      exact Or.inr ⟨hho, hgain hho Sum.inl_ne_inr, by rw [hf.buf]⟩
  · obtain ⟨c, hc⟩ := ho
    rw [hf.loc] at hc
    by_cases ht : t' = t
    · subst ht
      rw [Function.update_self] at hc
      cases hc
    · rw [Function.update_of_ne ht] at hc
      have hho : Holds s l (.inr t') b := ⟨c, hc⟩
      exact Or.inr ⟨hho, hgain hho fun e => ht (Sum.inr.inj e), by rw [hf.buf]⟩

theorem Sound.slotFilled {s s' : State T} {l : List Nat} (h : Sound s l) {t : T} {r bh : Nat}
    {req : Request} (hf : SlotFilled s s' t r req) (hadd : s.adding = none) (hr : r < nrRequest)
    (hfree : (s.request r).dev < 0) (hdev : 0 ≤ req.dev)
    (hwrite : req.cmd = .write → r < nrRequest * 2 / 3) (hbh : req.bh = some bh)
    (hlock : (s.buf bh).bLock = true) (hmine : ∀ o, Holds s l o bh → o = .inr t) : Sound s' l := by
  have hrl : r ∉ l := fun hm => by
    have := ((h.busy r).mp (Or.inl hm)).2
    omega
  have hp := hf.passed hadd hbh hlock hmine
  refine ⟨?_, fun x hx => ?_, fun x => ?_, fun x hx => ?_, fun x hx hw => ?_, ?_,
    hp.locked h, hp.unique h⟩
  · rw [hf.currentRequest]
    exact h.chain.congr fun x hx => by rw [hf.old fun e => hrl (e ▸ hx)]
  · rw [hf.adding] at hx
    exact Option.some.inj hx ▸ hrl
  · rw [hf.busy hadd, h.busy]
    by_cases hx : x = r
    · subst hx
      rw [hf.new]
      exact ⟨fun _ => ⟨hr, hdev⟩, fun _ => Or.inr rfl⟩
    · rw [hf.old hx]
      exact or_iff_left hx
  · by_cases hxr : x = r
    · rw [hxr, hf.new, hbh]
      exact Option.some_ne_none bh
    · rw [hf.old hxr]
      exact h.full x (((hf.busy hadd x).mp hx).resolve_right hxr)
  · by_cases hxr : x = r
    · rw [hxr, hf.new] at hw
      exact hxr ▸ hwrite hw
    · rw [hf.old hxr] at hw
      exact h.writes x (((hf.busy hadd x).mp hx).resolve_right hxr) hw
  · rw [hf.history]
    exact h.conserved

theorem Sound.takeSlot {s : State T} {l : List Nat} (h : Sound s l) {t : T} {bh : Nat} (cmd : Cmd)
    (ahead : Bool) (hadd : s.adding = none) (hlock : (s.buf bh).bLock = true)
    (hmine : ∀ o, Holds s l o bh → o = .inr t) : Sound (takeSlot t cmd ahead bh s) l := by
  rw [Requests.takeSlot]
  cases hf : findSlot s.request (slotLimit cmd) with
  | none =>
    cases ahead with
    | true =>
      refine h.pass rfl rfl rfl rfl
        (show Passed s (goto t .idle (setBuf bh (setLock false) s)) l l none from ?_)
      intro o b ho
      rcases holds_goto ho with ⟨-, c, hc⟩ | ⟨hne, hold⟩
      · cases hc
      · have hold' : Holds s l o b := by cases o <;> exact hold
        have hb : b ≠ bh := fun e => hne (hmine o (e ▸ hold'))
        exact Or.inr ⟨hold', nofun, (setBuf_lock bh _ s b).trans (if_neg hb)⟩
    | false =>
      refine h.pass rfl rfl rfl rfl
        (show Passed s (goto t (.slotWait cmd bh) s) l l (some (.inr t, bh)) from ?_)
      intro o b ho
      rcases holds_goto ho with ⟨rfl, c, hc⟩ | ⟨hne, hold⟩
      · obtain ⟨-, rfl⟩ := Loc.slotWait.inj hc
        exact Or.inl ⟨rfl, hlock⟩
      · refine Or.inr ⟨hold, fun o₀ e => ?_, rfl⟩
        obtain ⟨-, rfl⟩ := Prod.mk.inj (Option.some.inj e)
        exact hne (hmine o hold)
  | some r =>
    obtain ⟨hr, hfree⟩ := findSlot_some hf
    have hwrite : cmd = .write → r < nrRequest * 2 / 3 := by
      rintro rfl
      exact hr
    exact h.slotFilled ⟨rfl, rfl, rfl, rfl, rfl, rfl⟩ hadd
      (lt_of_lt_of_le hr (slotLimit_le cmd)) hfree (Int.natCast_nonneg _)
      hwrite rfl hlock hmine

theorem Sound.goto {s : State T} {l : List Nat} (h : Sound s l) (t : T) {loc : Loc}
    (hloc : ∀ cmd bh, loc ≠ .slotWait cmd bh) : Sound (goto t loc s) l := by
  refine h.pass rfl rfl rfl rfl
    (show Passed s (Requests.goto t loc s) l l none from fun o b ho => ?_)
  rcases holds_goto ho with ⟨-, c, hc⟩ | ⟨-, hold⟩
  · exact absurd hc (hloc c b)
  · exact Or.inr ⟨hold, nofun, rfl⟩

theorem Sound.lockBuffer {s : State T} {l : List Nat} (h : Sound s l) (t : T) (cmd : Cmd)
    (ahead : Bool) (bh : Nat) (hadd : s.adding = none) : Sound (lockBuffer t cmd ahead bh s) l := by
  rw [Requests.lockBuffer]
  split_ifs with hlock hno
  · exact h.goto t nofun
  · exact h.goto t nofun
  · have hfree : ∀ o, ¬ Holds s l o bh := fun o ho => hlock (h.locked o bh ho)
    have hs : Sound (setBuf bh (setLock true) s) l := by
      refine h.pass rfl rfl rfl rfl
        (show Passed s (setBuf bh (setLock true) s) l l none from fun o b ho => ?_)
      have hold : Holds s l o b := by cases o <;> exact ho
      have hb : b ≠ bh := fun e => hfree o (e ▸ hold)
      exact Or.inr ⟨hold, nofun, (setBuf_lock bh _ s b).trans (if_neg hb)⟩
    refine hs.takeSlot cmd ahead hadd ((setBuf_lock bh _ s bh).trans (if_pos rfl)) fun o ho => ?_
    have hold : Holds s l o bh := by cases o <;> exact ho
    exact absurd hold (hfree o)

theorem Sound.makeRequest {s : State T} {l : List Nat} (h : Sound s l) (t : T) (rw : Rw) (bh : Nat)
    (hadd : s.adding = none) : Sound (makeRequest t rw bh s) l := by
  unfold Requests.makeRequest
  split
  next => exact h
  next => exact h.lockBuffer t rw.cmd rw.ahead bh hadd

theorem Sound.resume {s t : State T} {l : List Nat} (h : Sound s l) {a : T}
    (hs : step (.resume a) s = some t) : Sound t l := by
  rw [step] at hs
  split at hs
  next cmd ahead bh hadd hloc =>
    obtain rfl := Option.some.inj hs
    exact h.lockBuffer a cmd ahead bh hadd
  next cmd bh hadd hloc =>
    obtain rfl := Option.some.inj hs
    have hold : Holds s l (.inr a) bh := ⟨cmd, hloc⟩
    exact h.takeSlot cmd false hadd (h.locked _ _ hold) fun o ho => h.unique o _ bh ho hold
  next => cases hs

omit [DecidableEq T] in
theorem perm_issue {h : History} {l₁ l₂ : List Nat} {r : Nat}
    (hp : (h.ended ++ (l₁ ++ l₂).map h.ticket).Perm (List.range h.issued)) (hr : r ∉ l₁ ++ l₂) :
    ((issue r h).ended ++ (l₁ ++ r :: l₂).map (issue r h).ticket).Perm
      (List.range (issue r h).issued) := by
  have hmap : ∀ m : List Nat, r ∉ m → m.map (Function.update h.ticket r h.issued) =
    m.map h.ticket := by
    intro m hm
    refine List.map_congr_left fun x hx => Function.update_of_ne ?_ _ _
    rintro rfl
    exact hm hx
  have hr₁ : r ∉ l₁ := fun hm => hr (List.mem_append_left _ hm)
  have hr₂ : r ∉ l₂ := fun hm => hr (List.mem_append_right _ hm)
  simp only [issue, List.map_append, List.map_cons, Function.update_self, hmap l₁ hr₁,
    hmap l₂ hr₂, List.range_succ]
  simp only [List.map_append] at hp
  rw [← List.append_assoc] at hp ⊢
  exact (List.perm_middle.trans (hp.cons _)).trans (List.perm_append_singleton _ _).symm

/-- `IN_ORDER` on slots -/
def before (s : State T) (x y : Nat) : Bool := inOrder (s.request x) (s.request y)

/-- The queue after `add_request`. -/
def queued (s : State T) (r : Nat) : List Nat → List Nat
  | [] => [r]
  | c :: l => c :: Chain.place (Sweep.fits (before s) r) r c l

/-- The slot `r` is put between `l₁` and `l₂`, behind the current request if there is one. -/
structure Added (s t : State T) (r : Nat) (l₁ l₂ : List Nat) : Prop where
  chain : Chain.Visits (fun x => (t.request x).next) t.currentRequest (l₁ ++ r :: l₂)
  place : l₁ ++ r :: l₂ = queued s r (l₁ ++ l₂)
  head : s.currentRequest ≠ none → l₁ ≠ []
  same : ∀ x, t.request x = { s.request x with next := (t.request x).next }
  adding : t.adding = none
  loc : t.loc = s.loc
  history : t.history = issue r s.history
  lock : ∀ b, (t.buf b).bLock = (s.buf b).bLock

omit [DecidableEq T] in
theorem before_congr {s t : State T} (h : ∀ x, t.request x =
    { s.request x with next := (t.request x).next }) : before t = before s := by
  funext x y
  rw [before, h x, h y]
  rfl

omit [DecidableEq T] in
theorem setRequest_request (r : Nat) (f : Request → Request) (s : State T) (x : Nat) :
    (setRequest r f s).request x = if x = r then f (s.request r) else s.request x := by
  simp only [setRequest, Function.update_apply]

/-- The part of `add_request` before its loop. -/
structure Cleared (s t : State T) (r : Nat) : Prop where
  request : ∀ x, t.request x = if x = r then { s.request r with next := none } else s.request x
  currentRequest : t.currentRequest = s.currentRequest
  loc : t.loc = s.loc
  history : t.history = s.history
  lock : ∀ b, (t.buf b).bLock = (s.buf b).bLock

omit [DecidableEq T] in
theorem Cleared.same {s t : State T} {r : Nat} (h : Cleared s t r) (x : Nat) :
    t.request x = { s.request x with next := (t.request x).next } := by
  rw [h.request]
  split
  next e => rw [e]
  next => rfl

omit [DecidableEq T] in
theorem Cleared.chain {s t : State T} {r : Nat} {l : List Nat} (h : Cleared s t r)
    (hc : Chain.Visits (fun x => (s.request x).next) s.currentRequest l) (hr : r ∉ l) :
    Chain.Visits (fun x => (t.request x).next) t.currentRequest l := by
  rw [h.currentRequest]
  refine hc.congr fun x hx => ?_
  have hxr : x ≠ r := fun e => hr (e ▸ hx)
  rw [h.request, if_neg hxr]

omit [DecidableEq T] in
theorem cleared (s : State T) (r : Nat) : ∃ t, Cleared s t r ∧ addRequest r s =
    match t.currentRequest with
    | none => some { t with currentRequest := some r, adding := none, history := issue r t.history }
    | some c =>
      (Chain.walk (fun q => (t.request q).next) (Sweep.fits (before t) r) nrRequest c).map
        fun tmp =>
        let u := setRequest r (fun q => { q with next := (t.request tmp).next }) t
        { setRequest tmp (fun q => { q with next := some r }) u with
          adding := none, history := issue r u.history } := by
  rw [Requests.addRequest]
  cases hb : ((setRequest r (fun q => { q with next := none }) s).request r).bh with
  | none =>
    exact ⟨setRequest r (fun q => { q with next := none }) s,
      ⟨setRequest_request r _ s, rfl, rfl, rfl, fun _ => rfl⟩, rfl⟩
  | some bh =>
    refine ⟨setBuf bh (fun b => { b with bDirt := false })
      (setRequest r (fun q => { q with next := none }) s),
      ⟨fun x => setRequest_request r (fun q => { q with next := none }) s x, rfl, rfl, rfl,
        fun b => ?_⟩, rfl⟩
    rw [setBuf_lock]
    split
    next e => rw [e]; rfl
    next => rfl

/-- `r` is put behind `tmp`. -/
structure Linked (s t : State T) (tmp r : Nat) : Prop where
  request : ∀ x, t.request x = { s.request x with
    next :=
      Function.update (Function.update (fun y => (s.request y).next) r
        (s.request tmp).next) tmp (some r) x }
  currentRequest : t.currentRequest = s.currentRequest
  adding : t.adding = none
  loc : t.loc = s.loc
  history : t.history = issue r s.history
  lock : ∀ b, (t.buf b).bLock = (s.buf b).bLock

omit [DecidableEq T] in
theorem linked (s : State T) {tmp r : Nat} (htmp : tmp ≠ r) :
    Linked s { setRequest tmp (fun q => { q with next := some r })
      (setRequest r (fun q => { q with next := (s.request tmp).next }) s) with
      adding := none
      history := issue r
        (setRequest r (fun q => { q with next := (s.request tmp).next }) s).history } tmp r := by
  refine ⟨fun x => ?_, rfl, rfl, rfl, rfl, fun _ => rfl⟩
  simp only [setRequest, Function.update_apply]
  by_cases hx : x = tmp
  · subst hx
    simp [htmp]
  · by_cases hxr : x = r
    · subst hxr
      simp [hx]
    · simp [hx, hxr]

omit [DecidableEq T] in
theorem Linked.next {s t : State T} {tmp r : Nat} (h : Linked s t tmp r) :
    (fun x => (t.request x).next) = Function.update
      (Function.update (fun y => (s.request y).next) r (s.request tmp).next) tmp (some r) := by
  funext x
  rw [h.request]

omit [DecidableEq T] in
theorem addRequest_added {s : State T} {l : List Nat} {r : Nat}
    (hc : Chain.Visits (fun x => (s.request x).next) s.currentRequest l) (hr : r ∉ l)
    (hlen : l.length ≤ nrRequest) :
    ∃ t l₁ l₂, addRequest r s = some t ∧ l = l₁ ++ l₂ ∧ Added s t r l₁ l₂ := by
  obtain ⟨u, hu, he⟩ := cleared s r
  have hchain := hu.chain hc hr
  have hnext : (u.request r).next = none := by rw [hu.request, if_pos rfl]
  rw [he]
  cases hcur : u.currentRequest with
  | none =>
    rw [hcur] at hchain
    have hl : l = [] := Chain.Visits.unique hchain (show Chain.Visits _ none [] from rfl)
    subst hl
    refine ⟨{ u with currentRequest := some r, adding := none, history := issue r u.history },
      [], [], rfl, rfl, ⟨⟨rfl, hnext⟩, rfl, fun hne => ?_, hu.same, rfl, hu.loc,
        by rw [← hu.history], hu.lock⟩⟩
    exact absurd (hu.currentRequest ▸ hcur) hne
  | some c =>
    rw [hcur] at hchain
    cases l with
    | nil => cases hchain
    | cons c' l =>
      obtain rfl : c = c' := Option.some.inj hchain.1
      obtain ⟨l₁, tmp, l₂, hw, hl, hp⟩ := Chain.walk_place (Sweep.fits (before u) r) r hchain hlen
      have htmp : tmp ≠ r := fun e => hr (by rw [hl, e]; simp)
      have ht := linked u htmp
      have hins := (hl ▸ hchain).insert (hl ▸ hr)
      simp only [hw, Option.map_some]
      refine ⟨_, l₁ ++ [tmp], l₂, rfl, by simp [hl],
        ⟨?_, ?_, fun _ => by simp, fun x => ?_, ht.adding, ht.loc.trans hu.loc, ?_, fun b => ?_⟩⟩
      · rw [ht.currentRequest, hcur, ht.next]
        simpa using hins
      · rw [before_congr hu.same] at hp
        have hlist : (l₁ ++ [tmp]) ++ l₂ = c :: l := by simp [hl]
        rw [hlist, queued, hp]
        simp
      · rw [ht.request, hu.same]
      · rw [ht.history, hu.history]
      · rw [ht.lock, hu.lock]

omit [DecidableEq T] in
theorem Sound.added {s t : State T} {l₁ l₂ : List Nat} {r : Nat} (h : Sound s (l₁ ++ l₂))
    (hadd : s.adding = some r) (ha : Added s t r l₁ l₂) : Sound t (l₁ ++ r :: l₂) := by
  have hbusy : ∀ x, Busy t (l₁ ++ r :: l₂) x ↔ Busy s (l₁ ++ l₂) x := by
    intro x
    rw [Busy, Busy, hadd, ha.adding]
    simp only [List.mem_append, List.mem_cons, Option.some.injEq, reduceCtorEq, or_false,
      eq_comm (a := r)]
    tauto
  have hholds : ∀ o b, Holds t (l₁ ++ r :: l₂) o b → Holds s (l₁ ++ l₂) o b := by
    rintro (x | a) b ho
    · refine ⟨(hbusy x).mp ho.1, ?_⟩
      have hb := ho.2
      rw [ha.same] at hb
      exact hb
    · obtain ⟨cmd, hc⟩ := ho
      exact ⟨cmd, ha.loc ▸ hc⟩
  refine ⟨ha.chain, fun x hx => ?_, fun x => ?_, fun x hx => ?_, fun x hx hw => ?_, ?_,
    fun o b ho => ?_, fun o o' b ho ho' => h.unique o o' b (hholds o b ho) (hholds o' b ho')⟩
  · rw [ha.adding] at hx
    cases hx
  · rw [hbusy, h.busy, ha.same]
  · rw [ha.same]
    exact h.full x ((hbusy x).mp hx)
  · rw [ha.same] at hw
    exact h.writes x ((hbusy x).mp hx) hw
  · rw [ha.history]
    exact perm_issue h.conserved (h.fresh r hadd)
  · rw [ha.lock]
    exact h.locked o b (hholds o b ho)

omit [DecidableEq T] in
theorem Sound.length_le {s : State T} {l : List Nat} (h : Sound s l) : l.length ≤ nrRequest := by
  have hsub : l ⊆ List.range nrRequest :=
    fun r hr => List.mem_range.mpr ((h.busy r).mp (Or.inl hr)).1
  simpa using (h.chain.nodup.subperm hsub).length_le

omit [DecidableEq T] in
theorem Sound.addRequest {s : State T} {l : List Nat} (h : Sound s l) {r : Nat}
    (hadd : s.adding = some r) :
    ∃ t l', addRequest r s = some t ∧ Sound t l' ∧ Moved s t .add l l' := by
  obtain ⟨t, l₁, l₂, he, rfl, ha⟩ := addRequest_added h.chain (h.fresh r hadd) h.length_le
  exact ⟨t, l₁ ++ r :: l₂, he, h.added hadd ha, .add hadd ha.adding ha.head⟩

/-- The slot `c`, with the buffer `bh`, is free again. -/
structure Ended (s t : State T) (c bh : Nat) : Prop where
  request : t.request = Function.update s.request c { s.request c with dev := -1 }
  current : t.currentRequest = (s.request c).next
  adding : t.adding = s.adding
  lock : ∀ b, (t.buf b).bLock = if b = bh then false else (s.buf b).bLock
  loc : t.loc = s.loc
  history : t.history = { s.history with ended := s.history.ticket c :: s.history.ended }

omit [DecidableEq T] in
theorem endRequest_ended {s : State T} {c bh : Nat} (hbh : (s.request c).bh = some bh)
    (uptodate : Bool) : Ended s (endRequest uptodate c s) c bh := by
  generalize ht : endRequest uptodate c s = t
  simp only [endRequest, hbh] at ht
  subst ht
  refine ⟨rfl, ?_, rfl, ?_, rfl, rfl⟩
  · simp [setRequest_request, setBuf]
  · exact fun b => setBuf_lock bh (fun b => { b with bUptodate := uptodate, bLock := false }) s b

section

variable {s t : State T} {c bh : Nat} {l : List Nat} (h : Sound s (c :: l)) (he : Ended s t c bh)

include h he

omit [DecidableEq T] in
theorem Ended.ne {x : Nat} (hx : Busy t l x) : x ≠ c := by
  rintro rfl
  rcases hx with hx | hx
  · exact (List.nodup_cons.mp h.chain.nodup).1 hx
  · exact h.fresh x (he.adding ▸ hx) List.mem_cons_self

omit h [DecidableEq T] in
theorem Ended.old {x : Nat} (hx : x ≠ c) : t.request x = s.request x := by
  rw [he.request, Function.update_of_ne hx]

omit h [DecidableEq T] in
theorem Ended.busy {x : Nat} (hx : x ≠ c) : Busy t l x ↔ Busy s (c :: l) x := by
  rw [Busy, Busy, he.adding, List.mem_cons]
  simp only [hx, false_or]

omit [DecidableEq T] in
theorem Ended.passed (hbh : (s.request c).bh = some bh) : Passed s t (c :: l) l none := by
  have hheld : Holds s (c :: l) (.inl c) bh := ⟨Or.inl List.mem_cons_self, hbh⟩
  intro o b ho
  have hho : Holds s (c :: l) o b ∧ o ≠ .inl c := by
    rcases o with x | a
    · have hx := he.ne h ho.1
      have hb := ho.2
      rw [he.old hx] at hb
      exact ⟨⟨(he.busy hx).mp ho.1, hb⟩, fun e => hx (Sum.inl.inj e)⟩
    · obtain ⟨cmd, hcmd⟩ := ho
      exact ⟨⟨cmd, he.loc ▸ hcmd⟩, nofun⟩
  have hb : b ≠ bh := fun e => hho.2 (h.unique o _ bh (e ▸ hho.1) hheld)
  exact Or.inr ⟨hho.1, nofun, by rw [he.lock, if_neg hb]⟩

end

omit [DecidableEq T] in
theorem Sound.endRequest {s : State T} {l : List Nat} (h : Sound s l) (uptodate : Bool) {c : Nat}
    (hc : s.currentRequest = some c) :
    ∃ l', Sound (endRequest uptodate c s) l' ∧ Moved s (endRequest uptodate c s)
      (.complete uptodate) l l' := by
  have hchain := h.chain
  cases l with
  | nil => exact absurd (hc.symm.trans hchain) nofun
  | cons c' l =>
    obtain rfl : c' = c := Option.some.inj (hchain.1.symm.trans hc)
    obtain ⟨bh, hbh⟩ := Option.ne_none_iff_exists'.mp (h.full c' (Or.inl List.mem_cons_self))
    have he := endRequest_ended hbh uptodate
    have hp := he.passed h hbh
    have hnd := List.nodup_cons.mp hchain.nodup
    refine ⟨l, ⟨?_, fun x hx => ?_, fun x => ?_, fun x hx => ?_, fun x hx hw => ?_, ?_, hp.locked h,
      hp.unique h⟩, ?_⟩
    · rw [he.current]
      exact hchain.2.congr fun x hx => by rw [he.old fun e => hnd.1 (e ▸ hx)]
    · rw [he.adding] at hx
      exact fun hm => h.fresh x hx (List.mem_cons_of_mem c' hm)
    · by_cases hx : x = c'
      · subst hx
        rw [he.request, Function.update_self]
        exact iff_of_false (fun hb => he.ne h hb rfl) fun hb => absurd hb.2 (by simp)
      · rw [he.busy hx, h.busy, he.old hx]
    · have hne := he.ne h hx
      rw [he.old hne]
      exact h.full x ((he.busy hne).mp hx)
    · have hne := he.ne h hx
      rw [he.old hne] at hw
      exact h.writes x ((he.busy hne).mp hx) hw
    · rw [he.history]
      exact List.perm_middle.symm.trans h.conserved
    · refine .complete hbh (by rw [he.lock, if_pos rfl]) ?_
      rw [he.request, Function.update_self]
      exact (by decide : (-1 : Int) < 0)

/-- What one step does from a sound state. -/
theorem Sound.step {s : State T} {l : List Nat} (h : Sound s l) {a : Act T} (ha : enabled s a) :
    ∃ t l', step a s = some t ∧ Sound t l' ∧ Moved s t a l l' := by
  cases a with
  | call t rw bh =>
    exact ⟨_, l, by simp only [Requests.step, ha.1, ha.2], h.makeRequest t rw bh ha.1,
      .keep nofun nofun⟩
  | resume t =>
    cases hloc : s.loc t with
    | idle => exact absurd hloc ha.2
    | lockWait cmd ahead bh =>
      have hs : Requests.step (.resume t) s = some (Requests.lockBuffer t cmd ahead bh s) := by
        simp only [Requests.step, ha.1, hloc]
      exact ⟨_, l, hs, h.resume hs, .keep nofun nofun⟩
    | slotWait cmd bh =>
      have hs : Requests.step (.resume t) s = some (Requests.takeSlot t cmd false bh s) := by
        simp only [Requests.step, ha.1, hloc]
      exact ⟨_, l, hs, h.resume hs, .keep nofun nofun⟩
  | add =>
    obtain ⟨r, hr⟩ := Option.ne_none_iff_exists'.mp ha
    obtain ⟨t, l', ht, hsound, hm⟩ := h.addRequest hr
    exact ⟨t, l', by simp only [Requests.step, hr, ht], hsound, hm⟩
  | complete uptodate =>
    obtain ⟨c, hc⟩ := Option.ne_none_iff_exists'.mp ha
    obtain ⟨l', hsound, hm⟩ := h.endRequest uptodate hc
    exact ⟨_, l', by simp only [Requests.step, hc], hsound, hm⟩
  | change bh b =>
    refine ⟨_, l, rfl, h.pass rfl rfl rfl rfl (show Passed s _ l l none from fun o k ho => ?_),
      .keep nofun nofun⟩
    have hold : Holds s l o k := by cases o <;> exact ho
    refine Or.inr ⟨hold, nofun, (setBuf_lock bh _ s k).trans ?_⟩
    split
    next hk => rw [hk]; rfl
    next => rfl

/-- The state that `blk_dev_init` leaves, with any buffers. -/
structure Initial (s : State T) : Prop where
  request : ∀ r, (s.request r).dev = -1
  currentRequest : s.currentRequest = none
  adding : s.adding = none
  loc : ∀ t, s.loc t = .idle
  history : s.history.issued = 0 ∧ s.history.ended = []

omit [DecidableEq T] in
theorem Initial.sound {s : State T} (h : Initial s) : Sound s [] := by
  have hidle : ∀ r, ¬ Busy s [] r := by
    rintro r (hr | hr)
    · cases hr
    · rw [h.adding] at hr
      cases hr
  have hnone : ∀ o bh, ¬ Holds s [] o bh := by
    rintro (r | t) bh ho
    · exact hidle r ho.1
    · obtain ⟨cmd, hc⟩ := ho
      rw [h.loc] at hc
      cases hc
  refine ⟨h.currentRequest, nofun, fun r => iff_of_false (hidle r) fun hr => ?_,
    fun r hr => absurd hr (hidle r), fun r hr => absurd hr (hidle r), ?_,
    fun o bh ho => absurd ho (hnone o bh), fun o o' bh ho => absurd ho (hnone o bh)⟩
  · rw [h.request] at hr
    exact absurd hr.2 (by decide)
  · rw [h.history.1, h.history.2]
    exact List.Perm.refl []

end

def quiet : State (Fin 2) where
  request _ := ⟨-1, .read, 0, 0, 0, none, none, none, none⟩
  currentRequest := none
  buf bh := ⟨0, bh, 0x301, false, true, 1, false, none, none, none, none⟩
  adding := none
  loc _ := .idle
  history := ⟨0, fun _ => 0, []⟩

end Gpos.Requests
