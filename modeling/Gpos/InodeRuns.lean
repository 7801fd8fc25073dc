import Gpos.InodeMoves
import Gpos.Run

/-! Every step of a task keeps the invariant, so an inode is in one slot
however the tasks are interleaved. -/

namespace Gpos.InodeTable

open Fs

section

variable {T : Type*} {s s' : St T} {t : T} {n : Fin nrInode}

theorem find_none {table : Fin nrInode → Slot} {dev nr : Nat} (h : find table dev nr = none)
    (m : Fin nrInode) : (table m).id ≠ (dev, nr) := by
  have hh := List.find?_eq_none.mp h m (List.mem_finRange m)
  intro he
  exact hh (by simpa [Slot.id] using he)

theorem raise_eq_some : s.raise n = some s' ↔ (s.table n).iCount ≠ BitVec.allOnes 16 ∧
    s.set n { s.table n with iCount := (s.table n).iCount + 1 } = s' := by
  rw [St.raise, Option.ite_none_left_eq_some, Option.some.injEq]

/-- Task `t` has got slot `e` from `get_empty_inode`, and nothing else. -/
structure Own (s : St T) (t : T) (e : Fin nrInode) : Prop where
  spare : Spare (s.table e)
  owner : s.owner e = some t
  held : (s.loc t).held = [e]
  idle : ∀ m, s.loc t ≠ .readRead m

section

variable [DecidableEq T]

/-- The references after `iput`. -/
def Then.refs (k : Then) (r : Fin nrInode → Nat) : Fin nrInode → Nat :=
  match k with
  | .done => r
  | .found m => Function.update r m (r m + 1)

theorem Then.refs_apply (k : Then) (r : Fin nrInode → Nat) (m : Fin nrInode) :
    k.refs r m = r m + k.held.count m := by
  cases k with
  | done => rfl
  | found q =>
    by_cases hm : m = q
    · simp [Then.refs, Then.held, hm]
    · simp [Then.refs, Then.held, hm, Ne.symm hm]

theorem finish_eq (s : St T) (k : Then) :
    s.finish t k = { s with refs := k.refs s.refs, loc := Function.update s.loc t .out } := by
  cases k <;> rfl

theorem own_clear (s : St T) (t : T) (n : Fin nrInode) :
    Own ((s.clear t n).goto t (.putWait .done false n)) t n where
  spare := by
    constructor <;> simp [St.goto, St.clear, St.set, zeroSlot]
  owner := by simp [St.goto, St.clear]
  held := by simp [St.goto, Then.held]
  idle := by simp [St.goto]

theorem scan_goto (s : St T) (t : T) (l : Loc) (dev nr : Nat) (e : Fin nrInode) :
    (s.goto t l).scan t dev nr e = s.scan t dev nr e := by
  simp [St.scan, St.goto, St.assign, St.set]

theorem fresh_goto (s : St T) (t : T) (l : Loc) (dev : Nat) (e : Fin nrInode) (free : Option Nat) :
    (s.goto t l).fresh t dev e free = s.fresh t dev e free := by
  simp [St.fresh, St.goto, St.assign, St.set, St.setAlloc, St.addRef]

end

variable [Fintype T]

theorem Inv.assigned_cons (hi : Inv s) (ho : Own s t n) :
    ∀ a ∈ (⟨t, s.owner n, s.table n⟩ : Assignment T) :: s.assigned,
    a.owner = some a.task ∧ a.slot.iDev = 0 ∧ a.slot.iCount = 1 := by
  intro a ha
  rcases List.mem_cons.mp ha with rfl | ha
  · exact ⟨ho.owner, ho.spare.dev, ho.spare.count⟩
  · exact hi.assigned a ha

theorem Inv.boot {alloc named : Nat × Nat → Bool} {links : Nat × Nat → Nat}
    (h : ∀ i, named i = true → alloc i = true ∧ links i ≠ 0) :
    Inv (boot (T := T) alloc named links) where
  count n := by simp [InodeTable.boot, zeroSlot, St.holdings, Holdings.total_empty]
  locked t n hl := by simp [InodeTable.boot, Loc.lock] at hl
  sole t u n hl := by simp [InodeTable.boot, Loc.lock] at hl
  ok t := trivial
  unique m n hd := by simp [InodeTable.boot, zeroSlot] at hd
  alloc n hd := by simp [InodeTable.boot, zeroSlot] at hd
  named i hn := (h i hn).1
  linked n hd := by simp [InodeTable.boot, zeroSlot] at hd
  absent i _ hn _ := (h i hn).2
  cleared x hx := by simp [InodeTable.boot] at hx
  assigned a ha := by simp [InodeTable.boot] at ha

theorem Inv.name (hi : Inv s) (hd : (s.table n).iDev ≠ 0) (h0 : (s.table n).iNlinks ≠ 0) :
    Inv { s with named := Function.update s.named (s.table n).id true } := by
  have hmore {i : Nat × Nat} (h : s.named i = true) :
    Function.update s.named (s.table n).id true i = true := by
    by_cases he : i = (s.table n).id
    · rw [he, Function.update_self]
    · rwa [Function.update_of_ne he]
  have hw {c : Caller} (h : c.Wants s.named) : c.Wants
    (Function.update s.named (s.table n).id true) := by
    cases c with
    | iget dev nr => exact ⟨h.1, hmore h.2⟩
    | _ => trivial
  have hv {w : Writer} (h : w.Wants s.named) : w.Wants
    (Function.update s.named (s.table n).id true) := by
    cases w with
    | empty c => exact hw h
    | _ => trivial
  refine ⟨hi.count, hi.locked, hi.sole, fun u => ?_, hi.unique, hi.alloc, fun i hn => ?_,
    fun m hm hu => ?_, fun i hi0 hn ha => ?_, hi.cleared, hi.assigned⟩
  · change St.Ok _ u (s.loc u)
    generalize hl : s.loc u = l
    have hh := hi.at hl
    cases l with
    | scanWait dev nr e k => exact ⟨⟨hh.1.1, hmore hh.1.2⟩, hh.2⟩
    | writeRead w m => exact ⟨hv hh.1, hh.2⟩
    | readRead m => exact ⟨hh.1, hmore hh.2.1, hh.2.2⟩
    | emptyWait c m => exact hw hh
    | writeLock w m | writeRelse w m => exact hv hh
    | _ => exact hh
  · by_cases he : i = (s.table n).id
    · rw [he]
      exact hi.alloc n hd
    · exact hi.named i (by simpa [he] using hn)
  · have hh := hi.linked m hm hu
    refine ⟨fun hn => ?_, hh.disk⟩
    by_cases he : (s.table m).id = (s.table n).id
    · rw [hi.unique m n hm he]
      exact h0
    · exact hh.memory (by simpa [he] using hn)
  · refine hi.absent i hi0 ?_ ha
    simpa [Ne.symm (ha n)] using hn

variable [DecidableEq T]

theorem Inv.write (hi : Inv s) {w : Writer} (hl : s.loc t = .writeLock w n)
    (hu : (s.table n).iLock = false) : Inv (s.write t w n) := by
  have hok : w.Wants s.named := hi.at hl
  unfold St.write
  split
  · exact hi.goto (by rw [hl, w.held_back]; rfl) (by simp [w.lock_back])
      (hok.back rfl) (by simp [hl])
  · rename_i h
    have hd : (s.table n).iDev ≠ 0 := fun hh => h (.inr hh)
    refine hi.adjust (l := .writeRead w n) (x := { s.table n with iLock := true }) (r := s.refs) rfl
      (by rw [hl]; rfl)
      (fun m _ => by rw [hl]; rfl) (.inr ⟨rfl, rfl, hi.noLock_of_unlocked t hu⟩)
        (.inl (hi.noLock_of_unlocked t hu))
      (.inl (hi.noSpare fun h _ _ => hd h.dev)) ⟨hok, ?_⟩ (by simp [hl])
        (hi.linked_keep rfl rfl id (by simp [hl]))
    simpa [St.adjust] using hd

theorem Inv.unlock (hi : Inv s) {w : Writer} (hl : s.loc t = .writeRelse w n) :
    Inv ((s.set n { s.table n with iLock := false }).goto t (w.back n)) := by
  have hok : w.Wants s.named := hi.at hl
  have hk : (s.loc t).lock = some n := by rw [hl]; rfl
  exact hi.adjust (l := w.back n) (x := { s.table n with iLock := false }) (r := s.refs) rfl
    (by rw [hl, w.held_back]; rfl)
    (fun m _ => by rw [hl, w.held_back]; rfl) (.inl w.lock_back) (.inl (hi.noLock_of_own hk))
    (.inl (hi.noSpare fun h _ _ => absurd (hi.locked t n hk) (by simp [h.unlocked])))
      (hok.back rfl) (by simp [hl])
    (hi.linked_keep rfl rfl id (by simp [hl]))

theorem Inv.load (hi : Inv s) (hl : s.loc t = .readRead n) :
    Inv ((s.load n).goto t (.readRelse n)) := by
  have hok : (s.table n).iDev ≠ 0 ∧ s.named (s.table n).id = true ∧ s.links (s.table n).id ≠ 0 :=
    hi.at hl
  have hk : (s.loc t).lock = some n := by rw [hl]; rfl
  refine hi.adjust (l := .readRelse n) (x := { s.table n with iNlinks := s.links (s.table n).id })
    (r := s.refs) rfl
    (by rw [hl]; rfl) (fun m _ => by rw [hl]; rfl)
      (.inr ⟨rfl, hi.locked t n hk, hi.noLock_of_own hk⟩) (.inr rfl)
    (.inl (hi.noSpare fun h _ _ => hok.1 h.dev)) trivial (by simp [hl]) (fun _ _ => ⟨?_, ?_⟩)
  · simpa [St.adjust] using fun _ => hok.2.2
  · simp only [St.adjust, Function.update_self]
    exact fun _ => id

theorem Inv.loaded (hi : Inv s) (hl : s.loc t = .readRelse n) :
    Inv (((s.set n { s.table n with iLock := false }).addRef n).goto t .out) := by
  have hk : (s.loc t).lock = some n := by rw [hl]; rfl
  refine hi.adjust (l := .out) (x := { s.table n with iLock := false })
    (r := Function.update s.refs n (s.refs n + 1)) rfl
    ?_ (fun m hm => ?_) (.inl rfl) (.inl (hi.noLock_of_own hk))
    (.inl (hi.noSpare fun h _ _ => absurd (hi.locked t n hk) (by simp [h.unlocked])))
      trivial (by simp [hl])
    (hi.linked_keep rfl rfl id (by simp [hl]))
  · simp [hl, Loc.held]
    omega
  · simp [hl, Loc.held, hm, hm.symm]

theorem Inv.found (hi : Inv s) {dev nr : Nat} {e : Fin nrInode}
    (hl : s.loc t = .scanWait dev nr e n) (hd : (s.table n).iDev = dev)
    (hroom : (s.table n).iCount ≠ BitVec.allOnes 16) :
    Inv ((s.set n { s.table n with iCount := (s.table n).iCount + 1 }).goto t
      (.putWait (.found n) false e)) := by
  obtain ⟨⟨h0, -⟩, hs, -⟩ := hi.spare hl
  have hd' : (s.table n).iDev ≠ 0 := by
    rw [hd]
    exact h0
  refine hi.adjust (l := .putWait (.found n) false e)
    (x := { s.table n with iCount := (s.table n).iCount + 1 }) (r := s.refs) rfl
    ?_ (fun m hm => ?_) (.inl rfl) (.inr rfl) (.inl (hi.noSpare fun h _ _ => hd' h.dev))
      trivial (by simp [hl])
    (hi.linked_keep rfl rfl id (by simp [hl]))
  · simp only [hl, Loc.held, Then.held, List.count_cons, toNat_raise hroom]
    simp
    omega
  · simp [hl, Loc.held, Then.held, List.count_cons, hm.symm]

theorem Inv.lower (hi : Inv s) {k : Then} {again : Bool} (hl : s.loc t = .putWait k again n) :
    Inv ((s.lower n).finish t k) := by
  have hh : (s.loc t).held.count n = k.held.count n + 1 := by simp [hl, Loc.held]
  have hle := held_le (s := s) t n
  have hc := hi.count n
  have hdrop : ((s.table n).iCount - 1).toNat = (s.table n).iCount.toNat - 1 :=
    toNat_drop (by omega)
  rw [finish_eq]
  refine hi.adjust (l := .out) (x := { s.table n with iCount := (s.table n).iCount - 1 })
    (r := k.refs s.refs) rfl
    ?_ (fun m hm => ?_) (.inl rfl) (.inr rfl) (.inl (hi.noSpare fun _ _ h => by omega)) trivial
    (by simp [hl]) (hi.linked_keep rfl rfl id (by simp [hl]))
  · rw [Then.refs_apply, hh, hdrop]
    simp only [Loc.held, List.count_nil]
    omega
  · simp [hl, Loc.held, Then.refs_apply, hm.symm]

theorem Inv.freed (hi : Inv s) {k : Then} {again : Bool} (hl : s.loc t = .putWait k again n)
    (hu : (s.table n).iLock = false) (hone : (s.table n).iCount.toNat ≤ 1)
    (h0 : (s.table n).iNlinks = 0) :
    Inv ((s.free n).finish t k) := by
  have hh : (s.loc t).held.count n = k.held.count n + 1 := by simp [hl, Loc.held]
  have hle := held_le (s := s) t n
  have hc := hi.count n
  have hun (hd : (s.table n).iDev ≠ 0) : s.named (s.table n).id ≠ true :=
    fun hn => (hi.linked_unlocked hu hd).memory hn h0
  -- the slot is wiped, and its inode, if it has one, is free
  obtain ⟨a, ha, he⟩ : ∃ a, (∀ i, s.alloc i = true →
      s.named i = true ∨ i ≠ (s.table n).id → a i = true) ∧ (s.free n).finish t k = { s with
        table := Function.update s.table n zeroSlot, alloc := a, refs := k.refs s.refs,
          loc := Function.update s.loc t .out } := by
    rw [finish_eq]
    unfold St.free
    split
    · exact ⟨s.alloc, fun _ h _ => h, rfl⟩
    · rename_i hd
      refine ⟨Function.update s.alloc (s.table n).id false, fun i hi' hor => ?_, rfl⟩
      rw [Function.update_of_ne]
      · exact hi'
      · rintro rfl
        exact hor.elim (hun hd) fun hne => hne rfl
  rw [he]
  refine hi.move (t := t) (n := n) ⟨fun _ hm => Function.update_of_ne hm _ _,
    fun _ hv => Function.update_of_ne hv _ _, fun _ _ => rfl, rfl,
    rfl⟩ (fun m => ?_) (by simp [Loc.lock]) (.inl (hi.noLock_of_unlocked t hu))
    (.inl (hi.noSpare fun _ _ h => by omega)) (by simp [St.Ok]) ha (by simp [zeroSlot])
    (fun hd hn => absurd hn (hun hd)) (by simp [hl]) (by simp [zeroSlot]) hi.cleared hi.assigned
  by_cases hm : m = n
  · subst hm
    have hzero : zeroSlot.iCount.toNat = 0 := rfl
    simp only [Function.update_self, Then.refs_apply, hzero, Loc.held_out, List.count_nil]
    omega
  · simp only [Function.update_of_ne hm, Function.update_self, Then.refs_apply, hl,
      Loc.held_putWait, Loc.held_out, List.count_cons_of_ne (Ne.symm hm), List.count_nil]
    omega

theorem Inv.iput (hi : Inv s) {k : Then} {again : Bool} (hl : s.loc t = .putWait k again n)
    (hu : (s.table n).iLock = false) (h : s.put t k again n = some s') : Inv s' := by
  unfold St.put at h
  split_ifs at h with h1 h2 h3 h4 h5
  · cases h
    exact hi.lower hl
  · cases h
    exact hi.lower hl
  · cases h
    exact hi.freed hl hu (by bv_omega) h4
  · cases h
    exact hi.goto (by rw [hl]; rfl) (by simp [Loc.lock]) trivial (by simp [hl])
  · cases h
    exact hi.lower hl

theorem Inv.noSpare_own (hi : Inv s) (ho : Own s t n) : NoSpare s t n :=
  hi.noSpare fun _ _ h => by simp [ho.held] at h

theorem Own.refs (ho : Own s t n) (hi : Inv s) : s.refs n = 0 := by
  have hc := hi.count n
  have h1 := ho.spare.toNat_count
  have hle := held_le (s := s) t n
  have hh : (s.loc t).held.count n = 1 := by simp [ho.held]
  omega

theorem Inv.scan (hi : Inv s) {dev nr : Nat} {e : Fin nrInode} (ho : Own s t e)
    (hw : dev ≠ 0 ∧ s.named (dev, nr) = true) : Inv (s.scan t dev nr e) := by
  unfold St.scan
  split
  · exact hi.goto (by rw [ho.held]; rfl) (by simp [Loc.lock]) ⟨hw, ho.spare, ho.owner⟩ ho.idle
  · rename_i hf
    have hno := find_none hf
    have hlock := hi.noLock_of_unlocked t ho.spare.unlocked
    rw [if_neg (by simp [ho.spare.unlocked])]
    refine hi.move (t := t) (n := e) ⟨fun _ hm => Function.update_of_ne hm _ _,
      fun _ hv => Function.update_of_ne hv _ _, fun _ _ => rfl, rfl,
      rfl⟩ (fun m => ?_) (fun m hm => ?_) (.inl hlock)
        (.inl (hi.noSpare_own ho)) ?_ (fun _ h _ => h)
      (fun _ => ?_) (fun hd => absurd ho.spare.dev hd) (fun m hm => absurd hm (ho.idle m))
        (fun _ hu => ?_) hi.cleared ?_
    · by_cases hm : m = e
      · subst hm
        simp [St.goto, St.assign, St.set, ho.held]
      · simp [St.goto, St.assign, St.set, ho.held, hm]
    · simp only [St.goto, Function.update_self, Loc.lock, Option.some.injEq] at hm
      exact ⟨hm.symm, by simp [St.goto, St.assign, St.set], hlock⟩
    · simpa [St.goto, St.assign, St.set, St.Ok, Slot.id, hw.1,
        hw.2] using hi.absent (dev, nr) hw.1 hw.2 hno
    · simp only [St.goto, St.assign, St.set, Function.update_self, Slot.id]
      exact ⟨hi.named _ hw.2, fun m _ => hno m⟩
    · exact absurd (by simp [St.goto]) (hu t)
    · exact hi.assigned_cons ho

theorem Inv.fresh (hi : Inv s) {dev : Nat} {e : Fin nrInode} {free : Option Nat} (ho : Own s t e)
    (h : s.fresh t dev e free = some s') : Inv s' := by
  have hlock := hi.noLock_of_unlocked t ho.spare.unlocked
  unfold St.fresh at h
  split at h
  · cases h
    exact hi.goto (by rw [ho.held]; rfl) (by simp [Loc.lock]) trivial ho.idle
  · rename_i nr
    split at h
    · cases h
    rename_i hfree
    cases h
    -- an inode that is free is in no slot
    have hno (m : Fin nrInode) (hd : (s.table m).iDev ≠ 0) : (s.table m).id ≠ (dev, nr) := by
      intro he
      have ha := hi.alloc m hd
      rw [he] at ha
      exact hfree ha
    have hun : s.named (dev, nr) ≠ true := fun hn => hfree (hi.named _ hn)
    refine hi.move (t := t) (n := e) ⟨fun _ hm => Function.update_of_ne hm _ _,
      fun _ hv => Function.update_of_ne hv _ _, fun _ _ => rfl, rfl,
      rfl⟩ (fun m => ?_) (by simp [St.goto, Loc.lock]) (.inl hlock) (.inl (hi.noSpare_own ho))
      (by simp [St.goto, St.Ok]) (fun i ha _ => ?_) (fun hd => ?_)
        (fun hd => absurd ho.spare.dev hd)
      (fun m hm => absurd hm (ho.idle m)) (fun _ _ => ⟨?_, ?_⟩) hi.cleared ?_
    · by_cases hm : m = e
      · subst hm
        simp [St.goto, St.addRef, St.assign, St.set, St.setAlloc, ho.held,
          ho.spare.count, ho.refs hi]
      · simp [St.goto, St.addRef, St.assign, St.set, St.setAlloc, ho.held, hm, Ne.symm hm]
    · by_cases he : i = (dev, nr)
      · simp [St.goto, St.addRef, St.assign, St.set, St.setAlloc, he]
      · simpa [St.goto, St.addRef, St.assign, St.set, St.setAlloc, he] using ha
    · simp only [St.goto, St.addRef, St.assign, St.set, St.setAlloc, Function.update_self, Slot.id,
        true_and] at hd ⊢
      intro m hm he
      refine hno m ?_ he
      rw [Slot.dev_of_id (y := ⟨dev, nr, 0, 0, false, false⟩) he]
      exact hd
    · simp [St.goto, St.addRef, St.assign, St.set, St.setAlloc, Slot.id]
    · simp [St.goto, St.addRef, St.assign, St.set, St.setAlloc]
    · exact hi.assigned_cons ho

theorem Inv.clear (hi : Inv s) {c : Caller} {k : Fin nrInode} (hl : s.loc t = .emptyWait c k)
    (hu : (s.table n).iLock = false) (h0 : (s.table n).iCount = 0)
    (hd : (s.table n).iDirt = false) : Inv ((s.clear t n).goto t (.putWait .done false n)) := by
  have hlock := hi.noLock_of_unlocked t hu
  refine hi.move (t := t) (n := n) ⟨fun _ hm => Function.update_of_ne hm _ _,
    fun _ hv => Function.update_of_ne hv _ _, fun _ hm => Function.update_of_ne hm _ _, rfl,
    rfl⟩ (fun m => ?_) (by simp [St.goto, Loc.lock]) (.inl hlock)
    (.inl (hi.noSpare fun h _ _ => absurd (h.count.symm.trans h0) (by decide)))
      (by simp [St.goto, St.Ok]) (fun _ h _ => h)
    (by simp [St.goto, St.clear, St.set, zeroSlot]) (fun hn hm => .inr ?_) (by simp [hl])
    (by simp [St.goto, St.clear, St.set, zeroSlot]) ?_ hi.assigned
  · have ht : (s.loc t).held = [] := by rw [hl]; rfl
    by_cases hm : m = n
    · subst hm
      simp [St.goto, St.clear, St.set, Then.held, ht, h0]
      omega
    · simp [St.goto, St.clear, St.set, Then.held, ht, hm, Ne.symm hm]
  · have hh := hi.linked_unlocked hu hn
    exact hh.disk hd (hh.memory hm)
  · intro x hx
    rcases List.mem_cons.mp hx with rfl | hx
    · exact ⟨h0, hd⟩
    · exact hi.cleared x hx

theorem Inv.begin (hi : Inv s) {c : Caller} (hheld : (s.loc t).held = [])
    (hread : ∀ m, s.loc t ≠ .readRead m) (hok : c.Wants s.named) (h : s.begin t c = some s') :
    Inv s' := by
  unfold St.begin at h
  split at h
  · cases h
  · rename_i last n _
    cases h
    have hi' : Inv { s with lastInode := last } :=
      ⟨hi.count, hi.locked, hi.sole, hi.ok, hi.unique, hi.alloc, hi.named,
        fun m hd hu => ⟨(hi.linked m hd hu).memory, (hi.linked m hd hu).disk⟩, hi.absent,
        hi.cleared, hi.assigned⟩
    exact hi'.goto hheld.symm (by simp [Loc.lock]) hok hread

theorem Inv.take (hi : Inv s) {c : Caller} {free : Option Nat} (hl : s.loc t = .emptyWait c n)
    (hu : (s.table n).iLock = false) (h : s.take t c n free = some s') : Inv s' := by
  have hok : c.Wants s.named := hi.at hl
  unfold St.take at h
  split_ifs at h with hd h0
  · cases h
    exact hi.goto (by rw [hl]; rfl) (by simp [Loc.lock]) hok (by simp [hl])
  · exact hi.begin (by rw [hl]; rfl) (by simp [hl]) hok h
  · have hc := hi.clear hl hu (by simpa using h0) (by simpa using hd)
    have ho := own_clear s t n
    cases c with
    | plain =>
      cases h
      have he : ((s.clear t n).addRef n).goto t .out =
        ((s.clear t n).goto t (.putWait .done false n)).adjust t .out n
          ((s.clear t n).table n) (Function.update s.refs n (s.refs n + 1)) := by
        simp [St.goto, St.adjust, St.addRef, St.clear, St.set]
      rw [he]
      refine hc.adjust rfl ?_ (fun m hm => ?_) (.inl rfl) (.inr rfl)
        (.inl (hc.noSpare_own ho)) trivial (by simp [St.goto])
        fun hd => absurd ho.spare.dev hd
      · rw [ho.held]
        simp [St.goto, St.clear, St.set]
        omega
      · rw [ho.held]
        simp [St.goto, St.clear, St.set, hm, Ne.symm hm]
    | iget dev nr =>
      cases h
      rw [← scan_goto _ t (.putWait .done false n)]
      exact hc.scan ho hok
    | new dev =>
      change (s.clear t n).fresh t dev n free = some s' at h
      rw [← fresh_goto _ t (.putWait .done false n)] at h
      exact hc.fresh ho h

theorem Inv.store (hi : Inv s) {w : Writer} (hl : s.loc t = .writeRead w n) :
    Inv ((s.store n).goto t (.writeRelse w n)) := by
  have hok : w.Wants s.named ∧ (s.table n).iDev ≠ 0 := hi.at hl
  have hk : (s.loc t).lock = some n := by rw [hl]; rfl
  have hfield (m : Fin nrInode) : ((s.store n).table m).iCount = (s.table m).iCount ∧
      ((s.store n).table m).id = (s.table m).id ∧ ((s.store n).table m).iLock = (s.table m).iLock ∧
        ((s.store n).table m).iNlinks = (s.table m).iNlinks := by
    by_cases hm : m = n
    · subst hm
      simp [St.store, St.set, Slot.id]
    · simp [St.store, St.set, hm]
  have hdev (m : Fin nrInode) : ((s.store n).table m).iDev = (s.table m).iDev :=
    Slot.dev_of_id (hfield m).2.1
  have hother (i : Nat × Nat) (h : i ≠ (s.table n).id) : (s.store n).links i = s.links i :=
    Function.update_of_ne h _ _
  have hi' : Inv (s.store n) := by
    refine ⟨fun m => ?_, fun u m hm => ?_, hi.sole, fun u => ?_, fun m q hd he => ?_,
      fun m hd => ?_, hi.named, fun m hd hu => ?_, fun i h0 hn ha => ?_, hi.cleared, hi.assigned⟩
    · rw [(hfield m).1]
      exact hi.count m
    · rw [(hfield m).2.2.1]
      exact hi.locked u m hm
    · change (s.store n).Ok u (s.loc u)
      generalize hv : s.loc u = l
      have hh := hi.at hv
      cases l with
      | scanWait dev nr e q =>
        have hne : e ≠ n := fun he => hok.2 (he ▸ hh.2.1.dev)
        have he : (s.store n).table e = s.table e := Function.update_of_ne hne _ _
        exact ⟨hh.1, by rw [he]; exact hh.2.1, hh.2.2⟩
      | writeRead v m => exact ⟨hh.1, by rw [hdev]; exact hh.2⟩
      | readRead m =>
        have hne : (s.table m).id ≠ (s.table n).id := by
          intro he
          have hm := hi.unique m n hh.1 he
          rw [hm] at hv
          have hut := hi.sole u t n (by rw [hv]; rfl) hk
          rw [hut, hl] at hv
          cases hv
        refine ⟨by rw [hdev]; exact hh.1, by rw [(hfield m).2.1]; exact hh.2.1, ?_⟩
        rw [(hfield m).2.1, hother _ hne]
        exact hh.2.2
      | _ => exact hh
    · rw [hdev] at hd
      rw [(hfield m).2.1, (hfield q).2.1] at he
      exact hi.unique m q hd he
    · rw [hdev] at hd
      rw [(hfield m).2.1]
      exact hi.alloc m hd
    · rw [hdev] at hd
      have hh := hi.linked m hd hu
      refine ⟨by rw [(hfield m).2.1, (hfield m).2.2.2]; exact hh.memory, fun hc hn => ?_⟩
      rw [(hfield m).2.1]
      rw [(hfield m).2.2.2] at hn
      by_cases hm : m = n
      · subst hm
        simpa [St.store, St.set] using hn
      · have hc' : (s.table m).iDirt = false := by simpa [St.store, St.set, hm] using hc
        rw [hother _ fun he => hm (hi.unique m n hd he)]
        exact hh.disk hc' hn
    · rw [hother i fun he => ha n ((hfield n).2.1.trans he.symm)]
      exact hi.absent i h0 hn fun m hm => ha m ((hfield m).2.1.trans hm)
  have hl' : (s.store n).loc t = .writeRead w n := hl
  exact hi'.goto (by rw [hl']; rfl) (fun m hm => by rw [hl']; exact hm) hok.1 (by simp [hl'])

theorem Inv.outer (hi : Inv s) {x : Slot} {r : Fin nrInode → Nat} (hl : s.loc t = .out)
    (hr : s.refs n ≠ 0) (hid : x.id = (s.table n).id) (hlock : x.iLock = (s.table n).iLock)
    (hcount : x.iCount.toNat + s.refs n = (s.table n).iCount.toNat + r n)
    (hother : ∀ m, m ≠ n → s.refs m = r m)
    (hlinked : x.iDev ≠ 0 → s.Linked n → (s.adjust t .out n x r).Linked n) :
    Inv { s with table := Function.update s.table n x, refs := r } := by
  have he : { s with table := Function.update s.table n x, refs := r } = s.adjust t .out n x r := by
    rw [St.adjust, ← hl, Function.update_eq_self]
  rw [he]
  refine hi.adjust hid (by rw [hl]; simpa using hcount)
    (fun m hm => by rw [hl]; simpa using hother m hm) (.inl rfl) (.inr hlock)
    (.inl (hi.noSpare fun _ h _ => hr h)) trivial (by simp [hl]) fun hd hu => hlinked hd ?_
  refine hi.linked n (by rwa [← Slot.dev_of_id hid]) fun u => ?_
  rw [← he] at hu
  exact hu u

theorem Inv.dup (hi : Inv s) (hl : s.loc t = .out) (hr : s.refs n ≠ 0)
    (hroom : (s.table n).iCount ≠ BitVec.allOnes 16) :
    Inv ((s.set n { s.table n with iCount := (s.table n).iCount + 1 }).addRef n) := by
  refine hi.outer hl hr rfl rfl ?_ (fun m hm => ?_) fun _ h => ⟨?_, ?_⟩
  · simp only [St.set, toNat_raise hroom, Function.update_self]
    omega
  · simp [St.set, hm]
  · simpa [St.adjust, Slot.id] using h.memory
  · simpa [St.adjust, Slot.id] using h.disk

theorem Inv.touch (hi : Inv s) (hl : s.loc t = .out) (hr : s.refs n ≠ 0) :
    Inv (s.set n { s.table n with iDirt := true }) :=
  hi.outer hl hr rfl rfl rfl (fun _ _ => rfl) fun _ h =>
    ⟨by simpa [St.adjust, Slot.id] using h.memory, by simp [St.adjust]⟩

theorem Inv.unlink (hi : Inv s) (hl : s.loc t = .out) (hr : s.refs n ≠ 0)
    (hn : s.named (s.table n).id ≠ true) :
    Inv (s.set n { s.table n with iNlinks := (s.table n).iNlinks - 1 }) := by
  refine hi.outer hl hr rfl rfl rfl (fun _ _ => rfl) fun _ h => ⟨?_, ?_⟩
  · simpa [St.adjust, Slot.id] using fun hh => absurd hh hn
  · simp only [St.adjust, Function.update_self]
    exact fun hd hh => h.disk hd fun h0 => hh (by rw [h0])

theorem Inv.outside (hi : Inv s) {e : Event} (hl : s.loc t = .out) (h : s.outside e = some s') :
    Inv s' := by
  cases e with
  | dup n =>
    simp only [St.outside, Option.ite_none_left_eq_some, Option.map_eq_some_iff] at h
    obtain ⟨hr, s₁, hraise, rfl⟩ := h
    obtain ⟨hroom, rfl⟩ := raise_eq_some.mp hraise
    exact hi.dup hl hr hroom
  | touch n =>
    simp only [St.outside, Option.ite_none_left_eq_some, Option.some.injEq] at h
    rw [← h.2]
    exact hi.touch hl h.1
  | name n =>
    simp only [St.outside, Option.ite_none_left_eq_some, Option.some.injEq, not_or] at h
    rw [← h.2]
    exact hi.name h.1.2.1 h.1.2.2
  | unlink n =>
    simp only [St.outside, Option.ite_none_left_eq_some, Option.some.injEq, not_or] at h
    rw [← h.2]
    exact hi.unlink hl h.1.1 h.1.2.2
  | _ => cases h

theorem Inv.resume (hi : Inv s) {free : Option Nat} (h : s.resume t free = some s') : Inv s' := by
  have hok := hi.ok t
  unfold St.resume at h
  split at h
  · cases h
  · rename_i c n hl
    split at h
    · cases h
    rename_i hu
    exact hi.take hl (Bool.eq_false_iff.mpr hu) h
  · rename_i w n hl
    split at h
    · cases h
    rename_i hu
    cases h
    exact hi.write hl (Bool.eq_false_iff.mpr hu)
  · rename_i w n hl
    cases h
    exact hi.store hl
  · rename_i w n hl
    cases h
    exact hi.unlock hl
  · rename_i dev nr e n hl
    split_ifs at h with h1 h2
    · obtain ⟨s₁, hraise, rfl⟩ := Option.map_eq_some_iff.mp h
      obtain ⟨hroom, rfl⟩ := raise_eq_some.mp hraise
      exact hi.found hl h2.1 hroom
    · cases h
      rw [hl] at hok
      exact hi.scan ⟨hok.2.1, hok.2.2, by rw [hl]; rfl, by simp [hl]⟩ hok.1
  · rename_i n hl
    rw [hl] at hok
    exact hok.elim
  · rename_i n hl
    cases h
    exact hi.load hl
  · rename_i n hl
    cases h
    exact hi.loaded hl
  · rename_i k again n hl
    split at h
    · cases h
    rename_i hu
    exact hi.iput hl (Bool.eq_false_iff.mpr hu) h

theorem Inv.drop (hi : Inv s) (hl : s.loc t = .out) (hr : s.refs n ≠ 0) :
    Inv ((s.dropRef n).goto t (.putWait .done false n)) := by
  have he : (s.dropRef n).goto t (.putWait .done false n) =
      s.adjust t (.putWait .done false n) n (s.table n)
        (Function.update s.refs n (s.refs n - 1)) := by
    simp only [St.goto, St.dropRef, St.adjust, Function.update_eq_self]
  rw [he]
  refine hi.adjust rfl ?_ (fun m hm => ?_) (.inl rfl) (.inr rfl) (.inr rfl) trivial (by simp [hl])
    (hi.linked_keep rfl rfl id (by simp [hl]))
  · rw [hl]
    simp [Then.held]
    omega
  · rw [hl]
    simp [Then.held, hm, Ne.symm hm]

theorem Inv.enter (hi : Inv s) {e : Event} (hl : s.loc t = .out) (h : s.enter t e = some s') :
    Inv s' := by
  have hheld : (s.loc t).held = [] := by rw [hl]; rfl
  have hread (m : Fin nrInode) : s.loc t ≠ .readRead m := by simp [hl]
  cases e with
  | iget dev nr =>
    simp only [St.enter, Option.ite_none_left_eq_some, not_or, Bool.not_eq_false] at h
    exact hi.begin (c := .iget dev nr) hheld hread h.1 h.2
  | new dev =>
    simp only [St.enter, Option.ite_none_left_eq_some] at h
    exact hi.begin (c := .new dev) hheld hread trivial h.2
  | getEmpty => exact hi.begin (c := .plain) hheld hread trivial h
  | write n =>
    cases h
    exact hi.goto (by rw [hheld]; rfl) (by simp [Loc.lock]) trivial hread
  | iput n =>
    simp only [St.enter, Option.ite_none_left_eq_some, Option.some.injEq] at h
    rw [← h.2]
    exact hi.drop hl h.1
  | _ =>
    simp only [St.enter] at h
    exact hi.outside hl h

theorem Inv.step {a : T × Event} (hi : Inv s) (h : step a s = some s') : Inv s' := by
  unfold InodeTable.step at h
  split at h
  · exact hi.resume h
  · rename_i hl _
    exact hi.enter hl h
  · cases h

/-- From a file system in which the inodes that entries name are allocated and have links. -/
theorem inodes_unique {alloc named : Nat × Nat → Bool} {links : Nat × Nat → Nat}
    (h : ∀ i, named i = true → alloc i = true ∧ links i ≠ 0) (events : List (T × Event)) :
    Run.Always step Safe events (boot alloc named links) :=
  (Run.always_of_step (fun _ _ _ hi hs => hi.step hs) (Inv.boot h)).mono fun _ hi =>
    ⟨hi.unique, hi.cleared, hi.assigned⟩

/-- Two tasks look up the root. -/
theorem inodes_unique_root :
    let events : List (Bool × Event) :=
      [(true, .iget 1 1), (true, .go none), (false, .iget 1 1), (false, .go none), (true, .go none),
        (true, .go none), (false, .go none), (false, .go none)]
    let root : Nat × Nat → Bool := fun i => decide (i = (1, 1))
    Run.Always step Safe events (boot root root fun _ => 2) ∧
      ((Run.exec step events (boot root root fun _ => 2)).map fun s =>
        (s.table ⟨1, by decide⟩).iCount) = some 2 :=
  ⟨inodes_unique (fun _ h => ⟨h, by decide⟩) _, by decide +kernel⟩

end

/-- Inode 5 is allocated and an entry names it, but it has no links: `iput` frees it,
and `new_inode` allocates it once more while `iget` has it in memory. -/
theorem inodes_doubled :
    ¬ ∀ (alloc named : Nat × Nat → Bool) (links : Nat × Nat → Nat) (events : List (Unit × Event)),
    (∀ i, named i = true → alloc i = true) → Run.Always step Safe events
      (boot alloc named links) := by
  intro h
  let start : St Unit :=
    boot (fun i => decide (i.1 = 1 ∧ i.2 ≤ 5)) (fun i => decide (i = (1, 5))) fun _ => 0
  let events : List (Unit × Event) :=
    [((), .iget 1 5), ((), .go none), ((), .go none), ((), .go none), ((), .iput ⟨1, by decide⟩),
      ((), .go none), ((), .iget 1 5), ((), .go none), ((), .go none), ((), .go none), ((), .new 1),
      ((), .go (some 5))]
  have hh : Run.Always step Safe events start := h _ _ _ _ (by simp +contextual)
  have he : (Run.exec step events start).map (fun s => ((s.table ⟨2, by decide⟩).id,
      (s.table ⟨3, by decide⟩).id)) = some ((1, 5), (1, 5)) := by decide +kernel
  obtain ⟨s, hs, ht⟩ := Option.map_eq_some_iff.mp he
  have h2 : (s.table ⟨2, by decide⟩).id = (1, 5) := congrArg Prod.fst ht
  have h3 : (s.table ⟨3, by decide⟩).id = (1, 5) := congrArg Prod.snd ht
  have hd : (s.table ⟨2, by decide⟩).iDev = 1 := congrArg Prod.fst h2
  exact absurd ((hh.last hs).1 _ _ (by simp [hd]) (h2.trans h3.symm)) (by decide)

end Gpos.InodeTable
