import Gpos.Holdings
import Gpos.InodeTable

/-! What the tasks in these functions rely on, and the steps that change one slot. -/

namespace Gpos.InodeTable

open Fs

section

variable {T : Type*}

/-- The references that a task has got inside of these functions. -/
def Then.held : Then → List (Fin nrInode)
  | .done => []
  | .found r => [r]

def Writer.held : Writer → Fin nrInode → List (Fin nrInode)
  | .put k, n => n :: k.held
  | _, _ => []

def Loc.held : Loc → List (Fin nrInode)
  | .writeLock w n | .writeRead w n | .writeRelse w n => w.held n
  | .scanWait _ _ e _ => [e]
  | .readLock n | .readRead n | .readRelse n => [n]
  | .putWait k _ n => n :: k.held
  | _ => []

@[simp] theorem Loc.held_out : Loc.out.held = [] := rfl
@[simp] theorem Loc.held_readRead (n : Fin nrInode) : (Loc.readRead n).held = [n] := rfl
@[simp] theorem Loc.held_putWait (k : Then) (again : Bool) (n : Fin nrInode) :
    (Loc.putWait k again n).held = n :: k.held := rfl

def Loc.lock : Loc → Option (Fin nrInode)
  | .writeRead _ n | .writeRelse _ n | .readRead n | .readRelse n => some n
  | _ => none

/-- `iget` gets an inode that an entry names. -/
def Caller.Wants (named : Nat × Nat → Bool) : Caller → Prop
  | .iget dev nr => dev ≠ 0 ∧ named (dev, nr) = true
  | _ => True

def Writer.Wants (named : Nat × Nat → Bool) : Writer → Prop
  | .empty c => c.Wants named
  | _ => True

/-- A slot from `get_empty_inode` that `iget` has not assigned yet. -/
structure Spare (x : Slot) : Prop where
  count : x.iCount = 1
  dev : x.iDev = 0
  clean : x.iDirt = false
  unlocked : x.iLock = false

theorem Spare.toNat_count {x : Slot} (h : Spare x) : x.iCount.toNat = 1 := by
  rw [h.count]
  rfl

namespace St

variable (s : St T)

/-- What a task that waits relies on. -/
def Ok (t : T) (l : Loc) : Prop :=
  match l with
  | .emptyWait c _ => c.Wants s.named
  | .writeLock w _ | .writeRelse w _ => w.Wants s.named
  | .writeRead w n => w.Wants s.named ∧ (s.table n).iDev ≠ 0
  | .scanWait dev nr e _ =>
    (dev ≠ 0 ∧ s.named (dev, nr) = true) ∧ Spare (s.table e) ∧ s.owner e = some t
  | .readLock _ => False
  | .readRead n => (s.table n).iDev ≠ 0 ∧ s.named (s.table n).id = true ∧ s.links (s.table n).id ≠ 0
  | _ => True

/-- The link counts of the inode in a slot. -/
structure Linked (n : Fin nrInode) : Prop where
  memory : s.named (s.table n).id = true → (s.table n).iNlinks ≠ 0
  disk : (s.table n).iDirt = false → (s.table n).iNlinks ≠ 0 → s.links (s.table n).id ≠ 0

def holdings [Fintype T] : Multiset (Fin nrInode) := Holdings.total fun t => (s.loc t).held

end St

/-- The references of every slot are counted, a locked slot is locked by one
task, an inode has one slot, and an inode that an entry names has links,
also where they have not been read or are not in memory any more. -/
structure Inv [Fintype T] (s : St T) : Prop where
  count : ∀ n, (s.table n).iCount.toNat = s.refs n + s.holdings.count n
  locked : ∀ t n, (s.loc t).lock = some n → (s.table n).iLock = true
  sole : ∀ t u n, (s.loc t).lock = some n → (s.loc u).lock = some n → t = u
  ok : ∀ t, s.Ok t (s.loc t)
  unique : ∀ m n, (s.table m).iDev ≠ 0 → (s.table m).id = (s.table n).id → m = n
  alloc : ∀ n, (s.table n).iDev ≠ 0 → s.alloc (s.table n).id = true
  named : ∀ i, s.named i = true → s.alloc i = true
  linked : ∀ n, (s.table n).iDev ≠ 0 → (∀ t, s.loc t ≠ .readRead n) → s.Linked n
  absent : ∀ i, i.1 ≠ 0 → s.named i = true → (∀ n, (s.table n).id ≠ i) → s.links i ≠ 0
  cleared : ∀ x ∈ s.cleared, x.iCount = 0 ∧ x.iDirt = false
  assigned : ∀ a ∈ s.assigned, a.owner = some a.task ∧ a.slot.iDev = 0 ∧ a.slot.iCount = 1

theorem Slot.dev_of_id {x y : Slot} (h : x.id = y.id) : x.iDev = y.iDev := congrArg Prod.fst h

end

section

variable {T : Type*} {s s' : St T} {t u : T} {n : Fin nrInode}

/-- No other task has slot `n` from `get_empty_inode`. -/
def NoSpare (s : St T) (t : T) (n : Fin nrInode) : Prop :=
  ∀ u, u ≠ t → ∀ dev nr k, s.loc u ≠ .scanWait dev nr n k

def NoLock (s : St T) (t : T) (n : Fin nrInode) : Prop :=
  ∀ u, u ≠ t → (s.loc u).lock ≠ some n

/-- What a step of `t` that changes slot `n` leaves alone. -/
structure Frame (s s' : St T) (t : T) (n : Fin nrInode) : Prop where
  table : ∀ m, m ≠ n → s'.table m = s.table m
  loc : ∀ u, u ≠ t → s'.loc u = s.loc u
  owner : ∀ m, m ≠ n → s'.owner m = s.owner m
  named : s'.named = s.named
  links : s'.links = s.links

theorem St.Ok.move (hf : Frame s s' t n) (hs : NoSpare s t n ∨
    s'.table n = s.table n ∧ s'.owner n = s.owner n)
    (hl : NoLock s t n ∨ (s'.table n).id = (s.table n).id) (hu : u ≠ t) (h : s.Ok u (s.loc u)) :
    s'.Ok u (s.loc u) := by
  have hid (m : Fin nrInode) (hm : (s.loc u).lock = some m) : (s'.table m).id = (s.table m).id := by
    by_cases he : m = n
    · subst he
      exact hl.resolve_left fun hh => hh u hu hm
    · rw [hf.table m he]
  generalize hv : s.loc u = l at h hid ⊢
  cases l with
  | scanWait dev nr e k =>
    have he : s'.table e = s.table e ∧ s'.owner e = s.owner e := by
      by_cases he : e = n
      · subst he
        exact hs.resolve_left fun hh => hh u hu dev nr k hv
      · exact ⟨hf.table e he, hf.owner e he⟩
    simpa only [St.Ok, he, hf.named] using h
  | writeRead w m =>
    have hd : (s'.table m).iDev = (s.table m).iDev := Slot.dev_of_id (hid m rfl)
    simpa only [St.Ok, hd, hf.named] using h
  | readRead m =>
    have hd : (s'.table m).iDev = (s.table m).iDev := Slot.dev_of_id (hid m rfl)
    simpa only [St.Ok, hd, hid m rfl, hf.named, hf.links] using h
  | emptyWait c m => simpa only [St.Ok, hf.named] using h
  | writeLock w m | writeRelse w m => simpa only [St.Ok, hf.named] using h
  | readLock m => exact h
  | _ => trivial

theorem Writer.held_back (w : Writer) : (w.back n).held = w.held n := by
  cases w <;> rfl

theorem Writer.lock_back (w : Writer) : (w.back n).lock = none := by
  cases w <;> rfl

theorem Writer.Wants.back {w : Writer} (h : w.Wants s.named) (hs : s'.named = s.named) :
    s'.Ok t (w.back n) := by
  rw [← hs] at h
  cases w with
  | empty c => exact h
  | _ => trivial

namespace St

/-- Task `t` goes to `l`, and slot `n` and the references change. -/
def adjust [DecidableEq T] (s : St T) (t : T) (l : Loc) (n : Fin nrInode) (x : Slot)
    (r : Fin nrInode → Nat) : St T :=
  { s with table := Function.update s.table n x, refs := r, loc := Function.update s.loc t l }

end St

theorem Frame.adjust [DecidableEq T] (l : Loc) (x : Slot) (r : Fin nrInode → Nat) :
    Frame s (s.adjust t l n x r) t n where
  table _ hm := Function.update_of_ne hm _ _
  loc _ hu := Function.update_of_ne hu _ _
  owner _ _ := rfl
  named := rfl
  links := rfl

section

variable [Fintype T]

theorem Inv.noLock_of_unlocked (hi : Inv s) (t : T) (h : (s.table n).iLock = false) :
    NoLock s t n := by
  intro u _ hu
  rw [hi.locked u n hu] at h
  cases h

theorem Inv.noLock_of_own (hi : Inv s) (h : (s.loc t).lock = some n) : NoLock s t n :=
  fun u hut hu => hut (hi.sole u t n hu h)

theorem Inv.at (hi : Inv s) {l : Loc} (h : s.loc t = l) : s.Ok t l := h ▸ hi.ok t

theorem Inv.spare (hi : Inv s) {dev nr : Nat} {e k : Fin nrInode}
    (h : s.loc t = .scanWait dev nr e k) :
    (dev ≠ 0 ∧ s.named (dev, nr) = true) ∧ Spare (s.table e) ∧ s.owner e = some t :=
  hi.at h

theorem Inv.linked_unlocked (hi : Inv s) (hu : (s.table n).iLock = false)
    (hd : (s.table n).iDev ≠ 0) : s.Linked n := by
  refine hi.linked n hd fun u hr => ?_
  have hk := hi.locked u n (by rw [hr]; rfl)
  rw [hu] at hk
  cases hk

/-! A step of `t` that changes slot `n` keeps every part of the invariant. -/

section

variable (hi : Inv s) (hf : Frame s s' t n)

include hi hf

theorem Inv.locked_move
    (hlock : ∀ m, (s'.loc t).lock = some m → m = n ∧ (s'.table n).iLock = true ∧ NoLock s t n)
    (hlocks : NoLock s t n ∨ (s'.table n).iLock = (s.table n).iLock) {m : Fin nrInode}
    (hu : (s'.loc u).lock = some m) : (s'.table m).iLock = true := by
  by_cases hut : u = t
  · subst hut
    obtain ⟨rfl, hx, -⟩ := hlock m hu
    exact hx
  · rw [hf.loc u hut] at hu
    by_cases hmn : m = n
    · subst hmn
      rw [hlocks.resolve_left fun hh => hh u hut hu]
      exact hi.locked u m hu
    · rw [hf.table m hmn]
      exact hi.locked u m hu

theorem Inv.sole_move
    (hlock : ∀ m, (s'.loc t).lock = some m → m = n ∧ (s'.table n).iLock = true ∧ NoLock s t n)
    {v : T} {m : Fin nrInode} (hu : (s'.loc u).lock = some m) (hv : (s'.loc v).lock = some m) :
    u = v := by
  by_cases hut : u = t
  · subst hut
    obtain ⟨rfl, -, hn⟩ := hlock m hu
    by_contra hne
    rw [hf.loc v (Ne.symm hne)] at hv
    exact hn v (Ne.symm hne) hv
  · by_cases hvt : v = t
    · subst hvt
      obtain ⟨rfl, -, hn⟩ := hlock m hv
      rw [hf.loc u hut] at hu
      exact absurd hu (hn u hut)
    · rw [hf.loc u hut] at hu
      rw [hf.loc v hvt] at hv
      exact hi.sole u v m hu hv

theorem Inv.unique_move
    (hput : (s'.table n).iDev ≠ 0 → ∀ m, m ≠ n → (s.table m).id ≠ (s'.table n).id)
    {m k : Fin nrInode} (hd : (s'.table m).iDev ≠ 0) (he : (s'.table m).id = (s'.table k).id) :
    m = k := by
  by_cases hm : m = n
  · by_cases hk : k = n
    · rw [hm, hk]
    · subst hm
      rw [hf.table k hk] at he
      exact absurd he.symm (hput hd k hk)
  · by_cases hk : k = n
    · subst hk
      have hd' : (s'.table k).iDev ≠ 0 := by
        rw [← Slot.dev_of_id he]
        exact hd
      rw [hf.table m hm] at he
      exact absurd he (hput hd' m hm)
    · rw [hf.table m hm] at hd he
      rw [hf.table k hk] at he
      exact hi.unique m k hd he

theorem Inv.linked_move (hread : ∀ m, s.loc t = .readRead m → m = n)
    (hlinked : (s'.table n).iDev ≠ 0 → (∀ u, s'.loc u ≠ .readRead n) → s'.Linked n)
    {m : Fin nrInode} (hd : (s'.table m).iDev ≠ 0) (hu : ∀ u, s'.loc u ≠ .readRead m) :
    s'.Linked m := by
  by_cases hm : m = n
  · subst hm
    exact hlinked hd hu
  · rw [hf.table m hm] at hd
    have hh : s.Linked m := by
      refine hi.linked m hd fun u he => ?_
      by_cases hut : u = t
      · subst hut
        exact hm (hread m he)
      · exact hu u ((hf.loc u hut).trans he)
    exact ⟨by simpa only [hf.table m hm, hf.named] using hh.memory,
      by simpa only [hf.table m hm, hf.links] using hh.disk⟩

theorem Inv.absent_move (hgone : (s.table n).iDev ≠ 0 → s.named (s.table n).id = true →
      (s'.table n).id = (s.table n).id ∨ s.links (s.table n).id ≠ 0)
    {i : Nat × Nat} (h0 : i.1 ≠ 0) (hn : s.named i = true) (ha : ∀ m, (s'.table m).id ≠ i) :
    s.links i ≠ 0 := by
  by_cases he : (s.table n).id = i
  · have hd : (s.table n).iDev ≠ 0 := by
      rw [← he] at h0
      exact h0
    rw [← he] at hn ⊢
    exact (hgone hd hn).resolve_left fun hh => ha n (hh.trans he)
  · refine hi.absent i h0 hn fun m => ?_
    by_cases hm : m = n
    · rw [hm]
      exact he
    · rw [← hf.table m hm]
      exact ha m

end

variable [DecidableEq T]

theorem holdings_goto (h : ∀ u, u ≠ t → s'.loc u = s.loc u) (n : Fin nrInode) :
    s'.holdings.count n + (s.loc t).held.count n =
      s.holdings.count n + (s'.loc t).held.count n := by
  have hh :=
    Holdings.total_add (f := fun u => (s.loc u).held) (g := fun u => (s'.loc u).held) t
      fun u hu => by rw [h u hu]
  simpa [St.holdings] using congrArg (Multiset.count n) hh

theorem held_le (t : T) (n : Fin nrInode) : (s.loc t).held.count n ≤ s.holdings.count n := by
  have hh := Multiset.count_le_of_le n (Holdings.le_total (f := fun u => (s.loc u).held) t)
  rwa [Multiset.coe_count] at hh

theorem held_two (htu : u ≠ t) (n : Fin nrInode) :
    (s.loc t).held.count n + (s.loc u).held.count n ≤ s.holdings.count n := by
  have hh := Multiset.count_le_of_le n (Holdings.add_le_total (f := fun u => (s.loc u).held) htu)
  rwa [Multiset.count_add, Multiset.coe_count, Multiset.coe_count] at hh

/-- A step that changes one slot keeps the invariant. -/
theorem Inv.move (hi : Inv s) (hf : Frame s s' t n)
    (hcount : ∀ m, (s'.table m).iCount.toNat + s.refs m + (s.loc t).held.count m =
      (s.table m).iCount.toNat + s'.refs m + (s'.loc t).held.count m)
    (hlock : ∀ m, (s'.loc t).lock = some m → m = n ∧ (s'.table n).iLock = true ∧ NoLock s t n)
    (hlocks : NoLock s t n ∨ (s'.table n).id = (s.table n).id ∧
      (s'.table n).iLock = (s.table n).iLock)
    (hspare : NoSpare s t n ∨ s'.table n = s.table n ∧ s'.owner n = s.owner n)
    (hok : s'.Ok t (s'.loc t))
    (halloc : ∀ i, s.alloc i = true → s.named i = true ∨ i ≠ (s.table n).id → s'.alloc i = true)
    (hput : (s'.table n).iDev ≠ 0 → s'.alloc (s'.table n).id = true ∧ ∀ m, m ≠ n →
      (s.table m).id ≠ (s'.table n).id)
    (hgone : (s.table n).iDev ≠ 0 → s.named (s.table n).id = true →
      (s'.table n).id = (s.table n).id ∨ s.links (s.table n).id ≠ 0)
    (hread : ∀ m, s.loc t = .readRead m → m = n)
    (hlinked : (s'.table n).iDev ≠ 0 → (∀ u, s'.loc u ≠ .readRead n) → s'.Linked n)
    (hcleared : ∀ x ∈ s'.cleared, x.iCount = 0 ∧ x.iDirt = false)
    (hassigned : ∀ a ∈ s'.assigned, a.owner = some a.task ∧ a.slot.iDev = 0 ∧ a.slot.iCount = 1) :
    Inv s' where
  count m := by
    have hh := holdings_goto hf.loc m
    have hm := hi.count m
    have hc := hcount m
    omega
  locked _ _ hu := hi.locked_move hf hlock (hlocks.imp_right And.right) hu
  sole _ _ _ hu hv := hi.sole_move hf hlock hu hv
  ok u := by
    by_cases hut : u = t
    · rw [hut]
      exact hok
    · rw [hf.loc u hut]
      exact St.Ok.move hf hspare (hlocks.imp id And.left) hut (hi.ok u)
  unique _ _ hd he := hi.unique_move hf (fun hd => (hput hd).2) hd he
  alloc m hd := by
    by_cases hm : m = n
    · subst hm
      exact (hput hd).1
    · rw [hf.table m hm] at hd ⊢
      exact halloc _ (hi.alloc m hd) (.inr fun he => hm (hi.unique m n hd he))
  named i hn := by
    rw [hf.named] at hn
    exact halloc i (hi.named i hn) (.inl hn)
  linked _ hd hu := hi.linked_move hf hread hlinked hd hu
  absent _ h0 hn ha := by
    rw [hf.named] at hn
    rw [hf.links]
    exact hi.absent_move hf hgone h0 hn ha
  cleared := hcleared
  assigned := hassigned

theorem Inv.noSpare (hi : Inv s) (h : Spare (s.table n) → s.refs n = 0 →
    (s.loc t).held.count n = 0 → False) : NoSpare s t n := by
  intro u hu dev nr k hv
  obtain ⟨-, hs, -⟩ := hi.spare hv
  have hc := hi.count n
  have h1 := hs.toNat_count
  have hh : (s.loc u).held.count n = 1 := by simp [hv, Loc.held]
  have hle := held_le (s := s) u n
  have htwo := held_two (s := s) hu n
  exact h hs (by omega) (by omega)

theorem Inv.adjust (hi : Inv s) {l : Loc} {x : Slot} {r : Fin nrInode → Nat}
    (hid : x.id = (s.table n).id) (hcount : x.iCount.toNat + s.refs n + (s.loc t).held.count n =
      (s.table n).iCount.toNat + r n + l.held.count n)
    (hother : ∀ m, m ≠ n → s.refs m + (s.loc t).held.count m = r m + l.held.count m)
    (hlock : l.lock = none ∨ l.lock = some n ∧ x.iLock = true ∧ NoLock s t n)
    (hlocks : NoLock s t n ∨ x.iLock = (s.table n).iLock) (hspare : NoSpare s t n ∨ x = s.table n)
    (hok : (s.adjust t l n x r).Ok t l) (hread : ∀ m, s.loc t = .readRead m → m = n)
    (hlinked : x.iDev ≠ 0 → (∀ u, (s.adjust t l n x r).loc u ≠ .readRead n) →
      (s.adjust t l n x r).Linked n) : Inv (s.adjust t l n x r) := by
  have hn : (s.adjust t l n x r).table n = x := Function.update_self ..
  have ht : (s.adjust t l n x r).loc t = l := Function.update_self ..
  have hf : Frame s (s.adjust t l n x r) t n := Frame.adjust l x r
  refine hi.move hf (fun m => ?_) (fun m hm => ?_) ?_ ?_ ?_ (fun i ha _ => ha) (fun hd => ?_)
    (fun _ _ => ?_) hread
    (fun hd hu => ?_) hi.cleared hi.assigned
  · rw [ht]
    by_cases hm : m = n
    · subst hm
      rw [hn]
      exact hcount
    · rw [hf.table m hm]
      have hh := hother m hm
      change _ + _ + _ = _ + r m + _
      omega
  · rw [ht] at hm
    rcases hlock with h | ⟨h, hx, hno⟩
    · rw [h] at hm
      cases hm
    · rw [h] at hm
      cases hm
      rw [hn]
      exact ⟨rfl, hx, hno⟩
  · rw [hn]
    exact hlocks.imp_right fun h => ⟨hid, h⟩
  · rw [hn]
    exact hspare.imp_right fun h => ⟨h, rfl⟩
  · rw [ht]
    exact hok
  · rw [hn] at hd ⊢
    rw [hid]
    rw [Slot.dev_of_id hid] at hd
    exact ⟨hi.alloc n hd, fun m hm he => hm (hi.unique n m hd he.symm).symm⟩
  · rw [hn]
    exact .inl hid
  · rw [hn] at hd
    exact hlinked hd hu

theorem Inv.linked_keep (hi : Inv s) {l : Loc} {x : Slot} {r : Fin nrInode → Nat}
    (hid : x.id = (s.table n).id) (hlinks : x.iNlinks = (s.table n).iNlinks)
    (hdirt : x.iDirt = false → (s.table n).iDirt = false) (ht : s.loc t ≠ .readRead n)
    (hd : x.iDev ≠ 0) (hu : ∀ u, (s.adjust t l n x r).loc u ≠ .readRead n) :
    (s.adjust t l n x r).Linked n := by
  have hn : (s.adjust t l n x r).table n = x := Function.update_self ..
  rw [Slot.dev_of_id hid] at hd
  have hh : s.Linked n := by
    refine hi.linked n hd fun u he => ?_
    by_cases hut : u = t
    · exact ht (hut ▸ he)
    · exact hu u ((Function.update_of_ne hut _ _).trans he)
  constructor
  · rw [hn, hid, hlinks]
    exact hh.memory
  · rw [hn, hid, hlinks]
    exact fun h => hh.disk (hdirt h)

theorem Inv.goto (hi : Inv s) {l : Loc} (hheld : l.held = (s.loc t).held)
    (hl : ∀ m, l.lock = some m → (s.loc t).lock = some m) (hok : s.Ok t l)
    (hread : ∀ m, s.loc t ≠ .readRead m) :
    Inv (s.goto t l) := by
  have hg (n : Fin nrInode) (hlock : l.lock = none ∨ l.lock = some n) : Inv (s.goto t l) := by
    have he : s.goto t l = s.adjust t l n (s.table n) s.refs := by
      simp only [St.goto, St.adjust, Function.update_eq_self]
    rw [he]
    refine hi.adjust rfl (by rw [hheld]) (fun m _ => by rw [hheld]) (hlock.imp_right fun h => ?_)
      (.inr rfl) (.inr rfl) ?_
      (fun m hm => absurd hm (hread m)) (hi.linked_keep rfl rfl id (hread n))
    · exact ⟨h, hi.locked t n (hl n h), hi.noLock_of_own (hl n h)⟩
    · rw [← he]
      exact hok
  cases hk : l.lock with
  | none => exact hg ⟨0, by decide⟩ (.inl hk)
  | some n => exact hg n (.inr hk)

end

end

end Gpos.InodeTable
