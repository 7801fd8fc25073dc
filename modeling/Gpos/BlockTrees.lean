import Gpos.BlockMap
import Gpos.Run
import Mathlib.Tactic.Common

/-! The zone trees of the inodes of one device, when every `bread` succeeds and
returns what the block holds. -/

namespace Gpos.BlockMap

/-- The bits of the zone map are searched in `order`, the bits of the blocks
that are loaded. `words` are the entries that a zone holds. -/
structure Disk where
  order : List Nat
  firstDataZone : Nat
  nzones : Nat
  bits : Nat → Bool
  zone : Nat → Nat → Nat
  words : Nat → Nat → Nat

namespace Disk

def setWord (z i v : Nat) (d : Disk) : Disk :=
  { d with words := Function.update d.words z (Function.update (d.words z) i v) }

def clear (z : Nat) (d : Disk) : Disk := { d with words := Function.update d.words z fun _ => 0 }

def setZone (inode i v : Nat) (d : Disk) : Disk :=
  { d with zone := Function.update d.zone inode (Function.update (d.zone inode) i v) }

def take (n : Nat) (d : Disk) : Disk := { d with bits := Function.update d.bits n true }

/-- `new_block`: the first clear bit, which stays set when its zone does not exist. -/
def newBlock (d : Disk) : Nat × Disk :=
  match d.order.find? fun n => !d.bits n with
  | none => (0, d)
  | some n =>
    if d.nzones ≤ n + d.firstDataZone - 1 then (0, d.take n)
    else (n + d.firstDataZone - 1, (d.take n).clear (n + d.firstDataZone - 1))

/-- The buffer of a block is named by its number, and all is on device 1. -/
def ops : Ops Disk where
  iDev _ := pure 1
  iZone inode i := fun d => some (d.zone inode i, d)
  setZone inode i v := fun d => some ((), d.setZone inode i v)
  newBlock _ := fun d => some d.newBlock
  bread _ z := pure (some z)
  entry bh i := fun d => some (d.words bh i, d)
  setEntry bh i v := fun d => some ((), d.setWord bh i v)
  brelse _ := pure ()

/-- The zone is marked as allocated. -/
def Used (d : Disk) (z : Nat) : Prop :=
  d.firstDataZone ≤ z ∧ d.bits (z + 1 - d.firstDataZone) = true

end Disk

/-- The places in the zone tree of an inode. -/
inductive Place
  | zone (i : Nat)
  | ind (j : Nat)
  | dind (j : Nat)
  | leaf (j k : Nat)
deriving DecidableEq

namespace Place

def Ok : Place → Prop
  | zone i => i < 9
  | ind j | dind j => j < 512
  | leaf j k => j < 512 ∧ k < 512

/-- The index block that holds the entry, and which entry it is. -/
def parent : Place → Option (Place × Nat)
  | zone _ => none
  | ind j => some (zone 7, j)
  | dind j => some (zone 8, j)
  | leaf j k => some (dind j, k)

theorem parent_inj {p q : Place} {r : Place × Nat} (hp : p.parent = some r)
    (hq : q.parent = some r) : p = q := by
  cases p <;> cases q <;> simp only [parent, Option.some.injEq, reduceCtorEq] at hp hq <;>
    subst hp <;> simp_all

theorem parent_ok {p q : Place} {j : Nat} (h : p.parent = some (q, j)) (hp : p.Ok) : q.Ok := by
  cases p <;> simp only [parent, Option.some.injEq, Prod.mk.injEq, reduceCtorEq] at h <;>
    obtain ⟨rfl, rfl⟩ := h
  · exact (by decide : 7 < 9)
  · exact (by decide : 8 < 9)
  · exact hp.1

/-- Where `_bmap` looks for a block. -/
def ofBlock (k : Nat) : Place :=
  if k < 7 then zone k else if k - 7 < 512 then ind (k - 7)
    else leaf ((k - 7 - 512) / 512) ((k - 7 - 512) % 512)

theorem ofBlock_ok {k : Nat} (hk : k < maxBlocks) : (ofBlock k).Ok := by
  unfold maxBlocks at hk
  unfold ofBlock
  split
  · show k < 9
    omega
  · split
    · assumption
    · exact ⟨by omega, Nat.mod_lt _ (by decide)⟩

theorem ofBlock_inj {k l : Nat} (h : ofBlock k = ofBlock l) : k = l := by
  unfold ofBlock at h
  split at h <;> split at h <;> (try split at h) <;> (try split at h) <;>
    simp only [zone.injEq, ind.injEq, leaf.injEq, reduceCtorEq] at h <;> omega

end Place

namespace Disk

/-- What an index block, or none, says. -/
def entryOf (d : Disk) (z i : Nat) : Nat := if z = 0 then 0 else d.words z i

/-- The zone at a place, zero for none. -/
def ref (d : Disk) (inode : Nat) : Place → Nat
  | .zone i => d.zone inode i
  | .ind j => d.entryOf (d.zone inode 7) j
  | .dind j => d.entryOf (d.zone inode 8) j
  | .leaf j k => d.entryOf (d.entryOf (d.zone inode 8) j) k

theorem ref_of_parent {d : Disk} (inode : Nat) {p q : Place} {j : Nat}
    (h : p.parent = some (q, j)) : d.ref inode p = d.entryOf (d.ref inode q) j := by
  cases p <;> simp only [Place.parent, Option.some.injEq, Prod.mk.injEq, reduceCtorEq] at h <;>
    obtain ⟨rfl, rfl⟩ := h <;> rfl

/-- The trees refer to pairwise distinct zones, and these are allocated. Bit 0
of the map belongs to no zone and is set. -/
structure Trees (d : Disk) : Prop where
  first : 1 ≤ d.firstDataZone
  zero : d.bits 0 = true
  distinct : ∀ n p m q, p.Ok → q.Ok → d.ref n p ≠ 0 → d.ref n p = d.ref m q → n = m ∧ p = q
  used : ∀ n p, p.Ok → d.ref n p ≠ 0 → d.Used (d.ref n p)

/-- Zone `z`, which was not allocated, is now at place `p` of the inode. -/
structure Grown (d : Disk) (n : Nat) (p : Place) (z : Nat) (d' : Disk) : Prop where
  fresh : ¬ d.Used z
  new : d'.Used z
  first : d'.firstDataZone = d.firstDataZone
  zero : d'.bits 0 = true
  used : ∀ w, d.Used w → d'.Used w
  ref : ∀ m q, q.Ok → d'.ref m q = if m = n ∧ q = p then z else d.ref m q

theorem Grown.trees {d d' : Disk} {n z : Nat} {p : Place} (h : Grown d n p z d') (ht : Trees d) :
    Trees d' := by
  refine ⟨h.first.symm ▸ ht.first, h.zero, fun m q m' q' hq hq' hne heq => ?_, fun m q hq hne => ?_⟩
  · rw [h.ref m q hq] at hne heq
    rw [h.ref m' q' hq'] at heq
    split at heq <;> split at heq
    next hm hm' => exact ⟨hm.1.trans hm'.1.symm, hm.2.trans hm'.2.symm⟩
    next hm hm' =>
      rw [if_pos hm] at hne
      exact absurd (heq ▸ ht.used m' q' hq' (heq ▸ hne)) h.fresh
    next hm hm' =>
      rw [if_neg hm] at hne
      exact absurd (heq ▸ ht.used m q hq hne) h.fresh
    next hm hm' =>
      rw [if_neg hm] at hne
      exact ht.distinct m q m' q' hq hq' hne heq
  · rw [h.ref m q hq] at hne ⊢
    split
    next => exact h.new
    next hm =>
      rw [if_neg hm] at hne
      exact h.used _ (ht.used m q hq hne)

/-- What an allocation does to the map, with its result `z`. -/
structure Allocated (d : Disk) (z : Nat) (d' : Disk) : Prop where
  first : d'.firstDataZone = d.firstDataZone
  zero : d'.bits 0 = true
  used : ∀ w, d.Used w → d'.Used w
  zone : d'.zone = d.zone
  words : d'.words = if z = 0 then d.words else Function.update d.words z fun _ => 0
  fresh : z ≠ 0 → ¬ d.Used z ∧ d'.Used z

theorem used_take {d : Disk} {n w : Nat} (h : d.Used w) : (d.take n).Used w := by
  refine ⟨h.1, ?_⟩
  show Function.update d.bits n true (w + 1 - d.firstDataZone) = true
  by_cases hn : w + 1 - d.firstDataZone = n
  · rw [hn, Function.update_self]
  · rw [Function.update_of_ne hn]
    exact h.2

theorem newBlock_spec {d : Disk} (ht : Trees d) : Allocated d d.newBlock.1 d.newBlock.2 := by
  have hfirst := ht.first
  unfold newBlock
  split
  next => exact ⟨rfl, ht.zero, fun _ h => h, rfl, rfl, fun h => absurd rfl h⟩
  next n hf =>
    have hclear : d.bits n = false := by simpa using List.find?_some hf
    have hn : n ≠ 0 := by
      rintro rfl
      rw [ht.zero] at hclear
      cases hclear
    have hzero : (d.take n).bits 0 = true := by
      show Function.update d.bits n true 0 = true
      rw [Function.update_of_ne (Ne.symm hn)]
      exact ht.zero
    split
    next => exact ⟨rfl, hzero, fun _ => used_take, rfl, rfl, fun h => absurd rfl h⟩
    next hin =>
      have hz : n + d.firstDataZone - 1 ≠ 0 := by omega
      have hnr : n + d.firstDataZone - 1 + 1 - d.firstDataZone = n := by omega
      refine ⟨rfl, hzero, fun _ => used_take, rfl, (if_neg hz).symm,
        fun _ => ⟨fun hu => ?_, ?_, ?_⟩⟩
      · have := hu.2
        rw [hnr, hclear] at this
        cases this
      · show d.firstDataZone ≤ n + d.firstDataZone - 1
        omega
      · show Function.update d.bits n true (n + d.firstDataZone - 1 + 1 - d.firstDataZone) = true
        rw [hnr, Function.update_self]

theorem ref_congr {d d' : Disk} (hz : d'.zone = d.zone) (hw : d'.words = d.words) (n : Nat)
    (p : Place) : d'.ref n p = d.ref n p := by
  have he : d'.entryOf = d.entryOf := by
    funext z i
    rw [entryOf, entryOf, hw]
  cases p <;> simp only [ref, he, hz]

/-- Nothing is at the place yet, but there is an index block for it. -/
structure Vacant (d : Disk) (n : Nat) (p : Place) : Prop where
  ok : p.Ok
  none : d.ref n p = 0
  parent : ∀ q j, p.parent = some (q, j) → d.ref n q ≠ 0

/-- Zone `z` is cleared and put at place `p`, and all else is as it was. -/
structure Put (d : Disk) (n : Nat) (p : Place) (z : Nat) (d' : Disk) : Prop where
  root : ∀ m i, d'.zone m i = if m = n ∧ .zone i = p then z else d.zone m i
  clear : ∀ j, d'.words z j = 0
  word : ∀ q j, p.parent = some (q, j) → d'.words (d.ref n q) j = z
  other : ∀ w j, w ≠ z → (∀ q, p.parent = some (q, j) → d.ref n q ≠ w) → d'.words w j = d.words w j

theorem parent_ne {p : Place} {j : Nat} : p.parent ≠ some (p, j) := by
  cases p <;> simp [Place.parent]

theorem Put.child {d d' : Disk} {n z : Nat} {p : Place} (h : Put d n p z d') (hv : Vacant d n p)
    (ht : Trees d) (hz : ¬ d.Used z) {m j : Nat} {r r' : Place} (hr : r.parent = some (r', j))
    (hok : r.Ok) (hp : d'.ref m r' = if m = n ∧ r' = p then z else d.ref m r') :
    d'.ref m r = if m = n ∧ r = p then z else d.ref m r := by
  have hok' := Place.parent_ok hr hok
  rw [ref_of_parent m hr, ref_of_parent m hr, hp]
  by_cases hm : m = n ∧ r' = p
  · obtain ⟨rfl, rfl⟩ := hm
    have hne : r ≠ r' := by
      rintro rfl
      exact parent_ne hr
    rw [if_pos ⟨rfl, rfl⟩, if_neg fun hc => hne hc.2, entryOf, entryOf, h.clear, ite_self,
      hv.none, if_pos rfl]
  · rw [if_neg hm]
    by_cases h0 : d.ref m r' = 0
    · rw [h0, entryOf, entryOf, if_pos rfl, if_pos rfl, if_neg]
      rintro ⟨rfl, rfl⟩
      exact hv.parent r' j hr h0
    · have hwz : d.ref m r' ≠ z := fun he => hz (he ▸ ht.used m r' hok' h0)
      rw [entryOf, entryOf, if_neg h0, if_neg h0]
      by_cases he : m = n ∧ r = p
      · obtain ⟨rfl, rfl⟩ := he
        rw [if_pos ⟨rfl, rfl⟩]
        exact h.word r' j hr
      · rw [if_neg he]
        refine h.other _ j hwz fun q hq heq => he ?_
        have hd := ht.distinct m r' n q hok' (Place.parent_ok hq hv.ok) h0 heq.symm
        obtain ⟨rfl, rfl⟩ := hd
        exact ⟨rfl, Place.parent_inj hr hq⟩

theorem Put.ref {d d' : Disk} {n z : Nat} {p : Place} (h : Put d n p z d') (hv : Vacant d n p)
    (ht : Trees d) (hz : ¬ d.Used z) (m : Nat) (r : Place) (hr : r.Ok) :
    d'.ref m r = if m = n ∧ r = p then z else d.ref m r := by
  have hroot : ∀ i, d'.ref m (.zone i) = if m = n ∧ .zone i = p then z else d.ref m (.zone i) :=
    h.root m
  cases r with
  | zone i => exact hroot i
  | ind j => exact h.child hv ht hz rfl hr (hroot 7)
  | dind j => exact h.child hv ht hz rfl hr (hroot 8)
  | leaf j k => exact h.child hv ht hz rfl hr (h.child hv ht hz rfl hr.1 (hroot 8))

/-- What the search for the zone at a place does, when it returns `z`. -/
structure Slot (create : Bool) (d : Disk) (n : Nat) (p : Place) (z : Nat) (d' : Disk) : Prop where
  trees : Trees d'
  value : d'.ref n p = z
  others : ∀ m q, q.Ok → ¬ (m = n ∧ q = p) → d'.ref m q = d.ref m q
  keep : create = false → d' = d

theorem Slot.same {d : Disk} (ht : Trees d) (create : Bool) {n : Nat} {p : Place} {z : Nat}
    (hz : d.ref n p = z) : Slot create d n p z d := ⟨ht, hz, fun _ _ _ _ => rfl, fun _ => rfl⟩

theorem Allocated.slot_none {d d' : Disk} (h : Allocated d 0 d') (ht : Trees d) {n : Nat}
    {p : Place} (hp : d.ref n p = 0) : Slot true d n p 0 d' := by
  have href : ∀ m q, d'.ref m q = d.ref m q := ref_congr h.zone (by rw [h.words, if_pos rfl])
  refine ⟨⟨h.first.symm ▸ ht.first, h.zero, fun m q m' q' => ?_, fun m q hq hne => ?_⟩,
    (href n p).trans hp, fun m q _ _ => href m q, nofun⟩
  · rw [href, href]
    exact ht.distinct m q m' q'
  · rw [href] at hne ⊢
    exact h.used _ (ht.used m q hq hne)

theorem Put.slot {d d' : Disk} {n z : Nat} {p : Place} (h : Put d n p z d') (hv : Vacant d n p)
    (ht : Trees d) (hfresh : ¬ d.Used z) (hnew : d'.Used z)
    (hfirst : d'.firstDataZone = d.firstDataZone) (hzero : d'.bits 0 = true)
    (hused : ∀ w, d.Used w → d'.Used w) : Slot true d n p z d' := by
  have href := h.ref hv ht hfresh
  refine ⟨Grown.trees ⟨hfresh, hnew, hfirst, hzero, hused, href⟩ ht, ?_,
    fun m q hq hne => ?_, nofun⟩
  · rw [href n p hv.ok, if_pos ⟨rfl, rfl⟩]
  · rw [href m q hq, if_neg hne]

theorem put_zone {d : Disk} (ht : Trees d) {n i z : Nat} (hi : i < 9) (h0 : d.zone n i = 0)
    {d₁ : Disk} (ha : Allocated d z d₁) (hz : z ≠ 0) :
    Slot true d n (.zone i) z (d₁.setZone n i z) := by
  have hput : Put d n (.zone i) z (d₁.setZone n i z) := by
    refine ⟨fun m k => ?_, fun j => ?_, nofun, fun w j hw _ => ?_⟩
    · show Function.update d₁.zone n (Function.update (d₁.zone n) i z) m k = _
      rw [ha.zone]
      by_cases hm : m = n
      · subst hm
        rw [Function.update_self]
        by_cases hk : k = i
        · subst hk
          rw [Function.update_self, if_pos ⟨rfl, rfl⟩]
        · rw [Function.update_of_ne hk, if_neg fun hc => hk (Place.zone.inj hc.2)]
      · rw [Function.update_of_ne hm, if_neg fun hc => hm hc.1]
    · show d₁.words z j = 0
      rw [ha.words, if_neg hz, Function.update_self]
    · show d₁.words w j = d.words w j
      rw [ha.words, if_neg hz, Function.update_of_ne hw]
  have hf := ha.fresh hz
  exact hput.slot ⟨hi, h0, nofun⟩ ht hf.1 hf.2 ha.first ha.zero ha.used

theorem put_entry {d : Disk} (ht : Trees d) {n j z : Nat} {p q : Place} (hp : p.Ok)
    (hq : p.parent = some (q, j)) (hpar : d.ref n q ≠ 0) (h0 : d.words (d.ref n q) j = 0)
    {d₁ : Disk} (ha : Allocated d z d₁) (hz : z ≠ 0) :
    Slot true d n p z (d₁.setWord (d.ref n q) j z) := by
  have hf := ha.fresh hz
  have hne : d.ref n q ≠ z := fun he => hf.1 (he ▸ ht.used n q (Place.parent_ok hq hp) hpar)
  have hnone : d.ref n p = 0 := by rw [ref_of_parent n hq, entryOf, if_neg hpar, h0]
  have hput : Put d n p z (d₁.setWord (d.ref n q) j z) := by
    refine ⟨fun m i => ?_, fun k => ?_, fun q' j' hq' => ?_, fun w k hw hother => ?_⟩
    · show d₁.zone m i = _
      rw [ha.zone, if_neg]
      rintro ⟨-, rfl⟩
      cases hq
    · show Function.update d₁.words (d.ref n q) (Function.update (d₁.words (d.ref n q)) j z) z k = 0
      rw [Function.update_of_ne (Ne.symm hne), ha.words, if_neg hz, Function.update_self]
    · obtain ⟨rfl, rfl⟩ := Prod.mk.inj (Option.some.inj (hq.symm.trans hq'))
      show Function.update d₁.words (d.ref n q) (Function.update (d₁.words (d.ref n q)) j z)
        (d.ref n q) j = z
      rw [Function.update_self, Function.update_self]
    · show Function.update d₁.words (d.ref n q) (Function.update (d₁.words (d.ref n q)) j z) w k =
        d.words w k
      by_cases hwq : w = d.ref n q
      · have hk : k ≠ j := by
          rintro rfl
          exact hother q hq hwq.symm
        rw [hwq, Function.update_self, Function.update_of_ne hk, ha.words, if_neg hz,
          Function.update_of_ne hne]
      · rw [Function.update_of_ne hwq, ha.words, if_neg hz, Function.update_of_ne hw]
  refine hput.slot ⟨hp, hnone, fun q' j' hq' => ?_⟩ ht hf.1 hf.2 ha.first ha.zero ha.used
  obtain ⟨rfl, rfl⟩ := Prod.mk.inj (Option.some.inj (hq.symm.trans hq'))
  exact hpar

theorem zoneOrNew_slot {d : Disk} (ht : Trees d) (create : Bool) (n : Nat) {i : Nat} (hi : i < 9) :
    ∃ z d', zoneOrNew ops create n i d = some (z, d') ∧ Slot create d n (.zone i) z d' := by
  by_cases hc : create = true ∧ d.zone n i = 0
  · obtain ⟨rfl, h0⟩ := hc
    have ha := newBlock_spec ht
    by_cases hz : d.newBlock.1 = 0
    · refine ⟨0, d.newBlock.2, ?_, (hz ▸ ha).slot_none ht h0⟩
      simp only [zoneOrNew, ops, Program.bind_eq, Program.pure_eq, Option.bind_some, h0,
        and_self, if_true, hz, ne_eq, not_true_eq_false, if_false]
    · refine ⟨d.newBlock.1, d.newBlock.2.setZone n i d.newBlock.1, ?_, put_zone ht hi h0 ha hz⟩
      simp only [zoneOrNew, ops, Program.bind_eq, Program.pure_eq, Option.bind_some, h0,
        and_self, if_true, hz, ne_eq, not_false_eq_true]
  · refine ⟨d.zone n i, d, ?_, .same ht create rfl⟩
    simp only [zoneOrNew, ops, Program.bind_eq, Program.pure_eq, Option.bind_some, hc, if_false]

theorem entryOrNew_slot {d : Disk} (ht : Trees d) (create : Bool) {n j z : Nat} {p q : Place}
    (hp : p.Ok) (hq : p.parent = some (q, j)) (hz : d.ref n q = z) :
    ∃ e d', entryOrNew ops create n z j d = some (e, d') ∧ Slot create d n p e d' := by
  subst hz
  by_cases hpar : d.ref n q = 0
  · refine ⟨0, d, ?_, .same ht create ?_⟩
    · simp only [entryOrNew, hpar, if_true, Program.pure_eq]
    · rw [ref_of_parent n hq, entryOf, if_pos hpar]
  · by_cases hc : create = true ∧ d.words (d.ref n q) j = 0
    · obtain ⟨rfl, h0⟩ := hc
      have ha := newBlock_spec ht
      have hnone : d.ref n p = 0 := by rw [ref_of_parent n hq, entryOf, if_neg hpar, h0]
      by_cases hz : d.newBlock.1 = 0
      · refine ⟨0, d.newBlock.2, ?_, (hz ▸ ha).slot_none ht hnone⟩
        simp only [entryOrNew, ops, hpar, if_false, Program.bind_eq, Program.pure_eq,
          Option.bind_some, h0, and_self, if_true, hz, ne_eq, not_true_eq_false]
      · refine ⟨d.newBlock.1, d.newBlock.2.setWord (d.ref n q) j d.newBlock.1, ?_,
          put_entry ht hp hq hpar h0 ha hz⟩
        simp only [entryOrNew, ops, hpar, if_false, Program.bind_eq, Program.pure_eq,
          Option.bind_some, h0, and_self, if_true, hz, ne_eq, not_false_eq_true]
    · refine ⟨d.words (d.ref n q) j, d, ?_, .same ht create ?_⟩
      · simp only [entryOrNew, ops, hpar, if_false, Program.bind_eq, Program.pure_eq,
          Option.bind_some, hc]
      · rw [ref_of_parent n hq, entryOf, if_neg hpar]

/-- Two searches one after the other; the first is not for the place of a block. -/
theorem Slot.trans {create : Bool} {d d₁ d₂ : Disk} {n z e : Nat} {p q : Place}
    (h : Slot create d n q z d₁) (h' : Slot create d₁ n p e d₂) :
    Trees d₂ ∧ d₂.ref n p = e ∧ (create = false → d₂ = d) ∧
      ∀ m r, r.Ok → ¬ (m = n ∧ r = p) → r ≠ q → d₂.ref m r = d.ref m r :=
  ⟨h'.trees, h'.value, fun hc => (h'.keep hc).trans (h.keep hc), fun m r hr hne hq =>
    (h'.others m r hr hne).trans (h.others m r hr fun hc => hq hc.2)⟩

/-- What `_bmap` does for block `k`. -/
structure Mapped (create : Bool) (d : Disk) (n k z : Nat) (d' : Disk) : Prop where
  trees : Trees d'
  value : d'.ref n (.ofBlock k) = z
  others : ∀ m l, l < maxBlocks → ¬ (m = n ∧ l = k) → d'.ref m (.ofBlock l) = d.ref m (.ofBlock l)
  keep : create = false → d' = d

theorem ofBlock_ne_dind (l j : Nat) : Place.ofBlock l ≠ .dind j := by
  unfold Place.ofBlock
  split
  · exact nofun
  · split <;> exact nofun

theorem ofBlock_ne_zone (l : Nat) {i : Nat} (hi : 7 ≤ i) : Place.ofBlock l ≠ .zone i := by
  unfold Place.ofBlock
  split
  · rintro ⟨⟩
    omega
  · split <;> exact nofun

theorem bmapCreate_mapped {d : Disk} (ht : Trees d) (create : Bool) (n : Nat) {k : Nat}
    (hk : k < maxBlocks) :
    ∃ z d', bmapCreate ops create n k d = some (z, d') ∧ Mapped create d n k z d' := by
  have hok := Place.ofBlock_ok hk
  have hne : ∀ m l, ¬ (m = n ∧ l = k) → ¬ (m = n ∧ Place.ofBlock l = Place.ofBlock k) :=
    fun m l h hc => h ⟨hc.1, Place.ofBlock_inj hc.2⟩
  rw [bmapCreate, if_neg (Nat.not_le.mpr hk)]
  by_cases h7 : k < 7
  · have hp : Place.ofBlock k = .zone k := if_pos h7
    rw [if_pos h7]
    obtain ⟨z, d', he, hs⟩ := zoneOrNew_slot ht create n (show k < 9 by omega)
    rw [← hp] at hs
    exact ⟨z, d', he, hs.trees, hs.value, fun m l hl h =>
      hs.others m _ (Place.ofBlock_ok hl) (hne m l h), hs.keep⟩
  · rw [if_neg h7]
    by_cases h512 : k - 7 < 512
    · have hp : Place.ofBlock k = .ind (k - 7) := by rw [Place.ofBlock, if_neg h7, if_pos h512]
      rw [if_pos h512]
      obtain ⟨z, d₁, he₁, hs₁⟩ := zoneOrNew_slot ht create n (by decide : 7 < 9)
      obtain ⟨e, d₂, he₂, hs₂⟩ :=
        entryOrNew_slot hs₁.trees create (j := k - 7) hok (by rw [hp]; rfl) hs₁.value
      obtain ⟨ht₂, hv, hkeep, hother⟩ := hs₁.trans hs₂
      exact ⟨e, d₂, by rw [Program.bind_of_eq he₁]; exact he₂, ht₂, hv, fun m l hl h =>
        hother m _ (Place.ofBlock_ok hl) (hne m l h) (ofBlock_ne_zone l (by decide)), hkeep⟩
    · have hp : Place.ofBlock k = .leaf ((k - 7 - 512) / 512) ((k - 7 - 512) % 512) := by
        rw [Place.ofBlock, if_neg h7, if_neg h512]
      have hok' : (Place.leaf ((k - 7 - 512) / 512) ((k - 7 - 512) % 512)).Ok := hp ▸ hok
      rw [if_neg h512]
      obtain ⟨z, d₁, he₁, hs₁⟩ := zoneOrNew_slot ht create n (by decide : 8 < 9)
      obtain ⟨i, d₂, he₂, hs₂⟩ :=
        entryOrNew_slot hs₁.trees create (p := .dind ((k - 7 - 512) / 512)) hok'.1 rfl hs₁.value
      obtain ⟨e, d₃, he₃, hs₃⟩ := entryOrNew_slot hs₂.trees create hok' rfl hs₂.value
      obtain ⟨ht₃, hv, hkeep, hother⟩ := hs₂.trans hs₃
      refine ⟨e, d₃, ?_, ht₃, by rw [hp]; exact hv, fun m l hl h => ?_,
        fun hc => (hkeep hc).trans (hs₁.keep hc)⟩
      · rw [Program.bind_of_eq he₁, Program.bind_of_eq he₂]
        exact he₃
      · rw [hother m _ (Place.ofBlock_ok hl) (hp ▸ hne m l h) (ofBlock_ne_dind l _)]
        exact hs₁.others m _ (Place.ofBlock_ok hl) fun hc => ofBlock_ne_zone l (by decide) hc.2

theorem zoneOrNew_words {d d' : Disk} (ht : Trees d) {create : Bool} {n i z w : Nat}
    (h : zoneOrNew ops create n i d = some (z, d')) (hw : d.Used w) :
    d'.words w = d.words w ∧ d'.Used w := by
  by_cases hc : create = true ∧ d.zone n i = 0
  · obtain ⟨rfl, h0⟩ := hc
    have ha := newBlock_spec ht
    by_cases hz : d.newBlock.1 = 0
    · simp only [zoneOrNew, ops, Program.bind_eq, Program.pure_eq, Option.bind_some, h0,
        and_self, if_true, hz, ne_eq, not_true_eq_false, if_false] at h
      cases h
      exact ⟨by rw [ha.words, if_pos hz], ha.used w hw⟩
    · simp only [zoneOrNew, ops, Program.bind_eq, Program.pure_eq, Option.bind_some, h0,
        and_self, if_true, hz, ne_eq, not_false_eq_true] at h
      cases h
      have hne : w ≠ d.newBlock.1 := fun he => (ha.fresh hz).1 (he ▸ hw)
      refine ⟨?_, ha.used w hw⟩
      show d.newBlock.2.words w = d.words w
      rw [ha.words, if_neg hz, Function.update_of_ne hne]
  · simp only [zoneOrNew, ops, Program.bind_eq, Program.pure_eq, Option.bind_some,
      hc, if_false] at h
    cases h
    exact ⟨rfl, hw⟩

theorem entryOrNew_words {d d' : Disk} (ht : Trees d) {create : Bool} {n j z e w : Nat}
    (h : entryOrNew ops create n z j d = some (e, d')) (hw : d.Used w) (hwz : w ≠ z) :
    d'.words w = d.words w ∧ d'.Used w := by
  by_cases hpar : z = 0
  · simp only [entryOrNew, hpar, if_true, Program.pure_eq] at h
    cases h
    exact ⟨rfl, hw⟩
  · by_cases hc : create = true ∧ d.words z j = 0
    · obtain ⟨rfl, h0⟩ := hc
      have ha := newBlock_spec ht
      by_cases hz : d.newBlock.1 = 0
      · simp only [entryOrNew, ops, hpar, if_false, Program.bind_eq, Program.pure_eq,
          Option.bind_some, h0, and_self, if_true, hz, ne_eq, not_true_eq_false] at h
        cases h
        exact ⟨by rw [ha.words, if_pos hz], ha.used w hw⟩
      · simp only [entryOrNew, ops, hpar, if_false, Program.bind_eq, Program.pure_eq,
          Option.bind_some, h0, and_self, if_true, hz, ne_eq, not_false_eq_true] at h
        cases h
        have hne : w ≠ d.newBlock.1 := fun he => (ha.fresh hz).1 (he ▸ hw)
        refine ⟨?_, ha.used w hw⟩
        show Function.update d.newBlock.2.words z _ w = d.words w
        rw [Function.update_of_ne hwz, ha.words, if_neg hz, Function.update_of_ne hne]
    · simp only [entryOrNew, ops, hpar, if_false, Program.bind_eq, Program.pure_eq,
        Option.bind_some, hc] at h
      cases h
      exact ⟨rfl, hw⟩

/-- The search for a block writes to no block of a file. -/
theorem bmapCreate_words {d d' : Disk} (ht : Trees d) {create : Bool} {n k z : Nat}
    (h : bmapCreate ops create n k d = some (z, d')) {m l : Nat} (hl : l < maxBlocks)
    (hne : d.ref m (.ofBlock l) ≠ 0) :
    d'.words (d.ref m (.ofBlock l)) = d.words (d.ref m (.ofBlock l)) := by
  have hlok := Place.ofBlock_ok hl
  have hused := ht.used m _ hlok hne
  unfold bmapCreate at h
  split at h
  · cases h
  split at h
  · exact (zoneOrNew_words ht h hused).1
  next hbig h7 =>
    split at h
    next h512 =>
      obtain ⟨z₁, d₁, he₁, hs₁⟩ := zoneOrNew_slot ht create n (by decide : 7 < 9)
      rw [Program.bind_of_eq he₁] at h
      obtain ⟨hw₁, hu₁⟩ := zoneOrNew_words ht he₁ hused
      have href₁ := hs₁.others m _ hlok fun hc => ofBlock_ne_zone l (by decide) hc.2
      have hwz : d.ref m (.ofBlock l) ≠ z₁ := fun he => by
        have hd :=
          hs₁.trees.distinct m _ n (.zone 7) hlok (by decide : 7 < 9) (href₁.symm ▸ hne)
            (by rw [href₁, hs₁.value, he])
        exact ofBlock_ne_zone l (by decide) hd.2
      rw [(entryOrNew_words hs₁.trees h hu₁ hwz).1, hw₁]
    next h512 =>
      have hk : (k - 7 - 512) / 512 < 512 := by
        have hmax : maxBlocks = 262663 := rfl
        omega
      obtain ⟨z₁, d₁, he₁, hs₁⟩ := zoneOrNew_slot ht create n (by decide : 8 < 9)
      obtain ⟨z₂, d₂, he₂, hs₂⟩ :=
        entryOrNew_slot hs₁.trees create (p := .dind ((k - 7 - 512) / 512)) hk rfl hs₁.value
      dsimp only at h
      rw [Program.bind_of_eq he₁, Program.bind_of_eq he₂] at h
      obtain ⟨hw₁, hu₁⟩ := zoneOrNew_words ht he₁ hused
      have href₁ := hs₁.others m _ hlok fun hc => ofBlock_ne_zone l (by decide) hc.2
      have hwz₁ : d.ref m (.ofBlock l) ≠ z₁ := fun he => by
        have hd :=
          hs₁.trees.distinct m _ n (.zone 8) hlok (by decide : 8 < 9) (href₁.symm ▸ hne)
            (by rw [href₁, hs₁.value, he])
        exact ofBlock_ne_zone l (by decide) hd.2
      obtain ⟨hw₂, hu₂⟩ := entryOrNew_words hs₁.trees he₂ hu₁ hwz₁
      have href₂ := (hs₂.others m _ hlok fun hc => ofBlock_ne_dind l _ hc.2).trans href₁
      have hwz₂ : d.ref m (.ofBlock l) ≠ z₂ := fun he => by
        have hd :=
          hs₂.trees.distinct m _ n (.dind ((k - 7 - 512) / 512)) hlok hk (href₂.symm ▸ hne)
            (by rw [href₂, hs₂.value, he])
        exact ofBlock_ne_dind l _ hd.2
      rw [(entryOrNew_words hs₂.trees h hu₂ hwz₂).1, hw₂, hw₁]

theorem ref_written {d d' : Disk} (ht : Trees d) {n k z : Nat} (hk : k < maxBlocks)
    (hz : d.ref n (.ofBlock k) = z) (hzone : d'.zone = d.zone)
    (hw : ∀ w ≠ z, d'.words w = d.words w) (m : Nat) {p : Place} (hp : p.Ok) :
    d'.ref m p = d.ref m p := by
  have hindex : ∀ {q : Place} (_ : q.Ok) (_ : ∀ l, Place.ofBlock l ≠ q) (j : Nat),
      d'.entryOf (d.ref m q) j = d.entryOf (d.ref m q) j := by
    intro q hq hne j
    rw [entryOf, entryOf]
    split
    · rfl
    next h0 =>
      rw [hw _ fun he => hne k (ht.distinct m q n _ hq (Place.ofBlock_ok hk) h0
        (he.trans hz.symm)).2.symm]
  cases p with
  | zone i => exact congrFun (congrFun hzone m) i
  | ind j =>
    show d'.entryOf (d'.zone m 7) j = _
    rw [hzone]
    exact hindex (q := .zone 7) (by decide : 7 < 9) (fun l => ofBlock_ne_zone l (by decide)) j
  | dind j =>
    show d'.entryOf (d'.zone m 8) j = _
    rw [hzone]
    exact hindex (q := .zone 8) (by decide : 8 < 9) (fun l => ofBlock_ne_zone l (by decide)) j
  | leaf j l =>
    have hdind : d'.entryOf (d'.zone m 8) j = d.ref m (.dind j) := by
      rw [hzone]
      exact hindex (q := .zone 8) (by decide : 8 < 9) (fun l => ofBlock_ne_zone l (by decide)) j
    show d'.entryOf (d'.entryOf (d'.zone m 8) j) l = _
    rw [hdind]
    exact hindex (q := .dind j) hp.1 (fun l => ofBlock_ne_dind l j) l

theorem Trees.congr {d d' : Disk} (ht : Trees d) (hfirst : d'.firstDataZone = d.firstDataZone)
    (hbits : d'.bits = d.bits) (href : ∀ m p, p.Ok → d'.ref m p = d.ref m p) : Trees d' := by
  refine ⟨hfirst ▸ ht.first, hbits ▸ ht.zero, fun n p m q hp hq hne he => ?_, fun n p hp hne => ?_⟩
  · rw [href n p hp] at hne he
    rw [href m q hq] at he
    exact ht.distinct n p m q hp hq hne he
  · rw [href n p hp] at hne ⊢
    rw [Used, hfirst, hbits]
    exact ht.used n p hp hne

/-- `bmap` reads off the tree and changes nothing. -/
theorem bmap_eq {d : Disk} (ht : Trees d) (n : Nat) {k : Nat} (hk : k < maxBlocks) :
    bmap ops n k d = some (d.ref n (.ofBlock k), d) := by
  obtain ⟨z, d', he, hm⟩ := bmapCreate_mapped ht false n hk
  obtain rfl := hm.keep rfl
  rw [bmap, he, ← hm.value]

/-- A created block is mapped to its new zone, all other blocks of all inodes are
mapped as before, and the trees stay disjoint and allocated. `bmap` changes nothing. -/
theorem createBlock_sound {d : Disk} (ht : Trees d) (n : Nat) {k : Nat} (hk : k < maxBlocks) :
    ∃ z d', createBlock ops n k d = some (z, d') ∧ Trees d' ∧
      (z ≠ 0 → bmap ops n k d' = some (z, d')) ∧ ∀ m l, l < maxBlocks →
        ∃ w, bmap ops m l d = some (w, d) ∧ (¬ (m = n ∧ l = k) →
          bmap ops m l d' = some (w, d')) := by
  obtain ⟨z, d', he, hm⟩ := bmapCreate_mapped ht true n hk
  refine ⟨z, d', he, hm.trees, fun _ => ?_, fun m l hl => ⟨_, bmap_eq ht m hl, fun h => ?_⟩⟩
  · rw [bmap_eq hm.trees n hk, hm.value]
  · rw [bmap_eq hm.trees m hl, hm.others m l hl h]

/-- Inode 1 has the zone 5 and, in the index block 6, the zone 7. -/
def oneFile : Disk where
  order := List.range 16
  firstDataZone := 5
  nzones := 16
  bits n := n < 4
  zone n i := if n = 1 ∧ i = 0 then 5 else if n = 1 ∧ i = 7 then 6 else 0
  words z i := if z = 6 ∧ i = 3 then 7 else 0

theorem oneFile_ref (n : Nat) (p : Place) :
    oneFile.ref n p = if n = 1 ∧ p = .zone 0 then 5 else if n = 1 ∧ p = .zone 7 then 6
      else if n = 1 ∧ p = .ind 3 then 7 else 0 := by
  cases p with
  | zone i => simp [ref, oneFile]
  | ind j => by_cases hn : n = 1 <;> simp [ref, entryOf, oneFile, hn]
  | dind j => simp [ref, entryOf, oneFile]
  | leaf j k => simp [ref, entryOf, oneFile]

theorem oneFile_trees : Trees oneFile := by
  refine ⟨by decide, rfl, fun n p m q _ _ hne he => ?_, fun n p _ hne => ?_⟩
  · rw [oneFile_ref] at hne he
    rw [oneFile_ref] at he
    split_ifs at hne he <;> simp_all
  · rw [oneFile_ref] at hne ⊢
    split_ifs at hne ⊢ <;> first | contradiction | exact ⟨by decide, by decide⟩

/-- Block 600 of another inode takes three zones. -/
theorem createBlock_sound_oneFile :
    ∃ z d', createBlock ops 0 600 oneFile = some (z, d') ∧ Trees d' ∧
      (z ≠ 0 → bmap ops 0 600 d' = some (z, d')) ∧ ∀ m l, l < maxBlocks →
      ∃ w, bmap ops m l oneFile = some (w, oneFile) ∧
        (¬ (m = 0 ∧ l = 600) → bmap ops m l d' = some (w, d')) :=
  createBlock_sound oneFile_trees 0 (by decide)

example : (createBlock ops 0 600 oneFile).map Prod.fst = some 10 := by decide

end Disk

end Gpos.BlockMap
