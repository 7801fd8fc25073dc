import Gpos.Run
import Gpos.Truncation
import Mathlib.Data.List.Perm.Basic

/-! Which zones a file has, and that two tasks free each of them once when they
do not truncate it at the same time. -/

namespace Gpos.Truncation

/-- The values of `f` from `i` on that are not zero, in a loop up to `n`. -/
def nonzero (f : Nat → Nat) (i n : Nat) : List Nat :=
  ((List.range' i (n - i)).map f).filter fun z => z ≠ 0

theorem nonzero_of_none {f : Nat → Nat} {i n : Nat} (h : next f i n = none) :
    nonzero f i n = [] := by
  rw [nonzero, List.filter_eq_nil_iff]
  intro z hz
  obtain ⟨k, hk, rfl⟩ := List.mem_map.mp hz
  exact List.find?_eq_none.mp h k hk

theorem nonzero_zero {f : Nat → Nat} {i n : Nat} (h0 : f i = 0) :
    nonzero f i n = nonzero f (i + 1) n := by
  unfold nonzero
  by_cases hi : i < n
  · obtain ⟨m, hm⟩ : ∃ m, n - i = m + 1 := ⟨n - i - 1, by omega⟩
    have hm' : n - (i + 1) = m := by omega
    rw [hm, hm', List.range'_succ, List.map_cons, h0]
    simp
  · have h1 : n - i = 0 := by omega
    have h2 : n - (i + 1) = 0 := by omega
    rw [h1, h2]
    rfl

theorem nonzero_of_some {f : Nat → Nat} {i n k : Nat} (h : next f i n = some k) :
    i ≤ k ∧ k < n ∧ (∀ j, i ≤ j → j < k → f j = 0) ∧ f k ≠ 0 ∧
      nonzero f i n = f k :: nonzero f (k + 1) n := by
  rw [next, List.find?_range'_eq_some] at h
  obtain ⟨hk, hmem, hbelow⟩ := h
  obtain ⟨hik, hkn⟩ := List.mem_range'_1.mp hmem
  have hk : f k ≠ 0 := by simpa using hk
  have hzero : ∀ j, i ≤ j → j < k → f j = 0 := fun j hij hjk => by simpa using hbelow j hij hjk
  refine ⟨hik, by omega, hzero, hk, ?_⟩
  have hskip : ∀ d, i + d ≤ k → nonzero f i n = nonzero f (i + d) n := by
    intro d
    induction d with
    | zero => exact fun _ => rfl
    | succ d ih =>
      exact fun hd => (ih (by omega)).trans (nonzero_zero (hzero _ (by omega) (by omega)))
  obtain ⟨m, hm⟩ : ∃ m, n - k = m + 1 := ⟨n - k - 1, by omega⟩
  have hm' : n - (k + 1) = m := by omega
  rw [hskip (k - i) (by omega), Nat.add_sub_cancel' hik, nonzero, nonzero, hm, hm',
    List.range'_succ, List.map_cons, List.filter_cons_of_pos (by simpa using hk)]

section

variable (words : Nat → Nat → Nat) (zone : Nat → Nat)

/-- The zones below an index block of `free_ind`, and the block itself. -/
def indZones (block : Nat) : List Nat := nonzero (words block) 0 512 ++ [block]

/-- The zones of the entries from `j` on. -/
def entryZones (deep : Bool) (block j : Nat) : List Nat :=
  if deep then (nonzero (words block) j 512).flatMap (indZones words)
    else nonzero (words block) j 512

def indexZones (deep : Bool) (block : Nat) : List Nat := entryZones words deep block 0 ++ [block]

def rootZones (deep : Bool) (block : Nat) : List Nat :=
  if block = 0 then [] else indexZones words deep block

/-- The zones of the file from the direct zone `i` on. -/
def zonesFrom (i : Nat) : List Nat :=
  nonzero zone i 7 ++ (rootZones words false (zone 7) ++ rootZones words true (zone 8))

/-- What a task still has to free when the call it is in returns. -/
def stackZones : List Frame → List Nat
  | [] => []
  | .direct i :: _ => zonesFrom words zone (i + 1)
  | .ind :: _ => rootZones words true (zone 8)
  | .dind :: _ => []
  | .entries deep block j :: stack =>
    entryZones words deep block (j + 1) ++ block :: stackZones stack

def waitZones : Wait → List Nat
  | .getSuper z | .getHashTable z => [z]
  | .getblk deep block | .io deep block => indexZones words deep block

end

/-- The buffers that a task holds. -/
def waitHeld : Wait → List Nat
  | .getHashTable z => [z]
  | .io _ block => [block]
  | _ => []

def stackHeld : List Frame → List Nat
  | .entries _ block _ :: stack => block :: stackHeld stack
  | _ => []

def zones (s : Shared) : List Nat := zonesFrom s.words s.inode.iZone 0

/-- A regular file whose zones are allocated and distinct, and which nobody is reading or writing. -/
structure File (b : Shared) : Prop where
  regular : Fs.isReg b.inode.iMode = true
  nodup : (zones b).Nodup
  valid : ∀ z ∈ zones b, b.firstDataZone ≤ z ∧ z < b.nzones ∧ b.bits (bitOf b z) = true
  unused : ∀ z ∈ zones b, b.bCount z = 0
  cleared : b.cleared = []
  running : b.panicked = false

/-- What is left of the file `b`, when the zones in `left` are still to be freed
and the buffers of the blocks in `held` are in use. -/
structure Rest (b s : Shared) (left held : List Nat) : Prop where
  words : s.words = b.words
  first : s.firstDataZone = b.firstDataZone
  nzones : s.nzones = b.nzones
  split : (s.cleared ++ left).Perm (zones b)
  bits : ∀ n, s.bits n = true ↔ b.bits n = true ∧ ∀ z ∈ s.cleared, bitOf b z ≠ n
  count : ∀ z ∈ zones b, s.bCount z = if z ∈ held then 1 else 0
  running : s.panicked = false

/-- The direct zones before the one that a task is at are gone. -/
def StackOk (zone : Nat → Nat) : List Frame → Prop
  | [] => False
  | .direct k :: _ => k < 7 ∧ ∀ i, i < k → zone i = 0
  | .ind :: _ | .dind :: _ => ∀ i, i < 7 → zone i = 0
  | .entries _ _ _ :: stack => StackOk zone stack

/-- A task that has come to `l` can go on from there. -/
def Fine (b : Shared) (s : Shared) : Loc → Prop
  | .before => False
  | .inside w stack =>
    Rest b s (waitZones s.words w ++ stackZones s.words s.inode.iZone stack)
      (waitHeld w ++ stackHeld stack) ∧ StackOk s.inode.iZone stack
  | .finished => Rest b s [] [] ∧ ∀ i, i < 9 → s.inode.iZone i = 0

section

variable {b s : Shared} {left held : List Nat}

theorem Rest.left_nodup (h : Rest b s left held) (hb : File b) : left.Nodup :=
  (List.nodup_append.mp (h.split.nodup_iff.mpr hb.nodup)).2.1

theorem Rest.mem (h : Rest b s left held) {z : Nat} (hz : z ∈ left) : z ∈ zones b :=
  h.split.subset (List.mem_append_right _ hz)

theorem stackHeld_subset (words : Nat → Nat → Nat) (zone : Nat → Nat) (stack : List Frame) :
    stackHeld stack ⊆ stackZones words zone stack := by
  induction stack with
  | nil => exact List.Subset.refl _
  | cons f stack ih =>
    cases f with
    | entries deep block j =>
      intro z hz
      rcases List.mem_cons.mp hz with rfl | hz
      · exact List.mem_append_right _ (List.mem_cons_self ..)
      · exact List.mem_append_right _ (List.mem_cons_of_mem _ (ih hz))
    | _ => exact List.nil_subset _

theorem Rest.withInode (h : Rest b s left held) (n : MInode) :
    Rest b { s with inode := n } left held :=
  ⟨h.words, h.first, h.nzones, h.split, h.bits, h.count, h.running⟩

theorem Rest.withCached (h : Rest b s left held) (c : Nat → Bool) :
    Rest b { s with cached := c } left held :=
  ⟨h.words, h.first, h.nzones, h.split, h.bits, h.count, h.running⟩

theorem Rest.acquire (h : Rest b s left held) {z : Nat} (hz : z ∈ zones b) (hnot : z ∉ held) :
    Rest b (setCount z (s.bCount z + 1) s) left (z :: held) := by
  refine ⟨h.words, h.first, h.nzones, h.split, h.bits, fun y hy => ?_, h.running⟩
  show Function.update s.bCount z (s.bCount z + 1) y = _
  by_cases hyz : y = z
  · rw [hyz, Function.update_self, h.count z hz, if_neg hnot, if_pos (List.mem_cons_self ..)]
  · rw [Function.update_of_ne hyz, h.count y hy]
    simp [hyz]

theorem Rest.count_of_held {z : Nat} (h : Rest b s left (z :: held)) (hz : z ∈ zones b) :
    s.bCount z = 1 := by
  rw [h.count z hz, if_pos (List.mem_cons_self ..)]

theorem Rest.release {z : Nat} (h : Rest b s left (z :: held)) (hz : z ∈ zones b)
    (hnot : z ∉ held) : Rest b (setCount z (s.bCount z - 1) s) left held := by
  refine ⟨h.words, h.first, h.nzones, h.split, h.bits, fun y hy => ?_, h.running⟩
  show Function.update s.bCount z (s.bCount z - 1) y = _
  by_cases hyz : y = z
  · rw [hyz, Function.update_self, h.count_of_held hz, if_neg hnot]
  · rw [Function.update_of_ne hyz, h.count y hy]
    simp [hyz]

theorem fine_finish (h : Rest b s [] []) (h0 : ∀ i, i < 7 → s.inode.iZone i = 0) :
    Fine b (finish s).1 (finish s).2 := by
  refine ⟨h.withInode _, fun i hi => ?_⟩
  show Function.update (Function.update s.inode.iZone 8 0) 7 0 i = 0
  by_cases h7 : i = 7
  · rw [h7, Function.update_self]
  · rw [Function.update_of_ne h7]
    by_cases h8 : i = 8
    · rw [h8, Function.update_self]
    · rw [Function.update_of_ne h8, h0 i (by omega)]

theorem fine_startDind (h : Rest b s (rootZones s.words true (s.inode.iZone 8)) [])
    (h0 : ∀ i, i < 7 → s.inode.iZone i = 0) : Fine b (startDind s).1 (startDind s).2 := by
  unfold startDind
  unfold rootZones at h
  split
  next h8 =>
    rw [if_pos h8] at h
    exact fine_finish h h0
  next h8 =>
    rw [if_neg h8] at h
    exact ⟨by simpa [waitZones, stackZones, waitHeld, stackHeld] using h, h0⟩

theorem fine_startInd
    (h : Rest b s (rootZones s.words false (s.inode.iZone 7) ++
      rootZones s.words true (s.inode.iZone 8)) [])
    (h0 : ∀ i, i < 7 → s.inode.iZone i = 0) : Fine b (startInd s).1 (startInd s).2 := by
  unfold startInd
  split
  next h7 =>
    rw [h7, rootZones, if_pos rfl, List.nil_append] at h
    exact fine_startDind h h0
  next h7 =>
    rw [rootZones, if_neg h7] at h
    exact ⟨h, h0⟩

theorem fine_directFrom {i : Nat} (h : Rest b s (zonesFrom s.words s.inode.iZone i) [])
    (h0 : ∀ j, j < i → s.inode.iZone j = 0) : Fine b (directFrom i s).1 (directFrom i s).2 := by
  unfold directFrom
  unfold zonesFrom at h
  split
  next k hk =>
    obtain ⟨hik, hk7, hzero, hne, heq⟩ := nonzero_of_some hk
    rw [heq] at h
    refine ⟨h, hk7, fun j hj => ?_⟩
    by_cases hji : j < i
    · exact h0 j hji
    · exact hzero j (by omega) hj
  next hk =>
    rw [nonzero_of_none hk, List.nil_append] at h
    refine fine_startInd h fun j hj => ?_
    by_cases hji : j < i
    · exact h0 j hji
    · have hnone := List.find?_eq_none.mp hk j (List.mem_range'_1.mpr ⟨by omega, by omega⟩)
      simpa using hnone

variable {stack : List Frame}

theorem Rest.not_held {z : Nat} {l : List Nat} (hb : File b)
    (h : Rest b s (l ++ z :: stackZones s.words s.inode.iZone stack) held) :
    z ∉ stackHeld stack := by
  have hnodup := (List.nodup_append.mp (h.left_nodup hb)).2.1
  exact fun hz => (List.nodup_cons.mp hnodup).1 (stackHeld_subset _ _ _ hz)

theorem fine_leaveIndex {block : Nat} (hb : File b)
    (h : Rest b s (block :: stackZones s.words s.inode.iZone stack) (block :: stackHeld stack))
    (hok : StackOk s.inode.iZone stack) :
    Fine b (leaveIndex block stack s).1 (leaveIndex block stack s).2 := by
  have hmem : block ∈ zones b := h.mem (List.mem_cons_self ..)
  have hcount := h.count_of_held hmem
  have hrel : brelse block s = some (setCount block (s.bCount block - 1) s) := if_neg (by omega)
  rw [leaveIndex, hrel]
  exact ⟨h.release hmem (Rest.not_held (l := []) hb h), hok⟩

theorem fine_entriesFrom {deep : Bool} {block j : Nat} (hb : File b)
    (h : Rest b s (entryZones s.words deep block j ++
      block :: stackZones s.words s.inode.iZone stack) (block :: stackHeld stack))
    (hok : StackOk s.inode.iZone stack) :
    Fine b (entriesFrom deep block j stack s).1 (entriesFrom deep block j stack s).2 := by
  unfold entriesFrom
  unfold entryZones at h
  split
  next k hk =>
    obtain ⟨-, -, -, -, heq⟩ := nonzero_of_some hk
    rw [heq] at h
    refine ⟨?_, hok⟩
    cases deep with
    | false => exact h
    | true =>
      simpa [waitZones, stackZones, waitHeld, stackHeld, indexZones, entryZones, indZones,
        List.append_assoc] using h
  next hk =>
    rw [nonzero_of_none hk] at h
    refine fine_leaveIndex hb ?_ hok
    cases deep <;> exact h

theorem zonesFrom_update (words : Nat → Nat → Nat) (zone : Nat → Nat) {k : Nat} (hk : k < 7) :
    zonesFrom words (Function.update zone k 0) (k + 1) = zonesFrom words zone (k + 1) := by
  have hdirect : (List.range' (k + 1) (7 - (k + 1))).map (Function.update zone k 0) =
      (List.range' (k + 1) (7 - (k + 1))).map zone := by
    refine List.map_congr_left fun i hi => Function.update_of_ne ?_ ..
    have := (List.mem_range'_1.mp hi).1
    omega
  rw [zonesFrom, zonesFrom, nonzero, nonzero, hdirect, Function.update_of_ne (by omega),
    Function.update_of_ne (by omega)]

theorem fine_ret (hb : File b) (h : Rest b s (stackZones s.words s.inode.iZone stack)
    (stackHeld stack)) (hok : StackOk s.inode.iZone stack) :
    Fine b (ret stack s).1 (ret stack s).2 := by
  cases stack with
  | nil => exact hok.elim
  | cons f stack =>
    cases f with
    | direct k =>
      refine fine_directFrom ?_ fun j hj => ?_
      · exact (zonesFrom_update s.words s.inode.iZone hok.1).symm ▸ h.withInode _
      · show Function.update s.inode.iZone k 0 j = 0
        by_cases hjk : j = k
        · rw [hjk, Function.update_self]
        · rw [Function.update_of_ne hjk, hok.2 j (by omega)]
    | ind => exact fine_startDind h hok
    | dind => exact fine_finish h hok
    | entries deep block k => exact fine_entriesFrom hb h hok

theorem bitOf_inj (hb : File b) {y z : Nat} (hy : y ∈ zones b) (hz : z ∈ zones b)
    (h : bitOf b y = bitOf b z) : y = z := by
  have hy := (hb.valid y hy).1
  have hz := (hb.valid z hz).1
  unfold bitOf at h
  omega

theorem fine_clearBit {z : Nat} (hb : File b)
    (h : Rest b s (z :: stackZones s.words s.inode.iZone stack) (stackHeld stack))
    (hok : StackOk s.inode.iZone stack) : Fine b (clearBit z stack s).1 (clearBit z stack s).2 := by
  have hmem : z ∈ zones b := h.mem (List.mem_cons_self ..)
  have hbit : bitOf s z = bitOf b z := by rw [bitOf, bitOf, h.first]
  have hnew : z ∉ s.cleared := fun hz =>
    (List.nodup_append.mp (h.split.nodup_iff.mpr hb.nodup)).2.2 z hz z (List.mem_cons_self ..) rfl
  have hset : s.bits (bitOf s z) = true := by
    rw [h.bits, hbit]
    refine ⟨(hb.valid z hmem).2.2, fun y hy he => hnew ?_⟩
    have hyb : y ∈ zones b := h.split.subset (List.mem_append_left _ hy)
    exact bitOf_inj hb hyb hmem he ▸ hy
  rw [clearBit, if_pos hset]
  refine fine_ret hb ⟨h.words, h.first, h.nzones, List.perm_middle.symm.trans h.split, fun n => ?_,
    h.count, h.running⟩ hok
  show Function.update s.bits (bitOf s z) false n = true ↔ _
  by_cases hn : n = bitOf s z
  · rw [hn, Function.update_self, hbit]
    simp
  · rw [Function.update_of_ne hn, h.bits]
    rw [hbit] at hn
    simp [Ne.symm hn]

theorem fine_resume {w : Wait} {ok : Bool} (hb : File b) (h : Fine b s (.inside w stack))
    (hread : ok = false → ∀ deep block, w ≠ .io deep block) :
    Fine b (resume w ok stack s).1 (resume w ok stack s).2 := by
  obtain ⟨h, hok⟩ := h
  cases w with
  | getSuper z =>
    have hmem : z ∈ zones b := h.mem (List.mem_cons_self ..)
    obtain ⟨hlo, hhi, -⟩ := hb.valid z hmem
    rw [← h.first] at hlo
    rw [← h.nzones] at hhi
    rw [resume, if_neg (by omega)]
    split
    · exact ⟨h.acquire hmem (Rest.not_held (l := []) hb h), hok⟩
    · exact fine_clearBit hb h hok
  | getHashTable z =>
    have hmem : z ∈ zones b := h.mem (List.mem_cons_self ..)
    rw [resume, if_neg (not_not.mpr (Rest.count_of_held h hmem))]
    exact fine_clearBit hb (Rest.release h hmem (Rest.not_held (l := []) hb h)) hok
  | getblk deep block =>
    have hmem : block ∈ zones b :=
      h.mem (List.mem_append_left _ (List.mem_append_right _ (List.mem_singleton_self _)))
    have hrest : Rest b s (entryZones s.words deep block 0 ++
      block :: stackZones s.words s.inode.iZone stack)
        (stackHeld stack) := by
      simpa [waitZones, indexZones, waitHeld] using h
    have hnot : block ∉ stackHeld stack := hrest.not_held hb
    exact ⟨(h.withCached _).acquire hmem hnot, hok⟩
  | io deep block =>
    cases ok with
    | false => exact absurd rfl (hread rfl deep block)
    | true =>
      refine fine_entriesFrom hb ?_ hok
      simpa [waitZones, indexZones, waitHeld] using h

theorem fine_evict {l : Loc} (h : Fine b s l) (c : Nat → Bool) :
    Fine b { s with cached := c } l := by
  cases l with
  | before => exact h
  | inside w stack => exact ⟨h.1.withCached c, h.2⟩
  | finished => exact ⟨h.1.withCached c, h.2⟩

theorem fine_truncate (hb : File b) (h : Rest b s (zones b) []) (hi : s.inode = b.inode) :
    Fine b (truncate s).1 (truncate s).2 := by
  rw [truncate, if_pos (Or.inl (hi ▸ hb.regular))]
  refine fine_directFrom ?_ fun j hj => absurd hj (by omega)
  rw [hi, h.words]
  exact h

/-- To truncate a file that has no zones changes nothing that matters. -/
theorem fine_truncate_again (h : Fine b s .finished) :
    Fine b (truncate s).1 (truncate s).2 ∧ (truncate s).2 = .finished := by
  obtain ⟨h, h0⟩ := h
  have hnone : next s.inode.iZone 0 7 = none := by
    refine List.find?_eq_none.mpr fun k hk => ?_
    have := List.mem_range'_1.mp hk
    simpa using h0 k (by omega)
  have htruncate : truncate s = finish s ∨ truncate s = (s, .finished) := by
    unfold truncate
    split
    · refine Or.inl ?_
      rw [directFrom, hnone]
      simp [startInd, startDind, h0 7 (by omega), h0 8 (by omega)]
    · exact Or.inr rfl
  rcases htruncate with e | e
  · rw [e]
    exact ⟨fine_finish h fun i hi => h0 i (by omega), rfl⟩
  · rw [e]
    exact ⟨⟨h, h0⟩, rfl⟩

end

/-- One task has not started, or is behind the other one. -/
inductive Inv (b : Shared) (s : St) : Prop
  | fresh (before : ∀ t, s.loc t = .before) (rest : Rest b s.shared (zones b) [])
    (inode : s.shared.inode = b.inode)
  | going (t : Bool) (fine : Fine b s.shared (s.loc t))
      (other : s.loc (!t) = .before ∨ s.loc (!t) = .finished ∧ s.loc t = .finished)

/-- A task enters `truncate` while the other one is not inside, and no index block fails to be read. -/
def Alone (s : St) : Action → Prop
  | .start t => ∀ w stack, s.loc (!t) ≠ .inside w stack
  | .run t ok => ok = false → ∀ deep block stack, s.loc t ≠ .inside (.io deep block) stack
  | .evict _ => True

/-- No zone is freed twice, and in the end the zones of the file `b` are free, and no others. -/
structure Safe (b : Shared) (s : St) : Prop where
  once : s.shared.cleared.Nodup
  running : s.shared.panicked = false
  freed : (∀ t, s.loc t = .finished) → ∀ n, s.shared.bits n = true ↔
    b.bits n = true ∧ ∀ z ∈ zones b, bitOf b z ≠ n

section

variable {b : Shared} {s s' : St}

theorem goto_self (t : Bool) (r : Shared × Loc) (s : St) : (goto t r s).loc t = r.2 :=
  Function.update_self ..

theorem goto_other (t : Bool) (r : Shared × Loc) (s : St) : (goto t r s).loc (!t) = s.loc (!t) :=
  Function.update_of_ne (by simp) ..

theorem inv_goto {t : Bool} {r : Shared × Loc} (hr : Fine b r.1 r.2)
    (other : s.loc (!t) = .before ∨ s.loc (!t) = .finished ∧ r.2 = .finished) :
    Inv b (goto t r s) := by
  refine .going t ?_ ?_
  · rw [goto_self]
    exact hr
  · rw [goto_other, goto_self]
    exact other

theorem inv_start {t : Bool} (hb : File b) (h : Inv b s) (hat : s.loc t = .before)
    (halone : Alone s (.start t)) : Inv b (goto t (truncate s.shared) s) := by
  cases h with
  | fresh before rest inode => exact inv_goto (fine_truncate hb rest inode) (Or.inl (before _))
  | going u fine other =>
    have hut : t = !u := by
      by_contra hne
      have hu : u = t := by cases u <;> cases t <;> simp_all
      rw [hu, hat] at fine
      exact fine
    subst hut
    rw [Alone, Bool.not_not] at halone
    have hu : s.loc u = .finished := by
      cases hl : s.loc u with
      | before => exact (hl ▸ fine : Fine b s.shared .before).elim
      | inside w stack => exact absurd hl (halone w stack)
      | finished => rfl
    rw [hu] at fine
    obtain ⟨hagain, hfinished⟩ := fine_truncate_again fine
    exact inv_goto hagain (Or.inr ⟨by rw [Bool.not_not, hu], hfinished⟩)

theorem inv_run {t ok : Bool} {w : Wait} {stack : List Frame} (hb : File b) (h : Inv b s)
    (hat : s.loc t = .inside w stack) (halone : Alone s (.run t ok)) :
    Inv b (goto t (resume w ok stack s.shared) s) := by
  cases h with
  | fresh before rest inode => exact absurd ((before t).symm.trans hat) (by simp)
  | going u fine other =>
    have hut : u = t := by
      by_contra hne
      have ht : t = !u := by cases u <;> cases t <;> simp_all
      rw [← ht, hat] at other
      simp at other
    subst hut
    rw [hat] at fine other
    have hbefore : s.loc (!u) = .before := other.resolve_right fun h => absurd h.2 (by simp)
    refine inv_goto (fine_resume hb fine fun hf deep block hw => ?_) (Or.inl hbefore)
    exact halone hf deep block stack (hw ▸ hat)

theorem inv_evict (h : Inv b s) (c : Nat → Bool) :
    Inv b { s with shared := { s.shared with cached := c } } := by
  cases h with
  | fresh before rest inode => exact .fresh before (rest.withCached c) inode
  | going t fine other => exact .going t (fine_evict fine c) other

theorem inv_step {a : Action} (hb : File b) (h : Inv b s) (hs : step a s = some s')
    (ha : Alone s a) : Inv b s' := by
  unfold step at hs
  split at hs
  next => cases hs
  next =>
    cases a with
    | start t =>
      obtain ⟨hat, he⟩ := Option.ite_none_right_eq_some.mp hs
      exact (Option.some.inj he) ▸ inv_start hb h hat ha
    | run t ok =>
      cases hat : s.loc t with
      | inside w stack =>
        simp only [hat] at hs
        exact (Option.some.inj hs) ▸ inv_run hb h hat ha
      | _ => simp [hat] at hs
    | evict block =>
      obtain ⟨-, he⟩ := Option.ite_none_right_eq_some.mp hs
      exact (Option.some.inj he) ▸ inv_evict h _

theorem Rest.safe {left held : List Nat} (hb : File b) (h : Rest b s.shared left held)
    (hleft : (∀ t, s.loc t = .finished) → left = []) : Safe b s := by
  refine ⟨(List.nodup_append.mp (h.split.nodup_iff.mpr hb.nodup)).1, h.running, fun hfin n => ?_⟩
  have hperm := h.split
  rw [hleft hfin, List.append_nil] at hperm
  rw [h.bits]
  exact and_congr_right fun _ => forall_congr' fun z => by rw [hperm.mem_iff]

theorem Inv.safe (hb : File b) (h : Inv b s) : Safe b s := by
  cases h with
  | fresh before rest inode =>
    exact rest.safe hb fun hfin => absurd ((before true).symm.trans (hfin true)) (by simp)
  | going t fine other =>
    cases hl : s.loc t with
    | before => exact (hl ▸ fine : Fine b s.shared .before).elim
    | inside w stack =>
      rw [hl] at fine
      exact fine.1.safe hb fun hfin => absurd (hl.symm.trans (hfin t)) (by simp)
    | finished =>
      rw [hl] at fine
      exact fine.1.safe hb fun _ => rfl

theorem inv_of_file (hb : File b) : Inv b ⟨b, fun _ => .before⟩ := by
  refine .fresh (fun _ => rfl) ⟨rfl, rfl, rfl, ?_, fun n => ?_, fun z hz => ?_, hb.running⟩ rfl
  · show (b.cleared ++ zones b).Perm _
    rw [hb.cleared]
    exact List.Perm.refl _
  · show b.bits n = true ↔ b.bits n = true ∧ ∀ z ∈ b.cleared, _
    rw [hb.cleared]
    simp
  · exact (hb.unused z hz).trans (by simp)

/-- Two tasks that truncate a file one after the other free its zones once each. -/
theorem truncation_safe (hb : File b) {run : List Action}
    (h : Run.Meets step Alone run ⟨b, fun _ => .before⟩) :
    Run.Always step (Safe b) run ⟨b, fun _ => .before⟩ :=
  (Run.always_of_meets (fun _ _ _ hi hs ha => inv_step hb hi hs ha) (inv_of_file hb) h).mono
    fun _ hi => hi.safe hb

/-- A file with one zone, 7, behind the index block 6. -/
def oneZone : Shared where
  inode :=
    { Fs.zeroInode with
      iMode := 0o100644, iZone := Function.update (fun _ => 0) 7 6, iSize := 8192 }
  words block j := if block = 6 ∧ j = 0 then 7 else 0
  firstDataZone := 5
  nzones := 10
  bits n := n = 2 || n = 3
  cached _ := false
  bCount _ := 0
  cleared := []
  panicked := false

theorem zones_oneZone : zones oneZone = [7, 6] := by decide +kernel

theorem file_oneZone : File oneZone where
  regular := by decide
  nodup := by simp [zones_oneZone]
  valid z hz := by
    rw [zones_oneZone] at hz
    simp only [List.mem_cons, List.not_mem_nil, or_false] at hz
    rcases hz with rfl | rfl <;> decide
  unused _ _ := rfl
  cleared := rfl
  running := rfl

/-- What the first task does when it is alone. -/
def firstRun : List Action :=
  [.start false, .run false true, .run false true, .evict 9, .run false true,
    .run false true, .run false true]

theorem first_finished :
    (Run.exec step firstRun ⟨oneZone, fun _ => .before⟩).map (fun s => s.loc false) =
      some .finished := by
  decide +kernel

theorem truncation_safe_oneZone :
    Run.Always step (Safe oneZone) (firstRun ++ [.start true]) ⟨oneZone, fun _ => .before⟩ := by
  refine truncation_safe file_oneZone ?_
  intro s₁ h₁
  refine ⟨fun _ _ => nofun, fun s₂ h₂ => ⟨nofun, fun s₃ h₃ =>
    ⟨nofun, fun s₄ h₄ => ⟨trivial, fun s₅ h₅ =>
    ⟨nofun, fun s₆ h₆ => ⟨nofun, fun s₇ h₇ => ⟨nofun, fun s₈ _ => ⟨?_, trivial⟩⟩⟩⟩⟩⟩⟩⟩
  have hexec : Run.exec step firstRun ⟨oneZone, fun _ => .before⟩ = some s₇ := by
    rw [firstRun, Run.exec_cons h₁, Run.exec_cons h₂, Run.exec_cons h₃, Run.exec_cons h₄,
      Run.exec_cons h₅, Run.exec_cons h₆, Run.exec_cons h₇, Run.exec]
  have hfirst := first_finished
  rw [hexec] at hfirst
  have hloc : s₇.loc false = .finished := Option.some.inj hfirst
  intro w stack hin
  exact absurd (hloc.symm.trans hin) (by simp)

/-- The second task reads the index block before the first one has freed it. -/
def bothRead : List Action :=
  [.start false, .start true, .run false true, .run true true, .run false true,
    .run false true, .run false true, .run false true, .run true true, .run true true]

theorem bothRead_crash :
    (Run.exec step bothRead ⟨oneZone, fun _ => .before⟩).map
      (fun s => (s.shared.cleared, s.shared.panicked)) = some ([7, 7], true) := by
  decide +kernel

/-- Both tasks pass zone 7 to `clear_bit`, and the second one ends in the panic. -/
theorem truncation_unsafe :
    ¬ ∀ b, File b → ∀ run, Run.Always step (Safe b) run ⟨b, fun _ => .before⟩ := by
  intro h
  have hrun := h oneZone file_oneZone bothRead
  cases he : Run.exec step bothRead ⟨oneZone, fun _ => .before⟩ with
  | none =>
    have hcrash := bothRead_crash
    rw [he] at hcrash
    cases hcrash
  | some s =>
    have hcrash := bothRead_crash
    rw [he] at hcrash
    have hboth : (s.shared.cleared, s.shared.panicked) = ([7, 7], true) := Option.some.inj hcrash
    have honce := (hrun.last he).once
    rw [(Prod.mk.inj hboth).1] at honce
    exact absurd honce (by decide)

end

end Gpos.Truncation
