import Gpos.BlockTrees

/-! The zone map against the zone trees: a zone is allocated exactly while it is at a place of a
tree. -/

namespace Gpos.BlockMap.Disk

/-- No zone is left. -/
def Full (d : Disk) : Prop := ∀ w, d.firstDataZone ≤ w → w < d.nzones → d.Used w

/-- The allocated zones are those of the trees. The search of the map comes to every zone, and
what it comes to otherwise is set. -/
structure Exact (d : Disk) : Prop where
  trees : Trees d
  inside : ∀ n p, p.Ok → d.ref n p ≠ 0 → d.ref n p < d.nzones
  reached : ∀ w, w < d.nzones → d.Used w → ∃ n p, p.Ok ∧ d.ref n p = w
  searched : ∀ w, d.firstDataZone ≤ w → w < d.nzones → w + 1 - d.firstDataZone ∈ d.order
  surplus : ∀ n ∈ d.order, d.nzones ≤ n + d.firstDataZone - 1 → d.bits n = true

/-- Zone `z` is allocated in addition, and nothing else. -/
structure Only (d : Disk) (z : Nat) (d' : Disk) : Prop where
  first : d'.firstDataZone = d.firstDataZone
  nzones : d'.nzones = d.nzones
  order : d'.order = d.order
  bits : ∀ n, d.bits n = true → d'.bits n = true
  used : ∀ w, d'.Used w → d.Used w ∨ w = z
  lt : z < d.nzones

/-- What a search with `create` leaves, when it returns `z` for a place at which `r` was. -/
structure Filled (d : Disk) (r z : Nat) (d' : Disk) : Prop where
  exact : Exact d'
  zero : r = 0 → z ≠ 0 → d'.words z = fun _ => 0
  room : r = 0 → z ≠ 0 → ¬ d.Full
  full : z = 0 → d'.Full
  later : d.Full → d'.Full

section

variable {d d' d'' : Disk} {n z e : Nat} {p : Place}

theorem Exact.pos (h : Exact d) {w : Nat} (hw : d.Used w) : w ≠ 0 := by
  have hfirst := h.trees.first
  have hle := hw.1
  omega

theorem Exact.congr (h : Exact d) (hfirst : d'.firstDataZone = d.firstDataZone)
    (hnzones : d'.nzones = d.nzones) (horder : d'.order = d.order) (hbits : d'.bits = d.bits)
    (href : ∀ m q, q.Ok → d'.ref m q = d.ref m q) : Exact d' := by
  refine ⟨h.trees.congr hfirst hbits href, fun m q hq => ?_, fun w hlt hw => ?_, ?_, ?_⟩
  · rw [href m q hq, hnzones]
    exact h.inside m q hq
  · rw [Used, hfirst, hbits] at hw
    rw [hnzones] at hlt
    obtain ⟨m, q, hq, he⟩ := h.reached w hlt hw
    exact ⟨m, q, hq, (href m q hq).trans he⟩
  · rw [hfirst, hnzones, horder]
    exact h.searched
  · rw [hfirst, hnzones, horder, hbits]
    exact h.surplus

/-- `new_block` fails only when no zone is left, and then it changes nothing. -/
theorem newBlock_exact (h : Exact d) :
    (d.newBlock = (0, d) ∧ d.Full) ∨ (d.newBlock.1 ≠ 0 ∧ Only d d.newBlock.1 d.newBlock.2) := by
  have hfirst := h.trees.first
  unfold newBlock
  split
  next hnone =>
    refine .inl ⟨rfl, fun w hle hlt => ⟨hle, ?_⟩⟩
    have hset := List.find?_eq_none.mp hnone _ (h.searched w hle hlt)
    simpa using hset
  next n hsome =>
    have hclear : d.bits n = false := by simpa using List.find?_some hsome
    have hn : n ≠ 0 := by
      rintro rfl
      exact Bool.noConfusion (h.trees.zero.symm.trans hclear)
    have hin : ¬ d.nzones ≤ n + d.firstDataZone - 1 := fun hout =>
      Bool.noConfusion ((h.surplus n (List.mem_of_find?_eq_some hsome) hout).symm.trans hclear)
    rw [if_neg hin]
    refine .inr ⟨by dsimp only; omega, rfl, rfl, rfl, fun m hm => ?_, fun w hw => ?_,
      Nat.not_le.mp hin⟩
    · show Function.update d.bits n true m = true
      by_cases he : m = n
      · rw [he, Function.update_self]
      · rw [Function.update_of_ne he]
        exact hm
    · have hle : d.firstDataZone ≤ w := hw.1
      by_cases hm : w + 1 - d.firstDataZone = n
      · exact .inr (by dsimp only; omega)
      · have hbit : Function.update d.bits n true (w + 1 - d.firstDataZone) = true := hw.2
        rw [Function.update_of_ne hm] at hbit
        exact .inl ⟨hle, hbit⟩

theorem Allocated.room (ha : Allocated d z d') (ho : Only d z d') (hz : z ≠ 0) : ¬ d.Full := by
  obtain ⟨hfresh, hused⟩ := ha.fresh hz
  exact fun hf => hfresh (hf z (ho.first ▸ hused.1) ho.lt)

/-- A place that has been filled with the new zone. -/
theorem Exact.slot (h : Exact d) (hp : p.Ok) (hs : Slot true d n p z d') (h0 : d.ref n p = 0)
    (ho : Only d z d') : Exact d' := by
  refine ⟨hs.trees, fun m q hq hne => ?_, fun w hlt hw => ?_, ?_, fun m hm hout => ?_⟩
  · rw [ho.nzones]
    by_cases hm : m = n ∧ q = p
    · obtain ⟨rfl, rfl⟩ := hm
      rw [hs.value]
      exact ho.lt
    · rw [hs.others m q hq hm] at hne ⊢
      exact h.inside m q hq hne
  · rw [ho.nzones] at hlt
    rcases ho.used w hw with hw | rfl
    · obtain ⟨m, q, hq, rfl⟩ := h.reached w hlt hw
      refine ⟨m, q, hq, hs.others m q hq ?_⟩
      rintro ⟨rfl, rfl⟩
      exact h.pos hw h0
    · exact ⟨n, p, hp, hs.value⟩
  · rw [ho.first, ho.nzones, ho.order]
    exact h.searched
  · rw [ho.order] at hm
    rw [ho.first, ho.nzones] at hout
    exact ho.bits m (h.surplus m hm hout)

/-- The place was filled before, or no zone is left for it. -/
theorem Exact.same (h : Exact d) (hz : z = 0 → d.Full) : Filled d z z d :=
  ⟨h, fun h0 hne => absurd h0 hne, fun h0 hne => absurd h0 hne, hz, id⟩

theorem Filled.of_slot (h : Exact d) (hp : p.Ok) (hs : Slot true d n p z d') (h0 : d.ref n p = 0)
    (ho : Only d z d') (hz : z ≠ 0) (hroom : ¬ d.Full) (hwords : d'.words z = fun _ => 0) :
    Filled d (d.ref n p) z d' :=
  ⟨h.slot hp hs h0 ho, fun _ _ => hwords, fun _ _ => hroom, fun hc => absurd hc hz,
    fun hf => absurd hf hroom⟩

/-- The search goes on from a place to another. -/
theorem Filled.trans {r r' : Nat} (h : Filled d r' z d') (h' : Filled d' r e d'') :
    Filled d r e d'' :=
  ⟨h'.exact, h'.zero, fun h0 hne hf => h'.room h0 hne (h.later hf), h'.full,
    fun hf => h'.later (h.later hf)⟩

theorem zoneOrNew_filled (h : Exact d) (n : Nat) {i : Nat} (hi : i < 9) :
    ∃ z d', zoneOrNew ops true n i d = some (z, d') ∧ Slot true d n (.zone i) z d' ∧
      Filled d (d.ref n (.zone i)) z d' := by
  have ht := h.trees
  by_cases h0 : d.zone n i = 0
  · have ha := newBlock_spec ht
    rcases newBlock_exact h with ⟨hnone, hfull⟩ | ⟨hz, ho⟩
    · refine ⟨0, d, ?_, .same ht true h0, ?_⟩
      · simp only [zoneOrNew, ops, Program.bind_eq, Program.pure_eq, Option.bind_some, h0,
          and_self, if_true, hnone, ne_eq, not_true_eq_false, if_false]
      · show Filled d (d.zone n i) 0 d
        rw [h0]
        exact h.same fun _ => hfull
    · have hs := put_zone ht hi h0 ha hz
      refine ⟨d.newBlock.1, d.newBlock.2.setZone n i d.newBlock.1, ?_, hs,
        .of_slot h (show (Place.zone i).Ok from hi) hs h0
          ⟨ho.first, ho.nzones, ho.order, ho.bits, ho.used, ho.lt⟩ hz (ha.room ho hz) ?_⟩
      · simp only [zoneOrNew, ops, Program.bind_eq, Program.pure_eq, Option.bind_some, h0,
          and_self, if_true, hz, ne_eq, not_false_eq_true]
      · show d.newBlock.2.words _ = _
        rw [ha.words, if_neg hz, Function.update_self]
  · refine ⟨d.zone n i, d, ?_, .same ht true rfl, h.same fun hc => absurd hc h0⟩
    simp only [zoneOrNew, ops, Program.bind_eq, Program.pure_eq, Option.bind_some, h0, and_false,
      if_false]

theorem entryOrNew_filled (h : Exact d) {j : Nat} {p q : Place} (hp : p.Ok)
    (hq : p.parent = some (q, j)) (hz : d.ref n q = z) (hfull : z = 0 → d.Full) :
    ∃ e d', entryOrNew ops true n z j d = some (e, d') ∧ Slot true d n p e d' ∧
      Filled d (d.ref n p) e d' := by
  subst hz
  have ht := h.trees
  by_cases hpar : d.ref n q = 0
  · have hnone : d.ref n p = 0 := by rw [ref_of_parent n hq, entryOf, if_pos hpar]
    refine ⟨0, d, ?_, .same ht true hnone, ?_⟩
    · simp only [entryOrNew, hpar, if_true, Program.pure_eq]
    · rw [hnone]
      exact h.same fun _ => hfull hpar
  have hentry : d.ref n p = d.words (d.ref n q) j := by
    rw [ref_of_parent n hq, entryOf, if_neg hpar]
  by_cases h0 : d.words (d.ref n q) j = 0
  · have ha := newBlock_spec ht
    have hp0 := hentry.trans h0
    rcases newBlock_exact h with ⟨hnone, hfull⟩ | ⟨hz, ho⟩
    · refine ⟨0, d, ?_, .same ht true hp0, ?_⟩
      · simp only [entryOrNew, ops, hpar, if_false, Program.bind_eq, Program.pure_eq,
          Option.bind_some, h0, and_self, if_true, hnone, ne_eq, not_true_eq_false]
      · rw [hp0]
        exact h.same fun _ => hfull
    · have hs := put_entry ht hp hq hpar h0 ha hz
      have hne : d.newBlock.1 ≠ d.ref n q := fun he =>
        (ha.fresh hz).1 (he ▸ ht.used n q (Place.parent_ok hq hp) hpar)
      refine ⟨d.newBlock.1, d.newBlock.2.setWord (d.ref n q) j d.newBlock.1, ?_, hs,
        .of_slot h hp hs hp0 ⟨ho.first, ho.nzones, ho.order, ho.bits, ho.used, ho.lt⟩ hz
          (ha.room ho hz) ?_⟩
      · simp only [entryOrNew, ops, hpar, if_false, Program.bind_eq, Program.pure_eq,
          Option.bind_some, h0, and_self, if_true, hz, ne_eq, not_false_eq_true]
      · show Function.update d.newBlock.2.words _ _ _ = _
        rw [Function.update_of_ne hne, ha.words, if_neg hz, Function.update_self]
  · refine ⟨d.words (d.ref n q) j, d, ?_, .same ht true hentry, ?_⟩
    · simp only [entryOrNew, ops, hpar, if_false, Program.bind_eq, Program.pure_eq,
        Option.bind_some, h0, and_false]
    · rw [hentry]
      exact h.same fun hc => absurd hc h0

/-- `create_block` fails only when no zone is left. -/
theorem createBlock_filled (h : Exact d) (n : Nat) {k : Nat} (hk : k < maxBlocks) :
    ∃ z d', createBlock ops n k d = some (z, d') ∧ Filled d (d.ref n (.ofBlock k)) z d' := by
  have hok := Place.ofBlock_ok hk
  rw [createBlock, bmapCreate, if_neg (Nat.not_le.mpr hk)]
  by_cases h7 : k < 7
  · have hp : Place.ofBlock k = .zone k := if_pos h7
    rw [if_pos h7, hp]
    obtain ⟨z, d', he, -, hf⟩ := zoneOrNew_filled h n (show k < 9 by omega)
    exact ⟨z, d', he, hf⟩
  rw [if_neg h7]
  by_cases h512 : k - 7 < 512
  · have hp : Place.ofBlock k = .ind (k - 7) := by rw [Place.ofBlock, if_neg h7, if_pos h512]
    rw [hp] at hok
    rw [if_pos h512, hp]
    obtain ⟨z, d₁, he₁, hs₁, hf₁⟩ := zoneOrNew_filled h n (by decide : 7 < 9)
    obtain ⟨e, d₂, he₂, -, hf₂⟩ :=
      entryOrNew_filled hf₁.exact (p := .ind (k - 7)) hok rfl hs₁.value hf₁.full
    rw [hs₁.others n _ hok fun hc => Place.noConfusion hc.2] at hf₂
    refine ⟨e, d₂, ?_, hf₁.trans hf₂⟩
    rw [Program.bind_of_eq he₁]
    exact he₂
  · have hp : Place.ofBlock k = .leaf ((k - 7 - 512) / 512) ((k - 7 - 512) % 512) := by
      rw [Place.ofBlock, if_neg h7, if_neg h512]
    rw [hp] at hok
    rw [if_neg h512, hp]
    obtain ⟨z, d₁, he₁, hs₁, hf₁⟩ := zoneOrNew_filled h n (by decide : 8 < 9)
    obtain ⟨i, d₂, he₂, hs₂, hf₂⟩ := entryOrNew_filled hf₁.exact
      (p := .dind ((k - 7 - 512) / 512)) hok.1 rfl hs₁.value hf₁.full
    obtain ⟨e, d₃, he₃, -, hf₃⟩ := entryOrNew_filled hf₂.exact hok rfl hs₂.value hf₂.full
    rw [hs₂.others n _ hok fun hc => Place.noConfusion hc.2,
      hs₁.others n _ hok fun hc => Place.noConfusion hc.2] at hf₃
    refine ⟨e, d₃, ?_, hf₁.trans (hf₂.trans hf₃)⟩
    rw [Program.bind_of_eq he₁, Program.bind_of_eq he₂]
    exact he₃

/-- A tree stays as it is while its zones hold what they held. -/
theorem ref_keep {m : Nat} (hz : d'.zone m = d.zone m)
    (hw : ∀ q, q.Ok → d.ref m q ≠ 0 → d'.words (d.ref m q) = d.words (d.ref m q)) {p : Place}
    (hp : p.Ok) : d'.ref m p = d.ref m p := by
  have hroot : ∀ i, d'.ref m (.zone i) = d.ref m (.zone i) := fun i => congrFun hz i
  have hchild : ∀ {r r' : Place} {j : Nat}, r.parent = some (r', j) → r'.Ok →
      d'.ref m r' = d.ref m r' → d'.ref m r = d.ref m r := by
    intro r r' j hr hok heq
    rw [ref_of_parent m hr, ref_of_parent m hr, heq, entryOf, entryOf]
    split
    · rfl
    next h0 => rw [hw r' hok h0]
  cases p with
  | zone i => exact hroot i
  | ind j => exact hchild rfl (by decide : 7 < 9) (hroot 7)
  | dind j => exact hchild rfl (by decide : 8 < 9) (hroot 8)
  | leaf j k => exact hchild rfl hp.1 (hchild rfl (by decide : 8 < 9) (hroot 8))

theorem ref_of_zone {m : Nat} (hz : ∀ k, k < 9 → d.zone m k = 0) {p : Place} (hp : p.Ok) :
    d.ref m p = 0 := by
  have h7 : d.zone m 7 = 0 := hz 7 (by decide)
  have h8 : d.zone m 8 = 0 := hz 8 (by decide)
  cases p with
  | zone i => exact hz i hp
  | ind j => rw [ref, h7, entryOf, if_pos rfl]
  | dind j => rw [ref, h8, entryOf, if_pos rfl]
  | leaf j k => rw [ref, h8, entryOf, entryOf, if_pos rfl, if_pos rfl]

end

end Gpos.BlockMap.Disk
