import Gpos.ZoneSoundness

/-! The zone map when `new_block` finds no space. -/

namespace Gpos.Zones

open Cache BufferTasks Bitmap

/-- Bit `k` is the one that `new_block` takes. -/
def FirstClear (sb : SuperBlock) (c : Cache) (k : Nat) : Prop :=
  zoneBit sb c k = some false ∧ ∀ l, l < k → zoneBit sb c l ≠ some false

/-- The first clear bit, if there is one, belongs to a zone below `s_nzones`
that is not zone 0. Bit 0 belongs to zone -1 if the data begins at zone 0. -/
def Usable (sb : SuperBlock) (c : Cache) : Prop :=
  ∀ k, FirstClear sb c k → k + sb.sFirstdatazone ≠ 1 ∧
    (k + sb.sFirstdatazone = 0 ∨ k + sb.sFirstdatazone - 1 < sb.sNzones)

section

variable {sbs : Nat → SuperBlock} {dev : Nat} {sb : SuperBlock} {R : Multiset Ref} {c c' : Cache}

theorem FirstClear.unique {k l : Nat} (hk : FirstClear sb c k) (hl : FirstClear sb c l) :
    k = l := by
  rcases Nat.lt_trichotomy k l with h | h | h
  · exact absurd hk.1 (hl.2 k h)
  · exact h
  · exact absurd hl.1 (hk.2 l h)

theorem Found.firstClear {k bh j : Nat} (hf : Found sb.sZmap c 0 k bh j) :
    FirstClear sb c (j + k * 8192) := by
  rw [Nat.add_comm]
  exact ⟨hf.mapBit_eq, fun _ hl => hf.mapBit_ne hl⟩

theorem Loaded.usable_of_none (h : Loaded sbs dev sb R c) (hs : searchMap sb.sZmap c 8 0 = none) :
    Usable sb c :=
  fun k hk => absurd hk.1 (mapBit_of_none (fun i b hi => (h.slots i b hi).1) hs k)

/-- When `new_block` returns 0, the map is as it was, unless the first clear bit belongs to no zone. -/
theorem newBlock_unchanged_iff (h : Loaded sbs dev sb R c) {z : Nat}
    (he : newBlock sbs dev c = some (z, c')) :
    (z = 0 → ∀ k, zoneBit sb c' k = zoneBit sb c k) ↔ Usable sb c := by
  unfold newBlock at he
  rw [h.super] at he
  simp only at he
  split at he
  next hs =>
    cases he
    exact iff_of_true (fun _ _ => rfl) (h.usable_of_none hs)
  next i bh j hs =>
    have hf := searchMap_some hs
    have hfirst := hf.firstClear
    obtain ⟨hr, hbits⟩ := h.setMapBit hf.slot hf.lt
    have hset : zoneBit sb (setMapBit bh j c) (j + i * 8192) = some true := by
      rw [hbits, if_pos (by omega)]
    -- the bit has been set, so the map is not as it was
    have hchanged (d : Cache) (hd : ∀ k, zoneBit sb d k = zoneBit sb (setMapBit bh j c) k) :
        ¬ ∀ k, zoneBit sb d k = zoneBit sb c k := by
      intro hh
      have hj := hh (j + i * 8192)
      rw [hd, hset, hfirst.1] at hj
      cases hj
    rw [hf.clear, if_neg Bool.false_ne_true] at he
    split at he
    next hpast =>
      cases he
      refine iff_of_false (fun hh => hchanged _ (fun _ => rfl) (hh rfl)) fun hu => ?_
      have := hu _ hfirst
      omega
    next hin =>
      have hl : Loaded sbs dev sb R (setMapBit bh j c) := ⟨h.super, hr, h.slots, h.distinct⟩
      obtain ⟨rfl, -, hsame, -⟩ := takeZone_spec hl he
      have hzero : zoneOf sb (j + i * 8192) = 0 ↔ j + i * 8192 + sb.sFirstdatazone = 1 := by
        unfold zoneOf
        split <;> omega
      rw [hzero]
      constructor
      · intro hh k hk
        rw [hk.unique hfirst]
        exact ⟨fun h1 => hchanged _ hsame (hh h1), by omega⟩
      · exact fun hu h1 => absurd h1 (hu _ hfirst).1

end

theorem exists_fullMap :
    ∃ bh c, Loaded (fun _ => smallSuper bh) 0x301 (smallSuper bh) (⟨bh, 0x301, 3⟩ ::ₘ 0) c ∧
      (c.buf bh).bData = 0xffff := by
  obtain ⟨bh, c, -, hr⟩ := @getblk_bufferInit 0x110000 (by decide) blank 0x301 (by decide) 3
  have hm := smallSuper_mounted hr
  refine ⟨bh, (setMapBit bh 0 c).modify bh fun b => { b with bData := 0xffff, bDirt := true },
    ⟨hm.super, ?_, hm.slots, hm.distinct⟩, ?_⟩
  · exact hm.ready.modify bh (keepsShape_data fun _ => 0xffff) (fun _ => rfl) fun _ hl => hl
  · rw [modify_buf, if_pos rfl]

theorem newBlock_fullMap {bh : Nat} {c : Cache} (hdata : (c.buf bh).bData = 0xffff) :
    newBlock (fun _ => smallSuper bh) 0x301 c = some (0, setMapBit bh 16 c) := by
  have hsearch : searchMap (smallSuper bh).sZmap c 8 0 = some (0, bh, 16) := by
    have hz : findFirstZero 0xffff = 16 := by decide +kernel
    show (if findFirstZero (c.buf bh).bData < 8192 then _ else _) = _
    rw [hdata, hz]
    rfl
  have hsuper : getSuper (fun _ => smallSuper bh) 0x301 = some (smallSuper bh) := rfl
  have hclear : (c.buf bh).bData.getLsbD 16 = false := by
    rw [hdata]
    decide +kernel
  simp only [newBlock, hsuper, hsearch, hclear]
  rfl

theorem newBlock_unchanged_iff_small :
    ∃ bh c c', newBlock (fun _ => smallSuper bh) 0x301 c = some (0, c') ∧
      ((0 = 0 → ∀ k, zoneBit (smallSuper bh) c' k = zoneBit (smallSuper bh) c k) ↔
        Usable (smallSuper bh) c) := by
  obtain ⟨bh, c, hl, hdata⟩ := exists_fullMap
  exact ⟨bh, c, _, newBlock_fullMap hdata, newBlock_unchanged_iff hl (newBlock_fullMap hdata)⟩

theorem newBlock_changes :
    ¬ ∀ (sbs : Nat → SuperBlock) (dev : Nat) (sb : SuperBlock) (R : Multiset Ref) (c c' : Cache),
    Loaded sbs dev sb R c → newBlock sbs dev c = some (0, c') →
      ∀ k, zoneBit sb c' k = zoneBit sb c k := by
  intro h
  obtain ⟨bh, c, hl, hdata⟩ := exists_fullMap
  have hh := h _ _ _ _ _ _ hl (newBlock_fullMap hdata) 16
  have hslot : (smallSuper bh).sZmap (16 / 8192) = some bh := rfl
  rw [zoneBit, zoneBit, hslot, Option.map_some, Option.map_some, setMapBit, modify_buf, if_pos rfl,
    getLsbD_setBit (by decide), hdata] at hh
  revert hh
  decide +kernel

end Gpos.Zones
