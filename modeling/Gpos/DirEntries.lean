import Gpos.EntrySearch

/-! What a store into a directory entry does to the entries of its block. -/

namespace Gpos.Fs

theorem getLsbD_putBits (b : Block) {off w v n : Nat} (hn : n < 8192) :
    (putBits b off w v).getLsbD n = if off ≤ n ∧ n < off + w then v.testBit (n - off)
      else b.getLsbD n := by
  simp only [putBits, BitVec.getLsbD_or, BitVec.getLsbD_and, BitVec.getLsbD_not,
    BitVec.getLsbD_shiftLeft, BitVec.getLsbD_setWidth, BitVec.getLsbD_allOnes, BitVec.getLsbD_ofNat,
    decide_eq_true hn, Bool.true_and]
  by_cases h : n < off
  · rw [if_neg fun hi => absurd hi.1 (Nat.not_le.mpr h)]
    simp [h]
  · have hoff : off ≤ n := Nat.not_lt.mp h
    have hlt : n - off < 8192 := by omega
    by_cases hin : n < off + w
    · have hw' : n - off < w := by omega
      rw [if_pos ⟨hoff, hin⟩]
      simp [h, hlt, hw']
    · have hw' : ¬ n - off < w := by omega
      rw [if_neg fun hi => hin hi.2]
      simp [h, hw']

theorem extractLsb'_putBits_of_disjoint (b : Block) {off w v o l : Nat}
    (h : o + l ≤ off ∨ off + w ≤ o) (ho : o + l ≤ 8192) :
    (putBits b off w v).extractLsb' o l = b.extractLsb' o l := by
  refine BitVec.eq_of_getLsbD_eq fun i hi => ?_
  rw [BitVec.getLsbD_extractLsb', BitVec.getLsbD_extractLsb', getLsbD_putBits b (by omega),
    if_neg (by omega)]

theorem extractLsb'_putBits (b : Block) {off w v : Nat} (ho : off + w ≤ 8192) :
    (putBits b off w v).extractLsb' off w = BitVec.ofNat w v := by
  refine BitVec.eq_of_getLsbD_eq fun i hi => ?_
  rw [BitVec.getLsbD_extractLsb', getLsbD_putBits b (by omega), if_pos (by omega),
    BitVec.getLsbD_ofNat]
  simp [hi]

section

variable {name : Name} {len de de' j : Nat} (b : Block)

theorem extractLsb'_putName {o l : Nat} (h : o + l ≤ 128 * de + 16 ∨ 128 * de + 128 ≤ o)
    (ho : o + l ≤ 8192) : (putName name len de b).extractLsb' o l = b.extractLsb' o l := by
  have hfold : ∀ m ≤ nameLen, ((List.range m).foldl (fun b j => putBits b (128 * de + 16 + 8 * j) 8
      (if j < len then (name.getD j 0).toNat else 0)) b).extractLsb' o l = b.extractLsb' o l := by
    intro m hm
    induction m with
    | zero => rfl
    | succ m ih =>
      have h14 : nameLen = 14 := rfl
      rw [List.range_succ, List.foldl_append, List.foldl_cons, List.foldl_nil,
        extractLsb'_putBits_of_disjoint _ (by omega) ho, ih (by omega)]
  exact hfold nameLen (Nat.le_refl _)

theorem deName_putName (hde : de < dirEntriesPerBlock) (hj : j < nameLen) :
    deName (putName name len de b) de j = if j < len then name.getD j 0 else 0 := by
  have h64 : dirEntriesPerBlock = 64 := rfl
  have h14 : nameLen = 14 := rfl
  have hfold : ∀ m ≤ nameLen, j < m →
    deName ((List.range m).foldl (fun b j => putBits b (128 * de + 16 + 8 * j) 8
      (if j < len then (name.getD j 0).toNat else 0)) b) de j =
        if j < len then name.getD j 0 else 0 := by
    intro m hm hjm
    induction m with
    | zero => exact absurd hjm (Nat.not_lt_zero _)
    | succ m ih =>
      rw [List.range_succ, List.foldl_append, List.foldl_cons, List.foldl_nil, deName]
      by_cases he : j = m
      · subst he
        rw [extractLsb'_putBits _ (by omega)]
        split
        · rw [BitVec.ofNat_toNat, BitVec.setWidth_eq]
        · rfl
      · rw [extractLsb'_putBits_of_disjoint _ (by omega) (by omega)]
        exact ih (by omega) (by omega)
  exact hfold nameLen (Nat.le_refl _) hj

def fillEntry (name : Name) (de v : Nat) (b : Block) : Block :=
  putBits (putName name (min name.length nameLen) de b) (128 * de) 16 v

theorem deInode_fillEntry {v : Nat} (hde : de < dirEntriesPerBlock) :
    deInode (fillEntry name de v b) de = v % 65536 := by
  have h64 : dirEntriesPerBlock = 64 := rfl
  rw [deInode, getBits, fillEntry, extractLsb'_putBits _ (by omega), BitVec.toNat_ofNat]

theorem entryName_fillEntry {v : Nat} (hde : de < dirEntriesPerBlock) (hname : ∀ c ∈ name, c ≠ 0) :
    Image.entryName (fillEntry name de v b) de = name.take nameLen := by
  have h64 : dirEntriesPerBlock = 64 := rfl
  have h14 : nameLen = 14 := rfl
  have hbyte : ∀ j < nameLen, deName (fillEntry name de v b) de j =
    if j < min name.length nameLen then name.getD j 0 else 0 := by
    intro j hj
    rw [deName, fillEntry, extractLsb'_putBits_of_disjoint _ (by omega) (by omega)]
    exact deName_putName b hde hj
  have hlen : (name.take nameLen).length = min name.length nameLen := by
    rw [List.length_take, Nat.min_comm]
  have hbytes : ∀ j < nameLen, ((List.range nameLen).map
      (deName (fillEntry name de v b) de)).getD j 0 = deName (fillEntry name de v b) de j := by
    intro j hj
    simp [List.getD_eq_getElem?_getD, List.getElem?_map, List.getElem?_range hj]
  rw [Image.entryName, Image.takeWhile_eq_iff (fun c hc => hname c (List.mem_of_mem_take hc))
    (by simp), hlen, List.length_map, List.length_range]
  refine ⟨fun j hj => ?_, fun hlt => ?_⟩
  · rw [hbytes j (by omega), hbyte j (by omega), if_pos hj]
    simp [List.getD_eq_getElem?_getD, show j < nameLen by omega]
  · rw [hbytes _ hlt, hbyte _ hlt, if_neg (Nat.lt_irrefl _)]

theorem deInode_fillEntry_of_ne {v : Nat} (hde' : de' < dirEntriesPerBlock) (h : de' ≠ de) :
    deInode (fillEntry name de v b) de' = deInode b de' := by
  have h64 : dirEntriesPerBlock = 64 := rfl
  rw [deInode, deInode, getBits, getBits, fillEntry,
    extractLsb'_putBits_of_disjoint _ (by omega) (by omega),
    extractLsb'_putName b (by omega) (by omega)]

theorem entryName_fillEntry_of_ne {v : Nat} (hde' : de' < dirEntriesPerBlock) (h : de' ≠ de) :
    Image.entryName (fillEntry name de v b) de' = Image.entryName b de' := by
  have h64 : dirEntriesPerBlock = 64 := rfl
  have h14 : nameLen = 14 := rfl
  rw [Image.entryName, Image.entryName]
  refine congrArg _ (List.map_congr_left fun j hj => ?_)
  have hj := List.mem_range.mp hj
  rw [deName, deName, fillEntry, extractLsb'_putBits_of_disjoint _ (by omega) (by omega),
    extractLsb'_putName b (by omega) (by omega)]

end

end Gpos.Fs
