import Gpos.BufferCache

/-! The end of `getblk`, which moves a buffer to the queue of another block,
and the cache that `buffer_init` leaves. -/

namespace Gpos

/-- A buffer head without its links. -/
def BufferHead.contents (b : BufferHead) : BufferHead :=
  { b with bPrev := none, bNext := none, bPrevFree := none, bNextFree := none }

@[simp] theorem BufferHead.contents_bData (b : BufferHead) : b.contents.bData = b.bData := rfl

@[simp] theorem BufferHead.contents_bBlocknr (b : BufferHead) : b.contents.bBlocknr = b.bBlocknr :=
  rfl

@[simp] theorem BufferHead.contents_bDev (b : BufferHead) : b.contents.bDev = b.bDev := rfl

@[simp] theorem BufferHead.contents_bUptodate (b : BufferHead) :
    b.contents.bUptodate = b.bUptodate := rfl

@[simp] theorem BufferHead.contents_bDirt (b : BufferHead) : b.contents.bDirt = b.bDirt := rfl

@[simp] theorem BufferHead.contents_bCount (b : BufferHead) : b.contents.bCount = b.bCount := rfl

@[simp] theorem BufferHead.contents_bLock (b : BufferHead) : b.contents.bLock = b.bLock := rfl

namespace Cache

open Links

theorem EqButFree.contents {c c' : Cache} (h : EqButFree c c') (i : Nat) :
    (c'.buf i).contents = (c.buf i).contents := by
  rw [h.2.2 i]
  rfl

theorem EqButHash.contents {c c' : Cache} (h : EqButHash c c') (i : Nat) :
    (c'.buf i).contents = (c.buf i).contents := by
  rw [h.2.2 i]
  rfl

theorem EqButHash.freeInv {c c' : Cache} (h : EqButHash c c') {l : List Nat} (hl : FreeInv c l) :
    FreeInv c' l :=
  hl.congr h.1 h.2.1 fun i => by rw [h.2.2 i]; exact ⟨rfl, rfl⟩

theorem EqButFree.hashInv {c c' : Cache} (h : EqButFree c c') {out : Option Nat}
    {chain : Nat → List Nat} (hc : HashInv c out chain) : HashInv c' out chain :=
  hc.congr h.1 h.2.1 (fun i => by rw [h.2.2 i]; exact ⟨rfl, rfl⟩) fun i _ =>
    by rw [h.2.2 i]; exact ⟨rfl, rfl⟩

/-- `bh` is in no queue. -/
structure Detached (c : Cache) (bh : Nat) : Prop where
  free : ∃ l, FreeOut c bh l
  hash : ∃ chain, HashInv c (some bh) chain

theorem CacheInv.removeFromQueues {c : Cache} (h : CacheInv c) {bh : Nat} (hb : bh < c.nrBuffers) :
    ∃ c', c.removeFromQueues bh = some c' ∧ Detached c' bh ∧ c'.nrBuffers = c.nrBuffers ∧
      ∀ i, (c'.buf i).contents = (c.buf i).contents := by
  obtain ⟨l, hl⟩ := h.free
  obtain ⟨chain, hc⟩ := h.hash
  have hf := removeFromHash_frame c bh
  obtain ⟨c', he, hf', ho⟩ := (hf.freeInv hl).remove (hf.1.symm ▸ hb)
  exact ⟨c', he, ⟨⟨_, ho⟩, ⟨_, hf'.hashInv (hc.remove hb)⟩⟩, hf'.1.trans hf.1,
    fun i => (hf'.contents i).trans (hf.contents i)⟩

theorem Detached.insertIntoQueues {c : Cache} {bh : Nat} (h : Detached c bh) (hb : bh < c.nrBuffers)
    (hd : (c.buf bh).bDev ≠ 0) (hu : ∀ a b dev block, dev ≠ 0 → c.Caches a dev block →
      c.Caches b dev block → a = b) :
    ∃ c', c.insertIntoQueues bh = some c' ∧ CacheInv c' ∧ c'.nrBuffers = c.nrBuffers ∧
      ∀ i, (c'.buf i).contents = (c.buf i).contents := by
  obtain ⟨l, hl⟩ := h.free
  obtain ⟨chain, hc⟩ := h.hash
  obtain ⟨c₁, he, hf, hi⟩ := hl.insert hb
  have hd₁ : (c₁.buf bh).bDev ≠ 0 := by rwa [hf.2.2 bh]
  have hf' := insertIntoHash_frame c₁ hd₁
  have hcont : ∀ i, ((c₁.insertIntoHash bh).buf i).contents = (c.buf i).contents := fun i =>
    (hf'.contents i).trans (hf.contents i)
  have hnr : (c₁.insertIntoHash bh).nrBuffers = c.nrBuffers := hf'.1.trans hf.1
  have hcaches : ∀ a dev block, (c₁.insertIntoHash bh).Caches a dev block →
    c.Caches a dev block := by
    intro a dev block ha
    have hdev := congrArg BufferHead.bDev (hcont a)
    have hblk := congrArg BufferHead.bBlocknr (hcont a)
    exact ⟨hnr ▸ ha.1, hdev.symm.trans ha.2.1, hblk.symm.trans ha.2.2⟩
  refine ⟨_, by rw [Cache.insertIntoQueues, he, Option.map_some], ⟨⟨_, hf'.freeInv hi⟩,
    ⟨_, (hf.hashInv hc).insert (hf.1.symm ▸ hb) hd₁⟩, ?_⟩, hnr, hcont⟩
  exact fun a b dev block hdev ha hb' => hu a b dev block hdev (hcaches a dev block ha)
    (hcaches b dev block hb')

/-- What `getblk` has done when it returns a buffer it took from another block. -/
structure Retargeted (c : Cache) (bh dev block : Nat) (c' : Cache) : Prop where
  inv : CacheInv c'
  nrBuffers : c'.nrBuffers = c.nrBuffers
  new : (c'.buf bh).contents = { c.buf bh with
    bDev := dev, bBlocknr := block, bCount := 1, bDirt := false, bUptodate := false }.contents
  old : ∀ i, i ≠ bh → (c'.buf i).contents = (c.buf i).contents

theorem CacheInv.retarget {c : Cache} (h : CacheInv c) {bh dev block : Nat} (hb : bh < c.nrBuffers)
    (hd : dev ≠ 0) (hnew : ∀ b, ¬ c.Caches b dev block) :
    ∃ c', c.retarget bh dev block = some c' ∧ Retargeted c bh dev block c' := by
  have h₁ := h.modify bh (f := fun b => { b with bCount := 1, bDirt := false, bUptodate := false })
    fun _ => ⟨rfl, rfl, rfl, rfl, rfl, rfl⟩
  obtain ⟨c₂, he₂, ⟨⟨l, hl⟩, ⟨chain, hc⟩⟩, hn₂, hcont₂⟩ := h₁.removeFromQueues hb
  have hbuf : ∀ i, i ≠ bh → (c₂.modify bh fun b =>
    { b with bDev := dev, bBlocknr := block }).buf i = c₂.buf i :=
    fun i hi => by rw [modify_buf, if_neg (Ne.symm hi)]
  have hold : ∀ i, i ≠ bh → (c₂.buf i).contents = (c.buf i).contents := by
    intro i hi
    rw [hcont₂ i, modify_buf, if_neg (Ne.symm hi)]
  have hdet : Detached (c₂.modify bh fun b => { b with bDev := dev, bBlocknr := block }) bh := by
    refine ⟨⟨l, hl.congr rfl rfl fun i => ?_⟩,
      ⟨chain, hc.congr rfl rfl (fun i => ?_) fun i hi => ?_⟩⟩
    · rw [modify_buf]
      split <;> exact ⟨rfl, rfl⟩
    · rw [modify_buf]
      split <;> exact ⟨rfl, rfl⟩
    · rw [hbuf i (by simpa using hi)]
      exact ⟨rfl, rfl⟩
  have hself : (c₂.modify bh fun b => { b with bDev := dev, bBlocknr := block }).buf bh =
      { c₂.buf bh with bDev := dev, bBlocknr := block } := by rw [modify_buf, if_pos rfl]
  obtain ⟨c', he, hinv, hn, hcont⟩ :=
    hdet.insertIntoQueues (show bh < c₂.nrBuffers from hn₂.symm ▸ hb)
    (by rw [hself]; exact hd) <| by
      -- the only buffer whose identity changed is `bh`, and no other buffer had the new one
      have hother : ∀ i, i ≠ bh → ∀ dev' block',
          (c₂.modify bh fun b => { b with bDev := dev, bBlocknr := block }).Caches i dev' block' →
            c.Caches i dev' block' := by
        intro i hi dev' block' hc'
        refine ⟨hn₂ ▸ hc'.1, ?_, ?_⟩
        · rw [← hc'.2.1, hbuf i hi]
          exact (congrArg BufferHead.bDev (hold i hi)).symm
        · rw [← hc'.2.2, hbuf i hi]
          exact (congrArg BufferHead.bBlocknr (hold i hi)).symm
      have hthis : ∀ dev' block',
          (c₂.modify bh fun b => { b with bDev := dev, bBlocknr := block }).Caches bh dev' block' →
            dev' = dev ∧ block' = block := by
        intro dev' block' hc'
        rw [Caches, hself] at hc'
        exact ⟨hc'.2.1.symm, hc'.2.2.symm⟩
      intro a b dev' block' hdev' ha hb'
      by_cases hab : a = bh <;> by_cases hbb : b = bh
      · rw [hab, hbb]
      · obtain ⟨rfl, rfl⟩ := hthis dev' block' (hab ▸ ha)
        exact absurd (hother b hbb _ _ hb') (hnew b)
      · obtain ⟨rfl, rfl⟩ := hthis dev' block' (hbb ▸ hb')
        exact absurd (hother a hab _ _ ha) (hnew a)
      · exact h.unique a b dev' block' hdev' (hother a hab _ _ ha) (hother b hbb _ _ hb')
  refine ⟨c', ?_, hinv, hn.trans hn₂, ?_, fun i hi => ?_⟩
  · rw [Cache.retarget, he₂, Option.bind_some, he]
  · have h2 := hcont₂ bh
    rw [modify_buf, if_pos rfl] at h2
    rw [hcont bh, hself]
    simp only [BufferHead.contents, BufferHead.mk.injEq] at h2 ⊢
    simp [h2]
  · rw [hcont i, hbuf i hi, hold i hi]

theorem caches_of_contents {c c' : Cache} (hn : c'.nrBuffers = c.nrBuffers) {b : Nat}
    (hb : (c'.buf b).contents = (c.buf b).contents) (dev block : Nat) :
    c'.Caches b dev block ↔ c.Caches b dev block := by
  have hdev : (c'.buf b).bDev = (c.buf b).bDev := by simpa using congrArg BufferHead.bDev hb
  have hblk : (c'.buf b).bBlocknr = (c.buf b).bBlocknr := by
    simpa using congrArg BufferHead.bBlocknr hb
  rw [Caches, Caches, hn, hdev, hblk]

theorem Retargeted.caches {c c' : Cache} {bh dev block : Nat} (h : Retargeted c bh dev block c')
    {b : Nat} (hb : b ≠ bh) (dev' block' : Nat) :
    c'.Caches b dev' block' ↔ c.Caches b dev' block' :=
  caches_of_contents h.nrBuffers (h.old b hb) dev' block'

theorem Retargeted.caches_self {c c' : Cache} {bh dev block : Nat}
    (h : Retargeted c bh dev block c') (hb : bh < c.nrBuffers) : c'.Caches bh dev block :=
  ⟨h.nrBuffers ▸ hb, by simpa using congrArg BufferHead.bDev h.new,
    by simpa using congrArg BufferHead.bBlocknr h.new⟩

end Cache

end Gpos
