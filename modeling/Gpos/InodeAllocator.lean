import Gpos.References
import Gpos.ZoneSoundness

/-! The inode map over runs of `new_inode` and `free_inode`. -/

namespace Gpos.Imap

open Fs Cache Zones Bitmap BufferTasks Program

/-- Bit `n` of the inode map of a device, if its block is loaded. -/
def inodeBit (s : Fs) (dev n : Nat) : Option Bool :=
  (getSuper s.superBlock dev).bind fun sb => mapBit sb.sImap s.cache n

def withBit (bit : Nat → Nat → Option Bool) (dev num : Nat) (v : Bool) (d n : Nat) : Option Bool :=
  if d = dev ∧ n = num then some v else bit d n

/-- The references `R` keep the blocks of the inode maps in buffers. -/
def Held (sbs : Nat → SuperBlock) (R : Multiset Ref) : Prop :=
  ∀ dev sb k bh, getSuper sbs dev = some sb → sb.sImap k = some bh →
    k < 8 ∧ k < sb.sImapBlocks ∧ (⟨bh, dev, 2 + k⟩ : Ref) ∈ R

/-- The references are `R`, and the maps are `bit`. -/
structure Steady (sbs : Nat → SuperBlock) (R : Multiset Ref) (bit : Nat → Nat → Option Bool)
    (s : Fs) : Prop where
  supers : s.superBlock = sbs
  ready : Ready s.cache R
  bits : ∀ dev n, inodeBit s dev n = bit dev n

/-- The buffer holds a block of an inode map. -/
def IsMap (sbs : Nat → SuperBlock) (bh : Nat) : Prop :=
  ∃ dev sb k, getSuper sbs dev = some sb ∧ sb.sImap k = some bh

section

variable {disk : Cache.Disk} {sbs : Nat → SuperBlock} {R R' : Multiset Ref}
  {bit : Nat → Nat → Option Bool} {s t : Fs} {c c' : Cache} {dev z bh : Nat}

theorem Held.used (hh : Held sbs R) (hr : Ready c R) (hm : IsMap sbs bh) :
    0 < (c.buf bh).bCount := by
  obtain ⟨dev, sb, k, hs, hk⟩ := hm
  exact hr.sound.count_pos hr.fits (hh dev sb k bh hs hk).2.2

theorem Held.not_isMap (hh : Held sbs R) (hr : Ready c R) (hc : c.Caches bh dev z)
    (hz : ∀ sb, getSuper sbs dev = some sb → 2 + sb.sImapBlocks ≤ z) : ¬ IsMap sbs bh := by
  rintro ⟨d, sb, k, hs, hk⟩
  obtain ⟨-, hlt, hmem⟩ := hh d sb k bh hs hk
  have hid := (hr.sound.ident _ hmem).2
  have hd : d = dev := hid.2.1.symm.trans hc.2.1
  have hb : 2 + k = z := hid.2.2.symm.trans hc.2.2
  have := hz sb (hd ▸ hs)
  omega

theorem Steady.congr (h : Steady sbs R bit s) (hs : t.superBlock = s.superBlock)
    (hr : Ready t.cache R') (hdata : ∀ b, IsMap sbs b →
      (t.cache.buf b).bData = (s.cache.buf b).bData) : Steady sbs R' bit t := by
  refine ⟨hs.trans h.supers, hr, fun d n => ?_⟩
  rw [← h.bits d n, inodeBit, inodeBit, hs, h.supers]
  cases hsb : getSuper sbs d with
  | none => rfl
  | some sb =>
    rw [Option.bind_some, Option.bind_some, mapBit, mapBit]
    cases hm : sb.sImap (n / 8192) with
    | none => rfl
    | some b => rw [Option.map_some, Option.map_some, hdata b ⟨d, sb, _, hsb, hm⟩]

theorem Fetched.data {x : Option Nat} (hf : Fetched disk bh c x c') {b : Nat} (hb : b ≠ bh) :
    (c'.buf b).bData = (c.buf b).bData := by
  cases hf with
  | ready => rfl
  | read => rw [modify_buf, if_neg (Ne.symm hb)]
  | failed _ he =>
    rw [modify_buf, if_neg (Ne.symm hb)]
    rcases he with rfl | rfl
    · rfl
    · rw [modify_buf, if_neg (Ne.symm hb)]

theorem Got.data {block : Nat} (hg : Got c dev block bh c') {b : Nat} (hb : b ≠ bh) :
    (c'.buf b).bData = (c.buf b).bData := by
  cases hg with
  | hit _ he => rw [he, modify_buf, if_neg (Ne.symm hb)]
  | miss _ _ _ _ he => simpa using congrArg BufferHead.bData (he.old b hb)

theorem Fetched.bh_eq {x : Option Nat} (hf : Fetched disk bh c x c') {b : Nat} (hx : x = some b) :
    b = bh := by
  cases hf <;> cases hx <;> rfl

/-- `bread` of a block that is not one of a map; the buffer cannot be released if its count wrapped. -/
theorem steady_bread (hh : Held sbs R) (hd : dev ≠ 0)
    (hz : ∀ sb, getSuper sbs dev = some sb → 2 + sb.sImapBlocks ≤ z) :
      Ensures (Steady sbs R bit) (bread disk dev z) fun x u => ∀ b, x = some b →
        Steady sbs (⟨b, dev, z⟩ ::ₘ R) bit u ∧ ¬ IsMap sbs b ∨ (u.cache.buf b).bCount = 0 := by
  intro s x t hs h b hb
  obtain ⟨⟨y, c'⟩, hc, he⟩ := Option.map_eq_some_iff.mp h
  cases he
  by_cases hroom : ∀ b, s.cache.Caches b dev z → (s.cache.buf b).bCount < 255
  · obtain ⟨bh, c₁, hg, hf, hr⟩ := bread_spec hs.ready hd hroom hc
    have hnot : ¬ IsMap sbs bh := by
      cases hg with
      | hit hc _ => exact hh.not_isMap hs.ready hc hz
      | miss _ _ h0 _ _ => exact fun hm => absurd h0 (hh.used hs.ready hm).ne'
    subst hb
    obtain rfl := Fetched.bh_eq hf rfl
    refine .inl ⟨hs.congr rfl (by simpa using hr) fun b' hm => ?_, hnot⟩
    have hne : b' ≠ b := fun he => hnot (he ▸ hm)
    exact (Fetched.data hf hne).trans (Got.data hg hne)
  · push Not at hroom
    obtain ⟨b', hb', hge⟩ := hroom
    have hfit := hs.ready.fits b'
    rw [← hs.ready.count hb'.1] at hfit
    exact .inr (bread_wrap hs.ready hd hb' (by omega) hc b hb)

theorem steady_of_keeps {α : Type} {x : Program Fs α}
    (h : Keeps (fun s => (s.superBlock, s.cache)) x) :
    Ensures (Steady sbs R bit) x fun _ => Steady sbs R bit := by
  intro s a t hs he
  obtain ⟨hsuper, hcache⟩ := Prod.mk.inj (h s a t he)
  refine hs.congr hsuper ?_ fun b _ => ?_
  · rw [hcache]
    exact hs.ready
  · rw [hcache]

theorem steady_getSuper (dev : Nat) :
    Ensures (Steady sbs R bit) (Fs.getSuper dev) fun sb t => Steady sbs R bit t ∧
      getSuper sbs dev = some sb := by
  intro s sb t hs h
  obtain ⟨sb', hsb, he⟩ := Option.map_eq_some_iff.mp h
  cases he
  exact ⟨hs, hs.supers ▸ hsb⟩

theorem steady_modifyBuf {r : Ref} (hbh : ¬ IsMap sbs bh) {f : Block → Block} :
    Ensures (Steady sbs (r ::ₘ R) bit) (modifyBuf bh fun b =>
      { b with bData := f b.bData, bDirt := true })
      fun _ => Steady sbs (r ::ₘ R) bit := by
  intro s a t hs h
  cases h
  refine hs.congr rfl (hs.ready.modify bh (keepsShape_data f) (fun _ => rfl) fun _ hl =>
    hl) fun b hm => ?_
  dsimp only
  rw [modify_buf, if_neg fun he : bh = b => hbh (he ▸ hm)]

theorem steady_brelse (R : Multiset Ref) (bit : Nat → Nat → Option Bool) (r : Ref) :
    Ensures (Steady sbs (r ::ₘ R) bit) (brelse r.bh) fun _ => Steady sbs R bit := by
  intro s a t hs h
  obtain ⟨he, hr⟩ := hs.ready.brelse
  obtain ⟨⟨y, c'⟩, hc, ht⟩ := Option.map_eq_some_iff.mp h
  cases ht
  dsimp only at hc
  rw [he] at hc
  cases hc
  refine hs.congr rfl hr fun b _ => ?_
  dsimp only
  rw [modify_buf]
  split <;> rfl

theorem keeps_inodes (i : Nat) (f : MInode → MInode) :
    Keeps (fun s : Fs => (s.superBlock, s.cache)) (modifyInode i f) := by
  intro s a t h
  cases h
  rfl

theorem keeps_wait (i : Nat) : Keeps (fun s : Fs => (s.superBlock, s.cache)) (waitOnInode i) :=
  (Keeps.read _).bind fun _ => .ite .failure (.pure _)

theorem inodeBlock_le (sb : SuperBlock) (num : Nat) : 2 + sb.sImapBlocks ≤ inodeBlock sb num :=
  (Nat.le_add_right _ _).trans (Nat.le_add_right _ _)

/-- `write_inode` does not get past a buffer without a reference. -/
theorem unreleased {b i : Nat} {f : BufferHead → BufferHead} {g : MInode → MInode}
    {x : Program Fs Unit} {r : Unit × Fs} (h0 : (f (s.cache.buf b)).bCount = 0) :
    (modifyBuf b f >>= fun _ => modifyInode i g >>= fun _ => brelse b >>= fun _ =>
      x) s ≠ some r := by
  intro h
  obtain ⟨_, s₁, hbuf, h⟩ := bind_some.mp h
  cases hbuf
  obtain ⟨_, s₂, hnode, h⟩ := bind_some.mp h
  cases hnode
  obtain ⟨_, s₃, hrel, h⟩ := bind_some.mp h
  obtain ⟨r, hr, -⟩ := Option.map_eq_some_iff.mp hrel
  dsimp only at hr
  rw [Cache.brelse, modify_buf, if_pos rfl, if_pos h0, ite_self] at hr
  cases hr

theorem steady_writeInode (hh : Held sbs R) (i : Nat) :
    Ensures (Steady sbs R bit) (writeInode disk i) fun _ => Steady sbs R bit := by
  refine (steady_of_keeps ((keeps_wait i).bind fun _ => keeps_inodes i _)).bind fun _ => ?_
  refine (steady_of_keeps (Keeps.read _)).bind fun n =>
    Ensures.ite (steady_of_keeps (keeps_inodes i _)) ?_
  refine (steady_getSuper n.iDev).bind fun sb => Ensures.assume fun hsb => ?_
  have hz : ∀ sb', getSuper sbs n.iDev = some sb' → 2 + sb'.sImapBlocks ≤ inodeBlock sb n.iNum :=
    fun sb' h => by
    rw [hsb] at h
    cases h
    exact inodeBlock_le sb n.iNum
  refine (steady_bread hh (getSuper_dev hsb) hz).bind fun x => ?_
  cases x with
  | none => exact Ensures.failure
  | some b =>
    intro s a t hs h
    rcases hs b rfl with ⟨hs, hnot⟩ | h0
    · have hrest :=
        (steady_modifyBuf (f := fun d => writeInodeAt d ((n.iNum - 1) % inodesPerBlock) n)
          hnot).bind fun _ =>
        (steady_of_keeps (keeps_inodes i fun n => { n with iDirt := false })).bind fun _ =>
        (steady_brelse R bit ⟨b, n.iDev, inodeBlock sb n.iNum⟩).bind fun _ =>
        steady_of_keeps (keeps_inodes i fun n => { n with iLock := false })
      exact hrest s a t hs h
    · exact absurd h (unreleased h0)

theorem steady_flushInode (hh : Held sbs R) (i : Nat) :
    Ensures (Steady sbs R bit) (flushInode disk i) fun _ => Steady sbs R bit := by
  refine (steady_of_keeps (Keeps.read _)).bind fun n => Ensures.ite ?_ (Ensures.pure fun _ h => h)
  refine (steady_writeInode hh i).bind fun _ =>
    steady_of_keeps ((keeps_wait i).bind fun _ => (Keeps.read _).bind fun _ => ?_)
  exact .ite .failure (.pure _)

theorem steady_getEmptyInode (hh : Held sbs R) :
    Ensures (Steady sbs R bit) (getEmptyInode disk) fun _ => Steady sbs R bit := by
  have hpick : Keeps (fun s : Fs => (s.superBlock, s.cache)) pickInode := by
    intro s a t h
    cases h
    rfl
  refine (steady_of_keeps hpick).bind fun x => ?_
  cases x with
  | none => exact Ensures.failure
  | some i =>
    refine (steady_of_keeps (keeps_wait i)).bind fun _ => (steady_flushInode hh i).bind fun _ =>
      steady_of_keeps ?_
    have htake :=
      (keeps_inodes i fun _ => zeroInode).bind fun _ =>
        (keeps_inodes i fun n => { n with iCount := 1 }).bind fun _ =>
      Keeps.pure i
    exact (Keeps.read _).bind fun _ => .ite htake .failure

/-- The count of a slot, and the other slots. -/
def around (i : Nat) (s : Fs) : BitVec 16 × (Nat → MInode) :=
  ((s.inodeTable i).iCount, fun k => if k = i then zeroInode else s.inodeTable k)

theorem around_of_table {α : Type} {x : Program Fs α} (h : Keeps (fun s : Fs => s.inodeTable) x)
    (i : Nat) : Keeps (around i) x :=
  h.map fun table => ((table i).iCount, fun k => if k = i then zeroInode else table k)

theorem around_modifyInode (i : Nat) (f : MInode → MInode) (hf : ∀ n, (f n).iCount = n.iCount) :
    Keeps (around i) (modifyInode i f) := by
  intro s a t h
  cases h
  refine Prod.ext ?_ (funext fun k => ?_)
  · show (Function.update s.inodeTable i _ i).iCount = _
    rw [Function.update_self]
    exact hf _
  · show (if k = i then zeroInode else Function.update s.inodeTable i _ k) = if k = i then zeroInode
      else s.inodeTable k
    split
    · rfl
    next hk => rw [Function.update_of_ne hk]

theorem table_onCache {α : Type} (f : Cache → Option (α × Cache)) :
    Keeps (fun s : Fs => s.inodeTable) (onCache f) := by
  intro s a t h
  obtain ⟨r, -, he⟩ := Option.map_eq_some_iff.mp h
  cases he
  rfl

theorem table_getSuper (dev : Nat) : Keeps (fun s : Fs => s.inodeTable) (Fs.getSuper dev) := by
  intro s a t h
  obtain ⟨sb, -, he⟩ := Option.map_eq_some_iff.mp h
  cases he
  rfl

theorem table_wait (i : Nat) : Keeps (fun s : Fs => s.inodeTable) (waitOnInode i) :=
  (Keeps.read _).bind fun _ => .ite .failure (.pure _)

theorem around_flushInode (i : Nat) : Keeps (around i) (flushInode disk i) := by
  have hwrite : Keeps (around i) (writeInode disk i) := by
    refine ((around_of_table (table_wait i) i).bind fun _ =>
      around_modifyInode i _ (by intro; rfl)).bind fun _ => ?_
    refine (Keeps.read _).bind fun n => .ite (around_modifyInode i _ (by intro; rfl)) ?_
    refine (around_of_table (table_getSuper n.iDev) i).bind fun sb =>
      (around_of_table (table_onCache _) i).bind fun x => ?_
    cases x with
    | none => exact .failure
    | some b =>
      refine (around_of_table (table_onCache _) i).bind fun _ =>
        (around_modifyInode i _ (by intro; rfl)).bind fun _ => ?_
      exact (around_of_table (table_onCache _) i).bind fun _ =>
        around_modifyInode i _ (by intro; rfl)
  refine (Keeps.read _).bind fun n => .ite (hwrite.bind fun _ =>
    (around_of_table (table_wait i) i).bind fun _ => ?_) (.pure _)
  exact (Keeps.read _).bind fun _ => .ite .failure (.pure _)

theorem getEmptyInode_slot {i : Nat} (h : getEmptyInode disk s = some (i, t)) :
    (s.inodeTable i).iCount = 0 ∧ t.inodeTable =
      Function.update s.inodeTable i { zeroInode with iCount := 1 } := by
  obtain ⟨x, s₁, hpick, h⟩ := bind_some.mp h
  cases hpick
  cases hx : (scanInodes s.inodeTable nrInode s.lastInode none).2 with
  | none =>
    rw [hx] at h
    cases h
  | some k =>
    rw [hx] at h
    obtain ⟨_, s₂, hwait, h⟩ := bind_some.mp h
    obtain ⟨_, s₃, hflush, h⟩ := bind_some.mp h
    have haround :=
      (around_flushInode k _ _ _ hflush).trans (around_of_table (table_wait k) k _ _ _ hwait)
    obtain ⟨hcount, hothers⟩ := Prod.mk.inj haround
    rw [takeInode, bind_of_eq (a := s₃.inodeTable k) (t := s₃) rfl] at h
    split at h
    next h0 =>
      obtain ⟨rfl, ht⟩ := Prod.mk.inj (Option.some.inj h)
      refine ⟨hcount.symm.trans h0, ?_⟩
      rw [← ht]
      dsimp only
      rw [Function.update_self, Function.update_idem]
      funext j
      have hj := congrFun hothers j
      dsimp only at hj
      by_cases hji : j = k
      · rw [hji, Function.update_self, Function.update_self]
      · rw [if_neg hji, if_neg hji] at hj
        rw [Function.update_of_ne hji, Function.update_of_ne hji, hj]
    next => cases h

theorem iput_fresh {i : Nat} (h : s.inodeTable i = { zeroInode with iCount := 1 }) :
    iput disk i s =
      some ((), { s with inodeTable := Function.update s.inodeTable i zeroInode }) := by
  have hlock : (s.inodeTable i).iLock = false := by rw [h]; rfl
  have hcount : (s.inodeTable i).iCount = 1 := by rw [h]
  have hpipe : (s.inodeTable i).iPipe = false := by rw [h]; rfl
  have hdev : (s.inodeTable i).iDev = 0 := by rw [h]; rfl
  have hwait : waitOnInode i s = some ((), s) := by
    rw [waitOnInode, bind_of_eq (a := s.inodeTable i) (t := s) rfl, if_neg (by simp [hlock])]
    rfl
  rw [iput, bind_of_eq hwait, bind_of_eq (a := s.inodeTable i) (t := s) rfl,
    if_neg (by simp [hcount]), if_neg (by simp [hpipe]), if_pos hdev]
  have hdrop (n : MInode) (hn : n = { zeroInode with iCount := 1 }) :
    { n with iCount := n.iCount - 1 } = zeroInode := by
    rw [hn]
    rfl
  exact congrArg (fun n => some ((), { s with inodeTable := Function.update s.inodeTable i n }))
    (hdrop _ h)

theorem Held.distinct (hh : Held sbs R) (hr : Ready c R) {d k k' : Nat} {sb sb' : SuperBlock}
    (hs : getSuper sbs dev = some sb) (hk : sb.sImap k = some bh) (hs' : getSuper sbs d = some sb')
    (hk' : sb'.sImap k' = some bh) : d = dev ∧ k' = k := by
  have hid := (hr.sound.ident _ (hh dev sb k bh hs hk).2.2).2
  have hid' := (hr.sound.ident _ (hh d sb' k' bh hs' hk').2.2).2
  have hd : d = dev := hid'.2.1.symm.trans hid.2.1
  have hb : 2 + k' = 2 + k := hid'.2.2.symm.trans hid.2.2
  exact ⟨hd, by omega⟩

theorem steady_mapBit (hh : Held sbs R) {sb : SuperBlock} (hsb : getSuper sbs dev = some sb)
    {k j : Nat} (hk : sb.sImap k = some bh) (hj : j < 8192) (v : Bool) {f : Block → Block}
    (hf : ∀ b n, (f b).getLsbD n = if n = j then v else b.getLsbD n) :
    Ensures (Steady sbs R bit) (modifyBuf bh fun b => { b with bData := f b.bData, bDirt := true })
      fun _ => Steady sbs R (withBit bit dev (j + k * 8192) v) := by
  intro s a t hs h
  cases h
  refine ⟨hs.supers, hs.ready.modify bh (keepsShape_data f) (fun _ => rfl) fun _ hl =>
    hl, fun d n => ?_⟩
  rw [withBit, ← hs.bits d n, inodeBit, inodeBit, hs.supers]
  dsimp only
  cases hsd : getSuper sbs d with
  | none =>
    rw [if_neg]
    rfl
    rintro ⟨rfl, -⟩
    rw [hsb] at hsd
    cases hsd
  | some sb' =>
    rw [Option.bind_some, Option.bind_some, mapBit, mapBit]
    cases hm : sb'.sImap (n / 8192) with
    | none =>
      rw [if_neg]
      rfl
      rintro ⟨rfl, rfl⟩
      rw [hsb] at hsd
      cases hsd
      rw [show (j + k * 8192) / 8192 = k by omega, hk] at hm
      cases hm
    | some b =>
      rw [Option.map_some, Option.map_some, modify_buf]
      by_cases hb : bh = b
      · subst hb
        obtain ⟨rfl, hkn⟩ := hh.distinct hs.ready hsb hk hsd hm
        rw [if_pos rfl, hf]
        by_cases hn : n % 8192 = j
        · rw [if_pos hn, if_pos ⟨rfl, by omega⟩]
        · rw [if_neg hn, if_neg fun hc => hn (by omega)]
      · rw [if_neg hb, if_neg]
        rintro ⟨rfl, rfl⟩
        rw [hsb] at hsd
        cases hsd
        rw [show (j + k * 8192) / 8192 = k by omega, hk] at hm
        exact hb (Option.some.inj hm)

/-- What `new_inode` does when it returns an inode. -/
structure Taken (s : Fs) (dev num i : Nat) (t : Fs) : Prop where
  first : inodeBit s dev 0 ≠ some false → 1 ≤ num
  last : ∃ sb, getSuper s.superBlock dev = some sb ∧ num ≤ sb.sNinodes
  free : inodeBit s dev num = some false
  bits : ∀ d n, inodeBit t d n = withBit (inodeBit s) dev num true d n
  unused : (s.inodeTable i).iCount = 0
  named : (t.inodeTable i).iDev = dev ∧ (t.inodeTable i).iNum = num
  fresh : (t.inodeTable i).iCount = 1 ∧ (t.inodeTable i).iNlinks = 1
  others : ∀ k, k ≠ i → t.inodeTable k = s.inodeTable k

/-- The inodes of the device are all allocated, as far as they have a bit. -/
def Exhausted (s : Fs) (dev : Nat) : Prop :=
  ∀ sb, getSuper s.superBlock dev = some sb → ∀ n, 1 ≤ n → n ≤ sb.sNinodes →
    inodeBit s dev n ≠ some false

/-- What `new_inode` does when it returns no inode: a slot that nobody uses is empty now. -/
structure Released (s t : Fs) : Prop where
  bits : ∀ d n, inodeBit t d n = inodeBit s d n
  slot : ∃ i, (s.inodeTable i).iCount = 0 ∧ t.inodeTable = Function.update s.inodeTable i zeroInode

theorem released_slot {i : Nat} {r : Option Nat}
    (hfresh : s.inodeTable i = { zeroInode with iCount := 1 })
    (h : (iput disk i >>= fun _ => (pure none : Program Fs (Option Nat))) s = some (r, t)) :
    r = none ∧ t = { s with inodeTable := Function.update s.inodeTable i zeroInode } := by
  rw [bind_of_eq (iput_fresh hfresh)] at h
  cases h
  exact ⟨rfl, rfl⟩

theorem taken_slot (hh : Held sbs R) (hs : Steady sbs R bit s) {sb : SuperBlock}
    (hsb : getSuper sbs dev = some sb) {k j i num : Nat} {creds : Creds} {r : Option Nat}
    (hf : Found sb.sImap s.cache 0 k bh j)
    (h : (modifyBuf bh (fun b => { b with bData := setBit j b.bData, bDirt := true }) >>= fun _ =>
      nameInode i dev num creds >>= fun _ => (pure (some i) : Program Fs (Option Nat))) s =
        some (r, t)) :
    r = some i ∧ Steady sbs R (withBit bit dev (j + k * 8192) true) t ∧ ∃ n : MInode,
      t.inodeTable = Function.update s.inodeTable i n ∧ (n.iDev = dev ∧ n.iNum = num) ∧
        n.iCount = 1 ∧ n.iNlinks = 1 := by
  obtain ⟨_, s₁, hset, h⟩ := bind_some.mp h
  have h₁ := steady_mapBit hh hsb hf.slot hf.lt true (getLsbD_setBit hf.lt) s _ s₁ hs hset
  cases hset
  obtain ⟨_, s₂, hname, h⟩ := bind_some.mp h
  cases hname
  cases h
  exact ⟨rfl, ⟨h₁.supers, h₁.ready, h₁.bits⟩, _, rfl, ⟨rfl, rfl⟩, rfl, rfl⟩

theorem newInode_spec (hh : Held sbs R) (hs : Steady sbs R (inodeBit s) s) {creds : Creds}
    {r : Option Nat} (h : newInode disk dev creds s = some (r, t)) :
    t.superBlock = sbs ∧ Ready t.cache R ∧
      ((∃ i num, r = some i ∧ Taken s dev num i t) ∨
        r = none ∧ Exhausted s dev ∧ Released s t) := by
  obtain ⟨i, s₁, hget, h⟩ := bind_some.mp h
  have h₁ := steady_getEmptyInode hh s i s₁ hs hget
  obtain ⟨hcount, htable⟩ := getEmptyInode_slot hget
  have hfresh : s₁.inodeTable i = { zeroInode with iCount := 1 } := by
    rw [htable, Function.update_self]
  obtain ⟨sb, s₂, hsuper, h⟩ := bind_some.mp h
  obtain ⟨sb', hsb, he⟩ := Option.map_eq_some_iff.mp hsuper
  cases he
  rw [h₁.supers] at hsb
  have hbit (n : Nat) : inodeBit s dev n = mapBit sb.sImap s₁.cache n := by
    rw [← h₁.bits, inodeBit, h₁.supers, hsb]
    rfl
  -- both ways to give up: there is no clear bit, or the first one is past the last inode
  have hgiveUp (hex : ∀ n, n ≤ sb.sNinodes → inodeBit s dev n ≠ some false)
      (h : (iput disk i >>= fun _ => (pure none : Program Fs (Option Nat))) s₁ = some (r, t)) :
      t.superBlock = sbs ∧ Ready t.cache R ∧
        ((∃ i num, r = some i ∧ Taken s dev num i t) ∨
          r = none ∧ Exhausted s dev ∧ Released s t) := by
    obtain ⟨hr, rfl⟩ := released_slot hfresh h
    refine ⟨h₁.supers, h₁.ready, .inr ⟨hr, fun sb' hsb' n _ hn => ?_, ⟨h₁.bits, i, hcount, ?_⟩⟩⟩
    · rw [hs.supers, hsb] at hsb'
      cases hsb'
      exact hex n hn
    · dsimp only
      rw [htable, Function.update_idem]
  rw [bind_of_eq (a := searchMap sb.sImap s₁.cache 8 0) (t := s₁) rfl] at h
  cases hsearch : searchMap sb.sImap s₁.cache 8 0 with
  | none =>
    rw [hsearch] at h
    refine hgiveUp (fun n _ => ?_) h
    rw [hbit]
    exact mapBit_of_none (fun k b hk => (hh dev sb k b hsb hk).1) hsearch n
  | some p =>
    obtain ⟨k, bh, j⟩ := p
    rw [hsearch] at h
    have hf := searchMap_some hsearch
    dsimp only at h
    split at h
    next hpast =>
      refine hgiveUp (fun n hn => ?_) h
      rw [hbit]
      exact hf.mapBit_ne (by omega)
    next hin =>
      have hfree : inodeBit s dev (j + k * 8192) = some false := by
        rw [hbit, Nat.add_comm]
        exact hf.mapBit_eq
      have hpos (h0 : inodeBit s dev 0 ≠ some false) : 1 ≤ j + k * 8192 := by
        by_contra hlt
        rw [show j + k * 8192 = 0 by omega] at hfree
        exact h0 hfree
      rw [bind_of_eq (a := s₁.cache.buf bh) (t := s₁) rfl, if_neg (by rw [hf.clear]; decide)] at h
      obtain ⟨hr, h₂, n, hn, hnamed, hnew⟩ := taken_slot hh h₁ hsb hf h
      have hself : t.inodeTable i = n := by rw [hn, Function.update_self]
      refine ⟨h₂.supers, h₂.ready, .inl ⟨i, _, hr, hpos, ⟨sb, hs.supers ▸ hsb, Nat.not_lt.mp hin⟩,
        hfree, h₂.bits, hcount, hself ▸ hnamed, hself ▸ hnew, fun l hl => ?_⟩⟩
      rw [hn, Function.update_of_ne hl, htable, Function.update_of_ne hl]

/-- What `free_inode` does to the maps for an inode of a device; a bit that is
clear stays clear. -/
structure Freed (s : Fs) (dev num : Nat) (t : Fs) : Prop where
  first : 1 ≤ num
  last : ∃ sb, getSuper s.superBlock dev = some sb ∧ num ≤ sb.sNinodes
  bits : ∀ d n, inodeBit t d n = withBit (inodeBit s) dev num false d n

theorem freeInode_spec (hh : Held sbs R) (hs : Steady sbs R (inodeBit s) s) {i : Nat} {n : MInode}
    (hn : s.inodeTable i = n) (h : freeInode i s = some ((), t)) :
    t.superBlock = sbs ∧ Ready t.cache R ∧ t.inodeTable = Function.update s.inodeTable i zeroInode ∧
      if n.iDev = 0 then ∀ d k, inodeBit t d k = inodeBit s d k else Freed s n.iDev n.iNum t := by
  subst hn
  rw [freeInode, bind_of_eq (a := s.inodeTable i) (t := s) rfl] at h
  split at h
  next hdev =>
    cases h
    refine ⟨hs.supers, hs.ready, rfl, ?_⟩
    rw [if_pos hdev]
    exact fun _ _ => rfl
  next hdev =>
    split_ifs at h with hcount hlinks
    · cases h
    · cases h
    obtain ⟨sb, s₁, hsuper, h⟩ := bind_some.mp h
    obtain ⟨sb', hsb, he⟩ := Option.map_eq_some_iff.mp hsuper
    cases he
    rw [hs.supers] at hsb
    split_ifs at h with hrange
    · cases h
    cases hslot : sb.sImap ((s.inodeTable i).iNum / 8192) with
    | none =>
      rw [hslot] at h
      cases h
    | some bh =>
      rw [hslot] at h
      obtain ⟨_, s₂, hclear, h⟩ := bind_some.mp h
      have hmod : (s.inodeTable i).iNum % 8192 < 8192 := Nat.mod_lt _ (by decide)
      have h₂ := steady_mapBit hh hsb hslot hmod false (getLsbD_clearBit hmod) s _ s₂ hs hclear
      rw [show (s.inodeTable i).iNum % 8192 + (s.inodeTable i).iNum / 8192 * 8192 =
        (s.inodeTable i).iNum by omega] at h₂
      cases hclear
      cases h
      refine ⟨h₂.supers, h₂.ready, rfl, ?_⟩
      rw [if_neg hdev]
      exact ⟨by omega, ⟨sb, hs.supers ▸ hsb, by omega⟩, h₂.bits⟩

theorem freeInode_some {i : Nat} {n : MInode} {sb : SuperBlock} (hn : s.inodeTable i = n)
    (hsb : getSuper s.superBlock n.iDev = some sb) (hcount : n.iCount ≤ 1) (hlinks : n.iNlinks = 0)
    (hfirst : 1 ≤ n.iNum)
    (hlast : n.iNum ≤ sb.sNinodes) (hbit : inodeBit s n.iDev n.iNum ≠ none) :
    ∃ t, freeInode i s = some ((), t) := by
  subst hn
  rw [inodeBit, hsb, Option.bind_some, mapBit] at hbit
  have hsuper : Fs.getSuper (s.inodeTable i).iDev s = some (sb, s) := by
    rw [Fs.getSuper, hsb]
    rfl
  rw [freeInode, bind_of_eq (a := s.inodeTable i) (t := s) rfl, if_neg (getSuper_dev hsb),
    if_neg (by simpa using hcount), if_neg (by simpa using hlinks), bind_of_eq hsuper,
    if_neg (by omega)]
  cases hslot : sb.sImap ((s.inodeTable i).iNum / 8192) with
  | none =>
    rw [hslot] at hbit
    exact absurd rfl hbit
  | some bh => exact ⟨_, rfl⟩

/-- The next `free_inode` of the inode gives back the maps that were there before. -/
def Restores (s : Fs) (dev num i : Nat) (t : Fs) : Prop :=
  ∀ n : MInode, n.iDev = dev → n.iNum = num → n.iCount ≤ 1 → n.iNlinks = 0 →
    ∃ u, freeInode i { t with inodeTable := Function.update t.inodeTable i n } = some ((), u) ∧
      ∀ d k, inodeBit u d k = inodeBit s d k

theorem Taken.restores {i num : Nat} (hh : Held sbs R) (hs : t.superBlock = sbs)
    (hr : Ready t.cache R) (hsuper : s.superBlock = sbs) (h0 : inodeBit s dev 0 ≠ some false)
    (h : Taken s dev num i t) : Restores s dev num i t := by
  rintro n rfl rfl hcount hlinks
  obtain ⟨sb, hsb, hlast⟩ := h.last
  have hself : (Function.update t.inodeTable i n) i = n := Function.update_self ..
  have hset : inodeBit t n.iDev n.iNum ≠ none := by
    rw [h.bits, withBit, if_pos ⟨rfl, rfl⟩]
    exact Option.some_ne_none _
  have hsb' : getSuper t.superBlock n.iDev = some sb := by rw [hs, ← hsuper, hsb]
  obtain ⟨u, hu⟩ :=
    @freeInode_some { t with inodeTable := Function.update t.inodeTable i n } i n sb hself
      hsb' hcount hlinks
    (h.first h0) hlast hset
  refine ⟨u, hu, fun d k => ?_⟩
  have hsteady : Steady sbs R (inodeBit t) { t with
    inodeTable := Function.update t.inodeTable i n } :=
    ⟨hs, hr, fun _ _ => rfl⟩
  obtain ⟨-, -, -, hfreed⟩ := freeInode_spec hh hsteady hself hu
  rw [if_neg (getSuper_dev hsb)] at hfreed
  rw [hfreed.bits d k, withBit]
  split
  next hk => rw [hk.1, hk.2, h.free]
  next hk =>
    refine (h.bits d k).trans ?_
    rw [withBit, if_neg hk]

end

/-! Runs of the two functions. -/

/-- `live` are the inodes that `new_inode` has returned and that have not been freed since. -/
structure St where
  fs : Fs
  live : List (Nat × Nat)

/-- Between the calls the callers change the inodes that they hold. -/
inductive Call
  | newInode (dev : Nat) (creds : Creds)
  | freeInode (i : Nat)
  | setInode (i : Nat) (n : MInode)

def step (disk : Cache.Disk) : Call → St → Option St
  | .newInode dev creds, s => (newInode disk dev creds s.fs).map fun r =>
    ⟨r.2, (r.1.map fun i => (dev, (r.2.inodeTable i).iNum)).toList ++ s.live⟩
  | .freeInode i, s => (freeInode i s.fs).map fun r =>
    ⟨r.2, s.live.filter (· ≠ ((s.fs.inodeTable i).iDev, (s.fs.inodeTable i).iNum))⟩
  | .setInode i n, s =>
    some { s with fs := { s.fs with inodeTable := Function.update s.fs.inodeTable i n } }

/-- What the calls promise about the device, for the state they start from. -/
def CallSound (disk : Cache.Disk) (dev : Nat) (s : St) : Call → Prop
  | .newInode d creds => d = dev → ∀ r t, newInode disk d creds s.fs = some (r, t) →
    (∀ i, r = some i → ∃ num, 1 ≤ num ∧ Taken s.fs d num i t ∧ (d, num) ∉ s.live ∧
      Restores s.fs d num i t) ∧
    (r = none → Released s.fs t) ∧ (r = none ↔ Exhausted s.fs d)
  | .freeInode i => ∀ t, freeInode i s.fs = some ((), t) →
    t.inodeTable = Function.update s.fs.inodeTable i zeroInode ∧
    if (s.fs.inodeTable i).iDev = 0 then ∀ d k, inodeBit t d k = inodeBit s.fs d k
    else Freed s.fs (s.fs.inodeTable i).iDev (s.fs.inodeTable i).iNum t ∧
      ((s.fs.inodeTable i).iDev = dev → (dev, (s.fs.inodeTable i).iNum) ∈ s.live →
        inodeBit s.fs dev (s.fs.inodeTable i).iNum = some true)
  | .setInode _ _ => True

/-- Inodes that are not freed stay allocated. -/
structure RunInv (sbs : Nat → SuperBlock) (dev : Nat) (R : Multiset Ref) (s : St) : Prop where
  supers : s.fs.superBlock = sbs
  ready : Ready s.fs.cache R
  zero : inodeBit s.fs dev 0 ≠ some false
  live : ∀ n, (dev, n) ∈ s.live → inodeBit s.fs dev n = some true

section

variable {disk : Cache.Disk} {sbs : Nat → SuperBlock} {R : Multiset Ref} {dev : Nat}

theorem RunInv.steady {s : St} (h : RunInv sbs dev R s) : Steady sbs R (inodeBit s.fs) s.fs :=
  ⟨h.supers, h.ready, fun _ _ => rfl⟩

theorem callSound (hh : Held sbs R) {s : St} {a : Call} (hi : RunInv sbs dev R s) :
    CallSound disk dev s a := by
  cases a with
  | newInode d creds =>
    rintro rfl r t he
    obtain ⟨hs, hr, hcases⟩ := newInode_spec hh hi.steady he
    rcases hcases with ⟨i, num, rfl, ht⟩ | ⟨rfl, hex, hrel⟩
    · have hpos := ht.first hi.zero
      have hsome (hn : some i = none) : False := Option.some_ne_none i hn
      refine ⟨fun k hk => ?_, fun hn => (hsome hn).elim, fun hn => (hsome hn).elim, fun hex => ?_⟩
      · cases hk
        refine ⟨num, hpos, ht, fun hlive => ?_, ht.restores hh hs hr hi.supers hi.zero⟩
        have hused := hi.live num hlive
        rw [ht.free] at hused
        cases hused
      · obtain ⟨sb, hsb, hlast⟩ := ht.last
        exact absurd ht.free (hex sb hsb num hpos hlast)
    · exact ⟨fun i hn => absurd hn.symm (Option.some_ne_none i), fun _ => hrel,
        fun _ => hex, fun _ => rfl⟩
  | freeInode i =>
    intro t he
    obtain ⟨-, -, htable, hcases⟩ := freeInode_spec hh hi.steady rfl he
    refine ⟨htable, ?_⟩
    split
    next h0 => rwa [if_pos h0] at hcases
    next h0 =>
      rw [if_neg h0] at hcases
      exact ⟨hcases, fun _ => hi.live _⟩
  | setInode i n => exact trivial

theorem step_inv (hh : Held sbs R) {s t : St} {a : Call} (hi : RunInv sbs dev R s)
    (h : step disk a s = some t) : RunInv sbs dev R t := by
  cases a with
  | newInode d creds =>
    obtain ⟨⟨r, u⟩, he, rfl⟩ := Option.map_eq_some_iff.mp h
    obtain ⟨hs, hr, hcases⟩ := newInode_spec hh hi.steady he
    rcases hcases with ⟨i, num, rfl, ht⟩ | ⟨rfl, -, hrel⟩
    · have hkeep (n : Nat) (hn : inodeBit s.fs dev n ≠ some false) : inodeBit u dev n =
        inodeBit s.fs dev n := by
        rw [ht.bits, withBit, if_neg]
        rintro ⟨rfl, rfl⟩
        exact hn ht.free
      refine ⟨hs, hr, by rw [hkeep 0 hi.zero]; exact hi.zero, fun n hn => ?_⟩
      rcases List.mem_append.mp hn with hn | hn
      · obtain ⟨rfl, rfl⟩ := Prod.mk.inj (List.mem_singleton.mp hn)
        rw [ht.bits, withBit, if_pos ⟨rfl, ht.named.2⟩]
      · have hused := hi.live n hn
        rw [hkeep n (by rw [hused]; decide), hused]
    · exact ⟨hs, hr, by rw [hrel.bits]; exact hi.zero,
        fun n hn => by rw [hrel.bits]; exact hi.live n hn⟩
  | freeInode i =>
    obtain ⟨⟨_, u⟩, he, rfl⟩ := Option.map_eq_some_iff.mp h
    obtain ⟨hs, hr, -, hcases⟩ := freeInode_spec hh hi.steady rfl he
    have hkeep (n : Nat)
        (hn : 1 ≤ (s.fs.inodeTable i).iNum → (dev, n) ≠
          ((s.fs.inodeTable i).iDev, (s.fs.inodeTable i).iNum)) :
        inodeBit u dev n = inodeBit s.fs dev n := by
      split at hcases
      next => exact hcases dev n
      next =>
        rw [hcases.bits, withBit, if_neg]
        exact fun hc => hn hcases.first (Prod.ext hc.1 hc.2)
    refine ⟨hs, hr, ?_, fun n hn => ?_⟩
    · rw [hkeep 0 fun hpos hc => absurd (Prod.mk.inj hc).2 (by omega)]
      exact hi.zero
    · obtain ⟨hn, hne⟩ := List.mem_filter.mp hn
      rw [hkeep n fun _ => of_decide_eq_true hne]
      exact hi.live n hn
  | setInode i n =>
    cases h
    exact ⟨hi.supers, hi.ready, hi.zero, hi.live⟩

/-- Along every run that does not panic, `new_inode` and `free_inode` do what they promise. -/
theorem inodes_sound (hh : Held sbs R) {s : St} (hs : s.fs.superBlock = sbs)
    (hr : Ready s.fs.cache R) (h0 : inodeBit s.fs dev 0 ≠ some false) (hlive : s.live = [])
    (as : List Call) : Run.Meets (step disk) (CallSound disk dev) as s := by
  have hi : RunInv sbs dev R s :=
    ⟨hs, hr, h0, by rw [hlive]; exact fun _ hn => absurd hn List.not_mem_nil⟩
  clear hs hr h0 hlive
  induction as generalizing s with
  | nil => exact trivial
  | cons a as ih => exact fun t ht => ⟨callSound hh hi, ih (step_inv hh hi ht)⟩

end

def mapSuper (bh : Nat) : SuperBlock :=
  { smallSuper bh with sImap := fun i => if i = 0 then some bh else none, sZmap := fun _ => none }

theorem held_mapSuper (bh : Nat) : Held (fun _ => mapSuper bh) (⟨bh, 0x301, 2⟩ ::ₘ 0) := by
  intro dev sb k b hs hk
  obtain ⟨rfl, rfl⟩ := getSuper_const hs
  simp only [mapSuper] at hk
  split at hk
  next hk0 =>
    obtain rfl := Option.some.inj hk
    subst hk0
    exact ⟨by decide, (by decide : 0 < 1), Multiset.mem_cons_self _ _⟩
  next => cases hk

theorem inodes_sound_small : ∃ bh s, Run.Meets (step noDisk) (CallSound noDisk 0x301)
    [.newInode 0x301 ⟨0, 0⟩, .setInode 1 { zeroInode with iDev := 0x301, iNum := 1, iCount := 1 },
      .freeInode 1] s ∧
    s.fs.superBlock 0 = mapSuper bh := by
  obtain ⟨bh, c, -, hgot⟩ := @getblk_bufferInit 0x110000 (by decide) blank 0x301 (by decide) 2
  have hr : Ready (setMapBit bh 0 c) (⟨bh, 0x301, 2⟩ ::ₘ 0) :=
    hgot.modify bh (keepsShape_data _) (fun _ => rfl) fun _ hl => hl
  have hzero : inodeBit ⟨setMapBit bh 0 c, fun _ => zeroInode, 0, fun _ => mapSuper bh,
    []⟩ 0x301 0 ≠ some false := by
    have hsuper : getSuper (fun _ => mapSuper bh) 0x301 = some (mapSuper bh) := rfl
    have hslot : (mapSuper bh).sImap (0 / 8192) = some bh := rfl
    rw [inodeBit, hsuper, Option.bind_some, mapBit, hslot, Option.map_some, setMapBit,
      modify_buf, if_pos rfl, getLsbD_setBit (by decide)]
    simp
  exact ⟨bh, ⟨_, []⟩, inodes_sound (held_mapSuper bh) rfl hr hzero rfl _, rfl⟩

end Gpos.Imap
