import Gpos.FsThreads
import Gpos.InodeDevices
import Mathlib.Data.Multiset.Count

/-! The references that the threads hold: each is counted in its slot. -/

namespace Gpos.Sleeping

open Fs Cache WriteBack Thread Imap

/-- References to slots. With `true` the slot is known to have a device. -/
abbrev Refs := Multiset (Nat × Bool)

def uses (r : Refs) (i : Nat) : Nat := r.countP fun e => e.1 = i

/-- A slot that is referred to keeps its device. -/
structure Good (r : Refs) (s : Fs) : Prop where
  backed : Backed s
  count : ∀ i, (s.inodeTable i).iCount.toNat = uses r i
  named : ∀ i, (i, true) ∈ r → (s.inodeTable i).iDev ≠ 0

/-- Every inode can get one more reference. -/
def Room (s : Fs) : Prop := ∀ i, (s.inodeTable i).iCount ≠ BitVec.allOnes 16

theorem uses_cons_self (r : Refs) (i : Nat) (b : Bool) : uses ((i, b) ::ₘ r) i = uses r i + 1 :=
  Multiset.countP_cons_of_pos r rfl

theorem uses_cons_ne (r : Refs) {i j : Nat} (b : Bool) (h : j ≠ i) :
    uses ((i, b) ::ₘ r) j = uses r j := Multiset.countP_cons_of_neg r fun he => h he.symm

theorem uses_pos {r : Refs} {i : Nat} {b : Bool} (h : (i, b) ∈ r) : 0 < uses r i :=
  Multiset.countP_pos.mpr ⟨(i, b), h, rfl⟩

theorem mem_of_mem_cons {r : Refs} {i j : Nat} {b : Bool} (h : j ≠ i)
    (hm : (j, true) ∈ (i, b) ::ₘ r) : (j, true) ∈ r :=
  (Multiset.mem_cons.mp hm).resolve_left fun he => h (congrArg Prod.fst he)

section

variable {α β : Type} {C : Fs → Prop} {r r' : Refs} {s t : Fs} {i : Nat} {b : Bool}

theorem Good.congr (h : Good r s) (ht : t.inodeTable = s.inodeTable) : Good r t := by
  refine ⟨fun i => ?_, fun i => ?_, fun i hi => ?_⟩ <;> rw [ht]
  · exact h.backed i
  · exact h.count i
  · exact h.named i hi

/-- One slot changes, and the references to it. -/
theorem Good.update (h : Good r s) {n : MInode}
    (ht : t.inodeTable = Function.update s.inodeTable i n) (hset : Settled n)
    (hcount : n.iCount.toNat = uses r' i) (hnamed : (i, true) ∈ r' → n.iDev ≠ 0)
    (hother : ∀ j, j ≠ i → uses r' j = uses r j ∧ ((j, true) ∈ r' → (j, true) ∈ r)) :
    Good r' t := by
  have hat (j : Nat) (hj : j ≠ i) : t.inodeTable j = s.inodeTable j := by
    rw [ht, Function.update_of_ne hj]
  have hself : t.inodeTable i = n := by rw [ht, Function.update_self]
  refine ⟨fun j => ?_, fun j => ?_, fun j hm => ?_⟩ <;> by_cases hj : j = i
  · rwa [hj, hself]
  · rw [hat j hj]
    exact h.backed j
  · rwa [hj, hself]
  · rw [hat j hj, (hother j hj).1]
    exact h.count j
  · subst hj
    rw [hself]
    exact hnamed hm
  · rw [hat j hj]
    exact h.named j ((hother j hj).2 hm)

/-! The parts that leave the references alone. -/

theorem part_of_table {x : Program Fs α} (h : Program.Keeps (fun s : Fs => s.inodeTable) x) :
    Part C Good r x fun _ r' => r' = r :=
  fun _ s a t _ hs ht => ⟨r, hs.congr (h s a t ht), rfl⟩

theorem part_newBlock (dev : Nat) :
    Part C Good r (Fs.newBlock dev) fun _ r' => r' = r ∧ dev ≠ 0 :=
  fun _ s z t _ hs ht => ⟨r, hs.congr (table_onCache _ s z t ht), rfl,
    (ensures_newBlock (fun _ => True) dev s z t trivial ht).2⟩

/-- A slot that has a device when it is read has it as long as it is referred to. -/
theorem part_inode_mark (i : Nat) (b : Bool) : Part C Good ((i, b) ::ₘ r) (inode i) fun n r' =>
    ∃ b', b ≤ b' ∧ r' = (i, b') ::ₘ r ∧ Settled n ∧ (n.iDev ≠ 0 → b' = true) := by
  intro f s a t _ hs ht
  cases ht
  have hb : b = true → (s.inodeTable i).iDev ≠ 0 := by
    rintro rfl
    exact hs.named i (by rw [Multiset.cons_add]; exact Multiset.mem_cons_self _ _)
  refine ⟨(i, decide ((s.inodeTable i).iDev ≠ 0)) ::ₘ r,
    ⟨hs.backed, fun j => (hs.count j).trans ?_, fun j hj => ?_⟩,
    _, fun h => decide_eq_true (hb h), rfl, hs.backed i, decide_eq_true⟩
  · rw [Multiset.cons_add, Multiset.cons_add]
    by_cases hji : j = i
    · rw [hji, uses_cons_self, uses_cons_self]
    · rw [uses_cons_ne _ _ hji, uses_cons_ne _ _ hji]
  · rw [Multiset.cons_add, Multiset.mem_cons] at hj
    rcases hj with he | hj
    · obtain ⟨rfl, hd⟩ := Prod.mk.inj he
      exact of_decide_eq_true hd.symm
    · exact hs.named j (by rw [Multiset.cons_add]; exact Multiset.mem_cons_of_mem hj)

theorem part_modify (i : Nat) {f : MInode → MInode} (hcount : ∀ n, (f n).iCount = n.iCount)
    (hdev : ∀ n, (f n).iDev = n.iDev) (h : Tame f ∨ (i, true) ∈ r) :
    Part C Good r (modifyInode i f) fun _ r' => r' = r := by
  intro g s a t _ hs ht
  cases ht
  refine ⟨r, hs.update rfl ?_ ?_ (fun hi => ?_) (fun j _ => ⟨rfl, id⟩), rfl⟩
  · rcases h with htame | hi
    · exact htame _ (hs.backed i)
    · intro h0
      rw [hdev] at h0
      exact absurd h0 (hs.named i (Multiset.mem_add.mpr (.inl hi)))
  · rw [hcount]
    exact hs.count i
  · rw [hdev]
    exact hs.named i hi

/-! The parts that take or give a reference. -/

theorem part_dropCount (i : Nat) (b : Bool) :
    Part C Good ((i, b) ::ₘ r) (dropCount i) fun _ r' => r' = r := by
  intro f s a t _ hs ht
  cases ht
  have hc := hs.count i
  rw [Multiset.cons_add] at hs hc
  rw [uses_cons_self] at hc
  refine ⟨r, hs.update rfl (tame_count (fun n => n.iCount - 1) _ (hs.backed i)) (toNat_drop hc)
    (fun hi => ?_) (fun j hj => ⟨(uses_cons_ne _ _ hj).symm, Multiset.mem_cons_of_mem⟩), rfl⟩
  exact hs.named i (Multiset.mem_cons_of_mem hi)

theorem Good.raise (hs : Good r s) (hroom : Room s) {u : Unit}
    (ht : raiseCount i s = some (u, t)) : Good ((i, false) ::ₘ r) t := by
  cases ht
  refine hs.update rfl (tame_count (fun n => n.iCount + 1) _ (hs.backed i)) ?_ (fun hi => ?_)
    fun j hj => ⟨uses_cons_ne _ _ hj, mem_of_mem_cons hj⟩
  · rw [uses_cons_self, ← hs.count i]
    exact toNat_raise (hroom i)
  · exact hs.named i ((Multiset.mem_cons.mp hi).resolve_left fun he =>
      Bool.noConfusion (congrArg Prod.snd he))

theorem part_raiseCount (i : Nat) :
    Part Room Good r (raiseCount i) fun _ r' => r' = (i, false) ::ₘ r := by
  intro f s a t hroom hs ht
  refine ⟨_, ?_, rfl⟩
  rw [Multiset.cons_add]
  exact hs.raise hroom ht

/-! The threads that leave the references alone. -/

/-- The thread ends with the references that it starts with. -/
def Neutral (x : Thread Fs α) : Prop := ∀ r, Ensures Room Good x r fun _ r' => r' = r

theorem Neutral.bind {x : Thread Fs β} {f : β → Thread Fs α} (hx : Neutral x)
    (hf : ∀ b, Neutral (f b)) : Neutral (x >>= f) :=
  fun r => (hx r).andThen fun b => hf b r

theorem Neutral.pure (a : α) : Neutral (pure a) := fun _ => rfl

theorem Neutral.failure : Neutral (liftM (failure : Program Fs α)) := fun _ => .failure

theorem Neutral.ite {p : Prop} [Decidable p] {x y : Thread Fs α} (hx : Neutral x)
    (hy : Neutral y) : Neutral (if p then x else y) :=
  fun r => .ite (fun _ => hx r) fun _ => hy r

theorem neutral_of_table {x : Program Fs α} (h : Program.Keeps (fun s : Fs => s.inodeTable) x) :
    Neutral (liftM x) := fun _ => .lift (part_of_table h)

theorem neutral_inode (i : Nat) : Neutral (liftM (inode i)) :=
  neutral_of_table (Program.Keeps.read _)

theorem neutral_modify (i : Nat) {f : MInode → MInode} (hcount : ∀ n, (f n).iCount = n.iCount)
    (hdev : ∀ n, (f n).iDev = n.iDev) (h : Tame f) : Neutral (liftM (modifyInode i f)) :=
  fun _ => .lift (part_modify i hcount hdev (.inl h))

theorem part_lockInode (i : Nat) : Part C Good r (lockInode i) fun _ r' => r' = r :=
  (part_of_table (table_wait i)).andThen fun _ =>
    part_modify i (fun _ => rfl) (fun _ => rfl) (.inl tame_lock)

theorem neutral_unlockInode (i : Nat) : Neutral (liftM (unlockInode i)) :=
  neutral_modify i (fun _ => rfl) (fun _ => rfl) tame_unlock

variable {disk : Cache.Disk} {rounds : Nat}

theorem neutral_writeInode (i : Nat) : Neutral (writeInode disk i) := by
  have hlock : Neutral (liftM (lockInode i)) := fun _ => .lift (part_lockInode i)
  refine hlock.bind fun _ => (neutral_inode i).bind fun n => .ite (neutral_unlockInode i) ?_
  refine (neutral_of_table (table_getSuper n.iDev)).bind fun sb =>
    (neutral_of_table (table_onCache _)).bind fun x => ?_
  cases x with
  | none => exact .failure
  | some bh =>
    exact (neutral_inode i).bind fun m => (neutral_of_table (table_onCache _)).bind fun _ =>
      (neutral_modify i (by intro; rfl) (by intro; rfl) tame_clean).bind fun _ =>
      (neutral_of_table (table_onCache _)).bind fun _ => neutral_unlockInode i

theorem neutral_flushLoop (i n : Nat) : Neutral (flushLoop disk i n) := by
  induction n with
  | zero => exact .failure
  | succ n ih =>
    exact (neutral_inode i).bind fun m => .ite ((neutral_writeInode i).bind fun _ =>
      (neutral_of_table (table_wait i)).bind fun _ => ih) (.pure ())

/-! `iput` -/

theorem makes_freeInode (i : Nat) : Program.Makes (fun s : Fs => s.inodeTable) (freeInode i)
    fun table => Function.update table i zeroInode := by
  have hclear : Program.Makes (fun s : Fs => s.inodeTable) (clearInode i)
      fun table => Function.update table i zeroInode := by
    intro s a t h
    cases h
    rfl
  refine (Program.Keeps.read _).thenMakes fun n => .ite hclear (.ite .failure (.ite .failure
    ((table_getSuper n.iDev).thenMakes fun sb => .ite .failure ?_)))
  split
  · exact .failure
  · exact (table_onCache _).thenMakes fun _ => hclear

/-- A slot is given up by the one that has the last reference. -/
theorem Good.free (hs : Good ((i, b) ::ₘ r) s) (hcount : ¬ 1 < (s.inodeTable i).iCount)
    (ht : t.inodeTable = Function.update s.inodeTable i zeroInode) : Good r t := by
  have hc := hs.count i
  rw [uses_cons_self] at hc
  have hnone : uses r i = 0 := by
    have hle : ¬ 1 < (s.inodeTable i).iCount.toNat := fun hlt => hcount hlt
    omega
  refine hs.update ht (fun _ => vacant_zeroInode) ?_ (fun hi => ?_) fun j hj =>
    ⟨(uses_cons_ne _ _ hj).symm, Multiset.mem_cons_of_mem⟩
  · rw [hnone]
    rfl
  · exact absurd hnone (uses_pos hi).ne'

theorem part_putStep (i : Nat) (b : Bool) : Part C Good ((i, b) ::ₘ r) (putStep i)
    fun again r' => r' = if again then (i, b) ::ₘ r else r := by
  have hdrop : Part (fun _ => True) Good ((i, b) ::ₘ r) (dropCount i >>= fun _ => pure false)
      fun again r' => r' = if again then (i, b) ::ₘ r else r :=
    (part_dropCount i b).bind fun _ _ hr => .pure hr
  intro f s a t hc hs h
  obtain ⟨n, s₀, hn, h⟩ := Program.bind_some.mp h
  cases hn
  split at h
  · exact hdrop f s a t trivial hs h
  next hcount =>
    split at h
    · obtain ⟨u, v, hfree, h⟩ := Program.bind_some.mp h
      cases h
      rw [Multiset.cons_add] at hs
      exact ⟨r, hs.free hcount (makes_freeInode i _ _ _ hfree), rfl⟩
    split at h
    · cases h
      exact ⟨_, hs, rfl⟩
    · exact hdrop f s a t trivial hs h

theorem put_putRound (i : Nat) (b : Bool) (n : Nat) :
    Ensures Room Good (putRound disk i n) ((i, b) ::ₘ r) fun _ r' => r' = r := by
  induction n with
  | zero => exact .failure
  | succ n ih =>
    refine (Ensures.lift (part_putStep i b)).bind fun again r' hr => ?_
    subst hr
    refine .ite (fun hagain => ?_) fun hagain => ?_
    · rw [if_pos hagain]
      exact (neutral_writeInode i _).andThen fun _ =>
        (neutral_of_table (table_wait i) _).andThen fun _ => ih
    · rw [if_neg hagain]
      exact .pure rfl

theorem put_iput (i : Nat) (b : Bool) :
    Ensures Room Good (iput disk rounds i) ((i, b) ::ₘ r) fun _ r' => r' = r := by
  have htame : Tame fun n => { n with iDirt := false, iPipe := false } :=
    tame_of_same (fun _ => rfl) fun _ h => ⟨rfl, h.noReg, h.noDir, h.noZone⟩
  have hpipe : Part Room Good ((i, b) ::ₘ r) (putPipe i) fun _ r' => r' = r :=
    (part_dropCount i b).andThen fun _ => (part_of_table (Program.Keeps.read _)).andThen fun n =>
      .ite (fun _ => part_modify i (fun _ => rfl) (fun _ => rfl) (.inl htame)) fun _ => .pure rfl
  refine (neutral_of_table (table_wait i) _).andThen fun _ =>
    (neutral_inode i _).andThen fun n => ?_
  exact .ite (fun _ => .failure) fun _ => .ite (fun _ => .lift hpipe) fun _ =>
    .ite (fun _ => .lift (part_dropCount i b)) fun _ => put_putRound i b rounds

/-! `get_empty_inode` -/

/-- What is done with a slot that nobody else refers to. -/
def Fresh (act : Nat → Program Fs α) (Q : α → Refs → Prop) : Prop :=
  ∀ i f s a t, Good ((i, false) ::ₘ f) s → uses f i = 0 → act i s = some (a, t) →
    ∃ r', Good (r' + f) t ∧ Q a r'

section

variable {act : Nat → Program Fs α} {Q : α → Refs → Prop}

theorem Good.take (hs : Good r s) (h0 : (s.inodeTable i).iCount = 0)
    (ht : t.inodeTable = Function.update s.inodeTable i ({ zeroInode with iCount := 1 })) :
    Good ((i, false) ::ₘ r) t ∧ uses r i = 0 := by
  have hnone : uses r i = 0 := by rw [← hs.count i, h0]; rfl
  refine ⟨hs.update ht (fun _ => ⟨rfl, rfl, rfl, fun _ => rfl⟩) ?_ (fun hi => ?_) fun j hj =>
    ⟨uses_cons_ne _ _ hj, mem_of_mem_cons hj⟩, hnone⟩
  · rw [uses_cons_self, hnone]
    rfl
  · rcases Multiset.mem_cons.mp hi with he | hi
    · cases he
    · exact absurd hnone (uses_pos hi).ne'

theorem part_takeStep (hact : Fresh act Q) (i : Nat) :
    Part C Good r (takeStep act i) fun o r' =>
      o.elim (r' = r) fun a => ∃ r₁, Q a r₁ ∧ r' = r₁ + r := by
  intro f s o t _ hs h
  obtain ⟨n, s₀, hn, h⟩ := Program.bind_some.mp h
  cases hn
  split at h
  next h0 =>
    obtain ⟨_, s₁, hclear, h⟩ := Program.bind_some.mp h
    cases hclear
    obtain ⟨_, s₂, hone, h⟩ := Program.bind_some.mp h
    obtain ⟨a, s₃, ha, h⟩ := Program.bind_some.mp h
    cases h
    have htable : s₂.inodeTable =
        Function.update s.inodeTable i ({ zeroInode with iCount := 1 }) := by
      cases hone
      simp
    obtain ⟨hgood, hnone⟩ := hs.take h0 htable
    obtain ⟨r₁, hr₁, hq⟩ := hact i _ _ _ _ hgood hnone ha
    exact ⟨r₁ + r, by rwa [add_assoc], r₁, hq, rfl⟩
  next =>
    cases h
    exact ⟨r, hs, rfl⟩

theorem empty_emptyLoop (hact : Fresh act Q) (n : Nat) :
    Ensures Room Good (emptyLoop disk rounds act n) r fun a r' => ∃ r₁, Q a r₁ ∧ r' = r₁ + r := by
  have hpick : Program.Keeps (fun s : Fs => s.inodeTable) pickInode := by
    intro s a t h
    cases h
    rfl
  induction n with
  | zero => exact .failure
  | succ n ih =>
    refine (neutral_of_table hpick _).andThen fun x => ?_
    cases x with
    | none => exact .failure
    | some i =>
      refine (neutral_of_table (table_wait i) _).andThen fun _ =>
        (neutral_flushLoop i rounds _).andThen fun _ =>
        (Ensures.lift (part_takeStep hact i)).bind fun o r' hr => ?_
      cases o with
      | none =>
        obtain rfl : r' = r := hr
        exact ih
      | some a => exact .pure hr

end

theorem fresh_pure : Fresh (fun i => pure i) fun i r' => r' = {(i, false)} := by
  intro i f s a t hs _ h
  cases h
  exact ⟨{(i, false)}, hs, rfl⟩

/-- The new inode has a device. -/
theorem fresh_claimInode (dev : Nat) (creds : Creds) :
    Fresh (claimInode dev creds) fun x r' => r' = {x} := by
  intro i f s x t hs hnone h
  obtain ⟨sb, s₁, hsuper, h⟩ := Program.bind_some.mp h
  have hdev : dev ≠ 0 := (ensures_getSuper (fun _ => True) dev s sb s₁ trivial hsuper).2
  have hs₁ := hs.congr (table_getSuper dev s sb s₁ hsuper)
  obtain ⟨found, s₂, hfound, h⟩ := Program.bind_some.mp h
  cases hfound
  dsimp only at h
  generalize Zones.searchMap sb.sImap s₁.cache 8 0 = found at h
  rcases found with _ | ⟨k, bh, j⟩
  · cases h
    exact ⟨_, hs₁, rfl⟩
  simp only at h
  split at h
  · cases h
    exact ⟨_, hs₁, rfl⟩
  obtain ⟨b, s₃, hb, h⟩ := Program.bind_some.mp h
  cases hb
  split at h
  · cases h
  obtain ⟨_, s₄, hbuf, h⟩ := Program.bind_some.mp h
  have hs₄ := hs₁.congr (table_onCache _ s₁ _ s₄ hbuf)
  obtain ⟨_, s₅, hname, h⟩ := Program.bind_some.mp h
  cases h
  cases hname
  refine ⟨{(i, true)}, hs₄.update rfl (fun h0 => absurd h0 hdev) ?_ (fun _ => hdev) fun j hj =>
    ⟨?_, fun hm => ?_⟩, rfl⟩
  · show (1 : BitVec 16).toNat = uses ((i, true) ::ₘ f) i
    rw [uses_cons_self, hnone]
    rfl
  · show uses ((i, true) ::ₘ f) j = _
    rw [uses_cons_ne _ _ hj, uses_cons_ne _ _ hj]
  · exact Multiset.mem_cons_of_mem (mem_of_mem_cons hj hm)

theorem take_getEmptyInode : Ensures Room Good (getEmptyInode disk rounds fun i => pure i) r
    fun i r' => r' = (i, false) ::ₘ r :=
  (empty_emptyLoop fresh_pure rounds).mono fun i r' h => by
    obtain ⟨r₁, rfl, rfl⟩ := h
    rfl

/-! `iget` and `new_inode` -/

theorem take_newInode (dev : Nat) (creds : Creds) :
    Ensures Room Good (newInode disk rounds dev creds) r fun o r' =>
      r' = o.elim r fun i => (i, true) ::ₘ r := by
  refine (empty_emptyLoop (fresh_claimInode dev creds) rounds).bind fun x r' h => ?_
  obtain ⟨r₁, rfl, rfl⟩ := h
  obtain ⟨i, ok⟩ := x
  refine .ite (fun hok => .pure ?_) fun _ => (put_iput i ok).bind fun _ r' hr => .pure hr
  cases hok
  rfl

theorem part_holdInode (i dev nr : Nat) : Part Room Good r (holdInode i dev nr)
    fun ok r' => r' = if ok then (i, false) ::ₘ r else r := by
  have hwait (s : Fs) (a : Unit) (t : Fs) (h : waitOnInode i s = some (a, t)) : t = s := by
    obtain ⟨n, s₀, hn, h⟩ := Program.bind_some.mp h
    cases hn
    split at h <;> cases h
    rfl
  have hread (s : Fs) (n : MInode) (t : Fs) (h : inode i s = some (n, t)) : t = s := by
    cases h
    rfl
  refine .read hwait fun _ => .read hread fun n => .ite (fun _ => ?_) fun _ => .pure rfl
  exact (part_raiseCount i).bind fun _ _ hr => .pure hr

theorem part_openInode (i dev nr : Nat) (b : Bool) :
    Part C Good ((i, b) ::ₘ r) (openInode i dev nr) fun _ r' => r' = (i, true) ::ₘ r := by
  intro f s x t _ hs h
  obtain ⟨_, s₁, hset, h⟩ := Program.bind_some.mp h
  obtain ⟨_, s₂, hlock, h⟩ := Program.bind_some.mp h
  obtain ⟨n, s₃, hn, h⟩ := Program.bind_some.mp h
  cases hn
  obtain ⟨sb, s₄, hsuper, h⟩ := Program.bind_some.mp h
  cases h
  have htable : s₂.inodeTable = Function.update s.inodeTable i
      ({ s.inodeTable i with iDev := dev, iNum := nr, iLock := true }) := by
    obtain ⟨_, s₅, hwait, hlock⟩ := Program.bind_some.mp hlock
    have h₅ : s₅.inodeTable = s₁.inodeTable := table_wait i s₁ _ s₅ hwait
    cases hlock
    cases hset
    simp [h₅]
  have hdev : dev ≠ 0 := by
    have hd := (ensures_getSuper (fun _ => True) _ s₂ sb t trivial hsuper).2
    rwa [htable, Function.update_self] at hd
  have ht : t.inodeTable = s₂.inodeTable := table_getSuper _ s₂ sb t hsuper
  rw [Multiset.cons_add] at hs
  refine ⟨(i, true) ::ₘ r, ?_, rfl⟩
  rw [Multiset.cons_add]
  refine hs.update (ht.trans htable) (fun h0 => absurd h0 hdev) ?_ (fun _ => hdev) fun j hj =>
    ⟨?_, fun hm => Multiset.mem_cons_of_mem (mem_of_mem_cons hj hm)⟩
  · rw [uses_cons_self, ← uses_cons_self _ _ b]
    exact hs.count i
  · rw [uses_cons_ne _ _ hj, uses_cons_ne _ _ hj]

theorem neutral_readInode {i : Nat} (hi : (i, true) ∈ r) (n : MInode) (sb : SuperBlock) :
    Ensures Room Good (readInode disk i n sb) r fun _ r' => r' = r := by
  refine (neutral_of_table (table_onCache _) r).andThen fun x => ?_
  cases x with
  | none => exact .failure
  | some bh =>
    have hcopy (d : Block) (k : Nat) : Part Room Good r (modifyInode i (readInodeAt d k))
        fun _ r' => r' = r := part_modify i (fun _ => rfl) (fun _ => rfl) (.inr hi)
    exact (neutral_of_table (Program.Keeps.read _) r).andThen fun b =>
      (Ensures.lift (hcopy _ _)).andThen fun _ =>
      (neutral_of_table (table_onCache _) r).andThen fun _ => neutral_unlockInode i r

theorem take_igetLoop (empty n : Nat) (b : Bool) (dev nr : Nat) :
    Ensures Room Good (igetLoop disk rounds empty n dev nr) ((empty, b) ::ₘ r)
      fun i r' => ∃ b', r' = (i, b') ::ₘ r := by
  induction n generalizing b dev nr with
  | zero => exact .failure
  | succ n ih =>
    refine (neutral_of_table (Program.Keeps.read _) _).andThen fun slot => ?_
    cases slot with
    | none =>
      exact (Ensures.lift (part_openInode empty dev nr b)).andThen fun x =>
        (neutral_readInode (Multiset.mem_cons_self _ _) x.1 x.2).bind fun _ _ hr => .pure ⟨true, hr⟩
    | some i =>
      refine (Ensures.lift (part_holdInode i dev nr)).bind fun ok r' hr => hr ▸ ?_
      refine .ite (fun hok => ?_) fun hok => ?_
      · rw [if_pos hok, Multiset.cons_swap]
        have hfound : Ensures Room Good (iput disk rounds empty >>= fun _ => pure i)
            ((empty, b) ::ₘ (i, false) ::ₘ r) fun i r' => ∃ b', r' = (i, b') ::ₘ r :=
          (put_iput empty b).bind fun _ _ hr => .pure ⟨false, hr⟩
        refine (neutral_inode i _).andThen fun m => .ite (fun _ => ?_) fun _ => hfound
        refine (neutral_of_table (Program.Keeps.read _) _).andThen fun sb => ?_
        cases sb with
        | none => exact hfound
        | some k =>
          rw [Multiset.cons_swap]
          exact (put_iput i false).andThen fun _ =>
            (neutral_of_table (Program.Keeps.read _) _).andThen fun sb => ih b sb.sDev rootIno
      · rw [if_neg hok]
        exact ih b dev nr

theorem take_iget (dev nr : Nat) : Ensures Room Good (iget disk rounds dev nr) r
    fun i r' => ∃ b, r' = (i, b) ::ₘ r :=
  .ite (fun _ => .failure) fun _ => take_getEmptyInode.bind fun empty _ hr => hr ▸
    take_igetLoop empty rounds false dev nr

/-! `_bmap` and `truncate` -/

/-- The thread keeps its reference to slot `i`, and the device that the slot is known to have. -/
def Retains (i : Nat) (x : Thread Fs α) : Prop :=
  ∀ b r, Ensures Room Good x ((i, b) ::ₘ r) fun _ r' => ∃ b', b ≤ b' ∧ r' = (i, b') ::ₘ r

theorem Neutral.retains {x : Thread Fs α} (h : Neutral x) (i : Nat) : Retains i x :=
  fun b _ => (h _).mono fun _ _ hr => ⟨b, le_rfl, hr⟩

theorem Retains.bind {x : Thread Fs β} {f : β → Thread Fs α} (hx : Retains i x)
    (hf : ∀ c, Retains i (f c)) : Retains i (x >>= f) := by
  intro b r
  refine (hx b r).bind fun c r' hr => ?_
  obtain ⟨b₁, hb₁, rfl⟩ := hr
  refine (hf c b₁ r).mono fun a r' hr => ?_
  obtain ⟨b₂, hb₂, rfl⟩ := hr
  exact ⟨b₂, hb₁.trans hb₂, rfl⟩

theorem Retains.ite {p : Prop} [Decidable p] {x y : Thread Fs α} (hx : Retains i x)
    (hy : Retains i y) : Retains i (if p then x else y) :=
  fun b r => .ite (fun _ => hx b r) fun _ => hy b r

/-- Behind `new_block` on the device of the slot the slot is known to have one. -/
theorem retains_zoneOrNew (create : Bool) (i k : Nat) : Retains i (zoneOrNew create i k) := by
  refine ((neutral_inode i).retains i).bind fun n =>
    .ite (fun b r => ?_) ((Neutral.pure _).retains i)
  refine (Ensures.lift (part_inode_mark i b)).bind fun m r' hr => ?_
  obtain ⟨b₁, hb₁, rfl, -, hdev⟩ := hr
  refine (Ensures.lift (part_newBlock m.iDev)).bind fun z r' hr => ?_
  obtain ⟨rfl, hz⟩ := hr
  obtain rfl : b₁ = true := hdev hz
  have hset : Ensures Room Good (liftM (modifyInode i fun n =>
      { n with iZone := Function.update n.iZone k z, iDirt := true, iCtime := 0 }))
      ((i, true) ::ₘ r) fun _ r' => r' = (i, true) ::ₘ r :=
    .lift (part_modify i (by intro; rfl) (by intro; rfl) (.inr (Multiset.mem_cons_self _ _)))
  have hend : Ensures Room Good (pure z) ((i, true) ::ₘ r)
      fun _ r' => ∃ b', b ≤ b' ∧ r' = (i, b') ::ₘ r := .pure ⟨true, le_top, rfl⟩
  exact .ite (fun _ => hset.andThen fun _ => hend) fun _ => hend

theorem neutral_entryOrNew (create : Bool) (i z k : Nat) :
    Neutral (entryOrNew disk create i z k) := by
  refine .ite (.pure _) ((neutral_inode i).bind fun n =>
    (neutral_of_table (table_onCache _)).bind fun x => ?_)
  cases x with
  | none => exact .pure _
  | some bh =>
    have hrelse (e : Nat) : Neutral (liftM (brelse bh) >>= fun _ => pure e) :=
      (neutral_of_table (table_onCache _)).bind fun _ => .pure e
    have hnew (dev : Nat) : Neutral (liftM (Fs.newBlock dev)) :=
      neutral_of_table fun s => table_onCache _ s
    refine (neutral_of_table (Program.Keeps.read _)).bind fun c => .ite ?_ (hrelse _)
    refine (neutral_inode i).bind fun m => (hnew m.iDev).bind fun e => ?_
    exact .ite ((neutral_of_table (table_onCache _)).bind fun _ => hrelse e) (hrelse e)

theorem retains_bmapCreate (create : Bool) (i block : Nat) :
    Retains i (bmapCreate disk create i block) := by
  have hentry (z k : Nat) : Retains i (entryOrNew disk create i z k) :=
    (neutral_entryOrNew create i z k).retains i
  refine .ite (Neutral.failure.retains i) <| .ite (retains_zoneOrNew create i block) <| .ite ?_ ?_
  · exact (retains_zoneOrNew create i 7).bind fun z => hentry z _
  · exact (retains_zoneOrNew create i 8).bind fun z => (hentry z _).bind fun e => hentry e _

theorem neutral_freeBlock (dev block : Nat) : Neutral (liftM (Fs.freeBlock dev block)) :=
  neutral_of_table (table_freeBlock dev block)

theorem neutral_freeEntries {free : Nat → Thread Fs Unit} (hfree : ∀ z, Neutral (free z))
    (bh n : Nat) : Neutral (freeEntries free bh n) := by
  induction n with
  | zero => exact .pure ()
  | succ n ih =>
    exact ih.bind fun _ => (neutral_of_table (Program.Keeps.read _)).bind fun c =>
      .ite (hfree _) (.pure ())

theorem neutral_freeIndex {free : Nat → Nat → Thread Fs Unit}
    (hfree : ∀ dev z, Neutral (free dev z)) (dev block : Nat) :
    Neutral (freeIndex disk free dev block) := by
  refine .ite ((neutral_of_table (table_onCache _)).bind fun x => ?_) (.pure ())
  cases x with
  | none => exact neutral_freeBlock dev block
  | some bh =>
    generalize 512 = n
    exact (neutral_freeEntries (hfree dev) bh n).bind fun _ =>
      (neutral_of_table (table_onCache _)).bind fun _ => neutral_freeBlock dev block

theorem neutral_freeInd (dev block : Nat) : Neutral (freeInd disk dev block) :=
  neutral_freeIndex neutral_freeBlock dev block

theorem neutral_freeDind (dev block : Nat) : Neutral (freeDind disk dev block) :=
  neutral_freeIndex neutral_freeInd dev block

theorem neutral_freeDirect {i : Nat} (hi : (i, true) ∈ r) (k : Nat) :
    Ensures Room Good (freeDirect i k) r fun _ r' => r' = r := by
  induction k with
  | zero => exact .pure rfl
  | succ k ih =>
    have hset : Ensures Room Good (liftM (modifyInode i fun n =>
        { n with iZone := Function.update n.iZone k 0 })) r fun _ r' => r' = r :=
      .lift (part_modify i (by intro; rfl) (by intro; rfl) (.inr hi))
    exact ih.andThen fun _ => (neutral_inode i r).andThen fun n =>
      .ite (fun _ => (neutral_freeBlock _ _ r).andThen fun _ => hset) fun _ => .pure rfl

/-- A file or a directory has a device. -/
theorem retains_truncate (i : Nat) : Retains i (truncate disk i) := by
  intro b r
  refine (Ensures.lift (part_inode_mark i b)).bind fun n r' hr => ?_
  obtain ⟨b₁, hb₁, rfl, hset, hdev⟩ := hr
  refine .ite (fun hmode => ?_) fun _ => .pure ⟨b₁, hb₁, rfl⟩
  have hn : n.iDev ≠ 0 := fun h0 => by
    rw [(hset h0).noReg, (hset h0).noDir] at hmode
    exact hmode.elim Bool.noConfusion Bool.noConfusion
  obtain rfl : b₁ = true := hdev hn
  have hi : (i, true) ∈ (i, true) ::ₘ r := Multiset.mem_cons_self _ _
  have hend : Ensures Room Good (liftM (modifyInode i fun n =>
      { n with
        iZone := Function.update (Function.update n.iZone 8 0) 7 0
        iSize := 0, iDirt := true, iMtime := 0, iCtime := 0 }))
      ((i, true) ::ₘ r) fun _ r' => ∃ b', b ≤ b' ∧ r' = (i, b') ::ₘ r :=
    .lift ((part_modify i (by intro; rfl) (by intro; rfl) (.inr hi)).mono
      fun _ _ hr => ⟨true, hb₁, hr⟩)
  exact (neutral_freeDirect hi 7).andThen fun _ => (neutral_inode i _).andThen fun n =>
    (neutral_freeInd _ _ _).andThen fun _ => (neutral_inode i _).andThen fun m =>
    (neutral_freeDind _ _ _).andThen fun _ => hend


/-! The directories -/

theorem Retains.keeps {x : Thread Fs α} (h : Retains i x) :
    Ensures Room Good x ((i, true) ::ₘ r) fun _ r' => r' = (i, true) ::ₘ r :=
  (h true r).mono fun _ r' hr => by
    obtain ⟨b, hb, rfl⟩ := hr
    rw [hb rfl]

theorem neutral_nextBlock (dir block : Nat) : Neutral (nextBlock disk dir block) :=
  .ite (.pure _) ((neutral_inode dir).bind fun _ => neutral_of_table (table_onCache _))

theorem retains_scanDir (dir len : Nat) (name : Name) (entries n bh de k : Nat) :
    Retains dir (scanDir disk dir len name entries n bh de k) := by
  induction n generalizing bh de k with
  | zero => exact Neutral.failure.retains dir
  | succ n ih =>
    have hdone (e : Option (Nat × Nat)) : Retains dir (pure e) := (Neutral.pure e).retains dir
    have hrelse (bh : Nat) : Retains dir (liftM (brelse bh)) :=
      (neutral_of_table (table_onCache _)).retains dir
    have hbuf (bh : Nat) : Retains dir (liftM (readBuf bh)) :=
      (neutral_of_table (Program.Keeps.read _)).retains dir
    refine .ite ((hrelse bh).bind fun _ => hdone _) (.ite ?_ ?_)
    · exact (hbuf bh).bind fun b => .ite (hdone _) (ih bh _ _)
    · refine (hrelse bh).bind fun _ => (retains_bmapCreate false dir _).bind fun block =>
        ((neutral_nextBlock dir block).retains dir).bind fun x => ?_
      cases x with
      | none => exact .ite (hdone _) (Neutral.failure.retains dir)
      | some bh' => exact (hbuf bh').bind fun b => .ite (hdone _) (ih bh' _ _)

/-- At the root of a file system the reference goes over to the directory it is mounted on. -/
theorem moves_upwards (root : Option Nat) (dir len : Nat) (name : Name) (b : Bool) :
    Ensures Room Good (upwards disk rounds root dir len name) ((dir, b) ::ₘ r)
      fun x r' => ∃ b', r' = (x.1, b') ::ₘ r := by
  have hsame (len : Nat) : Ensures Room Good (pure (dir, len)) ((dir, b) ::ₘ r)
      fun x r' => ∃ b', r' = (x.1, b') ::ₘ r := .pure ⟨b, rfl⟩
  refine .ite (fun _ => .ite (fun _ => hsame 1) fun _ => ?_) fun _ => hsame len
  refine (neutral_inode dir _).andThen fun n => .ite (fun _ => ?_) fun _ => hsame len
  refine (neutral_of_table (table_getSuper _) _).andThen fun sb => ?_
  split
  next => exact hsame len
  next mounted _ =>
    exact (put_iput dir b).andThen fun _ => (Ensures.lift (part_raiseCount mounted)).andThen
      fun _ => .pure ⟨false, rfl⟩

theorem moves_findEntry (root : Option Nat) (dir : Nat) (name : Name) (b : Bool) :
    Ensures Room Good (findEntry disk rounds root dir name) ((dir, b) ::ₘ r)
      fun x r' => ∃ b', r' = (x.1, b') ::ₘ r := by
  refine (neutral_inode dir _).andThen fun n => .ite (fun _ => .pure ⟨b, rfl⟩) fun _ => ?_
  refine (moves_upwards root dir _ name b).bind fun x r' hr => ?_
  obtain ⟨b₁, rfl⟩ := hr
  refine (neutral_inode x.1 _).andThen fun m => .ite (fun _ => .pure ⟨b₁, rfl⟩) fun _ => ?_
  refine (neutral_of_table (table_onCache _) _).andThen fun bh => ?_
  cases bh with
  | none => exact .pure ⟨b₁, rfl⟩
  | some bh =>
    refine (retains_scanDir x.1 x.2 name _ _ bh 0 0 b₁ r).bind fun e r' hr => ?_
    obtain ⟨b₂, -, rfl⟩ := hr
    exact .pure ⟨b₂, rfl⟩

theorem part_claimEntry (dir len : Nat) (name : Name) (bh de k : Nat) (hdir : (dir, true) ∈ r) :
    Part C Good r (claimEntry dir len name bh de k) fun _ r' => r' = r := by
  have hbuf {C : Fs → Prop} (f : BufferHead → BufferHead) :
      Part C Good r (modifyBuf bh f) fun _ r' => r' = r := part_of_table (table_onCache _)
  have hread {C : Fs → Prop} : Part C Good r (readBuf bh) fun _ r' => r' = r :=
    part_of_table (Program.Keeps.read _)
  have hextend : Part C Good r (extendDir dir bh de k) fun _ r' => r' = r :=
    (part_of_table (Program.Keeps.read _)).andThen fun n => .ite (fun _ => (hbuf _).andThen fun _ =>
      part_modify dir (by intro; rfl) (by intro; rfl) (.inr hdir)) fun _ => .pure rfl
  refine hextend.andThen fun _ => hread.andThen fun b => .ite (fun _ => ?_) fun _ => .pure rfl
  exact (part_modify dir (by intro; rfl) (by intro; rfl) (.inr hdir)).andThen fun _ =>
    (hbuf _).andThen fun _ => .pure rfl

theorem keeps_scanFree (dir len : Nat) (name : Name) (n bh de k : Nat) :
    Ensures Room Good (scanFree disk dir len name n bh de k) ((dir, true) ::ₘ r)
      fun _ r' => r' = (dir, true) ::ₘ r := by
  induction n generalizing bh de k with
  | zero => exact .failure
  | succ n ih =>
    have hdir : (dir, true) ∈ (dir, true) ::ₘ r := Multiset.mem_cons_self _ _
    have hclaim (bh de : Nat) : Ensures Room Good (do
        if ← claimEntry dir len name bh de k then return some (bh, de)
        else scanFree disk dir len name n bh (de + 1) (k + 1)) ((dir, true) ::ₘ r)
          fun _ r' => r' = (dir, true) ::ₘ r :=
      (Ensures.lift (part_claimEntry dir len name bh de k hdir)).andThen fun _ =>
        .ite (fun _ => .pure rfl) fun _ => ih bh _ _
    refine .ite (fun _ => hclaim bh de) fun _ =>
      (neutral_of_table (table_onCache _) _).andThen fun _ =>
      (retains_bmapCreate true dir _).keeps.andThen fun block =>
      .ite (fun _ => .pure rfl) fun _ => ?_
    refine (neutral_inode dir _).andThen fun m => (neutral_of_table (table_onCache _) _).andThen
      fun x => ?_
    cases x with
    | none => exact .failure
    | some bh' => exact hclaim bh' 0

/-- A directory with a zone has a device. -/
theorem retains_addEntry (dir : Nat) (name : Name) :
    Retains dir (addEntry disk rounds dir name) := by
  refine .ite ((Neutral.pure _).retains dir) fun b r => ?_
  refine (Ensures.lift (part_inode_mark dir b)).bind fun n r' hr => ?_
  obtain ⟨b₁, hb₁, rfl, hset, hdev⟩ := hr
  refine .ite (fun _ => .pure ⟨b₁, hb₁, rfl⟩) fun hzone => ?_
  obtain rfl : b₁ = true := hdev fun h0 => hzone ((hset h0).noZone 0)
  refine (neutral_of_table (table_onCache _) _).andThen fun x => ?_
  cases x with
  | none => exact .pure ⟨true, hb₁, rfl⟩
  | some bh => exact (keeps_scanFree dir _ name _ bh 0 0).mono fun _ _ hr => ⟨true, hb₁, hr⟩

/-! `open_namei` -/

/-- What is held behind a function that returns an inode. -/
def Returns (r : Refs) (o : Option Nat) (r' : Refs) : Prop :=
  o.elim (r' = r) fun i => ∃ b, r' = (i, b) ::ₘ r

theorem opens_walk (root : Option Nat) (names : List Name) (i : Nat) (b : Bool) :
    Ensures Room Good (walk disk rounds root names i) ((i, b) ::ₘ r) (Returns r) := by
  have hleave (i : Nat) (b : Bool) : Ensures Room Good (do
      iput disk rounds i
      return none) ((i, b) ::ₘ r) (Returns r) := (put_iput i b).bind fun _ _ hr => .pure hr
  induction names generalizing i b with
  | nil =>
    exact (neutral_inode i _).andThen fun n => .ite (fun _ => hleave i b) fun _ => .pure ⟨b, rfl⟩
  | cons name names ih =>
    refine (neutral_inode i _).andThen fun n => .ite (fun _ => hleave i b) fun _ => ?_
    refine (moves_findEntry root i name b).bind fun x r' hr => ?_
    obtain ⟨b₁, rfl⟩ := hr
    obtain ⟨dir, e⟩ := x
    cases e with
    | none => exact hleave dir b₁
    | some e =>
      refine (neutral_of_table (Program.Keeps.read _) _).andThen fun c =>
        (neutral_inode dir _).andThen fun m => (neutral_of_table (table_onCache _) _).andThen
        fun _ => (put_iput dir b₁).andThen fun _ => (take_iget _ _).bind fun i r' hr => ?_
      obtain ⟨b₂, rfl⟩ := hr
      exact ih i b₂

theorem opens_getDir (t : Task) (path : Name) :
    Ensures Room Good (getDir disk rounds t path) r (Returns r) := by
  rw [getDir]
  split
  next root pwd _ _ =>
    have hread (i : Nat) (s : Fs) (n : MInode) (s' : Fs) (h : inode i s = some (n, s')) :
        s' = s := by
      cases h
      rfl
    have hstart : Part Room Good r (startDir root pwd path)
        fun o r' => r' = o.elim r fun i => (i, false) ::ₘ r :=
      .read (hread root) fun n => .read (hread pwd) fun m => .ite (fun _ => .failure) fun _ =>
        .ite (fun _ => .pure rfl) fun _ => (part_raiseCount _).bind fun _ _ hr => .pure hr
    refine (Ensures.lift hstart).bind fun o r' hr => hr ▸ ?_
    cases o with
    | none => exact .pure rfl
    | some i => exact opens_walk t.root _ i false
  · exact .failure

theorem puts_refuse (held : List (Nat × Bool)) (e : Nat) :
    Ensures Room Good (refuse disk rounds (held.map Prod.fst) e) (held + r)
      fun x r' => x = .error e ∧ r' = r := by
  induction held with
  | nil => exact .pure ⟨rfl, zero_add r⟩
  | cons i held ih =>
    rw [← Multiset.cons_coe, Multiset.cons_add]
    exact (put_iput i.1 i.2).andThen fun _ => ih

/-- What is held behind `open_namei`. -/
def Opens (r : Refs) (x : Except Nat Nat) (r' : Refs) : Prop :=
  match x with
  | .error _ => r' = r
  | .ok i => ∃ b, r' = (i, b) ::ₘ r

theorem opens_refuse {r' : Refs} (held : List (Nat × Bool)) (e : Nat) (h : r' = held + r) :
    Ensures Room Good (refuse disk rounds (held.map Prod.fst) e) r' (Opens r) := by
  subst h
  refine (puts_refuse held e).mono fun x r' hx => ?_
  obtain ⟨rfl, rfl⟩ := hx
  rfl

theorem opens_openNew (t : Task) (dir : Nat) (name : Name) (flag mode : BitVec 32) (b : Bool) :
    Ensures Room Good (openNew disk rounds t dir name flag mode) ((dir, b) ::ₘ r) (Opens r) := by
  have hrefuse (e : Nat) : Ensures Room Good (refuse disk rounds [dir] e) ((dir, b) ::ₘ r)
      (Opens r) := opens_refuse [(dir, b)] e rfl
  refine .ite (fun _ => hrefuse enoent) fun _ => (neutral_inode dir _).andThen fun d =>
    .ite (fun _ => hrefuse eacces) fun _ => (take_newInode d.iDev _).bind fun o r' hr => ?_
  subst hr
  cases o with
  | none => exact hrefuse enospc
  | some i =>
    have hmode : Part Room Good ((i, true) ::ₘ (dir, b) ::ₘ r) (modifyInode i fun n =>
        { n with iUid := t.euid, iMode := mode.toNat, iDirt := true })
        fun _ r' => r' = (dir, b) ::ₘ (i, true) ::ₘ r :=
      (part_modify i (by intro; rfl) (by intro; rfl) (.inr (Multiset.mem_cons_self _ _))).mono
        fun _ _ hr => hr.trans (Multiset.cons_swap _ _ _)
    refine (Ensures.lift hmode).andThen fun _ =>
      (retains_addEntry dir name b _).bind fun e r' hr => ?_
    obtain ⟨b₁, -, rfl⟩ := hr
    cases e with
    | none =>
      have hlinks : Part Room Good ((dir, b₁) ::ₘ (i, true) ::ₘ r) (modifyInode i fun n =>
          { n with iNlinks := (n.iNlinks + 255) % 256 })
          fun _ r' => r' = (i, true) ::ₘ (dir, b₁) ::ₘ r :=
        (part_modify i (by intro; rfl) (by intro; rfl)
          (.inr (Multiset.mem_cons_of_mem (Multiset.mem_cons_self _ _)))).mono
          fun _ _ hr => hr.trans (Multiset.cons_swap _ _ _)
      have hheld : (i, true) ::ₘ (dir, b₁) ::ₘ r = ↑[(i, true), (dir, b₁)] + r := by
        rw [← Multiset.cons_coe, Multiset.cons_add]
        rfl
      exact (Ensures.lift hlinks).andThen fun _ =>
        opens_refuse [(i, true), (dir, b₁)] enospc hheld
    | some e =>
      exact (neutral_inode i _).andThen fun n => (neutral_of_table (table_onCache _) _).andThen
        fun _ => (neutral_of_table (table_onCache _) _).andThen fun _ =>
        (put_iput dir b₁).andThen fun _ => .pure ⟨true, rfl⟩

theorem opens_openFound (dir bh de : Nat) (flag : BitVec 32) (b : Bool) :
    Ensures Room Good (openFound disk rounds dir bh de flag) ((dir, b) ::ₘ r) (Opens r) := by
  refine (neutral_of_table (Program.Keeps.read _) _).andThen fun c =>
    (neutral_inode dir _).andThen fun d => (neutral_of_table (table_onCache _) _).andThen fun _ =>
    (put_iput dir b).andThen fun _ => .ite (fun _ => opens_refuse [] eexist (zero_add r).symm)
    fun _ => (take_iget _ _).bind fun i r' hr => ?_
  obtain ⟨b₁, rfl⟩ := hr
  have htame : Tame fun n => { n with iAtime := 0 } :=
    tame_of_same (fun _ => rfl) fun _ h => ⟨h.clean, h.noReg, h.noDir, h.noZone⟩
  refine (neutral_inode i _).andThen fun n => .ite (fun _ => opens_refuse [(i, b₁)] eperm rfl)
    fun _ => (neutral_modify i (by intro; rfl) (by intro; rfl) htame _).andThen fun _ =>
    .ite (fun _ => ?_) fun _ => .pure ⟨b₁, rfl⟩
  refine (retains_truncate i b₁ r).bind fun _ r' hr => ?_
  obtain ⟨b₂, -, rfl⟩ := hr
  exact .pure ⟨b₂, rfl⟩

theorem opens_openNamei (t : Task) (path : Name) (flag mode : BitVec 32) :
    Ensures Room Good (openNamei disk rounds t path flag mode) r (Opens r) := by
  refine (opens_getDir t path).bind fun o r' hr => ?_
  cases o with
  | none => exact .pure hr
  | some dir =>
    obtain ⟨b, rfl⟩ := hr
    refine .ite (fun _ => .ite (fun _ => .pure ⟨b, rfl⟩) fun _ =>
      opens_refuse [(dir, b)] eisdir rfl) fun _ =>
      (moves_findEntry t.root dir _ b).bind fun x r' hr => ?_
    obtain ⟨b₁, rfl⟩ := hr
    obtain ⟨dir, e⟩ := x
    cases e with
    | none => exact opens_openNew t dir _ _ _ b₁
    | some e => exact opens_openFound dir e.1 e.2 _ b₁

end

end Gpos.Sleeping
