import Gpos.ReferenceCounts
import Gpos.Run

/-! The mount of the root, and the counts over runs of system calls. -/

namespace Gpos

namespace Fs

open Program Zones

/-- The inode table is the one given, and no super block names an inode. -/
def Untouched (table : Nat → MInode) (s : Fs) : Prop :=
  s.inodeTable = table ∧ ∀ n, (s.superBlock n).sIsup = none ∧ (s.superBlock n).sImount = none

section

variable {α : Type} {table : Nat → MInode} {disk : Cache.Disk}

theorem untouched_onCache (f : Cache → Option (α × Cache)) :
    Ensures (Untouched table) (onCache f) fun _ => Untouched table := by
  intro s a t hs h
  obtain ⟨⟨b, c⟩, -, he⟩ := Option.map_eq_some_iff.mp h
  cases he
  exact hs

theorem untouched_read (g : Fs → α) :
    Ensures (Untouched table) (fun s => some (g s, s) : Program Fs α) fun _ => Untouched table := by
  intro s a t hs h
  cases h
  exact hs

theorem untouched_modifySuper (k : Nat) {f : SuperBlock → SuperBlock}
    (hf : ∀ sb, sb.sIsup = none ∧ sb.sImount = none →
      (f sb).sIsup = none ∧ (f sb).sImount = none := by exact fun _ h => h) :
    Ensures (Untouched table) (modifySuper k f) fun _ => Untouched table := by
  intro s a t hs h
  cases h
  refine ⟨hs.1, fun n => ?_⟩
  show (Function.update s.superBlock k (f (s.superBlock k)) n).sIsup = none ∧
    (Function.update s.superBlock k (f (s.superBlock k)) n).sImount = none
  by_cases hn : n = k
  · subst hn
    rw [Function.update_self]
    exact hf _ (hs.2 n)
  · rw [Function.update_of_ne hn]
    exact hs.2 n

theorem untouched_forgetSuper (k : Nat) :
    Ensures (Untouched table) (forgetSuper k) fun r s => Untouched table s ∧ ∀ p ∈ r, p < nrSuper :=
  (untouched_modifySuper k).bind fun _ => .pure fun _ h => ⟨h, fun _ hp => nomatch hp⟩

theorem untouched_releaseSlots (map : Nat → Option Nat) (n : Nat) :
    Ensures (Untouched table) (releaseSlots map n) fun _ => Untouched table := by
  induction n with
  | zero => exact .pure fun _ h => h
  | succ n ih =>
    refine ih.bind fun _ => ?_
    cases map n with
    | none => exact .pure fun _ h => h
    | some bh => exact untouched_onCache _

theorem untouched_setFirst (map : Nat → Option Nat) :
    Ensures (Untouched table) (setFirst map) fun _ => Untouched table := by
  unfold setFirst
  split
  · exact .failure
  · exact untouched_onCache _

theorem untouched_readMap {setSlot : Nat → Option Nat → Program Fs Unit}
    (hset : ∀ i x, Ensures (Untouched table) (setSlot i x) fun _ => Untouched table)
    (dev n i block : Nat) :
    Ensures (Untouched table) (readMap disk setSlot dev n i block) fun _ => Untouched table := by
  induction n generalizing i block with
  | zero => exact .pure fun _ h => h
  | succ n ih =>
    refine .ite .failure ((untouched_onCache _).bind fun x => (hset i x).bind fun _ =>
      .ite (ih _ _) ?_)
    exact .pure fun _ h => h

theorem untouched_readMaps {k : Nat} (hk : k < nrSuper) (dev : Nat) :
    Ensures (Untouched table) (readMaps disk k dev) fun r s => Untouched table s ∧
      ∀ p ∈ r, p < nrSuper := by
  refine (untouched_modifySuper k).bind fun _ => (untouched_read _).bind fun sb => ?_
  refine (untouched_readMap (fun i x => untouched_modifySuper k) _ _ _ _).bind fun b => ?_
  refine (untouched_readMap (fun i x => untouched_modifySuper k) _ _ _ _).bind fun b =>
    (untouched_read _).bind fun sb => ?_
  refine .ite ?_ ?_
  · exact (untouched_releaseSlots _ _).bind fun _ => (untouched_releaseSlots _ _).bind fun _ =>
      untouched_forgetSuper k
  · refine (untouched_setFirst _).bind fun _ => (untouched_setFirst _).bind fun _ =>
      .pure fun _ h => ⟨h, fun p hp => ?_⟩
    rw [← Option.some.inj hp]
    exact hk

theorem slotOf_same {dev : Nat} {x : Option Nat} {s t : Fs} (h : slotOf dev s = some (x, t)) :
    t = s :=
  (Prod.mk.inj (Option.some.inj h)).2.symm

theorem slotOf_lt {dev k : Nat} {s t : Fs} (h : slotOf dev s = some (some k, t)) : k < nrSuper := by
  have hk := (Prod.mk.inj (Option.some.inj h)).1
  exact List.mem_range.mp (List.mem_of_find?_eq_some hk)

theorem untouched_readSuper (dev : Nat) :
    Ensures (Untouched table) (readSuper disk dev) fun r s => Untouched table s ∧
      ∀ p ∈ r, p < nrSuper := by
  have hnone : Ensures (Untouched table) (pure none : Program Fs (Option Nat)) fun r s =>
    Untouched table s ∧ ∀ p ∈ r, p < nrSuper :=
    .pure fun _ h => ⟨h, fun _ hp => nomatch hp⟩
  have hslot : ∀ dev, Ensures (Untouched table) (slotOf dev) fun r s => Untouched table s ∧
    ∀ p ∈ r, p < nrSuper := by
    intro dev s r t hs h
    refine ⟨(slotOf_same h).symm ▸ hs, fun p hp => ?_⟩
    rw [Option.mem_def.mp hp] at h
    exact slotOf_lt h
  refine .ite hnone ((hslot dev).bind fun x => ?_)
  cases x with
  | some k => exact .pure fun _ h => h
  | none =>
    refine .assume fun _ => (hslot 0).bind fun y => ?_
    cases y with
    | none => exact .pure fun _ h => ⟨h.1, fun _ hp => nomatch hp⟩
    | some k =>
      refine .assume fun hk => (untouched_modifySuper k fun _ _ => ⟨rfl, rfl⟩).bind fun _ =>
        (untouched_onCache _).bind fun z => ?_
      cases z with
      | none => exact untouched_forgetSuper k
      | some bh =>
        refine (untouched_read _).bind fun b => (untouched_modifySuper k).bind fun _ =>
          (untouched_onCache _).bind fun _ => ?_
        exact .ite (untouched_forgetSuper k) (untouched_readMaps (hk k rfl) dev)

theorem untouched_readDrives (n : Nat) :
    Ensures (Untouched table) (Sys.readDrives disk n) fun _ => Untouched table := by
  induction n with
  | zero => exact .pure fun _ h => h
  | succ n ih =>
    refine ih.bind fun _ => (untouched_onCache _).bind fun x => ?_
    cases x with
    | none => exact .failure
    | some bh => exact (untouched_read _).bind fun b => .ite .failure (untouched_onCache _)

theorem keeps_countFree (map : Nat → Option Nat) (n : Nat) :
    Keeps (fun s => s) (countFree map n) := by
  induction n with
  | zero => exact .pure _
  | succ n ih =>
    unfold countFree
    split
    · exact .failure
    · exact ih.bind fun free => .bind (.read _) fun b => .pure _

theorem mounts_untouched {s : Fs} (h : Untouched table s) (i : Nat) : mounts s i = 0 :=
  Finset.sum_eq_zero fun n _ => by rw [(h.2 n).1, (h.2 n).2, Nat.add_eq_zero_iff]; exact ⟨rfl, rfl⟩

theorem mounts_setMount {s : Fs} {p mi : Nat} (hp : p < nrSuper) (h0 : ∀ i, mounts s i = 0) {t : Fs}
    {u : Unit} (h : modifySuper p (fun sb => { sb with sIsup := some mi, sImount := some mi }) s =
      some (u, t)) (i : Nat) : mounts t i = 2 * names (some mi) i := by
  cases h
  have hsum :=
    Holdings.sum_update (Finset.mem_range.mpr hp)
      (fun sb : SuperBlock => names sb.sIsup i + names sb.sImount i)
    s.superBlock { s.superBlock p with sIsup := some mi, sImount := some mi }
  have hold := (Finset.sum_eq_zero_iff.mp (h0 i)) p (Finset.mem_range.mpr hp)
  have hs := h0 i
  unfold mounts at hs ⊢
  dsimp only at hsum ⊢
  omega

theorem inodes_mount {s t u v : Fs} {dev nr p mi : Nat} {x y : Unit} (hs : Untouched table s)
    (hp : p < nrSuper) (hget : iget disk dev nr s = some (mi, t))
    (hraise : modifyInode mi (fun n => { n with iCount := n.iCount + 3 }) t = some (x, u))
    (hmount : modifySuper p (fun sb => { sb with sIsup := some mi, sImount := some mi }) u =
      some (y, v)) :
    (∀ i, (v.inodeTable i).iCount = (table i).iCount + BitVec.ofNat 16 (4 * names (some mi) i)) ∧
      ∀ i, mounts v i = 2 * names (some mi) i := by
  obtain ⟨hcount, hmounts⟩ := Sys.inodes_use (o := some mi) (inodes_iget _ _ _ _ _ hget)
  have hmounts : ∀ i, mounts u i = 0 := fun i => by
    cases hraise
    exact (hmounts i).trans (mounts_untouched hs i)
  constructor
  · intro i
    cases hraise
    cases hmount
    show (Function.update t.inodeTable mi _ i).iCount = _
    by_cases hi : i = mi
    · subst hi
      rw [Function.update_self]
      show (t.inodeTable i).iCount + 3 = _
      rw [hcount, hs.1, BitVec.add_assoc]
      simp [names]
    · have hne : names (some mi) i = 0 := if_neg fun h => hi (Option.some.inj h).symm
      rw [Function.update_of_ne hi, hcount, hs.1, hne]
  · exact mounts_setMount hp hmounts hmount

end

end Fs

namespace Sys

open Fs Program

/-- A task that has nothing open, and no directories. -/
structure Bare (a : Task) : Prop where
  filp : a.filp = fun _ => none
  pwd : a.pwd = none
  root : a.root = none
  executable : a.executable = none

/-- Nothing is open and nothing is mounted. -/
structure Fresh (s : Sys) : Prop where
  tasks : ∀ k a, s.task k = some a → Bare a
  files : ∀ f, (s.fileTable f).fCount = 0
  supers : Untouched s.fs.inodeTable s.fs

theorem fresh_names {s : Sys} (h : ∀ f, (s.fileTable f).fCount = 0) (i : Nat) : fileNames s i = 0 :=
  Finset.sum_eq_zero fun f _ => if_neg fun hne => hne (h f)

variable {disk : Cache.Disk} {rootDev : Nat} {k : Fin 8}

theorem onFs_frame {α : Type} {x : Program Fs α} {s t : Sys} {a : α} (h : onFs x s = some (a, t)) :
    t.task = s.task ∧ t.fileTable = s.fileTable ∧ t.callable = s.callable := by
  rw [(onFs_some h).2]
  exact ⟨rfl, rfl, rfl⟩

theorem onFs_countFree {map : Nat → Option Nat} {n m : Nat} {s t : Sys}
    (h : onFs (countFree map n) s = some (m, t)) : t = s := by
  obtain ⟨hx, ht⟩ := onFs_some h
  have hfs : t.fs = s.fs := keeps_countFree _ _ _ _ _ hx
  rw [ht, hfs]

/-- The super blocks as `mount_root` clears them. -/
def clearSupers (fs : Fs) : Fs :=
  { fs with
    superBlock := fun n => if n < Zones.nrSuper then { fs.superBlock n with sDev := 0 }
      else fs.superBlock n }

theorem untouched_clearSupers {table : Nat → MInode} {fs : Fs} (h : Untouched table fs) :
    Untouched table (clearSupers fs) := by
  refine ⟨h.1, fun n => ?_⟩
  unfold clearSupers
  dsimp only
  split
  · exact h.2 n
  · exact h.2 n

/-- The root of a fresh system has four references. -/
theorem grows_mountRoot {s t : Sys} {u : Unit} {a : Task} (hs : Fresh s) (ha : s.task k = some a)
    (h : mountRoot disk rootDev k s = some (u, t)) : ∃ d e, Grows d e s t := by
  obtain ⟨_, s₁, h₁, h⟩ := bind_some.mp h
  cases h₁
  split at h
  · cases h
  · obtain ⟨_, s₂, h₂, h⟩ := bind_some.mp h
    obtain ⟨x, s₃, h₃, h⟩ := bind_some.mp h
    have hfs₂ : s₂.fs = clearSupers s.fs := by
      cases h₂
      rfl
    obtain ⟨hun, hp⟩ :=
      untouched_readSuper _ _ _ _ (hfs₂ ▸ untouched_clearSupers hs.supers) (onFs_some h₃).1
    cases x with
    | none => cases h
    | some p =>
      obtain ⟨mi, s₄, h₄, h⟩ := bind_some.mp h
      obtain ⟨_, s₅, h₅, h⟩ := bind_some.mp h
      obtain ⟨_, s₆, h₆, h⟩ := bind_some.mp h
      obtain ⟨_, s₇, h₇, h⟩ := bind_some.mp h
      obtain ⟨sb, s₈, h₈, h⟩ := bind_some.mp h
      obtain ⟨_, s₉, h₉, h⟩ := bind_some.mp h
      obtain ⟨_, s₁₀, h₁₀, h⟩ := bind_some.mp h
      have htask : s₆.task = s.task := by
        rw [(onFs_frame h₆).1, (onFs_frame h₅).1, (onFs_frame h₄).1, (onFs_frame h₃).1,
          (onFs_frame h₂).1]
      have hfiles : s₆.fileTable = fun f => { s.fileTable f with fCount := 0 } := by
        rw [(onFs_frame h₆).2.1, (onFs_frame h₅).2.1, (onFs_frame h₄).2.1, (onFs_frame h₃).2.1,
          (onFs_frame h₂).2.1]
      obtain ⟨hcount, hmounts⟩ :=
        inodes_mount hun (hp p rfl) (onFs_some h₄).1 (onFs_some h₅).1 (onFs_some h₆).1
      have h₁₁ : t = s₇ := by
        cases h
        rw [onFs_countFree h₁₀, onFs_countFree h₉]
        cases h₈
        rfl
      have h₁₂ := modifyTask_some (htask ▸ ha) h₇
      have hb : t.task = Function.update s.task k
        (some { a with pwd := some mi, root := some mi }) := by
        rw [h₁₁, h₁₂, htask]
      have hfs : t.fs = s₆.fs := by rw [h₁₁, h₁₂]
      have hzero : ∀ f, (t.fileTable f).fCount = 0 := by
        rw [h₁₁, h₁₂, hfiles]
        exact fun _ => rfl
      refine ⟨fun _ => 0, fun i => 4 * Fs.names (some mi) i, fun f => ?_, fun f => ?_,
        fun i => ?_, fun i => ?_⟩
      · rw [hzero, hs.files]
        rfl
      · have hsum := fileRefs_setTask hb f
        rw [ha] at hsum
        exact Nat.add_right_cancel hsum
      · rw [hfs]
        exact hcount i
      · have hsum := taskNames_setTask hb i
        have hbare := hs.tasks k a ha
        rw [ha] at hsum
        simp only [Option.elim_some, Task.names, hbare.pwd, hbare.root, hbare.executable,
          names_none] at hsum
        rw [inodeRefs, inodeRefs, fresh_names hzero, fresh_names hs.files, hfs, hmounts,
          mounts_untouched hs.supers]
        omega

/-! `callable` is cleared by `sys_setup`, and nothing else touches it. -/

theorem callable_onFs {α : Type} (x : Program Fs α) : Keeps callable (onFs x) :=
  fun _ _ _ h => (onFs_frame h).2.2

theorem callable_current (k : Fin 8) : Keeps callable (current k) :=
  fun _ _ _ h => by rw [(current_some h).2]

theorem callable_modifyTask (k : Fin 8) (f : Task → Task) : Keeps callable (modifyTask k f) := by
  intro s a t h
  cases h
  rfl

theorem callable_modifyFile (f : Fin 64) (g : File → File) : Keeps callable (modifyFile f g) := by
  intro s a t h
  cases h
  rfl

theorem callable_freeFile : Keeps callable freeFile := fun _ _ _ h => by rw [(freeFile_spec h).1]

theorem callable_refuseOpen (k : Fin 8) (fd : Fin 20) (f : Fin 64) (e : Nat) :
    Keeps callable (refuseOpen k fd f e) :=
  (callable_modifyTask k _).bind fun _ => (callable_modifyFile f _).bind fun _ => .pure _

theorem callable_finishOpen (fd : Fin 20) (f : Fin 64) (flag : BitVec 32) (i : Nat) :
    Keeps callable (finishOpen disk k fd f flag i) := by
  refine (callable_current k).bind fun a => (callable_onFs _).bind fun n => .ite ?_ ?_
  · exact (callable_onFs _).bind fun _ => callable_refuseOpen k fd f eperm
  · refine .bind (.ite (callable_modifyTask k _) (.pure _)) fun _ => ?_
    exact (callable_modifyFile f _).bind fun _ => .pure _

theorem callable_sysOpen (path : Name) (flag mode : BitVec 32) :
    Keeps callable (sysOpen disk k path flag mode) := by
  refine (callable_current k).bind fun a => ?_
  split
  · exact .pure _
  · refine (callable_modifyTask k _).bind fun _ => callable_freeFile.bind fun x => ?_
    cases x with
    | none => exact .pure _
    | some f =>
      refine (callable_modifyTask k _).bind fun _ => (callable_modifyFile f _).bind fun _ =>
        (callable_onFs _).bind fun res => ?_
      cases res with
      | error e => exact callable_refuseOpen k _ f e
      | ok i => exact callable_finishOpen _ f flag i

theorem callable_sysDup (fildes : Nat) : Keeps callable (sysDup k fildes) := by
  refine (callable_current k).bind fun a => ?_
  split
  · exact .pure _
  · split
    · exact .pure _
    · refine (callable_modifyTask k _).bind fun _ => (callable_modifyTask k _).bind fun _ => ?_
      exact (callable_modifyFile _ _).bind fun _ => .pure _

theorem callable_raiseFiles (filp : Fin 20 → Option (Fin 64)) (fds : List (Fin 20)) :
    Keeps callable (raiseFiles filp fds) := by
  induction fds with
  | nil => exact .pure _
  | cons fd fds ih =>
    cases hfd : filp fd with
    | none =>
      simp only [raiseFiles, hfd]
      exact ih
    | some f =>
      simp only [raiseFiles, hfd]
      exact (callable_modifyFile _ _).bind fun _ => ih

theorem callable_sysFork (memory : Bool) : Keeps callable (sysFork memory k) := by
  refine .bind (fun s x t h => ?_) fun x => ?_
  · obtain ⟨n, -, he⟩ := Option.map_eq_some_iff.mp h
    cases he
    rfl
  · cases x with
    | none => exact .pure _
    | some nr =>
      refine .ite ((callable_current k).bind fun a => .bind (.read _) fun pid =>
        .bind ?_ fun _ => ?_) (.pure _)
      · intro s x t h
        cases h
        rfl
      · refine (callable_raiseFiles _ _).bind fun _ => (callable_onFs _).bind fun _ =>
          (callable_onFs _).bind fun _ => ?_
        exact (callable_onFs _).bind fun _ => .pure _

/-! Before `sys_setup` no call opens anything. -/

theorem openNamei_bare {a : Task} (ha : a.root = none) (path : Name) (flag mode : BitVec 32)
    (s : Fs) : openNamei disk a path flag mode s = none := by
  have hdir : getDir disk a path = failure := by
    unfold getDir
    rw [ha]
  unfold openNamei dirNamei
  rw [hdir]
  rfl

theorem Fresh.setTask {s t : Sys} {j : Fin 8} {b : Task} (hs : Fresh s) (hb : Bare b)
    (htask : t.task = Function.update s.task j (some b)) (hfiles : t.fileTable = s.fileTable)
    (hfs : t.fs = s.fs) : Fresh t where
  tasks i a hi := by
    rw [htask] at hi
    by_cases hij : i = j
    · subst hij
      rw [Function.update_self] at hi
      rwa [← Option.some.inj hi]
    · rw [Function.update_of_ne hij] at hi
      exact hs.tasks i a hi
  files f := by rw [hfiles, hs.files]
  supers := by
    rw [hfs]
    exact hs.supers

theorem fresh_sysOpen {path : Name} {flag mode : BitVec 32} {s t : Sys} {r : Int} (hs : Fresh s)
    (hr : sysOpen disk k path flag mode s = some (r, t)) : Fresh t := by
  obtain ⟨a, v, hv, h₁⟩ := bind_some.mp hr
  clear hr
  obtain ⟨ha, hvs⟩ := current_some hv
  rw [hvs] at h₁
  have hbare := hs.tasks k a ha
  cases hfd : freeFd a with
  | none =>
    rw [hfd] at h₁
    cases h₁
    exact hs
  | some fd =>
    rw [hfd] at h₁
    obtain ⟨_, w, hw, h₂⟩ := bind_some.mp h₁
    obtain ⟨x, y, hy, h₃⟩ := bind_some.mp h₂
    obtain ⟨rfl, hx⟩ := freeFile_spec hy
    cases x with
    | none =>
      cases h₃
      have hclear := modifyTask_some ha hw
      have hsame : Bare { a with
        closeOnExec := a.closeOnExec &&& ~~~ ((1 : BitVec 32) <<< fd.val) } :=
        ⟨hbare.filp, hbare.pwd, hbare.root, hbare.executable⟩
      rw [hclear]
      exact hs.setTask hsame rfl rfl rfl
    | some f =>
      obtain ⟨_, z, hz, h₄⟩ := bind_some.mp h₃
      obtain ⟨_, p, hp, h₅⟩ := bind_some.mp h₄
      obtain ⟨res, q, hq, h₆⟩ := bind_some.mp h₅
      have hopen := (onFs_some hq).1
      rw [openNamei_bare hbare.root] at hopen
      cases hopen

theorem fresh_sysDup {fildes : Nat} {s t : Sys} {r : Int} (hs : Fresh s)
    (hr : sysDup k fildes s = some (r, t)) : Fresh t := by
  obtain ⟨a, v, hv, h₁⟩ := bind_some.mp hr
  clear hr
  obtain ⟨ha, hvs⟩ := current_some hv
  rw [hvs] at h₁
  have hnone : fileOf a fildes = none := by
    unfold fileOf
    rw [(hs.tasks k a ha).filp]
    split <;> rfl
  rw [hnone] at h₁
  cases h₁
  exact hs

theorem raiseFiles_none (fds : List (Fin 20)) : raiseFiles (fun _ => none) fds = pure () := by
  induction fds with
  | nil => rfl
  | cons fd fds ih => exact ih

theorem fresh_copyProcess {nr : Fin 8} {s t : Sys} {r : Int} (hs : Fresh s)
    (hr : copyProcess nr k s = some (r, t)) : Fresh t := by
  obtain ⟨a, u, hu, h₁⟩ := bind_some.mp hr
  clear hr
  obtain ⟨ha, hus⟩ := current_some hu
  rw [hus] at h₁
  have hbare := hs.tasks k a ha
  rw [hbare.filp, hbare.pwd, hbare.root, hbare.executable, raiseFiles_none] at h₁
  have hchild : Bare { a with pid := s.lastPid, father := a.pid, leader := false } :=
    ⟨hbare.filp, hbare.pwd, hbare.root, hbare.executable⟩
  cases h₁
  exact hs.setTask hchild (by rw [hbare.filp, hbare.pwd, hbare.root, hbare.executable]) rfl rfl

theorem fresh_sysFork {memory : Bool} {s t : Sys} {r : Int} (hs : Fresh s)
    (hr : sysFork memory k s = some (r, t)) : Fresh t := by
  obtain ⟨x, u, hu, h⟩ := bind_some.mp hr
  clear hr
  obtain ⟨n, -, he⟩ := Option.map_eq_some_iff.mp hu
  obtain ⟨hx, rfl⟩ := Prod.mk.inj he
  clear hu
  have hu : Fresh { s with lastPid := n } := ⟨hs.tasks, hs.files, hs.supers⟩
  cases x with
  | none =>
    cases h
    exact hu
  | some nr =>
    cases memory with
    | false =>
      cases h
      exact hu
    | true => exact fresh_copyProcess hu h

/-! `sys_setup` -/

theorem inodeRefs_fresh {s : Sys} (h : Fresh s) (i : Nat) : inodeRefs s i = 0 := by
  have htasks : taskNames s i = 0 := Finset.sum_eq_zero fun k _ => by
    cases hk : s.task k with
    | none => rfl
    | some a =>
      have hbare := h.tasks k a hk
      simp only [Option.elim_some, Task.names, hbare.pwd, hbare.root, hbare.executable,
        names_none, Nat.add_zero]
  rw [inodeRefs, fresh_names h.files, htasks, mounts_untouched h.supers]

theorem Counted.of_fresh {s t : Sys} (h : Counted s) (hs : Fresh s) (ht : Fresh t)
    (hfiles : t.fileTable = s.fileTable) (htask : t.task = s.task)
    (htable : t.fs.inodeTable = s.fs.inodeTable) : Counted t where
  files f := by
    have hrefs : fileRefs t f = fileRefs s f := by
      unfold fileRefs
      rw [htask]
    rw [hfiles, h.files, hrefs]
  inodes i := by rw [htable, h.inodes, inodeRefs_fresh hs, inodeRefs_fresh ht]

theorem callable_mountRoot : Keeps callable (mountRoot disk rootDev k) := by
  refine .bind (fun s x t h => ?_) fun _ => .ite .failure
    ((callable_onFs _).bind fun _ => (callable_onFs _).bind fun x => ?_)
  · cases h
    rfl
  · cases x with
    | none => exact .failure
    | some p =>
      refine (callable_onFs _).bind fun mi => (callable_onFs _).bind fun _ =>
        (callable_onFs _).bind fun _ => ?_
      refine (callable_modifyTask k _).bind fun _ => (callable_onFs _).bind fun sb => ?_
      exact (callable_onFs _).bind fun _ => (callable_onFs _).bind fun _ => .pure _

/-- The counts are right, and until `sys_setup` nothing is open. -/
structure Inv (s : Sys) : Prop where
  counted : Counted s
  fresh : s.callable = true → Fresh s

theorem inv_sysSetup {nrHd : Nat} {s t : Sys} {r : Int} {a : Task} (hs : Inv s)
    (ha : s.task k = some a) (hr : sysSetup disk rootDev nrHd k s = some (r, t)) : Inv t := by
  unfold sysSetup at hr
  split at hr
  next hcall =>
    have hfresh := hs.fresh hcall
    obtain ⟨_, u, hu, h₁⟩ := bind_some.mp hr
    obtain ⟨_, v, hv, h₂⟩ := bind_some.mp h₁
    obtain ⟨_, w, hw, h₃⟩ := bind_some.mp h₂
    cases hu
    cases h₃
    obtain ⟨htask, hfiles, hcallable⟩ := onFs_frame hv
    have hun := untouched_readDrives nrHd _ _ _ hfresh.supers (onFs_some hv).1
    have hfresh' : Fresh v :=
      ⟨by rw [htask]; exact hfresh.tasks, by rw [hfiles]; exact hfresh.files, rfl, hun.2⟩
    have hcounted : Counted v := hs.counted.of_fresh hfresh hfresh' hfiles htask hun.1
    obtain ⟨d, e, hgrows⟩ := grows_mountRoot hfresh' (htask ▸ ha) hw
    refine ⟨hgrows.counted hcounted, fun ht => ?_⟩
    rw [callable_mountRoot _ _ _ hw, hcallable] at ht
    cases ht
  next =>
    cases hr
    exact hs

theorem inv_step {a : Fin 8 × Syscall} {s t : Sys} (hs : Inv s)
    (h : step disk rootDev a s = some t) : Inv t := by
  unfold step at h
  split at h
  next hsome =>
    obtain ⟨b, hb⟩ := Option.isSome_iff_exists.mp hsome
    obtain ⟨⟨r, u⟩, hr, rfl⟩ := Option.map_eq_some_iff.mp h
    obtain ⟨k, c⟩ := a
    cases c with
    | setup nrHd => exact inv_sysSetup hs hb hr
    | «open» path flag mode =>
      refine ⟨counted_sysOpen hs.counted hr, fun hc => fresh_sysOpen (hs.fresh ?_) hr⟩
      rwa [callable_sysOpen _ _ _ _ _ _ hr] at hc
    | dup fildes =>
      refine ⟨counted_sysDup hs.counted hr, fun hc => fresh_sysDup (hs.fresh ?_) hr⟩
      rwa [callable_sysDup _ _ _ _ hr] at hc
    | fork memory =>
      refine ⟨counted_sysFork hs.counted hr, fun hc => fresh_sysFork (hs.fresh ?_) hr⟩
      rwa [callable_sysFork _ _ _ _ hr] at hc
  next => cases h

/-- `INIT_TASK` -/
def initTask : Task where
  pid := 0
  father := -1
  leader := false
  tty := -1
  umask := 0o022
  euid := 0
  egid := 0
  pwd := none
  root := none
  executable := none
  closeOnExec := 0
  filp _ := none

/-- The kernel starts with its first task and with tables that are zero. -/
structure Boot (s : Sys) : Prop where
  task : s.task = Function.update (fun _ => none) 0 (some initTask)
  files : ∀ f, (s.fileTable f).fCount = 0
  inodes : s.fs.inodeTable = fun _ => zeroInode
  supers : ∀ n, (s.fs.superBlock n).sIsup = none ∧ (s.fs.superBlock n).sImount = none

theorem Boot.fresh {s : Sys} (h : Boot s) : Fresh s where
  tasks k a hk := by
    rw [h.task] at hk
    by_cases h0 : k = 0
    · subst h0
      rw [Function.update_self] at hk
      rw [← Option.some.inj hk]
      exact ⟨rfl, rfl, rfl, rfl⟩
    · rw [Function.update_of_ne h0] at hk
      cases hk
  files := h.files
  supers := ⟨rfl, h.supers⟩

theorem fileRefs_fresh {s : Sys} (h : Fresh s) (f : Fin 64) : fileRefs s f = 0 :=
  Finset.sum_eq_zero fun k _ => by
    cases hk : s.task k with
    | none => rfl
    | some a =>
      rw [Option.elim_some, Task.opens, (h.tasks k a hk).filp]
      exact Finset.sum_eq_zero fun fd _ => if_neg nofun

theorem Boot.inv {s : Sys} (h : Boot s) : Inv s where
  counted :=
    { files := fun f => by
        rw [fileRefs_fresh h.fresh]
        exact h.files f
      inodes := fun i => by
        rw [inodeRefs_fresh h.fresh, h.inodes]
        rfl }
  fresh _ := h.fresh

/-- Between the system calls of any run every count is the number of the references. -/
theorem counts_eq_references {as : List (Fin 8 × Syscall)} {s t : Sys} (hs : Boot s)
    (h : Run.exec (step disk rootDev) as s = some t) :
      (∀ f, (t.fileTable f).fCount.toNat = fileRefs t f) ∧
        ∀ i, (t.fs.inodeTable i).iCount.toNat = inodeRefs t i :=
  (Run.Always.last (Run.always_of_step (fun _ _ _ h => inv_step h) hs.inv) h).counted.exact

def atBoot (c : Cache) : Sys where
  fs :=
    ⟨c, fun _ => zeroInode, 0, fun _ => ⟨0, 0, 0, 0, 0, fun _ => none, fun _ => none,
      0, none, none⟩, []⟩
  fileTable _ := ⟨0, 0, 0, none, 0⟩
  task k := if k.val = 0 then some initTask else none
  lastPid := 0
  callable := true

theorem atBoot_task (c : Cache) :
    (atBoot c).task = Function.update (fun _ => none) 0 (some initTask) := by
  funext k
  rw [Function.update_apply]
  show (if k.val = 0 then some initTask else none) = _
  simp only [Fin.ext_iff, Fin.coe_ofNat_eq_mod, Nat.zero_mod]

/-- A drive whose first partition has three inodes and ten zones; its root directory is empty. -/
def rootDisk : Cache.Disk where
  blkDev m := m == 3
  ok _ _ := true
  data dev block :=
    if dev = 0x300 then 0xAA55#8192 <<< 4080
    else match block with
    | 1 =>
      3#8192 ||| 10#8192 <<< 16 ||| 1#8192 <<< 32 ||| 1#8192 <<< 48 ||| 5#8192 <<< 64 |||
        0x137F#8192 <<< 128
    | 2 => 3#8192
    | 3 => 3#8192
    | 4 => 0o40755#8192 ||| 32#8192 <<< 32 ||| 2#8192 <<< 104 ||| 5#8192 <<< 112
    | 5 => 1#8192 ||| 0x2e#8192 <<< 16 ||| 1#8192 <<< 128 ||| 0x2e2e#8192 <<< 144
    | _ => 0

/-- Seven buffers on the free list. -/
def sevenBuffers : Cache where
  nrBuffers := 7
  buf i :=
    ⟨0, 0, 0, false, false, 0, false, none, none, some ((i + 6) % 7), some ((i + 1) % 7)⟩
  hashTable _ := none
  freeList := 0

/-- `"/a"` -/
def slashA : Name := [47, 97]

/-- A file is created, its descriptor copied and inherited, and the child opens it again. -/
theorem counts_eq_references_open :
    ∃ t, Run.exec (step rootDisk 0x301)
      [(0, .setup 1), (0, .open slashA 0o102 0o644), (0, .dup 0), (0, .fork true),
        (1, .open slashA 0 0)] (atBoot sevenBuffers) = some t ∧
      ((t.fileTable 0).fCount = 4 ∧ (t.fileTable 1).fCount = 1 ∧
        (t.fs.inodeTable 1).iCount = 6 ∧ (t.fs.inodeTable 2).iCount = 2) ∧
      (∀ f, (t.fileTable f).fCount.toNat = fileRefs t f) ∧
        ∀ i, (t.fs.inodeTable i).iCount.toNat = inodeRefs t i := by
  have hrun :
      (Run.exec (step rootDisk 0x301)
        [(0, .setup 1), (0, .open slashA 0o102 0o644), (0, .dup 0), (0, .fork true),
          (1, .open slashA 0 0)] (atBoot sevenBuffers)).any fun t =>
        (t.fileTable 0).fCount = 4 ∧ (t.fileTable 1).fCount = 1 ∧
          (t.fs.inodeTable 1).iCount = 6 ∧ (t.fs.inodeTable 2).iCount = 2 := by
    decide +kernel
  obtain ⟨t, ht, hcounts⟩ := (Option.any_eq_true _ _).mp hrun
  exact ⟨t, ht, of_decide_eq_true hcounts,
    counts_eq_references ⟨atBoot_task _, fun _ => rfl, rfl, fun _ => ⟨rfl, rfl⟩⟩ ht⟩

end Sys

end Gpos
