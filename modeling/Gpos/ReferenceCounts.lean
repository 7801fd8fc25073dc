import Gpos.Holdings
import Gpos.OpenReferences
import Mathlib.Algebra.BigOperators.Fin
import Mathlib.Algebra.Order.BigOperators.Group.Finset

/-! The counts of the file table and of the inode table against the references
that are there, between system calls. -/

namespace Gpos

/-- The references of an open file on an inode. -/
def File.names (file : File) (i : Nat) : Nat :=
  if file.fCount ≠ 0 then Fs.names file.fInode i else 0

def Task.names (t : Task) (i : Nat) : Nat :=
  Fs.names t.pwd i + Fs.names t.root i + Fs.names t.executable i

/-- The descriptors of a task for a file. -/
def Task.opens (t : Task) (f : Fin 64) : Nat := ∑ fd, if t.filp fd = some f then 1 else 0

namespace Sys

open Fs Program Holdings

def fileRefs (s : Sys) (f : Fin 64) : Nat := ∑ k, (s.task k).elim 0 fun t => t.opens f

def fileNames (s : Sys) (i : Nat) : Nat := ∑ f, (s.fileTable f).names i

def taskNames (s : Sys) (i : Nat) : Nat := ∑ k, (s.task k).elim 0 fun t => t.names i

def inodeRefs (s : Sys) (i : Nat) : Nat := fileNames s i + taskNames s i + mounts s.fs i

/-- The counts are those of the references, as far as their sixteen bits go. -/
structure Counted (s : Sys) : Prop where
  files : ∀ f, (s.fileTable f).fCount = BitVec.ofNat 16 (fileRefs s f)
  inodes : ∀ i, (s.fs.inodeTable i).iCount = BitVec.ofNat 16 (inodeRefs s i)

/-- The counts and the references grow by the same numbers. -/
structure Grows (d : Fin 64 → Nat) (e : Nat → Nat) (s t : Sys) : Prop where
  fCount : ∀ f, (t.fileTable f).fCount = (s.fileTable f).fCount + BitVec.ofNat 16 (d f)
  fileRefs : ∀ f, fileRefs t f = fileRefs s f + d f
  iCount : ∀ i, (t.fs.inodeTable i).iCount = (s.fs.inodeTable i).iCount + BitVec.ofNat 16 (e i)
  inodeRefs : ∀ i, inodeRefs t i = inodeRefs s i + e i

theorem Grows.counted {d : Fin 64 → Nat} {e : Nat → Nat} {s t : Sys} (h : Grows d e s t)
    (hs : Counted s) : Counted t where
  files f := by rw [h.fCount, h.fileRefs, hs.files, BitVec.ofNat_add]
  inodes i := by rw [h.iCount, h.inodeRefs, hs.inodes, BitVec.ofNat_add]

theorem opens_le (t : Task) (f : Fin 64) : t.opens f ≤ 20 := by
  refine (Finset.sum_le_card_nsmul _ _ 1 fun fd _ => ?_).trans (by simp)
  split
  · exact Nat.le_refl 1
  · exact Nat.zero_le 1

theorem names_none (i : Nat) : Fs.names none i = 0 := rfl

theorem names_le (o : Option Nat) (i : Nat) : Fs.names o i ≤ 1 := by
  unfold Fs.names
  split
  · exact Nat.le_refl 1
  · exact Nat.zero_le 1

theorem fileRefs_le (s : Sys) (f : Fin 64) : fileRefs s f ≤ 160 := by
  refine (Finset.sum_le_card_nsmul _ _ 20 fun k _ => ?_).trans (by simp)
  cases s.task k with
  | none => exact Nat.zero_le 20
  | some t => exact opens_le t f

theorem inodeRefs_le (s : Sys) (i : Nat) : inodeRefs s i ≤ 104 := by
  have hfiles : fileNames s i ≤ 64 := by
    refine (Finset.sum_le_card_nsmul _ _ 1 fun f _ => ?_).trans (by simp)
    unfold File.names
    split
    · exact names_le _ i
    · exact Nat.zero_le 1
  have htasks : taskNames s i ≤ 24 := by
    refine (Finset.sum_le_card_nsmul _ _ 3 fun k _ => ?_).trans (by simp)
    cases s.task k with
    | none => exact Nat.zero_le 3
    | some t => exact Nat.add_le_add (Nat.add_le_add (names_le _ i) (names_le _ i)) (names_le _ i)
  have hmounts : mounts s.fs i ≤ 16 := by
    refine (Finset.sum_le_card_nsmul _ _ 2 fun n _ => ?_).trans (by simp [Zones.nrSuper])
    exact Nat.add_le_add (names_le _ i) (names_le _ i)
  exact Nat.add_le_add (Nat.add_le_add hfiles htasks) hmounts

/-- Sixteen bits are enough for all the references there can be. -/
theorem Counted.exact {s : Sys} (h : Counted s) :
    (∀ f, (s.fileTable f).fCount.toNat = fileRefs s f) ∧
      ∀ i, (s.fs.inodeTable i).iCount.toNat = inodeRefs s i := by
  constructor
  · intro f
    have := fileRefs_le s f
    rw [h.files, BitVec.toNat_ofNat, Nat.mod_eq_of_lt (by omega)]
  · intro i
    have := inodeRefs_le s i
    rw [h.inodes, BitVec.toNat_ofNat, Nat.mod_eq_of_lt (by omega)]

/-! What an assignment does to the references. -/

theorem fileRefs_setTask {s t : Sys} {k : Fin 8} {x : Option Task}
    (h : t.task = Function.update s.task k x) (f : Fin 64) :
    fileRefs t f + (s.task k).elim 0 (fun a => a.opens f) =
      fileRefs s f + x.elim 0 fun a => a.opens f := by
  unfold fileRefs
  rw [h]
  exact sum_update (Finset.mem_univ k) (fun o : Option Task => o.elim 0 fun a => a.opens f) s.task x

theorem taskNames_setTask {s t : Sys} {k : Fin 8} {x : Option Task}
    (h : t.task = Function.update s.task k x) (i : Nat) :
    taskNames t i + (s.task k).elim 0 (fun a => a.names i) =
      taskNames s i + x.elim 0 fun a => a.names i := by
  unfold taskNames
  rw [h]
  exact sum_update (Finset.mem_univ k) (fun o : Option Task => o.elim 0 fun a => a.names i) s.task x

theorem fileNames_setFile {s t : Sys} {f : Fin 64} {x : File}
    (h : t.fileTable = Function.update s.fileTable f x) (i : Nat) :
    fileNames t i + (s.fileTable f).names i = fileNames s i + x.names i := by
  unfold fileNames
  rw [h]
  exact sum_update (Finset.mem_univ f) (fun x : File => x.names i) s.fileTable x

theorem opens_setFilp {a b : Task} {fd : Fin 20} {f : Fin 64} (hfd : a.filp fd = none)
    (h : b.filp = Function.update a.filp fd (some f)) (g : Fin 64) :
    b.opens g = a.opens g + if f = g then 1 else 0 := by
  have hsum :=
    sum_update (Finset.mem_univ fd) (fun o => if o = some g then 1 else 0) a.filp (some f)
  rw [hfd] at hsum
  unfold Task.opens
  rw [h]
  simpa using hsum

theorem inodes_use {s t : Fs} {o : Option Nat} (h : inodes t = inodes s + o.elim 0 use) :
    (∀ i, (t.inodeTable i).iCount = (s.inodeTable i).iCount + BitVec.ofNat 16 (Fs.names o i)) ∧
      ∀ i, mounts t i = mounts s i := by
  cases o with
  | none =>
    rw [Option.elim_none, add_zero] at h
    exact ⟨fun i => (congrFun (congrArg Prod.fst h) i).trans (add_zero _).symm,
      fun i => Int.ofNat_inj.mp (congrFun (congrArg Prod.snd h) i)⟩
  | some n =>
    refine ⟨fun i => (congrFun (congrArg Prod.fst h) i).trans
      (congrArg ((s.inodeTable i).iCount + ·) ?_), fun i => ?_⟩
    · show (Pi.single n 1 : Nat → BitVec 16) i = _
      by_cases hi : i = n
      · subst hi
        simp [Fs.names]
      · rw [Pi.single_eq_of_ne hi, Fs.names, if_neg (by simpa using Ne.symm hi)]
        rfl
    · exact Int.ofNat_inj.mp ((congrFun (congrArg Prod.snd h) i).trans
        (add_zero (mounts s i : Int)))

theorem grows_of_task {s t : Sys} {k : Fin 8} {a b : Task} {d : Fin 64 → Nat} {o : Option Nat}
    (ha : s.task k = some a) (hb : t.task = Function.update s.task k (some b))
    (hnames : ∀ i, b.names i = a.names i) (hopens : ∀ f, b.opens f = a.opens f + d f)
    (hcount : ∀ f, (t.fileTable f).fCount = (s.fileTable f).fCount + BitVec.ofNat 16 (d f))
    (hfiles : ∀ i, fileNames t i = fileNames s i + Fs.names o i)
    (hinodes : inodes t.fs = inodes s.fs + o.elim 0 use) :
    Grows d (Fs.names o) s t where
  fCount := hcount
  fileRefs f := by
    have h := fileRefs_setTask hb f
    rw [ha, Option.elim_some, Option.elim_some, hopens] at h
    omega
  iCount := (inodes_use hinodes).1
  inodeRefs i := by
    have h := taskNames_setTask hb i
    rw [ha, Option.elim_some, Option.elim_some, hnames] at h
    rw [inodeRefs, inodeRefs, hfiles, (inodes_use hinodes).2]
    omega

theorem Counted.congr {s t : Sys} (h : Counted s) (hfs : t.fs = s.fs)
    (hfiles : t.fileTable = s.fileTable) (htasks : t.task = s.task) : Counted t := by
  obtain ⟨fs, files, task, lastPid, callable⟩ := t
  cases hfs
  cases hfiles
  cases htasks
  exact ⟨h.files, h.inodes⟩

/-! The calls -/

theorem current_some {k : Fin 8} {s t : Sys} {a : Task} (h : current k s = some (a, t)) :
    s.task k = some a ∧ t = s := by
  obtain ⟨b, hb, he⟩ := Option.map_eq_some_iff.mp h
  cases he
  exact ⟨hb, rfl⟩

theorem onFs_some {α : Type} {x : Program Fs α} {s t : Sys} {a : α} (h : onFs x s = some (a, t)) :
    x s.fs = some (a, t.fs) ∧ t = { s with fs := t.fs } := by
  obtain ⟨⟨b, u⟩, hb, he⟩ := Option.map_eq_some_iff.mp h
  cases he
  exact ⟨hb, rfl⟩

theorem modifyTask_some {k : Fin 8} {f : Task → Task} {s t : Sys} {a : Task} {u : Unit}
    (ha : s.task k = some a) (h : modifyTask k f s = some (u, t)) :
    t = { s with task := Function.update s.task k (some (f a)) } := by
  cases h
  rw [ha]
  rfl

theorem modifyTask_twice {k : Fin 8} {f g : Task → Task} {s t v : Sys} {a : Task} {u u' : Unit}
    (ha : s.task k = some a) (h : modifyTask k f s = some (u, t))
    (h' : modifyTask k g t = some (u', v)) :
    v = { s with task := Function.update s.task k (some (g (f a))) } := by
  have ht := modifyTask_some ha h
  have hta : t.task k = some (f a) := by
    rw [ht]
    exact Function.update_self _ _ _
  rw [modifyTask_some hta h', ht]
  simp only [Function.update_idem]

theorem Counted.open_pos {s : Sys} (h : Counted s) {k : Fin 8} {a : Task} (ha : s.task k = some a)
    {f : Fin 64} (hf : ∃ fd, a.filp fd = some f) : 0 < (s.fileTable f).fCount.toNat := by
  rw [h.exact.1]
  have hopens : 1 ≤ a.opens f := by
    obtain ⟨fd, hfd⟩ := hf
    refine le_trans ?_ (Finset.single_le_sum (fun _ _ => Nat.zero_le _) (Finset.mem_univ fd))
    rw [if_pos hfd]
  have hk : (s.task k).elim 0 (fun a => a.opens f) ≤ fileRefs s f :=
    Finset.single_le_sum (f := fun k => (s.task k).elim 0 fun a => a.opens f)
      (fun _ _ => Nat.zero_le _) (Finset.mem_univ k)
  rw [ha] at hk
  exact hopens.trans hk

theorem names_congr {x y : File} (hi : x.fInode = y.fInode) (hc : x.fCount = 0 ↔ y.fCount = 0)
    (i : Nat) : x.names i = y.names i := by
  unfold File.names
  rw [hi]
  simp only [ne_eq, hc]

theorem freeFd_none {t : Task} {fd : Fin 20} (h : freeFd t = some fd) : t.filp fd = none := by
  simpa using List.find?_some h

theorem fileOf_some {t : Task} {fd : Nat} {f : Fin 64} (h : fileOf t fd = some f) :
    ∃ fd, t.filp fd = some f := by
  unfold fileOf at h
  split at h
  next hlt => exact ⟨_, h⟩
  next => cases h

theorem freeFile_spec {s t : Sys} {x : Option (Fin 64)} (h : freeFile s = some (x, t)) :
    t = s ∧ ∀ f, x = some f → (s.fileTable f).fCount = 0 := by
  obtain ⟨hf, ht⟩ := Prod.mk.inj (Option.some.inj h)
  refine ⟨ht.symm, fun f hx => ?_⟩
  rw [hx] at hf
  simpa using List.find?_some hf

theorem grows_of_same {s t : Sys} {k : Fin 8} {a b : Task} (ha : s.task k = some a)
    (hb : t.task = Function.update s.task k (some b)) (hnames : ∀ i, b.names i = a.names i)
    (hfilp : b.filp = a.filp)
    (hcount : ∀ f, (t.fileTable f).fCount = (s.fileTable f).fCount)
    (hfiles : ∀ i, fileNames t i = fileNames s i)
    (hinodes : inodes t.fs = inodes s.fs) : Grows (fun _ => 0) (Fs.names none) s t := by
  refine grows_of_task ha hb hnames (fun f => ?_) (fun f => ?_) (fun i => ?_) ?_
  · unfold Task.opens
    rw [hfilp, Nat.add_zero]
  · simp [hcount]
  · rw [hfiles, names_none, Nat.add_zero]
  · rw [hinodes, Option.elim_none, add_zero]

theorem grows_of_file {s t : Sys} {k : Fin 8} {a b : Task} {fd : Fin 20} {f : Fin 64} {x : File}
    {o : Option Nat} (ha : s.task k = some a) (hfd : a.filp fd = none)
    (hb : t.task = Function.update s.task k (some b)) (hnames : ∀ i, b.names i = a.names i)
    (hfilp : b.filp = Function.update a.filp fd (some f))
    (hx : t.fileTable = Function.update s.fileTable f x)
    (hcount : x.fCount = (s.fileTable f).fCount + 1)
    (hinode : ∀ i, x.names i = (s.fileTable f).names i + Fs.names o i)
    (hinodes : inodes t.fs = inodes s.fs + o.elim 0 use) :
    Grows (fun g => if f = g then 1 else 0) (Fs.names o) s t := by
  refine grows_of_task ha hb hnames (opens_setFilp hfd hfilp) (fun g => ?_) (fun i => ?_) hinodes
  · rw [hx]
    by_cases hg : f = g
    · subst hg
      rw [Function.update_self, hcount, if_pos rfl]
      rfl
    · rw [Function.update_of_ne (Ne.symm hg), if_neg hg]
      exact (BitVec.add_zero _).symm
  · have h := fileNames_setFile hx i
    rw [hinode] at h
    omega

theorem grows_clearCloseOnExec {k : Fin 8} {fd : Fin 20} {s t : Sys} {a : Task}
    (ha : s.task k = some a) (h : clearCloseOnExec k fd s = some ((), t)) :
    Grows (fun _ => 0) (Fs.names none) s t := by
  cases h
  refine grows_of_same ha
    (b := { a with closeOnExec := a.closeOnExec &&& ~~~ ((1 : BitVec 32) <<< fd.val) }) ?_
      (fun _ => rfl) rfl (fun _ => rfl) (fun _ => rfl) rfl
  rw [ha]
  rfl

theorem counted_sysDup {k : Fin 8} {fildes : Nat} {s t : Sys} {r : Int} (hs : Counted s)
    (hr : sysDup k fildes s = some (r, t)) : Counted t := by
  obtain ⟨a, u, hu, h⟩ := bind_some.mp hr
  obtain ⟨ha, rfl⟩ := current_some hu
  clear hr hu
  cases hf : fileOf a fildes with
  | none =>
    rw [hf] at h
    cases h
    exact hs
  | some f =>
    rw [hf] at h
    cases hfd : freeFd a with
    | none =>
      rw [hfd] at h
      cases h
      exact hs
    | some fd =>
      rw [hfd] at h
      obtain ⟨_, v, hv, h⟩ := bind_some.mp h
      obtain ⟨_, w, hw, h⟩ := bind_some.mp h
      obtain ⟨_, x, hx, h⟩ := bind_some.mp h
      obtain rfl := modifyTask_twice ha hv hw
      cases hx
      cases h
      have hpos := hs.open_pos ha (fileOf_some hf)
      have hle := fileRefs_le u f
      rw [← hs.exact.1 f] at hle
      have hzero : (u.fileTable f).fCount + 1 = 0 ↔ (u.fileTable f).fCount = 0 := by bv_omega
      refine Grows.counted (grows_of_file (o := none) ha (freeFd_none hfd) rfl
        (fun _ => rfl) rfl rfl rfl (fun i => ?_) ?_) hs
      · exact @names_congr { u.fileTable f with fCount := (u.fileTable f).fCount + 1 }
          (u.fileTable f) rfl hzero i
      · exact (add_zero _).symm

theorem inodes_raiseInode (o : Option Nat) : Adds inodes (raiseInode o) fun _ => o.elim 0 use := by
  cases o with
  | none => exact .pure rfl
  | some i => exact inodes_raiseCount i

theorem raiseFiles_spec {filp : Fin 20 → Option (Fin 64)} {fds : List (Fin 20)} {s t : Sys}
    {u : Unit} (h : raiseFiles filp fds s = some (u, t)) :
      t = { s with fileTable := t.fileTable } ∧ ∀ f, (t.fileTable f).fCount =
        (s.fileTable f).fCount + BitVec.ofNat 16 (fds.map fun fd =>
          if filp fd = some f then 1 else 0).sum ∧ (t.fileTable f).fInode =
            (s.fileTable f).fInode := by
  induction fds generalizing s with
  | nil =>
    cases h
    exact ⟨rfl, fun f => ⟨(BitVec.add_zero _).symm, rfl⟩⟩
  | cons fd fds ih =>
    cases hfd : filp fd with
    | none =>
      simp only [raiseFiles, hfd] at h
      obtain ⟨ht, hf⟩ := ih h
      refine ⟨ht, fun f => ?_⟩
      simpa [hfd] using hf f
    | some g =>
      simp only [raiseFiles, hfd] at h
      obtain ⟨_, v, hv, h⟩ := bind_some.mp h
      cases hv
      obtain ⟨ht, hf⟩ := ih h
      refine ⟨ht, fun f => ?_⟩
      rw [(hf f).1, (hf f).2, List.map_cons, List.sum_cons, hfd]
      dsimp only
      by_cases hg : g = f
      · subst hg
        refine ⟨?_, by rw [Function.update_self]⟩
        rw [Function.update_self, if_pos rfl, BitVec.ofNat_add, ← BitVec.add_assoc]
        rfl
      · rw [Function.update_of_ne (Ne.symm hg), if_neg (by simpa using hg), Nat.zero_add]
        exact ⟨rfl, rfl⟩

theorem opens_eq_sum (t : Task) (f : Fin 64) :
    t.opens f = ((List.finRange 20).map fun fd => if t.filp fd = some f then 1
      else 0).sum := Fin.sum_univ_def _

theorem raiseFiles_counts {s t u : Sys} {k : Fin 8} {a : Task} {x : Unit} (hs : Counted s)
    (ha : s.task k = some a) (hfiles : u.fileTable = s.fileTable)
    (h : raiseFiles a.filp (List.finRange 20) u = some (x, t)) :
      (∀ f, (t.fileTable f).fCount = (s.fileTable f).fCount + BitVec.ofNat 16 (a.opens f)) ∧
        ∀ i, fileNames t i = fileNames s i := by
  obtain ⟨-, hspec⟩ := raiseFiles_spec h
  rw [hfiles] at hspec
  have hcount : ∀ f, (t.fileTable f).fCount = (s.fileTable f).fCount + BitVec.ofNat 16
    (a.opens f) := fun f => by
    rw [(hspec f).1, opens_eq_sum]
  refine ⟨hcount, fun i => Finset.sum_congr rfl fun f _ => names_congr (hspec f).2 ?_ i⟩
  have hle := fileRefs_le s f
  have hmine := opens_le a f
  rw [← hs.exact.1 f] at hle
  rw [hcount]
  by_cases h0 : ∃ fd, a.filp fd = some f
  · have hpos := hs.open_pos ha h0
    bv_omega
  · have hopens : a.opens f = 0 := Finset.sum_eq_zero fun fd _ => if_neg fun he => h0 ⟨fd, he⟩
    rw [hopens]
    exact Iff.of_eq (congrArg (· = 0) (BitVec.add_zero _))

theorem grows_copyProcess {nr k : Fin 8} {s t : Sys} {r : Int} (hs : Counted s)
    (hnr : s.task nr = none) (hr : copyProcess nr k s = some (r, t)) : ∃ d e, Grows d e s t := by
  obtain ⟨a, u, hu, h₁⟩ := bind_some.mp hr
  obtain ⟨ha, hus⟩ := current_some hu
  rw [hus] at h₁
  obtain ⟨pid, v, hv, h₂⟩ := bind_some.mp h₁
  cases hv
  obtain ⟨_, v, hv, h₃⟩ := bind_some.mp h₂
  obtain ⟨_, w, hw, h₄⟩ := bind_some.mp h₃
  obtain ⟨_, x, hx, h₅⟩ := bind_some.mp h₄
  obtain ⟨_, y, hy, h₆⟩ := bind_some.mp h₅
  obtain ⟨_, z, hz, h₇⟩ := bind_some.mp h₆
  cases hv
  cases h₇
  obtain ⟨hx, hxw⟩ := onFs_some hx
  obtain ⟨hy, hyx⟩ := onFs_some hy
  obtain ⟨hz, hzy⟩ := onFs_some hz
  obtain ⟨hw', -⟩ := raiseFiles_spec hw
  obtain ⟨hcount, hnames⟩ := raiseFiles_counts hs ha (by rfl) hw
  have hfs : w.fs = s.fs := by rw [hw']
  rw [hfs] at hx
  obtain ⟨hpwd, hpwd'⟩ := inodes_use (inodes_raiseInode _ _ _ _ hx)
  obtain ⟨hroot, hroot'⟩ := inodes_use (inodes_raiseInode _ _ _ _ hy)
  obtain ⟨hexe, hexe'⟩ := inodes_use (inodes_raiseInode _ _ _ _ hz)
  have htable : t.fileTable = w.fileTable := by rw [hzy, hyx, hxw]
  have htask : t.task = Function.update s.task nr
    (some { a with pid := s.lastPid, father := a.pid, leader := false }) := by
    rw [hzy, hyx, hxw, hw']
  refine ⟨a.opens, a.names, ?_, fun f => ?_, fun i => ?_, fun i => ?_⟩
  · rw [htable]
    exact hcount
  · have h := fileRefs_setTask htask f
    rw [hnr] at h
    exact h
  · rw [hexe, hroot, hpwd, Task.names, BitVec.ofNat_add, BitVec.ofNat_add, BitVec.add_assoc,
      BitVec.add_assoc, BitVec.add_assoc]
  · have h := taskNames_setTask htask i
    rw [hnr] at h
    have hnames : fileNames t i = fileNames s i :=
      (Finset.sum_congr rfl fun f _ => by rw [htable]).trans (hnames i)
    rw [inodeRefs, inodeRefs, hnames, hexe', hroot', hpwd']
    have hchild : (some { a with pid := s.lastPid, father := a.pid, leader := false } :
        Option Task).elim 0 (fun a => a.names i) = a.names i := rfl
    simp only [Option.elim_none] at h
    omega

theorem counted_sysFork {memory : Bool} {k : Fin 8} {s t : Sys} {r : Int} (hs : Counted s)
    (hr : sysFork memory k s = some (r, t)) : Counted t := by
  obtain ⟨x, u, hu, h⟩ := bind_some.mp hr
  clear hr
  obtain ⟨n, -, he⟩ := Option.map_eq_some_iff.mp hu
  obtain ⟨hx, rfl⟩ := Prod.mk.inj he
  clear hu
  have hu : Counted { s with lastPid := n } := hs.congr rfl rfl rfl
  cases x with
  | none =>
    cases h
    exact hu
  | some nr =>
    have hnr : s.task nr = none := by
      have hfree := List.find?_some hx
      exact (of_decide_eq_true hfree).2
    cases memory with
    | false =>
      cases h
      exact hu
    | true =>
      obtain ⟨d, e, hgrows⟩ := grows_copyProcess hu hnr h
      exact hgrows.counted hu

/-- `sys_open` has taken a descriptor and a file, which were free in `s`. -/
structure Taken (k : Fin 8) (fd : Fin 20) (f : Fin 64) (a b : Task) (s u : Sys) : Prop where
  before : s.task k = some a
  fd_free : a.filp fd = none
  file_free : (s.fileTable f).fCount = 0
  task : u.task = Function.update s.task k (some b)
  names : ∀ i, b.names i = a.names i
  filp : b.filp = Function.update a.filp fd (some f)
  files : ∀ x, Function.update u.fileTable f x = Function.update s.fileTable f x

section

variable {k : Fin 8} {fd : Fin 20} {f : Fin 64} {a b : Task} {s u : Sys}

theorem Taken.now (h : Taken k fd f a b s u) : u.task k = some b := by
  rw [h.task, Function.update_self]

theorem Taken.withFs (h : Taken k fd f a b s u) (fs : Fs) :
    Taken k fd f a b s { u with fs := fs } :=
  ⟨h.before, h.fd_free, h.file_free, h.task, h.names, h.filp, h.files⟩

theorem counted_refuseOpen {e : Nat} {t : Sys} {r : Int} (hs : Counted s)
    (ht : Taken k fd f a b s u) (hinodes : inodes u.fs = inodes s.fs)
    (h : refuseOpen k fd f e u = some (r, t)) : Counted t := by
  obtain ⟨_, v, hv, h₁⟩ := bind_some.mp h
  obtain ⟨_, w, hw, h₂⟩ := bind_some.mp h₁
  obtain rfl := modifyTask_some ht.now hv
  cases hw
  cases h₂
  have hfiles := ht.files { u.fileTable f with fCount := 0 }
  refine Grows.counted
    (grows_of_same (b := { b with filp := Function.update b.filp fd none }) ht.before ?_ ht.names ?_
      ?_ ?_ hinodes) hs
  · show Function.update u.task k _ = _
    rw [ht.task, Function.update_idem]
  · show Function.update b.filp fd none = a.filp
    rw [ht.filp, Function.update_idem, ← ht.fd_free, Function.update_eq_self]
  · intro g
    show (Function.update u.fileTable f _ g).fCount = _
    rw [hfiles]
    by_cases hg : g = f
    · subst hg
      rw [Function.update_self, ht.file_free]
    · rw [Function.update_of_ne hg]
  · intro i
    refine Finset.sum_congr rfl fun g _ => ?_
    show (Function.update u.fileTable f _ g).names i = _
    rw [hfiles]
    by_cases hg : g = f
    · subst hg
      rw [Function.update_self]
      simp [File.names, ht.file_free]
    · rw [Function.update_of_ne hg]

theorem Taken.takeTty {c : Task} {n : MInode} {t : Sys} {x : Unit} (h : Taken k fd f a b s u)
    (ht : takeTty k c n u = some (x, t)) : ∃ b', Taken k fd f a b' s t ∧ t.fs = u.fs := by
  unfold Sys.takeTty at ht
  split at ht
  · obtain rfl := modifyTask_some h.now ht
    refine ⟨{ b with tty := minor (n.iZone 0) },
      ⟨h.before, h.fd_free, h.file_free, ?_, h.names, h.filp, h.files⟩, rfl⟩
    show Function.update u.task k _ = _
    rw [h.task, Function.update_idem]
  · cases ht
    exact ⟨b, h, rfl⟩

theorem counted_finishOpen {disk : Cache.Disk} {flag : BitVec 32} {i : Nat} {t : Sys} {r : Int}
    (hs : Counted s) (ht : Taken k fd f a b s u) (hinodes : inodes u.fs = inodes s.fs + use i)
    (h : finishOpen disk k fd f flag i u = some (r, t)) : Counted t := by
  obtain ⟨c, v, hv, h₁⟩ := bind_some.mp h
  obtain ⟨hc, rfl⟩ := current_some hv
  obtain ⟨n, w, hw, h₂⟩ := bind_some.mp h₁
  cases hw
  split at h₂
  · obtain ⟨_, x, hx, h₃⟩ := bind_some.mp h₂
    obtain ⟨hput, hxu⟩ := onFs_some hx
    rw [hxu] at h₃
    refine counted_refuseOpen hs (ht.withFs x.fs) ?_ h₃
    rw [inodes_iput i _ _ _ hput, hinodes]
    exact add_neg_cancel_right _ _
  · obtain ⟨_, x, hx, h₃⟩ := bind_some.mp h₂
    obtain ⟨_, y, hy, h₄⟩ := bind_some.mp h₃
    obtain ⟨b', hb', hfs⟩ := ht.takeTty hx
    rw [← hfs] at hinodes
    cases hy
    cases h₄
    have hnames : ∀ j, File.names ⟨(v.fs.inodeTable i).iMode, flag.setWidth 16, 1, some i, 0⟩ j =
        (s.fileTable f).names j + Fs.names (some i) j := fun j => by
      simp [File.names, ht.file_free]
    refine Grows.counted
      (grows_of_file (o := some i) ht.before ht.fd_free hb'.task hb'.names hb'.filp
        (hb'.files _) ?_ hnames hinodes) hs
    rw [ht.file_free]
    rfl

theorem counted_sysOpen {disk : Cache.Disk} {path : Name} {flag mode : BitVec 32} {t : Sys}
    {r : Int} (hs : Counted s) (hr : sysOpen disk k path flag mode s = some (r, t)) :
    Counted t := by
  obtain ⟨a, v, hv, h₁⟩ := bind_some.mp hr
  clear hr
  obtain ⟨ha, hvs⟩ := current_some hv
  rw [hvs] at h₁
  cases hfd : freeFd a with
  | none =>
    rw [hfd] at h₁
    cases h₁
    exact hs
  | some fd =>
    rw [hfd] at h₁
    obtain ⟨_, w, hw, h₂⟩ := bind_some.mp h₁
    obtain ⟨x, y, hy, h₃⟩ := bind_some.mp h₂
    obtain ⟨rfl, hx⟩ := freeFile_spec hy
    cases x with
    | none =>
      cases h₃
      exact (grows_clearCloseOnExec ha hw).counted hs
    | some f =>
      have hf := hx f rfl
      obtain ⟨_, z, hz, h₄⟩ := bind_some.mp h₃
      obtain ⟨_, p, hp, h₅⟩ := bind_some.mp h₄
      obtain ⟨res, q, hq, h₆⟩ := bind_some.mp h₅
      have hfile : (s.fileTable f).fCount = 0 := by
        rw [modifyTask_some ha hw] at hf
        exact hf
      obtain rfl := modifyTask_twice ha hw hz
      cases hp
      obtain ⟨hopen, hqs⟩ := onFs_some hq
      have hinodes := inodes_openNamei _ _ _ _ _ _ _ hopen
      let b :=
        { a with
          closeOnExec := a.closeOnExec &&& ~~~ ((1 : BitVec 32) <<< fd.val),
          filp := Function.update a.filp fd (some f) }
      have ht : Taken k fd f a b s q := by
        rw [hqs]
        exact ⟨ha, freeFd_none hfd, hfile, rfl, fun _ => rfl, rfl,
          fun _ => Function.update_idem _ _ _⟩
      cases res with
      | error e => exact counted_refuseOpen hs ht (hinodes.trans (add_zero _)) h₆
      | ok i => exact counted_finishOpen hs ht hinodes h₆

end

end Sys

end Gpos
