import Gpos.Descriptors
import Gpos.SetupCounts

/-! The file table holds descriptions of open files: a call of `open` makes one, `dup`
and `fork` share those that there are. -/

namespace Gpos

/-- An open file, without the count of its descriptors. -/
structure Description where
  mode : Nat
  flags : BitVec 16
  inode : Option Nat
  pos : Nat

def File.description (x : File) : Description := ⟨x.fMode, x.fFlags, x.fInode, x.fPos⟩

namespace Fs

open Program

/-- The error numbers of the program are not zero. -/
def Errno (x : Program Fs (Except Nat Nat)) : Prop := ∀ s e t, x s = some (.error e, t) → 0 < e

section

variable {α : Type} {disk : Cache.Disk}

theorem Errno.bind {x : Program Fs α} {f : α → Program Fs (Except Nat Nat)}
    (hf : ∀ a, Errno (f a)) : Errno (x >>= f) := by
  intro s e t h
  obtain ⟨a, u, -, hu⟩ := bind_some.mp h
  exact hf a u e t hu

theorem Errno.pure_ok (i : Nat) : Errno (pure (.ok i)) := by
  intro s e t h
  cases h

theorem Errno.ite {p : Prop} [Decidable p] {x y : Program Fs (Except Nat Nat)} (hx : Errno x)
    (hy : Errno y) : Errno (if p then x else y) := by
  split
  · exact hx
  · exact hy

theorem errno_refuse {n : Nat} (hn : 0 < n) (is : List Nat) : Errno (refuse disk is n) := by
  induction is with
  | nil =>
    intro s e t h
    cases h
    exact hn
  | cons i is ih => exact .bind fun _ => ih

theorem errno_openNew (t : Task) (dir : Nat) (name : Name) (flag mode : BitVec 32) :
    Errno (openNew disk t dir name flag mode) := by
  refine .ite (errno_refuse (by decide) _) (.bind fun d =>
    .ite (errno_refuse (by decide) _) (.bind fun x => ?_))
  cases x with
  | none => exact errno_refuse (by decide) _
  | some i =>
    refine .bind fun _ => .bind fun x => ?_
    cases x with
    | none => exact .bind fun _ => errno_refuse (by decide) _
    | some e => exact .bind fun n => .bind fun _ => .bind fun _ => .bind fun _ => .pure_ok i

theorem errno_openFound (dir bh de : Nat) (flag : BitVec 32) :
    Errno (openFound disk dir bh de flag) := by
  refine .bind fun _ => .bind fun _ => .bind fun _ => .bind fun _ =>
    .ite (errno_refuse (by decide) _) (.bind fun i => .bind fun n =>
      .ite (errno_refuse (by decide) _) (.bind fun _ => .ite (.bind fun _ => .pure_ok i)
        (.pure_ok i)))

theorem errno_openNamei (t : Task) (path : Name) (flag mode : BitVec 32) :
    Errno (openNamei disk t path flag mode) := by
  refine .bind fun x => ?_
  cases x with
  | none =>
    intro s e t h
    cases h
    decide
  | some d =>
    refine .ite (.ite (.pure_ok _) (errno_refuse (by decide) _)) (.bind fun y => ?_)
    obtain ⟨dir, e⟩ := y
    cases e with
    | none => exact errno_openNew t dir d.2 _ _
    | some e => exact errno_openFound dir e.1 e.2 _

end

end Fs

namespace Sys

open Fs Program Descriptors

/-- A system call of a task, with what it returns. -/
structure Returned where
  task : Fin 8
  call : Syscall
  result : Int

def Returned.Step (disk : Cache.Disk) (rootDev : Nat) (c : Returned) (s t : Sys) : Prop :=
  (s.task c.task).isSome ∧ runSyscall disk rootDev c.task c.call s = some (c.result, t)

abbrev OpenFiles := Descriptors (Fin 8) (Fin 20) Description

/-- `fd` is the first descriptor that is free. -/
def Lowest (t : Fin 20 → Option Nat) (fd : Fin 20) : Prop := t fd = none ∧ ∀ e < fd, t e ≠ none

/-- What the calls do to the descriptors. -/
inductive Acts : Returned → OpenFiles → OpenFiles → Prop
  | setup (k : Fin 8) (nrHd : Nat) (r : Int) (A : OpenFiles) : Acts ⟨k, .setup nrHd, r⟩ A A
  | opened {k : Fin 8} {A : OpenFiles} {t : Fin 20 → Option Nat} {fd : Fin 20} (path : Name)
      (flag mode : BitVec 32) (m i : Nat) (ht : A.table k = some t) (hfd : Lowest t fd) :
      Acts ⟨k, .open path flag mode, (fd : Nat)⟩ A (A.opened k t fd ⟨m, flag.setWidth 16, some i, 0⟩)
  | refused {e : Nat} (k : Fin 8) (path : Name) (flag mode : BitVec 32) (A : OpenFiles)
      (he : 0 < e) : Acts ⟨k, .open path flag mode, -e⟩ A A
  | shared {k : Fin 8} {A : OpenFiles} {t : Fin 20 → Option Nat} {e fd : Fin 20} {n : Nat}
      (ht : A.table k = some t) (hn : t e = some n) (hfd : Lowest t fd) :
      Acts ⟨k, .dup e, (fd : Nat)⟩ A (A.setTable k (Function.update t fd (some n)))
  | closed {k : Fin 8} {A : OpenFiles} {t : Fin 20 → Option Nat} {fildes : Nat}
      (ht : A.table k = some t) (hn : ∀ e : Fin 20, e = fildes → t e = none) :
      Acts ⟨k, .dup fildes, -ebadf⟩ A A
  | full {k : Fin 8} {A : OpenFiles} {t : Fin 20 → Option Nat} (fildes : Nat)
      (ht : A.table k = some t) (hfd : ∀ fd, t fd ≠ none) : Acts ⟨k, .dup fildes, -emfile⟩ A A
  | forked {k q : Fin 8} {A : OpenFiles} {t : Fin 20 → Option Nat} (pid : Nat)
      (ht : A.table k = some t) (hq : A.table q = none) :
      Acts ⟨k, .fork true, pid⟩ A (A.setTable q t)
  | again {k : Fin 8} {memory : Bool} {A : OpenFiles}
      (h : memory = true → ∀ q : Fin 8, q ≠ 0 → A.table q ≠ none) :
      Acts ⟨k, .fork memory, -Fork.eagain⟩ A A

def filps (s : Sys) (k : Fin 8) : Option (Fin 20 → Option (Fin 64)) := (s.task k).map Task.filp

def descriptions (s : Sys) (f : Fin 64) : Description := (s.fileTable f).description

theorem filps_of_task {s : Sys} {k : Fin 8} {a : Task} (ha : s.task k = some a) :
    filps s k = some a.filp := congrArg (Option.map Task.filp) ha

theorem filps_setTask {s t : Sys} {k : Fin 8} {b : Task}
    (h : t.task = Function.update s.task k (some b)) :
    filps t = Function.update (filps s) k (some b.filp) := by
  funext j
  rw [filps, h]
  by_cases hj : j = k
  · rw [hj, Function.update_self, Function.update_self]
    rfl
  · rw [Function.update_of_ne hj, Function.update_of_ne hj]
    rfl

theorem descriptions_setFile {s t : Sys} {f : Fin 64} {x : File}
    (h : t.fileTable = Function.update s.fileTable f x) :
    descriptions t = Function.update (descriptions s) f x.description := by
  funext g
  rw [descriptions, h]
  by_cases hg : g = f
  · rw [hg, Function.update_self, Function.update_self]
  · rw [Function.update_of_ne hg, Function.update_of_ne hg]
    rfl

/-! The parts that leave the descriptors and the descriptions alone. -/

def files (s : Sys) : (Fin 8 → Option (Fin 20 → Option (Fin 64))) × (Fin 64 → Description) :=
  (filps s, descriptions s)

variable {disk : Cache.Disk} {rootDev : Nat} {k : Fin 8}

theorem files_onFs {α : Type} (x : Program Fs α) : Keeps files (onFs x) := by
  intro s a t h
  obtain ⟨htask, hfiles, -⟩ := onFs_frame h
  unfold files filps descriptions
  rw [htask, hfiles]

theorem files_modifyTask (k : Fin 8) {f : Task → Task} (hf : ∀ a, (f a).filp = a.filp) :
    Keeps files (modifyTask k f) := by
  intro s u t h
  cases h
  refine Prod.ext (funext fun j => ?_) rfl
  show (Function.update s.task k _ j).map Task.filp = (s.task j).map Task.filp
  by_cases hj : j = k
  · rw [hj, Function.update_self, Option.map_map]
    exact Option.map_congr fun a _ => hf a
  · rw [Function.update_of_ne hj]

theorem files_modifyFile (f : Fin 64) {g : File → File}
    (hg : ∀ x, (g x).description = x.description) : Keeps files (modifyFile f g) := by
  intro s u t h
  cases h
  refine Prod.ext rfl ((descriptions_setFile rfl).trans ?_)
  rw [hg]
  exact Function.update_eq_self f _

theorem files_raiseFiles (filp : Fin 20 → Option (Fin 64)) (fds : List (Fin 20)) :
    Keeps files (raiseFiles filp fds) := by
  induction fds with
  | nil => exact .pure _
  | cons fd fds ih =>
    cases hfd : filp fd with
    | none =>
      simp only [raiseFiles, hfd]
      exact ih
    | some f =>
      simp only [raiseFiles, hfd]
      apply Keeps.bind (files_modifyFile _ ?_) fun _ => ih
      exact fun _ => rfl

theorem files_mountRoot : Keeps files (mountRoot disk rootDev k) := by
  refine .bind (fun s x t h => ?_) fun _ => .ite .failure
    ((files_onFs _).bind fun _ => (files_onFs _).bind fun x => ?_)
  · cases h
    rfl
  · cases x with
    | none => exact .failure
    | some p =>
      refine (files_onFs _).bind fun mi => (files_onFs _).bind fun _ =>
        (files_onFs _).bind fun _ => ?_
      refine .bind (files_modifyTask k ?_) fun _ => (files_onFs _).bind fun sb =>
        (files_onFs _).bind fun _ => (files_onFs _).bind fun _ => .pure _
      exact fun _ => rfl

theorem files_sysSetup (nrHd : Nat) : Keeps files (sysSetup disk rootDev nrHd k) := by
  intro s r t h
  unfold sysSetup at h
  split at h
  · obtain ⟨_, u, hu, h₁⟩ := bind_some.mp h
    cases hu
    obtain ⟨_, v, hv, h₂⟩ := bind_some.mp h₁
    obtain ⟨_, w, hw, h₃⟩ := bind_some.mp h₂
    cases h₃
    exact (files_mountRoot _ _ _ hw).trans (files_onFs _ { s with callable := false } _ _ hv)
  · cases h
    rfl

/-! The descriptor that is taken is the first one. -/

theorem find_finRange {n : Nat} {p : Fin n → Bool} {i : Fin n}
    (h : (List.finRange n).find? p = some i) : p i = true ∧ ∀ j < i, p j = false := by
  obtain ⟨hi, m, hm, he, hlt⟩ := List.find?_eq_some_iff_getElem.mp h
  refine ⟨hi, fun j hj => ?_⟩
  rw [List.getElem_finRange] at he
  have hjm : j.val < m := by
    rw [← he] at hj
    exact hj
  simpa using hlt j hjm

theorem find_finRange_none {n : Nat} {p : Fin n → Bool} (h : (List.finRange n).find? p = none)
    (i : Fin n) : p i = false := by
  simpa using List.find?_eq_none.mp h i (List.mem_finRange i)

/-! What each call does, when it returns. -/

variable {fd : Fin 20} {f : Fin 64} {a b : Task} {s t u : Sys} {r : Int}

/-- The descriptor `fd` of the task was free, and now it is for the slot `f`. -/
structure Assigned (k : Fin 8) (a : Task) (fd : Fin 20) (f : Fin 64) (s t : Sys) : Prop where
  free : freeFd a = some fd
  filps : filps t = Function.update (filps s) k (some (Function.update a.filp fd (some f)))

theorem sysDup_cases {fildes : Nat} (ha : s.task k = some a)
    (h : sysDup k fildes s = some (r, t)) :
    (fileOf a fildes = none ∧ r = -ebadf ∧ t = s) ∨
      (freeFd a = none ∧ r = -emfile ∧ t = s) ∨
        ∃ (f : Fin 64) (fd : Fin 20), fileOf a fildes = some f ∧ r = (fd : Nat) ∧
          Assigned k a fd f s t ∧ descriptions t = descriptions s := by
  obtain ⟨a', u, hu, h₁⟩ := bind_some.mp h
  obtain ⟨ha', rfl⟩ := current_some hu
  obtain rfl : a' = a := Option.some.inj (ha'.symm.trans ha)
  clear h hu ha'
  cases hf : fileOf a' fildes with
  | none =>
    rw [hf] at h₁
    cases h₁
    exact .inl ⟨rfl, rfl, rfl⟩
  | some f =>
    rw [hf] at h₁
    cases hfd : freeFd a' with
    | none =>
      rw [hfd] at h₁
      cases h₁
      exact .inr (.inl ⟨rfl, rfl, rfl⟩)
    | some fd =>
      rw [hfd] at h₁
      obtain ⟨_, v, hv, h₂⟩ := bind_some.mp h₁
      obtain ⟨_, w, hw, h₃⟩ := bind_some.mp h₂
      obtain ⟨_, x, hx, h₄⟩ := bind_some.mp h₃
      have hw' := modifyTask_twice ha hv hw
      have hfilps := filps_setTask (congrArg Sys.task hw')
      have hdesc : descriptions w = descriptions u := by
        rw [hw']
        rfl
      cases h₄
      have hx' := files_modifyFile f (fun _ => by rfl) _ _ _ hx
      exact .inr (.inr ⟨f, fd, rfl, rfl, ⟨hfd, (congrArg Prod.fst hx').trans hfilps⟩,
        (congrArg Prod.snd hx').trans hdesc⟩)

theorem copyProcess_files {nr : Fin 8} (ha : s.task k = some a)
    (h : copyProcess nr k s = some (r, t)) :
    r = s.lastPid ∧ filps t = Function.update (filps s) nr (some a.filp) ∧
      descriptions t = descriptions s := by
  obtain ⟨a', u, hu, h₁⟩ := bind_some.mp h
  obtain ⟨ha', rfl⟩ := current_some hu
  obtain rfl : a' = a := Option.some.inj (ha'.symm.trans ha)
  obtain ⟨pid, v, hv, h₂⟩ := bind_some.mp h₁
  cases hv
  obtain ⟨_, v, hv, h₃⟩ := bind_some.mp h₂
  obtain ⟨_, w, hw, h₄⟩ := bind_some.mp h₃
  obtain ⟨_, x, hx, h₅⟩ := bind_some.mp h₄
  obtain ⟨_, y, hy, h₆⟩ := bind_some.mp h₅
  obtain ⟨_, z, hz, h₇⟩ := bind_some.mp h₆
  cases hv
  cases h₇
  have hfiles := (files_onFs _ _ _ _ hz).trans ((files_onFs _ _ _ _ hy).trans
    ((files_onFs _ _ _ _ hx).trans (files_raiseFiles _ _ _ _ _ hw)))
  refine ⟨rfl, (congrArg Prod.fst hfiles).trans ?_, congrArg Prod.snd hfiles⟩
  exact @filps_setTask u _ nr { a' with pid := u.lastPid, father := a'.pid, leader := false } rfl

theorem sysFork_cases {memory : Bool} (ha : s.task k = some a)
    (h : sysFork memory k s = some (r, t)) :
    (r = -Fork.eagain ∧ files t = files s ∧
      (memory = true → ∀ q : Fin 8, q ≠ 0 → s.task q ≠ none)) ∨
        ∃ nr pid, memory = true ∧ s.task nr = none ∧ r = (pid : Nat) ∧
          filps t = Function.update (filps s) nr (some a.filp) ∧
            descriptions t = descriptions s := by
  obtain ⟨x, u, hu, h₁⟩ := bind_some.mp h
  obtain ⟨n, -, he⟩ := Option.map_eq_some_iff.mp hu
  obtain ⟨hx, rfl⟩ := Prod.mk.inj he
  cases x with
  | none =>
    cases h₁
    refine .inl ⟨rfl, rfl, fun _ q hq => ?_⟩
    have hnot := of_decide_eq_false (find_finRange_none hx q)
    exact fun hnone => hnot ⟨Fin.val_ne_of_ne hq, hnone⟩
  | some nr =>
    cases memory with
    | false =>
      cases h₁
      exact .inl ⟨rfl, rfl, nofun⟩
    | true =>
      have hfree := (find_finRange hx).1
      obtain ⟨hr, hfilps, hdesc⟩ := copyProcess_files (s := { s with lastPid := n }) ha h₁
      exact .inr ⟨nr, n, rfl, (of_decide_eq_true hfree).2, hr, hfilps, hdesc⟩

theorem refuseOpen_files {e : Nat} (ht : Taken k fd f a b s u)
    (h : refuseOpen k fd f e u = some (r, t)) :
    r = -e ∧ filps t = filps s ∧ ∀ g, g ≠ f → descriptions t g = descriptions s g := by
  obtain ⟨_, v, hv, h₁⟩ := bind_some.mp h
  obtain ⟨_, w, hw, h₂⟩ := bind_some.mp h₁
  have hv' := modifyTask_some ht.now hv
  have htask := congrArg Sys.task hv'
  cases h₂
  cases hw
  refine ⟨rfl, ?_, fun g hg => ?_⟩
  · rw [ht.task, Function.update_idem] at htask
    have hfilps := filps_setTask htask
    rw [ht.filp, Function.update_idem, ← ht.fd_free, Function.update_eq_self,
      ← filps_of_task ht.before, Function.update_eq_self] at hfilps
    exact hfilps
  · rw [hv']
    show (Function.update u.fileTable f _ g).description = _
    rw [ht.files, Function.update_of_ne hg]
    rfl

/-- What a file that was not in use holds after an error is left open. -/
inductive OpenEnds (k : Fin 8) (a : Task) (flag : BitVec 32) (r : Int) (s t : Sys) : Prop
  | refused {e : Nat} (he : 0 < e) (hr : r = -e) (hfilps : filps t = filps s)
      (hdesc : ∀ g, (s.fileTable g).fCount ≠ 0 → descriptions t g = descriptions s g)
  | opened {fd : Fin 20} {f : Fin 64} {m i : Nat} (hf : (s.fileTable f).fCount = 0)
      (hr : r = (fd : Nat)) (h : Assigned k a fd f s t)
      (hdesc : descriptions t = Function.update (descriptions s) f ⟨m, flag.setWidth 16, some i, 0⟩)

theorem openEnds_refuse {e : Nat} {flag : BitVec 32} (he : 0 < e) (ht : Taken k fd f a b s u)
    (h : refuseOpen k fd f e u = some (r, t)) : OpenEnds k a flag r s t := by
  obtain ⟨hr, hfilps, hdesc⟩ := refuseOpen_files ht h
  refine .refused he hr hfilps fun g hg => hdesc g ?_
  rintro rfl
  exact hg ht.file_free

theorem openEnds_finish {flag : BitVec 32} {i : Nat} (hfd : freeFd a = some fd)
    (ht : Taken k fd f a b s u) (h : finishOpen disk k fd f flag i u = some (r, t)) :
    OpenEnds k a flag r s t := by
  obtain ⟨c, v, hv, h₁⟩ := bind_some.mp h
  obtain ⟨hc, rfl⟩ := current_some hv
  obtain ⟨n, w, hw, h₂⟩ := bind_some.mp h₁
  cases hw
  split at h₂
  · obtain ⟨_, x, hx, h₃⟩ := bind_some.mp h₂
    rw [(onFs_some hx).2] at h₃
    exact openEnds_refuse (by decide) (ht.withFs x.fs) h₃
  · obtain ⟨_, x, hx, h₃⟩ := bind_some.mp h₂
    obtain ⟨_, y, hy, h₄⟩ := bind_some.mp h₃
    obtain ⟨b', hb', -⟩ := ht.takeTty hx
    have hfilps := filps_setTask hb'.task
    rw [hb'.filp] at hfilps
    cases h₄
    have htable : t.fileTable =
        Function.update s.fileTable f ⟨(v.fs.inodeTable i).iMode, flag.setWidth 16, 1, some i, 0⟩ := by
      cases hy
      exact hb'.files _
    have hdesc := descriptions_setFile htable
    cases hy
    exact .opened ht.file_free rfl ⟨hfd, hfilps⟩ hdesc

theorem sysOpen_ends {path : Name} {flag mode : BitVec 32} (ha : s.task k = some a)
    (h : sysOpen disk k path flag mode s = some (r, t)) : OpenEnds k a flag r s t := by
  obtain ⟨a', v, hv, h₁⟩ := bind_some.mp h
  obtain ⟨ha', hvs⟩ := current_some hv
  obtain rfl : a' = a := Option.some.inj (ha'.symm.trans ha)
  rw [hvs] at h₁
  clear h hv ha'
  cases hfd : freeFd a' with
  | none =>
    rw [hfd] at h₁
    cases h₁
    exact .refused (e := einval) (by decide) rfl rfl fun _ _ => rfl
  | some fd =>
    rw [hfd] at h₁
    obtain ⟨_, w, hw, h₂⟩ := bind_some.mp h₁
    obtain ⟨x, y, hy, h₃⟩ := bind_some.mp h₂
    obtain ⟨rfl, hx⟩ := freeFile_spec hy
    cases x with
    | none =>
      cases h₃
      have hfiles : files t = files s := files_modifyTask k (fun _ => by rfl) _ _ _ hw
      exact .refused (e := einval) (by decide) rfl (congrArg Prod.fst hfiles)
        fun g _ => congrFun (congrArg Prod.snd hfiles) g
    | some f =>
      have hf := hx f rfl
      obtain ⟨_, z, hz, h₄⟩ := bind_some.mp h₃
      obtain ⟨_, p, hp, h₅⟩ := bind_some.mp h₄
      obtain ⟨res, q, hq, h₆⟩ := bind_some.mp h₅
      have hfile : (s.fileTable f).fCount = 0 := by
        rw [modifyTask_some ha hw] at hf
        exact hf
      obtain rfl := modifyTask_twice ha hw hz
      cases hp
      obtain ⟨hopen, hqs⟩ := onFs_some hq
      let b :=
        { a' with
          closeOnExec := a'.closeOnExec &&& ~~~ ((1 : BitVec 32) <<< fd.val),
          filp := Function.update a'.filp fd (some f) }
      have ht : Taken k fd f a' b s q := by
        rw [hqs]
        exact ⟨ha, freeFd_none hfd, hfile, rfl, fun _ => rfl, rfl,
          fun _ => Function.update_idem _ _ _⟩
      cases res with
      | error e => exact openEnds_refuse (errno_openNamei _ _ _ _ _ _ _ hopen) ht h₆
      | ok i => exact openEnds_finish hfd ht h₆

/-! The simulation -/

variable {A : OpenFiles} {slot : Nat → Fin 64} {tb : Fin 20 → Option Nat}

theorem free_iff (h : a.filp = fun fd => (tb fd).map slot) (fd : Fin 20) :
    a.filp fd = none ↔ tb fd = none := by
  rw [h]
  exact Option.map_eq_none_iff

theorem lowest_of_freeFd (h : a.filp = fun fd => (tb fd).map slot) (hfd : freeFd a = some fd) :
    Lowest tb fd := by
  obtain ⟨hfree, hlow⟩ := find_finRange hfd
  refine ⟨(free_iff h fd).mp (of_decide_eq_true hfree), fun e he hnone => ?_⟩
  exact of_decide_eq_false (hlow e he) ((free_iff h e).mpr hnone)

theorem full_of_freeFd (h : a.filp = fun fd => (tb fd).map slot) (hfd : freeFd a = none)
    (fd : Fin 20) : tb fd ≠ none := fun hnone =>
  of_decide_eq_false (find_finRange_none hfd fd) ((free_iff h fd).mpr hnone)

theorem fileOf_eq (a : Task) (e : Fin 20) : fileOf a e = a.filp e := dif_pos e.isLt

theorem Inv.in_use (hs : Inv s) {j : Fin 8} {filp : Fin 20 → Option (Fin 64)} {e : Fin 20}
    {g : Fin 64} (hj : filps s j = some filp) (he : filp e = some g) :
    (s.fileTable g).fCount ≠ 0 := by
  obtain ⟨b, hb, rfl⟩ := Option.map_eq_some_iff.mp hj
  intro h0
  have hpos := hs.counted.open_pos hb ⟨e, he⟩
  rw [h0] at hpos
  exact absurd hpos (Nat.lt_irrefl 0)

/-- The descriptors after a call, and the slots. -/
def Simulated (c : Returned) (A : OpenFiles) (t : Sys) : Prop :=
  ∃ B slot, Acts c A B ∧ Backs B slot (filps t) (descriptions t)

theorem simulated_open {path : Name} {flag mode : BitVec 32} (hs : Inv s)
    (hA : Backs A slot (filps s) (descriptions s)) (ha : s.task k = some a)
    (h : sysOpen disk k path flag mode s = some (r, t)) :
    Simulated ⟨k, .open path flag mode, r⟩ A t := by
  obtain ⟨tb, htb, hfilp⟩ := hA.table (filps_of_task ha)
  cases sysOpen_ends ha h with
  | refused he hr hfilps hdesc =>
    rw [hr]
    refine ⟨A, slot, .refused k path flag mode A he, hA.congr hfilps fun p u e g hu hg => ?_⟩
    exact hdesc g (hs.in_use hu hg)
  | @opened fd f m i hf hr hfd hdesc =>
    have hfree : ∀ p u e, filps s p = some u → u e ≠ some f := fun p u e hu he =>
      hs.in_use hu he hf
    have hother : ∀ p u e g, filps s p = some u → u e = some g →
        descriptions t g = descriptions s g := by
      intro p u e g hu hg
      rw [hdesc, Function.update_of_ne]
      rintro rfl
      exact hfree p u e hu hg
    have hB := hA.opened htb fd hfree hother
    rw [hdesc, Function.update_self, ← hdesc, ← hfilp, ← hfd.filps] at hB
    rw [hr]
    exact ⟨_, _, .opened path flag mode m i htb (lowest_of_freeFd hfilp hfd.free), hB⟩

theorem simulated_dup {fildes : Nat} (hA : Backs A slot (filps s) (descriptions s))
    (ha : s.task k = some a) (h : sysDup k fildes s = some (r, t)) :
    Simulated ⟨k, .dup fildes, r⟩ A t := by
  obtain ⟨tb, htb, hfilp⟩ := hA.table (filps_of_task ha)
  obtain ⟨hnone, rfl, rfl⟩ | ⟨hfull, rfl, rfl⟩ | ⟨f, fd, hf, rfl, hfd, hdesc⟩ :=
    sysDup_cases ha h
  · refine ⟨A, slot, .closed htb ?_, hA⟩
    rintro e rfl
    rw [fileOf_eq] at hnone
    exact (free_iff hfilp e).mp hnone
  · exact ⟨A, slot, .full fildes htb (full_of_freeFd hfilp hfull), hA⟩
  · have hlt : fildes < 20 := by
      by_contra hge
      rw [fileOf, dif_neg hge] at hf
      cases hf
    lift fildes to Fin 20 using hlt with e
    rw [fileOf_eq, hfilp] at hf
    obtain ⟨n, hn, rfl⟩ := Option.map_eq_some_iff.mp hf
    have hB := hA.setTable k (t := Function.update tb fd (some n)) fun e' m hm => by
      by_cases he : e' = fd
      · rw [he, Function.update_self] at hm
        exact ⟨k, tb, e, htb, hn.trans hm⟩
      · rw [Function.update_of_ne he] at hm
        exact ⟨k, tb, e', htb, hm⟩
    have hslots : (fun e => (Function.update tb fd (some n) e).map slot) =
        Function.update a.filp fd (some (slot n)) := by
      funext e
      rw [Function.apply_update fun _ => Option.map slot, hfilp]
      rfl
    rw [hslots, ← hfd.filps, ← hdesc] at hB
    exact ⟨_, slot, .shared htb hn (lowest_of_freeFd hfilp hfd.free), hB⟩

theorem simulated_fork {memory : Bool} (hA : Backs A slot (filps s) (descriptions s))
    (ha : s.task k = some a) (h : sysFork memory k s = some (r, t)) :
    Simulated ⟨k, .fork memory, r⟩ A t := by
  obtain ⟨tb, htb, hfilp⟩ := hA.table (filps_of_task ha)
  have hnone : ∀ q, s.task q = none ↔ A.table q = none := fun q => by
    rw [← Option.map_eq_none_iff (f := Task.filp)]
    show filps s q = none ↔ _
    rw [hA.tables]
    exact Option.map_eq_none_iff
  obtain ⟨rfl, hfiles, hall⟩ | ⟨nr, pid, rfl, hnr, rfl, hfilps, hdesc⟩ := sysFork_cases ha h
  · refine ⟨A, slot, .again fun hm q hq => ?_, ?_⟩
    · exact fun hq' => hall hm q hq ((hnone q).mpr hq')
    · exact hA.congr (congrArg Prod.fst hfiles) fun _ _ _ g _ _ =>
        congrFun (congrArg Prod.snd hfiles) g
  · have hB := hA.setTable nr fun e n hn => ⟨k, tb, e, htb, hn⟩
    rw [← hfilp, ← hfilps, ← hdesc] at hB
    exact ⟨_, slot, .forked pid htb ((hnone nr).mp hnr), hB⟩

theorem simulated_step {c : Returned} (hs : Inv s) (hA : Backs A slot (filps s) (descriptions s))
    (h : c.Step disk rootDev s t) : Simulated c A t := by
  obtain ⟨k, call, r⟩ := c
  obtain ⟨hsome, hr⟩ := h
  obtain ⟨a, ha⟩ := Option.isSome_iff_exists.mp hsome
  cases call with
  | setup nrHd =>
    have hfiles := files_sysSetup nrHd _ _ _ hr
    refine ⟨A, slot, .setup k nrHd r A, hA.congr (congrArg Prod.fst hfiles) ?_⟩
    exact fun _ _ _ g _ _ => congrFun (congrArg Prod.snd hfiles) g
  | «open» path flag mode => exact simulated_open hs hA ha hr
  | dup fildes => exact simulated_dup hA ha hr
  | fork memory => exact simulated_fork hA ha hr

/-- The first task, with no descriptor, and no description. -/
def noFiles : OpenFiles where
  table p := if p.val = 0 then some fun _ => none else none
  made := []

theorem noFiles_table (p : Fin 8) :
    noFiles.table p = if p = 0 then some fun _ => none else none := by
  simp only [noFiles, Fin.ext_iff, Fin.coe_ofNat_eq_mod, Nat.zero_mod]

theorem backs_boot (hs : Boot s) : Backs noFiles (fun _ => 0) (filps s) (descriptions s) := by
  have hused : ∀ n, ¬ noFiles.Used n := by
    rintro n ⟨p, t, fd, ht, hn⟩
    rw [noFiles_table] at ht
    split at ht
    · cases ht
      cases hn
    · cases ht
  refine ⟨fun p => ?_, fun m n hm => absurd hm (hused m), fun n hn => absurd hn (hused n)⟩
  rw [filps, hs.task, noFiles_table, Function.update_apply]
  split
  · rfl
  · rfl

/-- After any run of the system calls that open and share files, two descriptors have the same
slot of the file table only if one of them comes from the other. -/
theorem descriptors_shared {cs : List Returned} (hs : Boot s)
    (h : Run.Traces (Returned.Step disk rootDev) cs s t) :
    ∃ B slot, Run.Traces Acts cs noFiles B ∧ Backs B slot (filps t) (descriptions t) := by
  have hsim : ∀ (c : Returned) (s u : Sys) (A : OpenFiles),
      (Inv s ∧ ∃ slot, Backs A slot (filps s) (descriptions s)) → c.Step disk rootDev s u →
        ∃ B, Acts c A B ∧ Inv u ∧ ∃ slot, Backs B slot (filps u) (descriptions u) := by
    rintro c s u A ⟨hi, slot, hA⟩ hc
    obtain ⟨B, slot', hact, hB⟩ := simulated_step hi hA hc
    have hstep : step disk rootDev (c.task, c.call) s = some u := by
      rw [step, if_pos hc.1, hc.2, Option.map_some]
    exact ⟨B, hact, inv_step hi hstep, slot', hB⟩
  obtain ⟨B, hB, -, slot, hslot⟩ := h.simulate hsim ⟨hs.inv, _, backs_boot hs⟩
  exact ⟨B, slot, hB, hslot⟩

def Returned.after (disk : Cache.Disk) (rootDev : Nat) (c : Returned) (s : Sys) : Sys :=
  ((runSyscall disk rootDev c.task c.call s).map Prod.snd).getD s

theorem Returned.step_after {c : Returned} (hs : (s.task c.task).isSome)
    (h : (runSyscall disk rootDev c.task c.call s).map Prod.fst = some c.result) :
    c.Step disk rootDev s (Returned.after disk rootDev c s) := by
  obtain ⟨⟨r, t⟩, ht, hr⟩ := Option.map_eq_some_iff.mp h
  refine ⟨hs, ?_⟩
  rw [Returned.after, ht, ← hr]
  rfl

/-- A file is created, its descriptor copied and inherited, and the child opens it again. -/
theorem descriptors_shared_open :
    let cs : List Returned :=
      [⟨0, .setup 1, 0⟩, ⟨0, .open slashA 0o102 0o644, 0⟩, ⟨0, .dup 0, 1⟩, ⟨0, .fork true, 1⟩,
        ⟨1, .open slashA 0 0, 2⟩]
    ∃ t, Run.Traces (Returned.Step rootDisk 0x301) cs (atBoot sevenBuffers) t ∧
      ∃ B slot, Run.Traces Acts cs noFiles B ∧ Backs B slot (filps t) (descriptions t) := by
  have h : Run.Traces (Returned.Step rootDisk 0x301)
      [⟨0, .setup 1, 0⟩, ⟨0, .open slashA 0o102 0o644, 0⟩, ⟨0, .dup 0, 1⟩, ⟨0, .fork true, 1⟩,
        ⟨1, .open slashA 0 0, 2⟩] (atBoot sevenBuffers) _ :=
    .cons (Returned.step_after (by decide +kernel) (by decide +kernel))
      (.cons (Returned.step_after (by decide +kernel) (by decide +kernel))
        (.cons (Returned.step_after (by decide +kernel) (by decide +kernel))
          (.cons (Returned.step_after (by decide +kernel) (by decide +kernel))
            (.cons (Returned.step_after (by decide +kernel) (by decide +kernel)) (.nil _)))))
  exact ⟨_, h, descriptors_shared ⟨atBoot_task _, fun _ => rfl, rfl, fun _ => ⟨rfl, rfl⟩⟩ h⟩

end Sys

end Gpos
