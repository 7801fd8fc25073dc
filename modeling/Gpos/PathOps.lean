import Gpos.DirOps
import Gpos.Open

/-! `get_dir`, `dir_namei` and `open_namei` for reading, character by
character over the operations they use. -/

namespace Gpos.Fs

/-- What the search for a path uses besides that for a name. -/
structure PathOps (S : Type) extends DirOps S where
  iget : Nat → Nat → Program S Nat

/-- The `for` loop of `get_dir`: a name, and what follows the slash behind it. -/
def nextName : Name → Name × Option Name
  | [] => ([], none)
  | c :: path => if c = slash then ([], some path) else (c :: (nextName path).1, (nextName path).2)

/-- The loop of `dir_namei`. -/
def baseName : Name → Name → Name
  | [], base => base
  | c :: path, base => baseName path (if c = slash then path else base)

namespace PathOps

variable {S : Type} (o : PathOps S)

def getDirLoop (root : Option Nat) : Nat → Name → Nat → Program S (Option Nat)
  | 0, _, _ => failure
  | rounds + 1, path, i => do
    let n ← o.inode i
    if isDir n.iMode = false ∨ permission n mayExec = false then
      o.iput i
      return none
    else
      match nextName path with
      | (_, none) => return some i
      | (name, some path) => do
        let (i, e) ← o.findEntry root i name
        match e with
        | none =>
          o.iput i
          return none
        | some (bh, de) => do
          let inr := deInode (← o.data bh) de
          let idev := (← o.inode i).iDev
          o.brelse bh
          o.iput i
          let i ← o.iget idev inr
          getDirLoop root rounds path i

def getDir (t : Task) (path : Name) : Program S (Option Nat) := do
  match t.root, t.pwd with
  | some root, some pwd => do
    if (← o.inode root).iCount = 0 ∨ (← o.inode pwd).iCount = 0 then failure
    else
      match path with
      | [] => return none
      | c :: rest => do
        let i := if c = slash then root else pwd
        o.raiseCount i
        o.getDirLoop t.root (path.length + 1) (if c = slash then rest else path) i
  | _, _ => failure

def dirNamei (t : Task) (path : Name) : Program S (Option (Nat × Name)) := do
  match ← o.getDir t path with
  | none => return none
  | some dir => return some (dir, baseName path path)

def openRead (t : Task) (path : Name) : Program S (Except Nat Nat) := do
  match ← o.dirNamei t path with
  | none => return .error enoent
  | some (dir, name) => do
    if name.length = 0 then return .ok dir
    else
      let (dir, e) ← o.findEntry t.root dir name
      match e with
      | none =>
        o.iput dir
        return .error enoent
      | some (bh, de) => do
        let inr := deInode (← o.data bh) de
        let dev := (← o.inode dir).iDev
        o.brelse bh
        o.iput dir
        let i ← o.iget dev inr
        let n ← o.inode i
        if permission n (accMode 0) = false then
          o.iput i
          return .error eperm
        else
          o.modifyInode i fun n => { n with iAtime := 0 }
          return .ok i

end PathOps

/-! Both loops find the slashes where `splitPath` finds them. -/

theorem nextName_none {path name : Name} (h : nextName path = (name, none)) : slash ∉ path := by
  induction path generalizing name with
  | nil => exact List.not_mem_nil
  | cons c path ih =>
    rw [nextName] at h
    split at h
    · cases h
    next hc =>
      obtain ⟨-, hrest⟩ := Prod.mk.inj h
      have hpath := ih (Prod.ext rfl hrest : nextName path = ((nextName path).1, none))
      exact fun hm => (List.mem_cons.mp hm).elim (fun h => hc h.symm) hpath

theorem nextName_some {path name rest : Name} (h : nextName path = (name, some rest)) :
    path = name ++ slash :: rest ∧ slash ∉ name := by
  induction path generalizing name with
  | nil => cases h
  | cons c path ih =>
    rw [nextName] at h
    split at h
    next hc =>
      cases h
      exact ⟨by rw [hc]; rfl, List.not_mem_nil⟩
    next hc =>
      obtain ⟨rfl, hrest⟩ := Prod.mk.inj h
      obtain ⟨hpath, hm⟩ := ih (Prod.ext rfl hrest : nextName path = ((nextName path).1, some rest))
      exact ⟨congrArg (c :: ·) hpath, fun h => (List.mem_cons.mp h).elim (fun h => hc h.symm) hm⟩

theorem splitOn_nextName (path : Name) :
    path.splitOn slash = (nextName path).1 :: ((nextName path).2.elim [] fun rest =>
      rest.splitOn slash) := by
  induction path with
  | nil => rfl
  | cons c path ih =>
    rw [List.splitOn_cons_eq_if_modifyHead, nextName]
    by_cases hc : c = slash
    · rw [if_pos (beq_iff_eq.mpr hc), if_pos hc]
      rfl
    · rw [if_neg fun h => hc (beq_iff_eq.mp h), if_neg hc, ih]
      rfl

theorem baseName_of_not_mem {path base : Name} (h : slash ∉ path) : baseName path base = base := by
  induction path generalizing base with
  | nil => rfl
  | cons c path ih =>
    rw [List.mem_cons, not_or] at h
    rw [baseName, if_neg fun hc => h.1 hc.symm, ih h.2]

theorem baseName_append (name : Name) {rest : Name} (base : Name) :
    baseName (name ++ slash :: rest) base = baseName rest rest := by
  induction name generalizing base with
  | nil => rw [List.nil_append, baseName, if_pos rfl]
  | cons c name ih => exact ih _

theorem baseName_spec (path base : Name) :
    slash ∉ path ∧ baseName path base = base ∨
      slash ∉ baseName path base ∧ ∃ pre, path = pre ++ slash :: baseName path base := by
  induction path generalizing base with
  | nil => exact .inl ⟨List.not_mem_nil, rfl⟩
  | cons c path ih =>
    rw [baseName]
    split
    next hc =>
      subst hc
      rcases ih path with ⟨hm, hb⟩ | ⟨hm, pre, hp⟩
      · rw [hb]
        exact .inr ⟨hm, [], rfl⟩
      · exact .inr ⟨hm, slash :: pre, congrArg (slash :: ·) hp⟩
    next hc =>
      rcases ih base with ⟨hm, hb⟩ | ⟨hm, pre, hp⟩
      · exact .inl ⟨fun h => (List.mem_cons.mp h).elim (fun h => hc h.symm) hm, hb⟩
      · exact .inr ⟨hm, c :: pre, congrArg (c :: ·) hp⟩

theorem baseName_splitPath (path : Name) : baseName path path = (splitPath path).getLastD [] := by
  have hlast : ∀ n, ∀ path : Name, path.length < n →
    baseName path path = (path.splitOn slash).getLastD [] := by
    intro n
    induction n with
    | zero => exact fun path h => absurd h (Nat.not_lt_zero _)
    | succ n ih =>
      intro path hn
      rw [splitOn_nextName]
      cases h : nextName path with
      | mk name rest =>
        cases rest with
        | none =>
          have hm := nextName_none h
          rw [baseName_of_not_mem hm]
          have hsplit := splitOn_nextName path
          rw [h, List.splitOn_eq_singleton hm] at hsplit
          exact (List.cons.inj hsplit).1
        | some rest =>
          obtain ⟨rfl, -⟩ := nextName_some h
          rw [List.length_append, List.length_cons] at hn
          rw [baseName_append, ih rest (by omega)]
          have hne : rest.splitOn slash ≠ [] := List.splitOn_ne_nil slash rest
          show _ = (name :: rest.splitOn slash).getLastD []
          rw [List.getLastD_cons]
          cases hs : rest.splitOn slash with
          | nil => exact absurd hs hne
          | cons a l => rfl
  rw [splitPath]
  split
  next hhead =>
    cases path with
    | nil => cases hhead
    | cons c rest =>
      obtain rfl := Option.some.inj hhead
      exact (baseName_append [] (slash :: rest)).trans (hlast _ rest (Nat.lt_succ_self _))
  next => exact hlast _ path (Nat.lt_succ_self _)

def pathOps (disk : Cache.Disk) : PathOps Fs where
  toDirOps := dirOps disk
  iget := iget disk

section

variable (disk : Cache.Disk)

theorem getDirLoop_pathOps (root : Option Nat) {rounds : Nat} {path : Name}
    (hr : path.length < rounds) (i : Nat) :
    (pathOps disk).getDirLoop root rounds path i =
      walk disk root (path.splitOn slash).dropLast i := by
  induction rounds generalizing path i with
  | zero => exact absurd hr (Nat.not_lt_zero _)
  | succ rounds ih =>
    rw [splitOn_nextName, PathOps.getDirLoop]
    cases h : nextName path with
    | mk name rest =>
      cases rest with
      | none =>
        refine bind_congr fun n => ite_congr rfl (fun _ => rfl) fun _ => rfl
      | some rest =>
        obtain ⟨rfl, -⟩ := nextName_some h
        rw [List.length_append, List.length_cons] at hr
        rw [Option.elim_some, List.dropLast_cons_of_ne_nil (List.splitOn_ne_nil slash rest), walk]
        refine bind_congr fun n => ite_congr rfl (fun _ => rfl) fun _ => ?_
        show ((dirOps disk).findEntry root i name >>= _) = _
        rw [findEntry_dirOps]
        refine bind_congr fun r => ?_
        obtain ⟨i, e⟩ := r
        cases e with
        | none => rfl
        | some e =>
          refine bind_congr fun b => bind_congr fun n => bind_congr fun _ => bind_congr fun _ =>
            bind_congr fun i => ?_
          exact ih (by omega) i

theorem getDir_pathOps (t : Task) (path : Name) :
    (pathOps disk).getDir t path = getDir disk t path := by
  rw [PathOps.getDir, getDir]
  cases hroot : t.root with
  | none => rfl
  | some root =>
    cases t.pwd with
    | none => rfl
    | some pwd =>
      refine bind_congr fun n => bind_congr fun m => ite_congr rfl (fun _ => rfl) fun _ => ?_
      cases path with
      | nil => rfl
      | cons c rest =>
        rw [if_neg (List.cons_ne_nil c rest), splitPath, List.head?_cons, List.tail_cons]
        dsimp only
        by_cases hc : c = slash
        · rw [if_pos hc, if_pos hc, if_pos (congrArg some hc), if_pos (congrArg some hc)]
          exact bind_congr fun _ => getDirLoop_pathOps disk _ (by rw [List.length_cons]; omega) root
        · rw [if_neg hc, if_neg hc, if_neg fun h => hc (Option.some.inj h),
            if_neg fun h => hc (Option.some.inj h)]
          exact bind_congr fun _ => getDirLoop_pathOps disk _ (Nat.lt_succ_self _) pwd

theorem dirNamei_pathOps (t : Task) (path : Name) :
    (pathOps disk).dirNamei t path = dirNamei disk t path := by
  refine (congrArg (fun x : Program Fs _ => x >>= _) (getDir_pathOps disk t path)).trans
    (bind_congr fun r => ?_)
  cases r with
  | none => rfl
  | some dir => exact congrArg (fun base => pure (some (dir, base))) (baseName_splitPath path)

/-- With `O_RDONLY` nothing is made and nothing is cut. -/
theorem openRead_pathOps (t : Task) (path : Name) (mode : BitVec 32) :
    (pathOps disk).openRead t path = openNamei disk t path 0 mode := by
  have hflag : (if (0 : BitVec 32) &&& oTrunc ≠ 0 ∧ (0 : BitVec 32) &&& oAccmode = 0 then 0 |||
    oWronly else 0) = 0 := by decide
  rw [PathOps.openRead, dirNamei_pathOps, openNamei]
  dsimp only
  rw [hflag]
  refine bind_congr fun r => ?_
  cases r with
  | none => rfl
  | some r =>
    obtain ⟨dir, name⟩ := r
    refine ite_congr rfl (fun _ => rfl) fun _ => ?_
    show ((dirOps disk).findEntry t.root dir name >>= _) = _
    rw [findEntry_dirOps]
    refine bind_congr fun r => ?_
    obtain ⟨dir, e⟩ := r
    cases e with
    | none => rfl
    | some e =>
      obtain ⟨bh, de⟩ := e
      dsimp only
      rw [openFound]
      show ((readBuf bh >>= fun b => pure b.bData) >>= _ : Program Fs _) = _
      rw [bind_assoc]
      refine bind_congr (m := Program Fs) fun b => (pure_bind _ _).trans ?_
      refine bind_congr (m := Program Fs) fun n => bind_congr (m := Program Fs) fun _ =>
        bind_congr (m := Program Fs) fun _ => ?_
      rw [if_neg (by decide)]
      refine bind_congr (m := Program Fs) fun i => bind_congr (m := Program Fs) fun n => ?_
      refine ite_congr (propext ⟨.inr, fun h => h.resolve_left fun hc => hc.2 rfl⟩) (fun _ => rfl)
        fun _ => bind_congr (m := Program Fs) fun _ => ?_
      rw [if_neg (by decide)]

end

end Gpos.Fs
