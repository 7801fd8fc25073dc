import Gpos.EntryInsertion
import Gpos.PathOps

/-! The search for a path against a walk through the directories, component by component. -/

namespace Gpos.Volume

open BlockMap Fs

/-- An inode is in the slot with its number. -/
def pathOps (mounted : Option Nat) : PathOps Volume where
  toDirOps := dirOps mounted
  iget dev nr := if dev = 0 then failure else pure nr

instance (v : Volume) (d : Nat) (name : Name) (i : Nat) : Decidable (v.Named d name i) :=
  inferInstanceAs (Decidable (_ ∧ _))

def firstEntry (v : Volume) (d : Nat) (name : Name) : Option Nat :=
  (List.range (v.entries d)).find? fun i => v.Named d name i

/-- The inode that a name leads to. `..` in the root of the task stays there. -/
def lookup (v : Volume) (root d : Nat) (name : Name) : Option Nat :=
  if name = [] then none
  else if Image.dotDot name ∧ d = root then some root
  else (v.firstEntry d name).map (v.inodeOf d)

/-- The walk from a directory. Every inode it comes to is one. -/
def resolve (v : Volume) (root : Nat) : Nat → List Name → Option Nat
  | d, [] => some d
  | d, c :: cs =>
    (v.lookup root d c).bind fun i => if isDir (v.inodeTable i).iMode then v.resolve root i cs
      else none

/-- The files of one device, on which no other is mounted, and the root of the task. -/
structure Tree (v : Volume) (mounted : Option Nat) (root : Nat) : Prop where
  num : ∀ i, (v.inodeTable i).iNum = i
  dev : ∀ i, (v.inodeTable i).iDev ≠ 0
  mount : mounted = none ∨ mounted = some rootIno
  holes : ∀ d, isDir (v.inodeTable d).iMode = true → v.NoHoles d
  dir : isDir (v.inodeTable root).iMode = true
  dot : (v.firstEntry root [dot]).map (v.inodeOf root) = some root

section

variable {v : Volume} {mounted : Option Nat} {root d : Nat} {name : Name}

theorem Tree.stays (h : v.Tree mounted root) (r : Option Nat) (d : Nat) (name : Name) :
    v.Stays mounted r d name := by
  intro _
  by_cases hd : d = rootIno
  · subst hd
    exact .inr (.inr h.mount)
  · exact .inr (.inl (by rw [h.num]; exact hd))

theorem Tree.iget (h : v.Tree mounted root) (d nr : Nat) :
    (pathOps mounted).iget (v.inodeTable d).iDev nr v = some (nr, v) := by
  show (if (v.inodeTable d).iDev = 0 then failure else pure nr : Program Volume Nat) v = _
  rw [if_neg (h.dev d)]
  rfl

theorem firstEntry_first (hno : v.NoHoles d) (name : Name) :
    Image.IsFirst v.reader (v.inodeTable d) name
      ((v.firstEntry d name).map fun i => (v.entryZone d i, i % dirEntriesPerBlock)) := by
  cases h : v.firstEntry d name with
  | none =>
    intro i hi hn
    have hnone := List.find?_eq_none.mp h i (List.mem_range.mpr hi)
    exact hnone (decide_eq_true ((hno.named_iff hi).mp hn))
  | some i =>
    obtain ⟨hn, hi, hfirst⟩ := List.find?_range_eq_some.mp h
    have hi := List.mem_range.mp hi
    refine ⟨i, hi, (hno.named_iff hi).mpr (of_decide_eq_true hn), fun j hj hnj => ?_,
      Image.bmap_of_blockAt (hno.blockAt hi), rfl⟩
    have hnot := hfirst j hj
    rw [decide_eq_true ((hno.named_iff (hj.trans hi)).mp hnj)] at hnot
    exact absurd hnot (by decide)

theorem findEntry_firstEntry (hno : v.NoHoles d) {r : Option Nat} (hs : v.Stays mounted r d name)
    (hname : ∀ c ∈ name, c ≠ 0) (hlen : name ≠ []) :
    (dirOps mounted).findEntry r d name v =
      some ((d, (v.firstEntry d (Image.searchName (r == some d) name)).map fun i =>
        (v.entryZone d i, i % dirEntriesPerBlock)), v) := by
  by_cases hzone : (v.inodeTable d).iZone 0 = 0
  · have hempty : v.entries d = 0 := by
      by_contra h0
      exact (hno.zone (Nat.pos_of_ne_zero h0)).2 hzone
    have hnone : v.firstEntry d (Image.searchName (r == some d) name) = none := by
      rw [firstEntry, hempty]
      rfl
    rw [hnone, findEntry_eq hno hs, Image.findEntry]
    split <;> rfl
  · exact findEntry_of_first hno hzone hs hname hlen (firstEntry_first hno _)

theorem findEntry_lookup (h : v.Tree mounted root) (hd : isDir (v.inodeTable d).iMode = true)
    (hname : ∀ c ∈ name, c ≠ 0) :
      ∃ e, (dirOps mounted).findEntry (some root) d name v = some ((d, e), v) ∧
        e.map (fun e => deInode (v.block e.1) e.2) = v.lookup root d name := by
  rw [lookup]
  by_cases hlen : name = []
  · subst hlen
    exact ⟨none, rfl, rfl⟩
  · refine ⟨_, findEntry_firstEntry (h.holes d hd) (h.stays _ d name) hname hlen, ?_⟩
    rw [if_neg hlen, Option.map_map]
    show (v.firstEntry d (Image.searchName (some root == some d) name)).map (v.inodeOf d) = _
    by_cases hdots : Image.dotDot name ∧ d = root
    · obtain ⟨hdot, rfl⟩ := hdots
      rw [if_pos ⟨hdot, rfl⟩, Image.searchName, if_pos ⟨hdot, beq_self_eq_true _⟩]
      exact h.dot
    · rw [if_neg hdots, Image.searchName, if_neg fun hc =>
        hdots ⟨hc.1, (Option.some.inj (beq_iff_eq.mp hc.2)).symm⟩]

theorem getDirLoop_resolve (h : v.Tree mounted root) {rounds : Nat} {path : Name}
    (hr : path.length < rounds) (hpath : ∀ c ∈ path, c ≠ 0) (d : Nat) :
    (pathOps mounted).getDirLoop (some root) rounds path d v =
      some (if isDir (v.inodeTable d).iMode then v.resolve root d (path.splitOn slash).dropLast
        else none, v) := by
  induction rounds generalizing path d with
  | zero => exact absurd hr (Nat.not_lt_zero _)
  | succ rounds ih =>
    rw [splitOn_nextName, PathOps.getDirLoop]
    show (if isDir (v.inodeTable d).iMode = false ∨
      permission (v.inodeTable d) mayExec = false then _ else _ : Program Volume _) v = _
    by_cases hd : isDir (v.inodeTable d).iMode = true
    · rw [if_pos hd, if_neg fun hc => hc.elim (fun hc => Bool.false_ne_true (hc.symm.trans hd))
        fun hc => Bool.noConfusion hc]
      cases hn : nextName path with
      | mk name rest =>
        cases rest with
        | none => rfl
        | some rest =>
          obtain ⟨rfl, -⟩ := nextName_some hn
          rw [List.length_append, List.length_cons] at hr
          rw [List.forall_mem_append, List.forall_mem_cons] at hpath
          obtain ⟨e, hfind, hlookup⟩ := findEntry_lookup h hd hpath.1
          rw [Option.elim_some, List.dropLast_cons_of_ne_nil (List.splitOn_ne_nil slash rest),
            resolve, ← hlookup]
          show ((dirOps mounted).findEntry (some root) d name >>= _) v = _
          rw [Program.bind_of_eq hfind]
          cases e with
          | none => rfl
          | some e =>
            show ((pathOps mounted).iget (v.inodeTable d).iDev
              (deInode (v.block e.1) e.2) >>= _) v = _
            rw [Program.bind_of_eq (h.iget d _)]
            exact ih (by omega) hpath.2.2 _
    · rw [if_neg hd, if_pos (.inl (Bool.eq_false_of_not_eq_true hd))]
      rfl

theorem resolve_append (pre post : List Name) (d : Nat) :
    v.resolve root d (pre ++ post) = (v.resolve root d pre).bind fun i =>
      v.resolve root i post := by
  induction pre generalizing d with
  | nil => rfl
  | cons c pre ih =>
    rw [List.cons_append, resolve, resolve, Option.bind_assoc]
    refine congrArg _ (funext fun i => ?_)
    split
    · exact ih i
    · rfl

/-- A component is empty, it is missing, or it leads to no directory. -/
def Breaks (v : Volume) (root d : Nat) (c : Name) : Prop :=
  c = [] ∨ v.lookup root d c = none ∨ ∃ i, v.lookup root d c = some i ∧
    isDir (v.inodeTable i).iMode = false

theorem resolve_eq_none {comps : List Name} : v.resolve root d comps = none ↔
    ∃ pre c post i, comps = pre ++ c :: post ∧ v.resolve root d pre = some i ∧
      v.Breaks root i c := by
  induction comps generalizing d with
  | nil =>
    refine iff_of_false (Option.some_ne_none d) ?_
    rintro ⟨pre, c, post, i, h, -⟩
    exact absurd h.symm (List.append_ne_nil_of_right_ne_nil pre (List.cons_ne_nil c post))
  | cons c comps ih =>
    constructor
    · intro h
      rw [resolve] at h
      cases hl : v.lookup root d c with
      | none => exact ⟨[], c, comps, d, rfl, rfl, .inr (.inl hl)⟩
      | some i =>
        rw [hl, Option.bind_some] at h
        split at h
        next hd =>
          obtain ⟨pre, c', post, j, rfl, hpre, hb⟩ := ih.mp h
          refine ⟨c :: pre, c', post, j, rfl, ?_, hb⟩
          rw [resolve, hl, Option.bind_some, if_pos hd, hpre]
        next hd =>
          exact ⟨[], c, comps, d, rfl, rfl, .inr (.inr ⟨i, hl, Bool.eq_false_of_not_eq_true hd⟩)⟩
    · rintro ⟨pre, c', post, i, h, hpre, hb⟩
      rw [h, resolve_append, hpre, Option.bind_some, resolve]
      rcases hb with rfl | hl | ⟨j, hl, hd⟩
      · rfl
      · rw [hl]
        rfl
      · rw [hl, Option.bind_some, if_neg (by rw [hd]; exact Bool.false_ne_true)]

/-- Where the walk starts: at the root if the path begins with a slash. -/
def startOf (root pwd : Nat) (path : Name) : Nat := if path.head? = some slash then root else pwd

/-- The directory of a path, and what follows its last slash. -/
def walkPath (v : Volume) (root pwd : Nat) (path : Name) : Option (Nat × Name) :=
  if path = [] then none
  else (v.resolve root (startOf root pwd path) (splitPath path).dropLast).map fun d =>
    (d, (splitPath path).getLastD [])

/-- What opening a path for reading gives. -/
def openPath (v : Volume) (root pwd : Nat) (path : Name) : Except Nat Nat :=
  match v.walkPath root pwd path with
  | none => .error enoent
  | some (d, base) =>
    if base = [] then .ok d
    else match v.lookup root d base with
    | none => .error enoent
    | some i => .ok i

theorem dirNamei_walkPath (h : v.Tree mounted root) {pwd : Nat} {t : Task}
    (ht : t.root = some root ∧ t.pwd = some pwd)
    (hheld : (v.inodeTable root).iCount ≠ 0 ∧ (v.inodeTable pwd).iCount ≠ 0)
    (hpwd : isDir (v.inodeTable pwd).iMode = true) {path : Name} (hpath : ∀ c ∈ path, c ≠ 0) :
    (pathOps mounted).dirNamei t path v = some (v.walkPath root pwd path, v) := by
  have hdir : (pathOps mounted).getDir t path v =
      some (if path = [] then none else v.resolve root (startOf root pwd path)
        (splitPath path).dropLast, v) := by
    rw [PathOps.getDir, ht.1, ht.2]
    show (if (v.inodeTable root).iCount = 0 ∨ (v.inodeTable pwd).iCount = 0 then _
      else _ : Program Volume _) v = _
    rw [if_neg (not_or.mpr hheld)]
    cases path with
    | nil => rfl
    | cons c rest =>
      rw [if_neg (List.cons_ne_nil c rest), splitPath, startOf, List.head?_cons, List.tail_cons]
      by_cases hc : c = slash
      · subst hc
        rw [if_pos rfl, if_pos rfl]
        show (pathOps mounted).getDirLoop (some root) ((slash :: rest).length + 1)
          (if slash = slash then rest else _) (if slash = slash then root else pwd) v = _
        rw [if_pos rfl, if_pos rfl, getDirLoop_resolve h (by rw [List.length_cons]; omega)
          (List.forall_mem_cons.mp hpath).2, if_pos h.dir]
      · rw [if_neg fun hs => hc (Option.some.inj hs), if_neg fun hs => hc (Option.some.inj hs)]
        show (pathOps mounted).getDirLoop (some root) ((c :: rest).length + 1)
          (if c = slash then rest else c :: rest) (if c = slash then root else pwd) v = _
        rw [if_neg hc, if_neg hc, getDirLoop_resolve h (Nat.lt_succ_self _) hpath, if_pos hpwd]
  rw [PathOps.dirNamei, Program.bind_of_eq hdir, baseName_splitPath, walkPath]
  split
  · rfl
  · cases v.resolve root (startOf root pwd path) (splitPath path).dropLast <;> rfl

theorem startOf_dir (h : v.Tree mounted root) {pwd : Nat}
    (hpwd : isDir (v.inodeTable pwd).iMode = true) (path : Name) :
    isDir (v.inodeTable (startOf root pwd path)).iMode = true := by
  rw [startOf]
  split
  · exact h.dir
  · exact hpwd

theorem resolve_dir {comps : List Name} {i : Nat} (hd : isDir (v.inodeTable d).iMode = true)
    (h : v.resolve root d comps = some i) : isDir (v.inodeTable i).iMode = true := by
  induction comps generalizing d with
  | nil =>
    cases h
    exact hd
  | cons c comps ih =>
    obtain ⟨j, -, hj⟩ := Option.bind_eq_some_iff.mp h
    split at hj
    next hdir => exact ih hdir hj
    next => cases hj

theorem base_spec (path : Name) :
    slash ∉ (splitPath path).getLastD [] ∧
      (path = (splitPath path).getLastD [] ∨ ∃ pre, path =
        pre ++ slash :: (splitPath path).getLastD []) := by
  rw [← baseName_splitPath]
  rcases baseName_spec path path with ⟨hm, hb⟩ | ⟨hm, hp⟩
  · rw [hb]
    exact ⟨hm, .inl rfl⟩
  · exact ⟨hm, .inr hp⟩

theorem mem_of_mem_base {path : Name} {c : BitVec 8} (hc : c ∈ (splitPath path).getLastD []) :
    c ∈ path := by
  rcases (base_spec path).2 with hp | ⟨pre, hp⟩
  · rw [hp]
    exact hc
  · rw [hp]
    exact List.mem_append_right _ (List.mem_cons_of_mem _ hc)

theorem openRead_openPath (h : v.Tree mounted root) {pwd : Nat} {t : Task}
    (ht : t.root = some root ∧ t.pwd = some pwd)
    (hheld : (v.inodeTable root).iCount ≠ 0 ∧ (v.inodeTable pwd).iCount ≠ 0)
    (hpwd : isDir (v.inodeTable pwd).iMode = true) {path : Name} (hpath : ∀ c ∈ path, c ≠ 0) :
    ∃ v', (pathOps mounted).openRead t path v = some (v.openPath root pwd path, v') := by
  rw [PathOps.openRead, Program.bind_of_eq (dirNamei_walkPath h ht hheld hpwd hpath), openPath]
  cases hw : v.walkPath root pwd path with
  | none => exact ⟨v, rfl⟩
  | some r =>
    obtain ⟨d, base⟩ := r
    dsimp only
    by_cases hbase : base = []
    · subst hbase
      exact ⟨v, rfl⟩
    · have hlen : base.length ≠ 0 := fun h0 => hbase (List.length_eq_zero_iff.mp h0)
      have hd : isDir (v.inodeTable d).iMode = true ∧ ∀ c ∈ base, c ≠ 0 := by
        rw [walkPath] at hw
        split at hw
        · cases hw
        · obtain ⟨i, hi, he⟩ := Option.map_eq_some_iff.mp hw
          cases he
          exact ⟨resolve_dir (startOf_dir h hpwd path) hi, fun c hc => hpath c (mem_of_mem_base hc)⟩
      obtain ⟨e, hfind, hlookup⟩ := findEntry_lookup h hd.1 hd.2
      rw [if_neg hlen, if_neg hbase, ht.1, ← hlookup]
      show ∃ v', ((dirOps mounted).findEntry (some root) d base >>= _) v = _
      rw [Program.bind_of_eq hfind]
      cases e with
      | none => exact ⟨v, rfl⟩
      | some e =>
        obtain ⟨z, de⟩ := e
        refine ⟨v.setInode (deInode (v.block z) de) { v.inodeTable (deInode (v.block z) de) with
          iAtime := 0 }, ?_⟩
        dsimp only
        rw [Program.bind_of_eq (a := v.block z) (t := v) rfl,
          Program.bind_of_eq (a := v.inodeTable d) (t := v) rfl,
          Program.bind_of_eq (a := ()) (t := v) rfl, Program.bind_of_eq (a := ()) (t := v) rfl,
          Program.bind_of_eq (h.iget d _)]
        rfl

/-- `dir_namei` walks through the directories of the components in front of the last slash and
gives what is behind it. It fails at an empty path and where the walk breaks off.
`open_namei` for reading opens what the last name leads to. -/
theorem path_resolution (h : v.Tree mounted root) {pwd : Nat} {t : Task}
    (ht : t.root = some root ∧ t.pwd = some pwd)
    (hheld : (v.inodeTable root).iCount ≠ 0 ∧ (v.inodeTable pwd).iCount ≠ 0)
    (hpwd : isDir (v.inodeTable pwd).iMode = true) {path : Name} (hpath : ∀ c ∈ path, c ≠ 0) :
    (pathOps mounted).dirNamei t path v = some (v.walkPath root pwd path, v) ∧
      (slash ∉ (splitPath path).getLastD [] ∧
        (path = (splitPath path).getLastD [] ∨ ∃ pre, path =
          pre ++ slash :: (splitPath path).getLastD [])) ∧
      (v.walkPath root pwd path = none ↔ path = [] ∨
        ∃ pre c post i, (splitPath path).dropLast = pre ++ c :: post ∧
          v.resolve root (startOf root pwd path) pre = some i ∧ v.Breaks root i c) ∧
      ∃ v', (pathOps mounted).openRead t path v = some (v.openPath root pwd path, v') := by
  refine ⟨dirNamei_walkPath h ht hheld hpwd hpath, base_spec path, ?_,
    openRead_openPath h ht hheld hpwd hpath⟩
  rw [walkPath]
  split
  next hnil => exact iff_of_true rfl (.inl hnil)
  next hne => rw [Option.map_eq_none_iff, resolve_eq_none, or_iff_right hne]

end

def smallTree : Volume where
  order := []
  firstDataZone := 5
  nzones := 8
  bits n := n ≤ 1
  block _ := BitVec.ofNat 8192 (1 + 46 * 2 ^ 16 + (2 + 97 * 2 ^ 16) * 2 ^ 128)
  inodeTable i :=
    { zeroInode with
      iNum := i, iDev := 1, iCount := 1
      iMode := if i = 1 then 0o040000 else 0o100000, iSize := if i = 1 then 32 else 0,
        iZone := fun k => if k = 0 then 5 else 0 }

def smallTask : Task := ⟨0, 0, false, 0, 0, 0, 0, some 1, some 1, none, 0, fun _ => none⟩

theorem smallTree_tree : smallTree.Tree none 1 := by
  refine ⟨fun _ => rfl, fun _ => Nat.one_ne_zero, .inl rfl,
    fun d hd => noHoles_of_zone fun i hi => ?_, by decide, by decide +kernel⟩
  have hsmall : i < 2 := by
    by_cases hone : d = 1
    · subst hone
      exact hi
    · have hmode : isDir (if d = 1 then 0o040000 else 0o100000) = true := hd
      rw [if_neg hone] at hmode
      exact absurd hmode (by decide)
  have hdiv : i / dirEntriesPerBlock = 0 := Nat.div_eq_of_lt (lt_trans hsmall (by decide))
  rw [entryZone, hdiv]
  exact ⟨by decide, (by decide : 5 ≠ 0)⟩

/-- The walk along `/../a` stays in the root. -/
theorem path_resolution_small :
    (pathOps none).dirNamei smallTask [47, 46, 46, 47, 97] smallTree =
        some (some (1, [97]), smallTree) ∧
      ∃ v', (pathOps none).openRead smallTask [47, 46, 46, 47, 97] smallTree =
        some (.ok 2, v') := by
  have hwalk : smallTree.walkPath 1 1 [47, 46, 46, 47, 97] = some (1, [97]) := by decide +kernel
  obtain ⟨hdir, -, -, hopen⟩ :=
    @path_resolution _ _ _ smallTree_tree 1 smallTask ⟨rfl, rfl⟩ ⟨by decide, by decide⟩ (by decide)
      [47, 46, 46, 47, 97] (by decide)
  have hfile : smallTree.lookup 1 1 [97] = some 2 := by decide +kernel
  rw [openPath, hwalk] at hopen
  dsimp only at hopen
  rw [if_neg (by decide), hfile] at hopen
  exact ⟨hwalk ▸ hdir, hopen⟩

end Gpos.Volume
