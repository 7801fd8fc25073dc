import Gpos.Directory

/-! `find_entry` and `add_entry` of `fs/namei.c` over the operations they use,
which are those of the buffer cache or those of a volume. -/

namespace Gpos.Fs

open BlockMap

/-- What the searches use besides the operations of `_bmap`. `setData` with
`true` sets `b_dirt`. `sImount` is the inode that a device is mounted on. -/
structure DirOps (S : Type) extends BlockMap.Ops S where
  inode : Nat → Program S MInode
  modifyInode : Nat → (MInode → MInode) → Program S Unit
  data : Nat → Program S Block
  setData : Nat → Bool → (Block → Block) → Program S Unit
  sImount : Nat → Program S (Option Nat)
  iput : Nat → Program S Unit
  raiseCount : Nat → Program S Unit

namespace DirOps

variable {S : Type} (o : DirOps S)

def nextBlock (dir block : Nat) : Program S (Option Nat) := do
  if block = 0 then return none
  else o.bread (← o.inode dir).iDev block

def scanDir (dir len : Nat) (name : Name) (entries : Nat) :
    Nat → Nat → Nat → Nat → Program S (Option (Nat × Nat))
  | 0, _, _, _ => failure
  | rounds + 1, bh, de, i => do
    if entries ≤ i then
      o.brelse bh
      return none
    else if de < dirEntriesPerBlock then
      if matchEntry len name (← o.data bh) de then return some (bh, de)
      else scanDir dir len name entries rounds bh (de + 1) (i + 1)
    else
      o.brelse bh
      match ← o.nextBlock dir (← BlockMap.bmap o.toOps dir (i / dirEntriesPerBlock)) with
      | none => if entries ≤ i + dirEntriesPerBlock then return none else failure
      | some bh => do
        if matchEntry len name (← o.data bh) 0 then return some (bh, 0)
        else scanDir dir len name entries rounds bh 1 (i + 1)

def upwards (root : Option Nat) (dir len : Nat) (name : Name) : Program S (Nat × Nat) := do
  if len = 2 ∧ name.getD 0 0 = dot ∧ name.getD 1 0 = dot then
    if root = some dir then return (dir, 1)
    else if (← o.inode dir).iNum = rootIno then
      match ← o.sImount (← o.inode dir).iDev with
      | none => return (dir, len)
      | some mounted => do
        o.iput dir
        o.raiseCount mounted
        return (mounted, len)
    else return (dir, len)
  else return (dir, len)

def findEntry (root : Option Nat) (dir : Nat) (name : Name) :
    Program S (Nat × Option (Nat × Nat)) := do
  let len := min name.length nameLen
  let entries := (← o.inode dir).iSize / 16
  if len = 0 then return (dir, none)
  else
    let (dir, len) ← o.upwards root dir len name
    let n ← o.inode dir
    if n.iZone 0 = 0 then return (dir, none)
    else match ← o.bread n.iDev (n.iZone 0) with
    | none => return (dir, none)
    | some bh => do return (dir, ← o.scanDir dir len name entries (entries + 1) bh 0 0)

def extendDir (dir bh de i : Nat) : Program S Unit := do
  if (← o.inode dir).iSize ≤ i * 16 then
    o.setData bh false fun b => putBits b (128 * de) 16 0
    o.modifyInode dir fun n => { n with iSize := (i + 1) * 16, iDirt := true, iCtime := 0 }

def claimEntry (dir len : Nat) (name : Name) (bh de i : Nat) : Program S Bool := do
  o.extendDir dir bh de i
  if deInode (← o.data bh) de = 0 then
    o.modifyInode dir fun n => { n with iMtime := 0 }
    o.setData bh true (putName name len de)
    return true
  else return false

def scanFree (dir len : Nat) (name : Name) : Nat → Nat → Nat → Nat → Program S (Option (Nat × Nat))
  | 0, _, _, _ => failure
  | rounds + 1, bh, de, i => do
    if de < dirEntriesPerBlock then
      if ← o.claimEntry dir len name bh de i then return some (bh, de)
      else scanFree dir len name rounds bh (de + 1) (i + 1)
    else
      o.brelse bh
      let block ← BlockMap.createBlock o.toOps dir (i / dirEntriesPerBlock)
      if block = 0 then return none
      else
        match ← o.bread (← o.inode dir).iDev block with
        | none => failure
        | some bh => do
          if ← o.claimEntry dir len name bh 0 i then return some (bh, 0)
          else scanFree dir len name rounds bh 1 (i + 1)

def addEntry (dir : Nat) (name : Name) : Program S (Option (Nat × Nat)) := do
  let len := min name.length nameLen
  if len = 0 then return none
  else
    let n ← o.inode dir
    if n.iZone 0 = 0 then return none
    else match ← o.bread n.iDev (n.iZone 0) with
    | none => return none
    | some bh => o.scanFree dir len name (n.iSize / 16 + 2) bh 0 0

/-- The inode number that the caller of `add_entry` puts into the entry. -/
def setEntryInode (bh de inr : Nat) : Program S Unit :=
  o.setData bh true fun b => putBits b (128 * de) 16 inr

end DirOps

def dirOps (disk : Cache.Disk) : DirOps Fs where
  toOps := Fs.ops disk
  inode := inode
  modifyInode := modifyInode
  data bh := fun s => some ((s.cache.buf bh).bData, s)
  setData bh dirt f := modifyBuf bh fun b => { b with bData := f b.bData, bDirt := dirt || b.bDirt }
  sImount dev := do return (← getSuper dev).sImount
  iput := iput disk
  raiseCount := raiseCount

section

variable (disk : Cache.Disk)

theorem nextBlock_dirOps (dir block : Nat) :
    (dirOps disk).nextBlock dir block = nextBlock disk dir block := rfl

theorem scanDir_dirOps (dir len : Nat) (name : Name) (entries rounds bh de i : Nat) :
    (dirOps disk).scanDir dir len name entries rounds bh de i =
      scanDir disk dir len name entries rounds bh de i := by
  induction rounds generalizing bh de i with
  | zero => rfl
  | succ rounds ih =>
    refine ite_congr rfl (fun _ => rfl) fun _ => ite_congr rfl (fun _ => ?_) fun _ => ?_
    · exact bind_congr fun b => ite_congr rfl (fun _ => rfl) fun _ => ih bh _ _
    · refine bind_congr fun _ => bind_congr fun block => bind_congr fun x => ?_
      cases x with
      | none => rfl
      | some bh' => exact bind_congr fun b => ite_congr rfl (fun _ => rfl) fun _ => ih bh' _ _

theorem upwards_dirOps (root : Option Nat) (dir len : Nat) (name : Name) :
    (dirOps disk).upwards root dir len name = upwards disk root dir len name := by
  refine ite_congr rfl (fun _ => ite_congr rfl (fun _ => rfl) fun _ => ?_) fun _ => rfl
  refine bind_congr fun n => ite_congr rfl (fun _ => bind_congr fun m => ?_) fun _ => rfl
  refine (bind_assoc _ _ _).trans (bind_congr fun sb => (pure_bind _ _).trans ?_)
  cases sb.sImount <;> rfl

theorem findEntry_dirOps (root : Option Nat) (dir : Nat) (name : Name) :
    (dirOps disk).findEntry root dir name = findEntry disk root dir name := by
  refine bind_congr fun n => ite_congr rfl (fun _ => rfl) fun _ => ?_
  rw [upwards_dirOps]
  refine bind_congr fun r => bind_congr fun m => ite_congr rfl (fun _ => rfl) fun _ =>
    bind_congr fun x => ?_
  cases x with
  | none => rfl
  | some bh =>
    exact congrArg (fun y : Program Fs _ => y >>= _) (scanDir_dirOps disk r.1 r.2 name _ _ bh 0 0)

theorem extendDir_dirOps (dir bh de i : Nat) :
    (dirOps disk).extendDir dir bh de i = extendDir dir bh de i := rfl

theorem claimEntry_dirOps (dir len : Nat) (name : Name) (bh de i : Nat) :
    (dirOps disk).claimEntry dir len name bh de i = claimEntry dir len name bh de i := rfl

theorem scanFree_dirOps (dir len : Nat) (name : Name) (rounds bh de i : Nat) :
    (dirOps disk).scanFree dir len name rounds bh de i =
      scanFree disk dir len name rounds bh de i := by
  induction rounds generalizing bh de i with
  | zero => rfl
  | succ rounds ih =>
    refine ite_congr rfl (fun _ => ?_) fun _ => ?_
    · rw [claimEntry_dirOps]
      exact bind_congr fun ok => ite_congr rfl (fun _ => rfl) fun _ => ih bh _ _
    · refine bind_congr fun _ => bind_congr fun block => ite_congr rfl (fun _ => rfl) fun _ => ?_
      refine bind_congr fun n => bind_congr fun x => ?_
      cases x with
      | none => rfl
      | some bh' =>
        dsimp only
        rw [claimEntry_dirOps]
        exact bind_congr fun ok => ite_congr rfl (fun _ => rfl) fun _ => ih bh' _ _

theorem addEntry_dirOps (dir : Nat) (name : Name) :
    (dirOps disk).addEntry dir name = addEntry disk dir name := by
  refine ite_congr rfl (fun _ => rfl) fun _ => bind_congr fun n =>
    ite_congr rfl (fun _ => rfl) fun _ => bind_congr fun x => ?_
  cases x with
  | none => rfl
  | some bh => exact scanFree_dirOps disk dir _ name _ bh 0 0

end

end Gpos.Fs
