import LinuxEvocation.Errno
import LinuxEvocation.Lib.Bytes
import LinuxEvocation.Lib.Tiling

/-!
# Directories of ext2

A directory is a file of whole blocks.  Each block is tiled by records: a number of an inode, or 0
for a record that is free, the length of the record, and a name.  A record is longer than its name
needs when the space behind it is free.

* `Directory` — the contents and the size, and the fields of the record at an offset.
* `ext2Match`, `checkDirEntry` — the tests on a record.
* `findEntry`, `addEntry`, `deleteEntry`, `emptyDir` — the functions of `namei.c` that work on one
  directory, each as it runs when nothing changes while it sleeps.
* `findStep`, `addStep`, `fillSlot`, `newBlock` — what they do between two sleeps.
* `entries` — what the directory holds.
-/

namespace LinuxEvocation.Ext2

open Errno Bytes Tiling

/-! ## Names and records -/

abbrev Name := List UInt8

/-- `"."` -/
def dot : Name := [46]

/-- `".."` -/
def dotdot : Name := [46, 46]

/-- `EXT2_NAME_LEN` -/
def nameMax : Nat := 255

/-- Names are cut to `EXT2_NAME_LEN`: `NO_TRUNCATE` is not defined. -/
def truncate (name : Name) : Name := name.take nameMax

/-- `EXT2_DIR_REC_LEN`: what a record needs for a name of `n` bytes. -/
def dirRecLen (n : Nat) : Nat := (n + 8 + 3) / 4 * 4

/-- The contents of a directory, by offset, and `i_size`, which does not wrap here. -/
structure Directory where
  data : Nat → UInt8
  size : Nat

namespace Directory

/-! ## `struct ext2_dir_entry` -/

def inode (d : Directory) (o : Nat) : Nat := getLE d.data o 4

def recLen (d : Directory) (o : Nat) : Nat := getLE d.data (o + 4) 2

def nameLen (d : Directory) (o : Nat) : Nat := getLE d.data (o + 6) 2

def name (d : Directory) (o : Nat) : Name := peek d.data (o + 8) (d.nameLen o)

def setInode (d : Directory) (o v : Nat) : Directory := { d with data := setLE d.data o 4 v }

def setRecLen (d : Directory) (o v : Nat) : Directory := { d with data := setLE d.data (o + 4) 2 v }

def setNameLen (d : Directory) (o v : Nat) : Directory := { d with data := setLE d.data (o + 6) 2 v }

def setName (d : Directory) (o : Nat) (name : Name) : Directory :=
  { d with data := poke d.data (o + 8) name }

/-- `ext2_match`.  The empty name stands for `"."`, if a 0 ends it. -/
def ext2Match (d : Directory) (name : Name) (o : Nat) : Bool :=
  d.inode o ≠ 0 && name.length ≤ nameMax &&
    (name.length = 0 && d.nameLen o = 1 && d.data (o + 8) = 46 && d.data (o + 9) = 0 ||
      name = d.name o)

/-- `ext2_check_dir_entry`.  Without the inode of the directory (`whole = false`) it does not see
that a record ends behind its block. -/
def checkDirEntry (bs : Nat) (whole : Bool) (d : Directory) (o : Nat) : Bool :=
  dirRecLen 1 ≤ d.recLen o && d.recLen o % 4 = 0 && dirRecLen (d.nameLen o) ≤ d.recLen o &&
    (!whole || o % bs + d.recLen o ≤ bs)

/-! ## `ext2_find_entry` -/

/-- One round of the loop, for a name that is not too long.  That the directory goes on is tested
at every record, but at the first one of a block before the block is read. -/
def findStep (bs : Nat) (d : Directory) (name : Name) (o : Nat) : Option (Option Nat) :=
  if d.size ≤ o ∧ ¬ bs ∣ o then some none
  else if !d.checkDirEntry bs true o then some none
  else if d.ext2Match name o then some (some o)
  else none

/-- The offset of the first entry of the name. -/
def findEntry (bs : Nat) (d : Directory) (name : Name) : Option Nat :=
  if d.size = 0 then none
  else
    match scanFrom bs d.size d.recLen (d.findStep bs (truncate name)) d.size 0 with
    | .stop r => r
    | .next _ => none

/-! ## `ext2_add_entry` -/

/-- Why the loop stops at a record: it is no record, it has the name, it has the space. -/
inductive AddStop
  | bad
  | exist
  | slot (o : Nat)
deriving DecidableEq

/-- One round of the loop. -/
def addStep (bs : Nat) (d : Directory) (name : Name) (o : Nat) : Option AddStop :=
  if !d.checkDirEntry bs true o then some .bad
  else if d.inode o ≠ 0 ∧ d.ext2Match name o then some .exist
  else if (d.inode o = 0 ∧ dirRecLen name.length ≤ d.recLen o) ∨
      dirRecLen (d.nameLen o) + dirRecLen name.length ≤ d.recLen o then some (.slot o)
  else none

/-- The name is put into the record, or into the space behind it if it is in use; the number of the
inode is left at 0.  The result has the offset of the record. -/
def fillSlot (d : Directory) (o : Nat) (name : Name) : Directory × Nat :=
  let need := dirRecLen (d.nameLen o)
  let (d, o) :=
    if d.inode o ≠ 0 then
      ((d.setRecLen (o + need) (d.recLen o - need)).setRecLen o need, o + need)
    else (d, o)
  (((d.setInode o 0).setNameLen o name.length).setName o name, o)

/-- A cleared block of one free record. -/
def newBlock (bs : Nat) (d : Directory) (o : Nat) : Directory :=
  let d : Directory := { d with data := poke d.data o (List.replicate bs 0) }
  { (d.setInode o 0).setRecLen o bs with size := o + bs }

/-- The loop, from the block at an offset on. -/
def addLoop (bs : Nat) (name : Name) (noSpace : Bool) :
    Nat → Directory → Nat → Except Int (Directory × Nat)
  | 0, _, _ => .error (-enospc)
  | n + 1, d, o =>
    if d.size ≤ o ∧ noSpace then .error (-enospc)
    else
      let d := if d.size ≤ o then d.newBlock bs o else d
      match scan bs d.recLen (d.addStep bs name) bs o with
      | .stop .bad => .error (-enoent)
      | .stop .exist => .error (-eexist)
      | .stop (.slot o) => .ok (d.fillSlot o name)
      | .next o => addLoop bs name noSpace n d o

/-- The directory with a record for the name, and the offset of the record.  `noSpace`: there is no
block left for a larger directory. -/
def addEntry (bs : Nat) (d : Directory) (name : Name) (noSpace : Bool) :
    Except Int (Directory × Nat) :=
  if name.length = 0 then .error (-einval)
  else if d.size = 0 then .error (-enoent)
  else addLoop bs (truncate name) noSpace (d.size / bs + 1) d 0

/-! ## `ext2_delete_entry` -/

/-- The record is joined to the one before it, or freed if it is the first one of its block. -/
def joinOrFree (d : Directory) (pde : Option Nat) (de : Nat) : Directory :=
  match pde with
  | some p => d.setRecLen p (d.recLen p + d.recLen de)
  | none => d.setInode de 0

/-- The loop over the records of the block at `b`; `pde` is the record before. -/
def deleteLoop (bs : Nat) (d : Directory) (b de : Nat) :
    Nat → Option Nat → Nat → Int × Directory
  | 0, _, _ => (-enoent, d)
  | n + 1, pde, o =>
    if b + bs ≤ o then (-enoent, d)
    else if !d.checkDirEntry bs false o then (-eio, d)
    else if o = de then (0, d.joinOrFree pde de)
    else deleteLoop bs d b de n (some o) (o + d.recLen o)

def deleteEntry (bs : Nat) (d : Directory) (de : Nat) : Int × Directory :=
  deleteLoop bs d (blk bs de) de bs none (blk bs de)

/-! ## `empty_dir` -/

/-- One round of the loop. -/
def emptyStep (bs : Nat) (d : Directory) (o : Nat) : Option Bool :=
  if !d.checkDirEntry bs true o then some true
  else if d.inode o ≠ 0 then some false
  else none

/-- Is the directory of the inode `ino` empty?  Bad directories count as empty. -/
def emptyDir (bs ino : Nat) (d : Directory) : Bool :=
  if d.size < dirRecLen 1 + dirRecLen 2 then true
  else
    let o := d.recLen 0
    if d.inode 0 ≠ ino ∨ d.inode o = 0 ∨
        peek d.data 8 2 ≠ [46, 0] ∨ peek d.data (o + 8) 3 ≠ [46, 46, 0] then true
    else if d.size ≤ o + d.recLen o then true
    else
      match scanFrom bs d.size d.recLen (d.emptyStep bs) d.size (o + d.recLen o) with
      | .stop b => b
      | .next _ => true

/-! ## What a directory holds -/

/-- The offsets of the records in use. -/
def live (bs : Nat) (d : Directory) : List Nat :=
  (offsets bs d.size d.recLen).filter fun o => d.inode o ≠ 0

/-- The names in use, each with the number of its inode. -/
def entries (bs : Nat) (d : Directory) : List (Name × Nat) :=
  (d.live bs).map fun o => (d.name o, d.inode o)

end Directory

end LinuxEvocation.Ext2
