import LinuxEvocation.Lib.Lru
import LinuxEvocation.Lib.Transition
import LinuxEvocation.Fs.Ext2.Dir.Basic

/-!
# The operations on the names of ext2

One mounted file system, its inodes in core and on disk in one table, and the directory cache.  Each
operation runs to its end before the next one starts, and no block is unreadable.

* `Dcache` — the cache of `dcache.c`.  The 16 queues are an index of the one list, by the number of
  the directory, and a name is there once, so the list alone decides what is found.
* `Inode`, `Fs` — the table of the inodes and the cache.
* `iget`, `iput`, `newInode` — references, and the end of an inode without links.
* `lookup`, `readdir`, `create`, `mknod`, `mkdir`, `rmdir`, `unlink`, `symlink`, `link`, `subdir`,
  `rename` — the operations of `namei.c` and `dir.c`.
* `Event`, `step` — what the processes may ask for.
-/

namespace LinuxEvocation.Ext2.Namei

open Errno Tiling

/-! ## `dcache.c` -/

/-- What an entry of the cache is found by. -/
structure DcacheKey where
  dev : Nat
  dir : Nat
  name : Name
deriving DecidableEq

/-- The entries, the one used last first. -/
abbrev Dcache := List (DcacheKey × Nat)

/-- `CACHE_SIZE` -/
def cacheSize : Nat := 128

/-- `ext2_dcache_lookup`: the number, or 0, and the cache with the entry in front. -/
def dcacheLookup (c : Dcache) (dev dir : Nat) (name : Name) : Nat × Dcache :=
  ((Lru.find c ⟨dev, dir, truncate name⟩).getD 0, Lru.touch c ⟨dev, dir, truncate name⟩)

/-- `ext2_dcache_add` -/
def dcacheAdd (c : Dcache) (dev dir : Nat) (name : Name) (ino : Nat) : Dcache :=
  Lru.insert cacheSize c ⟨dev, dir, truncate name⟩ ino

/-- `ext2_dcache_remove` -/
def dcacheRemove (c : Dcache) (dev dir : Nat) (name : Name) : Dcache :=
  Lru.remove c ⟨dev, dir, truncate name⟩

/-! ## Inodes -/

/-- An inode: its bit in the bitmap, `S_ISDIR`, `i_nlink`, `i_count`, and what it holds if it is a
directory. -/
structure Inode where
  used : Bool
  isDir : Bool
  nlink : Nat
  count : Nat
  dir : Directory

/-- What of the super block does not change, and the device. -/
structure SuperBlock where
  dev : Nat
  blocksize : Nat
  inodesCount : Nat
  /-- The sizes that `ext2_read_super` takes. -/
  supported : blocksize = 1024 ∨ blocksize = 2048 ∨ blocksize = 4096
  /-- `s_inodes_count` is a long. -/
  inodesCount_lt : inodesCount < 2 ^ 32

theorem supported_1024 : 1024 = 1024 ∨ 1024 = 2048 ∨ 1024 = 4096 := .inl rfl

/-- `EXT2_ROOT_INO` -/
def rootIno : Nat := 2

/-- `EXT2_LINK_MAX` -/
def linkMax : Nat := 32000

/-- What an operation does not decide itself. -/
structure Env where
  /-- The number that `ext2_new_inode` takes. -/
  ino : Nat
  /-- There is no inode left. -/
  full : Bool
  /-- There is no block left for the new inode. -/
  noBlock : Bool
  /-- There is no block left for a larger directory. -/
  noSpace : Bool
  /-- The sticky bit of the directory protects the file. -/
  denied : Bool
  /-- That of the new directory protects the file that a rename replaces. -/
  deniedNew : Bool
  /-- How many rounds the loop of `subdir` may take. -/
  rounds : Nat
  /-- What a look-up of `".."` finds in an inode that is not in use: the inode is read from the
  disk as it was written last. -/
  stale : Nat → Option Nat

/-- The inodes by number, and the cache. -/
structure Fs where
  inode : Nat → Inode
  cache : Dcache

namespace Fs

def modify (s : Fs) (i : Nat) (f : Inode → Inode) : Fs :=
  { s with inode := Function.update s.inode i (f (s.inode i)) }

def dir (s : Fs) (i : Nat) : Directory := (s.inode i).dir

def setDir (s : Fs) (i : Nat) (d : Directory) : Fs := s.modify i fun n => { n with dir := d }

def setNlink (s : Fs) (i n : Nat) : Fs := s.modify i fun m => { m with nlink := n }

/-- An inode once `ext2_free_inode` has run. -/
def noInode : Inode where
  used := false
  isDir := false
  nlink := 0
  count := 0
  dir := ⟨fun _ => 0, 0⟩

/-- `iget` -/
def iget (s : Fs) (i : Nat) : Fs := s.modify i fun n => { n with count := n.count + 1 }

/-- `iput`, with `ext2_put_inode` for the last reference to an inode without links. -/
def iput (s : Fs) (i : Nat) : Fs :=
  if 1 < (s.inode i).count ∨ (s.inode i).used = false ∨ (s.inode i).nlink ≠ 0 then
    s.modify i fun n => { n with count := n.count - 1 }
  else s.modify i fun _ => noInode

/-- `ext2_new_inode`, for a number that is free. -/
def newInode (s : Fs) (i : Nat) (isDir : Bool) : Fs :=
  s.modify i fun _ =>
    { used := true, isDir := isDir, nlink := 1, count := 1, dir := ⟨fun _ => 0, 0⟩ }

end Fs

section Operations

variable (sb : SuperBlock)

open Fs

namespace Fs

/-- The cache learns that the directory has the name. -/
def cacheAdd (s : Fs) (dir : Nat) (name : Name) (ino : Nat) : Fs :=
  { s with cache := dcacheAdd s.cache sb.dev dir name ino }

def cacheRemove (s : Fs) (dir : Nat) (name : Name) : Fs :=
  { s with cache := dcacheRemove s.cache sb.dev dir name }

/-- `ext2_find_entry` -/
def findEntry (s : Fs) (dir : Nat) (name : Name) : Option Nat :=
  (s.dir dir).findEntry sb.blocksize name

end Fs

/-! ## `ext2_lookup`, `ext2_readdir` -/

/-- The error, the inode, with a reference to it, and the file system.  The reference to the
directory is used up. -/
def lookup (s : Fs) (dir : Nat) (name : Name) : Int × Option Nat × Fs :=
  if (s.inode dir).isDir = false then (-enoent, none, s.iput dir)
  else
    let (ino, c) := dcacheLookup s.cache sb.dev dir name
    let s := { s with cache := c }
    if ino ≠ 0 then (0, some ino, (s.iget ino).iput dir)
    else
      match s.findEntry sb dir name with
      | none => (-enoent, none, s.iput dir)
      | some de =>
        let ino := (s.dir dir).inode de
        let s := s.cacheAdd sb dir ((s.dir dir).name de) ino
        (0, some ino, (s.iget ino).iput dir)

/-- One round of the loop over the records. -/
def readdirStep (d : Directory) (o : Nat) : Option (Option Nat) :=
  if !d.checkDirEntry sb.blocksize true o then some none
  else if d.inode o ≠ 0 then some (some o)
  else none

/-- The next entry from the place `pos` of the file on goes to the caller and to the cache. -/
def readdir (s : Fs) (dir pos : Nat) : Int × Fs :=
  let d := s.dir dir
  if (s.inode dir).isDir = false then (-ebadf, s)
  else if d.size ≤ pos then (0, s)
  else
    match scanFrom sb.blocksize d.size d.recLen (readdirStep sb d) d.size pos with
    | .stop (some de) => (d.nameLen de, s.cacheAdd sb dir (d.name de) (d.inode de))
    | _ => (0, s)

/-! ## Operations that add a name -/

/-- The error path of an operation that has a new inode: the inode has no link. -/
def discard (s : Fs) (dir ino : Nat) : Fs := ((s.setNlink ino 0).iput ino).iput dir

/-- The record that `ext2_add_entry` prepared takes the number of the inode. -/
def enter (s : Fs) (dir : Nat) (d : Directory) (de ino : Nat) : Fs :=
  (s.setDir dir (d.setInode de ino)).cacheAdd sb dir (d.name de) ino

/-- `ext2_create`: the caller gets a reference to the inode. -/
def create (s : Fs) (dir : Nat) (name : Name) (env : Env) : Int × Fs :=
  if env.full then (-enospc, s.iput dir)
  else
    let s := s.newInode env.ino false
    match (s.dir dir).addEntry sb.blocksize name env.noSpace with
    | .error err => (err, discard s dir env.ino)
    | .ok (d, de) => (0, (enter sb s dir d de env.ino).iput dir)

/-- `ext2_mknod`, for a mode that is not one of a directory: `sys_mknod` takes no other. -/
def mknod (s : Fs) (dir : Nat) (name : Name) (env : Env) : Int × Fs :=
  if (s.findEntry sb dir name).isSome then (-eexist, s.iput dir)
  else if env.full then (-enospc, s.iput dir)
  else
    let s := s.newInode env.ino false
    match (s.dir dir).addEntry sb.blocksize name env.noSpace with
    | .error err => (err, discard s dir env.ino)
    | .ok (d, de) => (0, ((enter sb s dir d de env.ino).iput dir).iput env.ino)

/-- `ext2_symlink`: the name is looked for after the inode is made. -/
def symlink (s : Fs) (dir : Nat) (name : Name) (env : Env) : Int × Fs :=
  if env.full then (-enospc, s.iput dir)
  else
    let s := s.newInode env.ino false
    if env.noBlock then (-enospc, discard s dir env.ino)
    else if (s.findEntry sb dir name).isSome then (-eexist, discard s dir env.ino)
    else
      match (s.dir dir).addEntry sb.blocksize name env.noSpace with
      | .error err => (err, discard s dir env.ino)
      | .ok (d, de) => (0, ((enter sb s dir d de env.ino).iput dir).iput env.ino)

/-- The block of a new directory. -/
def firstBlock (ino parent : Nat) : Directory :=
  let d : Directory := ⟨fun _ => 0, sb.blocksize⟩
  let d := (((d.setInode 0 ino).setNameLen 0 1).setRecLen 0 (dirRecLen 1)).setName 0 [46, 0]
  let o := d.recLen 0
  (((d.setInode o parent).setRecLen o (sb.blocksize - dirRecLen 1)).setNameLen o 2).setName o
    [46, 46, 0]

/-- `ext2_mkdir` -/
def mkdir (s : Fs) (dir : Nat) (name : Name) (env : Env) : Int × Fs :=
  if (s.findEntry sb dir name).isSome then (-eexist, s.iput dir)
  else if linkMax ≤ (s.inode dir).nlink then (-emlink, s.iput dir)
  else if env.full then (-enospc, s.iput dir)
  else
    let s := s.newInode env.ino true
    if env.noBlock then (-enospc, discard s dir env.ino)
    else
      let s := (s.setDir env.ino (firstBlock sb env.ino dir)).setNlink env.ino 2
      match (s.dir dir).addEntry sb.blocksize name env.noSpace with
      | .error err => (err, discard s dir env.ino)
      | .ok (d, de) =>
        let s := enter sb s dir d de env.ino
        (0, ((s.setNlink dir ((s.inode dir).nlink + 1)).iput dir).iput env.ino)

/-- `ext2_link` -/
def link (s : Fs) (old dir : Nat) (name : Name) (env : Env) : Int × Fs :=
  if (s.inode old).isDir then (-eperm, (s.iput old).iput dir)
  else if linkMax < (s.inode old).nlink then (-emlink, (s.iput old).iput dir)
  else if (s.findEntry sb dir name).isSome then (-eexist, (s.iput dir).iput old)
  else
    match (s.dir dir).addEntry sb.blocksize name env.noSpace with
    | .error err => (err, (s.iput dir).iput old)
    | .ok (d, de) =>
      let s := (enter sb s dir d de old).iput dir
      (0, (s.setNlink old ((s.inode old).nlink + 1)).iput old)

/-! ## Operations that take a name away -/

/-- `ext2_delete_entry` -/
def deleteEntry (s : Fs) (dir de : Nat) : Int × Fs :=
  let (err, d) := (s.dir dir).deleteEntry sb.blocksize de
  (err, s.setDir dir d)

/-- `ext2_unlink` -/
def unlink (s : Fs) (dir : Nat) (name : Name) (env : Env) : Int × Fs :=
  match s.findEntry sb dir name with
  | none => (-enoent, s.iput dir)
  | some de =>
    let ino := (s.dir dir).inode de
    let s := s.iget ino
    if env.denied ∨ (s.inode ino).isDir then (-eperm, (s.iput ino).iput dir)
    else
      let s := if (s.inode ino).nlink = 0 then s.setNlink ino 1 else s
      let s := s.cacheRemove sb dir ((s.dir dir).name de)
      let (err, s) := deleteEntry sb s dir de
      if err ≠ 0 then (err, (s.iput ino).iput dir)
      else (0, ((s.setNlink ino ((s.inode ino).nlink - 1)).iput ino).iput dir)

/-- The directory is in use by others, and this is its last link. -/
def busy (s : Fs) (ino : Nat) : Bool := 1 < (s.inode ino).count && (s.inode ino).nlink ≤ 2

/-- A directory in use by others is made empty, and the cache forgets its first two names. -/
def cleanUp (s : Fs) (ino : Nat) : Fs :=
  ((s.setDir ino { s.dir ino with size := 0 }).cacheRemove sb ino dot).cacheRemove sb ino dotdot

/-- `ext2_rmdir` -/
def rmdir (s : Fs) (dir : Nat) (name : Name) (env : Env) : Int × Fs :=
  match s.findEntry sb dir name with
  | none => (-enoent, s.iput dir)
  | some de =>
    let ino := (s.dir dir).inode de
    let s := s.iget ino
    if env.denied ∨ ino = dir then (-eperm, (s.iput dir).iput ino)
    else if (s.inode ino).isDir = false then (-enotdir, (s.iput dir).iput ino)
    else if (s.dir ino).emptyDir sb.blocksize ino = false then (-enotempty, (s.iput dir).iput ino)
    else
      let s := if busy s ino then cleanUp sb s ino else s
      let s := s.cacheRemove sb dir ((s.dir dir).name de)
      let (err, s) := deleteEntry sb s dir de
      if err ≠ 0 then (err, (s.iput dir).iput ino)
      else
        let s := (s.setNlink ino 0).setNlink dir ((s.inode dir).nlink - 1)
        (0, (s.iput dir).iput ino)

/-! ## `ext2_rename` -/

/-- The loop of `subdir`; there is a reference to `new`.  It may not end, for the cache may lead in a
circle: then there are no `rounds` left. -/
def subdirLoop (old : Nat) (stale : Nat → Option Nat) : Nat → Fs → Nat → Option (Bool × Fs)
  | 0, _, _ => none
  | n + 1, s, new =>
    if new = old then some (true, s.iput new)
    else
      let (_, result, s) :=
        if (s.inode new).used then lookup sb s new dotdot
        else (0, stale new, match stale new with
          | some ino => (s.iget ino).iput new
          | none => s.iput new)
      match result with
      | none => some (false, s)
      | some ino => if ino = new then some (false, s.iput ino) else subdirLoop old stale n s ino

/-- `subdir`: is the directory `new` within `old`? -/
def subdir (s : Fs) (new old : Nat) (env : Env) : Option (Bool × Fs) :=
  subdirLoop sb old env.stale env.rounds (s.iget new) new

/-- What `do_ext2_rename` has found: the entry of the old name and its inode, the entry of the new
name, and the inode it names if it was there before. -/
structure Found where
  oldDe : Nat
  oldIno : Nat
  newDe : Nat
  newIno : Option Nat

/-- The last steps of an error path. -/
def release (s : Fs) (oldDir newDir : Nat) (oldIno newIno : Option Nat) : Fs :=
  let s := match oldIno with | some i => s.iput i | none => s
  let s := match newIno with | some i => s.iput i | none => s
  (s.iput oldDir).iput newDir

/-- The tests on a directory that is to be replaced: 0 if it passes. -/
def checkTarget (s : Fs) (oldIno newDir new : Nat) (env : Env) : Option (Int × Fs) :=
  if (s.inode new).isDir = false then some (0, s)
  else if (s.inode oldIno).isDir = false then some (-eisdir, s)
  else
    (subdir sb s newDir oldIno env).bind fun (inside, s) =>
      if inside then some (-einval, s)
      else if (s.dir new).emptyDir sb.blocksize new = false then some (-enotempty, s)
      else if 1 < (s.inode new).count then some (-ebusy, s)
      else some (0, s)

/-- `PARENT_INO` -/
def parentIno (d : Directory) : Nat := d.inode (d.recLen 0)

def setParentIno (d : Directory) (ino : Nat) : Directory := d.setInode (d.recLen 0) ino

/-- The tests on a directory that is to be moved: 0 if it passes.  `ext2_bread` leaves `ENOSPC` in
`retval` when it finds the block. -/
def checkMoved (s : Fs) (oldIno oldDir newDir : Nat) (newIno : Option Nat) (env : Env) :
    Option (Int × Fs) :=
  if (s.inode oldIno).isDir = false then some (0, s)
  else if newIno.any fun i => (s.inode i).isDir = false then some (-enotdir, s)
  else
    (subdir sb s newDir oldIno env).bind fun (inside, s) =>
      if inside then some (-einval, s)
      else if parentIno (s.dir oldIno) ≠ oldDir then some (-enospc, s)
      else if newIno = none ∧ linkMax ≤ (s.inode newDir).nlink then some (-emlink, s)
      else some (0, s)

/-- What `do_ext2_rename` does before it changes an entry: an error, or what it has found, with
references to the inodes. -/
def renamePrepare (s : Fs) (oldDir : Nat) (oldName : Name) (newDir : Nat) (newName : Name)
    (env : Env) : Option (Except Int Found × Fs) :=
  match s.findEntry sb oldDir oldName with
  | none => some (.error (-enoent), release s oldDir newDir none none)
  | some oldDe =>
    let oldIno := (s.dir oldDir).inode oldDe
    let s := s.iget oldIno
    if env.denied then some (.error (-eperm), release s oldDir newDir (some oldIno) none)
    else
      let found := s.findEntry sb newDir newName
      let newIno := found.map fun de => (s.dir newDir).inode de
      let s := match newIno with | some i => s.iget i | none => s
      if newIno = some oldIno then some (.error 0, release s oldDir newDir (some oldIno) newIno)
      else
        ((match newIno with
          | some new => checkTarget sb s oldIno newDir new env
          | none => some (0, s)).bind fun (err, s) =>
          if err ≠ 0 then some (.error err, release s oldDir newDir (some oldIno) newIno)
          else if newIno.isSome ∧ env.deniedNew then
            some (.error (-eperm), release s oldDir newDir (some oldIno) newIno)
          else
            (checkMoved sb s oldIno oldDir newDir newIno env).bind fun (err, s) =>
              if err ≠ 0 then some (.error err, release s oldDir newDir (some oldIno) newIno)
              else
                match found with
                | some newDe => some (.ok ⟨oldDe, oldIno, newDe, newIno⟩, s)
                | none =>
                  match (s.dir newDir).addEntry sb.blocksize newName env.noSpace with
                  | .error err =>
                    some (.error err, release s oldDir newDir (some oldIno) newIno)
                  | .ok (d, newDe) =>
                    some (.ok ⟨oldDe, oldIno, newDe, none⟩, s.setDir newDir d))

/-- The sanity checks: nothing has changed since the entries were found. -/
def unchanged (s : Fs) (oldDir newDir : Nat) (f : Found) : Bool :=
  (match f.newIno with
    | some i => (s.dir newDir).inode f.newDe = i
    | none => (s.dir newDir).inode f.newDe = 0) &&
  (s.dir oldDir).inode f.oldDe = f.oldIno

/-- The changes, once the checks have passed. -/
def renameCommit (s : Fs) (oldDir newDir : Nat) (f : Found) : Int × Fs :=
  let s := s.setDir newDir ((s.dir newDir).setInode f.newDe f.oldIno)
  let s := s.cacheRemove sb oldDir ((s.dir oldDir).name f.oldDe)
  let s := s.cacheAdd sb newDir ((s.dir newDir).name f.newDe) f.oldIno
  let (err, s) := deleteEntry sb s oldDir f.oldDe
  if err ≠ 0 then (err, s)
  else
    let s := match f.newIno with
      | some i => s.setNlink i ((s.inode i).nlink - 1)
      | none => s
    let s :=
      if (s.inode f.oldIno).isDir then
        let s := s.setDir f.oldIno (setParentIno (s.dir f.oldIno) newDir)
        let s := s.setNlink oldDir ((s.inode oldDir).nlink - 1)
        s.setNlink newDir ((s.inode newDir).nlink + 1)
      else s
    (0, s)

/-- `do_ext2_rename`.  When the checks fail it starts again; alone in the file system it never
does. -/
def rename (s : Fs) (oldDir : Nat) (oldName : Name) (newDir : Nat) (newName : Name) (env : Env) :
    Option (Int × Fs) :=
  (renamePrepare sb s oldDir oldName newDir newName env).bind fun
    | (.error err, s) => some (err, s)
    | (.ok f, s) =>
      if unchanged s oldDir newDir f then
        let (err, s) := renameCommit sb s oldDir newDir f
        if err = -enoent then none
        else some (err, release s oldDir newDir (some f.oldIno) f.newIno)
      else none

/-! ## Runs -/

/-- What a process may ask for.  The operations use up the references to the directories they are
given, and `link` that to the file. -/
inductive Event
  | lookup (dir : Nat) (name : Name)
  | readdir (dir pos : Nat)
  | create (dir : Nat) (name : Name) (env : Env)
  | mknod (dir : Nat) (name : Name) (env : Env)
  | mkdir (dir : Nat) (name : Name) (env : Env)
  | symlink (dir : Nat) (name : Name) (env : Env)
  | link (old dir : Nat) (name : Name) (env : Env)
  | unlink (dir : Nat) (name : Name) (env : Env)
  | rmdir (dir : Nat) (name : Name) (env : Env)
  | rename (oldDir : Nat) (oldName : Name) (newDir : Nat) (newName : Name) (env : Env)
  /-- Another reference to an inode: an open file, a current directory, the start of a path. -/
  | hold (ino : Nat)
  /-- A reference is given up. -/
  | drop (ino : Nat)
  /-- Another file system puts an entry into the cache, or asks for one, or takes one out. -/
  | otherAdd (dev dir : Nat) (name : Name) (ino : Nat)
  | otherLookup (dev dir : Nat) (name : Name)
  | otherRemove (dev dir : Nat) (name : Name)

/-- There are as many references as an operation uses up, and the one of the mount. -/
def holds (s : Fs) (l : List Nat) : Bool :=
  l.all fun i => l.count i + (if i = rootIno then 1 else 0) ≤ (s.inode i).count

/-- The directories that the callers give are directories of the file system. -/
def areDirs (s : Fs) (l : List Nat) : Bool :=
  l.all fun i => (s.inode i).used && (s.inode i).isDir

/-- `ext2_new_inode` can take the number. -/
def freeIno (s : Fs) (env : Env) : Bool :=
  env.full || !(s.inode env.ino).used && (s.inode env.ino).count = 0 && 0 < env.ino &&
    env.ino ≤ sb.inodesCount

/-- `do_rename` refuses the names `""`, `"."` and `".."`. -/
def renameable (name : Name) : Bool := name ≠ [] && name ≠ dot && name ≠ dotdot

/-- One operation, if its callers can ask for it. -/
def step (s : Fs) : Event → Option (Int × Fs)
  | .lookup dir name =>
    if holds s [dir] then
      let (err, _, s) := lookup sb s dir name
      some (err, s)
    else none
  | .readdir dir pos => if holds s [dir] then some (readdir sb s dir pos) else none
  | .create dir name env =>
    if holds s [dir] && areDirs s [dir] && freeIno sb s env then some (create sb s dir name env)
    else none
  | .mknod dir name env =>
    if holds s [dir] && areDirs s [dir] && freeIno sb s env then some (mknod sb s dir name env)
    else none
  | .mkdir dir name env =>
    if holds s [dir] && areDirs s [dir] && freeIno sb s env then some (mkdir sb s dir name env)
    else none
  | .symlink dir name env =>
    if holds s [dir] && areDirs s [dir] && freeIno sb s env then some (symlink sb s dir name env)
    else none
  | .link old dir name env =>
    if holds s [old, dir] && areDirs s [dir] && (s.inode old).used then
      some (link sb s old dir name env)
    else none
  | .unlink dir name env =>
    if holds s [dir] && areDirs s [dir] then some (unlink sb s dir name env) else none
  | .rmdir dir name env =>
    if holds s [dir] && areDirs s [dir] then some (rmdir sb s dir name env) else none
  | .rename oldDir oldName newDir newName env =>
    if holds s [oldDir, newDir] && areDirs s [oldDir, newDir] && renameable oldName &&
        renameable newName then rename sb s oldDir oldName newDir newName env
    else none
  | .hold ino => if (s.inode ino).used then some (0, s.iget ino) else none
  | .drop ino => if holds s [ino] then some (0, s.iput ino) else none
  | .otherAdd dev dir name ino =>
    if dev ≠ sb.dev then some (0, { s with cache := dcacheAdd s.cache dev dir name ino }) else none
  | .otherLookup dev dir name =>
    if dev ≠ sb.dev then some (0, { s with cache := (dcacheLookup s.cache dev dir name).2 })
    else none
  | .otherRemove dev dir name =>
    if dev ≠ sb.dev then some (0, { s with cache := dcacheRemove s.cache dev dir name }) else none

/-- The file system after an operation. -/
def next (s : Fs) (e : Event) : Option Fs := (step sb s e).map Prod.snd

end Operations

end LinuxEvocation.Ext2.Namei
