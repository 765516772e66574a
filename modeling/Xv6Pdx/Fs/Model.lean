/-
# `Fs.Model` — `fs.c`

The file system as programs of atomic actions.  An action is what the code does
under one spin lock, or to one buffer between `bread` and `brelse`, or to the
inode it has locked; waiting for an inode's lock, or for the log, is an action
that cannot be taken yet.  What a block holds is what `bread` of it returns; that
the log puts changes on the disk together is the business of `Log.Crash`, and
`commit` shows here only as the emptied header.

The buffer cache itself is left out.  In the code a `bread` may also wait for a
buffer another process holds, and the thirty buffers may all be held or dirty, in
which case it panics with "bget: no buffers"; no program here does either, so
what is proved of them is about runs in which every `bget` finds a buffer.  The
cache has its own model in `Bio.Model`.

What comes from outside (the console, the page allocator, the rest of the
kernel) is drawn from `world`, an arbitrary stream.  `op` is history: whether a
process is between `begin_op` and `end_op`, and the distinct blocks that it has
logged since.
-/
import Xv6Pdx.Lib.Prog
import Xv6Pdx.Fs.Disk
import Xv6Pdx.Proc.StateLists

namespace Xv6Pdx.Fs

open Lib Bytes
open Ptable (ProcPtr NPROC)
open Function (update)

def NINODE : Nat := 50
def NFILE : Nat := 100
def NOFILE : Nat := 16
def CONSOLE : Nat := 1

instance : NeZero NINODE := ⟨by decide⟩

instance : NeZero NFILE := ⟨by decide⟩

/-- A `struct inode *` into `icache.inode`. -/
abbrev InodePtr := Fin NINODE

/-- A `struct file *` into `ftable.file`. -/
abbrev FilePtr := Fin NFILE

/-- `struct inode`, with the two flags. -/
structure Inode extends DInode where
  dev : Nat
  inum : Nat
  ref : Nat
  busy : Bool
  valid : Bool

inductive FileType where
  | none
  | pipe
  | inode
deriving DecidableEq, Repr

/-- `struct file`; `pipe` is the page of the pipe. -/
structure File where
  type : FileType
  ref : Nat
  readable : Bool
  writable : Bool
  ip : InodePtr
  off : Nat
  pipe : Nat

/-- The flags of a `struct pipe`, and how often its page has been allocated and
freed for a pipe; what a pipe holds is in `Pipe.Model`. -/
structure Ends where
  readopen : Bool
  writeopen : Bool
  taken : Nat
  freed : Nat

/-- The states of a process, as far as its files are concerned. -/
inductive ProcState where
  | unused
  | embryo
  | live
  | zombie
deriving DecidableEq, Repr

/-- What a process has of the file system. -/
structure Proc where
  state : ProcState
  ofile : Fin NOFILE → Option FilePtr
  cwd : Option InodePtr
  uid : Nat
  gid : Nat

/-- What a process has done to the log. -/
structure Op where
  inside : Bool
  logged : List Nat

structure State where
  sb : Superblock
  disk : Disk
  log : Log
  icache : InodePtr → Inode
  ftable : FilePtr → File
  pipes : Nat → Ends
  proc : ProcPtr → Proc
  initproc : ProcPtr
  world : Nat → Nat
  op : ProcPtr → Op

namespace State

@[simps] def putBlock (s : State) (b : Nat) (d : Block) : State :=
  { s with disk := update s.disk b d }

@[simps] def putInode (s : State) (ip : InodePtr) (i : Inode) : State :=
  { s with icache := update s.icache ip i }

@[simps] def putFile (s : State) (f : FilePtr) (file : File) : State :=
  { s with ftable := update s.ftable f file }

@[simps] def putPipe (s : State) (a : Nat) (e : Ends) : State :=
  { s with pipes := update s.pipes a e }

@[simps] def putProc (s : State) (p : ProcPtr) (proc : Proc) : State :=
  { s with proc := update s.proc p proc }

/-- The log, with what `p` has done to it. -/
@[simps] def putLog (s : State) (l : Log) (p : ProcPtr) (op : Op) : State :=
  { s with log := l, op := update s.op p op }

end State

/-- Programs of the file system; they stop with the text of a `panic`. -/
abbrev FsM := Prog State String

def panic {α : Type} (msg : String) : FsM α := Prog.fail msg

/-- `if (c) p;` -/
def when (c : Prop) [Decidable c] (p : FsM Unit) : FsM Unit := if c then p else pure ()

def draw : FsM Nat :=
  Prog.atomic fun s => some (.ok (s.world 0, { s with world := fun i => s.world (i + 1) }))

def drawBytes : Nat → FsM (List UInt8)
  | 0 => pure []
  | n + 1 => do
    let b ← draw
    let bs ← drawBytes n
    pure (UInt8.ofNat b :: bs)

/-! ## Buffers and the log -/

/-- `bread`, to look. -/
def bread (b : Nat) : FsM Block := Prog.gets fun s => s.disk b

/-- `bread`, to look and to change, up to `brelse`. -/
def withBlock {α : Type} (b : Nat) (f : Block → Except String (α × Block)) : FsM α :=
  Prog.atomic fun s =>
    match f (s.disk b) with
    | .error e => some (.error e)
    | .ok (a, d) => some (.ok (a, s.putBlock b d))

/-- `log_write`: the checks are made before the lock is taken. -/
def logWrite (me : ProcPtr) (b : Nat) : FsM Unit := do
  Prog.atomic fun s =>
    match s.log.check with
    | .error e => some (.error e)
    | .ok () => some (.ok ((), s))
  Prog.modify fun s => s.putLog (s.log.record b) me
    { s.op me with logged := (s.op me).logged.insert b }

def beginOp (me : ProcPtr) : FsM Unit :=
  Prog.atomic fun s => s.log.beginOp.map fun l => .ok ((), s.putLog l me ⟨true, []⟩)

/-- `commit`, as far as the log in memory is concerned. -/
def commit : FsM Unit :=
  Prog.modify fun s => { s with log := { s.log with lh := { s.log.lh with n := 0 } } }

def endOp (me : ProcPtr) : FsM Unit := do
  let last ← Prog.atomic fun s =>
    match s.log.endOp with
    | .error e => some (.error e)
    | .ok (last, l) => some (.ok (last, s.putLog l me ⟨false, []⟩))
  when (last = true) do
    commit
    Prog.modify fun s => { s with log := { s.log with committing := false } }

/-! ## Blocks -/

def getSb : FsM Superblock := Prog.gets State.sb

def readsb : FsM Unit := Prog.modify fun s => { s with sb := .read (s.disk 1) }

def bzero (me : ProcPtr) (bno : Nat) : FsM Unit := do
  withBlock bno fun _ => .ok ((), fun _ => 0)
  logWrite me bno

/-- The inner loop of `balloc`, on the block of the map that begins with the
bit for block `b`. -/
def takeFree (sb : Superblock) (b : Nat) (d : Block) : Option Nat × Block :=
  match (List.range (min BPB (sb.size - b))).find? fun bi => !bit d bi with
  | none => (none, d)
  | some bi => (some (b + bi), setBit d bi true)

def ballocFrom (me : ProcPtr) (sb : Superblock) : List Nat → FsM Nat
  | [] => panic "balloc: out of blocks"
  | k :: ks => do
    let found ← withBlock (BBLOCK sb (k * BPB)) fun d => .ok (takeFree sb (k * BPB) d)
    match found with
    | none => ballocFrom me sb ks
    | some b => do
      logWrite me (BBLOCK sb (k * BPB))
      bzero me b
      pure b

def balloc (me : ProcPtr) : FsM Nat := do
  let sb ← getSb
  ballocFrom me sb (List.range ((sb.size + BPB - 1) / BPB))

def bfree (me : ProcPtr) (b : Nat) : FsM Unit := do
  readsb
  let sb ← getSb
  withBlock (BBLOCK sb b) fun d =>
    if bit d (b % BPB) then .ok ((), setBit d (b % BPB) false) else .error "freeing free block"
  logWrite me (BBLOCK sb b)

/-! ## Inodes -/

def getInode (ip : InodePtr) : FsM Inode := Prog.gets fun s => s.icache ip

def setInode (ip : InodePtr) (f : Inode → Inode) : FsM Unit :=
  Prog.modify fun s => s.putInode ip (f (s.icache ip))

/-- The entry of the cache with this inode. -/
def State.cached (s : State) (dev inum : Nat) : Option InodePtr :=
  (List.finRange NINODE).find? fun ip =>
    0 < (s.icache ip).ref ∧ (s.icache ip).dev = dev ∧ (s.icache ip).inum = inum

/-- The first entry of the cache that is not in use. -/
def State.emptySlot (s : State) : Option InodePtr :=
  (List.finRange NINODE).find? fun ip => (s.icache ip).ref = 0

def iget (dev inum : Nat) : FsM InodePtr :=
  Prog.atomic fun s =>
    match s.cached dev inum with
    | some ip => some (.ok (ip, s.putInode ip
        { s.icache ip with ref := (s.icache ip).ref + 1 }))
    | none =>
      match s.emptySlot with
      | none => some (.error "iget: no inodes")
      | some ip => some (.ok (ip, s.putInode ip
          { s.icache ip with dev := dev, inum := inum, ref := 1, busy := false, valid := false }))

def iallocFrom (me : ProcPtr) (sb : Superblock) (dev type : Nat) : List Nat → FsM InodePtr
  | [] => panic "ialloc: no inodes"
  | inum :: inums => do
    let free ← withBlock (IBLOCK sb inum) fun d => .ok
      (if (inodeIn d inum).type = 0 then (true, putInode d inum { DInode.zero with type := type })
        else (false, d))
    if free then do
      logWrite me (IBLOCK sb inum)
      iget dev inum
    else iallocFrom me sb dev type inums

def ialloc (me : ProcPtr) (dev type : Nat) : FsM InodePtr := do
  let sb ← getSb
  iallocFrom me sb dev type (List.range' 1 (sb.ninodes - 1))

def iupdate (me : ProcPtr) (ip : InodePtr) : FsM Unit := do
  let i ← getInode ip
  let sb ← getSb
  withBlock (IBLOCK sb i.inum) fun d => .ok ((), putInode d i.inum i.toDInode)
  logWrite me (IBLOCK sb i.inum)

def idup (ip : InodePtr) : FsM InodePtr := do
  setInode ip fun i => { i with ref := i.ref + 1 }
  pure ip

def lockInode (ip : InodePtr) : FsM Unit := do
  Prog.atomic fun s => if (s.icache ip).ref < 1 then some (.error "ilock") else some (.ok ((), s))
  Prog.atomic fun s => if (s.icache ip).busy then none
    else some (.ok ((), s.putInode ip { s.icache ip with busy := true }))

/-- The inode is copied from its block, between `bread` and `brelse`. -/
def copyInode (ip : InodePtr) (b : Nat) : FsM DInode :=
  Prog.atomic fun s =>
    let d := inodeIn (s.disk b) (s.icache ip).inum
    some (.ok (d, s.putInode ip { s.icache ip with toDInode := d, valid := true }))

/-- The rest of `ilock`: the inode is read if it has to be. -/
def loadInode (ip : InodePtr) : FsM Unit := do
  let i ← getInode ip
  if i.valid then pure ()
  else do
    let sb ← getSb
    let d ← copyInode ip (IBLOCK sb i.inum)
    when (d.type = 0) (panic "ilock: no type")

def ilock (ip : InodePtr) : FsM Unit := do
  lockInode ip
  loadInode ip

def iunlock (ip : InodePtr) : FsM Unit := do
  Prog.atomic fun s => if (s.icache ip).busy = false ∨ (s.icache ip).ref < 1 then
    some (.error "iunlock") else some (.ok ((), s))
  setInode ip fun i => { i with busy := false }

/-! ## Inode content -/

/-- `ip->addrs[k]`, allocated if it is zero. -/
def addrOf (me : ProcPtr) (ip : InodePtr) (k : Fin (NDIRECT + 1)) : FsM Nat := do
  let i ← getInode ip
  if i.addrs k = 0 then do
    let addr ← balloc me
    setInode ip fun i => { i with addrs := update i.addrs k addr }
    pure addr
  else pure (i.addrs k)

def bmap (me : ProcPtr) (ip : InodePtr) (bn : Nat) : FsM Nat :=
  if bn < NDIRECT then addrOf me ip (Fin.ofNat _ bn)
  else if bn - NDIRECT < NINDIRECT then do
    let ind ← addrOf me ip (Fin.last NDIRECT)
    let a ← bread ind
    if a.word (bn - NDIRECT) = 0 then do
      let addr ← balloc me
      withBlock ind fun a => .ok ((), a.setWord (bn - NDIRECT) addr)
      logWrite me ind
      pure addr
    else pure (a.word (bn - NDIRECT))
  else panic "bmap: out of range"

/-- A direct block is freed and its address cleared. -/
def freeDirect (me : ProcPtr) (ip : InodePtr) (k : Fin (NDIRECT + 1)) : FsM Unit := do
  let i ← getInode ip
  when (i.addrs k ≠ 0) do
    bfree me (i.addrs k)
    setInode ip fun i => { i with addrs := update i.addrs k 0 }

/-- The indirect block and the blocks listed in it are freed. -/
def freeIndirect (me : ProcPtr) (ip : InodePtr) : FsM Unit := do
  let i ← getInode ip
  when (i.addrs (Fin.last NDIRECT) ≠ 0) do
    let a ← bread (i.addrs (Fin.last NDIRECT))
    (List.range NINDIRECT).forM fun j => when (a.word j ≠ 0) (bfree me (a.word j))
    bfree me (i.addrs (Fin.last NDIRECT))
    setInode ip fun i => { i with addrs := update i.addrs (Fin.last NDIRECT) 0 }

def itrunc (me : ProcPtr) (ip : InodePtr) : FsM Unit := do
  (List.range NDIRECT).forM fun k => freeDirect me ip (Fin.ofNat _ k)
  freeIndirect me ip
  setInode ip fun i => { i with size := 0 }
  iupdate me ip

/-- `iput`, up to `release`: whether the inode has to be freed. -/
def dropRef (ip : InodePtr) : FsM Bool :=
  Prog.atomic fun s =>
    let i := s.icache ip
    if i.ref = 1 ∧ i.valid = true ∧ i.nlink = 0 then
      if i.busy then some (.error "iput busy")
      else some (.ok (true, s.putInode ip { i with busy := true }))
    else some (.ok (false, s.putInode ip { i with ref := i.ref - 1 }))

/-- The inode is truncated and freed, and then the reference dropped. -/
def freeInode (me : ProcPtr) (ip : InodePtr) : FsM Unit := do
  itrunc me ip
  setInode ip fun i => { i with type := 0 }
  iupdate me ip
  setInode ip fun i => { i with busy := false, valid := false, ref := i.ref - 1 }

def iput (me : ProcPtr) (ip : InodePtr) : FsM Unit := do
  let last ← dropRef ip
  when (last = true) (freeInode me ip)

def iunlockput (me : ProcPtr) (ip : InodePtr) : FsM Unit := do
  iunlock ip
  iput me ip

/-- A `uint` where an `int` is expected. -/
def toInt (n : Nat) : Int := (n : Int).bmod (2 ^ 32)

/-- `consoleread`: -1 if the process is killed in it. -/
def consoleread (ip : InodePtr) (n : Nat) : FsM (Option (List UInt8)) := do
  iunlock ip
  let r ← draw
  let bytes ← drawBytes (min n (r - 1))
  ilock ip
  pure (if r = 0 then none else some bytes)

def consolewrite (ip : InodePtr) (n : Nat) : FsM (Option Nat) := do
  iunlock ip
  ilock ip
  pure (some n)

/-- The loop of `readi`: `n` more bytes from `off` on. -/
def readLoop (me : ProcPtr) (ip : InodePtr) : Nat → Nat → Nat → FsM (List UInt8)
  | 0, _, _ => pure []
  | fuel + 1, off, n =>
    if n = 0 then pure []
    else do
      let b ← bmap me ip (off / BSIZE)
      let d ← bread b
      let m := min n (BSIZE - off % BSIZE)
      let rest ← readLoop me ip fuel (off + m) (n - m)
      pure (d.slice (off % BSIZE) m ++ rest)

/-- `readi`; `none` is -1, and each turn of the loop reads a byte at least. -/
def readi (me : ProcPtr) (ip : InodePtr) (off n : Nat) : FsM (Option (List UInt8)) := do
  let i ← getInode ip
  if i.type = T_DEV then
    if i.major = CONSOLE then consoleread ip (toInt n).toNat else pure none
  else if off > i.size ∨ (off + n) % 2 ^ 32 < off then pure none
  else do
    let n := if (off + n) % 2 ^ 32 > i.size then i.size - off else n
    let bytes ← readLoop me ip n off n
    pure (some bytes)

def writeLoop (me : ProcPtr) (ip : InodePtr) : Nat → Nat → List UInt8 → FsM Unit
  | 0, _, _ => pure ()
  | fuel + 1, off, src =>
    if src = [] then pure ()
    else do
      let b ← bmap me ip (off / BSIZE)
      let m := min src.length (BSIZE - off % BSIZE)
      withBlock b fun d => .ok ((), d.patch (off % BSIZE) (src.take m))
      logWrite me b
      writeLoop me ip fuel (off + m) (src.drop m)

def writei (me : ProcPtr) (ip : InodePtr) (off : Nat) (src : List UInt8) : FsM (Option Nat) := do
  let i ← getInode ip
  if i.type = T_DEV then
    if i.major = CONSOLE then consolewrite ip src.length else pure none
  else if off > i.size ∨ (off + src.length) % 2 ^ 32 < off then pure none
  else if (off + src.length) % 2 ^ 32 > MAXFILE * BSIZE then pure none
  else do
    writeLoop me ip src.length off src
    let i ← getInode ip
    when (0 < src.length ∧ off + src.length > i.size) do
      setInode ip fun i => { i with size := off + src.length }
      iupdate me ip
    pure (some src.length)

/-! ## Directories -/

/-- A whole entry is read, or it is a panic. -/
def readDirent (me : ProcPtr) (ip : InodePtr) (off : Nat) (msg : String) : FsM Dirent := do
  let r ← readi me ip off Dirent.bytes
  match r with
  | none => panic msg
  | some bs => if bs.length = Dirent.bytes then pure (.ofBytes bs) else panic msg

/-- The loop of `dirlookup`, with the offset of the entry found. -/
def lookupFrom (me : ProcPtr) (dp : InodePtr) (name : List UInt8) :
    Nat → Nat → FsM (Option (InodePtr × Nat))
  | 0, _ => pure none
  | fuel + 1, off => do
    let i ← getInode dp
    if off < i.size then do
      let de ← readDirent me dp off "dirlink read"
      if de.inum ≠ 0 ∧ namecmp name de.name = 0 then do
        let ip ← iget i.dev de.inum
        pure (some (ip, off))
      else lookupFrom me dp name fuel (off + Dirent.bytes)
    else pure none

def dirlookup (me : ProcPtr) (dp : InodePtr) (name : List UInt8) :
    FsM (Option (InodePtr × Nat)) := do
  let i ← getInode dp
  if i.type ≠ T_DIR then panic "dirlookup not DIR"
  else lookupFrom me dp name (i.size + 1) 0

/-- The loop of `dirlink` that looks for an empty entry. -/
def emptyFrom (me : ProcPtr) (dp : InodePtr) : Nat → Nat → FsM Nat
  | 0, off => pure off
  | fuel + 1, off => do
    let i ← getInode dp
    if off < i.size then do
      let de ← readDirent me dp off "dirlink read"
      if de.inum = 0 then pure off else emptyFrom me dp fuel (off + Dirent.bytes)
    else pure off

def dirlink (me : ProcPtr) (dp : InodePtr) (name : List UInt8) (inum : Nat) : FsM Bool := do
  let found ← dirlookup me dp name
  match found with
  | some (ip, _) => do
    iput me ip
    pure false
  | none => do
    let i ← getInode dp
    let off ← emptyFrom me dp (i.size + 1) 0
    let r ← writei me dp off (Dirent.toBytes ⟨inum, strncpy DIRSIZ name⟩)
    if r = some Dirent.bytes then pure true else panic "dirlink"

/-! ## Paths -/

def slash : UInt8 := 47

/-- `skipelem`: the next element, and the path from the one after it on. -/
def skipelem (path : List UInt8) : Option (List UInt8 × List UInt8) :=
  let path := path.dropWhile (· = slash)
  if path = [] then none
  else some ((path.takeWhile (· ≠ slash)).take DIRSIZ,
    (path.dropWhile (· ≠ slash)).dropWhile (· = slash))

/-- The results of `skipelem`, call after call. -/
def elements : Nat → List UInt8 → List (List UInt8 × List UInt8)
  | 0, _ => []
  | fuel + 1, path =>
    match skipelem path with
    | none => []
    | some (name, rest) => (name, rest) :: elements fuel rest

/-- The loop of `namex`; `last` is what is in `name`. -/
def walkPath (me : ProcPtr) (parent : Bool) : List (List UInt8 × List UInt8) → InodePtr →
    List UInt8 → FsM (Option (InodePtr × List UInt8))
  | [], ip, last =>
    if parent then do
      iput me ip
      pure none
    else pure (some (ip, last))
  | (name, rest) :: elems, ip, _ => do
    ilock ip
    let i ← getInode ip
    if i.type ≠ T_DIR then do
      iunlockput me ip
      pure none
    else if parent ∧ rest = [] then do
      iunlock ip
      pure (some (ip, name))
    else do
      let next ← dirlookup me ip name
      iunlockput me ip
      match next with
      | none => pure none
      | some (next, _) => walkPath me parent elems next name

def startDir (me : ProcPtr) (path : List UInt8) : FsM InodePtr :=
  if path.head? = some slash then iget ROOTDEV ROOTINO
  else do
    let cwd ← Prog.gets fun s => (s.proc me).cwd
    match cwd with
    | none => panic "no current directory"
    | some cwd => idup cwd

def namex (me : ProcPtr) (path : List UInt8) (parent : Bool) :
    FsM (Option (InodePtr × List UInt8)) := do
  let ip ← startDir me path
  walkPath me parent (elements path.length path) ip []

def namei (me : ProcPtr) (path : List UInt8) : FsM (Option InodePtr) := do
  let r ← namex me path false
  pure (r.map Prod.fst)

def nameiparent (me : ProcPtr) (path : List UInt8) : FsM (Option (InodePtr × List UInt8)) :=
  namex me path true

end Xv6Pdx.Fs
