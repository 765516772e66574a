/-
# `Fs.Calls` — `file.c`, `sysfile.c` and `exec.c`

The system calls, and the parts of `fork`, `exit` and `wait` that touch files.
An argument that `argstr` or `argptr` may refuse is an `Option`, a result of -1
is `none`.  What a pipe holds is in `Pipe.Model`, and whose child a process is
in the modules on `proc.c`; here a pipe has its two ends only and answers from
outside, and so do the page allocator and the page tables that `exec` builds.
-/
import Xv6Pdx.Fs.Model

namespace Xv6Pdx.Fs

open Lib Bytes
open Ptable (ProcPtr NPROC)

def O_RDONLY : Nat := 0x000
def O_WRONLY : Nat := 0x001
def O_RDWR : Nat := 0x002
def O_CREATE : Nat := 0x200
def UID : Nat := 0
def GID : Nat := 0
def MODE : Nat := 0o755
def PGSIZE : Nat := 4096
def ELF_MAGIC : Nat := 0x464C457F
def ELF_PROG_LOAD : Nat := 1

/-! ## `file.c` -/

def getFile (f : FilePtr) : FsM File := Prog.gets fun s => s.ftable f

def setFile (f : FilePtr) (g : File → File) : FsM Unit :=
  Prog.modify fun s => s.putFile f (g (s.ftable f))

def filealloc : FsM (Option FilePtr) :=
  Prog.atomic fun s =>
    match (List.finRange NFILE).find? fun f => (s.ftable f).ref = 0 with
    | none => some (.ok (none, s))
    | some f => some (.ok (some f, s.putFile f { s.ftable f with ref := 1 }))

def filedup (f : FilePtr) : FsM Unit :=
  Prog.atomic fun s =>
    if (s.ftable f).ref < 1 then some (.error "filedup")
    else some (.ok ((), s.putFile f { s.ftable f with ref := (s.ftable f).ref + 1 }))

/-- `fileclose`, up to `release`: the file if this was the last reference. -/
def dropFile (f : FilePtr) : FsM (Option File) :=
  Prog.atomic fun s =>
    let ff := s.ftable f
    if ff.ref < 1 then some (.error "fileclose")
    else if ff.ref > 1 then some (.ok (none, s.putFile f { ff with ref := ff.ref - 1 }))
    else some (.ok (some ff, s.putFile f { ff with ref := 0, type := .none }))

/-- `pipeclose`; the page is freed with the second end. -/
def pipeclose (p : Nat) (writable : Bool) : FsM Unit :=
  Prog.modify fun s =>
    let e := if writable then { s.pipes p with writeopen := false }
      else { s.pipes p with readopen := false }
    s.putPipe p
      (if e.readopen = false ∧ e.writeopen = false then { e with freed := e.freed + 1 } else e)

def fileclose (me : ProcPtr) (f : FilePtr) : FsM Unit := do
  let last ← dropFile f
  match last with
  | none => pure ()
  | some ff =>
    match ff.type with
    | .pipe => pipeclose ff.pipe ff.writable
    | .inode => do
      beginOp me
      iput me ff.ip
      endOp me
    | .none => pure ()

structure Stat where
  type : Nat
  dev : Nat
  ino : Nat
  nlink : Nat
  size : Nat
  uid : Nat
  gid : Nat
  mode : Nat

def stati (i : Inode) : Stat :=
  ⟨i.type, i.dev, i.inum, i.nlink, i.size, i.uid, i.gid, i.mode⟩

def filestat (f : FilePtr) : FsM (Option Stat) := do
  let ff ← getFile f
  if ff.type = .inode then do
    ilock ff.ip
    let i ← getInode ff.ip
    iunlock ff.ip
    pure (some (stati i))
  else pure none

/-- An `int` where a `uint` is expected. -/
def toUint (n : Int) : Nat := (n % 2 ^ 32).toNat

def pipeAnswer : FsM (Option Nat) := do
  let r ← draw
  pure (if r = 0 then none else some (r - 1))

def fileread (me : ProcPtr) (f : FilePtr) (n : Int) : FsM (Option Nat) := do
  let ff ← getFile f
  if ff.readable = false then pure none
  else match ff.type with
  | .pipe => pipeAnswer
  | .inode => do
    ilock ff.ip
    let ff ← getFile f
    let r ← readi me ff.ip ff.off (toUint n)
    setFile f fun ff => { ff with off := (ff.off + (r.getD []).length) % 2 ^ 32 }
    iunlock ff.ip
    pure (r.map List.length)
  | .none => panic "fileread"

/-- The most that `filewrite` writes in one transaction. -/
def maxChunk : Nat := ((LOGSIZE - 1 - 1 - 2) / 2) * 512

/-- The loop of `filewrite`; what is left to write is in `addr` from `i` on. -/
def writeChunks (me : ProcPtr) (f : FilePtr) (ip : InodePtr) (addr : Bytes) :
    Nat → Nat → Nat → FsM Bool
  | 0, i, n => pure (i = n)
  | fuel + 1, i, n =>
    if i < n then do
      let n1 := min (n - i) maxChunk
      beginOp me
      ilock ip
      let ff ← getFile f
      let r ← writei me ip ff.off (addr.slice i n1)
      setFile f fun ff => { ff with off := (ff.off + r.getD 0) % 2 ^ 32 }
      iunlock ip
      endOp me
      match r with
      | none => pure false
      | some r =>
        if r = n1 then writeChunks me f ip addr fuel (i + r) n
        else panic "short filewrite"
    else pure (i = n)

def filewrite (me : ProcPtr) (f : FilePtr) (addr : Bytes) (n : Int) : FsM (Option Nat) := do
  let ff ← getFile f
  if ff.writable = false then pure none
  else match ff.type with
  | .pipe => pipeAnswer
  | .inode =>
    if n < 0 then pure none
    else do
      let all ← writeChunks me f ff.ip addr n.toNat 0 n.toNat
      pure (if all then some n.toNat else none)
  | .none => panic "filewrite"

/-! ## Descriptors -/

def getProc (p : ProcPtr) : FsM Proc := Prog.gets fun s => s.proc p

def setProc (p : ProcPtr) (g : Proc → Proc) : FsM Unit :=
  Prog.modify fun s => s.putProc p (g (s.proc p))

def setFd (p : ProcPtr) (fd : Fin NOFILE) (f : Option FilePtr) : FsM Unit :=
  setProc p fun q => { q with ofile := Function.update q.ofile fd f }

/-- `argfd`: the descriptor and its file. -/
def argfd (me : ProcPtr) (fd : Int) : FsM (Option (Fin NOFILE × FilePtr)) := do
  let p ← getProc me
  if h : 0 ≤ fd ∧ fd.toNat < NOFILE then
    pure ((p.ofile ⟨fd.toNat, h.2⟩).map fun f => (⟨fd.toNat, h.2⟩, f))
  else pure none

def fdalloc (me : ProcPtr) (f : FilePtr) : FsM (Option (Fin NOFILE)) := do
  let p ← getProc me
  match (List.finRange NOFILE).find? fun fd => p.ofile fd = none with
  | none => pure none
  | some fd => do
    setFd me fd (some f)
    pure (some fd)

def sysDup (me : ProcPtr) (fd : Int) : FsM (Option (Fin NOFILE)) := do
  let a ← argfd me fd
  match a with
  | none => pure none
  | some (_, f) => do
    let fd ← fdalloc me f
    match fd with
    | none => pure none
    | some fd => do
      filedup f
      pure (some fd)

def sysRead (me : ProcPtr) (fd n : Int) (p : Option Unit) : FsM (Option Nat) := do
  let a ← argfd me fd
  match a, p with
  | some (_, f), some () => fileread me f n
  | _, _ => pure none

def sysWrite (me : ProcPtr) (fd n : Int) (p : Option Bytes) : FsM (Option Nat) := do
  let a ← argfd me fd
  match a, p with
  | some (_, f), some p => filewrite me f p n
  | _, _ => pure none

def sysClose (me : ProcPtr) (fd : Int) : FsM (Option Unit) := do
  let a ← argfd me fd
  match a with
  | none => pure none
  | some (fd, f) => do
    setFd me fd none
    fileclose me f
    pure (some ())

def sysFstat (me : ProcPtr) (fd : Int) (st : Option Unit) : FsM (Option Stat) := do
  let a ← argfd me fd
  match a, st with
  | some (_, f), some () => filestat f
  | _, _ => pure none

/-! ## Links -/

/-- `argstr`: the string ends at its first NUL. -/
def argstr (a : Option (List UInt8)) : Option (List UInt8) := a.map (·.takeWhile (· ≠ 0))

def dot : List UInt8 := [46]
def dotdot : List UInt8 := [46, 46]

/-- A `short` is incremented or decremented. -/
def incr (n : Nat) : Nat := (n + 1) % 2 ^ 16
def decr (n : Nat) : Nat := (n + (2 ^ 16 - 1)) % 2 ^ 16

/-- Some fields of an inode are set and stored. -/
def updateInode (me : ProcPtr) (ip : InodePtr) (f : DInode → DInode) : FsM Unit := do
  setInode ip fun i => { i with toDInode := f i.toDInode }
  iupdate me ip

/-- The end of `sys_link` from `bad:` on. -/
def undoLink (me : ProcPtr) (ip : InodePtr) : FsM (Option Unit) := do
  ilock ip
  updateInode me ip fun d => { d with nlink := decr d.nlink }
  iunlockput me ip
  endOp me
  pure none

def sysLink (me : ProcPtr) (old new : Option (List UInt8)) : FsM (Option Unit) :=
  match argstr old, argstr new with
  | some old, some new => do
    beginOp me
    let ip ← namei me old
    match ip with
    | none => do
      endOp me
      pure none
    | some ip => do
      ilock ip
      let i ← getInode ip
      if i.type = T_DIR then do
        iunlockput me ip
        endOp me
        pure none
      else do
        updateInode me ip fun d => { d with nlink := incr d.nlink }
        iunlock ip
        let dp ← nameiparent me new
        match dp with
        | none => undoLink me ip
        | some (dp, name) => do
          ilock dp
          let d ← getInode dp
          let i ← getInode ip
          let linked ← (if d.dev ≠ i.dev then pure false else dirlink me dp name i.inum)
          iunlockput me dp
          if linked then do
            iput me ip
            endOp me
            pure (some ())
          else undoLink me ip
  | _, _ => pure none

def dirEmptyFrom (me : ProcPtr) (dp : InodePtr) : Nat → Nat → FsM Bool
  | 0, _ => pure true
  | fuel + 1, off => do
    let i ← getInode dp
    if off < i.size then do
      let de ← readDirent me dp off "isdirempty: readi"
      if de.inum ≠ 0 then pure false else dirEmptyFrom me dp fuel (off + Dirent.bytes)
    else pure true

def isdirempty (me : ProcPtr) (dp : InodePtr) : FsM Bool := do
  let i ← getInode dp
  dirEmptyFrom me dp (i.size + 1) (2 * Dirent.bytes)

/-- `ip->type == T_DIR && !isdirempty(ip)`. -/
def isFullDir (me : ProcPtr) (ip : InodePtr) (type : Nat) : FsM Bool :=
  if type = T_DIR then do
    let e ← isdirempty me ip
    pure (!e)
  else pure false

/-- The end of `sys_unlink` from `bad:` on. -/
def failUnlink (me : ProcPtr) (dp : InodePtr) : FsM (Option Unit) := do
  iunlockput me dp
  endOp me
  pure none

def sysUnlink (me : ProcPtr) (path : Option (List UInt8)) : FsM (Option Unit) :=
  match argstr path with
  | none => pure none
  | some path => do
    beginOp me
    let dp ← nameiparent me path
    match dp with
    | none => do
      endOp me
      pure none
    | some (dp, name) => do
      ilock dp
      if namecmp name dot = 0 ∨ namecmp name dotdot = 0 then failUnlink me dp
      else do
        let found ← dirlookup me dp name
        match found with
        | none => failUnlink me dp
        | some (ip, off) => do
          ilock ip
          let i ← getInode ip
          -- a `short` less than 1
          if i.nlink = 0 ∨ 2 ^ 15 ≤ i.nlink then panic "unlink: nlink < 1"
          else do
            let full ← isFullDir me ip i.type
            if full then do
              iunlockput me ip
              failUnlink me dp
            else do
              let r ← writei me dp off (List.replicate Dirent.bytes 0)
              if r ≠ some Dirent.bytes then panic "unlink: writei"
              else do
                when (i.type = T_DIR) (updateInode me dp fun d => { d with nlink := decr d.nlink })
                iunlockput me dp
                updateInode me ip fun d => { d with nlink := decr d.nlink }
                iunlockput me ip
                endOp me
                pure (some ())

/-! ## New files -/

/-- The entries `.` and `..` of a new directory; the parent is linked by `..`. -/
def makeDots (me : ProcPtr) (dp ip : InodePtr) (inum : Nat) : FsM Unit := do
  updateInode me dp fun d => { d with nlink := incr d.nlink }
  let d ← getInode dp
  let r ← dirlink me ip dot inum
  if r = false then panic "create dots"
  else do
    let r ← dirlink me ip dotdot d.inum
    if r then pure () else panic "create dots"

/-- The end of `create`, from the lock on the new inode on. -/
def linkNew (me : ProcPtr) (dp ip : InodePtr) (name : List UInt8) (type major minor : Nat) :
    FsM Unit := do
  ilock ip
  updateInode me ip fun d =>
    { d with major := major, minor := minor, nlink := 1, uid := UID, gid := GID, mode := MODE }
  let i ← getInode ip
  when (type = T_DIR) (makeDots me dp ip i.inum)
  let r ← dirlink me dp name i.inum
  if r then iunlockput me dp else panic "create: dirlink"

def create (me : ProcPtr) (path : List UInt8) (type major minor : Nat) : FsM (Option InodePtr) := do
  let dp ← nameiparent me path
  match dp with
  | none => pure none
  | some (dp, name) => do
    ilock dp
    let found ← dirlookup me dp name
    match found with
    | some (ip, _) => do
      iunlockput me dp
      ilock ip
      let i ← getInode ip
      if type = T_FILE ∧ i.type = T_FILE then pure (some ip)
      else do
        iunlockput me ip
        pure none
    | none => do
      let d ← getInode dp
      let ip ← ialloc me d.dev type
      linkNew me dp ip name type major minor
      pure (some ip)

/-- The inode `sys_open` opens, locked. -/
def openInode (me : ProcPtr) (path : List UInt8) (omode : Nat) : FsM (Option InodePtr) :=
  if omode &&& O_CREATE ≠ 0 then create me path T_FILE 0 0
  else do
    let ip ← namei me path
    match ip with
    | none => pure none
    | some ip => do
      ilock ip
      let i ← getInode ip
      if i.type = T_DIR ∧ omode ≠ O_RDONLY then do
        iunlockput me ip
        pure none
      else pure (some ip)

def sysOpen (me : ProcPtr) (path : Option (List UInt8)) (omode : Nat) : FsM (Option (Fin NOFILE)) :=
  match argstr path with
  | none => pure none
  | some path => do
    beginOp me
    let ip ← openInode me path omode
    match ip with
    | none => do
      endOp me
      pure none
    | some ip => do
      let f ← filealloc
      match f with
      | none => do
        iunlockput me ip
        endOp me
        pure none
      | some f => do
        let fd ← fdalloc me f
        match fd with
        | none => do
          fileclose me f
          iunlockput me ip
          endOp me
          pure none
        | some fd => do
          iunlock ip
          endOp me
          setFile f fun ff => { ff with
            type := .inode, ip := ip, off := 0
            readable := omode &&& O_WRONLY = 0
            writable := omode &&& O_WRONLY ≠ 0 ∨ omode &&& O_RDWR ≠ 0 }
          pure (some fd)

/-- What `sys_mkdir` and `sys_mknod` do: a file that is made and not opened. -/
def makeNode (me : ProcPtr) (path : Option (List UInt8)) (type major minor : Nat) :
    FsM (Option Unit) := do
  beginOp me
  let ip ← (match argstr path with
    | none => pure none
    | some path => create me path type major minor)
  match ip with
  | none => do
    endOp me
    pure none
  | some ip => do
    iunlockput me ip
    endOp me
    pure (some ())

def sysMkdir (me : ProcPtr) (path : Option (List UInt8)) : FsM (Option Unit) :=
  makeNode me path T_DIR 0 0

def sysMknod (me : ProcPtr) (path : Option (List UInt8)) (major minor : Int) : FsM (Option Unit) :=
  makeNode me path T_DEV (major % 2 ^ 16).toNat (minor % 2 ^ 16).toNat

/-- The current directory of a process; a process that runs has one. -/
def getCwd (me : ProcPtr) : FsM InodePtr := do
  let p ← getProc me
  match p.cwd with
  | none => panic "no current directory"
  | some cwd => pure cwd

def sysChdir (me : ProcPtr) (path : Option (List UInt8)) : FsM (Option Unit) := do
  beginOp me
  let ip ← (match argstr path with
    | none => pure none
    | some path => namei me path)
  match ip with
  | none => do
    endOp me
    pure none
  | some ip => do
    ilock ip
    let i ← getInode ip
    if i.type ≠ T_DIR then do
      iunlockput me ip
      endOp me
      pure none
    else do
      iunlock ip
      let cwd ← getCwd me
      iput me cwd
      endOp me
      setProc me fun p => { p with cwd := some ip }
      pure (some ())

/-! ## `pipealloc` and `sys_pipe` -/

/-- `kalloc` for a pipe, with both ends open; it gives no page that is a pipe already. -/
def allocPipe : FsM (Option Nat) := do
  let p ← draw
  Prog.atomic fun s =>
    if p = 0 ∨ (s.pipes p).readopen = true ∨ (s.pipes p).writeopen = true then some (.ok (none, s))
    else some (.ok (some p, s.putPipe p ⟨true, true, (s.pipes p).taken + 1, (s.pipes p).freed⟩))

/-- `pipealloc`, with the files of its two ends. -/
def pipealloc (me : ProcPtr) : FsM (Option (FilePtr × FilePtr)) := do
  let f0 ← filealloc
  match f0 with
  | none => pure none
  | some f0 => do
    let f1 ← filealloc
    match f1 with
    | none => do
      fileclose me f0
      pure none
    | some f1 => do
      let p ← allocPipe
      match p with
      | none => do
        fileclose me f0
        fileclose me f1
        pure none
      | some p => do
        setFile f0 fun ff => { ff with
          type := .pipe, readable := true, writable := false, pipe := p }
        setFile f1 fun ff => { ff with
          type := .pipe, readable := false, writable := true, pipe := p }
        pure (some (f0, f1))

def sysPipe (me : ProcPtr) (fd : Option Unit) : FsM (Option (Fin NOFILE × Fin NOFILE)) :=
  match fd with
  | none => pure none
  | some () => do
    let r ← pipealloc me
    match r with
    | none => pure none
    | some (rf, wf) => do
      let fd0 ← fdalloc me rf
      match fd0 with
      | none => do
        fileclose me rf
        fileclose me wf
        pure none
      | some fd0 => do
        let fd1 ← fdalloc me wf
        match fd1 with
        | none => do
          setFd me fd0 none
          fileclose me rf
          fileclose me wf
          pure none
        | some fd1 => pure (some (fd0, fd1))

/-! ## `exec` -/

/-- The loop of `loaduvm`; `false` is -1. -/
def loadPages (me : ProcPtr) (ip : InodePtr) (offset sz : Nat) : Nat → Nat → FsM Bool
  | 0, _ => pure true
  | fuel + 1, i =>
    if i < sz then do
      let n := min (sz - i) PGSIZE
      let r ← readi me ip ((offset + i) % 2 ^ 32) n
      if r.map List.length = some n then loadPages me ip offset sz fuel (i + PGSIZE)
      else pure false
    else pure true

def loaduvm (me : ProcPtr) (ip : InodePtr) (addr offset sz : Nat) : FsM Bool :=
  if addr % PGSIZE ≠ 0 then panic "loaduvm: addr must be page aligned"
  else loadPages me ip offset sz sz 0

/-- The loop of `exec` over the program headers. -/
def loadSegments (me : ProcPtr) (ip : InodePtr) : Nat → Nat → FsM Bool
  | 0, _ => pure true
  | k + 1, off => do
    let ph ← readi me ip off 32
    match ph with
    | none => pure false
    | some ph =>
      if ph.length ≠ 32 then pure false
      else if field ph 0 4 ≠ ELF_PROG_LOAD then
        loadSegments me ip k ((off + 32) % 2 ^ 32)
      else if field ph 20 4 < field ph 16 4 then pure false
      else do
        let mem ← draw
        if mem = 0 then pure false
        else do
          let ok ← loaduvm me ip (field ph 8 4) (field ph 4 4) (field ph 16 4)
          if ok then loadSegments me ip k ((off + 32) % 2 ^ 32) else pure false

/-- Whether the process may execute the file: the bit for the owner, for the
group, or for others. -/
def mayExecute (p : Proc) (i : Inode) : Bool :=
  if p.uid = i.uid then i.mode.testBit 6
  else if p.gid = i.gid then i.mode.testBit 3
  else i.mode.testBit 0

/-- The file header.  `exec` compares unsigned numbers, and -1 is not less than
`sizeof(elf)`: the header is then whatever was on the stack. -/
def readElf (me : ProcPtr) (ip : InodePtr) : FsM (List UInt8) := do
  let r ← readi me ip 0 52
  match r with
  | some elf => pure elf
  | none => drawBytes 52

/-- The part of `exec` that has the file locked: whether the image is there,
and the owner if the file is to be run as them. -/
def loadImage (me : ProcPtr) (ip : InodePtr) : FsM (Option (Option Nat)) := do
  let elf ← readElf me ip
  if elf.length < 52 then pure none
  else if field elf 0 4 ≠ ELF_MAGIC then pure none
  else do
    let pgdir ← draw
    let p ← getProc me
    let i ← getInode ip
    if pgdir = 0 ∨ mayExecute p i = false then pure none
    else do
      let ok ← loadSegments me ip (field elf 44 2) (field elf 28 4)
      pure (if ok then some (if i.mode.testBit 9 then some i.uid else none) else none)

def exec (me : ProcPtr) (path : List UInt8) : FsM (Option Unit) := do
  beginOp me
  let ip ← namei me path
  match ip with
  | none => do
    endOp me
    pure none
  | some ip => do
    ilock ip
    let image ← loadImage me ip
    iunlockput me ip
    endOp me
    match image with
    | none => pure none
    | some setuid => do
      let stack ← draw
      if stack = 0 then pure none
      else do
        setProc me fun p => { p with uid := setuid.getD p.uid }
        pure (some ())

def sysExec (me : ProcPtr) (path : Option (List UInt8)) (argv : Option Unit) : FsM (Option Unit) :=
  match argstr path, argv with
  | some path, some () => exec me path
  | _, _ => pure none

/-! ## Processes -/

/-- `allocproc`; which free process it takes is not said here, nor why it fails. -/
def allocproc : FsM (Option ProcPtr) := do
  let k ← draw
  Prog.atomic fun s =>
    let np := Fin.ofNat NPROC k
    if (s.proc np).state = .unused then
      some (.ok (some np, s.putProc np { s.proc np with state := .embryo }))
    else some (.ok (none, s))

/-- `np->ofile[fd] = filedup(f)`: nobody else looks at `np` yet. -/
def shareFile (np : ProcPtr) (fd : Fin NOFILE) (f : FilePtr) : FsM Unit :=
  Prog.atomic fun s =>
    if (s.ftable f).ref < 1 then some (.error "filedup")
    else
      let s := s.putFile f { s.ftable f with ref := (s.ftable f).ref + 1 }
      some (.ok ((), s.putProc np
        { s.proc np with ofile := Function.update (s.proc np).ofile fd (some f) }))

def shareCwd (np : ProcPtr) (cwd : InodePtr) : FsM Unit :=
  Prog.modify fun s =>
    let s := s.putInode cwd { s.icache cwd with ref := (s.icache cwd).ref + 1 }
    s.putProc np { s.proc np with cwd := some cwd }

def fork (me : ProcPtr) : FsM (Option ProcPtr) := do
  let np ← allocproc
  match np with
  | none => pure none
  | some np => do
    let pgdir ← draw
    if pgdir = 0 then do
      setProc np fun q => { q with state := .unused }
      pure none
    else do
      (List.finRange NOFILE).forM fun fd => do
        let p ← getProc me
        match p.ofile fd with
        | none => pure ()
        | some f => shareFile np fd f
      let cwd ← getCwd me
      shareCwd np cwd
      let p ← getProc me
      setProc np fun q => { q with uid := p.uid, gid := p.gid, state := .live }
      pure (some np)

def exit (me : ProcPtr) : FsM Unit := do
  let init ← Prog.gets fun s => s.initproc
  if me = init then panic "init exiting"
  else do
    (List.finRange NOFILE).forM fun fd => do
      let p ← getProc me
      match p.ofile fd with
      | none => pure ()
      | some f => do
        fileclose me f
        setFd me fd none
    beginOp me
    let cwd ← getCwd me
    iput me cwd
    endOp me
    setProc me fun p => { p with cwd := none, state := .zombie }

/-- `wait`, when it finds a zombie; whose child that is, is not said here. -/
def wait : FsM Unit := do
  let k ← draw
  Prog.atomic fun s =>
    let p := Fin.ofNat NPROC k
    if (s.proc p).state = .zombie then
      some (.ok ((), s.putProc p { s.proc p with state := .unused }))
    else some (.ok ((), s))

/-! ## `chown`, `chgrp`, `chmod` -/

/-- What the three do.  The reference `namei` gave is kept. -/
def changeAttr (me : ProcPtr) (path : List UInt8) (refused : Bool) (f : DInode → DInode) :
    FsM (Option Unit) :=
  if refused then pure none
  else do
    beginOp me
    let ip ← namei me path
    match ip with
    | none => do
      endOp me
      pure none
    | some ip => do
      ilock ip
      updateInode me ip f
      iunlock ip
      endOp me
      pure (some ())

def chown (me : ProcPtr) (path : List UInt8) (uid : Int) : FsM (Option Unit) :=
  changeAttr me path (uid < 0 ∨ uid > 32767) fun d => { d with uid := uid.toNat }

def chgrp (me : ProcPtr) (path : List UInt8) (gid : Int) : FsM (Option Unit) :=
  changeAttr me path (gid < 0 ∨ gid > 32767) fun d => { d with gid := gid.toNat }

def chmod (me : ProcPtr) (path : List UInt8) (mode : Int) : FsM (Option Unit) :=
  changeAttr me path (mode < 0 ∨ mode > 0o1777) fun d => { d with mode := mode.toNat }

/-! ## System calls -/

inductive Call where
  | dup (fd : Int)
  | read (fd n : Int) (p : Option Unit)
  | write (fd n : Int) (p : Option Bytes)
  | close (fd : Int)
  | fstat (fd : Int) (st : Option Unit)
  | link (old new : Option (List UInt8))
  | unlink (path : Option (List UInt8))
  | open (path : Option (List UInt8)) (omode : Nat)
  | mkdir (path : Option (List UInt8))
  | mknod (path : Option (List UInt8)) (major minor : Int)
  | chdir (path : Option (List UInt8))
  | pipe (fd : Option Unit)
  | exec (path : Option (List UInt8)) (argv : Option Unit)
  | fork
  | exit
  | wait
  | chown (path : List UInt8) (uid : Int)
  | chgrp (path : List UInt8) (gid : Int)
  | chmod (path : List UInt8) (mode : Int)

namespace Call

def prog (me : ProcPtr) : Call → FsM Unit
  | dup fd => do let _ ← sysDup me fd
  | read fd n p => do let _ ← sysRead me fd n p
  | write fd n p => do let _ ← sysWrite me fd n p
  | close fd => do let _ ← sysClose me fd
  | fstat fd st => do let _ ← sysFstat me fd st
  | link old new => do let _ ← sysLink me old new
  | unlink path => do let _ ← sysUnlink me path
  | «open» path omode => do let _ ← sysOpen me path omode
  | mkdir path => do let _ ← sysMkdir me path
  | mknod path major minor => do let _ ← sysMknod me path major minor
  | chdir path => do let _ ← sysChdir me path
  | pipe fd => do let _ ← sysPipe me fd
  | exec path argv => do let _ ← sysExec me path argv
  | fork => do let _ ← Fs.fork me
  | exit => Fs.exit me
  | wait => Fs.wait
  | chown path uid => do let _ ← Fs.chown me path uid
  | chgrp path gid => do let _ ← Fs.chgrp me path gid
  | chmod path mode => do let _ ← Fs.chmod me path mode

def attr : Call → Bool
  | chown .. | chgrp .. | chmod .. => true
  | _ => false

end Call

/-! ## Boot -/

/-- The state `userinit` leaves: one process, at the root. -/
structure Boot (s : State) : Prop where
  sb : s.sb = .read (s.disk 1)
  outstanding : s.log.outstanding = 0
  committing : s.log.committing = false
  n : s.log.lh.n = 0
  outside : ∀ p, s.op p = ⟨false, []⟩
  files : ∀ f, (s.ftable f).ref = 0 ∧ (s.ftable f).type = .none
  pipes : ∀ p, (s.pipes p).readopen = false ∧ (s.pipes p).writeopen = false ∧
    (s.pipes p).taken = (s.pipes p).freed
  others : ∀ p, p ≠ s.initproc → s.proc p = { s.proc p with
    state := .unused, ofile := fun _ => none, cwd := none }
  init : (s.proc s.initproc).state = .live ∧ ∀ fd, (s.proc s.initproc).ofile fd = none
  root : ∃ ip, (s.proc s.initproc).cwd = some ip ∧ (s.icache ip).ref = 1 ∧
    (s.icache ip).dev = ROOTDEV ∧ (s.icache ip).inum = ROOTINO ∧
    ∀ iq, iq ≠ ip → (s.icache iq).ref = 0
  idle : ∀ ip, (s.icache ip).busy = false ∧ (s.icache ip).valid = false

end Xv6Pdx.Fs
