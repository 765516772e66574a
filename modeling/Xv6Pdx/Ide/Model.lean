/-
# `Ide.Model` — the disk driver `ide.c`

The driver keeps the buffers that wait for the disk on a list through `qnext`;
the first one is the one the drive is working on.  A step is one stretch of
execution under `idelock`: a call of `iderw` up to its `sleep`, the same from the
return of `sleep` on, or an `ideintr`.

The drive works on at most one command.  When it is done it raises one
interrupt, with an error status or without.  What the owner of a buffer does with
it outside `iderw` is `assign`.
-/
import Xv6Pdx.Lib.Chain
import Xv6Pdx.Lib.Wp

namespace Xv6Pdx.Ide

open Lib

def NBUF : Nat := 30

def FSSIZE : Nat := 2000

def BSIZE : Nat := 512

def SECTOR_SIZE : Nat := 512

abbrev BufPtr := Fin NBUF

/-- `struct buf`, without the links of the cache. -/
structure Buf (α : Type) where
  busy : Bool
  valid : Bool
  dirty : Bool
  dev : Nat
  blockno : Nat
  qnext : Option BufPtr
  data : α

/-- `(flags & (B_VALID|B_DIRTY)) == B_VALID`. -/
def Buf.done {α : Type} (b : Buf α) : Bool := b.valid && !b.dirty

structure Command (α : Type) where
  dev : Nat
  sector : Nat
  count : Nat
  /-- what is to be written, or `none` to read -/
  write : Option α

/-- What a process is doing while the lock is free: nothing, or waiting in `iderw`
for a buffer, `asleep` until it is woken. -/
inductive Thread where
  | idle
  | waiting (b : BufPtr) (asleep : Bool)
deriving DecidableEq, Repr

inductive Stop where
  | panic (msg : String)
  /-- the walk over the list does not end -/
  | hang
  /-- a command is given to a drive that has one -/
  | overrun
  /-- data is taken from a drive that has none -/
  | noData
deriving DecidableEq, Repr

/-- The driver, the drive and the processes; then the history: the buffers of all
calls of `iderw`, and of those that the drive is done with. -/
structure Driver (α : Type) where
  buf : BufPtr → Buf α
  idequeue : Option BufPtr
  havedisk1 : Bool
  drive : Option (Command α)
  disk : Nat → Nat → α
  thread : Nat → Thread
  requests : List BufPtr
  completed : List BufPtr

section

variable {α : Type}

abbrev IdeM (α : Type) := StateT (Driver α) (Except Stop)

def setBuf (b : BufPtr) (f : Buf α → Buf α) : IdeM α Unit :=
  modify fun s => { s with buf := Function.update s.buf b (f (s.buf b)) }

/-- The drive puts the four registers with the sector together again. -/
def lba (sector : Nat) : Nat :=
  sector % 256 + 2 ^ 8 * (sector / 2 ^ 8 % 256) + 2 ^ 16 * (sector / 2 ^ 16 % 256) +
    2 ^ 24 * (sector / 2 ^ 24 % 16)

def command (b : Buf α) : Command α where
  dev := b.dev % 2
  sector := lba (b.blockno * (BSIZE / SECTOR_SIZE))
  count := BSIZE / SECTOR_SIZE
  write := if b.dirty then some b.data else none

def idestart (b : Option BufPtr) : IdeM α Unit := do
  match b with
  | none => throw (.panic "idestart")
  | some b =>
    let s ← get
    if FSSIZE ≤ (s.buf b).blockno then throw (.panic "incorrect blockno")
    if 7 < BSIZE / SECTOR_SIZE then throw (.panic "idestart")
    if s.drive.isSome then throw .overrun
    set { s with drive := some (command (s.buf b)) }

def wakeup (b : BufPtr) : IdeM α Unit :=
  modify fun s =>
    { s with
      thread := fun p =>
        if s.thread p = .waiting b true then .waiting b false else s.thread p }

/-- The drive is done: what it was to write is on the disk, what it was to read is
offered. -/
def finish : IdeM α (Option α) := do
  let s ← get
  match s.drive with
  | none => return none
  | some c =>
    match c.write with
    | some x =>
      set { s with
        drive := none
        disk := Function.update s.disk c.dev (Function.update (s.disk c.dev) c.sector x) }
      return none
    | none =>
      set { s with drive := none }
      return some (s.disk c.dev c.sector)

/-- `if(idequeue != 0) idestart(idequeue);`. -/
def startNext : IdeM α Unit := do
  let s ← get
  match s.idequeue with
  | none => return ()
  | some b => idestart (some b)

/-- `ideintr()`, when the drive has raised its interrupt; `idewait(1)` sees an error
status if `error`. -/
def ideintr (error : Bool) : IdeM α Unit := do
  let offered ← finish
  let s ← get
  match s.idequeue with
  | none => return ()
  | some b =>
    set { s with idequeue := (s.buf b).qnext }
    if (s.buf b).dirty = false ∧ error = false then
      match offered with
      | none => throw .noData
      | some x => setBuf b fun v => { v with data := x }
    setBuf b fun v => { v with valid := true, dirty := false }
    modify fun s => { s with completed := s.completed ++ [b] }
    wakeup b
    startNext

/-- `for(pp=&idequeue; *pp; pp=&(*pp)->qnext) ; *pp = b;`. -/
def append (b : BufPtr) : IdeM α Unit := do
  setBuf b fun v => { v with qnext := none }
  let s ← get
  match walk (fun x => (s.buf x).qnext) NBUF s.idequeue with
  | none => throw .hang
  | some xs =>
    match xs.getLast? with
    | none => set { s with idequeue := some b }
    | some t => setBuf t fun v => { v with qnext := some b }

/-- The loop of `iderw`: does it return? -/
def await (p : Nat) (b : BufPtr) : IdeM α Bool := do
  let s ← get
  if (s.buf b).done then
    set { s with thread := Function.update s.thread p .idle }
    return true
  else
    set { s with thread := Function.update s.thread p (.waiting b true) }
    return false

def iderw (p : Nat) (b : BufPtr) : IdeM α Bool := do
  let s ← get
  if (s.buf b).busy = false then throw (.panic "iderw: buf not busy")
  if (s.buf b).done = true then throw (.panic "iderw: nothing to do")
  if (s.buf b).dev ≠ 0 ∧ s.havedisk1 = false then throw (.panic "iderw: ide disk 1 not present")
  append b
  modify fun s => { s with requests := s.requests ++ [b] }
  let s ← get
  if s.idequeue = some b then idestart (some b)
  await p b

/-! ## Runs -/

/-- What can happen while the lock is free. -/
inductive Action (α : Type) where
  | rw (p : Nat) (b : BufPtr)
  /-- a process that has been woken goes on from its `sleep` -/
  | resume (p : Nat)
  | interrupt (error : Bool)
  /-- a `kill` wakes the process -/
  | kill (p : Nat)
  /-- the buffer is used outside `iderw` -/
  | assign (b : BufPtr) (v : Buf α)

/-- The program of an action, and whether a call of `iderw` returns in it. -/
def program (s : Driver α) : Action α → Option (IdeM α Bool)
  | .rw p b =>
    match s.thread p with
    | .idle => some (iderw p b)
    | _ => none
  | .resume p =>
    match s.thread p with
    | .waiting b false => some (await p b)
    | _ => none
  | .interrupt error =>
    match s.drive with
    | some _ => some do
        ideintr error
        return false
    | none => none
  | .kill p =>
    match s.thread p with
    | .waiting b _ => some do
        set { s with thread := Function.update s.thread p (.waiting b false) }
        return false
    | .idle => some (return false)
  | .assign b v => some do
      setBuf b fun old => { v with qnext := old.qnext }
      return false

def step (s : Driver α) (a : Action α) : Option (Except Stop (Bool × Driver α)) :=
  (program s a).map fun m => m s

/-- No process is in `iderw` with the buffer. -/
def Driver.unused (s : Driver α) (b : BufPtr) : Prop := ∀ p asleep, s.thread p ≠ .waiting b asleep

/-- Calls of `iderw` are on different buffers, and a buffer is used outside `iderw`
only when no process is in `iderw` with it. -/
def allowed (s : Driver α) : Action α → Prop
  | .rw _ b => s.unused b
  | .assign b _ => s.unused b
  | _ => True

/-- The states of the runs whose steps have `ok` as well. -/
inductive ReachableBy (ok : Driver α → Action α → Prop) : Driver α → Prop where
  | init (buf : BufPtr → Buf α) (havedisk1 : Bool) (disk : Nat → Nat → α) :
      ReachableBy ok ⟨buf, none, havedisk1, none, disk, fun _ => .idle, [], []⟩
  | step {s s' : Driver α} {a : Action α} {r : Bool} : ReachableBy ok s → allowed s a → ok s a →
      step s a = some (.ok (r, s')) → ReachableBy ok s'

end

end Xv6Pdx.Ide
