/-
# `Bio.Model` — the buffer cache

`bio.c` with its callers.  The buffers are linked in a ring, most recently used
first; `bget` looks for a block from the front and for a buffer to recycle from
the back, and `brelse` moves a buffer to the front.

Any number of processes use the cache at once, each somewhere in `bread`,
`bwrite` or `log_write`, or in code of its own with the buffers it has.  A step is
what one of them does under `bcache.lock` or `log.lock`, or to a buffer that it
holds; a request to the disk ends with the interrupt.

Three fields are history: what a process asked for when it was given a buffer
(`hold`), whether a buffer was changed since it was last given to the log or
the disk (`unsaved`), and the data last stored for every block (`stored`).
-/
import Xv6Pdx.Lib.Ring
import Xv6Pdx.Log.Model

namespace Xv6Pdx.Bio

open Lib Links
open Function (update)

def NBUF : Nat := MAXOPBLOCKS * 3

/-- A `struct buf *` into `bcache.buf`. -/
abbrev BufPtr := Fin NBUF

/-- Any `struct buf *` of the ring; `none` is `&bcache.head`. -/
abbrev Node := Option BufPtr

/-- `struct buf`, with the three flags. -/
structure Buf where
  busy : Bool
  valid : Bool
  dirty : Bool
  dev : Nat
  blockno : Nat
  data : Block

structure Cache where
  buf : BufPtr → Buf
  links : Links Node

/-- How code ends that does not return. -/
inductive Fault where
  | panic (msg : String)
  /-- a walk along the links that does not come back to the head -/
  | hang
deriving DecidableEq, Repr

/-- The `dev` of a buffer that was never used, -1. -/
def noDev : Nat := 2 ^ 32 - 1

namespace Cache

@[simps] def setBuf (c : Cache) (b : BufPtr) (v : Buf) : Cache :=
  { c with buf := update c.buf b v }

def binit : Cache where
  buf := fun _ => ⟨false, false, false, noDev, 0, fun _ => 0⟩
  links := (List.finRange NBUF).foldl (fun r b => r.pushFront none (some b))
    ⟨fun _ => none, fun _ => none⟩

/-- A loop of `bget` over the ring, along `next` or `prev`. -/
def walk (dir : Node → Node) (p : BufPtr → Bool) : Except Fault (Option BufPtr) :=
  match seek dir none (fun n => n.any p) (NBUF + 1) (dir none) with
  | none => .error .hang
  | some n => .ok n.join

def lookup (c : Cache) (dev blockno : Nat) : Except Fault (Option BufPtr) :=
  walk c.links.next fun b => (c.buf b).dev = dev ∧ (c.buf b).blockno = blockno

/-- A buffer that may be given another block. -/
def victim (c : Cache) : Except Fault (Option BufPtr) :=
  walk c.links.prev fun b => (c.buf b).busy = false ∧ (c.buf b).dirty = false

/-- What one pass of `bget` ends with. -/
inductive Pass where
  | got (b : BufPtr)
  | sleep (b : BufPtr)

/-- One pass of the loop of `bget`. -/
def bget (c : Cache) (dev blockno : Nat) : Except Fault (Pass × Cache) := do
  match ← c.lookup dev blockno with
  | some b =>
    if (c.buf b).busy then pure (.sleep b, c)
    else pure (.got b, c.setBuf b { c.buf b with busy := true })
  | none =>
    match ← c.victim with
    | some b => pure (.got b, c.setBuf b
        { c.buf b with dev := dev, blockno := blockno, busy := true, valid := false, dirty := false })
    | none => throw (.panic "bget: no buffers")

def brelse (c : Cache) (b : BufPtr) : Cache :=
  { buf := update c.buf b { c.buf b with busy := false }
    links := (c.links.unlink (some b)).pushFront none (some b) }

end Cache

inductive Stage where
  /-- in code of its own -/
  | ready
  /-- in `bget`, about to look -/
  | wanting (dev blockno : Nat)
  /-- in `bget`, asleep on `b` -/
  | sleeping (b : BufPtr) (dev blockno : Nat)
  /-- in `bread`, with `b` from `bget` -/
  | got (b : BufPtr)
  /-- in `iderw(b)` -/
  | disk (b : BufPtr)
  /-- in `log_write(b)`, after the checks -/
  | logging (b : BufPtr)
deriving DecidableEq, Repr

variable {ι : Type} [DecidableEq ι]

structure State (ι : Type) where
  cache : Cache
  disk : Nat → Nat → Block
  havedisk1 : Bool
  log : Log
  stage : ι → Stage
  hold : ι → BufPtr → Option (Nat × Nat)
  unsaved : BufPtr → Bool
  stored : Nat → Nat → Block

inductive Action (ι : Type) where
  | bread (p : ι) (dev blockno : Nat)
  /-- one pass of the loop of `bget` -/
  | bget (p : ι)
  /-- the rest of `bread` -/
  | check (p : ι)
  /-- the disk has done what the process asked for -/
  | interrupt (p : ι)
  /-- the process changes `b->data` -/
  | modify (p : ι) (b : BufPtr) (data : Block)
  | logWrite (p : ι) (b : BufPtr)
  /-- `log_write` under `log.lock` -/
  | record (p : ι)
  | bwrite (p : ι) (b : BufPtr)
  | brelse (p : ι) (b : BufPtr)
  /-- `begin_op`, `end_op` or `commit` change the log's counts -/
  | log (l : Log)

namespace State

def buf (s : State ι) (b : BufPtr) : Buf := s.cache.buf b

@[simps] def setStage (s : State ι) (p : ι) (st : Stage) : State ι :=
  { s with stage := update s.stage p st }

@[simps] def setBuf (s : State ι) (b : BufPtr) (v : Buf) : State ι :=
  { s with cache := s.cache.setBuf b v }

/-- The process has asked for this block and was given `b`, or has `b` no more. -/
@[simps] def setHold (s : State ι) (p : ι) (b : BufPtr) (h : Option (Nat × Nat)) : State ι :=
  { s with hold := update s.hold p (update (s.hold p) b h) }

@[simps] def setUnsaved (s : State ι) (b : BufPtr) (u : Bool) : State ι :=
  { s with unsaved := update s.unsaved b u }

/-- The process holds `b`, and is not in the middle of something. -/
def has (s : State ι) (p : ι) (b : BufPtr) : Bool := s.stage p = .ready ∧ (s.hold p b).isSome

def wakeup (s : State ι) (b : BufPtr) : State ι :=
  { s with stage := fun p => match s.stage p with
      | .sleeping b' dev blockno => if b' = b then .wanting dev blockno else .sleeping b' dev blockno
      | st => st }

/-- `iderw(b)`, up to the wait for the disk. -/
def iderw (s : State ι) (p : ι) (b : BufPtr) : Except Fault (State ι) :=
  if (s.buf b).busy = false then .error (.panic "iderw: buf not busy")
  else if (s.buf b).valid = true ∧ (s.buf b).dirty = false then
    .error (.panic "iderw: nothing to do")
  else if (s.buf b).dev ≠ 0 ∧ s.havedisk1 = false then
    .error (.panic "iderw: ide disk 1 not present")
  else .ok (s.setStage p (.disk b))

/-- The disk reads or writes the block of `b`. -/
def transfer (s : State ι) (b : BufPtr) : State ι :=
  let v := s.buf b
  if v.dirty then
    { s.setBuf b { v with valid := true, dirty := false } with
      disk := update s.disk v.dev (update (s.disk v.dev) v.blockno v.data) }
  else s.setBuf b { v with data := s.disk v.dev v.blockno, valid := true }

/-- A process changes the data of a buffer. -/
def store (s : State ι) (b : BufPtr) (data : Block) : State ι :=
  let v := s.buf b
  { (s.setBuf b { v with data := data }).setUnsaved b true with
    stored := update s.stored v.dev (update (s.stored v.dev) v.blockno data) }

end State

open State

/-- One step; `none` if it is not one that can be taken.  A process changes, logs,
writes and releases only buffers that it holds, and releases no buffer that is
unsaved. -/
def step (s : State ι) : Action ι → Option (Except Fault (State ι))
  | .bread p dev blockno =>
    if s.stage p = .ready then some (.ok (s.setStage p (.wanting dev blockno))) else none
  | .bget p =>
    match s.stage p with
    | .wanting dev blockno => some do
        match ← s.cache.bget dev blockno with
        | (.sleep b, _) => pure (s.setStage p (.sleeping b dev blockno))
        | (.got b, c) =>
          pure (({ s with cache := c }.setHold p b (some (dev, blockno))).setStage p (.got b))
    | _ => none
  | .check p =>
    match s.stage p with
    | .got b => some (if (s.buf b).valid then .ok (s.setStage p .ready) else s.iderw p b)
    | _ => none
  | .interrupt p =>
    match s.stage p with
    | .disk b => some (.ok (((s.transfer b).wakeup b).setStage p .ready))
    | _ => none
  | .modify p b data => if s.has p b then some (.ok (s.store b data)) else none
  | .logWrite p b =>
    if s.has p b then some (match s.log.check with
      | .error msg => .error (.panic msg)
      | .ok () => .ok (s.setStage p (.logging b)))
    else none
  | .record p =>
    match s.stage p with
    | .logging b => some (.ok ((({ s with log := s.log.record (s.buf b).blockno }.setBuf b
        { s.buf b with dirty := true }).setUnsaved b false).setStage p .ready))
    | _ => none
  | .bwrite p b =>
    if s.has p b then some (
      if (s.buf b).busy = false then .error (.panic "bwrite")
      else ((s.setBuf b { s.buf b with dirty := true }).setUnsaved b false).iderw p b)
    else none
  | .brelse p b =>
    if s.has p b ∧ s.unsaved b = false then some (
      if (s.buf b).busy = false then .error (.panic "brelse")
      else .ok (({ s with cache := s.cache.brelse b }.wakeup b).setHold p b none))
    else none
  | .log l => some (.ok { s with log := l })

/-- The state after `binit`: no process has a buffer. -/
structure Boot (s : State ι) : Prop where
  cache : s.cache = .binit
  stage : ∀ p, s.stage p = .ready
  hold : ∀ p b, s.hold p b = none
  unsaved : ∀ b, s.unsaved b = false
  stored : s.stored = s.disk

/-- The states of all interleavings. -/
inductive Reachable : State ι → Prop where
  | boot {s : State ι} : Boot s → Reachable s
  | step {s s' : State ι} {a : Action ι} : Reachable s → step s a = some (.ok s') → Reachable s'

end Xv6Pdx.Bio
