/-
# `Log.Model` — `log.c`

`struct log` with `begin_op`, `log_write` and `end_op`, and then the machine
that writes it: a disk, the buffer cache in front of it, and the place `commit`
or `recover_from_log` has reached.  One step writes at most one block, so a
crash between two steps is a crash after some prefix of the block writes; it
leaves nothing but the disk.  A buffer that is not dirty may be dropped at any
time, and any block may be read at any time.
-/
import Xv6Pdx.Lib.Bytes

namespace Xv6Pdx

open Lib
open Function (update update_self update_of_ne update_eq_self)

/-- The contents of a block of `BSIZE` bytes. -/
abbrev Block := Bytes

def MAXOPBLOCKS : Nat := 10

def LOGSIZE : Nat := MAXOPBLOCKS * 3

theorem LOGSIZE_pos : 0 < LOGSIZE := by decide

structure LogHeader where
  n : Nat
  block : Nat → Nat

/-- The blocks of the log: the header block and `size - 1` more. -/
structure LogArea where
  start : Nat
  size : Nat
  pos : 0 < size

def LogArea.home (l : LogArea) (b : Nat) : Prop := b < l.start ∨ l.start + l.size ≤ b

/-- `struct log`, less the lock and the device. -/
structure Log extends LogArea where
  outstanding : Nat
  committing : Bool
  lh : LogHeader

namespace Log

/-- One turn of the loop of `begin_op`; `none` when it sleeps. -/
def beginOp (l : Log) : Option Log :=
  if l.committing then none
  else if l.lh.n + (l.outstanding + 1) * MAXOPBLOCKS > LOGSIZE then none
  else some { l with outstanding := l.outstanding + 1 }

/-- `end_op` up to `release`: whether to commit. -/
def endOp (l : Log) : Except String (Bool × Log) :=
  let l := { l with outstanding := l.outstanding - 1 }
  if l.committing then .error "log.committing"
  else if l.outstanding = 0 then .ok (true, { l with committing := true })
  else .ok (false, l)

/-- The two checks `log_write` makes before it takes the lock. -/
def check (l : Log) : Except String Unit :=
  if l.lh.n ≥ LOGSIZE ∨ l.lh.n + 1 ≥ l.size then .error "too big a transaction"
  else if l.outstanding < 1 then .error "log_write outside of trans"
  else .ok ()

/-- The rest of `log_write`: the block is in the header from now on. -/
def record (l : Log) (blockno : Nat) : Log :=
  let i := ((List.range l.lh.n).find? fun i => l.lh.block i = blockno).getD l.lh.n
  { l with lh :=
    { block := update l.lh.block i blockno
      n := if i = l.lh.n then l.lh.n + 1 else l.lh.n } }

/-- `log_write` keeps what is in the header and adds the block. -/
theorem record_spec (l : Log) (b : Nat) : (∀ i < l.lh.n, (l.record b).lh.block i = l.lh.block i) ∧
    (∀ i < (l.record b).lh.n, (l.record b).lh.block i = b ∨ i < l.lh.n) ∧
    (∃ i < (l.record b).lh.n, (l.record b).lh.block i = b) ∧
    l.lh.n ≤ (l.record b).lh.n ∧ (l.record b).lh.n ≤ l.lh.n + 1 := by
  cases hf : (List.range l.lh.n).find? fun i => l.lh.block i = b with
  | none =>
    simp only [record, hf, Option.getD_none, if_true]
    refine ⟨?_, ?_, ⟨l.lh.n, Nat.lt_succ_self _, update_self ..⟩, by omega, by omega⟩
    · intro i hi
      rw [update_of_ne (by omega)]
    · intro i hi
      rcases Nat.lt_or_eq_of_le (Nat.lt_succ_iff.mp hi) with hlt | rfl
      · exact .inr hlt
      · exact .inl (update_self ..)
  | some k =>
    have hk : k < l.lh.n := List.mem_range.mp (List.mem_of_find?_eq_some hf)
    obtain rfl : l.lh.block k = b := by simpa using List.find?_some hf
    simp only [record, hf, Option.getD_some, if_neg (Nat.ne_of_lt hk), update_eq_self]
    exact ⟨fun _ _ => trivial, fun i hi => .inr hi, ⟨k, hk, rfl⟩, Nat.le_refl _, Nat.le_succ _⟩

theorem endOp_spec {l l' : Log} {last : Bool} (h : l.endOp = .ok (last, l')) :
    l'.toLogArea = l.toLogArea ∧ l'.lh = l.lh ∧ (last = true → l'.outstanding = 0) := by
  simp only [endOp] at h
  split at h
  · cases h
  · split at h
    · next hzero =>
      cases h
      exact ⟨rfl, rfl, fun _ => hzero⟩
    · cases h
      exact ⟨rfl, rfl, fun hf => (by cases hf)⟩

end Log

/-! ## The machine -/

namespace Crash

structure Buf where
  data : Block
  dirty : Bool

/-- Where `commit` or `recover_from_log` is. -/
inductive Pc where
  /-- neither runs -/
  | running
  /-- `write_log`, then the first `write_head` -/
  | writeLog (tail : Nat)
  /-- `install_trans`, then the second `write_head` -/
  | install (tail : Nat)
  /-- the end of `end_op` -/
  | finish
  /-- `read_head` of `recover_from_log` -/
  | boot
  /-- its `install_trans`, then its `write_head` -/
  | recover (tail : Nat)
deriving DecidableEq, Repr

structure Machine where
  disk : Nat → Block
  cache : Nat → Option Buf
  log : Log
  pc : Pc

namespace Machine

/-- What `bread` of the block finds. -/
def content (m : Machine) (b : Nat) : Block :=
  match m.cache b with
  | some buf => buf.data
  | none => m.disk b

/-- `bread`, which leaves the block in the cache. -/
def bread (m : Machine) (b : Nat) : Block × Machine :=
  match m.cache b with
  | some buf => (buf.data, m)
  | none => (m.disk b, { m with cache := update m.cache b (some ⟨m.disk b, false⟩) })

/-- `bwrite` of a buffer with these data. -/
def bwrite (m : Machine) (b : Nat) (data : Block) : Machine :=
  { m with
    disk := update m.disk b data
    cache := update m.cache b (some ⟨data, false⟩) }

/-- A block goes from one place to another: the body of the loops of
`write_log` and `install_trans`. -/
def copyBlock (m : Machine) (src dst : Nat) : Machine :=
  let (data, m) := m.bread src
  let (_, m) := m.bread dst
  m.bwrite dst data

def setN (m : Machine) (n : Nat) : Machine :=
  { m with log := { m.log with lh := { m.log.lh with n := n } } }

def goto (m : Machine) (pc : Pc) : Machine := { m with pc := pc }

/-- The header block with the in-memory header in it. -/
def headBlock (lh : LogHeader) (data : Block) : Block :=
  (List.range lh.n).foldl (fun d i => d.setWord (i + 1) (lh.block i)) (data.setWord 0 lh.n)

def writeHead (m : Machine) : Machine :=
  let (data, m) := m.bread m.log.start
  m.bwrite m.log.start (headBlock m.log.lh data)

def readHead (m : Machine) : Machine :=
  let (data, m) := m.bread m.log.start
  { m with log := { m.log with lh :=
    { n := data.word 0
      block := fun i => if i < data.word 0 then data.word (i + 1) else m.log.lh.block i } } }

/-- The next block write of `commit` or `recover_from_log`. -/
def advance (m : Machine) : Option Machine :=
  match m.pc with
  | .running => none
  | .writeLog tail =>
    if tail < m.log.lh.n then
      some ((m.copyBlock (m.log.lh.block tail) (m.log.start + tail + 1)).goto
        (.writeLog (tail + 1)))
    else some (m.writeHead.goto (.install 0))
  | .install tail =>
    if tail < m.log.lh.n then
      some ((m.copyBlock (m.log.start + tail + 1) (m.log.lh.block tail)).goto (.install (tail + 1)))
    else some ((m.setN 0).writeHead.goto .finish)
  | .finish => some { m with log := { m.log with committing := false }, pc := .running }
  | .boot => some (m.readHead.goto (.recover 0))
  | .recover tail =>
    if tail < m.log.lh.n then
      some ((m.copyBlock (m.log.start + tail + 1) (m.log.lh.block tail)).goto (.recover (tail + 1)))
    else some ((m.setN 0).writeHead.goto .running)

def crash (m : Machine) : Machine where
  disk := m.disk
  cache := fun _ => none
  log := { m.log with outstanding := 0, committing := false, lh := ⟨0, fun _ => 0⟩ }
  pc := .boot

end Machine

inductive Action where
  | beginOp
  | endOp
  /-- a system call puts these data in the block's buffer, with `log_write` -/
  | write (b : Nat) (data : Block)
  | bread (b : Nat)
  /-- `bget` takes the buffer for another block -/
  | evict (b : Nat)
  | advance
  | crash

/-- One step; `none` when the action cannot happen, or panics. -/
def step (m : Machine) : Action → Option Machine
  | .beginOp =>
    if m.pc = .running then m.log.beginOp.map fun l => { m with log := l } else none
  | .endOp =>
    if m.pc = .running then
      match m.log.endOp with
      | .error _ => none
      | .ok (false, l) => some { m with log := l }
      | .ok (true, l) =>
        some { m with log := l, pc := if 0 < l.lh.n then .writeLog 0 else .finish }
    else none
  | .write b data =>
    match m.log.check with
    | .error _ => none
    | .ok () => some { m with
        log := m.log.record b
        cache := update m.cache b (some ⟨data, true⟩) }
  | .bread b => some (m.bread b).2
  | .evict b =>
    match m.cache b with
    | some ⟨_, false⟩ => some { m with cache := update m.cache b none }
    | _ => none
  | .advance => m.advance
  | .crash => some m.crash

def run (m : Machine) : List Action → Option Machine
  | [] => some m
  | a :: as => (step m a).bind (run · as)

end Crash

end Xv6Pdx
