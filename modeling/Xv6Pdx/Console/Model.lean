/-
# `Console.Model` — the input side of `console.c`

The state is the `input` record with what each process is doing in
`consoleread`.  A step is one stretch of execution under `cons.lock`: a
`consoleintr` with the characters `getc` gives it, a call of `consoleread` up to
the `sleep` or the return that releases the lock, the same from the return of
`sleep` on, or a `kill`, which wakes a process without taking the lock; in the
middle of a stretch it counts as before it or is `late`.

The history that goes with the state says which characters have been handled
and which bytes have been taken out, in order.  The echo and the lists printed
after the lock is released are left out.
-/
import Xv6Pdx.Lib.RingBuffer

namespace Xv6Pdx.Console

open Lib

def INPUT_BUF : Nat := 128

def UINT : Nat := 2 ^ 32

def ctrl (x : Char) : UInt8 := UInt8.ofNat (x.toNat - '@'.toNat)

/-- The keys that print a list: `^P`, `^R`, `^F`, `^S`, `^Z`. -/
def listKeys : List UInt8 := [ctrl 'P', ctrl 'R', ctrl 'F', ctrl 'S', ctrl 'Z']

def newline : UInt8 := 10

def carriageReturn : UInt8 := 13

def delete : UInt8 := 127

structure Input where
  buf : Nat → UInt8
  r : Nat
  w : Nat
  e : Nat

/-- The buffer between the read and the edit index. -/
def Input.ring (i : Input) : RingBuffer UInt8 := ⟨i.buf, i.r, i.e⟩

def minus (a b : Nat) : Nat := (a + UINT - b) % UINT

/-- What a process is doing while the lock is free. -/
inductive Thread where
  | idle
  /-- in the `sleep` of `consoleread`, with `n` of `target` bytes to go and `got` in
  `dst`; `asleep` until it is woken -/
  | reading (n target : Nat) (got : List UInt8) (asleep : Bool)
deriving DecidableEq, Repr

def Thread.awake : Thread → Thread
  | .reading n target got _ => .reading n target got false
  | .idle => .idle

/-- What has happened to the buffer. -/
inductive Event where
  /-- `consoleintr` has handled a character -/
  | key (c : UInt8)
  /-- a reader has taken a byte out -/
  | took
deriving DecidableEq, Repr

structure Sys where
  input : Input
  thread : Nat → Thread
  killed : Nat → Bool
  events : List Event
  consumed : List UInt8

/-- The value `consoleread` returns, and the bytes it has left at `dst`. -/
structure Return where
  value : Int
  bytes : List UInt8
deriving DecidableEq, Repr

namespace Sys

def setThread (s : Sys) (p : Nat) (t : Thread) : Sys :=
  { s with thread := Function.update s.thread p t }

def wakeup (s : Sys) : Sys := { s with thread := fun q => (s.thread q).awake }

/-! ## `consoleintr` -/

def erase (s : Sys) : Sys := { s with input := { s.input with e := RingBuffer.back UINT s.input.e } }

/-- `while(input.e != input.w && input.buf[(input.e-1) % INPUT_BUF] != '\n') input.e--;`,
which makes at most `e - w` turns. -/
def killLine : Nat → Sys → Sys
  | 0, s => s
  | n + 1, s =>
    if s.input.e ≠ s.input.w ∧ s.input.buf (RingBuffer.back UINT s.input.e % INPUT_BUF) ≠ newline then
      killLine n s.erase
    else s

/-- `input.buf[input.e++ % INPUT_BUF] = c`. -/
def store (s : Sys) (c : UInt8) : Sys :=
  { s with input := { s.input with
      buf := Function.update s.input.buf (s.input.e % INPUT_BUF) c
      e := (s.input.e + 1) % UINT } }

/-- `input.w = input.e; wakeup(&input.r);`. -/
def commit (s : Sys) : Sys := { s with input := { s.input with w := s.input.e } }.wakeup

/-- A character is entered, unless the buffer is full. -/
def enter (c : UInt8) (s : Sys) : Sys :=
  if c ≠ 0 ∧ minus s.input.e s.input.r < INPUT_BUF then
    let c := if c = carriageReturn then newline else c
    let s := s.store c
    if c = newline ∨ c = ctrl 'D' ∨ s.input.e = (s.input.r + INPUT_BUF) % UINT then s.commit else s
  else s

def handle (c : UInt8) (s : Sys) : Sys :=
  if c ∈ listKeys then s
  else if c = ctrl 'U' then s.killLine (minus s.input.e s.input.w)
  else if c = ctrl 'H' ∨ c = delete then if s.input.e ≠ s.input.w then s.erase else s
  else s.enter c

/-- One turn of the loop of `consoleintr`. -/
def key (s : Sys) (c : UInt8) : Sys :=
  { s.handle c with events := s.events ++ [.key c] }

/-- `consoleintr(getc)`, when `getc` returns `cs` and then a negative number. -/
def consoleintr (cs : List UInt8) (s : Sys) : Sys := cs.foldl key s

/-! ## `consoleread` -/

/-- `input.buf[input.r % INPUT_BUF]`. -/
def front (s : Sys) : UInt8 := s.input.buf (s.input.r % INPUT_BUF)

/-- `input.r++`: the byte is taken out. -/
def takeOut (s : Sys) : Sys :=
  { s with
    input := { s.input with r := (s.input.r + 1) % UINT }
    events := s.events ++ [.took]
    consumed := s.consumed ++ [s.front] }

/-- `input.r--`: the byte is put back. -/
def putBack (s : Sys) : Sys :=
  { s with
    input := { s.input with r := RingBuffer.back UINT s.input.r }
    events := s.events.dropLast
    consumed := s.consumed.dropLast }

/-- `consoleread` returns: `return target - n;`. -/
def done (s : Sys) (p n target : Nat) (got : List UInt8) : Sys × Option Return :=
  (s.setThread p .idle, some ⟨(target : Int) - n, got⟩)

/-- The loop of `consoleread` with `n` bytes to go. -/
def readLoop (p target : Nat) : Nat → List UInt8 → Sys → Sys × Option Return
  | 0, got, s => s.done p 0 target got
  | n + 1, got, s =>
    if s.input.r = s.input.w then
      if s.killed p = true then (s.setThread p .idle, some ⟨-1, got⟩)
      else (s.setThread p (.reading (n + 1) target got true), none)
    else
      let c := s.front
      let s := s.takeOut
      if c = ctrl 'D' then
        let s := if n + 1 < target then s.putBack else s
        s.done p (n + 1) target got
      else if c = newline then s.done p n target (got ++ [c])
      else readLoop p target n (got ++ [c]) s

/-- `kill`, as far as the console is concerned. -/
def kill (p : Nat) (s : Sys) : Sys :=
  { s with
    killed := Function.update s.killed p true
    thread := Function.update s.thread p (s.thread p).awake }

/-- A `kill` that finds `p` running. -/
def mark (p : Nat) (late : Bool) (s : Sys) : Sys :=
  if late then { s with killed := Function.update s.killed p true } else s

end Sys

/-- What a process sets out to do with the lock. -/
inductive Stretch where
  /-- it calls `consoleread(ip, dst, n)` -/
  | read (n : Int)
  /-- it has been woken and goes on from its `sleep` -/
  | resume

/-- What can happen while the lock is free. -/
inductive Action where
  | intr (cs : List UInt8)
  | run (p : Nat) (what : Stretch) (late : Bool)
  | kill (p : Nat)

/-- How many bytes a stretch of `p` is to read, and has read; `none` when `p` is
not in the place for it. -/
def Stretch.begins (what : Stretch) (t : Thread) : Option (Nat × Nat × List UInt8) :=
  match what, t with
  | .read n, .idle => some (n.toNat, n.toNat, [])
  | .resume, .reading n target got false => some (n, target, got)
  | _, _ => none

/-- One step, with what it returns to a reader. -/
def step (s : Sys) : Action → Option (Sys × Option Return)
  | .intr cs => some (s.consoleintr cs, none)
  | .run p what late =>
    match what.begins (s.thread p) with
    | none => none
    | some (n, target, got) =>
      let (s', r) := s.readLoop p target n got
      some (s'.mark p late, r)
  | .kill p => some (s.kill p, none)

/-- The buffer is empty and nobody reads; the memory has any contents. -/
def start (buf : Nat → UInt8) : Sys where
  input := ⟨buf, 0, 0, 0⟩
  thread := fun _ => .idle
  killed := fun _ => false
  events := []
  consumed := []

inductive Reachable : Sys → Prop where
  | init (buf : Nat → UInt8) : Reachable (start buf)
  | step {s s' : Sys} {a : Action} {r : Option Return} : Reachable s →
      step s a = some (s', r) → Reachable s'

end Xv6Pdx.Console
