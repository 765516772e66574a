/-
# `Pipe.Model` — `pipe.c`, any number of processes on one pipe

The state is the pipe with what each process is doing in it.  A step is one
stretch of execution under `p->lock`: a call of `pipewrite` or `piperead` from
its `acquire` to the `sleep` or `return` that releases the lock, the same from
the return of `sleep` on, a `pipeclose`, or a `kill`, which changes
`proc->killed` and wakes the process without taking the lock.  A process reads
its own `killed` at most once in a stretch, so a `kill` in the middle of one
counts as before it, or is late: the flag is set and nothing is woken.

The history that goes with the state says which bytes each call was given, which
have been stored, by which call, and which have been taken out.
-/
import Xv6Pdx.Lib.RingBuffer

namespace Xv6Pdx

open Lib

structure Pipe extends RingBuffer UInt8 where
  readopen : Bool
  writeopen : Bool

namespace Pipe

def PIPESIZE : Nat := 512

def UINT : Nat := 2 ^ 32

/-- What a process is doing in the pipe while the lock is free. -/
inductive Thread where
  | idle
  /-- in the `sleep` of `pipewrite`, with `rest` still to be stored; `asleep`
  until it is woken -/
  | writing (call : Nat) (n : Int) (rest : List UInt8) (asleep : Bool)
  /-- in the `sleep` of `piperead` -/
  | reading (n : Int) (asleep : Bool)
deriving DecidableEq, Repr

def Thread.awake : Thread → Thread
  | .writing call n rest _ => .writing call n rest false
  | .reading n _ => .reading n false
  | .idle => .idle

/-- The pipe, its processes and their history. -/
structure Sys where
  pipe : Pipe
  /-- the page has been given back -/
  freed : Bool
  thread : Nat → Thread
  killed : Nat → Bool
  /-- the number of calls of `pipewrite` so far -/
  calls : Nat
  /-- the bytes each of them was given -/
  buffer : Nat → List UInt8
  /-- the bytes stored so far, each with its call -/
  stored : List (Nat × UInt8)
  /-- the bytes taken out so far -/
  taken : List UInt8

/-- What a call returns; a read also says how many bytes it was to read, and
which bytes it has left at `addr`. -/
inductive Return where
  | write (value : Int)
  | read (n : Int) (value : Int) (bytes : List UInt8)
deriving DecidableEq, Repr

/-- The bytes a return has handed out. -/
def Return.bytes : Return → List UInt8
  | .write _ => []
  | .read _ _ bytes => bytes

namespace Sys

def setThread (s : Sys) (p : Nat) (t : Thread) : Sys :=
  { s with thread := Function.update s.thread p t }

def wakeReaders (s : Sys) : Sys :=
  { s with thread := fun q => match s.thread q with
      | .reading n asleep => (Thread.reading n asleep).awake
      | t => t }

def wakeWriters (s : Sys) : Sys :=
  { s with thread := fun q => match s.thread q with
      | .writing call n rest asleep => (Thread.writing call n rest asleep).awake
      | t => t }

/-- `p->data[p->nwrite++ % PIPESIZE] = b`. -/
def store (s : Sys) (call : Nat) (b : UInt8) : Sys :=
  { s with
    pipe := { s.pipe with toRingBuffer := s.pipe.push PIPESIZE UINT b }
    stored := s.stored ++ [(call, b)] }

/-- `p->data[p->nread++ % PIPESIZE]` is taken out. -/
def takeOut (s : Sys) : Sys :=
  { s with
    pipe := { s.pipe with toRingBuffer := s.pipe.pop UINT }
    taken := s.taken ++ [s.pipe.front PIPESIZE] }

/-- A new call of `pipewrite` is given `bytes`. -/
def begin (s : Sys) (bytes : List UInt8) : Sys :=
  { s with calls := s.calls + 1, buffer := Function.update s.buffer s.calls bytes }

/-- The loop of `pipewrite` with `rest` to go. -/
def pipewrite (p call : Nat) (n : Int) : List UInt8 → Sys → Sys × Option Return
  | [], s => (s.wakeReaders.setThread p .idle, some (.write n))
  | b :: rest, s =>
    if s.pipe.isFull PIPESIZE UINT then
      if s.pipe.readopen = false ∨ s.killed p = true then
        (s.setThread p .idle, some (.write (-1)))
      else (s.wakeReaders.setThread p (.writing call n (b :: rest) true), none)
    else pipewrite p call n rest (s.store call b)

/-- The copying loop of `piperead`, with `k` turns to go. -/
def copyOut : Nat → Sys → List UInt8 × Sys
  | 0, s => ([], s)
  | k + 1, s =>
    if s.pipe.isEmpty then ([], s)
    else
      let b := s.pipe.front PIPESIZE
      let (bytes, s') := copyOut k s.takeOut
      (b :: bytes, s')

/-- `piperead`, from the top of its first loop. -/
def piperead (p : Nat) (n : Int) (s : Sys) : Sys × Option Return :=
  if s.pipe.isEmpty ∧ s.pipe.writeopen = true then
    if s.killed p = true then (s.setThread p .idle, some (.read n (-1) []))
    else (s.setThread p (.reading n true), none)
  else
    let (bytes, s') := copyOut n.toNat s
    (s'.wakeWriters.setThread p .idle, some (.read n bytes.length bytes))

/-- One end of the pipe is closed, and who waits for the other side is woken. -/
def shut (writable : Bool) (s : Sys) : Sys :=
  if writable then { s with pipe := { s.pipe with writeopen := false } }.wakeReaders
  else { s with pipe := { s.pipe with readopen := false } }.wakeWriters

/-- `pipeclose`: with both ends closed the page is given back. -/
def pipeclose (writable : Bool) (s : Sys) : Sys :=
  let s' := s.shut writable
  if s'.pipe.readopen = false ∧ s'.pipe.writeopen = false then { s' with freed := true } else s'

/-- `kill`, as far as the pipe is concerned. -/
def kill (p : Nat) (s : Sys) : Sys :=
  { s with
    killed := Function.update s.killed p true
    thread := Function.update s.thread p (s.thread p).awake }

/-- A `kill` that finds `p` running. -/
def mark (p : Nat) (late : Bool) (s : Sys) : Sys :=
  if late then { s with killed := Function.update s.killed p true } else s

end Sys

/-- What a process sets out to do with the lock. -/
inductive Stretch where
  /-- it calls `pipewrite(p, addr, n)` -/
  | write (addr : Nat → UInt8) (n : Int)
  /-- it calls `piperead(p, addr, n)` -/
  | read (n : Int)
  /-- it has been woken and goes on from its `sleep` -/
  | resume

/-- What can happen while the lock is free; `late` says that a `kill` of `p`
arrives after the stretch has read `p`'s flag. -/
inductive Action where
  | run (p : Nat) (what : Stretch) (late : Bool)
  | close (writable : Bool)
  | kill (p : Nat)

/-- One stretch, with what it returns to the caller; `none` when `p` is not
in the place for it. -/
def stretch (s : Sys) (p : Nat) : Stretch → Option (Sys × Option Return)
  | .write addr n =>
    match s.thread p with
    | .idle =>
      let bytes := (List.range n.toNat).map addr
      some (Sys.pipewrite p s.calls n bytes (s.begin bytes))
    | _ => none
  | .read n =>
    match s.thread p with
    | .idle => some (Sys.piperead p n s)
    | _ => none
  | .resume =>
    match s.thread p with
    | .writing call n rest false => some (Sys.pipewrite p call n rest s)
    | .reading n false => some (Sys.piperead p n s)
    | _ => none

/-- One step; nothing happens to a pipe whose page is free. -/
def step (s : Sys) (a : Action) : Option (Sys × Option Return) :=
  if s.freed then none
  else
    match a with
    | .run p what late => (stretch s p what).map fun (s', r) => (s'.mark p late, r)
    | .close writable => some (s.pipeclose writable, none)
    | .kill p => some (s.kill p, none)

/-- The state `pipealloc` leaves, with whatever was in the page. -/
def pipealloc (data : Nat → UInt8) : Sys where
  pipe := { data := data, nread := 0, nwrite := 0, readopen := true, writeopen := true }
  freed := false
  thread := fun _ => .idle
  killed := fun _ => false
  calls := 0
  buffer := fun _ => []
  stored := []
  taken := []

/-- The states of the runs that take only steps with `ok`. -/
inductive ReachableBy (ok : Sys → Action → Prop) : Sys → Prop where
  | init (data : Nat → UInt8) : ReachableBy ok (pipealloc data)
  | step {s s' : Sys} {a : Action} {r : Option Return} : ReachableBy ok s → ok s a →
      step s a = some (s', r) → ReachableBy ok s'

abbrev Reachable : Sys → Prop := ReachableBy fun _ _ => True

/-! ## What a stretch can do

The loops, as relations: each turn under its guard, and each of the places
where the lock is given up. -/

/-- `bytes` are stored one after the other, each while there is room. -/
inductive Stores (call : Nat) : Sys → List UInt8 → Sys → Prop where
  | done (s : Sys) : Stores call s [] s
  | turn {s s' : Sys} {b : UInt8} {bytes : List UInt8} : ¬ s.pipe.isFull PIPESIZE UINT →
      Stores call (s.store call b) bytes s' → Stores call s (b :: bytes) s'

/-- `bytes` are taken out one after the other, each while there is one. -/
inductive Takes : Sys → List UInt8 → Sys → Prop where
  | done (s : Sys) : Takes s [] s
  | turn {s s' : Sys} {bytes : List UInt8} : ¬ s.pipe.isEmpty →
      Takes s.takeOut bytes s' → Takes s (s.pipe.front PIPESIZE :: bytes) s'

/-- The ends of a stretch of `pipewrite` with `rest` to go. -/
inductive Wrote (p call : Nat) (n : Int) (s : Sys) (rest : List UInt8) :
    Sys → Option Return → Prop where
  | returns {s₁ : Sys} : Stores call s rest s₁ →
      Wrote p call n s rest (s₁.wakeReaders.setThread p .idle) (some (.write n))
  | gaveUp {s₁ : Sys} {bytes left : List UInt8} : rest = bytes ++ left → left ≠ [] →
      Stores call s bytes s₁ → s₁.pipe.isFull PIPESIZE UINT →
      (s₁.pipe.readopen = false ∨ s₁.killed p = true) →
      Wrote p call n s rest (s₁.setThread p .idle) (some (.write (-1)))
  | sleeps {s₁ : Sys} {bytes left : List UInt8} : rest = bytes ++ left →
      Stores call s bytes s₁ → s₁.pipe.isFull PIPESIZE UINT → s₁.pipe.readopen = true →
      s₁.killed p = false →
      Wrote p call n s rest (s₁.wakeReaders.setThread p (.writing call n left true)) none

/-- The ends of a stretch of `piperead`. -/
inductive Read (p : Nat) (n : Int) (s : Sys) : Sys → Option Return → Prop where
  | gaveUp : Read p n s (s.setThread p .idle) (some (.read n (-1) []))
  | sleeps : s.pipe.isEmpty → s.pipe.writeopen = true →
      Read p n s (s.setThread p (.reading n true)) none
  | returns {s₁ : Sys} {bytes : List UInt8} : (s.pipe.isEmpty → s.pipe.writeopen = false) →
      Takes s bytes s₁ → bytes.length ≤ n.toNat →
      (bytes.length < n.toNat → s₁.pipe.isEmpty) →
      Read p n s (s₁.wakeWriters.setThread p .idle) (some (.read n bytes.length bytes))

theorem pipewrite_wrote (p call : Nat) (n : Int) (rest : List UInt8) (s : Sys) :
    Wrote p call n s rest (Sys.pipewrite p call n rest s).1 (Sys.pipewrite p call n rest s).2 := by
  induction rest generalizing s with
  | nil => exact .returns (.done s)
  | cons b rest ih =>
    specialize ih (s.store call b)
    rw [Sys.pipewrite]
    split
    · next hfull =>
      split
      · next hstop => exact .gaveUp (List.nil_append _).symm (by simp) (.done s) hfull hstop
      · next hgo =>
        rw [not_or, Bool.not_eq_false, Bool.not_eq_true] at hgo
        exact .sleeps (List.nil_append _).symm (.done s) hfull hgo.1 hgo.2
    · next hroom =>
      generalize Sys.pipewrite p call n rest (s.store call b) = out at ih
      obtain ⟨s', r⟩ := out
      cases ih with
      | returns hs => exact .returns (.turn hroom hs)
      | gaveUp he hl hs hf hk => exact .gaveUp (by rw [he]; rfl) hl (.turn hroom hs) hf hk
      | sleeps he hs hf ho hk => exact .sleeps (by rw [he]; rfl) (.turn hroom hs) hf ho hk

theorem copyOut_takes (k : Nat) (s : Sys) :
    Takes s (Sys.copyOut k s).1 (Sys.copyOut k s).2 ∧ (Sys.copyOut k s).1.length ≤ k ∧
      ((Sys.copyOut k s).1.length < k → (Sys.copyOut k s).2.pipe.isEmpty) := by
  induction k generalizing s with
  | zero => exact ⟨.done s, Nat.le_refl _, fun h => absurd h (Nat.lt_irrefl _)⟩
  | succ k ih =>
    rw [Sys.copyOut]
    split
    · next hempty => exact ⟨.done s, Nat.zero_le _, fun _ => hempty⟩
    · next hne =>
      obtain ⟨htakes, hle, hlt⟩ := ih s.takeOut
      exact ⟨.turn hne htakes, Nat.succ_le_succ hle, fun h => hlt (Nat.lt_of_succ_lt_succ h)⟩

theorem piperead_read (p : Nat) (n : Int) (s : Sys) :
    Read p n s (Sys.piperead p n s).1 (Sys.piperead p n s).2 := by
  rw [Sys.piperead]
  split
  · next hwait =>
    split
    · exact .gaveUp
    · exact .sleeps hwait.1 hwait.2
  · next hgo =>
    obtain ⟨htakes, hle, hlt⟩ := copyOut_takes n.toNat s
    exact .returns (fun he => (Bool.not_eq_true _).mp fun hw => hgo ⟨he, hw⟩) htakes hle hlt

theorem pipeclose_eq (s : Sys) (writable : Bool) :
    ∃ freed, s.pipeclose writable = { s.shut writable with freed } := by
  rw [Sys.pipeclose]
  split
  · exact ⟨true, rfl⟩
  · exact ⟨_, rfl⟩

/-- What a step does, given that it can be taken. -/
inductive Steps (s : Sys) : Action → Sys → Option Return → Prop where
  | write {p : Nat} {addr : Nat → UInt8} {n : Int} {late : Bool} {s' : Sys} {r : Option Return} :
      s.thread p = .idle →
      Wrote p s.calls n (s.begin ((List.range n.toNat).map addr))
        ((List.range n.toNat).map addr) s' r →
      Steps s (.run p (.write addr n) late) (s'.mark p late) r
  | read {p : Nat} {n : Int} {late : Bool} {s' : Sys} {r : Option Return} :
      s.thread p = .idle → Read p n s s' r → Steps s (.run p (.read n) late) (s'.mark p late) r
  | resumeWrite {p call : Nat} {n : Int} {rest : List UInt8} {late : Bool} {s' : Sys}
      {r : Option Return} :
      s.thread p = .writing call n rest false → Wrote p call n s rest s' r →
      Steps s (.run p .resume late) (s'.mark p late) r
  | resumeRead {p : Nat} {n : Int} {late : Bool} {s' : Sys} {r : Option Return} :
      s.thread p = .reading n false → Read p n s s' r →
      Steps s (.run p .resume late) (s'.mark p late) r
  | close (writable : Bool) : Steps s (.close writable) (s.pipeclose writable) none
  | kill (p : Nat) : Steps s (.kill p) (s.kill p) none

theorem step_steps {s s' : Sys} {a : Action} {r : Option Return}
    (h : step s a = some (s', r)) : Steps s a s' r := by
  simp only [step] at h
  split at h
  · cases h
  cases a with
  | close writable => cases h; exact .close writable
  | kill p => cases h; exact .kill p
  | run p what late =>
    obtain ⟨⟨s₁, r₁⟩, hs, he⟩ := Option.map_eq_some_iff.mp h
    cases he
    cases what with
    | write addr n =>
      simp only [stretch] at hs
      split at hs
      · next ht =>
        have hw := pipewrite_wrote p s.calls n ((List.range n.toNat).map addr)
          (s.begin ((List.range n.toNat).map addr))
        rw [Option.some.inj hs] at hw
        exact .write ht hw
      · cases hs
    | read n =>
      simp only [stretch] at hs
      split at hs
      · next ht =>
        have hr := piperead_read p n s
        rw [Option.some.inj hs] at hr
        exact .read ht hr
      · cases hs
    | resume =>
      simp only [stretch] at hs
      split at hs
      · next call n rest ht =>
        have hw := pipewrite_wrote p call n rest s
        rw [Option.some.inj hs] at hw
        exact .resumeWrite ht hw
      · next n ht =>
        have hr := piperead_read p n s
        rw [Option.some.inj hs] at hr
        exact .resumeRead ht hr
      · cases hs

end Pipe

end Xv6Pdx
