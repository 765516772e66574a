/-
# `Proc.Machine` — the process table as an abstract machine

The transitions of `proc.c` on a `View`, where a list operation is an
assignment to `loc`.  `Trans` says which transitions there are and when each
can be taken; `Proc.Refine` shows that every critical section of the code is
a sequence of them, so no pointer enters the proof of an invariant.

A critical section may be several transitions: `exit` wakes, reparents and
then leaves the CPU.  Every invariant holds between transitions, not only when
the lock is free.
-/
import Xv6Pdx.Proc.View

namespace Xv6Pdx.Ptable

def stateOf : StateList → ProcState
  | .free => .unused
  | .embryo => .embryo
  | .sleep => .sleeping
  | .running => .running
  | .zombie => .zombie
  | .ready _ => .runnable

/-- The child a process in the middle of `fork` is making. -/
def Task.child : Task → Option ProcPtr
  | .none => Option.none
  | .embryo np | .stack np | .copied np => some np

def wakeChange (chan : Option Chan) : Change := fun q l =>
  if q.chan = chan then ({ q with state := .runnable }, .ready q.priority.toNat) else (q, l)

def reparentChange (me : ProcPtr) (init : Option ProcPtr) : Change := fun q l =>
  (if q.parent = some me then { q with parent := init } else q, l)

/-- Promotion of a process that is running or asleep. -/
def lowerChange : Change := fun q l =>
  (if 0 < q.priority then { q with priority := q.priority - 1 } else q, l)

/-- Promotion of a process on `ready[i]`. -/
def climbChange (i : Nat) : Change := fun q _ =>
  ({ q with priority := q.priority - 1 }, .ready (i - 1))

/-- The slice of a process charged to its budget. -/
def charge (ticks : Nat) (q : Proc) : Proc :=
  { q with
    cpuTicksTotal := ((q.cpuTicksTotal + (ticks - q.cpuTicksIn : Int)) % 2 ^ 32).toNat
    budget := (q.budget - (ticks - q.cpuTicksIn : Int)).bmod (2 ^ 32) }

/-- A process that has used up its budget. -/
def demoted (maxPrio : Nat) (q : Proc) : Proc :=
  { q with
    priority := if q.priority < maxPrio then q.priority + 1 else q.priority
    budget := BUDGET }

def settle (maxPrio ticks : Nat) (q : Proc) : Proc :=
  if (charge ticks q).budget < 1 then demoted maxPrio (charge ticks q) else charge ticks q

namespace View

variable (A : View)

def wake (chan : Option Chan) : View :=
  A.on (fun p => A.loc p = .sleep) (wakeChange chan)

/-- The reparenting loops of `exit` over the lists `ls`. -/
def reparent (me : ProcPtr) (ls : List StateList) : View :=
  A.on (fun p => A.loc p ∈ ls) (reparentChange me A.initproc)

/-- The turn of that loop for a zombie child. -/
def adopt (q : ProcPtr) : View :=
  (A.assign q fun r => { r with parent := A.initproc }).wake (A.initproc.map .proc)

def sched (maxPrio : Nat) (p : ProcPtr) : View :=
  let q := settle maxPrio A.ticks (A.proc p)
  { A with
    proc := Function.update A.proc p q
    loc := if (A.proc p).state = .runnable
      then Function.update A.loc p (.ready q.priority.toNat) else A.loc }

/-- The CPU is back in the scheduler loop. -/
def leave (c : Nat) : View :=
  { A with cpu := Function.update A.cpu c none }

def resumeAt (p : ProcPtr) (r : Resume) : View :=
  { A with resume := Function.update A.resume p r }

/-- `yield`, and back to the scheduler loop. -/
def yield (maxPrio : Nat) (c : Nat) (p : ProcPtr) : View :=
  (((A.move p (.ready (A.proc p).priority.toNat)
    (fun q => { q with state := .runnable })).sched maxPrio p).leave c).resumeAt p .yield

/-- `sleep`, and back to the scheduler loop. -/
def sleep (maxPrio : Nat) (c : Nat) (p : ProcPtr) (chan : Chan) (r : Resume) : View :=
  (((A.move p .sleep
    (fun q => { q with chan := some chan, state := .sleeping })).sched maxPrio p).leave
      c).resumeAt p r

def exit (maxPrio : Nat) (c : Nat) (p : ProcPtr) : View :=
  ((A.move p .zombie (fun q => { q with state := .zombie })).sched maxPrio p).leave c

/-- `kill` of a process that is not asleep. -/
def killMark (p : ProcPtr) : View :=
  A.assign p fun q => { q with killed := true }

def killWake (p : ProcPtr) : View :=
  A.move p (.ready 0) fun q => { q with killed := true, state := .runnable }

def withTask (p : ProcPtr) (t : Task) : View :=
  { A with task := Function.update A.task p t }

/-- The first section of `allocproc`. -/
def take (np : ProcPtr) : View :=
  { A.move np .embryo (fun q => { q with
      state := .embryo, budget := BUDGET, priority := 0, pid := A.nextpid % 2 ^ 32 }) with
    nextpid := A.nextpid + 1 }

/-- The first section of `allocproc`, called by `me`. -/
def alloc (me np : ProcPtr) : View := (A.take np).withTask me (.embryo np)

def abandon (me np : ProcPtr) : View :=
  (A.move np .free fun q => { q with kstack := none, state := .unused }).withTask me .none

/-- `allocproc` after its first section. -/
def furnish (np : ProcPtr) (page : Nat) : View :=
  (A.assign np fun q => { q with
    kstack := some page, startTicks := A.ticks, cpuTicksTotal := 0, cpuTicksIn := 0 }).resumeAt
      np .forkret

/-- `allocproc` after its first section, called by `me`. -/
def stack (me np : ProcPtr) (page : Nat) : View :=
  (A.furnish np page).withTask me (.stack np)

/-- What `fork` copies without the lock. -/
def copy (me np : ProcPtr) : View :=
  (A.assign np fun q => { q with
    sz := (A.proc me).sz, parent := some me, name := (A.proc me).name,
    uid := (A.proc me).uid, gid := (A.proc me).gid }).withTask me (.copied np)

def forkReady (me np : ProcPtr) : View :=
  (A.move np (.ready (A.proc me).priority.toNat) fun q => { q with
    state := .runnable, priority := (A.proc me).priority }).withTask me .none

def reap (q : ProcPtr) : View :=
  A.move q .free fun r => { r with
    kstack := none, state := .unused, pid := 0, parent := none, name := "", killed := false }

/-- The scheduler gives CPU `c` to `p`. -/
def dispatch (c : Nat) (p : ProcPtr) : View :=
  { A.move p .running (fun q => { q with state := .running, cpuTicksIn := A.ticks }) with
    cpu := Function.update A.cpu c (some p) }

/-- A process that wakes up in `sleep`. -/
def clearChan (p : ProcPtr) : View :=
  A.assign p fun q => { q with chan := none }

def promote (maxPrio : Nat) : View :=
  { A with
    proc := fun p => match A.loc p with
      | .running | .sleep => (lowerChange (A.proc p) (A.loc p)).1
      | .ready i => if 1 ≤ i ∧ i ≤ maxPrio then (climbChange i (A.proc p) (A.loc p)).1 else A.proc p
      | _ => A.proc p
    loc := fun p => match A.loc p with
      | .ready i => if 1 ≤ i ∧ i ≤ maxPrio then (climbChange i (A.proc p) (A.loc p)).2 else A.loc p
      | l => l
    promoteAtTime := (A.promoteAtTime + TICKS_TO_PROMOTE) % 2 ^ 32 }

def tick : View := { A with ticks := (A.ticks + 1) % 2 ^ 32 }

def parentPid (low : Nat) (p : ProcPtr) : Nat :=
  match (A.proc p).parent with
  | some q => (A.proc q).pid
  | none => low

end View

/-- The transitions of the machine.  `Trans maxPrio hit A A'`: in `A` the
machine can go to `A'`, where `kill` wakes up only sleepers with `hit`. -/
inductive Trans (maxPrio : Nat) (hit : Proc → Prop) (A : View) : View → Prop where
  | tick : Trans maxPrio hit A A.tick
  | wake (chan : Option Chan) : Trans maxPrio hit A (A.wake chan)
  | killMark (p : ProcPtr) : A.loc p ≠ .free → Trans maxPrio hit A (A.killMark p)
  | killWake (p : ProcPtr) : A.loc p = .sleep → hit (A.proc p) → Trans maxPrio hit A (A.killWake p)
  | yield (c : Nat) (p : ProcPtr) : A.cpu c = some p → Trans maxPrio hit A (A.yield maxPrio c p)
  | sleep (c : Nat) (p : ProcPtr) (a : Nat) : A.cpu c = some p → A.task p = .none →
      Trans maxPrio hit A (A.sleep maxPrio c p (.addr a) .sleep)
  /-- `wait` falls asleep after a scan that met no zombie child -/
  | waitSleep (c : Nat) (p : ProcPtr) (low : Nat) : A.cpu c = some p → A.task p = .none →
      (∀ q, A.loc q = .zombie → A.parentPid low q ≠ (A.proc p).pid) →
      Trans maxPrio hit A (A.sleep maxPrio c p (.proc p) .wait)
  | reap (c : Nat) (p q : ProcPtr) (low : Nat) : A.cpu c = some p → A.loc q = .zombie →
      A.parentPid low q = (A.proc p).pid → Trans maxPrio hit A (A.reap q)
  | reparent (me : ProcPtr) (ls : List StateList) : A.task me = .none → .zombie ∉ ls →
      Trans maxPrio hit A (A.reparent me ls)
  | adopt (q : ProcPtr) : A.loc q = .zombie → Trans maxPrio hit A (A.adopt q)
  /-- the last part of `exit`, when no process has `p` for a parent any more
  and the parent of `p` does not sleep in `wait` -/
  | exit (c : Nat) (p : ProcPtr) : A.cpu c = some p → A.task p = .none → A.initproc ≠ some p →
      (∀ q, A.loc q ≠ .free → (A.proc q).parent ≠ some p) →
      (∀ r, (A.proc p).parent = some r → ¬ (A.loc r = .sleep ∧ (A.proc r).chan = some (.proc r))) →
      Trans maxPrio hit A (A.exit maxPrio c p)
  | alloc (c : Nat) (p np : ProcPtr) : A.cpu c = some p → A.task p = .none →
      A.loc np = .free → Trans maxPrio hit A (A.alloc p np)
  | abandon (c : Nat) (p np : ProcPtr) : A.cpu c = some p →
      A.task p = .embryo np ∨ A.task p = .stack np → Trans maxPrio hit A (A.abandon p np)
  | stack (c : Nat) (p np : ProcPtr) (page : Nat) : A.cpu c = some p → A.task p = .embryo np →
      Trans maxPrio hit A (A.stack p np page)
  | copy (c : Nat) (p np : ProcPtr) : A.cpu c = some p → A.task p = .stack np →
      Trans maxPrio hit A (A.copy p np)
  | forkReady (c : Nat) (p np : ProcPtr) : A.cpu c = some p → A.task p = .copied np →
      Trans maxPrio hit A (A.forkReady p np)
  | promote : Trans maxPrio hit A (A.promote maxPrio)
  | dispatch (c : Nat) (p : ProcPtr) (j : Nat) : A.cpu c = none → A.loc p = .ready j →
      (∀ q k, A.loc q = .ready k → j ≤ k) → Trans maxPrio hit A (A.dispatch c p)
  | clearChan (c : Nat) (p : ProcPtr) : A.cpu c = some p → Trans maxPrio hit A (A.clearChan p)

abbrev Run (maxPrio : Nat) (hit : Proc → Prop) : View → View → Prop :=
  Relation.ReflTransGen (Trans maxPrio hit)

end Xv6Pdx.Ptable
