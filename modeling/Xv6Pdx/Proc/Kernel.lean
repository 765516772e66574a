/-
# `Proc.Kernel` — `proc.c` with `CS333_P3P4`, one critical section at a time

The state is `ptable` with what the code around it keeps for each CPU
(`cpu->proc`) and for each process: where `swtch` will resume it, and whether
it is in the middle of `fork`.  A routine that runs under `ptable.lock` is a
`KernelM` program; `step` puts them together into what can happen between two
moments at which the lock is free.

A critical section does not always end in the routine that opened it.
`yield`, `sleep` and `exit` leave through `sched`, and the scheduler loop of that
CPU releases the lock; the scheduler leaves into the process it dispatches, which
releases it or, when it was asleep in `wait`, scans the lists again.

Left out: page tables, trap frames and kernel contexts, the open files and
working directories, and the assertions of `sched` on the interrupt state.
-/
import Xv6Pdx.Proc.StateLists

namespace Xv6Pdx.Ptable

open Lib
open Function (update)

def BUDGET : Int := 1000

def TICKS_TO_PROMOTE : Nat := 2500

def PGSIZE : Nat := 4096

inductive ProcState where
  | unused
  | embryo
  | sleeping
  | runnable
  | running
  | zombie
deriving DecidableEq, Repr

/-- A non-null sleep channel.  `wait` sleeps on the address of its own `struct proc`, every
other caller of `sleep` on something else. -/
inductive Chan where
  | proc (p : ProcPtr)
  | addr (a : Nat)
deriving DecidableEq, Repr

structure Proc where
  sz : Nat
  kstack : Option Nat
  state : ProcState
  pid : Nat
  parent : Option ProcPtr
  chan : Option Chan
  killed : Bool
  name : String
  startTicks : Nat
  uid : Nat
  gid : Nat
  cpuTicksTotal : Nat
  cpuTicksIn : Nat
  budget : Int
  priority : Int
deriving DecidableEq, Repr

/-- Where a process that is not on a CPU continues after `swtch`. -/
inductive Resume where
  /-- at `forkret`, never having run -/
  | forkret
  /-- in `yield` -/
  | yield
  /-- in a `sleep` called with a lock other than `ptable.lock` -/
  | sleep
  /-- in the `sleep` at the end of the loop of `wait` -/
  | wait
deriving DecidableEq, Repr

/-- How far a process has come in `fork`. -/
inductive Task where
  /-- not in `fork` -/
  | none
  /-- `allocproc` has taken `np` and released the lock -/
  | embryo (np : ProcPtr)
  /-- `np` has its kernel stack and context -/
  | stack (np : ProcPtr)
  /-- `np` has its memory, its parent and its credentials -/
  | copied (np : ProcPtr)
deriving DecidableEq, Repr

/-- `ptable`, `ticks`, `nextpid`, `initproc`, and what each CPU and each
process is doing. -/
structure Kernel where
  proc : ProcPtr → Proc
  pLists : StateLists
  promoteAtTime : Nat
  ticks : Nat
  nextpid : Nat
  initproc : Option ProcPtr
  cpu : Nat → Option ProcPtr
  resume : ProcPtr → Resume
  task : ProcPtr → Task

abbrev KernelM := StateT Kernel (Except Stop)

/-- Run list code on `ptable.pLists`. -/
def onLists {α : Type} (m : ListM α) : KernelM α := fun s =>
  match m s.pLists with
  | .ok (a, L) => .ok (a, { s with pLists := L })
  | .error e => .error e

def setProc (p : ProcPtr) (f : Proc → Proc) : KernelM Unit :=
  modify fun s => { s with proc := update s.proc p (f (s.proc p)) }

def assertState (p : ProcPtr) (state : ProcState) : KernelM Unit := do
  let s ← get
  if (s.proc p).state ≠ state then throw (.panic "Assert State failure.\n")

/-- The sequence by which nearly every routine changes a state: take `p` off
`src`, assert its old state, assign its fields, put it on `dst`, and panic
when either list operation failed. -/
def moveProc (src dst : StateList) (old : ProcState) (f : Proc → Proc) (p : ProcPtr)
    (msg : String) : KernelM Unit := do
  let rc ← onLists (stateListRemove src (some p))
  assertState p old
  setProc p f
  let rc' ← onLists (stateListAdd dst p)
  if rc + rc' ≠ 0 then throw (.panic msg)

/-! ## The loops over a list

A walk is bounded by the size of the table; one that runs out has met a
cycle, where the loop of the source would not end. -/

/-- `for(p = h; p != 0; p = p->next) body`: `next` is read after the body. -/
def forNext (body : ProcPtr → KernelM Unit) : Nat → Option ProcPtr → KernelM Unit
  | _, none => pure ()
  | 0, some _ => throw .hang
  | n + 1, some p => do
    body p
    let s ← get
    forNext body n (s.pLists.next p)

/-- `while(curr != 0){ next = curr->next; body; curr = next; }`. -/
def forSaved (body : ProcPtr → KernelM Unit) : Nat → Option ProcPtr → KernelM Unit
  | _, none => pure ()
  | 0, some _ => throw .hang
  | n + 1, some p => do
    let s ← get
    body p
    forSaved body n (s.pLists.next p)

/-- `while(curr != 0){ if(f) break; curr = curr->next; }`. -/
def findNext (f : Kernel → ProcPtr → Bool) : Nat → Option ProcPtr → KernelM (Option ProcPtr)
  | _, none => pure none
  | 0, some _ => throw .hang
  | n + 1, some p => do
    let s ← get
    if f s p then pure (some p) else findNext f n (s.pLists.next p)

/-- `for(i = lo; i < lo + n; i++) body`. -/
def forIndex (body : Nat → KernelM Unit) : Nat → Nat → KernelM Unit
  | 0, _ => pure ()
  | n + 1, i => do
    body i
    forIndex body n (i + 1)

/-- The first process on the list `l` with `f`. -/
def findOn (l : StateList) (f : Kernel → ProcPtr → Bool) : KernelM (Option ProcPtr) := do
  let s ← get
  findNext f NPROC (s.pLists.head l)

/-- The first process with `f` on one of `n` ready lists from `ready[i]` on,
and the index of its list. -/
def findReady (f : Kernel → ProcPtr → Bool) : Nat → Nat → KernelM (Option (Nat × ProcPtr))
  | 0, _ => pure none
  | n + 1, i => do
    match ← findOn (.ready i) f with
    | some p => pure (some (i, p))
    | none => findReady f n (i + 1)

section Routines

-- `MAXPRIO` of `param.h`
variable (maxPrio : Nat)

def readyList (prio : Int) : KernelM StateList :=
  if 0 ≤ prio ∧ prio ≤ maxPrio then pure (.ready prio.toNat) else throw .badIndex

/-! ## Giving up the CPU -/

/-- The branch of `sched` for a process that has used up its budget. -/
def demote (p : ProcPtr) : KernelM Unit := do
  let s ← get
  let q := s.proc p
  if q.priority < maxPrio then
    if q.state = .runnable then
      let rc ← onLists (stateListRemove (← readyList maxPrio q.priority) (some p))
      let rc' ← onLists (stateListAdd (← readyList maxPrio (q.priority + 1)) p)
      if rc + rc' ≠ 0 then throw (.panic "sched update priority\n")
    setProc p fun q => { q with priority := q.priority + 1 }
  setProc p fun q => { q with budget := BUDGET }

/-- `sched`, up to the `swtch`: charge the slice to the budget, and demote
the process when the budget is used up. -/
def sched (p : ProcPtr) : KernelM Unit := do
  let s ← get
  if (s.proc p).state = .running then throw (.panic "sched running")
  let used : Int := s.ticks - (s.proc p).cpuTicksIn
  setProc p fun q => { q with
    cpuTicksTotal := ((q.cpuTicksTotal + used) % 2 ^ 32).toNat
    budget := (q.budget - used).bmod (2 ^ 32) }
  let s ← get
  if (s.proc p).budget < 1 then demote maxPrio p

/-- `yield`, up to the `swtch` in `sched`. -/
def yield (p : ProcPtr) : KernelM Unit := do
  let s ← get
  let dst ← readyList maxPrio (s.proc p).priority
  moveProc .running dst .running (fun q => { q with state := .runnable }) p "Yield\n"
  sched maxPrio p

/-- `sleep`, under `ptable.lock`, up to the `swtch` in `sched`. -/
def sleep (p : ProcPtr) (chan : Chan) : KernelM Unit := do
  setProc p fun q => { q with chan := some chan }
  moveProc .running .sleep .running (fun q => { q with state := .sleeping }) p "Sleep\n"
  sched maxPrio p

/-! ## Waking up -/

/-- The body of the loop of `wakeup1`. -/
def wakeupProc (chan : Option Chan) (p : ProcPtr) : KernelM Unit := do
  let s ← get
  if (s.proc p).chan = chan then
    let dst ← readyList maxPrio (s.proc p).priority
    moveProc .sleep dst .sleeping (fun q => { q with state := .runnable }) p "wakeup1\n"

def wakeup1 (chan : Option Chan) : KernelM Unit := do
  let s ← get
  forSaved (wakeupProc maxPrio chan) NPROC (s.pLists.head .sleep)

def kill (pid : Nat) : KernelM Int := do
  let hasPid : Kernel → ProcPtr → Bool := fun s p => (s.proc p).pid == pid
  let mark : ProcPtr → KernelM Int := fun p => do
    setProc p fun q => { q with killed := true }
    pure 0
  match ← findOn .running hasPid with
  | some p => mark p
  | none =>
  match ← findOn .sleep hasPid with
  | some p =>
    setProc p fun q => { q with killed := true }
    -- on to ready[0], whatever its priority is
    moveProc .sleep (.ready 0) .sleeping (fun q => { q with state := .runnable }) p "kill\n"
    pure 0
  | none =>
  match ← findReady hasPid (maxPrio + 1) 0 with
  | some (_, p) => mark p
  | none =>
  match ← findOn .zombie hasPid with
  | some p => mark p
  | none =>
  match ← findOn .embryo hasPid with
  | some p => mark p
  | none => pure (-1)

/-! ## Creating a process -/

/-- The first critical section of `allocproc`. -/
def allocproc : KernelM (Option ProcPtr) := do
  let s ← get
  let p := s.pLists.head .free
  let rc ← onLists (stateListRemove .free p)
  if rc ≠ 0 then pure none
  else
    match p with
    | none => throw .nullDeref
    | some p =>
      assertState p .unused
      setProc p fun q => { q with state := .embryo, budget := BUDGET, priority := 0 }
      let rc ← onLists (stateListAdd .embryo p)
      if rc ≠ 0 then throw (.panic "rc !=0 allocproc\n")
      let s ← get
      setProc p fun q => { q with state := .embryo, pid := s.nextpid % 2 ^ 32 }
      modify fun s => { s with nextpid := s.nextpid + 1 }
      pure (some p)

/-- `allocproc` when `kalloc` finds no page for the kernel stack. -/
def allocprocFail (np : ProcPtr) : KernelM Unit := do
  setProc np fun q => { q with kstack := none }
  moveProc .embryo .free .embryo (fun q => { q with state := .unused }) np
    "Crazy things happening\n"

/-- The rest of `allocproc`, without the lock. -/
def allocprocStack (np : ProcPtr) (page : Nat) : KernelM Unit := do
  let s ← get
  setProc np fun q => { q with
    kstack := some page, startTicks := s.ticks, cpuTicksTotal := 0, cpuTicksIn := 0 }
  modify fun s => { s with resume := update s.resume np .forkret }

def forkFail (np : ProcPtr) : KernelM Unit := do
  setProc np fun q => { q with kstack := none }
  moveProc .embryo .free .embryo (fun q => { q with state := .unused }) np "FORK: rc != 0"

/-- What `fork` assigns to the child without the lock. -/
def forkCopy (p np : ProcPtr) : KernelM Unit := do
  let s ← get
  setProc np fun q => { q with
    sz := (s.proc p).sz, parent := some p, name := (s.proc p).name,
    uid := (s.proc p).uid, gid := (s.proc p).gid }

/-- The last critical section of `fork`. -/
def forkReady (p np : ProcPtr) : KernelM Unit := do
  let s ← get
  let prio := (s.proc p).priority
  let dst ← readyList maxPrio prio
  moveProc .embryo dst .embryo (fun q => { q with state := .runnable, priority := prio }) np
    "state list error FORK"

/-! ## Ending a process -/

/-- `if(p->parent == proc) p->parent = initproc;`. -/
def reparent (me p : ProcPtr) : KernelM Unit := do
  let s ← get
  if (s.proc p).parent = some me then
    setProc p fun q => { q with parent := s.initproc }

/-- The body of the loop of `exit` over the zombies. -/
def reparentZombie (me p : ProcPtr) : KernelM Unit := do
  let s ← get
  if (s.proc p).parent = some me then
    setProc p fun q => { q with parent := s.initproc }
    wakeup1 maxPrio (s.initproc.map .proc)

/-- A loop of `exit` over one list. -/
def reparentList (me : ProcPtr) (l : StateList) : KernelM Unit := do
  let s ← get
  forNext (reparent me) NPROC (s.pLists.head l)

/-- The loops of `exit` over `running`, `ready`, `embryo` and `sleep`. -/
def reparentLists (me : ProcPtr) : KernelM Unit := do
  reparentList me .running
  forIndex (fun i => reparentList me (.ready i)) (maxPrio + 1) 0
  reparentList me .embryo
  reparentList me .sleep

/-- The loop of `exit` over `zombie`. -/
def reparentZombies (me : ProcPtr) : KernelM Unit := do
  let s ← get
  forNext (reparentZombie maxPrio me) NPROC (s.pLists.head .zombie)

/-- `exit`, from the `acquire` to the `swtch` in `sched`. -/
def exit (me : ProcPtr) : KernelM Unit := do
  let s ← get
  if s.initproc = some me then throw (.panic "init exiting")
  wakeup1 maxPrio ((s.proc me).parent.map .proc)
  reparentLists maxPrio me
  reparentZombies maxPrio me
  moveProc .running .zombie .running (fun q => { q with state := .zombie }) me "exit\n"
  sched maxPrio me

/-- `curr->parent->pid`.  A null parent is not a fault: the load reads the word `low` that the
user program has at the offset of `pid`. -/
def parentPid (low : Nat) (s : Kernel) (p : ProcPtr) : Nat :=
  match (s.proc p).parent with
  | some q => (s.proc q).pid
  | none => low

/-- The test of every scan in `wait`. -/
def isChild (low : Nat) (me : ProcPtr) (s : Kernel) (p : ProcPtr) : Bool :=
  parentPid low s p == (s.proc me).pid

/-- Is a child of `me` on the list? -/
def childOn (low : Nat) (me : ProcPtr) (l : StateList) : KernelM Bool := do
  return (← findOn l (isChild low me)).isSome

/-- `wait` frees the zombie `p` and returns its pid. -/
def reap (p : ProcPtr) : KernelM Int := do
  let s ← get
  moveProc .zombie .free .zombie
    (fun q => { q with kstack := none, state := .unused, pid := 0, parent := none,
                       name := "", killed := false }) p "wait error\n"
  pure (s.proc p).pid

/-- One turn of the loop of `wait`: the value it returns, or `none` when the
caller has gone to sleep. -/
def waitLoop (low : Nat) (me : ProcPtr) (havekids : Bool) : KernelM (Option Int) := do
  match ← findOn .zombie (isChild low me) with
  | some p => return some (← reap p)
  | none =>
    let r := (← findReady (isChild low me) (maxPrio + 1) 0).isSome
    let sl ← childOn low me .sleep
    let ru ← childOn low me .running
    let em ← childOn low me .embryo
    let havekids := havekids || r || sl || ru || em
    let s ← get
    if havekids = false then return some (-1)
    else if (s.proc me).killed then return some (-1)
    else
      sleep maxPrio me (.proc me)
      return none

/-! ## The scheduler -/

/-- The body of the promotion loops over `running` and `sleep`. -/
def promoteProc (msg : String) (p : ProcPtr) : KernelM Unit := do
  let s ← get
  if (s.proc p).priority < 0 then throw (.panic msg)
  if (s.proc p).priority > 0 then
    setProc p fun q => { q with priority := q.priority - 1 }

/-- The body of the promotion loop over `ready[i]`; the results of the two
list operations are not looked at. -/
def promoteReady (i : Nat) (p : ProcPtr) : KernelM Unit := do
  let s ← get
  if (s.proc p).priority ≠ i then
    throw (.panic "priority != i, scheduler, runnable lists\n")
  else
    let _ ← onLists (stateListRemove (.ready i) (some p))
    setProc p fun q => { q with priority := q.priority - 1 }
    let _ ← onLists (stateListAdd (.ready (i - 1)) p)

def promoteList (i : Nat) : KernelM Unit := do
  let s ← get
  forSaved (promoteReady i) NPROC (s.pLists.head (.ready i))

/-- The promotion pass of `scheduler`. -/
def promote : KernelM Unit := do
  let s ← get
  if s.promoteAtTime ≤ s.ticks then
    forSaved (promoteProc "priority < 0, scheduler, running\n") NPROC (s.pLists.head .running)
    forIndex promoteList maxPrio 1
    let s ← get
    forSaved (promoteProc "priority < 0, scheduler, sleeping\n") NPROC (s.pLists.head .sleep)
    modify fun s => { s with promoteAtTime := (s.promoteAtTime + TICKS_TO_PROMOTE) % 2 ^ 32 }

/-- The first non-empty ready list and its head. -/
def pickReady : KernelM (Option (Nat × ProcPtr)) :=
  findReady (fun _ _ => true) (maxPrio + 1) 0

/-- The scheduler gives CPU `c` to the process `p` of `ready[j]`, up to the
`swtch`. -/
def dispatch (c j : Nat) (p : ProcPtr) : KernelM Unit := do
  moveProc (.ready j) .running .runnable (fun q => { q with state := .running }) p
    "Panic - scheduler\n"
  modify fun s => { s with cpu := update s.cpu c (some p) }
  let s ← get
  setProc p fun q => { q with cpuTicksIn := s.ticks }

/-- What `p` does after the `swtch` on CPU `c`, up to the moment the lock is
free again: `low` is used if it resumes in `wait`. -/
def resumed (c low : Nat) (p : ProcPtr) : KernelM Unit := do
  let s ← get
  match s.resume p with
  | .forkret => pure ()
  | .yield => pure ()
  | .sleep => setProc p fun q => { q with chan := none }
  | .wait =>
    setProc p fun q => { q with chan := none }
    match ← waitLoop maxPrio low p true with
    | some _ => pure ()
    | none => modify fun s => { s with cpu := update s.cpu c none }

/-- `scheduler` on CPU `c`, from the `acquire` to the moment the lock is free
again. -/
def scheduler (c low : Nat) : KernelM Unit := do
  promote maxPrio
  match ← pickReady maxPrio with
  | none => pure ()
  | some (j, p) =>
    dispatch c j p
    resumed maxPrio c low p

/-- Back in the scheduler loop: `proc = 0`, and the process will resume at `r`. -/
def switched (c : Nat) (p : ProcPtr) (r : Resume) : KernelM Unit :=
  modify fun s => { s with
    cpu := update s.cpu c none
    resume := update s.resume p r }

/-! ## Setting a priority -/

/-- What `setpriority` does with the process it finds on `src`: one that has the priority
only gets a new budget, any other goes to a ready list, also one that is running. -/
def requeue (src : StateList) (old : ProcState) (priority : Int) (p : ProcPtr) (msg : String) :
    KernelM Int := do
  let s ← get
  if (s.proc p).priority = priority then
    setProc p fun q => { q with budget := BUDGET }
    pure 0
  else
    let dst ← readyList maxPrio priority
    moveProc src dst old (fun q => { q with priority := priority, budget := BUDGET }) p msg
    pure 0

def setpriority (pid : Nat) (priority : Int) : KernelM Int := do
  let hasPid : Kernel → ProcPtr → Bool := fun s p => (s.proc p).pid == pid
  if priority < 0 ∨ maxPrio < priority then pure (-1)
  else
  match ← findOn .running hasPid with
  | some p => requeue maxPrio .running .running priority p "setpriority running\n"
  | none =>
  match ← findReady hasPid (maxPrio + 1) 0 with
  | some (i, p) => requeue maxPrio (.ready i) .runnable priority p "setpriority ready\n"
  | none =>
  match ← findOn .sleep hasPid with
  | some p =>
    let s ← get
    if (s.proc p).priority = priority then
      setProc p fun q => { q with budget := BUDGET }
      pure 0
    else
      setProc p fun q => { q with priority := priority, budget := BUDGET }
      pure 0
  | none => pure (-1)

end Routines

/-! ## What can happen while the lock is free -/

/-- One stretch of execution between two moments at which `ptable.lock` is
free.  `c` is the CPU it runs on; the routines of a process run on the CPU
whose `proc` it is. -/
inductive Action where
  /-- the timer interrupt adds one to `ticks` -/
  | tick
  | scheduler (c : Nat) (low : Nat)
  | yield (c : Nat)
  /-- `sleep` on an address that is not a process -/
  | sleep (c : Nat) (addr : Nat)
  | wakeup (chan : Chan)
  | kill (pid : Nat)
  | allocproc (c : Nat)
  /-- `kalloc` for the kernel stack returned `page` -/
  | kstack (c : Nat) (page : Option Nat)
  /-- `copyuvm` succeeded or failed -/
  | copyuvm (c : Nat) (ok : Bool)
  | forkReady (c : Nat)
  | exit (c : Nat)
  | wait (c : Nat) (low : Nat)
deriving DecidableEq, Repr

def setTask (p : ProcPtr) (t : Task) : KernelM Unit :=
  modify fun s => { s with task := update s.task p t }

section Step

variable (maxPrio : Nat)

/-- The program of an action of the process `p` on CPU `c`: only a process outside `fork`
calls another routine, but the timer can make it `yield` anywhere. -/
def procAction (c : Nat) (p : ProcPtr) (t : Task) : Action → Option (KernelM Unit)
  | .yield _ => some do
      yield maxPrio p
      switched c p .yield
  | .sleep _ a =>
    if t = .none then some do
      sleep maxPrio p (.addr a)
      switched c p .sleep
    else none
  | .exit _ =>
    if t = .none then some do
      exit maxPrio p
      modify fun s => { s with cpu := update s.cpu c none }
    else none
  | .wait _ low =>
    if t = .none then some do
      match ← waitLoop maxPrio low p false with
      | some _ => pure ()
      | none => switched c p .wait
    else none
  | .allocproc _ =>
    if t = .none then some do
      match ← allocproc with
      | some np => setTask p (.embryo np)
      | none => pure ()
    else none
  | .kstack _ page =>
    match t, page with
    | .embryo np, some pg => some do
        allocprocStack np pg
        setTask p (.stack np)
    | .embryo np, none => some do
        allocprocFail np
        setTask p .none
    | _, _ => none
  | .copyuvm _ ok =>
    match t, ok with
    | .stack np, true => some do
        forkCopy p np
        setTask p (.copied np)
    | .stack np, false => some do
        forkFail np
        setTask p .none
    | _, _ => none
  | .forkReady _ =>
    match t with
    | .copied np => some do
        forkReady maxPrio p np
        setTask p .none
    | _ => none
  | _ => none

/-- The CPU an action of a process runs on. -/
def Action.cpu? : Action → Option Nat
  | .yield c | .sleep c _ | .allocproc c | .kstack c _ | .copyuvm c _ | .forkReady c
  | .exit c | .wait c _ => some c
  | .tick | .scheduler _ _ | .wakeup _ | .kill _ => none

/-- The program of an action in a state, if the action can happen there. -/
def program (s : Kernel) (a : Action) : Option (KernelM Unit) :=
  match a with
  | .tick => some (modify fun s => { s with ticks := (s.ticks + 1) % 2 ^ 32 })
  | .wakeup chan => some (wakeup1 maxPrio (some chan))
  | .kill pid => some do
      let _ ← kill maxPrio pid
  | .scheduler c low =>
    match s.cpu c with
    | none => some (scheduler maxPrio c low)
    | some _ => none
  | a =>
    match a.cpu? with
    | none => none
    | some c =>
      match s.cpu c with
      | none => none
      | some p => procAction maxPrio c p (s.task p) a

/-- An action of a process happens where the process runs. -/
theorem program_process {s : Kernel} {a : Action} {c : Nat} {m : KernelM Unit}
    (ha : a.cpu? = some c) (hm : program maxPrio s a = some m) :
    ∃ p, s.cpu c = some p ∧ procAction maxPrio c p (s.task p) a = some m := by
  have hbind : program maxPrio s a =
      (s.cpu c).bind fun p => procAction maxPrio c p (s.task p) a := by
    cases a with
    | tick => cases ha
    | wakeup chan => cases ha
    | kill pid => cases ha
    | scheduler d low => cases ha
    | _ =>
      cases ha
      simp only [program, Action.cpu?]
      cases s.cpu c <;> rfl
  rw [hbind] at hm
  exact Option.bind_eq_some_iff.mp hm

/-- One step: `none` when the action cannot happen in `s`. -/
def step (s : Kernel) (a : Action) : Option (Except Stop Kernel) :=
  (program maxPrio s a).map fun m =>
    match m s with
    | .ok (_, s') => .ok s'
    | .error e => .error e

/-! ## Boot -/

/-- Memory as the boot loader leaves it, at time `ticks`. -/
def boot (ticks : Nat) : Kernel where
  proc := fun _ =>
    { sz := 0, kstack := none, state := .unused, pid := 0, parent := none, chan := none,
      killed := false, name := "", startTicks := 0, uid := 0, gid := 0, cpuTicksTotal := 0,
      cpuTicksIn := 0, budget := 0, priority := 0 }
  pLists := { head := fun _ => none, tail := fun _ => none, next := fun _ => none }
  promoteAtTime := 0
  ticks := ticks
  nextpid := 1
  initproc := none
  cpu := fun _ => none
  resume := fun _ => .forkret
  task := fun _ => .none

/-- The heads or tails of the lists with those of the lists other than
`ready[]` cleared. -/
def cleared (f : StateList → Option ProcPtr) : StateList → Option ProcPtr
  | .ready i => f (.ready i)
  | _ => none

def initProcessLists : KernelM Unit := do
  forIndex (fun i => modify fun s => { s with pLists := { s.pLists with
    head := update s.pLists.head (.ready i) none
    tail := update s.pLists.tail (.ready i) none } }) (maxPrio + 1) 0
  modify fun s => { s with pLists := { s.pLists with
    head := cleared s.pLists.head
    tail := cleared s.pLists.tail } }

def initFree : List ProcPtr → KernelM Unit
  | [] => pure ()
  | p :: ps => do
    setProc p fun q => { q with state := .unused }
    let _ ← onLists (stateListAdd .free p)
    initFree ps

def startInit (p : ProcPtr) : KernelM Unit := do
  modify fun s => { s with initproc := some p }
  setProc p fun q => { q with sz := PGSIZE, name := "initcode" }
  let s ← get
  let dst ← readyList maxPrio (s.proc p).priority
  moveProc .embryo dst .embryo (fun q => { q with state := .runnable }) p "userinit \n"
  setProc p fun q => { q with uid := 0, gid := 0, parent := none }
  modify fun s => { s with pLists := { s.pLists with
    next := update s.pLists.next p none } }

/-- `userinit`, with the page `kalloc` returns for the kernel stack of the
first process. -/
def userinit (page : Nat) : KernelM Unit := do
  modify fun s => { s with promoteAtTime := (s.ticks + TICKS_TO_PROMOTE) % 2 ^ 32 }
  initProcessLists maxPrio
  initFree (List.finRange NPROC)
  match ← allocproc with
  | none => throw .nullDeref
  | some p =>
    allocprocStack p page
    startInit maxPrio p

/-- The states of the runs that start where `userinit` ends and take only
steps with `ok`. -/
inductive ReachableBy (ok : Kernel → Action → Prop) : Kernel → Prop where
  | init {ticks page : Nat} {s : Kernel} : ticks < 2 ^ 32 →
      userinit maxPrio page (boot ticks) = .ok ((), s) → ReachableBy ok s
  | step {s s' : Kernel} {a : Action} : ReachableBy ok s → ok s a →
      step maxPrio s a = some (.ok s') → ReachableBy ok s'

/-- Take the steps of a list, one after the other. -/
def exec : List Action → Kernel → Option Kernel
  | [], s => some s
  | a :: as, s =>
    match step maxPrio s a with
    | some (.ok s') => exec as s'
    | _ => none

/-- The states of the runs that start where `userinit` ends. -/
abbrev Reachable : Kernel → Prop := ReachableBy maxPrio fun _ _ => True

theorem exec_reachable {maxPrio : Nat} {ok : Kernel → Action → Prop} :
    ∀ {as : List Action} {s s' : Kernel}, ReachableBy maxPrio ok s → exec maxPrio as s = some s' →
      (∀ s a, a ∈ as → ok s a) → ReachableBy maxPrio ok s' := by
  intro as
  induction as with
  | nil =>
    intro s s' h he _
    cases he
    exact h
  | cons a as ih =>
    intro s s' h he hok
    rw [exec] at he
    split at he
    · next s₁ hs =>
        exact ih (.step h (hok s a List.mem_cons_self) hs) he fun s b hb =>
          hok s b (List.mem_cons_of_mem _ hb)
    · cases he

end Step

end Xv6Pdx.Ptable
