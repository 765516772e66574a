/-
# `Syscall.Getprocs` — what `getprocs` is to report, and what it reports

`getprocs(max, table)` is to fill a table of the caller with the processes that
are not unused or being made, in the order of the process table, and to return
how many it has stored (`Reports`).

It stores none.  `getuproc` turns the state of a process into its name, and
`sys_getprocs` compares the first letter of the name with the numbers of the
states; no letter is one of them.  Since the first process is always there to be
reported, the answer 0 is wrong in every state of every run.

A variable that `argint` did not fetch holds `junk`, what the kernel stack held.
-/
import Xv6Pdx.Proc.Refine
import Xv6Pdx.Syscall.Buffers

namespace Xv6Pdx.Syscall

open Lib Bytes
open Fs (toInt toUint)
open Ptable (ProcPtr NPROC ProcState)

/-- The process table, and the file system with the user's memory. -/
structure Whole where
  kernel : Ptable.Kernel
  user : Machine

abbrev CallM := Prog Whole String

/-- What the stack holds where the variables of a call are. -/
structure Junk where
  arg0 : Nat
  arg1 : Nat

def inUser {α : Type} (p : UserM α) : CallM α := p.on Whole.user fun w m => { w with user := m }

/-! ## The code -/

/-- The values of `enum procstate`. -/
def stateCode : Ptable.ProcState → Nat
  | .unused => 0
  | .embryo => 1
  | .sleeping => 2
  | .runnable => 3
  | .running => 4
  | .zombie => 5

/-- The table `states` of `proc.c`. -/
def stateText : Ptable.ProcState → String
  | .unused => "unused"
  | .embryo => "embryo"
  | .sleeping => "sleep "
  | .runnable => "runble"
  | .running => "run   "
  | .zombie => "zombie"

def STRMAX : Nat := 32

def chars (t : String) : List UInt8 := t.toList.map fun c => UInt8.ofNat c.toNat

structure UProc where
  pid : Nat
  uid : Nat
  gid : Nat
  ppid : Nat
  elapsedTicks : Nat
  cpuTotalTicks : Nat
  state : List UInt8
  size : Nat
  name : List UInt8
  priority : Nat

def UProc.bytes : Nat := 96

def UProc.toBytes (p : UProc) : List UInt8 :=
  encode 4 p.pid ++ encode 4 p.uid ++ encode 4 p.gid ++ encode 4 p.ppid ++
    encode 4 p.elapsedTicks ++ encode 4 p.cpuTotalTicks ++ p.state ++ encode 4 p.size ++
    p.name ++ encode 4 p.priority

/-- `getuproc`: without a parent, the pid is read at the offset of `pid` from
address 0; `priority` is not assigned. -/
def getuproc (k : Ptable.Kernel) (mem : Bytes) (junk : Junk) (p : ProcPtr) : UProc :=
  let q := k.proc p
  { pid := q.pid
    uid := q.uid
    gid := q.gid
    ppid := match q.parent with
      | some parent => (k.proc parent).pid
      | none => decode (mem.slice 16 4)
    elapsedTicks := toUint (q.cpuTicksTotal - q.cpuTicksIn)
    cpuTotalTicks := q.cpuTicksTotal
    state := strncpy STRMAX (chars (stateText q.state))
    size := q.sz
    name := strncpy STRMAX (chars q.name)
    priority := junk.arg1 }

/-- The test of `sys_getprocs`: the first character of the state's name is
compared with the values of `enum procstate`. -/
def reported (p : UProc) : Bool :=
  [.running, .sleeping, .runnable, .zombie].any fun st => (p.state.headD 0).toNat = stateCode st

/-- The loop of `sys_getprocs`, with `utable` null: how many processes it has
copied, and the user's memory. -/
def copyProcs (k : Ptable.Kernel) (junk : Junk) (max : Int) :
    List ProcPtr → Nat → Bytes → Nat × Bytes
  | [], n, mem => (n, mem)
  | p :: ps, n, mem =>
    if (n : Int) < max then
      let current := getuproc k mem junk p
      if reported current then
        copyProcs k junk max ps (n + 1) (mem.patch (n * UProc.bytes) current.toBytes)
      else copyProcs k junk max ps n mem
    else (n, mem)

/-- `sys_getprocs` from `if (max < 1)` on, the loop under `ptable.lock`. -/
def report (junk : Junk) (max : Int) : CallM Int :=
  if max < 1 then pure (-1)
  else Prog.atomic fun w =>
    let (n, mem) := copyProcs w.kernel junk max (List.finRange NPROC) 0 w.user.mem
    some (.ok (n, { w with user := { w.user with mem := mem } }))

/-- `argptr(1, (void *) utable, ...)`: it is given the null pointer `utable`
itself, not its address, and so stores the argument at address 0. -/
def fetchUtable (u : User) : CallM Unit :=
  match argptr u 1 (UProc.bytes * 50) with
  | none => pure ()
  | some i => inUser (store 0 (encode 4 i))

def sysGetprocs (u : User) (junk : Junk) : CallM Int := do
  fetchUtable u
  report junk (toInt ((argint u 0).getD junk.arg0))

/-! ## What it is for -/

/-- A state in which a process is reported. -/
def isLive (st : ProcState) : Bool :=
  st = .runnable || st = .running || st = .sleeping || st = .zombie

/-- The processes to report, in table order. -/
def liveProcs (k : Ptable.Kernel) : List ProcPtr :=
  (List.finRange NPROC).filter fun p => isLive (k.proc p).state

/-- The pid of the parent, or its own for a process without one. -/
def parentOrSelf (k : Ptable.Kernel) (p : ProcPtr) : Nat :=
  match (k.proc p).parent with
  | some parent => (k.proc parent).pid
  | none => (k.proc p).pid

def entryOf (k : Ptable.Kernel) (p : ProcPtr) : UProc :=
  let q := k.proc p
  { pid := q.pid
    uid := q.uid
    gid := q.gid
    ppid := parentOrSelf k p
    elapsedTicks := toUint ((k.ticks : Int) - q.startTicks)
    cpuTotalTicks := q.cpuTicksTotal
    state := strncpy STRMAX (chars (stateText q.state))
    size := q.sz
    name := strncpy STRMAX (chars q.name)
    priority := toUint q.priority }

/-- The bytes of an entry up to the name. -/
def REPORTED : Nat := 60

/-- `n` processes are reported in the table at `buf`, and nothing else is written. -/
structure Reports (k : Ptable.Kernel) (max buf : Nat) (mem mem' : Bytes) (ret : Int) : Prop where
  count : ret = min max (liveProcs k).length
  entries : ∀ i p, i < max → (liveProcs k)[i]? = some p →
    mem'.slice (buf + i * UProc.bytes) REPORTED = (entryOf k p).toBytes.take REPORTED
  kept : ∀ a, a < buf ∨ buf + min max (liveProcs k).length * UProc.bytes ≤ a → mem' a = mem a

/-! ## What it does -/

theorem stateCode_lt_stateText (st st' : Ptable.ProcState) :
    stateCode st < ((strncpy STRMAX (chars (stateText st'))).headD 0).toNat := by
  cases st <;> cases st' <;> decide

theorem not_reported (k : Ptable.Kernel) (mem : Bytes) (junk : Junk) (p : ProcPtr) :
    reported (getuproc k mem junk p) = false := by
  rw [reported, List.any_eq_false]
  intro st _ heq
  exact absurd (of_decide_eq_true heq) (Nat.ne_of_gt (stateCode_lt_stateText st (k.proc p).state))

theorem copyProcs_eq (k : Ptable.Kernel) (junk : Junk) (max : Int) (ps : List ProcPtr) (n : Nat)
    (mem : Bytes) : copyProcs k junk max ps n mem = (n, mem) := by
  induction ps with
  | nil => rfl
  | cons p ps ih =>
    simp only [copyProcs, not_reported, ih]
    split <;> rfl

/-- In every state of a run there is a process to report. -/
theorem liveProcs_ne_nil {maxPrio : Nat} {k : Ptable.Kernel} (h : Ptable.Reachable maxPrio k) :
    liveProcs k ≠ [] := by
  obtain ⟨_, _, _, _, A, _, ⟨V, hrep⟩, hinv⟩ :=
    Ptable.ReachableBy.shows (fun _ => True) h fun _ _ _ _ _ _ => trivial
  obtain ⟨i, _, halive, _⟩ := hinv.ctl.init
  refine List.ne_nil_of_mem (List.mem_filter.mpr ⟨List.mem_finRange i, ?_⟩)
  rw [hrep.proc, (hinv.procs i).state]
  rcases halive with h | h | ⟨j, h⟩ <;> rw [h] <;> rfl

theorem fetchUtable_run (u : User) (w : Whole) :
    ∃ m, (fetchUtable u).run w = some (.ok ((), { w with user := m })) := by
  rw [fetchUtable]
  cases argptr u 1 (UProc.bytes * 50) with
  | none => exact ⟨w.user, rfl⟩
  | some i => exact ⟨_, rfl⟩

theorem report_run (junk : Junk) {max : Int} (hmax : 1 ≤ max) (w : Whole) :
    ∃ w', (report junk max).run w = some (.ok (0, w')) := by
  rw [report, if_neg (by omega)]
  generalize List.finRange NPROC = ps
  have hcopy := copyProcs_eq w.kernel junk max ps 0 w.user.mem
  refine ⟨{ w with user := { w.user with mem := w.user.mem } }, ?_⟩
  rw [Prog.atomic, Prog.run, hcopy]
  rfl

/-- Whatever the arguments, a positive `max` makes it return 0. -/
theorem sysGetprocs_run (u : User) (junk : Junk) (w : Whole)
    (hmax : 1 ≤ toInt ((argint u 0).getD junk.arg0)) :
    ∃ w', (sysGetprocs u junk).run w = some (.ok (0, w')) := by
  obtain ⟨m, h₁⟩ := fetchUtable_run u w
  unfold sysGetprocs
  rw [Prog.run_seq h₁]
  exact report_run junk hmax _

/-- In every state of every run, with every positive `max` and every buffer of the
caller, `getprocs` returns 0 although there are processes to report. -/
theorem getprocs_never_reports {maxPrio : Nat} (w : Whole) (u : User) (junk : Junk)
    (h : Ptable.Reachable maxPrio w.kernel) (max buf : Nat) (hmax : 1 ≤ max)
    (harg : argint u 0 = some max) (hint : max < 2 ^ 31) (_hbuf : argint u 1 = some buf)
    (_hin : buf + max * UProc.bytes ≤ u.sz) :
    ∃ w', (sysGetprocs u junk).run w = some (.ok (0, w')) ∧
      ¬ Reports w.kernel max buf w.user.mem w'.user.mem 0 := by
  have hto : toInt ((argint u 0).getD junk.arg0) = max := by
    rw [harg]
    exact toInt_of_lt hint
  obtain ⟨w', hrun⟩ := sysGetprocs_run u junk w (by omega)
  refine ⟨w', hrun, ?_⟩
  intro hr
  have hcount := hr.count
  have hlen : 0 < (liveProcs w.kernel).length := List.length_pos_iff.mpr (liveProcs_ne_nil h)
  omega

/-- A process of two pages with these two arguments. -/
def atTheEnd (esp arg0 arg1 : Nat) : User where
  sz := 8192
  esp := esp
  mem := Bytes.patch (Bytes.patch (Bytes.patch (fun _ => 0) 8191 [97])
    (esp + 4) (encode 4 arg0)) (esp + 8) (encode 4 arg1)

/-- The first process asks for one entry, in a buffer of its own. -/
theorem getprocs_never_reports_first : ∃ k, Ptable.userinit 6 0 (Ptable.boot 0) = .ok ((), k) ∧
      ∃ w', (sysGetprocs (atTheEnd 4096 1 100) ⟨0, 0⟩).run ⟨k, fourBytes, fun _ => 0, []⟩ =
          some (.ok (0, w')) ∧
        ¬ Reports k 1 100 (fun _ => 0) w'.user.mem 0 := by
  obtain ⟨k, hk⟩ := Ptable.userinit_returns 6 0 0
  exact ⟨k, hk, getprocs_never_reports ⟨k, fourBytes, fun _ => 0, []⟩ (atTheEnd 4096 1 100) ⟨0, 0⟩
    (.init (by decide) hk) 1 100 (by decide) (by decide +kernel) (by decide) (by decide +kernel)
    (by decide)⟩

/-- Right after the start of the system there is one process to report, and
`getprocs` with room for fifty returns 0. -/
theorem getprocs_misses_first :
    ∃ k, Ptable.userinit 6 0 (Ptable.boot 0) = .ok ((), k) ∧ 0 < (liveProcs k).length ∧
      ∃ w', (sysGetprocs (atTheEnd 4096 50 100) ⟨0, 0⟩).run ⟨k, fourBytes, fun _ => 0, []⟩ =
        some (.ok (0, w')) := by
  obtain ⟨k, hk⟩ := Ptable.userinit_returns 6 0 0
  refine ⟨k, hk, List.length_pos_iff.mpr (liveProcs_ne_nil (.init (by decide) hk)), ?_⟩
  exact sysGetprocs_run _ _ _ (by decide +kernel)

end Xv6Pdx.Syscall
