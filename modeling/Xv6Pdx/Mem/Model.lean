/-
# `Mem.Model` — physical pages and page tables

`kalloc.c` and `vm.c` with everything that allocates or frees pages: `fork`,
`exec`, `wait`, `sbrk`, pipes, and the start of the machine.  Of what a page
holds, only the entries of page directories and page tables are kept, and
whether the two ends of a pipe are open.  A page is its number.

The programs are made of atomic actions, and those of different processes
interleave.  An action is a call of `kalloc` or `kfree`, with what the code does
next to it to memory of its own.  `ptable.lock` is left out, so a slot may be taken
again while the memory of its last process is being freed.  What comes from files
(program headers, arguments) is a parameter of `exec`.
-/
import Xv6Pdx.Lib.Prog
import Xv6Pdx.Proc.StateLists

namespace Xv6Pdx

open Function (update)

def KERNBASE : Nat := 0x80000000

namespace Mem

open Lib
open Ptable (ProcPtr)

def PGSIZE : Nat := 4096
def NPDENTRIES : Nat := 1024
def NPTENTRIES : Nat := 1024
def EXTMEM : Nat := 0x100000
def PHYSTOP : Nat := 0xE000000
def DEVSPACE : Nat := 0xFE000000
def KERNLINK : Nat := KERNBASE + EXTMEM

def PGROUNDUP (a : Nat) : Nat := (a + (PGSIZE - 1)) % 2 ^ 32 / PGSIZE * PGSIZE
def PGROUNDDOWN (a : Nat) : Nat := a % 2 ^ 32 / PGSIZE * PGSIZE
def PDX (va : Nat) : Fin NPDENTRIES := Fin.ofNat 1024 (va / (PGSIZE * NPTENTRIES))
def PTX (va : Nat) : Fin NPTENTRIES := Fin.ofNat 1024 (va / PGSIZE)

abbrev Page := Nat

/-- The states of a process, as far as its memory is concerned. -/
inductive ProcState where
  | unused
  | embryo
  | live
  | zombie
deriving DecidableEq, Repr

structure Proc where
  state : ProcState
  sz : Nat
  kstack : Option Page
  pgdir : Option Page

structure Ends where
  readopen : Bool
  writeopen : Bool
deriving DecidableEq, Repr

structure State where
  /-- `kmem.freelist` -/
  freelist : List Page
  /-- the entries of a page that is a directory -/
  pde : Page → Fin NPDENTRIES → Option Page
  /-- the entries of a page that is a table -/
  pte : Page → Fin NPTENTRIES → Option Page
  kpgdir : Option Page
  /-- the stacks on which the other CPUs were started -/
  cpuStack : Nat → Option Page
  proc : ProcPtr → Proc
  /-- a page that is a live pipe -/
  pipe : Page → Option Ends

/-- Programs; they stop with the text of a `panic`, or with a trap. -/
abbrev KvmM := Prog State String

def panic {α : Type} (msg : String) : KvmM α := Prog.fail msg

namespace State

@[simps] def setFree (s : State) (l : List Page) : State := { s with freelist := l }

@[simps] def setPde (s : State) (d : Page) (i : Fin NPDENTRIES) (t : Option Page) : State :=
  { s with pde := update s.pde d (update (s.pde d) i t) }

@[simps] def setPte (s : State) (t : Page) (j : Fin NPTENTRIES) (p : Option Page) : State :=
  { s with pte := update s.pte t (update (s.pte t) j p) }

/-- `memset(d, 0, PGSIZE)` of a directory. -/
@[simps] def clearDir (s : State) (d : Page) : State :=
  { s with pde := update s.pde d fun _ => none }

/-- `memset(t, 0, PGSIZE)` of a table. -/
@[simps] def clearTable (s : State) (t : Page) : State :=
  { s with pte := update s.pte t fun _ => none }

@[simps] def setProc (s : State) (p : ProcPtr) (q : Proc) : State :=
  { s with proc := update s.proc p q }

@[simps] def setPipe (s : State) (p : Page) (e : Option Ends) : State :=
  { s with pipe := update s.pipe p e }

end State

/-- What is known when the kernel is linked: the first page behind it, and the
address where its data begins. -/
structure Layout where
  kend : Nat
  data : Nat
  low : KERNLINK < data
  high : data < KERNBASE + PHYSTOP

section Kernel

variable (lay : Layout)

/-! ## `kalloc.c` -/

/-- `kfree`: the page must be one of those behind the kernel. -/
def State.kfree (s : State) (p : Page) : Except String State :=
  if p < lay.kend ∨ PHYSTOP / PGSIZE ≤ p then .error "kfree" else .ok (s.setFree (p :: s.freelist))

/-- `kfree(p)`, and what goes with it. -/
def kfree (p : Page) (f : State → State) : KvmM Unit :=
  Prog.atomic fun s =>
    match s.kfree lay p with
    | .error e => some (.error e)
    | .ok s' => some (.ok ((), f s'))

def kalloc : KvmM (Option Page) :=
  Prog.atomic fun s =>
    match s.freelist with
    | [] => some (.ok (none, s))
    | p :: l => some (.ok (some p, s.setFree l))

/-- `freerange`, from page to page. -/
def freerange (p q : Page) : KvmM Unit := (List.range' p (q - p)).forM fun p => kfree lay p id

/-! ## `vm.c` -/

/-- `walkpgdir`: the table with the entry for `va`. -/
def State.walk (s : State) (d : Page) (va : Nat) (alloc : Bool) : Option (Page × State) :=
  match s.pde d (PDX va) with
  | some t => some (t, s)
  | none =>
    if alloc then
      match s.freelist with
      | [] => none
      | t :: l => some (t, ((s.setFree l).clearTable t).setPde d (PDX va) (some t))
    else none

/-- One turn of the loop of `mappages`. -/
def mapTurn (d : Page) (va : Nat) (pa : Page) : KvmM Bool :=
  Prog.atomic fun s =>
    match s.walk d va true with
    | none => some (.ok (false, s))
    | some (t, s) =>
      if (s.pte t (PTX va)).isSome then some (.error "remap")
      else some (.ok (true, s.setPte t (PTX va) (some pa)))

/-- The loop of `mappages`, with `n` pages to go. -/
def mapLoop (d : Page) : Nat → Nat → Page → KvmM Bool
  | 0, _, _ => pure true
  | n + 1, va, pa => do
    let ok ← mapTurn d va pa
    if ok then mapLoop d n ((va + PGSIZE) % 2 ^ 32) (pa + 1) else pure false

def mappages (d : Page) (va size : Nat) (pa : Page) : KvmM Bool :=
  mapLoop d ((PGROUNDDOWN (va + size - 1) - PGROUNDDOWN va) / PGSIZE + 1) (PGROUNDDOWN va) pa

/-- The table `kmap`: `virt`, `phys_start` and the size, as a `uint`. -/
def kmap : List (Nat × Nat × Nat) :=
  [(KERNBASE, 0, EXTMEM), (KERNLINK, EXTMEM, lay.data - KERNLINK),
    (lay.data, lay.data - KERNBASE, KERNBASE + PHYSTOP - lay.data), (DEVSPACE, DEVSPACE, 2 ^ 32 - DEVSPACE)]

def mapKernel (d : Page) : List (Nat × Nat × Nat) → KvmM Bool
  | [] => pure true
  | (virt, start, size) :: ks => do
    let ok ← mappages d virt size (start / PGSIZE)
    if ok then mapKernel d ks else pure false

/-- `setupkvm`; a directory that cannot be finished is not freed. -/
def setupkvm : KvmM (Option Page) := do
  let r ← kalloc
  match r with
  | none => pure none
  | some d => do
    Prog.modify fun s => s.clearDir d
    let ok ← mapKernel d (kmap lay)
    pure (if ok then some d else none)

/-- One turn of the loop of `deallocuvm`: whether there is a table. -/
def freeTurn (d : Page) (va : Nat) : KvmM Bool :=
  Prog.atomic fun s =>
    match s.walk d va false with
    | none => some (.ok (false, s))
    | some (t, s) =>
      match s.pte t (PTX va) with
      | none => some (.ok (true, s))
      | some pa =>
        if pa = 0 then some (.error "kfree")
        else match s.kfree lay pa with
          | .error e => some (.error e)
          | .ok s => some (.ok (true, s.setPte t (PTX va) none))

def deallocLoop (d : Page) (oldsz : Nat) : Nat → Nat → KvmM Unit
  | 0, _ => pure ()
  | fuel + 1, a =>
    if a < oldsz then do
      let table ← freeTurn lay d a
      deallocLoop d oldsz fuel (if table then a + PGSIZE else a + NPTENTRIES * PGSIZE)
    else pure ()

def deallocuvm (d : Page) (oldsz newsz : Nat) : KvmM Nat :=
  if newsz ≥ oldsz then pure oldsz
  else do
    deallocLoop lay d oldsz (oldsz / PGSIZE + 1) (PGROUNDUP newsz)
    pure newsz

/-- The loop of `allocuvm`; the result of `mappages` is not looked at. -/
def allocLoop (d : Page) (oldsz newsz : Nat) : Nat → Nat → KvmM Nat
  | 0, _ => pure newsz
  | fuel + 1, a =>
    if a < newsz then do
      let mem ← kalloc
      match mem with
      | none => do
        let _ ← deallocuvm lay d newsz oldsz
        pure 0
      | some mem => do
        let _ ← mappages d a PGSIZE mem
        allocLoop d oldsz newsz fuel (a + PGSIZE)
    else pure newsz

def allocuvm (d : Page) (oldsz newsz : Nat) : KvmM Nat :=
  if newsz ≥ KERNBASE then pure 0
  else if newsz < oldsz then pure oldsz
  else allocLoop lay d oldsz newsz (newsz / PGSIZE + 1) (PGROUNDUP oldsz)

/-- One turn of the second loop of `freevm`. -/
def freeTable (d : Page) (i : Fin NPDENTRIES) : KvmM Unit :=
  Prog.atomic fun s =>
    match s.pde d i with
    | none => some (.ok ((), s))
    | some t =>
      match s.kfree lay t with
      | .error e => some (.error e)
      | .ok s => some (.ok ((), s))

def freevm (d : Option Page) : KvmM Unit :=
  match d with
  | none => panic "freevm: no pgdir"
  | some d => do
    let _ ← deallocuvm lay d KERNBASE 0
    (List.finRange NPDENTRIES).forM fun i => freeTable lay d i
    kfree lay d id

/-- The page a process has mapped at `va`, for `copyuvm`. -/
def mapped (d : Page) (va : Nat) : KvmM Page := do
  let t ← Prog.gets fun s => (s.walk d va false).map Prod.fst
  match t with
  | none => panic "copyuvm: pte should exist"
  | some t => do
    let pa ← Prog.gets fun s => s.pte t (PTX va)
    match pa with
    | none => panic "copyuvm: page not present"
    | some pa => pure pa

/-- The loop of `copyuvm`: whether it gets to the end. -/
def copyLoop (d from' : Page) (sz : Nat) : Nat → Nat → KvmM Bool
  | 0, _ => pure true
  | fuel + 1, i =>
    if i < sz then do
      let _ ← mapped from' i
      let mem ← kalloc
      match mem with
      | none => pure false
      | some mem => do
        let ok ← mappages d i PGSIZE mem
        if ok then copyLoop d from' sz fuel (i + PGSIZE) else pure false
    else pure true

def copyuvm (from' : Page) (sz : Nat) : KvmM (Option Page) := do
  let d ← setupkvm lay
  match d with
  | none => pure none
  | some d => do
    let ok ← copyLoop d from' sz (sz / PGSIZE + 1) 0
    if ok then pure (some d)
    else do
      freevm lay (some d)
      pure none

/-! ## Processes -/

def getProc (p : ProcPtr) : KvmM Proc := Prog.gets fun s => s.proc p

def myDir (me : ProcPtr) : KvmM Page := do
  let q ← getProc me
  match q.pgdir with
  | none => panic "trap"
  | some d => pure d

/-- `allocproc` up to the kernel stack, with the slot the free list has first. -/
def allocproc (np : ProcPtr) : KvmM Bool := do
  let ok ← Prog.atomic fun s =>
    if (s.proc np).state = .unused then
      some (.ok (true, s.setProc np { s.proc np with state := .embryo }))
    else some (.ok (false, s))
  if ok then do
    let stack ← Prog.atomic fun s =>
      match s.freelist with
      | [] => some (.ok (false, s.setProc np { s.proc np with kstack := none }))
      | p :: l => some (.ok (true, (s.setFree l).setProc np { s.proc np with kstack := some p }))
    if stack then pure true
    else do
      Prog.modify fun s => s.setProc np { s.proc np with state := .unused }
      pure false
  else pure false

/-- `kfree(np->kstack); np->kstack = 0;` and `np->state = UNUSED`. -/
def dropStack (np : ProcPtr) : KvmM Unit :=
  Prog.atomic fun s =>
    match (s.proc np).kstack with
    | none => some (.error "kfree")
    | some k =>
      match s.kfree lay k with
      | .error e => some (.error e)
      | .ok s => some (.ok ((), s.setProc np { s.proc np with kstack := none, state := .unused }))

def fork (me np : ProcPtr) : KvmM Bool := do
  let ok ← allocproc np
  if ok then do
    let from' ← myDir me
    let q ← getProc me
    let d ← copyuvm lay from' q.sz
    Prog.modify fun s => s.setProc np { s.proc np with pgdir := d }
    match d with
    | none => do
      dropStack lay np
      pure false
    | some _ => do
      Prog.modify fun s => s.setProc np { s.proc np with sz := (s.proc me).sz }
      Prog.modify fun s => s.setProc np { s.proc np with state := .live }
      pure true
  else pure false

/-- `exit`, less what it does to files. -/
def exit (me : ProcPtr) : KvmM Unit :=
  Prog.modify fun s => s.setProc me { s.proc me with state := .zombie }

def wait (p : ProcPtr) : KvmM Bool := do
  let found ← Prog.atomic fun s =>
    if (s.proc p).state = .zombie then
      match (s.proc p).kstack with
      | none => some (.error "kfree")
      | some k =>
        match s.kfree lay k with
        | .error e => some (.error e)
        | .ok s => some (.ok (some (s.proc p).pgdir,
            s.setProc p { s.proc p with kstack := none, state := .unused }))
    else some (.ok (none, s))
  match found with
  | none => pure false
  | some d => do
    freevm lay d
    pure true

def growproc (me : ProcPtr) (n : Int) : KvmM Bool := do
  let d ← myDir me
  let q ← getProc me
  let new := ((q.sz + n) % 2 ^ 32).toNat
  let r ← (if 0 < n then allocuvm lay d q.sz new
    else if n < 0 then deallocuvm lay d q.sz new
    else pure q.sz)
  if r = 0 ∧ n ≠ 0 then pure false
  else do
    Prog.modify fun s => s.setProc me { s.proc me with sz := r }
    pure true

/-! ## `exec` -/

/-- A program header, and whether it and its segment can be read. -/
structure Phdr where
  read : Bool
  load : Bool
  vaddr : Nat
  memsz : Nat
  filesz : Nat
  loaded : Bool

/-- What `exec` finds in the file: a header it can use, the permission, the
segments, and arguments that fit on the stack. -/
structure Image where
  header : Bool
  allowed : Bool
  phdrs : List Phdr
  args : Bool

/-- `loaduvm`: its checks, and what `readi` says. -/
def loaduvm (d : Page) (ph : Phdr) : KvmM Bool :=
  if ph.vaddr % PGSIZE ≠ 0 then panic "loaduvm: addr must be page aligned"
  else do
    (List.range ((ph.filesz + PGSIZE - 1) / PGSIZE)).forM fun i => do
      let t ← Prog.gets fun s => s.walk d (ph.vaddr + i * PGSIZE) false
      if t.isSome then pure () else panic "loaduvm: address should exist"
    pure ph.loaded

/-- The loop of `exec` over the program headers; `none` is `goto bad`. -/
def loadSegments (d : Page) : List Phdr → Nat → KvmM (Option Nat)
  | [], sz => pure (some sz)
  | ph :: phs, sz =>
    if ph.read = false then pure none
    else if ph.load = false then loadSegments d phs sz
    else if ph.memsz < ph.filesz then pure none
    else do
      let sz ← allocuvm lay d sz ((ph.vaddr + ph.memsz) % 2 ^ 32)
      if sz = 0 then pure none
      else do
        let ok ← loaduvm d ph
        if ok then loadSegments d phs sz else pure none

/-- The stack, and everything up to the point where `exec` cannot fail any more;
`none` is `goto bad`. -/
def loadStack (d : Page) (sz : Nat) (args : Bool) : KvmM (Option Nat) := do
  let base := PGROUNDUP sz
  let sz ← allocuvm lay d base (base + 2 * PGSIZE)
  if sz = 0 then pure none
  else do
    let t ← Prog.gets fun s => s.walk d (sz - 2 * PGSIZE) false
    if t.isSome then pure (if args then some sz else none) else panic "clearpteu"

/-- The new image, in a directory that is there. -/
def load (d : Page) (img : Image) : KvmM (Option Nat) :=
  if img.allowed = false then pure none
  else do
    let sz ← loadSegments lay d img.phdrs 0
    match sz with
    | none => pure none
    | some sz => loadStack lay d sz img.args

def exec (me : ProcPtr) (img : Image) : KvmM Bool :=
  if img.header = false then pure false
  else do
    let d ← setupkvm lay
    match d with
    | none => pure false
    | some d => do
      let sz ← load lay d img
      match sz with
      | none => do
        freevm lay (some d)
        pure false
      | some sz => do
        let old ← Prog.atomic fun s => some (.ok ((s.proc me).pgdir,
          s.setProc me { s.proc me with pgdir := some d, sz := sz }))
        freevm lay old
        pure true

/-! ## Pipes -/

def pipealloc : KvmM Bool := do
  let p ← kalloc
  match p with
  | none => pure false
  | some p => do
    Prog.modify fun s => s.setPipe p (some ⟨true, true⟩)
    pure true

/-- `pipeclose`, for an end that is open. -/
def pipeclose (p : Page) (writable : Bool) : KvmM Unit :=
  Prog.atomic fun s =>
    match s.pipe p with
    | none => none
    | some e =>
      if (if writable then e.writeopen else e.readopen) = false then none
      else
        let e : Ends := if writable then { e with writeopen := false }
          else { e with readopen := false }
        if e.readopen = false ∧ e.writeopen = false then
          match s.kfree lay p with
          | .error msg => some (.error msg)
          | .ok s => some (.ok ((), s.setPipe p none))
        else some (.ok ((), s.setPipe p (some e)))

/-! ## The start -/

def kvmalloc : KvmM Unit := do
  let d ← setupkvm lay
  Prog.modify fun s => { s with kpgdir := d }

/-- `startothers`, for `n` other CPUs. -/
def startothers (n : Nat) : KvmM Unit :=
  (List.range n).forM fun k => Prog.atomic fun s =>
    match s.freelist with
    | [] => some (.ok ((), { s with cpuStack := update s.cpuStack k none }))
    | p :: l => some (.ok ((), { s.setFree l with cpuStack := update s.cpuStack k (some p) }))

def userinit (p : ProcPtr) : KvmM Unit := do
  let ok ← allocproc p
  if ok then do
    let d ← setupkvm lay
    match d with
    | none => panic "userinit: out of memory?"
    | some d => do
      let mem ← kalloc
      match mem with
      | none => panic "trap"
      | some mem => do
        let _ ← mappages d 0 PGSIZE mem
        Prog.modify fun s =>
          s.setProc p { s.proc p with pgdir := some d, sz := PGSIZE, state := .live }
  else panic "trap"

/-- The part of `main` that has to do with pages. -/
def main (ncpu : Nat) (p : ProcPtr) : KvmM Unit := do
  freerange lay lay.kend 1024
  kvmalloc lay
  startothers ncpu
  freerange lay 1024 (PHYSTOP / PGSIZE)
  userinit lay p

def blank : State where
  freelist := []
  pde := fun _ _ => none
  pte := fun _ _ => none
  kpgdir := none
  cpuStack := fun _ => none
  proc := fun _ => ⟨.unused, 0, none, none⟩
  pipe := fun _ => none

/-! ## Runs -/

inductive Call where
  | fork (np : ProcPtr)
  | exec (img : Image)
  | exit
  | wait (p : ProcPtr)
  | sbrk (n : Int)
  | pipe
  | pipeclose (p : Page) (writable : Bool)

def Call.prog (me : ProcPtr) : Call → KvmM Unit
  | .fork np => do let _ ← Mem.fork lay me np
  | .exec img => do let _ ← Mem.exec lay me img
  | .exit => Mem.exit me
  | .wait p => do let _ ← Mem.wait lay p
  | .sbrk n => do let _ ← Mem.growproc lay me n
  | .pipe => do let _ ← pipealloc
  | .pipeclose p w => Mem.pipeclose lay p w

/-- The interleavings of the calls of all processes, from the end of `main` on. -/
def Reachable (ncpu : Nat) (c : Pool State String ProcPtr) : Prop :=
  Pool.Reachable (fun s => ∃ p, (main lay ncpu p).run blank = some (.ok ((), s)))
    (fun s me p => (s.proc me).state = .live ∧ ∃ call : Call, p = call.prog lay me)
    (fun _ => True) c

/-- The states that occur: while `main` runs, and after it. -/
def Occurs (ncpu : Nat) (s : State) : Prop :=
  (∃ p, (main lay ncpu p).Visits blank s) ∨ ∃ c, Reachable lay ncpu c ∧ c.state = s

end Kernel

end Mem

end Xv6Pdx
