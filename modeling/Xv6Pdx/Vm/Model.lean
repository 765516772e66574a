/-
# `Vm.Model` — `vm.c` on the bytes of memory

Physical memory is pages of bytes.  A page directory and a page table are pages that are
read as words; an entry has the number of a page in its upper bits and flags in the lower
ones.  The free list is kept as a list of page numbers, and not in the pages themselves.

The functions are run by one process.  What others do to the free list meanwhile is `luck`:
whether the next calls of `kalloc` find a page, if the list has one.
-/
import Xv6Pdx.Lib.Bytes
import Xv6Pdx.Mem.Model

namespace Xv6Pdx.Vm

open Lib Bytes
open Mem (Page Layout PGSIZE NPDENTRIES NPTENTRIES EXTMEM PHYSTOP DEVSPACE KERNLINK PGROUNDUP
  PGROUNDDOWN)

def PTE_P : Nat := 0x001
def PTE_W : Nat := 0x002
def PTE_U : Nat := 0x004

def PDX (va : Nat) : Nat := va / (PGSIZE * NPTENTRIES) % NPDENTRIES
def PTX (va : Nat) : Nat := va / PGSIZE % NPTENTRIES

def has (w flag : Nat) : Prop := w &&& flag ≠ 0

instance (w flag : Nat) : Decidable (has w flag) := inferInstanceAs (Decidable (_ ≠ _))

/-- `PTE_ADDR`, as the number of the page. -/
def pageOf (w : Nat) : Page := w / PGSIZE

def PTE_FLAGS (w : Nat) : Nat := w % PGSIZE

def mkPte (p : Page) (flags : Nat) : Nat := p * PGSIZE ||| flags

structure Memory where
  /-- `kmem.freelist` -/
  free : List Page
  /-- what the pages hold -/
  ram : Page → Bytes
  luck : Nat → Bool
  /-- the directory of the process that runs -/
  cr3 : Page

/-- Programs; they stop with the text of a `panic`, or with a trap. -/
abbrev VmM := Prog Memory String

def panic {α : Type} (msg : String) : VmM α := Prog.fail msg

namespace Memory

def entry (m : Memory) (p : Page) (i : Nat) : Nat := (m.ram p).word i

def put (m : Memory) (p : Page) (d : Bytes) : Memory :=
  { m with ram := Function.update m.ram p d }

def setEntry (m : Memory) (p : Page) (i w : Nat) : Memory := m.put p ((m.ram p).setWord i w)

def fill (m : Memory) (p : Page) (b : UInt8) : Memory := m.put p fun _ => b

end Memory

section Kernel

variable (lay : Layout)

/-! ## `kalloc.c` -/

/-- `kfree`: the page is filled with junk. -/
def kfree (p : Page) : VmM Unit :=
  Prog.atomic fun m =>
    if p < lay.kend ∨ PHYSTOP / PGSIZE ≤ p then some (.error "kfree")
    else some (.ok ((), { m.fill p 1 with free := p :: m.free }))

def kalloc : VmM (Option Page) :=
  Prog.atomic fun m =>
    match m.luck 0, m.free with
    | true, p :: l => some (.ok (some p, { m with free := l, luck := fun i => m.luck (i + 1) }))
    | _, _ => some (.ok (none, { m with luck := fun i => m.luck (i + 1) }))

/-! ## `vm.c` -/

/-- `walkpgdir`: the table and the place in it. -/
def walkpgdir (d : Page) (va : Nat) (alloc : Bool) : VmM (Option (Page × Nat)) := do
  let pde ← Prog.gets fun m => m.entry d (PDX va)
  if has pde PTE_P then pure (some (pageOf pde, PTX va))
  else if alloc = false then pure none
  else do
    let pgtab ← kalloc
    match pgtab with
    | none => pure none
    | some pgtab => do
      Prog.modify fun m => m.fill pgtab 0
      Prog.modify fun m => m.setEntry d (PDX va) (mkPte pgtab (PTE_P ||| PTE_W ||| PTE_U))
      pure (some (pgtab, PTX va))

/-- The loop of `mappages`, with `n` pages to go; `false` is -1. -/
def mapLoop (d : Page) (perm : Nat) : Nat → Nat → Page → VmM Bool
  | 0, _, _ => pure true
  | n + 1, a, pa => do
    let pte ← walkpgdir d a true
    match pte with
    | none => pure false
    | some (t, i) => do
      let w ← Prog.gets fun m => m.entry t i
      if has w PTE_P then panic "remap"
      else do
        Prog.modify fun m => m.setEntry t i (mkPte pa (perm ||| PTE_P))
        mapLoop d perm n ((a + PGSIZE) % 2 ^ 32) (pa + 1)

/-- `mappages`: the loop ends with the page of the last byte. -/
def mappages (d : Page) (va size : Nat) (pa : Page) (perm : Nat) : VmM Bool :=
  let a := PGROUNDDOWN va
  let last := PGROUNDDOWN (va + size + (2 ^ 32 - 1))
  mapLoop d perm ((last + 2 ^ 32 - a) % 2 ^ 32 / PGSIZE + 1) a pa

/-- `struct kmap`; the end is as a `uint`. -/
structure Kmap where
  virt : Nat
  physStart : Nat
  physEnd : Nat
  perm : Nat

def kmap : List Kmap :=
  [⟨KERNBASE, 0, EXTMEM, PTE_W⟩, ⟨KERNLINK, KERNLINK - KERNBASE, lay.data - KERNBASE, 0⟩,
    ⟨lay.data, lay.data - KERNBASE, PHYSTOP, PTE_W⟩, ⟨DEVSPACE, DEVSPACE, 0, PTE_W⟩]

def mapKernel (d : Page) : List Kmap → VmM Bool
  | [] => pure true
  | k :: ks => do
    let size := (k.physEnd + 2 ^ 32 - k.physStart) % 2 ^ 32
    let ok ← mappages d k.virt size (k.physStart / PGSIZE) k.perm
    if ok then mapKernel d ks else pure false

def setupkvm : VmM (Option Page) := do
  let pgdir ← kalloc
  match pgdir with
  | none => pure none
  | some pgdir => do
    Prog.modify fun m => m.fill pgdir 0
    let ok ← mapKernel pgdir (kmap lay)
    pure (if ok then some pgdir else none)

def deallocLoop (d : Page) (oldsz : Nat) : Nat → Nat → VmM Unit
  | 0, _ => pure ()
  | fuel + 1, a =>
    if a < oldsz then do
      let pte ← walkpgdir d a false
      match pte with
      | none => deallocLoop d oldsz fuel (a + (NPTENTRIES - 1) * PGSIZE + PGSIZE)
      | some (t, i) => do
        let w ← Prog.gets fun m => m.entry t i
        if has w PTE_P then
          if pageOf w = 0 then panic "kfree"
          else do
            kfree lay (pageOf w)
            Prog.modify fun m => m.setEntry t i 0
            deallocLoop d oldsz fuel (a + PGSIZE)
        else deallocLoop d oldsz fuel (a + PGSIZE)
    else pure ()

def deallocuvm (d : Page) (oldsz newsz : Nat) : VmM Nat :=
  if newsz ≥ oldsz then pure oldsz
  else do
    deallocLoop lay d oldsz (oldsz / PGSIZE + 1) (PGROUNDUP newsz)
    pure newsz

/-- The loop of `allocuvm`; the result of `mappages` is not looked at. -/
def allocLoop (d : Page) (oldsz newsz : Nat) : Nat → Nat → VmM Nat
  | 0, _ => pure newsz
  | fuel + 1, a =>
    if a < newsz then do
      let mem ← kalloc
      match mem with
      | none => do
        let _ ← deallocuvm lay d newsz oldsz
        pure 0
      | some mem => do
        Prog.modify fun m => m.fill mem 0
        let _ ← mappages d a PGSIZE mem (PTE_W ||| PTE_U)
        allocLoop d oldsz newsz fuel (a + PGSIZE)
    else pure newsz

def allocuvm (d : Page) (oldsz newsz : Nat) : VmM Nat :=
  if newsz ≥ KERNBASE then pure 0
  else if newsz < oldsz then pure oldsz
  else allocLoop lay d oldsz newsz (newsz / PGSIZE + 1) (PGROUNDUP oldsz)

/-- One turn of the second loop of `freevm`. -/
def freeTable (d : Page) (i : Nat) : VmM Unit := do
  let pde ← Prog.gets fun m => m.entry d i
  if has pde PTE_P then kfree lay (pageOf pde) else pure ()

def freevm (pgdir : Option Page) : VmM Unit :=
  match pgdir with
  | none => panic "freevm: no pgdir"
  | some d => do
    let _ ← deallocuvm lay d KERNBASE 0
    (List.range NPDENTRIES).forM (freeTable lay d)
    kfree lay d

/-- The loop of `copyuvm`: whether it gets to the end. -/
def copyLoop (d pgdir : Page) (sz : Nat) : Nat → Nat → VmM Bool
  | 0, _ => pure true
  | fuel + 1, i =>
    if i < sz then do
      let pte ← walkpgdir pgdir i false
      match pte with
      | none => panic "copyuvm: pte should exist"
      | some (t, j) => do
        let w ← Prog.gets fun m => m.entry t j
        if has w PTE_P then do
          let mem ← kalloc
          match mem with
          | none => pure false
          | some mem => do
            Prog.modify fun m => m.put mem (m.ram (pageOf w))
            let ok ← mappages d i PGSIZE mem (PTE_FLAGS w)
            if ok then copyLoop d pgdir sz fuel (i + PGSIZE) else pure false
        else panic "copyuvm: page not present"
    else pure true

def copyuvm (pgdir : Page) (sz : Nat) : VmM (Option Page) := do
  let d ← setupkvm lay
  match d with
  | none => pure none
  | some d => do
    let ok ← copyLoop d pgdir sz (sz / PGSIZE + 1) 0
    if ok then pure (some d)
    else do
      freevm lay (some d)
      pure none

end Kernel

/-- The word at address 0 of the process that runs. -/
def Memory.null (m : Memory) : Option Nat :=
  let pde := m.entry m.cr3 0
  let pte := m.entry (pageOf pde) 0
  if has pde PTE_P ∧ has pte PTE_P then some (m.entry (pageOf pte) 0) else none

/-- The read through a null pointer. -/
def readNull : VmM Nat := do
  let w ← Prog.gets Memory.null
  match w with
  | none => panic "trap"
  | some w => pure w

section Copyout

/-! What a read through a null pointer does is a parameter; in the kernel it is `readNull`. -/

variable (null : VmM Nat)

/-- `*pte`, where the pointer may be null. -/
def deref (pte : Option (Page × Nat)) : VmM Nat :=
  match pte with
  | some (t, i) => Prog.gets fun m => m.entry t i
  | none => null

/-- `uva2ka`: the page, if the user has it. -/
def uva2ka (d : Page) (uva : Nat) : VmM (Option Page) := do
  let pte ← walkpgdir d uva false
  let w ← deref null pte
  pure (if ¬ has w PTE_P then none else if ¬ has w PTE_U then none else some (pageOf w))

/-- The loop of `copyout`, which copies a byte at least in each turn; `false` is -1. -/
def copyLoopOut (d : Page) : Nat → Nat → List UInt8 → VmM Bool
  | 0, _, _ => pure true
  | fuel + 1, va, buf =>
    if buf = [] then pure true
    else do
      let va0 := PGROUNDDOWN va
      let pa0 ← uva2ka null d va0
      match pa0 with
      | none => pure false
      | some pa0 => do
        let n := min (PGSIZE - (va - va0)) buf.length
        Prog.modify fun m => m.put pa0 ((m.ram pa0).patch (va - va0) (buf.take n))
        copyLoopOut d fuel ((va0 + PGSIZE) % 2 ^ 32) (buf.drop n)

def copyoutBy (d : Page) (va : Nat) (buf : List UInt8) : VmM Bool :=
  copyLoopOut null d buf.length va buf

end Copyout

def copyout (d : Page) (va : Nat) (buf : List UInt8) : VmM Bool := copyoutBy readNull d va buf

end Xv6Pdx.Vm
