/-
# `Umalloc.Model` — the allocator of the user library

`umalloc.c` keeps the free blocks of a process on a circular list through their
own headers.  A header has two words, the address of the next free block and
the size of this one in units of a header; memory is a function from addresses
to words.  Pointer arithmetic wraps at 32 bits.

`sbrk` is the only call to the kernel, and the allocator is written for any
`sbrk` (`Os`).  Here `answers` says, for each call in turn, where the kernel would
put the new memory, if anywhere; an answer that is not a fresh aligned region
counts as a failure.  The loops are cut off after `turns` turns, which never
happens.
-/
import Xv6Pdx.Lib.Span
import Xv6Pdx.Lib.Wp

namespace Xv6Pdx.Umalloc

open Lib

def HEADER : Nat := 8

/-- More turns than there are headers in the address space. -/
@[irreducible] def turns : Nat := 2 ^ 31

inductive Stop where
  /-- a loop that goes round for ever -/
  | hang
  /-- an access outside the memory of the process, which has `sz` bytes by then -/
  | trap (sz : Nat)
deriving DecidableEq, Repr

/-- The memory of the process, as far as the allocator knows it. -/
structure Heap where
  word : Nat → Nat
  freep : Nat
  /-- the end of the memory the process has: static data, and what `sbrk` gave -/
  top : Nat
  /-- what `sbrk` has given so far -/
  regions : List Span
  answers : Nat → Option Nat
  calls : Nat

abbrev HeapM := StateT Heap (Except Stop)

def Heap.ptr (s : Heap) (p : Nat) : Nat := s.word p

def Heap.size (s : Heap) (p : Nat) : Nat := s.word (p + 4)

def Heap.put (s : Heap) (x v : Nat) : Heap := { s with word := Function.update s.word x v }

def setPtr (p v : Nat) : HeapM Unit := modify fun s => s.put p v

def setSize (p v : Nat) : HeapM Unit := modify fun s => s.put (p + 4) v

def setFreep (p : Nat) : HeapM Unit := modify fun s => { s with freep := p }

/-- `p + n` for a pointer to headers. -/
def advance (p n : Nat) : Nat := (p + n * HEADER) % 2 ^ 32

/-- A region that `sbrk(n)` may return; its end is an address too. -/
def Heap.fresh (s : Heap) (n a : Nat) : Bool := a % 8 == 0 && s.top ≤ a && a + n < 2 ^ 32

/-- `sbrk(n)` for a positive `n`; `none` is -1. -/
def sbrk (n : Nat) : HeapM (Option Nat) := do
  let s ← get
  set { s with calls := s.calls + 1 }
  match s.answers s.calls with
  | none => return none
  | some a =>
    if s.fresh n a then
      modify fun s => { s with top := a + n, regions := ⟨a, n⟩ :: s.regions }
      return some a
    else return none

/-- What the allocator needs of the system: `sbrk`, and access to the header at
an address that `sbrk` returned. -/
structure Os where
  sbrk : Nat → HeapM (Option Nat)
  touch : Nat → HeapM Unit

/-- Any kernel whose regions can be accessed. -/
def anyOs : Os := { sbrk := sbrk, touch := fun _ => pure () }

/-- The loop of `free` ends at `p`: `bp` is between `p` and the next block, or
`p` is the last block and `bp` comes after it or before the first one. -/
def Heap.gap (s : Heap) (bp p : Nat) : Bool :=
  (p < bp && bp < s.ptr p) || (s.ptr p ≤ p && (p < bp || bp < s.ptr p))

/-- `if(x + x->s.size == y){ x->s.size += y->s.size; x->s.ptr = y->s.ptr; }
else x->s.ptr = y;`. -/
def join (x y : Nat) : HeapM Unit := do
  let s ← get
  if advance x (s.size x) = y then
    setSize x ((s.size x + s.size y) % 2 ^ 32)
    let s ← get
    setPtr x (s.ptr y)
  else setPtr x y

/-- `free(ap)`.  The block is joined to the one behind it and then to the one
before it: `y` is `p->s.ptr` in the first case. -/
def free (ap : Nat) : HeapM Unit := do
  let bp := (ap + 2 ^ 32 - HEADER) % 2 ^ 32
  let s ← get
  match seek s.ptr (s.gap bp) turns s.freep with
  | none => throw .hang
  | some p =>
    join bp (s.ptr p)
    join p bp
    setFreep p

def morecore (os : Os) (nu : Nat) : HeapM Nat := do
  let nu := if nu < 4096 then 4096 else nu
  match ← os.sbrk (nu * HEADER % 2 ^ 32) with
  | none => return 0
  | some p =>
    os.touch p
    setSize p nu
    free (advance p 1)
    return (← get).freep

/-- A block that is large enough has been found at `p`, behind `prevp`. -/
def carve (nunits prevp p : Nat) : HeapM Nat := do
  let s ← get
  if s.size p = nunits then
    setPtr prevp (s.ptr p)
    setFreep prevp
    return advance p 1
  else
    setSize p (s.size p - nunits)
    let s ← get
    let p := advance p (s.size p)
    setSize p nunits
    setFreep prevp
    return advance p 1

def mallocLoop (os : Os) (nunits : Nat) : Nat → Nat → Nat → HeapM Nat
  | 0, _, _ => throw .hang
  | n + 1, prevp, p => do
    let s ← get
    if nunits ≤ s.size p then carve nunits prevp p
    else if p = s.freep then
      let p ← morecore os nunits
      if p = 0 then return 0
      else
        let s ← get
        mallocLoop os nunits n p (s.ptr p)
    else mallocLoop os nunits n p (s.ptr p)

def unitsFor (nbytes : Nat) : Nat := (nbytes + HEADER - 1) % 2 ^ 32 / HEADER + 1

section Base

-- `&base`
variable (base : Nat)

def mallocBy (os : Os) (nbytes : Nat) : HeapM Nat := do
  let s ← get
  if s.freep = 0 then
    setPtr base base
    setFreep base
    setSize base 0
  let s ← get
  mallocLoop os (unitsFor nbytes) turns s.freep (s.ptr s.freep)

/-- `malloc(nbytes)` over any kernel. -/
def malloc (nbytes : Nat) : HeapM Nat := mallocBy base anyOs nbytes

/-! ## What a program does with it -/

/-- The block behind a pointer that `malloc(n)` returned. -/
def blockOf (a : Nat × Nat) : Span := ⟨a.1 - HEADER, HEADER * unitsFor a.2⟩

/-- The states of a program that frees only what it has allocated, and writes
only there.  With the state goes the list of the pointers it has, each with the
number of bytes it asked for. -/
inductive Reachable : Heap → List (Nat × Nat) → Prop where
  /-- `base` is part of the static data; memory has arbitrary contents -/
  | boot (word : Nat → Nat) (top : Nat) (answers : Nat → Option Nat) :
      0 < base → base + HEADER ≤ top →
      Reachable ⟨word, 0, top, [], answers, 0⟩ []
  | malloc {s s' : Heap} {live : List (Nat × Nat)} {n p : Nat} : Reachable s live → n < 2 ^ 30 →
      malloc base n s = .ok (p, s') → Reachable s' (if p = 0 then live else (p, n) :: live)
  | free {s s' : Heap} {live : List (Nat × Nat)} {a : Nat × Nat} : Reachable s live → a ∈ live →
      free a.1 s = .ok ((), s') → Reachable s' (live.erase a)
  /-- the program changes a word of memory it has allocated -/
  | write {s : Heap} {live : List (Nat × Nat)} {a : Nat × Nat} {x v : Nat} :
      Reachable s live → a ∈ live → x % 4 = 0 → a.1 ≤ x → x < a.1 + a.2 →
      Reachable (s.put x v) live

end Base

end Xv6Pdx.Umalloc
