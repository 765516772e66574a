/-
# `Mp.Scan` — the multiprocessor tables of the firmware

`mpinit` of `mp.c` looks for the MP configuration table in the memory the
firmware left behind and walks over its entries: one for each processor, bus,
I/O APIC and interrupt source.  The type of an entry is its first byte and says
how long it is.

The walk has two gaps.  The branch for an unknown type does not move on, so the
loop never ends; and each processor is stored at `cpus[ncpu]` without looking at
`NCPU`.  The loop takes one unit of fuel a turn.
-/
import Xv6Pdx.Lib.Bytes

namespace Xv6Pdx.Mp

open Lib Bytes

def NCPU : Nat := 8

def MPSIZE : Nat := 16

def CONFSIZE : Nat := 44

/-! ## Finding the table -/

def sum (phys : Bytes) (addr len : Nat) : Nat :=
  ((phys.slice addr len).map UInt8.toNat).sum % 256

def hasText (phys : Bytes) (p : Nat) (s : String) : Bool :=
  phys.slice p 4 = s.toList.map fun c => UInt8.ofNat c.toNat

def mpsearch1 (phys : Bytes) (a len : Nat) : Option Nat :=
  ((List.range ((len + 15) / MPSIZE)).map (a + MPSIZE * ·)).find? fun p =>
    hasText phys p "_MP_" && sum phys p MPSIZE == 0

/-- `mpsearch`; the BIOS data area is at `0x400`. -/
def mpsearch (phys : Bytes) : Option Nat :=
  let p := decode (phys.slice 0x40E 2) * 16
  let first :=
    if p ≠ 0 then mpsearch1 phys p 1024
    else mpsearch1 phys ((decode (phys.slice 0x413 2) * 1024 + (2 ^ 32 - 1024)) % 2 ^ 32) 1024
  first.or (mpsearch1 phys 0xF0000 0x10000)

def confLength (phys : Bytes) (conf : Nat) : Nat := decode (phys.slice (conf + 4) 2)

/-- Signature, version and checksum of a configuration table. -/
def confValid (phys : Bytes) (conf : Nat) : Bool :=
  hasText phys conf "PCMP" && (phys (conf + 6) == 1 || phys (conf + 6) == 4) &&
    sum phys conf (confLength phys conf) == 0

/-- `mpconfig(&mp)`: the floating pointer and the table. -/
def mpconfig (phys : Bytes) : Option (Nat × Nat) :=
  (mpsearch phys).bind fun mp =>
    let conf := decode (phys.slice (mp + 4) 4)
    if conf ≠ 0 ∧ confValid phys conf then some (mp, conf) else none

/-! ## Walking over it -/

structure State where
  ismp : Bool
  ncpu : Nat
  /-- the index `bcpu` points to -/
  bcpu : Nat
  ioapicid : UInt8
  lapic : Nat
  /-- the indices into `cpus` that were stored to, newest first -/
  stored : List Nat
  /-- the external interrupts were masked at the IMCR -/
  imcr : Bool
deriving DecidableEq, Repr

def State.start : State :=
  { ismp := false, ncpu := 0, bcpu := 0, ioapicid := 0, lapic := 0, stored := [], imcr := false }

def MPPROC : UInt8 := 0x00
def MPBUS : UInt8 := 0x01
def MPIOAPIC : UInt8 := 0x02
def MPIOINTR : UInt8 := 0x03
def MPLINTR : UInt8 := 0x04

def processor (phys : Bytes) (p : Nat) (s : State) : State :=
  { s with
    ismp := s.ismp && decide (s.ncpu = (phys (p + 1)).toNat)
    bcpu := if phys (p + 3) &&& 0x02 ≠ 0 then s.ncpu else s.bcpu
    stored := s.ncpu :: s.stored
    ncpu := s.ncpu + 1 }

/-- One turn of the loop: the state and the next entry. -/
def turn (phys : Bytes) (p : Nat) (s : State) : State × Nat :=
  if phys p = MPPROC then (processor phys p s, p + 20)
  else if phys p = MPIOAPIC then ({ s with ioapicid := phys (p + 1) }, p + 8)
  else if phys p = MPBUS ∨ phys p = MPIOINTR ∨ phys p = MPLINTR then (s, p + 8)
  else ({ s with ismp := false }, p)

def scan (phys : Bytes) (e : Nat) : Nat → Nat → State → Option State
  | 0, _, _ => none
  | fuel + 1, p, s =>
    if p < e then scan phys e fuel (turn phys p s).2 (turn phys p s).1 else some s

/-- The variables when the loop starts. -/
def loopStart (phys : Bytes) (conf : Nat) : State :=
  { State.start with ismp := true, lapic := decode (phys.slice (conf + 36) 4) }

/-- What `mpinit` does behind the loop. -/
def settle (phys : Bytes) (mp : Nat) (s : State) : State :=
  if !s.ismp then { s with ncpu := 1, lapic := 0, ioapicid := 0 }
  else { s with imcr := phys (mp + 12) ≠ 0 }

def mpinit (phys : Bytes) (fuel : Nat) : Option State :=
  match mpconfig phys with
  | none => some .start
  | some (mp, conf) =>
    (scan phys (conf + confLength phys conf) fuel (conf + CONFSIZE) (loopStart phys conf)).map
      (settle phys mp)

/-! ## The entries of a table -/

/-- The length of an entry, by its type. -/
def entrySize (type : UInt8) : Option Nat :=
  if type = MPPROC then some 20
  else if type = MPIOAPIC ∨ type = MPBUS ∨ type = MPIOINTR ∨ type = MPLINTR then some 8
  else none

/-- From `p` on, entries of these types lie one behind the other up to `e`. -/
inductive Entries (phys : Bytes) (e : Nat) : Nat → List UInt8 → Prop
  | done {p : Nat} : e ≤ p → Entries phys e p []
  | entry {p k : Nat} {types : List UInt8} : p < e → entrySize (phys p) = some k →
      Entries phys e (p + k) types → Entries phys e p (phys p :: types)

/-- The walk ends, and every store was inside `cpus`. -/
def Inside (phys : Bytes) (e p : Nat) (s : State) : Prop :=
  ∃ fuel s', scan phys e fuel p s = some s' ∧ (∀ i ∈ s'.stored, i < NCPU) ∧ s'.ncpu ≤ NCPU

/-- The stores so far were those of the processors so far. -/
def Numbered (s : State) : Prop := ∀ i, i ∈ s.stored ↔ i < s.ncpu

/-! ## One turn -/

theorem turn_of_size {phys : Bytes} {p k : Nat} (h : entrySize (phys p) = some k) (s : State) :
    (turn phys p s).2 = p + k ∧ (turn phys p s).1.ncpu = s.ncpu + [phys p].count MPPROC ∧
      (Numbered s → Numbered (turn phys p s).1) := by
  unfold entrySize at h
  unfold turn
  split at h
  · next hproc =>
      cases h
      rw [if_pos hproc]
      refine ⟨rfl, by rw [hproc]; rfl, ?_⟩
      intro hn i
      have hi := hn i
      simp only [processor, List.mem_cons, hi]
      omega
  · next hproc =>
      have hcount : [phys p].count MPPROC = 0 := by
        rw [List.count_eq_zero, List.mem_singleton]
        exact fun h => hproc h.symm
      split at h
      · next htype =>
          cases h
          rw [if_neg hproc, hcount]
          by_cases hio : phys p = MPIOAPIC
          · rw [if_pos hio]
            exact ⟨rfl, rfl, id⟩
          · rw [if_neg hio, if_pos (htype.resolve_left hio)]
            exact ⟨rfl, rfl, id⟩
      · cases h

theorem turn_unknown {phys : Bytes} {p : Nat} (h : entrySize (phys p) = none) (s : State) :
    (turn phys p s).2 = p := by
  unfold entrySize at h
  unfold turn
  split at h
  · cases h
  · next hproc =>
      split at h
      · cases h
      · next hother =>
          rw [if_neg hproc, if_neg fun hio => hother (.inl hio), if_neg fun ho => hother (.inr ho)]

/-! ## The whole walk -/

theorem count_entry (type : UInt8) (types : List UInt8) :
    (type :: types).count MPPROC = [type].count MPPROC + types.count MPPROC := by
  rw [← List.count_append]
  rfl

section

variable {phys : Bytes} {e : Nat}

/-- At an entry of unknown type the loop stays for ever. -/
theorem scan_stuck {p : Nat} (hlt : p < e) (h : entrySize (phys p) = none) (fuel : Nat)
    (s : State) : scan phys e fuel p s = none := by
  induction fuel generalizing s with
  | zero => rfl
  | succ fuel ih => rw [scan, if_pos hlt, turn_unknown h, ih]

theorem scan_of_entries {p : Nat} {types : List UInt8} (h : Entries phys e p types) {s : State}
    (hn : Numbered s) : ∃ fuel s', scan phys e fuel p s = some s' ∧
      s'.ncpu = s.ncpu + types.count MPPROC ∧ Numbered s' := by
  induction h generalizing s with
  | done hle => exact ⟨1, s, by rw [scan, if_neg (by omega)], rfl, hn⟩
  | @entry p k types hlt hk _ ih =>
    obtain ⟨hp, hcount, hnum⟩ := turn_of_size hk s
    obtain ⟨fuel, s', hs', hcount', hn'⟩ := ih (hnum hn)
    refine ⟨fuel + 1, s', by rw [scan, if_pos hlt, hp, hs'], ?_, hn'⟩
    rw [hcount', hcount, count_entry (phys p) types]
    omega

theorem entries_of_scan {fuel p : Nat} {s s' : State} (h : scan phys e fuel p s = some s') :
    ∃ types, Entries phys e p types ∧ s'.ncpu = s.ncpu + types.count MPPROC := by
  induction fuel generalizing p s with
  | zero => cases h
  | succ fuel ih =>
    by_cases hlt : p < e
    · cases hk : entrySize (phys p) with
      | none =>
        rw [scan_stuck hlt hk] at h
        cases h
      | some k =>
        obtain ⟨hp, hcount, -⟩ := turn_of_size hk s
        rw [scan, if_pos hlt, hp] at h
        obtain ⟨types, htypes, hcount'⟩ := ih h
        refine ⟨phys p :: types, .entry hlt hk htypes, ?_⟩
        rw [hcount', hcount, count_entry (phys p) types]
        omega
    · rw [scan, if_neg hlt] at h
      cases h
      exact ⟨[], .done (by omega), rfl⟩

theorem scan_unique {fuel fuel' p : Nat} {s a b : State} (ha : scan phys e fuel p s = some a)
    (hb : scan phys e fuel' p s = some b) : a = b := by
  induction fuel generalizing fuel' p s with
  | zero => cases ha
  | succ fuel ih =>
    cases fuel' with
    | zero => cases hb
    | succ fuel' =>
      rw [scan] at ha hb
      split at ha
      · next hlt =>
          rw [if_pos hlt] at hb
          exact ih ha hb
      · next hlt =>
          rw [if_neg hlt] at hb
          exact (Option.some.inj ha).symm.trans (Option.some.inj hb)

theorem inside_iff {p : Nat} {s : State} (hn : Numbered s) :
    Inside phys e p s ↔ ∃ types, Entries phys e p types ∧ s.ncpu + types.count MPPROC ≤ NCPU := by
  constructor
  · rintro ⟨fuel, s', hs', -, hle⟩
    obtain ⟨types, htypes, hcount⟩ := entries_of_scan hs'
    exact ⟨types, htypes, by omega⟩
  · rintro ⟨types, htypes, hle⟩
    obtain ⟨fuel, s', hs', hcount, hn'⟩ := scan_of_entries htypes hn
    refine ⟨fuel, s', hs', ?_, by omega⟩
    intro i hi
    have hlt := (hn' i).mp hi
    omega

end

theorem loopStart_numbered (phys : Bytes) (conf : Nat) : Numbered (loopStart phys conf) := by
  intro i
  simp [loopStart, State.start]

/-- The walk over a table ends inside `cpus` exactly when its entries have known
types and at most `NCPU` of them are processors. -/
theorem scan_inside_iff (phys : Bytes) (conf : Nat) :
    Inside phys (conf + confLength phys conf) (conf + CONFSIZE) (loopStart phys conf) ↔
      ∃ types, Entries phys (conf + confLength phys conf) (conf + CONFSIZE) types ∧
        types.count MPPROC ≤ NCPU := by
  rw [inside_iff (loopStart_numbered phys conf)]
  simp [loopStart, State.start]

def strangeTable : List UInt8 :=
  [0x50, 0x43, 0x4D, 0x50, 0x2D, 0x00, 0x04, 0x9A] ++ List.replicate 36 0 ++ [0x05]

def crowdedTable : List UInt8 :=
  [0x50, 0x43, 0x4D, 0x50, 0xE0, 0x00, 0x04, 0xC8] ++ List.replicate 36 0 ++
    (List.range 9).flatMap fun i => [0x00, UInt8.ofNat i] ++ List.replicate 18 0

/-- A memory in which `mpsearch` finds this table. -/
def firmware (table : List UInt8) : Bytes :=
  patch (patch (fun _ => 0) 0x40E [0xC0, 0x9F]) 0x9FC00
    ([0x5F, 0x4D, 0x50, 0x5F, 0x10, 0xFC, 0x09, 0x00, 0x01, 0x04, 0x8B, 0, 0, 0, 0, 0] ++ table)

/-- Two tables that `mpconfig` accepts: the walk over the first never ends, the
walk over the second stores to `cpus[8]`. -/
theorem scan_leaves_bounds : (mpconfig (firmware strangeTable) = some (0x9FC00, 0x9FC10) ∧
      ¬ Inside (firmware strangeTable) (0x9FC10 + confLength (firmware strangeTable) 0x9FC10)
        (0x9FC10 + CONFSIZE) (loopStart (firmware strangeTable) 0x9FC10)) ∧
    (mpconfig (firmware crowdedTable) = some (0x9FC00, 0x9FC10) ∧
      ¬ Inside (firmware crowdedTable) (0x9FC10 + confLength (firmware crowdedTable) 0x9FC10)
        (0x9FC10 + CONFSIZE) (loopStart (firmware crowdedTable) 0x9FC10)) := by
  refine ⟨⟨by decide +kernel, ?_⟩, by decide +kernel, ?_⟩
  · rintro ⟨fuel, s, hs, -⟩
    rw [scan_stuck (by decide +kernel) (by decide +kernel)] at hs
    cases hs
  · rintro ⟨fuel, s, hs, -, hle⟩
    have hnine : (scan (firmware crowdedTable)
        (0x9FC10 + confLength (firmware crowdedTable) 0x9FC10) 10 (0x9FC10 + CONFSIZE)
        (loopStart (firmware crowdedTable) 0x9FC10)).map State.ncpu = some 9 := by decide +kernel
    obtain ⟨s', hs', hcount⟩ := Option.map_eq_some_iff.mp hnine
    rw [scan_unique hs hs', hcount] at hle
    exact absurd hle (by decide)

end Xv6Pdx.Mp
