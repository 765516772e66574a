/-
# `Syscall.Args` — the arguments of a system call

A process makes a system call with its arguments on the user stack.  The
functions of `syscall.c` fetch them one by one, and each is to refuse what does
not lie inside the process: the word itself, or a buffer it points to.

All of this is 32-bit arithmetic, partly signed and partly not.  A word is kept
as a number below 2^32; `Fs.toInt` reads it as an `int`, and `Fs.toUint` goes
back.
-/
import Xv6Pdx.Fs.Calls
import Xv6Pdx.Mem.Model

namespace Xv6Pdx.Syscall

open Lib Bytes
open Fs (toInt toUint)

/-- What the kernel has of the process that made the call: `proc->sz`, the
saved stack pointer, and the memory its addresses lead to. -/
structure User where
  sz : Nat
  esp : Nat
  mem : Bytes

/-- `fetchint(addr, &i)`; `none` is -1. -/
def fetchint (u : User) (addr : Nat) : Option Nat :=
  if u.sz ≤ addr ∨ u.sz < (addr + 4) % 2 ^ 32 then none
  else some (decode (u.mem.slice addr 4))

def argint (u : User) (n : Nat) : Option Nat := fetchint u ((u.esp + 4 + 4 * n) % 2 ^ 32)

def argptr (u : User) (n : Nat) (size : Int) : Option Nat :=
  match argint u n with
  | none => none
  | some i => if u.sz ≤ i ∨ u.sz < toUint (i + size) then none else some i

section

variable {u : User}

theorem argptr_eq_some {n p : Nat} {size : Int} (h : argptr u n size = some p) :
    argint u n = some p ∧ p < u.sz ∧ toUint (p + size) ≤ u.sz := by
  rw [argptr] at h
  split at h
  · cases h
  · next i hi =>
      split at h
      · cases h
      · next hin =>
          cases h
          rw [not_or, Nat.not_le, Nat.not_lt] at hin
          exact ⟨hi, hin⟩

/-- A buffer of a length that is not negative lies inside the process. -/
theorem argptr_inside (hsz : u.sz < KERNBASE) {n p : Nat} {size : Int} (h0 : 0 ≤ size)
    (h1 : size < 2 ^ 31) (h : argptr u n size = some p) : p + size.toNat ≤ u.sz := by
  obtain ⟨_, hp, hend⟩ := argptr_eq_some h
  simp only [KERNBASE] at hsz
  have hadd : toUint (p + size) = p + size.toNat := by
    simp only [toUint]
    omega
  rwa [hadd] at hend

/-- A negative size is accepted when it does not wrap below zero. -/
theorem argptr_neg (hsz : u.sz < KERNBASE) {n p : Nat} {size : Int} (h0 : size < 0)
    (h1 : -2 ^ 31 ≤ size) :
    argptr u n size = some p ↔ argint u n = some p ∧ p < u.sz ∧ 0 ≤ p + size := by
  simp only [KERNBASE] at hsz
  have hwrap : ∀ i, i < u.sz → (toUint (i + size) ≤ u.sz ↔ 0 ≤ i + size) := by
    intro i hi
    simp only [toUint]
    omega
  rw [argptr]
  cases argint u n with
  | none => simp
  | some i =>
    dsimp only
    rw [Option.some.injEq]
    split
    · next h =>
        refine ⟨nofun, ?_⟩
        rintro ⟨rfl, hi, hle⟩
        have := (hwrap i hi).mpr hle
        omega
    · next h =>
        rw [not_or, not_le, not_lt] at h
        refine ⟨?_, fun hp => hp.1 ▸ rfl⟩
        rintro ⟨⟩
        exact ⟨rfl, h.1, (hwrap _ h.1).mp h.2⟩

theorem toInt_range (w : Nat) : -2 ^ 31 ≤ toInt w ∧ toInt w < 2 ^ 31 := by
  have hlt := Int.bmod_lt (x := (w : Int)) (m := 2 ^ 32) (by decide)
  have hle := Int.le_bmod (x := (w : Int)) (m := 2 ^ 32) (by decide)
  norm_num at hlt hle ⊢
  exact ⟨hle, hlt⟩

theorem toInt_of_lt {w : Nat} (h : w < 2 ^ 31) : toInt w = w := by
  refine Int.bmod_eq_of_le ?_ ?_ <;> first | (norm_num; omega) | norm_num

theorem toUint_toInt {w : Nat} (h : w < 2 ^ 32) : toUint (toInt w) = w := by
  have hmod : toInt w % (2 ^ 32 : Nat) = (w : Int) % (2 ^ 32 : Nat) := Int.bmod_emod
  rw [toUint]
  norm_num at hmod ⊢
  omega

theorem toInt_toUint {n : Int} (h0 : -2 ^ 31 ≤ n) (h1 : n < 2 ^ 31) : toInt (toUint n) = n := by
  have hmod : toInt (toUint n) % (2 ^ 32 : Nat) = (toUint n : Int) % (2 ^ 32 : Nat) :=
    Int.bmod_emod
  have hrange := toInt_range (toUint n)
  generalize toInt (toUint n) = i at hmod hrange ⊢
  simp only [toUint] at hmod
  norm_num at hmod hrange
  omega

end

end Xv6Pdx.Syscall
