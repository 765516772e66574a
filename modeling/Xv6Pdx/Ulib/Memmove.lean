/-
# `Ulib.Memmove` — the two routines called `memmove`

The kernel's `memmove` of `string.c` looks at how its ranges lie and copies
from the far end when the destination starts inside the source.  The user
library's, in `ulib.c`, always copies from the near end.

The kernel's moves every range.  The user's does so exactly when no byte is read
after it was overwritten by a different one.  Pointers are 32-bit numbers, and
stepping one wraps.
-/
import Xv6Pdx.Lib.Bytes

namespace Xv6Pdx

open Lib
open Function (update update_self update_of_ne)

/-! ## The two copy loops -/

def ptrUp (p : Nat) : Nat := (p + 1) % 2 ^ 32

def ptrDown (p : Nat) : Nat := (p + (2 ^ 32 - 1)) % 2 ^ 32

def copyUp : Nat → Nat → Nat → Bytes → Bytes
  | 0, _, _, m => m
  | n + 1, d, s, m => copyUp n (ptrUp d) (ptrUp s) (update m d (m s))

def copyDown : Nat → Nat → Nat → Bytes → Bytes
  | 0, _, _, m => m
  | n + 1, d, s, m =>
    copyDown n (ptrDown d) (ptrDown s) (update m (ptrDown d) (m (ptrDown s)))

namespace Str

/-- The kernel's `memmove`; `n` is an `uint`. -/
def memmove (m : Bytes) (dst src n : Nat) : Bytes :=
  if src < dst ∧ (src + n) % 2 ^ 32 > dst then
    copyDown n ((dst + n) % 2 ^ 32) ((src + n) % 2 ^ 32) m
  else
    copyUp n dst src m

end Str

namespace Ulib

/-- The user library's `memmove`; `n` is an `int`, and a negative one copies nothing. -/
def memmove (m : Bytes) (dst src : Nat) (n : Int) : Bytes := copyUp n.toNat dst src m

end Ulib

/-- What moving `n` bytes is for: they stand at `dst`, and nothing else is touched. -/
structure Moves (m m' : Bytes) (dst src n : Nat) : Prop where
  moved : ∀ i, i < n → m' (dst + i) = m (src + i)
  kept : ∀ a, a < dst ∨ dst + n ≤ a → m' a = m a

/-! ## Copying from the near end

The loop is read from its other end: a copy of `n + 1` bytes is a copy of `n`
followed by one more byte.  What then stands in place `i` is the byte the
source held after `i` steps. -/

theorem ptrUp_of_lt {p : Nat} (h : p + 1 < 2 ^ 32) : ptrUp p = p + 1 := Nat.mod_eq_of_lt h

theorem copyUp_succ (n : Nat) {d s : Nat} (m : Bytes) (hd : d + n < 2 ^ 32) (hs : s + n < 2 ^ 32) :
    copyUp (n + 1) d s m = update (copyUp n d s m) (d + n) (copyUp n d s m (s + n)) := by
  induction n generalizing d s m with
  | zero => rfl
  | succ n ih =>
    have hdn : d + 1 + n = d + (n + 1) := by omega
    have hsn : s + 1 + n = s + (n + 1) := by omega
    rw [copyUp, ptrUp_of_lt (by omega), ptrUp_of_lt (by omega), ih _ (by omega) (by omega),
      hdn, hsn]
    rw [copyUp, ptrUp_of_lt (by omega), ptrUp_of_lt (by omega)]

theorem copyUp_kept {n d s : Nat} (m : Bytes) (hd : d + n ≤ 2 ^ 32) (hs : s + n ≤ 2 ^ 32) {a : Nat}
    (ha : a < d ∨ d + n ≤ a) : copyUp n d s m a = m a := by
  induction n with
  | zero => rfl
  | succ n ih =>
    rw [copyUp_succ n m (by omega) (by omega), update_of_ne (by omega)]
    exact ih (by omega) (by omega) (by omega)

theorem copyUp_at {n d s : Nat} (m : Bytes) (hd : d + n ≤ 2 ^ 32) (hs : s + n ≤ 2 ^ 32) {i : Nat}
    (hi : i < n) : copyUp n d s m (d + i) = copyUp i d s m (s + i) := by
  induction n with
  | zero => omega
  | succ n ih =>
    rw [copyUp_succ n m (by omega) (by omega)]
    rcases Nat.lt_succ_iff_lt_or_eq.mp hi with h | rfl
    · rw [update_of_ne (by omega)]
      exact ih (by omega) (by omega) h
    · exact update_self _ _ _

/-- Until it is overwritten, a byte of the source is the byte it was. -/
theorem copyUp_fresh {n d s : Nat} (m : Bytes) (hd : d + n ≤ 2 ^ 32) (hs : s + n ≤ 2 ^ 32) {i : Nat}
    (hi : i < n) (h : d ≤ s ∨ s + i < d) : copyUp n d s m (d + i) = m (s + i) := by
  rw [copyUp_at m hd hs hi]
  exact copyUp_kept m (by omega) (by omega) (by omega)

/-- A byte that was overwritten is copied on as what it has become. -/
theorem copyUp_again {n d s : Nat} (m : Bytes) (hd : d + n ≤ 2 ^ 32) (hs : s + n ≤ 2 ^ 32)
    (hlt : s < d) {j : Nat} (hj : d + j < s + n) :
    copyUp n d s m (d + (d + j - s)) = copyUp n d s m (d + j) := by
  have hat : s + (d + j - s) = d + j := by omega
  rw [copyUp_at m hd hs (by omega), hat, copyUp_at m (by omega) (by omega) (by omega),
    copyUp_at m hd hs (by omega)]

/-! ## Copying from the far end -/

theorem ptrDown_mod {p : Nat} (h : p + 1 ≤ 2 ^ 32) : ptrDown ((p + 1) % 2 ^ 32) = p := by
  unfold ptrDown
  omega

theorem copyDown_kept (n : Nat) {d s : Nat} (m : Bytes) (hd : d + n ≤ 2 ^ 32) (hs : s + n ≤ 2 ^ 32)
    {a : Nat} (ha : a < d ∨ d + n ≤ a) :
    copyDown n ((d + n) % 2 ^ 32) ((s + n) % 2 ^ 32) m a = m a := by
  induction n generalizing m with
  | zero => rfl
  | succ n ih =>
    have hdm : (d + n) % 2 ^ 32 = d + n := Nat.mod_eq_of_lt (by omega)
    have hsm : (s + n) % 2 ^ 32 = s + n := Nat.mod_eq_of_lt (by omega)
    have hstep := ih (update m (d + n) (m (s + n))) (by omega) (by omega) (by omega)
    rw [hdm, hsm] at hstep
    rw [copyDown, ← Nat.add_assoc, ← Nat.add_assoc, ptrDown_mod (by omega),
      ptrDown_mod (by omega), hstep]
    exact update_of_ne (by omega) _ _

theorem copyDown_at (n : Nat) {d s : Nat} (m : Bytes) (hd : d + n ≤ 2 ^ 32) (hs : s + n ≤ 2 ^ 32)
    (hlt : s < d) {i : Nat} (hi : i < n) :
    copyDown n ((d + n) % 2 ^ 32) ((s + n) % 2 ^ 32) m (d + i) = m (s + i) := by
  induction n generalizing m with
  | zero => omega
  | succ n ih =>
    have hdm : (d + n) % 2 ^ 32 = d + n := Nat.mod_eq_of_lt (by omega)
    have hsm : (s + n) % 2 ^ 32 = s + n := Nat.mod_eq_of_lt (by omega)
    rw [copyDown, ← Nat.add_assoc, ← Nat.add_assoc, ptrDown_mod (by omega), ptrDown_mod (by omega)]
    rcases Nat.lt_succ_iff_lt_or_eq.mp hi with h | rfl
    · have hstep := ih (update m (d + n) (m (s + n))) (by omega) (by omega) h
      rw [hdm, hsm] at hstep
      rw [hstep, update_of_ne (by omega)]
    · have hstep := copyDown_kept i (update m (d + i) (m (s + i))) (a := d + i)
        (by omega : d + i ≤ 2 ^ 32) (by omega : s + i ≤ 2 ^ 32) (by omega)
      rw [hdm, hsm] at hstep
      rw [hstep, update_self]

/-! ## What the routines do -/

theorem Str.memmove_moves (m : Bytes) {dst src n : Nat} (hd : dst + n ≤ 2 ^ 32)
    (hs : src + n ≤ 2 ^ 32) : Moves m (Str.memmove m dst src n) dst src n := by
  unfold Str.memmove
  split
  · next h =>
      exact ⟨fun i hi => copyDown_at n m hd hs h.1 hi, fun a ha => copyDown_kept n m hd hs ha⟩
  · next h =>
      -- The end of the source cannot have wrapped below a destination that starts above it.
      have happart : dst ≤ src ∨ src + n ≤ dst := by omega
      exact ⟨fun i hi => copyUp_fresh m hd hs hi (by omega), fun a ha => copyUp_kept m hd hs ha⟩

/-- Every byte of the source that lies in the destination holds what the copy puts there. -/
def Repeats (m : Bytes) (dst src n : Nat) : Prop :=
  src < dst → ∀ i, dst + i < src + n → m (dst + i) = m (src + i)

theorem copyUp_of_repeats {m : Bytes} {dst src n : Nat} (hd : dst + n ≤ 2 ^ 32)
    (hs : src + n ≤ 2 ^ 32) (h : Repeats m dst src n) (i : Nat) (hi : i < n) :
    copyUp n dst src m (dst + i) = m (src + i) := by
  -- Strong induction: an overwritten byte was put there by an earlier step.
  induction i using Nat.strong_induction_on with
  | _ i ih =>
    by_cases hfresh : dst ≤ src ∨ src + i < dst
    · exact copyUp_fresh m hd hs hi hfresh
    · have hj : dst + (src + i - dst) = src + i := by omega
      have hi' : i = dst + (src + i - dst) - src := by omega
      have hagain := copyUp_again m hd hs (j := src + i - dst) (by omega) (by omega)
      rw [← hi'] at hagain
      rw [hagain, ih _ (by omega) (by omega), ← h (by omega) _ (by omega), hj]

theorem repeats_of_copyUp {m : Bytes} {dst src n : Nat} (hd : dst + n ≤ 2 ^ 32)
    (hs : src + n ≤ 2 ^ 32) (h : ∀ i, i < n → copyUp n dst src m (dst + i) = m (src + i)) :
    Repeats m dst src n := by
  intro hlt i hi
  have hat : src + (dst + i - src) = dst + i := by omega
  have hagain := copyUp_again m hd hs hlt hi
  rw [h _ (by omega), h _ (by omega), hat] at hagain
  exact hagain

theorem Ulib.memmove_moves_iff (m : Bytes) {dst src n : Nat} (hd : dst + n ≤ 2 ^ 32)
    (hs : src + n ≤ 2 ^ 32) :
    Moves m (Ulib.memmove m dst src n) dst src n ↔ Repeats m dst src n := by
  unfold Ulib.memmove
  rw [Int.toNat_natCast]
  constructor
  · intro h
    exact repeats_of_copyUp hd hs h.moved
  · intro h
    exact ⟨copyUp_of_repeats hd hs h, fun a ha => copyUp_kept m hd hs ha⟩

/-- Ranges that do not overlap, or that are moved down, are moved right by both. -/
theorem Repeats.of_apart {m : Bytes} {dst src n : Nat} (h : dst ≤ src ∨ src + n ≤ dst) :
    Repeats m dst src n := by
  intro hlt i hi
  omega

theorem Ulib.memmove_front (m : Bytes) (src n : Nat) (h : src + n ≤ 2 ^ 32) :
    (Ulib.memmove m 0 src n).slice 0 n = m.slice src n := by
  have hmoves : Moves m (Ulib.memmove m 0 src n) 0 src n :=
    (Ulib.memmove_moves_iff m (by omega) h).mpr (.of_apart (by omega))
  refine List.map_congr_left ?_
  intro i hi
  exact hmoves.moved i (List.mem_range.mp hi)

/-- Both routines move the same ranges right exactly when the user's does. -/
theorem memmoves_agree_iff (m : Bytes) (dst src n : Nat) (_hn : n < 2 ^ 31)
    (hd : dst + n ≤ 2 ^ 32) (hs : src + n ≤ 2 ^ 32) :
    (Moves m (Str.memmove m dst src n) dst src n ∧
      Moves m (Ulib.memmove m dst src n) dst src n) ↔ Repeats m dst src n := by
  rw [Ulib.memmove_moves_iff m hd hs]
  exact ⟨And.right, fun h => ⟨Str.memmove_moves m hd hs, h⟩⟩

theorem memmoves_agree_down : Moves (fun a => UInt8.ofNat a)
    (Ulib.memmove (fun a => UInt8.ofNat a) 0 1 3) 0 1 3 :=
  ((memmoves_agree_iff (fun a => UInt8.ofNat a) 0 1 3 (by omega) (by omega) (by omega)).mpr
    (.of_apart (by omega))).2

/-- Three bytes moved one place up: the user's copy has the first of them three times. -/
theorem memmove_user_smears :
    Moves (fun a => UInt8.ofNat a) (Str.memmove (fun a => UInt8.ofNat a) 1 0 3) 1 0 3 ∧
      ¬ Moves (fun a => UInt8.ofNat a) (Ulib.memmove (fun a => UInt8.ofNat a) 1 0 3) 1 0 3 := by
  refine ⟨Str.memmove_moves _ (by omega) (by omega), ?_⟩
  intro h
  have h1 := h.moved 1 (by omega)
  exact absurd h1 (by decide)

end Xv6Pdx
