/-
# `Lib.Bytes` — memory as bytes, and numbers in it

A stretch of memory is a function from offsets to bytes.  It is read in
slices and changed by patches; a number of `n` bytes is stored with its lowest
byte first.  What is read back depends only on the patches that overlap.
-/
import Mathlib

namespace Lib

abbrev Bytes := Nat → UInt8

namespace Bytes

def slice (d : Bytes) (o n : Nat) : List UInt8 := (List.range n).map fun i => d (o + i)

/-- The bytes `bs` are copied to `o`. -/
def patch (d : Bytes) (o : Nat) (bs : List UInt8) : Bytes :=
  fun i => if i < o then d i else (bs[i - o]?).getD (d i)

/-- The `n` low bytes of a number, lowest first. -/
def encode : Nat → Nat → List UInt8
  | 0, _ => []
  | n + 1, v => UInt8.ofNat v :: encode n (v / 256)

/-- The number some bytes stand for. -/
def decode : List UInt8 → Nat
  | [] => 0
  | b :: bs => b.toNat + 256 * decode bs

@[simp] theorem length_slice (d : Bytes) (o n : Nat) : (slice d o n).length = n := by
  simp [slice]

theorem slice_add (d : Bytes) (o m n : Nat) :
    slice d o (m + n) = slice d o m ++ slice d (o + m) n := by
  simp only [slice, List.range_add, List.map_append, List.map_map, Function.comp_def, Nat.add_assoc]

@[simp] theorem length_encode (n v : Nat) : (encode n v).length = n := by
  induction n generalizing v with
  | zero => rfl
  | succ n ih => rw [encode, List.length_cons, ih]

theorem decode_encode (n v : Nat) : decode (encode n v) = v % 256 ^ n := by
  induction n generalizing v with
  | zero => simp [encode, decode, Nat.mod_one]
  | succ n ih =>
    have hpow : 256 ^ (n + 1) = 256 * 256 ^ n := Nat.pow_succ'
    rw [encode, decode, ih, UInt8.toNat_ofNat', hpow, Nat.mod_mul]

theorem decode_encode_of_lt {n v : Nat} (h : v < 256 ^ n) : decode (encode n v) = v := by
  rw [decode_encode, Nat.mod_eq_of_lt h]

theorem decode_lt (bs : List UInt8) : decode bs < 256 ^ bs.length := by
  induction bs with
  | nil => exact Nat.one_pos
  | cons b bs ih =>
    have hb : b.toNat < 256 := b.toNat_lt
    rw [decode, List.length_cons, Nat.pow_succ]
    omega

theorem patch_of_lt {d : Bytes} {o i : Nat} {bs : List UInt8} (h : i < o) :
    patch d o bs i = d i := if_pos h

theorem patch_of_ge {d : Bytes} {o i : Nat} {bs : List UInt8} (h : o + bs.length ≤ i) :
    patch d o bs i = d i := by
  rw [patch, if_neg (by omega), List.getElem?_eq_none (by omega)]
  rfl

theorem slice_patch_of_disjoint {d : Bytes} {o o' n : Nat} {bs : List UInt8}
    (h : o' + n ≤ o ∨ o + bs.length ≤ o') : slice (patch d o bs) o' n = slice d o' n := by
  refine List.map_congr_left ?_
  intro i hi
  have hi' := List.mem_range.mp hi
  rcases h with h | h
  · exact patch_of_lt (by omega)
  · exact patch_of_ge (by omega)

theorem slice_patch_inside {d : Bytes} {o k n : Nat} {bs : List UInt8} (h : k + n ≤ bs.length) :
    slice (patch d o bs) (o + k) n = (bs.drop k).take n := by
  refine List.ext_getElem (by simp; omega) ?_
  intro i hi hi'
  rw [length_slice] at hi
  have hk : o + k + i - o = k + i := by omega
  simp only [slice, List.getElem_map, List.getElem_range, List.getElem_take, List.getElem_drop]
  rw [patch, if_neg (by omega), hk, List.getElem?_eq_getElem (by omega)]
  rfl

theorem slice_patch (d : Bytes) (o : Nat) (bs : List UInt8) :
    slice (patch d o bs) o bs.length = bs := by
  have h : slice (patch d o bs) (o + 0) bs.length = _ := slice_patch_inside (by omega)
  rw [Nat.add_zero, List.drop_zero, List.take_length] at h
  exact h

@[simp] theorem patch_nil (d : Bytes) (o : Nat) : patch d o [] = d := by
  funext i
  simp [patch]

theorem patch_congr {d d' : Bytes} {i : Nat} (h : d i = d' i) (o : Nat) (bs : List UInt8) :
    patch d o bs i = patch d' o bs i := by
  rw [patch, patch, h]

theorem patch_append (d : Bytes) (o : Nat) (as bs : List UInt8) :
    patch d o (as ++ bs) = patch (patch d o as) (o + as.length) bs := by
  funext i
  rw [patch, patch]
  split
  · next h => rw [if_pos (by omega), patch_of_lt h]
  · next h =>
      split
      · next h' =>
          rw [patch, if_neg h, List.getElem?_append_left (by omega)]
      · next h' =>
          rw [List.getElem?_append_right (by omega), patch_of_ge (by omega)]
          congr 2
          omega

/-! ## Words -/

/-- The `uint` in place `i` of an array. -/
def word (d : Bytes) (i : Nat) : Nat := decode (slice d (4 * i) 4)

def setWord (d : Bytes) (i v : Nat) : Bytes := patch d (4 * i) (encode 4 v)

theorem word_zero (i : Nat) : word (fun _ => 0) i = 0 := rfl

theorem word_setWord_self {d : Bytes} {i v : Nat} (h : v < 2 ^ 32) :
    word (setWord d i v) i = v := by
  have hs := slice_patch d (4 * i) (encode 4 v)
  rw [length_encode] at hs
  rw [word, setWord, hs, decode_encode_of_lt h]

theorem word_setWord_of_ne {d : Bytes} {i j v : Nat} (h : j ≠ i) :
    word (setWord d i v) j = word d j := by
  rw [word, setWord, slice_patch_of_disjoint]
  · rfl
  · rw [length_encode]
    omega

end Bytes

end Lib
