/-
# `Lib.RingBuffer` — ring buffers with free-running counters

A buffer of `size` cells and two counters that are never reset: they count
what has ever been put in and taken out, modulo `modulus`, and a cell is
chosen by the counter modulo `size`.  When `size` divides `modulus` and is
smaller, the counters can be compared across any number of wraparounds.

`Holds r out inp` is the abstract view: `inp` went in, `out` has come out, and
the cells hold the difference.
-/
import Mathlib

namespace Lib

/-- The cells and the two counters. -/
structure RingBuffer (α : Type) where
  data : Nat → α
  nread : Nat
  nwrite : Nat

namespace RingBuffer

variable {α : Type} (size modulus : Nat)

def isFull (r : RingBuffer α) : Prop := r.nwrite = (r.nread + size) % modulus

instance (r : RingBuffer α) : Decidable (r.isFull size modulus) :=
  inferInstanceAs (Decidable (_ = _))

def isEmpty (r : RingBuffer α) : Prop := r.nread = r.nwrite

instance (r : RingBuffer α) : Decidable r.isEmpty := inferInstanceAs (Decidable (_ = _))

def push (r : RingBuffer α) (a : α) : RingBuffer α :=
  { r with
    data := Function.update r.data (r.nwrite % size) a
    nwrite := (r.nwrite + 1) % modulus }

def front (r : RingBuffer α) : α := r.data (r.nread % size)

def pop (r : RingBuffer α) : RingBuffer α := { r with nread := (r.nread + 1) % modulus }

def back (n : Nat) : Nat := if n = 0 then modulus - 1 else n - 1

def unpush (r : RingBuffer α) : RingBuffer α := { r with nwrite := back modulus r.nwrite }

/-- The cells between the two counters. -/
def contents (r : RingBuffer α) : List α :=
  (List.range ((r.nwrite + (modulus - r.nread)) % modulus)).map fun i =>
    r.data ((r.nread + i) % modulus % size)

/-- `inp` has been put in, and `out` has been taken out again. -/
structure Holds (r : RingBuffer α) (out inp : List α) : Prop where
  nread : r.nread = out.length % modulus
  nwrite : r.nwrite = inp.length % modulus
  order : out <+: inp
  room : inp.length ≤ out.length + size
  data : ∀ i, out.length ≤ i → i < inp.length → inp[i]? = some (r.data (i % size))

section

variable {size modulus} {r : RingBuffer α} {out inp : List α}

/-- Counters less than a wraparound apart are equal only if the counts are. -/
theorem mod_inj {m n : Nat} (hle : m ≤ n) (hlt : n - m < modulus)
    (h : m % modulus = n % modulus) : m = n := by
  have h0 : (n - m) % modulus = 0 := Nat.sub_mod_eq_zero_of_mod_eq h.symm
  rw [Nat.mod_eq_of_lt hlt] at h0
  omega

theorem Holds.length_le (h : Holds size modulus r out inp) : out.length ≤ inp.length :=
  h.order.length_le

theorem Holds.isEmpty_iff (h : Holds size modulus r out inp) (hlt : size < modulus) :
    r.isEmpty ↔ out = inp := by
  have hroom := h.room
  rw [isEmpty, h.nread, h.nwrite]
  constructor
  · intro he
    exact h.order.eq_of_length (mod_inj h.length_le (by omega) he)
  · intro he
    rw [he]

theorem Holds.isFull_iff (h : Holds size modulus r out inp) (hlt : size < modulus) :
    r.isFull size modulus ↔ inp.length = out.length + size := by
  have hroom := h.room
  have hle := h.length_le
  rw [isFull, h.nread, h.nwrite, Nat.mod_add_mod]
  constructor
  · intro he
    exact mod_inj hroom (by omega) he
  · intro he
    rw [he]

/-- A cell other than the next one to be written is not touched by a push. -/
theorem mod_ne_of_close {i n : Nat} (hi : i < n) (hn : n < i + size) : i % size ≠ n % size := by
  intro he
  exact absurd (mod_inj (Nat.le_of_lt hi) (by omega) he) (Nat.ne_of_lt hi)

theorem Holds.push (h : Holds size modulus r out inp) (hdvd : size ∣ modulus)
    (hroom : inp.length < out.length + size) (a : α) :
    Holds size modulus (r.push size modulus a) out (inp ++ [a]) := by
  have hidx : r.nwrite % size = inp.length % size := by
    rw [h.nwrite, Nat.mod_mod_of_dvd _ hdvd]
  refine ⟨h.nread, ?_, h.order.trans (List.prefix_append _ _), ?_, ?_⟩
  · show (r.nwrite + 1) % modulus = _
    rw [h.nwrite, Nat.mod_add_mod, List.length_append, List.length_singleton]
  · rw [List.length_append, List.length_singleton]
    omega
  · intro i hi hlt
    rw [List.length_append, List.length_singleton] at hlt
    show _ = some (Function.update r.data (r.nwrite % size) a (i % size))
    rcases Nat.lt_or_eq_of_le (Nat.lt_succ_iff.mp hlt) with hi' | rfl
    · rw [List.getElem?_append_left hi', h.data i hi hi', hidx,
        Function.update_of_ne (mod_ne_of_close hi' (by omega))]
    · rw [List.getElem?_concat_length, hidx, Function.update_self]

theorem back_mod (hpos : 0 < modulus) (n : Nat) :
    back modulus ((n + 1) % modulus) = n % modulus := by
  have hlt := Nat.mod_lt n hpos
  rw [back, ← Nat.mod_add_mod]
  generalize n % modulus = k at hlt
  have hcase : k + 1 < modulus ∨ k + 1 = modulus := Nat.lt_or_eq_of_le hlt
  rcases hcase with h | h
  · rw [Nat.mod_eq_of_lt h, if_neg (Nat.succ_ne_zero k), Nat.add_sub_cancel]
  · rw [h, Nat.mod_self, if_pos rfl, ← h, Nat.add_sub_cancel]

theorem Holds.unpush {a : α} (h : Holds size modulus r out (inp ++ [a])) (hpos : 0 < modulus)
    (hle : out.length ≤ inp.length) : Holds size modulus (r.unpush modulus) out inp := by
  have hroom := h.room
  rw [List.length_append, List.length_singleton] at hroom
  refine ⟨h.nread, ?_, ?_, by omega, ?_⟩
  · show back modulus r.nwrite = _
    rw [h.nwrite, List.length_append, List.length_singleton, back_mod hpos]
  · exact List.prefix_of_prefix_length_le h.order (List.prefix_append _ _) hle
  · intro i hi hlt
    have := h.data i hi (by rw [List.length_append, List.length_singleton]; omega)
    rwa [List.getElem?_append_left hlt] at this

theorem Holds.front (h : Holds size modulus r out inp) (hdvd : size ∣ modulus)
    (hne : out.length < inp.length) : inp[out.length]? = some (r.front size) := by
  rw [h.data _ (Nat.le_refl _) hne, RingBuffer.front, h.nread, Nat.mod_mod_of_dvd _ hdvd]

theorem Holds.pop (h : Holds size modulus r out inp) (hdvd : size ∣ modulus)
    (hne : out.length < inp.length) :
    Holds size modulus (r.pop modulus) (out ++ [r.front size]) inp := by
  have hfront := h.front hdvd hne
  have hroom := h.room
  refine ⟨?_, h.nwrite, ?_, ?_, ?_⟩
  · show (r.nread + 1) % modulus = _
    rw [h.nread, Nat.mod_add_mod, List.length_append, List.length_singleton]
  · obtain ⟨rest, hrest⟩ := h.order
    cases rest with
    | nil =>
      rw [List.append_nil] at hrest
      rw [hrest] at hne
      exact absurd hne (Nat.lt_irrefl _)
    | cons b rest =>
      rw [← hrest, List.getElem?_append_right (Nat.le_refl _), Nat.sub_self] at hfront
      have hb : b = r.front size := Option.some.inj hfront
      exact ⟨rest, by rw [← hb, ← hrest, List.append_assoc]; rfl⟩
  · rw [List.length_append, List.length_singleton]
    omega
  · intro i hi hlt
    rw [List.length_append, List.length_singleton] at hi
    exact h.data i (by omega) hlt

/-- The distance of two counters less than a wraparound apart. -/
theorem distance {m n : Nat} (hle : m ≤ n) (hlt : n - m < modulus) :
    (n % modulus + (modulus - m % modulus)) % modulus = n - m := by
  have hm : m % modulus < modulus := Nat.mod_lt _ (Nat.zero_lt_of_lt hlt)
  have hsplit : n + (modulus - m % modulus) = (n - m) + (m - m % modulus + modulus) := by
    have := Nat.mod_le m modulus
    omega
  obtain ⟨k, hk⟩ : modulus ∣ m - m % modulus + modulus :=
    Nat.dvd_add (Nat.dvd_sub_mod _) (Nat.dvd_refl _)
  rw [Nat.mod_add_mod, hsplit, hk, Nat.add_mul_mod_self_left, Nat.mod_eq_of_lt hlt]

theorem Holds.count (h : Holds size modulus r out inp) (hlt : size < modulus) :
    (r.nwrite + (modulus - r.nread)) % modulus = inp.length - out.length := by
  have hroom := h.room
  rw [h.nread, h.nwrite, distance h.length_le (by omega)]

/-- What is in the buffer is what has gone in and not come out. -/
theorem Holds.contents (h : Holds size modulus r out inp) (hdvd : size ∣ modulus)
    (hlt : size < modulus) : out ++ r.contents size modulus = inp := by
  obtain ⟨rest, hrest⟩ := h.order
  have hlen : inp.length = out.length + rest.length := by
    rw [← hrest, List.length_append]
  have hcont : r.contents size modulus = rest := by
    refine List.ext_getElem? ?_
    intro i
    rw [RingBuffer.contents, h.count hlt, List.getElem?_map]
    by_cases hi : i < rest.length
    · have hdata := h.data (out.length + i) (Nat.le_add_right _ _) (by omega)
      rw [← hrest, List.getElem?_append_right (Nat.le_add_right _ _),
        Nat.add_sub_cancel_left] at hdata
      rw [List.getElem?_range (by omega), hdata, h.nread, Option.map_some, Nat.mod_add_mod,
        Nat.mod_mod_of_dvd _ hdvd]
    · rw [List.getElem?_eq_none (by rw [List.length_range]; omega),
        List.getElem?_eq_none (by omega)]
      rfl
  rw [hcont, hrest]

end

end RingBuffer

end Lib
