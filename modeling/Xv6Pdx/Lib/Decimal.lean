/-
# `Lib.Decimal` — decimal numerals

A numeral is a list of digits, the highest first.  The canonical one of a number
has no leading zero, unless it is the numeral of zero.  It grows at its low end:
the numeral of `10 * n + d` is that of `n` followed by the digit `d`.
-/
import Mathlib

namespace Lib.Decimal

/-- A character between `0` and `9`. -/
def IsDigit (c : Char) : Prop := '0' ≤ c ∧ c ≤ '9'

/-- The number a string of digits stands for, read after `v`. -/
def valueFrom (v : Nat) (ds : List Char) : Nat :=
  ds.foldl (fun v c => 10 * v + (c.toNat - '0'.toNat)) v

/-- The number a string of digits stands for. -/
def value (ds : List Char) : Nat := valueFrom 0 ds

/-- `ds` is the canonical numeral of `n`. -/
structure Numeral (n : Nat) (ds : List Char) : Prop where
  nonempty : ds ≠ []
  digits : ∀ c ∈ ds, IsDigit c
  lead : ds.head? = some '0' → ds = ['0']
  value_eq : value ds = n

/-- `t` is the canonical numeral of `x`, after a `-` when `x` is negative. -/
def SignedNumeral (x : Int) (t : List Char) : Prop :=
  ∃ ds, Numeral x.natAbs ds ∧ t = if x < 0 then '-' :: ds else ds

theorem value_snoc (ds : List Char) (c : Char) :
    value (ds ++ [c]) = 10 * value ds + (c.toNat - '0'.toNat) := by
  simp [value, valueFrom]

/-! ## Digits -/

theorem isDigit_digitChar {d : Nat} (h : d < 10) : IsDigit d.digitChar := by
  have hall : ∀ d, d < 10 → '0' ≤ Nat.digitChar d ∧ Nat.digitChar d ≤ '9' := by decide
  exact hall d h

theorem digitChar_value {d : Nat} (h : d < 10) : d.digitChar.toNat - '0'.toNat = d := by
  have hall : ∀ d, d < 10 → (Nat.digitChar d).toNat - '0'.toNat = d := by decide
  exact hall d h

theorem IsDigit.ne {c e : Char} (h : IsDigit c) (he : ¬ ('0' ≤ e ∧ e ≤ '9')) : c ≠ e := by
  rintro rfl
  exact he h

/-! ## The numeral of a number -/

theorem Numeral.single {d : Nat} (h : d < 10) : Numeral d [d.digitChar] := by
  refine ⟨List.cons_ne_nil _ _, ?_, ?_, ?_⟩
  · intro c hc
    rw [List.mem_singleton.mp hc]
    exact isDigit_digitChar h
  · intro hz
    rw [List.head?_cons, Option.some.injEq] at hz
    rw [hz]
  · have hv := value_snoc [] d.digitChar
    rw [List.nil_append, digitChar_value h] at hv
    exact hv.trans (Nat.zero_add d)

theorem Numeral.snoc {n d : Nat} {ds : List Char} (h : Numeral n ds) (hn : n ≠ 0) (hd : d < 10) :
    Numeral (10 * n + d) (ds ++ [d.digitChar]) := by
  refine ⟨by simp, ?_, ?_, ?_⟩
  · intro c hc
    rcases List.mem_append.mp hc with hc | hc
    · exact h.digits c hc
    · rw [List.mem_singleton.mp hc]
      exact isDigit_digitChar hd
  · -- A leading zero would make `ds` the numeral of zero.
    intro hz
    rw [List.head?_append_of_ne_nil _ h.nonempty] at hz
    have hv := h.value_eq
    rw [h.lead hz] at hv
    exact absurd hv.symm hn
  · rw [value_snoc, h.value_eq, digitChar_value hd]

/-! ## How long a numeral is -/

theorem valueFrom_eq (v : Nat) (ds : List Char) :
    valueFrom v ds = v * 10 ^ ds.length + value ds := by
  induction ds generalizing v with
  | nil => simp [valueFrom, value]
  | cons c ds ih =>
    have hv : valueFrom v (c :: ds) = valueFrom (10 * v + (c.toNat - '0'.toNat)) ds := rfl
    have h0 : value (c :: ds) = valueFrom (10 * 0 + (c.toNat - '0'.toNat)) ds := rfl
    rw [hv, h0, ih, ih, List.length_cons, Nat.pow_succ]
    ring

theorem value_cons (c : Char) (ds : List Char) :
    value (c :: ds) = (c.toNat - '0'.toNat) * 10 ^ ds.length + value ds := by
  have h : value (c :: ds) = valueFrom (10 * 0 + (c.toNat - '0'.toNat)) ds := rfl
  rw [h, valueFrom_eq, Nat.mul_zero, Nat.zero_add]

theorem IsDigit.value_le {c : Char} (h : IsDigit c) : c.toNat - '0'.toNat ≤ 9 := by
  have hhi : c.toNat ≤ '9'.toNat := h.2
  have hnine : '9'.toNat = '0'.toNat + 9 := rfl
  omega

theorem value_lt {ds : List Char} (h : ∀ c ∈ ds, IsDigit c) : value ds < 10 ^ ds.length := by
  induction ds with
  | nil => exact Nat.one_pos
  | cons c ds ih =>
    have hc := (h c List.mem_cons_self).value_le
    have hds := ih fun c hc => h c (List.mem_cons_of_mem _ hc)
    have hmul := Nat.mul_le_mul_right (10 ^ ds.length) hc
    rw [value_cons, List.length_cons, Nat.pow_succ]
    omega

theorem Numeral.lt_pow {n : Nat} {ds : List Char} (h : Numeral n ds) : n < 10 ^ ds.length := by
  rw [← h.value_eq]
  exact value_lt h.digits

/-- A numeral of `k + 1` digits needs all of them, unless it is that of zero. -/
theorem Numeral.pow_le {n k : Nat} {ds : List Char} (h : Numeral n ds) (hk : ds.length = k + 1) :
    10 ^ k ≤ n ∨ k = 0 := by
  obtain ⟨c, ds, rfl⟩ := List.exists_cons_of_ne_nil h.nonempty
  have hlen : ds.length = k := Nat.succ.inj hk
  by_cases hlead : c = '0'
  · have hnil := h.lead (by rw [hlead]; rfl)
    rw [(List.cons.inj hnil).2] at hlen
    exact .inr hlen.symm
  · have hlow : '0'.toNat < c.toNat :=
      lt_of_le_of_ne (h.digits c List.mem_cons_self).1
        fun he => hlead (Char.ext (UInt32.ext he.symm))
    have hone : 1 ≤ c.toNat - '0'.toNat := by omega
    have hmul := Nat.mul_le_mul_right (10 ^ ds.length) hone
    rw [← h.value_eq, value_cons, ← hlen]
    omega

end Lib.Decimal
