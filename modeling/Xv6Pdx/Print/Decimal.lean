/-
# `Print.Decimal` — a number is printed as its numeral and read back

Both `printint`s, called with base 10 and a sign, print the canonical decimal
numeral of every `int`, and fit into their array while they do.  `atoi` reads
the numeral back.  The most negative `int` has no negation, but the arithmetic
wraps in both directions and nothing is lost.
-/
import Xv6Pdx.Lib.Decimal
import Xv6Pdx.Print.Model

namespace Xv6Pdx.Print

open Lib Decimal
open Fs (toInt toUint)

/-! ## Printing -/

/-- The loop stores the numeral of `x` from its end, if it has the room for it. -/
theorem fill_numeral {digits : List Char} (hdig : ∀ d, d < 10 → digits.getD d '\x00' = d.digitChar)
    {room k x : Nat} (hk : k ≤ room) (hx : x < 10 ^ (k + 1)) :
    ∃ buf, fill digits 10 (room + 1) x = some buf ∧ buf.length ≤ k + 1 ∧
      Numeral x buf.reverse := by
  have hd : x % 10 < 10 := Nat.mod_lt _ (by decide)
  induction k generalizing room x with
  | zero =>
    have hz : x / 10 = 0 := by omega
    have hm : x % 10 = x := by omega
    refine ⟨[x.digitChar], ?_, Nat.le_refl _, .single (by omega)⟩
    rw [fill, if_pos hz, hdig _ hd, hm]
  | succ k ih =>
    by_cases hz : x / 10 = 0
    · have hm : x % 10 = x := by omega
      refine ⟨[x.digitChar], ?_, by simp, .single (by omega)⟩
      rw [fill, if_pos hz, hdig _ hd, hm]
    · obtain ⟨room, rfl⟩ : ∃ r, room = r + 1 := ⟨room - 1, by omega⟩
      have hk' : k ≤ room := by omega
      have hx' : x / 10 < 10 ^ (k + 1) := by omega
      obtain ⟨buf, hbuf, hlen, hnum⟩ := ih hk' hx' (Nat.mod_lt _ (by decide))
      refine ⟨(x % 10).digitChar :: buf, ?_, by simpa using hlen, ?_⟩
      · rw [fill, if_neg hz, hbuf, hdig _ hd]
        rfl
      · have hsnoc := hnum.snoc hz hd
        rw [Nat.div_add_mod] at hsnoc
        rwa [List.reverse_cons]

/-- An `int` or its negation, as the `uint` that `printint` takes apart. -/
theorem natAbs_of_int {x : Int} (hlo : -2 ^ 31 ≤ x) (hhi : x < 2 ^ 31) :
    (if x < 0 then toUint (-x) else toUint x) = x.natAbs := by
  simp only [toUint]
  split <;> omega

theorem printDigits_numeral {digits : List Char}
    (hdig : ∀ d, d < 10 → digits.getD d '\x00' = d.digitChar) {x : Int} (hlo : -2 ^ 31 ≤ x)
    (hhi : x < 2 ^ 31) : ∃ t, printDigits digits x 10 true = some t ∧ SignedNumeral x t := by
  -- Ten digits at most, so that the array also has room for the sign.
  obtain ⟨buf, hbuf, hlen, hnum⟩ :=
    fill_numeral hdig (show 9 ≤ 15 by decide) (show x.natAbs < 10 ^ (9 + 1) by omega)
  have habs := natAbs_of_int hlo hhi
  have hroom : buf.length < BUFSIZE := Nat.lt_of_le_of_lt hlen (by decide)
  by_cases hneg : x < 0
  · refine ⟨'-' :: buf.reverse, ?_, buf.reverse, hnum, (if_pos hneg).symm⟩
    rw [if_pos hneg] at habs
    simp only [printDigits, Bool.true_and, hneg, decide_true, if_true, habs]
    rw [BUFSIZE, hbuf]
    simp [putSign, hroom]
  · refine ⟨buf.reverse, ?_, buf.reverse, hnum, (if_neg hneg).symm⟩
    rw [if_neg hneg] at habs
    simp only [printDigits, Bool.true_and, hneg, decide_false, Bool.false_eq_true, if_false, habs]
    rw [BUFSIZE, hbuf]
    rfl

theorem lower_digits (d : Nat) (h : d < 10) :
    "0123456789abcdef".toList.getD d '\x00' = d.digitChar := by
  have hall : ∀ d, d < 10 → "0123456789abcdef".toList.getD d '\x00' = d.digitChar := by decide
  exact hall d h

theorem upper_digits (d : Nat) (h : d < 10) :
    "0123456789ABCDEF".toList.getD d '\x00' = d.digitChar := by
  have hall : ∀ d, d < 10 → "0123456789ABCDEF".toList.getD d '\x00' = d.digitChar := by decide
  exact hall d h

theorem Kernel.printint_numeral {x : Int} (hlo : -2 ^ 31 ≤ x) (hhi : x < 2 ^ 31) :
    ∃ t, Kernel.printint x 10 true = some t ∧ SignedNumeral x t :=
  printDigits_numeral lower_digits hlo hhi

theorem User.printint_numeral {x : Int} (hlo : -2 ^ 31 ≤ x) (hhi : x < 2 ^ 31) :
    ∃ t, User.printint x 10 true = some t ∧ SignedNumeral x t :=
  printDigits_numeral upper_digits hlo hhi

/-! ## No format overruns the array -/

theorem fill_total (digits : List Char) {base room x : Nat} (hroom : room ≠ 0)
    (hx : x < base ^ room) : ∃ buf, fill digits base room x = some buf := by
  induction room generalizing x with
  | zero => exact absurd rfl hroom
  | succ room ih =>
    by_cases hz : x / base = 0
    · exact ⟨_, by rw [fill, if_pos hz]⟩
    · have hroom : room ≠ 0 := by
        rintro rfl
        exact hz (Nat.div_eq_of_lt (by simpa using hx))
      obtain ⟨buf, hbuf⟩ := ih (x := x / base) hroom
        (Nat.div_lt_of_lt_mul (by rwa [Nat.pow_succ'] at hx))
      exact ⟨_, by rw [fill, if_neg hz, hbuf]; rfl⟩

theorem printDigits_hex (digits : List Char) (x : Int) :
    ∃ t, printDigits digits x 16 false = some t := by
  have hx : toUint x < 16 ^ BUFSIZE := by
    simp only [toUint, BUFSIZE]
    omega
  obtain ⟨buf, hbuf⟩ := fill_total digits (by decide) hx
  refine ⟨buf.reverse, ?_⟩
  simp [printDigits, hbuf, putSign]

theorem emit_total {a b : Option (List Char)} (ha : ∃ t, a = some t) (hb : ∃ t, b = some t) :
    ∃ t, emit a b = some t := by
  obtain ⟨o, rfl⟩ := ha
  obtain ⟨r, rfl⟩ := hb
  exact ⟨o ++ r, rfl⟩

theorem Kernel.directive_total (mem : Strings) (c : Char) (args : List Nat) :
    ∃ t, (directive mem c args).1 = some t := by
  obtain ⟨t, ht, -⟩ := printint_numeral (Syscall.toInt_range (args.headD 0)).1
    (Syscall.toInt_range (args.headD 0)).2
  obtain ⟨t', ht'⟩ := printDigits_hex "0123456789abcdef".toList (toInt (args.headD 0))
  unfold directive
  split_ifs
  · exact ⟨t, ht⟩
  · exact ⟨t', ht'⟩
  all_goals exact ⟨_, rfl⟩

theorem Kernel.cprintf_total (mem : Strings) (fmt : List Char) (args : List Nat) :
    ∃ t, cprintf mem fmt args = some t := by
  fun_induction cprintf mem fmt args with
  | case1 args => exact ⟨[], rfl⟩
  | case2 c fmt args hc ih => exact emit_total ⟨[c], rfl⟩ ih
  | case3 c args hc => exact ⟨[], rfl⟩
  | case4 c args hc c' fmt ih => exact emit_total (directive_total mem c' args) ih

theorem User.directive_total (mem : Strings) (c : Char) (args : List Nat) :
    ∃ t, (directive mem c args).1 = some t := by
  obtain ⟨t, ht, -⟩ := printint_numeral (Syscall.toInt_range (args.headD 0)).1
    (Syscall.toInt_range (args.headD 0)).2
  obtain ⟨t', ht'⟩ := printDigits_hex "0123456789ABCDEF".toList (toInt (args.headD 0))
  unfold directive
  split_ifs
  · exact ⟨t, ht⟩
  · exact ⟨t', ht'⟩
  all_goals exact ⟨_, rfl⟩

theorem User.printf_total (mem : Strings) (fmt : List Char) (args : List Nat) :
    ∃ t, printf mem fmt args = some t := by
  unfold printf
  generalize false = percent
  fun_induction printfLoop mem percent fmt args with
  | case1 percent args => exact ⟨[], rfl⟩
  | case2 fmt args ih => exact ih
  | case3 c fmt args hc ih => exact emit_total ⟨[c], rfl⟩ ih
  | case4 c fmt args ih => exact emit_total (directive_total mem c args) ih

/-! ## Reading -/

theorem bmod_step (v c : Int) :
    (v.bmod (2 ^ 32) * 10 + c).bmod (2 ^ 32) = (v * 10 + c).bmod (2 ^ 32) := by
  simp only [Int.bmod]
  omega

/-- Over digits, the loop is the value of the numeral modulo `2^32`. -/
theorem User.atoiLoop_digits {ds : List Char} (h : ∀ c ∈ ds, IsDigit c) (v : Nat) :
    atoiLoop ((v : Int).bmod (2 ^ 32)) ds = (valueFrom v ds : Int).bmod (2 ^ 32) := by
  induction ds generalizing v with
  | nil => rfl
  | cons c ds ih =>
    have hc : '0' ≤ c ∧ c ≤ '9' := h c List.mem_cons_self
    have hle : '0'.toNat ≤ c.toNat := hc.1
    have hstep : v * 10 + ((c.toNat : Int) - '0'.toNat) =
        ((10 * v + (c.toNat - '0'.toNat) : Nat) : Int) := by omega
    rw [atoiLoop, if_pos hc, Int.add_sub_assoc, bmod_step, hstep,
      ih (fun c hc => h c (List.mem_cons_of_mem _ hc))]
    rfl

theorem User.atoi_of_digits {ds : List Char} (hne : ds ≠ []) (h : ∀ c ∈ ds, IsDigit c) :
    atoi ds = (value ds : Int).bmod (2 ^ 32) := by
  obtain ⟨c, ds, rfl⟩ := List.exists_cons_of_ne_nil hne
  have hc : IsDigit c := h c List.mem_cons_self
  have hloop := atoiLoop_digits h 0
  have hblank : c ≠ ' ' := hc.ne (by decide)
  have hplus : c ≠ '+' := hc.ne (by decide)
  have hminus : c ≠ '-' := hc.ne (by decide)
  simp only [atoi, List.dropWhile, hblank, decide_false, List.head?_cons, Option.some.injEq, hplus,
    hminus, or_self, if_false, Int.one_mul]
  have hz : atoiLoop 0 (c :: ds) = _ := hloop
  rw [hz, Int.bmod_bmod]
  rfl

theorem User.atoi_of_minus {ds : List Char} (h : ∀ c ∈ ds, IsDigit c) :
    atoi ('-' :: ds) = (-(value ds : Int)).bmod (2 ^ 32) := by
  have hloop : atoiLoop 0 ds = _ := atoiLoop_digits h 0
  have hblank : ('-' : Char) ≠ ' ' := by decide
  simp only [atoi, List.dropWhile, hblank, decide_false, List.head?_cons, if_true, or_true,
    List.tail_cons, hloop]
  simp only [Int.bmod, value]
  omega

/-- `atoi` reads the numeral of an `int` as that `int`. -/
theorem User.atoi_numeral {x : Int} (hlo : -2 ^ 31 ≤ x) (hhi : x < 2 ^ 31) {t : List Char}
    (h : SignedNumeral x t) : atoi t = x := by
  obtain ⟨ds, hds, rfl⟩ := h
  have hself : x.bmod (2 ^ 32) = x := by
    simp only [Int.bmod]
    omega
  split
  · next hneg =>
      have habs : -((x.natAbs : Nat) : Int) = x := by omega
      rw [atoi_of_minus hds.digits, hds.value_eq, habs, hself]
  · next hpos =>
      have habs : ((x.natAbs : Nat) : Int) = x := by omega
      rw [atoi_of_digits hds.nonempty hds.digits, hds.value_eq, habs, hself]

/-- Both `printint`s fit into their array and print the numeral of `x`, and
`atoi` makes `x` of it. -/
theorem printint_atoi_inverse (x : Int) (hlo : -2 ^ 31 ≤ x) (hhi : x < 2 ^ 31) :
    (∃ t, Kernel.printint x 10 true = some t ∧ SignedNumeral x t ∧ User.atoi t = x) ∧
      ∃ t, User.printint x 10 true = some t ∧ SignedNumeral x t ∧ User.atoi t = x := by
  obtain ⟨t, ht, hnum⟩ := Kernel.printint_numeral hlo hhi
  obtain ⟨t', ht', hnum'⟩ := User.printint_numeral hlo hhi
  exact ⟨⟨t, ht, hnum, User.atoi_numeral hlo hhi hnum⟩,
    t', ht', hnum', User.atoi_numeral hlo hhi hnum'⟩

theorem printint_atoi_most_negative :
    (∃ t, Kernel.printint (-2 ^ 31) 10 true = some t ∧ SignedNumeral (-2 ^ 31) t ∧
      User.atoi t = -2 ^ 31) ∧
    ∃ t, User.printint (-2 ^ 31) 10 true = some t ∧ SignedNumeral (-2 ^ 31) t ∧
      User.atoi t = -2 ^ 31 :=
  printint_atoi_inverse (-2 ^ 31) (by decide) (by decide)

example : User.printint (-2 ^ 31) 10 true = some "-2147483648".toList := by decide

end Xv6Pdx.Print
