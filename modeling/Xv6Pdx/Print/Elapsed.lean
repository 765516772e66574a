/-
# `Print.Elapsed` — times in seconds and thousandths

`procdump` prints for each process the time since it was created and the CPU
time it has used, `time` the time its command took, and `ps` both columns of a
`struct uproc`.  All of them print a number of ticks as seconds, a point, and
the thousandths padded to three digits.

Where the ticks are kept in an `uint`, the text is exact for every number.
`procdump` keeps the elapsed ticks in an `int`: from `2^31` ticks on its quotient
and its remainder are negative, and the text has a `-` in it.
-/
import Xv6Pdx.Print.Decimal
import Xv6Pdx.Syscall.Getprocs

namespace Xv6Pdx.Print

open Lib Decimal
open Fs (toInt toUint)
open Ptable (ProcPtr)

/-! ## The programs -/

/-- `if (rem < 100) print("0"); if (rem < 10) print("0");` -/
def pad (print : List Char → List Nat → Option (List Char)) (rem : Int) : Option (List Char) :=
  emit (if rem < 100 then print "0".toList [] else some [])
    (if rem < 10 then print "0".toList [] else some [])

/-- `p.parent ? p.parent->pid : p.pid`. -/
def shownParent (k : Ptable.Kernel) (p : ProcPtr) : Nat :=
  match (k.proc p).parent with
  | some parent => (k.proc parent).pid
  | none => (k.proc p).pid

/-- `int elapsedticks = ticks - p.start_ticks;` -/
def elapsedticks (k : Ptable.Kernel) (p : ProcPtr) : Int :=
  toInt (toUint ((k.ticks : Int) - (k.proc p).startTicks))

/-- What both versions of `procdump` print behind the seconds. -/
def dumpRest (mem : Strings) (k : Ptable.Kernel) (p : ProcPtr) : Option (List Char) :=
  let rem := (elapsedticks k p).tmod 1000
  let cpuSecs := toInt ((k.proc p).cpuTicksTotal / 1000)
  let cpuRem := toInt ((k.proc p).cpuTicksTotal % 1000)
  emit (pad (Kernel.cprintf mem) rem)
    (emit (Kernel.cprintf mem "%d\t%d.".toList [toUint rem, toUint cpuSecs])
      (emit (pad (Kernel.cprintf mem) cpuRem) (Kernel.cprintf mem "%d\n".toList [toUint cpuRem])))

/-- `procdumpP3P4(p, state)`; `name` is the address of `p.name`. -/
def procdumpP3P4 (mem : Strings) (k : Ptable.Kernel) (p : ProcPtr) (name state : Nat) :
    Option (List Char) :=
  let q := k.proc p
  let secs := (elapsedticks k p).tdiv 1000
  emit (Kernel.cprintf mem "%d\t%s\t%d\t%d\t%d\t%s\t%d\t%d\t%d.".toList
      [q.pid, name, q.uid, q.gid, shownParent k p, state, toUint q.priority, q.sz, toUint secs])
    (dumpRest mem k p)

def procdumpP2 (mem : Strings) (k : Ptable.Kernel) (p : ProcPtr) (name state : Nat) :
    Option (List Char) :=
  let q := k.proc p
  let secs := (elapsedticks k p).tdiv 1000
  emit (Kernel.cprintf mem "%d\t%s\t%d\t%d\t%d\t%s\t%d\t%d.".toList
      [q.pid, name, q.uid, q.gid, shownParent k p, state, q.sz, toUint secs])
    (dumpRest mem k p)

/-- What `time` prints of a command that ran from `start` to `out`. -/
def timeReport (mem : Strings) (argv1 start out : Nat) : Option (List Char) :=
  let elapsed := toUint ((out : Int) - start)
  let secs := elapsed / 1000
  let rem := elapsed % 1000
  emit (User.printf mem "%s ran in %d.".toList [argv1, secs])
    (emit (pad (User.printf mem) rem) (User.printf mem "%d seconds.\n".toList [rem]))

/-- The line of `ps` for one entry; `state` and `name` are the addresses of its strings. -/
def psLine (mem : Strings) (u : Syscall.UProc) (state name : Nat) : Option (List Char) :=
  let secs := toInt (u.elapsedTicks / 1000)
  let rem := toInt (u.elapsedTicks % 1000)
  let cpuSecs := toInt (u.cpuTotalTicks / 1000)
  let cpuRem := toInt (u.cpuTotalTicks % 1000)
  emit (User.printf mem "%d\t%d\t%d\t%s\t%s\t%d.".toList
      [u.pid, u.gid, u.ppid, state, name, toUint secs])
    (emit (pad (User.printf mem) rem)
      (emit (User.printf mem "%d\t%d.".toList [toUint rem, toUint cpuSecs])
        (emit (pad (User.printf mem) cpuRem)
          (User.printf mem "%d\t%d\n".toList [toUint cpuRem, u.size]))))

/-! ## What is wanted of the text -/

/-- `t` is `S.mmm` and stands for `v` thousandths. -/
def Clock (v : Nat) (t : List Char) : Prop :=
  ∃ s mmm, t = s ++ '.' :: mmm ∧ Numeral (value s) s ∧ mmm.length = 3 ∧ (∀ c ∈ mmm, IsDigit c) ∧
    1000 * value s + value mmm = v

/-- Between what is printed before and behind them, `line` has the two times. -/
def ShowsTimes (line head tail : Option (List Char)) (elapsed cpu : Nat) : Prop :=
  ∃ h e c t, head = some h ∧ tail = some t ∧ line = some (h ++ (e ++ '\t' :: (c ++ t))) ∧
    Clock elapsed e ∧ Clock cpu c

def ShowsTime (line head tail : Option (List Char)) (v : Nat) : Prop :=
  ∃ h e t, head = some h ∧ tail = some t ∧ line = some (h ++ (e ++ t)) ∧ Clock v e

/-! ## The formatters -/

@[simp] theorem emit_nil_left (r : Option (List Char)) : emit (some []) r = r := by
  cases r <;> rfl

@[simp] theorem emit_nil_right (r : Option (List Char)) : emit r (some []) = r := by
  cases r <;> simp [emit]

@[simp] theorem emit_some (o r : List Char) : emit (some o) (some r) = some (o ++ r) := rfl

theorem emit_assoc (a b c : Option (List Char)) : emit (emit a b) c = emit a (emit b c) := by
  cases a <;> cases b <;> cases c <;> simp [emit]

theorem toInt_toUint {x : Int} (hlo : -2 ^ 31 ≤ x) (hhi : x < 2 ^ 31) : toInt (toUint x) = x := by
  have hr := Syscall.toInt_range (toUint x)
  have hlt : toUint x < 2 ^ 32 := by
    simp only [toUint]
    omega
  have hu := Syscall.toUint_toInt hlt
  generalize toInt (toUint x) = y at *
  simp only [toUint] at hu
  omega

/-- What times need of a formatter. -/
structure Formats (print : List Char → List Nat → Option (List Char)) : Prop where
  nil : ∀ args, print [] args = some []
  plain : ∀ c fmt args, c ≠ '%' → print (c :: fmt) args = emit (some [c]) (print fmt args)
  decimal : ∀ fmt w args, ∃ t, SignedNumeral (toInt w) t ∧
    print ('%' :: 'd' :: fmt) (w :: args) = emit (some t) (print fmt args)

theorem Kernel.cprintf_formats (mem : Strings) : Formats (Kernel.cprintf mem) := by
  refine ⟨fun args => rfl, ?_, ?_⟩
  · intro c fmt args hc
    cases fmt <;> simp [Kernel.cprintf, hc]
  · intro fmt w args
    obtain ⟨t, ht, hnum⟩ := Kernel.printint_numeral (Syscall.toInt_range w).1
      (Syscall.toInt_range w).2
    refine ⟨t, hnum, ?_⟩
    rw [← ht]
    rfl

theorem User.printf_formats (mem : Strings) : Formats (User.printf mem) := by
  refine ⟨fun args => rfl, ?_, ?_⟩
  · intro c fmt args hc
    rw [User.printf, User.printfLoop, if_neg hc]
    rfl
  · intro fmt w args
    obtain ⟨t, ht, hnum⟩ := User.printint_numeral (Syscall.toInt_range w).1
      (Syscall.toInt_range w).2
    refine ⟨t, hnum, ?_⟩
    rw [← ht]
    rfl

/-- How many words a format takes that has only `%d` and `%s` in it. -/
def wordsOf : List Char → Option Nat
  | [] => some 0
  | c :: fmt =>
    if c ≠ '%' then wordsOf fmt
    else
      match fmt with
      | [] => none
      | c :: fmt => if c = 'd' ∨ c = 's' then (wordsOf fmt).map (· + 1) else none

theorem Kernel.cprintf_append (mem : Strings) {fmt : List Char} {n : Nat} (h : wordsOf fmt = some n)
    (args : List Nat) (hn : args.length = n) (fmt' : List Char) (args' : List Nat) :
    cprintf mem (fmt ++ fmt') (args ++ args') =
      emit (cprintf mem fmt args) (cprintf mem fmt' args') := by
  subst hn
  fun_induction wordsOf fmt generalizing args with
  | case1 =>
    obtain rfl := List.length_eq_zero_iff.mp (Option.some.inj h).symm
    simp [cprintf]
  | case2 c fmt hc ih =>
    rw [List.cons_append, (cprintf_formats mem).plain c _ _ hc, ih args h,
      (cprintf_formats mem).plain c _ _ hc, emit_assoc]
  | case3 => cases h
  | case4 c hc c' fmt hd ih =>
    obtain ⟨n, hn, hlen⟩ := Option.map_eq_some_iff.mp h
    obtain ⟨w, args, rfl⟩ := List.exists_cons_of_length_eq_add_one hlen.symm
    rw [List.length_cons, Nat.add_right_cancel_iff] at hlen
    have hstep := ih args (by rw [hn, hlen])
    obtain rfl : c = '%' := not_not.mp hc
    rcases hd with rfl | rfl <;> simp [cprintf, directive, hstep, emit_assoc]
  | case5 => cases h

theorem User.printf_append (mem : Strings) {fmt : List Char} {n : Nat} (h : wordsOf fmt = some n)
    (args : List Nat) (hn : args.length = n) (fmt' : List Char) (args' : List Nat) :
    printf mem (fmt ++ fmt') (args ++ args') =
      emit (printf mem fmt args) (printf mem fmt' args') := by
  subst hn
  fun_induction wordsOf fmt generalizing args with
  | case1 =>
    obtain rfl := List.length_eq_zero_iff.mp (Option.some.inj h).symm
    simp [printf, printfLoop]
  | case2 c fmt hc ih =>
    rw [List.cons_append, (printf_formats mem).plain c _ _ hc, ih args h,
      (printf_formats mem).plain c _ _ hc, emit_assoc]
  | case3 => cases h
  | case4 c hc c' fmt hd ih =>
    obtain ⟨n, hn, hlen⟩ := Option.map_eq_some_iff.mp h
    obtain ⟨w, args, rfl⟩ := List.exists_cons_of_length_eq_add_one hlen.symm
    rw [List.length_cons, Nat.add_right_cancel_iff] at hlen
    have hstep := ih args (by rw [hn, hlen])
    obtain rfl : c = '%' := not_not.mp hc
    simp only [printf] at hstep ⊢
    rcases hd with rfl | rfl <;> simp [printfLoop, directive, hstep, emit_assoc]
  | case5 => cases h

def zeros (rem : Int) : List Char :=
  (if rem < 100 then ['0'] else []) ++ (if rem < 10 then ['0'] else [])

section

variable {print : List Char → List Nat → Option (List Char)}

theorem Formats.pad_eq (hp : Formats print) (rem : Int) : pad print rem = some (zeros rem) := by
  have hzero : print "0".toList [] = some ['0'] := by
    have h : print ['0'] [] = _ := hp.plain '0' [] [] (by decide)
    rw [hp.nil, emit_nil_right] at h
    exact h
  rw [pad, zeros, hzero]
  split <;> split <;> rfl

theorem Formats.number (hp : Formats print) (fmt : List Char) {x : Int} (hlo : -2 ^ 31 ≤ x)
    (hhi : x < 2 ^ 31) (args : List Nat) : ∃ t, SignedNumeral x t ∧
      print ('%' :: 'd' :: fmt) (toUint x :: args) = emit (some t) (print fmt args) := by
  have h := hp.decimal fmt (toUint x) args
  rwa [toInt_toUint hlo hhi] at h

/-- The text of a time, from its seconds and its thousandths. -/
def clockText (s : List Char) (rem : Int) (r : List Char) : List Char := s ++ '.' :: (zeros rem ++ r)

/-- Two times and what follows them; the seconds of the first are already printed. -/
theorem Formats.rest_eq (hp : Formats print) {rem cpuSecs cpuRem : Int}
    (hr : -2 ^ 31 ≤ rem ∧ rem < 2 ^ 31) (hcs : -2 ^ 31 ≤ cpuSecs ∧ cpuSecs < 2 ^ 31)
    (hcr : -2 ^ 31 ≤ cpuRem ∧ cpuRem < 2 ^ 31) (s fmt : List Char) (args : List Nat) :
    ∃ r cs cr, SignedNumeral rem r ∧ SignedNumeral cpuSecs cs ∧ SignedNumeral cpuRem cr ∧
      emit (some (s ++ ['.'])) (emit (pad print rem)
        (emit (print "%d\t%d.".toList [toUint rem, toUint cpuSecs])
          (emit (pad print cpuRem) (print ('%' :: 'd' :: fmt) (toUint cpuRem :: args))))) =
      emit (some (clockText s rem r ++ '\t' :: clockText cs cpuRem cr)) (print fmt args) := by
  obtain ⟨r, hr, her⟩ := hp.number "\t%d.".toList hr.1 hr.2 [toUint cpuSecs]
  obtain ⟨cs, hcs, hecs⟩ := hp.number ".".toList hcs.1 hcs.2 []
  obtain ⟨cr, hcr, hecr⟩ := hp.number fmt hcr.1 hcr.2 args
  have htab : print "\t%d.".toList [toUint cpuSecs] = some ('\t' :: (cs ++ ['.'])) := by
    have h : print "\t%d.".toList [toUint cpuSecs] = _ :=
      hp.plain '\t' "%d.".toList [toUint cpuSecs] (by decide)
    have hdot : print ".".toList [] = _ := hp.plain '.' [] [] (by decide)
    have hsecs : print "%d.".toList [toUint cpuSecs] = _ := hecs
    rw [hp.nil] at hdot
    rw [h, hsecs, hdot]
    rfl
  have hfirst : print "%d\t%d.".toList [toUint rem, toUint cpuSecs] = _ := her
  refine ⟨r, cs, cr, hr, hcs, hcr, ?_⟩
  rw [hfirst, htab, hecr, hp.pad_eq, hp.pad_eq, ← emit_assoc, ← emit_assoc, ← emit_assoc,
    ← emit_assoc]
  simp [clockText]

end

/-! ## Which texts are exact -/

theorem SignedNumeral.not_mem {x : Int} {t : List Char} (h : SignedNumeral x t) {e : Char}
    (he : ¬ ('0' ≤ e ∧ e ≤ '9')) (hminus : e ≠ '-') : e ∉ t := by
  obtain ⟨ds, hds, rfl⟩ := h
  have hnot : e ∉ ds := fun hm => he (hds.digits e hm)
  split
  · intro hm
    rcases List.mem_cons.mp hm with hm | hm
    · exact hminus hm
    · exact hnot hm
  · exact hnot

theorem zeros_digits {rem : Int} {c : Char} (h : c ∈ zeros rem) : c = '0' := by
  unfold zeros at h
  split at h <;> split at h <;> simp_all

theorem clockText_not_mem {x y rem : Int} {s r : List Char} (hs : SignedNumeral x s)
    (hr : SignedNumeral y r) : '\t' ∉ clockText s rem r := by
  intro h
  rcases List.mem_append.mp h with h | h
  · exact SignedNumeral.not_mem hs (by decide) (by decide) h
  · rcases List.mem_cons.mp h with h | h
    · exact absurd h (by decide)
    · rcases List.mem_append.mp h with h | h
      · exact absurd (zeros_digits h) (by decide)
      · exact SignedNumeral.not_mem hr (by decide) (by decide) h

theorem Clock.not_mem {v : Nat} {t : List Char} (h : Clock v t) {e : Char}
    (he : ¬ ('0' ≤ e ∧ e ≤ '9')) (hdot : e ≠ '.') : e ∉ t := by
  obtain ⟨s, mmm, rfl, hs, -, hm, -⟩ := h
  intro h
  rcases List.mem_append.mp h with h | h
  · exact he (hs.digits e h)
  · rcases List.mem_cons.mp h with h | h
    · exact hdot h
    · exact he (hm e h)

theorem SignedNumeral.of_nat {n : Nat} {t : List Char} (h : SignedNumeral (n : Int) t) :
    Numeral n t := by
  obtain ⟨ds, hds, ht⟩ := h
  rw [if_neg (by omega)] at ht
  rw [ht]
  exact hds

theorem SignedNumeral.minus_mem {x : Int} {t : List Char} (h : SignedNumeral x t) (hx : x < 0) :
    '-' ∈ t := by
  obtain ⟨ds, hds, rfl⟩ := h
  rw [if_pos hx]
  exact List.mem_cons_self

/-- With its zeros, the numeral of a number below 1000 has three digits. -/
theorem zeros_pad {n : Nat} (hn : n < 1000) {r : List Char} (hr : Numeral n r) :
    (zeros n ++ r).length = 3 ∧ value (zeros n ++ r) = n := by
  obtain ⟨k, hk⟩ : ∃ k, r.length = k + 1 :=
    ⟨r.length - 1, by have := List.length_pos_iff.mpr hr.nonempty; omega⟩
  have hlt := hr.lt_pow
  have hle := hr.pow_le hk
  have hval := hr.value_eq
  have hzero : ∀ ds, value ('0' :: ds) = value ds := fun ds => rfl
  have hk3 : k < 3 := by
    by_contra hge
    have hpow : 10 ^ 3 ≤ 10 ^ k := Nat.pow_le_pow_right (by decide) (by omega)
    omega
  rw [hk] at hlt
  have hcases : k = 0 ∨ k = 1 ∨ k = 2 := by omega
  rcases hcases with rfl | rfl | rfl
  · have hten : (n : Int) < 10 := by omega
    have hhun : (n : Int) < 100 := by omega
    simp [zeros, hten, hhun, hk, hzero, hval]
  · have hten : ¬ (n : Int) < 10 := by omega
    have hhun : (n : Int) < 100 := by omega
    simp [zeros, hten, hhun, hk, hzero, hval]
  · have hten : ¬ (n : Int) < 10 := by omega
    have hhun : ¬ (n : Int) < 100 := by omega
    simp [zeros, hten, hhun, hk, hval]

theorem clock_of_nat {v : Nat} {s r : List Char} (hs : SignedNumeral ((v / 1000 : Nat) : Int) s)
    (hr : SignedNumeral ((v % 1000 : Nat) : Int) r) :
    Clock v (clockText s ((v % 1000 : Nat) : Int) r) := by
  have hs := SignedNumeral.of_nat hs
  have hr := SignedNumeral.of_nat hr
  have hlt : v % 1000 < 1000 := Nat.mod_lt _ (by decide)
  obtain ⟨hlen, hval⟩ := zeros_pad hlt hr
  refine ⟨s, _, rfl, by rw [hs.value_eq]; exact hs, hlen, ?_, ?_⟩
  · intro c hc
    rcases List.mem_append.mp hc with hc | hc
    · rw [zeros_digits hc]
      exact ⟨by decide, by decide⟩
    · exact hr.digits c hc
  · rw [hs.value_eq, hval]
    exact Nat.div_add_mod v 1000

/-- The quotient or the remainder of a negative number is negative, and prints with a sign. -/
theorem clockText_minus {x : Int} (hx : x < 0) {s r : List Char}
    (hs : SignedNumeral (x.tdiv 1000) s) (hr : SignedNumeral (x.tmod 1000) r) :
    '-' ∈ clockText s (x.tmod 1000) r := by
  have hdm := Int.mul_tdiv_add_tmod x 1000
  by_cases hneg : x.tdiv 1000 < 0
  · exact List.mem_append_left _ (SignedNumeral.minus_mem hs hneg)
  · have hrem : x.tmod 1000 < 0 := by omega
    refine List.mem_append_right _ (List.mem_cons_of_mem _ (List.mem_append_right _ ?_))
    exact SignedNumeral.minus_mem hr hrem

theorem clockText_iff {d : Nat} (hd : d < 2 ^ 32) {s r : List Char}
    (hs : SignedNumeral ((toInt d).tdiv 1000) s) (hr : SignedNumeral ((toInt d).tmod 1000) r) :
    Clock d (clockText s ((toInt d).tmod 1000) r) ↔ d < 2 ^ 31 := by
  constructor
  · intro h
    by_contra hge
    have hu := Syscall.toUint_toInt hd
    have hneg : toInt d < 0 := by
      have hrange := Syscall.toInt_range d
      simp only [toUint] at hu
      omega
    exact h.not_mem (by decide) (by decide) (clockText_minus hneg hs hr)
  · intro hlt
    have hdiv : (toInt d).tdiv 1000 = ((d / 1000 : Nat) : Int) := by
      rw [Syscall.toInt_of_lt hlt]
      rfl
    have hmod : (toInt d).tmod 1000 = ((d % 1000 : Nat) : Int) := by
      rw [Syscall.toInt_of_lt hlt]
      rfl
    rw [hdiv] at hs
    rw [hmod] at hr ⊢
    exact clock_of_nat hs hr

/-- A line shows the right times if its first one is right, when the second is. -/
theorem showsTimes_iff {h e c t : List Char} {elapsed cpu : Nat} (he : '\t' ∉ e) (hc : Clock cpu c) :
    ShowsTimes (some (h ++ (e ++ '\t' :: (c ++ t)))) (some h) (some t) elapsed cpu ↔
      Clock elapsed e := by
  constructor
  · rintro ⟨h', e', c', t', hh, -, hline, he', -⟩
    obtain rfl := Option.some.inj hh
    have heq := List.append_cancel_left (Option.some.inj hline)
    have hcut : ∀ {a b : List Char}, '\t' ∉ a → (a ++ '\t' :: b).takeWhile (· ≠ '\t') = a := by
      intro a b ha
      rw [List.takeWhile_append_of_pos]
      · simp
      · intro x hx
        simp only [ne_eq, decide_not, Bool.not_eq_eq_eq_not, Bool.not_true, decide_eq_false_iff_not]
        rintro rfl
        exact ha hx
    have hsame := congrArg (List.takeWhile (· ≠ '\t')) heq
    rw [hcut he, hcut (he'.not_mem (by decide) (by decide))] at hsame
    rwa [hsame]
  · intro hclock
    exact ⟨h, e, c, t, rfl, rfl, rfl, hclock, hc⟩

/-! ## The lines -/

/-- What `procdumpP3P4` prints before the elapsed time. -/
def headP3P4 (mem : Strings) (k : Ptable.Kernel) (p : ProcPtr) (name state : Nat) :
    Option (List Char) :=
  let q := k.proc p
  Kernel.cprintf mem "%d\t%s\t%d\t%d\t%d\t%s\t%d\t%d\t".toList
    [q.pid, name, q.uid, q.gid, shownParent k p, state, toUint q.priority, q.sz]

/-- What `procdumpP2` prints before the elapsed time. -/
def headP2 (mem : Strings) (k : Ptable.Kernel) (p : ProcPtr) (name state : Nat) :
    Option (List Char) :=
  let q := k.proc p
  Kernel.cprintf mem "%d\t%s\t%d\t%d\t%d\t%s\t%d\t".toList
    [q.pid, name, q.uid, q.gid, shownParent k p, state, q.sz]

/-- What `ps` prints before and behind the times of an entry. -/
def psHead (mem : Strings) (u : Syscall.UProc) (state name : Nat) : Option (List Char) :=
  User.printf mem "%d\t%d\t%d\t%s\t%s\t".toList [u.pid, u.gid, u.ppid, state, name]

def psTail (mem : Strings) (u : Syscall.UProc) : Option (List Char) :=
  User.printf mem "\t%d\n".toList [u.size]

theorem procdumpP3P4_eq (mem : Strings) (k : Ptable.Kernel) (p : ProcPtr) (name state : Nat) :
    procdumpP3P4 mem k p name state = emit (headP3P4 mem k p name state)
        (emit (Kernel.cprintf mem "%d.".toList [toUint ((elapsedticks k p).tdiv 1000)])
          (dumpRest mem k p)) := by
  have hwords : wordsOf "%d\t%s\t%d\t%d\t%d\t%s\t%d\t%d\t".toList = some 8 := by simp [wordsOf]
  have hfmt : "%d\t%s\t%d\t%d\t%d\t%s\t%d\t%d\t%d.".toList =
      "%d\t%s\t%d\t%d\t%d\t%s\t%d\t%d\t".toList ++ "%d.".toList := by decide
  have hsplit := Kernel.cprintf_append mem hwords [(k.proc p).pid, name, (k.proc p).uid,
    (k.proc p).gid, shownParent k p, state, toUint (k.proc p).priority, (k.proc p).sz] rfl
    "%d.".toList [toUint ((elapsedticks k p).tdiv 1000)]
  rw [← hfmt] at hsplit
  rw [← emit_assoc, headP3P4, ← hsplit]
  rfl

theorem procdumpP2_eq (mem : Strings) (k : Ptable.Kernel) (p : ProcPtr) (name state : Nat) :
    procdumpP2 mem k p name state = emit (headP2 mem k p name state)
        (emit (Kernel.cprintf mem "%d.".toList [toUint ((elapsedticks k p).tdiv 1000)])
          (dumpRest mem k p)) := by
  have hwords : wordsOf "%d\t%s\t%d\t%d\t%d\t%s\t%d\t".toList = some 7 := by simp [wordsOf]
  have hfmt : "%d\t%s\t%d\t%d\t%d\t%s\t%d\t%d.".toList =
      "%d\t%s\t%d\t%d\t%d\t%s\t%d\t".toList ++ "%d.".toList := by decide
  have hsplit := Kernel.cprintf_append mem hwords [(k.proc p).pid, name, (k.proc p).uid,
    (k.proc p).gid, shownParent k p, state, (k.proc p).sz] rfl
    "%d.".toList [toUint ((elapsedticks k p).tdiv 1000)]
  rw [← hfmt] at hsplit
  rw [← emit_assoc, headP2, ← hsplit]
  rfl

theorem Formats.secs_eq {print : List Char → List Nat → Option (List Char)} (hp : Formats print)
    {x : Int} (hlo : -2 ^ 31 ≤ x) (hhi : x < 2 ^ 31) :
    ∃ s, SignedNumeral x s ∧ print "%d.".toList [toUint x] = some (s ++ ['.']) := by
  obtain ⟨s, hs, hes⟩ := hp.number ".".toList hlo hhi []
  have hdot : print ".".toList [] = _ := hp.plain '.' [] [] (by decide)
  have hall : print "%d.".toList [toUint x] = _ := hes
  rw [hdot, hp.nil] at hall
  exact ⟨s, hs, hall⟩

theorem int_parts (d : Nat) : (-2 ^ 31 ≤ (toInt d).tdiv 1000 ∧ (toInt d).tdiv 1000 < 2 ^ 31) ∧
      (-2 ^ 31 ≤ (toInt d).tmod 1000 ∧ (toInt d).tmod 1000 < 2 ^ 31) := by
  have h := Syscall.toInt_range d
  have hdm := Int.mul_tdiv_add_tmod (toInt d) 1000
  have hlo := Int.lt_tmod_of_pos (toInt d) (show (0 : Int) < 1000 by decide)
  have hhi := Int.tmod_lt_of_pos (toInt d) (show (0 : Int) < 1000 by decide)
  omega

theorem uint_parts {w : Nat} (h : w < 2 ^ 32) :
    toInt (w / 1000) = ((w / 1000 : Nat) : Int) ∧ toInt (w % 1000) = ((w % 1000 : Nat) : Int) :=
  ⟨Syscall.toInt_of_lt (by omega), Syscall.toInt_of_lt (by omega)⟩

/-- A line of `procdump` shows both times exactly if the elapsed ticks fit into an `int`. -/
theorem dump_shows_iff (mem : Strings) (k : Ptable.Kernel) (p : ProcPtr)
    (hcpu : (k.proc p).cpuTicksTotal < 2 ^ 32) {h : List Char} :
    ShowsTimes (emit (some h) (emit
          (Kernel.cprintf mem "%d.".toList [toUint ((elapsedticks k p).tdiv 1000)])
          (dumpRest mem k p)))
        (some h) (Kernel.cprintf mem "\n".toList [])
        (toUint ((k.ticks : Int) - (k.proc p).startTicks)) (k.proc p).cpuTicksTotal ↔
      toUint ((k.ticks : Int) - (k.proc p).startTicks) < 2 ^ 31 := by
  have hp := Kernel.cprintf_formats mem
  have hd : toUint ((k.ticks : Int) - (k.proc p).startTicks) < 2 ^ 32 := by
    simp only [toUint]
    omega
  obtain ⟨hsecs, hrem⟩ := int_parts (toUint ((k.ticks : Int) - (k.proc p).startTicks))
  obtain ⟨hcs, hcr⟩ := uint_parts hcpu
  obtain ⟨s, hs, hes⟩ := hp.secs_eq hsecs.1 hsecs.2
  obtain ⟨r, cs, cr, hr, hcsn, hcrn, hrest⟩ := hp.rest_eq hrem
    (Syscall.toInt_range ((k.proc p).cpuTicksTotal / 1000))
    (Syscall.toInt_range ((k.proc p).cpuTicksTotal % 1000)) s "\n".toList []
  obtain ⟨t, ht⟩ := Kernel.cprintf_total mem "\n".toList []
  rw [hcs] at hcsn
  rw [hcr] at hcrn
  rw [← hes, ht] at hrest
  have hline : emit (Kernel.cprintf mem "%d.".toList [toUint ((elapsedticks k p).tdiv 1000)])
      (dumpRest mem k p) = emit _ (some t) := hrest
  rw [hline, ht, emit_some, emit_some, List.append_assoc, List.cons_append,
    showsTimes_iff (clockText_not_mem hs hr) (by rw [hcr]; exact clock_of_nat hcsn hcrn)]
  exact clockText_iff hd hs hr

theorem procdumpP3P4_shows_iff (mem : Strings) (k : Ptable.Kernel) (p : ProcPtr) (name state : Nat)
    (hcpu : (k.proc p).cpuTicksTotal < 2 ^ 32) :
    ShowsTimes (procdumpP3P4 mem k p name state) (headP3P4 mem k p name state)
        (Kernel.cprintf mem "\n".toList [])
        (toUint ((k.ticks : Int) - (k.proc p).startTicks)) (k.proc p).cpuTicksTotal ↔
      toUint ((k.ticks : Int) - (k.proc p).startTicks) < 2 ^ 31 := by
  obtain ⟨h, hh⟩ : ∃ h, headP3P4 mem k p name state = some h := Kernel.cprintf_total mem _ _
  rw [procdumpP3P4_eq, hh]
  exact dump_shows_iff mem k p hcpu

theorem procdumpP2_shows_iff (mem : Strings) (k : Ptable.Kernel) (p : ProcPtr) (name state : Nat)
    (hcpu : (k.proc p).cpuTicksTotal < 2 ^ 32) :
    ShowsTimes (procdumpP2 mem k p name state) (headP2 mem k p name state)
        (Kernel.cprintf mem "\n".toList [])
        (toUint ((k.ticks : Int) - (k.proc p).startTicks)) (k.proc p).cpuTicksTotal ↔
      toUint ((k.ticks : Int) - (k.proc p).startTicks) < 2 ^ 31 := by
  obtain ⟨h, hh⟩ : ∃ h, headP2 mem k p name state = some h := Kernel.cprintf_total mem _ _
  rw [procdumpP2_eq, hh]
  exact dump_shows_iff mem k p hcpu

theorem psLine_eq (mem : Strings) (u : Syscall.UProc) (state name : Nat) : psLine mem u state name =
      emit (psHead mem u state name)
        (emit (User.printf mem "%d.".toList [toUint (toInt (u.elapsedTicks / 1000))])
          (emit (pad (User.printf mem) (toInt (u.elapsedTicks % 1000)))
            (emit (User.printf mem "%d\t%d.".toList
                [toUint (toInt (u.elapsedTicks % 1000)), toUint (toInt (u.cpuTotalTicks / 1000))])
              (emit (pad (User.printf mem) (toInt (u.cpuTotalTicks % 1000)))
                (User.printf mem "%d\t%d\n".toList
                  [toUint (toInt (u.cpuTotalTicks % 1000)), u.size]))))) := by
  have hwords : wordsOf "%d\t%d\t%d\t%s\t%s\t".toList = some 5 := by simp [wordsOf]
  have hfmt : "%d\t%d\t%d\t%s\t%s\t%d.".toList =
      "%d\t%d\t%d\t%s\t%s\t".toList ++ "%d.".toList := by decide
  have hsplit := User.printf_append mem hwords [u.pid, u.gid, u.ppid, state, name] rfl
    "%d.".toList [toUint (toInt (u.elapsedTicks / 1000))]
  rw [← hfmt] at hsplit
  rw [← emit_assoc, psHead, ← hsplit]
  rfl

theorem psLine_shows (mem : Strings) (u : Syscall.UProc) (state name : Nat)
    (hel : u.elapsedTicks < 2 ^ 32) (hcpu : u.cpuTotalTicks < 2 ^ 32) :
    ShowsTimes (psLine mem u state name) (psHead mem u state name) (psTail mem u)
      u.elapsedTicks u.cpuTotalTicks := by
  have hp := User.printf_formats mem
  obtain ⟨h, hh⟩ : ∃ h, psHead mem u state name = some h := User.printf_total mem _ _
  obtain ⟨t, ht⟩ : ∃ t, psTail mem u = some t := User.printf_total mem _ _
  obtain ⟨hs, hr⟩ := uint_parts hel
  obtain ⟨hcs, hcr⟩ := uint_parts hcpu
  have hsr := Syscall.toInt_range (u.elapsedTicks / 1000)
  obtain ⟨s, hsn, hes⟩ := hp.secs_eq hsr.1 hsr.2
  obtain ⟨r, cs, cr, hrn, hcsn, hcrn, hrest⟩ := hp.rest_eq
    (Syscall.toInt_range (u.elapsedTicks % 1000)) (Syscall.toInt_range (u.cpuTotalTicks / 1000))
    (Syscall.toInt_range (u.cpuTotalTicks % 1000)) s "\t%d\n".toList [u.size]
  rw [hs] at hsn
  rw [hr] at hrn
  rw [hcs] at hcsn
  rw [hcr] at hcrn
  refine ⟨h, clockText s (toInt (u.elapsedTicks % 1000)) r,
    clockText cs (toInt (u.cpuTotalTicks % 1000)) cr, t, hh, ht, ?_,
    by rw [hr]; exact clock_of_nat hsn hrn, by rw [hcr]; exact clock_of_nat hcsn hcrn⟩
  have hline : _ = emit _ (psTail mem u) := hrest
  rw [psLine_eq, hh, hes]
  refine (congrArg (emit (some h)) hline).trans ?_
  rw [ht, emit_some, emit_some, List.append_assoc, List.cons_append]

theorem timeReport_shows (mem : Strings) (argv1 start out : Nat) :
    ShowsTime (timeReport mem argv1 start out) (User.printf mem "%s ran in ".toList [argv1])
      (User.printf mem " seconds.\n".toList []) (toUint ((out : Int) - start)) := by
  have hp := User.printf_formats mem
  generalize hel : toUint ((out : Int) - start) = el
  have hlt : el < 2 ^ 32 := by
    rw [← hel]
    simp only [toUint]
    omega
  obtain ⟨h, hh⟩ := User.printf_total mem "%s ran in ".toList [argv1]
  obtain ⟨t, ht⟩ := User.printf_total mem " seconds.\n".toList []
  have huint : ∀ w : Nat, w < 2 ^ 32 → toUint (w : Int) = w := by
    intro w hw
    simp only [toUint]
    omega
  obtain ⟨s, hsn, hes⟩ := hp.secs_eq (x := ((el / 1000 : Nat) : Int)) (by omega) (by omega)
  obtain ⟨r, hrn, her⟩ := hp.number " seconds.\n".toList (x := ((el % 1000 : Nat) : Int))
    (by omega) (by omega) []
  rw [huint _ (by omega)] at hes her
  refine ⟨h, clockText s ((el % 1000 : Nat) : Int) r, t, hh, ht, ?_, clock_of_nat hsn hrn⟩
  have hwords : wordsOf "%s ran in ".toList = some 1 := by simp [wordsOf]
  have hfmt : "%s ran in %d.".toList = "%s ran in ".toList ++ "%d.".toList := by decide
  have hsplit := User.printf_append mem hwords [argv1] rfl "%d.".toList [el / 1000]
  rw [← hfmt, hh, hes, emit_some] at hsplit
  have hfirst : User.printf mem "%s ran in %d.".toList [argv1, el / 1000] = _ := hsplit
  have hlast : User.printf mem "%d seconds.\n".toList [el % 1000] = _ := her
  simp only [timeReport, hel]
  rw [hfirst, hp.pad_eq, hlast, ht]
  simp [clockText]

/-! ## The result -/

/-- All four programs print exact times, exactly when the ticks since the process
was created fit into an `int`. -/
theorem times_exact_iff (mem : Strings) (k : Ptable.Kernel) (p : ProcPtr) (name state argv1 : Nat)
    (u : Syscall.UProc) (ustate uname : Nat) (hcpu : (k.proc p).cpuTicksTotal < 2 ^ 32)
    (hel : u.elapsedTicks < 2 ^ 32) (hucpu : u.cpuTotalTicks < 2 ^ 32) :
    (ShowsTimes (procdumpP3P4 mem k p name state) (headP3P4 mem k p name state)
        (Kernel.cprintf mem "\n".toList [])
        (toUint ((k.ticks : Int) - (k.proc p).startTicks)) (k.proc p).cpuTicksTotal ∧
      ShowsTimes (procdumpP2 mem k p name state) (headP2 mem k p name state)
        (Kernel.cprintf mem "\n".toList [])
        (toUint ((k.ticks : Int) - (k.proc p).startTicks)) (k.proc p).cpuTicksTotal ∧
      ShowsTime (timeReport mem argv1 (k.proc p).startTicks k.ticks)
        (User.printf mem "%s ran in ".toList [argv1]) (User.printf mem " seconds.\n".toList [])
        (toUint ((k.ticks : Int) - (k.proc p).startTicks)) ∧
      ShowsTimes (psLine mem u ustate uname) (psHead mem u ustate uname) (psTail mem u)
        u.elapsedTicks u.cpuTotalTicks) ↔
      toUint ((k.ticks : Int) - (k.proc p).startTicks) < 2 ^ 31 := by
  rw [procdumpP3P4_shows_iff mem k p name state hcpu, procdumpP2_shows_iff mem k p name state hcpu]
  constructor
  · rintro ⟨h, -⟩
    exact h
  · intro h
    exact ⟨h, h, timeReport_shows mem argv1 _ _, psLine_shows mem u ustate uname hel hucpu⟩

/-- An entry of `ps` without any time. -/
def idleEntry : Syscall.UProc :=
  { pid := 1, uid := 0, gid := 0, ppid := 1, elapsedTicks := 0, cpuTotalTicks := 0, state := [],
    size := 0, name := [], priority := 0 }

/-- Five ticks after the start of the machine, all four texts are exact. -/
theorem times_exact_early : ShowsTimes (procdumpP3P4 (fun _ => []) (Ptable.boot 5) 0 1 2)
      (headP3P4 (fun _ => []) (Ptable.boot 5) 0 1 2) (Kernel.cprintf (fun _ => []) "\n".toList [])
      5 0 :=
  ((times_exact_iff (fun _ => []) (Ptable.boot 5) 0 1 2 3 idleEntry 4 5 (by decide) (by decide)
    (by decide)).mpr (by decide)).1

/-- After `2^31` ticks, `procdump` prints the time since tick 0 as `-2147483.00-648`. -/
theorem procdump_negative : procdumpP3P4 (fun _ => []) (Ptable.boot (2 ^ 31)) 0 1 2 =
        some "0\t\t0\t0\t0\t\t0\t0\t-2147483.00-648\t0.000\n".toList ∧
      ¬ ShowsTimes (procdumpP3P4 (fun _ => []) (Ptable.boot (2 ^ 31)) 0 1 2)
        (headP3P4 (fun _ => []) (Ptable.boot (2 ^ 31)) 0 1 2)
        (Kernel.cprintf (fun _ => []) "\n".toList []) (2 ^ 31) 0 := by
  refine ⟨by decide +kernel, ?_⟩
  intro h
  have hlt := (procdumpP3P4_shows_iff (fun _ => []) (Ptable.boot (2 ^ 31)) 0 1 2 (by decide)).mp h
  exact absurd hlt (by decide)

end Xv6Pdx.Print
