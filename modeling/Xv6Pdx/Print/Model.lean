/-
# `Print.Model` — formatted output and its inverse

The kernel prints with `cprintf` and `printint` of `console.c`, a process with
`printf` and `printint` of `printf.c`; `atoi` of `ulib.c` reads a number back.
What is printed is the list of characters handed to `consputc` or `putc`, in
order.

`printint` puts the digits into an array of 16 characters, the lowest first, and
then sends the array from its end.  A store behind the array is `none`.  The
words after the format are a list, and a pointer among them leads to a string
(`Strings`).
-/
import Xv6Pdx.Syscall.Args

namespace Xv6Pdx.Print

open Fs (toInt toUint)

/-- The string at an address, up to its NUL. -/
abbrev Strings := Nat → List Char

/-! ## Numbers -/

def BUFSIZE : Nat := 16

/-- `do buf[i++] = digits[x % base]; while((x /= base) != 0);` with `room`
characters left in the array. -/
def fill (digits : List Char) (base : Nat) : Nat → Nat → Option (List Char)
  | 0, _ => none
  | room + 1, x =>
    let digit := digits.getD (x % base) '\x00'
    if x / base = 0 then some [digit]
    else (fill digits base room (x / base)).map (digit :: ·)

def putSign (neg : Bool) (buf : List Char) : Option (List Char) :=
  if neg then
    if buf.length < BUFSIZE then some (buf ++ ['-']) else none
  else some buf

/-- The two `printint`s; `while(--i >= 0)` sends the array backwards. -/
def printDigits (digits : List Char) (xx : Int) (base : Nat) (sgn : Bool) : Option (List Char) :=
  let neg := sgn && decide (xx < 0)
  let x := if neg then toUint (-xx) else toUint xx
  ((fill digits base BUFSIZE x).bind (putSign neg)).map List.reverse

namespace Kernel

def printint (xx : Int) (base : Nat) (sign : Bool) : Option (List Char) :=
  printDigits "0123456789abcdef".toList xx base sign

end Kernel

namespace User

def printint (xx : Int) (base : Nat) (sgn : Bool) : Option (List Char) :=
  printDigits "0123456789ABCDEF".toList xx base sgn

end User

/-! ## Formats -/

def emit (out rest : Option (List Char)) : Option (List Char) :=
  out.bind fun o => rest.map (o ++ ·)

/-- `%s`: a null pointer prints as `(null)`. -/
def stringAt (mem : Strings) (s : Nat) : List Char :=
  if s = 0 then "(null)".toList else mem s

namespace Kernel

/-- What follows a `%` in `cprintf`: its output and the words left. -/
def directive (mem : Strings) (c : Char) (args : List Nat) : Option (List Char) × List Nat :=
  if c = 'd' then (printint (toInt (args.headD 0)) 10 true, args.tail)
  else if c = 'x' ∨ c = 'p' then (printint (toInt (args.headD 0)) 16 false, args.tail)
  else if c = 's' then (some (stringAt mem (args.headD 0)), args.tail)
  else if c = '%' then (some ['%'], args)
  else (some ['%', c], args)

def cprintf (mem : Strings) : List Char → List Nat → Option (List Char)
  | [], _ => some []
  | c :: fmt, args =>
    if c ≠ '%' then emit (some [c]) (cprintf mem fmt args)
    else
      match fmt with
      | [] => some []
      | c :: fmt =>
        emit (directive mem c args).1 (cprintf mem fmt (directive mem c args).2)

end Kernel

namespace User

/-- What follows a `%` in `printf`. -/
def directive (mem : Strings) (c : Char) (args : List Nat) : Option (List Char) × List Nat :=
  if c = 'd' then (printint (toInt (args.headD 0)) 10 true, args.tail)
  else if c = 'x' ∨ c = 'p' then (printint (toInt (args.headD 0)) 16 false, args.tail)
  else if c = 's' then (some (stringAt mem (args.headD 0)), args.tail)
  else if c = 'c' then (some [Char.ofNat (args.headD 0 % 256)], args.tail)
  else if c = '%' then (some ['%'], args)
  else (some ['%', c], args)

/-- The loop of `printf`; `percent` is `state == '%'`. -/
def printfLoop (mem : Strings) : Bool → List Char → List Nat → Option (List Char)
  | _, [], _ => some []
  | false, c :: fmt, args =>
    if c = '%' then printfLoop mem true fmt args
    else emit (some [c]) (printfLoop mem false fmt args)
  | true, c :: fmt, args =>
    emit (directive mem c args).1 (printfLoop mem false fmt (directive mem c args).2)

/-- `printf(fd, fmt, ...)`, what is written to `fd`. -/
def printf (mem : Strings) (fmt : List Char) (args : List Nat) : Option (List Char) :=
  printfLoop mem false fmt args

/-! ## Reading a number -/

/-- `while('0' <= *s && *s <= '9') n = n*10 + *s++ - '0';` -/
def atoiLoop : Int → List Char → Int
  | n, [] => n
  | n, c :: s =>
    if '0' ≤ c ∧ c ≤ '9' then
      atoiLoop ((n * 10 + c.toNat - '0'.toNat).bmod (2 ^ 32)) s
    else n

def atoi (s : List Char) : Int :=
  let s := s.dropWhile (· = ' ')
  let sign : Int := if s.head? = some '-' then -1 else 1
  let s := if s.head? = some '+' ∨ s.head? = some '-' then s.tail else s
  (sign * atoiLoop 0 s).bmod (2 ^ 32)

end User

end Xv6Pdx.Print
