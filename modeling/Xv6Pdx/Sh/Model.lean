/-
# `Sh.Model` — the command parser of `sh.c`

A line is a string of bytes with a NUL after it.  The parser moves one cursor
over it (`*ps`); a pointer into the line is an offset, and a read behind the NUL
stops the parser with `pastEnd`.  `malloc` succeeds, and a node of the tree is a
value; the one node that is written to after it has been wrapped, the `EXEC` node in
`parseexec`, is the one at the bottom of the redirections around it (`pushArg`).

Every loop and every call takes one unit of fuel; `parsecmd` starts with an amount
that depends on the length of the line only.
-/
import Xv6Pdx.Lib.Wp

namespace Xv6Pdx.Sh

open Lib

inductive Stop where
  | panic (msg : String)
  /-- a byte behind the terminating NUL is read or written -/
  | pastEnd
  | fuel
deriving DecidableEq, Repr

/-- A counted string in the line: `q` and `eq` of `gettoken`. -/
structure Word where
  q : Nat
  eq : Nat
deriving DecidableEq, Repr

inductive Cmd where
  /-- `argv` and `eargv`, up to the null pointer -/
  | exec (argv : List Word)
  | redir (cmd : Cmd) (file : Word) (mode fd : Nat)
  | pipe (left right : Cmd)
  | list (left right : Cmd)
  | back (cmd : Cmd)
deriving DecidableEq, Repr

def MAXARGS : Nat := 10

def O_RDONLY : Nat := 0x000
def O_WRONLY : Nat := 0x001
def O_CREATE : Nat := 0x200

def whitespace : List UInt8 :=
  [' ', '\t', '\r', '\n', '\x0b'].map Char.toUInt8

def symbols : List UInt8 :=
  ['<', '|', '>', '&', ';', '(', ')'].map Char.toUInt8

def strchr (s : List UInt8) (c : UInt8) : Bool := s.contains c

def blank (c : UInt8) : Bool := strchr whitespace c

def wordByte (c : UInt8) : Bool := !strchr whitespace c && !strchr symbols c

abbrev ParseM := StateT Nat (Except Stop)

section

variable (buf : List UInt8)

def charAt (s : Nat) : ParseM UInt8 :=
  match (buf ++ [0])[s]? with
  | some c => pure c
  | none => throw .pastEnd

def scan (p : UInt8 → Bool) : Nat → Nat → ParseM Nat
  | 0, _ => throw .fuel
  | n + 1, s =>
    if s < buf.length then do
      let c ← charAt buf s
      if p c then scan p n (s + 1) else pure s
    else pure s

/-- The loop, with enough fuel for any line. -/
def skip (p : UInt8 → Bool) (s : Nat) : ParseM Nat := scan buf p (buf.length + 1) s

/-- The `switch` of `gettoken`: what is returned, and where the token ends. -/
def tokenAt (s : Nat) : ParseM (UInt8 × Nat) := do
  let c ← charAt buf s
  if c = 0 then pure (0, s)
  else if strchr (['|', '(', ')', ';', '&', '<'].map Char.toUInt8) c then pure (c, s + 1)
  else if c = '>'.toUInt8 then do
    let c' ← charAt buf (s + 1)
    if c' = '>'.toUInt8 then pure ('+'.toUInt8, s + 2) else pure (c, s + 1)
  else do
    let e ← skip buf wordByte s
    pure ('a'.toUInt8, e)

def gettoken : ParseM (UInt8 × Word) := do
  let s ← get
  let q ← skip buf blank s
  let (ret, eq) ← tokenAt buf q
  let s ← skip buf blank eq
  set s
  return (ret, ⟨q, eq⟩)

def peek (toks : List Char) : ParseM Bool := do
  let s ← get
  let s ← skip buf blank s
  set s
  let c ← charAt buf s
  return c != 0 && strchr (toks.map Char.toUInt8) c

def redirect (cmd : Cmd) (tok : UInt8) (w : Word) : Cmd :=
  if tok = '<'.toUInt8 then .redir cmd w O_RDONLY 0
  else if tok = '>'.toUInt8 then .redir cmd w (O_WRONLY ||| O_CREATE) 1
  else if tok = '+'.toUInt8 then .redir cmd w (O_WRONLY ||| O_CREATE) 1
  else cmd

def parseredirs : Nat → Cmd → ParseM Cmd
  | 0, _ => throw .fuel
  | n + 1, cmd => do
    if ← peek buf ['<', '>'] then
      let (tok, _) ← gettoken buf
      let (tok', w) ← gettoken buf
      if tok' ≠ 'a'.toUInt8 then throw (.panic "missing file for redirection")
      parseredirs n (redirect cmd tok w)
    else return cmd

/-- `cmd->argv[argc] = q; cmd->eargv[argc] = eq;` for the `EXEC` node in `ret`. -/
def pushArg (w : Word) : Cmd → Cmd
  | .exec argv => .exec (argv ++ [w])
  | .redir cmd file mode fd => .redir (pushArg w cmd) file mode fd
  | cmd => cmd

def parseargs : Nat → Nat → Cmd → ParseM Cmd
  | 0, _, _ => throw .fuel
  | n + 1, argc, ret => do
    if ← peek buf ['|', ')', '&', ';'] then return ret
    else
      let (tok, w) ← gettoken buf
      if tok = 0 then return ret
      else
        if tok ≠ 'a'.toUInt8 then throw (.panic "syntax")
        if MAXARGS ≤ argc + 1 then throw (.panic "too many args")
        let ret ← parseredirs buf n (pushArg w ret)
        parseargs n (argc + 1) ret

def parseback : Nat → Cmd → ParseM Cmd
  | 0, _ => throw .fuel
  | n + 1, cmd => do
    if ← peek buf ['&'] then
      let _ ← gettoken buf
      parseback n (.back cmd)
    else return cmd

mutual

def parseline : Nat → ParseM Cmd
  | 0 => throw .fuel
  | n + 1 => do
    let cmd ← parsepipe n
    let cmd ← parseback buf n cmd
    if ← peek buf [';'] then
      let _ ← gettoken buf
      let right ← parseline n
      return .list cmd right
    else return cmd

def parsepipe : Nat → ParseM Cmd
  | 0 => throw .fuel
  | n + 1 => do
    let cmd ← parseexec n
    if ← peek buf ['|'] then
      let _ ← gettoken buf
      let right ← parsepipe n
      return .pipe cmd right
    else return cmd

def parseexec : Nat → ParseM Cmd
  | 0 => throw .fuel
  | n + 1 => do
    if ← peek buf ['('] then parseblock n
    else
      let ret ← parseredirs buf n (.exec [])
      parseargs buf n 0 ret

def parseblock : Nat → ParseM Cmd
  | 0 => throw .fuel
  | n + 1 => do
    if !(← peek buf ['(']) then throw (.panic "parseblock")
    let _ ← gettoken buf
    let cmd ← parseline n
    if !(← peek buf [')']) then throw (.panic "syntax - missing )")
    let _ ← gettoken buf
    parseredirs buf n cmd

end

/-- The first part of `parsecmd`: the tree, with counted strings. -/
def parseall : ParseM Cmd := do
  let cmd ← parseline buf (4 * buf.length + 4)
  let _ ← peek buf []
  let s ← get
  if s ≠ buf.length then throw (.panic "syntax")
  return cmd

end

/-- `*s = 0`, in the line with its NUL. -/
def poke (s : Nat) (mem : List UInt8) : Except Stop (List UInt8) :=
  if s < mem.length then .ok (mem.set s 0) else .error .pastEnd

def nulterminate : Cmd → List UInt8 → Except Stop (List UInt8)
  | .exec argv, mem => argv.foldlM (fun mem w => poke w.eq mem) mem
  | .redir cmd file _ _, mem => do
    let mem ← nulterminate cmd mem
    poke file.eq mem
  | .pipe left right, mem => do
    let mem ← nulterminate left mem
    nulterminate right mem
  | .list left right, mem => do
    let mem ← nulterminate left mem
    nulterminate right mem
  | .back cmd, mem => nulterminate cmd mem

/-- `parsecmd(s)`: the tree, and the line it points into. -/
def parsecmd (buf : List UInt8) : Except Stop (Cmd × List UInt8) := do
  let (cmd, _) ← parseall buf 0
  let mem ← nulterminate cmd (buf ++ [0])
  return (cmd, mem)

def cstring (mem : List UInt8) (s : Nat) : List UInt8 := (mem.drop s).takeWhile (· ≠ 0)

end Xv6Pdx.Sh
