/-
# `Sh.Grammar` — the tokens of a line and the grammar of commands

`lex` cuts a line into tokens; it is stated on the bytes, without a cursor.  `Line`,
`Pipe` and `Exec` are the grammar over tokens, each derivation with its tree.

`At line ts s` says that the tokens from the cursor on are `ts`.  `gettoken` takes
one off, and `peek` looks at the first (`gettoken_cons`, `gettoken_nil`,
`peek_spec`): these are the only facts about bytes that the parser needs.
-/
import Xv6Pdx.Sh.Model

namespace Xv6Pdx.Sh

open Lib

/-! ## Tokens -/

/-- The operators of a redirection: `<`, `>` and `>>`. -/
inductive Op where
  | lt
  | gt
  | gtgt
deriving DecidableEq, Repr

inductive Token where
  | bar
  | lparen
  | rparen
  | semi
  | amp
  | redir (op : Op)
  | word (w : Word)
deriving DecidableEq, Repr

/-- What `gettoken` returns for a token. -/
def Token.code : Token → UInt8
  | .bar => '|'.toUInt8
  | .lparen => '('.toUInt8
  | .rparen => ')'.toUInt8
  | .semi => ';'.toUInt8
  | .amp => '&'.toUInt8
  | .redir .lt => '<'.toUInt8
  | .redir .gt => '>'.toUInt8
  | .redir .gtgt => '+'.toUInt8
  | .word _ => 'a'.toUInt8

/-- The symbol that a token begins with. -/
def Token.lead : Token → Option Char
  | .bar => some '|'
  | .lparen => some '('
  | .rparen => some ')'
  | .semi => some ';'
  | .amp => some '&'
  | .redir .lt => some '<'
  | .redir _ => some '>'
  | .word _ => none

/-- The tokens of one byte that are not the beginning of another. -/
def single (c : UInt8) : Option Token :=
  if c = '|'.toUInt8 then some .bar
  else if c = '('.toUInt8 then some .lparen
  else if c = ')'.toUInt8 then some .rparen
  else if c = ';'.toUInt8 then some .semi
  else if c = '&'.toUInt8 then some .amp
  else if c = '<'.toUInt8 then some (.redir .lt)
  else none

/-- The token at `pos`, whose first byte is `c`, and how many bytes of `cs` are in it. -/
def firstToken (pos : Nat) (c : UInt8) (cs : List UInt8) : Token × Nat :=
  match single c with
  | some t => (t, 0)
  | none =>
    if c = '>'.toUInt8 then
      if cs.head? = some '>'.toUInt8 then (.redir .gtgt, 1) else (.redir .gt, 0)
    else
      let n := (cs.takeWhile wordByte).length
      (.word ⟨pos, pos + 1 + n⟩, n)

/-- The tokens of a text that begins at `pos`. -/
def lex : Nat → List UInt8 → List Token
  | _, [] => []
  | pos, c :: cs =>
    if blank c then lex (pos + 1) cs
    else
      let n := (firstToken pos c cs).2
      (firstToken pos c cs).1 :: lex (pos + 1 + n) (cs.drop n)
termination_by _ cs => cs.length
decreasing_by
  · simp
  · simp only [List.length_drop, List.length_cons]
    omega

/-! ## The grammar -/

structure Redir where
  op : Op
  file : Word

def Redir.tokens (r : Redir) : List Token := [.redir r.op, .word r.file]

/-- The command with the redirection around it. -/
def Redir.wrap (cmd : Cmd) (r : Redir) : Cmd :=
  match r.op with
  | .lt => .redir cmd r.file O_RDONLY 0
  | .gt | .gtgt => .redir cmd r.file (O_WRONLY ||| O_CREATE) 1

/-- A word of a simple command, and the redirections after it. -/
structure Arg where
  word : Word
  redirs : List Redir

def Arg.tokens (a : Arg) : List Token := .word a.word :: a.redirs.flatMap Redir.tokens

/-- The redirections in order, the last one outermost. -/
def wrapAll (cmd : Cmd) (rs : List Redir) : Cmd := rs.foldl Redir.wrap cmd

def backs : Nat → Cmd → Cmd
  | 0, cmd => cmd
  | n + 1, cmd => backs n (.back cmd)

mutual

/-- `line ::= pipe '&'* [';' line]`. -/
inductive Line : List Token → Cmd → Prop
  | last {ts : List Token} {c : Cmd} (n : Nat) : Pipe ts c →
      Line (ts ++ List.replicate n .amp) (backs n c)
  | more {ts us : List Token} {c d : Cmd} (n : Nat) : Pipe ts c → Line us d →
      Line (ts ++ (List.replicate n .amp ++ .semi :: us)) (.list (backs n c) d)

inductive Pipe : List Token → Cmd → Prop
  | last {ts : List Token} {c : Cmd} : Exec ts c → Pipe ts c
  | more {ts us : List Token} {c d : Cmd} : Exec ts c → Pipe us d →
      Pipe (ts ++ .bar :: us) (.pipe c d)

/-- `exec ::= '(' line ')' redir* | redir* (word redir*)*`, with fewer than `MAXARGS`
words. -/
inductive Exec : List Token → Cmd → Prop
  | block {ts : List Token} {c : Cmd} (rs : List Redir) : Line ts c →
      Exec (.lparen :: (ts ++ .rparen :: rs.flatMap Redir.tokens)) (wrapAll c rs)
  | simple (rs : List Redir) (args : List Arg) : args.length ≤ MAXARGS - 1 →
      Exec (rs.flatMap Redir.tokens ++ args.flatMap Arg.tokens)
        (wrapAll (.exec (args.map Arg.word)) (rs ++ args.flatMap Arg.redirs))

end

/-! ## The loops over bytes -/

section

variable {buf : List UInt8} {s : Nat}

/-- Where the loop over the bytes with `p` ends. -/
def stop (buf : List UInt8) (p : UInt8 → Bool) (s : Nat) : Nat :=
  s + ((buf.drop s).takeWhile p).length

theorem stop_le {p : UInt8 → Bool} (hs : s ≤ buf.length) : stop buf p s ≤ buf.length := by
  have hlen := (List.takeWhile_prefix p (l := buf.drop s)).length_le
  rw [List.length_drop] at hlen
  unfold stop
  omega

theorem drop_stop (p : UInt8 → Bool) (s : Nat) :
    buf.drop (stop buf p s) = (buf.drop s).dropWhile p := by
  have happ := List.takeWhile_append_dropWhile (p := p) (l := buf.drop s)
  calc buf.drop (stop buf p s)
      = (buf.drop s).drop ((buf.drop s).takeWhile p).length := by rw [stop, List.drop_drop]
    _ = ((buf.drop s).takeWhile p ++ (buf.drop s).dropWhile p).drop
          ((buf.drop s).takeWhile p).length := by rw [happ]
    _ = (buf.drop s).dropWhile p := List.drop_left

theorem charAt_lt (h : s < buf.length) (st : Nat) : charAt buf s st = .ok (buf[s], st) := by
  have he : (buf ++ [0])[s]? = some buf[s] := by
    rw [List.getElem?_append_left h, List.getElem?_eq_getElem h]
  rw [charAt, he]
  rfl

theorem charAt_run (h : s ≤ buf.length) (st : Nat) :
    charAt buf s st = .ok ((buf.drop s).head?.getD 0, st) := by
  rcases Nat.eq_or_lt_of_le h with rfl | hlt
  · have he : (buf ++ [0])[buf.length]? = some 0 := by simp
    rw [charAt, he, List.drop_length]
    rfl
  · rw [charAt_lt hlt, List.drop_eq_getElem_cons hlt]
    rfl

theorem scan_run (p : UInt8 → Bool) (st : Nat) : ∀ n s, s ≤ buf.length → buf.length - s < n →
    scan buf p n s st = .ok (stop buf p s, st)
  | 0, _, _, hn => by omega
  | n + 1, s, hs, hn => by
    rw [scan]
    split
    · next hlt =>
        have hdrop := List.drop_eq_getElem_cons hlt
        rw [bind_of_ok (charAt_lt hlt st)]
        split
        · next hp =>
            rw [scan_run p st n (s + 1) hlt (by omega)]
            have he : stop buf p (s + 1) = stop buf p s := by
              rw [stop, stop, hdrop, List.takeWhile_cons_of_pos hp, List.length_cons]
              omega
            rw [he]
        · next hp =>
            have he : stop buf p s = s := by
              rw [stop, hdrop, List.takeWhile_cons_of_neg hp]
              rfl
            rw [he]
            rfl
    · next hge =>
        have he : stop buf p s = s := by
          rw [stop, List.drop_of_length_le (Nat.le_of_not_lt hge)]
          rfl
        rw [he]
        rfl

theorem skip_run (p : UInt8 → Bool) (hs : s ≤ buf.length) (st : Nat) :
    skip buf p s st = .ok (stop buf p s, st) :=
  scan_run p st _ _ hs (by omega)

/-! ## One token -/

def toks (buf : List UInt8) (s : Nat) : List Token := lex s (buf.drop s)

theorem lex_blanks : ∀ (cs : List UInt8) (pos : Nat),
    lex (pos + (cs.takeWhile blank).length) (cs.dropWhile blank) = lex pos cs
  | [], _ => rfl
  | c :: cs, pos => by
    cases hc : blank c with
    | true =>
      rw [List.takeWhile_cons_of_pos hc, List.dropWhile_cons_of_pos hc, lex, if_pos hc,
        List.length_cons, ← lex_blanks cs (pos + 1)]
      congr 1
      omega
    | false =>
      have hne : ¬ blank c = true := by simp [hc]
      rw [List.takeWhile_cons_of_neg hne, List.dropWhile_cons_of_neg hne]
      rfl

theorem toks_stop (s : Nat) : toks buf (stop buf blank s) = toks buf s := by
  rw [toks, drop_stop, stop, lex_blanks, toks]

/-- Behind the blanks there is a byte of a token, or the end. -/
theorem stop_cases (hs : s ≤ buf.length) : stop buf blank s = buf.length ∨
    ∃ h : stop buf blank s < buf.length, blank buf[stop buf blank s] = false := by
  rcases Nat.eq_or_lt_of_le (stop_le (p := blank) hs) with he | hlt
  · exact .inl he
  · refine .inr ⟨hlt, ?_⟩
    have hdrop := List.drop_eq_getElem_cons hlt
    rw [drop_stop] at hdrop
    have hne : (buf.drop s).dropWhile blank ≠ [] := by
      rw [hdrop]
      exact List.cons_ne_nil _ _
    have hnot := List.head_dropWhile_not blank hne
    simpa [hdrop] using hnot

theorem single_some {c : UInt8} {t : Token} (h : single c = some t) :
    strchr (['|', '(', ')', ';', '&', '<'].map Char.toUInt8) c = true ∧ t.code = c := by
  unfold single at h
  split_ifs at h with h₁ h₂ h₃ h₄ h₅ h₆ <;> cases h <;> simp_all [strchr, Token.code]

theorem single_none {c : UInt8} (h : single c = none) :
    strchr (['|', '(', ')', ';', '&', '<'].map Char.toUInt8) c = false := by
  unfold single at h
  split_ifs at h with h₁ h₂ h₃ h₄ h₅ h₆
  simp [strchr, h₁, h₂, h₃, h₄, h₅, h₆]

theorem wordByte_of_ne {c : UInt8} (hb : blank c = false) (h : single c = none)
    (hgt : c ≠ '>'.toUInt8) : wordByte c = true := by
  have hs := single_none h
  simp only [strchr, List.map_cons, List.map_nil, List.contains_eq_mem, List.mem_cons,
    List.not_mem_nil, or_false, decide_eq_false_iff_not, not_or] at hs
  have hsym : strchr symbols c = false := by
    simp [strchr, symbols, hs, hgt]
  rw [blank] at hb
  simp [wordByte, hb, hsym]

theorem tokenAt_run (hlt : s < buf.length) (hz : buf[s] ≠ 0) (hb : blank buf[s] = false)
    (st : Nat) :
    tokenAt buf s st = .ok (((firstToken s buf[s] (buf.drop (s + 1))).1.code,
      s + 1 + (firstToken s buf[s] (buf.drop (s + 1))).2), st) := by
  rw [tokenAt, bind_of_ok (charAt_lt hlt st), if_neg hz, firstToken]
  cases hsingle : single buf[s] with
  | some t =>
    obtain ⟨hin, hcode⟩ := single_some hsingle
    rw [if_pos hin]
    simp only [hcode]
    rfl
  | none =>
    rw [single_none hsingle, if_neg Bool.false_ne_true]
    split
    · next hgt =>
        rw [bind_of_ok (charAt_run hlt st)]
        cases hh : (buf.drop (s + 1)).head? with
        | none =>
          rw [hgt]
          rfl
        | some c' =>
          simp only [Option.getD_some, Option.some.injEq]
          split
          · rfl
          · rw [hgt]
            rfl
    · next hgt =>
        have hw := wordByte_of_ne hb hsingle hgt
        rw [bind_of_ok (skip_run wordByte (Nat.le_of_lt hlt) st), stop, List.drop_eq_getElem_cons hlt,
          List.takeWhile_cons_of_pos hw, List.length_cons]
        simp only [Token.code]
        have he : s + (((buf.drop (s + 1)).takeWhile wordByte).length + 1) =
            s + 1 + ((buf.drop (s + 1)).takeWhile wordByte).length := by omega
        rw [he]
        rfl

theorem firstToken_le (pos : Nat) (c : UInt8) (cs : List UInt8) :
    (firstToken pos c cs).2 ≤ cs.length := by
  unfold firstToken
  split
  · exact Nat.zero_le _
  · split
    · split
      · next hh =>
          cases cs with
          | nil => cases hh
          | cons => simp
      · exact Nat.zero_le _
    · exact (List.takeWhile_prefix wordByte).length_le

theorem firstToken_word {pos : Nat} {c : UInt8} {cs : List UInt8} {w : Word}
    (h : (firstToken pos c cs).1 = .word w) : w = ⟨pos, pos + 1 + (firstToken pos c cs).2⟩ := by
  unfold firstToken at h ⊢
  cases hsingle : single c with
  | some t =>
    rw [hsingle] at h
    cases h
    unfold single at hsingle
    split_ifs at hsingle <;> cases hsingle
  | none =>
    rw [hsingle] at h
    by_cases hgt : c = '>'.toUInt8
    · simp only [hgt, if_true] at h
      split at h <;> cases h
    · simp only [hgt, if_false] at h ⊢
      cases h
      rfl

def symbolChars : List Char := ['<', '|', '>', '&', ';', '(', ')']

theorem symbolChars_nodup : (symbolChars.map Char.toUInt8).Nodup := by decide

/-- Looking for symbols at a byte is looking for them at the token there. -/
theorem firstToken_lead {cs : List Char} (hcs : cs ⊆ symbolChars) (pos : Nat) {c : UInt8}
    (hb : blank c = false) (rest : List UInt8) :
    strchr (cs.map Char.toUInt8) c = (firstToken pos c rest).1.lead.any fun x => cs.contains x := by
  have hlead : ∀ x ∈ symbolChars, x.toUInt8 = c →
      strchr (cs.map Char.toUInt8) c = cs.contains x := by
    intro x hx hxc
    rw [strchr, Bool.eq_iff_iff, List.contains_iff_mem, List.contains_iff_mem, List.mem_map]
    constructor
    · rintro ⟨y, hy, hyc⟩
      exact List.inj_on_of_nodup_map symbolChars_nodup (hcs hy) hx (hyc.trans hxc.symm) ▸ hy
    · exact fun hx => ⟨x, hx, hxc⟩
  unfold firstToken
  cases hsingle : single c with
  | some t =>
    unfold single at hsingle
    split_ifs at hsingle with h₁ h₂ h₃ h₄ h₅ h₆ <;> cases hsingle <;>
      exact hlead _ (by decide) (by rw [‹c = _›])
  | none =>
    by_cases hgt : c = '>'.toUInt8
    · have hgt' := hlead '>' (by decide) hgt.symm
      simp only [hgt, if_true] at hgt' ⊢
      split <;> exact hgt'
    · simp only [hgt, if_false, Token.lead, Option.any_none]
      have hw := wordByte_of_ne hb hsingle hgt
      rw [strchr, Bool.eq_false_iff, Ne, List.contains_iff_mem, List.mem_map]
      rintro ⟨x, hx, hxc⟩
      have hsym : c ∈ symbols := hxc ▸ List.mem_map_of_mem (hcs hx)
      simp [wordByte, strchr, hsym] at hw

/-- The cursor is in the line, and the tokens from it on are `ts`. -/
structure At (buf : List UInt8) (ts : List Token) (s : Nat) : Prop where
  le : s ≤ buf.length
  tokens : toks buf s = ts

theorem At.stop {ts : List Token} (h : At buf ts s) : At buf ts (stop buf blank s) :=
  ⟨stop_le h.le, (toks_stop s).trans h.tokens⟩

/-- The byte after the blanks: the end of the line, or the first one of a token. -/
theorem At.cases {ts : List Token} (h : At buf ts s) :
    (ts = [] ∧ Sh.stop buf blank s = buf.length) ∨
    ∃ q, Sh.stop buf blank s = q ∧ ∃ hlt : q < buf.length, blank buf[q] = false ∧
      ts = (firstToken q buf[q] (buf.drop (q + 1))).1 ::
        toks buf (q + 1 + (firstToken q buf[q] (buf.drop (q + 1))).2) := by
  have htoks := h.stop.tokens
  rcases stop_cases h.le with he | ⟨hlt, hb⟩
  · refine .inl ⟨?_, he⟩
    rw [← htoks, he, toks, List.drop_length]
    exact lex.eq_1 _
  · refine .inr ⟨_, rfl, hlt, hb, ?_⟩
    have hne : ¬ blank buf[Sh.stop buf blank s] = true := by simp [hb]
    rw [← htoks, toks, List.drop_eq_getElem_cons hlt, lex, if_neg hne, toks]
    simp only [List.drop_drop]

theorem gettoken_run {q e : Nat} {ret : UInt8} (hs : s ≤ buf.length)
    (hq : stop buf blank s = q) (ht : tokenAt buf q s = .ok ((ret, e), s))
    (he : e ≤ buf.length) :
    gettoken buf s = .ok ((ret, ⟨q, e⟩), stop buf blank e) := by
  rw [gettoken, get_bind_apply, bind_of_ok (skip_run blank hs s), hq, bind_of_ok ht]
  show (skip buf blank e >>= _) s = _
  rw [bind_of_ok (skip_run blank he s)]
  rfl

theorem gettoken_nil (h : At buf [] s) :
    wp (gettoken buf) (fun r s' => r.1 = 0 ∧ At buf [] s') (fun _ => False) s := by
  rcases h.cases with ⟨-, he⟩ | ⟨q, hq, hlt, hb, hts⟩
  · have ht : tokenAt buf buf.length s = .ok ((0, buf.length), s) := by
      rw [tokenAt, bind_of_ok (charAt_run (Nat.le_refl _) s), List.drop_length]
      rfl
    have hstop := h.stop
    rw [wp, gettoken_run h.le he ht (Nat.le_refl _)]
    refine ⟨rfl, At.stop ?_⟩
    rw [← he]
    exact hstop
  · cases hts

theorem gettoken_cons (hz : 0 ∉ buf) {t : Token} {ts : List Token} (h : At buf (t :: ts) s) :
    wp (gettoken buf) (fun r s' => r.1 = t.code ∧ (∀ w, t = .word w → r.2 = w) ∧ At buf ts s')
      (fun _ => False) s := by
  rcases h.cases with ⟨hnil, -⟩ | ⟨q, hq, hlt, hb, hts⟩
  · cases hnil
  · have hne : buf[q] ≠ 0 := fun he => hz (he ▸ List.getElem_mem hlt)
    have hle : q + 1 + (firstToken q buf[q] (buf.drop (q + 1))).2 ≤ buf.length := by
      have := firstToken_le q buf[q] (buf.drop (q + 1))
      rw [List.length_drop] at this
      omega
    rw [wp, gettoken_run h.le hq (tokenAt_run hlt hne hb s) hle]
    obtain ⟨rfl, rfl⟩ := List.cons.inj hts
    exact ⟨rfl, fun w hw => (firstToken_word hw).symm, At.stop ⟨hle, rfl⟩⟩

/-- Does the list begin with one of the symbols? -/
def startsWith (cs : List Char) (ts : List Token) : Bool :=
  ts.head?.any fun t => t.lead.any fun c => cs.contains c

theorem peek_spec (hz : 0 ∉ buf) {cs : List Char} {ts : List Token}
    (hcs : cs ⊆ symbolChars) (h : At buf ts s) :
    wp (peek buf cs) (fun r s' => r = startsWith cs ts ∧ At buf ts s' ∧
      (ts = [] → s' = buf.length)) (fun _ => False) s := by
  have hrun : peek buf cs s = .ok (((buf.drop (stop buf blank s)).head?.getD 0 != 0 &&
        strchr (cs.map Char.toUInt8) ((buf.drop (stop buf blank s)).head?.getD 0)),
        stop buf blank s) := by
    have hset : (set (stop buf blank s) : ParseM PUnit) s = .ok (⟨⟩, stop buf blank s) := rfl
    rw [peek, get_bind_apply, bind_of_ok (skip_run blank h.le s), bind_of_ok hset,
      bind_of_ok (charAt_run (stop_le h.le) _)]
    rfl
  rw [wp, hrun]
  rcases h.cases with ⟨rfl, he⟩ | ⟨q, hq, hlt, hb, hts⟩
  · refine ⟨?_, h.stop, fun _ => he⟩
    rw [he, List.drop_length]
    rfl
  · have hne : buf[q] ≠ 0 := fun he => hz (he ▸ List.getElem_mem hlt)
    refine ⟨?_, h.stop, fun hnil => ?_⟩
    · rw [hq, List.drop_eq_getElem_cons hlt, hts]
      simp only [List.head?_cons, Option.getD_some, startsWith, Option.any_some,
        ← firstToken_lead hcs q hb]
      simp [hne]
    · rw [hnil] at hts
      cases hts

theorem lex_length_le (pos : Nat) (cs : List UInt8) : (lex pos cs).length ≤ cs.length := by
  fun_induction lex pos cs with
  | case1 => exact Nat.le_refl _
  | case2 pos c cs hb ih => exact Nat.le_succ_of_le ih
  | case3 pos c cs hb n ih =>
    rw [List.length_drop] at ih
    simp only [List.length_cons]
    omega

end

end Xv6Pdx.Sh
