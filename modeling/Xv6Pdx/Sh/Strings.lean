/-
# `Sh.Strings` — the strings of a parsed line

`nulterminate` writes a NUL behind every word of the tree.  The byte there is a blank,
a symbol or the NUL of the line, so that no word loses a byte: the bytes of
words are those that are neither blank nor a symbol.
-/
import Xv6Pdx.Sh.Parse

namespace Xv6Pdx.Sh

open Lib

/-- The words of a tree, in the order in which `nulterminate` comes to them. -/
def Cmd.words : Cmd → List Word
  | .exec argv => argv
  | .redir cmd file _ _ => cmd.words ++ [file]
  | .pipe left right => left.words ++ right.words
  | .list left right => left.words ++ right.words
  | .back cmd => cmd.words

def Word.text (buf : List UInt8) (w : Word) : List UInt8 := (buf.drop w.q).take (w.eq - w.q)

/-- The word is a maximal run of bytes of words. -/
structure Placed (buf : List UInt8) (w : Word) : Prop where
  le : w.q ≤ w.eq
  bound : w.eq ≤ buf.length
  text : ∀ b ∈ w.text buf, wordByte b = true
  ends : ∀ b, buf[w.eq]? = some b → wordByte b = false

section

variable {buf : List UInt8}

/-! ## The words of a line -/

theorem placed_run (s : Nat) (hs : s ≤ buf.length) : Placed buf ⟨s, stop buf wordByte s⟩ := by
  have htext : Word.text buf ⟨s, stop buf wordByte s⟩ = (buf.drop s).takeWhile wordByte := by
    rw [Word.text, stop, Nat.add_sub_cancel_left]
    exact (List.prefix_iff_eq_take.mp (List.takeWhile_prefix wordByte)).symm
  refine ⟨Nat.le_add_right .., stop_le hs, ?_, ?_⟩
  · intro b hb
    rw [htext] at hb
    exact List.mem_takeWhile_imp hb
  · intro b hb
    have hnot := List.head?_dropWhile_not wordByte (buf.drop s)
    rw [← drop_stop, List.head?_drop, hb] at hnot
    exact hnot

theorem firstToken_placed {s : Nat} (hlt : s < buf.length) {w : Word} (hb : blank buf[s] = false)
    (h : (firstToken s buf[s] (buf.drop (s + 1))).1 = .word w) : Placed buf w := by
  have hw := firstToken_word h
  unfold firstToken at h hw
  cases hsingle : single buf[s] with
  | some t =>
    rw [hsingle] at h
    cases h
    unfold single at hsingle
    split_ifs at hsingle <;> cases hsingle
  | none =>
    rw [hsingle] at h hw
    by_cases hgt : buf[s] = '>'.toUInt8
    · simp only [hgt, if_true] at h
      split at h <;> cases h
    · have hbyte := wordByte_of_ne hb hsingle hgt
      have hstop : stop buf wordByte s =
          s + 1 + ((buf.drop (s + 1)).takeWhile wordByte).length := by
        rw [stop, List.drop_eq_getElem_cons hlt, List.takeWhile_cons_of_pos hbyte, List.length_cons]
        omega
      simp only [hgt, if_false, ← hstop] at hw
      rw [hw]
      exact placed_run s (Nat.le_of_lt hlt)

theorem toks_placed {w : Word} : ∀ (n s : Nat), buf.length - s ≤ n → s ≤ buf.length →
    .word w ∈ toks buf s → Placed buf w := by
  intro n
  induction n with
  | zero =>
    intro s hn hs hw
    rcases (At.mk hs rfl).cases with ⟨hnil, -⟩ | ⟨q, hq, hlt, -⟩
    · rw [hnil] at hw
      cases hw
    · have hle : s ≤ stop buf blank s := Nat.le_add_right ..
      omega
  | succ n ih =>
    intro s hn hs hw
    rcases (At.mk hs rfl).cases with ⟨hnil, -⟩ | ⟨q, hq, hlt, hb, hts⟩
    · rw [hnil] at hw
      cases hw
    · have hle : s ≤ stop buf blank s := Nat.le_add_right ..
      have hlen := firstToken_le q buf[q] (buf.drop (q + 1))
      rw [List.length_drop] at hlen
      rw [hts] at hw
      rcases List.mem_cons.mp hw with hw | hw
      · exact firstToken_placed hlt hb hw.symm
      · exact ih _ (by omega) (by omega) hw

/-! ## The words of a tree -/

theorem words_wrapAll {w : Word} : ∀ (rs : List Redir) (c : Cmd), w ∈ (wrapAll c rs).words →
    w ∈ c.words ∨ Token.word w ∈ rs.flatMap Redir.tokens
  | [], _, h => .inl h
  | r :: rs, c, h => by
    rcases words_wrapAll rs (Redir.wrap c r) h with h | h
    · have hr : (Redir.wrap c r).words = c.words ++ [r.file] := by
        rcases r with ⟨_ | _ | _, _⟩ <;> rfl
      rw [hr, List.mem_append, List.mem_singleton] at h
      rcases h with h | rfl
      · exact .inl h
      · exact .inr (by simp [Redir.tokens])
    · exact .inr (by simp [h])

theorem words_backs : ∀ (n : Nat) (c : Cmd), (backs n c).words = c.words
  | 0, _ => rfl
  | n + 1, c => words_backs n (.back c)

mutual

theorem Line.words_mem {w : Word} : ∀ {ts : List Token} {c : Cmd}, Line ts c → w ∈ c.words →
    Token.word w ∈ ts
  | _, _, .last n hpipe, hw => by
    rw [words_backs] at hw
    exact List.mem_append_left _ (hpipe.words_mem hw)
  | _, _, .more n hpipe hline, hw => by
    rw [Cmd.words, words_backs, List.mem_append] at hw
    rcases hw with hw | hw
    · exact List.mem_append_left _ (hpipe.words_mem hw)
    · simp [hline.words_mem hw]

theorem Pipe.words_mem {w : Word} : ∀ {ts : List Token} {c : Cmd}, Pipe ts c → w ∈ c.words →
    Token.word w ∈ ts
  | _, _, .last hexec, hw => hexec.words_mem hw
  | _, _, .more hexec hpipe, hw => by
    rw [Cmd.words, List.mem_append] at hw
    rcases hw with hw | hw
    · exact List.mem_append_left _ (hexec.words_mem hw)
    · simp [hpipe.words_mem hw]

theorem Exec.words_mem {w : Word} : ∀ {ts : List Token} {c : Cmd}, Exec ts c → w ∈ c.words →
    Token.word w ∈ ts
  | _, _, .block rs hline, hw => by
    rcases words_wrapAll rs _ hw with hw | hw
    · simp [hline.words_mem hw]
    · simp [hw]
  | _, _, .simple rs args _, hw => by
    rcases words_wrapAll _ _ hw with hw | hw
    · refine List.mem_append_right _ ?_
      obtain ⟨a, ha, rfl⟩ := List.mem_map.mp hw
      exact List.mem_flatMap.mpr ⟨a, ha, List.mem_cons_self⟩
    · obtain ⟨r, hr, hwr⟩ := List.mem_flatMap.mp hw
      rcases List.mem_append.mp hr with hr | hr
      · exact List.mem_append_left _ (List.mem_flatMap.mpr ⟨r, hr, hwr⟩)
      · obtain ⟨a, ha, hra⟩ := List.mem_flatMap.mp hr
        refine List.mem_append_right _ (List.mem_flatMap.mpr ⟨a, ha, ?_⟩)
        exact List.mem_cons_of_mem _ (List.mem_flatMap.mpr ⟨r, hra, hwr⟩)

end

/-! ## The terminators -/

def cut (es : List Nat) (mem : List UInt8) : List UInt8 := es.foldl (fun mem e => mem.set e 0) mem

theorem cut_append (es es' : List Nat) (mem : List UInt8) :
    cut (es ++ es') mem = cut es' (cut es mem) := List.foldl_append

theorem length_cut : ∀ (es : List Nat) (mem : List UInt8), (cut es mem).length = mem.length
  | [], _ => rfl
  | _ :: es, _ => (length_cut es _).trans List.length_set

theorem getElem?_cut_notMem {i : Nat} : ∀ {es : List Nat} {mem : List UInt8}, i ∉ es →
    (cut es mem)[i]? = mem[i]?
  | [], _, _ => rfl
  | _ :: _, _, hi => by
    rw [List.mem_cons, not_or] at hi
    rw [cut, List.foldl_cons]
    exact (getElem?_cut_notMem hi.2).trans (List.getElem?_set_ne (Ne.symm hi.1))

theorem getElem?_cut_mem {i : Nat} : ∀ {es : List Nat} {mem : List UInt8}, i ∈ es →
    i < mem.length → (cut es mem)[i]? = some 0
  | e :: es, mem, hi, hlt => by
    have hlt' : i < (mem.set e 0).length := by rwa [List.length_set]
    rw [cut, List.foldl_cons]
    by_cases hes : i ∈ es
    · exact getElem?_cut_mem hes hlt'
    · have he : i = e := (List.mem_cons.mp hi).resolve_right hes
      subst he
      exact (getElem?_cut_notMem hes).trans (List.getElem?_set_self hlt)

theorem poke_run {e : Nat} {mem : List UInt8} (h : e < mem.length) :
    poke e mem = .ok (cut [e] mem) := if_pos h

theorem pokes_run : ∀ (ws : List Word) (mem : List UInt8), (∀ w ∈ ws, w.eq < mem.length) →
    ws.foldlM (fun mem w => poke w.eq mem) mem = .ok (cut (ws.map Word.eq) mem)
  | [], _, _ => rfl
  | w :: ws, mem, h => by
    have hlen : ∀ v ∈ ws, v.eq < (cut [w.eq] mem).length := by
      intro v hv
      rw [length_cut]
      exact h v (List.mem_cons_of_mem _ hv)
    rw [List.foldlM_cons, poke_run (h w List.mem_cons_self)]
    exact pokes_run ws _ hlen

/-- The NULs are written behind the words of the tree, and nowhere else. -/
theorem nulterminate_run : ∀ (c : Cmd) (mem : List UInt8), (∀ w ∈ c.words, w.eq < mem.length) →
    nulterminate c mem = .ok (cut (c.words.map Word.eq) mem)
  | .exec argv, mem, h => pokes_run argv mem h
  | .redir c file _ _, mem, h => by
    have hc := nulterminate_run c mem fun w hw => h w (List.mem_append_left _ hw)
    have hfile : file.eq < (cut (c.words.map Word.eq) mem).length := by
      rw [length_cut]
      exact h file (by simp [Cmd.words])
    rw [nulterminate, hc, Cmd.words, List.map_append, cut_append]
    exact poke_run hfile
  | .pipe l r, mem, h => by
    have hl := nulterminate_run l mem fun w hw => h w (List.mem_append_left _ hw)
    have hr := nulterminate_run r (cut (l.words.map Word.eq) mem) fun w hw => by
      rw [length_cut]
      exact h w (List.mem_append_right _ hw)
    rw [nulterminate, hl, Cmd.words, List.map_append, cut_append]
    exact hr
  | .list l r, mem, h => by
    have hl := nulterminate_run l mem fun w hw => h w (List.mem_append_left _ hw)
    have hr := nulterminate_run r (cut (l.words.map Word.eq) mem) fun w hw => by
      rw [length_cut]
      exact h w (List.mem_append_right _ hw)
    rw [nulterminate, hl, Cmd.words, List.map_append, cut_append]
    exact hr
  | .back c, mem, h => nulterminate_run c mem h

theorem Placed.disjoint {v w : Word} (hv : Placed buf v) (hw : Placed buf w) :
    ¬ (w.q ≤ v.eq ∧ v.eq < w.eq) := by
  rintro ⟨hle, hlt⟩
  have hbound : v.eq < buf.length := hlt.trans_le hw.bound
  have hmem : buf[v.eq] ∈ w.text buf := by
    refine List.mem_iff_getElem?.mpr ⟨v.eq - w.q, ?_⟩
    rw [Word.text, List.getElem?_take_of_lt (by omega), List.getElem?_drop,
      Nat.add_sub_cancel' hle, List.getElem?_eq_getElem hbound]
  have hend := hv.ends buf[v.eq] (List.getElem?_eq_getElem hbound)
  rw [hw.text _ hmem] at hend
  cases hend

/-- With a NUL behind every word, the string at a word is its text. -/
theorem cstring_cut (hz : 0 ∉ buf) {ws : List Word} (hws : ∀ w ∈ ws, Placed buf w) {w : Word}
    (hw : w ∈ ws) : cstring (cut (ws.map Word.eq) (buf ++ [0])) w.q = w.text buf := by
  have hp := hws w hw
  obtain ⟨mem, hmem⟩ : ∃ mem, cut (ws.map Word.eq) (buf ++ [0]) = mem := ⟨_, rfl⟩
  have hlen : mem.length = buf.length + 1 := by
    rw [← hmem, length_cut, List.length_append]
    rfl
  have hend : mem[w.eq]? = some 0 := by
    rw [← hmem]
    refine getElem?_cut_mem (List.mem_map_of_mem hw) ?_
    rw [List.length_append]
    exact Nat.lt_succ_of_le hp.bound
  have htext : (mem.drop w.q).take (w.eq - w.q) = w.text buf := by
    refine List.ext_getElem? fun i => ?_
    rw [Word.text, List.getElem?_take, List.getElem?_take]
    split
    · next hi =>
        rw [List.getElem?_drop, List.getElem?_drop, ← hmem, getElem?_cut_notMem,
          List.getElem?_append_left (by have := hp.bound; omega)]
        rintro hin
        obtain ⟨v, hv, he⟩ := List.mem_map.mp hin
        exact (hws v hv).disjoint hp ⟨by omega, by omega⟩
    · rfl
  have hnz : ∀ b ∈ w.text buf, decide (b ≠ 0) = true := by
    intro b hb
    rw [decide_eq_true_eq]
    rintro rfl
    exact hz (List.mem_of_mem_drop (List.mem_of_mem_take hb))
  -- the text, then the NUL
  have hsplit : mem.drop w.q = w.text buf ++ 0 :: mem.drop (w.eq + 1) := by
    have hlt : w.eq < mem.length := by
      have := hp.bound
      omega
    have h₀ : mem[w.eq] = 0 := by
      rw [List.getElem?_eq_getElem hlt] at hend
      exact Option.some.inj hend
    rw [← htext, ← h₀, ← List.drop_eq_getElem_cons hlt]
    conv_lhs => rw [← List.take_append_drop (w.eq - w.q) (mem.drop w.q), List.drop_drop,
      Nat.add_sub_cancel' hp.le]
  rw [hmem, cstring, hsplit, List.takeWhile_append_of_pos hnz]
  simp

/-! ## `parsecmd` -/

theorem parsecmd_of_parseall {c : Cmd} {s : Nat} (hline : Line (toks buf 0) c)
    (hrun : parseall buf 0 = .ok (c, s)) :
    parsecmd buf = .ok (c, cut (c.words.map Word.eq) (buf ++ [0])) := by
  have hwords : ∀ w ∈ c.words, w.eq < (buf ++ [0]).length := by
    intro w hw
    have hp := toks_placed buf.length 0 (Nat.sub_le ..) (Nat.zero_le _) (hline.words_mem hw)
    rw [List.length_append]
    exact Nat.lt_succ_of_le hp.bound
  rw [parsecmd, hrun]
  show (nulterminate c (buf ++ [0]) >>= _) = _
  rw [nulterminate_run c _ hwords]
  rfl

/-- A line is refused, and then the grammar does not derive it, or it has one tree. -/
theorem parsecmd_cases (hz : 0 ∉ buf) :
    (∃ e ∈ refusals, parsecmd buf = .error e ∧ ∀ c, ¬ Line (toks buf 0) c) ∨
    ∃ c, parsecmd buf = .ok (c, cut (c.words.map Word.eq) (buf ++ [0])) ∧
      Line (toks buf 0) c ∧ ∀ d, Line (toks buf 0) d → d = c := by
  have hsound := parseall_sound hz
  cases hrun : parseall buf 0 with
  | error e =>
    refine .inl ⟨e, wp_of_error hsound hrun, by rw [parsecmd, hrun]; rfl, ?_⟩
    intro c hc
    exact wp_of_error (parseall_complete hz hc) hrun
  | ok r =>
    have hline := wp_of_ok hsound hrun
    refine .inr ⟨r.1, parsecmd_of_parseall hline hrun, hline, ?_⟩
    intro d hd
    exact (wp_of_ok (parseall_complete hz hd) hrun).symm

/-- `parsecmd` ends on every line, and returns a tree exactly if the grammar derives the tokens
of the line, then the tree of the derivation with the texts of its words. -/
theorem parsecmd_exact (buf : List UInt8) (hz : 0 ∉ buf) :
    ((∃ e ∈ refusals, parsecmd buf = .error e) ∨ ∃ c mem, parsecmd buf = .ok (c, mem)) ∧
    (∀ c, (∃ mem, parsecmd buf = .ok (c, mem)) ↔ Line (lex 0 buf) c) ∧
    ∀ c mem, parsecmd buf = .ok (c, mem) → ∀ w ∈ c.words,
      .word w ∈ lex 0 buf ∧ cstring mem w.q = w.text buf := by
  rcases parsecmd_cases hz with ⟨e, he, hrun, hnot⟩ | ⟨c, hrun, hline, huniq⟩
  · refine ⟨.inl ⟨e, he, hrun⟩, fun c => ⟨?_, fun hc => (hnot c hc).elim⟩, ?_⟩
    · rintro ⟨mem, hmem⟩
      cases hrun.symm.trans hmem
    · intro c mem hmem
      cases hrun.symm.trans hmem
  · refine ⟨.inr ⟨c, _, hrun⟩, fun d => ⟨?_, ?_⟩, ?_⟩
    · rintro ⟨mem, hmem⟩
      cases hrun.symm.trans hmem
      exact hline
    · intro hd
      cases huniq d hd
      exact ⟨_, hrun⟩
    · intro d mem hmem w hw
      cases hrun.symm.trans hmem
      have hplaced : ∀ v ∈ c.words, Placed buf v := fun v hv =>
        toks_placed buf.length 0 (Nat.sub_le ..) (Nat.zero_le _) (hline.words_mem hv)
      exact ⟨hline.words_mem hw, cstring_cut hz hplaced hw⟩

/-- The tree of `a>b|c &`, and the strings in it. -/
theorem piped_line : ∃ c mem, parsecmd [97, 62, 98, 124, 99, 32, 38] = .ok (c, mem) ∧
    c = .back (.pipe (.redir (.exec [⟨0, 1⟩]) ⟨2, 3⟩ 513 1) (.exec [⟨4, 5⟩])) ∧
    Line (lex 0 [97, 62, 98, 124, 99, 32, 38]) c ∧ cstring mem 2 = [98] := by
  have hrun : parsecmd [97, 62, 98, 124, 99, 32, 38] =
      .ok (.back (.pipe (.redir (.exec [⟨0, 1⟩]) ⟨2, 3⟩ 513 1) (.exec [⟨4, 5⟩])),
        [97, 0, 98, 0, 99, 0, 38, 0]) := by decide +kernel
  obtain ⟨-, hline, hstr⟩ := parsecmd_exact [97, 62, 98, 124, 99, 32, 38] (by decide)
  exact ⟨_, _, hrun, rfl, (hline _).mp ⟨_, hrun⟩, (hstr _ _ hrun ⟨2, 3⟩ (by decide)).2⟩

end

end Xv6Pdx.Sh
