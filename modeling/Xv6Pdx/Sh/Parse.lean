/-
# `Sh.Parse` — the parser accepts its grammar

Both directions are inductions on the fuel, over the routines that call each
other.  Soundness: what a routine consumes is derived by its rule, with the tree it
returns; and it ends, or panics over the syntax.  Completeness: on tokens that the
rule derives, followed by one that may follow it, the routine returns the
tree of the derivation and stops behind them.
-/
import Xv6Pdx.Sh.Grammar

namespace Xv6Pdx.Sh

open Lib

/-- The panics over the syntax of a line. -/
def refusals : List Stop :=
  [.panic "missing file for redirection", .panic "syntax", .panic "too many args",
    .panic "syntax - missing )"]

/-! ## `peek` and `gettoken` in a program -/

section

variable {buf : List UInt8} {s : Nat} {ts : List Token} {β : Type} {Q : β → Nat → Prop}
  {E : Stop → Prop}

theorem wp_peek (hz : 0 ∉ buf) {cs : List Char} (hcs : cs ⊆ symbolChars)
    {f : Bool → ParseM β} (h : At buf ts s)
    (hf : ∀ s', At buf ts s' → wp (f (startsWith cs ts)) Q E s') :
    wp (peek buf cs >>= f) Q E s := by
  refine wp_seq (wp_mono (peek_spec hz hcs h) (fun _ _ hr => hr) fun _ he => he.elim) ?_
  rintro _ s' ⟨rfl, hat, -⟩
  exact hf s' hat

theorem wp_gettoken (hz : 0 ∉ buf) {t : Token} {f : UInt8 × Word → ParseM β}
    (h : At buf (t :: ts) s)
    (hf : ∀ w s', (∀ w', t = .word w' → w = w') → At buf ts s' → wp (f (t.code, w)) Q E s') :
    wp (gettoken buf >>= f) Q E s := by
  refine wp_seq (wp_mono (gettoken_cons hz h) (fun _ _ hr => hr) fun _ he => he.elim) ?_
  rintro ⟨_, w⟩ s' ⟨rfl, hword, hat⟩
  exact hf w s' hword hat

theorem wp_gettoken_nil {f : UInt8 × Word → ParseM β} (h : At buf [] s)
    (hf : ∀ w s', At buf [] s' → wp (f (0, w)) Q E s') : wp (gettoken buf >>= f) Q E s := by
  refine wp_seq (wp_mono (gettoken_nil h) (fun _ _ hr => hr) fun _ he => he.elim) ?_
  rintro ⟨_, w⟩ s' ⟨rfl, hat⟩
  exact hf w s' hat

@[simp] theorem startsWith_nil (cs : List Char) : startsWith cs [] = false := rfl

@[simp] theorem startsWith_cons (cs : List Char) (t : Token) (ts : List Token) :
    startsWith cs (t :: ts) = t.lead.any fun c => cs.contains c := rfl

theorem startsWith_iff {cs : List Char} :
    startsWith cs ts = true ↔ ∃ t us c, ts = t :: us ∧ t.lead = some c ∧ c ∈ cs := by
  cases ts with
  | nil => simp
  | cons t us => simp [Option.any_eq_true]

/-- The tokens end, or go on with one of the symbols. -/
def Follows (cs : List Char) (ts : List Token) : Prop := ts = [] ∨ startsWith cs ts = true

/-- Of two sets of symbols without a common one, at most one begins the tokens. -/
theorem Follows.not_startsWith {cs ds : List Char} (h : Follows cs ts)
    (hdisj : cs.all (fun c => decide (c ∉ ds)) = true) : startsWith ds ts = false := by
  rcases h with rfl | h
  · rfl
  · obtain ⟨t, us, c, rfl, hlead, hc⟩ := startsWith_iff.mp h
    simp [hlead, of_decide_eq_true (List.all_eq_true.mp hdisj c hc)]

theorem Follows.mono {cs ds : List Char} (h : Follows cs ts) (hsub : cs ⊆ ds) : Follows ds ts := by
  rcases h with rfl | h
  · exact .inl rfl
  · obtain ⟨t, us, c, rfl, hlead, hc⟩ := startsWith_iff.mp h
    exact .inr (startsWith_iff.mpr ⟨t, us, c, rfl, hlead, hsub hc⟩)

theorem lead_inj {t t' : Token} {c : Char} (hc : c ≠ '>') (h : t.lead = some c)
    (h' : t'.lead = some c) : t' = t := by
  rcases t with _ | _ | _ | _ | _ | (_ | _ | _) | _ <;> cases h <;>
    rcases t' with _ | _ | _ | _ | _ | (_ | _ | _) | _ <;> simp_all [Token.lead]

theorem startsWith_token (t : Token) {c : Char} (hc : c ≠ '>') (ht : t.lead = some c)
    (h : startsWith [c] ts = true) : ∃ us, ts = t :: us := by
  obtain ⟨t', us, c', rfl, hlead, hmem⟩ := startsWith_iff.mp h
  cases List.mem_singleton.mp hmem
  exact ⟨us, by rw [lead_inj hc ht hlead]⟩

theorem startsWith_redir (h : startsWith ['<', '>'] ts = true) : ∃ op us, ts = .redir op :: us := by
  obtain ⟨t, us, c, rfl, hlead, hc⟩ := startsWith_iff.mp h
  simp only [List.mem_cons, List.not_mem_nil, or_false] at hc
  rcases hc with rfl | rfl <;>
    rcases t with _ | _ | _ | _ | _ | (_ | _ | _) | _ <;> simp [Token.lead] at hlead ⊢

end

/-! ## The loops -/

section

variable {buf : List UInt8} {s : Nat} {ts vs : List Token} {c : Cmd}

theorem exists_amps : ∀ ts : List Token,
    ∃ k vs, ts = List.replicate k .amp ++ vs ∧ startsWith ['&'] vs = false
  | [] => ⟨0, [], rfl, rfl⟩
  | t :: ts => by
    cases h : startsWith ['&'] (t :: ts) with
    | false => exact ⟨0, t :: ts, rfl, h⟩
    | true =>
      obtain ⟨us, he⟩ := startsWith_token .amp (by decide) rfl h
      obtain ⟨rfl, rfl⟩ := List.cons.inj he
      obtain ⟨k, vs, rfl, hvs⟩ := exists_amps ts
      exact ⟨k + 1, vs, rfl, hvs⟩

theorem parseback_spec (hz : 0 ∉ buf) (hvs : startsWith ['&'] vs = false) :
    ∀ (k n : Nat) (c : Cmd) (s : Nat), At buf (List.replicate k .amp ++ vs) s → k < n →
      wp (parseback buf n c) (fun c' s' => c' = backs k c ∧ At buf vs s') (fun _ => False) s
  | _, 0, _, _, _, hn => by omega
  | 0, n + 1, c, s, h, _ => by
    rw [parseback]
    refine wp_peek hz (by decide) h fun s' h' => ?_
    rw [List.replicate_zero, List.nil_append, hvs]
    exact ⟨rfl, h'⟩
  | k + 1, n + 1, c, s, h, hn => by
    rw [parseback]
    refine wp_peek hz (by decide) h fun s' h' => ?_
    refine wp_gettoken hz h' fun w s'' _ h'' => ?_
    exact parseback_spec hz hvs k n (.back c) s'' h'' (by omega)

theorem redirect_code (c : Cmd) (op : Op) (w : Word) :
    redirect c (Token.redir op).code w = Redir.wrap c ⟨op, w⟩ := by
  cases op <;> rfl

theorem parseredirs_complete (hz : 0 ∉ buf) (hvs : startsWith ['<', '>'] vs = false) :
    ∀ (rs : List Redir) (n : Nat) (c : Cmd) (s : Nat),
      At buf (rs.flatMap Redir.tokens ++ vs) s → rs.length < n →
      wp (parseredirs buf n c) (fun c' s' => c' = wrapAll c rs ∧ At buf vs s') (fun _ => False) s
  | _, 0, _, _, _, hn => by omega
  | [], n + 1, c, s, h, _ => by
    rw [parseredirs]
    refine wp_peek hz (by decide) h fun s' h' => ?_
    rw [List.flatMap_nil, List.nil_append, hvs]
    exact ⟨rfl, h'⟩
  | r :: rs, n + 1, c, s, h, hn => by
    have hop : startsWith ['<', '>'] ((r :: rs).flatMap Redir.tokens ++ vs) = true := by
      rcases r with ⟨_ | _ | _, _⟩ <;> rfl
    rw [parseredirs]
    refine wp_peek hz (by decide) h fun s₁ h₁ => ?_
    rw [hop, if_pos rfl]
    refine wp_gettoken hz h₁ fun _ s₂ _ h₂ => ?_
    refine wp_gettoken hz h₂ fun w s₃ hword h₃ => ?_
    cases hword _ rfl
    simp only [redirect_code]
    exact parseredirs_complete hz hvs rs n _ s₃ h₃ (by simpa using hn)

theorem code_ne_zero (t : Token) : t.code ≠ 0 := by
  rcases t with _ | _ | _ | _ | _ | (_ | _ | _) | _ <;> simp only [Token.code] <;> decide

theorem length_le_tokens (rs : List Redir) : rs.length ≤ (rs.flatMap Redir.tokens).length := by
  induction rs with
  | nil => exact Nat.le_refl _
  | cons r rs ih =>
    rw [List.flatMap_cons, List.length_append, List.length_cons, Redir.tokens, List.length_cons]
    omega

theorem code_eq_word {t : Token} (h : t.code = 'a'.toUInt8) : ∃ w, t = .word w := by
  rcases t with _ | _ | _ | _ | _ | (_ | _ | _) | w
  case word => exact ⟨w, rfl⟩
  all_goals exact absurd h (by decide)

theorem parseredirs_sound (hz : 0 ∉ buf) : ∀ (n : Nat) (ts : List Token) (c : Cmd) (s : Nat),
    At buf ts s → ts.length < n →
    wp (parseredirs buf n c) (fun c' s' => ∃ rs vs, ts = rs.flatMap Redir.tokens ++ vs ∧
      c' = wrapAll c rs ∧ At buf vs s') (fun e => e ∈ refusals) s
  | 0, _, _, _, _, hn => by omega
  | n + 1, ts, c, s, h, hn => by
    rw [parseredirs]
    refine wp_peek hz (by decide) h fun s₁ h₁ => ?_
    cases hst : startsWith ['<', '>'] ts with
    | false => exact ⟨[], ts, rfl, rfl, h₁⟩
    | true =>
      obtain ⟨op, us, rfl⟩ := startsWith_redir hst
      rw [if_pos rfl]
      refine wp_gettoken hz h₁ fun _ s₂ _ h₂ => ?_
      cases us with
      | nil =>
        refine wp_gettoken_nil h₂ fun w s₃ _ => ?_
        simp only [wp_ite, wp_bind, wp_throw]
        exact ⟨fun _ => by simp [refusals], fun hcode => absurd (not_not.mp hcode) (by decide)⟩
      | cons t us =>
        refine wp_gettoken hz h₂ fun w s₃ hword h₃ => ?_
        simp only [wp_ite, wp_bind, wp_throw, redirect_code]
        refine ⟨fun _ => by simp [refusals], fun hcode => ?_⟩
        obtain ⟨w', rfl⟩ := code_eq_word (not_not.mp hcode)
        cases hword _ rfl
        refine wp_post (parseredirs_sound hz n us _ s₃ h₃ ?_) ?_
        · simp only [List.length_cons] at hn
          omega
        · rintro c' s' ⟨rs, vs, rfl, rfl, hat⟩
          exact ⟨⟨op, w⟩ :: rs, vs, rfl, rfl, hat⟩

/-- The words, and the redirections after each, added to a simple command. -/
def addArgs (c : Cmd) (args : List Arg) : Cmd :=
  args.foldl (fun c a => wrapAll (pushArg a.word c) a.redirs) c

theorem wrapAll_append (c : Cmd) (rs rs' : List Redir) :
    wrapAll c (rs ++ rs') = wrapAll (wrapAll c rs) rs' := List.foldl_append

theorem pushArg_wrapAll (w : Word) : ∀ (rs : List Redir) (c : Cmd),
    pushArg w (wrapAll c rs) = wrapAll (pushArg w c) rs
  | [], _ => rfl
  | r :: rs, c => by
    have hr : pushArg w (Redir.wrap c r) = Redir.wrap (pushArg w c) r := by
      rcases r with ⟨_ | _ | _, _⟩ <;> rfl
    calc pushArg w (wrapAll (Redir.wrap c r) rs)
        = wrapAll (pushArg w (Redir.wrap c r)) rs := pushArg_wrapAll w rs _
      _ = wrapAll (Redir.wrap (pushArg w c) r) rs := by rw [hr]

theorem addArgs_exec : ∀ (args : List Arg) (ws : List Word) (rs : List Redir),
    addArgs (wrapAll (.exec ws) rs) args =
      wrapAll (.exec (ws ++ args.map Arg.word)) (rs ++ args.flatMap Arg.redirs)
  | [], ws, rs => by simp [addArgs]
  | a :: args, ws, rs => by
    calc addArgs (wrapAll (pushArg a.word (wrapAll (.exec ws) rs)) a.redirs) args
        = addArgs (wrapAll (.exec (ws ++ [a.word])) (rs ++ a.redirs)) args := by
          rw [pushArg_wrapAll, wrapAll_append]
          rfl
      _ = _ := by rw [addArgs_exec args, List.append_assoc, List.append_assoc]; rfl

theorem parseargs_sound (hz : 0 ∉ buf) : ∀ (n argc : Nat) (ts : List Token) (c : Cmd) (s : Nat),
    At buf ts s → ts.length < n → argc < MAXARGS →
    wp (parseargs buf n argc c) (fun c' s' => ∃ args vs, ts = args.flatMap Arg.tokens ++ vs ∧
      argc + args.length ≤ MAXARGS - 1 ∧ c' = addArgs c args ∧ At buf vs s')
      (fun e => e ∈ refusals) s
  | 0, _, _, _, _, _, hn, _ => by omega
  | n + 1, argc, ts, c, s, h, hn, hargc => by
    have hdone : ∀ {s'}, At buf ts s' → ∃ args vs, ts = args.flatMap Arg.tokens ++ vs ∧
        argc + args.length ≤ MAXARGS - 1 ∧ c = addArgs c args ∧ At buf vs s' :=
      fun h' => ⟨[], ts, rfl, Nat.le_sub_one_of_lt hargc, rfl, h'⟩
    rw [parseargs]
    refine wp_peek hz (by decide) h fun s₁ h₁ => ?_
    cases hst : startsWith ['|', ')', '&', ';'] ts with
    | true => exact hdone h₁
    | false =>
      rw [if_neg Bool.false_ne_true]
      cases ts with
      | nil => exact wp_gettoken_nil h₁ fun w s₂ h₂ => hdone h₂
      | cons t us =>
        refine wp_gettoken hz h₁ fun w s₂ hword h₂ => ?_
        simp only [if_neg (code_ne_zero t), wp_ite, wp_bind, wp_throw]
        refine ⟨fun _ => by simp [refusals], fun hcode =>
          ⟨fun _ => by simp [refusals], fun hmax => ?_⟩⟩
        obtain ⟨w', rfl⟩ := code_eq_word (not_not.mp hcode)
        cases hword _ rfl
        simp only [List.length_cons] at hn
        refine wp_post (parseredirs_sound hz n us _ s₂ h₂ (by omega)) ?_
        rintro _ s₃ ⟨rs, vs, rfl, rfl, h₃⟩
        rw [List.length_append] at hn
        refine wp_post (parseargs_sound hz n (argc + 1) vs _ s₃ h₃ (by omega)
          (Nat.lt_of_not_le hmax)) ?_
        rintro _ s₄ ⟨args, vs', rfl, hlen, rfl, h₄⟩
        refine ⟨⟨w, rs⟩ :: args, vs', ?_, ?_, rfl, h₄⟩
        · simp [Arg.tokens]
        · simp only [List.length_cons]
          omega

theorem parseargs_complete (hz : 0 ∉ buf) (hvs : Follows ['|', ')', '&', ';'] vs) :
    ∀ (args : List Arg) (n argc : Nat) (c : Cmd) (s : Nat),
      At buf (args.flatMap Arg.tokens ++ vs) s → (args.flatMap Arg.tokens).length < n →
      argc + args.length ≤ MAXARGS - 1 →
      wp (parseargs buf n argc c) (fun c' s' => c' = addArgs c args ∧ At buf vs s')
        (fun _ => False) s
  | _, 0, _, _, _, _, hn, _ => by omega
  | [], n + 1, argc, c, s, h, _, _ => by
    rw [parseargs]
    refine wp_peek hz (by decide) h fun s₁ h₁ => ?_
    rw [List.flatMap_nil, List.nil_append] at h₁ ⊢
    rcases hvs with rfl | hst
    · rw [startsWith_nil, if_neg Bool.false_ne_true]
      exact wp_gettoken_nil h₁ fun w s₂ h₂ => ⟨rfl, h₂⟩
    · rw [hst, if_pos rfl]
      exact ⟨rfl, h₁⟩
  | a :: args, n + 1, argc, c, s, h, hn, hargc => by
    have hrest : startsWith ['<', '>'] (args.flatMap Arg.tokens ++ vs) = false := by
      cases args with
      | nil => exact hvs.not_startsWith (by decide)
      | cons => rfl
    have hlen := length_le_tokens a.redirs
    rw [List.flatMap_cons, Arg.tokens, List.cons_append, List.length_cons, List.length_append] at hn
    rw [parseargs]
    refine wp_peek hz (by decide) h fun s₁ h₁ => ?_
    refine wp_gettoken hz h₁ fun w s₂ hword h₂ => ?_
    cases hword _ rfl
    simp only [List.length_cons] at hargc
    have hmax : ¬ MAXARGS ≤ argc + 1 := by
      have : MAXARGS = 10 := rfl
      omega
    simp only [if_neg (code_ne_zero (.word a.word)), wp_ite, wp_bind, wp_throw]
    refine ⟨fun hcode => absurd rfl hcode, fun _ => ⟨fun hle => absurd hle hmax, fun _ => ?_⟩⟩
    have h₂' : At buf (a.redirs.flatMap Redir.tokens ++ (args.flatMap Arg.tokens ++ vs)) s₂ := by
      rw [← List.append_assoc]
      exact h₂
    refine wp_post (parseredirs_complete hz hrest a.redirs n _ s₂ h₂' (by omega)) ?_
    rintro _ s₃ ⟨rfl, h₃⟩
    exact parseargs_complete hz hvs args n (argc + 1) _ s₃ h₃ (by omega) (by omega)

end

/-! ## Soundness -/

section

variable {buf : List UInt8}

/-- On the tokens `ts` the routine consumes some that `G` derives, with its result, or
panics over the syntax. -/
def Sound (buf : List UInt8) (m : ParseM Cmd) (G : List Token → Cmd → Prop) (ts : List Token) :
    Prop :=
  ∀ s, At buf ts s → wp m (fun c s' => ∃ us vs, ts = us ++ vs ∧ G us c ∧ At buf vs s')
    (fun e => e ∈ refusals) s

mutual

theorem parseline_sound (hz : 0 ∉ buf) : ∀ (n : Nat) (ts : List Token), 4 * ts.length + 4 ≤ n →
    Sound buf (parseline buf n) Line ts
  | 0, _, hn, _, _ => by omega
  | n + 1, ts, hn, s, h => by
    rw [parseline]
    refine wp_seq (parsepipe_sound hz n ts (by omega) s h) ?_
    rintro c s₁ ⟨us, vs, rfl, hpipe, h₁⟩
    rw [List.length_append] at hn
    obtain ⟨k, vs', rfl, hvs⟩ := exists_amps vs
    rw [List.length_append, List.length_replicate] at hn
    refine wp_seq (wp_mono (parseback_spec hz hvs k n c s₁ h₁ (by omega)) (fun _ _ hr => hr)
      fun _ he => he.elim) ?_
    rintro _ s₂ ⟨rfl, h₂⟩
    refine wp_peek hz (by decide) h₂ fun s₃ h₃ => ?_
    cases hst : startsWith [';'] vs' with
    | false =>
      exact ⟨us ++ List.replicate k .amp, vs', by rw [List.append_assoc], .last k hpipe, h₃⟩
    | true =>
      obtain ⟨ws, rfl⟩ := startsWith_token .semi (by decide) rfl hst
      rw [List.length_cons] at hn
      rw [if_pos rfl]
      refine wp_gettoken hz h₃ fun _ s₄ _ h₄ => ?_
      refine wp_seq (parseline_sound hz n ws (by omega) s₄ h₄) ?_
      rintro d s₅ ⟨us', vs, rfl, hline, h₅⟩
      exact ⟨us ++ (List.replicate k .amp ++ .semi :: us'), vs, by simp, .more k hpipe hline, h₅⟩

theorem parsepipe_sound (hz : 0 ∉ buf) : ∀ (n : Nat) (ts : List Token), 4 * ts.length + 3 ≤ n →
    Sound buf (parsepipe buf n) Pipe ts
  | 0, _, hn, _, _ => by omega
  | n + 1, ts, hn, s, h => by
    rw [parsepipe]
    refine wp_seq (parseexec_sound hz n ts (by omega) s h) ?_
    rintro c s₁ ⟨us, vs, rfl, hexec, h₁⟩
    rw [List.length_append] at hn
    refine wp_peek hz (by decide) h₁ fun s₂ h₂ => ?_
    cases hst : startsWith ['|'] vs with
    | false => exact ⟨us, vs, rfl, .last hexec, h₂⟩
    | true =>
      obtain ⟨ws, rfl⟩ := startsWith_token .bar (by decide) rfl hst
      rw [List.length_cons] at hn
      rw [if_pos rfl]
      refine wp_gettoken hz h₂ fun _ s₃ _ h₃ => ?_
      refine wp_seq (parsepipe_sound hz n ws (by omega) s₃ h₃) ?_
      rintro d s₄ ⟨us', vs, rfl, hpipe, h₄⟩
      exact ⟨us ++ .bar :: us', vs, by simp, .more hexec hpipe, h₄⟩

theorem parseexec_sound (hz : 0 ∉ buf) : ∀ (n : Nat) (ts : List Token), 4 * ts.length + 2 ≤ n →
    Sound buf (parseexec buf n) Exec ts
  | 0, _, hn, _, _ => by omega
  | n + 1, ts, hn, s, h => by
    rw [parseexec]
    refine wp_peek hz (by decide) h fun s₁ h₁ => ?_
    cases hst : startsWith ['('] ts with
    | true =>
      rw [if_pos rfl]
      exact parseblock_sound hz n ts hst (by omega) s₁ h₁
    | false =>
      rw [if_neg Bool.false_ne_true]
      refine wp_seq (parseredirs_sound hz n ts _ s₁ h₁ (by omega)) ?_
      rintro _ s₂ ⟨rs, vs, rfl, rfl, h₂⟩
      rw [List.length_append] at hn
      refine wp_post (parseargs_sound hz n 0 vs _ s₂ h₂ (by omega) (by decide)) ?_
      rintro _ s₃ ⟨args, vs', rfl, hlen, rfl, h₃⟩
      refine ⟨_, vs', (List.append_assoc ..).symm, ?_, h₃⟩
      rw [addArgs_exec]
      exact .simple rs args (by omega)

theorem parseblock_sound (hz : 0 ∉ buf) : ∀ (n : Nat) (ts : List Token),
    startsWith ['('] ts = true → 4 * ts.length + 1 ≤ n → Sound buf (parseblock buf n) Exec ts
  | 0, _, _, hn, _, _ => by omega
  | n + 1, ts, hst, hn, s, h => by
    rw [parseblock]
    refine wp_peek hz (by decide) h fun s₁ h₁ => ?_
    obtain ⟨us, rfl⟩ := startsWith_token .lparen (by decide) rfl hst
    refine wp_gettoken hz h₁ fun _ s₂ _ h₂ => ?_
    rw [List.length_cons] at hn
    refine wp_seq (parseline_sound hz n us (by omega) s₂ h₂) ?_
    rintro c s₃ ⟨us, vs, rfl, hline, h₃⟩
    rw [List.length_append] at hn
    refine wp_peek hz (by decide) h₃ fun s₄ h₄ => ?_
    cases hst' : startsWith [')'] vs with
    | false =>
      show _ ∈ refusals
      simp [refusals]
    | true =>
      obtain ⟨ws, rfl⟩ := startsWith_token .rparen (by decide) rfl hst'
      rw [List.length_cons] at hn
      refine wp_gettoken hz h₄ fun _ s₅ _ h₅ => ?_
      refine wp_post (parseredirs_sound hz n ws _ s₅ h₅ (by omega)) ?_
      rintro _ s₆ ⟨rs, vs, rfl, rfl, h₆⟩
      exact ⟨_, vs, by simp, .block rs hline, h₆⟩

end

/-! ## Completeness -/

/-- On the tokens `us`, with `vs` behind them, the routine returns `c` and stops before
`vs`. -/
def Complete (buf : List UInt8) (m : ParseM Cmd) (c : Cmd) (us vs : List Token) : Prop :=
  ∀ s, At buf (us ++ vs) s → wp m (fun c' s' => c' = c ∧ At buf vs s') (fun _ => False) s

theorem follows_amps {vs : List Token} {cs : List Char} (h : Follows cs vs) (k : Nat) :
    Follows ('&' :: cs) (List.replicate k .amp ++ vs) := by
  cases k with
  | zero => exact h.mono fun _ hc => List.mem_cons_of_mem _ hc
  | succ k => exact .inr (by simp [List.replicate_succ, Token.lead])

theorem not_lparen {vs : List Token} (rs : List Redir) (args : List Arg)
    (hvs : startsWith ['('] vs = false) :
    startsWith ['('] (rs.flatMap Redir.tokens ++ args.flatMap Arg.tokens ++ vs) = false := by
  rcases rs with _ | ⟨⟨_ | _ | _, _⟩, rs⟩
  case nil =>
    cases args with
    | nil => exact hvs
    | cons a args => rfl
  all_goals rfl

mutual

theorem parseline_complete (hz : 0 ∉ buf) : ∀ (n : Nat) {us vs : List Token} {c : Cmd},
    Line us c → Follows [')'] vs → 4 * (us ++ vs).length + 4 ≤ n →
      Complete buf (parseline buf n) c us vs
  | 0, _, _, _, _, _, hn, _, _ => by omega
  | n + 1, _, vs, _, .last k hpipe, hvs, hn, s, h => by
    rw [List.append_assoc] at h hn
    rw [parseline]
    refine wp_seq (parsepipe_complete hz n hpipe
      ((follows_amps hvs k).mono (by decide)) (by omega) s h) ?_
    rintro _ s₁ ⟨rfl, h₁⟩
    simp only [List.length_append, List.length_replicate] at hn
    refine wp_seq (parseback_spec hz (hvs.not_startsWith (by decide)) k n _ s₁ h₁ (by omega)) ?_
    rintro _ s₂ ⟨rfl, h₂⟩
    refine wp_peek hz (by decide) h₂ fun s₃ h₃ => ?_
    rw [hvs.not_startsWith (by decide), if_neg Bool.false_ne_true]
    exact ⟨rfl, h₃⟩
  | n + 1, _, vs, _, @Line.more _ ws _ _ k hpipe hline, hvs, hn, s, h => by
    rw [List.append_assoc, List.append_assoc] at h hn
    have hsemi : Follows [';'] (Token.semi :: ws ++ vs) := .inr rfl
    rw [parseline]
    refine wp_seq (parsepipe_complete hz n hpipe
      ((follows_amps hsemi k).mono (by decide)) (by omega) s h) ?_
    rintro _ s₁ ⟨rfl, h₁⟩
    simp only [List.length_append, List.length_replicate, List.length_cons] at hn
    refine wp_seq (parseback_spec hz (hsemi.not_startsWith (by decide)) k n _ s₁ h₁ (by omega)) ?_
    rintro _ s₂ ⟨rfl, h₂⟩
    refine wp_peek hz (by decide) h₂ fun s₃ h₃ => ?_
    refine wp_gettoken hz h₃ fun _ s₄ _ h₄ => ?_
    have hlen : 4 * (ws ++ vs).length + 4 ≤ n := by
      rw [List.length_append]
      omega
    refine wp_seq (parseline_complete hz n hline hvs hlen s₄ h₄) ?_
    rintro _ s₅ ⟨rfl, h₅⟩
    exact ⟨rfl, h₅⟩

theorem parsepipe_complete (hz : 0 ∉ buf) : ∀ (n : Nat) {us vs : List Token} {c : Cmd},
    Pipe us c → Follows ['&', ';', ')'] vs → 4 * (us ++ vs).length + 3 ≤ n →
      Complete buf (parsepipe buf n) c us vs
  | 0, _, _, _, _, _, hn, _, _ => by omega
  | n + 1, _, vs, _, .last hexec, hvs, hn, s, h => by
    rw [parsepipe]
    refine wp_seq (parseexec_complete hz n hexec (hvs.mono (by decide)) (by omega) s h) ?_
    rintro _ s₁ ⟨rfl, h₁⟩
    refine wp_peek hz (by decide) h₁ fun s₂ h₂ => ?_
    rw [hvs.not_startsWith (by decide), if_neg Bool.false_ne_true]
    exact ⟨rfl, h₂⟩
  | n + 1, _, vs, _, @Pipe.more _ ws _ _ hexec hpipe, hvs, hn, s, h => by
    rw [List.append_assoc] at h hn
    rw [parsepipe]
    refine wp_seq (parseexec_complete hz n hexec (.inr rfl) (by omega) s h) ?_
    rintro _ s₁ ⟨rfl, h₁⟩
    refine wp_peek hz (by decide) h₁ fun s₂ h₂ => ?_
    refine wp_gettoken hz h₂ fun _ s₃ _ h₃ => ?_
    have hlen : 4 * (ws ++ vs).length + 3 ≤ n := by
      simp only [List.length_append, List.length_cons] at hn ⊢
      omega
    refine wp_seq (parsepipe_complete hz n hpipe hvs hlen s₃ h₃) ?_
    rintro _ s₄ ⟨rfl, h₄⟩
    exact ⟨rfl, h₄⟩

theorem parseexec_complete (hz : 0 ∉ buf) : ∀ (n : Nat) {us vs : List Token} {c : Cmd},
    Exec us c → Follows ['|', '&', ';', ')'] vs → 4 * (us ++ vs).length + 2 ≤ n →
      Complete buf (parseexec buf n) c us vs
  | 0, _, _, _, _, _, hn, _, _ => by omega
  | 1, _, _, _, .block rs hline, _, hn, _, _ => by
    simp only [List.cons_append, List.length_cons] at hn
    omega
  | n + 2, _, vs, _, .block rs hline, hvs, hn, s, h => by
    simp only [List.cons_append, List.append_assoc] at h hn
    rw [parseexec]
    refine wp_peek hz (by decide) h fun s₁ h₁ => ?_
    show wp (parseblock buf (n + 1)) _ _ s₁
    rw [parseblock]
    refine wp_peek hz (by decide) h₁ fun s₂ h₂ => ?_
    refine wp_gettoken hz h₂ fun _ s₃ _ h₃ => ?_
    simp only [List.length_cons, List.length_append] at hn
    refine wp_seq (parseline_complete hz n hline (.inr rfl) ?_ s₃ h₃) ?_
    · simp only [List.length_cons, List.length_append]
      omega
    rintro _ s₄ ⟨rfl, h₄⟩
    refine wp_peek hz (by decide) h₄ fun s₅ h₅ => ?_
    refine wp_gettoken hz h₅ fun _ s₆ _ h₆ => ?_
    have hlen := length_le_tokens rs
    exact parseredirs_complete hz (hvs.not_startsWith (by decide)) rs n _ s₆ h₆ (by omega)
  | n + 1, _, vs, _, .simple rs args hargs, hvs, hn, s, h => by
    have hrest : startsWith ['<', '>'] (args.flatMap Arg.tokens ++ vs) = false := by
      cases args with
      | nil => exact hvs.not_startsWith (by decide)
      | cons => rfl
    rw [parseexec]
    refine wp_peek hz (by decide) h fun s₁ h₁ => ?_
    rw [not_lparen rs args (hvs.not_startsWith (by decide)), if_neg Bool.false_ne_true]
    rw [List.append_assoc] at h₁
    simp only [List.length_append] at hn
    have hlen := length_le_tokens rs
    refine wp_seq (parseredirs_complete hz hrest rs n _ s₁ h₁ (by omega)) ?_
    rintro _ s₂ ⟨rfl, h₂⟩
    refine wp_post (parseargs_complete hz (hvs.mono (by decide)) args n 0 _ s₂ h₂ (by omega)
      (by omega)) ?_
    rintro _ s₃ ⟨rfl, h₃⟩
    exact ⟨addArgs_exec args [] rs, h₃⟩

end

/-! ## The whole line -/

theorem toks_length (buf : List UInt8) : (toks buf 0).length ≤ buf.length :=
  lex_length_le 0 buf

/-- Every line is parsed, with the tree of a derivation, or refused. -/
theorem parseall_sound (hz : 0 ∉ buf) :
    wp (parseall buf) (fun c _ => Line (toks buf 0) c) (fun e => e ∈ refusals) 0 := by
  have hlen := toks_length buf
  rw [parseall]
  refine wp_seq (parseline_sound hz _ (toks buf 0) (by omega) 0 ⟨Nat.zero_le _, rfl⟩) ?_
  rintro c s₁ ⟨us, vs, hts, hline, h₁⟩
  refine wp_seq (wp_mono (peek_spec hz (by decide) h₁) (fun _ _ hr => hr) fun _ he => he.elim) ?_
  rintro _ s₂ ⟨-, h₂, -⟩
  simp only [wp_bind, wp_get, wp_ite, wp_throw, wp_pure]
  refine ⟨fun _ => by simp [refusals], fun hend => ?_⟩
  -- nothing is left behind the last token
  have hnil : vs = [] := by
    rw [← h₂.tokens, not_not.mp hend, toks, List.drop_length]
    exact lex.eq_1 _
  rw [hts, hnil, List.append_nil]
  exact hline

theorem parseall_complete (hz : 0 ∉ buf) {c : Cmd} (h : Line (toks buf 0) c) :
    wp (parseall buf) (fun c' _ => c' = c) (fun _ => False) 0 := by
  have hlen := toks_length buf
  have hat : At buf (toks buf 0 ++ []) 0 := ⟨Nat.zero_le _, (List.append_nil _).symm⟩
  rw [parseall]
  refine wp_seq (parseline_complete hz _ h (.inl rfl) ?_ 0 hat) ?_
  · rw [List.append_nil]
    omega
  rintro _ s₁ ⟨rfl, h₁⟩
  refine wp_seq (peek_spec hz (by decide) h₁) ?_
  rintro _ s₂ ⟨-, -, hend⟩
  simp only [wp_bind, wp_get, wp_ite, wp_throw, wp_pure]
  exact ⟨fun hne => absurd (hend rfl) hne, fun _ => trivial⟩

end

end Xv6Pdx.Sh
