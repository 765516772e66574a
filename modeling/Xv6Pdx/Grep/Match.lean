/-
# `Grep.Match` — the pattern matcher of `grep.c`

A pattern is a string: `c*` stands for any number of `c`, `.` for any one byte,
`$` at the end for the end of the text, and any other byte for itself; a pattern
that starts with `^` is looked for at the start of the text only.  The matcher
tries the positions from the left, and the repetitions of a `c*` from the
shortest.  `Lang` is the language of a pattern, apart from any search.

Strings are lists of bytes without their NUL; `re[0] == '\0'` is the empty list.
-/
import Mathlib

namespace Xv6Pdx.Grep

abbrev Text := List UInt8

def caret : UInt8 := '^'.toUInt8
def dot : UInt8 := '.'.toUInt8
def star : UInt8 := '*'.toUInt8
def dollar : UInt8 := '$'.toUInt8

/-! ## The matcher -/

/-- `do if(here(text)) return 1; while(*text != '\0' && (*text++ == c || c == '.'));`
where `here` is `matchhere` with the rest of the pattern. -/
def matchstar (c : UInt8) (here : Text → Bool) : Text → Bool
  | [] => here []
  | t :: text => here (t :: text) || ((t = c || c = dot) && matchstar c here text)

/-- `if(*text != '\0' && (re[0] == '.' || re[0] == *text)) return here(text+1);` -/
def matchone (c : UInt8) (here : Text → Bool) : Text → Bool
  | [] => false
  | t :: text => (c = dot || c = t) && here text

/-- `matchhere(re, text)`; the `*` behind a byte is looked for before the `$`. -/
def matchhere : Text → Text → Bool
  | [], _ => true
  | [c], text => if c = dollar then text.isEmpty else matchone c (matchhere []) text
  | c :: c' :: re, text =>
    if c' = star then matchstar c (matchhere re) text
    else matchone c (matchhere (c' :: re)) text

/-- `do if(matchhere(re, text)) return 1; while(*text++ != '\0');` -/
def matchfrom (re : Text) : Text → Bool
  | [] => matchhere re []
  | t :: text => matchhere re (t :: text) || matchfrom re text

def matchText (re text : Text) : Bool :=
  if re.head? = some caret then matchhere re.tail text else matchfrom re text

/-! ## The language of a pattern -/

/-- The byte `t` is one that `c` stands for. -/
def Stands (c t : UInt8) : Prop := c = dot ∨ c = t

/-- The string is in the language of the pattern, when the last argument follows it. -/
inductive Lang : Text → Text → Text → Prop
  | nil {rest : Text} : Lang [] [] rest
  | star {c : UInt8} {re reps w rest : Text} : (∀ t ∈ reps, Stands c t) → Lang re w rest →
      Lang (c :: star :: re) (reps ++ w) rest
  | last : Lang [dollar] [] []
  | one {c t : UInt8} {re w rest : Text} : re.head? ≠ some Grep.star → ¬ (c = dollar ∧ re = []) →
      Stands c t → Lang re w rest → Lang (c :: re) (t :: w) rest

/-- The text starts with a string in the language of the pattern. -/
def Starts (re text : Text) : Prop := ∃ w rest, text = w ++ rest ∧ Lang re w rest

/-- The text has a string in the language of the pattern, at its start if the pattern
begins with `^`. -/
def Occurs (re text : Text) : Prop :=
  if re.head? = some caret then Starts re.tail text
  else ∃ before after, text = before ++ after ∧ Starts re after

/-! ## The search finds what there is -/

theorem matchstar_iff {c : UInt8} {here : Text → Bool} {H : Text → Prop}
    (h : ∀ text, here text = true ↔ H text) (text : Text) :
    matchstar c here text = true ↔
      ∃ reps rest, text = reps ++ rest ∧ (∀ t ∈ reps, Stands c t) ∧ H rest := by
  induction text with
  | nil =>
    rw [matchstar, h]
    constructor
    · intro hH
      exact ⟨[], [], rfl, by simp, hH⟩
    · rintro ⟨reps, rest, hsplit, -, hH⟩
      obtain ⟨rfl, rfl⟩ := List.append_eq_nil_iff.mp hsplit.symm
      exact hH
  | cons t text ih =>
    have hstands : (decide (t = c) || decide (c = dot)) = true ↔ Stands c t := by
      rw [Bool.or_eq_true, decide_eq_true_iff, decide_eq_true_iff, or_comm, eq_comm (a := t)]
      rfl
    rw [matchstar, Bool.or_eq_true, Bool.and_eq_true, h, ih, hstands]
    constructor
    · rintro (hH | ⟨ht, reps, rest, rfl, hreps, hH⟩)
      · exact ⟨[], t :: text, rfl, by simp, hH⟩
      · exact ⟨t :: reps, rest, rfl, List.forall_mem_cons.mpr ⟨ht, hreps⟩, hH⟩
    · -- The shortest repetition is the empty one; any other starts with `t`.
      rintro ⟨reps, rest, hsplit, hreps, hH⟩
      cases reps with
      | nil =>
        rw [List.nil_append] at hsplit
        exact .inl (hsplit ▸ hH)
      | cons r reps =>
        obtain ⟨rfl, rfl⟩ := List.cons.inj hsplit
        obtain ⟨ht, hreps⟩ := List.forall_mem_cons.mp hreps
        exact .inr ⟨ht, reps, rest, rfl, hreps, hH⟩

theorem matchone_iff {c : UInt8} {here : Text → Bool} {H : Text → Prop}
    (h : ∀ text, here text = true ↔ H text) (text : Text) :
    matchone c here text = true ↔ ∃ t rest, text = t :: rest ∧ Stands c t ∧ H rest := by
  cases text with
  | nil => simp [matchone]
  | cons t text =>
    simp only [matchone, Bool.and_eq_true, Bool.or_eq_true, decide_eq_true_iff, h]
    constructor
    · rintro ⟨hs, hH⟩
      exact ⟨t, text, rfl, hs, hH⟩
    · rintro ⟨t', rest, hcons, hs, hH⟩
      obtain ⟨rfl, rfl⟩ := List.cons.inj hcons
      exact ⟨hs, hH⟩

theorem starts_star {c : UInt8} {re text : Text} : Starts (c :: star :: re) text ↔
      ∃ reps rest, text = reps ++ rest ∧ (∀ t ∈ reps, Stands c t) ∧ Starts re rest := by
  constructor
  · rintro ⟨w, rest, rfl, hlang⟩
    cases hlang with
    | star hreps hlang => exact ⟨_, _, List.append_assoc _ _ _, hreps, _, rest, rfl, hlang⟩
    | one hstar _ _ _ => exact absurd rfl hstar
  · rintro ⟨reps, rest, rfl, hreps, w, rest, rfl, hlang⟩
    exact ⟨reps ++ w, rest, (List.append_assoc _ _ _).symm, .star hreps hlang⟩

theorem starts_one {c : UInt8} {re text : Text} (hstar : re.head? ≠ some star)
    (hlast : ¬ (c = dollar ∧ re = [])) :
    Starts (c :: re) text ↔ ∃ t rest, text = t :: rest ∧ Stands c t ∧ Starts re rest := by
  constructor
  · rintro ⟨w, rest, rfl, hlang⟩
    cases hlang with
    | star _ _ => exact absurd rfl hstar
    | last => exact absurd ⟨rfl, rfl⟩ hlast
    | one _ _ hs hlang => exact ⟨_, _, rfl, hs, _, rest, rfl, hlang⟩
  · rintro ⟨t, rest, rfl, hs, w, rest, rfl, hlang⟩
    exact ⟨t :: w, rest, rfl, .one hstar hlast hs hlang⟩

theorem starts_last {text : Text} : Starts [dollar] text ↔ text = [] := by
  constructor
  · rintro ⟨w, rest, rfl, hlang⟩
    cases hlang with
    | last => rfl
    | one _ hlast _ _ => exact absurd ⟨rfl, rfl⟩ hlast
  · rintro rfl
    exact ⟨[], [], rfl, .last⟩

theorem matchhere_iff (re text : Text) : matchhere re text = true ↔ Starts re text := by
  -- Every call is made with a shorter pattern.
  induction hn : re.length using Nat.strong_induction_on generalizing re text with
  | _ n ih =>
    subst hn
    cases re with
    | nil => exact ⟨fun _ => ⟨[], text, rfl, .nil⟩, fun _ => by rw [matchhere]⟩
    | cons c re =>
      cases re with
      | nil =>
        rw [matchhere]
        split
        · next hc => rw [hc, starts_last, List.isEmpty_iff]
        · next hc =>
            rw [starts_one (by simp) (by simp [hc])]
            exact matchone_iff (fun text => ih 0 (by simp) [] text rfl) text
      | cons c' re =>
        rw [matchhere]
        split
        · next hc =>
            rw [hc, starts_star]
            exact matchstar_iff (fun text => ih re.length (by simp) re text rfl) text
        · next hc =>
            rw [starts_one (by simp [hc]) (by simp)]
            exact matchone_iff (fun text => ih (c' :: re).length (by simp) (c' :: re) text rfl) text

theorem matchfrom_iff (re text : Text) :
    matchfrom re text = true ↔ ∃ before after, text = before ++ after ∧ Starts re after := by
  induction text with
  | nil =>
    rw [matchfrom, matchhere_iff]
    constructor
    · intro h
      exact ⟨[], [], rfl, h⟩
    · rintro ⟨before, after, hsplit, h⟩
      obtain ⟨rfl, rfl⟩ := List.append_eq_nil_iff.mp hsplit.symm
      exact h
  | cons t text ih =>
    rw [matchfrom, Bool.or_eq_true, matchhere_iff, ih]
    constructor
    · rintro (h | ⟨before, after, rfl, h⟩)
      · exact ⟨[], t :: text, rfl, h⟩
      · exact ⟨t :: before, after, rfl, h⟩
    · rintro ⟨before, after, hsplit, h⟩
      cases before with
      | nil =>
        rw [List.nil_append] at hsplit
        exact .inl (hsplit ▸ h)
      | cons b before =>
        obtain ⟨rfl, rfl⟩ := List.cons.inj hsplit
        exact .inr ⟨before, after, rfl, h⟩

/-- `match` returns 1 exactly for the texts in which the pattern occurs. -/
theorem matchText_iff (re text : Text) : matchText re text = true ↔ Occurs re text := by
  unfold matchText Occurs
  split
  · exact matchhere_iff re.tail text
  · exact matchfrom_iff re text

/-- `$*` is any number of dollars, and a leading `*` stands for itself. -/
example : matchText ("^$*b$".toList.map Char.toUInt8) ("$$b".toList.map Char.toUInt8) = true ∧
    matchText ("*a".toList.map Char.toUInt8) ("b*a".toList.map Char.toUInt8) = true ∧
    matchText ("*a".toList.map Char.toUInt8) ("ba".toList.map Char.toUInt8) = false := by
  decide +kernel

end Xv6Pdx.Grep
