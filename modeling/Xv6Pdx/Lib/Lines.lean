/-
# `Lib.Lines` — a stream cut at a separator

The lines of a stream are its stretches that end in a separator; what follows
the last separator is its rest.  When a stream arrives in pieces, the rest of
what has arrived is put before the next piece, and the lines come out the same
(`lines_append`).
-/
import Mathlib

namespace Lib

variable {α : Type} [DecidableEq α]

/-- The stretches before each separator. -/
def lines (sep : α) : List α → List (List α)
  | [] => []
  | c :: t =>
    if c = sep then [] :: lines sep t
    else
      match lines sep t with
      | [] => []
      | l :: ls => (c :: l) :: ls

/-- What follows the last separator. -/
def rest (sep : α) : List α → List α
  | [] => []
  | c :: t => if c = sep ∨ sep ∈ t then rest sep t else c :: t

section

variable {sep : α}

theorem lines_cons_sep (t : List α) : lines sep (sep :: t) = [] :: lines sep t := by
  rw [lines, if_pos rfl]

theorem lines_eq_nil_iff {t : List α} : lines sep t = [] ↔ sep ∉ t := by
  induction t with
  | nil => simp [lines]
  | cons c t ih =>
    rw [List.mem_cons, not_or, ← ih, lines]
    split
    · next hc => simp [hc]
    · next hc =>
        cases lines sep t with
        | nil => simp [Ne.symm hc]
        | cons l ls => simp

theorem rest_of_not_mem {t : List α} (h : sep ∉ t) : rest sep t = t := by
  cases t with
  | nil => rfl
  | cons c t =>
    rw [List.mem_cons, not_or] at h
    rw [rest, if_neg (by rintro (hc | hm); exacts [h.1 hc.symm, h.2 hm])]

theorem not_mem_rest (t : List α) : sep ∉ rest sep t := by
  induction t with
  | nil => exact List.not_mem_nil
  | cons c t ih =>
    rw [rest]
    split
    · exact ih
    · next h =>
        rw [not_or] at h
        exact fun hm => (List.mem_cons.mp hm).elim (fun hc => h.1 hc.symm) h.2

theorem rest_subset (t : List α) : rest sep t ⊆ t := by
  induction t with
  | nil => exact List.Subset.refl _
  | cons c t ih =>
    rw [rest]
    split
    · exact fun x hx => List.mem_cons_of_mem _ (ih hx)
    · exact List.Subset.refl _

/-- The rest of what came first is read again before what comes next. -/
theorem lines_append (a b : List α) : lines sep (a ++ b) = lines sep a ++ lines sep (rest sep a ++ b) := by
  induction a with
  | nil => rfl
  | cons c a ih =>
    rw [List.cons_append, lines, lines, rest]
    by_cases hc : c = sep
    · rw [if_pos hc, if_pos hc, if_pos (.inl hc), ih]
      rfl
    · rw [if_neg hc, if_neg hc]
      by_cases hm : sep ∈ a
      · rw [if_pos (.inr hm), ih]
        cases hl : lines sep a with
        | nil => exact absurd hm (lines_eq_nil_iff.mp hl)
        | cons l ls => rfl
      · rw [if_neg (by simp [hc, hm]), lines_eq_nil_iff.mpr hm, List.cons_append, lines, if_neg hc]
        rfl

/-- Without a separator before it, a stretch belongs to the line that follows. -/
theorem rest_append_of_mem {a b : List α} (h : sep ∈ b) : rest sep (a ++ b) = rest sep b := by
  induction a with
  | nil => rfl
  | cons c a ih => rw [List.cons_append, rest, if_pos (.inr (List.mem_append_right _ h)), ih]

theorem lines_line {l t : List α} (h : sep ∉ l) : lines sep (l ++ sep :: t) = l :: lines sep t := by
  induction l with
  | nil => exact lines_cons_sep t
  | cons c l ih =>
    rw [List.mem_cons, not_or] at h
    rw [List.cons_append, lines, if_neg (Ne.symm h.1), ih h.2]

theorem rest_line (l t : List α) : rest sep (l ++ sep :: t) = rest sep t := by
  induction l with
  | nil => rw [List.nil_append, rest, if_pos (.inl rfl)]
  | cons c l ih => rw [List.cons_append, rest, if_pos (.inr (by simp)), ih]

/-- The lines with their separators and the rest make up the stream. -/
theorem length_lines_rest (t : List α) :
    ((lines sep t).flatMap (· ++ [sep])).length + (rest sep t).length = t.length := by
  induction t with
  | nil => rfl
  | cons c t ih =>
    rw [lines, rest]
    by_cases hc : c = sep
    · rw [if_pos hc, if_pos (.inl hc)]
      simp only [List.flatMap_cons, List.length_append, List.length_cons, List.length_nil]
      omega
    · rw [if_neg hc]
      by_cases hm : sep ∈ t
      · rw [if_pos (.inr hm)]
        cases hl : lines sep t with
        | nil => exact absurd hm (lines_eq_nil_iff.mp hl)
        | cons l ls =>
          rw [hl] at ih
          simp only [List.flatMap_cons, List.length_append, List.length_cons] at ih ⊢
          omega
      · rw [if_neg (by simp [hc, hm]), lines_eq_nil_iff.mpr hm]
        simp

end

end Lib
