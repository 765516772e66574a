/-
# `Lib.Span` — sorted lists of intervals, and lists linked in a circle

A list of spans in increasing order with a gap between any two of them is kept in
this form by `attach`, which puts two such lists together and makes one span of
the two that meet at the seam.  Freeing a block is two seams.

`Linked next l` says that each cell of `l` points to the one after it; a circle
is a list of cells with its first cell again at the end, and it can be read from
any of its cells on.  `seek` follows the pointers until a test holds.
-/
import Mathlib

namespace Lib

/-- The `size` places from `start` on. -/
structure Span where
  start : Nat
  size : Nat
deriving DecidableEq, Repr

namespace Span

def stop (b : Span) : Nat := b.start + b.size

def Apart (a b : Span) : Prop := a.stop ≤ b.start ∨ b.stop ≤ a.start

/-- There is a gap between `a` and `b`. -/
def Clear (a b : Span) : Prop := a.stop < b.start

/-- The place `x` is in one of the spans. -/
def Covers (l : List Span) (x : Nat) : Prop := ∃ b ∈ l, b.start ≤ x ∧ x < b.stop

def total (l : List Span) : Nat := (l.map size).sum

@[simp] theorem total_nil : total [] = 0 := rfl

@[simp] theorem total_cons (b : Span) (l : List Span) : total (b :: l) = b.size + total l := rfl

@[simp] theorem total_append (l₁ l₂ : List Span) : total (l₁ ++ l₂) = total l₁ + total l₂ := by
  simp [total]

@[simp] theorem covers_nil (x : Nat) : ¬ Covers [] x := by simp [Covers]

@[simp] theorem covers_cons (b : Span) (l : List Span) (x : Nat) :
    Covers (b :: l) x ↔ (b.start ≤ x ∧ x < b.stop) ∨ Covers l x := by
  simp [Covers]

@[simp] theorem covers_append (l₁ l₂ : List Span) (x : Nat) :
    Covers (l₁ ++ l₂) x ↔ Covers l₁ x ∨ Covers l₂ x := by
  simp [Covers, or_and_right, exists_or]

theorem Apart.symm {a b : Span} (h : Apart a b) : Apart b a := Or.symm h

instance : Std.Symm Apart := ⟨fun _ _ => Apart.symm⟩

/-- One list after the other; spans that touch become one. -/
def attach : List Span → List Span → List Span
  | [], l => l
  | [a], [] => [a]
  | [a], b :: l => if a.stop = b.start then ⟨a.start, a.size + b.size⟩ :: l else a :: b :: l
  | a :: a' :: l₁, l₂ => a :: attach (a' :: l₁) l₂

theorem attach_singleton (a b : Span) (l : List Span) : attach [a] (b :: l) =
    if a.stop = b.start then ⟨a.start, a.size + b.size⟩ :: l else a :: b :: l := rfl

theorem attach_append (l₁ : List Span) (a : Span) (l₂ : List Span) :
    attach (l₁ ++ [a]) l₂ = l₁ ++ attach [a] l₂ := by
  induction l₁ with
  | nil => rfl
  | cons b l₁ ih =>
    cases l₁ with
    | nil => rfl
    | cons b' l₁ =>
      show b :: attach (b' :: l₁ ++ [a]) l₂ = _
      rw [ih]
      rfl

/-- What is true of the spans, and of the join of two that touch, is true of
the result. -/
theorem attach_forall {P : Span → Prop} {l₁ l₂ : List Span} (h₁ : ∀ a ∈ l₁, P a)
    (h₂ : ∀ b ∈ l₂, P b)
    (hj : ∀ a ∈ l₁, ∀ b ∈ l₂, a.stop = b.start → P ⟨a.start, a.size + b.size⟩) :
    ∀ c ∈ attach l₁ l₂, P c := by
  induction l₁ with
  | nil => exact h₂
  | cons a l₁ ih =>
    cases l₁ with
    | cons a' l₁ =>
      intro c hc
      rcases List.mem_cons.mp hc with rfl | hc
      · exact h₁ c List.mem_cons_self
      · exact ih (fun b hb => h₁ b (List.mem_cons_of_mem a hb))
          (fun b hb => hj b (List.mem_cons_of_mem a hb)) c hc
    | nil =>
      cases l₂ with
      | nil => exact h₁
      | cons b l₂ =>
        rw [attach_singleton]
        split
        · next hab =>
            rintro c (_ | hc)
            · exact hj a List.mem_cons_self b List.mem_cons_self hab
            · exact h₂ c (List.mem_cons_of_mem b ‹_›)
        · rintro c (_ | hc)
          · exact h₁ a List.mem_cons_self
          · exact h₂ c ‹_›

theorem attach_clear {l₁ l₂ : List Span} (h₁ : l₁.Pairwise Clear) (h₂ : l₂.Pairwise Clear)
    (h : ∀ a ∈ l₁, ∀ b ∈ l₂, a.stop ≤ b.start) : (attach l₁ l₂).Pairwise Clear := by
  induction l₁ with
  | nil => exact h₂
  | cons a l₁ ih =>
    cases l₁ with
    | cons a' l₁ =>
      rw [List.pairwise_cons] at h₁
      refine List.pairwise_cons.mpr ⟨?_, ih h₁.2 fun b hb => h b (List.mem_cons_of_mem a hb)⟩
      refine attach_forall h₁.1 ?_ ?_
      · intro b hb
        have haa := h₁.1 a' List.mem_cons_self
        have hab := h a' (by simp) b hb
        simp only [Clear, stop] at *
        omega
      · exact fun c hc b _ _ => h₁.1 c hc
    | nil =>
      cases l₂ with
      | nil => exact h₁
      | cons b l₂ =>
        rw [List.pairwise_cons] at h₂
        have hab := h a List.mem_cons_self b List.mem_cons_self
        rw [attach_singleton]
        split
        · next he =>
            refine List.pairwise_cons.mpr ⟨fun c hc => ?_, h₂.2⟩
            have hbc := h₂.1 c hc
            simp only [Clear, stop] at *
            omega
        · next he =>
            refine List.pairwise_cons.mpr ⟨fun c hc => ?_, List.pairwise_cons.mpr h₂⟩
            rcases List.mem_cons.mp hc with rfl | hc
            · exact lt_of_le_of_ne hab he
            · have hbc := h₂.1 c hc
              simp only [Clear, stop] at *
              omega

theorem attach_head (a : Span) (l : List Span) :
    ∃ c l', attach [a] l = c :: l' ∧ c.start = a.start := by
  cases l with
  | nil => exact ⟨a, [], rfl, rfl⟩
  | cons b l =>
    rw [attach_singleton]
    split
    · exact ⟨_, _, rfl, rfl⟩
    · exact ⟨_, _, rfl, rfl⟩

/-- A span that does not touch the next one stays as it is. -/
theorem attach_cons {a : Span} {l₁ l₂ : List Span} (h : ∀ b ∈ l₂, a.stop < b.start) :
    attach (a :: l₁) l₂ = a :: attach l₁ l₂ := by
  cases l₁ with
  | cons b l₁ => rfl
  | nil =>
    cases l₂ with
    | nil => rfl
    | cons b l₂ =>
      rw [attach_singleton, if_neg (Nat.ne_of_lt (h b List.mem_cons_self))]
      rfl

theorem attach_contains {l₁ l₂ : List Span} {x : Span} (hx : x ∈ l₁ ∨ x ∈ l₂) :
    ∃ c ∈ attach l₁ l₂, c.start ≤ x.start ∧ x.stop ≤ c.stop := by
  have hself : ∀ {l : List Span}, x ∈ l → ∃ c ∈ l, c.start ≤ x.start ∧ x.stop ≤ c.stop :=
    fun h => ⟨x, h, Nat.le_refl _, Nat.le_refl _⟩
  induction l₁ with
  | nil => exact hself (hx.resolve_left (by simp))
  | cons a l₁ ih =>
    cases l₁ with
    | cons a' l₁ =>
      by_cases ha : x = a
      · subst ha
        exact ⟨x, List.mem_cons_self, Nat.le_refl _, Nat.le_refl _⟩
      · obtain ⟨c, hc, hle⟩ := ih (hx.imp_left fun h => (List.mem_cons.mp h).resolve_left ha)
        exact ⟨c, List.mem_cons_of_mem a hc, hle⟩
    | nil =>
      cases l₂ with
      | nil => exact hself (hx.resolve_right (by simp))
      | cons b l₂ =>
        rw [attach_singleton]
        split
        · next he =>
            rcases hx with hx | hx
            · obtain rfl := List.mem_singleton.mp hx
              refine ⟨_, List.mem_cons_self, Nat.le_refl _, ?_⟩
              simp only [stop]
              omega
            · rcases List.mem_cons.mp hx with rfl | hx
              · refine ⟨_, List.mem_cons_self, ?_, ?_⟩ <;> simp only [stop] at * <;> omega
              · exact hself (List.mem_cons_of_mem _ hx)
        · exact hself (by simpa using hx)

theorem total_attach (l₁ l₂ : List Span) : total (attach l₁ l₂) = total l₁ + total l₂ := by
  induction l₁ with
  | nil => simp [attach]
  | cons a l₁ ih =>
    cases l₁ with
    | cons a' l₁ =>
      show a.size + total (attach (a' :: l₁) l₂) = a.size + total (a' :: l₁) + total l₂
      rw [ih, Nat.add_assoc]
    | nil =>
      cases l₂ with
      | nil => rfl
      | cons b l₂ =>
        rw [attach_singleton]
        split
        · simp only [total_cons, total_nil]
          omega
        · rfl

theorem covers_attach (l₁ l₂ : List Span) (x : Nat) :
    Covers (attach l₁ l₂) x ↔ Covers l₁ x ∨ Covers l₂ x := by
  induction l₁ with
  | nil => simp [attach]
  | cons a l₁ ih =>
    cases l₁ with
    | cons a' l₁ =>
      show Covers (a :: attach (a' :: l₁) l₂) x ↔ _
      rw [covers_cons, ih, covers_cons a, or_assoc]
    | nil =>
      cases l₂ with
      | nil => simp [attach]
      | cons b l₂ =>
        rw [attach_singleton]
        split
        · next he =>
            simp only [covers_cons, covers_nil, or_false, stop] at he ⊢
            rw [← or_assoc]
            refine or_congr ?_ Iff.rfl
            omega
        · simp

theorem exists_split {b : Span} {l : List Span} (h : l.Pairwise Clear)
    (ha : ∀ a ∈ l, Apart b a) : ∃ pre post, l = pre ++ post ∧ (∀ a ∈ pre, a.stop ≤ b.start) ∧
      ∀ c ∈ post, b.stop ≤ c.start := by
  induction l with
  | nil => exact ⟨[], [], rfl, by simp, by simp⟩
  | cons a l ih =>
    rw [List.pairwise_cons] at h
    rcases ha a List.mem_cons_self with hba | hab
    · refine ⟨[], a :: l, rfl, by simp, ?_⟩
      intro c hc
      rcases List.mem_cons.mp hc with rfl | hc
      · exact hba
      · have hac := h.1 c hc
        simp only [Clear, stop] at *
        omega
    · obtain ⟨pre, post, rfl, h₁, h₂⟩ := ih h.2 fun c hc => ha c (List.mem_cons_of_mem a hc)
      refine ⟨a :: pre, post, rfl, ?_, h₂⟩
      intro c hc
      rcases List.mem_cons.mp hc with rfl | hc
      · exact hab
      · exact h₁ c hc

theorem attach_apart {l₁ l₂ : List Span} {c : Span} (hc : 0 < c.size)
    (h₁ : ∀ a ∈ l₁, Apart c a) (h₂ : ∀ b ∈ l₂, Apart c b) : ∀ a ∈ attach l₁ l₂, Apart c a := by
  refine attach_forall h₁ h₂ ?_
  intro a ha b hb hab
  have hca := h₁ a ha
  have hcb := h₂ b hb
  simp only [Apart, stop] at *
  omega

theorem length_le_total {l : List Span} (h : ∀ b ∈ l, 8 ≤ b.size) : 8 * l.length ≤ total l := by
  induction l with
  | nil => simp
  | cons b l ih =>
    have hb := h b List.mem_cons_self
    have hl := ih fun c hc => h c (List.mem_cons_of_mem b hc)
    simp only [List.length_cons, total_cons]
    omega

end Span

/-! ## Circles -/

section Linked

variable {α : Type}

/-- Each cell points to the one after it. -/
def Linked (next : α → α) (l : List α) : Prop := l.IsChain fun a b => next a = b

variable {next next' : α → α} {l l₁ l₂ : List α} {a b : α}

namespace Linked

@[simp] theorem cons_cons : Linked next (a :: b :: l) ↔ next a = b ∧ Linked next (b :: l) :=
  List.isChain_cons_cons

@[simp] theorem singleton : Linked next [a] := List.isChain_singleton a

theorem split : Linked next (l₁ ++ a :: l₂) ↔ Linked next (l₁ ++ [a]) ∧ Linked next (a :: l₂) :=
  List.isChain_split

theorem congr (h : Linked next l) (he : ∀ a ∈ l.dropLast, next' a = next a) : Linked next' l := by
  induction l with
  | nil => exact .nil
  | cons a l ih =>
    cases l with
    | nil => exact singleton
    | cons b l =>
      rw [cons_cons] at h ⊢
      refine ⟨?_, ih h.2 fun c hc => he c (List.mem_cons_of_mem a hc)⟩
      rw [he a List.mem_cons_self, h.1]

theorem rotate {c : α} {cs : List α} (h : Linked next (c :: cs ++ [c]))
    (hsplit : c :: cs = l₁ ++ a :: l₂) : Linked next (a :: l₂ ++ l₁ ++ [a]) := by
  rw [hsplit] at h
  cases l₁ with
  | nil =>
    obtain ⟨rfl, rfl⟩ := List.cons.inj hsplit
    simpa using h
  | cons c' l₁ =>
    obtain ⟨rfl, -⟩ := List.cons.inj hsplit
    have hl : c :: l₁ ++ a :: l₂ ++ [c] = (c :: l₁) ++ a :: (l₂ ++ [c]) := by simp
    have hr : a :: l₂ ++ c :: l₁ ++ [a] = (a :: l₂) ++ c :: (l₁ ++ [a]) := by simp
    rw [hl, split] at h
    rw [hr, split]
    exact ⟨h.2, h.1⟩

end Linked

/-- `while(!p(a)) a = a->next;`, for at most `fuel` turns. -/
def seek (next : α → α) (p : α → Bool) : Nat → α → Option α
  | 0, _ => none
  | fuel + 1, a => if p a then some a else seek next p fuel (next a)

theorem seek_linked {p : α → Bool} : ∀ {l w : List α} {fuel : Nat} {a t : α},
    a :: w = l ++ [t] → Linked next (a :: w) → (∀ b ∈ l, p b = false) → p t = true →
      l.length < fuel → seek next p fuel a = some t := by
  intro l
  induction l with
  | nil =>
    intro w fuel a t he _ _ ht hf
    obtain ⟨rfl, -⟩ := List.cons.inj he
    obtain ⟨n, rfl⟩ := Nat.exists_eq_succ_of_ne_zero (Nat.ne_zero_of_lt hf)
    rw [seek, if_pos ht]
  | cons b l ih =>
    intro w fuel a t he hl hno ht hf
    rw [List.cons_append] at he
    obtain ⟨rfl, rfl⟩ := List.cons.inj he
    obtain ⟨n, rfl⟩ := Nat.exists_eq_succ_of_ne_zero (Nat.ne_zero_of_lt hf)
    obtain ⟨c, w, hw⟩ := List.exists_cons_of_ne_nil (List.append_ne_nil_of_right_ne_nil l
      (List.cons_ne_nil t []))
    rw [hw, Linked.cons_cons] at hl
    rw [seek, if_neg (by simp [hno a List.mem_cons_self]), hl.1]
    exact ih hw.symm hl.2 (fun b hb => hno b (List.mem_cons_of_mem a hb)) ht
      (Nat.lt_of_succ_lt_succ hf)

/-- In a circle the loop finds the only cell with the test, wherever it starts. -/
theorem seek_circle {p : α → Bool} {c : α} {cs : List α} {fuel : Nat} {a t : α}
    (h : Linked next (c :: cs ++ [c])) (hnd : (c :: cs).Nodup) (ha : a ∈ c :: cs)
    (ht : t ∈ c :: cs) (hp : ∀ x ∈ c :: cs, p x = true ↔ x = t) (hf : (c :: cs).length ≤ fuel) :
    seek next p fuel a = some t := by
  obtain ⟨l₁, l₂, hsplit⟩ := List.append_of_mem ha
  have hrot := h.rotate hsplit
  have hperm : (a :: l₂ ++ l₁).Perm (c :: cs) := by
    rw [hsplit]
    exact List.perm_append_comm
  obtain ⟨u, v, huv⟩ := List.append_of_mem (hperm.mem_iff.mpr ht)
  have hu : ∀ x ∈ u, x ∈ c :: cs ∧ x ≠ t := by
    intro x hx
    refine ⟨hperm.mem_iff.mp (by rw [huv]; simp [hx]), ?_⟩
    rintro rfl
    have hnd' := hperm.nodup_iff.mpr hnd
    rw [huv, List.nodup_append] at hnd'
    exact hnd'.2.2 x hx x List.mem_cons_self rfl
  have hlinked : Linked next (u ++ [t]) := by
    rw [huv, List.append_assoc, List.cons_append] at hrot
    exact (Linked.split.mp hrot).1
  have hlen : u.length < fuel := by
    have := hperm.length_eq
    rw [huv, List.length_append, List.length_cons] at this
    omega
  obtain ⟨b, w, hw⟩ := List.exists_cons_of_ne_nil (List.append_ne_nil_of_right_ne_nil u
    (List.cons_ne_nil t []))
  have hba : b = a := by
    have hpre : u ++ t :: v = b :: w ++ v := by rw [← hw]; simp
    rw [← huv] at hpre
    exact (List.cons.inj hpre).1.symm
  subst hba
  refine seek_linked hw.symm (hw ▸ hlinked) ?_ ((hp t ht).mpr rfl) hlen
  intro x hx
  obtain ⟨hmem, hne⟩ := hu x hx
  exact Bool.eq_false_iff.mpr fun hpx => hne ((hp x hmem).mp hpx)

/-- Along a list in increasing order the pointers go up. -/
theorem Linked.ascends {next : Nat → Nat} {l : List Nat} (h : Linked next l)
    (hlt : l.Pairwise (· < ·)) : ∀ x ∈ l.dropLast, x < next x ∧ next x ∈ l := by
  induction l with
  | nil => simp
  | cons a l ih =>
    cases l with
    | nil => simp
    | cons b l =>
      rw [Linked.cons_cons] at h
      rw [List.pairwise_cons] at hlt
      intro x hx
      rcases List.mem_cons.mp hx with rfl | hx
      · rw [h.1]
        exact ⟨hlt.1 b List.mem_cons_self, by simp⟩
      · obtain ⟨h1, h2⟩ := ih h.2 hlt.2 x hx
        exact ⟨h1, List.mem_cons_of_mem a h2⟩

end Linked

end Lib
