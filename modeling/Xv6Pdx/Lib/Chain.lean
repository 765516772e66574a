/-
# `Lib.Chain` — singly linked lists in a heap of `next` pointers

A heap is a function `next : α → Option α`; `none` is the null pointer.
`Chain next h xs` says that following `next` from `h` visits exactly `xs`, in
order, and then reaches null.  Such a list has no cell twice, and a heap has at
most one chain from a pointer, so the predicate determines `xs`.

Several lists may share one heap.  Updating `next` off a chain leaves the
chain alone (`Chain.congr`); the two updates a queue makes are `Chain.snoc` and
`Chain.unlink`.  `walk` follows `next` for a bounded number of cells.
-/
import Mathlib

namespace Lib

open Function (update update_self update_of_ne)

variable {α : Type}

/-- Following `next` from `h` visits exactly `xs` and ends in null. -/
def Chain (next : α → Option α) : Option α → List α → Prop
  | h, [] => h = none
  | h, x :: xs => h = some x ∧ Chain next (next x) xs

namespace Chain

variable {next next' : α → Option α} {h : Option α} {xs ys : List α}

@[simp] theorem nil_iff : Chain next h [] ↔ h = none := Iff.rfl

@[simp] theorem cons_iff {x : α} :
    Chain next h (x :: xs) ↔ h = some x ∧ Chain next (next x) xs := Iff.rfl

@[simp] theorem none_iff : Chain next none xs ↔ xs = [] := by
  cases xs <;> simp

theorem some_iff {a : α} :
    Chain next (some a) xs ↔ ∃ ys, xs = a :: ys ∧ Chain next (next a) ys := by
  cases xs with
  | nil => simp
  | cons x xs =>
    constructor
    · rintro ⟨he, hc⟩
      cases he
      exact ⟨xs, rfl, hc⟩
    · rintro ⟨ys, he, hc⟩
      cases he
      exact ⟨rfl, hc⟩

theorem head_eq (hc : Chain next h xs) : h = xs.head? := by
  cases xs with
  | nil => exact hc
  | cons x xs => exact hc.1

theorem unique : ∀ {xs ys : List α} {h : Option α}, Chain next h xs → Chain next h ys → xs = ys
  | [], [], _, _, _ => rfl
  | [], _ :: _, _, hx, hy => by cases hx.symm.trans hy.1
  | _ :: _, [], _, hx, hy => by cases hy.symm.trans hx.1
  | x :: xs, y :: ys, _, hx, hy => by
    have hxy : x = y := Option.some.inj (hx.1.symm.trans hy.1)
    subst hxy
    rw [unique hx.2 hy.2]

theorem congr : ∀ {xs : List α} {h : Option α}, (∀ x ∈ xs, next' x = next x) →
    Chain next h xs → Chain next' h xs
  | [], _, _, hc => hc
  | x :: xs, _, he, hc => by
    refine ⟨hc.1, ?_⟩
    rw [he x List.mem_cons_self]
    exact congr (fun y hy => he y (List.mem_cons_of_mem _ hy)) hc.2

theorem of_append : ∀ {xs : List α} {h : Option α} {x : α},
    Chain next h (xs ++ x :: ys) → Chain next (next x) ys
  | [], _, _, hc => hc.2
  | _ :: _, _, _, hc => of_append hc.2

theorem nodup : ∀ {xs : List α} {h : Option α}, Chain next h xs → xs.Nodup
  | [], _, _ => List.nodup_nil
  | x :: xs, _, hc => by
    refine List.nodup_cons.mpr ⟨?_, nodup hc.2⟩
    intro hx
    -- a second visit to `x` would start the same list again, only shorter
    obtain ⟨as, bs, rfl⟩ := List.append_of_mem hx
    have heq := unique hc.2 (of_append hc.2)
    have hlen := congrArg List.length heq
    simp only [List.length_append, List.length_cons] at hlen
    omega

theorem cut {p : α} : ∀ {xs : List α} {h : Option α}, Chain next h (xs ++ p :: ys) →
    (∀ x ∈ xs, next' x = next x) → next' p = none → Chain next' h (xs ++ [p])
  | [], _, hc, _, hp => ⟨hc.1, hp⟩
  | x :: xs, _, hc, hx, hp => by
    refine ⟨hc.1, ?_⟩
    rw [hx x List.mem_cons_self]
    exact cut hc.2 (fun y hy => hx y (List.mem_cons_of_mem x hy)) hp

section Update

variable [DecidableEq α]

theorem update_of_notMem {a : α} {v : Option α} (ha : a ∉ xs) (hc : Chain next h xs) :
    Chain (update next a v) h xs := by
  refine congr (fun x hx => ?_) hc
  have hne : x ≠ a := fun he => ha (he ▸ hx)
  exact update_of_ne hne _ _

theorem snoc : ∀ {xs : List α} {h : Option α} {t p : α}, Chain next h (xs ++ [t]) → p ∉ xs ++ [t] →
    Chain (update (update next t (some p)) p none) h (xs ++ [t, p])
  | [], _, t, p, hc, hp => by
    have hpt : t ≠ p := fun he => hp (by simp [he])
    refine ⟨hc.1, ?_, ?_⟩
    · rw [update_of_ne hpt, update_self]
    · rw [nil_iff, update_self]
  | x :: xs, _, t, p, hc, hp => by
    have hnd : (x :: (xs ++ [t])).Nodup := nodup hc
    have hxt : x ≠ t := by
      intro he
      exact (List.nodup_cons.mp hnd).1 (by simp [he])
    have hxp : x ≠ p := fun he => hp (by simp [he])
    refine ⟨hc.1, ?_⟩
    rw [update_of_ne hxp, update_of_ne hxt]
    exact snoc hc.2 (fun hm => hp (List.mem_cons_of_mem _ hm))

theorem unlink : ∀ {xs : List α} {h : Option α} {p c : α}, Chain next h (xs ++ p :: c :: ys) →
    Chain (update (update next p (next c)) c none) h (xs ++ p :: ys)
  | [], _, p, c, hc => by
    have hnd := nodup hc
    have hpc : p ≠ c := by
      intro he
      exact (List.nodup_cons.mp hnd).1 (by simp [he])
    refine ⟨hc.1, ?_⟩
    rw [update_of_ne hpc, update_self]
    refine congr (fun y hy => ?_) hc.2.2
    have hnd' := (List.nodup_cons.mp hnd)
    have hyc : y ≠ c := fun he => (List.nodup_cons.mp hnd'.2).1 (he ▸ hy)
    have hyp : y ≠ p := fun he => hnd'.1 (List.mem_cons_of_mem _ (he ▸ hy))
    rw [update_of_ne hyc, update_of_ne hyp]
  | x :: xs, _, p, c, hc => by
    have hx := (List.nodup_cons.mp (nodup hc)).1
    have hxp : x ≠ p := fun he => hx (by simp [he])
    have hxc : x ≠ c := fun he => hx (by simp [he])
    refine ⟨hc.1, ?_⟩
    rw [update_of_ne hxc, update_of_ne hxp]
    exact unlink hc.2

end Update

end Chain

/-! ## Following the pointers for a bounded number of cells -/

/-- The cells from `h` on, provided null is reached within `n` of them. -/
def walk (next : α → Option α) : Nat → Option α → Option (List α)
  | _, none => some []
  | 0, some _ => none
  | n + 1, some x => (walk next n (next x)).map (x :: ·)

theorem walk_eq_some_iff {next : α → Option α} : ∀ {n : Nat} {h : Option α} {xs : List α},
    walk next n h = some xs ↔ Chain next h xs ∧ xs.length ≤ n
  | n, none, xs => by
    have hw : walk next n none = some [] := by cases n <;> rfl
    rw [hw, Chain.none_iff, Option.some.injEq]
    constructor
    · rintro rfl; exact ⟨rfl, Nat.zero_le _⟩
    · rintro ⟨rfl, _⟩; rfl
  | 0, some a, xs => by
    simp only [walk, Nat.le_zero_eq, List.length_eq_zero_iff]
    constructor
    · intro he; cases he
    · rintro ⟨hc, rfl⟩; cases hc
  | n + 1, some a, xs => by
    simp only [walk, Option.map_eq_some_iff, walk_eq_some_iff, Chain.some_iff]
    constructor
    · rintro ⟨ys, ⟨hc, hl⟩, rfl⟩
      exact ⟨⟨ys, rfl, hc⟩, by simpa using hl⟩
    · rintro ⟨⟨ys, rfl, hc⟩, hl⟩
      exact ⟨ys, ⟨hc, by simpa using hl⟩, rfl⟩

/-- In a finite heap a walk as long as the heap misses no chain. -/
theorem walk_eq_some [Fintype α] {next : α → Option α} {h : Option α} {xs : List α}
    (hc : Chain next h xs) : walk next (Fintype.card α) h = some xs :=
  walk_eq_some_iff.mpr ⟨hc, hc.nodup.length_le_card⟩

end Lib
