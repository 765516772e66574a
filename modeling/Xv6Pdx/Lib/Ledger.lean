/-
# `Lib.Ledger` — who has what

Things of a kind (`π`) are on a free list or belong to an owner (`ω`); an owner
has one thing or nothing.  `Ledger own free` says that nothing is on the list
twice, nothing on the list belongs to an owner, and nothing belongs to two.  The
rules are what an allocator and its clients can do: take the first thing of the
list, give a thing back, hand things over, and forget things.

Where things are counted, `sum_change` says what one owner does to the sum.
-/
import Mathlib

namespace Lib

variable {ω π : Type} {own own' : ω → Option π} {free : List π} {p : π}

/-- Free things and owned things are apart, and owners are. -/
structure Ledger (own : ω → Option π) (free : List π) : Prop where
  nodup : free.Nodup
  apart : ∀ o p, own o = some p → p ∉ free
  single : ∀ o o' p, own o = some p → own o' = some p → o = o'

namespace Ledger

/-- Things go from owner to owner: what `o` has now, `f o` had before. -/
theorem hand (h : Ledger own free) (f : ω → ω) (hf : ∀ o p, own' o = some p → own (f o) = some p)
    (hinj : ∀ o o' p, own' o = some p → own' o' = some p → f o = f o' → o = o') :
    Ledger own' free where
  nodup := h.nodup
  apart := fun o p ho => h.apart (f o) p (hf o p ho)
  single := fun o o' p ho ho' =>
    hinj o o' p ho ho' (h.single (f o) (f o') p (hf o p ho) (hf o' p ho'))

theorem forget (h : Ledger own free) (hle : ∀ o p, own' o = some p → own o = some p) :
    Ledger own' free :=
  h.hand id hle fun _ _ _ _ _ he => he

theorem perm {free' : List π} (h : Ledger own free) (hp : free.Perm free') : Ledger own free' where
  nodup := hp.nodup_iff.mp h.nodup
  apart := fun o p ho hmem => h.apart o p ho (hp.mem_iff.mpr hmem)
  single := h.single

theorem take (h : Ledger own (p :: free)) (o : ω)
    (hle : ∀ x q, own' x = some q → own x = some q ∨ x = o ∧ q = p) : Ledger own' free where
  nodup := (List.nodup_cons.mp h.nodup).2
  apart := by
    intro x q hx hq
    rcases hle x q hx with hx' | ⟨-, rfl⟩
    · exact h.apart x q hx' (List.mem_cons_of_mem _ hq)
    · exact (List.nodup_cons.mp h.nodup).1 hq
  single := by
    intro x x' q hx hx'
    rcases hle x q hx with h₁ | ⟨rfl, rfl⟩ <;> rcases hle x' q hx' with h₂ | ⟨rfl, h₂⟩
    · exact h.single x x' q h₁ h₂
    · exact absurd (List.mem_cons_self ..) (h₂ ▸ h.apart x q h₁)
    · exact absurd (List.mem_cons_self ..) (h.apart x' q h₂)
    · rfl

theorem give (h : Ledger own free) {o : ω} (ho : own o = some p) (hout : own' o ≠ some p)
    (hle : ∀ x q, own' x = some q → own x = some q) : Ledger own' (p :: free) where
  nodup := List.nodup_cons.mpr ⟨h.apart o p ho, h.nodup⟩
  apart := by
    intro x q hx hq
    rcases List.mem_cons.mp hq with rfl | hq
    · obtain rfl := h.single x o q (hle x q hx) ho
      exact hout hx
    · exact h.apart x q (hle x q hx) hq
  single := fun x x' q hx hx' => h.single x x' q (hle x q hx) (hle x' q hx')

end Ledger

/-! ## Counts -/

theorem sum_change {ι : Type} [Fintype ι] [DecidableEq ι] (f f' : ι → Nat) (i : ι)
    (h : ∀ j, j ≠ i → f' j = f j) : ∑ j, f' j + f i = ∑ j, f j + f' i := by
  have hf := Finset.add_sum_erase Finset.univ f (Finset.mem_univ i)
  have hf' := Finset.add_sum_erase Finset.univ f' (Finset.mem_univ i)
  have hrest : ∑ j ∈ Finset.univ.erase i, f' j = ∑ j ∈ Finset.univ.erase i, f j :=
    Finset.sum_congr rfl fun j hj => h j (Finset.ne_of_mem_erase hj)
  omega

end Lib
