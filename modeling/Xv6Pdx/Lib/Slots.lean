/-
# `Lib.Slots` — a finite map as a table of slots

A table has slots, each empty or with a key and a value.  When no two slots have the
same key it stands for a partial function; filling an empty slot adds a key to the
function, and clearing a slot takes its key away.
-/
import Mathlib

namespace Lib

/-- A table; the slots from `size` on do not count. -/
structure Slots (κ ν : Type) where
  size : Nat
  slot : Nat → Option (κ × ν)

namespace Slots

variable {κ ν : Type} {T T' : Slots κ ν} {m : κ → Option ν} {i : Nat} {k : κ} {v : ν}

/-- Slot `i` has the key and the value. -/
def Holds (T : Slots κ ν) (i : Nat) (k : κ) (v : ν) : Prop :=
  i < T.size ∧ T.slot i = some (k, v)

def Has (T : Slots κ ν) (k : κ) : Prop := ∃ i v, T.Holds i k v

def Free (T : Slots κ ν) : Prop := ∃ i < T.size, T.slot i = none

/-- No two slots have the same key. -/
def Distinct (T : Slots κ ν) : Prop :=
  ∀ i j k v w, T.Holds i k v → T.Holds j k w → i = j

/-- The table stands for the function. -/
def Stands (T : Slots κ ν) (m : κ → Option ν) : Prop :=
  ∀ k v, m k = some v ↔ ∃ i, T.Holds i k v

/-- `T'` is `T` with `x` in slot `i`, which may be a new one. -/
structure Put (T : Slots κ ν) (i : Nat) (x : Option (κ × ν)) (T' : Slots κ ν) : Prop where
  size : T'.size = max T.size (i + 1)
  le : i ≤ T.size
  self : T'.slot i = x
  other : ∀ j < T.size, j ≠ i → T'.slot j = T.slot j

theorem Holds.inj {w : ν} {k' : κ} (h : T.Holds i k v) (h' : T.Holds i k' w) : k = k' ∧ v = w := by
  have he := h.2.symm.trans h'.2
  cases he
  exact ⟨rfl, rfl⟩

theorem Stands.has (h : T.Stands m) : T.Has k ↔ m k ≠ none := by
  rw [Option.ne_none_iff_exists']
  constructor
  · rintro ⟨i, v, hv⟩
    exact ⟨v, (h k v).mpr ⟨i, hv⟩⟩
  · rintro ⟨v, hv⟩
    obtain ⟨i, hi⟩ := (h k v).mp hv
    exact ⟨i, v, hi⟩

namespace Put

/-- After a slot is filled, what the others hold is as before. -/
theorem holds_of_ne {x : Option (κ × ν)} (h : T.Put i x T') {j : Nat} (hj : j ≠ i) :
    T'.Holds j k v ↔ T.Holds j k v := by
  have hsize := h.size
  have hle := h.le
  constructor
  · rintro ⟨hlt, hs⟩
    have hlt' : j < T.size := by omega
    exact ⟨hlt', (h.other j hlt' hj).symm.trans hs⟩
  · rintro ⟨hlt, hs⟩
    exact ⟨by omega, (h.other j hlt hj).trans hs⟩

theorem holds_self {x : Option (κ × ν)} (h : T.Put i x T') : T'.Holds i k v ↔ x = some (k, v) := by
  have hsize := h.size
  constructor
  · exact fun hs => h.self.symm.trans hs.2
  · rintro rfl
    exact ⟨by omega, h.self⟩

theorem fill_distinct (h : T.Put i (some (k, v)) T') (hd : T.Distinct) (hnew : ¬ T.Has k) :
    T'.Distinct := by
  intro a b k' w w' ha hb
  by_cases hai : a = i <;> by_cases hbi : b = i
  · rw [hai, hbi]
  · subst hai
    cases h.holds_self.mp ha
    exact absurd ⟨b, w', (h.holds_of_ne hbi).mp hb⟩ hnew
  · subst hbi
    cases h.holds_self.mp hb
    exact absurd ⟨a, w, (h.holds_of_ne hai).mp ha⟩ hnew
  · exact hd a b k' w w' ((h.holds_of_ne hai).mp ha) ((h.holds_of_ne hbi).mp hb)

theorem fill_stands [DecidableEq κ] (h : T.Put i (some (k, v)) T') (hm : T.Stands m)
    (hnew : ¬ T.Has k) (hempty : i < T.size → T.slot i = none) :
    T'.Stands (Function.update m k (some v)) := by
  intro k' w
  by_cases hk : k' = k
  · subst hk
    rw [Function.update_self, Option.some.injEq]
    constructor
    · rintro rfl
      exact ⟨i, h.holds_self.mpr rfl⟩
    · rintro ⟨j, hj⟩
      by_cases hji : j = i
      · subst hji
        cases h.holds_self.mp hj
        rfl
      · exact absurd ⟨j, w, (h.holds_of_ne hji).mp hj⟩ hnew
  · rw [Function.update_of_ne hk, hm k' w]
    refine exists_congr fun j => ?_
    by_cases hji : j = i
    · subst hji
      rw [h.holds_self]
      constructor
      · rintro ⟨hlt, hs⟩
        rw [hempty hlt] at hs
        cases hs
      · intro he
        cases he
        exact absurd rfl hk
    · exact (h.holds_of_ne hji).symm

theorem clear_distinct (h : T.Put i none T') (hd : T.Distinct) : T'.Distinct := by
  have hold : ∀ {j k' w}, T'.Holds j k' w → T.Holds j k' w := by
    intro j k' w hj
    refine (h.holds_of_ne ?_).mp hj
    rintro rfl
    cases h.holds_self.mp hj
  exact fun a b k' w w' ha hb => hd a b k' w w' (hold ha) (hold hb)

theorem clear_stands [DecidableEq κ] (h : T.Put i none T') (hd : T.Distinct) (hm : T.Stands m)
    (hold : T.Holds i k v) : T'.Stands (Function.update m k none) := by
  intro k' w
  by_cases hk : k' = k
  · subst hk
    rw [Function.update_self]
    simp only [reduceCtorEq, false_iff]
    rintro ⟨j, hj⟩
    by_cases hji : j = i
    · subst hji
      cases h.holds_self.mp hj
    · exact hji (hd _ _ _ _ _ ((h.holds_of_ne hji).mp hj) hold)
  · rw [Function.update_of_ne hk, hm k' w]
    refine exists_congr fun j => ?_
    by_cases hji : j = i
    · subst hji
      rw [h.holds_self]
      simp only [reduceCtorEq, iff_false]
      exact fun hj => hk (hj.inj hold).1
    · exact (h.holds_of_ne hji).symm

end Put

end Slots

end Lib
