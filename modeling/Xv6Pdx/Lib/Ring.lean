/-
# `Lib.Ring` — circular doubly linked lists with a head

The cells of a ring are linked by `next` and `prev`, and one cell is the head.
`Ring r head l` says that from the head on there are the cells `l`, each once,
and then the head again, and that the two kinds of links agree.

A cell is taken out by joining its neighbours (`Ring.unlink`), and put in
behind the head (`Ring.pushFront`).  `seek` is the loop that looks for a cell,
and on a ring it is `List.find?` (`Ring.seek_next`, `Ring.seek_prev`).
-/
import Mathlib

namespace Lib

open Function (update update_self update_of_ne)

variable {α : Type}

structure Links (α : Type) where
  next : α → α
  prev : α → α

namespace Links

def Joined (r : Links α) (a b : α) : Prop := r.next a = b ∧ r.prev b = a

/-- The ring with its links exchanged. -/
def flip (r : Links α) : Links α := ⟨r.prev, r.next⟩

/-- From the head on there is `l`, and then the head again. -/
structure Ring (r : Links α) (head : α) (l : List α) : Prop where
  joined : (head :: (l ++ [head])).IsChain r.Joined
  nodup : (head :: l).Nodup

section Update

variable [DecidableEq α]

def setNext (r : Links α) (a b : α) : Links α := { r with next := update r.next a b }

def setPrev (r : Links α) (a b : α) : Links α := { r with prev := update r.prev a b }

/-- `x->next->prev = x->prev; x->prev->next = x->next;`. -/
def unlink (r : Links α) (x : α) : Links α :=
  let r := r.setPrev (r.next x) (r.prev x)
  r.setNext (r.prev x) (r.next x)

/-- `x->next = head->next; x->prev = head; head->next->prev = x; head->next = x;`. -/
def pushFront (r : Links α) (head x : α) : Links α :=
  let r := r.setNext x (r.next head)
  let r := r.setPrev x head
  let r := r.setPrev (r.next head) x
  r.setNext head x

/-- `for(b = start; b != head; b = b->next) if(p(b)) ...`, for at most `fuel`
turns. -/
def seek (next : α → α) (head : α) (p : α → Bool) : Nat → α → Option (Option α)
  | 0, _ => none
  | fuel + 1, b =>
    if b = head then some none
    else if p b then some (some b)
    else seek next head p fuel (next b)

end Update

/-! ## Joined cells -/

variable {r r' : Links α} {head : α} {l : List α}

theorem isChain_congr (h : l.IsChain r.Joined) (hn : ∀ a ∈ l.dropLast, r'.next a = r.next a)
    (hp : ∀ b ∈ l.tail, r'.prev b = r.prev b) : l.IsChain r'.Joined := by
  induction l with
  | nil => exact .nil
  | cons a l ih =>
    cases l with
    | nil => exact .singleton a
    | cons b l =>
      rw [List.isChain_cons_cons] at h ⊢
      refine ⟨⟨?_, ?_⟩, ih h.2 ?_ ?_⟩
      · rw [hn a (by simp), h.1.1]
      · rw [hp b (by simp), h.1.2]
      · exact fun a' ha => hn a' (List.mem_cons_of_mem a ha)
      · exact fun b' hb => hp b' (List.mem_cons_of_mem b hb)

/-! ## Changing a ring -/

namespace Ring

theorem flip (h : r.Ring head l) : r.flip.Ring head l.reverse where
  joined := by
    have hrev : (head :: (l ++ [head])).IsChain fun a b => r.flip.Joined b a :=
      h.joined.imp fun a b hj => ⟨hj.2, hj.1⟩
    simpa using List.isChain_reverse.mpr hrev
  nodup := by
    have hnodup := List.nodup_cons.mp h.nodup
    exact List.nodup_cons.mpr ⟨by simpa using hnodup.1, List.nodup_reverse.mpr hnodup.2⟩

variable [DecidableEq α] {x : α} {l₁ l₂ : List α}

theorem unlink (h : r.Ring head (l₁ ++ x :: l₂)) : (r.unlink x).Ring head (l₁ ++ l₂) := by
  -- the neighbours of `x`, either of which may be the head
  obtain ⟨as, p, hp⟩ : ∃ as p, head :: l₁ = as ++ [p] :=
    ⟨_, _, (List.dropLast_append_getLast (List.cons_ne_nil head l₁)).symm⟩
  obtain ⟨q, bs, hq⟩ : ∃ q bs, l₂ ++ [head] = q :: bs := by
    cases l₂ with
    | nil => exact ⟨_, _, rfl⟩
    | cons q bs => exact ⟨_, _, rfl⟩
  have hall : head :: (l₁ ++ x :: l₂ ++ [head]) = as ++ p :: x :: q :: bs := by
    rw [List.append_cons as p, ← hp, ← hq]
    simp
  have hjoined := h.joined
  rw [hall, List.isChain_append_cons_cons, List.isChain_cons_cons] at hjoined
  obtain ⟨has, ⟨hpx, hxp⟩, ⟨hxq, hqx⟩, hbs⟩ := hjoined
  have hnd : (head :: (l₁ ++ l₂)).Nodup := by
    refine h.nodup.sublist ?_
    simp
  have hx : x ∉ head :: (l₁ ++ l₂) := by
    have := h.nodup
    grind
  have hpmem : p ∈ head :: l₁ := by simp [hp]
  have hqmem : q ∈ l₂ ++ [head] := by simp [hq]
  have hne : q ≠ x := by
    rintro rfl
    simp at hqmem hx
    grind
  have hnext : (r.unlink x).next = update r.next p q := by
    simp [Links.unlink, setNext, setPrev, hxq, hxp, update_of_ne hne.symm]
  have hprev : (r.unlink x).prev = update r.prev q p := by
    simp [Links.unlink, setNext, setPrev, hxq, hxp]
  refine ⟨?_, hnd⟩
  have hall' : head :: (l₁ ++ l₂ ++ [head]) = as ++ p :: q :: bs := by
    rw [List.append_cons as p, ← hp, ← hq]
    simp
  rw [hall', List.isChain_append_cons_cons]
  refine ⟨isChain_congr has ?_ ?_, ⟨?_, ?_⟩, isChain_congr hbs ?_ ?_⟩
  · intro a ha
    rw [hnext, update_of_ne]
    rintro rfl
    have : (as ++ [a]).Nodup := hp ▸ hnd.sublist (by simp)
    simp at ha
    grind
  · intro b hb
    rw [← hp] at hb
    rw [hprev, update_of_ne]
    rintro rfl
    grind
  · rw [hnext, update_self]
  · rw [hprev, update_self]
  · intro a ha
    rw [← hq] at ha
    rw [hnext, update_of_ne]
    rintro rfl
    simp at ha
    grind
  · intro b hb
    rw [hprev, update_of_ne]
    rintro rfl
    have : (b :: bs).Nodup := hq ▸ (by grind)
    grind

theorem pushFront (h : r.Ring head l) (hx : x ∉ head :: l) :
    (r.pushFront head x).Ring head (x :: l) := by
  obtain ⟨q, bs, hq⟩ : ∃ q bs, l ++ [head] = q :: bs := by
    cases l with
    | nil => exact ⟨_, _, rfl⟩
    | cons q bs => exact ⟨_, _, rfl⟩
  have hjoined := h.joined
  rw [hq, List.isChain_cons_cons] at hjoined
  obtain ⟨⟨hnq, -⟩, hbs⟩ := hjoined
  have hqmem : q ∈ l ++ [head] := by simp [hq]
  have hne : x ≠ head := by grind
  have hxq : x ≠ q := by grind
  have hnext : (r.pushFront head x).next = update (update r.next x q) head x := by
    simp [Links.pushFront, setNext, setPrev, hnq]
  have hprev : (r.pushFront head x).prev = update (update r.prev x head) q x := by
    simp [Links.pushFront, setNext, setPrev, hnq, update_of_ne hne.symm]
  refine ⟨?_, ?_⟩
  · rw [List.cons_append, hq, List.isChain_cons_cons, List.isChain_cons_cons]
    refine ⟨⟨?_, ?_⟩, ⟨?_, ?_⟩, isChain_congr hbs ?_ ?_⟩
    · rw [hnext, update_self]
    · rw [hprev, update_of_ne hxq, update_self]
    · rw [hnext, update_of_ne hne, update_self]
    · rw [hprev, update_self]
    · intro a ha
      rw [← hq, List.dropLast_concat] at ha
      have hnd := h.nodup
      rw [hnext, update_of_ne (by grind), update_of_ne (by grind)]
    · intro b hb
      have hnd : (q :: bs).Nodup := hq ▸ (by have := h.nodup; grind)
      rw [List.tail_cons] at hb
      have hb' : b ∈ l ++ [head] := by simp [hq, hb]
      rw [hprev, update_of_ne (by grind), update_of_ne (by grind)]
  · have hnd := h.nodup
    grind

/-! ## Looking for a cell -/

theorem seek_from {p : α → Bool} {fuel : Nat} : ∀ {l : List α} {a : α},
    (a :: (l ++ [head])).IsChain r.Joined → head ∉ l → l.length < fuel →
      seek r.next head p fuel (r.next a) = some (l.find? p) := by
  induction fuel with
  | zero => exact fun _ _ h => absurd h (Nat.not_lt_zero _)
  | succ fuel ih =>
    intro l a hl hhead hlen
    cases l with
    | nil =>
      have ha : r.next a = head := (List.isChain_cons_cons.mp hl).1.1
      rw [ha, seek, if_pos rfl]
      rfl
    | cons b l =>
      rw [List.cons_append, List.isChain_cons_cons] at hl
      have hb : b ≠ head := fun hb => hhead (hb ▸ List.mem_cons_self ..)
      rw [hl.1.1, seek, if_neg hb, List.find?_cons]
      cases p b with
      | true => rfl
      | false =>
        exact ih hl.2 (fun hm => hhead (List.mem_cons_of_mem b hm)) (Nat.lt_of_succ_lt_succ hlen)

theorem seek_next (h : r.Ring head l) {p : α → Bool} {fuel : Nat} (hlen : l.length < fuel) :
    seek r.next head p fuel (r.next head) = some (l.find? p) :=
  seek_from h.joined (List.nodup_cons.mp h.nodup).1 hlen

theorem seek_prev (h : r.Ring head l) {p : α → Bool} {fuel : Nat} (hlen : l.length < fuel) :
    seek r.prev head p fuel (r.prev head) = some (l.reverse.find? p) :=
  h.flip.seek_next (by simpa using hlen)

end Ring

end Links

end Lib
