/-
# `Lib.Wp` — weakest preconditions for a state monad that can stop

A kernel routine is written as a `StateT σ (Except ε)` program: it either
returns a value and a new state, or it stops with an error of type `ε`.
`wp m Q E s` says that `m`, started in `s`, returns a result and a state in
`Q` or stops with an error in `E`; with `E := fun _ => False` this is total
correctness.

The rules are equivalences wherever they can be, so that `simp only` with
them runs a program symbolically.
-/
import Mathlib

namespace Lib

universe u

variable {σ ε : Type} {α β : Type}

/-- `m` from `s` returns into `Q` or stops into `E`. -/
def wp (m : StateT σ (Except ε) α) (Q : α → σ → Prop) (E : ε → Prop) (s : σ) : Prop :=
  match m s with
  | .ok (a, s') => Q a s'
  | .error e => E e

@[simp] theorem wp_pure (a : α) (Q : α → σ → Prop) (E : ε → Prop) (s : σ) :
    wp (pure a) Q E s ↔ Q a s := Iff.rfl

@[simp] theorem wp_throw (e : ε) (Q : α → σ → Prop) (E : ε → Prop) (s : σ) :
    wp (throw e) Q E s ↔ E e := Iff.rfl

@[simp] theorem wp_get (Q : σ → σ → Prop) (E : ε → Prop) (s : σ) :
    wp get Q E s ↔ Q s s := Iff.rfl

@[simp] theorem wp_set (t : σ) (Q : PUnit → σ → Prop) (E : ε → Prop) (s : σ) :
    wp (set t) Q E s ↔ Q ⟨⟩ t := Iff.rfl

@[simp] theorem wp_modify (f : σ → σ) (Q : PUnit → σ → Prop) (E : ε → Prop) (s : σ) :
    wp (modify f) Q E s ↔ Q ⟨⟩ (f s) := Iff.rfl

theorem bind_apply (m : StateT σ (Except ε) α) (f : α → StateT σ (Except ε) β) (s : σ) :
    (m >>= f) s = match m s with
      | .ok (a, s') => f a s'
      | .error e => .error e := by
  show (do let p ← m s; f p.1 p.2) = _
  cases m s with
  | ok p => rfl
  | error e => rfl

theorem get_bind_apply (f : σ → StateT σ (Except ε) β) (s : σ) : (get >>= f) s = f s s := rfl

@[simp] theorem wp_bind (m : StateT σ (Except ε) α) (f : α → StateT σ (Except ε) β)
    (Q : β → σ → Prop) (E : ε → Prop) (s : σ) :
    wp (m >>= f) Q E s ↔ wp m (fun a s' => wp (f a) Q E s') E s := by
  unfold wp
  rw [bind_apply]
  cases m s with
  | ok p => exact Iff.rfl
  | error e => exact Iff.rfl

theorem wp_ite (c : Prop) [Decidable c] (m n : StateT σ (Except ε) α)
    (Q : α → σ → Prop) (E : ε → Prop) (s : σ) :
    wp (if c then m else n) Q E s ↔ (c → wp m Q E s) ∧ (¬ c → wp n Q E s) := by
  by_cases h : c
  · simp [h]
  · simp [h]

theorem wp_mono {m : StateT σ (Except ε) α} {Q Q' : α → σ → Prop} {E E' : ε → Prop} {s : σ}
    (h : wp m Q E s) (hQ : ∀ a s', Q a s' → Q' a s') (hE : ∀ e, E e → E' e) :
    wp m Q' E' s := by
  unfold wp at h ⊢
  cases hm : m s with
  | ok p => rw [hm] at h; exact hQ p.1 p.2 h
  | error e => rw [hm] at h; exact hE e h

theorem wp_post {m : StateT σ (Except ε) α} {Q Q' : α → σ → Prop} {E : ε → Prop} {s : σ}
    (h : wp m Q E s) (hQ : ∀ a s', Q a s' → Q' a s') : wp m Q' E s :=
  wp_mono h hQ (fun _ he => he)

theorem wp_seq {m : StateT σ (Except ε) α} {f : α → StateT σ (Except ε) β}
    {R : α → σ → Prop} {Q : β → σ → Prop} {E : ε → Prop} {s : σ}
    (hm : wp m R E s) (hf : ∀ a s', R a s' → wp (f a) Q E s') : wp (m >>= f) Q E s :=
  (wp_bind m f Q E s).mpr (wp_post hm hf)

theorem bind_of_ok {m : StateT σ (Except ε) α} {f : α → StateT σ (Except ε) β} {s s' : σ} {a : α}
    (h : m s = .ok (a, s')) : (m >>= f) s = f a s' := by
  rw [bind_apply, h]

theorem bind_eq_ok {m : StateT σ (Except ε) α} {f : α → StateT σ (Except ε) β} {s : σ}
    {x : β × σ} : (m >>= f) s = .ok x ↔ ∃ a s', m s = .ok (a, s') ∧ f a s' = .ok x := by
  rw [bind_apply]
  cases m s with
  | ok p =>
    obtain ⟨a, s'⟩ := p
    simp
  | error e => simp

theorem wp_total {m : StateT σ (Except ε) α} {Q : α → σ → Prop} {s : σ}
    (h : wp m Q (fun _ => False) s) : ∃ a s', m s = .ok (a, s') ∧ Q a s' := by
  unfold wp at h
  cases hm : m s with
  | ok p => rw [hm] at h; exact ⟨p.1, p.2, rfl, h⟩
  | error e => rw [hm] at h; exact h.elim

theorem wp_of_ok {m : StateT σ (Except ε) α} {Q : α → σ → Prop} {E : ε → Prop} {s s' : σ}
    {a : α} (h : wp m Q E s) (hm : m s = .ok (a, s')) : Q a s' := by
  unfold wp at h
  rw [hm] at h
  exact h

theorem wp_congr {m n : StateT σ (Except ε) α} {Q : α → σ → Prop} {E : ε → Prop} {s t : σ}
    (h : m s = n t) : wp m Q E s ↔ wp n Q E t := by
  unfold wp
  rw [h]

theorem wp_iff_of_ok {m : StateT σ (Except ε) α} {Q : α → σ → Prop} {E : ε → Prop} {s s' : σ}
    {a : α} (h : m s = .ok (a, s')) : wp m Q E s ↔ Q a s' := by
  unfold wp
  rw [h]

theorem wp_iff_of_throw {m : StateT σ (Except ε) α} {Q : α → σ → Prop} {E : ε → Prop} {s : σ}
    {e : ε} (h : m s = .error e) : wp m Q E s ↔ E e := by
  unfold wp
  rw [h]

theorem not_wp {m : StateT σ (Except ε) α} {Q : α → σ → Prop} {E : ε → Prop} {s : σ}
    (h : wp m (fun a s' => ¬ Q a s') (fun e => ¬ E e) s) : ¬ wp m Q E s := by
  unfold wp at h ⊢
  cases hm : m s with
  | ok p =>
    rw [hm] at h
    exact h
  | error e =>
    rw [hm] at h
    exact h

/-- The run returns, and what it returns passes the test. -/
def passes (f : α → Bool) (r : Option (Except ε α)) : Bool :=
  match r with
  | some (.ok a) => f a
  | _ => false

theorem passes_iff {f : α → Bool} {r : Option (Except ε α)} :
    passes f r = true ↔ ∃ a, r = some (.ok a) ∧ f a = true := by
  rcases r with _ | _ | a
  · simp [passes]
  · simp [passes]
  · simp [passes]

theorem wp_of_error {m : StateT σ (Except ε) α} {Q : α → σ → Prop} {E : ε → Prop} {s : σ}
    {e : ε} (h : wp m Q E s) (hm : m s = .error e) : E e := by
  unfold wp at h
  rw [hm] at h
  exact h

end Lib
