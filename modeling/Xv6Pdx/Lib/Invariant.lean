/-
# `Lib.Invariant` — what a program keeps

`Invariant J E m` says that `m`, started in `J`, ends in `J` or stops with an
error in `E`.  The rules follow the constructs a program is made of, so that an
invariant of a routine is read off its text.  With `J s := f s = v` for every `v`
the rules say that a program does not change `f`.
-/
import Xv6Pdx.Lib.Wp

namespace Lib

variable {σ ε : Type} {α β : Type} {J : σ → Prop} {E : ε → Prop}

structure Invariant (J : σ → Prop) (E : ε → Prop) (m : StateT σ (Except ε) α) : Prop where
  keep : ∀ s, J s → wp m (fun _ s' => J s') E s

namespace Invariant

theorem pure (a : α) : Invariant J E (pure a : StateT σ (Except ε) α) := ⟨fun _ h => h⟩

theorem throw {e : ε} (h : E e) : Invariant J E (throw e : StateT σ (Except ε) α) := ⟨fun _ _ => h⟩

theorem bind {m : StateT σ (Except ε) α} {k : α → StateT σ (Except ε) β} (hm : Invariant J E m)
    (hk : ∀ a, Invariant J E (k a)) : Invariant J E (m >>= k) where
  keep s h := wp_seq (hm.keep s h) fun a s₁ h₁ => (hk a).keep s₁ h₁

theorem read {k : σ → StateT σ (Except ε) β} (hk : ∀ s, J s → Invariant J E (k s)) :
    Invariant J E (get >>= k) where
  keep s h := (wp_bind get k _ E s).mpr ((hk s h).keep s h)

theorem modify {g : σ → σ} (hg : ∀ s, J s → J (g s)) :
    Invariant J E (modify g : StateT σ (Except ε) PUnit) := ⟨hg⟩

theorem ite {c : Prop} [Decidable c] {m n : StateT σ (Except ε) α} (hm : Invariant J E m)
    (hn : Invariant J E n) : Invariant J E (if c then m else n) where
  keep s h := (wp_ite c m n _ _ s).mpr ⟨fun _ => hm.keep s h, fun _ => hn.keep s h⟩

theorem of_ok {m : StateT σ (Except ε) α} (hm : Invariant J E m) {s s' : σ} {a : α} (hs : J s)
    (h : m s = .ok (a, s')) : J s' := wp_of_ok (hm.keep s hs) h

end Invariant

end Lib
