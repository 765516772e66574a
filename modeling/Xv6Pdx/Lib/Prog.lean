/-
# `Lib.Prog` — programs of atomic actions, alone and in a pool

A program is a tree of actions on a shared state: an action may have to wait
(`none`), stop everything (`error`), or give an answer with which the program
goes on.  Run alone, its actions follow one another (`ends` is total correctness);
in a pool, the actions of the threads interleave in any order.

For a pool there is `Safe`: the state and the ghosts of the threads satisfy one
invariant, each action of a thread keeps it and changes no ghost but its own, and
what a program needs to know between its actions is in its ghost.
-/
import Mathlib

namespace Lib

open Function (update update_self update_of_ne update_eq_self update_idem)

/-- A program on states `σ` that may stop with `ε` and returns an `α`. -/
inductive Prog (σ ε α : Type) : Type 1 where
  | pure (a : α)
  | act {β : Type} (f : σ → Option (Except ε (β × σ))) (k : β → Prog σ ε α)

namespace Prog

variable {σ ε α β : Type}

protected def bind : Prog σ ε α → (α → Prog σ ε β) → Prog σ ε β
  | .pure a, g => g a
  | .act f k, g => .act f fun b => (k b).bind g

instance : Monad (Prog σ ε) where
  pure := .pure
  bind := .bind

/-- One action. -/
def atomic (f : σ → Option (Except ε (α × σ))) : Prog σ ε α := .act f .pure

def gets (f : σ → α) : Prog σ ε α := atomic fun s => some (.ok (f s, s))

def modify (f : σ → σ) : Prog σ ε Unit := atomic fun s => some (.ok ((), f s))

def fail (e : ε) : Prog σ ε α := atomic fun _ => some (.error e)

/-- A program on a part of the state. -/
def on {τ : Type} (get : τ → σ) (put : τ → σ → τ) : Prog σ ε α → Prog τ ε α
  | .pure a => .pure a
  | .act f k => .act (fun t => (f (get t)).map fun r => r.map fun (b, s) => (b, put t s))
      fun b => (k b).on get put

/-! ## Alone -/

/-- All actions, one after the other. -/
def run : Prog σ ε α → σ → Option (Except ε (α × σ))
  | .pure a, s => some (.ok (a, s))
  | .act f k, s =>
    match f s with
    | none => none
    | some (.error e) => some (.error e)
    | some (.ok (b, s')) => (k b).run s'

theorem run_bind {p : Prog σ ε α} {g : α → Prog σ ε β} {s : σ} :
    (p >>= g).run s = match p.run s with
      | none => none
      | some (.error e) => some (.error e)
      | some (.ok (a, s')) => (g a).run s' := by
  induction p generalizing s with
  | pure a => rfl
  | act f k ih =>
    show (Prog.act f fun b => (k b).bind g).run s = _
    simp only [run]
    split
    · rfl
    · rfl
    · exact ih _

theorem run_seq {p : Prog σ ε α} {g : α → Prog σ ε β} {s s' : σ} {a : α}
    (h : p.run s = some (.ok (a, s'))) : (p >>= g).run s = (g a).run s' := by
  rw [run_bind, h]

@[simp] theorem run_pure (a : α) (s : σ) :
    (Pure.pure a : Prog σ ε α).run s = some (.ok (a, s)) := rfl

@[simp] theorem run_gets (f : σ → α) (s : σ) :
    (gets f : Prog σ ε α).run s = some (.ok (f s, s)) := rfl

/-- The states the program is in, one after the other. -/
def Visits : Prog σ ε α → σ → σ → Prop
  | .pure _, s, t => t = s
  | .act f k, s, t => t = s ∨ ∃ b s', f s = some (.ok (b, s')) ∧ (k b).Visits s' t

theorem visits_of_run {p : Prog σ ε α} {s t : σ} {a : α} (hr : p.run s = some (.ok (a, t))) :
    p.Visits s t := by
  induction p generalizing s with
  | pure b =>
    cases hr
    rfl
  | act f k ih =>
    simp only [run] at hr
    split at hr
    · cases hr
    · cases hr
    · next b s' hf => exact Or.inr ⟨b, s', hf, ih b hr⟩

variable {Q R : α → σ → Prop} {s : σ}

/-- The program does not wait; it returns, such that `Q`, or stops, such that `E`. -/
def ends : Prog σ ε α → (α → σ → Prop) → (ε → Prop) → σ → Prop
  | .pure a, Q, _, s => Q a s
  | .act f k, Q, E, s =>
    match f s with
    | none => False
    | some (.error e) => E e
    | some (.ok (b, s')) => (k b).ends Q E s'

variable {E E' : ε → Prop}

theorem ends_iff_run {p : Prog σ ε α} :
    p.ends Q E s ↔ (∃ a s', p.run s = some (.ok (a, s')) ∧ Q a s') ∨
      ∃ e, p.run s = some (.error e) ∧ E e := by
  induction p generalizing s with
  | pure a =>
    constructor
    · exact fun h => .inl ⟨a, s, rfl, h⟩
    · rintro (⟨_, _, ⟨⟩, h⟩ | ⟨_, ⟨⟩, _⟩)
      exact h
  | act f k ih =>
    simp only [ends, run]
    split
    · simp
    · simp
    · exact ih _

@[simp] theorem ends_pure (a : α) : (pure a : Prog σ ε α).ends Q E s ↔ Q a s := Iff.rfl

@[simp] theorem ends_gets {f : σ → α} : (gets f : Prog σ ε α).ends Q E s ↔ Q (f s) s := Iff.rfl

@[simp] theorem ends_modify {Q : Unit → σ → Prop} {f : σ → σ} :
    (modify f : Prog σ ε Unit).ends Q E s ↔ Q () (f s) := Iff.rfl

@[simp] theorem ends_fail {e : ε} : (fail e : Prog σ ε α).ends Q E s ↔ E e := Iff.rfl

@[simp] theorem ends_bind {p : Prog σ ε β} {g : β → Prog σ ε α} :
    (p >>= g).ends Q E s ↔ p.ends (fun b => (g b).ends Q E) E s := by
  show (p.bind g).ends Q E s ↔ _
  induction p generalizing s with
  | pure a => exact Iff.rfl
  | act f k ih =>
    simp only [Prog.bind, ends]
    split
    · exact Iff.rfl
    · exact Iff.rfl
    · exact ih _

theorem run_of_ends {p : Prog σ ε α} (h : p.ends Q (fun _ => False) s) :
    ∃ a s', p.run s = some (.ok (a, s')) ∧ Q a s' :=
  (ends_iff_run.mp h).resolve_right fun ⟨_, _, hno⟩ => hno

theorem ends_mono {p : Prog σ ε α} (h : p.ends Q E s) (hQ : ∀ a s', Q a s' → R a s')
    (hE : ∀ e, E e → E' e) : p.ends R E' s := by
  rw [ends_iff_run] at h ⊢
  rcases h with ⟨a, s', hr, hq⟩ | ⟨e, hr, he⟩
  · exact .inl ⟨a, s', hr, hQ a s' hq⟩
  · exact .inr ⟨e, hr, hE e he⟩

theorem ends_seq {p : Prog σ ε β} {g : β → Prog σ ε α} {P : β → σ → Prop}
    (h : p.ends P E s) (hg : ∀ b s', P b s' → (g b).ends Q E s') : (p >>= g).ends Q E s :=
  ends_bind.mpr (ends_mono h hg fun _ he => he)

theorem ends_of_run {p : Prog σ ε α} {a : α} {s' : σ} (h : p.run s = some (.ok (a, s')))
    (hq : Q a s') : p.ends Q E s :=
  ends_iff_run.mpr (.inl ⟨a, s', h, hq⟩)

theorem ends_on {τ : Type} {get : τ → σ} {put : τ → σ → τ} (hget : ∀ t x, get (put t x) = x)
    (hput : ∀ t x y, put (put t x) y = put t y) (hself : ∀ t, put t (get t) = t)
    {p : Prog σ ε α} {R : α → τ → Prop} {t : τ} :
    (p.on get put).ends R E t ↔ p.ends (fun a x => R a (put t x)) E (get t) := by
  induction p generalizing t with
  | pure a =>
    show R a t ↔ R a (put t (get t))
    rw [hself]
  | act f k ih =>
    simp only [on, ends]
    rcases hf : f (get t) with _ | _ | ⟨b, s⟩
    · exact Iff.rfl
    · exact Iff.rfl
    · refine (ih b).trans ?_
      simp only [hput, hget]

theorem ends_forM {l : List β} {body : β → Prog σ ε PUnit} {J : σ → Prop}
    (hbody : ∀ b ∈ l, ∀ s, J s → (body b).ends (fun _ => J) E s) (hJ : J s) :
    (l.forM body).ends (fun _ => J) E s := by
  induction l generalizing s with
  | nil => exact hJ
  | cons b l ih =>
    refine ends_seq (hbody b (.head l) s hJ) ?_
    intro _ s' hJ'
    exact ih (fun b' hb' => hbody b' (.tail b hb')) hJ'

/-- Every action goes along `R`, and stops only with an error in `E`. -/
def acts (R : σ → σ → Prop) (E : ε → Prop) : Prog σ ε α → Prop
  | .pure _ => True
  | .act f k =>
    (∀ s, match f s with
      | none => True
      | some (.error e) => E e
      | some (.ok (_, s')) => R s s') ∧ ∀ b, (k b).acts R E

theorem acts_bind {R : σ → σ → Prop} {p : Prog σ ε β} {g : β → Prog σ ε α} (hp : p.acts R E)
    (hg : ∀ b, (g b).acts R E) : (p >>= g).acts R E := by
  show (p.bind g).acts R E
  induction p with
  | pure b => exact hg b
  | act f k ih => exact ⟨hp.1, fun b => ih b (hp.2 b)⟩

theorem acts_forM {R : σ → σ → Prop} {l : List β} {body : β → Prog σ ε PUnit}
    (h : ∀ b, (body b).acts R E) : (l.forM body).acts R E := by
  induction l with
  | nil => trivial
  | cons b l ih => exact acts_bind (h b) fun _ => ih

end Prog

/-! ## In a pool -/

open Prog

variable {σ ε ι H α β : Type} [DecidableEq ι]

/-- What the threads of a pool rely on: an invariant of the state and the ghosts, the steps
that are considered, and the errors that are allowed. -/
structure Protocol (σ ε ι H : Type) where
  inv : σ → (ι → Option H) → Prop
  ok : σ → Prop
  error : ε → Prop

namespace Prog

/-- From ghost `h` on, the actions of thread `i` keep to the protocol, and a
result is returned with a ghost such that `Q`. -/
def Safe (P : Protocol σ ε ι H) (i : ι) : Prog σ ε α → (α → H → Prop) → H → Prop
  | .pure a, Q, h => Q a h
  | .act f k, Q, h => ∀ s g, g i = some h → P.inv s g →
      (∀ e, f s = some (.error e) → P.error e) ∧
      ∀ b s', f s = some (.ok (b, s')) → P.ok s' →
        ∃ h', P.inv s' (update g i (some h')) ∧ (k b).Safe P i Q h'

variable {P : Protocol σ ε ι H} {i : ι} {Q R : α → H → Prop} {h : H}

@[simp] theorem safe_pure (a : α) : (pure a : Prog σ ε α).Safe P i Q h ↔ Q a h := Iff.rfl

@[simp] theorem safe_bind {p : Prog σ ε β} {g : β → Prog σ ε α} :
    (p >>= g).Safe P i Q h ↔ p.Safe P i (fun b => (g b).Safe P i Q) h := by
  show (p.bind g).Safe P i Q h ↔ _
  induction p generalizing h with
  | pure a => exact Iff.rfl
  | act f k ih => simp only [Prog.bind, Safe, ih]

theorem safe_mono {p : Prog σ ε α} (hp : p.Safe P i Q h) (hle : ∀ a h', Q a h' → R a h') :
    p.Safe P i R h := by
  induction p generalizing h with
  | pure a => exact hle a h hp
  | act f k ih =>
    intro s g hg hinv
    refine ⟨(hp s g hg hinv).1, ?_⟩
    intro b s' hf hok
    obtain ⟨h', hinv', hk⟩ := (hp s g hg hinv).2 b s' hf hok
    exact ⟨h', hinv', ih b hk⟩

theorem safe_seq {p : Prog σ ε β} {g : β → Prog σ ε α} {S : β → H → Prop}
    (hp : p.Safe P i S h) (hg : ∀ b h', S b h' → (g b).Safe P i Q h') :
    (p >>= g).Safe P i Q h := safe_bind.mpr (safe_mono hp hg)

theorem safe_atomic {f : σ → Option (Except ε (α × σ))}
    (hf : ∀ s g, g i = some h → P.inv s g → (∀ e, f s = some (.error e) → P.error e) ∧
      ∀ a s', f s = some (.ok (a, s')) → P.ok s' →
        ∃ h', P.inv s' (update g i (some h')) ∧ Q a h') : (atomic f).Safe P i Q h := hf

/-- Reading tells what the invariant says about the thread's own ghost. -/
theorem safe_gets {f : σ → α} (hf : ∀ s g, g i = some h → P.inv s g → Q (f s) h) :
    (gets f : Prog σ ε α).Safe P i Q h := by
  refine safe_atomic ?_
  intro s g hg hinv
  refine ⟨fun e he => (by cases he), ?_⟩
  intro a s' he _
  cases he
  refine ⟨h, ?_, hf s g hg hinv⟩
  rwa [← hg, update_eq_self]

theorem safe_fail {e : ε} (he : P.error e) : (fail e : Prog σ ε α).Safe P i Q h := by
  refine safe_atomic ?_
  intro s g _ _
  refine ⟨?_, fun _ _ hf => (by cases hf)⟩
  rintro _ ⟨⟩
  exact he

/-- Alone, a safe program keeps the invariant in all its states. -/
theorem Safe.visits (hok : ∀ s, P.ok s) {p : Prog σ ε α} {s t : σ} {g : ι → Option H}
    (hp : p.Safe P i Q h) (hg : g i = some h) (hinv : P.inv s g) (hv : p.Visits s t) :
    ∃ h', P.inv t (update g i (some h')) := by
  induction p generalizing s g h with
  | pure a =>
    cases hv
    exact ⟨h, by rwa [← hg, update_eq_self]⟩
  | act f k ih =>
    rcases hv with rfl | ⟨b, s', hf, hv⟩
    · exact ⟨h, by rwa [← hg, update_eq_self]⟩
    · obtain ⟨h', hinv', hk⟩ := (hp s g hg hinv).2 b s' hf (hok s')
      obtain ⟨h'', hinv''⟩ := ih b hk (update_self ..) hinv' hv
      exact ⟨h'', by rwa [update_idem] at hinv''⟩

/-- Alone, a safe program that returns does so with a ghost such that `Q`. -/
theorem Safe.run (hok : ∀ s, P.ok s) {p : Prog σ ε α} {s t : σ} {g : ι → Option H} {a : α}
    (hp : p.Safe P i Q h) (hg : g i = some h) (hinv : P.inv s g) (hr : p.run s = some (.ok (a, t))) :
    ∃ h', P.inv t (update g i (some h')) ∧ Q a h' := by
  induction p generalizing s g h with
  | pure b =>
    cases hr
    exact ⟨h, by rwa [← hg, update_eq_self], hp⟩
  | act f k ih =>
    simp only [Prog.run] at hr
    split at hr
    · cases hr
    · cases hr
    · next b s' hf =>
        obtain ⟨h', hinv', hk⟩ := (hp s g hg hinv).2 b s' hf (hok s')
        obtain ⟨h'', hinv'', hq⟩ := ih b hk (update_self ..) hinv' hr
        exact ⟨h'', by rwa [update_idem] at hinv'', hq⟩

theorem safe_forM {l : List β} {body : β → Prog σ ε PUnit} {J : H → Prop}
    (hbody : ∀ b ∈ l, ∀ h, J h → (body b).Safe P i (fun _ => J) h) (hJ : J h) :
    (l.forM body).Safe P i (fun _ => J) h := by
  induction l generalizing h with
  | nil => exact hJ
  | cons b l ih =>
    refine safe_seq (hbody b (.head l) h hJ) ?_
    intro _ h' hJ'
    exact ih (fun b' hb' => hbody b' (.tail b hb')) hJ'

end Prog

/-- A state with what each thread has still to do. -/
structure Pool (σ ε ι : Type) where
  state : σ
  prog : ι → Prog σ ε Unit

namespace Pool

/-- Thread `i` takes its next action. -/
def step (c : Pool σ ε ι) (i : ι) : Option (Except ε (Pool σ ε ι)) :=
  match c.prog i with
  | .pure _ => none
  | .act f k =>
    match f c.state with
    | none => none
    | some (.error e) => some (.error e)
    | some (.ok (b, s')) => some (.ok ⟨s', update c.prog i (k b)⟩)

def idle (c : Pool σ ε ι) (i : ι) : Prop := c.prog i = .pure ()

/-- The pools that can be reached: from an initial state with every thread
idle, threads begin programs and take actions, with `ok` states after them. -/
inductive Reachable (init : σ → Prop) (begins : σ → ι → Prog σ ε Unit → Prop) (ok : σ → Prop) :
    Pool σ ε ι → Prop where
  | init {s : σ} : init s → Reachable init begins ok ⟨s, fun _ => .pure ()⟩
  | begin {c : Pool σ ε ι} {i : ι} {p : Prog σ ε Unit} : Reachable init begins ok c → c.idle i →
      begins c.state i p → Reachable init begins ok ⟨c.state, update c.prog i p⟩
  | step {c c' : Pool σ ε ι} {i : ι} : Reachable init begins ok c → c.step i = some (.ok c') →
      ok c'.state → Reachable init begins ok c'

/-- The invariant with the ghosts of the threads at work, each safe in what it
has still to do. -/
def Good (P : Protocol σ ε ι H) (done : H → Prop) (c : Pool σ ε ι) : Prop :=
  ∃ g, P.inv c.state g ∧ (∀ i, g i = none → c.idle i) ∧
    ∀ i h, g i = some h → (c.prog i).Safe P i (fun _ => done) h

section

variable {P : Protocol σ ε ι H} {done : H → Prop} {init : σ → Prop}
  {begins : σ → ι → Prog σ ε Unit → Prop} {c : Pool σ ε ι} {g : ι → Option H} {i : ι}

/-- The ghosts fit what the threads have still to do. -/
def Tracks (P : Protocol σ ε ι H) (done : H → Prop) (c : Pool σ ε ι) (g : ι → Option H) : Prop :=
  (∀ i, g i = none → c.idle i) ∧ ∀ i h, g i = some h → (c.prog i).Safe P i (fun _ => done) h

theorem Tracks.act {β : Type} {f : σ → Option (Except ε (β × σ))} {k : β → Prog σ ε Unit}
    (ht : Tracks P done c g) (hp : c.prog i = .act f k) :
    ∃ h, g i = some h ∧ (Prog.act f k).Safe P i (fun _ => done) h := by
  cases hg : g i with
  | none =>
    have hpure := ht.1 i hg
    rw [Pool.idle, hp] at hpure
    cases hpure
  | some h => exact ⟨h, rfl, hp ▸ ht.2 i h hg⟩

theorem Tracks.set {p : Prog σ ε Unit} {h : H} (ht : Tracks P done c g)
    (hp : p.Safe P i (fun _ => done) h) (s : σ) :
    Tracks P done ⟨s, update c.prog i p⟩ (update g i (some h)) := by
  refine ⟨fun j hj => ?_, fun j h' hj => ?_⟩ <;> rcases eq_or_ne j i with rfl | hne
  · rw [update_self] at hj
    cases hj
  · rw [update_of_ne hne] at hj
    simpa only [Pool.idle, update_of_ne hne] using ht.1 j hj
  · rw [update_self] at hj
    cases hj
    simpa only [update_self] using hp
  · rw [update_of_ne hne] at hj
    simpa only [update_of_ne hne] using ht.2 j h' hj

theorem Good.step {c' : Pool σ ε ι} (hc : Good P done c) (hs : c.step i = some (.ok c'))
    (hok : P.ok c'.state) : Good P done c' := by
  obtain ⟨g, hinv, ht⟩ := hc
  simp only [Pool.step] at hs
  split at hs
  · cases hs
  · next β f k hp =>
      split at hs
      · cases hs
      · cases hs
      · next b s' hf =>
          cases hs
          obtain ⟨h, hg, hact⟩ := Tracks.act ht hp
          obtain ⟨h', hinv', hk⟩ := (hact c.state g hg hinv).2 b s' hf hok
          exact ⟨_, hinv', Tracks.set ht hk s'⟩

/-- A good pool stops only with the errors that are allowed. -/
theorem Good.errors {e : ε} (hc : Good P done c) (hs : c.step i = some (.error e)) : P.error e := by
  obtain ⟨g, hinv, ht⟩ := hc
  simp only [Pool.step] at hs
  split at hs
  · cases hs
  · next β f k hp =>
      split at hs
      · cases hs
      · next hf =>
          cases hs
          obtain ⟨h, hg, hact⟩ := Tracks.act ht hp
          exact (hact c.state g hg hinv).1 _ hf
      · cases hs

section Retire

variable (hend : ∀ s g i h, P.inv s g → g i = some h → done h → P.inv s (update g i none))
include hend

theorem Tracks.retire (ht : Tracks P done c g) (hinv : P.inv c.state g) (hi : c.idle i) :
    P.inv c.state (update g i none) ∧ Tracks P done c (update g i none) := by
  refine ⟨?_, fun j hj => ?_, fun j h' hj => ?_⟩
  · cases hg : g i with
    | none => rwa [← hg, update_eq_self]
    | some h =>
      have hdone := ht.2 i h hg
      rw [show c.prog i = .pure () from hi] at hdone
      exact hend _ g i h hinv hg hdone
  · rcases eq_or_ne j i with rfl | hne
    · exact hi
    · rw [update_of_ne hne] at hj
      exact ht.1 j hj
  · rcases eq_or_ne j i with rfl | hne
    · rw [update_self] at hj
      cases hj
    · rw [update_of_ne hne] at hj
      exact ht.2 j h' hj

theorem Good.retire (hc : Good P done c) (hi : c.idle i) :
    ∃ g, P.inv c.state g ∧ g i = none ∧ (∀ j, g j = none → c.idle j) ∧
      ∀ j h, g j = some h → (c.prog j).Safe P j (fun _ => done) h := by
  obtain ⟨g, hinv, ht⟩ := hc
  obtain ⟨hinv', ht'⟩ := Tracks.retire hend ht hinv hi
  exact ⟨_, hinv', update_self .., ht'⟩

/-- With every thread idle the invariant holds of the state alone. -/
theorem Good.quiet [Fintype ι] (hc : Good P done c) (hi : ∀ i, c.idle i) :
    P.inv c.state fun _ => none := by
  have hall : ∀ T : Finset ι, ∃ g, P.inv c.state g ∧ Tracks P done c g ∧ ∀ i ∈ T, g i = none := by
    intro T
    induction T using Finset.induction_on with
    | empty =>
      obtain ⟨g, hinv, ht⟩ := hc
      exact ⟨g, hinv, ht, fun i hm => absurd hm (Finset.notMem_empty i)⟩
    | insert i T _ ih =>
      obtain ⟨g, hinv, ht, hT⟩ := ih
      obtain ⟨hinv', ht'⟩ := ht.retire hend hinv (hi i)
      refine ⟨_, hinv', ht', fun j hj => ?_⟩
      rcases eq_or_ne j i with rfl | hne
      · exact update_self ..
      · rw [update_of_ne hne]
        exact hT j ((Finset.mem_insert.mp hj).resolve_left hne)
  obtain ⟨g, hinv, -, hnone⟩ := hall Finset.univ
  rwa [show g = fun _ => none from funext fun i => hnone i (Finset.mem_univ i)] at hinv

end Retire

/-- Every reachable pool is good, if the programs that begin are safe. -/
theorem Reachable.good (h₀ : ∀ s, init s → P.inv s fun _ => none)
    (hbegin : ∀ s g i p, P.inv s g → g i = none → begins s i p →
      ∃ h, P.inv s (update g i (some h)) ∧ p.Safe P i (fun _ => done) h)
    (hend : ∀ s g i h, P.inv s g → g i = some h → done h → P.inv s (update g i none))
    (hc : Reachable init begins P.ok c) : Good P done c := by
  induction hc with
  | init hs => exact ⟨_, h₀ _ hs, fun _ _ => rfl, fun _ _ h => (by cases h)⟩
  | step _ hs hok ih => exact ih.step hs hok
  | @begin c i p _ hi hp ih =>
    obtain ⟨g, hinv, hgi, ht⟩ := ih.retire hend hi
    obtain ⟨h, hinv', hp'⟩ := hbegin _ g i p hinv hgi hp
    exact ⟨_, hinv', Tracks.set ht hp' c.state⟩

/-- A thread begins a program and takes all its actions. -/
theorem Reachable.alone {ok : σ → Prop} (hok : ∀ s, ok s) {p : Prog σ ε Unit} {t : σ}
    (hc : Reachable init begins ok c) (hi : c.idle i) (hp : begins c.state i p)
    (hr : p.run c.state = some (.ok ((), t))) : Reachable init begins ok ⟨t, c.prog⟩ := by
  have hrest : ∀ s, Reachable init begins ok ⟨s, update c.prog i p⟩ →
      p.run s = some (.ok ((), t)) → Reachable init begins ok ⟨t, c.prog⟩ := by
    clear hr hp
    induction p with
    | pure a =>
      rintro s hs ⟨⟩
      rwa [show Prog.pure () = c.prog i from hi.symm, update_eq_self] at hs
    | act f k ih =>
      intro s hs hr
      simp only [Prog.run] at hr
      split at hr
      · cases hr
      · cases hr
      · next b s' hf =>
          refine ih b s' (hs.step (i := i) ?_ (hok s')) hr
          simp only [Pool.step, update_self, hf, update_idem]
  exact hrest c.state (.begin hc hi hp) hr

end

end Pool

end Lib
