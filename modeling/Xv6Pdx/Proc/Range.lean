/-
# `Proc.Range` — priorities and budgets stay in range

The priority of a process is assigned in six places, its budget in three, and the
budget is charged with a difference of two unsigned tick counts.  The range is a
property of one process, on whatever list it is: the runs here also take
`setpriority` steps, which put a running process on a ready list.

The one assumption is about time.  A slice of 2^31 ticks or more would be
charged as a negative number of ticks.
-/
import Xv6Pdx.Proc.Fields

namespace Xv6Pdx.Ptable

open Lib

/-- The priority indexes `ready[]`, and a process that exists has ticks left. -/
structure InRange (maxPrio : Nat) (q : Proc) : Prop where
  nonneg : 0 ≤ q.priority
  le : q.priority ≤ maxPrio
  budget : q.state ≠ .unused → 1 ≤ q.budget ∧ q.budget ≤ BUDGET

/-- A slice shorter than 2^31 ticks, `ticks` having wrapped any number of
times. -/
def shortSlice (used : Int) : Prop := used % 2 ^ 32 < 2 ^ 31

theorem charged_le {b used : Int} (h1 : 1 ≤ b) (hb : b ≤ BUDGET) (hu : shortSlice used) :
    (b - used).bmod (2 ^ 32) ≤ BUDGET := by
  simp only [shortSlice, BUDGET] at *
  simp only [Int.bmod]
  split <;> omega

section Assign

variable {maxPrio : Nat} {q : Proc}

/-- An assignment to other fields, with a state that had a budget already. -/
theorem InRange.congr (h : InRange maxPrio q) {q' : Proc} (hp : q'.priority = q.priority)
    (hb : q'.budget = q.budget) (hs : q'.state ≠ .unused → q.state ≠ .unused) :
    InRange maxPrio q' := by
  refine ⟨?_, ?_, ?_⟩
  · rw [hp]; exact h.nonneg
  · rw [hp]; exact h.le
  · intro hu
    rw [hb]
    exact h.budget (hs hu)

theorem InRange.renew {prio : Int} {q' : Proc} (hp : q'.priority = prio) (h0 : 0 ≤ prio)
    (h1 : prio ≤ maxPrio) (hb : q'.budget = BUDGET) : InRange maxPrio q' := by
  refine ⟨?_, ?_, fun _ => ?_⟩
  · rw [hp]; exact h0
  · rw [hp]; exact h1
  · rw [hb]; decide

theorem InRange.settle (h : InRange maxPrio q) {t : Nat} (hst : q.state ≠ .unused)
    (hs : shortSlice (t - q.cpuTicksIn)) : InRange maxPrio (settle maxPrio t q) := by
  obtain ⟨h0, h1⟩ := settle_range t h.nonneg h.le
  obtain ⟨hb1, hb⟩ := h.budget hst
  refine ⟨h0, h1, fun _ => ?_⟩
  rw [Ptable.settle]
  split
  · exact ⟨show 1 ≤ BUDGET by decide, Int.le_refl BUDGET⟩
  · next hleft => exact ⟨Int.not_lt.mp hleft, charged_le hb1 hb hs⟩

/-- Every assignment of `proc.c` keeps a process in range. -/
theorem inRange_assigns (maxPrio : Nat) (fails : ProcPtr → Prop) (kills : Nat → Prop) :
    Assigns maxPrio fails kills shortSlice fun _ _ q => InRange maxPrio q where
  time _ _ _ _ h := h
  wake _ _ _ h hst := h.congr rfl rfl fun _ => by simp [hst]
  parent _ _ _ _ h := h.congr rfl rfl id
  chan _ _ _ _ h := h.congr rfl rfl id
  mark _ _ _ h _ := h.congr rfl rfl id
  take _ _ _ _ _ _ := InRange.renew rfl (Int.le_refl 0) (Int.natCast_nonneg maxPrio) rfl
  abandon _ _ _ h _ _ := h.congr rfl rfl fun hu => absurd rfl hu
  stack _ _ _ _ h := h.congr rfl rfl id
  copy _ _ _ _ _ _ _ _ h := h.congr rfl rfl id
  ready _ _ _ _ h hst h0 h1 := ⟨h0, h1, fun _ => h.budget (by simp [hst])⟩
  leave _ _ q st h hst hne hs :=
    InRange.settle (q := { q with state := st }) (h.congr rfl rfl fun _ => by simp [hst]) hne hs
  reap _ _ _ h _ := h.congr rfl rfl fun hu => absurd rfl hu
  lower _ _ q h hpos :=
    ⟨by show 0 ≤ q.priority - 1; omega, by show q.priority - 1 ≤ maxPrio; have := h.le; omega,
      h.budget⟩
  dispatch _ _ _ h hst := h.congr rfl rfl fun _ => by simp [hst]

end Assign

/-! ## Runs with `setpriority` -/

/-- A step of `Proc.Kernel`, or the critical section of `setpriority`. -/
inductive Event where
  | act (a : Action)
  | setpriority (pid : Nat) (priority : Int)

section Runs

variable (maxPrio : Nat)

/-- One event: `none` when it cannot happen in `s`. -/
def happen (s : Kernel) : Event → Option (Except Stop Kernel)
  | .act a => step maxPrio s a
  | .setpriority pid priority => some (ended (setpriority maxPrio pid priority s))

/-- No process gives up its CPU in this event after 2^31 ticks or more. -/
def Event.short (s : Kernel) : Event → Prop
  | .act a => ∀ c p, a.left? = some c → s.cpu c = some p →
      shortSlice ((s.ticks : Int) - (s.proc p).cpuTicksIn)
  | .setpriority _ _ => True

/-- The states of the runs that start where `userinit` ends, with short
slices. -/
inductive TimedRun : Kernel → Prop where
  | init {ticks page : Nat} {s : Kernel} : ticks < 2 ^ 32 →
      userinit maxPrio page (boot ticks) = .ok ((), s) → TimedRun s
  | step {s s' : Kernel} {e : Event} : TimedRun s → e.short s →
      happen maxPrio s e = some (.ok s') → TimedRun s'

variable {maxPrio : Nat} {s : Kernel}

theorem requeue_inRange {src : StateList} {old : ProcState} {priority : Int} (p : ProcPtr)
    (msg : String) (h0 : 0 ≤ priority) (h1 : priority ≤ maxPrio) :
    Keeps (fun _ _ q => InRange maxPrio q) (fun e => e ≠ .badIndex)
      (requeue maxPrio src old priority p msg) := by
  intro s h
  simp only [requeue]
  rw [wp_bind, wp_get]
  split
  · rw [wp_bind, wp_setProc]
    exact h.update (InRange.renew rfl (h p).nonneg (h p).le rfl)
  · refine wp_seq (readyList_frame (Or.inr ⟨h0, h1⟩)) ?_
    rintro _ _ ⟨rfl, _⟩
    refine wp_seq (Keeps.moveProc (fun _ he => he) (fun _ _ _ _ => ?_) _ h) fun _ _ h' => h'
    exact InRange.renew rfl h0 h1 rfl

theorem setpriority_inRange (pid : Nat) (priority : Int) :
    Keeps (fun _ _ q => InRange maxPrio q) (fun e => e ≠ .badIndex)
      (setpriority maxPrio pid priority) := by
  intro s h
  have hE : Soft fun e => e ≠ .badIndex := fun _ he => he
  simp only [setpriority]
  split
  · exact h
  next hr =>
  have h0 : 0 ≤ priority := by omega
  have h1 : priority ≤ maxPrio := by omega
  refine wp_seq (findOn_frame hE .running _) ?_
  rintro (_ | p) _ ⟨rfl, _⟩
  swap
  · exact requeue_inRange p _ h0 h1 _ h
  refine wp_seq (findReady_frame hE _ _ _) ?_
  rintro (_ | ⟨i, p⟩) _ ⟨rfl, _⟩
  swap
  · exact requeue_inRange p _ h0 h1 _ h
  refine wp_seq (findOn_frame hE .sleep _) ?_
  rintro (_ | p) _ ⟨rfl, _⟩
  · exact h
  · rw [wp_bind, wp_get]
    split
    · rw [wp_bind, wp_setProc]
      exact h.update (InRange.renew rfl (h p).nonneg (h p).le rfl)
    · rw [wp_bind, wp_setProc]
      exact h.update (InRange.renew rfl h0 h1 rfl)

/-- One event keeps everybody in range and uses no index out of range. -/
theorem happen_inRange (h : ∀ p, InRange maxPrio (s.proc p)) {e : Event} (he : e.short s)
    {r : Except Stop Kernel} (hr : happen maxPrio s e = some r) :
    Ended (fun s' => ∀ p, InRange maxPrio (s'.proc p)) (fun err => err ≠ .badIndex) r := by
  cases e with
  | act a =>
    have hslice : ∀ used, a.slice s used → shortSlice used := by
      rintro used (rfl | ⟨c, p, hc, hp, rfl⟩)
      · rw [shortSlice]
        decide
      · exact he c p hc hp
    exact step_keeps ((inRange_assigns maxPrio _ _).mono (fun _ h => h) (fun _ h => h) hslice)
      (fun _ he => he) (Or.inr fun _ _ q hq => ⟨hq.nonneg, hq.le⟩) h hr
  | setpriority pid priority =>
    cases hr
    exact Ended.of_wp (setpriority_inRange pid priority s h)

theorem initial_inRange (ticks t page : Nat) (p q : ProcPtr) :
    InRange maxPrio ((View.initial ticks t page p).proc q) := by
  have h0 : (0 : Int) ≤ maxPrio := Int.natCast_nonneg maxPrio
  simp only [View.initial, Function.update_apply]
  split
  · exact InRange.renew rfl (Int.le_refl 0) h0 rfl
  · exact ⟨Int.le_refl 0, h0, fun hu => absurd rfl hu⟩

theorem TimedRun.inRange (h : TimedRun maxPrio s) : ∀ p, InRange maxPrio (s.proc p) := by
  induction h with
  | @init ticks page s _ hs =>
    obtain ⟨t, p, V, hrep⟩ := wp_of_ok (userinit_spec maxPrio ticks page) hs
    intro q
    rw [hrep.proc]
    exact initial_inRange ticks t page p q
  | step _ he hs ih => exact happen_inRange ih he hs

/-- Every process that exists has a priority in `0..MAXPRIO` and a budget in `1..BUDGET`,
and no event indexes `ready[]` out of its bounds. -/
theorem priority_budget_in_range (h : TimedRun maxPrio s) :
    (∀ p, (s.proc p).state ≠ .unused → (0 ≤ (s.proc p).priority ∧ (s.proc p).priority ≤ maxPrio) ∧
      1 ≤ (s.proc p).budget ∧ (s.proc p).budget ≤ BUDGET) ∧
    ∀ e err, e.short s → happen maxPrio s e = some (.error err) → err ≠ .badIndex := by
  refine ⟨?_, ?_⟩
  · intro p hp
    have hr := h.inRange p
    exact ⟨⟨hr.nonneg, hr.le⟩, hr.budget hp⟩
  · intro e err he hs
    exact happen_inRange h.inRange he hs

end Runs

/-- `setpriority` finds the first process running and puts it on `ready[3]`. -/
theorem running_requeued_in_range : ∃ s, TimedRun 6 s ∧ (s.proc 0).priority = 3 ∧
    (∀ p, (s.proc p).state ≠ .unused → (0 ≤ (s.proc p).priority ∧ (s.proc p).priority ≤ (6 : Nat)) ∧
      1 ≤ (s.proc p).budget ∧ (s.proc p).budget ≤ BUDGET) ∧
    ∀ e err, e.short s → happen 6 s e = some (.error err) → err ≠ .badIndex := by
  obtain ⟨s₀, hs₀, hrun⟩ := userinit_checked 6 (fun s => passes (fun s₁ =>
      passes (fun s₂ : Kernel => decide ((s₂.proc 0).priority = 3)) (happen 6 s₁ (.setpriority 1 3)))
    (happen 6 s (.act (.scheduler 0 0)))) (by decide +kernel)
  obtain ⟨s₁, hs₁, hrun⟩ := passes_iff.mp hrun
  obtain ⟨s₂, hs₂, hrun⟩ := passes_iff.mp hrun
  have hshort : (Event.act (.scheduler 0 0)).short s₀ := fun _ _ hc => by cases hc
  have h₁ : TimedRun 6 s₁ := .step (.init (by decide) hs₀) hshort hs₁
  have h₂ : TimedRun 6 s₂ := .step (e := .setpriority 1 3) h₁ trivial hs₂
  exact ⟨s₂, h₂, of_decide_eq_true hrun, priority_budget_in_range h₂⟩

end Xv6Pdx.Ptable
