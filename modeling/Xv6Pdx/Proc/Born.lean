/-
# `Proc.Born` — who set the `killed` flag of a new process

A slot comes back to the free list in two ways.  `wait` clears `killed` when it
reaps a zombie; the failure paths of `allocproc` and `fork` do not, although
`kill` finds embryos too.  A slot that was killed as an embryo and then given
up keeps the flag, and the next process to get the slot is born killed.

When no fork fails under a killed embryo, the flag of a process always goes
back to a `kill` with its pid.  "Goes back" needs the past, so runs are taken
with their history.
-/
import Xv6Pdx.Proc.Fields

namespace Xv6Pdx.Ptable

open Lib

/-- The steps of a run with the states they were taken in, the last one first. -/
abbrev History := List (Kernel × Action)

/-- The runs that start where `userinit` ends and take only steps with `ok`. -/
inductive Traced (maxPrio : Nat) (ok : Kernel → Action → Prop) : History → Kernel → Prop where
  | init {ticks page : Nat} {s : Kernel} : ticks < 2 ^ 32 →
      userinit maxPrio page (boot ticks) = .ok ((), s) → Traced maxPrio ok [] s
  | step {h : History} {s s' : Kernel} {a : Action} : Traced maxPrio ok h s → ok s a →
      step maxPrio s a = some (.ok s') → Traced maxPrio ok ((s, a) :: h) s'

/-- `kill(pid)` was called when process `p` already had this pid, and it has
had it ever since. -/
def KilledSince (h : History) (p : ProcPtr) (pid : Nat) : Prop :=
  ∃ new t old, h = new ++ (t, .kill pid) :: old ∧
    ∀ e ∈ (t, .kill pid) :: new, (e.1.proc p).state ≠ .unused ∧ (e.1.proc p).pid = pid

/-- No fork fails while the embryo it gives up is marked as killed. -/
def cleanFailure (s : Kernel) (a : Action) : Prop :=
  ∀ np, a.fails s np → (s.proc np).killed = false

/-! ## Steps other than `kill` -/

/-- What a step without `kill` makes of a process: it sets no flag, and gives
no new pid to a process that keeps its flag. -/
structure Tame (q q' : Proc) : Prop where
  killed : q'.killed = true → q.killed = true ∧ (q.state ≠ .unused → q'.pid = q.pid)
  unused : q'.state = .unused → q.state = .unused ∨ q'.killed = false

theorem Tame.refl (q : Proc) : Tame q q := ⟨fun h => ⟨h, fun _ => rfl⟩, Or.inl⟩

theorem Tame.congr {q q' q'' : Proc} (h : Tame q q') (hk : q''.killed = q'.killed)
    (hp : q''.pid = q'.pid) (hs : q''.state = .unused → q'.state = .unused) : Tame q q'' := by
  refine ⟨?_, ?_⟩
  · rw [hk, hp]
    exact h.killed
  · intro hu
    rw [hk]
    exact h.unused (hs hu)

@[simp] theorem settle_killed (maxPrio ticks : Nat) (q : Proc) :
    (settle maxPrio ticks q).killed = q.killed := by
  rw [settle]
  split <;> rfl

theorem tame_assigns (maxPrio : Nat) (f : ProcPtr → Proc) {fails : ProcPtr → Prop}
    (hf : ∀ p, fails p → (f p).killed = false) (short : Int → Prop) :
    Assigns maxPrio fails (fun _ => False) short fun _ p q => Tame (f p) q where
  time _ _ _ _ h := h
  wake _ _ _ h _ := h.congr rfl rfl (by simp)
  parent _ _ _ _ h := h.congr rfl rfl id
  chan _ _ _ _ h := h.congr rfl rfl id
  mark _ _ _ _ hk := hk.elim
  take t p q n h hst := by
    refine ⟨?_, by simp⟩
    intro hk
    refine ⟨(h.killed hk).1, ?_⟩
    intro hu
    -- a slot that became free on the way has lost its flag
    rcases h.unused hst with h1 | h1
    · exact absurd h1 hu
    · rw [h1] at hk
      cases hk
  abandon t p q h hfail _ := by
    refine ⟨h.killed, fun _ => Or.inr ?_⟩
    show q.killed = false
    by_contra hk
    have hq := (h.killed (by simpa using hk)).1
    rw [hf p hfail] at hq
    cases hq
  stack _ _ _ _ h := h.congr rfl rfl id
  copy _ _ _ _ _ _ _ _ h := h.congr rfl rfl id
  ready _ _ _ _ h _ _ _ := h.congr rfl rfl (by simp)
  leave _ _ _ _ h _ hne _ := h.congr (by simp) (by simp) (by simp [hne])
  reap _ _ _ _ _ := ⟨by simp, by simp⟩
  lower _ _ _ h _ := h.congr rfl rfl id
  dispatch _ _ _ h _ := h.congr rfl rfl (by simp)

section Runs

variable {maxPrio : Nat} {ok : Kernel → Action → Prop} {h : History} {s s' : Kernel}

theorem Traced.reachable (ht : Traced maxPrio ok h s) : Reachable maxPrio s := by
  induction ht with
  | init hticks hs => exact .init hticks hs
  | step _ _ hs ih => exact .step ih trivial hs

/-- The flag of a free slot is clear, and that of a process comes from a
`kill` of this process. -/
structure Accounted (h : History) (s : Kernel) : Prop where
  free : ∀ p, (s.proc p).state = .unused → (s.proc p).killed = false
  live : ∀ p, (s.proc p).state ≠ .unused → (s.proc p).killed = true → KilledSince h p (s.proc p).pid

theorem KilledSince.extend {p : ProcPtr} {pid : Nat} (hk : KilledSince h p pid) (a : Action)
    (hst : (s.proc p).state ≠ .unused) (hpid : (s.proc p).pid = pid) :
    KilledSince ((s, a) :: h) p pid := by
  obtain ⟨new, t, old, rfl, hall⟩ := hk
  refine ⟨(s, a) :: new, t, old, rfl, ?_⟩
  intro e he
  rcases List.mem_cons.mp he with rfl | he
  · exact hall _ List.mem_cons_self
  · rcases List.mem_cons.mp he with rfl | he
    · exact ⟨hst, hpid⟩
    · exact hall e (List.mem_cons_of_mem _ he)

theorem Accounted.tame (hacc : Accounted h s) (a : Action)
    (htame : ∀ p, Tame (s.proc p) (s'.proc p)) : Accounted ((s, a) :: h) s' := by
  refine ⟨?_, ?_⟩
  · intro p hu
    rcases (htame p).unused hu with h1 | h1
    · by_contra hk
      have hq := ((htame p).killed (by simpa using hk)).1
      rw [hacc.free p h1] at hq
      cases hq
    · exact h1
  · intro p hu hk
    obtain ⟨hks, hpid⟩ := (htame p).killed hk
    have hst : (s.proc p).state ≠ .unused := by
      intro hfree
      rw [hacc.free p hfree] at hks
      cases hks
    rw [hpid hst]
    exact (hacc.live p hst hks).extend a hst rfl

theorem Accounted.kill (hacc : Accounted h s) {A : View} (hshow : Shows s A)
    (hinv : Inv maxPrio A) {pid : Nat} {r : Int} (hs : kill maxPrio pid s = .ok (r, s')) :
    Accounted ((s, .kill pid) :: h) s' := by
  have hproc : s.proc = A.proc := by
    obtain ⟨V, hrep⟩ := hshow
    exact hrep.proc
  have hkill := wp_of_ok (kill_exact hshow (fun p => (hinv.procs p).placed) pid) hs
  rcases hkill with ⟨⟨V, hrep⟩, _⟩ | ⟨p, hp, hpid, V, hrep⟩
  · refine hacc.tame _ fun p => ?_
    rw [hrep.proc, hproc]
    exact Tame.refl _
  · have hst : (s.proc p).state ≠ .unused := by
      rw [hproc, (hinv.procs p).state]
      cases hl : A.loc p with
      | free => exact absurd hl hp
      | _ => simp [stateOf]
    have hself : (s'.proc p).state ≠ .unused ∧ (s'.proc p).pid = pid := by
      rw [hrep.proc]
      split
      · simp [View.killWake, View.move, hpid]
      · rw [hproc] at hst
        simpa [View.killMark, View.assign, hpid] using hst
    have hother : ∀ q, q ≠ p → s'.proc q = s.proc q := by
      intro q hq
      rw [hrep.proc, hproc]
      split
      · simp [View.killWake, View.move, hq]
      · simp [View.killMark, View.assign, hq]
    rw [← hproc] at hpid
    refine ⟨?_, ?_⟩
    · intro q hu
      have hq : q ≠ p := fun he => hself.1 (he ▸ hu)
      rw [hother q hq] at hu ⊢
      exact hacc.free q hu
    · intro q hu hk
      by_cases hq : q = p
      · subst hq
        rw [hself.2]
        refine ⟨[], s, h, rfl, ?_⟩
        intro e he
        rw [List.mem_singleton.mp he]
        exact ⟨hst, hpid⟩
      · rw [hother q hq] at hu hk ⊢
        exact (hacc.live q hu hk).extend _ hu rfl

theorem step_accounted (hacc : Accounted h s) (hreach : Reachable maxPrio s) {a : Action}
    (hok : cleanFailure s a) (hs : step maxPrio s a = some (.ok s')) :
    Accounted ((s, a) :: h) s' := by
  by_cases hkill : ∃ pid, a = .kill pid
  · obtain ⟨pid, rfl⟩ := hkill
    obtain ⟨_, _, _, _, A, _, hshow, hinv⟩ :=
      ReachableBy.shows (fun _ => True) hreach fun _ _ _ _ _ _ => trivial
    simp only [step, program, Option.map_some, Option.some.injEq] at hs
    cases hm : kill maxPrio pid s with
    | ok r =>
      rw [bind_apply, hm] at hs
      cases hs
      exact hacc.kill hshow hinv hm
    | error e =>
      rw [bind_apply, hm] at hs
      cases hs
  · have hP := (tame_assigns maxPrio s.proc hok (a.slice s)).mono (fun _ hf => hf)
      (fun pid hk => hkill ⟨pid, hk⟩) (fun _ hu => hu)
    have hend := step_keeps (E := fun _ => True) hP (fun _ _ => trivial) (Or.inl trivial)
      (fun p => Tame.refl (s.proc p)) hs
    exact hacc.tame a hend

theorem initial_accounted (ticks t page : Nat) (p q : ProcPtr) :
    ((View.initial ticks t page p).proc q).killed = false := by
  simp only [View.initial, Function.update_apply]
  split <;> rfl

theorem Traced.accounted (ht : Traced maxPrio cleanFailure h s) : Accounted h s := by
  induction ht with
  | @init ticks page s _ hs =>
    obtain ⟨t, p, V, hrep⟩ := wp_of_ok (userinit_spec maxPrio ticks page) hs
    have hclear : ∀ q, (s.proc q).killed = false := by
      intro q
      rw [hrep.proc]
      exact initial_accounted ticks t page p q
    exact ⟨fun q _ => hclear q, fun q _ hk => by rw [hclear q] at hk; cases hk⟩
  | step ht hok hs ih => exact step_accounted ih ht.reachable hok hs

/-- In a run in which no fork fails under a killed embryo, a child that is
marked as killed when `fork` returns was killed under its pid. -/
theorem forked_child_killed (ht : Traced maxPrio cleanFailure h s) :
    ∀ c p np s', s.cpu c = some p → s.task p = .copied np →
      step maxPrio s (.forkReady c) = some (.ok s') →
      (s'.proc np).killed = false ∨ KilledSince ((s, .forkReady c) :: h) np (s'.proc np).pid := by
  intro c p np s' _ _ hs
  have hclean : cleanFailure s (.forkReady c) := fun _ hf => False.elim hf
  have hacc := (Traced.step ht hclean hs).accounted
  by_cases hst : (s'.proc np).state = .unused
  · exact Or.inl (hacc.free np hst)
  · cases hk : (s'.proc np).killed with
    | false => exact Or.inl rfl
    | true => exact Or.inr (hacc.live np hst hk)

theorem exec_traced : ∀ {as : List Action} {h : History} {s s' : Kernel},
    (∀ a ∈ as, ∀ s, ok s a) → Traced maxPrio ok h s → exec maxPrio as s = some s' →
      ∃ h', Traced maxPrio ok h' s' ∧ h'.map Prod.snd = as.reverse ++ h.map Prod.snd := by
  intro as
  induction as with
  | nil =>
    intro h s s' _ ht he
    cases he
    exact ⟨h, ht, rfl⟩
  | cons a as ih =>
    intro h s s' hok ht he
    obtain ⟨hok₁, hok₂⟩ := List.forall_mem_cons.mp hok
    rw [exec] at he
    split at he
    · next s₁ hs =>
        obtain ⟨h', ht', hmap⟩ := ih hok₂ (.step ht (hok₁ s) hs) he
        exact ⟨h', ht', by rw [hmap]; simp⟩
    · cases he

theorem KilledSince.mem {p : ProcPtr} {pid : Nat} (hk : KilledSince h p pid) :
    .kill pid ∈ h.map Prod.snd := by
  obtain ⟨new, t, old, rfl, _⟩ := hk
  simp

end Runs

/-- A first fork that succeeds, up to its last critical section. -/
def forkOnce : List Action :=
  [.scheduler 0 0, .allocproc 0, .kstack 0 (some 1), .copyuvm 0 true]

/-- The first process is about to make its child runnable. -/
theorem first_child_not_killed : ∃ h s, Traced 6 cleanFailure h s ∧
    (∃ p np, s.cpu 0 = some p ∧ s.task p = .copied np) ∧
    ∀ c p np s', s.cpu c = some p → s.task p = .copied np →
      step 6 s (.forkReady c) = some (.ok s') →
      (s'.proc np).killed = false ∨ KilledSince ((s, .forkReady c) :: h) np (s'.proc np).pid := by
  obtain ⟨s₀, hs₀, hrun⟩ := userinit_checked 6 (fun s => (exec 6 forkOnce s).any
    fun s : Kernel => decide (s.cpu 0 = some 0 ∧ s.task 0 = .copied 1)) (by decide +kernel)
  obtain ⟨s, hs, hcopied⟩ := (Option.any_eq_true _ _).mp hrun
  have hclean : ∀ a ∈ forkOnce, ∀ s, cleanFailure s a := by
    simp [forkOnce, cleanFailure, Action.fails]
  obtain ⟨h, ht, _⟩ := exec_traced hclean (.init (by decide) hs₀) hs
  obtain ⟨hc, htask⟩ := of_decide_eq_true hcopied
  exact ⟨h, s, ht, ⟨0, 1, hc, htask⟩, forked_child_killed ht⟩

/-- While the first process is in a second `fork`, its child kills the embryo with pid 3, and
the fork fails.  61 more fail, so that the free list comes round to the slot. -/
def forkAgain : List Action :=
  [.scheduler 0 0, .allocproc 0, .kstack 0 (some 1), .copyuvm 0 true, .forkReady 0,
    .scheduler 1 0, .allocproc 0, .kill 3, .kstack 0 none] ++
    (List.replicate 61 [.allocproc 0, .kstack 0 none]).flatten ++
    [.allocproc 0, .kstack 0 (some 2), .copyuvm 0 true]

/-- The last step of the fork gives a child with pid 65 that is marked as
killed. -/
def bornKilled (s : Kernel) : Bool :=
  match s.cpu 0, step 6 s (.forkReady 0) with
  | some p, some (.ok s') =>
    match s.task p with
    | .copied np => (s'.proc np).killed && (s'.proc np).pid == 65
    | _ => false
  | _, _ => false

/-- A child is born killed although nobody ever called `kill` with its pid. -/
theorem fork_returns_killed_child : ∃ h s c p np s', Traced 6 (fun _ _ => True) h s ∧
    s.cpu c = some p ∧ s.task p = .copied np ∧ step 6 s (.forkReady c) = some (.ok s') ∧
    (s'.proc np).killed = true ∧
    ¬ KilledSince ((s, .forkReady c) :: h) np (s'.proc np).pid := by
  obtain ⟨s₀, hs₀, hrun⟩ := userinit_checked 6 (fun s => (exec 6 forkAgain s).any bornKilled)
    (by decide +kernel)
  obtain ⟨s, hs, hborn⟩ := (Option.any_eq_true _ _).mp hrun
  have hinit : Traced 6 (fun _ _ => True) [] s₀ := .init (by decide) hs₀
  obtain ⟨h, ht, hmap⟩ := exec_traced (fun _ _ _ => trivial) hinit hs
  rw [bornKilled] at hborn
  split at hborn
  · next p s' hc hstep =>
      split at hborn
      · next np htask =>
          rw [Bool.and_eq_true] at hborn
          refine ⟨h, s, 0, p, np, s', ht, hc, htask, hstep, hborn.1, ?_⟩
          intro hk
          have hmem : .kill 65 ∈ Action.forkReady 0 :: (forkAgain.reverse ++ []) := by
            have hmem := hk.mem
            rwa [List.map_cons, hmap, eq_of_beq hborn.2] at hmem
          revert hmem
          decide +kernel
      · cases hborn
  · cases hborn

end Xv6Pdx.Ptable
