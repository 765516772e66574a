/-
# `Proc.Priority` — the ready lists and the priorities

Every routine that puts a process on a ready list uses the index that is its
priority, except `kill`, which puts a sleeper on `ready[0]` and leaves its
priority alone.  So the lists agree with the priorities along a run exactly as
long as `kill` finds only sleepers of priority 0 (`reachable_priority`), and
one `kill` of a demoted sleeper is enough to make the scheduler dispatch it
ahead of a process of higher priority (`kill_overtakes`).
-/
import Xv6Pdx.Proc.Refine

namespace Xv6Pdx.Ptable

open Lib

/-- `kill` finds only sleepers that belong on `ready[0]`. -/
def killsAtTop (s : Kernel) (a : Action) : Prop :=
  ∀ pid, a = .kill pid → ∀ p, (s.proc p).state = .sleeping → (s.proc p).pid = pid →
    (s.proc p).priority = 0

/-- On the highest list there are only processes of the highest priority; for
the other lists `ProcOk.above` says it. -/
def AtTop (A : View) : Prop := ∀ p, A.loc p = .ready 0 → (A.proc p).priority = 0

section

variable {maxPrio : Nat} {A A' : View}

/-- One process is assigned and placed where it agrees with its list. -/
theorem AtTop.update (h : AtTop A) {p : ProcPtr} {q : Proc} {l : StateList}
    (hproc : A'.proc = Function.update A.proc p q) (hloc : A'.loc = Function.update A.loc p l)
    (hq : l = .ready 0 → q.priority = 0) : AtTop A' := by
  intro r hr
  rw [hloc] at hr
  rw [hproc]
  by_cases hrp : r = p
  · subst hrp
    rw [Function.update_self] at hr ⊢
    exact hq hr
  · rw [Function.update_of_ne hrp] at hr ⊢
    exact h r hr

/-- A process that is assigned where it is keeps its priority. -/
theorem AtTop.assign (h : AtTop A) {p : ProcPtr} {q : Proc}
    (hproc : A'.proc = Function.update A.proc p q) (hloc : A'.loc = A.loc)
    (hq : q.priority = (A.proc p).priority) : AtTop A' :=
  h.update hproc (by rw [hloc, Function.update_eq_self]) fun hl => hq.trans (h p hl)

/-- On the list of its own priority a process agrees with it. -/
theorem ready_toNat {n : Int} (h0 : 0 ≤ n) (h : StateList.ready n.toNat = .ready 0) : n = 0 := by
  have hn : n.toNat = 0 := by injection h
  omega

theorem AtTop.wake (h : AtTop A) (hok : ∀ p, ProcOk maxPrio (A.proc p) (A.loc p))
    (chan : Option Chan) : AtTop (A.wake chan) := by
  intro p hp
  rw [wake_loc] at hp
  rw [wake_proc]
  split at hp
  · next hc =>
      rw [if_pos hc]
      exact ready_toNat (hok p).nonneg hp
  · next hc =>
      rw [if_neg hc]
      exact h p hp

theorem AtTop.promote (h : AtTop A) (hok : ∀ p, ProcOk maxPrio (A.proc p) (A.loc p)) :
    AtTop (A.promote maxPrio) := by
  intro p hp
  simp only [View.promote] at hp ⊢
  cases hl : A.loc p with
  | ready i =>
    rw [hl] at hp
    simp only at hp ⊢
    by_cases hi : 1 ≤ i ∧ i ≤ maxPrio
    · rw [if_pos hi] at hp ⊢
      have hi1 : i = 0 + 1 := by
        have : i - 1 = 0 := by injection hp
        omega
      subst hi1
      have hprio := (hok p).above 0 hl
      show (A.proc p).priority - 1 = 0
      omega
    · rw [if_neg hi] at hp ⊢
      exact h p (hl.trans hp)
  | _ => rw [hl] at hp; cases hp

/-- Every transition keeps the highest list clean, if `kill` does. -/
theorem Trans.atTop (hinv : Inv maxPrio A) (h : AtTop A)
    (ht : Trans maxPrio (fun q => q.priority = 0) A A') : AtTop A' := by
  have hok := hinv.procs
  cases ht with
  | tick => exact h
  | wake chan => exact h.wake hok chan
  | killMark p _ => exact h.assign rfl rfl rfl
  | killWake p _ hhit => exact h.update rfl rfl fun _ => hhit
  | yield c p hc =>
    refine h.update (A.move_sched_proc _ _ _ _) (A.move_sched_loc _ _ _ _) ?_
    rw [if_pos rfl]
    exact ready_toNat (settle_range A.ticks (q := { A.proc p with state := .runnable })
      (hok p).nonneg (hok p).le).1
  | sleep c p a _ _ =>
    refine h.update (A.move_sched_proc _ _ _ _) (A.move_sched_loc _ _ _ _) ?_
    rw [if_neg (by simp)]
    intro hl
    cases hl
  | waitSleep c p low _ _ _ =>
    refine h.update (A.move_sched_proc _ _ _ _) (A.move_sched_loc _ _ _ _) ?_
    rw [if_neg (by simp)]
    intro hl
    cases hl
  | reap c p q low _ _ _ => exact h.update rfl rfl fun hl => (by cases hl)
  | reparent me ls _ _ =>
    intro p hp
    rw [reparent_loc] at hp
    rw [reparent_priority]
    exact h p hp
  | adopt q _ =>
    have hq : AtTop (A.assign q fun r => { r with parent := A.initproc }) :=
      h.assign rfl rfl rfl
    exact hq.wake (procs_assign hok rfl rfl rfl rfl) _
  | exit c p _ _ _ _ _ =>
    refine h.update (A.move_sched_proc _ _ _ _) (A.move_sched_loc _ _ _ _) ?_
    rw [if_neg (by simp)]
    intro hl
    cases hl
  | alloc c p np _ _ _ => exact h.update rfl rfl fun hl => (by cases hl)
  | abandon c p np _ _ => exact h.update rfl rfl fun hl => (by cases hl)
  | stack c p np page _ _ => exact h.assign rfl rfl rfl
  | copy c p np _ _ => exact h.assign rfl rfl rfl
  | forkReady c p np _ _ => exact h.update rfl rfl (ready_toNat (hok p).nonneg)
  | promote => exact h.promote hok
  | dispatch c p j _ _ _ => exact h.update rfl rfl fun hl => (by cases hl)
  | clearChan c p _ => exact h.assign rfl rfl rfl

theorem Run.atTop (hinv : Inv maxPrio A) (h : AtTop A)
    (hr : Run maxPrio (fun q => q.priority = 0) A A') : AtTop A' := by
  induction hr with
  | refl => exact h
  | tail hr ht ih => exact ht.atTop (Run.inv hinv hr) ih

/-- The priority of a ready process is the index of its list. -/
theorem priority_eq (hinv : Inv maxPrio A) (h : AtTop A) {p : ProcPtr} {i : Nat}
    (hp : A.loc p = .ready i) : (A.proc p).priority = i := by
  cases i with
  | zero => exact h p hp
  | succ i => exact (hinv.procs p).above i hp

theorem initial_atTop (ticks t page : Nat) (p : ProcPtr) : AtTop (View.initial ticks t page p) := by
  intro q hq
  rw [initial_loc] at hq
  split at hq
  · next hqp =>
      subst hqp
      simp [View.initial]
  · cases hq

theorem stateOf_eq_runnable {l : StateList} (h : stateOf l = .runnable) : ∃ i, l = .ready i := by
  cases l with
  | ready i => exact ⟨i, rfl⟩
  | _ => cases h

/-- The process the scheduler picks has the smallest priority number. -/
theorem pickReady_least {s s' : Kernel} {j : Nat} {p : ProcPtr} (h : Shows s A)
    (hinv : Inv maxPrio A) (htop : AtTop A) (hp : pickReady maxPrio s = .ok (some (j, p), s')) :
    ∀ q, (s.proc q).state = .runnable → (s.proc p).priority ≤ (s.proc q).priority := by
  have hpick := (wp_of_ok (pickReady_spec h) hp).2
  obtain ⟨V, hrep⟩ := h
  intro q hq
  rw [hrep.proc] at hq ⊢
  rw [(hinv.procs q).state] at hq
  obtain ⟨k, hk⟩ := stateOf_eq_runnable hq
  have hjk := hpick.2 q k hk
  rw [priority_eq hinv htop hpick.1, priority_eq hinv htop hk]
  exact Int.ofNat_le.mpr hjk

/-- As long as `kill` finds only sleepers of priority 0, the ready lists agree with the
priorities, and the scheduler dispatches a process of the smallest priority number. -/
theorem reachable_priority {s : Kernel} (h : ReachableBy maxPrio killsAtTop s) :
    (∀ i xs, walk s.pLists.next NPROC (s.pLists.head (.ready i)) = some xs →
      ∀ p ∈ xs, (s.proc p).priority = i) ∧
    ∀ s₁ s₂ j p, promote maxPrio s = .ok ((), s₁) →
      pickReady maxPrio s₁ = .ok (some (j, p), s₂) →
      ∀ q, (s₁.proc q).state = .runnable → (s₁.proc p).priority ≤ (s₁.proc q).priority := by
  obtain ⟨ticks, t, page, i, A, hrun, hshow, hinv⟩ :=
    h.shows (fun q => q.priority = 0) fun s pid hok p => hok pid rfl p
  have htop := hrun.atTop (initial_inv ticks t page i) (initial_atTop ticks t page i)
  refine ⟨?_, ?_⟩
  · intro i xs hxs p hp
    obtain ⟨V, hrep⟩ := hshow
    have hx : xs = V (.ready i) := (walk_eq_some_iff.mp hxs).1.unique (hrep.lists.chain _)
    rw [hrep.proc]
    exact priority_eq hinv htop ((hrep.mem _ _).mp (hx ▸ hp))
  · intro s₁ s₂ j p hpro hpick
    have hpro' := wp_of_ok (promote_spec hshow hinv) hpro
    split at hpro'
    · exact pickReady_least hpro' ((Trans.promote : Trans maxPrio (fun _ => True) A _).inv hinv)
        (htop.promote hinv.procs) hpick
    · exact pickReady_least hpro' hinv htop hpick

end

/-- The first process forks and uses up its budget.  Its child forks and falls asleep
at priority 0. -/
def demotion : List Action :=
  let fork : List Action := [.allocproc 0, .kstack 0 (some 1), .copyuvm 0 true, .forkReady 0]
  [.scheduler 0 0] ++ fork ++ List.replicate 1000 .tick ++ [.yield 0, .scheduler 0 0] ++ fork ++
    [.sleep 0 0]

/-- After the sleeper has been killed, two processes of priority 0 are on `ready[0]`
and one of priority 1 on `ready[1]`. -/
theorem demotion_priority : ∃ s : Kernel,
    walk s.pLists.next NPROC (s.pLists.head (.ready 0)) = some [2, 1] ∧
    walk s.pLists.next NPROC (s.pLists.head (.ready 1)) = some [0] ∧
    (∀ i xs, walk s.pLists.next NPROC (s.pLists.head (.ready i)) = some xs →
      ∀ p ∈ xs, (s.proc p).priority = i) ∧
    ∀ s₁ s₂ j p, promote 1 s = .ok ((), s₁) → pickReady 1 s₁ = .ok (some (j, p), s₂) →
      ∀ q, (s₁.proc q).state = .runnable → (s₁.proc p).priority ≤ (s₁.proc q).priority := by
  obtain ⟨s₀, hs₀, hrun⟩ := userinit_checked 1 (fun s => (exec 1 demotion s).any fun s₁ : Kernel =>
    decide (∀ p, (s₁.proc p).state = .sleeping → (s₁.proc p).pid = 2 →
      (s₁.proc p).priority = 0) && passes (fun s : Kernel =>
        walk s.pLists.next NPROC (s.pLists.head (.ready 0)) == some [2, 1] &&
        walk s.pLists.next NPROC (s.pLists.head (.ready 1)) == some [0]) (step 1 s₁ (.kill 2)))
    (by decide +kernel)
  obtain ⟨s₁, hs₁, hfacts⟩ := (Option.any_eq_true _ _).mp hrun
  rw [Bool.and_eq_true] at hfacts
  obtain ⟨s, hs, hlists⟩ := passes_iff.mp hfacts.2
  rw [Bool.and_eq_true] at hlists
  have hreach : ReachableBy 1 killsAtTop s₁ := by
    refine exec_reachable (.init (by decide) hs₀) hs₁ ?_
    rintro s a ha pid rfl
    simp only [demotion, List.mem_append, List.mem_replicate, List.mem_cons, List.not_mem_nil,
      reduceCtorEq, or_false, and_false] at ha
  refine ⟨s, eq_of_beq hlists.1, eq_of_beq hlists.2, reachable_priority (hreach.step ?_ hs)⟩
  rintro pid ⟨⟩ p
  exact of_decide_eq_true hfacts.1 p

/-- The first process forks, uses up its budget and falls asleep at priority
1.  While its child runs it is killed, and then the child yields. -/
def overtake : List Action :=
  [.scheduler 0 0, .allocproc 0, .kstack 0 (some 1), .copyuvm 0 true, .forkReady 0] ++
    List.replicate 1000 .tick ++ [.sleep 0 0, .scheduler 0 0, .kill 1, .yield 0]

/-- There is a process of priority 1 on `ready[0]`, and the next dispatch is of
a process with a larger priority number than another runnable one. -/
def overtaken (s : Kernel) : Bool :=
  (walk s.pLists.next NPROC (s.pLists.head (.ready 0))).any
      (fun xs => xs.any fun p => (s.proc p).priority == 1) &&
    match promote 1 s with
    | .ok (_, s₁) =>
      match pickReady 1 s₁ with
      | .ok (some (_, p), _) => (List.finRange NPROC).any fun q =>
        (s₁.proc q).state == .runnable && (s₁.proc q).priority < (s₁.proc p).priority
      | _ => false
    | .error _ => false

theorem overtaken_spec {s : Kernel} (h : overtaken s = true) :
    (∃ xs, walk s.pLists.next NPROC (s.pLists.head (.ready 0)) = some xs ∧
      ∃ p ∈ xs, (s.proc p).priority = 1) ∧
    ∃ s₁ s₂ j p q, promote 1 s = .ok ((), s₁) ∧ pickReady 1 s₁ = .ok (some (j, p), s₂) ∧
      (s₁.proc q).state = .runnable ∧ (s₁.proc q).priority < (s₁.proc p).priority := by
  rw [overtaken, Bool.and_eq_true] at h
  obtain ⟨hwalk, hpick⟩ := h
  refine ⟨?_, ?_⟩
  · rw [Option.any_eq_true] at hwalk
    obtain ⟨xs, hxs, hany⟩ := hwalk
    obtain ⟨p, hp, hprio⟩ := List.any_eq_true.mp hany
    exact ⟨xs, hxs, p, hp, eq_of_beq hprio⟩
  · split at hpick
    · next s₁ hpro =>
        split at hpick
        · next j p s₂ hpk =>
            obtain ⟨q, _, hq⟩ := List.any_eq_true.mp hpick
            rw [Bool.and_eq_true] at hq
            exact ⟨s₁, s₂, j, p, q, hpro, hpk, eq_of_beq hq.1, of_decide_eq_true hq.2⟩
        · cases hpick
    · cases hpick

/-- A `kill` of a demoted sleeper puts it on the wrong list, and it is
dispatched ahead of a process of higher priority. -/
theorem kill_overtakes : ∃ s, Reachable 1 s ∧
    (∃ xs, walk s.pLists.next NPROC (s.pLists.head (.ready 0)) = some xs ∧
      ∃ p ∈ xs, (s.proc p).priority = 1) ∧
    ∃ s₁ s₂ j p q, promote 1 s = .ok ((), s₁) ∧ pickReady 1 s₁ = .ok (some (j, p), s₂) ∧
      (s₁.proc q).state = .runnable ∧ (s₁.proc q).priority < (s₁.proc p).priority := by
  obtain ⟨s, hs, hover⟩ := exec_checked 1 overtake overtaken (by decide +kernel)
  exact ⟨s, hs, overtaken_spec hover⟩

end Xv6Pdx.Ptable
