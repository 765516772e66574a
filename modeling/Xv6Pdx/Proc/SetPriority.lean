/-
# `Proc.SetPriority` — what `setpriority` does to the process table

A table is `Listed` when every process is on the list for its state, a runnable
one on the ready list of its priority.  `setpriority` keeps such a table as long
as the process it finds is not running: one that runs, and gets another priority,
goes from the running list to a ready list and is still RUNNING.  The next
`yield` of that process, or the scheduler of another CPU, then panics.
-/
import Xv6Pdx.Proc.Partition
import Xv6Pdx.Proc.Priority

namespace Xv6Pdx.Ptable

open Lib
open Function (update update_self update_of_ne)

def listOf (q : Proc) : StateList :=
  match q.state with
  | .unused => .free
  | .embryo => .embryo
  | .sleeping => .sleep
  | .runnable => .ready q.priority.toNat
  | .running => .running
  | .zombie => .zombie

def Proc.active (q : Proc) : Prop :=
  q.state = .running ∨ q.state = .runnable ∨ q.state = .sleeping

/-- The pointers represent `lists`, and each process is on the list it belongs
on, and on no other. -/
structure Listed (maxPrio : Nat) (s : Kernel) (lists : StateList → List ProcPtr) : Prop where
  pointers : Lists s.pLists lists
  mem : ∀ l p, p ∈ lists l ↔ listOf (s.proc p) = l
  range : ∀ p, (s.proc p).state = .runnable →
    0 ≤ (s.proc p).priority ∧ (s.proc p).priority ≤ maxPrio

/-- A process with the priority and the budget that `setpriority` gives it. -/
def Proc.prioritized (q : Proc) (priority : Int) : Proc :=
  { q with priority := priority, budget := BUDGET }

section

variable {maxPrio : Nat} {s s' : Kernel} {V : StateList → List ProcPtr}

theorem listOf_eq_running {q : Proc} : listOf q = .running ↔ q.state = .running := by
  rw [listOf]
  split <;> simp [*]

theorem listOf_eq_sleep {q : Proc} : listOf q = .sleep ↔ q.state = .sleeping := by
  rw [listOf]
  split <;> simp [*]

theorem listOf_eq_ready {q : Proc} {i : Nat} :
    listOf q = .ready i ↔ q.state = .runnable ∧ q.priority.toNat = i := by
  rw [listOf]
  split <;> simp [*]

theorem stateOf_listOf (q : Proc) : stateOf (listOf q) = q.state := by
  rw [listOf]
  split <;> simp [stateOf, *]

theorem listOf_prioritized (q : Proc) (priority : Int) : listOf (q.prioritized priority) =
    if q.state = .runnable then .ready priority.toNat else listOf q := by
  simp only [listOf, Proc.prioritized]
  split <;> simp [*]

def Kernel.placed (s : Kernel) : View := s.view fun p => listOf (s.proc p)

theorem Listed.rep (h : Listed maxPrio s V) : Rep s s.placed V := ⟨h.pointers, h.mem, rfl⟩

/-- What `setpriority` has done when it has found `p`. -/
def Prioritized (maxPrio : Nat) (s s' : Kernel) (p : ProcPtr) (priority : Int) : Prop :=
  s' = { s with
    proc := update s.proc p ((s.proc p).prioritized priority)
    pLists := s'.pLists } ∧ ∃ lists, Listed maxPrio s' lists

/-- Pointers for the table in which `p` has its new priority. -/
theorem Rep.prioritized {p : ProcPtr} {priority : Int} (h : Listed maxPrio s V)
    (h0 : 0 ≤ priority) (h1 : priority ≤ maxPrio) (loc : ProcPtr → StateList)
    {V' : StateList → List ProcPtr}
    (hrep : Rep s' { s.placed with
      proc := update s.proc p ((s.proc p).prioritized priority), loc := loc } V')
    (hself : loc p = listOf ((s.proc p).prioritized priority))
    (hother : ∀ q, q ≠ p → loc q = listOf (s.proc q)) : Prioritized maxPrio s s' p priority := by
  have hproc : s'.proc = update s.proc p ((s.proc p).prioritized priority) := hrep.proc
  have hmem : ∀ l q, q ∈ V' l ↔ loc q = l := hrep.mem
  refine ⟨h.rep.frame hrep, V', hrep.lists, ?_, ?_⟩
  · intro l q
    rw [hmem, hproc]
    rcases eq_or_ne q p with rfl | hne
    · rw [update_self, hself]
    · rw [update_of_ne hne, hother q hne]
  · intro q
    rw [hproc]
    rcases eq_or_ne q p with rfl | hne
    · rw [update_self]
      exact fun _ => ⟨h0, h1⟩
    · rw [update_of_ne hne]
      exact h.range q

theorem setBudget_spec (h : Listed maxPrio s V) {p : ProcPtr} {priority : Int}
    (h0 : 0 ≤ priority) (h1 : priority ≤ maxPrio) (hp : (s.proc p).priority = priority) :
    wp (do
      setProc p fun q => { q with budget := BUDGET }
      pure (0 : Int)) (fun r s' => r = 0 ∧ Prioritized maxPrio s s' p priority)
      (fun _ => False) s := by
  simp only [wp_bind, wp_setProc, wp_pure, true_and]
  subst hp
  exact Rep.prioritized h h0 h1 (fun q => listOf (s.proc q))
    (h.rep.assign p fun q => { q with budget := BUDGET }) rfl fun _ _ => rfl

/-- A process that is not running and gets another priority. -/
theorem requeue_spec (h : Listed maxPrio s V) {p : ProcPtr} {priority : Int} {src : StateList}
    {old : ProcState} (msg : String) (h0 : 0 ≤ priority) (h1 : priority ≤ maxPrio)
    (hsrc : listOf (s.proc p) = src) (hold : (s.proc p).state = old)
    (hmove : (s.proc p).state = .runnable ∨ (s.proc p).priority = priority) :
    wp (requeue maxPrio src old priority p msg)
      (fun r s' => r = 0 ∧ Prioritized maxPrio s s' p priority) (fun _ => False) s := by
  simp only [requeue, wp_bind, wp_get]
  split
  · next hp => exact setBudget_spec h h0 h1 hp
  · next hp =>
      have hrun := hmove.resolve_right hp
      rw [readyList_of_range h0 h1, pure_bind]
      refine wp_seq (moveProc_spec h.rep _ _ msg hsrc hold) ?_
      intro _ s' hrep
      refine ⟨rfl, Rep.prioritized h h0 h1 _ hrep ?_ ?_⟩
      · rw [update_self, listOf_prioritized, if_pos hrun]
      · exact fun q hne => update_of_ne hne ..

theorem setSleeper_spec (h : Listed maxPrio s V) {p : ProcPtr} {priority : Int}
    (h0 : 0 ≤ priority) (h1 : priority ≤ maxPrio) (hp : (s.proc p).state = .sleeping) :
    wp (do
      setProc p fun q => { q with priority := priority, budget := BUDGET }
      pure (0 : Int)) (fun r s' => r = 0 ∧ Prioritized maxPrio s s' p priority)
      (fun _ => False) s := by
  simp only [wp_bind, wp_setProc, wp_pure, true_and]
  refine Rep.prioritized h h0 h1 (fun q => listOf (s.proc q))
    (h.rep.assign p fun q => { q with priority := priority, budget := BUDGET }) ?_ fun _ _ => rfl
  rw [listOf_prioritized, if_neg (by simp [hp])]

/-- The first process on the running list that has the pid. -/
def runningPid (s : Kernel) (V : StateList → List ProcPtr) (pid : Nat) : Option ProcPtr :=
  (V .running).find? fun p => (s.proc p).pid == pid

/-- What `setpriority` does, unless it finds a running process that has another
priority. -/
theorem setpriority_spec (h : Listed maxPrio s V) {pid : Nat} {priority : Int}
    (hrun : 0 ≤ priority → priority ≤ maxPrio → ∀ p, runningPid s V pid = some p →
      (s.proc p).priority = priority) :
    wp (setpriority maxPrio pid priority) (fun r s' =>
      (r = 0 ∧ 0 ≤ priority ∧ priority ≤ maxPrio ∧
        ∃ p, (s.proc p).active ∧ (s.proc p).pid = pid ∧ Prioritized maxPrio s s' p priority) ∨
      (r = -1 ∧ s' = s ∧ (0 ≤ priority → priority ≤ maxPrio →
        ∀ p, (s.proc p).active → (s.proc p).pid ≠ pid))) (fun _ => False) s := by
  rw [setpriority]
  split
  · next hbad =>
      refine Or.inr ⟨rfl, rfl, ?_⟩
      omega
  next hgood =>
  have h0 : 0 ≤ priority := by omega
  have h1 : priority ≤ maxPrio := by omega
  have hpid : ∀ {p}, ((s.proc p).pid == pid) = true → (s.proc p).pid = pid := fun hp => eq_of_beq hp
  refine wp_seq (findOn_spec h.rep .running _ _) ?_
  rintro (_ | p) t ⟨rfl, hr⟩
  swap
  · have hst := listOf_eq_running.mp ((h.mem _ _).mp (List.mem_of_find?_eq_some hr.symm))
    have hp : (t.proc p).pid = pid := hpid (by simpa using List.find?_some hr.symm)
    refine wp_post (requeue_spec h _ h0 h1 (listOf_eq_running.mpr hst) hst
      (Or.inr (hrun h0 h1 p hr.symm))) ?_
    rintro r s' ⟨rfl, hs'⟩
    exact Or.inl ⟨rfl, h0, h1, p, Or.inl hst, hp, hs'⟩
  refine wp_seq (findReady_loc h.rep _ _ _ _) ?_
  rintro (_ | ⟨i, p⟩) t ⟨rfl, hy⟩
  swap
  · have hst := (listOf_eq_ready.mp hy.1).1
    refine wp_post (requeue_spec h _ h0 h1 hy.1 hst (Or.inl hst)) ?_
    rintro r s' ⟨rfl, hs'⟩
    exact Or.inl ⟨rfl, h0, h1, p, Or.inr (Or.inl hst), hpid hy.2.1, hs'⟩
  refine wp_seq (findOn_loc h.rep .sleep _ _) ?_
  rintro (_ | p) t ⟨rfl, hs⟩
  swap
  · have hst := listOf_eq_sleep.mp hs.1
    simp only [wp_bind, wp_get]
    refine wp_post (Q := fun r s' => r = 0 ∧ Prioritized maxPrio t s' p priority) ?_ ?_
    · split
      · next hp => exact setBudget_spec h h0 h1 hp
      · exact setSleeper_spec h h0 h1 hst
    · rintro r s' ⟨rfl, hs'⟩
      exact Or.inl ⟨rfl, h0, h1, p, Or.inr (Or.inr hst), hpid hs.2, hs'⟩
  -- no list of active processes has the pid
  refine Or.inr ⟨rfl, rfl, fun _ _ p hact he => ?_⟩
  have hno : ((t.proc p).pid == pid) = false := by
    rcases hact with hp | hp | hp
    · have hmem := (h.mem _ _).mpr (listOf_eq_running.mpr hp)
      exact Bool.not_eq_true _ ▸ List.find?_eq_none.mp hr.symm p hmem
    · have hle := (h.range p hp).2
      exact hy (t.proc p).priority.toNat (Nat.zero_le _) (by omega) p (listOf_eq_ready.mpr ⟨hp, rfl⟩)
    · exact hs p (listOf_eq_sleep.mpr hp)
  rw [he, beq_self_eq_true] at hno
  cases hno

/-- A running process that gets another priority is not on the list it belongs on. -/
theorem setpriority_moves (h : Listed maxPrio s V) {pid : Nat} {priority : Int} {p : ProcPtr}
    (h0 : 0 ≤ priority) (h1 : priority ≤ maxPrio) (hp : runningPid s V pid = some p)
    (hne : (s.proc p).priority ≠ priority) :
    wp (setpriority maxPrio pid priority) (fun _ s' => ¬ ∃ lists, Listed maxPrio s' lists)
      (fun _ => False) s := by
  have hst := listOf_eq_running.mp ((h.mem _ _).mp (List.mem_of_find?_eq_some hp))
  rw [setpriority, if_neg (by omega)]
  refine wp_seq (findOn_spec h.rep .running _ _) ?_
  rintro _ t ⟨rfl, rfl⟩
  rw [runningPid] at hp
  simp only [hp, requeue, wp_bind, wp_get, if_neg hne, readyList_of_range h0 h1, pure_bind]
  refine wp_post (moveProc_spec h.rep _ _ _ (listOf_eq_running.mpr hst) hst) ?_
  rintro _ s' hrep ⟨lists, hl⟩
  have hproc : s'.proc p = (t.proc p).prioritized priority := by
    rw [hrep.proc]
    exact update_self ..
  have hon : p ∈ lists .running := by
    rw [hl.mem, hproc, listOf_eq_running]
    exact hst
  rw [(hl.pointers.chain .running).unique (hrep.lists.chain .running), hrep.mem] at hon
  simp [View.move] at hon

/-! ## The invariant of the table -/

/-- Processes have changed their places among the ready lists only. -/
theorem Ctl.congr {A B : View} (h : Ctl A) (hcpu : B.cpu = A.cpu) (htask : B.task = A.task)
    (hresume : B.resume = A.resume) (hinit : B.initproc = A.initproc)
    (hparent : ∀ q, (B.proc q).parent = (A.proc q).parent)
    (hloc : ∀ q, B.loc q = A.loc q ∨ (∃ i, A.loc q = .ready i) ∧ ∃ i, B.loc q = .ready i) :
    Ctl B := by
  have hkeep : ∀ q l, A.loc q = l → (∀ i, l ≠ .ready i) → B.loc q = l := by
    intro q l hl hne
    rcases hloc q with he | ⟨⟨i, hi⟩, -⟩
    · rw [he, hl]
    · exact absurd (hl.symm.trans hi) (hne i)
  have hready : ∀ q i, A.loc q = .ready i → ∃ i, B.loc q = .ready i := by
    intro q i hi
    rcases hloc q with he | ⟨-, hb⟩
    · exact ⟨i, he.trans hi⟩
    · exact hb
  refine ⟨?_, ?_, ?_, ?_, ?_, ?_, ?_⟩
  · intro c p hc
    rw [hcpu] at hc
    exact hkeep p _ (h.cpuRun c p hc) (by simp)
  · rw [hcpu]
    exact h.cpuInj
  · intro p np hnp
    rw [htask] at hnp
    exact hkeep np _ (h.child p np hnp) (by simp)
  · rw [htask]
    exact h.childInj
  · intro p hp
    rw [htask] at hp
    rw [hresume]
    rcases h.forker p hp with hl | ⟨⟨i, hi⟩, hr⟩
    · exact Or.inl (hkeep p _ hl (by simp))
    · exact Or.inr ⟨hready p i hi, hr⟩
  · obtain ⟨i, hi, halive, hpar⟩ := h.init
    refine ⟨i, hinit.trans hi, ?_, (hparent i).trans hpar⟩
    rcases halive with hl | hl | ⟨k, hk⟩
    · exact Or.inl (hkeep i _ hl (by simp))
    · exact Or.inr (Or.inl (hkeep i _ hl (by simp)))
    · exact Or.inr (Or.inr (hready i k hk))
  · intro p
    rw [hparent]
    exact h.selfParent p

/-- The invariant survives: the process has the priority of the list it is on. -/
theorem Prioritized.inv {p : ProcPtr} {priority : Int} (hp : Prioritized maxPrio s s' p priority)
    (h0 : 0 ≤ priority) (h1 : priority ≤ maxPrio) (hinv : Inv maxPrio s.placed) :
    Inv maxPrio s'.placed := by
  have hproc : s'.proc = update s.proc p ((s.proc p).prioritized priority) := by rw [hp.1]
  have hother : ∀ q, q ≠ p → s'.proc q = s.proc q := fun q hne => by
    rw [hproc, update_of_ne hne]
  have hself : s'.proc p = (s.proc p).prioritized priority := by rw [hproc, update_self]
  refine ⟨?_, hinv.ctl.congr (by rw [hp.1]; rfl) (by rw [hp.1]; rfl) (by rw [hp.1]; rfl)
    (by rw [hp.1]; rfl) ?_ ?_⟩
  · intro q
    show ProcOk maxPrio (s'.proc q) (listOf (s'.proc q))
    rcases eq_or_ne q p with rfl | hne
    · rw [hself, listOf_prioritized]
      split
      · next hr =>
          have hok : ProcOk maxPrio ((s.proc q).prioritized priority) (.ready priority.toNat) :=
            ProcOk.placeReady hr h0 h1
          exact hok
      · next hr =>
          refine ProcOk.place (stateOf_listOf (s.proc q)).symm h0 h1 ?_
          exact fun i hi => hr (listOf_eq_ready.mp hi).1
    · rw [hother q hne]
      exact hinv.procs q
  · intro q
    show (s'.proc q).parent = (s.proc q).parent
    rcases eq_or_ne q p with rfl | hne
    · rw [hself]
      rfl
    · rw [hother q hne]
  · intro q
    show listOf (s'.proc q) = listOf (s.proc q) ∨ _
    rcases eq_or_ne q p with rfl | hne
    · rw [hself, listOf_prioritized]
      split
      · next hr => exact Or.inr ⟨⟨_, listOf_eq_ready.mpr ⟨hr, rfl⟩⟩, ⟨_, by
          show listOf (s'.proc q) = _
          rw [hself, listOf_prioritized, if_pos hr]⟩⟩
      · exact Or.inl rfl
    · exact Or.inl (by rw [hother q hne])

/-- What `setpriority` is to do: give an active process the priority and a full budget, with
every process on the list it belongs on, or return -1 and change nothing; and make no later
step panic. -/
def PriorityContract (maxPrio : Nat) (s : Kernel) (pid : Nat) (priority : Int) : Prop :=
  ∃ r s', setpriority maxPrio pid priority s = .ok (r, s') ∧
    (r = 0 ↔ 0 ≤ priority ∧ priority ≤ maxPrio ∧ ∃ p, (s.proc p).active ∧ (s.proc p).pid = pid) ∧
    (r = 0 → ∃ p, (s.proc p).active ∧ (s.proc p).pid = pid ∧
      Prioritized maxPrio s s' p priority) ∧
    (r ≠ 0 → r = -1 ∧ s' = s) ∧
    (Inv maxPrio s.placed →
      ∀ a e, step maxPrio s' a = some (.error e) → e = .panic "init exiting")

/-- The contract holds exactly when the priority is out of range or the first running
process with the pid, if there is one, has that priority already. -/
theorem setpriority_contract_iff (h : Listed maxPrio s V) (pid : Nat) (priority : Int) :
    PriorityContract maxPrio s pid priority ↔
      (0 ≤ priority → priority ≤ maxPrio → ∀ p, runningPid s V pid = some p →
        (s.proc p).priority = priority) := by
  refine ⟨?_, fun hrun => ?_⟩
  · rintro ⟨r, s', hr, -, hfound, hnone, -⟩ h0 h1 p hp
    by_contra hne
    refine wp_of_ok (setpriority_moves h h0 h1 hp hne) hr ?_
    by_cases hzero : r = 0
    · obtain ⟨-, -, -, -, hl⟩ := hfound hzero
      exact hl
    · exact (hnone hzero).2 ▸ ⟨V, h⟩
  obtain ⟨r, s', hr, hpost⟩ := wp_total (setpriority_spec h hrun)
  refine ⟨r, s', hr, ?_⟩
  rcases hpost with ⟨rfl, h0, h1, p, hact, hpid, hp⟩ | ⟨rfl, rfl, hno⟩
  · refine ⟨⟨fun _ => ⟨h0, h1, p, hact, hpid⟩, fun _ => rfl⟩, fun _ => ⟨p, hact, hpid, hp⟩,
      fun hne => absurd rfl hne, fun hinv a e he => ?_⟩
    obtain ⟨-, V', hl⟩ := id hp
    exact step_stop ⟨V', hl.rep⟩ (hp.inv h0 h1 hinv) he
  · refine ⟨⟨fun h0 => (by cases h0), ?_⟩, fun h0 => (by cases h0), fun _ => ⟨rfl, rfl⟩,
      fun hinv a e he => step_stop ⟨V, h.rep⟩ hinv he⟩
    rintro ⟨h0, h1, p, hact, hpid⟩
    exact absurd hpid (hno h0 h1 p hact)

/-- Every run in which `kill` finds only sleepers of priority 0 leads to such tables. -/
theorem ReachableBy.listed (h : ReachableBy maxPrio killsAtTop s) :
    ∃ lists, Listed maxPrio s lists := by
  obtain ⟨ticks, t, page, i, A, hrun, ⟨V, hrep⟩, hinv⟩ :=
    h.shows (fun q => q.priority = 0) fun s pid hok p => hok pid rfl p
  have htop := hrun.atTop (initial_inv ticks t page i) (initial_atTop ticks t page i)
  have hloc : ∀ p, listOf (A.proc p) = A.loc p := by
    intro p
    have hst := (hinv.procs p).state
    cases hl : A.loc p with
    | ready i =>
      rw [hl] at hst
      exact listOf_eq_ready.mpr ⟨hst, by rw [priority_eq hinv htop hl]; rfl⟩
    | _ =>
      rw [hl, stateOf] at hst
      rw [listOf, hst]
  refine ⟨V, hrep.lists, fun l p => ?_, fun p _ => ?_⟩
  · rw [hrep.mem, hrep.proc, hloc]
  · rw [hrep.proc]
    exact ⟨(hinv.procs p).nonneg, (hinv.procs p).le⟩

end

/-- The first process, before it has run, gets priority 3. -/
theorem first_prioritized : ∃ s V, userinit 6 0 (boot 0) = .ok ((), s) ∧ Listed 6 s V ∧
    ((s.proc 0).active ∧ (s.proc 0).pid = 1) ∧ PriorityContract 6 s 1 3 := by
  obtain ⟨s, hs, hfacts⟩ := userinit_checked 6 (fun s => decide ((s.proc 0).state = .runnable ∧
    (s.proc 0).pid = 1 ∧ ∀ p, (s.proc p).state ≠ .running)) (by decide +kernel)
  obtain ⟨hst, hpid, hnone⟩ := of_decide_eq_true hfacts
  obtain ⟨V, hl⟩ := ReachableBy.listed (.init (by decide) hs)
  refine ⟨s, V, hs, hl, ⟨Or.inr (Or.inl hst), hpid⟩,
    (setpriority_contract_iff hl 1 3).mpr fun _ _ p hp => ?_⟩
  have hrun := listOf_eq_running.mp ((hl.mem _ _).mp (List.mem_of_find?_eq_some hp))
  exact absurd hrun (hnone p)

/-- The first process, running on CPU 0, gets priority 1: it is on `ready[1]`, RUNNING, and its
`yield` and the scheduler of CPU 1 panic. -/
def stranded (s : Kernel) : Bool :=
  match setpriority 1 1 1 s with
  | .ok (r, s') => r == 0 && walk s'.pLists.next NPROC (s'.pLists.head .running) == some [] &&
      (match walk s'.pLists.next NPROC (s'.pLists.head (.ready 1)) with
        | some [p] => (s'.proc p).pid == 1 && (s'.proc p).state == .running
        | _ => false) &&
      (match step 1 s' (.yield 0) with
        | some (.error e) => e == .panic "Yield\n"
        | _ => false) &&
      match step 1 s' (.scheduler 1 0) with
        | some (.error e) => e == .panic "Assert State failure.\n"
        | _ => false
  | .error _ => false

/-- `setpriority` of a running process puts it on a ready list: its next `yield`
panics, and so does the scheduler of another CPU. -/
theorem setpriority_strands : ∃ s V, ReachableBy 1 killsAtTop s ∧ Listed 1 s V ∧
    ∃ s' p, setpriority 1 1 1 s = .ok (0, s') ∧ (s'.proc p).pid = 1 ∧
      (s'.proc p).state = .running ∧
      walk s'.pLists.next NPROC (s'.pLists.head .running) = some [] ∧
      walk s'.pLists.next NPROC (s'.pLists.head (.ready 1)) = some [p] ∧
      step 1 s' (.yield 0) = some (.error (.panic "Yield\n")) ∧
      step 1 s' (.scheduler 1 0) = some (.error (.panic "Assert State failure.\n")) := by
  obtain ⟨s₀, hs₀, hrun⟩ := userinit_checked 1
    (fun s => passes stranded (step 1 s (.scheduler 0 0))) (by decide +kernel)
  obtain ⟨s, hs, hrun⟩ := passes_iff.mp hrun
  have hreach : ReachableBy 1 killsAtTop s :=
    .step (.init (by decide) hs₀) (fun pid h => by cases h) hs
  obtain ⟨V, hl⟩ := hreach.listed
  refine ⟨s, V, hreach, hl, ?_⟩
  rw [stranded] at hrun
  split at hrun
  · next r s' hr =>
      simp only [Bool.and_eq_true, beq_iff_eq] at hrun
      obtain ⟨⟨⟨⟨rfl, hrunning⟩, hready⟩, hyield⟩, hsched⟩ := hrun
      split at hready
      · next p hp =>
          simp only [Bool.and_eq_true, beq_iff_eq] at hready
          refine ⟨s', p, hr, hready.1, hready.2, hrunning, hp, ?_, ?_⟩
          · split at hyield
            · next e he => rw [he, eq_of_beq hyield]
            · cases hyield
          · split at hsched
            · next e he => rw [he, eq_of_beq hsched]
            · cases hsched
      · cases hready
  · cases hrun

end Xv6Pdx.Ptable
