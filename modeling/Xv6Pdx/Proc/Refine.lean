/-
# `Proc.Refine` — the critical sections of `proc.c` are runs of the machine

One specification for each routine of `Proc.Kernel`: from pointers that show
a view in which the invariant holds, the routine returns, without panic, null
dereference or endless walk, and its pointers show the view that the machine
gives.  `step_run` puts them together: whatever happens while the lock is
held is a run of `Trans`, and the only stop is the panic of `exit` in the
first process.
-/
import Xv6Pdx.Proc.Invariant

namespace Xv6Pdx.Ptable

open Lib
open Function (update update_self update_of_ne update_eq_self update_apply)

/-- The pointers of `s` represent the view `A`. -/
def Shows (s : Kernel) (A : View) : Prop := ∃ V, Rep s A V

section Routines

variable {maxPrio : Nat} {hit : Proc → Prop} {s : Kernel} {A : View}

theorem Shows.assign (h : Shows s A) (p : ProcPtr) (f : Proc → Proc) :
    Shows { s with proc := update s.proc p (f (s.proc p)) } (A.assign p f) := by
  obtain ⟨V, hrep⟩ := h
  exact ⟨V, hrep.assign p f⟩

theorem Shows.map (h : Shows s A) (f : Kernel → Kernel) (g : View → View)
    (hL : (f s).pLists = s.pLists) (hg : ∀ loc, (f s).view loc = g (s.view loc))
    (hloc : (g A).loc = A.loc) : Shows (f s) (g A) := by
  obtain ⟨V, hrep⟩ := h
  exact ⟨V, hrep.map f g hL hg hloc⟩

theorem Shows.move (h : Shows s A) {p : ProcPtr} {src : StateList} (dst : StateList)
    {old : ProcState} (f : Proc → Proc) (msg : String) (hloc : A.loc p = src)
    (hst : (A.proc p).state = old) :
    wp (moveProc src dst old f p msg) (fun _ s' => Shows s' (A.move p dst f))
      (fun _ => False) s := by
  obtain ⟨V, hrep⟩ := h
  exact wp_post (moveProc_spec hrep dst f msg hloc hst) fun _ _ h' => ⟨_, h'⟩

theorem assign_move (A : View) (p : ProcPtr) (dst : StateList) (f g : Proc → Proc) :
    (A.assign p f).move p dst g = A.move p dst fun q => g (f q) := by
  simp [View.assign, View.move]

theorem readyList_of_range {prio : Int} (h0 : 0 ≤ prio) (h1 : prio ≤ maxPrio) :
    readyList maxPrio prio = pure (.ready prio.toNat) := if_pos ⟨h0, h1⟩

/-! ## Giving up the CPU -/

theorem demote_spec (h : Shows s A) {p : ProcPtr} (hnn : 0 ≤ (A.proc p).priority)
    (hloc : (A.proc p).state = .runnable → A.loc p = .ready (A.proc p).priority.toNat) :
    wp (demote maxPrio p) (fun _ s' => Shows s' { A with
      proc := update A.proc p (demoted maxPrio (A.proc p))
      loc := update A.loc p (if (A.proc p).state = .runnable
        then .ready (demoted maxPrio (A.proc p)).priority.toNat else A.loc p) })
      (fun _ => False) s := by
  obtain ⟨V, h⟩ := h
  simp only [demote, wp_bind, wp_get, h.proc]
  by_cases hp : (A.proc p).priority < maxPrio
  · simp only [if_pos hp]
    by_cases hr : (A.proc p).state = .runnable
    · rw [if_pos hr, readyList_of_range hnn (by omega),
        readyList_of_range (by omega) (by omega), pure_bind]
      refine wp_seq (remove_spec h (hloc hr)) ?_
      rintro rc s₁ ⟨rfl, hoff⟩
      rw [pure_bind]
      refine wp_seq (add_spec hoff _) ?_
      rintro rc s₂ ⟨rfl, h₂⟩
      have h₃ := (h₂.assign p fun q => { q with priority := q.priority + 1 }).assign p
        fun q => { q with budget := BUDGET }
      simp only [Int.add_zero, ne_eq, not_true_eq_false, if_false, wp_bind, wp_setProc]
      exact ⟨_, by simpa [View.assign, demoted, hp, hr] using h₃⟩
    · have h₃ := (h.assign p fun q => { q with priority := q.priority + 1 }).assign p
        fun q => { q with budget := BUDGET }
      rw [if_neg hr]
      simp only [wp_bind, wp_setProc]
      exact ⟨_, by simpa [View.assign, demoted, hp, hr] using h₃⟩
  · have h₃ := h.assign p fun q => { q with budget := BUDGET }
    have hstay : (if (A.proc p).state = .runnable then .ready (A.proc p).priority.toNat
        else A.loc p) = A.loc p := by
      split
      · next hr => exact (hloc hr).symm
      · rfl
    simp only [if_neg hp, wp_setProc]
    exact ⟨_, by simpa [View.assign, demoted, hp, hstay] using h₃⟩

theorem sched_spec (h : Shows s A) {p : ProcPtr} (hrun : (A.proc p).state ≠ .running)
    (hnn : 0 ≤ (A.proc p).priority)
    (hloc : (A.proc p).state = .runnable → A.loc p = .ready (A.proc p).priority.toNat) :
    wp (sched maxPrio p) (fun _ s' => Shows s' (A.sched maxPrio p)) (fun _ => False) s := by
  obtain ⟨V, hrep⟩ := h
  have hs : (s.proc p).state ≠ .running := by rw [hrep.proc]; exact hrun
  have hchg : Shows { s with proc := update s.proc p (charge s.ticks (s.proc p)) }
      (A.assign p (charge A.ticks)) := by
    rw [← hrep.ticks]
    exact ⟨V, hrep.assign p (charge s.ticks)⟩
  have hself : (A.assign p (charge A.ticks)).proc p = charge A.ticks (A.proc p) :=
    update_self p _ _
  have hbudget : (charge s.ticks (s.proc p)).budget = (charge A.ticks (A.proc p)).budget := by
    rw [hrep.ticks, hrep.proc]
  simp only [sched, wp_bind, wp_get, if_neg hs, wp_setProc, update_self]
  show wp (if (charge s.ticks (s.proc p)).budget < 1 then _ else _) _ _ _
  rw [hbudget]
  split
  · next hb =>
      refine wp_post (demote_spec hchg (by rw [hself]; exact hnn) ?_) ?_
      · rw [hself]
        exact hloc
      · intro _ s' h'
        rw [hself] at h'
        have hset : settle maxPrio A.ticks (A.proc p)
            = demoted maxPrio (charge A.ticks (A.proc p)) := if_pos hb
        by_cases hr : (A.proc p).state = .runnable
        · simpa [View.sched, View.assign, hset, charge, hr] using h'
        · simpa [View.sched, View.assign, hset, charge, hr] using h'
  · next hb =>
      have hset : settle maxPrio A.ticks (A.proc p) = charge A.ticks (A.proc p) := if_neg hb
      have hstay : (if (A.proc p).state = .runnable
          then update A.loc p (.ready (A.proc p).priority.toNat) else A.loc) = A.loc := by
        split
        · next hr => rw [← hloc hr, update_eq_self]
        · rfl
      rw [wp_pure]
      simpa [View.sched, View.assign, hset, charge, hstay] using hchg

theorem yield_spec (h : Shows s A) {p : ProcPtr} (hloc : A.loc p = .running)
    (hok : ProcOk maxPrio (A.proc p) (A.loc p)) :
    wp (yield maxPrio p) (fun _ s' => Shows s' ((A.move p (.ready (A.proc p).priority.toNat)
      (fun q => { q with state := .runnable })).sched maxPrio p)) (fun _ => False) s := by
  have hst : (A.proc p).state = .running := by rw [hok.state, hloc]; rfl
  obtain ⟨V, hrep⟩ := h
  simp only [yield, wp_bind, wp_get, hrep.proc, readyList_of_range hok.nonneg hok.le, wp_pure]
  refine wp_post (Shows.move ⟨V, hrep⟩ _ _ _ hloc hst) ?_
  intro _ s' h'
  refine sched_spec h' ?_ ?_ ?_
  · simp [View.move]
  · simpa [View.move] using hok.nonneg
  · intro _
    simp [View.move]

theorem sleep_spec (h : Shows s A) {p : ProcPtr} (chan : Chan) (hloc : A.loc p = .running)
    (hok : ProcOk maxPrio (A.proc p) (A.loc p)) :
    wp (sleep maxPrio p chan) (fun _ s' => Shows s' ((A.move p .sleep
      (fun q => { q with chan := some chan, state := .sleeping })).sched maxPrio p))
      (fun _ => False) s := by
  have hst : (A.proc p).state = .running := by rw [hok.state, hloc]; rfl
  simp only [sleep, wp_bind, wp_setProc]
  refine wp_post ((h.assign p fun q => { q with chan := some chan }).move .sleep
    (fun q => { q with state := .sleeping }) "Sleep\n" hloc ?_) ?_
  · simpa [View.assign] using hst
  · intro _ s' h'
    rw [assign_move] at h'
    refine sched_spec h' ?_ ?_ ?_
    · simp [View.move]
    · simpa [View.move] using hok.nonneg
    · intro hr
      simp [View.move] at hr

/-! ## Waking up -/

theorem shift_src (V : StateList → List ProcPtr) (p : ProcPtr) {src dst : StateList}
    (hne : src ≠ dst) : shift V p src dst src = (V src).erase p := by
  rw [shift, push, update_of_ne hne, pull, update_self]

theorem shift_frame (V : StateList → List ProcPtr) (p : ProcPtr) {src dst k : StateList}
    (hs : k ≠ src) (hd : k ≠ dst) : shift V p src dst k = V k := by
  rw [shift, push, update_of_ne hd, pull, update_of_ne hs]

theorem wakeup1_rep {V : StateList → List ProcPtr} (hrep : Rep s A V)
    (hok : ∀ p, Placed maxPrio (A.proc p) (A.loc p)) (chan : Option Chan) :
    wp (wakeup1 maxPrio chan) (fun _ s' => ∃ V', Rep s' (A.wake chan) V' ∧
      V' .zombie = V .zombie) (fun _ => False) s := by
  simp only [wakeup1, wp_bind, wp_get]
  refine wp_post (forSaved_on (φ := wakeChange chan) hrep .sleep (fun k => k = .zombie) ?_) ?_
  swap
  · rintro _ _ ⟨V', h', hfr⟩
    exact ⟨V', h', hfr _ rfl⟩
  intro p ps s₁ V₁ hp hps h₁
  have hproc : (A.on (fun q => q ∈ ps) (wakeChange chan)).proc p = A.proc p := if_neg hps
  have hloc : (A.on (fun q => q ∈ ps) (wakeChange chan)).loc p = .sleep :=
    (if_neg hps).trans hp
  have hst : (A.proc p).state = .sleeping := by rw [(hok p).state, hp]; rfl
  have hsrc : ∀ k, shift V₁ p .sleep (.ready k) .sleep = (V₁ .sleep).erase p :=
    fun k => shift_src V₁ p (by simp)
  have hzomb : ∀ k l, l = .zombie → shift V₁ p .sleep (.ready k) l = V₁ l := by
    rintro k l rfl
    exact shift_frame V₁ p (by simp) (by simp)
  simp only [wakeupProc, wp_bind, wp_get, h₁.proc, hproc]
  by_cases hc : (A.proc p).chan = chan
  · obtain ⟨hnn, hle⟩ := (hok p).range hp
    rw [if_pos hc, readyList_of_range hnn hle, pure_bind]
    refine wp_post (moveProc_spec h₁ _ _ _ hloc (by rw [hproc]; exact hst)) ?_
    intro _ s₂ h₂
    rw [← View.change_eq_move _ (φ := wakeChange chan) (by rw [hproc, wakeChange, if_pos hc])] at h₂
    exact ⟨_, h₂, Or.inr (hsrc _), hzomb _⟩
  · rw [if_neg hc]
    refine ⟨V₁, ?_, Or.inl rfl, fun _ _ => rfl⟩
    rw [View.change_eq_self]
    · exact h₁
    · rw [hproc, wakeChange, if_neg hc]

theorem wakeup1_spec (h : Shows s A) (hok : ∀ p, Placed maxPrio (A.proc p) (A.loc p))
    (chan : Option Chan) :
    wp (wakeup1 maxPrio chan) (fun _ s' => Shows s' (A.wake chan)) (fun _ => False) s := by
  obtain ⟨V, hrep⟩ := h
  exact wp_post (wakeup1_rep hrep hok chan) fun _ _ ⟨V', h', _⟩ => ⟨V', h'⟩

/-- `kill` finds the process with the pid wherever it is, unless it is free. -/
theorem kill_exact (h : Shows s A) (hok : ∀ p, Placed maxPrio (A.proc p) (A.loc p)) (pid : Nat) :
    wp (kill maxPrio pid) (fun _ s' =>
      (Shows s' A ∧ ∀ p, A.loc p ≠ .free → (A.proc p).pid ≠ pid) ∨
      ∃ p, A.loc p ≠ .free ∧ (A.proc p).pid = pid ∧
        Shows s' (if A.loc p = .sleep then A.killWake p else A.killMark p))
      (fun _ => False) s := by
  obtain ⟨V, hrep⟩ := h
  have hpid : ∀ {p}, ((s.proc p).pid == pid) = true → (A.proc p).pid = pid := by
    intro p hp
    rw [← hrep.proc]
    exact eq_of_beq hp
  have hmark : ∀ p, A.loc p ≠ .free → A.loc p ≠ .sleep → ((s.proc p).pid == pid) = true → wp (do
        setProc p fun q => { q with killed := true }
        pure (0 : Int)) (fun _ s' =>
          (Shows s' A ∧ ∀ p, A.loc p ≠ .free → (A.proc p).pid ≠ pid) ∨
          ∃ p, A.loc p ≠ .free ∧ (A.proc p).pid = pid ∧
            Shows s' (if A.loc p = .sleep then A.killWake p else A.killMark p))
        (fun _ => False) s := by
    intro p hp hs he
    refine Or.inr ⟨p, hp, hpid he, ?_⟩
    rw [if_neg hs]
    exact ⟨V, hrep.assign p fun q => { q with killed := true }⟩
  unfold kill
  refine wp_seq (findOn_loc hrep .running _ _) ?_
  rintro (_ | p) _ ⟨rfl, hr⟩
  swap
  · exact hmark p (by rw [hr.1]; simp) (by rw [hr.1]; simp) hr.2
  refine wp_seq (findOn_loc hrep .sleep _ _) ?_
  rintro (_ | p) _ ⟨rfl, hs⟩
  swap
  · have hst : (A.proc p).state = .sleeping := by rw [(hok p).state, hs.1]; rfl
    simp only [wp_bind, wp_setProc]
    refine wp_post (Shows.move ⟨V, hrep.assign p fun q => { q with killed := true }⟩ _ _ _
      hs.1 (by simpa [View.assign] using hst)) ?_
    intro _ s' h'
    rw [assign_move] at h'
    refine Or.inr ⟨p, by rw [hs.1]; simp, hpid hs.2, ?_⟩
    rw [if_pos hs.1]
    exact h'
  refine wp_seq (findReady_loc hrep _ _ _ _) ?_
  rintro (_ | ⟨i, p⟩) _ ⟨rfl, hy⟩
  swap
  · exact hmark p (by rw [hy.1]; simp) (by rw [hy.1]; simp) hy.2.1
  refine wp_seq (findOn_loc hrep .zombie _ _) ?_
  rintro (_ | p) _ ⟨rfl, hz⟩
  swap
  · exact hmark p (by rw [hz.1]; simp) (by rw [hz.1]; simp) hz.2
  refine wp_seq (findOn_loc hrep .embryo _ _) ?_
  rintro (_ | p) _ ⟨rfl, he⟩
  swap
  · exact hmark p (by rw [he.1]; simp) (by rw [he.1]; simp) he.2
  -- every list but the free one has been searched
  refine Or.inl ⟨⟨V, hrep⟩, ?_⟩
  intro p hp heq
  have hno : ((A.proc p).pid == pid) = false := by
    rw [← hrep.proc]
    cases hl : A.loc p with
    | free => exact absurd hl hp
    | running => exact hr p hl
    | sleep => exact hs p hl
    | ready i => exact hy i (Nat.zero_le i) (by have := (hok p).ready i hl; omega) p hl
    | zombie => exact hz p hl
    | embryo => exact he p hl
  rw [heq, beq_self_eq_true] at hno
  cases hno

theorem kill_spec (h : Shows s A) (hok : ∀ p, ProcOk maxPrio (A.proc p) (A.loc p)) (pid : Nat) :
    wp (kill maxPrio pid) (fun _ s' => Shows s' A ∨
      (∃ p, A.loc p ≠ .free ∧ Shows s' (A.killMark p)) ∨
      ∃ p, A.loc p = .sleep ∧ (A.proc p).pid = pid ∧ Shows s' (A.killWake p))
      (fun _ => False) s := by
  refine wp_post (kill_exact h (fun p => (hok p).placed) pid) ?_
  rintro _ s' (⟨h', _⟩ | ⟨p, hf, hpid, h'⟩)
  · exact Or.inl h'
  · split at h'
    · next hs => exact Or.inr (Or.inr ⟨p, hs, hpid, h'⟩)
    · exact Or.inr (Or.inl ⟨p, hf, h'⟩)

/-! ## Creating a process -/

theorem allocproc_spec (h : Shows s A) (hok : ∀ p, ProcOk maxPrio (A.proc p) (A.loc p)) :
    wp allocproc (fun r s' => match r with
      | none => Shows s' A ∧ ∀ q, A.loc q ≠ .free
      | some np => A.loc np = .free ∧ Shows s' (A.take np)) (fun _ => False) s := by
  obtain ⟨V, hrep⟩ := h
  simp only [allocproc, wp_bind, wp_get, hrep.head_eq]
  cases hV : V .free with
  | nil =>
    have hfail : onLists (stateListRemove .free none) s = .ok (-1, s) := by
      rw [onLists, stateListRemove_absent (hrep.lists.represents .free) fun q hq => by cases hq]
    simp only [List.head?_nil, wp, hfail]
    refine ⟨⟨V, hrep⟩, ?_⟩
    intro q hq
    have hmem := (hrep.mem .free q).mpr hq
    rw [hV] at hmem
    cases hmem
  | cons np ps =>
    have hloc : A.loc np = .free := (hrep.mem _ _).mp (by rw [hV]; exact List.mem_cons_self)
    have hst : (A.proc np).state = .unused := by rw [(hok np).state, hloc]; rfl
    rw [List.head?_cons]
    refine wp_post (remove_spec hrep hloc) ?_
    rintro rc s₁ ⟨rfl, hoff⟩
    have hst' : (s₁.proc np).state = .unused := by rw [hoff.proc]; exact hst
    rw [if_neg (by simp)]
    refine wp_seq (assertState_spec hst' _) ?_
    rintro _ s₂ rfl
    rw [wp_bind, wp_setProc]
    refine wp_seq (add_spec (hoff.assign fun q => { q with
      state := .embryo, budget := BUDGET, priority := 0 }) .embryo) ?_
    rintro rc s₃ ⟨rfl, h₃⟩
    have hpid : s₃.nextpid = A.nextpid := h₃.nextpid
    have h₄ := h₃.assign np fun q => { q with
      state := .embryo, pid := A.nextpid % 2 ^ 32 }
    simp only [ne_eq, not_true_eq_false, if_false, wp_bind, wp_get, wp_setProc, wp_modify,
      wp_pure, hpid]
    have h₅ := h₄.map (fun s => { s with nextpid := s.nextpid + 1 })
      (fun A => { A with nextpid := A.nextpid + 1 }) rfl (fun _ => rfl) rfl
    exact ⟨hloc, _, by simpa [View.take, View.move, View.assign, hpid] using h₅⟩

theorem abandon_spec (h : Shows s A) {np : ProcPtr} (hloc : A.loc np = .embryo)
    (hok : ProcOk maxPrio (A.proc np) (A.loc np)) (msg : String) :
    wp (do
      setProc np fun q => { q with kstack := none }
      moveProc .embryo .free .embryo (fun q => { q with state := .unused }) np msg)
      (fun _ s' => Shows s' (A.move np .free fun q =>
        { q with kstack := none, state := .unused })) (fun _ => False) s := by
  have hst : (A.proc np).state = .embryo := by rw [hok.state, hloc]; rfl
  rw [wp_bind, wp_setProc]
  refine wp_post ((h.assign np fun q => { q with kstack := none }).move .free
    (fun q => { q with state := .unused }) msg hloc ?_) ?_
  · simpa [View.assign] using hst
  · intro _ s' h'
    rwa [assign_move] at h'

theorem allocprocStack_spec (h : Shows s A) (np : ProcPtr) (page : Nat) :
    wp (allocprocStack np page) (fun _ s' => Shows s' (A.furnish np page)) (fun _ => False) s := by
  simp only [allocprocStack, wp_bind, wp_get, wp_setProc, wp_modify]
  exact h.map (fun s => { s with
    proc := update s.proc np { s.proc np with
      kstack := some page, startTicks := s.ticks, cpuTicksTotal := 0, cpuTicksIn := 0 }
    resume := update s.resume np .forkret }) (fun A => A.furnish np page)
    rfl (fun _ => rfl) rfl

theorem forkCopy_spec (h : Shows s A) (p np : ProcPtr) :
    wp (forkCopy p np) (fun _ s' => Shows s' (A.assign np fun q => { q with
      sz := (A.proc p).sz, parent := some p, name := (A.proc p).name,
      uid := (A.proc p).uid, gid := (A.proc p).gid })) (fun _ => False) s := by
  simp only [forkCopy, wp_bind, wp_get, wp_setProc]
  exact h.map (fun s => { s with
    proc := update s.proc np { s.proc np with
      sz := (s.proc p).sz, parent := some p, name := (s.proc p).name,
      uid := (s.proc p).uid, gid := (s.proc p).gid } })
    (fun A => A.assign np fun q => { q with
      sz := (A.proc p).sz, parent := some p, name := (A.proc p).name,
      uid := (A.proc p).uid, gid := (A.proc p).gid }) rfl (fun _ => rfl) rfl

theorem forkReady_spec (h : Shows s A) {p np : ProcPtr} (hloc : A.loc np = .embryo)
    (hok : ∀ p, ProcOk maxPrio (A.proc p) (A.loc p)) :
    wp (forkReady maxPrio p np) (fun _ s' => Shows s' (A.move np
      (.ready (A.proc p).priority.toNat) fun q => { q with
        state := .runnable, priority := (A.proc p).priority })) (fun _ => False) s := by
  have hst : (A.proc np).state = .embryo := by rw [(hok np).state, hloc]; rfl
  obtain ⟨V, hrep⟩ := h
  simp only [forkReady, wp_bind, wp_get, hrep.proc,
    readyList_of_range (hok p).nonneg (hok p).le, wp_pure]
  exact Shows.move ⟨V, hrep⟩ _ _ _ hloc hst

/-! ## Ending a process -/

/-- What `exit` does before it leaves: some sleepers become ready, and
children of `me` go to the first process. -/
structure Calm (maxPrio : Nat) (hit : Proc → Prop) (me : ProcPtr) (A B : View) : Prop where
  run : Run maxPrio hit A B
  cpu : B.cpu = A.cpu
  task : B.task = A.task
  initproc : B.initproc = A.initproc
  loc : ∀ q, B.loc q = A.loc q ∨ A.loc q = .sleep ∧ ∃ k, B.loc q = .ready k
  parent : ∀ q, (B.proc q).parent = (A.proc q).parent ∨
    (A.proc q).parent = some me ∧ (B.proc q).parent = A.initproc
  chan : ∀ q, (B.proc q).chan = (A.proc q).chan

namespace Calm

variable {me : ProcPtr} {B C : View}

theorem refl (A : View) : Calm maxPrio hit me A A :=
  ⟨.refl, rfl, rfl, rfl, fun _ => Or.inl rfl, fun _ => Or.inl rfl, fun _ => rfl⟩

theorem trans (h : Calm maxPrio hit me A B) (h' : Calm maxPrio hit me B C) :
    Calm maxPrio hit me A C := by
  refine ⟨h.run.trans h'.run, h'.cpu.trans h.cpu, h'.task.trans h.task,
    h'.initproc.trans h.initproc, ?_, ?_, fun q => (h'.chan q).trans (h.chan q)⟩
  · intro q
    rcases h'.loc q with h1 | ⟨h1, k, h2⟩
    · rw [h1]
      exact h.loc q
    · rcases h.loc q with h3 | ⟨_, j, h3⟩
      · exact Or.inr ⟨h3 ▸ h1, k, h2⟩
      · rw [h3] at h1
        cases h1
  · intro q
    rw [← h.initproc]
    rcases h'.parent q with h1 | ⟨h1, h2⟩
    · rw [h1, h.initproc]
      exact h.parent q
    · rcases h.parent q with h3 | ⟨h3, _⟩
      · exact Or.inr ⟨h3 ▸ h1, h2⟩
      · exact Or.inr ⟨h3, h2⟩

theorem parent_ne (h : Calm maxPrio hit me A B) (hinit : A.initproc ≠ some me) {q : ProcPtr}
    (hq : (A.proc q).parent ≠ some me) : (B.proc q).parent ≠ some me := by
  rcases h.parent q with h1 | ⟨_, h1⟩
  · rw [h1]
    exact hq
  · rw [h1]
    exact hinit

theorem asleep (h : Calm maxPrio hit me A B) {q : ProcPtr} (hq : B.loc q = .sleep) :
    A.loc q = .sleep := by
  rcases h.loc q with h1 | ⟨h1, _⟩
  · exact h1 ▸ hq
  · exact h1

theorem wake (chan : Option Chan) : Calm maxPrio hit me A (A.wake chan) := by
  refine ⟨.single (.wake chan), rfl, rfl, rfl, ?_, fun q => Or.inl (wake_parent A chan q),
    wake_chan A chan⟩
  intro q
  rw [wake_loc]
  split
  · next hq => exact Or.inr ⟨hq.1, _, rfl⟩
  · exact Or.inl rfl

theorem reparent {ls : List StateList} (ht : A.task me = .none) (hls : .zombie ∉ ls) :
    Calm maxPrio hit me A (A.reparent me ls) := by
  refine ⟨.single (.reparent me ls ht hls), rfl, rfl, rfl, ?_, ?_, reparent_chan A me ls⟩
  · intro q
    rw [reparent_loc]
    exact Or.inl rfl
  · intro q
    rw [reparent_parent]
    split
    · next hq => exact Or.inr ⟨hq.2, rfl⟩
    · exact Or.inl rfl

theorem adopt {q : ProcPtr} (hq : A.loc q = .zombie) (hpar : (A.proc q).parent = some me) :
    Calm maxPrio hit me A (A.adopt q) := by
  have hw : Calm maxPrio hit me (A.assign q fun r => { r with parent := A.initproc })
      (A.adopt q) := wake _
  refine ⟨.single (.adopt q hq), rfl, rfl, rfl, hw.loc, ?_, adopt_chan A q⟩
  intro r
  rw [adopt_parent]
  split
  · next hr => exact Or.inr ⟨hr ▸ hpar, rfl⟩
  · exact Or.inl rfl

end Calm

theorem reparentList_spec (h : Shows s A) (me : ProcPtr) (l : StateList) :
    wp (reparentList me l) (fun _ s' => Shows s' (A.reparent me [l])) (fun _ => False) s := by
  obtain ⟨V, hrep⟩ := h
  simp only [reparentList, wp_bind, wp_get]
  refine wp_post (forNext_on (φ := reparentChange me A.initproc) hrep l ?_) ?_
  · intro p ps s₁ hp hps h₁
    have hproc : (A.on (fun q => q ∈ ps) (reparentChange me A.initproc)).proc p = A.proc p :=
      if_neg hps
    have hinit : s₁.initproc = A.initproc := h₁.initproc
    simp only [reparent, wp_bind, wp_get, h₁.proc, hproc, hinit]
    by_cases hpar : (A.proc p).parent = some me
    · rw [if_pos hpar, wp_setProc, View.change_eq_assign (f := fun q =>
        { q with parent := A.initproc })]
      · exact h₁.assign p fun q => { q with parent := A.initproc }
      · rw [hproc, reparentChange, if_pos hpar]
    · rw [if_neg hpar, View.change_eq_self]
      · exact h₁
      · rw [hproc, reparentChange, if_neg hpar]
  · intro _ s' h'
    rw [View.on_congr A _ fun p => show A.loc p = l ↔ A.loc p ∈ [l] by simp] at h'
    exact ⟨V, h'⟩

theorem reparent_reparent {me : ProcPtr} (hinit : A.initproc ≠ some me) (ls ls' : List StateList) :
    (A.reparent me ls).reparent me ls' = A.reparent me (ls ++ ls') := by
  have hproc : ∀ p, ((A.reparent me ls).reparent me ls').proc p
      = (A.reparent me (ls ++ ls')).proc p := by
    intro p
    simp only [View.reparent, View.on, reparentChange, List.mem_append, ite_self]
    by_cases h1 : A.loc p ∈ ls
    · by_cases hp : (A.proc p).parent = some me
      · simp [h1, hp, hinit]
      · simp [h1, hp]
    · simp [h1]
  have hloc : ((A.reparent me ls).reparent me ls').loc = (A.reparent me (ls ++ ls')).loc := by
    rw [reparent_loc, reparent_loc, reparent_loc]
  exact View.ext (funext hproc) hloc rfl rfl rfl rfl rfl rfl rfl

/-- The lists `exit` goes through before the zombies. -/
def exitLists (maxPrio : Nat) : List StateList :=
  [.running] ++ (List.range (maxPrio + 1)).map .ready ++ [.embryo] ++ [.sleep]

theorem reparentLists_spec (h : Shows s A) {me : ProcPtr} (hinit : A.initproc ≠ some me) :
    wp (reparentLists maxPrio me) (fun _ s' => Shows s' (A.reparent me (exitLists maxPrio)))
      (fun _ => False) s := by
  -- one more list is one more reparenting of the same view
  have hnext : ∀ {ls : List StateList} (l : StateList) {s₁ : Kernel},
      Shows s₁ (A.reparent me ls) → wp (reparentList me l)
        (fun _ s' => Shows s' (A.reparent me (ls ++ [l]))) (fun _ => False) s₁ := by
    intro ls l s₁ h₁
    have h₂ := reparentList_spec h₁ me l
    rwa [reparent_reparent hinit] at h₂
  refine wp_seq (reparentList_spec h me .running) ?_
  intro _ s₁ h₁
  refine wp_seq (forIndex_spec (I := fun k s' =>
    Shows s' (A.reparent me ([.running] ++ (List.range k).map .ready))) (maxPrio + 1) 0 ?_ h₁) ?_
  · intro k s₂ _ _ h₂
    have h₃ := hnext (.ready k) h₂
    rwa [List.append_assoc, ← List.map_singleton, ← List.map_append, ← List.range_succ] at h₃
  · intro _ s₂ h₂
    rw [Nat.zero_add] at h₂
    exact wp_seq (hnext .embryo h₂) fun _ s₃ h₃ => hnext .sleep h₃

theorem mem_exitLists {l : StateList} : l ∈ exitLists maxPrio ↔
    l = .running ∨ (∃ i ≤ maxPrio, l = .ready i) ∨ l = .embryo ∨ l = .sleep := by
  simp only [exitLists, List.mem_append, List.mem_map, List.mem_range, List.mem_singleton,
    Nat.lt_succ_iff, eq_comm, or_assoc]

theorem Placed.mem_exitLists {q : Proc} {l : StateList} (h : Placed maxPrio q l)
    (hf : l ≠ .free) (hz : l ≠ .zombie) : l ∈ exitLists maxPrio := by
  rw [Ptable.mem_exitLists]
  cases l with
  | free => exact absurd rfl hf
  | zombie => exact absurd rfl hz
  | ready i => exact Or.inr (Or.inl ⟨i, h.ready i rfl, rfl⟩)
  | running => exact Or.inl rfl
  | embryo => exact Or.inr (Or.inr (Or.inl rfl))
  | sleep => exact Or.inr (Or.inr (Or.inr rfl))

theorem reparentZombies_spec (hit : Proc → Prop) (h : Shows s A) (hinv : Inv maxPrio A) {me : ProcPtr}
    (hinit : A.initproc ≠ some me) :
    wp (reparentZombies maxPrio me) (fun _ s' => ∃ B, Shows s' B ∧ Calm maxPrio hit me A B ∧
        ∀ q, B.loc q = .zombie → (B.proc q).parent ≠ some me) (fun _ => False) s := by
  obtain ⟨V, hrep⟩ := h
  let I : List ProcPtr → Kernel → Prop := fun ps s' => ∃ B V' done, Rep s' B V' ∧
    V' .zombie = done ++ ps ∧ Calm maxPrio hit me A B ∧ ∀ q ∈ done, (B.proc q).parent ≠ some me
  have hstart : I (V .zombie) s := ⟨A, V, [], hrep, rfl, Calm.refl A, by simp⟩
  have hstep : ∀ p ps s₁, I (p :: ps) s₁ → wp (reparentZombie maxPrio me p)
      (fun _ s' => I ps s' ∧ s'.pLists.next p = ps.head?) (fun _ => False) s₁ := by
    rintro p ps s₁ ⟨B, V₁, done, h₁, hV₁, hcalm, hdone⟩
    have hp : B.loc p = .zombie := (h₁.mem _ _).mp (by rw [hV₁]; simp)
    have hinitB : B.initproc ≠ some me := by rw [hcalm.initproc]; exact hinit
    simp only [reparentZombie, wp_bind, wp_get, h₁.proc, h₁.initproc]
    by_cases hpar : (B.proc p).parent = some me
    · have h₂ := h₁.assign p fun q => { q with parent := B.initproc }
      have hok : ∀ q, ProcOk maxPrio ((B.assign p fun q => { q with parent := B.initproc }).proc q)
          ((B.assign p fun q => { q with parent := B.initproc }).loc q) :=
        procs_assign (hcalm.run.inv hinv).procs rfl rfl rfl rfl
      have hadopt : Calm maxPrio hit me B (B.adopt p) := Calm.adopt hp hpar
      rw [if_pos hpar, wp_bind, wp_setProc]
      refine wp_post (wakeup1_rep h₂ (fun q => (hok q).placed) _) ?_
      rintro _ s₂ ⟨V₂, h₃, hV₂⟩
      rw [hV₁] at hV₂
      refine ⟨⟨B.adopt p, V₂, done ++ [p], h₃, by rw [hV₂]; simp, hcalm.trans hadopt, ?_⟩,
        h₃.next_eq hV₂⟩
      intro q hq
      rcases List.mem_append.mp hq with hq | hq
      · exact hadopt.parent_ne hinitB (hdone q hq)
      · rw [List.mem_singleton.mp hq, adopt_parent, if_pos rfl]
        exact hinitB
    · rw [if_neg hpar]
      refine ⟨⟨B, V₁, done ++ [p], h₁, by rw [hV₁]; simp, hcalm, ?_⟩, h₁.next_eq hV₁⟩
      intro q hq
      rcases List.mem_append.mp hq with hq | hq
      · exact hdone q hq
      · rw [List.mem_singleton.mp hq]
        exact hpar
  simp only [reparentZombies, wp_bind, wp_get, hrep.head_eq]
  refine wp_post (forNext_spec I hstep _ hstart (hrep.lists.length_le _)) ?_
  rintro _ s' ⟨B, V', done, h', hV', hcalm, hdone⟩
  rw [List.append_nil] at hV'
  refine ⟨B, ⟨V', h'⟩, hcalm, ?_⟩
  intro q hq
  exact hdone q (hV' ▸ (h'.mem _ _).mpr hq)

/-- After its loops, `me` has no child left and its parent is not asleep in
`wait`. -/
theorem exit_ready (hinv : Inv maxPrio A) {me : ProcPtr} (ht : A.task me = .none)
    (hinit : A.initproc ≠ some me) {B : View}
    (hB : Calm maxPrio hit me ((A.wake ((A.proc me).parent.map .proc)).reparent me
      (exitLists maxPrio)) B)
    (hz : ∀ q, B.loc q = .zombie → (B.proc q).parent ≠ some me) :
    Calm maxPrio hit me A B ∧ (∀ q, B.loc q ≠ .free → (B.proc q).parent ≠ some me) ∧
      ∀ r, (B.proc me).parent = some r →
        ¬ (B.loc r = .sleep ∧ (B.proc r).chan = some (.proc r)) := by
  have hzl : .zombie ∉ exitLists maxPrio := by simp [mem_exitLists]
  have hw : Calm maxPrio hit me A (A.wake ((A.proc me).parent.map .proc)) := Calm.wake _
  have hr : Calm maxPrio hit me (A.wake ((A.proc me).parent.map .proc))
      ((A.wake ((A.proc me).parent.map .proc)).reparent me (exitLists maxPrio)) :=
    Calm.reparent ht hzl
  have hAB := hw.trans (hr.trans hB)
  refine ⟨hAB, ?_, ?_⟩
  · intro q hq
    by_cases hqz : B.loc q = .zombie
    · exact hz q hqz
    refine hB.parent_ne hinit ?_
    have hmem : (A.wake ((A.proc me).parent.map .proc)).loc q ∈ exitLists maxPrio := by
      rcases hB.loc q with h1 | ⟨h1, _⟩
      · rw [reparent_loc] at h1
        rw [h1] at hq hqz
        exact (procs_wake hinv.procs _ q).placed.mem_exitLists hq hqz
      · rw [reparent_loc] at h1
        rw [h1]
        simp [mem_exitLists]
    rw [reparent_parent]
    split
    · exact hinit
    · next hno => exact fun hp => hno ⟨hmem, hp⟩
  · rintro r hr ⟨hsleep, hchan⟩
    have hpar : (A.proc me).parent = some r := by
      rcases hAB.parent me with h1 | ⟨h1, _⟩
      · exact h1 ▸ hr
      · exact absurd h1 (hinv.ctl.selfParent me)
    have h1 := hB.asleep hsleep
    rw [reparent_loc, wake_loc, hpar] at h1
    rw [hAB.chan r] at hchan
    split at h1
    · cases h1
    · next hno => exact hno ⟨h1, hchan⟩

/-- `exit` is the first process's panic, or a run that ends with `me` a
zombie. -/
theorem exit_spec (hit : Proc → Prop) (h : Shows s A) (hinv : Inv maxPrio A) {c : Nat} {me : ProcPtr}
    (hc : A.cpu c = some me) (ht : A.task me = .none) :
    wp (exit maxPrio me) (fun _ s' => ∃ B : View, Run maxPrio hit A (B.exit maxPrio c me) ∧
      Shows s' ((B.move me .zombie fun q => { q with state := .zombie }).sched maxPrio me))
      (fun e => e = .panic "init exiting") s := by
  obtain ⟨V, hrep⟩ := h
  simp only [exit, wp_bind, wp_get, hrep.initproc, hrep.proc]
  by_cases hinit : A.initproc = some me
  · rw [if_pos hinit]
    rfl
  rw [if_neg hinit]
  refine wp_mono ?_ (fun _ _ h' => h') (fun _ he => False.elim he)
  refine wp_seq (wakeup1_spec ⟨V, hrep⟩ (fun p => (hinv.procs p).placed) _) ?_
  intro _ s₁ h₁
  refine wp_seq (reparentLists_spec h₁ hinit) ?_
  intro _ s₂ h₂
  have hzl : .zombie ∉ exitLists maxPrio := by simp [mem_exitLists]
  have h₂inv : Inv maxPrio ((A.wake ((A.proc me).parent.map .proc)).reparent me
      (exitLists maxPrio)) :=
    have hwake : Trans maxPrio hit A _ := .wake ((A.proc me).parent.map .proc)
    have hkids : Trans maxPrio hit (A.wake ((A.proc me).parent.map .proc)) _ :=
      .reparent me (exitLists maxPrio) ht hzl
    hkids.inv (hwake.inv hinv)
  refine wp_seq (reparentZombies_spec hit h₂ h₂inv hinit) ?_
  rintro _ s₃ ⟨B, h₃, hB, hz⟩
  obtain ⟨hAB, hkids, hparent⟩ := exit_ready hinv ht hinit hB hz
  have hBinv := hAB.run.inv hinv
  have hcpu : B.cpu c = some me := by rw [hAB.cpu]; exact hc
  have hrun := hBinv.ctl.cpuRun c me hcpu
  have hst : (B.proc me).state = .running := by rw [(hBinv.procs me).state, hrun]; rfl
  refine wp_seq (h₃.move .zombie _ _ hrun hst) ?_
  intro _ s₄ h₄
  refine wp_post (sched_spec h₄ ?_ ?_ ?_) ?_
  · simp [View.move]
  · simpa [View.move] using (hBinv.procs me).nonneg
  · intro hr
    simp [View.move] at hr
  · intro _ s' h'
    refine ⟨B, hAB.run.tail (.exit c me hcpu ?_ ?_ hkids hparent), h'⟩
    · rw [hAB.task]
      exact ht
    · rw [hAB.initproc]
      exact hinit

/-! ## Waiting -/

theorem parentPid_eq {V : StateList → List ProcPtr} (hrep : Rep s A V) (low : Nat) (p : ProcPtr) :
    parentPid low s p = A.parentPid low p := by
  have hproc := hrep.proc
  cases hp : (A.proc p).parent with
  | none => simp only [parentPid, View.parentPid, hproc, hp]
  | some q => simp only [parentPid, View.parentPid, hproc, hp]

theorem childOn_spec {V : StateList → List ProcPtr} (hrep : Rep s A V) (low : Nat) (me : ProcPtr)
    (l : StateList) (E : Stop → Prop) : wp (childOn low me l) (fun _ s' => s' = s) E s :=
  wp_seq (findOn_loc hrep l _ E) fun _ _ hr => hr.1

theorem reap_spec (h : Shows s A) (hok : ∀ p, ProcOk maxPrio (A.proc p) (A.loc p)) {q : ProcPtr}
    (hq : A.loc q = .zombie) :
    wp (reap q) (fun _ s' => Shows s' (A.reap q)) (fun _ => False) s := by
  have hst : (A.proc q).state = .zombie := by rw [(hok q).state, hq]; rfl
  simp only [reap, wp_bind, wp_get]
  exact wp_post (h.move .free _ _ hq hst) fun _ _ h' => h'

theorem waitLoop_spec (h : Shows s A) (hok : ∀ p, ProcOk maxPrio (A.proc p) (A.loc p))
    {me : ProcPtr} (hme : A.loc me = .running) (low : Nat) (havekids : Bool) :
    wp (waitLoop maxPrio low me havekids) (fun r s' => match r with
      | some _ => Shows s' A ∨ ∃ q, A.loc q = .zombie ∧
          A.parentPid low q = (A.proc me).pid ∧ Shows s' (A.reap q)
      | none => (∀ q, A.loc q = .zombie → A.parentPid low q ≠ (A.proc me).pid) ∧
          Shows s' ((A.move me .sleep fun q =>
            { q with chan := some (.proc me), state := .sleeping }).sched maxPrio me))
      (fun _ => False) s := by
  obtain ⟨V, hrep⟩ := h
  have hchild : ∀ q, isChild low me s q = true ↔ A.parentPid low q = (A.proc me).pid := by
    intro q
    rw [isChild, beq_iff_eq, parentPid_eq hrep, hrep.proc]
  unfold waitLoop
  refine wp_seq (findOn_loc hrep .zombie _ _) ?_
  rintro (_ | q) _ ⟨rfl, hr⟩
  · have hnone : ∀ q, A.loc q = .zombie → A.parentPid low q ≠ (A.proc me).pid := by
      intro q hq he
      have hno := hr q hq
      rw [(hchild q).mpr he] at hno
      cases hno
    refine wp_seq (findReady_loc hrep _ _ _ _) ?_
    rintro r _ ⟨rfl, _⟩
    refine wp_seq (childOn_spec hrep low me .sleep _) ?_
    rintro sl _ rfl
    refine wp_seq (childOn_spec hrep low me .running _) ?_
    rintro ru _ rfl
    refine wp_seq (childOn_spec hrep low me .embryo _) ?_
    rintro em _ rfl
    rw [wp_bind, wp_get]
    split
    · exact Or.inl ⟨V, hrep⟩
    split
    · exact Or.inl ⟨V, hrep⟩
    exact wp_seq (sleep_spec ⟨V, hrep⟩ (.proc me) hme (hok me)) fun _ _ h' => ⟨hnone, h'⟩
  · refine wp_seq (reap_spec ⟨V, hrep⟩ hok hr.1) ?_
    intro _ s' h'
    exact Or.inr ⟨q, hr.1, (hchild q).mp hr.2, h'⟩

/-! ## The scheduler -/

theorem promoteProcs_spec (h : Shows s A) (hok : ∀ p, ProcOk maxPrio (A.proc p) (A.loc p))
    (l : StateList) (msg : String) :
    wp (forSaved (promoteProc msg) NPROC (s.pLists.head l))
      (fun _ s' => Shows s' (A.on (fun p => A.loc p = l) lowerChange)) (fun _ => False) s := by
  obtain ⟨V, hrep⟩ := h
  refine wp_post (forSaved_on hrep l (fun _ => False) ?_) fun _ _ ⟨V', h', _⟩ => ⟨V', h'⟩
  intro p ps s₁ V₁ hp hps h₁
  have hproc : (A.on (fun q => q ∈ ps) lowerChange).proc p = A.proc p := if_neg hps
  have hnn : ¬ (A.proc p).priority < 0 := Int.not_lt.mpr (hok p).nonneg
  simp only [promoteProc, wp_bind, wp_get, h₁.proc, hproc, if_neg hnn]
  by_cases hpos : (A.proc p).priority > 0
  · rw [if_pos hpos, wp_setProc, View.change_eq_assign (f := fun q =>
      { q with priority := q.priority - 1 })]
    · exact ⟨V₁, h₁.assign p fun q => { q with priority := q.priority - 1 }, Or.inl rfl,
        fun _ _ => rfl⟩
    · rw [hproc, lowerChange, if_pos hpos]
  · rw [if_neg hpos, View.change_eq_self]
    · exact ⟨V₁, h₁, Or.inl rfl, fun _ _ => rfl⟩
    · rw [hproc, lowerChange, if_neg hpos]

theorem promoteList_spec (h : Shows s A) (hok : ∀ p, ProcOk maxPrio (A.proc p) (A.loc p))
    (i : Nat) :
    wp (promoteList (i + 1)) (fun _ s' =>
      Shows s' (A.on (fun p => A.loc p = .ready (i + 1)) (climbChange (i + 1))))
      (fun _ => False) s := by
  obtain ⟨V, hrep⟩ := h
  simp only [promoteList, wp_bind, wp_get]
  refine wp_post (forSaved_on (φ := climbChange (i + 1)) hrep (.ready (i + 1)) (fun _ => False) ?_) ?_
  swap
  · rintro _ _ ⟨V', h', -⟩
    exact ⟨V', h'⟩
  intro p ps s₁ V₁ hp hps h₁
  have hproc : (A.on (fun q => q ∈ ps) (climbChange (i + 1))).proc p = A.proc p := if_neg hps
  have hloc : (A.on (fun q => q ∈ ps) (climbChange (i + 1))).loc p = .ready (i + 1) :=
    (if_neg hps).trans hp
  have hprio : (A.proc p).priority = ((i + 1 : Nat) : Int) := (hok p).above i hp
  simp only [promoteReady, wp_bind, wp_get, h₁.proc, hproc, hprio, ne_eq, not_true_eq_false,
    if_false]
  refine wp_post (remove_spec h₁ hloc) ?_
  rintro _ s₂ ⟨rfl, hoff⟩
  rw [wp_setProc]
  refine wp_post (add_spec (hoff.assign fun q => { q with priority := q.priority - 1 }) _) ?_
  rintro _ s₃ ⟨rfl, h₃⟩
  have h₄ : Rep s₃ ((A.on (fun q => q ∈ ps) (climbChange (i + 1))).move p (.ready i)
      fun q => { q with priority := q.priority - 1 }) (shift V₁ p (.ready (i + 1)) (.ready i)) :=
    hloc ▸ h₃
  rw [← View.change_eq_move _ (φ := climbChange (i + 1)) rfl] at h₄
  exact ⟨_, h₄, Or.inr (shift_src V₁ p (by simp)), fun _ hf => False.elim hf⟩

/-- The lists `ready[1]`, ..., `ready[n]`. -/
def upper (n : Nat) : List StateList := (List.range n).map fun i => .ready (i + 1)

theorem mem_upper {n : Nat} {l : StateList} : l ∈ upper n ↔ ∃ i < n, l = .ready (i + 1) := by
  simp [upper, eq_comm]

def climbOne : Change := fun q l =>
  match l with
  | .ready i => climbChange i q l
  | _ => (q, l)

/-- The promotion of `ready[1]`, ..., `ready[n]`. -/
def View.climb (A : View) (n : Nat) : View := A.on (fun p => A.loc p ∈ upper n) climbOne

theorem climb_zero (A : View) : A.climb 0 = A := by
  simp [View.climb, View.on, upper]

/-- A process that is still on `ready[n + 1]` after the lists below have been
promoted was there before. -/
theorem climb_loc_eq {n : Nat} {p : ProcPtr} :
    (A.climb n).loc p = .ready (n + 1) ↔ A.loc p = .ready (n + 1) := by
  show (if A.loc p ∈ upper n then (climbOne (A.proc p) (A.loc p)).2 else A.loc p) = _ ↔ _
  by_cases hp : A.loc p ∈ upper n
  · rw [if_pos hp]
    obtain ⟨i, hi, hl⟩ := mem_upper.mp hp
    rw [hl]
    show StateList.ready i = _ ↔ _
    simp only [StateList.ready.injEq]
    omega
  · rw [if_neg hp]

theorem climb_succ (A : View) (n : Nat) :
    (A.climb n).on (fun p => (A.climb n).loc p = .ready (n + 1)) (climbChange (n + 1))
      = A.climb (n + 1) := by
  have hcases : ∀ p, A.loc p ∈ upper (n + 1) ↔ A.loc p ∈ upper n ∨ A.loc p = .ready (n + 1) := by
    intro p
    simp only [mem_upper]
    constructor
    · rintro ⟨i, hi, hl⟩
      rcases Nat.lt_succ_iff_lt_or_eq.mp hi with h1 | rfl
      · exact Or.inl ⟨i, h1, hl⟩
      · exact Or.inr hl
    · rintro (⟨i, hi, hl⟩ | hl)
      · exact ⟨i, by omega, hl⟩
      · exact ⟨n, by omega, hl⟩
  have hpoint : ∀ p, ((A.climb n).on (fun p => (A.climb n).loc p = .ready (n + 1))
      (climbChange (n + 1))).proc p = (A.climb (n + 1)).proc p ∧
      ((A.climb n).on (fun p => (A.climb n).loc p = .ready (n + 1))
      (climbChange (n + 1))).loc p = (A.climb (n + 1)).loc p := by
    intro p
    by_cases hp : A.loc p = .ready (n + 1)
    · have hno : A.loc p ∉ upper n := by
        rw [mem_upper, hp]
        rintro ⟨i, hi, hl⟩
        simp only [StateList.ready.injEq] at hl
        omega
      have hin : A.loc p ∈ upper (n + 1) := (hcases p).mpr (Or.inr hp)
      have hloc : (A.climb n).loc p = .ready (n + 1) := climb_loc_eq.mpr hp
      have hstay : (A.climb n).proc p = A.proc p := if_neg hno
      have hdone : (A.climb (n + 1)).proc p = (climbOne (A.proc p) (A.loc p)).1 ∧
          (A.climb (n + 1)).loc p = (climbOne (A.proc p) (A.loc p)).2 := ⟨if_pos hin, if_pos hin⟩
      rw [hdone.1, hdone.2, hp]
      simp only [View.on, if_pos hloc, hstay]
      exact ⟨rfl, rfl⟩
    · have hloc : (A.climb n).loc p ≠ .ready (n + 1) := fun h => hp (climb_loc_eq.mp h)
      have hiff : A.loc p ∈ upper (n + 1) ↔ A.loc p ∈ upper n := by
        rw [hcases p]
        simp [hp]
      simp only [View.on, if_neg hloc]
      simp only [View.climb, View.on, hiff, and_self]
  exact View.ext (funext fun p => (hpoint p).1) (funext fun p => (hpoint p).2)
    rfl rfl rfl rfl rfl rfl rfl

theorem procs_climb (hok : ∀ p, ProcOk maxPrio (A.proc p) (A.loc p)) (n : Nat) :
    ∀ p, ProcOk maxPrio ((A.climb n).proc p) ((A.climb n).loc p) := by
  refine procs_on hok _ climbOne ?_
  intro p hp
  obtain ⟨i, _, hl⟩ := mem_upper.mp hp
  have hq := hok p
  rw [hl] at hq ⊢
  exact climbChange_ok hq

theorem promoteLists_spec (h : Shows s A) (hok : ∀ p, ProcOk maxPrio (A.proc p) (A.loc p))
    (n : Nat) : wp (forIndex promoteList n 1) (fun _ s' => Shows s' (A.climb n))
      (fun _ => False) s := by
  refine wp_post (forIndex_spec (I := fun k s' => Shows s' (A.climb (k - 1))) n 1 ?_ ?_) ?_
  · intro k s₁ hk _ h₁
    obtain ⟨i, rfl⟩ := Nat.exists_eq_add_of_le' hk
    have h₂ := promoteList_spec h₁ (procs_climb hok _) i
    simp only [Nat.add_sub_cancel] at h₂ ⊢
    rwa [climb_succ] at h₂
  · simpa [climb_zero] using h
  · intro _ s' h'
    rwa [Nat.add_sub_cancel_left] at h'

theorem promote_eq (A : View) : { ((A.on (fun p => A.loc p = .running) lowerChange).climb
      maxPrio).on (fun p => ((A.on (fun p => A.loc p = .running) lowerChange).climb
        maxPrio).loc p = .sleep) lowerChange with
      promoteAtTime := (A.promoteAtTime + TICKS_TO_PROMOTE) % 2 ^ 32 }
    = A.promote maxPrio := by
  have hpoint : ∀ p, (((A.on (fun p => A.loc p = .running) lowerChange).climb maxPrio).on
      (fun p => ((A.on (fun p => A.loc p = .running) lowerChange).climb maxPrio).loc p = .sleep)
      lowerChange).proc p = (A.promote maxPrio).proc p ∧
      (((A.on (fun p => A.loc p = .running) lowerChange).climb maxPrio).on
      (fun p => ((A.on (fun p => A.loc p = .running) lowerChange).climb maxPrio).loc p = .sleep)
      lowerChange).loc p = (A.promote maxPrio).loc p := by
    intro p
    cases hl : A.loc p with
    | ready i =>
      have hup : StateList.ready i ∈ upper maxPrio ↔ 1 ≤ i ∧ i ≤ maxPrio := by
        rw [mem_upper]
        constructor
        · rintro ⟨k, hk, he⟩
          cases he
          omega
        · rintro ⟨h1, h2⟩
          exact ⟨i - 1, by omega, by rw [Nat.sub_add_cancel h1]⟩
      by_cases hi : 1 ≤ i ∧ i ≤ maxPrio
      · simp [View.climb, View.on, View.promote, hl, hup, hi, climbOne, climbChange]
      · simp [View.climb, View.on, View.promote, hl, hup, hi]
    | running => simp [View.climb, View.on, View.promote, hl, mem_upper, lowerChange]
    | sleep => simp [View.climb, View.on, View.promote, hl, mem_upper, lowerChange]
    | _ => simp [View.climb, View.on, View.promote, hl, mem_upper]
  exact View.ext (funext fun p => (hpoint p).1) (funext fun p => (hpoint p).2)
    rfl rfl rfl rfl rfl rfl rfl

theorem promote_spec (h : Shows s A) (hinv : Inv maxPrio A) :
    wp (promote maxPrio) (fun _ s' => Shows s' (if A.promoteAtTime ≤ A.ticks
      then A.promote maxPrio else A)) (fun _ => False) s := by
  obtain ⟨V, hrep⟩ := h
  simp only [promote, wp_bind, wp_get, hrep.promoteAtTime, hrep.ticks]
  split
  · refine wp_seq (promoteProcs_spec ⟨V, hrep⟩ hinv.procs .running _) ?_
    intro _ s₁ h₁
    have hok₁ : ∀ p, ProcOk maxPrio ((A.on (fun p => A.loc p = .running) lowerChange).proc p)
        ((A.on (fun p => A.loc p = .running) lowerChange).loc p) :=
      procs_on hinv.procs _ _ fun p hp => lowerChange_ok (hinv.procs p) (by simp [hp])
    refine wp_seq (promoteLists_spec h₁ hok₁ maxPrio) ?_
    intro _ s₂ h₂
    rw [wp_bind, wp_get]
    refine wp_seq (promoteProcs_spec h₂ (procs_climb hok₁ maxPrio) .sleep _) ?_
    intro _ s₃ h₃
    rw [wp_modify, ← promote_eq]
    exact h₃.map (fun s => { s with
      promoteAtTime := (s.promoteAtTime + TICKS_TO_PROMOTE) % 2 ^ 32 })
      (fun A => { A with promoteAtTime := (A.promoteAtTime + TICKS_TO_PROMOTE) % 2 ^ 32 })
      rfl (fun _ => rfl) rfl
  · exact ⟨V, hrep⟩

/-- The search of the scheduler finds a ready process of the first non-empty
list. -/
theorem pickReady_spec (h : Shows s A) : wp (pickReady maxPrio) (fun r s' => s' = s ∧ match r with
      | some (j, p) => A.loc p = .ready j ∧ ∀ q k, A.loc q = .ready k → j ≤ k
      | none => True) (fun _ => False) s := by
  obtain ⟨V, hrep⟩ := h
  refine wp_post (findReady_loc hrep (fun _ _ => true) _ (maxPrio + 1) 0) ?_
  rintro (_ | ⟨j, p⟩) s' ⟨hs, hr⟩
  · exact ⟨hs, trivial⟩
  · refine ⟨hs, hr.1, ?_⟩
    intro q k hq
    refine Nat.le_of_not_lt fun hk => ?_
    have hno := hr.2.2.2.2 k (Nat.zero_le k) hk q hq
    cases hno

theorem dispatch_spec (h : Shows s A) (hok : ∀ p, ProcOk maxPrio (A.proc p) (A.loc p)) (c : Nat)
    {j : Nat} {p : ProcPtr} (hp : A.loc p = .ready j) :
    wp (dispatch c j p) (fun _ s' => Shows s' (A.dispatch c p)) (fun _ => False) s := by
  have hst : (A.proc p).state = .runnable := by rw [(hok p).state, hp]; rfl
  refine wp_seq (h.move .running _ _ hp hst) ?_
  intro _ s₁ h₁
  have h₂ := h₁.map (fun s => { s with
      proc := update s.proc p { s.proc p with cpuTicksIn := s.ticks }
      cpu := update s.cpu c (some p) })
    (fun A => { A.assign p (fun q => { q with cpuTicksIn := A.ticks }) with
      cpu := update A.cpu c (some p) }) rfl (fun _ => rfl) rfl
  rw [wp_bind, wp_modify, wp_bind, wp_get, wp_setProc]
  simpa [View.dispatch, View.assign, View.move] using h₂

theorem resumeAt_of_eq {p : ProcPtr} {r : Resume} (h : A.resume p = r) : A.resumeAt p r = A := by
  rw [View.resumeAt, ← h, update_eq_self]

/-- A process that gets its CPU back goes on where it left it. -/
theorem resumed_spec (hit : Proc → Prop) (h : Shows s A) (hinv : Inv maxPrio A) {c : Nat} {p : ProcPtr}
    (hc : A.cpu c = some p) (ht : A.resume p = .wait → A.task p = .none) (low : Nat) :
    wp (resumed maxPrio c low p) (fun _ s' => ∃ B, Run maxPrio hit A B ∧ Shows s' B)
      (fun _ => False) s := by
  obtain ⟨V, hrep⟩ := h
  have hclear : Trans maxPrio hit A (A.clearChan p) := .clearChan c p hc
  simp only [resumed, wp_bind, wp_get, hrep.resume]
  cases hr : A.resume p with
  | forkret => exact ⟨A, .refl, V, hrep⟩
  | yield => exact ⟨A, .refl, V, hrep⟩
  | sleep =>
    exact ⟨A.clearChan p, .single hclear, V, hrep.assign p fun q => { q with chan := none }⟩
  | wait =>
    have hinv' := hclear.inv hinv
    have hrun : (A.clearChan p).loc p = .running := hinv.ctl.cpuRun c p hc
    have hshow : Shows _ (A.clearChan p) := ⟨V, hrep.assign p fun q => { q with chan := none }⟩
    simp only [wp_bind, wp_setProc]
    refine wp_post (waitLoop_spec hshow hinv'.procs hrun low true) ?_
    rintro (_ | r) s₁ h₁
    · refine ⟨(A.clearChan p).sleep maxPrio c p (.proc p) .wait,
        .tail (.single hclear) (.waitSleep c p low hc (ht hr) h₁.1), ?_⟩
      have h₂ := h₁.2.map (fun s => { s with cpu := update s.cpu c none })
        (fun A => A.leave c) rfl (fun _ => rfl) rfl
      rw [View.sleep, resumeAt_of_eq]
      · exact h₂
      · exact hr
    · rcases h₁ with h₁ | ⟨q, hq, hpid, h₁⟩
      · exact ⟨A.clearChan p, .single hclear, h₁⟩
      · exact ⟨_, .tail (.single hclear) (.reap c p q low hc hq hpid), h₁⟩

/-- The scheduler promotes when it is due, dispatches, and lets a process
that waits take its turn. -/
theorem scheduler_spec (h : Shows s A) (hinv : Inv maxPrio A) {c : Nat} (hc : A.cpu c = none)
    (low : Nat) :
    wp (scheduler maxPrio c low) (fun _ s' => ∃ B, Run maxPrio hit A B ∧ Shows s' B)
      (fun _ => False) s := by
  refine wp_seq (promote_spec h hinv) ?_
  intro _ s₁ h₁
  generalize hA₁ : (if A.promoteAtTime ≤ A.ticks then A.promote maxPrio else A) = A₁ at h₁
  have hrun₁ : Run maxPrio hit A A₁ := by
    rw [← hA₁]
    split
    · exact .single .promote
    · exact .refl
  have hcpu₁ : A₁.cpu c = none := by
    rw [← hA₁]
    split <;> exact hc
  have hinv₁ := hrun₁.inv hinv
  refine wp_seq (pickReady_spec h₁) ?_
  rintro (_ | ⟨j, p⟩) s₂ ⟨rfl, hp⟩
  · exact ⟨A₁, hrun₁, h₁⟩
  refine wp_seq (dispatch_spec h₁ hinv₁.procs c hp.1) ?_
  intro _ s₃ h₃
  have hdisp : Trans maxPrio hit A₁ (A₁.dispatch c p) := .dispatch c p j hcpu₁ hp.1 hp.2
  have htask : A₁.resume p = .wait → A₁.task p = .none := by
    intro hw
    by_contra ht
    rcases hinv₁.ctl.forker p ht with h4 | ⟨_, h4⟩
    · rw [hp.1] at h4
      cases h4
    · rw [hw] at h4
      cases h4
  refine wp_post (resumed_spec hit h₃ (hdisp.inv hinv₁) (update_self c _ _) htask low) ?_
  rintro _ s' ⟨B, hB, h'⟩
  exact ⟨B, (hrun₁.tail hdisp).trans hB, h'⟩

/-! ## One step -/

theorem switched_spec (h : Shows s A) (c : Nat) (p : ProcPtr) (r : Resume) (E : Stop → Prop) :
    wp (switched c p r) (fun _ s' => Shows s' ((A.leave c).resumeAt p r)) E s :=
  h.map (fun s => { s with
    cpu := update s.cpu c none, resume := update s.resume p r })
    (fun A => (A.leave c).resumeAt p r) rfl (fun _ => rfl) rfl

theorem setTask_spec (h : Shows s A) (p : ProcPtr) (t : Task) (E : Stop → Prop) :
    wp (setTask p t) (fun _ s' => Shows s' (A.withTask p t)) E s :=
  h.map (fun s => { s with task := update s.task p t })
    (fun A => A.withTask p t) rfl (fun _ => rfl) rfl

theorem procAction_run (h : Shows s A) (hinv : Inv maxPrio A) {c : Nat} {p : ProcPtr}
    (hc : A.cpu c = some p) {a : Action} {m : KernelM Unit}
    (hm : procAction maxPrio c p (A.task p) a = some m) :
    wp m (fun _ s' => ∃ B, Run maxPrio hit A B ∧ Shows s' B)
      (fun e => e = .panic "init exiting") s := by
  have hrun : A.loc p = .running := hinv.ctl.cpuRun c p hc
  have htotal : ∀ {m : KernelM Unit}, wp m (fun _ s' => ∃ B, Run maxPrio hit A B ∧ Shows s' B)
      (fun _ => False) s → wp m (fun _ s' => ∃ B, Run maxPrio hit A B ∧ Shows s' B)
      (fun e => e = .panic "init exiting") s :=
    fun hm => wp_mono hm (fun _ _ h' => h') fun _ he => False.elim he
  cases a with
  | yield _ =>
    cases hm
    refine htotal (wp_seq (yield_spec h hrun (hinv.procs p)) fun _ s₁ h₁ => ?_)
    exact wp_post (switched_spec h₁ c p .yield _) fun _ s' h' =>
      ⟨_, .single (.yield c p hc), h'⟩
  | sleep _ a =>
    simp only [procAction] at hm
    split at hm
    · next ht =>
        cases hm
        refine htotal (wp_seq (sleep_spec h _ hrun (hinv.procs p)) fun _ s₁ h₁ => ?_)
        exact wp_post (switched_spec h₁ c p .sleep _) fun _ s' h' =>
          ⟨_, .single (.sleep c p a hc ht), h'⟩
    · cases hm
  | exit _ =>
    simp only [procAction] at hm
    split at hm
    · next ht =>
        cases hm
        refine wp_seq (exit_spec hit h hinv hc ht) ?_
        rintro _ s₁ ⟨B, hB, h₁⟩
        exact ⟨_, hB, h₁.map (fun s => { s with cpu := update s.cpu c none })
          (fun A => A.leave c) rfl (fun _ => rfl) rfl⟩
    · cases hm
  | wait _ low =>
    simp only [procAction] at hm
    split at hm
    · next ht =>
        cases hm
        refine htotal (wp_seq (waitLoop_spec h hinv.procs hrun low false) ?_)
        rintro (_ | r) s₁ h₁
        · exact wp_post (switched_spec h₁.2 c p .wait _) fun _ s' h' =>
            ⟨_, .single (.waitSleep c p low hc ht h₁.1), h'⟩
        · rcases h₁ with h₁ | ⟨q, hq, hpid, h₁⟩
          · exact ⟨A, .refl, h₁⟩
          · exact ⟨_, .single (.reap c p q low hc hq hpid), h₁⟩
    · cases hm
  | allocproc _ =>
    simp only [procAction] at hm
    split at hm
    · next ht =>
        cases hm
        refine htotal (wp_seq (allocproc_spec h hinv.procs) ?_)
        rintro (_ | np) s₁ h₁
        · exact ⟨A, .refl, h₁.1⟩
        · exact wp_post (setTask_spec h₁.2 p (.embryo np) _) fun _ s' h' =>
            ⟨_, .single (.alloc c p np hc ht h₁.1), h'⟩
    · cases hm
  | kstack _ page =>
    simp only [procAction] at hm
    split at hm
    · next np pg ht =>
        cases hm
        refine htotal (wp_seq (allocprocStack_spec h np pg) fun _ s₁ h₁ => ?_)
        exact wp_post (setTask_spec h₁ p (.stack np) _) fun _ s' h' =>
          ⟨_, .single (.stack c p np pg hc ht), h'⟩
    · next np ht =>
        cases hm
        have hnp : A.loc np = .embryo := hinv.ctl.child p np (by rw [ht]; rfl)
        refine htotal (wp_seq (abandon_spec h hnp (hinv.procs np) _) fun _ s₁ h₁ => ?_)
        exact wp_post (setTask_spec h₁ p .none _) fun _ s' h' =>
          ⟨_, .single (.abandon c p np hc (Or.inl ht)), h'⟩
    · cases hm
  | copyuvm _ ok =>
    simp only [procAction] at hm
    split at hm
    · next np ht =>
        cases hm
        refine htotal (wp_seq (forkCopy_spec h p np) fun _ s₁ h₁ => ?_)
        exact wp_post (setTask_spec h₁ p (.copied np) _) fun _ s' h' =>
          ⟨_, .single (.copy c p np hc ht), h'⟩
    · next np ht =>
        cases hm
        have hnp : A.loc np = .embryo := hinv.ctl.child p np (by rw [ht]; rfl)
        refine htotal (wp_seq (abandon_spec h hnp (hinv.procs np) _) fun _ s₁ h₁ => ?_)
        exact wp_post (setTask_spec h₁ p .none _) fun _ s' h' =>
          ⟨_, .single (.abandon c p np hc (Or.inr ht)), h'⟩
    · cases hm
  | forkReady _ =>
    simp only [procAction] at hm
    split at hm
    · next np ht =>
        cases hm
        have hnp : A.loc np = .embryo := hinv.ctl.child p np (by rw [ht]; rfl)
        refine htotal (wp_seq (forkReady_spec h hnp hinv.procs) fun _ s₁ h₁ => ?_)
        exact wp_post (setTask_spec h₁ p .none _) fun _ s' h' =>
          ⟨_, .single (.forkReady c p np hc ht), h'⟩
    · cases hm
  | _ => cases hm

/-- Whatever happens while the lock is held is a run of the machine, or the
panic of `exit` in the first process. -/
theorem program_run (hit : Proc → Prop) (h : Shows s A) (hinv : Inv maxPrio A) {a : Action} {m : KernelM Unit}
    (hm : program maxPrio s a = some m)
    (hkill : ∀ pid, a = .kill pid → ∀ p, A.loc p = .sleep → (A.proc p).pid = pid → hit (A.proc p)) :
    wp m (fun _ s' => ∃ B, Run maxPrio hit A B ∧ Shows s' B)
      (fun e => e = .panic "init exiting") s := by
  have hcpu : s.cpu = A.cpu := by
    obtain ⟨V, hrep⟩ := h
    exact hrep.cpu
  have htask : s.task = A.task := by
    obtain ⟨V, hrep⟩ := h
    exact hrep.task
  have htotal : ∀ {α : Type} {m : KernelM α} {Q : α → Kernel → Prop},
      wp m Q (fun _ => False) s → wp m Q (fun e => e = .panic "init exiting") s :=
    fun hm => wp_mono hm (fun _ _ h' => h') fun _ he => False.elim he
  cases a with
  | tick =>
    cases hm
    exact ⟨_, .single .tick, h.map (fun s => { s with ticks := (s.ticks + 1) % 2 ^ 32 })
      (fun A => A.tick) rfl (fun _ => rfl) rfl⟩
  | wakeup chan =>
    cases hm
    exact htotal (wp_post (wakeup1_spec h (fun p => (hinv.procs p).placed) _) fun _ _ h' =>
      ⟨_, .single (.wake _), h'⟩)
  | kill pid =>
    cases hm
    refine wp_seq (htotal (kill_spec h hinv.procs pid)) ?_
    rintro _ s' (h' | ⟨p, hp, h'⟩ | ⟨p, hp, hpid, h'⟩)
    · exact ⟨A, .refl, h'⟩
    · exact ⟨_, .single (.killMark p hp), h'⟩
    · exact ⟨_, .single (.killWake p hp (hkill pid rfl p hp hpid)), h'⟩
  | scheduler c low =>
    simp only [program] at hm
    split at hm
    · next hc =>
        cases hm
        exact htotal (scheduler_spec h hinv (hcpu ▸ hc) low)
    · cases hm
  | _ =>
    obtain ⟨p, hc, hp⟩ := program_process maxPrio rfl hm
    exact procAction_run h hinv (hcpu ▸ hc) (htask ▸ hp)

theorem step_run (h : Shows s A) (hinv : Inv maxPrio A) {a : Action} {s' : Kernel}
    (hs : step maxPrio s a = some (.ok s'))
    (hkill : ∀ pid, a = .kill pid → ∀ p, A.loc p = .sleep → (A.proc p).pid = pid →
      hit (A.proc p)) : ∃ B, Run maxPrio hit A B ∧ Shows s' B := by
  rw [step, Option.map_eq_some_iff] at hs
  obtain ⟨m, hm, hr⟩ := hs
  have hwp := program_run hit h hinv hm hkill
  cases hres : m s with
  | ok q =>
    rw [hres] at hr
    cases hr
    exact wp_of_ok hwp hres
  | error e =>
    rw [hres] at hr
    cases hr

theorem step_stop (h : Shows s A) (hinv : Inv maxPrio A) {a : Action} {e : Stop}
    (hs : step maxPrio s a = some (.error e)) : e = .panic "init exiting" := by
  rw [step, Option.map_eq_some_iff] at hs
  obtain ⟨m, hm, hr⟩ := hs
  have hwp := program_run (fun _ => True) h hinv hm fun _ _ _ _ _ => trivial
  cases hres : m s with
  | ok q =>
    rw [hres] at hr
    cases hr
  | error e' =>
    rw [hres] at hr
    cases hr
    have he := wp_of_error hwp hres
    exact he

/-! ## Boot -/

/-- The view `userinit` leaves, with `p` for the first process. -/
def View.initial (ticks promoteAtTime page : Nat) (p : ProcPtr) : View where
  proc := update (boot ticks).proc p
    { sz := PGSIZE, kstack := some page, state := .runnable, pid := 1, parent := none,
      chan := none, killed := false, name := "initcode", startTicks := ticks, uid := 0, gid := 0,
      cpuTicksTotal := 0, cpuTicksIn := 0, budget := BUDGET, priority := 0 }
  loc := update (fun _ => .free) p (.ready 0)
  promoteAtTime := promoteAtTime
  ticks := ticks
  nextpid := 2
  initproc := some p
  cpu := fun _ => none
  resume := fun _ => .forkret
  task := fun _ => .none

theorem initial_loc (ticks promoteAtTime page : Nat) (p q : ProcPtr) :
    (View.initial ticks promoteAtTime page p).loc q = if q = p then .ready 0 else .free := by
  show update (fun _ => StateList.free) p (.ready 0) q = _
  rw [update_apply]

theorem initial_inv (ticks promoteAtTime page : Nat) (p : ProcPtr) :
    Inv maxPrio (View.initial ticks promoteAtTime page p) := by
  refine ⟨?_, ⟨?_, ?_, ?_, ?_, ?_, ?_, ?_⟩⟩
  · intro q
    simp only [View.initial]
    by_cases hq : q = p
    · subst hq
      rw [update_self, update_self]
      exact ProcOk.placeZero rfl (Int.le_refl 0) (Int.natCast_nonneg maxPrio)
    · rw [update_of_ne hq, update_of_ne hq]
      exact ProcOk.place rfl (Int.le_refl 0) (Int.natCast_nonneg maxPrio) (by simp)
  · intro c q hc
    cases hc
  · intro c c' q hc
    cases hc
  · intro q np hq
    cases hq
  · intro q q' np hq
    cases hq
  · intro q hq
    exact absurd rfl hq
  · exact ⟨p, rfl, Or.inr (Or.inr ⟨0, by simp [View.initial]⟩), by simp [View.initial]⟩
  · intro q
    simp only [View.initial]
    by_cases hq : q = p
    · simp [hq]
    · simp [hq, boot]

/-- `initProcessLists` on lists that are empty already. -/
theorem initProcessLists_spec (hh : ∀ l, s.pLists.head l = none)
    (ht : ∀ l, s.pLists.tail l = none) :
    wp (initProcessLists maxPrio) (fun _ s' => s' = s) (fun _ => False) s := by
  have hupd : ∀ (f : StateList → Option ProcPtr) l, (∀ l, f l = none) → update f l none = f := by
    intro f l hf
    rw [← hf l, update_eq_self]
  have hclr : ∀ f : StateList → Option ProcPtr, (∀ l, f l = none) → cleared f = f := by
    intro f hf
    funext l
    cases l <;> simp [cleared, hf]
  refine wp_seq (forIndex_spec (I := fun _ s' => s' = s) (maxPrio + 1) 0 ?_ rfl) ?_
  · rintro k s₁ _ _ rfl
    rw [wp_modify, hupd _ _ hh, hupd _ _ ht]
  · rintro _ s₁ rfl
    rw [wp_modify, hclr _ hh, hclr _ ht]

/-- `initFreeList` puts the processes on `free` one after the other. -/
theorem initFree_spec : ∀ (ps : List ProcPtr) {s : Kernel} {V : StateList → List ProcPtr},
    Lists s.pLists V → ps.Nodup → (∀ p ∈ ps, ∀ l, p ∉ V l) → (∀ p, (s.proc p).state = .unused) →
    wp (initFree ps) (fun _ s' => ∃ L, Lists L (update V .free (V .free ++ ps)) ∧
      s' = { s with pLists := L }) (fun _ => False) s := by
  intro ps
  induction ps with
  | nil =>
    intro s V hL _ _ _
    exact ⟨s.pLists, by simpa using hL, rfl⟩
  | cons p ps ih =>
    intro s V hL hnd hnew hst
    have hsame : update s.proc p { s.proc p with state := .unused } = s.proc := by
      have hp : ({ s.proc p with state := .unused } : Proc) = s.proc p := by
        rw [← hst p]
      rw [hp, update_eq_self]
    simp only [initFree, wp_bind, wp_setProc, hsame]
    refine wp_post (onLists_spec (stateListAdd_spec hL (hnew p List.mem_cons_self))) ?_
    rintro _ s₁ ⟨L, ⟨_, hL₁⟩, rfl⟩
    obtain ⟨hp, hnd'⟩ := List.nodup_cons.mp hnd
    refine wp_post (ih (s := { s with pLists := L }) hL₁ hnd' ?_ hst) ?_
    · intro q hq l hm
      rcases mem_push.mp hm with h1 | ⟨_, rfl⟩
      · exact hnew q (List.mem_cons_of_mem p hq) l h1
      · exact hp hq
    · rintro _ s' ⟨L', hL', rfl⟩
      refine ⟨L', ?_, rfl⟩
      simpa [push] using hL'

/-- The view before the first process, with every process on `free`. -/
def View.empty (ticks promoteAtTime : Nat) : View :=
  { (boot ticks).view (fun _ => .free) with promoteAtTime := promoteAtTime }

theorem empty_shows (ticks promoteAtTime : Nat) {L : StateLists}
    (hL : Lists L (update (fun _ => []) .free (List.finRange NPROC))) :
    Shows { boot ticks with promoteAtTime := promoteAtTime, pLists := L }
      (View.empty ticks promoteAtTime) := by
  refine ⟨_, hL, ?_, rfl⟩
  intro l p
  show _ ↔ StateList.free = l
  by_cases hl : l = .free
  · subst hl
    simp
  · rw [update_of_ne hl]
    simp [eq_comm, hl]

theorem empty_procs (maxPrio ticks promoteAtTime : Nat) : ∀ p, ProcOk maxPrio
    ((View.empty ticks promoteAtTime).proc p) ((View.empty ticks promoteAtTime).loc p) :=
  fun _ => ProcOk.place rfl (Int.le_refl 0) (Int.natCast_nonneg maxPrio)
    (by simp [View.empty, Kernel.view])

/-- What `startInit` makes of the process `allocproc` found. -/
def View.startInit (A : View) (p : ProcPtr) : View :=
  { A.move p (.ready (A.proc p).priority.toNat) (fun q => { q with
      sz := PGSIZE, name := "initcode", state := .runnable, uid := 0, gid := 0,
      parent := none }) with
    initproc := some p }

theorem startInit_spec (h : Shows s A) {p : ProcPtr} (hp : A.loc p = .embryo)
    (hok : ProcOk maxPrio (A.proc p) (A.loc p)) (hnone : ∀ q k, A.loc q ≠ .ready k) :
    wp (startInit maxPrio p) (fun _ s' => Shows s' (A.startInit p)) (fun _ => False) s := by
  obtain ⟨V, hrep⟩ := h
  have hst : (A.proc p).state = .embryo := by rw [hok.state, hp]; rfl
  have hnn : 0 ≤ (s.proc p).priority := by rw [hrep.proc]; exact hok.nonneg
  have hle : (s.proc p).priority ≤ maxPrio := by rw [hrep.proc]; exact hok.le
  have h₁ := hrep.map (fun s => { s with
      proc := update s.proc p { s.proc p with sz := PGSIZE, name := "initcode" }
      initproc := some p })
    (fun A => { A.assign p (fun q => { q with sz := PGSIZE, name := "initcode" }) with
      initproc := some p }) rfl (fun _ => rfl) rfl
  simp only [startInit, wp_bind, wp_modify, wp_setProc, wp_get, update_self,
    readyList_of_range hnn hle, wp_pure]
  refine wp_post (moveProc_spec h₁ _ _ _ hp (by simpa [View.assign] using hst)) ?_
  intro _ s₂ h₂
  have h₃ := h₂.assign p fun q => { q with uid := 0, gid := 0, parent := none }
  -- alone on its list, `p` has no successor to cut off
  have hV : V (.ready (s.proc p).priority.toNat) = [] := by
    refine List.eq_nil_iff_forall_not_mem.mpr ?_
    intro q hq
    exact hnone q _ ((hrep.mem _ _).mp hq)
  have hlast : shift V p .embryo (.ready (s.proc p).priority.toNat)
      (.ready (s.proc p).priority.toNat) = [] ++ p :: [] := by
    simp [shift, push, pull, hV]
  have hsame : update s₂.pLists.next p none = s₂.pLists.next := by
    have hnext : s₂.pLists.next p = none := h₂.next_eq hlast
    rw [← hnext, update_eq_self]
  rw [hsame]
  exact ⟨_, by simpa [View.startInit, View.move, View.assign, hrep.proc] using h₃⟩

theorem initial_eq (ticks promoteAtTime page : Nat) (p : ProcPtr) :
    ((((View.empty ticks promoteAtTime).take p).furnish p page)).startInit p
      = View.initial ticks promoteAtTime page p := by
  simp [View.empty, View.take, View.furnish, View.resumeAt, View.assign, View.move, View.initial,
    View.startInit, Kernel.view, boot]

theorem userinit_spec (maxPrio ticks page : Nat) :
    wp (userinit maxPrio page) (fun _ s' => ∃ t p, Shows s' (View.initial ticks t page p))
      (fun _ => False) (boot ticks) := by
  unfold userinit
  rw [wp_bind, wp_modify]
  generalize ((boot ticks).ticks + TICKS_TO_PROMOTE) % 2 ^ 32 = t
  refine wp_seq (initProcessLists_spec (fun _ => rfl) (fun _ => rfl)) ?_
  rintro _ s₁ rfl
  have hL₀ : Lists (boot ticks).pLists (fun _ => []) :=
    ⟨fun _ => rfl, fun _ _ h => (by cases h), fun _ _ _ h => (by cases h)⟩
  -- nothing below may compute the list
  generalize hps : List.finRange NPROC = ps
  have hnd : ps.Nodup := hps ▸ List.nodup_finRange NPROC
  refine wp_seq (initFree_spec ps hL₀ hnd (fun _ _ _ => List.not_mem_nil) (fun _ => rfl)) ?_
  rintro _ s₂ ⟨L, hL, rfl⟩
  refine wp_seq (allocproc_spec (empty_shows ticks t (hps ▸ hL)) (empty_procs maxPrio ticks t)) ?_
  rintro (_ | p) s₃ h₃
  · exact absurd rfl (h₃.2 ⟨0, by decide⟩)
  refine wp_seq (allocprocStack_spec h₃.2 p page) ?_
  intro _ s₄ h₄
  have hloc : ∀ q, (((View.empty ticks t).take p).furnish p page).loc q
      = if q = p then .embryo else .free := by
    intro q
    by_cases hq : q = p
    · simp [View.empty, View.take, View.furnish, View.resumeAt, View.assign, View.move, hq]
    · simp [View.empty, View.take, View.furnish, View.resumeAt, View.assign, View.move, hq,
        Kernel.view]
  refine wp_post (startInit_spec h₄ ?_ ?_ ?_) ?_
  · rw [hloc, if_pos rfl]
  · rw [hloc, if_pos rfl]
    simp only [View.take, View.furnish, View.resumeAt, View.assign, View.move, update_self]
    exact ProcOk.place rfl (Int.le_refl 0) (Int.natCast_nonneg maxPrio) (by simp)
  · intro q k
    rw [hloc]
    split <;> simp
  · intro _ s' h'
    exact ⟨t, p, initial_eq ticks t page p ▸ h'⟩

theorem userinit_returns (maxPrio ticks page : Nat) :
    ∃ s, userinit maxPrio page (boot ticks) = .ok ((), s) := by
  obtain ⟨_, s, hs, _⟩ := wp_total (userinit_spec maxPrio ticks page)
  exact ⟨s, hs⟩

/-- A test of the state after `userinit` can be evaluated. -/
theorem userinit_checked (maxPrio : Nat) (f : Kernel → Bool)
    (h : passes (fun r => f r.2) (some (userinit maxPrio 0 (boot 0))) = true) :
    ∃ s, userinit maxPrio 0 (boot 0) = .ok ((), s) ∧ f s = true := by
  obtain ⟨⟨⟨⟩, s⟩, hs, hf⟩ := passes_iff.mp h
  exact ⟨s, Option.some.inj hs, hf⟩

/-- A test of the state at the end of a run can be evaluated. -/
theorem exec_checked (maxPrio : Nat) (as : List Action) (f : Kernel → Bool)
    (h : passes (fun r => (exec maxPrio as r.2).any f) (some (userinit maxPrio 0 (boot 0))) = true) :
    ∃ s, Reachable maxPrio s ∧ f s = true := by
  obtain ⟨s₀, hs₀, hrun⟩ := userinit_checked maxPrio (fun s => (exec maxPrio as s).any f) h
  obtain ⟨s, hs, hf⟩ := (Option.any_eq_true _ _).mp hrun
  exact ⟨s, exec_reachable (.init (by decide) hs₀) hs fun _ _ _ => trivial, hf⟩

/-- The first process forks and waits.  Its child forks twice on CPU 1; one of the
grandchildren runs on CPU 0 and exits. -/
def generations : List Action :=
  let fork (c : Nat) : List Action :=
    [.allocproc c, .kstack c (some 1), .copyuvm c true, .forkReady c]
  [.scheduler 0 0] ++ fork 0 ++ [.scheduler 1 0] ++ fork 1 ++ fork 1 ++
    [.wait 0 0, .scheduler 0 0, .exit 0]

/-- The first process is in `wait`, its child runs, and of the grandchildren one is a
zombie and one is ready. -/
theorem generations_reached : ∃ s, Reachable 1 s ∧
    ((s.proc 0).state = .sleeping ∧ (s.proc 0).chan = some (.proc 0)) ∧
    ((s.proc 1).state = .running ∧ (s.proc 1).parent = some 0) ∧
    ((s.proc 2).state = .zombie ∧ (s.proc 2).parent = some 1) ∧
    (s.proc 3).state = .runnable := by
  obtain ⟨s, hs, hfacts⟩ := exec_checked 1 generations (fun s => decide (
    ((s.proc 0).state = .sleeping ∧ (s.proc 0).chan = some (.proc 0)) ∧
    ((s.proc 1).state = .running ∧ (s.proc 1).parent = some 0) ∧
    ((s.proc 2).state = .zombie ∧ (s.proc 2).parent = some 1) ∧
    (s.proc 3).state = .runnable)) (by decide +kernel)
  exact ⟨s, hs, of_decide_eq_true hfacts⟩

/-! ## Every state -/

/-- Every state of a run shows a view that the machine reaches from an
initial one. -/
theorem ReachableBy.shows (hit : Proc → Prop) {ok : Kernel → Action → Prop} (h : ReachableBy maxPrio ok s)
    (hhit : ∀ s pid, ok s (.kill pid) → ∀ p, (s.proc p).state = .sleeping →
      (s.proc p).pid = pid → hit (s.proc p)) :
    ∃ ticks t page p A, Run maxPrio hit (View.initial ticks t page p) A ∧ Shows s A ∧
      Inv maxPrio A := by
  induction h with
  | @init ticks page s _ hs =>
    obtain ⟨t, p, h'⟩ := wp_of_ok (userinit_spec maxPrio ticks page) hs
    exact ⟨ticks, t, page, p, _, .refl, h', initial_inv ticks t page p⟩
  | @step s s' a _ hok hs ih =>
    obtain ⟨ticks, t, page, p, A, hrun, h, hinv⟩ := ih
    have hkill : ∀ pid, a = .kill pid → ∀ q, A.loc q = .sleep → (A.proc q).pid = pid →
        hit (A.proc q) := by
      rintro pid rfl q hq hpid
      obtain ⟨V, hrep⟩ := h
      rw [← hrep.proc] at hpid ⊢
      refine hhit s pid hok q ?_ hpid
      rw [hrep.proc, (hinv.procs q).state, hq]
      rfl
    obtain ⟨B, hB, h'⟩ := step_run h hinv hs hkill
    exact ⟨ticks, t, page, p, B, hrun.trans hB, h', hB.inv hinv⟩

end Routines

end Xv6Pdx.Ptable
