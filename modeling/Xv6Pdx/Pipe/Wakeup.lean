/-
# `Pipe.Wakeup` — who may sleep on a pipe

A process should sleep in `piperead` only while the pipe is empty and open for
writing, and in `pipewrite` only while it is full and open for reading.  Every
way out of the two loops wakes the other side before it gives up the lock,
except one: a `pipewrite` that has filled the pipe and then finds itself killed,
or without a reader, returns at once, and the bytes it has put in have not been
announced.  `careful` excludes just that, and is exactly what a step needs.
-/
import Xv6Pdx.Pipe.Fifo

namespace Xv6Pdx.Pipe

open Lib RingBuffer

/-- Nobody sleeps who has something to do. -/
structure Alert (s : Sys) : Prop where
  reader : ∀ p n, s.thread p = .reading n true →
    s.pipe.nread = s.pipe.nwrite ∧ s.pipe.writeopen = true
  writer : ∀ p call n rest, s.thread p = .writing call n rest true →
    s.pipe.isFull PIPESIZE UINT ∧ s.pipe.readopen = true

/-- The bytes a stretch of `p` has to store. -/
def toStore (s : Sys) (p : Nat) : Stretch → List UInt8
  | .write addr n => (List.range n.toNat).map addr
  | .read _ => []
  | .resume =>
    match s.thread p with
    | .writing _ _ rest _ => rest
    | _ => []

/-- A process that would give up on a full pipe has no more to store than the
pipe holds while a reader sleeps. -/
def careful (s : Sys) : Action → Prop
  | .run p what _ => (s.killed p = true ∨ s.pipe.readopen = false) →
      (∃ q n, s.thread q = .reading n true) → (toStore s p what).length ≤ PIPESIZE
  | _ => True

section Stretches

variable {s s' s₁ : Sys} {bytes : List UInt8} {p call : Nat} {n : Int} {r : Option Return}

/-- Nothing but the ring buffer and the history changes while bytes are
stored. -/
theorem Stores.frame (hs : Stores call s bytes s') : s'.thread = s.thread ∧
    s'.killed = s.killed ∧ s'.pipe.readopen = s.pipe.readopen ∧
    s'.pipe.writeopen = s.pipe.writeopen := by
  induction hs with
  | done => exact ⟨rfl, rfl, rfl, rfl⟩
  | turn _ _ ih => exact ih

theorem Stores.length (hs : Stores call s bytes s') :
    s'.stored.length = s.stored.length + bytes.length := by
  induction hs with
  | done => rfl
  | turn _ _ ih =>
    rw [ih, Sys.store, List.length_append, List.length_singleton, List.length_cons]
    omega

theorem Stores.full (hs : Stores call s bytes s') (hfull : s.pipe.isFull PIPESIZE UINT) :
    s' = s := by
  cases hs with
  | done => rfl
  | turn hroom _ => exact absurd hfull hroom

/-- An empty pipe takes in at most `PIPESIZE` bytes, and is full after that
many. -/
theorem Stores.fill (hs : Stores call s bytes s') (hq : Queue s) (hempty : s.pipe.isEmpty) :
    bytes.length ≤ PIPESIZE ∧ (s'.pipe.isFull PIPESIZE UINT ↔ bytes.length = PIPESIZE) := by
  have hq' := hs.queue hq
  have heq := congrArg List.length ((hq.isEmpty_iff size_lt).mp hempty)
  have hroom := hq'.room
  rw [hq'.isFull_iff size_lt]
  rw [List.length_map] at heq hroom ⊢
  rw [hs.length, hs.taken, heq] at hroom ⊢
  omega

theorem Takes.thread (ht : Takes s bytes s') : s'.thread = s.thread := by
  induction ht with
  | done => rfl
  | turn _ _ ih => exact ih

theorem full_not_empty (hq : Queue s) (hfull : s.pipe.isFull PIPESIZE UINT) :
    s.pipe.nread ≠ s.pipe.nwrite := by
  intro he
  have hlen := (hq.isFull_iff size_lt).mp hfull
  rw [(hq.isEmpty_iff size_lt).mp he] at hlen
  exact absurd hlen (Nat.ne_of_lt (Nat.lt_add_of_pos_right (by decide)))

/-- After `wakeup` no reader sleeps, and the writers are as they were. -/
theorem wakeReaders_reading (s : Sys) (q : Nat) (m : Int) :
    s.wakeReaders.thread q ≠ .reading m true := by
  simp only [Sys.wakeReaders]
  split
  · simp [Thread.awake]
  · next h => exact h m true

theorem wakeReaders_writing {q k : Nat} {m : Int} {rest : List UInt8}
    (h : s.wakeReaders.thread q = .writing k m rest true) :
    s.thread q = .writing k m rest true := by
  simp only [Sys.wakeReaders] at h
  split at h
  · cases h
  · exact h

theorem wakeWriters_writing (s : Sys) (q k : Nat) (m : Int) (rest : List UInt8) :
    s.wakeWriters.thread q ≠ .writing k m rest true := by
  simp only [Sys.wakeWriters]
  split
  · simp [Thread.awake]
  · next h => exact h k m rest true

theorem wakeWriters_reading {q : Nat} {m : Int} (h : s.wakeWriters.thread q = .reading m true) :
    s.thread q = .reading m true := by
  simp only [Sys.wakeWriters] at h
  split at h
  · cases h
  · exact h

/-- A place in which the process does not sleep leaves the others to check. -/
theorem setThread_sleeper {q : Nat} {t t' : Thread} (h : (s.setThread p t).thread q = t')
    (hne : t ≠ t') : s.thread q = t' := by
  rw [thread_setThread] at h
  split at h
  · exact absurd h hne
  · exact h

theorem Wrote.alert {rest : List UInt8} (hw : Wrote p call n s rest s' r) (hq : Queue s)
    (h : Alert s) (hc : (s.killed p = true ∨ s.pipe.readopen = false) →
      (∃ q m, s.thread q = .reading m true) → rest.length ≤ PIPESIZE) : Alert s' := by
  cases hw with
  | @returns s₁ hs =>
    obtain ⟨hthread, -, -, -⟩ := hs.frame
    refine ⟨?_, ?_⟩
    · intro q m hr
      exact absurd (setThread_sleeper hr (by simp)) (wakeReaders_reading _ q m)
    · intro q k m l hl
      have hl := wakeReaders_writing (setThread_sleeper hl (by simp))
      rw [hthread] at hl
      have hfull := h.writer q k m l hl
      cases hs.full hfull.1
      exact hfull
  | @gaveUp s₁ stored left he hne hs hfull hstop =>
    obtain ⟨hthread, hkilled, hopen, -⟩ := hs.frame
    refine ⟨?_, ?_⟩
    · -- a sleeping reader had an empty pipe, which has been filled
      intro q m hr
      have hr := setThread_sleeper hr (by simp)
      rw [hthread] at hr
      have hfill := hs.fill hq (h.reader q m hr).1
      rw [hkilled, hopen] at hstop
      have hle := hc hstop.symm ⟨q, m, hr⟩
      have hpos := List.length_pos_iff.mpr hne
      rw [he, List.length_append, hfill.2.mp hfull] at hle
      omega
    · intro q k m l hl
      have hl := setThread_sleeper hl (by simp)
      rw [hthread] at hl
      have hw := h.writer q k m l hl
      cases hs.full hw.1
      exact hw
  | sleeps he hs hfull hopen hk =>
    refine ⟨?_, fun _ _ _ _ _ => ⟨hfull, hopen⟩⟩
    intro q m hr
    exact absurd (setThread_sleeper hr (by simp)) (wakeReaders_reading _ q m)

/-- A stretch of `pipewrite` that is not careful ends with a sleeping reader
and a full pipe. -/
theorem Wrote.overlooked {rest : List UInt8} (hw : Wrote p call n s rest s' r) (hq : Queue s)
    (hstop : s.killed p = true ∨ s.pipe.readopen = false) {q : Nat} {m : Int}
    (hr : s.thread q = .reading m true) (hqp : q ≠ p) (hempty : s.pipe.isEmpty)
    (hlong : PIPESIZE < rest.length) : ¬ Alert s' := by
  intro halert
  cases hw with
  | returns hs => exact absurd (hs.fill hq hempty).1 (Nat.not_le.mpr hlong)
  | @gaveUp s₁ stored left he hne hs hfull _ =>
    have hr' : (s₁.setThread p .idle).thread q = .reading m true := by
      rw [thread_setThread, if_neg hqp, hs.frame.1]
      exact hr
    exact full_not_empty (hs.queue hq) hfull (halert.reader q m hr').1
  | sleeps he hs hfull hopen hk =>
    obtain ⟨-, hkilled, hro, -⟩ := hs.frame
    rw [hkilled] at hk
    rw [hro] at hopen
    rcases hstop with hstop | hstop
    · rw [hk] at hstop
      cases hstop
    · rw [hopen] at hstop
      cases hstop

theorem Read.alert (hr : Read p n s s' r) (h : Alert s) : Alert s' := by
  cases hr with
  | gaveUp =>
    refine ⟨?_, ?_⟩
    · intro q m hq
      exact h.reader q m (setThread_sleeper hq (by simp))
    · intro q k m l hq
      exact h.writer q k m l (setThread_sleeper hq (by simp))
  | sleeps hempty hopen =>
    refine ⟨fun _ _ _ => ⟨hempty, hopen⟩, ?_⟩
    intro q k m l hq
    exact h.writer q k m l (setThread_sleeper hq (by simp))
  | @returns s₁ bytes hopen ht _ _ =>
    refine ⟨?_, ?_⟩
    · -- nobody else can have been asleep over bytes, or with no writer left
      intro q m hq
      have hq := wakeWriters_reading (setThread_sleeper hq (by simp))
      rw [ht.thread] at hq
      obtain ⟨hempty, hw⟩ := h.reader q m hq
      rw [hopen hempty] at hw
      cases hw
    · intro q k m l hq
      exact absurd (setThread_sleeper hq (by simp)) (wakeWriters_writing _ q k m l)

end Stretches

/-! ## Every run -/

section Runs

variable {s s' : Sys} {a : Action} {r : Option Return}

theorem Alert.mark (s : Sys) (p : Nat) (late : Bool) : Alert (s.mark p late) ↔ Alert s := by
  cases late
  · exact Iff.rfl
  · exact ⟨fun h => ⟨h.reader, h.writer⟩, fun h => ⟨h.reader, h.writer⟩⟩

theorem Alert.pipeclose (h : Alert s) (writable : Bool) : Alert (s.pipeclose writable) := by
  obtain ⟨freed, he⟩ := pipeclose_eq s writable
  rw [he]
  cases writable
  · refine ⟨?_, ?_⟩
    · intro q m hq
      exact h.reader q m (wakeWriters_reading hq)
    · intro q k m l hq
      exact absurd hq (wakeWriters_writing _ q k m l)
  · refine ⟨?_, ?_⟩
    · intro q m hq
      exact absurd hq (wakeReaders_reading _ q m)
    · intro q k m l hq
      exact h.writer q k m l (wakeReaders_writing hq)

theorem Alert.kill (h : Alert s) (p : Nat) : Alert (s.kill p) := by
  have hawake : ∀ q, (s.kill p).thread q = s.thread q ∨
      (s.kill p).thread q = (s.thread q).awake := by
    intro q
    rcases eq_or_ne q p with rfl | hq
    · exact .inr (Function.update_self ..)
    · exact .inl (Function.update_of_ne hq ..)
  refine ⟨?_, ?_⟩
  · intro q m hq
    rcases hawake q with hsame | hwoken
    · exact h.reader q m (hsame ▸ hq)
    · rw [hwoken] at hq
      cases ht : s.thread q <;> rw [ht] at hq <;> cases hq
  · intro q k m l hq
    rcases hawake q with hsame | hwoken
    · exact h.writer q k m l (hsame ▸ hq)
    · rw [hwoken] at hq
      cases ht : s.thread q <;> rw [ht] at hq <;> cases hq

/-- From a state in which nobody is overlooked, the careful steps are those
after which nobody is. -/
theorem Steps.alert_iff (hs : Steps s a s' r) (hq : Queue s) (h : Alert s) :
    Alert s' ↔ careful s a := by
  cases hs with
  | @write p addr n late s₁ _ hidle hw =>
    rw [Alert.mark]
    refine ⟨?_, ?_⟩
    · rintro halert hstop ⟨q, m, hr⟩
      refine Nat.not_lt.mp fun hlong => ?_
      exact hw.overlooked (hq.same ⟨rfl, rfl, rfl⟩) hstop hr
        (by rintro rfl; rw [hidle] at hr; cases hr) (h.reader q m hr).1 hlong halert
    · intro hc
      exact hw.alert (hq.same ⟨rfl, rfl, rfl⟩) ⟨h.reader, h.writer⟩ hc
  | read _ hr =>
    rw [Alert.mark]
    exact ⟨fun _ _ _ => Nat.zero_le _, fun _ => hr.alert h⟩
  | @resumeWrite p call n rest late s₁ _ ht hw =>
    have hrest : toStore s p .resume = rest := by rw [toStore, ht]
    rw [Alert.mark, careful, hrest]
    refine ⟨?_, ?_⟩
    · rintro halert hstop ⟨q, m, hr⟩
      refine Nat.not_lt.mp fun hlong => ?_
      exact hw.overlooked hq hstop hr (by rintro rfl; rw [ht] at hr; cases hr)
        (h.reader q m hr).1 hlong halert
    · intro hc
      exact hw.alert hq h hc
  | @resumeRead p n late s₁ _ ht hr =>
    have hrest : toStore s p .resume = [] := by rw [toStore, ht]
    rw [Alert.mark, careful, hrest]
    exact ⟨fun _ _ _ => Nat.zero_le _, fun _ => hr.alert h⟩
  | close writable => exact ⟨fun _ => trivial, fun _ => h.pipeclose writable⟩
  | kill p => exact ⟨fun _ => trivial, fun _ => h.kill p⟩

theorem ReachableBy.alert (h : ReachableBy careful s) : Alert s := by
  induction h with
  | init data => exact ⟨fun _ _ h => (by cases h), fun _ _ _ _ h => (by cases h)⟩
  | step hprev hc hstep ih => exact ((step_steps hstep).alert_iff hprev.queue.1 ih).mpr hc

/-- Along a run of careful steps nobody sleeps in `piperead` or `pipewrite` without reason, and
a step that is not careful ends that. -/
theorem reachable_alert (h : ReachableBy careful s) : (∀ p n, s.thread p = .reading n true →
      ¬ (s.pipe.nread ≠ s.pipe.nwrite ∨ s.pipe.writeopen = false)) ∧
    (∀ p call n rest, s.thread p = .writing call n rest true →
      ¬ (¬ s.pipe.isFull PIPESIZE UINT ∨ s.pipe.readopen = false)) ∧
    ∀ a s' r, step s a = some (s', r) → (Alert s' ↔ careful s a) := by
  have halert := h.alert
  refine ⟨?_, ?_, ?_⟩
  · intro p n hr
    simp [halert.reader p n hr]
  · intro p call n rest hw
    simp [halert.writer p call n rest hw]
  · intro a s' r hstep
    exact (step_steps hstep).alert_iff h.queue.1 halert

end Runs

/-- A reader of a fresh pipe sleeps over nothing. -/
theorem read_alert : ∃ s r, step (pipealloc fun _ => 0) (.run 0 (.read 1) false) = some (s, r) ∧
    s.thread 0 = .reading 1 true ∧
    ¬ (s.pipe.nread ≠ s.pipe.nwrite ∨ s.pipe.writeopen = false) := by
  have h : (step (pipealloc fun _ => 0) (.run 0 (.read 1) false)).map (fun x => x.1.thread 0)
      = some (.reading 1 true) := by decide +kernel
  obtain ⟨⟨s, r⟩, hs, ht⟩ := Option.map_eq_some_iff.mp h
  have hc : careful (pipealloc fun _ => 0) (.run 0 (.read 1) false) := fun _ _ => Nat.zero_le _
  exact ⟨s, r, hs, ht, (reachable_alert (.step (.init _) hc hs)).1 0 1 ht⟩

/-! ## The step that is not careful -/

/-- Several steps. -/
def exec (s : Sys) : List Action → Option Sys
  | [] => some s
  | a :: as => (step s a).bind fun (s', _) => exec s' as

theorem exec_reachable {s s' : Sys} {as : List Action} (h : Reachable s)
    (he : exec s as = some s') : Reachable s' := by
  induction as generalizing s with
  | nil =>
    cases he
    exact h
  | cons a as ih =>
    obtain ⟨⟨s₁, r⟩, hs, he⟩ := Option.bind_eq_some_iff.mp he
    exact ih (.step h trivial hs) he

/-- A process reads from the empty pipe; another, killed in its write of one
byte more than the pipe holds, gives up. -/
def killedWrite : List Action :=
  [.run 0 (.read 1) false, .kill 1, .run 1 (.write (fun _ => 7) 513) false]

/-- The reader is still asleep, with the pipe full and open. -/
theorem kill_loses_wakeup : ∃ s, exec (pipealloc fun _ => 0) killedWrite = some s ∧
    Reachable s ∧ s.thread 0 = .reading 1 true ∧ s.thread 1 = .idle ∧
    s.pipe.nread = 0 ∧ s.pipe.nwrite = 512 ∧ s.pipe.writeopen = true := by
  have h : (exec (pipealloc fun _ => 0) killedWrite).map
      (fun s => (s.thread 0, s.thread 1, s.pipe.nread, s.pipe.nwrite, s.pipe.writeopen))
      = some (.reading 1 true, .idle, 0, 512, true) := by decide +kernel
  obtain ⟨s, hs, ht⟩ := Option.map_eq_some_iff.mp h
  simp only [Prod.mk.injEq] at ht
  exact ⟨s, hs, exec_reachable (.init _) hs, ht⟩

end Xv6Pdx.Pipe
