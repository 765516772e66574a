/-
# `Pipe.Fifo` — what comes out of a pipe is what went in, in order

Two invariants of every run.  `Queue`: the ring buffer holds what has been
stored and not yet taken, whatever the two counters have wrapped around to.
`Calls`: what a call of `pipewrite` has stored is the first part of what it was
given, and a call that is asleep in the middle still has exactly the rest to
store.
-/
import Xv6Pdx.Pipe.Model

namespace Xv6Pdx.Pipe

open Lib RingBuffer
open Function (update update_self update_of_ne update_eq_self update_apply)

def Sys.storedBy (s : Sys) (k : Nat) : List UInt8 :=
  s.stored.filterMap fun x => if x.1 = k then some x.2 else none

/-- The pipe is a queue of the bytes stored and not taken. -/
def Queue (s : Sys) : Prop :=
  Holds PIPESIZE UINT s.pipe.toRingBuffer s.taken (s.stored.map Prod.snd)

/-- The call of `pipewrite` a process is in. -/
def Thread.call : Thread → Option Nat
  | .writing call _ _ _ => some call
  | _ => none

/-- Where the calls of `pipewrite` are. -/
structure Calls (s : Sys) : Prop where
  known : ∀ x ∈ s.stored, x.1 < s.calls
  order : ∀ k, s.storedBy k <+: s.buffer k
  pending : ∀ p call n rest asleep, s.thread p = .writing call n rest asleep →
    call < s.calls ∧ s.storedBy call ++ rest = s.buffer call
  own : ∀ p q call, (s.thread p).call = some call → (s.thread q).call = some call → p = q

theorem size_dvd : PIPESIZE ∣ UINT := by decide

theorem size_lt : PIPESIZE < UINT := by decide

/-! ## The queue -/

section Queue

variable {s s' : Sys} {bytes : List UInt8}

theorem Queue.store (h : Queue s) (hroom : ¬ s.pipe.isFull PIPESIZE UINT) (call : Nat)
    (b : UInt8) : Queue (s.store call b) := by
  have hlt := Nat.lt_of_le_of_ne h.room (mt (h.isFull_iff size_lt).mpr hroom)
  have hpush := h.push size_dvd hlt b
  rw [Queue, Sys.store, List.map_append]
  exact hpush

theorem Queue.takeOut (h : Queue s) (hne : ¬ s.pipe.isEmpty) : Queue s.takeOut := by
  refine h.pop size_dvd (Nat.lt_of_le_of_ne h.length_le ?_)
  intro he
  exact hne ((h.isEmpty_iff size_lt).mpr (h.order.eq_of_length he))

theorem Stores.queue {call : Nat} (hs : Stores call s bytes s') (h : Queue s) : Queue s' := by
  induction hs with
  | done => exact h
  | turn hroom _ ih => exact ih (h.store hroom call _)

theorem Takes.queue (hs : Takes s bytes s') (h : Queue s) : Queue s' := by
  induction hs with
  | done => exact h
  | turn hne _ ih => exact ih (h.takeOut hne)

/-- Taking bytes out appends them to what has been taken. -/
theorem Takes.taken (hs : Takes s bytes s') : s'.taken = s.taken ++ bytes := by
  induction hs with
  | done => exact (List.append_nil _).symm
  | turn _ _ ih => rw [ih, Sys.takeOut, List.append_assoc]; rfl

theorem Stores.taken {call : Nat} (hs : Stores call s bytes s') : s'.taken = s.taken := by
  induction hs with
  | done => rfl
  | turn _ _ ih => exact ih

/-- What `Queue` speaks of is left alone. -/
structure SameData (s s' : Sys) : Prop where
  ring : s'.pipe.toRingBuffer = s.pipe.toRingBuffer
  stored : s'.stored = s.stored
  taken : s'.taken = s.taken

theorem Queue.same (h : Queue s) (hs : SameData s s') : Queue s' := by
  rw [Queue, hs.ring, hs.stored, hs.taken]
  exact h

theorem mark_same (s : Sys) (p : Nat) (late : Bool) : SameData s (s.mark p late) := by
  cases late
  · exact ⟨rfl, rfl, rfl⟩
  · exact ⟨rfl, rfl, rfl⟩

theorem pipeclose_same (s : Sys) (writable : Bool) : SameData s (s.pipeclose writable) := by
  obtain ⟨freed, he⟩ := pipeclose_eq s writable
  rw [he]
  cases writable
  · exact ⟨rfl, rfl, rfl⟩
  · exact ⟨rfl, rfl, rfl⟩

end Queue

/-! ## The calls -/

section Calls

variable {s s' : Sys} {bytes : List UInt8} {p call : Nat} {n : Int}

@[simp] theorem storedBy_store (s : Sys) (call : Nat) (b : UInt8) (k : Nat) :
    (s.store call b).storedBy k = s.storedBy k ++ if call = k then [b] else [] := by
  simp only [Sys.storedBy, Sys.store, List.filterMap_append]
  split
  · next h => simp [h]
  · next h => simp [h]

/-- No call has been added, and none is further on than before. -/
structure SameCalls (s s' : Sys) : Prop where
  stored : s'.stored = s.stored
  calls : s'.calls = s.calls
  buffer : s'.buffer = s.buffer
  thread : ∀ p call n rest asleep, s'.thread p = .writing call n rest asleep →
    ∃ was, s.thread p = .writing call n rest was

theorem SameCalls.inCall (hs : SameCalls s s') {p call : Nat} (h : (s'.thread p).call = some call) :
    (s.thread p).call = some call := by
  cases ht : s'.thread p with
  | writing c n rest asleep =>
    obtain ⟨was, hwas⟩ := hs.thread p c n rest asleep ht
    rw [ht] at h
    rw [hwas]
    exact h
  | idle =>
    rw [ht] at h
    cases h
  | reading n asleep =>
    rw [ht] at h
    cases h

theorem Calls.same (h : Calls s) (hs : SameCalls s s') : Calls s' := by
  have hby : s'.storedBy = s.storedBy := by
    funext k
    rw [Sys.storedBy, hs.stored]
    rfl
  refine ⟨?_, ?_, ?_, ?_⟩
  · rw [hs.stored, hs.calls]
    exact h.known
  · rw [hby, hs.buffer]
    exact h.order
  · intro p call n rest asleep ht
    obtain ⟨was, hwas⟩ := hs.thread p call n rest asleep ht
    rw [hby, hs.buffer, hs.calls]
    exact h.pending p call n rest was hwas
  · intro p q call hp hq
    exact h.own p q call (hs.inCall hp) (hs.inCall hq)

theorem awake_writing {t : Thread} {rest : List UInt8} {asleep : Bool}
    (h : t.awake = .writing call n rest asleep) : ∃ was, t = .writing call n rest was := by
  cases t with
  | writing c m l was =>
    cases h
    exact ⟨was, rfl⟩
  | idle => cases h
  | reading m was => cases h

theorem wakeReaders_same (s : Sys) : SameCalls s s.wakeReaders := by
  refine ⟨rfl, rfl, rfl, ?_⟩
  intro p call n rest asleep ht
  simp only [Sys.wakeReaders] at ht
  split at ht
  · cases ht
  · exact ⟨asleep, ht⟩

theorem wakeWriters_same (s : Sys) : SameCalls s s.wakeWriters := by
  refine ⟨rfl, rfl, rfl, ?_⟩
  intro p call n rest asleep ht
  simp only [Sys.wakeWriters] at ht
  split at ht
  · next hw =>
    rw [hw]
    exact awake_writing ht
  · exact ⟨asleep, ht⟩

theorem kill_same (s : Sys) (p : Nat) : SameCalls s (s.kill p) := by
  refine ⟨rfl, rfl, rfl, ?_⟩
  intro q call n rest asleep ht
  simp only [Sys.kill] at ht
  rcases eq_or_ne q p with rfl | hq
  · rw [update_self] at ht
    exact awake_writing ht
  · rw [update_of_ne hq] at ht
    exact ⟨asleep, ht⟩

theorem SameCalls.refl (s : Sys) : SameCalls s s := ⟨rfl, rfl, rfl, fun _ _ _ _ a h => ⟨a, h⟩⟩

/-- Going from one place to another that is not further on in `pipewrite`. -/
theorem SameCalls.setThread (hs : SameCalls s s') (p : Nat) (t t' : Thread)
    (hto : ∀ call n rest asleep, t' = .writing call n rest asleep →
      ∃ was, t = .writing call n rest was) :
    SameCalls (s.setThread p t) (s'.setThread p t') := by
  refine ⟨hs.stored, hs.calls, hs.buffer, ?_⟩
  intro q call n rest asleep ht
  simp only [Sys.setThread] at ht ⊢
  rcases eq_or_ne q p with rfl | hq
  · rw [update_self] at ht ⊢
    exact hto call n rest asleep ht
  · rw [update_of_ne hq] at ht ⊢
    exact hs.thread q call n rest asleep ht

theorem setThread_self (s : Sys) (p : Nat) : s.setThread p (s.thread p) = s := by
  rw [Sys.setThread, update_eq_self]

theorem SameCalls.leave (hs : SameCalls s s') (p : Nat) {t : Thread}
    (hout : ∀ call n rest asleep, t ≠ .writing call n rest asleep) :
    SameCalls s (s'.setThread p t) := by
  have h := hs.setThread p (s.thread p) t
    fun call n rest asleep ht => absurd ht (hout call n rest asleep)
  rwa [setThread_self] at h

theorem thread_setThread (s : Sys) (p q : Nat) (t : Thread) :
    (s.setThread p t).thread q = if q = p then t else s.thread q := update_apply ..

theorem Calls.store {b : UInt8} {rest : List UInt8} {a : Bool}
    (h : Calls (s.setThread p (.writing call n (b :: rest) a))) :
    Calls ((s.store call b).setThread p (.writing call n rest a)) := by
  have hp : (s.setThread p (.writing call n (b :: rest) a)).thread p
      = .writing call n (b :: rest) a := update_self ..
  obtain ⟨hknown, hbuf⟩ := h.pending p call n (b :: rest) a hp
  have hcall : ∀ q, (((s.store call b).setThread p (.writing call n rest a)).thread q).call
      = ((s.setThread p (.writing call n (b :: rest) a)).thread q).call := by
    intro q
    rw [thread_setThread, thread_setThread]
    split <;> rfl
  refine ⟨?_, ?_, ?_, ?_⟩
  · intro x hx
    rcases List.mem_append.mp hx with hx | hx
    · exact h.known x hx
    · rw [List.mem_singleton.mp hx]
      exact hknown
  · intro k
    show (s.store call b).storedBy k <+: s.buffer k
    rw [storedBy_store]
    split
    · next he => exact ⟨rest, by rw [← he, List.append_assoc]; exact hbuf⟩
    · rw [List.append_nil]
      exact h.order k
  · intro q k m l a' hq
    show k < s.calls ∧ (s.store call b).storedBy k ++ l = s.buffer k
    have hk := hcall q
    rw [thread_setThread] at hq
    rw [storedBy_store]
    split at hq
    · cases hq
      rw [if_pos rfl, List.append_assoc]
      exact ⟨hknown, hbuf⟩
    · next hne =>
      have hq' : (s.setThread p (.writing call n (b :: rest) a)).thread q = .writing k m l a' := by
        rw [thread_setThread, if_neg hne]
        exact hq
      rw [if_neg, List.append_nil]
      · exact h.pending q k m l a' hq'
      · -- two processes are never in one call
        intro he
        exact hne (h.own q p k (by rw [hq']; rfl) (by rw [hp, ← he]; rfl))
  · intro q r k hq hr
    rw [hcall] at hq hr
    exact h.own q r k hq hr

theorem Stores.calls {left : List UInt8} {a : Bool} (hs : Stores call s bytes s')
    (h : Calls (s.setThread p (.writing call n (bytes ++ left) a))) :
    Calls (s'.setThread p (.writing call n left a)) := by
  induction hs with
  | done => exact h
  | turn _ _ ih => exact ih h.store

theorem Wrote.calls {rest : List UInt8} {r : Option Return} (hw : Wrote p call n s rest s' r)
    (h : Calls (s.setThread p (.writing call n rest true))) : Calls s' := by
  cases hw with
  | returns hs =>
    rw [← List.append_nil rest] at h
    exact (hs.calls h).same ((wakeReaders_same _).setThread p _ _ (by simp))
  | gaveUp he _ hs _ _ =>
    rw [he] at h
    exact (hs.calls h).same ((SameCalls.refl _).setThread p _ _ (by simp))
  | sleeps he hs _ _ _ =>
    rw [he] at h
    exact (hs.calls h).same ((wakeReaders_same _).setThread p _ _
      fun call n rest asleep ht => ⟨asleep, ht⟩)

theorem Takes.calls (ht : Takes s bytes s') : SameCalls s s' := by
  induction ht with
  | done s => exact .refl s
  | turn _ _ ih => exact ⟨ih.stored, ih.calls, ih.buffer, ih.thread⟩

theorem Read.calls {r : Option Return} (hr : Read p n s s' r) (h : Calls s) : Calls s' := by
  cases hr with
  | gaveUp => exact h.same ((SameCalls.refl s).leave p (by simp))
  | sleeps _ _ => exact h.same ((SameCalls.refl s).leave p (by simp))
  | returns _ ht _ _ =>
    exact (h.same ht.calls).same ((wakeWriters_same _).leave p (by simp))

theorem Calls.begin (h : Calls s) :
    Calls ((s.begin bytes).setThread p (.writing s.calls n bytes true)) := by
  have hnone : s.storedBy s.calls = [] := by
    refine List.filterMap_eq_nil_iff.mpr ?_
    intro x hx
    exact if_neg (Nat.ne_of_lt (h.known x hx))
  have hold : ∀ q k, (s.thread q).call = some k → k < s.calls := by
    intro q k hq
    cases ht : s.thread q with
    | writing c m rest a =>
      rw [ht] at hq
      cases hq
      exact (h.pending q _ m rest a ht).1
    | idle => rw [ht] at hq; cases hq
    | reading m a => rw [ht] at hq; cases hq
  refine ⟨?_, ?_, ?_, ?_⟩
  · intro x hx
    exact Nat.lt_succ_of_lt (h.known x hx)
  · intro k
    show s.storedBy k <+: update s.buffer s.calls bytes k
    rcases eq_or_ne k s.calls with rfl | hk
    · rw [hnone]
      exact List.nil_prefix
    · rw [update_of_ne hk]
      exact h.order k
  · intro q k m rest a hq
    show k < s.calls + 1 ∧ s.storedBy k ++ rest = update s.buffer s.calls bytes k
    rw [thread_setThread] at hq
    split at hq
    · cases hq
      rw [hnone, update_self]
      exact ⟨Nat.lt_succ_self _, rfl⟩
    · obtain ⟨hlt, hbuf⟩ := h.pending q k m rest a hq
      rw [update_of_ne (Nat.ne_of_lt hlt)]
      exact ⟨Nat.lt_succ_of_lt hlt, hbuf⟩
  · intro q r k hq hr
    rw [thread_setThread] at hq hr
    split at hq
    · next heq =>
      split at hr
      · next her => rw [heq, her]
      · cases hq
        exact absurd (hold r _ hr) (Nat.lt_irrefl _)
    · split at hr
      · cases hr
        exact absurd (hold q _ hq) (Nat.lt_irrefl _)
      · exact h.own q r k hq hr

end Calls

/-! ## Every run -/

section Runs

variable {s s' : Sys} {a : Action} {r : Option Return}

theorem Wrote.queue {p call : Nat} {n : Int} {rest : List UInt8}
    (hw : Wrote p call n s rest s' r) (h : Queue s) : Queue s' := by
  cases hw with
  | returns hs => exact (hs.queue h).same ⟨rfl, rfl, rfl⟩
  | gaveUp _ _ hs _ _ => exact (hs.queue h).same ⟨rfl, rfl, rfl⟩
  | sleeps _ hs _ _ _ => exact (hs.queue h).same ⟨rfl, rfl, rfl⟩

theorem Read.queue {p : Nat} {n : Int} (hr : Read p n s s' r) (h : Queue s) : Queue s' := by
  cases hr with
  | gaveUp => exact h.same ⟨rfl, rfl, rfl⟩
  | sleeps _ _ => exact h.same ⟨rfl, rfl, rfl⟩
  | returns _ ht _ _ => exact (ht.queue h).same ⟨rfl, rfl, rfl⟩

theorem Steps.queue (hs : Steps s a s' r) (h : Queue s) : Queue s' := by
  cases hs with
  | write _ hw => exact (hw.queue (h.same ⟨rfl, rfl, rfl⟩)).same (mark_same _ _ _)
  | read _ hr => exact (hr.queue h).same (mark_same _ _ _)
  | resumeWrite _ hw => exact (hw.queue h).same (mark_same _ _ _)
  | resumeRead _ hr => exact (hr.queue h).same (mark_same _ _ _)
  | close writable => exact h.same (pipeclose_same s writable)
  | kill p => exact h.same ⟨rfl, rfl, rfl⟩

theorem mark_calls (s : Sys) (p : Nat) (late : Bool) : SameCalls s (s.mark p late) := by
  cases late
  · exact .refl s
  · exact ⟨rfl, rfl, rfl, fun _ _ _ _ a h => ⟨a, h⟩⟩

theorem pipeclose_calls (s : Sys) (writable : Bool) : SameCalls s (s.pipeclose writable) := by
  obtain ⟨freed, he⟩ := pipeclose_eq s writable
  rw [he]
  cases writable
  · have hw := wakeWriters_same { s with pipe := { s.pipe with readopen := false } }
    exact ⟨rfl, rfl, rfl, hw.thread⟩
  · have hr := wakeReaders_same { s with pipe := { s.pipe with writeopen := false } }
    exact ⟨rfl, rfl, rfl, hr.thread⟩

theorem Steps.calls (hs : Steps s a s' r) (h : Calls s) : Calls s' := by
  cases hs with
  | write _ hw => exact (hw.calls h.begin).same (mark_calls _ _ _)
  | read _ hr => exact (hr.calls h).same (mark_calls _ _ _)
  | @resumeWrite p call n rest late s₁ _ ht hw =>
    have hturn : Calls (s.setThread p (.writing call n rest true)) :=
      h.same (by
        have hself := (SameCalls.refl s).setThread p (s.thread p)
          (.writing call n rest true) (by intro c m l b he; cases he; exact ⟨_, ht⟩)
        rwa [setThread_self] at hself)
    exact (hw.calls hturn).same (mark_calls _ _ _)
  | resumeRead _ hr => exact (hr.calls h).same (mark_calls _ _ _)
  | close writable => exact h.same (pipeclose_calls s writable)
  | kill p => exact h.same (kill_same s p)

theorem ReachableBy.queue {ok : Sys → Action → Prop} (h : ReachableBy ok s) :
    Queue s ∧ Calls s := by
  induction h with
  | init data =>
    refine ⟨⟨rfl, rfl, List.nil_prefix, Nat.zero_le _, ?_⟩, ⟨?_, ?_, ?_, ?_⟩⟩
    · intro i _ hi
      exact absurd hi (Nat.not_lt_zero i)
    · intro x hx
      cases hx
    · intro k
      exact List.nil_prefix
    · intro p call n rest asleep ht
      cases ht
    · intro p q call hp
      cases hp
  | step _ _ hstep ih =>
    have hs := step_steps hstep
    exact ⟨hs.queue ih.1, hs.calls ih.2⟩

theorem Wrote.taken {p call : Nat} {n : Int} {rest : List UInt8}
    (hw : Wrote p call n s rest s' r) : s'.taken = s.taken ++ (r.elim [] Return.bytes) := by
  cases hw with
  | returns hs => exact hs.taken.trans (List.append_nil _).symm
  | gaveUp _ _ hs _ _ => exact hs.taken.trans (List.append_nil _).symm
  | sleeps _ hs _ _ _ => exact hs.taken.trans (List.append_nil _).symm

theorem Read.taken {p : Nat} {n : Int} (hr : Read p n s s' r) :
    s'.taken = s.taken ++ (r.elim [] Return.bytes) := by
  cases hr with
  | gaveUp => exact (List.append_nil _).symm
  | sleeps _ _ => exact (List.append_nil _).symm
  | returns _ ht _ _ => exact ht.taken

theorem Steps.taken (hs : Steps s a s' r) : s'.taken = s.taken ++ (r.elim [] Return.bytes) := by
  cases hs with
  | write _ hw => rw [(mark_same _ _ _).taken]; exact hw.taken
  | read _ hr => rw [(mark_same _ _ _).taken]; exact hr.taken
  | resumeWrite _ hw => rw [(mark_same _ _ _).taken]; exact hw.taken
  | resumeRead _ hr => rw [(mark_same _ _ _).taken]; exact hr.taken
  | close writable => rw [(pipeclose_same _ _).taken]; exact (List.append_nil _).symm
  | kill p => exact (List.append_nil _).symm

theorem Stores.stored {call : Nat} {bytes : List UInt8} (hs : Stores call s bytes s') :
    s.stored <+: s'.stored := by
  induction hs with
  | done => exact List.prefix_rfl
  | turn _ _ ih => exact (List.prefix_append _ _).trans ih

theorem Wrote.stored {p call : Nat} {n : Int} {rest : List UInt8}
    (hw : Wrote p call n s rest s' r) : s.stored <+: s'.stored := by
  cases hw with
  | returns hs => exact hs.stored
  | gaveUp _ _ hs _ _ => exact hs.stored
  | sleeps _ hs _ _ _ => exact hs.stored

theorem Read.stored {p : Nat} {n : Int} (hr : Read p n s s' r) : s'.stored = s.stored := by
  cases hr with
  | gaveUp => rfl
  | sleeps _ _ => rfl
  | returns _ ht _ _ => exact ht.calls.stored

theorem Steps.stored (hs : Steps s a s' r) : s.stored <+: s'.stored := by
  cases hs with
  | write _ hw => rw [(mark_same _ _ _).stored]; exact hw.stored
  | read _ hr =>
    rw [(mark_same _ _ _).stored]
    exact hr.stored ▸ List.prefix_refl _
  | resumeWrite _ hw => rw [(mark_same _ _ _).stored]; exact hw.stored
  | resumeRead _ hr =>
    rw [(mark_same _ _ _).stored]
    exact hr.stored ▸ List.prefix_refl _
  | close writable =>
    have he := (pipeclose_same s writable).stored
    exact he ▸ List.prefix_refl _
  | kill p => exact List.prefix_rfl

/-- What the value returned by `piperead` says. -/
structure ReadReturn (s' : Sys) (n value : Int) (bytes : List UInt8) : Prop where
  count : value = -1 ∧ bytes = [] ∨ value = bytes.length
  le : value ≤ max n 0
  zero : 0 < n → value = 0 → s'.pipe.nread = s'.pipe.nwrite ∧ s'.pipe.writeopen = false

theorem Read.return {p : Nat} {n m value : Int} {bytes : List UInt8} (hr : Read p n s s' r)
    (h : r = some (.read m value bytes)) : ReadReturn s' m value bytes := by
  cases hr with
  | gaveUp =>
    cases h
    exact ⟨.inl ⟨rfl, rfl⟩, by omega, fun _ h0 => absurd h0 (by decide)⟩
  | sleeps _ _ => cases h
  | @returns s₁ l hopen ht hle hempty =>
    cases h
    refine ⟨.inr rfl, by omega, ?_⟩
    intro hn h0
    have hnil : bytes = [] := List.eq_nil_of_length_eq_zero (Int.ofNat_eq_zero.mp h0)
    subst hnil
    cases ht
    have he := hempty (by simpa using hn)
    exact ⟨he, hopen he⟩

theorem Wrote.return {p call : Nat} {n m value : Int} {rest bytes : List UInt8}
    (hw : Wrote p call n s rest s' r) : r ≠ some (.read m value bytes) := by
  cases hw <;> simp

theorem ReadReturn.mark {n value : Int} {bytes : List UInt8} (h : ReadReturn s n value bytes)
    (p : Nat) (late : Bool) : ReadReturn (s.mark p late) n value bytes := by
  cases late
  · exact h
  · exact ⟨h.count, h.le, h.zero⟩

theorem Steps.return {n value : Int} {bytes : List UInt8} (hs : Steps s a s' r)
    (h : r = some (.read n value bytes)) : ReadReturn s' n value bytes := by
  cases hs with
  | write _ hw => exact absurd h hw.return
  | read _ hr => exact (hr.return h).mark _ _
  | resumeWrite _ hw => exact absurd h hw.return
  | resumeRead _ hr => exact (hr.return h).mark _ _
  | close writable => cases h
  | kill p => cases h

/-- What has been taken out, followed by what is in the pipe, is what has been stored; and
what a call has stored is the first part of what it was given. -/
theorem reachable_fifo (h : Reachable s) :
    s.taken ++ s.pipe.contents PIPESIZE UINT = s.stored.map Prod.snd ∧
    (s.pipe.contents PIPESIZE UINT).length ≤ PIPESIZE ∧
    (∀ k, s.storedBy k <+: s.buffer k) ∧
    ∀ a s' r, step s a = some (s', r) →
      s.stored <+: s'.stored ∧ s'.taken = s.taken ++ r.elim [] Return.bytes ∧
      ∀ n value bytes, r = some (.read n value bytes) →
        (value = -1 ∧ bytes = [] ∨ value = bytes.length) ∧ value ≤ max n 0 ∧
        (0 < n → value = 0 → s'.pipe.nread = s'.pipe.nwrite ∧ s'.pipe.writeopen = false) := by
  obtain ⟨hqueue, hcalls⟩ := h.queue
  have hcont := hqueue.contents size_dvd size_lt
  refine ⟨hcont, ?_, hcalls.order, ?_⟩
  · have hroom := hqueue.room
    rw [← hcont, List.length_append] at hroom
    exact Nat.le_of_add_le_add_left hroom
  · intro a s' r hstep
    have hs := step_steps hstep
    refine ⟨hs.stored, hs.taken, ?_⟩
    intro n value bytes hr
    have hret := hs.return hr
    exact ⟨hret.count, hret.le, hret.zero⟩

end Runs

/-- Two bytes written to a fresh pipe are in it. -/
theorem write_fifo : ∃ s r, step (pipealloc fun _ => 0) (.run 1 (.write (fun _ => 7) 2) false)
      = some (s, r) ∧ s.taken ++ s.pipe.contents PIPESIZE UINT = [7, 7] := by
  have h : (step (pipealloc fun _ => 0) (.run 1 (.write (fun _ => 7) 2) false)).map
      (fun x => x.1.stored.map Prod.snd) = some [7, 7] := by decide +kernel
  obtain ⟨⟨s, r⟩, hs, hstored⟩ := Option.map_eq_some_iff.mp h
  exact ⟨s, r, hs, ((reachable_fifo (.step (.init _) trivial hs)).1).trans hstored⟩

end Xv6Pdx.Pipe
