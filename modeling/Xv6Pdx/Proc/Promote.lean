/-
# `Proc.Promote` — one promotion pass, list by list

When the promotion time has come, `scheduler` lowers the priority number of every
running and sleeping process and moves the processes of `ready[i]` to the end of
`ready[i-1]`, for `i` from 1 to `MAXPRIO`.  Each process is taken off the list
while the list is being walked, and put on the list that was walked before.

The pass moves every ready list up by exactly one and keeps the order.  It stops
only at a running or sleeping process with a negative priority.
-/
import Xv6Pdx.Proc.View

namespace Xv6Pdx.Ptable

open Lib
open Function (update update_self update_of_ne update_eq_self update_idem update_comm)

/-! ## What the pass does to the lists and to the processes -/

/-- The lists when `ready[1]` to `ready[k]` have been moved up. -/
def shifted (k : Nat) (V : StateList → List ProcPtr) : StateList → List ProcPtr
  | .ready 0 => if 1 ≤ k then V (.ready 0) ++ V (.ready 1) else V (.ready 0)
  | .ready (j + 1) =>
    if j + 1 < k then V (.ready (j + 2)) else if j + 1 = k then [] else V (.ready (j + 1))
  | l => V l

/-- The processes on `ready[1]` to `ready[k]`. -/
def climbers (k : Nat) (V : StateList → List ProcPtr) : List ProcPtr :=
  (List.range k).flatMap fun i => V (.ready (i + 1))

/-- The priority of `p` after the pass. -/
def promoted (maxPrio : Nat) (V : StateList → List ProcPtr) (p : ProcPtr) (priority : Int) : Int :=
  if p ∈ V .running ∨ p ∈ V .sleep then max (priority - 1) 0
  else if p ∈ climbers maxPrio V then priority - 1
  else priority

/-- The processes of a list get another priority. -/
def assigned (s : Kernel) (ps : List ProcPtr) (f : Int → Int) : Kernel :=
  { s with proc := fun p =>
      if p ∈ ps then { s.proc p with priority := f (s.proc p).priority } else s.proc p }

theorem assigned_nil (s : Kernel) (f : Int → Int) : assigned s [] f = s := by
  simp [assigned]

theorem assigned_of_notMem {s : Kernel} {ps : List ProcPtr} {f : Int → Int} {p : ProcPtr}
    (h : p ∉ ps) : (assigned s ps f).proc p = s.proc p := if_neg h

theorem assigned_snoc {s : Kernel} {ps : List ProcPtr} {f : Int → Int} {p : ProcPtr} (h : p ∉ ps) :
    { assigned s ps f with
      proc := update (assigned s ps f).proc p
        { s.proc p with priority := f (s.proc p).priority } } = assigned s (ps ++ [p]) f := by
  have hproc : update (assigned s ps f).proc p
      { s.proc p with priority := f (s.proc p).priority } = (assigned s (ps ++ [p]) f).proc := by
    funext q
    by_cases hq : q = p
    · subst hq
      rw [update_self]
      exact (if_pos (by simp)).symm
    · rw [update_of_ne hq]
      simp [assigned, hq]
  rw [hproc]
  rfl

/-- A process that has the priority it would be assigned. -/
theorem assigned_fixed {s : Kernel} {ps : List ProcPtr} {f : Int → Int} {p : ProcPtr}
    (h : f (s.proc p).priority = (s.proc p).priority) :
    assigned s ps f = assigned s (ps ++ [p]) f := by
  have hproc : (assigned s ps f).proc = (assigned s (ps ++ [p]) f).proc := by
    funext q
    by_cases hq : q = p
    · subst hq
      simp [assigned, h]
    · simp [assigned, hq]
  show { s with proc := (assigned s ps f).proc } = { s with proc := _ }
  rw [hproc]
  rfl

theorem Lists.notMem_done {L : StateLists} {V : StateList → List ProcPtr} (h : Lists L V)
    {l : StateList} {done ps : List ProcPtr} {p : ProcPtr} (hV : V l = done ++ p :: ps) :
    p ∉ done ∧ L.next p = ps.head? := by
  have hnd := h.nodup l
  have hc := h.chain l
  rw [hV] at hnd hc
  exact ⟨fun hm => (List.nodup_append.mp hnd).2.2 p hm p List.mem_cons_self rfl,
    hc.of_append.head_eq⟩

section

variable {s : Kernel} {V : StateList → List ProcPtr}

/-! ## Running and sleeping processes -/

theorem lowerLoop_spec (hL : Lists s.pLists V) (l : StateList) (msg : String)
    (hneg : ∀ p, p ∈ V l → 0 ≤ (s.proc p).priority) :
    wp (forSaved (promoteProc msg) NPROC (s.pLists.head l))
      (fun _ s' => s' = assigned s (V l) fun x => max (x - 1) 0) (fun _ => False) s := by
  let I : List ProcPtr → Kernel → Prop := fun ps s' =>
    ∃ done, V l = done ++ ps ∧ s' = assigned s done fun x => max (x - 1) 0
  have hnext : ∀ p ps s₁, I (p :: ps) s₁ → s₁.pLists.next p = ps.head? := by
    rintro p ps s₁ ⟨done, hdone, rfl⟩
    exact (hL.notMem_done hdone).2
  have hbody : ∀ p ps s₁, I (p :: ps) s₁ →
      wp (promoteProc msg p) (fun _ s' => I ps s') (fun _ => False) s₁ := by
    rintro p ps s₁ ⟨done, hdone, rfl⟩
    have hp := (hL.notMem_done hdone).1
    have hnn := hneg p (by rw [hdone]; simp)
    have hI : I ps (assigned s (done ++ [p]) fun x => max (x - 1) 0) :=
      ⟨done ++ [p], by rw [hdone]; simp, rfl⟩
    simp only [promoteProc, wp_bind, wp_get, assigned_of_notMem hp]
    rw [if_neg (by omega)]
    by_cases hpos : (s.proc p).priority > 0
    · rw [if_pos hpos, wp_setProc, assigned_of_notMem hp]
      have hmax : (s.proc p).priority - 1 = max ((s.proc p).priority - 1) 0 := by omega
      rw [hmax, assigned_snoc hp]
      exact hI
    · have hmax : max ((s.proc p).priority - 1) 0 = (s.proc p).priority := by omega
      rw [if_neg hpos, wp_pure, assigned_fixed hmax]
      exact hI
  rw [hL.head_eq]
  refine wp_post (forSaved_spec I hnext hbody (V l) ⟨[], rfl, (assigned_nil s _).symm⟩
    (hL.length_le l)) ?_
  rintro _ s' ⟨done, hdone, rfl⟩
  rw [hdone, List.append_nil]

/-! ## One ready list -/

/-- The lists when the processes `done` of `ready[i+1]` have been moved and `ps` are left. -/
def moving (V : StateList → List ProcPtr) (i : Nat) (done ps : List ProcPtr) :
    StateList → List ProcPtr :=
  update (update V (.ready (i + 1)) ps) (.ready i) (V (.ready i) ++ done)

theorem moving_source (V : StateList → List ProcPtr) (i : Nat) (done ps : List ProcPtr) :
    moving V i done ps (.ready (i + 1)) = ps := by
  rw [moving, update_of_ne (by simp), update_self]

theorem moving_start (V : StateList → List ProcPtr) (i : Nat) :
    moving V i [] (V (.ready (i + 1))) = V := by
  rw [moving, List.append_nil, update_eq_self, update_eq_self]

/-- The head of what is left goes to the end of the list above. -/
theorem moving_step (V : StateList → List ProcPtr) (i : Nat) (done ps : List ProcPtr)
    (p : ProcPtr) :
    push (pull (moving V i done (p :: ps)) (.ready (i + 1)) p) (.ready i) p =
      moving V i (done ++ [p]) ps := by
  have hpull : pull (moving V i done (p :: ps)) (.ready (i + 1)) p = moving V i done ps := by
    rw [pull, moving_source, List.erase_cons_head]
    simp only [moving]
    rw [update_comm (by simp), update_idem]
  rw [hpull, push]
  simp only [moving, update_self, update_idem, List.append_assoc]

theorem promoteList_moves (hL : Lists s.pLists V) (i : Nat)
    (hprio : ∀ p, p ∈ V (.ready (i + 1)) → (s.proc p).priority = ((i + 1 : Nat) : Int)) :
    wp (promoteList (i + 1)) (fun _ s' =>
      Lists s'.pLists (moving V i (V (.ready (i + 1))) []) ∧
        s' = { assigned s (V (.ready (i + 1))) (· - 1) with pLists := s'.pLists })
      (fun _ => False) s := by
  let I : List ProcPtr → Kernel → Prop := fun ps s' =>
    ∃ done, V (.ready (i + 1)) = done ++ ps ∧ Lists s'.pLists (moving V i done ps) ∧
      s' = { assigned s done (· - 1) with pLists := s'.pLists }
  have hnext : ∀ p ps s₁, I (p :: ps) s₁ → s₁.pLists.next p = ps.head? := by
    rintro p ps s₁ ⟨done, _, hlists, _⟩
    have hsrc : moving V i done (p :: ps) (.ready (i + 1)) = [] ++ p :: ps := moving_source ..
    exact (hlists.notMem_done hsrc).2
  have hbody : ∀ p ps s₁, I (p :: ps) s₁ →
      wp (promoteReady (i + 1) p) (fun _ s' => I ps s') (fun _ => False) s₁ := by
    rintro p ps s₁ ⟨done, hdone, hlists, hs₁⟩
    obtain ⟨L, rfl⟩ : ∃ L, s₁ = { assigned s done (· - 1) with pLists := L } := ⟨_, hs₁⟩
    have hp := (hL.notMem_done hdone).1
    have hmem : p ∈ moving V i done (p :: ps) (.ready (i + 1)) := by
      rw [moving_source]
      exact List.mem_cons_self
    have hoff : ∀ k, p ∉ pull (moving V i done (p :: ps)) (.ready (i + 1)) p k := by
      intro k hk
      obtain ⟨hk, hne⟩ := (mem_pull hlists.nodup).mp hk
      exact hne ⟨hlists.disj _ _ p hk hmem, rfl⟩
    simp only [promoteReady, wp_bind, wp_get, assigned_of_notMem hp]
    rw [if_neg (not_not.mpr (hprio p (by rw [hdone]; simp)))]
    simp only [wp_bind]
    refine wp_post (onLists_spec (stateListRemove_spec hlists hmem)) ?_
    rintro _ _ ⟨L₁, ⟨-, hL₁⟩, rfl⟩
    rw [wp_setProc]
    refine wp_post (onLists_spec (stateListAdd_spec hL₁ hoff)) ?_
    rintro _ _ ⟨L₂, ⟨-, hL₂⟩, rfl⟩
    refine ⟨done ++ [p], by rw [hdone]; simp, moving_step V i done ps p ▸ hL₂, ?_⟩
    rw [← assigned_snoc hp]
    simp only [assigned_of_notMem hp]
  simp only [promoteList, wp_bind, wp_get]
  rw [hL.head_eq]
  refine wp_post (forSaved_spec I hnext hbody (V (.ready (i + 1))) ⟨[], rfl, ?_, ?_⟩
    (hL.length_le _)) ?_
  · rw [moving_start]
    exact hL
  · rw [assigned_nil]
  · rintro _ s' ⟨done, hdone, hlists, hs'⟩
    rw [List.append_nil] at hdone
    rw [hdone]
    exact ⟨hlists, hs'⟩

/-! ## All ready lists -/

theorem mem_climbers {k : Nat} {p : ProcPtr} :
    p ∈ climbers k V ↔ ∃ i, i < k ∧ p ∈ V (.ready (i + 1)) := by
  simp [climbers]

theorem climbers_succ (k : Nat) : climbers (k + 1) V = climbers k V ++ V (.ready (k + 1)) := by
  simp [climbers, List.range_succ]

theorem assigned_append {s : Kernel} {ps qs : List ProcPtr} {f : Int → Int}
    (h : ∀ p, p ∈ ps → p ∉ qs) : assigned (assigned s ps f) qs f = assigned s (ps ++ qs) f := by
  have hproc : (assigned (assigned s ps f) qs f).proc = (assigned s (ps ++ qs) f).proc := by
    funext p
    by_cases hp : p ∈ ps
    · simp [assigned, hp, h p hp]
    · simp [assigned, hp]
  show { s with proc := (assigned (assigned s ps f) qs f).proc } = { s with proc := _ }
  rw [hproc]
  rfl

theorem shifted_zero : shifted 0 V = V := by
  funext l
  cases l with
  | ready j => cases j <;> simp [shifted]
  | _ => rfl

theorem shifted_next (k : Nat) : shifted k V (.ready (k + 1)) = V (.ready (k + 1)) := by
  simp [shifted]

theorem shifted_succ (k : Nat) :
    moving (shifted k V) k (V (.ready (k + 1))) [] = shifted (k + 1) V := by
  funext l
  by_cases hk : l = .ready k
  · subst hk
    rw [moving, update_self]
    cases k with
    | zero => simp [shifted]
    | succ k => simp [shifted]
  · rw [moving, update_of_ne hk]
    by_cases hk' : l = .ready (k + 1)
    · subst hk'
      simp [shifted]
    · rw [update_of_ne hk']
      cases l with
      | ready j =>
        have hj : j ≠ k := fun h => hk (by rw [h])
        have hj' : j ≠ k + 1 := fun h => hk' (by rw [h])
        cases j with
        | zero =>
          have hpos : 1 ≤ k := by omega
          simp [shifted, hpos]
        | succ j =>
          have hlt : j + 1 < k + 1 ↔ j + 1 < k := by omega
          have hne : j ≠ k := by omega
          simp [shifted, hlt, hj, hne]
      | _ => rfl

theorem promoteLists_shift (hL : Lists s.pLists V) (n : Nat)
    (hprio : ∀ i p, i < n → p ∈ V (.ready (i + 1)) → (s.proc p).priority = ((i + 1 : Nat) : Int)) :
    wp (forIndex promoteList n 1) (fun _ s' => Lists s'.pLists (shifted n V) ∧
      s' = { assigned s (climbers n V) (· - 1) with pLists := s'.pLists }) (fun _ => False) s := by
  let I : Nat → Kernel → Prop := fun k s' => Lists s'.pLists (shifted (k - 1) V) ∧
    s' = { assigned s (climbers (k - 1) V) (· - 1) with pLists := s'.pLists }
  have hstart : I 1 s := by
    refine ⟨?_, ?_⟩
    · rw [Nat.sub_self, shifted_zero]
      exact hL
    · rw [Nat.sub_self]
      exact (assigned_nil s (· - 1)).symm
  have hstep : ∀ k s₁, 1 ≤ k → k < 1 + n → I k s₁ →
      wp (promoteList k) (fun _ s' => I (k + 1) s') (fun _ => False) s₁ := by
    rintro k s₁ hk hkn ⟨hlists, hs₁⟩
    obtain ⟨j, rfl⟩ : ∃ j, k = j + 1 := ⟨k - 1, by omega⟩
    rw [Nat.add_sub_cancel] at hlists hs₁
    -- The processes of this list are on none of the lists before it.
    have hfresh : ∀ p, p ∈ climbers j V → p ∉ V (.ready (j + 1)) := by
      intro p hp hpj
      obtain ⟨i, hi, hpi⟩ := mem_climbers.mp hp
      have hsame := hL.disj _ _ p hpi hpj
      rw [StateList.ready.injEq] at hsame
      omega
    obtain ⟨L, rfl⟩ : ∃ L, s₁ = { assigned s (climbers j V) (· - 1) with pLists := L } := ⟨_, hs₁⟩
    have hmoves := promoteList_moves hlists j (by
      intro p hp
      rw [shifted_next] at hp
      have hproc : (assigned s (climbers j V) (· - 1)).proc p = s.proc p :=
        assigned_of_notMem fun hm => hfresh p hm hp
      show ((assigned s (climbers j V) (· - 1)).proc p).priority = _
      rw [hproc]
      exact hprio j p (by omega) hp)
    refine wp_post hmoves ?_
    rintro _ s' ⟨hlists', hs'⟩
    rw [shifted_next, shifted_succ] at hlists'
    refine ⟨hlists', ?_⟩
    rw [shifted_next] at hs'
    rw [Nat.add_sub_cancel, climbers_succ, ← assigned_append hfresh]
    exact hs'
  refine wp_post (forIndex_spec n 1 hstep hstart) ?_
  intro _ s' hI
  have hn : 1 + n - 1 = n := by omega
  have hI' : Lists s'.pLists (shifted (1 + n - 1) V) ∧ _ = _ := hI
  rwa [hn] at hI'

/-! ## The whole pass -/

theorem shifted_of_ne {k : Nat} {l : StateList} (h : ∀ j, l ≠ .ready j) : shifted k V l = V l := by
  cases l with
  | ready j => exact absurd rfl (h j)
  | _ => rfl

/-- A process on `l` is on none of `ready[1]` to `ready[k]`. -/
theorem Lists.notMem_climbers (hL : Lists s.pLists V) {l : StateList} (h : ∀ j, l ≠ .ready j)
    {p : ProcPtr} (hp : p ∈ V l) (k : Nat) : p ∉ climbers k V := by
  intro hm
  obtain ⟨i, _, hi⟩ := mem_climbers.mp hm
  exact h (i + 1) (hL.disj _ _ p hp hi)

/-- The three loops together: each process is on one list and changed at most once. -/
theorem assigned_promoted (hL : Lists s.pLists V) (maxPrio : Nat) :
    (assigned (assigned (assigned s (V .running) fun x => max (x - 1) 0)
      (climbers maxPrio V) (· - 1)) (V .sleep) fun x => max (x - 1) 0).proc =
      fun p => { s.proc p with priority := promoted maxPrio V p (s.proc p).priority } := by
  funext p
  by_cases hrun : p ∈ V .running
  · have hclimb := hL.notMem_climbers (by simp) hrun maxPrio
    have hsleep : p ∉ V .sleep := fun h => by cases hL.disj _ _ p hrun h
    simp [assigned, promoted, hrun, hclimb, hsleep]
  · by_cases hsleep : p ∈ V .sleep
    · have hclimb := hL.notMem_climbers (by simp) hsleep maxPrio
      simp [assigned, promoted, hrun, hclimb, hsleep]
    · by_cases hclimb : p ∈ climbers maxPrio V
      · simp [assigned, promoted, hrun, hclimb, hsleep]
      · simp [assigned, promoted, hrun, hclimb, hsleep]

/-- `s'` is `s` after a pass: every ready list is moved up by one and keeps its order,
the priorities are lowered accordingly, and nothing else has changed. -/
structure Passed (maxPrio : Nat) (V : StateList → List ProcPtr) (s s' : Kernel) : Prop where
  lists : Lists s'.pLists (shifted maxPrio V)
  rest : s' = { s with
    pLists := s'.pLists
    promoteAtTime := (s.promoteAtTime + TICKS_TO_PROMOTE) % 2 ^ 32
    proc := fun p => { s.proc p with priority := promoted maxPrio V p (s.proc p).priority } }

theorem promote_shifts (maxPrio : Nat) (hL : Lists s.pLists V) (htime : s.promoteAtTime ≤ s.ticks)
    (hready : ∀ i p, 1 ≤ i → i ≤ maxPrio → p ∈ V (.ready i) → (s.proc p).priority = i)
    (hneg : ∀ p, p ∈ V .running ∨ p ∈ V .sleep → 0 ≤ (s.proc p).priority) :
    ∃ s', promote maxPrio s = .ok ((), s') ∧ Passed maxPrio V s s' := by
  have hpass : wp (promote maxPrio) (fun _ s' => Passed maxPrio V s s') (fun _ => False) s := by
    simp only [promote, wp_bind, wp_get, if_pos htime]
    refine wp_post (lowerLoop_spec hL .running _ fun p hp => hneg p (.inl hp)) ?_
    rintro _ _ rfl
    have hclimb := promoteLists_shift (s := assigned s (V .running) fun x => max (x - 1) 0) hL
      maxPrio (by
        intro i p hi hp
        have hrun : p ∉ V .running := fun h => by cases hL.disj _ _ p h hp
        rw [assigned_of_notMem hrun]
        exact hready (i + 1) p (by omega) (by omega) hp)
    refine wp_post hclimb ?_
    rintro _ s₂ ⟨hlists, hs₂⟩
    obtain ⟨L, rfl⟩ : ∃ L, s₂ = { assigned (assigned s (V .running) fun x => max (x - 1) 0)
        (climbers maxPrio V) (· - 1) with pLists := L } := ⟨_, hs₂⟩
    have hsleep := lowerLoop_spec hlists .sleep "priority < 0, scheduler, sleeping\n" (by
      intro p hp
      rw [shifted_of_ne (by simp)] at hp
      have hrun : p ∉ V .running := fun h => by cases hL.disj _ _ p h hp
      show 0 ≤ ((assigned (assigned s (V .running) fun x => max (x - 1) 0)
        (climbers maxPrio V) (· - 1)).proc p).priority
      rw [assigned_of_notMem (hL.notMem_climbers (by simp) hp maxPrio), assigned_of_notMem hrun]
      exact hneg p (.inr hp))
    refine wp_post hsleep ?_
    rintro _ _ rfl
    rw [wp_modify, shifted_of_ne (by simp)]
    refine ⟨hlists, ?_⟩
    rw [← assigned_promoted hL maxPrio]
    rfl
  obtain ⟨_, s', hs', hpassed⟩ := wp_total hpass
  exact ⟨s', hs', hpassed⟩

end

/-- One process on each of `ready[1]`, `ready[2]` and `running`. -/
def queued : StateList → List ProcPtr
  | .ready 1 => [3]
  | .ready 2 => [4]
  | .running => [5]
  | _ => []

/-- A kernel with these lists; `priority` is that of the running process. -/
def queuedKernel (priority : Int) : Kernel :=
  { boot 0 with
    pLists :=
      { head := fun l => (queued l).head?
        tail := fun l => (queued l).getLast?
        next := fun _ => none }
    proc := fun p => { (boot 0).proc p with
      priority := if p = 3 then 1 else if p = 4 then 2 else priority } }

theorem mem_queued {l : StateList} {p : ProcPtr} (h : p ∈ queued l) :
    l = .ready 1 ∧ p = 3 ∨ l = .ready 2 ∧ p = 4 ∨ l = .running ∧ p = 5 := by
  unfold queued at h
  split at h <;> simp_all

theorem queued_chain (l : StateList) :
    Chain (fun _ : ProcPtr => none) (queued l).head? (queued l) := by
  unfold queued
  split <;> simp

theorem queued_lists (priority : Int) : Lists (queuedKernel priority).pLists queued where
  chain := queued_chain
  tail _ _ h := h
  disj l l' p h h' := by
    rcases mem_queued h with ⟨rfl, rfl⟩ | ⟨rfl, rfl⟩ | ⟨rfl, rfl⟩ <;>
      rcases mem_queued h' with ⟨rfl, he⟩ | ⟨rfl, he⟩ | ⟨rfl, he⟩ <;>
      first | rfl | exact absurd he (by decide)

theorem queued_ready (priority : Int) (i : Nat) (p : ProcPtr) (h : p ∈ queued (.ready i)) :
    ((queuedKernel priority).proc p).priority = i := by
  rcases mem_queued h with ⟨hi, rfl⟩ | ⟨hi, rfl⟩ | ⟨hi, -⟩
  · cases hi
    rfl
  · cases hi
    rfl
  · cases hi

theorem promote_shifts_queued :
    ∃ s', promote 2 (queuedKernel 2) = .ok ((), s') ∧ Passed 2 queued (queuedKernel 2) s' :=
  promote_shifts 2 (queued_lists 2) (Nat.zero_le _) (fun i p _ _ => queued_ready 2 i p) (by
    rintro p (h | h)
    · rcases mem_queued h with ⟨hl, -⟩ | ⟨hl, -⟩ | ⟨-, rfl⟩
      · cases hl
      · cases hl
      · decide
    · simp [queued] at h)

/-- A running process with a negative priority stops the pass. -/
theorem promote_refuses_negative : Lists (queuedKernel (-1)).pLists queued ∧
      (∀ i p, p ∈ queued (.ready i) → ((queuedKernel (-1)).proc p).priority = i) ∧
      promote 2 (queuedKernel (-1)) = .error (.panic "priority < 0, scheduler, running\n") :=
  ⟨queued_lists (-1), queued_ready (-1), rfl⟩

end Xv6Pdx.Ptable
