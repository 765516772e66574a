/-
# `Proc.StateLists` — the process state lists of `proc.c`

`struct StateLists` holds a head and a tail pointer for each process state
(one pair for each priority of RUNNABLE), and the lists are threaded through
the `next` field of `struct proc`, which is kept here beside them.

Removing the head moves only the head pointer, so a list that becomes empty keeps
a tail that points at the removed process, and the removed process keeps its
`next`.  Both are harmless because `stateListAdd` looks at the head before it
trusts the tail, and always clears `next`.  `Lists` says so: the tail is
constrained only when the list is not empty, and `next` only on its cells.
-/
import Xv6Pdx.Lib.Wp
import Xv6Pdx.Lib.Chain

namespace Xv6Pdx.Ptable

open Lib
open Function (update_self update_of_ne)

def NPROC : Nat := 64

instance : NeZero NPROC := ⟨by decide⟩

/-- A non-null `struct proc *`: an index into `ptable.proc`. -/
abbrev ProcPtr := Fin NPROC

instance (priority := high) : LawfulBEq ProcPtr := inferInstance

/-- The lists of `struct StateLists`; `ready i` is `ready[i]`. -/
inductive StateList where
  | free
  | embryo
  | sleep
  | running
  | zombie
  | ready (i : Nat)
deriving DecidableEq, Repr

/-- The pointers of `ptable.pLists`, with the `next` field of every process. -/
structure StateLists where
  head : StateList → Option ProcPtr
  tail : StateList → Option ProcPtr
  next : ProcPtr → Option ProcPtr

/-- Why a kernel routine of `proc.c` stops. -/
inductive Stop where
  /-- `panic(msg)` -/
  | panic (msg : String)
  /-- a null `struct proc *` was followed -/
  | nullDeref
  /-- `ready[i]` with `i` outside `0..MAXPRIO` -/
  | badIndex
  /-- a list walk that never reaches null -/
  | hang
deriving DecidableEq, Repr

/-- Code that only touches the lists. -/
abbrev ListM := StateT StateLists (Except Stop)

/-- `stateListAdd(&head, &tail, p)`. -/
def stateListAdd (l : StateList) (p : ProcPtr) : ListM Int := do
  let L ← get
  match L.head l with
  | none =>
    set { L with
      head := Function.update L.head l (some p)
      tail := Function.update L.tail l (some p)
      next := Function.update L.next p none }
    return 0
  | some _ =>
    match L.tail l with
    | none => throw .nullDeref
    | some t =>
      -- (*tail)->next = p; *tail = (*tail)->next; (*tail)->next = 0;
      set { L with
        tail := Function.update L.tail l (some p)
        next := Function.update (Function.update L.next t (some p)) p none }
      return 0

/-- The `while(current)` loop of `stateListRemove`: the last `previous` and `current`.  A walk
over more than `NPROC` cells has entered a cycle and does not end. -/
def findPrevious (next : ProcPtr → Option ProcPtr) (p : ProcPtr) :
    Nat → Option ProcPtr → Option ProcPtr → Option (Option ProcPtr × Option ProcPtr)
  | _, previous, none => some (previous, none)
  | 0, _, some _ => none
  | n + 1, previous, some current =>
    if current = p then some (previous, some current)
    else findPrevious next p n (some current) (next current)

/-- `stateListRemove(&head, &tail, p)`; `p` may be null. -/
def stateListRemove (l : StateList) (p : Option ProcPtr) : ListM Int := do
  let L ← get
  match L.head l, L.tail l, p with
  | some h, some t, some p =>
    if h = p then
      -- the tail and `p->next` stay as they are
      set { L with head := Function.update L.head l (L.next h) }
      return 0
    else
      match findPrevious L.next p (NPROC + 1) none (some h) with
      | none => throw .hang
      | some (_, none) => return -1
      | some (none, some _) => throw .nullDeref
      | some (some previous, some current) =>
        if current = t then
          set { L with
            tail := Function.update L.tail l (some previous)
            next := Function.update (Function.update L.next previous none) p none }
          return 0
        else
          set { L with
            next := Function.update (Function.update L.next previous (L.next current)) p none }
          return 0
  | _, _, _ => return -1

/-! ## What the pointers represent -/

/-- The list `l` represents `xs`: its pointers visit exactly `xs` and end in null, and the
tail is the last element when there is one. -/
structure Represents (L : StateLists) (l : StateList) (xs : List ProcPtr) : Prop where
  chain : Chain L.next (L.head l) xs
  tail : ∀ x, xs.getLast? = some x → L.tail l = some x

namespace Represents

variable {L : StateLists} {l : StateList} {xs : List ProcPtr}

theorem nodup (h : Represents L l xs) : xs.Nodup := h.chain.nodup

theorem length_le (h : Represents L l xs) : xs.length ≤ NPROC := by
  have := h.nodup.length_le_card
  simpa using this

theorem tail_ne_none (h : Represents L l xs) (hne : xs ≠ []) : ∃ t, L.tail l = some t :=
  ⟨xs.getLast hne, h.tail _ (List.getLast?_eq_some_getLast hne)⟩

end Represents

/-- `L` represents the lists `V`, and no process is on two of them. -/
structure Lists (L : StateLists) (V : StateList → List ProcPtr) : Prop where
  chain : ∀ l, Chain L.next (L.head l) (V l)
  tail : ∀ l x, (V l).getLast? = some x → L.tail l = some x
  disj : ∀ l l' p, p ∈ V l → p ∈ V l' → l = l'

namespace Lists

variable {L : StateLists} {V : StateList → List ProcPtr}

theorem represents (h : Lists L V) (l : StateList) : Represents L l (V l) := ⟨h.chain l, h.tail l⟩

theorem nodup (h : Lists L V) (l : StateList) : (V l).Nodup := (h.chain l).nodup

theorem head_eq (h : Lists L V) (l : StateList) : L.head l = (V l).head? :=
  (h.chain l).head_eq

theorem length_le (h : Lists L V) (l : StateList) : (V l).length ≤ NPROC :=
  (h.represents l).length_le

end Lists

/-- What an operation on the list `l` of `xs` and the process `p` leaves alone: the other
lists' pointers, and `next` outside. -/
structure Untouched (L : StateLists) (l : StateList) (xs : List ProcPtr) (p : ProcPtr)
    (L' : StateLists) : Prop where
  head : ∀ k, k ≠ l → L'.head k = L.head k
  tail : ∀ k, k ≠ l → L'.tail k = L.tail k
  next : ∀ q, q ∉ xs → q ≠ p → L'.next q = L.next q

theorem findPrevious_found {next : ProcPtr → Option ProcPtr} {p : ProcPtr} {ys : List ProcPtr} :
    ∀ {xs : List ProcPtr} {h : Option ProcPtr} (prev : Option ProcPtr) {n : Nat},
      Chain next h (xs ++ p :: ys) → p ∉ xs → xs.length < n →
      findPrevious next p n prev h = some (xs.getLast?.or prev, some p) := by
  intro xs
  induction xs with
  | nil =>
    intro h prev n hc _ hn
    obtain ⟨m, rfl⟩ := Nat.exists_eq_succ_of_ne_zero (Nat.pos_iff_ne_zero.mp hn)
    rw [hc.1]
    simp [findPrevious]
  | cons x xs ih =>
    intro h prev n hc hp hn
    obtain ⟨m, rfl⟩ := Nat.exists_eq_succ_of_ne_zero (Nat.ne_zero_of_lt hn)
    have hxp : x ≠ p := fun he => hp (by simp [he])
    have hrec := ih (some x) hc.2 (fun hm => hp (List.mem_cons_of_mem _ hm)) (by simpa using hn)
    rw [hc.1]
    simp only [findPrevious, if_neg hxp, hrec]
    cases xs with
    | nil => rfl
    | cons y ys =>
      rw [List.getLast?_cons_cons]
      simp [List.getLast?_cons]

/-- The loop runs to the end of a list that does not hold `p`. -/
theorem findPrevious_notMem {next : ProcPtr → Option ProcPtr} {p : ProcPtr} :
    ∀ {xs : List ProcPtr} {h : Option ProcPtr} (prev : Option ProcPtr) {n : Nat},
      Chain next h xs → p ∉ xs → xs.length ≤ n →
      ∃ prev', findPrevious next p n prev h = some (prev', none) := by
  intro xs
  induction xs with
  | nil =>
    intro h prev n hc _ _
    rw [Chain.nil_iff.mp hc]
    exact ⟨prev, by cases n <;> rfl⟩
  | cons x xs ih =>
    intro h prev n hc hp hn
    obtain ⟨m, rfl⟩ := Nat.exists_eq_succ_of_ne_zero (Nat.ne_zero_of_lt hn)
    have hxp : x ≠ p := fun he => hp (by simp [he])
    obtain ⟨q, hq⟩ := ih (some x) hc.2 (fun hm => hp (List.mem_cons_of_mem _ hm))
      (by simpa using hn)
    rw [hc.1]
    exact ⟨q, by simp only [findPrevious, if_neg hxp, hq]⟩

/-! ## The two operations on one list -/

/-- `xs` with `p` at its end.  If `p` is in `xs` already, `stateListAdd` cuts the list off
behind it. -/
def enqueue (xs : List ProcPtr) (p : ProcPtr) : List ProcPtr := xs.takeWhile (· ≠ p) ++ [p]

theorem enqueue_of_notMem {xs : List ProcPtr} {p : ProcPtr} (h : p ∉ xs) :
    enqueue xs p = xs ++ [p] := by
  rw [enqueue, List.takeWhile_eq_self_iff.mpr]
  intro x hx
  exact decide_eq_true fun he => h (he ▸ hx)

theorem enqueue_append_cons {xs ys : List ProcPtr} {p : ProcPtr} (h : p ∉ xs) :
    enqueue (xs ++ p :: ys) p = xs ++ [p] := by
  rw [enqueue, List.takeWhile_append_of_pos, List.takeWhile_cons_of_neg (by simp), List.append_nil]
  intro x hx
  exact decide_eq_true fun he => h (he ▸ hx)

section One

variable {L : StateLists} {l : StateList} {xs : List ProcPtr} {p : ProcPtr}

theorem stateListAdd_represents (h : Represents L l xs) (p : ProcPtr) :
    ∃ L', stateListAdd l p L = .ok (0, L') ∧ Represents L' l (enqueue xs p) ∧
      Untouched L l xs p L' := by
  have hlast : ∀ x, (enqueue xs p).getLast? = some x → x = p := by
    intro x hx
    rw [enqueue, List.getLast?_concat] at hx
    exact (Option.some.inj hx).symm
  cases hh : L.head l with
  | none =>
    have hxs : xs = [] := by
      have hc := h.chain
      rwa [hh, Chain.none_iff] at hc
    refine ⟨{ L with
      head := Function.update L.head l (some p)
      tail := Function.update L.tail l (some p)
      next := Function.update L.next p none }, ?_, ⟨?_, ?_⟩, ?_, ?_, ?_⟩
    · rw [stateListAdd, get_bind_apply, hh]
      rfl
    · rw [hxs]
      exact ⟨update_self .., update_self ..⟩
    · intro x hx
      rw [hlast x hx]
      exact update_self ..
    · exact fun k hk => update_of_ne hk _ _
    · exact fun k hk => update_of_ne hk _ _
    · exact fun q _ hq => update_of_ne hq _ _
  | some a =>
    have hne : xs ≠ [] := by
      rintro rfl
      cases hh.symm.trans h.chain
    -- the tail of a non-empty list is its last cell
    obtain ⟨zs, t, rfl⟩ : ∃ zs t, xs = zs ++ [t] :=
      ⟨xs.dropLast, xs.getLast hne, (List.dropLast_append_getLast hne).symm⟩
    have htail : L.tail l = some t := h.tail t (by simp)
    refine ⟨{ L with
      tail := Function.update L.tail l (some p)
      next := Function.update (Function.update L.next t (some p)) p none },
      ?_, ⟨?_, ?_⟩, fun _ _ => rfl, ?_, ?_⟩
    · rw [stateListAdd, get_bind_apply, hh]
      simp only [htail]
      rfl
    · by_cases hp : p ∈ zs ++ [t]
      · obtain ⟨as, bs, hsplit⟩ := List.append_of_mem hp
        have hnd := h.nodup
        have hc := h.chain
        rw [hsplit] at hnd hc
        have hout : ∀ x ∈ as, ∀ y ∈ p :: bs, x ≠ y := (List.nodup_append.mp hnd).2.2
        have ht : t ∈ p :: bs := by
          have hget := congrArg List.getLast? hsplit
          rw [List.getLast?_concat, List.getLast?_append_of_ne_nil _ (by simp)] at hget
          exact List.mem_of_getLast? hget.symm
        rw [hsplit, enqueue_append_cons fun hm => hout p hm p List.mem_cons_self rfl]
        refine hc.cut (fun x hx => ?_) (update_self ..)
        show Function.update (Function.update L.next t (some p)) p none x = L.next x
        rw [update_of_ne (hout x hx p List.mem_cons_self), update_of_ne (hout x hx t ht)]
      · rw [enqueue_of_notMem hp, List.append_assoc]
        exact h.chain.snoc hp
    · intro x hx
      rw [hlast x hx]
      exact update_self ..
    · exact fun k hk => update_of_ne hk _ _
    · intro q hq hqp
      have hqt : q ≠ t := fun he => hq (by simp [he])
      show Function.update (Function.update L.next t (some p)) p none q = L.next q
      rw [update_of_ne hqp, update_of_ne hqt]

theorem stateListRemove_represents (h : Represents L l xs) (hp : p ∈ xs) :
    ∃ L', stateListRemove l (some p) L = .ok (0, L') ∧ Represents L' l (xs.erase p) ∧
      Untouched L l xs p L' := by
  obtain ⟨t, ht⟩ := h.tail_ne_none (List.ne_nil_of_mem hp)
  obtain ⟨as, ys, rfl⟩ := List.append_of_mem hp
  have hnd := h.nodup
  have hc := h.chain
  have hpas : p ∉ as := fun hm => (List.nodup_append.mp hnd).2.2 p hm p List.mem_cons_self rfl
  have herase : (as ++ p :: ys).erase p = as ++ ys := by
    rw [List.erase_append_right _ hpas, List.erase_cons_head]
  rw [herase]
  cases as with
  | nil =>
    -- `p` is the head: only the head pointer moves
    have hh : L.head l = some p := hc.1
    refine ⟨{ L with head := Function.update L.head l (L.next p) }, ?_, ⟨?_, ?_⟩,
      fun k hk => update_of_ne hk _ _, fun _ _ => rfl, fun _ _ _ => rfl⟩
    · rw [stateListRemove, get_bind_apply, hh, ht]
      simp only [if_true]
      rfl
    · show Chain L.next (Function.update L.head l (L.next p) l) ([] ++ ys)
      rw [update_self]
      exact hc.2
    · intro x hx
      refine h.tail x ?_
      rw [List.nil_append] at hx ⊢
      rw [List.getLast?_cons, hx]
      rfl
  | cons a as =>
    have hh : L.head l = some a := hc.1
    have hap : a ≠ p := fun he => hpas (by simp [he])
    have hlen : (a :: as).length < NPROC + 1 := by
      have hle := h.length_le
      rw [List.length_append] at hle
      omega
    obtain ⟨zs, q, hq⟩ : ∃ zs q, a :: as = zs ++ [q] :=
      ⟨(a :: as).dropLast, (a :: as).getLast (by simp),
        (List.dropLast_append_getLast (by simp)).symm⟩
    have hfind := findPrevious_found none hc hpas hlen
    rw [hq, List.getLast?_concat, Option.some_or, hh] at hfind
    rw [hq, List.append_assoc, List.singleton_append] at hc
    have hcut : Chain (Function.update (Function.update L.next q (L.next p)) p none)
        (L.head l) (a :: as ++ ys) := by
      rw [hq, List.append_assoc]
      exact hc.unlink
    have hnext : ∀ v r, r ∉ a :: as ++ p :: ys → r ≠ p →
        Function.update (Function.update L.next q v) p none r = L.next r := by
      intro v r hr hrp
      have hrq : r ≠ q := fun he => hr (by rw [hq]; simp [he])
      rw [update_of_ne hrp, update_of_ne hrq]
    by_cases hys : ys = []
    · -- `p` is the tail
      subst hys
      obtain rfl : p = t := Option.some.inj ((h.tail p List.getLast?_concat).symm.trans ht)
      have hnone : L.next p = none := by
        have hrest : Chain L.next (L.head l) ((zs ++ [q]) ++ p :: []) := by simpa using hc
        exact Chain.nil_iff.mp hrest.of_append
      rw [hnone] at hcut
      refine ⟨{ L with
        tail := Function.update L.tail l (some q)
        next := Function.update (Function.update L.next q none) p none },
        ?_, ⟨hcut, ?_⟩, fun _ _ => rfl, fun k hk => update_of_ne hk _ _, hnext none⟩
      · rw [stateListRemove, get_bind_apply, hh, ht]
        simp only [hap, if_false, hfind, if_true]
        rfl
      · intro x hx
        rw [List.append_nil, hq, List.getLast?_concat] at hx
        rw [← Option.some.inj hx]
        exact update_self ..
    · have hpt : p ≠ t := by
        rintro rfl
        have hlast := h.tail (ys.getLast hys) (by
          rw [List.getLast?_append_of_ne_nil _ (by simp), List.getLast?_cons,
            List.getLast?_eq_some_getLast hys]
          rfl)
        have hmem : p ∈ ys := Option.some.inj (hlast.symm.trans ht) ▸ List.getLast_mem hys
        exact (List.nodup_cons.mp (List.nodup_append.mp hnd).2.1).1 hmem
      refine ⟨{ L with next := Function.update (Function.update L.next q (L.next p)) p none },
        ?_, ⟨hcut, ?_⟩, fun _ _ => rfl, fun _ _ => rfl, hnext (L.next p)⟩
      · rw [stateListRemove, get_bind_apply, hh, ht]
        simp only [hap, if_false, hfind, if_neg hpt]
        rfl
      · intro x hx
        rw [List.getLast?_append_of_ne_nil _ hys] at hx
        refine h.tail x ?_
        rw [List.getLast?_append_of_ne_nil _ (by simp), List.getLast?_cons, hx]
        rfl

theorem stateListRemove_absent (h : Represents L l xs) {p : Option ProcPtr}
    (hp : ∀ q, p = some q → q ∉ xs) : stateListRemove l p L = .ok (-1, L) := by
  rw [stateListRemove, get_bind_apply]
  cases hh : L.head l with
  | none => rfl
  | some a =>
    cases ht : L.tail l with
    | none => rfl
    | some t =>
      cases p with
      | none => rfl
      | some p =>
        have hpxs := hp p rfl
        have hne : a ≠ p := by
          rintro rfl
          have hhead := h.chain.head_eq
          rw [hh] at hhead
          exact hpxs (List.mem_of_head? hhead.symm)
        obtain ⟨q, hq⟩ := findPrevious_notMem none h.chain hpxs (Nat.le_succ_of_le h.length_le)
        rw [hh] at hq
        simp only [hne, if_false, hq]
        rfl

end One

/-! ## The two operations on the represented lists -/

/-- `V` with `p` appended to the list `l`. -/
def push (V : StateList → List ProcPtr) (l : StateList) (p : ProcPtr) : StateList → List ProcPtr :=
  Function.update V l (V l ++ [p])

/-- `V` with `p` taken off the list `l`. -/
def pull (V : StateList → List ProcPtr) (l : StateList) (p : ProcPtr) : StateList → List ProcPtr :=
  Function.update V l ((V l).erase p)

theorem mem_push {V : StateList → List ProcPtr} {l k : StateList} {p q : ProcPtr} :
    q ∈ push V l p k ↔ q ∈ V k ∨ (k = l ∧ q = p) := by
  by_cases hk : k = l
  · subst hk
    simp [push]
  · simp [push, hk]

theorem mem_pull {V : StateList → List ProcPtr} (hnd : ∀ l, (V l).Nodup) {l k : StateList}
    {p q : ProcPtr} : q ∈ pull V l p k ↔ q ∈ V k ∧ ¬ (k = l ∧ q = p) := by
  by_cases hk : k = l
  · subst hk
    simp [pull, (hnd k).mem_erase_iff, and_comm]
  · simp [pull, hk]

/-- An operation on one list: the others keep their pointers and their cells. -/
theorem Lists.update {L L' : StateLists} {V : StateList → List ProcPtr} (h : Lists L V)
    {l : StateList} {xs : List ProcPtr} {p : ProcPtr} (hr : Represents L' l xs)
    (hu : Untouched L l (V l) p L') (hp : ∀ k, k ≠ l → p ∉ V k)
    (hxs : ∀ q ∈ xs, q ∈ V l ∨ q = p) : Lists L' (Function.update V l xs) := by
  have hother : ∀ k, k ≠ l → Function.update V l xs k = V k :=
    fun k hk => update_of_ne hk _ _
  have hnew : ∀ k, k ≠ l → ∀ q ∈ xs, q ∉ V k := by
    intro k hk q hq hqk
    rcases hxs q hq with hql | rfl
    · exact hk (h.disj k l q hqk hql)
    · exact hp k hk hqk
  refine ⟨?_, ?_, ?_⟩
  · intro k
    by_cases hk : k = l
    · subst hk
      rw [update_self]
      exact hr.chain
    · rw [hother k hk, hu.head k hk]
      refine (h.chain k).congr fun q hq => hu.next q ?_ ?_
      · exact fun hql => hk (h.disj k l q hq hql)
      · exact fun he => hp k hk (he ▸ hq)
  · intro k x hx
    by_cases hk : k = l
    · subst hk
      rw [update_self] at hx
      exact hr.tail x hx
    · rw [hother k hk] at hx
      rw [hu.tail k hk]
      exact h.tail k x hx
  · intro k k' q hq hq'
    by_cases hk : k = l
    · by_cases hk' : k' = l
      · exact hk.trans hk'.symm
      · subst hk
        rw [update_self] at hq
        rw [hother k' hk'] at hq'
        exact absurd hq' (hnew k' hk' q hq)
    · rw [hother k hk] at hq
      by_cases hk' : k' = l
      · subst hk'
        rw [update_self] at hq'
        exact absurd hq (hnew k hk q hq')
      · rw [hother k' hk'] at hq'
        exact h.disj k k' q hq hq'

/-- `stateListAdd` appends a process that is on no list. -/
theorem stateListAdd_spec {L : StateLists} {V : StateList → List ProcPtr} (h : Lists L V)
    {l : StateList} {p : ProcPtr} (hp : ∀ k, p ∉ V k) :
    wp (stateListAdd l p) (fun rc L' => rc = 0 ∧ Lists L' (push V l p)) (fun _ => False) L := by
  obtain ⟨L', hrun, hr, hu⟩ := stateListAdd_represents (h.represents l) p
  rw [enqueue_of_notMem (hp l)] at hr
  refine (wp_iff_of_ok hrun).mpr ⟨rfl, h.update hr hu (fun k _ => hp k) fun q hq => ?_⟩
  simpa using hq

/-- `stateListRemove` takes a process off the list it is on. -/
theorem stateListRemove_spec {L : StateLists} {V : StateList → List ProcPtr} (h : Lists L V)
    {l : StateList} {p : ProcPtr} (hp : p ∈ V l) :
    wp (stateListRemove l (some p)) (fun rc L' => rc = 0 ∧ Lists L' (pull V l p))
      (fun _ => False) L := by
  obtain ⟨L', hrun, hr, hu⟩ := stateListRemove_represents (h.represents l) hp
  refine (wp_iff_of_ok hrun).mpr ⟨rfl, h.update hr hu ?_ ?_⟩
  · exact fun k hk hpk => hk (h.disj k l p hpk hp)
  · exact fun q hq => .inl (List.mem_of_mem_erase hq)

end Xv6Pdx.Ptable
