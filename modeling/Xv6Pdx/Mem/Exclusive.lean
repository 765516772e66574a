/-
# `Mem.Exclusive` — every page has one owner

The system calls and the start of the machine, in the same way as `vm.c`: each
action keeps the invariant of `Mem.Owners`.  What a call does to a slot of the
process table it does as the process that runs in the slot, as the parent that
is filling it, or to a slot that nobody else relies on (`Apart`).

Then no state of any run has a page on `kmem.freelist` twice, or there and with
an owner, or with two owners.
-/
import Xv6Pdx.Mem.Boot

namespace Xv6Pdx.Mem

open Lib
open Lib.Prog (atomic modify gets safe_bind safe_seq safe_mono Safe.visits visits_of_run)
open Ptable (ProcPtr)
open Function (update update_self update_of_ne update_eq_self update_idem)

section

variable {lay : Layout} {s s' : State} {g : Ghosts} {me p np : ProcPtr} {h h' : Held} {q : Proc}
  {α : Type} {Q : α → Held → Prop}

/-! ## Slots of the process table -/

/-- No other process relies on the slot. -/
def Apart (g : Ghosts) (me p : ProcPtr) : Prop :=
  ∀ q k, q ≠ me → g q = some k → (k.self ≠ none → q ≠ p) ∧ ∀ x, k.child ≠ some (p, x)

theorem Inv.apart_of_state (hinv : Inv s g) (hlive : (s.proc p).state ≠ .live)
    (hembryo : (s.proc p).state ≠ .embryo) : Apart g me p := by
  intro q k _ hk
  refine ⟨?_, fun x hx => hembryo (hinv.child q k p x hk hx).1⟩
  rintro hself rfl
  obtain ⟨d, hd⟩ := Option.ne_none_iff_exists'.mp hself
  exact hlive (hinv.self q k d hk hd).1

theorem Inv.apart_of_child (hinv : Inv s g) (hg : g me = some h) {x : Option Page}
    (hx : h.child = some (p, x)) : Apart g me p := by
  intro q k hq hk
  refine ⟨?_, fun x' hx' => hq (hinv.lone q me k h p x' x hk hg hx' hx)⟩
  rintro hself rfl
  obtain ⟨d, hd⟩ := Option.ne_none_iff_exists'.mp hself
  have hlive := (hinv.self q k d hk hd).1
  rw [(hinv.child me h q x hg hx).1] at hlive
  cases hlive

theorem Inv.apart_of_self (hinv : Inv s g) (hg : g me = some h) {d : Page} (hd : h.self = some d) :
    Apart g me me := by
  intro q k hq hk
  refine ⟨fun _ => hq, fun x hx => ?_⟩
  have hembryo := (hinv.child q k me x hk hx).1
  rw [(hinv.self me h d hg hd).1] at hembryo
  cases hembryo

/-- A process that runs in a slot is not the one whose slot is being filled. -/
theorem Inv.self_ne_child (hinv : Inv s g) (hg : g me = some h) {d : Page} {x : Option Page}
    (hd : h.self = some d) (hx : h.child = some (np, x)) : me ≠ np := by
  rintro rfl
  have hlive := (hinv.self me h d hg hd).1
  rw [(hinv.child me h me x hg hx).1] at hlive
  cases hlive

/-- A slot nobody else relies on is changed, and `me` knows what it contains. -/
theorem Inv.setProc (hinv : Inv s g) (hap : Apart g me p) (hproc : s'.proc = update s.proc p q)
    (hsz : q.sz < KERNBASE) (hlive : q.state = .live → q.pgdir ≠ none)
    (hself : ∀ d, h'.self = some d → (s'.proc me).state = .live ∧ (s'.proc me).pgdir = some d)
    (hchild : ∀ np x, h'.child = some (np, x) →
      ((s'.proc np).state = .embryo ∧ (s'.proc np).pgdir = x) ∧ Apart g me np)
    (hl : Ledger (own s' (update g me (some h'))) s'.freelist) :
    Inv s' (update g me (some h')) := by
  have hother : ∀ q, q ≠ p → s'.proc q = s.proc q := by
    intro q hq
    rw [hproc, update_of_ne hq]
  refine ⟨hl, ?_, ?_, ?_, ?_, ?_⟩
  · intro q k d hk hd
    rcases ghost_cases hk with ⟨rfl, ⟨⟩⟩ | ⟨hq, hk⟩
    · exact hself d hd
    · rw [hother q ((hap q k hq hk).1 (by simp [hd]))]
      exact hinv.self q k d hk hd
  · intro q k np x hk hx
    rcases ghost_cases hk with ⟨rfl, ⟨⟩⟩ | ⟨hq, hk⟩
    · exact (hchild np x hx).1
    · rw [hother np]
      · exact hinv.child q k np x hk hx
      · rintro rfl
        exact (hap q k hq hk).2 x hx
  · intro q q' k k' np x x' hk hk' hx hx'
    rcases ghost_cases hk with ⟨rfl, ⟨⟩⟩ | ⟨hq, hold⟩ <;>
      rcases ghost_cases hk' with ⟨rfl, ⟨⟩⟩ | ⟨hq', hold'⟩
    · rfl
    · exact absurd hx' (((hchild np x hx).2 q' k' hq' hold').2 x')
    · exact absurd hx (((hchild np x' hx').2 q k hq hold).2 x)
    · exact hinv.lone q q' k k' np x x' hold hold' hx hx'
  · intro q'
    rcases eq_or_ne q' p with rfl | hne
    · rw [hproc, update_self]
      exact hsz
    · rw [hother q' hne]
      exact hinv.sizes q'
  · intro q'
    rcases eq_or_ne q' p with rfl | hne
    · rw [hproc, update_self]
      exact hlive
    · rw [hother q' hne]
      exact hinv.live q'

theorem Inv.vacate (hinv : Inv s g) (hg : g me = some h) {x : Option Page}
    (hx : h.child = some (np, x)) (hproc : s'.proc = update s.proc np q)
    (hstate : q.state = .unused) (hsz : q.sz < KERNBASE)
    (hl : Ledger (own s' (update g me (some (h.setChild none)))) s'.freelist) :
    Inv s' (update g me (some (h.setChild none))) := by
  refine hinv.setProc (hinv.apart_of_child hg hx) hproc hsz (by simp [hstate]) ?_ ?_ hl
  · intro d hd
    rw [hproc, update_of_ne (hinv.self_ne_child hg hd hx)]
    exact hinv.self me h d hg hd
  · rintro _ _ ⟨⟩

theorem dirOf_setProc (D : Dir) :
    dirOf (s.setProc p q) g D = if D = .proc p then q.dir else dirOf s g D := by
  cases D with
  | proc p' =>
    by_cases hp : p' = p
    · subst hp
      simp [dirOf]
    · simp [dirOf, hp]
  | _ => rfl

theorem mem_ghost (hg : g me = some h) (hmem : h'.mem = h.mem) (p : ProcPtr) :
    (update g me (some h') p).bind Held.mem = (g p).bind Held.mem := by
  by_cases hp : p = me
  · subst hp
    simp [hg, hmem]
  · rw [update_of_ne hp]

theorem ledger_slot (hl : Ledger (own s g) s.freelist) (hg : g me = some h)
    (hstack : ∀ x, q.kstack = some x → (s.proc p).kstack = some x)
    (hdir : ∀ x, q.dir = some x → (s.proc p).dir = some x) (hmem : h'.mem = h.mem)
    (hwork : h'.dir = h.dir) (hraw : h'.raw = h.raw) :
    Ledger (own (s.setProc p q) (update g me (some h'))) (s.setProc p q).freelist := by
  refine ledger_via hl id ?_ (fun _ _ _ _ _ _ he => he) ?_ rfl ?_ ?_ rfl rfl rfl
  · intro D x hx
    rw [dirOf_ghost] at hx
    split at hx
    · next hD => simp [hD, dirOf, hg, ← hwork, hx]
    · rw [dirOf_setProc] at hx
      split at hx
      · next hD => simpa [hD, dirOf] using hdir x hx
      · exact hx
  · intro p' x hx
    by_cases hp : p' = p
    · subst hp
      rw [State.setProc_proc, update_self] at hx
      exact hstack x hx
    · rwa [State.setProc_proc, update_of_ne hp] at hx
  · intro p' x hx
    rwa [mem_ghost hg hmem] at hx
  · intro p' x hx
    rwa [raw_ghost hg hraw] at hx

/-! ## `fork` -/

theorem myDir_does {Q : Page → Held → Prop} {d : Page} (hd : h.self = some d) (hQ : Q d h) :
    Does me (myDir me) Q h := by
  refine safe_bind.mpr (does_gets fun s g hg hinv => ?_)
  rw [(hinv.self me h d hg hd).2]
  exact hQ

theorem getProc_does {Q : Proc → Held → Prop} (hQ : ∀ q, q.sz < KERNBASE → Q q h) :
    Does me (getProc p) Q h :=
  does_gets fun s _ _ hinv => hQ (s.proc p) (hinv.sizes p)

/-- The slot has another kernel stack and the same directory. -/
theorem own_setProc (hq : q.dir = (s.proc p).dir) (o : Owner) :
    own (s.setProc p q) g o = if o = .kstack p then q.kstack else own s g o := by
  have hdir : ∀ D, dirOf (s.setProc p q) g D = dirOf s g D := by
    intro D
    rw [dirOf_setProc]
    split
    · next hD => rw [hD, hq, dirOf]
    · rfl
  have htable : ∀ D i, tableOf (s.setProc p q) g D i = tableOf s g D i := by
    intro D i
    simp only [tableOf, hdir, State.setProc_pde]
  cases o with
  | kstack p' =>
    by_cases hp : p' = p
    · subst hp
      simp [own]
    · simp [own, hp]
  | _ => simp [own, hdir, htable]

theorem ledger_freeStack (hl : Ledger (own s g) s.freelist) {k : Page}
    (hk : (s.proc p).kstack = some k) (hq : q.kstack = none) (hdir : q.dir = (s.proc p).dir) :
    Ledger (own (s.setProc p q) g) (k :: s.freelist) := by
  refine hl.give (o := .kstack p) hk ?_ fun o y ho => ?_
  · simp [own_setProc hdir, hq]
  · rw [own_setProc hdir] at ho
    split at ho
    · rw [hq] at ho
      cases ho
    · exact ho

theorem fill_does {Q : Unit → Held → Prop} {x x' : Option Page} {f : State → Proc}
    (hx : h.child = some (np, x)) (hstate : ∀ s, (s.proc np).state = .embryo → (f s).state = .embryo)
    (hstack : ∀ s, (f s).kstack = (s.proc np).kstack)
    (hdir : ∀ s, (s.proc np).pgdir = x → (f s).pgdir = x')
    (hsz : ∀ s, (∀ p, (s.proc p).sz < KERNBASE) → (f s).sz < KERNBASE)
    (hQ : Q () (h.setChild (some (np, x')))) :
    Does me (modify fun s => s.setProc np (f s)) Q h := by
  refine does_modify fun s g hg hinv => ⟨h.setChild (some (np, x')), ?_, hQ⟩
  obtain ⟨hemb, hpg⟩ := hinv.child me h np x hg hx
  refine hinv.setProc (hinv.apart_of_child hg hx) rfl (hsz s hinv.sizes) ?_ ?_ ?_ ?_
  · rw [hstate s hemb]
    rintro ⟨⟩
  · intro d hd
    rw [State.setProc_proc, update_of_ne (hinv.self_ne_child hg hd hx)]
    exact hinv.self me h d hg hd
  · rintro _ _ ⟨⟩
    rw [State.setProc_proc, update_self]
    exact ⟨⟨hstate s hemb, hdir s hpg⟩, hinv.apart_of_child hg hx⟩
  · refine ledger_slot hinv.ledger hg ?_ ?_ rfl rfl rfl
    · intro y hy
      rwa [hstack] at hy
    · intro y hy
      simp [Proc.dir, hstate s hemb] at hy

theorem allocStack_does {Q : Bool → Held → Prop} {x : Option Page} (hx : h.child = some (np, x))
    (hfalse : Q false h) (htrue : Q true h) :
    Does me (atomic fun s =>
      match s.freelist with
      | [] => some (.ok (false, s.setProc np { s.proc np with kstack := none }))
      | p :: l => some (.ok (true, (s.setFree l).setProc np { s.proc np with kstack := some p })))
      Q h := by
  refine does_act fun s g hg hinv a s' he => ?_
  obtain ⟨hemb, hpg⟩ := hinv.child me h np x hg hx
  have hup : update g me (some h) = g := by rw [← hg, update_eq_self]
  have hkeep : ∀ {l k}, Ledger (own ((s.setFree l).setProc np { s.proc np with kstack := k })
      (update g me (some h))) l →
      Inv ((s.setFree l).setProc np { s.proc np with kstack := k })
        (update g me (some h)) := by
    intro l k hl
    refine hinv.setProc (hinv.apart_of_child hg hx) rfl (hinv.sizes np) (by simp [hemb]) ?_ ?_ hl
    · intro d hd
      rw [State.setProc_proc, update_of_ne (hinv.self_ne_child hg hd hx)]
      exact hinv.self me h d hg hd
    · intro np' x' hx'
      rw [hx] at hx'
      cases hx'
      rw [State.setProc_proc, update_self]
      exact ⟨⟨hemb, hpg⟩, hinv.apart_of_child hg hx⟩
  have howns : ∀ k o, own (s.setProc np { s.proc np with kstack := k }) g o =
      if o = .kstack np then k else own s g o := fun _ => own_setProc rfl
  split at he
  · next hfree =>
      cases he
      refine ⟨h, hkeep (l := s.freelist) ?_, hfalse⟩
      rw [hup, setFree_setProc, own_setFree]
      refine hinv.ledger.forget fun o y ho => ?_
      rw [howns] at ho
      split at ho
      · cases ho
      · exact ho
  · next p l hfree =>
      cases he
      refine ⟨h, hkeep ?_, htrue⟩
      have hl := hinv.ledger
      rw [hfree] at hl
      refine hl.take (.kstack np) fun o y ho => ?_
      rw [hup, setFree_setProc, own_setFree, howns] at ho
      split at ho
      · next hk => exact Or.inr ⟨hk, (Option.some.inj ho).symm⟩
      · exact Or.inl ho

/-- `allocproc` leaves a slot that the process is filling, if it gets a stack. -/
theorem allocproc_does {Q : Bool → Held → Prop} (hfalse : ∀ c, Q false (h.setChild c))
    (htrue : ∀ x, Q true (h.setChild (some (np, x)))) : Does me (allocproc np) Q h := by
  have hself : ∀ {s g}, g me = some h → Inv s g → (s.proc np).state ≠ .live →
      ∀ q d, h.self = some d → ((s.setProc np q).proc me).state = .live ∧
        ((s.setProc np q).proc me).pgdir = some d := by
    intro s g hg hinv hst q d hd
    have hne : me ≠ np := by
      rintro rfl
      exact hst (hinv.self me h d hg hd).1
    rw [State.setProc_proc, update_of_ne hne]
    exact hinv.self me h d hg hd
  refine safe_bind.mpr (does_act fun s g hg hinv a s' he => ?_)
  split at he
  · next hst =>
      cases he
      refine ⟨h.setChild (some (np, (s.proc np).pgdir)), ?_, ?_⟩
      · have hap : Apart g me np := hinv.apart_of_state (by simp [hst]) (by simp [hst])
        refine hinv.setProc hap rfl (hinv.sizes np) (by simp)
          (hself hg hinv (by simp [hst]) _) ?_ ?_
        · rintro _ _ ⟨⟩
          simpa using hap
        · exact ledger_slot hinv.ledger hg (fun _ hx => hx) (by simp [Proc.dir]) rfl rfl rfl
      · generalize (s.proc np).pgdir = x
        refine safe_bind.mpr (allocStack_does rfl ?_ (htrue x))
        refine safe_bind.mpr (does_modify fun s g hg hinv =>
          ⟨(h.setChild (some (np, x))).setChild none, ?_, hfalse none⟩)
        refine hinv.vacate hg rfl rfl rfl (hinv.sizes np) ?_
        exact ledger_slot hinv.ledger hg (fun _ hx => hx) (by simp [Proc.dir]) rfl rfl rfl
  · cases he
    refine ⟨h, hinv.quiet hg rfl hinv.ledger, ?_⟩
    exact hfalse h.child

theorem dropStack_does {Q : Unit → Held → Prop} {x : Option Page} (hx : h.child = some (np, x))
    (hQ : Q () (h.setChild none)) : Does me (dropStack lay np) Q h := by
  refine does_act fun s g hg hinv a s' he => ⟨h.setChild none, ?_, hQ⟩
  split at he
  · cases he
  · next k hk =>
      split at he
      · cases he
      · next s₁ hfree =>
          cases he
          obtain rfl := kfree_ok hfree
          refine hinv.vacate hg hx rfl rfl (hinv.sizes np) ?_
          refine (ledger_freeStack hinv.ledger hk rfl ?_).forget (own_mono (within_update ?_))
          · simp [Proc.dir, (hinv.child me h np x hg hx).1]
          · rw [hg]
            exact .of_eq rfl rfl rfl

theorem start_does {Q : Unit → Held → Prop} {d : Page} {x : Option Page} {f : State → Proc}
    (hx : h.child = some (np, x)) (hdir : h.dir = some (d, 0)) (hstate : ∀ s, (f s).state = .live)
    (hstack : ∀ s, (f s).kstack = (s.proc np).kstack)
    (hpg : ∀ s, (s.proc np).pgdir = x → (f s).pgdir = some d)
    (hsz : ∀ s, (∀ p, (s.proc p).sz < KERNBASE) → (f s).sz < KERNBASE)
    (hQ : Q () ((h.setDir none).setChild none)) :
    Does me (modify fun s => s.setProc np (f s)) Q h := by
  refine does_modify fun s g hg hinv => ⟨_, ?_, hQ⟩
  have hpgdir := hpg s (hinv.child me h np x hg hx).2
  refine hinv.setProc (hinv.apart_of_child hg hx) rfl (hsz s hinv.sizes) (by simp [hpgdir]) ?_ ?_ ?_
  · intro d' hd
    rw [State.setProc_proc, update_of_ne (hinv.self_ne_child hg hd hx)]
    exact hinv.self me h d' hg hd
  · rintro _ _ ⟨⟩
  · refine ledger_swap hinv.ledger (.work me) (.proc np) ?_ ?_ ?_ ?_ rfl ?_ ?_ rfl rfl rfl
    · intro y hy
      simp [dirOf] at hy
    · intro y hy
      simpa [dirOf, Proc.dir, hstate, hpgdir, hg, hdir] using hy
    · intro E hwork hproc
      rw [dirOf_ghost, if_neg hwork, dirOf_setProc, if_neg hproc]
    · intro p y hy
      by_cases hp : p = np
      · subst hp
        simpa [hstack] using hy
      · simpa [hp] using hy
    · intro p y hy
      rwa [mem_ghost hg (by simp)] at hy
    · intro p y hy
      rwa [raw_ghost hg (by simp)] at hy

theorem fork_does {d : Page} (hd : h.self = some d) :
    Does me (fork lay me np) (fun _ _ => True) h := by
  refine safe_bind.mpr (allocproc_does (fun _ => trivial) fun x => ?_)
  refine safe_bind.mpr (myDir_does hd ?_)
  refine safe_bind.mpr (getProc_does fun q hq => ?_)
  refine safe_bind.mpr (copyuvm_does (Nat.le_of_lt hq) ?_ ?_)
  · intro h' hs
    refine safe_bind.mpr (fill_does hs.child (fun _ hst => hst) (fun _ => rfl)
      (show ∀ _, _ → _ = none from fun _ _ => rfl) (fun _ hsz => hsz np) ?_)
    exact safe_bind.mpr (dropStack_does rfl trivial)
  · intro d' h' hs hdir
    refine safe_bind.mpr (fill_does hs.child (fun _ hst => hst) (fun _ => rfl)
      (fun _ _ => rfl) (fun _ hsz => hsz np) ?_)
    refine safe_bind.mpr (fill_does rfl (fun _ hst => hst) (fun _ => rfl)
      (fun _ hpg => hpg) (fun _ hsz => hsz me) ?_)
    exact safe_bind.mpr (start_does rfl hdir (fun _ => rfl) (fun _ => rfl) (fun _ hpg => hpg)
      (fun _ hsz => hsz np) trivial)

/-! ## `exit`, `wait`, `sbrk` -/

theorem Inv.mySlot (hinv : Inv s g) (hg : g me = some h) {d : Page} (hd : h.self = some d)
    (hproc : s'.proc = update s.proc me q) (hsz : q.sz < KERNBASE)
    (hlive : q.state = .live → q.pgdir ≠ none)
    (hself : ∀ d', h'.self = some d' → q.state = .live ∧ q.pgdir = some d') (hchild : h'.child = none)
    (hl : Ledger (own s' (update g me (some h'))) s'.freelist) :
    Inv s' (update g me (some h')) := by
  refine hinv.setProc (hinv.apart_of_self hg hd) hproc hsz hlive ?_ ?_ hl
  · rw [hproc, update_self]
    exact hself
  · intro np x hx
    rw [hchild] at hx
    cases hx

theorem exit_does {d : Page} (hd : h.self = some d) (hchild : h.child = none) :
    Does me (exit me) (fun _ _ => True) h := by
  refine does_modify fun s g hg hinv => ⟨h.setSelf none, ?_, trivial⟩
  refine hinv.mySlot hg hd rfl (hinv.sizes me) (by simp) (by simp) hchild ?_
  refine ledger_slot hinv.ledger hg (fun _ hx => hx) ?_ rfl rfl rfl
  simp [Proc.dir, (hinv.self me h d hg hd).1]

theorem growproc_does {d : Page} {n : Int} (hd : h.self = some d) (hchild : h.child = none) :
    Does me (growproc lay me n) (fun _ _ => True) h := by
  refine safe_bind.mpr (myDir_does hd ?_)
  refine safe_bind.mpr (getProc_does fun q hq => ?_)
  have hsize : ∀ new, Does me (if 0 < n then allocuvm lay d q.sz new
      else if n < 0 then deallocuvm lay d q.sz new else pure q.sz)
      (fun r h' => h.Like h' ∧ r < KERNBASE) h := by
    intro new
    split
    · exact allocuvm_does (Or.inl hd) fun _ => hq
    · split
      · refine safe_mono (deallocuvm_does (Or.inl hd) (Nat.le_of_lt hq)) ?_
        rintro r _ ⟨rfl, hr⟩
        exact ⟨.refl _, Nat.lt_of_le_of_lt hr hq⟩
      · exact ⟨.refl _, hq⟩
  refine safe_seq (hsize _) ?_
  rintro r _ ⟨⟨m, rfl⟩, hr⟩
  split
  · trivial
  · refine safe_bind.mpr (does_modify fun s g hg hinv => ⟨h.setMem m, ?_, trivial⟩)
    obtain ⟨hst, hpg⟩ := hinv.self me (h.setMem m) d hg hd
    refine hinv.mySlot hg hd rfl hr (by simp [hpg]) ?_ hchild ?_
    · intro d' hd'
      cases hd.symm.trans hd'
      exact ⟨hst, hpg⟩
    · exact ledger_slot hinv.ledger hg (fun _ hx => hx) (fun _ hx => hx) rfl rfl rfl

theorem wait_does {d : Page} (hd : h.self = some d) (hchild : h.child = none) :
    Does me (wait lay p) (fun _ _ => True) h := by
  refine safe_bind.mpr (does_act fun s g hg hinv a s' he => ?_)
  split at he
  · next hz =>
      have hne : me ≠ p := by
        rintro rfl
        rw [(hinv.self me h d hg hd).1] at hz
        cases hz
      split at he
      · cases he
      · next k hk =>
          split at he
          · cases he
          · next s₁ hfree =>
              cases he
              obtain rfl := kfree_ok hfree
              refine ⟨h.setDir ((s.proc p).pgdir.map (·, 0)), ?_, ?_⟩
              · refine hinv.setProc (hinv.apart_of_state (by simp [hz]) (by simp [hz])) rfl
                  (hinv.sizes p) (by simp) ?_ ?_ ?_
                · intro d' hd'
                  rw [State.setProc_proc, update_of_ne hne]
                  exact hinv.self me h d' hg hd'
                · intro np x hx
                  rw [Held.setDir_child, hchild] at hx
                  cases hx
                · have hl : Ledger (own (s.setProc p { s.proc p with kstack := none }) g)
                      (k :: s.freelist) := ledger_freeStack hinv.ledger hk rfl rfl
                  refine ledger_swap hl (.work me) (.proc p) ?_ ?_ ?_ ?_ rfl ?_ ?_ rfl rfl rfl
                  · intro y hy
                    simpa [dirOf, Proc.dir, hz] using hy
                  · intro y hy
                    simp [dirOf, Proc.dir] at hy
                  · intro E hwork hproc
                    rw [dirOf_ghost, if_neg hwork, dirOf_setProc, if_neg hproc, dirOf_setProc,
                      if_neg hproc]
                    cases E <;> rfl
                  · intro q y hy
                    by_cases hq : q = p
                    · subst hq
                      simp at hy
                    · simpa [hq] using hy
                  · intro q y hy
                    rwa [mem_ghost hg (by simp)] at hy
                  · intro q y hy
                    rwa [raw_ghost hg (by simp)] at hy
              · show Does me (freevm lay (s.proc p).pgdir >>= fun _ => pure true) _ _
                cases (s.proc p).pgdir with
                | none => exact safe_bind.mpr does_panic
                | some d' => exact safe_bind.mpr (freevm_does rfl trivial)
  · cases he
    exact ⟨h, hinv.quiet hg rfl hinv.ledger, trivial⟩

/-! ## `exec` -/

section

-- The size of the new stack is a number the elaborator would otherwise count down.
attribute [local irreducible] PGSIZE

theorem loaduvm_does {d : Page} {ph : Phdr} : Does me (loaduvm d ph) (fun _ h' => h' = h) h := by
  rw [loaduvm]
  split
  · exact does_panic
  · refine safe_seq (Prog.safe_forM (J := fun h' => h' = h) ?_ rfl) fun _ _ he => he
    rintro i _ _ rfl
    refine safe_bind.mpr (does_gets fun s g _ _ => ?_)
    split
    · exact rfl
    · exact does_panic

theorem loadSegments_does {d : Page} : ∀ {phs : List Phdr} {sz : Nat} {h : Held},
    h.has d → sz < KERNBASE → Does me (loadSegments lay d phs sz)
      (fun r h' => h.Like h' ∧ ∀ sz ∈ r, sz < KERNBASE) h := by
  intro phs
  induction phs with
  | nil =>
    intro sz h _ hsz
    exact ⟨.refl _, by rintro _ ⟨⟩; exact hsz⟩
  | cons ph phs ih =>
    intro sz h hd hsz
    have hbad : h.Like h ∧ ∀ sz ∈ (none : Option Nat), sz < KERNBASE := ⟨.refl _, by rintro _ ⟨⟩⟩
    rw [loadSegments]
    split
    · exact hbad
    · split
      · exact ih hd hsz
      · split
        · exact hbad
        · refine safe_seq (allocuvm_does hd fun _ => hsz) ?_
          rintro r _ ⟨⟨m, rfl⟩, hr⟩
          split
          · exact ⟨⟨m, rfl⟩, by rintro _ ⟨⟩⟩
          · refine safe_seq loaduvm_does ?_
            rintro ok _ rfl
            split
            · refine safe_mono (ih (h := h.setMem m) hd hr) ?_
              rintro r' h' ⟨hl, hr'⟩
              exact ⟨Held.Like.trans ⟨m, rfl⟩ hl, hr'⟩
            · exact ⟨⟨m, rfl⟩, by rintro _ ⟨⟩⟩

theorem loadStack_does {d : Page} {sz : Nat} {args : Bool} (hd : h.has d) :
    Does me (loadStack lay d sz args) (fun r h' => h.Like h' ∧ ∀ sz ∈ r, sz < KERNBASE) h := by
  refine safe_seq (allocuvm_does hd fun hlt => ?_) ?_
  · omega
  rintro r _ ⟨⟨m, rfl⟩, hr⟩
  split
  · exact ⟨⟨m, rfl⟩, by rintro _ ⟨⟩⟩
  · refine safe_bind.mpr (does_gets fun s g _ _ => ?_)
    split
    · refine ⟨⟨m, rfl⟩, ?_⟩
      intro sz' hsz'
      split at hsz'
      · cases hsz'
        exact hr
      · cases hsz'
    · exact does_panic

theorem load_does {d : Page} {img : Image} (hd : h.has d) :
    Does me (load lay d img) (fun r h' => h.Like h' ∧ ∀ sz ∈ r, sz < KERNBASE) h := by
  rw [load]
  split
  · exact ⟨.refl _, by rintro _ ⟨⟩⟩
  · refine safe_seq (loadSegments_does hd (by decide)) ?_
    rintro r _ ⟨⟨m, rfl⟩, hr⟩
    split
    · exact ⟨⟨m, rfl⟩, by rintro _ ⟨⟩⟩
    · refine safe_mono (loadStack_does (h := h.setMem m) hd) ?_
      rintro r' h' ⟨hl, hr'⟩
      exact ⟨Held.Like.trans ⟨m, rfl⟩ hl, hr'⟩

end

/-- The commit of `exec`: the process changes its old directory for the new one. -/
theorem commit_does {Q : Option Page → Held → Prop} {d d' : Page} {sz : Nat} (hd : h.self = some d)
    (hchild : h.child = none) (hdir : h.dir = some (d', 0)) (hsz : sz < KERNBASE)
    (hQ : Q (some d) ((h.setSelf (some d')).setDir (some (d, 0)))) :
    Does me (atomic fun s => some (.ok ((s.proc me).pgdir,
      s.setProc me { s.proc me with pgdir := some d', sz := sz }))) Q h := by
  refine does_act fun s g hg hinv a s' he => ?_
  obtain ⟨hst, hpg⟩ := hinv.self me h d hg hd
  cases he
  refine ⟨(h.setSelf (some d')).setDir (some (d, 0)), ?_, hpg ▸ hQ⟩
  refine hinv.mySlot hg hd rfl hsz (by simp) ?_ hchild ?_
  · rintro _ ⟨⟩
    exact ⟨hst, rfl⟩
  · refine ledger_swap hinv.ledger (.work me) (.proc me) ?_ ?_ ?_ ?_ rfl ?_ ?_ rfl rfl rfl
    · intro y hy
      simpa [dirOf, Proc.dir, hst, hpg] using hy
    · intro y hy
      simpa [dirOf, Proc.dir, hst, hg, hdir] using hy
    · intro E hwork hproc
      rw [dirOf_ghost, if_neg hwork, dirOf_setProc, if_neg hproc]
    · intro p y hy
      by_cases hp : p = me
      · subst hp
        simpa using hy
      · simpa [hp] using hy
    · intro p y hy
      rwa [mem_ghost hg (by simp)] at hy
    · intro p y hy
      rwa [raw_ghost hg (by simp)] at hy

theorem exec_does {d : Page} {img : Image} (hd : h.self = some d) (hchild : h.child = none) :
    Does me (exec lay me img) (fun _ _ => True) h := by
  rw [exec]
  split
  · trivial
  · refine safe_bind.mpr (setupkvm_does (fun _ _ => trivial) fun d' h' hs hdir => ?_)
    refine safe_seq (load_does (Or.inr hdir)) ?_
    rintro r _ ⟨⟨m, rfl⟩, hr⟩
    split
    · exact safe_bind.mpr (freevm_does hdir trivial)
    · refine safe_bind.mpr (commit_does (hs.self.trans hd) (hs.child.trans hchild) hdir (hr _ rfl) ?_)
      exact safe_bind.mpr (freevm_does rfl trivial)

/-! ## Pipes -/

theorem own_setPipe (x : Page) (e : Option Ends) (o : Owner) : own (s.setPipe x e) g o =
      if o = .pipe x then (if e.isSome then some x else none) else own s g o := by
  cases o with
  | pipe y =>
    by_cases hy : y = x
    · subst hy
      simp [own]
    · simp [own, hy]
  | _ => rfl

theorem pipealloc_does : Does me pipealloc (fun _ _ => True) h := by
  refine safe_bind.mpr (kalloc_does trivial fun x => ?_)
  refine safe_bind.mpr (does_modify fun s g hg hinv => ⟨h.setMem none, ?_, trivial⟩)
  refine hinv.step hg rfl rfl rfl ?_
  have hmine : own s g (.mem me) = some x := by simp [own, hg]
  have howns : ∀ o, own (s.setPipe x (some ⟨true, true⟩)) (update g me (some (h.setMem none))) o =
      if o = .mem me then none else if o = .pipe x then some x else own s g o := by
    intro o
    rw [show h.setMem none = (h.setMem (some x)).setMem none from rfl, own_setMem hg, own_setPipe]
    rfl
  refine hinv.ledger.hand (fun o => if o = .pipe x then .mem me else o) ?_ ?_
  · intro o y ho
    rw [howns] at ho
    split at ho
    · cases ho
    · split at ho
      · next he => rw [if_pos he, hmine, ho]
      · next he => rwa [if_neg he]
  · intro o o' y ho ho' he
    rw [howns] at ho ho'
    split at he <;> split at he
    · next h₁ h₂ => rw [h₁, h₂]
    · rw [if_pos he.symm] at ho'
      cases ho'
    · rw [if_pos he] at ho
      cases ho
    · exact he

theorem pipeclose_does {x : Page} {w : Bool} : Does me (pipeclose lay x w) (fun _ _ => True) h := by
  refine does_act fun s g hg hinv a s' he => ⟨h, ?_, trivial⟩
  split at he
  · cases he
  · next e hpipe =>
      have hown : own s g (.pipe x) = some x := by simp [own, hpipe]
      generalize (if w = true then e.writeopen else e.readopen) = b at he
      generalize (if w = true then { e with writeopen := false }
        else { e with readopen := false } : Ends) = e' at he
      split at he
      · cases he
      · dsimp only at he
        split at he
        · split at he
          · cases he
          · next s₁ hk =>
              cases he
              obtain rfl := kfree_ok hk
              refine hinv.quiet hg rfl ?_
              refine hinv.ledger.give (o := .pipe x) hown ?_ fun o y ho => ?_
              · simp [own_setPipe]
              · rw [own_setPipe, own_setFree] at ho
                split at ho
                · cases ho
                · exact ho
        · cases he
          refine hinv.quiet hg rfl (hinv.ledger.forget fun o y ho => ?_)
          rw [own_setPipe] at ho
          split at ho
          · next ho' => rw [ho', hown]; exact ho
          · exact ho

/-! ## The start of the machine -/

theorem freeRaw_does {Q : Unit → Held → Prop} {n x : Nat} (hraw : h.raw = some n) (hn : n ≤ x)
    (hQ : Q () (h.setRaw (some (x + 1)))) : Does me (kfree lay x id) Q h := by
  refine does_act fun s g hg hinv a s' he => ⟨_, ?_, hQ⟩
  split at he
  · cases he
  · next s₁ hk =>
      cases he
      obtain rfl := kfree_ok hk
      refine hinv.step hg rfl rfl rfl ?_
      rw [id, own_setFree]
      refine hinv.ledger.give (o := .raw me x) ?_ ?_ (own_mono (within_update ?_))
      · simp [own, hg, hraw, hn]
      · simp [own]
      · rw [hg]
        refine ⟨fun _ hm => hm, fun _ m hd => ⟨m, Nat.le_refl m, hd⟩, ?_⟩
        rintro _ ⟨⟩
        exact ⟨n, Nat.le_succ_of_le hn, hraw⟩

theorem freerange_does : ∀ {k x n : Nat} {h : Held}, h.raw = some n → n ≤ x →
    Does me ((List.range' x k).forM fun p => kfree lay p id)
      (fun _ h' => ∃ m : Nat, h' = h.setRaw (some m) ∧ (k = 0 ∧ m = n ∨ 0 < k ∧ m = x + k)) h := by
  intro k
  induction k with
  | zero =>
    intro x n h hraw _
    exact ⟨n, by rw [← hraw]; rfl, Or.inl ⟨rfl, rfl⟩⟩
  | succ k ih =>
    intro x n h hraw hn
    refine safe_bind.mpr (freeRaw_does hraw hn ?_)
    refine safe_mono (ih rfl (Nat.le_refl _)) ?_
    rintro _ _ ⟨m, rfl, hm⟩
    exact ⟨m, rfl, by omega⟩

theorem kvmalloc_does {Q : Unit → Held → Prop} (hQ : ∀ h', h.Same h' → Q () h') :
    Does me (kvmalloc lay) Q h := by
  refine safe_bind.mpr (setupkvm_does ?_ ?_)
  · intro h' hs
    refine does_modify fun s g hg hinv => ⟨h', hinv.quiet hg rfl ?_, hQ h' hs⟩
    refine ledger_via hinv.ledger id ?_ (fun _ _ _ _ _ _ he => he) (fun _ _ hx => hx) rfl
      (fun _ _ hx => hx) (fun _ _ hx => hx) rfl rfl rfl
    intro D y hy
    cases D with
    | kernel => cases hy
    | _ => exact hy
  · intro d h' hs hdir
    refine does_modify fun s g hg hinv => ⟨h'.setDir none, hinv.step hg rfl rfl rfl ?_,
      hQ _ ⟨hs.self, hs.child, hs.raw⟩⟩
    refine ledger_swap hinv.ledger (.work me) .kernel ?_ ?_ ?_ (fun _ _ hx => hx) rfl ?_ ?_ rfl rfl rfl
    · intro y hy
      simp [dirOf] at hy
    · intro y hy
      simpa [dirOf, hg, hdir] using hy
    · intro E hwork hkernel
      rw [dirOf_ghost, if_neg hwork]
      cases E with
      | kernel => exact absurd rfl hkernel
      | _ => rfl
    · intro p y hy
      rwa [mem_ghost hg (by simp)] at hy
    · intro p y hy
      rwa [raw_ghost hg (by simp)] at hy

theorem own_setCpu (k : Nat) (x : Option Page) (o : Owner) :
    own { s with cpuStack := update s.cpuStack k x } g o =
      if o = .cpu k then x else own s g o := by
  cases o with
  | cpu k' =>
    by_cases hk : k' = k
    · subst hk
      simp [own]
    · simp [own, hk]
  | _ => rfl

theorem startothers_does {n : Nat} : Does me (startothers n) (fun _ h' => h' = h) h := by
  refine Prog.safe_forM (J := fun h' => h' = h) ?_ rfl
  rintro k _ h' rfl
  refine does_act fun s g hg hinv a s' he => ?_
  split at he
  · cases he
    refine ⟨h', hinv.quiet hg rfl (hinv.ledger.forget fun o y ho => ?_), rfl⟩
    rw [own_setCpu] at ho
    split at ho
    · cases ho
    · exact ho
  · next p l hfree =>
      cases he
      refine ⟨h', hinv.quiet hg rfl ?_, rfl⟩
      have hl := hinv.ledger
      rw [hfree] at hl
      refine hl.take (.cpu k) fun o y ho => ?_
      have ho' := (own_setCpu (s := s.setFree l) k (some p) o).symm.trans ho
      split at ho'
      · next hk => exact Or.inr ⟨hk, (Option.some.inj ho').symm⟩
      · exact Or.inl ho'

theorem userinit_does : Does me (userinit lay p) (fun _ _ => True) h := by
  refine safe_bind.mpr (allocproc_does (fun _ => does_panic) fun x => ?_)
  refine safe_bind.mpr (setupkvm_does (fun _ _ => does_panic) fun d h' hs hdir => ?_)
  refine safe_bind.mpr (kalloc_does does_panic fun pa => ?_)
  refine safe_bind.mpr (mapNew_does (Or.inr hdir) (by decide) (by decide) fun ok h'' hl => ?_)
  obtain ⟨m, rfl⟩ := hl
  exact start_does hs.child hdir (fun _ => rfl) (fun _ => rfl) (fun _ _ => rfl)
    (fun _ _ => show PGSIZE < KERNBASE by decide) trivial

theorem main_does {ncpu : Nat} (hraw : h.raw = some 0) :
    Does me (main lay ncpu p) (fun _ _ => True) h := by
  refine safe_seq (freerange_does hraw (Nat.zero_le _)) ?_
  rintro _ _ ⟨m, rfl, hm⟩
  refine safe_bind.mpr (kvmalloc_does fun h' hs => ?_)
  refine safe_seq startothers_does ?_
  rintro _ _ rfl
  refine safe_seq (freerange_does hs.raw (by omega)) ?_
  rintro _ _ ⟨m', rfl, -⟩
  exact userinit_does

/-! ## Every state -/

/-- A process begins a call with nothing in its variables. -/
theorem Inv.begin (hinv : Inv s g) (hg : g me = none) (hlive : (s.proc me).state = .live) :
    Inv s (update g me (some (.call (s.proc me).pgdir))) := by
  refine ⟨hinv.ledger.forget (own_mono (within_update ?_)), ?_, ?_, ?_, hinv.sizes, hinv.live⟩
  · rw [hg]
    exact ⟨fun _ hm => hm, by rintro _ _ ⟨⟩, by rintro _ ⟨⟩⟩
  · intro q k d hk hd
    rcases ghost_cases hk with ⟨rfl, ⟨⟩⟩ | ⟨-, hk⟩
    · exact ⟨hlive, hd⟩
    · exact hinv.self q k d hk hd
  · intro q k np x hk hx
    rcases ghost_cases hk with ⟨-, ⟨⟩⟩ | ⟨-, hk⟩
    · cases hx
    · exact hinv.child q k np x hk hx
  · intro q q' k k' np x x' hk hk' hx hx'
    rcases ghost_cases hk with ⟨-, ⟨⟩⟩ | ⟨-, hk⟩
    · cases hx
    · rcases ghost_cases hk' with ⟨-, ⟨⟩⟩ | ⟨-, hk'⟩
      · cases hx'
      · exact hinv.lone q q' k k' np x x' hk hk' hx hx'

theorem Inv.forget (hinv : Inv s g) : Inv s (update g me none) := by
  have hcases : ∀ q k, update g me none q = some k → g q = some k := by
    intro q k hk
    rcases ghost_cases hk with ⟨-, ⟨⟩⟩ | ⟨-, hk⟩
    exact hk
  refine ⟨hinv.ledger.forget (own_mono (within_update ?_)), ?_, ?_, ?_, hinv.sizes, hinv.live⟩
  · exact ⟨by rintro _ ⟨⟩, by rintro _ _ ⟨⟩, by rintro _ ⟨⟩⟩
  · exact fun q k d hk => hinv.self q k d (hcases q k hk)
  · exact fun q k np x hk => hinv.child q k np x (hcases q k hk)
  · exact fun q q' k k' np x x' hk hk' =>
      hinv.lone q q' k k' np x x' (hcases q k hk) (hcases q' k' hk')

theorem Call.does {d : Page} (call : Call) (hd : h.self = some d) (hchild : h.child = none) :
    Does me (call.prog lay me) (fun _ _ => True) h := by
  cases call with
  | fork np => exact safe_bind.mpr (safe_mono (fork_does hd) fun _ _ _ => trivial)
  | exec img => exact safe_bind.mpr (safe_mono (exec_does hd hchild) fun _ _ _ => trivial)
  | exit => exact exit_does hd hchild
  | wait p => exact safe_bind.mpr (safe_mono (wait_does hd hchild) fun _ _ _ => trivial)
  | sbrk n => exact safe_bind.mpr (safe_mono (growproc_does hd hchild) fun _ _ _ => trivial)
  | pipe => exact safe_bind.mpr (safe_mono pipealloc_does fun _ _ _ => trivial)
  | pipeclose x w => exact pipeclose_does

theorem blank_inv : Inv blank (update (fun _ => none) p (some .boot)) := by
  have hdir : ∀ D, dirOf blank (update (fun _ => none) p (some .boot)) D = none := by
    intro D
    rw [dirOf_ghost]
    split
    · rfl
    · cases D <;> rfl
  have hghost : ∀ q k, update (fun _ => none) p (some Held.boot) q = some k → k = .boot := by
    intro q k hk
    rcases ghost_cases hk with ⟨-, ⟨⟩⟩ | ⟨-, ⟨⟩⟩
    rfl
  have howns : ∀ o x, own blank (update (fun _ => none) p (some .boot)) o = some x →
      o = .raw p x := by
    intro o x ho
    cases o with
    | mem q =>
      obtain ⟨k, hk, hm⟩ := Option.bind_eq_some_iff.mp ho
      rw [hghost q k hk] at hm
      cases hm
    | raw q y =>
      by_cases hq : q = p
      · subst hq
        simpa [own, Held.boot] using ho
      · simp [own, hq] at ho
    | pgdir D => simp [own, hdir] at ho
    | table D i => simp [own, tableOf, hdir] at ho
    | user D i j => simp [own, tableOf, hdir] at ho
    | _ => cases ho
  refine ⟨⟨List.nodup_nil, fun _ _ _ => List.not_mem_nil, ?_⟩, ?_, ?_, ?_, fun _ => show 0 < KERNBASE by decide, ?_⟩
  · intro o o' x ho ho'
    rw [howns o x ho, howns o' x ho']
  · intro q k d hk hd
    rw [hghost q k hk] at hd
    cases hd
  · intro q k np x hk hx
    rw [hghost q k hk] at hx
    cases hx
  · intro q _ k _ np x _ hk _ hx
    rw [hghost q k hk] at hx
    cases hx
  · rintro q ⟨⟩

theorem main_inv {ncpu : Nat} (hv : (main lay ncpu p).Visits blank s) : Inv s fun _ => none := by
  obtain ⟨h', hinv⟩ := Safe.visits (fun _ => trivial)
    (show Does p (main lay ncpu p) (fun _ _ => True) .boot from main_does rfl) (update_self ..) blank_inv hv
  have hinv' : Inv s (update _ p none) := hinv.forget
  rwa [update_idem, update_idem, update_eq_self] at hinv'

theorem reachable_good {ncpu : Nat} {c : Pool State String ProcPtr} (hc : Reachable lay ncpu c) :
    Pool.Good protocol (fun _ => True) c := by
  refine Pool.Reachable.good (P := protocol) ?_ ?_ (fun _ _ _ _ hinv _ _ => hinv.forget) hc
  · rintro s ⟨p, hr⟩
    exact main_inv (visits_of_run hr)
  · rintro s g me _ hinv hg ⟨hlive, call, rfl⟩
    obtain ⟨d, hd⟩ := Option.ne_none_iff_exists'.mp (hinv.live me hlive)
    exact ⟨_, hinv.begin hg hlive, call.does hd rfl⟩

/-- In every state a page is on `kmem.freelist` at most once, a page on the list has
no owner, and no page has two; so no page is mapped by two processes. -/
theorem pages_exclusive {ncpu : Nat} (hs : Occurs lay ncpu s) : s.freelist.Nodup ∧
    (∀ o x, own s (fun _ => none) o = some x → x ∉ s.freelist) ∧
    (∀ o o' x, own s (fun _ => none) o = some x → own s (fun _ => none) o' = some x → o = o') ∧
    ∀ p p' i i' j j' x, own s (fun _ => none) (.user (.proc p) i j) = some x →
      own s (fun _ => none) (.user (.proc p') i' j') = some x → p = p' := by
  have hl : Ledger (own s fun _ => none) s.freelist := by
    rcases hs with ⟨p, hv⟩ | ⟨c, hc, rfl⟩
    · exact (main_inv hv).ledger
    · obtain ⟨g, hinv, -, -⟩ := reachable_good hc
      have hinv' : Inv c.state g := hinv
      refine hinv'.ledger.forget (own_mono fun q => ?_)
      exact ⟨by rintro _ ⟨⟩, by rintro _ _ ⟨⟩, by rintro _ ⟨⟩⟩
  refine ⟨hl.nodup, hl.apart, hl.single, ?_⟩
  intro p p' i i' j j' x hx hx'
  cases hl.single _ _ x hx hx'
  rfl

/-- The first process forks, and each has a page of its own. -/
theorem forked_exclusive : ∃ s d t x d' t' x', Occurs smallKernel 0 s ∧ Runs s 0 d t x ∧
    Runs s 1 d' t' x' ∧ x ≠ x' ∧ x ∉ s.freelist ∧ x' ∉ s.freelist ∧ s.freelist.Nodup := by
  obtain ⟨s, hrun, ⟨d, t, x, hr⟩, hnp, hlen⟩ := main_runs
  have hl := (main_inv (visits_of_run hrun)).ledger
  obtain ⟨ok, s', hfork, hr', d', t', x', hr₁⟩ := Prog.run_of_ends (fork_ends hr
    (by decide : (1 : ProcPtr) ≠ 0) hnp (hl.apart _ _ hr.owns.1) (hl.apart _ _ hr.owns.2.1) hlen)
  have hrun' : ((Call.fork 1).prog smallKernel 0).run s = some (.ok ((), s')) := by
    show (fork smallKernel 0 1 >>= fun _ => pure ()).run s = _
    rw [Prog.run_bind, hfork]
    rfl
  have hinit : Reachable smallKernel 0 ⟨s, fun _ => pure ()⟩ := .init ⟨0, hrun⟩
  have hc : Reachable smallKernel 0 ⟨s', fun _ => pure ()⟩ :=
    Pool.Reachable.alone (i := 0) (fun _ => trivial) hinit rfl ⟨hr.state, .fork 1, rfl⟩ hrun'
  have hs : Occurs smallKernel 0 s' := .inr ⟨_, hc, rfl⟩
  obtain ⟨hnodup, hapart, -, huser⟩ := pages_exclusive hs
  refine ⟨s', d, t, x, d', t', x', hs, hr', hr₁, ?_, hapart _ _ hr'.owns.2.2,
    hapart _ _ hr₁.owns.2.2, hnodup⟩
  rintro rfl
  exact absurd (huser 0 1 _ _ _ _ x hr'.owns.2.2 hr₁.owns.2.2) (by decide)

end

end Xv6Pdx.Mem
