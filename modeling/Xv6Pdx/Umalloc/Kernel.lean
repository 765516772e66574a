/-
# `Umalloc.Kernel` — the allocator over the kernel's `sbrk`

`malloc` rounds the request to units in 32 bits, `morecore` multiplies by the size
of a header in 32 bits, `sys_sbrk` takes the product for an `int`, and `growproc`
adds it to the size of the process in 32 bits again.  Up to 2^31 - 16 bytes nothing
is lost on the way.  Above, `sbrk` is asked for a negative number: it takes memory
away, or changes nothing and returns the end of memory all the same, and for the
last seven values the units wrap to one.
-/
import Xv6Pdx.Lib.Invariant
import Xv6Pdx.Umalloc.Sound
import Xv6Pdx.Vm.Grow

namespace Xv6Pdx.Umalloc

open Lib Span
open Mem (PGSIZE PGROUNDUP)

namespace Kernel

/-! ## The size of a process -/

/-- What `allocuvm` returns; `room`: `kalloc` has every page it asks for. -/
def allocuvm (room : Bool) (oldsz newsz : Nat) : Nat :=
  if newsz ≥ KERNBASE then 0
  else if newsz < oldsz then oldsz
  else if room then newsz
  else 0

def deallocuvm (oldsz newsz : Nat) : Nat := if newsz ≥ oldsz then oldsz else newsz

def checked (sz : Nat) : Option Nat := if sz = 0 then none else some sz

/-- `growproc(n)`: the new `proc->sz`, or `none` for -1. -/
def growproc (room : Bool) (sz : Nat) (n : BitVec 32) : Option Nat :=
  let newsz := (sz + n.toNat) % 2 ^ 32
  if 0 < n.toInt then checked (allocuvm room sz newsz)
  else if n.toInt < 0 then checked (deallocuvm sz newsz)
  else some sz

/-! ### The sizes are those of `growproc` over page tables -/

section Sizes

variable {lay : Mem.Layout} {s : Vm.Task} {hand : List Mem.Page} {n : BitVec 32} {E : String → Prop}

/-- There is room if `kalloc` refuses none of the requests of `allocuvm`, and there is not if it
refuses a page of memory first; a page table that it refuses is not noticed. -/
def Room (s : Vm.Task) (n : BitVec 32) (room : Bool) : Prop :=
  match s.mem.refused (Vm.allocRequests s.mem s.pgdir s.sz ((s.sz + n.toNat) % 2 ^ 32)) with
  | none => room = true
  | some .page => room = false
  | some .table => True

/-- The result and the size are those of `growproc` here. -/
def Sizes (s : Vm.Task) (n : BitVec 32) (r : Int) (s' : Vm.Task) : Prop :=
  ∃ room, Room s n room ∧ ((r = 0 ∧ growproc room s.sz n = some s'.sz) ∨
    (r = -1 ∧ growproc room s.sz n = none ∧ s'.sz = s.sz))

theorem exists_room (s : Vm.Task) (n : BitVec 32) : ∃ room, Room s n room := by
  unfold Room
  split
  · exact ⟨true, rfl⟩
  · exact ⟨false, rfl⟩
  · exact ⟨true, trivial⟩

theorem sizes_of_checked (room : Bool) {sz : Nat} {m : Vm.Memory} (hroom : Room s n room)
    (h : growproc room s.sz n = checked sz) :
    (if sz = 0 then pure (-1) else Vm.setSize sz : Vm.TaskM Int).ends (Sizes s n) E
      { s with mem := m } := by
  by_cases h0 : sz = 0
  · rw [checked, if_pos h0] at h
    rw [if_pos h0]
    exact ⟨room, hroom, .inr ⟨rfl, h, rfl⟩⟩
  · rw [checked, if_neg h0] at h
    rw [if_neg h0]
    exact ⟨room, hroom, .inl ⟨rfl, h⟩⟩

theorem sizes_more (h : Vm.Space lay s.mem s.pgdir hand) (hexact : s.mem.Exact s.pgdir s.sz)
    (hpos : 0 < n.toInt) : (Vm.growproc lay n).ends (Sizes s n) E s := by
  have hsz := hexact.lt_KERNBASE h
  have hint := n.toInt_eq_toNat_cond
  have hlt := n.isLt
  have hgrow : ∀ room, growproc room s.sz n =
      checked (allocuvm room s.sz ((s.sz + n.toNat) % 2 ^ 32)) := fun _ => if_pos hpos
  have hle : s.sz ≤ (s.sz + n.toNat) % 2 ^ 32 := by
    simp only [KERNBASE] at hsz
    omega
  rw [Vm.growproc, Prog.ends_bind, Prog.ends_gets]
  dsimp only [id]
  rw [if_pos hpos, Prog.ends_bind, Vm.Task.ends_vm]
  by_cases hmax : (s.sz + n.toNat) % 2 ^ 32 < KERNBASE
  · have halloc : ∀ room, growproc room s.sz n =
        checked (if room then (s.sz + n.toNat) % 2 ^ 32 else 0) := by
      intro room
      rw [hgrow, allocuvm, if_neg (not_le.mpr hmax), if_neg (not_lt.mpr hle)]
    refine Prog.ends_mono (Vm.allocuvm_ends h hexact hle hmax) ?_ (fun _ he => he)
    rintro r m' ⟨hand', ⟨rfl, -, hacc⟩ | ⟨rfl, -, hgiven⟩⟩
    · refine sizes_of_checked true ?_ (halloc true)
      rcases hacc.missing with ⟨-, -, href⟩ | ⟨href, -⟩ <;> rw [Room, Vm.allocRequests, href]
      trivial
    · refine sizes_of_checked false ?_ (halloc false)
      rcases hgiven.why with ⟨-, href⟩ | ⟨href, -⟩ <;> rw [Room, Vm.allocRequests, href]
      trivial
  · obtain ⟨room, hroom⟩ := exists_room s n
    have halloc : allocuvm room s.sz ((s.sz + n.toNat) % 2 ^ 32) = 0 := if_pos (not_lt.mp hmax)
    rw [Vm.allocuvm, if_pos (not_lt.mp hmax)]
    exact sizes_of_checked _ hroom ((hgrow room).trans (congrArg checked halloc))

theorem sizes_less (h : Vm.Space lay s.mem s.pgdir hand) (hexact : s.mem.Exact s.pgdir s.sz)
    (hneg : n.toInt < 0) : (Vm.growproc lay n).ends (Sizes s n) E s := by
  have hsz := hexact.lt_KERNBASE h
  obtain ⟨room, hroom⟩ := exists_room s n
  have hgrow : growproc room s.sz n = checked (deallocuvm s.sz ((s.sz + n.toNat) % 2 ^ 32)) :=
    (if_neg hneg.not_gt).trans (if_pos hneg)
  rw [Vm.growproc, Prog.ends_bind, Prog.ends_gets]
  dsimp only [id]
  rw [if_neg hneg.not_gt, if_pos hneg, Prog.ends_bind, Vm.Task.ends_vm]
  generalize (s.sz + n.toNat) % 2 ^ 32 = newsz at hgrow ⊢
  by_cases hkeep : newsz ≥ s.sz
  · rw [deallocuvm, if_pos hkeep] at hgrow
    rw [Vm.deallocuvm, if_pos hkeep]
    exact sizes_of_checked _ hroom hgrow
  · rw [deallocuvm, if_neg hkeep] at hgrow
    have hle : Vm.pagesFor newsz ≤ Vm.pagesFor s.sz := by
      simp only [Vm.pagesFor, PGSIZE]
      omega
    have hbelow := hexact.below hsz.le
    have hmeets : s.mem.Meets s.pgdir (Vm.pagesFor newsz) (Vm.pagesFor s.sz) :=
      Vm.meets_of_start _ (Vm.starts_of_below fun k hk => hbelow k (by omega))
    refine Prog.ends_mono (Vm.deallocuvm_ends h (by omega) hsz.le hmeets) ?_ (fun _ he => he)
    rintro r m' ⟨rfl, -⟩
    exact sizes_of_checked _ hroom hgrow

/-- In a well-formed address space `growproc` over page tables returns, and says of the
size what `growproc` says here, with the answers of `kalloc` for `room`. -/
theorem growproc_sizes (h : Vm.Space lay s.mem s.pgdir hand) (hexact : s.mem.Exact s.pgdir s.sz)
    (n : BitVec 32) : ∃ r s', (Vm.growproc lay n).run s = some (.ok (r, s')) ∧ Sizes s n r s' := by
  have hends : (Vm.growproc lay n).ends (Sizes s n) (fun _ => False) s := by
    rcases lt_trichotomy 0 n.toInt with hpos | hzero | hneg
    · exact sizes_more h hexact hpos
    · obtain ⟨room, hroom⟩ := exists_room s n
      rw [Vm.growproc, Prog.ends_bind, Prog.ends_gets]
      dsimp only [id]
      rw [if_neg (by omega), if_neg (by omega)]
      exact ⟨room, hroom, .inl ⟨rfl, (if_neg (by omega)).trans (if_neg (by omega))⟩⟩
    · exact sizes_less h hexact hneg
  rcases Prog.ends_iff_run.mp hends with ⟨r, s', hrun, hres⟩ | ⟨_, _, hfalse⟩
  · exact ⟨r, s', hrun, hres⟩
  · exact hfalse.elim

/-- A process without memory grows by two pages: there are pages for these and for a table. -/
theorem growproc_sizes_two :
    let s : Vm.Task := { mem := Vm.emptyDir [301, 302, 303], sz := 0, pgdir := 300 }
    ∃ s', (Vm.growproc Vm.smallKernel 8192).run s = some (.ok (0, s')) ∧ s'.sz = 8192 ∧
      Room s 8192 true := by
  intro s
  obtain ⟨hspace, hexact⟩ := Vm.emptyDir_space (f := [301, 302, 303]) (by decide)
  have href : s.mem.refused (Vm.allocRequests s.mem s.pgdir s.sz
      ((s.sz + (8192 : BitVec 32).toNat) % 2 ^ 32)) = none := by decide +kernel
  obtain ⟨r, s', hrun, room, hroom, hsize⟩ := growproc_sizes (s := s) hspace hexact 8192
  have hroom' : room = true := by
    unfold Room at hroom
    rwa [href] at hroom
  subst hroom'
  have hgrow : growproc true s.sz 8192 = some 8192 := by decide
  rw [hgrow] at hsize
  obtain ⟨rfl, hsz⟩ | ⟨-, hno, -⟩ := hsize
  · exact ⟨s', hrun, (Option.some.inj hsz).symm, hroom⟩
  · cases hno

end Sizes

/-! ### `sbrk` -/

/-- `sbrk(n)`.  The answers only say whether there is memory; where it is, the size of the
process says.  The -1 of a `deallocuvm` that has freed every page is left out. -/
def sbrk (n : Nat) : HeapM (Option Nat) := do
  let s ← get
  set { s with calls := s.calls + 1 }
  match growproc (s.answers s.calls).isSome s.top (BitVec.ofNat 32 n) with
  | none => if (BitVec.ofNat 32 n).toInt < 0 then throw (.trap s.top) else return none
  | some sz =>
    modify fun t => { t with
      top := sz
      regions := if s.top < sz then ⟨s.top, n⟩ :: t.regions else t.regions }
    return some s.top

/-- The page of an address is mapped, or the access traps. -/
def touch (x : Nat) : HeapM Unit := do
  let s ← get
  if PGROUNDUP s.top ≤ x then throw (.trap s.top)

def os : Os := { sbrk := sbrk, touch := touch }

theorem os_sbrk : os.sbrk = sbrk := rfl

theorem os_touch : os.touch = touch := rfl

end Kernel

open Kernel (os_sbrk os_touch)

/-- `malloc(nbytes)` of a process of this kernel. -/
def kmalloc (base nbytes : Nat) : HeapM Nat := mallocBy base Kernel.os nbytes

/-! ## A positive `sbrk` -/

def Heap.full (s : Heap) (n : Nat) : Prop := KERNBASE ≤ s.top + n ∨ s.answers s.calls = none

/-- The memory of a process that had `t` bytes. -/
structure Grown (t : Nat) (s : Heap) : Prop where
  aligned : s.top % 8 = 0
  bound : s.top < KERNBASE
  more : t ≤ s.top

section

variable {base : Nat} {s s' : Heap} {F U : List Span} {n t : Nat}

/-- The state after `sbrk` has given `n` bytes. -/
def Heap.given (s : Heap) (n : Nat) : Heap :=
  { s with calls := s.calls + 1, top := s.top + n, regions := ⟨s.top, n⟩ :: s.regions }

theorem toInt_small (h : n < 2 ^ 31) :
    (BitVec.ofNat 32 n).toNat = n ∧ (BitVec.ofNat 32 n).toInt = n := by
  have hnat : (BitVec.ofNat 32 n).toNat = n := by
    rw [BitVec.toNat_ofNat]
    omega
  rw [BitVec.toInt_eq_toNat_cond, hnat]
  omega

theorem growproc_more {room : Bool} {sz : Nat} (hb : sz < KERNBASE) (h0 : 0 < n) (hn : n < 2 ^ 31) :
    Kernel.growproc room sz (BitVec.ofNat 32 n) =
      if sz + n < KERNBASE ∧ room = true then some (sz + n) else none := by
  obtain ⟨hnat, hint⟩ := toInt_small hn
  have hsum : (sz + n) % 2 ^ 32 = sz + n := by
    unfold KERNBASE at hb
    omega
  simp only [Kernel.growproc, hnat, hint, hsum, Kernel.allocuvm, Kernel.checked]
  rw [if_pos (by omega)]
  by_cases hk : sz + n < KERNBASE
  · have hle : ¬ sz + n < sz := by omega
    cases room with
    | true => simp [hk, Nat.not_le.mpr hk, hle, h0.ne']
    | false => simp [hk, Nat.not_le.mpr hk, hle]
  · simp [hk, Nat.not_lt.mp hk]

theorem sbrk_of_none
    (h : Kernel.growproc (s.answers s.calls).isSome s.top (BitVec.ofNat 32 n) = none) :
    Kernel.sbrk n s = if (BitVec.ofNat 32 n).toInt < 0 then .error (.trap s.top)
      else .ok (none, { s with calls := s.calls + 1 }) := by
  have hset : (set { s with calls := s.calls + 1 } : HeapM PUnit) s =
      .ok (⟨⟩, { s with calls := s.calls + 1 }) := rfl
  rw [Kernel.sbrk, get_bind_apply, bind_of_ok hset]
  simp only [h]
  split <;> rfl

theorem sbrk_of_some {sz : Nat}
    (h : Kernel.growproc (s.answers s.calls).isSome s.top (BitVec.ofNat 32 n) = some sz) :
    Kernel.sbrk n s = .ok (some s.top, { s with
      calls := s.calls + 1
      top := sz
      regions := if s.top < sz then ⟨s.top, n⟩ :: s.regions else s.regions }) := by
  have hset : (set { s with calls := s.calls + 1 } : HeapM PUnit) s =
      .ok (⟨⟩, { s with calls := s.calls + 1 }) := rfl
  rw [Kernel.sbrk, get_bind_apply, bind_of_ok hset]
  simp only [h]
  rfl

theorem sbrk_refused (hb : s.top < KERNBASE) (h0 : 0 < n) (hn : n < 2 ^ 31) (hfull : s.full n) :
    Kernel.sbrk n s = .ok (none, { s with calls := s.calls + 1 }) := by
  have hnone : ¬ (s.top + n < KERNBASE ∧ (s.answers s.calls).isSome = true) := by
    rintro ⟨hlt, hroom⟩
    rcases hfull with hge | hno
    · omega
    · rw [hno] at hroom
      cases hroom
  have hint := (toInt_small hn).2
  rw [sbrk_of_none (by rw [growproc_more hb h0 hn, if_neg hnone]), if_neg (by omega)]

theorem sbrk_given (hb : s.top < KERNBASE) (h0 : 0 < n) (hn : n < 2 ^ 31) (hfull : ¬ s.full n) :
    Kernel.sbrk n s = .ok (some s.top, s.given n) := by
  have hsome : s.top + n < KERNBASE ∧ (s.answers s.calls).isSome = true := by
    refine ⟨?_, ?_⟩
    · exact Nat.lt_of_not_le fun hge => hfull (.inl hge)
    · exact Option.isSome_iff_ne_none.mpr fun hno => hfull (.inr hno)
  rw [sbrk_of_some (by rw [growproc_more hb h0 hn, if_pos hsome])]
  rw [if_pos (by omega)]
  rfl

theorem touch_mapped {x : Nat} (h : ¬ PGROUNDUP s.top ≤ x) : Kernel.touch x s = .ok ((), s) := by
  rw [Kernel.touch, get_bind_apply]
  exact congrFun (if_neg h) s

theorem touch_traps {x : Nat} (h : PGROUNDUP s.top ≤ x) :
    Kernel.touch x s = .error (.trap s.top) := by
  rw [Kernel.touch, get_bind_apply]
  exact congrFun (if_pos h) s

theorem given_touch (ht : s.top + n < KERNBASE) (h0 : 0 < n) :
    Kernel.touch s.top (s.given n) = .ok ((), s.given n) := by
  have hmapped : ¬ PGROUNDUP (s.top + n) ≤ s.top := by
    simp only [PGROUNDUP, PGSIZE, KERNBASE] at *
    omega
  exact touch_mapped hmapped

theorem kernel_gives (base t : Nat) : Gives base Kernel.os (Grown t) where
  sbrk {s F U n} hI h hn h8 hlt := by
    by_cases hfull : s.full n
    · refine (wp_iff_of_ok (sbrk_refused hI.bound (by omega) hlt hfull)).mpr ?_
      exact ⟨⟨hI.aligned, hI.bound, hI.more⟩, .inl ⟨rfl, h.congr rfl h.freep rfl rfl⟩⟩
    · have hb : s.top + n < KERNBASE := Nat.lt_of_not_le fun hge => hfull (.inl hge)
      have h32 : s.top + n < 2 ^ 32 := by
        unfold KERNBASE at hb
        omega
      have hal := hI.aligned
      have hmore := hI.more
      refine (wp_iff_of_ok (sbrk_given hI.bound (by omega) hlt hfull)).mpr ?_
      refine ⟨⟨?_, hb, ?_⟩, .inr ⟨s.top, rfl, h32, given_touch hb (by omega), ?_⟩⟩
      · show (s.top + n) % 8 = 0
        omega
      · show t ≤ s.top + n
        omega
      · exact h.grow hn h8 hal (Nat.le_refl _) h32 rfl rfl rfl rfl
  words hI hs := by
    rw [hs]
    exact ⟨hI.aligned, hI.bound, hI.more⟩

/-! ## A call that does no harm -/

/-- The call returns null, or a block in the memory of the process that has room for the
request behind its header; it does not take memory from the process. -/
def NeverShort (base nbytes : Nat) (s : Heap) : Prop :=
  wp (kmalloc base nbytes) (fun p s' => s.top ≤ s'.top ∧ (p ≠ 0 →
      p + nbytes ≤ s'.top ∧ nbytes + HEADER ≤ HEADER * s'.size (p - HEADER)))
    (fun e => ∃ sz, e = .trap sz ∧ s.top ≤ sz) s

/-- The bytes that the `sbrk` for a large request takes away. -/
def shortfall (nbytes : Nat) : Nat := 2 ^ 32 - HEADER * unitsFor nbytes

def Heap.empty (base : Nat) (s : Heap) : Prop := s.freep = 0 ∨ s.freep = base ∧ s.ptr base = base

/-- The requests that do no harm: those that get through to the kernel as they are, those that
wrap to one unit without memory for it, and those whose `sbrk` fails or maps nothing. -/
def Harmless (base nbytes : Nat) (s : Heap) : Prop :=
  nbytes ≤ 2 ^ 31 - 16 ∨
  (2 ^ 32 - 7 ≤ nbytes ∧ s.empty base ∧ s.full (4096 * HEADER)) ∨
  (2 ^ 31 - 16 < nbytes ∧ nbytes < 2 ^ 32 - 7 ∧ (shortfall nbytes = s.top ∨
    (shortfall nbytes = 0 ∨ s.top < shortfall nbytes) ∧ s.top % PGSIZE = 0))

/-- The memory of a process and the pointers it has. -/
structure Process (base : Nat) (s : Heap) (live : List (Nat × Nat)) : Prop where
  kept : Kept base s live
  aligned : s.top % 8 = 0
  bound : s.top < KERNBASE

theorem Process.grown {live : List (Nat × Nat)} (h : Process base s live) : Grown s.top s :=
  ⟨h.aligned, h.bound, Nat.le_refl _⟩

/-! ## Requests that get through -/

theorem small_harmless {live : List (Nat × Nat)} (h : Process base s live) (hn : n ≤ 2 ^ 31 - 16) :
    wp (kmalloc base n) (fun p s' => s.top ≤ s'.top ∧
      ((p = 0 ∧ Process base s' live) ∨ (p ≠ 0 ∧ Process base s' ((p, n) :: live) ∧
        p + n ≤ s'.top ∧ n + HEADER ≤ HEADER * s'.size (p - HEADER)))) (fun _ => False) s := by
  refine wp_post (malloc_spec (kernel_gives base s.top) h.grown h.kept hn) ?_
  rintro p s' ⟨hI, ⟨rfl, hk⟩ | ⟨hp, hk⟩⟩
  · exact ⟨hI.more, .inl ⟨rfl, hk, hI.aligned, hI.bound⟩⟩
  · refine ⟨hI.more, .inr ⟨hp, ⟨hk, hI.aligned, hI.bound⟩, ?_⟩⟩
    obtain ⟨F, hF, hptr, -, hstop⟩ := hk.pointer (a := (p, n)) List.mem_cons_self
    have hmem : blockOf (p, n) ∈ F ++ ((p, n) :: live).map blockOf := by simp
    have hin := (hF.placed hmem).inside
    have hsize := hF.sizes _ (List.mem_cons_of_mem _ hmem)
    have hunits := (unitsFor_bounds hn).2.2
    refine ⟨hstop.trans hin, ?_⟩
    have hstart : p - HEADER = (blockOf (p, n)).start := rfl
    rw [hstart, HEADER, hsize]
    show n + 8 ≤ HEADER * unitsFor n
    unfold HEADER
    omega

/-! ## The loop of `malloc` over the kernel -/

theorem Sound.empty_iff (h : Sound base s F U) : s.empty base ↔ F = [] := by
  have hpos := h.node_pos h.freep
  have hlinks := h.links
  cases F with
  | nil =>
    refine ⟨fun _ => rfl, fun _ => .inr ⟨?_, (Linked.cons_cons.mp hlinks).1⟩⟩
    simpa [sentinel] using h.freep
  | cons f F =>
    refine ⟨?_, fun hnil => by cases hnil⟩
    rintro (h0 | ⟨-, hbase⟩)
    · exact absurd h0 hpos
    · have hnext : s.ptr base = f.start := (Linked.cons_cons.mp hlinks).1
      have habove := (h.placed (x := f) (by simp)).above
      omega

/-- After the first lines of `malloc` there is a free list. -/
theorem kmalloc_loop {live : List (Nat × Nat)} {Q : Nat → Heap → Prop} {E : Stop → Prop}
    (h : Process base s live)
    (hloop : ∀ s₁ F, Sound base s₁ F (live.map blockOf) →
      s₁ = { s with word := s₁.word, freep := s₁.freep } → (s.empty base ↔ F = []) →
      wp (mallocLoop Kernel.os (unitsFor n) turns s₁.freep (s₁.ptr s₁.freep)) Q E s₁) :
    wp (kmalloc base n) Q E s := by
  simp only [kmalloc, mallocBy, wp_bind, wp_get, wp_ite]
  rcases h.kept.heap with ⟨h0, hr, rfl, hpos, htop⟩ | ⟨F, hF⟩
  · refine ⟨fun _ => ?_, fun hne => absurd h0 hne⟩
    simp only [setPtr, setFreep, setSize, wp_modify]
    exact hloop _ [] (start_spec hr hpos htop) rfl ⟨fun _ => rfl, fun _ => .inl h0⟩
  · exact ⟨fun h0 => absurd h0 (hF.node_pos hF.freep), fun _ => hloop s F hF rfl hF.empty_iff⟩

/-- With no block that is large enough, the loop comes to `morecore`. -/
theorem mallocLoop_asks {os : Os} {nunits : Nat} {Q : Nat → Heap → Prop} {E : Stop → Prop}
    (h : Sound base s F U) (hn : 1 ≤ nunits) (hsmall : ∀ f ∈ F, f.size < 8 * nunits)
    (hgrow : ∀ k, 2 ^ 29 < k → wp (do
      let p ← morecore os nunits
      if p = 0 then return 0
      else
        let s ← get
        mallocLoop os nunits k p (s.ptr p)) Q E s) :
    wp (mallocLoop os nunits turns s.freep (s.ptr s.freep)) Q E s := by
  obtain ⟨v, hl, hnot, hmem, hlen⟩ := h.path
  have hturns : turns = 2 ^ 31 := by rw [turns]
  refine mallocLoop_walk hl hnot h.freep (fun x hx => (hmem x).mp (by simp [hx])) (by omega) ?_
    fun _ => hgrow _ (by omega)
  intro q hq hfit
  obtain ⟨pre, f, post, -, -, rfl, -, -, hf⟩ := h.pred hq hn hfit
  have hsize := h.sizes f (by simp)
  have hlt := hsmall f (by simp)
  rw [← hf] at hfit
  omega

/-! ## Requests that wrap to one unit -/

theorem unitsFor_wrapped (h1 : 2 ^ 32 - 7 ≤ n) (h2 : n < 2 ^ 32) : unitsFor n = 1 := by
  unfold unitsFor HEADER
  omega

theorem asked_one {u : Nat} (hu : u = 1) : 8 * asked u = 4096 * HEADER := by
  rw [hu]
  rfl

theorem morecore_full {nu : Nat} (hb : s.top < KERNBASE) (hnu : nu < 2 ^ 28)
    (hfull : s.full (8 * asked nu)) :
    morecore Kernel.os nu s = .ok (0, { s with calls := s.calls + 1 }) := by
  obtain ⟨-, h4096, h28, hmod⟩ := asked_bounds hnu
  refine morecore_refused ?_
  rw [hmod, os_sbrk]
  exact sbrk_refused hb (by omega) (by omega) hfull

theorem morecore_enough {nu : Nat} (h : Sound base s F U) (ha : s.top % 8 = 0)
    (hnu : nu < 2 ^ 28) (hroom : ¬ s.full (8 * asked nu)) :
    wp (morecore Kernel.os nu) (fun p s' => p = s'.freep ∧ p ≠ 0 ∧
      ∃ F', Sound base s' F' U ∧ ∃ f ∈ F', 8 * nu ≤ f.size) (fun _ => False) s := by
  obtain ⟨-, h4096, h28, hmod⟩ := asked_bounds hnu
  have hb : s.top + 8 * asked nu < KERNBASE := Nat.lt_of_not_le fun hge => hroom (.inl hge)
  have h32 : s.top + 8 * asked nu < 2 ^ 32 := by
    unfold KERNBASE at hb
    omega
  have hgiven : Kernel.os.sbrk (asked nu * HEADER % 2 ^ 32) s =
      .ok (some s.top, s.given (8 * asked nu)) := by
    rw [hmod, os_sbrk]
    exact sbrk_given (by omega) (by omega) (by omega) hroom
  have hsound : Sound base ((s.given (8 * asked nu)).put (s.top + 4) (8 * asked nu / 8)) F
      (⟨s.top, 8 * asked nu⟩ :: U) :=
    h.grow (by omega) (by omega) ha (Nat.le_refl _) h32 rfl rfl rfl rfl
  rw [Nat.mul_div_cancel_left _ (by decide)] at hsound
  refine wp_post (morecore_given hnu hgiven (by omega) (given_touch hb (by omega)) hsound) ?_
  exact fun p s' hp => hp.2

theorem wrapped_null {live : List (Nat × Nat)} (h : Process base s live) (h1 : 2 ^ 32 - 7 ≤ n)
    (h2 : n < 2 ^ 32) (hempty : s.empty base) (hfull : s.full (4096 * HEADER)) :
    wp (kmalloc base n) (fun p s' => p = 0 ∧ s'.top = s.top ∧ Process base s' live)
      (fun _ => False) s := by
  refine kmalloc_loop h fun s₁ F hF hs₁ hiff => ?_
  obtain rfl := hiff.mp hempty
  have hu := unitsFor_wrapped h1 h2
  generalize unitsFor n = u at hu ⊢
  refine mallocLoop_asks hF (by omega) (by simp) fun k _ => ?_
  have htop : s₁.top = s.top := by rw [hs₁]
  have hb : s₁.top < KERNBASE := by
    rw [htop]
    exact h.bound
  have hfull₁ : s₁.full (8 * asked u) := by
    rw [hs₁, asked_one hu]
    exact hfull
  rw [wp_bind, wp_iff_of_ok (morecore_full hb (by omega) hfull₁)]
  refine ⟨rfl, htop, ⟨h.kept.small, .inr ⟨[], hF.congr rfl hF.freep rfl rfl⟩⟩, ?_, hb⟩
  show s₁.top % 8 = 0
  rw [htop]
  exact h.aligned

theorem wrapped_short {live : List (Nat × Nat)} (h : Process base s live) (h1 : 2 ^ 32 - 7 ≤ n)
    (h2 : n < 2 ^ 32) (hroom : ¬ (s.empty base ∧ s.full (4096 * HEADER))) :
    wp (kmalloc base n) (fun p s' => p ≠ 0 ∧ s'.size (p - HEADER) = 1) (fun _ => False) s := by
  refine kmalloc_loop h fun s₁ F hF hs₁ hiff => ?_
  have hu := unitsFor_wrapped h1 h2
  generalize unitsFor n = u at hu ⊢
  have hone : ∀ {p s' F' U}, Sound base s' F' (⟨p - 8, 8 * u⟩ :: U) → s'.size (p - HEADER) = 1 := by
    intro p s' F' U hF'
    have hsize := hF'.sizes ⟨p - 8, 8 * u⟩ (by simp)
    unfold HEADER
    dsimp only at hsize
    omega
  by_cases hempty : F = []
  · subst hempty
    have hroom₁ : ¬ s₁.full (8 * asked u) := by
      rw [hs₁, asked_one hu]
      exact fun hfull => hroom ⟨hiff.mpr rfl, hfull⟩
    have ha : s₁.top % 8 = 0 := by
      rw [hs₁]
      exact h.aligned
    refine mallocLoop_asks hF (by omega) (by simp) fun k hk => ?_
    refine wp_seq (morecore_enough hF ha (by omega) hroom₁) ?_
    rintro p s₂ ⟨rfl, hp, F', h₂, hfit⟩
    rw [if_neg hp, wp_bind, wp_get]
    refine wp_post (mallocLoop_found h₂ (by omega) hfit hk) ?_
    rintro p s₃ ⟨hp, ⟨F'', h₃⟩, -⟩
    exact ⟨hp, hone h₃⟩
  · obtain ⟨f, hf⟩ := List.exists_mem_of_ne_nil F hempty
    have h8 := (hF.placed (List.mem_append_left _ hf)).header
    have hturns : 2 ^ 29 < turns := by
      rw [turns]
      decide
    refine wp_post (mallocLoop_found hF (by omega) ⟨f, hf, by omega⟩ hturns) ?_
    rintro p s' ⟨hp, ⟨F', h'⟩, -⟩
    exact ⟨hp, hone h'⟩

/-! ## Requests that ask for a negative number -/

theorem unitsFor_large (h1 : 2 ^ 31 - 16 < n) (h2 : n < 2 ^ 32 - 7) :
    2 ^ 28 ≤ unitsFor n ∧ unitsFor n ≤ 2 ^ 29 ∧ n + 8 ≤ 8 * unitsFor n := by
  unfold unitsFor HEADER
  omega

theorem toInt_large {u : Nat} (h1 : 2 ^ 28 ≤ u) (h2 : u ≤ 2 ^ 29) :
    (BitVec.ofNat 32 (u * HEADER % 2 ^ 32)).toNat = 8 * u % 2 ^ 32 ∧
    (BitVec.ofNat 32 (u * HEADER % 2 ^ 32)).toInt = 8 * u - 2 ^ 32 := by
  have hnat : (BitVec.ofNat 32 (u * HEADER % 2 ^ 32)).toNat = 8 * u % 2 ^ 32 := by
    rw [BitVec.toNat_ofNat, HEADER]
    omega
  rw [BitVec.toInt_eq_toNat_cond, hnat]
  refine ⟨rfl, ?_⟩
  split <;> omega

/-- `growproc` takes the shortfall away, if the process has as much. -/
theorem growproc_large {room : Bool} {sz u : Nat} (hb : sz < KERNBASE) (h0 : 0 < sz)
    (h1 : 2 ^ 28 ≤ u) (h2 : u ≤ 2 ^ 29) :
    Kernel.growproc room sz (BitVec.ofNat 32 (u * HEADER % 2 ^ 32)) =
      if 2 ^ 32 - 8 * u = 0 ∨ sz < 2 ^ 32 - 8 * u then some sz
      else Kernel.checked (sz - (2 ^ 32 - 8 * u)) := by
  obtain ⟨hnat, hint⟩ := toInt_large h1 h2
  simp only [Kernel.growproc, hnat, hint, Kernel.deallocuvm]
  rw [if_neg (by omega)]
  unfold KERNBASE at hb
  by_cases hzero : 2 ^ 32 - 8 * u = 0
  · rw [if_neg (by omega), if_pos (.inl hzero)]
  · rw [if_pos (by omega)]
    by_cases hless : sz < 2 ^ 32 - 8 * u
    · have hkeep : 2 ^ 32 - 8 * u = 0 ∨ sz < 2 ^ 32 - 8 * u := .inr hless
      rw [if_pos hkeep, if_pos (by omega), Kernel.checked, if_neg (by omega)]
    · rw [if_neg (by omega), if_neg (by omega)]
      congr 1
      omega

section Large

variable {u : Nat} (hb : s.top < KERNBASE) (h0 : 0 < s.top) (h1 : 2 ^ 28 ≤ u) (h2 : u ≤ 2 ^ 29)

include hb h0 h1 h2

theorem sbrk_all (hall : 2 ^ 32 - 8 * u = s.top) :
    Kernel.sbrk (u * HEADER % 2 ^ 32) s = .error (.trap s.top) := by
  have hint := (toInt_large h1 h2).2
  have hnone : Kernel.growproc (s.answers s.calls).isSome s.top
      (BitVec.ofNat 32 (u * HEADER % 2 ^ 32)) = none := by
    rw [growproc_large hb h0 h1 h2, if_neg (by omega), hall, Nat.sub_self]
    rfl
  rw [sbrk_of_none hnone, if_pos (by omega)]

/-- Nothing changes, and the end of memory is returned. -/
theorem sbrk_same (hsame : 2 ^ 32 - 8 * u = 0 ∨ s.top < 2 ^ 32 - 8 * u) :
    Kernel.sbrk (u * HEADER % 2 ^ 32) s = .ok (some s.top, { s with calls := s.calls + 1 }) := by
  rw [sbrk_of_some (by rw [growproc_large hb h0 h1 h2, if_pos hsame]), if_neg (Nat.lt_irrefl _)]

theorem sbrk_less (hpos : 0 < 2 ^ 32 - 8 * u) (hless : 2 ^ 32 - 8 * u < s.top) :
    Kernel.sbrk (u * HEADER % 2 ^ 32) s = .ok (some s.top, { s with
      calls := s.calls + 1, top := s.top - (2 ^ 32 - 8 * u) }) := by
  have hsome : Kernel.growproc (s.answers s.calls).isSome s.top
      (BitVec.ofNat 32 (u * HEADER % 2 ^ 32)) = some (s.top - (2 ^ 32 - 8 * u)) := by
    rw [growproc_large hb h0 h1 h2, if_neg (by omega), Kernel.checked, if_neg (by omega)]
  rw [sbrk_of_some hsome, if_neg (by omega)]

end Large

theorem asked_large {u : Nat} (h1 : 2 ^ 28 ≤ u) : asked u = u := if_neg (by omega)

theorem morecore_stops {u : Nat} {e : Stop} (h1 : 2 ^ 28 ≤ u)
    (h : Kernel.sbrk (u * HEADER % 2 ^ 32) s = .error e) : morecore Kernel.os u s = .error e := by
  simp only [morecore, ← asked.eq_1, asked_large h1, os_sbrk]
  rw [bind_apply, h]

theorem morecore_large {u a : Nat} (h1 : 2 ^ 28 ≤ u)
    (h : Kernel.sbrk (u * HEADER % 2 ^ 32) s = .ok (some a, s')) :
    morecore Kernel.os u s = (do
      Kernel.touch a
      setSize a u
      free (advance a 1)
      return (← get).freep : HeapM Nat) s' := by
  rw [← os_sbrk, ← asked_large h1] at h
  rw [morecore_goes_on h, asked_large h1, os_touch]

theorem large_asks {live : List (Nat × Nat)} {Q : Nat → Heap → Prop} {E : Stop → Prop}
    (h : Process base s live) (h1 : 2 ^ 31 - 16 < n) (h2 : n < 2 ^ 32 - 7)
    (hask : ∀ s₁ F k, Sound base s₁ F (live.map blockOf) →
      s₁ = { s with word := s₁.word, freep := s₁.freep } → 2 ^ 29 < k → wp (do
        let p ← morecore Kernel.os (unitsFor n)
        if p = 0 then return 0
        else
          let s ← get
          mallocLoop Kernel.os (unitsFor n) k p (s.ptr p)) Q E s₁) :
    wp (kmalloc base n) Q E s := by
  obtain ⟨hu1, -, -⟩ := unitsFor_large h1 h2
  refine kmalloc_loop h fun s₁ F hF hs₁ _ => ?_
  refine mallocLoop_asks hF (by omega) ?_ fun k hk => hask s₁ F k hF hs₁ hk
  intro f hf
  have hin := (hF.placed (List.mem_append_left _ hf)).inside
  have hb : s₁.top < KERNBASE := by
    rw [hs₁]
    exact h.bound
  simp only [stop, KERNBASE] at hin hb
  omega

/-- What the state after the first lines has in common with the one before. -/
theorem Process.first {live : List (Nat × Nat)} (h : Process base s live)
    (hF : Sound base s' F (live.map blockOf))
    (hs : s' = { s with word := s'.word, freep := s'.freep }) :
    s'.top = s.top ∧ s'.top < KERNBASE ∧ 0 < s'.top ∧ s'.top % 8 = 0 := by
  have htop : s'.top = s.top := by rw [hs]
  have hstatic := hF.tiling.static
  exact ⟨htop, htop ▸ h.bound, by omega, htop ▸ h.aligned⟩

theorem large_traps {live : List (Nat × Nat)} (h : Process base s live) (h1 : 2 ^ 31 - 16 < n)
    (h2 : n < 2 ^ 32 - 7) (hok : shortfall n = s.top ∨
      (shortfall n = 0 ∨ s.top < shortfall n) ∧ s.top % PGSIZE = 0) :
    wp (kmalloc base n) (fun _ _ => False) (fun e => e = .trap s.top) s := by
  obtain ⟨hu1, hu2, -⟩ := unitsFor_large h1 h2
  refine large_asks h h1 h2 fun s₁ F k hF hs₁ _ => ?_
  obtain ⟨htop, hb, h0, -⟩ := h.first hF hs₁
  rw [← htop] at hok ⊢
  rw [wp_bind]
  rcases hok with hall | ⟨hsame, haligned⟩
  · rw [wp_iff_of_throw (morecore_stops hu1 (sbrk_all hb h0 hu1 hu2 hall))]
  · have hmapped : PGROUNDUP s₁.top ≤ s₁.top := by
      simp only [PGROUNDUP, PGSIZE, KERNBASE] at *
      omega
    have htrap : Kernel.touch s₁.top { s₁ with calls := s₁.calls + 1 } = .error (.trap s₁.top) :=
      touch_traps hmapped
    rw [wp_congr (morecore_large hu1 (sbrk_same hb h0 hu1 hu2 hsame)), wp_bind,
      wp_iff_of_throw htrap]

/-! ### A process that is made smaller -/

/-- Later steps do not give the memory back. -/
abbrev Below {α : Type} (c : Nat) (m : HeapM α) : Prop :=
  Invariant (fun s => s.top ≤ c) (fun e => ∀ sz, e = .trap sz → sz ≤ c) m

theorem put_below {x v c : Nat} : Below c (modify fun s => s.put x v) := .modify fun _ h => h

theorem setFreep_below {p c : Nat} : Below c (setFreep p) := .modify fun _ h => h

theorem hang_below {α : Type} {c : Nat} : Below c (throw .hang : HeapM α) :=
  .throw fun _ h => by cases h

theorem join_below {x y c : Nat} : Below c (join x y) :=
  .read fun _ _ => .ite (put_below.bind fun _ => .read fun _ _ => put_below) put_below

theorem free_below {ap c : Nat} : Below c (free ap) := by
  refine .read fun s _ => ?_
  cases seek s.ptr (s.gap ((ap + 2 ^ 32 - HEADER) % 2 ^ 32)) turns s.freep with
  | none => exact hang_below
  | some p => exact join_below.bind fun _ => join_below.bind fun _ => setFreep_below

theorem carve_below {u prevp p c : Nat} : Below c (carve u prevp p) := by
  refine .read fun _ _ => .ite ?_ ?_
  · exact put_below.bind fun _ => setFreep_below.bind fun _ => .pure _
  · exact put_below.bind fun _ => .read fun _ _ => put_below.bind fun _ =>
      setFreep_below.bind fun _ => .pure _

theorem touch_below {x c : Nat} : Below c (Kernel.touch x) := by
  refine .read fun s h => .ite (.throw ?_) (.pure _)
  intro sz he
  cases he
  exact h

theorem growproc_le {room : Bool} {sz sz' : Nat} {k : BitVec 32} (hk : k.toInt ≤ 0)
    (h : Kernel.growproc room sz k = some sz') : sz' ≤ sz := by
  have hle : ∀ newsz, Kernel.deallocuvm sz newsz ≤ sz := by
    intro newsz
    unfold Kernel.deallocuvm
    split <;> omega
  simp only [Kernel.growproc] at h
  rw [if_neg (by omega)] at h
  split at h
  · unfold Kernel.checked at h
    split at h
    · cases h
    · cases h
      exact hle _
  · cases h
    exact Nat.le_refl sz

theorem sbrk_below {k c : Nat} (hk : (BitVec.ofNat 32 k).toInt ≤ 0) : Below c (Kernel.sbrk k) where
  keep s hs := by
    cases h : Kernel.growproc (s.answers s.calls).isSome s.top (BitVec.ofNat 32 k) with
    | none =>
      have hrun := sbrk_of_none h
      by_cases hneg : (BitVec.ofNat 32 k).toInt < 0
      · rw [if_pos hneg] at hrun
        rw [wp_iff_of_throw hrun]
        intro sz he
        cases he
        exact hs
      · rw [if_neg hneg] at hrun
        rw [wp_iff_of_ok hrun]
        exact hs
    | some sz =>
      rw [wp_iff_of_ok (sbrk_of_some h)]
      exact (growproc_le hk h).trans hs

theorem morecore_below {u c : Nat} (h1 : 2 ^ 28 ≤ u) (h2 : u ≤ 2 ^ 29) :
    Below c (morecore Kernel.os u) := by
  have hint := (toInt_large h1 h2).2
  simp only [morecore, ← asked.eq_1, asked_large h1, os_sbrk, os_touch]
  refine (sbrk_below (by omega)).bind fun r => ?_
  cases r with
  | none => exact .pure _
  | some p =>
    exact touch_below.bind fun _ => put_below.bind fun _ => free_below.bind fun _ =>
      .read fun _ _ => .pure _

theorem mallocLoop_below {u c : Nat} (h1 : 2 ^ 28 ≤ u) (h2 : u ≤ 2 ^ 29) :
    ∀ k prevp p, Below c (mallocLoop Kernel.os u k prevp p) := by
  intro k
  induction k with
  | zero => exact fun _ _ => hang_below
  | succ k ih =>
    intro prevp p
    refine .read fun s _ => .ite carve_below (.ite ?_ (ih _ _))
    refine (morecore_below h1 h2).bind fun p => .ite (.pure _) ?_
    exact .read fun s _ => ih _ _

theorem large_lowers {live : List (Nat × Nat)} (h : Process base s live) (h1 : 2 ^ 31 - 16 < n)
    (h2 : n < 2 ^ 32 - 7) (hpos : 0 < shortfall n) (hless : shortfall n < s.top) :
    wp (kmalloc base n) (fun _ s' => s'.top < s.top) (fun e => ∀ sz, e = .trap sz → sz < s.top) s := by
  obtain ⟨hu1, hu2, -⟩ := unitsFor_large h1 h2
  refine large_asks h h1 h2 fun s₁ F k hF hs₁ _ => ?_
  obtain ⟨htop, hb, h0, -⟩ := h.first hF hs₁
  rw [← htop] at hless ⊢
  rw [wp_bind, wp_congr (morecore_large hu1 (sbrk_less hb h0 hu1 hu2 hpos hless)), ← wp_bind]
  have hlow : s₁.top - shortfall n < s₁.top := by omega
  have hrest : ∀ p, Below (s₁.top - shortfall n) (do
      if p = 0 then return 0
      else
        let s ← get
        mallocLoop Kernel.os (unitsFor n) k p (s.ptr p) : HeapM Nat) := fun p =>
    .ite (.pure _) (.read fun s _ => mallocLoop_below hu1 hu2 k _ _)
  refine wp_mono (Invariant.keep (J := fun t => t.top ≤ s₁.top - shortfall n)
    (E := fun e => ∀ sz, e = .trap sz → sz ≤ s₁.top - shortfall n) ?_ _ (Nat.le_refl _)) ?_ ?_
  · refine .bind ?_ hrest
    exact touch_below.bind fun _ => put_below.bind fun _ => free_below.bind fun _ =>
      .read fun _ _ => .pure _
  · exact fun _ s' hs' => Nat.lt_of_le_of_lt hs' hlow
  · exact fun e he sz hsz => Nat.lt_of_le_of_lt (he sz hsz) hlow

/-! ### A block behind the end of memory -/

section Outside

variable {G : List Span} {x : Span} {u : Nat}

theorem Sound.last (h : Sound base s F U) (hG : sentinel base :: F = G ++ [x]) :
    Linked s.ptr (G.map start ++ [x.start]) ∧ s.ptr x.start = base := by
  have hlinks := h.links
  rw [hG, List.map_append, List.map_singleton, List.append_assoc, List.singleton_append,
    Linked.split] at hlinks
  exact ⟨hlinks.1, (Linked.cons_cons.mp hlinks.2).1⟩

theorem Sound.inside (h : Sound base s F U) :
    ∀ y ∈ sentinel base :: F, y.start + 8 ≤ s.top ∧ y.stop ≤ s.top := by
  intro y hy
  rcases List.mem_cons.mp hy with rfl | hy
  · have hstatic := h.tiling.static
    simp only [sentinel, stop]
    omega
  · obtain ⟨-, -, h8, -, hin, -⟩ := h.placed (List.mem_append_left U hy)
    simp only [stop] at hin ⊢
    omega

theorem Sound.next_mem (h : Sound base s F U) (hG : sentinel base :: F = G ++ [x]) {y : Span}
    (hy : y ∈ G) : y.start < s.ptr y.start ∧ ∃ z ∈ G ++ [x], z.start = s.ptr y.start := by
  have hasc := h.ascending
  rw [hG, List.map_append, List.map_singleton] at hasc
  obtain ⟨hlt, hmem⟩ := (h.last hG).1.ascends hasc y.start (by
    rw [List.dropLast_concat]
    exact List.mem_map_of_mem hy)
  rw [← List.map_singleton (f := start), ← List.map_append, List.mem_map] at hmem
  exact ⟨hlt, hmem⟩

/-- A header behind the end of memory changes nothing for the blocks of the list. -/
theorem Sound.put_outside (h : Sound base s F U) (v : Nat) {y : Span}
    (hy : y ∈ sentinel base :: F) : (s.put (s.top + 4) v).ptr y.start = s.ptr y.start ∧
      (s.put (s.top + 4) v).size y.start = s.size y.start :=
  put_far s (.inr rfl) (.inl (h.inside y hy).1)

theorem search_outside (h : Sound base s F U) (hG : sentinel base :: F = G ++ [x]) :
    seek (s.put (s.top + 4) u).ptr ((s.put (s.top + 4) u).gap s.top) turns s.freep =
      some x.start := by
  have hmemx : x ∈ sentinel base :: F := by
    rw [hG]
    simp
  have hnext : (s.put (s.top + 4) u).ptr x.start = base :=
    ((h.put_outside u hmemx).1).trans (h.last hG).2
  have hlinks : Linked (s.put (s.top + 4) u).ptr (base :: F.map start ++ [base]) := by
    refine Linked.congr h.links fun y hy => ?_
    have hmem : y ∈ (sentinel base :: F).map start := by rwa [List.dropLast_concat] at hy
    obtain ⟨z, hz, rfl⟩ := List.mem_map.mp hmem
    exact (h.put_outside u hz).1
  have hnodup : (base :: F.map start).Nodup := h.ascending.imp Nat.ne_of_lt
  have hlen : (base :: F.map start).length ≤ turns := by
    have := h.tiling.length_le
    rw [List.length_cons, List.length_map, turns]
    omega
  have hgap : ∀ y ∈ (sentinel base :: F).map start,
      (s.put (s.top + 4) u).gap s.top y = true ↔ y = x.start := by
    intro y hy
    obtain ⟨z, hz, rfl⟩ := List.mem_map.mp hy
    have hin := (h.inside z hz).1
    have hptr := (h.put_outside u hz).1
    have hasc := h.ascending
    rw [hG, List.map_append, List.map_singleton, List.pairwise_append] at hasc
    simp only [Heap.gap, Bool.or_eq_true, Bool.and_eq_true, decide_eq_true_eq]
    rw [hG, List.mem_append, List.mem_singleton] at hz
    rcases hz with hz | rfl
    · -- the next block is behind `z`, and in memory
      obtain ⟨hlt, w, hw, hnextz⟩ := h.next_mem hG hz
      have hwin := (h.inside w (hG ▸ hw)).1
      have hne := hasc.2.2 z.start (List.mem_map_of_mem hz) x.start (by simp)
      omega
    · have hbase : base ≤ z.start := by
        rcases List.mem_cons.mp hmemx with rfl | hz
        · exact Nat.le_refl base
        · have habove := (h.placed (List.mem_append_left U hz)).above
          omega
      omega
  exact seek_circle hlinks hnodup h.freep (List.mem_map_of_mem hmemx) hgap hlen

theorem join_apart {y z : Nat} (h : advance y (s.size y) ≠ z) :
    join y z s = .ok ((), s.put y z) := by
  rw [join, get_bind_apply, if_neg h]
  rfl

theorem join_adjacent {y z : Nat} (h : advance y (s.size y) = z) :
    join y z s = .ok ((), (s.put (y + 4) ((s.size y + s.size z) % 2 ^ 32)).put y
      ((s.put (y + 4) ((s.size y + s.size z) % 2 ^ 32)).ptr z)) := by
  rw [join, get_bind_apply, if_pos h]
  rfl

/-- The heap `t` is `s` with a header of `u` units behind the end of memory on the list:
behind `x`, the last block, or joined to it. -/
structure Beyond (base u : Nat) (G : List Span) (x : Span) (s t : Heap) : Prop where
  freep : t.freep = x.start
  top : t.top = s.top
  size : t.size s.top = u
  same : ∀ y ∈ G, t.ptr y.start = s.ptr y.start ∧ t.size y.start = s.size y.start
  last : x.stop ≠ s.top ∧ t.ptr x.start = s.top ∨
    x.stop = s.top ∧ t.ptr x.start = base ∧ t.size x.start = s.size x.start + u

/-- `free` links the header behind the end of memory to the last block, or joins it. -/
theorem free_outside (h : Sound base s F U) (hG : sentinel base :: F = G ++ [x])
    (hb : s.top + 8 < 2 ^ 32) (hadv : advance s.top u ≠ base)
    (hsum : s.size x.start + u < 2 ^ 32) :
    wp (free (s.top + 8)) (fun _ s' => Beyond base u G x s s') (fun _ => False)
      (s.put (s.top + 4) u) := by
  have hmemx : x ∈ sentinel base :: F := by
    rw [hG]
    simp
  have hbp : (s.top + 8 + 2 ^ 32 - HEADER) % 2 ^ 32 = s.top := by
    unfold HEADER
    omega
  have hsearch : seek (s.put (s.top + 4) u).ptr ((s.put (s.top + 4) u).gap s.top) turns
      (s.put (s.top + 4) u).freep = some x.start := search_outside h hG
  obtain ⟨hptrx, hsizex⟩ := h.put_outside u hmemx
  rw [(h.last hG).2] at hptrx
  have hinx := h.inside x hmemx
  have hfarx : Far x.start s.top := .inl hinx.1
  have hstopx : advance x.start (s.size x.start) = x.stop :=
    advance_stop (h.sizes x (by
      rw [← List.cons_append]
      exact List.mem_append_left U hmemx)) (by omega)
  have hGmem : ∀ y ∈ G, y ∈ sentinel base :: F := by
    intro y hy
    rw [hG]
    simp [hy]
  have hGfar : ∀ y ∈ G, Far y.start x.start := by
    intro y hy
    have hasc := h.clear
    rw [hG, List.pairwise_append] at hasc
    have hlt := hasc.2.2 y hy x (by simp)
    refine h.far (List.mem_append_left U (hGmem y hy)) (List.mem_append_left U hmemx) ?_
    rintro rfl
    simp only [Clear, stop] at hlt
    omega
  simp only [free, wp_bind, wp_get, hbp, hsearch, hptrx]
  set t := s.put (s.top + 4) u with ht
  have htu : t.size s.top = u := put_size_self s
  rw [wp_iff_of_ok (join_apart (by rwa [htu]))]
  set t₁ := t.put s.top base with ht₁
  have hsize₁ : t₁.size x.start = s.size x.start := ((put_far t (.inl rfl) hfarx).2).trans hsizex
  have htu₁ : t₁.size s.top = u := (put_size t (by omega)).trans htu
  have hptr₁ : t₁.ptr s.top = base := put_ptr_self t
  have hG₁ : ∀ y ∈ G, t₁.ptr y.start = s.ptr y.start ∧ t₁.size y.start = s.size y.start := by
    intro y hy
    have hput := h.put_outside u (hGmem y hy)
    have hfar := put_far t (v := base) (.inl rfl) (.inl (h.inside y (hGmem y hy)).1)
    exact ⟨hfar.1.trans hput.1, hfar.2.trans hput.2⟩
  by_cases hadj : x.stop = s.top
  · have hval : (t₁.size x.start + t₁.size s.top) % 2 ^ 32 = s.size x.start + u := by
      rw [hsize₁, htu₁, Nat.mod_eq_of_lt hsum]
    rw [wp_iff_of_ok (join_adjacent (by rw [hsize₁, hstopx, hadj])), hval]
    set t₂ := t₁.put (x.start + 4) (s.size x.start + u) with ht₂
    have hfar₂ : ∀ {y}, Far y x.start → (t₂.put x.start (t₂.ptr s.top)).ptr y = t₁.ptr y ∧
        (t₂.put x.start (t₂.ptr s.top)).size y = t₁.size y := by
      intro y hy
      have hin := put_far t₁ (v := s.size x.start + u) (.inr rfl) hy
      have hout := put_far t₂ (v := t₂.ptr s.top) (.inl rfl) hy
      exact ⟨hout.1.trans hin.1, hout.2.trans hin.2⟩
    have hnext : t₂.ptr s.top = base := (put_far t₁ (.inr rfl) hfarx.symm).1.trans hptr₁
    refine ⟨rfl, rfl, (hfar₂ hfarx.symm).2.trans htu₁, ?_, .inr ⟨hadj, ?_, ?_⟩⟩
    · intro y hy
      exact ⟨(hfar₂ (hGfar y hy)).1.trans (hG₁ y hy).1, (hfar₂ (hGfar y hy)).2.trans (hG₁ y hy).2⟩
    · exact (put_ptr_self t₂).trans hnext
    · exact (put_size t₂ (by omega)).trans (put_size_self t₁)
  · rw [wp_iff_of_ok (join_apart (by rwa [hsize₁, hstopx]))]
    refine ⟨rfl, rfl, (put_far t₁ (.inl rfl) hfarx.symm).2.trans htu₁, ?_, .inl ⟨hadj, ?_⟩⟩
    · intro y hy
      have hfar := put_far t₁ (v := s.top) (.inl rfl) (hGfar y hy)
      exact ⟨hfar.1.trans (hG₁ y hy).1, hfar.2.trans (hG₁ y hy).2⟩
    · exact put_ptr_self t₁

theorem carve_whole {q y : Nat} {E : Stop → Prop} (h : s.size y = u) :
    wp (carve u q y) (fun p s' => p = advance y 1 ∧ s'.top = s.top) E s := by
  simp only [carve, setPtr, setFreep, wp_bind, wp_get, wp_ite, wp_modify, wp_pure]
  exact ⟨fun _ => ⟨trivial, rfl⟩, fun hne => absurd h hne⟩

theorem carve_end {q y z c : Nat} {E : Stop → Prop} (h : s.size y = c + u) (hc : 0 < c)
    (hz : advance y c = z) : wp (carve u q y) (fun p s' => p = advance z 1 ∧ s'.top = s.top) E s := by
  simp only [carve, setSize, setFreep, wp_bind, wp_get, wp_ite, wp_modify, wp_pure]
  refine ⟨fun he => by omega, fun _ => ⟨?_, rfl⟩⟩
  have hsize : (s.put (y + 4) (s.size y - u)).size y = c := by
    rw [h, Nat.add_sub_cancel]
    exact put_size_self s
  rw [hsize, hz]

section Found

variable {t : Heap} (h : Sound base s F U) (hG : sentinel base :: F = G ++ [x])
  (ht : Beyond base u G x s t)

include h hG ht

theorem Beyond.small (hb : s.top < KERNBASE) (h1 : 2 ^ 28 ≤ u) : ∀ y ∈ G, t.size y.start < u := by
  intro y hy
  have hmem : y ∈ sentinel base :: F := by
    rw [hG]
    exact List.mem_append_left _ hy
  have hin := (h.inside y hmem).2
  have hsize := h.sizes y (List.mem_append_left U hmem)
  rw [(ht.same y hy).2]
  simp only [stop, KERNBASE] at hin hb
  omega

/-- What is joined to the header is a block of the list, not `base`. -/
theorem Beyond.joined (hadj : x.stop = s.top) : x ∈ F ∧ ∃ G', G = sentinel base :: G' := by
  cases G with
  | nil =>
    obtain ⟨rfl, -⟩ := List.cons.inj hG
    have hstatic := h.tiling.static
    simp only [sentinel, stop] at hadj
    omega
  | cons g G =>
    obtain ⟨rfl, rfl⟩ := List.cons.inj hG
    exact ⟨List.mem_concat_self, G, rfl⟩

theorem Beyond.circle (hadj : x.stop = s.top) (hnext : t.ptr x.start = base) :
    Linked t.ptr (x.start :: G.map start ++ [x.start]) := by
  have hlinks : Linked t.ptr (G.map start ++ [x.start]) := by
    refine Linked.congr (h.last hG).1 fun y hy => ?_
    rw [List.dropLast_concat] at hy
    obtain ⟨z, hz, rfl⟩ := List.mem_map.mp hy
    exact (ht.same z hz).1
  obtain ⟨-, G', rfl⟩ := ht.joined h hG hadj
  exact Linked.cons_cons.mpr ⟨hnext, hlinks⟩

theorem Beyond.only (hb : s.top < KERNBASE) (h1 : 2 ^ 28 ≤ u) (hadj : x.stop = s.top)
    (hnext : t.ptr x.start = base) {q : Nat} (hq : q ∈ x.start :: G.map start)
    (hfit : u ≤ t.size (t.ptr q)) : t.ptr q = x.start := by
  obtain ⟨z, hz, hzq⟩ : ∃ z ∈ G ++ [x], z.start = t.ptr q := by
    rcases List.mem_cons.mp hq with rfl | hq
    · obtain ⟨-, G', rfl⟩ := ht.joined h hG hadj
      exact ⟨sentinel base, List.mem_cons_self, hnext.symm⟩
    · obtain ⟨y, hy, rfl⟩ := List.mem_map.mp hq
      rw [(ht.same y hy).1]
      exact (h.next_mem hG hy).2
  rcases List.mem_append.mp hz with hz | hz
  · have hlt := ht.small h hG hb h1 z hz
    rw [← hzq] at hfit
    omega
  · rw [← hzq, List.mem_singleton.mp hz]

/-- The loop of `malloc` finds the header behind the end of memory. -/
theorem loop_outside {k : Nat} (hb : s.top < KERNBASE) (h1 : 2 ^ 28 ≤ u) (hk : 2 ^ 29 < k) :
    wp (mallocLoop Kernel.os u k x.start (t.ptr x.start))
      (fun p s' => p = advance s.top 1 ∧ s'.top = s.top) (fun _ => False) t := by
  rcases ht.last with ⟨-, hnext⟩ | ⟨hadj, hnext, hsum⟩
  · obtain ⟨k, rfl⟩ := Nat.exists_eq_succ_of_ne_zero (by omega : k ≠ 0)
    simp only [mallocLoop, wp_bind, wp_get, wp_ite]
    rw [hnext, ht.size]
    refine ⟨fun _ => ?_, fun hno => absurd (Nat.le_refl u) hno⟩
    exact wp_post (carve_whole ht.size) fun p s' hp => ⟨hp.1, hp.2.trans ht.top⟩
  · obtain ⟨hx, -⟩ := ht.joined h hG hadj
    have hplaced := h.placed (List.mem_append_left U hx)
    have hsize := h.sizes x (by simp [hx])
    have h8 := hplaced.header
    have hstop : advance x.start (s.size x.start) = s.top := by
      rw [← hadj]
      refine advance_stop hsize ?_
      unfold KERNBASE at hb
      omega
    have hnot : t.freep ∉ G.map start := by
      have hasc := h.ascending
      rw [hG, List.map_append, List.map_singleton, List.pairwise_append] at hasc
      rw [ht.freep]
      exact fun hmem => Nat.lt_irrefl _ (hasc.2.2 _ hmem _ List.mem_cons_self)
    have hlen : (G.map start).length ≤ 2 ^ 29 := by
      have hlen := congrArg List.length hG
      have hle := h.tiling.length_le
      simp only [List.length_cons, List.length_append, List.length_nil, List.length_map] at hlen ⊢
      omega
    have hcircle : Linked t.ptr (x.start :: G.map start ++ [t.freep]) := by
      rw [ht.freep]
      exact ht.circle h hG hadj hnext
    refine mallocLoop_walk (N := x.start :: G.map start) hcircle hnot List.mem_cons_self
      (fun y hy => List.mem_cons_of_mem _ hy) (by omega) ?_ ?_
    · intro q hq hfit
      rw [ht.only h hG hb h1 hadj hnext hq hfit]
      refine wp_post (carve_end hsum (by omega) hstop) ?_
      exact fun p s' hp => ⟨hp.1, hp.2.trans ht.top⟩
    · intro hall
      have hlt := hall t.freep (by simp)
      rw [ht.freep, hsum] at hlt
      omega

end Found

/-- Nothing changes, and the header is written behind the end of memory. -/
theorem large_outside {live : List (Nat × Nat)} (h : Process base s live) (h1 : 2 ^ 31 - 16 < n)
    (h2 : n < 2 ^ 32 - 7) (hsame : shortfall n = 0 ∨ s.top < shortfall n)
    (hmapped : s.top % PGSIZE ≠ 0) :
    wp (kmalloc base n) (fun p s' => p = s.top + 8 ∧ s'.top = s.top) (fun _ => False) s := by
  obtain ⟨hu1, hu2, -⟩ := unitsFor_large h1 h2
  refine large_asks h h1 h2 fun s₁ F k hF hs₁ hk => ?_
  obtain ⟨htop, hb, h0, -⟩ := h.first hF hs₁
  rw [← htop] at hsame hmapped ⊢
  have ht : Sound base { s₁ with calls := s₁.calls + 1 } F (live.map blockOf) :=
    hF.congr rfl hF.freep rfl rfl
  obtain ⟨G, x, hG⟩ : ∃ G x, sentinel base :: F = G ++ [x] :=
    ⟨_, _, (List.dropLast_append_getLast (List.cons_ne_nil _ _)).symm⟩
  have hx : x ∈ sentinel base :: F := by
    rw [hG]
    exact List.mem_concat_self
  have hin := (hF.inside x hx).2
  have hsize := hF.sizes x (List.mem_append_left _ hx)
  have hstatic := hF.tiling.static
  have hpos : x.start ≠ 0 := hF.node_pos (List.mem_map_of_mem hx)
  simp only [stop, KERNBASE, shortfall, HEADER] at hin hb hsame
  have hnext : advance s₁.top 1 = s₁.top + 8 := by
    rw [advance, HEADER]
    omega
  have hadv : advance s₁.top (unitsFor n) ≠ base := by
    rw [advance, HEADER]
    omega
  have htouch : Kernel.touch s₁.top { s₁ with calls := s₁.calls + 1 } =
      .ok ((), { s₁ with calls := s₁.calls + 1 }) := by
    refine touch_mapped ?_
    simp only [PGROUNDUP, PGSIZE] at hmapped ⊢
    omega
  rw [wp_bind, wp_congr (morecore_large hu1 (sbrk_same hb h0 hu1 hu2 hsame)), wp_bind,
    wp_iff_of_ok htouch, wp_bind, setSize, wp_modify, hnext]
  refine wp_seq (free_outside ht hG ?_ hadv ?_) fun _ s₂ h₂ => ?_
  · show s₁.top + 8 < 2 ^ 32
    omega
  · show s₁.size x.start + unitsFor n < 2 ^ 32
    omega
  · rw [wp_bind, wp_get, wp_pure, h₂.freep, if_neg hpos, wp_bind, wp_get]
    have hloop := loop_outside ht hG h₂ hb hu1 hk
    rw [hnext] at hloop
    exact hloop

end Outside

/-! ## Whole programs -/

/-- The states of a program of this kernel that frees only what it has allocated, writes
only there, and makes harmless requests. -/
inductive Kernel.Reachable (base : Nat) : Heap → List (Nat × Nat) → Prop where
  | boot (word : Nat → Nat) (top : Nat) (answers : Nat → Option Nat) :
      0 < base → base + HEADER ≤ top → top % 8 = 0 → top < KERNBASE →
      Reachable base ⟨word, 0, top, [], answers, 0⟩ []
  | malloc {s s' : Heap} {live : List (Nat × Nat)} {n p : Nat} : Reachable base s live →
      n < 2 ^ 32 → Harmless base n s → kmalloc base n s = .ok (p, s') →
      Reachable base s' (if p = 0 then live else (p, n) :: live)
  | free {s s' : Heap} {live : List (Nat × Nat)} {a : Nat × Nat} : Reachable base s live →
      a ∈ live → free a.1 s = .ok ((), s') → Reachable base s' (live.erase a)
  | write {s : Heap} {live : List (Nat × Nat)} {a : Nat × Nat} {x v : Nat} :
      Reachable base s live → a ∈ live → x % 4 = 0 → a.1 ≤ x → x < a.1 + a.2 →
      Reachable base (s.put x v) live

theorem Kernel.Reachable.process {live : List (Nat × Nat)} (h : Kernel.Reachable base s live) :
    Process base s live := by
  induction h with
  | boot word top answers hpos htop ha hb =>
    exact ⟨⟨by simp, .inl ⟨rfl, rfl, rfl, hpos, htop⟩⟩, ha, hb⟩
  | malloc _ hn hok hm ih =>
    rcases hok with hsmall | ⟨h1, hempty, hfull⟩ | ⟨h1, h2, hok⟩
    · obtain ⟨-, ⟨rfl, hp⟩ | ⟨hne, hp, -⟩⟩ := wp_of_ok (small_harmless ih hsmall) hm
      · rwa [if_pos rfl]
      · rwa [if_neg hne]
    · obtain ⟨rfl, -, hp⟩ := wp_of_ok (wrapped_null ih h1 hn hempty hfull) hm
      rwa [if_pos rfl]
    · exact (wp_of_ok (large_traps ih h1 h2 hok) hm).elim
  | free _ ha hf ih =>
    obtain ⟨hk, htop⟩ := wp_of_ok (kept_free ih.kept ha) hf
    exact ⟨hk, htop ▸ ih.aligned, htop ▸ ih.bound⟩
  | write _ ha _ h1 h2 ih => exact ⟨kept_write ih.kept ha h1 h2, ih.aligned, ih.bound⟩

theorem harmless_never_short {live : List (Nat × Nat)} (h : Process base s live) (hn : n < 2 ^ 32)
    (hok : Harmless base n s) : NeverShort base n s := by
  rcases hok with hsmall | ⟨h1, hempty, hfull⟩ | ⟨h1, h2, hok⟩
  · refine wp_mono (small_harmless h hsmall) ?_ fun _ he => he.elim
    rintro p s' ⟨hle, ⟨rfl, -⟩ | ⟨-, -, hblock⟩⟩
    · exact ⟨hle, fun hne => absurd rfl hne⟩
    · exact ⟨hle, fun _ => hblock⟩
  · refine wp_mono (wrapped_null h h1 hn hempty hfull) ?_ fun _ he => he.elim
    rintro p s' ⟨rfl, htop, -⟩
    exact ⟨htop.ge, fun hne => absurd rfl hne⟩
  · refine wp_mono (large_traps h h1 h2 hok) (fun _ _ hf => hf.elim) ?_
    exact fun e he => ⟨s.top, he, Nat.le_refl _⟩

theorem harmful_short {live : List (Nat × Nat)} (h : Process base s live) (hn : n < 2 ^ 32)
    (hbad : ¬ Harmless base n s) : ¬ NeverShort base n s := by
  have hsmall : ¬ n ≤ 2 ^ 31 - 16 := fun hle => hbad (.inl hle)
  by_cases hwrap : 2 ^ 32 - 7 ≤ n
  · have hroom : ¬ (s.empty base ∧ s.full (4096 * HEADER)) := fun hno =>
      hbad (.inr (.inl ⟨hwrap, hno⟩))
    refine not_wp (wp_mono (wrapped_short h hwrap hn hroom) ?_ fun _ he => he.elim)
    rintro p s' ⟨hp, hone⟩ ⟨-, hshort⟩
    have hfits := (hshort hp).2
    rw [hone, HEADER] at hfits
    omega
  · have h1 : 2 ^ 31 - 16 < n := by omega
    have h2 : n < 2 ^ 32 - 7 := by omega
    have hall : shortfall n ≠ s.top := fun he => hbad (.inr (.inr ⟨h1, h2, .inl he⟩))
    by_cases hsame : shortfall n = 0 ∨ s.top < shortfall n
    · have hmapped : s.top % PGSIZE ≠ 0 := fun he =>
        hbad (.inr (.inr ⟨h1, h2, .inr ⟨hsame, he⟩⟩))
      refine not_wp (wp_mono (large_outside h h1 h2 hsame hmapped) ?_ fun _ he => he.elim)
      rintro p s' ⟨rfl, htop⟩ ⟨-, hshort⟩
      have hin := (hshort (by omega)).1
      omega
    · refine not_wp (wp_mono (large_lowers h h1 h2 (by omega) (by omega)) ?_ ?_)
      · rintro p s' hlow ⟨hle, -⟩
        omega
      · rintro e hlow ⟨sz, rfl, hle⟩
        have hlt := hlow sz rfl
        omega

/-- A call of `malloc` keeps what a program may expect of it exactly if the request is
harmless. -/
theorem malloc_never_short_iff {live : List (Nat × Nat)} (h : Kernel.Reachable base s live)
    (hn : n < 2 ^ 32) : NeverShort base n s ↔ Harmless base n s := by
  refine ⟨fun hshort => ?_, harmless_never_short h.process hn⟩
  by_contra hbad
  exact harmful_short h.process hn hbad hshort

end

theorem blank_reachable : Kernel.Reachable 4096 blank [] :=
  .boot _ _ _ (by decide) (by decide) (by decide) (by decide)

/-- A process that has a block of 10 bytes asks for 40000 more, which `sbrk` has to find. -/
theorem malloc_never_short_again : ∃ s, Kernel.Reachable 4096 s [(40944, 10)] ∧
    Harmless 4096 40000 s ∧ NeverShort 4096 40000 s := by
  have hval : (kmalloc 4096 10 blank).toOption.map Prod.fst = some 40944 := by decide +kernel
  cases hm : kmalloc 4096 10 blank with
  | error e =>
    rw [hm] at hval
    cases hval
  | ok r =>
    obtain ⟨p, s⟩ := r
    rw [hm] at hval
    obtain rfl : p = 40944 := Option.some.inj hval
    have hreach : Kernel.Reachable 4096 s [(40944, 10)] :=
      blank_reachable.malloc (by decide) (.inl (by decide)) hm
    have hok : Harmless 4096 40000 s := .inl (by decide)
    exact ⟨s, hreach, hok, (malloc_never_short_iff hreach (by decide)).mpr hok⟩

/-- The request for -1 in a new process: it is given a block of one unit, the header alone,
at the end of its memory. -/
theorem malloc_returns_header : Kernel.Reachable 4096 blank [] ∧
    ∃ s', kmalloc 4096 (2 ^ 32 - 1) blank = .ok (40960, s') ∧ s'.top = 40960 ∧
      s'.size (40960 - HEADER) = 1 := by
  refine ⟨blank_reachable, ?_⟩
  have hval : (kmalloc 4096 (2 ^ 32 - 1) blank).toOption.map
      (fun r => (r.1, r.2.top, r.2.size (40960 - HEADER))) = some (40960, 40960, 1) := by
    decide +kernel
  cases hm : kmalloc 4096 (2 ^ 32 - 1) blank with
  | error e =>
    rw [hm] at hval
    cases hval
  | ok r =>
    obtain ⟨p, s'⟩ := r
    rw [hm] at hval
    simp only [Except.toOption, Option.map_some, Option.some.injEq, Prod.mk.injEq] at hval
    obtain ⟨rfl, htop, hsize⟩ := hval
    exact ⟨s', rfl, htop, hsize⟩

end Xv6Pdx.Umalloc
