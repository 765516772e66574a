/-
# `Umalloc.Heap` — what the allocator keeps

The memory that `sbrk` gave is tiled by free blocks and blocks in use
(`Tiling`): no two overlap, and there is a gap between any two free ones.  The
free blocks are linked in increasing order behind `base`, which is below all of
them, and the last one points back to `base` (`Sound`).

`join` links a block to what comes after it, and that is `Span.attach`
(`join_spec`); `free` is two of them.
-/
import Xv6Pdx.Umalloc.Model

namespace Xv6Pdx.Umalloc

open Lib Span

/-- `base` as a free block of no units. -/
def sentinel (base : Nat) : Span := ⟨base, 0⟩

/-- A block of whole units above `base`, in the memory of the process. -/
structure Placed (base top : Nat) (b : Span) : Prop where
  aligned : b.start % 8 = 0
  units : b.size % 8 = 0
  header : 8 ≤ b.size
  above : base + 8 ≤ b.start
  inside : b.stop ≤ top
  bound : b.stop < 2 ^ 32

/-- The free blocks `F` and the blocks in use `U` make up what `sbrk` gave. -/
structure Tiling (base top : Nat) (regions F U : List Span) : Prop where
  placed : ∀ b ∈ F ++ U, Placed base top b
  clear : F.Pairwise Clear
  apart : U.Pairwise Apart
  used : ∀ u ∈ U, ∀ f ∈ F, Apart u f
  total : total F + total U = total regions
  covers : ∀ x, Covers F x ∨ Covers U x ↔ Covers regions x
  room : Span.total regions ≤ top
  bound : Span.total regions ≤ 2 ^ 32
  static : base + 8 ≤ top

/-- The free list of the heap is `F`, and `U` is in use. -/
structure Sound (base : Nat) (s : Heap) (F U : List Span) : Prop where
  tiling : Tiling base s.top s.regions F U
  links : Linked s.ptr ((sentinel base :: F).map start ++ [base])
  sizes : ∀ b ∈ sentinel base :: (F ++ U), 8 * s.size b.start = b.size
  freep : s.freep ∈ (sentinel base :: F).map start
  pos : 0 < base

/-! ## Tilings -/

namespace Tiling

variable {base top : Nat} {R F U pre post : List Span} {b f : Span}

theorem pairwise (h : Tiling base top R F U) : (F ++ U).Pairwise Apart := by
  refine List.pairwise_append.mpr ⟨?_, h.apart, fun f hf u hu => (h.used u hu f hf).symm⟩
  exact h.clear.imp fun hab => Or.inl (Nat.le_of_lt hab)

theorem perm {U' : List Span} (h : Tiling base top R F U) (hp : U.Perm U') :
    Tiling base top R F U' where
  placed b hb := h.placed b (by
    simp only [List.mem_append, hp.mem_iff] at hb ⊢
    exact hb)
  clear := h.clear
  apart := hp.pairwise h.apart fun hab => Apart.symm hab
  used u hu := h.used u (hp.mem_iff.mpr hu)
  total := by
    rw [← h.total, Span.total, Span.total, Span.total, (hp.map size).sum_nat]
  covers x := by
    rw [← h.covers x, Covers, Covers, Covers]
    simp only [hp.mem_iff]
  room := h.room
  bound := h.bound
  static := h.static

theorem free (h : Tiling base top R (pre ++ post) (b :: U)) (h₁ : ∀ a ∈ pre, a.stop ≤ b.start)
    (h₂ : ∀ c ∈ post, b.stop ≤ c.start) :
    Tiling base top R (attach pre (attach [b] post)) U := by
  have hclear := List.pairwise_append.mp h.clear
  have hb := h.placed b (by simp)
  have hapart := List.pairwise_cons.mp h.apart
  -- the order of the parts
  have hpost : ∀ c ∈ attach [b] post, b.start ≤ c.start := by
    refine attach_forall ?_ ?_ ?_
    · simp
    · intro c hc
      have := h₂ c hc
      simp only [stop] at this
      omega
    · intro a ha c _ _
      obtain rfl := List.mem_singleton.mp ha
      exact Nat.le_refl _
  have hjoin : ∀ x y : Span, Placed base top x → Placed base top y → x.stop = y.start →
      Placed base top ⟨x.start, x.size + y.size⟩ := by
    rintro x y ⟨h1, h2, h3, h4, h5, h6⟩ ⟨k1, k2, k3, k4, k5, k6⟩ he
    simp only [stop] at *
    constructor <;> simp only [stop] <;> omega
  have hright : ∀ c ∈ attach [b] post, Placed base top c := by
    refine attach_forall ?_ ?_ ?_
    · simpa using hb
    · exact fun c hc => h.placed c (by simp [hc])
    · intro a ha c hc hac
      obtain rfl := List.mem_singleton.mp ha
      exact hjoin a c hb (h.placed c (by simp [hc])) hac
  refine ⟨?_, ?_, hapart.2, ?_, ?_, ?_, h.room, h.bound, h.static⟩
  · intro c hc
    rcases List.mem_append.mp hc with hc | hc
    · refine attach_forall (fun a ha => h.placed a (by simp [ha])) hright ?_ c hc
      exact fun a ha c hc hac => hjoin a c (h.placed a (by simp [ha])) (hright c hc) hac
    · exact h.placed c (by simp [hc])
  · refine attach_clear hclear.1 (attach_clear (List.pairwise_singleton _ _) hclear.2.1 ?_) ?_
    · intro a ha c hc
      obtain rfl := List.mem_singleton.mp ha
      exact h₂ c hc
    · exact fun a ha c hc => Nat.le_trans (h₁ a ha) (hpost c hc)
  · intro u hu
    have hpos : 0 < u.size := Nat.lt_of_lt_of_le (by decide) (h.placed u (by simp [hu])).header
    have hused := h.used u (List.mem_cons_of_mem b hu)
    refine attach_apart hpos (fun a ha => hused a (by simp [ha])) ?_
    refine attach_apart hpos ?_ fun c hc => hused c (by simp [hc])
    intro a ha
    obtain rfl := List.mem_singleton.mp ha
    exact (hapart.1 u hu).symm
  · have := h.total
    simp only [total_attach, total_append, total_cons, total_nil] at this ⊢
    omega
  · intro x
    have := h.covers x
    simp only [covers_attach, covers_append, covers_cons, covers_nil] at this ⊢
    rw [← this]
    tauto

theorem take (h : Tiling base top R (pre ++ f :: post) U) :
    Tiling base top R (pre ++ post) (f :: U) := by
  have hsub : (pre ++ post).Sublist (pre ++ f :: post) := by simp
  have hclear := List.pairwise_append.mp h.clear
  have hapart : ∀ c ∈ pre ++ post, Apart f c := by
    intro c hc
    rcases List.mem_append.mp hc with hc | hc
    · exact Or.inr (Nat.le_of_lt (hclear.2.2 c hc f List.mem_cons_self))
    · exact Or.inl (Nat.le_of_lt ((List.pairwise_cons.mp hclear.2.1).1 c hc))
  refine ⟨?_, h.clear.sublist hsub, ?_, ?_, ?_, ?_, h.room, h.bound, h.static⟩
  · intro c hc
    refine h.placed c ?_
    simp only [List.mem_append, List.mem_cons] at hc ⊢
    tauto
  · exact List.pairwise_cons.mpr ⟨fun u hu => (h.used u hu f (by simp)).symm, h.apart⟩
  · intro u hu c hc
    rcases List.mem_cons.mp hu with rfl | hu
    · exact hapart c hc
    · exact h.used u hu c (hsub.subset hc)
  · have := h.total
    simp only [total_append, total_cons] at this ⊢
    omega
  · intro x
    have := h.covers x
    simp only [covers_append, covers_cons] at this ⊢
    rw [← this]
    tauto

/-- The last `n` places of a block in use become a block of their own, and the
rest is free; the block was free before, and is now listed first. -/
theorem cut {n : Nat} (h : Tiling base top R (pre ++ f :: post) U) (hn : n % 8 = 0) (h8 : 8 ≤ n)
    (hlt : n < f.size) : Tiling base top R (pre ++ ⟨f.start, f.size - n⟩ :: post)
      (⟨f.start + (f.size - n), n⟩ :: U) := by
  have hf := h.placed f (by simp)
  have hclear := List.pairwise_append.mp h.clear
  have hafter := List.pairwise_cons.mp hclear.2.1
  have hbefore : ∀ a ∈ pre, a.stop < f.start := fun a ha => hclear.2.2 a ha f List.mem_cons_self
  have hother : ∀ a ∈ pre, ∀ c ∈ post, Clear a c := fun a ha c hc =>
    hclear.2.2 a ha c (List.mem_cons_of_mem f hc)
  have hrest : ∀ c ∈ post, f.start + (f.size - n) < c.start := by
    intro c hc
    have := hafter.1 c hc
    simp only [Clear, stop] at this
    omega
  refine ⟨?_, ?_, ?_, ?_, ?_, ?_, h.room, h.bound, h.static⟩
  · intro c hc
    have hold : c ∈ pre ++ f :: post ++ U → Placed base top c := h.placed c
    simp only [List.mem_append, List.mem_cons] at hc hold
    obtain ⟨h1, h2, h3, h4, h5, h6⟩ := hf
    simp only [stop] at h5 h6
    rcases hc with (hc | rfl | hc) | rfl | hc
    · exact hold (by tauto)
    · constructor <;> simp only [stop] <;> omega
    · exact hold (by tauto)
    · constructor <;> simp only [stop] <;> omega
    · exact hold (by tauto)
  · refine List.pairwise_append.mpr ⟨hclear.1, List.pairwise_cons.mpr ⟨hrest, hafter.2⟩, ?_⟩
    intro a ha c hc
    rcases List.mem_cons.mp hc with rfl | hc
    · exact hbefore a ha
    · exact hother a ha c hc
  · refine List.pairwise_cons.mpr ⟨fun u hu => ?_, h.apart⟩
    have := h.used u hu f (by simp)
    simp only [Apart, stop] at this ⊢
    omega
  · intro u hu c hc
    rcases List.mem_cons.mp hu with rfl | hu
    · simp only [List.mem_append, List.mem_cons] at hc
      simp only [Apart, stop]
      rcases hc with hc | rfl | hc
      · have := hbefore c hc
        simp only [stop] at this
        omega
      · simp
      · have := hafter.1 c hc
        simp only [Clear, stop] at this
        omega
    · simp only [List.mem_append, List.mem_cons] at hc
      rcases hc with hc | rfl | hc
      · exact h.used u hu c (by simp [hc])
      · have := h.used u hu f (by simp)
        simp only [Apart, stop] at this ⊢
        omega
      · exact h.used u hu c (by simp [hc])
  · have := h.total
    simp only [total_append, total_cons] at this ⊢
    omega
  · intro x
    have := h.covers x
    simp only [covers_append, covers_cons, stop] at this ⊢
    rw [← this]
    have hsplit : (f.start ≤ x ∧ x < f.start + f.size) ↔
        (f.start ≤ x ∧ x < f.start + (f.size - n)) ∨
        (f.start + (f.size - n) ≤ x ∧ x < f.start + (f.size - n) + n) := by omega
    simp only [hsplit, or_assoc, or_left_comm]

theorem grow {a n : Nat} (h : Tiling base top R F U) (ha : a % 8 = 0) (htop : top ≤ a)
    (hn : n % 8 = 0) (h8 : 8 ≤ n) (hlt : a + n < 2 ^ 32) :
    Tiling base (a + n) (⟨a, n⟩ :: R) F (⟨a, n⟩ :: U) := by
  have hbelow : ∀ c ∈ F ++ U, c.stop ≤ a := fun c hc => (h.placed c hc).inside.trans htop
  have hstatic := h.static
  refine ⟨?_, h.clear, ?_, ?_, ?_, ?_, ?_, ?_, ?_⟩
  · intro c hc
    simp only [List.mem_append, List.mem_cons] at hc
    rcases hc with hc | rfl | hc
    · obtain ⟨h1, h2, h3, h4, h5, h6⟩ := h.placed c (by simp [hc])
      exact ⟨h1, h2, h3, h4, by omega, h6⟩
    · constructor <;> simp only [stop] <;> omega
    · obtain ⟨h1, h2, h3, h4, h5, h6⟩ := h.placed c (by simp [hc])
      exact ⟨h1, h2, h3, h4, by omega, h6⟩
  · exact List.pairwise_cons.mpr ⟨fun u hu => Or.inr (hbelow u (by simp [hu])), h.apart⟩
  · intro u hu f hf
    rcases List.mem_cons.mp hu with rfl | hu
    · exact Or.inr (hbelow f (by simp [hf]))
    · exact h.used u hu f hf
  · have := h.total
    simp only [total_cons] at this ⊢
    omega
  · intro x
    have := h.covers x
    simp only [covers_cons] at this ⊢
    rw [← this]
    tauto
  · have := h.room
    simp only [total_cons]
    omega
  · have := h.room
    simp only [total_cons]
    omega
  · omega

/-- The list is no longer than the address space allows. -/
theorem length_le (h : Tiling base top R F U) : F.length ≤ 2 ^ 29 := by
  have hlen : 8 * F.length ≤ Span.total F :=
    length_le_total fun b hb => (h.placed b (by simp [hb])).header
  have := h.total
  have := h.bound
  omega

end Tiling

/-! ## Headers -/

/-- Two headers that do not overlap. -/
def Far (x y : Nat) : Prop := x + 8 ≤ y ∨ y + 8 ≤ x

theorem Far.symm {x y : Nat} (h : Far x y) : Far y x := Or.symm h

section Put

variable (s : Heap) {x p v : Nat}

@[simp] theorem put_ptr_self : (s.put p v).ptr p = v := Function.update_self ..

@[simp] theorem put_size_self : (s.put (p + 4) v).size p = v := Function.update_self ..

theorem put_ptr (h : x ≠ p) : (s.put p v).ptr x = s.ptr x := Function.update_of_ne h ..

theorem put_size (h : x + 4 ≠ p) : (s.put p v).size x = s.size x := Function.update_of_ne h ..

theorem put_far {y : Nat} (hy : y = p ∨ y = p + 4) (h : Far x p) :
    (s.put y v).ptr x = s.ptr x ∧ (s.put y v).size x = s.size x := by
  rcases h with h | h <;> refine ⟨put_ptr s ?_, put_size s ?_⟩ <;> omega

end Put

/-- Nothing but words has changed, and none of those of a header away from `p`. -/
structure Local (p : Nat) (s s' : Heap) : Prop where
  same : s' = { s with word := s'.word }
  far : ∀ x, Far x p → s'.ptr x = s.ptr x ∧ s'.size x = s.size x

theorem Local.put {s : Heap} {p y v : Nat} (hy : y = p ∨ y = p + 4) : Local p s (s.put y v) :=
  ⟨rfl, fun _ hx => put_far s hy hx⟩

theorem Local.trans {s s' s'' : Heap} {p : Nat} (h : Local p s s') (h' : Local p s' s'') :
    Local p s s'' := by
  refine ⟨?_, fun x hx => ?_⟩
  · rw [h'.same, h.same]
  · rw [(h'.far x hx).1, (h'.far x hx).2]
    exact h.far x hx

/-! ## Joining -/

theorem advance_stop {s : Heap} {a : Span} (hs : 8 * s.size a.start = a.size)
    (hb : a.stop < 2 ^ 32) : advance a.start (s.size a.start) = a.stop := by
  rw [advance, HEADER, Nat.mul_comm, hs]
  exact Nat.mod_eq_of_lt hb

/-- `join` links the block `a` to the list `l` behind it. -/
theorem join_spec {s : Heap} {base : Nat} {a : Span} {l : List Span} {y : Nat} {rest : List Nat}
    (hy : l.map start ++ [base] = y :: rest) (hl : Linked s.ptr (y :: rest))
    (hsize : ∀ x ∈ a :: l, 8 * s.size x.start = x.size)
    (hafter : ∀ x ∈ l, a.start + 8 ≤ x.start) (hbase : l = [] → a.stop ≠ base)
    (hbound : ∀ x ∈ a :: l, x.stop < 2 ^ 32) (E : Stop → Prop) :
    wp (join a.start y) (fun _ s' => Linked s'.ptr ((attach [a] l).map start ++ [base]) ∧
      (∀ x ∈ attach [a] l, 8 * s'.size x.start = x.size) ∧ Local a.start s s') E s := by
  have hadv := advance_stop (hsize a List.mem_cons_self) (hbound a List.mem_cons_self)
  have hfar : ∀ x ∈ l, Far x.start a.start := fun x hx => Or.inr (hafter x hx)
  -- the links behind `a` are not changed
  have hkeep : ∀ {s' : Heap} {m : List Span}, Local a.start s s' → (∀ x ∈ m, x ∈ l) →
      Linked s.ptr (m.map start ++ [base]) → Linked s'.ptr (m.map start ++ [base]) := by
    intro s' m hloc hm hlinked
    refine hlinked.congr ?_
    intro x hx
    rw [List.dropLast_concat, List.mem_map] at hx
    obtain ⟨b, hb, rfl⟩ := hx
    exact (hloc.far _ (hfar b (hm b hb))).1
  have hplain : attach [a] l = a :: l → wp (setPtr a.start y) (fun _ s' =>
      Linked s'.ptr ((attach [a] l).map start ++ [base]) ∧
      (∀ x ∈ attach [a] l, 8 * s'.size x.start = x.size) ∧ Local a.start s s') E s := by
    intro hatt
    have hloc : Local a.start s (s.put a.start y) := .put (Or.inl rfl)
    rw [hatt, setPtr, wp_modify]
    refine ⟨?_, ?_, hloc⟩
    · rw [List.map_cons, List.cons_append, hy, Linked.cons_cons]
      refine ⟨put_ptr_self s, ?_⟩
      rw [← hy] at hl ⊢
      exact hkeep hloc (fun x hx => hx) hl
    · intro x hx
      rw [← hsize x hx]
      rcases List.mem_cons.mp hx with rfl | hx
      · rw [put_size s (by omega)]
      · rw [(hloc.far _ (hfar x hx)).2]
  simp only [join, wp_bind, wp_get, wp_ite]
  rw [hadv]
  cases l with
  | nil =>
    obtain ⟨rfl, -⟩ := List.cons.inj hy
    exact ⟨fun he => absurd he (hbase rfl), fun _ => hplain rfl⟩
  | cons q l =>
    rw [List.map_cons, List.cons_append] at hy
    obtain ⟨rfl, hrest⟩ := List.cons.inj hy
    refine ⟨fun he => ?_, fun hne => hplain (by rw [attach_singleton, if_neg hne])⟩
    rw [attach_singleton, if_pos he]
    set v := (s.size a.start + s.size q.start) % 2 ^ 32 with hv
    have hq : Far q.start a.start := hfar q List.mem_cons_self
    have hloc : Local a.start s ((s.put (a.start + 4) v).put a.start (s.ptr q.start)) :=
      (Local.put (Or.inr rfl)).trans (.put (Or.inl rfl))
    have hptr : (s.put (a.start + 4) v).ptr q.start = s.ptr q.start :=
      (put_far s (Or.inr rfl) hq).1
    simp only [setSize, setPtr, wp_modify, hptr]
    obtain ⟨c, cs, hc⟩ := List.exists_cons_of_ne_nil (List.append_ne_nil_of_right_ne_nil
      (l.map start) (List.cons_ne_nil base []))
    rw [← hrest, hc, Linked.cons_cons] at hl
    refine ⟨?_, ?_, hloc⟩
    · rw [List.map_cons, List.cons_append, hc, Linked.cons_cons]
      refine ⟨by rw [put_ptr_self, hl.1], ?_⟩
      rw [← hc] at hl ⊢
      exact hkeep hloc (fun x hx => List.mem_cons_of_mem q hx) hl.2
    · intro x hx
      rcases List.mem_cons.mp hx with rfl | hx
      · have ha := hsize a List.mem_cons_self
        have hqs := hsize q (by simp)
        have hqb := hbound q (by simp)
        have hval : s.size a.start + s.size q.start < 2 ^ 32 := by
          simp only [stop] at *
          omega
        show 8 * Heap.size _ a.start = a.size + q.size
        rw [put_size _ (by omega), put_size_self, hv, Nat.mod_eq_of_lt hval]
        omega
      · rw [(hloc.far _ (hfar x (List.mem_cons_of_mem q hx))).2]
        exact hsize x (by simp [hx])

end Xv6Pdx.Umalloc
