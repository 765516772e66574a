/-
# `Umalloc.Sound` — `malloc` and `free` keep the heap sound

`free` finds the place of its block wherever `freep` is, because the loop stops
at exactly one block of the list (`gap_iff`).  `malloc` looks at every block once,
ending with the one at `freep`, before it asks for more memory, and at every block
of the longer list after that, so that it calls `sbrk` at most once
(`mallocLoop_grown`).

`heap_sound` puts this together for every program that frees only what it has
allocated.
-/
import Xv6Pdx.Umalloc.Heap

namespace Xv6Pdx.Umalloc

open Lib Span

section

variable {base : Nat} {s : Heap} {F U pre post : List Span} {b : Span}

namespace Sound

theorem placed (h : Sound base s F U) {x : Span} (hx : x ∈ F ++ U) : Placed base s.top x :=
  h.tiling.placed x hx

theorem far (h : Sound base s F U) {x y : Span} (hx : x ∈ sentinel base :: (F ++ U))
    (hy : y ∈ sentinel base :: (F ++ U)) (hne : x ≠ y) : Far x.start y.start := by
  have hbase : ∀ z ∈ F ++ U, Far (sentinel base).start z.start := fun z hz =>
    Or.inl (h.placed hz).above
  rcases List.mem_cons.mp hx with rfl | hx
  · rcases List.mem_cons.mp hy with rfl | hy
    · exact absurd rfl hne
    · exact hbase y hy
  · rcases List.mem_cons.mp hy with rfl | hy
    · exact (hbase x hx).symm
    · have hap := h.tiling.pairwise.forall hx hy hne
      have h8 := (h.placed hx).header
      have h8' := (h.placed hy).header
      simp only [Apart, stop] at hap
      unfold Far
      omega

theorem clear (h : Sound base s F U) : (sentinel base :: F).Pairwise Clear := by
  refine List.pairwise_cons.mpr ⟨fun f hf => ?_, h.tiling.clear⟩
  have := (h.placed (List.mem_append_left U hf)).above
  simp only [Clear, sentinel, stop]
  omega

theorem ascending (h : Sound base s F U) : ((sentinel base :: F).map start).Pairwise (· < ·) := by
  refine List.pairwise_map.mpr (h.clear.imp ?_)
  intro x y hxy
  simp only [Clear, stop] at hxy
  omega

theorem used_ne (h : Sound base s F U) {u x : Span} (hu : u ∈ U) (hx : x ∈ sentinel base :: F) :
    u ≠ x := by
  rintro rfl
  have hp := (h.placed (List.mem_append_right F hu)).header
  rcases List.mem_cons.mp hx with rfl | hx
  · simp [sentinel] at hp
  · have hself := h.tiling.used u hu u hx
    simp only [Apart, stop] at hself
    omega

theorem head_ne (h : Sound base s F (b :: U)) {u : Span} (hu : u ∈ U) : u ≠ b := by
  rintro rfl
  have hself := (List.pairwise_cons.mp h.tiling.apart).1 u hu
  have := (h.placed (x := u) (by simp)).header
  simp only [Apart, stop] at hself
  omega

theorem below (h : Sound base s F (b :: U)) (hpre : ∀ a ∈ pre, a ∈ F ∧ a.stop ≤ b.start) :
    ∀ x ∈ sentinel base :: pre, x.start + 8 ≤ b.start ∧ x.stop ≤ b.start := by
  intro x hx
  rcases List.mem_cons.mp hx with rfl | hx
  · have := (h.placed (x := b) (by simp)).above
    simp only [sentinel, stop]
    omega
  · obtain ⟨hF, hle⟩ := hpre x hx
    have := (h.placed (x := x) (by simp [hF])).header
    simp only [stop] at hle ⊢
    omega

theorem behind (h : Sound base s F (b :: U)) (hpost : ∀ c ∈ post, c ∈ F ∧ b.stop ≤ c.start) :
    ∀ x ∈ attach [b] post, b.start ≤ x.start ∧ x.stop < 2 ^ 32 := by
  have hrest : ∀ x ∈ post, b.start ≤ x.start ∧ x.stop < 2 ^ 32 := by
    intro x hx
    obtain ⟨hF, hle⟩ := hpost x hx
    simp only [stop] at hle
    exact ⟨by omega, (h.placed (x := x) (by simp [hF])).bound⟩
  refine attach_forall ?_ hrest ?_
  · simpa using (h.placed (x := b) (by simp)).bound
  · intro x hx z hz hxz
    obtain rfl := List.mem_singleton.mp hx
    have := (hrest z hz).2
    simp only [stop] at hxz this ⊢
    omega

end Sound

/-! ## The search of `free` -/

theorem gap_iff (h : Sound base s (pre ++ post) (b :: U)) (h₁ : ∀ a ∈ pre, a.stop ≤ b.start)
    (h₂ : ∀ c ∈ post, b.stop ≤ c.start) {G : List Span} {a : Span}
    (hG : sentinel base :: pre = G ++ [a]) :
    ∀ x ∈ (sentinel base :: (pre ++ post)).map start, s.gap b.start x = true ↔ x = a.start := by
  have hb := h.placed (x := b) (by simp)
  have hlow : ∀ x ∈ G ++ [a], x.start < b.start := by
    intro x hx
    have := (h.below (fun a ha => ⟨by simp [ha], h₁ a ha⟩) x (hG ▸ hx)).1
    omega
  have hhigh : ∀ x ∈ post, b.start < x.start := by
    intro x hx
    have hle := h₂ x hx
    have := hb.header
    simp only [stop] at hle
    omega
  have hall : sentinel base :: (pre ++ post) = G ++ a :: post := by
    rw [← List.cons_append, hG]
    simp
  have hlinks := h.links
  have hasc := h.ascending
  rw [hall, List.map_append, List.map_cons] at hasc
  rw [hall, List.map_append, List.map_cons, List.append_assoc, List.cons_append, Linked.split]
    at hlinks
  rw [hall]
  have hbase : base < b.start := by have := hb.above; omega
  intro x hx
  rw [List.map_append, List.map_cons, List.mem_append, List.mem_cons] at hx
  rcases hx with hx | rfl | hx
  · -- before `a` the next block is still below `b`
    have hne : x ≠ a.start := by
      rintro rfl
      exact absurd ((List.pairwise_append.mp hasc).2.2 _ hx _ List.mem_cons_self) (Nat.lt_irrefl _)
    have hpair : (G.map start ++ [a.start]).Pairwise (· < ·) := by
      rw [List.append_cons] at hasc
      exact (List.pairwise_append.mp hasc).1
    obtain ⟨hlt, hmem⟩ := hlinks.1.ascends hpair x (by rwa [List.dropLast_concat])
    have hnext : s.ptr x < b.start := by
      rw [← List.map_singleton (f := start), ← List.map_append, List.mem_map] at hmem
      obtain ⟨y, hy, hy'⟩ := hmem
      rw [← hy']
      exact hlow y hy
    simp only [Heap.gap, hne, iff_false, Bool.or_eq_true, Bool.and_eq_true, decide_eq_true_eq]
    omega
  · have ha : a.start < b.start := hlow a (by simp)
    simp only [Heap.gap, iff_true, Bool.or_eq_true, Bool.and_eq_true, decide_eq_true_eq]
    cases post with
    | nil =>
      have hnext : s.ptr a.start = base := (Linked.cons_cons.mp hlinks.2).1
      have : base ≤ a.start := by
        have hmem : a ∈ sentinel base :: pre := by rw [hG]; simp
        rcases List.mem_cons.mp hmem with rfl | hmem
        · exact Nat.le_refl _
        · have := (h.placed (x := a) (by simp [hmem])).above
          omega
      omega
    | cons c post =>
      have hnext : s.ptr a.start = c.start := (Linked.cons_cons.mp hlinks.2).1
      have := hhigh c List.mem_cons_self
      omega
  · -- behind `b` the pointers go up, and the last one goes to `base`
    have hgt : b.start < x := by
      obtain ⟨y, hy, rfl⟩ := List.mem_map.mp hx
      exact hhigh y hy
    have hne : x ≠ a.start := by
      have := hlow a (by simp)
      omega
    have hnext : x < s.ptr x ∨ s.ptr x = base := by
      obtain ⟨l₁, l₂, hsplit⟩ := List.append_of_mem hx
      have hlink := hlinks.2
      rw [hsplit, List.append_assoc, List.cons_append, ← List.cons_append, Linked.split] at hlink
      cases l₂ with
      | nil => exact Or.inr (Linked.cons_cons.mp hlink.2).1
      | cons y l₂ =>
        left
        rw [(Linked.cons_cons.mp hlink.2).1]
        rw [hsplit] at hasc
        have htail := (List.pairwise_cons.mp (List.pairwise_append.mp hasc).2.1).2
        exact (List.pairwise_cons.mp (List.pairwise_append.mp htail).2.1).1 y List.mem_cons_self
    simp only [Heap.gap, hne, iff_false, Bool.or_eq_true, Bool.and_eq_true, decide_eq_true_eq]
    omega

/-! ## `free` -/

theorem search_spec (h : Sound base s (pre ++ post) (b :: U)) (h₁ : ∀ a ∈ pre, a.stop ≤ b.start)
    (h₂ : ∀ c ∈ post, b.stop ≤ c.start) {G : List Span} {a : Span}
    (hG : sentinel base :: pre = G ++ [a]) :
    seek s.ptr (s.gap b.start) turns s.freep = some a.start := by
  have hmem : a ∈ sentinel base :: (pre ++ post) := by
    rw [← List.cons_append, hG]
    simp
  have hlinks : Linked s.ptr (base :: (pre ++ post).map start ++ [base]) := h.links
  have hnodup : (base :: (pre ++ post).map start).Nodup := h.ascending.imp Nat.ne_of_lt
  have hlen : (base :: (pre ++ post).map start).length ≤ turns := by
    have := h.tiling.length_le
    rw [List.length_cons, List.length_map, turns]
    omega
  exact seek_circle hlinks hnodup h.freep (List.mem_map_of_mem hmem) (gap_iff h h₁ h₂ hG) hlen

theorem Sound.joined {s' : Heap} (h : Sound base s (pre ++ post) (b :: U))
    (h₁ : ∀ a ∈ pre, a.stop ≤ b.start) (h₂ : ∀ c ∈ post, b.stop ≤ c.start) {G : List Span}
    {a : Span} (hG : sentinel base :: pre = G ++ [a])
    (hs : s' = { s with word := s'.word, freep := a.start })
    (hlink : Linked s'.ptr ((attach [a] (attach [b] post)).map start ++ [base]))
    (hsizes : ∀ x ∈ attach [a] (attach [b] post), 8 * s'.size x.start = x.size)
    (hsame : ∀ x, Far x a.start → Far x b.start → s'.ptr x = s.ptr x ∧ s'.size x = s.size x) :
    Sound base s' (attach pre (attach [b] post)) U := by
  have hGmem : ∀ x ∈ G ++ [a], x ∈ sentinel base :: (pre ++ post) := by
    intro x hx
    rw [← hG] at hx
    rcases List.mem_cons.mp hx with rfl | hx
    · simp
    · simp [hx]
  have hmem : ∀ {x}, x ∈ sentinel base :: (pre ++ post) →
      x ∈ sentinel base :: (pre ++ post ++ b :: U) := by
    intro x hx
    rw [← List.cons_append]
    exact List.mem_append_left _ hx
  have hkeep : ∀ x ∈ sentinel base :: (pre ++ post ++ b :: U), x ≠ a → x ≠ b →
      s'.ptr x.start = s.ptr x.start ∧ s'.size x.start = s.size x.start := by
    intro x hx hxa hxb
    exact hsame _ (h.far hx (hmem (hGmem a (by simp))) hxa) (h.far hx (by simp) hxb)
  have hGa : ∀ x ∈ G, x ≠ a := by
    rintro x hx rfl
    have hclear := h.clear
    rw [← List.cons_append, hG, List.append_assoc, List.pairwise_append] at hclear
    have := hclear.2.2 x hx x (by simp)
    simp only [Clear, stop] at this
    omega
  have hGb : ∀ x ∈ G, x ≠ b := fun x hx =>
    (h.used_ne List.mem_cons_self (hGmem x (by simp [hx]))).symm
  have hlist : sentinel base :: attach pre (attach [b] post) =
      G ++ attach [a] (attach [b] post) := by
    rw [← attach_append, ← hG]
    refine (attach_cons fun x hx => ?_).symm
    have := (h.behind (fun c hc => ⟨by simp [hc], h₂ c hc⟩) x hx).1
    have := (h.placed (x := b) (by simp)).above
    simp only [sentinel, stop]
    omega
  obtain ⟨a', rest, hatt, ha'⟩ := attach_head a (attach [b] post)
  refine ⟨?_, ?_, ?_, ?_, h.pos⟩
  · rw [hs]
    exact h.tiling.free h₁ h₂
  · rw [hlist, hatt, List.map_append, List.map_cons, ha', List.append_assoc, List.cons_append,
      Linked.split]
    rw [hatt, List.map_cons, ha', List.cons_append] at hlink
    have hlinks := h.links
    rw [← List.cons_append, hG, List.append_assoc, List.map_append, List.singleton_append,
      List.map_cons, List.append_assoc, List.cons_append, Linked.split] at hlinks
    refine ⟨hlinks.1.congr ?_, hlink⟩
    intro x hx
    rw [List.dropLast_concat, List.mem_map] at hx
    obtain ⟨z, hz, rfl⟩ := hx
    exact (hkeep z (hmem (hGmem z (by simp [hz]))) (hGa z hz) (hGb z hz)).1
  · intro x hx
    rw [← List.cons_append, hlist] at hx
    rcases List.mem_append.mp hx with hx | hx
    · rcases List.mem_append.mp hx with hx | hx
      · have hx' := hmem (hGmem x (by simp [hx]))
        rw [(hkeep x hx' (hGa x hx) (hGb x hx)).2]
        exact h.sizes x hx'
      · exact hsizes x hx
    · have hne := h.used_ne (List.mem_cons_of_mem b hx) (hGmem a (by simp))
      have hx' : x ∈ sentinel base :: (pre ++ post ++ b :: U) := by simp [hx]
      rw [(hkeep x hx' hne (h.head_ne hx)).2]
      exact h.sizes x hx'
  · rw [hlist, hatt, hs]
    simp [ha']

/-- The block `b` is free again, as a part of some free block. -/
theorem free_spec (h : Sound base s F (b :: U)) {ap : Nat} (hap : ap = b.start + 8) :
    wp (free ap) (fun _ s' => ∃ F', Sound base s' F' U ∧
      (∃ f ∈ F', f.start ≤ b.start ∧ b.stop ≤ f.stop) ∧
      s' = { s with word := s'.word, freep := s'.freep }) (fun _ => False) s := by
  obtain ⟨pre, post, hF, h₁, h₂⟩ := exists_split h.tiling.clear
    fun a ha => h.tiling.used b List.mem_cons_self a ha
  subst hF
  obtain ⟨G, a, hG⟩ : ∃ G a, sentinel base :: pre = G ++ [a] :=
    ⟨_, _, (List.dropLast_append_getLast (List.cons_ne_nil _ pre)).symm⟩
  have hb := h.placed (x := b) (by simp)
  have hbp : (ap + 2 ^ 32 - HEADER) % 2 ^ 32 = b.start := by
    have := hb.bound
    simp only [stop] at this
    unfold HEADER
    omega
  have ha := h.below (fun a ha => ⟨by simp [ha], h₁ a ha⟩) a (by rw [hG]; simp)
  have hbehind := h.behind fun c hc => ⟨by simp [hc], h₂ c hc⟩
  have hamem : a ∈ sentinel base :: (pre ++ post ++ b :: U) := by
    rw [List.append_assoc, ← List.cons_append, hG]
    simp
  have hfar : Far a.start b.start := Or.inl ha.1
  have hlinks := h.links
  rw [← List.cons_append, hG, List.append_assoc, List.map_append, List.singleton_append,
    List.map_cons, List.append_assoc, List.cons_append, Linked.split] at hlinks
  obtain ⟨y, rest, hy⟩ := List.exists_cons_of_ne_nil (List.append_ne_nil_of_right_ne_nil
    (post.map start) (List.cons_ne_nil base []))
  obtain ⟨hnext, hrest⟩ : s.ptr a.start = y ∧ Linked s.ptr (y :: rest) := by
    have := hlinks.2
    rwa [hy, Linked.cons_cons] at this
  simp only [free, wp_bind, wp_get, hbp, search_spec h h₁ h₂ hG, hnext]
  refine wp_post (join_spec hy hrest ?_ ?_ ?_ ?_ _) ?_
  · intro x hx
    refine h.sizes x ?_
    rcases List.mem_cons.mp hx with rfl | hx
    · simp
    · simp [hx]
  · intro x hx
    have := h₂ x hx
    have := hb.header
    simp only [stop] at *
    omega
  · intro _
    have := hb.above
    simp only [stop]
    omega
  · intro x hx
    refine (h.placed (x := x) ?_).bound
    rcases List.mem_cons.mp hx with rfl | hx
    · simp
    · simp [hx]
  rintro _ s₁ ⟨hl₁, hs₁, hloc₁⟩
  obtain ⟨c, post', hatt, hc⟩ := attach_head b post
  have hy' : (attach [b] post).map start ++ [base] = b.start :: (post'.map start ++ [base]) := by
    rw [hatt, List.map_cons, hc]
    rfl
  refine wp_post (join_spec hy' (hy' ▸ hl₁) ?_ ?_ ?_ ?_ _) ?_
  · intro x hx
    rcases List.mem_cons.mp hx with rfl | hx
    · rw [(hloc₁.far _ hfar).2]
      exact h.sizes x hamem
    · exact hs₁ x hx
  · intro x hx
    have := (hbehind x hx).1
    omega
  · intro hnil
    rw [hatt] at hnil
    cases hnil
  · intro x hx
    rcases List.mem_cons.mp hx with rfl | hx
    · have := hb.bound
      simp only [stop] at *
      omega
    · exact (hbehind x hx).2
  rintro _ s₂ ⟨hl₂, hs₂, hloc₂⟩
  have hs₂eq : s₂ = { s with word := s₂.word } := by
    rw [hloc₂.same, hloc₁.same]
  simp only [setFreep, wp_modify]
  refine ⟨attach pre (attach [b] post), h.joined h₁ h₂ hG ?_ hl₂ hs₂ ?_, ?_, ?_⟩
  · rw [hs₂eq]
  · intro x hxa hxb
    exact ⟨(hloc₂.far x hxa).1.trans (hloc₁.far x hxb).1,
      (hloc₂.far x hxa).2.trans (hloc₁.far x hxb).2⟩
  · obtain ⟨x, hx, hbx⟩ := attach_contains (show b ∈ [b] ∨ b ∈ post by simp)
    obtain ⟨f, hf, hxf⟩ := attach_contains (show x ∈ pre ∨ x ∈ _ from .inr hx)
    exact ⟨f, hf, hxf.1.trans hbx.1, hbx.2.trans hxf.2⟩
  · rw [hs₂eq]

/-! ## Taking a block -/

/-- Only the words, `freep`, the memory and what `sbrk` gave matter. -/
theorem Sound.congr {s' : Heap} (h : Sound base s F U) (hw : s'.word = s.word)
    (hf : s'.freep ∈ (sentinel base :: F).map start) (ht : s'.top = s.top)
    (hr : s'.regions = s.regions) : Sound base s' F U := by
  have hptr : s'.ptr = s.ptr := funext fun x => congrFun hw x
  have hsize : s'.size = s.size := funext fun x => congrFun hw (x + 4)
  exact ⟨by rw [ht, hr]; exact h.tiling, by rw [hptr]; exact h.links,
    by rw [hsize]; exact h.sizes, hf, h.pos⟩

/-- A block that is large enough, and the one before it. -/
theorem Sound.pred (h : Sound base s F U) {q nunits : Nat}
    (hq : q ∈ (sentinel base :: F).map start) (hn : 1 ≤ nunits)
    (hfit : nunits ≤ s.size (s.ptr q)) :
    ∃ pre f post G a, F = pre ++ f :: post ∧ sentinel base :: pre = G ++ [a] ∧
      a.start = q ∧ f.start = s.ptr q := by
  obtain ⟨l₁, l₂, hsplit⟩ := List.append_of_mem hq
  have hlinks := h.links
  rw [hsplit, List.append_assoc, List.cons_append, Linked.split] at hlinks
  have hbase : s.size base = 0 := by
    have := h.sizes (sentinel base) (by simp)
    simp only [sentinel] at this
    omega
  cases l₂ with
  | nil =>
    rw [(Linked.cons_cons.mp hlinks.2).1, hbase] at hfit
    omega
  | cons y l₂ =>
    have hy := (Linked.cons_cons.mp hlinks.2).1
    obtain ⟨G, r, hG, -, hr⟩ := List.map_eq_append_iff.mp hsplit
    obtain ⟨a, r', rfl, rfl, hr'⟩ := List.map_eq_cons_iff.mp hr
    obtain ⟨f, post, rfl, rfl, -⟩ := List.map_eq_cons_iff.mp hr'
    cases G with
    | nil =>
      obtain ⟨rfl, rfl⟩ := List.cons.inj hG
      exact ⟨[], f, post, [], _, rfl, rfl, rfl, hy.symm⟩
    | cons z G =>
      obtain ⟨rfl, rfl⟩ := List.cons.inj hG
      exact ⟨G ++ [a], f, post, sentinel base :: G, a, by simp, rfl, rfl, hy.symm⟩

theorem Sound.unlink {f a : Span} {G : List Span} (h : Sound base s (pre ++ f :: post) U)
    (hG : sentinel base :: pre = G ++ [a]) :
    Sound base { s.put a.start (s.ptr f.start) with freep := a.start } (pre ++ post) (f :: U) := by
  have hall : ∀ l, sentinel base :: (pre ++ l) = G ++ a :: l := by
    intro l
    rw [← List.cons_append, hG]
    simp
  have hlinks := h.links
  rw [hall, List.map_append, List.map_cons, List.map_cons, List.append_assoc, List.cons_append,
    Linked.split, List.cons_append, Linked.cons_cons] at hlinks
  have hamem : a ∈ sentinel base :: (pre ++ f :: post ++ U) := by
    rw [List.append_assoc, ← List.cons_append, hG]
    simp
  have hnd : ∀ x, x ∈ G ∨ x ∈ post → x ≠ a := by
    rintro x hx rfl
    have hclear := h.clear
    rw [hall, List.pairwise_append, List.pairwise_cons] at hclear
    have hlt : Clear x x := by
      rcases hx with hx | hx
      · exact hclear.2.2 x hx x List.mem_cons_self
      · exact hclear.2.1.1 x (by simp [hx])
    simp only [Clear, stop] at hlt
    omega
  have hmem : ∀ x, x ∈ G ∨ x ∈ post → x ∈ sentinel base :: (pre ++ f :: post ++ U) := by
    intro x hx
    rw [List.append_assoc, ← List.cons_append, hG]
    rcases hx with hx | hx
    · simp [hx]
    · simp [hx]
  have hkeep : ∀ x, x ∈ G ∨ x ∈ post → (s.put a.start (s.ptr f.start)).ptr x.start =
      s.ptr x.start := fun x hx =>
    (put_far s (Or.inl rfl) (h.far (hmem x hx) hamem (hnd x hx))).1
  refine ⟨h.tiling.take, ?_, ?_, ?_, h.pos⟩
  · show Linked (s.put a.start (s.ptr f.start)).ptr _
    rw [hall, List.map_append, List.map_cons, List.append_assoc, List.cons_append, Linked.split]
    obtain ⟨y, rest, hy⟩ := List.exists_cons_of_ne_nil (List.append_ne_nil_of_right_ne_nil
      (post.map start) (List.cons_ne_nil base []))
    refine ⟨hlinks.1.congr ?_, ?_⟩
    · intro x hx
      rw [List.dropLast_concat, List.mem_map] at hx
      obtain ⟨z, hz, rfl⟩ := hx
      exact hkeep z (Or.inl hz)
    · have htail := hlinks.2.2
      rw [hy, Linked.cons_cons] at htail ⊢
      refine ⟨by rw [put_ptr_self, htail.1], ?_⟩
      rw [← hy] at htail ⊢
      refine htail.2.congr ?_
      intro x hx
      rw [List.dropLast_concat, List.mem_map] at hx
      obtain ⟨z, hz, rfl⟩ := hx
      exact hkeep z (Or.inr hz)
  · intro x hx
    show 8 * (s.put a.start (s.ptr f.start)).size x.start = x.size
    have hx' : x ∈ sentinel base :: (pre ++ f :: post ++ U) := by
      simp only [List.mem_cons, List.mem_append] at hx ⊢
      rcases hx with hx | (hx | hx) | hx | hx <;> simp [hx]
    rcases eq_or_ne x a with rfl | hne
    · rw [put_size s (by omega)]
      exact h.sizes x hx'
    · rw [(put_far s (Or.inl rfl) (h.far hx' hamem hne)).2]
      exact h.sizes x hx'
  · rw [hall]
    simp

/-- The end of the block is taken, and the block stays on the list. -/
theorem Sound.split {f : Span} {q n : Nat} (h : Sound base s (pre ++ f :: post) U)
    (hq : q ∈ (sentinel base :: (pre ++ f :: post)).map start) (hn : 1 ≤ n)
    (hlt : n < s.size f.start) :
    Sound base { (s.put (f.start + 4) (s.size f.start - n)).put (f.start + (f.size - 8 * n) + 4) n
        with freep := q } (pre ++ ⟨f.start, f.size - 8 * n⟩ :: post)
      (⟨f.start + (f.size - 8 * n), 8 * n⟩ :: U) := by
  have hfmem : f ∈ sentinel base :: (pre ++ f :: post ++ U) := by simp
  have hf := h.sizes f hfmem
  have hmap : (sentinel base :: (pre ++ ⟨f.start, f.size - 8 * n⟩ :: post)).map start =
      (sentinel base :: (pre ++ f :: post)).map start := by simp
  set p := f.start + (f.size - 8 * n) with hp
  set s₁ := s.put (f.start + 4) (s.size f.start - n) with hs₁
  -- the new header is inside the old block
  have hfar : ∀ x ∈ sentinel base :: (pre ++ f :: post ++ U), Far x.start p := by
    intro x hx
    have hfp := (h.placed (x := f) (by simp)).above
    rcases List.mem_cons.mp hx with rfl | hx
    · left
      simp only [sentinel]
      omega
    · rcases eq_or_ne x f with rfl | hne
      · left
        omega
      · have hap := h.tiling.pairwise.forall hx (by simp : f ∈ pre ++ f :: post ++ U) hne
        have := (h.placed hx).header
        simp only [Apart, stop] at hap
        unfold Far
        omega
  have hsize : ∀ x ∈ sentinel base :: (pre ++ f :: post ++ U), x ≠ f →
      (s₁.put (p + 4) n).size x.start = s.size x.start := fun x hx hne =>
    (put_far s₁ (Or.inr rfl) (hfar x hx)).2.trans (put_far s (Or.inr rfl) (h.far hx hfmem hne)).2
  have hptr : ∀ x ∈ sentinel base :: (pre ++ f :: post ++ U),
      (s₁.put (p + 4) n).ptr x.start = s.ptr x.start := by
    intro x hx
    rw [(put_far s₁ (Or.inr rfl) (hfar x hx)).1]
    rcases eq_or_ne x f with rfl | hne
    · exact put_ptr s (by omega)
    · exact (put_far s (Or.inr rfl) (h.far hx hfmem hne)).1
  refine ⟨h.tiling.cut (by omega) (by omega) (by omega), ?_, ?_, ?_, h.pos⟩
  · show Linked (s₁.put (p + 4) n).ptr _
    rw [hmap]
    refine h.links.congr ?_
    intro x hx
    rw [List.dropLast_concat, List.mem_map] at hx
    obtain ⟨z, hz, rfl⟩ := hx
    refine hptr z ?_
    rw [← List.cons_append]
    exact List.mem_append_left U hz
  · intro x hx
    show 8 * (s₁.put (p + 4) n).size x.start = x.size
    have hold : ∀ x ∈ sentinel base :: (pre ++ f :: post ++ U), x ≠ f →
        8 * (s₁.put (p + 4) n).size x.start = x.size := by
      intro x hx hne
      rw [hsize x hx hne]
      exact h.sizes x hx
    have hclear := List.pairwise_append.mp h.tiling.clear
    have hself : ¬ Clear f f := by
      simp only [Clear, stop]
      omega
    simp only [List.mem_cons, List.mem_append] at hx
    rcases hx with rfl | (hx | rfl | hx) | rfl | hx
    · refine hold _ (by simp) ?_
      intro he
      have := (h.placed (x := f) (by simp)).header
      rw [← he] at this
      simp [sentinel] at this
    · refine hold x (by simp [hx]) ?_
      rintro rfl
      exact hself (hclear.2.2 x hx x List.mem_cons_self)
    · show 8 * (s₁.put (p + 4) n).size f.start = f.size - 8 * n
      rw [(put_far s₁ (Or.inr rfl) (hfar f hfmem)).2, hs₁, put_size_self]
      omega
    · refine hold x (by simp [hx]) ?_
      rintro rfl
      exact hself ((List.pairwise_cons.mp hclear.2.1).1 x hx)
    · show 8 * (s₁.put (p + 4) n).size p = 8 * n
      rw [put_size_self]
    · exact hold x (by simp [hx]) (h.used_ne hx (by simp))
  · rw [hmap]
    exact hq

theorem carve_spec (h : Sound base s F U) {q nunits : Nat}
    (hq : q ∈ (sentinel base :: F).map start) (hn : 1 ≤ nunits)
    (hfit : nunits ≤ s.size (s.ptr q)) :
    wp (carve nunits q (s.ptr q)) (fun p s' => p ≠ 0 ∧
      (∃ F', Sound base s' F' (⟨p - 8, 8 * nunits⟩ :: U)) ∧
      s' = { s with word := s'.word, freep := s'.freep }) (fun _ => False) s := by
  obtain ⟨pre, f, post, G, a, rfl, hG, rfl, hf⟩ := h.pred hq hn hfit
  have hfp := h.placed (x := f) (by simp)
  have hbound := hfp.bound
  have hsize := h.sizes f (by simp)
  simp only [stop] at hbound
  rw [← hf] at hfit ⊢
  simp only [carve, wp_bind, wp_get, wp_ite]
  refine ⟨fun he => ?_, fun hne => ?_⟩
  · have hp : advance f.start 1 = f.start + 8 := by
      have := hfp.header
      rw [advance, HEADER, Nat.mod_eq_of_lt (by omega)]
    simp only [setPtr, setFreep, wp_modify, wp_pure, hp]
    refine ⟨by omega, ⟨pre ++ post, ?_⟩, rfl⟩
    have hfeq : f = ⟨f.start + 8 - 8, 8 * nunits⟩ := by
      cases f
      simp only [Span.mk.injEq] at *
      omega
    rw [← hfeq]
    exact h.unlink hG
  · have hlt : nunits < s.size f.start := lt_of_le_of_ne hfit (Ne.symm hne)
    have hp : advance f.start (s.size f.start - nunits) = f.start + (f.size - 8 * nunits) := by
      rw [advance, HEADER, Nat.mod_eq_of_lt (by omega)]
      omega
    have hp' : advance (f.start + (f.size - 8 * nunits)) 1 =
        f.start + (f.size - 8 * nunits) + 8 := by
      rw [advance, HEADER, Nat.mod_eq_of_lt (by omega)]
    simp only [setSize, setFreep, wp_modify, wp_pure, put_size_self, hp, hp']
    refine ⟨by omega, ⟨pre ++ ⟨f.start, f.size - 8 * nunits⟩ :: post, ?_⟩, rfl⟩
    rw [Nat.add_sub_cancel]
    exact h.split hq hn hlt

/-! ## More memory -/

/-- A new region above all the memory there was, with its header written. -/
theorem Sound.grow {s' : Heap} {a n : Nat} (h : Sound base s F U) (hn : n % 8 = 0) (h8 : 8 ≤ n)
    (ha : a % 8 = 0) (htop : s.top ≤ a) (hlt : a + n < 2 ^ 32) (hw : s'.word = s.word)
    (hfreep : s'.freep = s.freep) (hnew : s'.top = a + n) (hr : s'.regions = ⟨a, n⟩ :: s.regions) :
    Sound base (s'.put (a + 4) (n / 8)) F (⟨a, n⟩ :: U) := by
  have hput : s'.put (a + 4) (n / 8) = { s.put (a + 4) (n / 8) with
      top := a + n, regions := ⟨a, n⟩ :: s.regions, answers := s'.answers, calls := s'.calls } := by
    simp only [Heap.put, hw, hfreep, hnew, hr]
  have hfar : ∀ x ∈ sentinel base :: (F ++ U), Far x.start a := by
    intro x hx
    left
    rcases List.mem_cons.mp hx with rfl | hx
    · have := h.tiling.static
      simp only [sentinel]
      omega
    · obtain ⟨-, -, h3, -, h5, -⟩ := h.placed hx
      simp only [stop] at h5
      omega
  rw [hput]
  refine ⟨h.tiling.grow ha htop hn h8 hlt, ?_, ?_, h.freep, h.pos⟩
  · refine Linked.congr h.links ?_
    intro x hx
    rw [List.dropLast_concat, List.mem_map] at hx
    obtain ⟨z, hz, rfl⟩ := hx
    refine (put_far s (Or.inr rfl) (hfar z ?_)).1
    rw [← List.cons_append]
    exact List.mem_append_left U hz
  · intro x hx
    show 8 * (s.put (a + 4) (n / 8)).size x.start = x.size
    simp only [List.mem_cons, List.mem_append] at hx
    have hold : x ∈ sentinel base :: (F ++ U) →
        8 * (s.put (a + 4) (n / 8)).size x.start = x.size := by
      intro hx
      rw [(put_far s (Or.inr rfl) (hfar x hx)).2]
      exact h.sizes x hx
    rcases hx with hx | hx | rfl | hx
    · exact hold (by simp [hx])
    · exact hold (by simp [hx])
    · rw [put_size_self]
      exact Nat.mul_div_cancel' (Nat.dvd_of_mod_eq_zero hn)
    · exact hold (by simp [hx])

/-- What is used of a system: `sbrk` gives a region that can be accessed above all the
memory there was, or nothing.  `I` is what it keeps itself; the allocator changes only
words and `freep`. -/
structure Gives (base : Nat) (os : Os) (I : Heap → Prop) : Prop where
  sbrk : ∀ {s F U n}, I s → Sound base s F U → n % 8 = 0 → 8 ≤ n → n < 2 ^ 31 →
    wp (os.sbrk n) (fun r s' => I s' ∧ ((r = none ∧ Sound base s' F U) ∨
      ∃ a, r = some a ∧ a + n < 2 ^ 32 ∧ os.touch a s' = .ok ((), s') ∧
        Sound base (s'.put (a + 4) (n / 8)) F (⟨a, n⟩ :: U))) (fun _ => False) s
  words : ∀ {s s'}, I s → s' = { s with word := s'.word, freep := s'.freep } → I s'

theorem anyOs_gives (base : Nat) : Gives base anyOs fun _ => True where
  sbrk {s F U n} _ h hn h8 _ := by
    simp only [anyOs, sbrk, wp_bind, wp_get, wp_set]
    split
    · exact ⟨trivial, .inl ⟨rfl, h.congr rfl h.freep rfl rfl⟩⟩
    · next a _ =>
        split
        · next hfresh =>
            simp only [Heap.fresh, Bool.and_eq_true, beq_iff_eq, decide_eq_true_eq] at hfresh
            obtain ⟨⟨ha, htop⟩, hlt⟩ := hfresh
            exact ⟨trivial, .inr ⟨a, rfl, hlt, rfl, h.grow hn h8 ha htop hlt rfl rfl rfl rfl⟩⟩
        · exact ⟨trivial, .inl ⟨rfl, h.congr rfl h.freep rfl rfl⟩⟩
  words _ _ := trivial

theorem Sound.node_pos (h : Sound base s F U) {q : Nat}
    (hq : q ∈ (sentinel base :: F).map start) : q ≠ 0 := by
  obtain ⟨x, hx, rfl⟩ := List.mem_map.mp hq
  have hpos := h.pos
  rcases List.mem_cons.mp hx with rfl | hx
  · exact Nat.ne_of_gt hpos
  · have := (h.placed (List.mem_append_left U hx)).above
    omega

section Os

variable {os : Os} {I : Heap → Prop}

/-- The units that `morecore(nu)` asks for. -/
def asked (nu : Nat) : Nat := if nu < 4096 then 4096 else nu

theorem asked_bounds {nu : Nat} (hnu : nu < 2 ^ 28) :
    nu ≤ asked nu ∧ 4096 ≤ asked nu ∧ asked nu < 2 ^ 28 ∧
      asked nu * HEADER % 2 ^ 32 = 8 * asked nu := by
  unfold asked HEADER
  split <;> omega

theorem morecore_refused {nu : Nat} {s₁ : Heap}
    (hs : os.sbrk (asked nu * HEADER % 2 ^ 32) s = .ok (none, s₁)) :
    morecore os nu s = .ok (0, s₁) := by
  simp only [morecore, ← asked.eq_1]
  rw [bind_of_ok hs]
  rfl

theorem morecore_goes_on {nu a : Nat} {s₁ : Heap}
    (hs : os.sbrk (asked nu * HEADER % 2 ^ 32) s = .ok (some a, s₁)) :
    morecore os nu s = (do
      os.touch a
      setSize a (asked nu)
      free (advance a 1)
      return (← get).freep : HeapM Nat) s₁ := by
  simp only [morecore, ← asked.eq_1]
  rw [bind_of_ok hs]

theorem morecore_given {nu a : Nat} (hnu : nu < 2 ^ 28) {s₁ : Heap}
    (hs : os.sbrk (asked nu * HEADER % 2 ^ 32) s = .ok (some a, s₁)) (hlt : a + 8 < 2 ^ 32)
    (htouch : os.touch a s₁ = .ok ((), s₁))
    (h : Sound base (s₁.put (a + 4) (asked nu)) F (⟨a, 8 * asked nu⟩ :: U)) :
    wp (morecore os nu) (fun p s' => s' = { s₁ with word := s'.word, freep := s'.freep } ∧
      p = s'.freep ∧ p ≠ 0 ∧ ∃ F', Sound base s' F' U ∧ ∃ f ∈ F', 8 * nu ≤ f.size)
      (fun _ => False) s := by
  have hadv : advance a 1 = a + 8 := by
    rw [advance, HEADER, Nat.mod_eq_of_lt (by omega)]
  refine (wp_congr (morecore_goes_on hs)).mpr ?_
  rw [wp_bind]
  refine (wp_iff_of_ok htouch).mpr ?_
  refine wp_seq (R := fun _ s' => s' = s₁.put (a + 4) (asked nu)) rfl ?_
  rintro _ _ rfl
  refine wp_seq (free_spec h hadv) ?_
  rintro _ s₂ ⟨F', h₂, ⟨f, hf, hstart, hstop⟩, hs₂⟩
  refine ⟨hs₂, rfl, h₂.node_pos h₂.freep, F', h₂, f, hf, ?_⟩
  have := (asked_bounds hnu).1
  simp only [stop] at hstart hstop
  omega

theorem morecore_spec (hos : Gives base os I) (hI : I s) (h : Sound base s F U) {nu : Nat}
    (hnu : nu < 2 ^ 28) :
    wp (morecore os nu) (fun p s' => I s' ∧ ((p = 0 ∧ Sound base s' F U) ∨
      (p = s'.freep ∧ p ≠ 0 ∧ ∃ F', Sound base s' F' U ∧ ∃ f ∈ F', 8 * nu ≤ f.size)))
      (fun _ => False) s := by
  obtain ⟨-, h4096, h28, hmod⟩ := asked_bounds hnu
  obtain ⟨r, s₁, hs, hI₁, ⟨rfl, h₁⟩ | ⟨a, rfl, hlt, htouch, h₁⟩⟩ :=
    wp_total (hos.sbrk (n := 8 * asked nu) hI h (by omega) (by omega) (by omega))
  · exact (wp_iff_of_ok (morecore_refused (hmod.symm ▸ hs))).mpr ⟨hI₁, .inl ⟨rfl, h₁⟩⟩
  · rw [Nat.mul_div_cancel_left _ (by decide)] at h₁
    refine wp_post (morecore_given hnu (hmod.symm ▸ hs) (by omega) htouch h₁) ?_
    rintro p s' ⟨hs', hp⟩
    exact ⟨hos.words hI₁ hs', .inr hp⟩

/-! ## The loop of `malloc` -/

/-- From a block on, the loop takes the first one that is large enough, or
comes to `freep` and asks for more memory. -/
theorem mallocLoop_walk {Q : Nat → Heap → Prop} {E : Stop → Prop} {nunits : Nat}
    {N : List Nat} : ∀ {v : List Nat} {q n : Nat},
    Linked s.ptr (q :: v ++ [s.freep]) → s.freep ∉ v → q ∈ N → (∀ x ∈ v, x ∈ N) → v.length < n →
    (∀ q ∈ N, nunits ≤ s.size (s.ptr q) → wp (carve nunits q (s.ptr q)) Q E s) →
    ((∀ x ∈ v ++ [s.freep], s.size x < nunits) → wp (do
        let p ← morecore os nunits
        if p = 0 then return 0
        else
          let s ← get
          mallocLoop os nunits (n - v.length - 1) p (s.ptr p)) Q E s) →
    wp (mallocLoop os nunits n q (s.ptr q)) Q E s := by
  intro v
  induction v with
  | nil =>
    intro q n hl _ hq _ hn hfit hgrow
    obtain ⟨m, rfl⟩ := Nat.exists_eq_succ_of_ne_zero (Nat.ne_zero_of_lt hn)
    have hnext : s.ptr q = s.freep := (Linked.cons_cons.mp hl).1
    simp only [mallocLoop, wp_bind, wp_get, wp_ite]
    refine ⟨hfit q hq, fun hno => ⟨fun _ => ?_, fun hne => absurd hnext hne⟩⟩
    have := hgrow (by simpa [← hnext] using hno)
    simpa only [List.length_nil, Nat.sub_zero, Nat.succ_sub_one, wp_bind, wp_ite, wp_get] using this
  | cons x v ih =>
    intro q n hl hf hq hN hn hfit hgrow
    obtain ⟨m, rfl⟩ := Nat.exists_eq_succ_of_ne_zero (Nat.ne_zero_of_lt hn)
    obtain ⟨hnext, htail⟩ := Linked.cons_cons.mp hl
    have hx : x ∈ N := hN x List.mem_cons_self
    simp only [mallocLoop, wp_bind, wp_get, wp_ite]
    refine ⟨hfit q hq, fun hno => ⟨fun he => ?_, fun _ => ?_⟩⟩
    · rw [hnext] at he
      exact absurd (he ▸ List.mem_cons_self) hf
    · rw [hnext] at hno ⊢
      refine ih htail (fun hm => hf (List.mem_cons_of_mem x hm)) hx
        (fun y hy => hN y (List.mem_cons_of_mem x hy)) (Nat.lt_of_succ_lt_succ hn) hfit ?_
      intro hall
      have hlen : m.succ - (x :: v).length - 1 = m - v.length - 1 := by
        rw [List.length_cons]
        omega
      rw [hlen] at hgrow
      refine hgrow ?_
      intro y hy
      rcases List.mem_cons.mp hy with rfl | hy
      · omega
      · exact hall y hy

theorem Sound.path (h : Sound base s F U) : ∃ v, Linked s.ptr (s.freep :: v ++ [s.freep]) ∧
    s.freep ∉ v ∧ (∀ x, x ∈ v ++ [s.freep] ↔ x ∈ (sentinel base :: F).map start) ∧
    v.length ≤ 2 ^ 29 := by
  obtain ⟨l₁, l₂, hsplit⟩ := List.append_of_mem h.freep
  have hnd : ((sentinel base :: F).map start).Nodup := h.ascending.imp Nat.ne_of_lt
  refine ⟨l₂ ++ l₁, ?_, ?_, ?_, ?_⟩
  · have hlinks : Linked s.ptr (base :: F.map start ++ [base]) := h.links
    exact hlinks.rotate hsplit
  · rw [hsplit] at hnd
    simp only [List.nodup_append, List.nodup_cons] at hnd
    intro hmem
    rcases List.mem_append.mp hmem with hm | hm
    · exact hnd.2.1.1 hm
    · exact hnd.2.2 _ hm _ List.mem_cons_self rfl
  · intro x
    rw [hsplit]
    simp only [List.mem_append, List.mem_cons, List.not_mem_nil, or_false]
    tauto
  · have hlen := congrArg List.length hsplit
    have := h.tiling.length_le
    simp only [List.length_map, List.length_cons, List.length_append] at hlen ⊢
    omega

/-- With a block that is large enough on the list, the loop finds one. -/
theorem mallocLoop_found (h : Sound base s F U) {nunits n : Nat} (hn : 1 ≤ nunits)
    (hfit : ∃ f ∈ F, 8 * nunits ≤ f.size) (hfuel : 2 ^ 29 < n) :
    wp (mallocLoop os nunits n s.freep (s.ptr s.freep)) (fun p s' => p ≠ 0 ∧
      (∃ F', Sound base s' F' (⟨p - 8, 8 * nunits⟩ :: U)) ∧
      s' = { s with word := s'.word, freep := s'.freep }) (fun _ => False) s := by
  obtain ⟨v, hl, hnot, hmem, hlen⟩ := h.path
  refine mallocLoop_walk hl hnot h.freep (fun x hx => (hmem x).mp (by simp [hx])) (by omega)
    (fun q hq hfit => carve_spec h hq hn hfit) ?_
  intro hall
  obtain ⟨f, hf, hsize⟩ := hfit
  have hlt := hall f.start ((hmem _).mpr (by simp [List.mem_map_of_mem hf]))
  have := h.sizes f (by simp [hf])
  omega

theorem mallocLoop_spec (hos : Gives base os I) (hI : I s) (h : Sound base s F U) {nunits : Nat}
    (hn : 1 ≤ nunits) (hlt : nunits < 2 ^ 28) :
    wp (mallocLoop os nunits turns s.freep (s.ptr s.freep)) (fun p s' => I s' ∧
      ((p = 0 ∧ ∃ F', Sound base s' F' U) ∨
      (p ≠ 0 ∧ ∃ F', Sound base s' F' (⟨p - 8, 8 * nunits⟩ :: U)))) (fun _ => False) s := by
  obtain ⟨v, hl, hnot, hmem, hlen⟩ := h.path
  have hturns : turns = 2 ^ 31 := by rw [turns]
  refine mallocLoop_walk hl hnot h.freep (fun x hx => (hmem x).mp (by simp [hx])) (by omega)
    (fun q hq hfit => wp_post (carve_spec h hq hn hfit) ?_) ?_
  · rintro p s' ⟨hp, hF', hs'⟩
    exact ⟨hos.words hI hs', .inr ⟨hp, hF'⟩⟩
  · intro _
    refine wp_seq (morecore_spec hos hI h hlt) ?_
    rintro p s' ⟨hI', ⟨rfl, h'⟩ | ⟨rfl, hp, F', h', hfit⟩⟩
    · exact ⟨hI', .inl ⟨rfl, F, h'⟩⟩
    · rw [if_neg hp]
      simp only [wp_bind, wp_get]
      refine wp_post (mallocLoop_found h' hn hfit (by omega)) ?_
      rintro p s'' ⟨hp, hF'', hs''⟩
      exact ⟨hos.words hI' hs'', .inr ⟨hp, hF''⟩⟩

/-! ## Whole programs -/

theorem unitsFor_bounds {n : Nat} (hn : n ≤ 2 ^ 31 - 16) :
    1 ≤ unitsFor n ∧ unitsFor n < 2 ^ 28 ∧ n + 8 ≤ 8 * unitsFor n := by
  unfold unitsFor HEADER
  omega

/-- What a program that behaves keeps: `live` are its pointers. -/
structure Kept (base : Nat) (s : Heap) (live : List (Nat × Nat)) : Prop where
  small : ∀ a ∈ live, a.2 ≤ 2 ^ 31 - 16
  heap : (s.freep = 0 ∧ s.regions = [] ∧ live = [] ∧ 0 < base ∧ base + 8 ≤ s.top) ∨
    ∃ F, Sound base s F (live.map blockOf)

theorem start_spec (h0 : s.regions = []) (hpos : 0 < base) (htop : base + 8 ≤ s.top) :
    Sound base { (s.put base base).put (base + 4) 0 with freep := base } [] [] := by
  refine ⟨⟨by simp, .nil, .nil, by simp, ?_, ?_, ?_, ?_, htop⟩, ?_, ?_, by simp [sentinel], hpos⟩
  · show _ = total s.regions
    rw [h0]
    rfl
  · intro x
    show _ ↔ Covers s.regions x
    rw [h0]
    simp
  · show total s.regions ≤ s.top
    rw [h0]
    simp
  · show total s.regions ≤ _
    rw [h0]
    simp
  · show Linked ((s.put base base).put (base + 4) 0).ptr [base, base]
    rw [Linked.cons_cons, put_ptr _ (by omega), put_ptr_self]
    exact ⟨rfl, .singleton⟩
  · intro x hx
    obtain rfl : x = sentinel base := by simpa using hx
    show 8 * ((s.put base base).put (base + 4) 0).size base = 0
    rw [put_size_self]

theorem malloc_spec (hos : Gives base os I) (hI : I s) {live : List (Nat × Nat)}
    (h : Kept base s live) {n : Nat} (hn : n ≤ 2 ^ 31 - 16) :
    wp (mallocBy base os n) (fun p s' => I s' ∧ ((p = 0 ∧ Kept base s' live) ∨
      (p ≠ 0 ∧ Kept base s' ((p, n) :: live)))) (fun _ => False) s := by
  obtain ⟨h1, h2, -⟩ := unitsFor_bounds hn
  have hloop : ∀ {s' : Heap} {F : List Span}, I s' → Sound base s' F (live.map blockOf) →
      wp (mallocLoop os (unitsFor n) turns s'.freep (s'.ptr s'.freep)) (fun p s' => I s' ∧
        ((p = 0 ∧ Kept base s' live) ∨ (p ≠ 0 ∧ Kept base s' ((p, n) :: live))))
        (fun _ => False) s' := by
    intro s' F hI' h'
    refine wp_post (mallocLoop_spec hos hI' h' h1 h2) ?_
    rintro p t ⟨hI'', ⟨rfl, F', hF'⟩ | ⟨hp, F', hF'⟩⟩
    · exact ⟨hI'', .inl ⟨rfl, h.small, .inr ⟨F', hF'⟩⟩⟩
    · refine ⟨hI'', .inr ⟨hp, ?_, .inr ⟨F', hF'⟩⟩⟩
      intro a ha
      rcases List.mem_cons.mp ha with rfl | ha
      · exact hn
      · exact h.small a ha
  simp only [mallocBy, wp_bind, wp_get, wp_ite]
  rcases h.heap with ⟨h0, hr, rfl, hpos, htop⟩ | ⟨F, hF⟩
  · refine ⟨fun _ => ?_, fun hne => absurd h0 hne⟩
    simp only [setPtr, setFreep, setSize, wp_modify]
    exact hloop (hos.words hI rfl) (start_spec hr hpos htop)
  · exact ⟨fun h0 => absurd h0 (hF.node_pos hF.freep), fun _ => hloop hI hF⟩

end Os

theorem Kept.pointer {live : List (Nat × Nat)} (h : Kept base s live) {a : Nat × Nat}
    (ha : a ∈ live) : ∃ F, Sound base s F (live.map blockOf) ∧ a.1 = (blockOf a).start + 8 ∧
      a.1 % 8 = 0 ∧ a.1 + a.2 ≤ (blockOf a).stop := by
  rcases h.heap with ⟨-, -, rfl, -, -⟩ | ⟨F, hF⟩
  · cases ha
  · have hp := hF.placed (List.mem_append_right F (List.mem_map_of_mem ha))
    have hb := unitsFor_bounds (h.small a ha)
    have habove := hp.above
    have haligned := hp.aligned
    simp only [blockOf, HEADER, stop] at habove haligned ⊢
    exact ⟨F, hF, by omega, by omega, by omega⟩

theorem kept_free {live : List (Nat × Nat)} (h : Kept base s live) {a : Nat × Nat} (ha : a ∈ live) :
    wp (free a.1) (fun _ s' => Kept base s' (live.erase a) ∧ s'.top = s.top) (fun _ => False) s := by
  obtain ⟨F, hF, hptr, -⟩ := h.pointer ha
  have hperm : (live.map blockOf).Perm (blockOf a :: (live.erase a).map blockOf) :=
    (List.perm_cons_erase ha).map blockOf
  have hF' : Sound base s F (blockOf a :: (live.erase a).map blockOf) :=
    ⟨hF.tiling.perm hperm, hF.links, fun b hb => hF.sizes b (by
      simp only [List.mem_cons (b := sentinel base), List.mem_append, hperm.mem_iff]
      simpa using hb), hF.freep, hF.pos⟩
  refine wp_post (free_spec hF' hptr) ?_
  rintro _ s' ⟨F', h', -, hs'⟩
  exact ⟨⟨fun b hb => h.small b (List.mem_of_mem_erase hb), Or.inr ⟨F', h'⟩⟩, by rw [hs']⟩

theorem kept_write {live : List (Nat × Nat)} (h : Kept base s live) {a : Nat × Nat}
    (ha : a ∈ live) {x v : Nat} (h1 : a.1 ≤ x) (h2 : x < a.1 + a.2) : Kept base (s.put x v) live := by
  obtain ⟨F, hF, hptr, -, hstop⟩ := h.pointer ha
  -- `x` is in no header
  have hout : ∀ b ∈ sentinel base :: (F ++ live.map blockOf), b.start ≠ x ∧ b.start + 4 ≠ x := by
    intro b hb
    have hmem : blockOf a ∈ F ++ live.map blockOf :=
      List.mem_append_right F (List.mem_map_of_mem ha)
    rcases eq_or_ne b (blockOf a) with rfl | hne
    · omega
    · rcases List.mem_cons.mp hb with rfl | hb
      · have := (hF.placed hmem).above
        simp only [sentinel]
        omega
      · have hap := hF.tiling.pairwise.forall hb hmem hne
        have := (hF.placed hb).header
        simp only [Apart, stop] at hap hstop
        omega
  refine ⟨h.small, Or.inr ⟨F, hF.tiling, ?_, ?_, hF.freep, hF.pos⟩⟩
  · refine hF.links.congr ?_
    intro y hy
    rw [List.dropLast_concat, List.mem_map] at hy
    obtain ⟨b, hb, rfl⟩ := hy
    refine put_ptr s (hout b ?_).1
    rw [← List.cons_append]
    exact List.mem_append_left _ hb
  · intro b hb
    rw [put_size s (hout b hb).2]
    exact hF.sizes b hb

theorem Reachable.kept {live : List (Nat × Nat)} (h : Reachable base s live) :
    Kept base s live := by
  induction h with
  | boot word top answers hpos htop => exact ⟨by simp, Or.inl ⟨rfl, rfl, rfl, hpos, htop⟩⟩
  | malloc _ hn hm ih =>
    obtain ⟨-, ⟨rfl, hk⟩ | ⟨hp, hk⟩⟩ :=
      wp_of_ok (malloc_spec (anyOs_gives base) trivial ih (by omega)) hm
    · rwa [if_pos rfl]
    · rwa [if_neg hp]
  | free _ ha hf ih =>
    obtain ⟨hk, -⟩ := wp_of_ok (kept_free ih ha) hf
    exact hk
  | write _ ha _ h1 h2 ih => exact kept_write ih ha h1 h2

/-- Every program that frees only what it has allocated keeps a sound heap; `malloc` and
`free` return, and what `malloc` returns is null or an aligned pointer to at least `n` bytes
that no block in use has. -/
theorem heap_sound {live : List (Nat × Nat)} (h : Reachable base s live) :
    ((s.freep = 0 ∧ s.regions = [] ∧ live = []) ∨ ∃ F, Sound base s F (live.map blockOf)) ∧
    (∀ a ∈ live, a.1 = (blockOf a).start + 8 ∧ a.1 % 8 = 0 ∧ a.1 + a.2 ≤ (blockOf a).stop) ∧
    (∀ n < 2 ^ 30, ∃ p s', malloc base n s = .ok (p, s') ∧ (p = 0 ∨
      p % 8 = 0 ∧ p = (blockOf (p, n)).start + 8 ∧ p + n ≤ (blockOf (p, n)).stop ∧
        ∀ a ∈ live, Apart (blockOf (p, n)) (blockOf a))) ∧
    ∀ a ∈ live, ∃ s', free a.1 s = .ok ((), s') := by
  have hk := h.kept
  refine ⟨?_, ?_, ?_, ?_⟩
  · exact hk.heap.imp_left fun h0 => ⟨h0.1, h0.2.1, h0.2.2.1⟩
  · intro a ha
    obtain ⟨-, -, h'⟩ := hk.pointer ha
    exact h'
  · intro n hn
    obtain ⟨p, s', hm, -, ⟨rfl, -⟩ | ⟨-, hk'⟩⟩ :=
      wp_total (malloc_spec (anyOs_gives base) trivial hk (n := n) (by omega))
    · exact ⟨0, s', hm, Or.inl rfl⟩
    · obtain ⟨F, hF, h1, h2, h3⟩ := hk'.pointer (a := (p, n)) List.mem_cons_self
      refine ⟨p, s', hm, Or.inr ⟨h2, h1, h3, ?_⟩⟩
      intro a ha
      exact (List.pairwise_cons.mp hF.tiling.apart).1 _ (List.mem_map_of_mem ha)
  · intro a ha
    obtain ⟨⟨⟩, s', hf, -⟩ := wp_total (kept_free hk ha)
    exact ⟨s', hf⟩

/-- A process with 8192 bytes that has allocated nothing yet. -/
def blank : Heap := ⟨fun _ => 0, 0, 8192, [], fun _ => some 8192, 0⟩

/-- Its first 10 bytes are at the end of the first region, and can be freed. -/
theorem first_block_sound : ∃ s, Reachable 4096 s [(40944, 10)] ∧
    (∃ F, Sound 4096 s F [⟨40936, 24⟩]) ∧ ∃ s', free 40944 s = .ok ((), s') := by
  have hboot : Reachable 4096 blank [] := .boot _ _ _ (by decide) (by decide)
  have hval : (malloc 4096 10 blank).toOption.map Prod.fst = some 40944 := by decide +kernel
  obtain ⟨p, s, hm, -⟩ := (heap_sound hboot).2.2.1 10 (by decide)
  rw [hm] at hval
  have hp : p = 40944 := Option.some.inj hval
  subst hp
  have hreach : Reachable 4096 s [(40944, 10)] := .malloc hboot (by decide) hm
  obtain ⟨hsound, -, -, hfree⟩ := heap_sound hreach
  have hlast := hfree (40944, 10) List.mem_cons_self
  dsimp only at hlast
  refine ⟨s, hreach, ?_, hlast⟩
  exact hsound.resolve_left fun h0 => by simp at h0

end

end Xv6Pdx.Umalloc
