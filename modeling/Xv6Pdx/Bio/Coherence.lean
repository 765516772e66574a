/-
# `Bio.Coherence` — the buffer cache in every interleaving

What holds of the cache at any time: the links are one ring through all the
buffers, a block is in one buffer at most, a busy buffer has one holder, and
what a holder finds in a buffer is what was last stored for its block.

The last rests on two facts about every block of a real device.  A valid buffer
has the data last stored (`fresh`); and where the disk has something else, a
buffer that is dirty or unsaved has the block (`clean`), which `bget` does not
give away.
-/
import Xv6Pdx.Bio.Model

namespace Xv6Pdx.Bio

open Lib Links State
open Function (update_self update_of_ne update_eq_self)

variable {ι : Type} [DecidableEq ι]

/-- A device other than the one `binit` gives to every buffer. -/
def Real (dev : Nat) : Prop := dev ≠ noDev

/-- Where a process is, as far as it has to do with a buffer it holds. -/
def Stage.calm : Stage → Stage
  | .wanting .. => .ready
  | .sleeping .. => .ready
  | st => st

/-- The process is in the middle of something with `b`. -/
def Stage.With (st : Stage) (b : BufPtr) : Prop := st = .got b ∨ st = .disk b ∨ st = .logging b

/-- The links form one ring through all buffers. -/
def Cache.Linked (c : Cache) : Prop :=
  ∃ l : List BufPtr, l.Nodup ∧ (∀ b, b ∈ l) ∧ c.links.Ring none (l.map some)

structure Inv (s : State ι) : Prop where
  linked : s.cache.Linked
  unique : ∀ b b', Real (s.buf b).dev → (s.buf b).dev = (s.buf b').dev →
    (s.buf b).blockno = (s.buf b').blockno → b = b'
  owned : ∀ b, (s.buf b).busy = true ↔ ∃ p, (s.hold p b).isSome
  one : ∀ p q b, (s.hold p b).isSome → (s.hold q b).isSome → p = q
  asked : ∀ p b d k, s.hold p b = some (d, k) → (s.buf b).dev = d ∧ (s.buf b).blockno = k
  engaged : ∀ p b, (s.stage p).calm.With b → (s.hold p b).isSome
  loaded : ∀ p b, (s.hold p b).isSome → (s.stage p).calm ≠ .got b →
    (s.stage p).calm ≠ .disk b → (s.buf b).valid = true
  pending : ∀ p b, (s.stage p).calm = .disk b → (s.buf b).dirty = true ∨ (s.buf b).valid = false
  marked : ∀ b, (s.buf b).dirty = true ∨ s.unsaved b = true → (s.buf b).valid = true
  guarded : ∀ b, s.unsaved b = true → (s.buf b).busy = true
  fresh : ∀ b, (s.buf b).valid = true → Real (s.buf b).dev →
    (s.buf b).data = s.stored (s.buf b).dev (s.buf b).blockno
  clean : ∀ d k, Real d → s.disk d k = s.stored d k ∨
    ∃ b, (s.buf b).dev = d ∧ (s.buf b).blockno = k ∧
      ((s.buf b).dirty = true ∨ s.unsaved b = true)

/-! ## The loops of `bget` -/

section Walk

variable {c : Cache}

theorem walk_ring {dir : Node → Node} {l : List BufPtr} {p : BufPtr → Bool}
    (h : ∀ q : Node → Bool, seek dir none q (NBUF + 1) (dir none) = some ((l.map some).find? q)) :
    Cache.walk dir p = .ok (l.find? p) := by
  rw [Cache.walk, h]
  have hfind : (l.map some).find? (fun n => n.any p) = (l.find? p).map some := by
    rw [List.find?_map]
    rfl
  simp only [hfind]
  cases l.find? p <;> rfl

theorem Cache.Linked.length_lt {l : List BufPtr} (h : l.Nodup) :
    (l.map some).length < NBUF + 1 := by
  have := List.Nodup.length_le_card h
  simp only [Fintype.card_fin] at this
  simp only [List.length_map]
  omega

/-- The first loop comes to an end, with the buffer of the block if there is one. -/
theorem lookup_spec (h : c.Linked) (dev blockno : Nat) : ∃ r, c.lookup dev blockno = .ok r ∧
      (∀ b, r = some b → (c.buf b).dev = dev ∧ (c.buf b).blockno = blockno) ∧
      (r = none → ∀ b, ¬ ((c.buf b).dev = dev ∧ (c.buf b).blockno = blockno)) := by
  obtain ⟨l, hnd, hall, hring⟩ := h
  refine ⟨_, walk_ring fun q => hring.seek_next (Cache.Linked.length_lt hnd), ?_, ?_⟩
  · intro b hb
    simpa using List.find?_some hb
  · intro hnone b
    simpa using List.find?_eq_none.mp hnone b (hall b)

/-- The second loop comes to an end, with a buffer that is neither busy nor dirty. -/
theorem victim_spec (h : c.Linked) : ∃ r, c.victim = .ok r ∧
      ∀ b, r = some b → (c.buf b).busy = false ∧ (c.buf b).dirty = false := by
  obtain ⟨l, hnd, hall, hring⟩ := h
  have hseek : ∀ q : Node → Bool, seek c.links.prev none q (NBUF + 1) (c.links.prev none) =
      some ((l.reverse.map some).find? q) := by
    intro q
    rw [List.map_reverse]
    exact hring.seek_prev (Cache.Linked.length_lt hnd)
  refine ⟨_, walk_ring hseek, fun b hb => ?_⟩
  simpa using List.find?_some hb

/-- How a buffer looks when `bget` has found it: it has the block already, or it
had another one and nothing in it that is not on the disk. -/
structure Given (c : Cache) (dev blockno : Nat) (b : BufPtr) (v : Buf) : Prop where
  idle : (c.buf b).busy = false
  busy : v.busy = true
  sameDev : v.dev = dev
  sameBlock : v.blockno = blockno
  kept : v = { c.buf b with busy := true } ∨
    (c.buf b).dirty = false ∧ v.valid = false ∧ v.dirty = false ∧
      ∀ b', ¬ ((c.buf b').dev = dev ∧ (c.buf b').blockno = blockno)

theorem bget_spec (h : c.Linked) (dev blockno : Nat) :
    c.bget dev blockno = .error (.panic "bget: no buffers") ∨
    (∃ b, c.bget dev blockno = .ok (.sleep b, c)) ∨
    ∃ b v, c.bget dev blockno = .ok (.got b, c.setBuf b v) ∧ Given c dev blockno b v := by
  obtain ⟨r, hr, hsome, hnone⟩ := lookup_spec h dev blockno
  simp only [Cache.bget, hr]
  cases r with
  | some b =>
    obtain ⟨hd, hk⟩ := hsome b rfl
    cases hbusy : (c.buf b).busy with
    | true => exact Or.inr (Or.inl ⟨b, by simp [Bind.bind, Except.bind, hbusy, pure, Except.pure]⟩)
    | false =>
      refine Or.inr (Or.inr ⟨b, { c.buf b with busy := true }, ?_, hbusy, rfl, hd, hk, Or.inl rfl⟩)
      simp [Bind.bind, Except.bind, hbusy, pure, Except.pure]
  | none =>
    obtain ⟨r', hr', hvictim⟩ := victim_spec h
    cases r' with
    | none =>
      refine Or.inl ?_
      simp [Bind.bind, Except.bind, hr', throw, throwThe, MonadExceptOf.throw]
    | some b =>
      obtain ⟨hbusy, hdirty⟩ := hvictim b rfl
      refine Or.inr (Or.inr ⟨b, { c.buf b with
        dev := dev, blockno := blockno, busy := true, valid := false, dirty := false },
        ?_, hbusy, rfl, rfl, rfl, Or.inr ⟨hdirty, rfl, rfl, hnone rfl⟩⟩)
      simp [Bind.bind, Except.bind, hr', pure, Except.pure]

end Walk

/-! ## Steps -/

omit [DecidableEq ι] in
theorem calm_wakeup (s : State ι) (b : BufPtr) (q : ι) :
    ((s.wakeup b).stage q).calm = (s.stage q).calm := by
  simp only [State.wakeup]
  cases s.stage q with
  | sleeping b' dev blockno =>
    simp only
    split <;> rfl
  | _ => rfl

namespace Inv

variable {s s' : State ι}

omit [DecidableEq ι] in
theorem no_holder {b : BufPtr} (h : Inv s) (hb : (s.buf b).busy = false) (p : ι) :
    s.hold p b = none := by
  rw [← Option.not_isSome_iff_eq_none]
  intro hp
  rw [(h.owned b).mpr ⟨p, hp⟩] at hb
  cases hb

omit [DecidableEq ι] in
theorem not_unsaved {b : BufPtr} (h : Inv s) (hb : (s.buf b).busy = false) :
    s.unsaved b = false := by
  rw [← Bool.not_eq_true]
  intro hu
  rw [h.guarded b hu] at hb
  cases hb

omit [DecidableEq ι] in
/-- Nothing has changed but what processes without a buffer do. -/
theorem calm (h : Inv s) (hcache : s'.cache = s.cache) (hdisk : s'.disk = s.disk)
    (hstage : ∀ p, (s'.stage p).calm = (s.stage p).calm) (hhold : s'.hold = s.hold)
    (hunsaved : s'.unsaved = s.unsaved) (hstored : s'.stored = s.stored) : Inv s' := by
  have hbuf : s'.buf = s.buf := by
    funext b
    simp only [State.buf, hcache]
  constructor <;> simp only [hcache, hbuf, hdisk, hstage, hhold, hunsaved, hstored]
  exacts [h.linked, h.unique, h.owned, h.one, h.asked, h.engaged, h.loaded, h.pending, h.marked,
    h.guarded, h.fresh, h.clean]

/-- What a step by the holder `p` of `b` changes: flags and data of `b`, whether
it is unsaved, where `p` is, and what is on the disk or stored for the block. -/
structure Local (s s' : State ι) (p : ι) (b : BufPtr) : Prop where
  links : s'.cache.links = s.cache.links
  others : ∀ b', b' ≠ b → s'.buf b' = s.buf b' ∧ s'.unsaved b' = s.unsaved b'
  busy : (s'.buf b).busy = (s.buf b).busy
  dev : (s'.buf b).dev = (s.buf b).dev
  blockno : (s'.buf b).blockno = (s.buf b).blockno
  hold : s'.hold = s.hold
  stage : ∀ q, q ≠ p → (s'.stage q).calm = (s.stage q).calm
  before : ∀ b', (s.stage p).calm.With b' → b' = b
  after : ∀ b', (s'.stage p).calm.With b' → b' = b
  elsewhere : ∀ d k, ¬ (d = (s.buf b).dev ∧ k = (s.buf b).blockno) →
    s'.disk d k = s.disk d k ∧ s'.stored d k = s.stored d k

/-- What has to hold of `b` after the step. -/
structure Good (s : State ι) (p : ι) (b : BufPtr) : Prop where
  loaded : (s.stage p).calm ≠ .got b → (s.stage p).calm ≠ .disk b → (s.buf b).valid = true
  pending : (s.stage p).calm = .disk b → (s.buf b).dirty = true ∨ (s.buf b).valid = false
  marked : (s.buf b).dirty = true ∨ s.unsaved b = true → (s.buf b).valid = true
  fresh : (s.buf b).valid = true → Real (s.buf b).dev →
    (s.buf b).data = s.stored (s.buf b).dev (s.buf b).blockno
  clean : Real (s.buf b).dev →
    s.disk (s.buf b).dev (s.buf b).blockno = s.stored (s.buf b).dev (s.buf b).blockno ∨
      (s.buf b).dirty = true ∨ s.unsaved b = true

theorem update {p : ι} {b : BufPtr} (h : Inv s) (hp : (s.hold p b).isSome) (hl : Local s s' p b)
    (hg : Good s' p b) : Inv s' := by
  have hdev : ∀ b', (s'.buf b').dev = (s.buf b').dev := by
    intro b'
    by_cases hb : b' = b
    · rw [hb, hl.dev]
    · rw [(hl.others b' hb).1]
  have hblockno : ∀ b', (s'.buf b').blockno = (s.buf b').blockno := by
    intro b'
    by_cases hb : b' = b
    · rw [hb, hl.blockno]
    · rw [(hl.others b' hb).1]
  have hbusy : ∀ b', (s'.buf b').busy = (s.buf b').busy := by
    intro b'
    by_cases hb : b' = b
    · rw [hb, hl.busy]
    · rw [(hl.others b' hb).1]
  -- another process has nothing to do with `b`
  have hother : ∀ q, q ≠ p → ¬ (s'.stage q).calm.With b := by
    intro q hq hw
    rw [hl.stage q hq] at hw
    exact hq (h.one q p b (h.engaged q b hw) hp)
  constructor
  case linked =>
    obtain ⟨l, hnd, hall, hring⟩ := h.linked
    exact ⟨l, hnd, hall, hl.links ▸ hring⟩
  case unique =>
    simp only [hdev, hblockno]
    exact h.unique
  case owned =>
    simp only [hbusy, hl.hold]
    exact h.owned
  case one =>
    rw [hl.hold]
    exact h.one
  case asked =>
    simp only [hdev, hblockno, hl.hold]
    exact h.asked
  case engaged =>
    intro q b' hw
    rw [hl.hold]
    by_cases hq : q = p
    · subst hq
      rw [hl.after b' hw]
      exact hp
    · rw [hl.stage q hq] at hw
      exact h.engaged q b' hw
  case loaded =>
    intro q b' hq hgot hdisk
    rw [hl.hold] at hq
    by_cases hb : b' = b
    · subst hb
      obtain rfl := h.one q p b' hq hp
      exact hg.loaded hgot hdisk
    · rw [(hl.others b' hb).1]
      by_cases hqp : q = p
      · subst hqp
        exact h.loaded q b' hq (fun hst => hb (hl.before b' (Or.inl hst)))
          fun hst => hb (hl.before b' (Or.inr (Or.inl hst)))
      · rw [hl.stage q hqp] at hgot hdisk
        exact h.loaded q b' hq hgot hdisk
  case pending =>
    intro q b' hst
    by_cases hqp : q = p
    · subst hqp
      obtain rfl := hl.after b' (Or.inr (Or.inl hst))
      exact hg.pending hst
    · have hb : b' ≠ b := by
        rintro rfl
        exact hother q hqp (Or.inr (Or.inl hst))
      rw [hl.stage q hqp] at hst
      rw [(hl.others b' hb).1]
      exact h.pending q b' hst
  case marked =>
    intro b'
    by_cases hb : b' = b
    · rw [hb]
      exact hg.marked
    · rw [(hl.others b' hb).1, (hl.others b' hb).2]
      exact h.marked b'
  case guarded =>
    intro b' hu
    rw [hbusy]
    by_cases hb : b' = b
    · rw [hb]
      exact (h.owned b).mpr ⟨p, hp⟩
    · rw [(hl.others b' hb).2] at hu
      exact h.guarded b' hu
  case fresh =>
    intro b' hv hr
    by_cases hb : b' = b
    · rw [hb] at hv hr ⊢
      exact hg.fresh hv hr
    · have hne : ¬ ((s.buf b').dev = (s.buf b).dev ∧ (s.buf b').blockno = (s.buf b).blockno) := by
        rintro ⟨hd, hk⟩
        exact hb (h.unique b' b (hdev b' ▸ hr) hd hk)
      rw [(hl.others b' hb).1] at hv hr ⊢
      rw [(hl.elsewhere _ _ hne).2]
      exact h.fresh b' hv hr
  case clean =>
    intro d k hr
    by_cases heq : d = (s.buf b).dev ∧ k = (s.buf b).blockno
    · obtain ⟨rfl, rfl⟩ := heq
      rw [← hl.dev] at hr
      have hclean := hg.clean hr
      rw [hl.dev, hl.blockno] at hclean
      exact hclean.imp_right fun hm => ⟨b, hl.dev, hl.blockno, hm⟩
    · rw [(hl.elsewhere d k heq).1, (hl.elsewhere d k heq).2]
      refine (h.clean d k hr).imp_right ?_
      rintro ⟨b', hd, hk, hm⟩
      have hb : b' ≠ b := by
        rintro rfl
        exact heq ⟨hd.symm, hk.symm⟩
      rw [← (hl.others b' hb).1, ← (hl.others b' hb).2] at hm
      exact ⟨b', (hdev b').trans hd, (hblockno b').trans hk, hm⟩

theorem give {p : ι} {b : BufPtr} {dev blockno : Nat} {v : Buf} (h : Inv s)
    (hst : (s.stage p).calm = .ready) (hv : Given s.cache dev blockno b v)
    (hs : s' = ({ s with cache := s.cache.setBuf b v }.setHold p b (some (dev, blockno))).setStage p
      (.got b)) : Inv s' := by
  have hidle : (s.buf b).busy = false := hv.idle
  have hnone : ∀ q, s.hold q b = none := h.no_holder hidle
  have hsaved : s.unsaved b = false := h.not_unsaved hidle
  have hb : s'.buf b = v := by simp [hs, State.buf]
  have hb' : ∀ b', b' ≠ b → s'.buf b' = s.buf b' := by
    intro b' hne
    simp [hs, State.buf, update_of_ne hne]
  have hp : s'.hold p b = some (dev, blockno) := by simp [hs]
  have hp' : ∀ q b', b' ≠ b → s'.hold q b' = s.hold q b' := by
    intro q b' hne
    by_cases hq : q = p <;> simp [hs, hq, update_of_ne hne]
  have hq' : ∀ q, q ≠ p → s'.hold q b = none := by
    intro q hne
    simp [hs, update_of_ne hne, hnone]
  have hstp : s'.stage p = .got b := by simp [hs]
  have hstq : ∀ q, q ≠ p → s'.stage q = s.stage q := by
    intro q hne
    simp [hs, update_of_ne hne]
  have hdisk : s'.disk = s.disk := hs ▸ rfl
  have hstored : s'.stored = s.stored := hs ▸ rfl
  have hunsaved : s'.unsaved = s.unsaved := hs ▸ rfl
  have hlinks : s'.cache.links = s.cache.links := hs ▸ rfl
  obtain ⟨-, hbusy, hdev, hblockno, hkept⟩ := hv
  have hkept' : v = { s.buf b with busy := true } ∨ (s.buf b).dirty = false ∧ v.valid = false ∧
      v.dirty = false ∧ ∀ b', ¬ ((s.buf b').dev = dev ∧ (s.buf b').blockno = blockno) := hkept
  clear hs hkept
  constructor
  case linked =>
    obtain ⟨l, hnd, hall, hring⟩ := h.linked
    exact ⟨l, hnd, hall, hlinks ▸ hring⟩
  case unique =>
    have := h.unique
    grind
  case owned =>
    have := h.owned
    grind
  case one =>
    intro q q' b' hq hq''
    by_cases hbb : b' = b
    · subst hbb
      have hqp : q = p := by
        by_contra hne
        rw [hq' q hne] at hq
        cases hq
      have hqp' : q' = p := by
        by_contra hne
        rw [hq' q' hne] at hq''
        cases hq''
      rw [hqp, hqp']
    · rw [hp' _ _ hbb] at hq hq''
      exact h.one q q' b' hq hq''
  case asked =>
    intro q b' d k hq
    by_cases hbb : b' = b
    · subst hbb
      by_cases hqp : q = p
      · rw [hqp, hp] at hq
        cases hq
        rw [hb]
        exact ⟨hdev, hblockno⟩
      · rw [hq' q hqp] at hq
        cases hq
    · rw [hp' q b' hbb] at hq
      rw [hb' b' hbb]
      exact h.asked q b' d k hq
  case engaged =>
    intro q b' hw
    by_cases hq : q = p
    · subst hq
      rw [hstp] at hw
      have : b' = b := by simpa [Stage.With, Stage.calm, eq_comm] using hw
      simp [this, hp]
    · rw [hstq q hq] at hw
      have hsome := h.engaged q b' hw
      have hbb : b' ≠ b := by
        rintro rfl
        rw [hnone q] at hsome
        cases hsome
      rwa [hp' q b' hbb]
  case loaded =>
    intro q b' hq hgot hdisk
    have hbb : b' ≠ b := by
      rintro rfl
      have hqp : q = p := by
        by_contra hne
        rw [hq' q hne] at hq
        cases hq
      rw [hqp, hstp] at hgot
      exact hgot rfl
    rw [hp' q b' hbb] at hq
    rw [hb' b' hbb]
    by_cases hqp : q = p
    · subst hqp
      exact h.loaded q b' hq (by simp [hst]) (by simp [hst])
    · rw [hstq q hqp] at hgot hdisk
      exact h.loaded q b' hq hgot hdisk
  case pending =>
    intro q b' hdisk
    have hqp : q ≠ p := by
      rintro rfl
      rw [hstp] at hdisk
      cases hdisk
    rw [hstq q hqp] at hdisk
    have hsome := h.engaged q b' (Or.inr (Or.inl hdisk))
    have hbb : b' ≠ b := by
      rintro rfl
      rw [hnone q] at hsome
      cases hsome
    rw [hb' b' hbb]
    exact h.pending q b' hdisk
  case marked =>
    have := h.marked
    grind
  case guarded =>
    have := h.guarded
    grind
  case fresh =>
    have := h.fresh
    grind
  case clean =>
    intro d k hr
    rw [hdisk, hstored, hunsaved]
    refine (h.clean d k hr).imp_right ?_
    rintro ⟨b', hd, hk, hm⟩
    by_cases hbb : b' = b
    · subst hbb
      rw [hsaved] at hm
      rcases hkept' with rfl | ⟨hclean, -⟩
      · refine ⟨b', ?_⟩
        rw [hb]
        exact ⟨hd, hk, hm.imp_right fun hfalse => by cases hfalse⟩
      · rw [hclean] at hm
        rcases hm with hm | hm <;> cases hm
    · refine ⟨b', ?_⟩
      rw [hb' b' hbb]
      exact ⟨hd, hk, hm⟩

theorem brelse {p : ι} {b : BufPtr} (h : Inv s) (hp : (s.hold p b).isSome)
    (hst : (s.stage p).calm = .ready) (hu : s.unsaved b = false)
    (hs : s' = ({ s with cache := s.cache.brelse b }.wakeup b).setHold p b none) : Inv s' := by
  have hb : s'.buf b = { s.buf b with busy := false } := by
    simp [hs, State.buf, State.wakeup, Cache.brelse]
  have hb' : ∀ b', b' ≠ b → s'.buf b' = s.buf b' := by
    intro b' hne
    simp [hs, State.buf, State.wakeup, Cache.brelse, update_of_ne hne]
  have hnone : ∀ q, s'.hold q b = none := by
    intro q
    by_cases hq : q = p
    · simp [hs, hq]
    · have : ¬ (s.hold q b).isSome := fun hq' => hq (h.one q p b hq' hp)
      simpa [hs, hq, State.wakeup] using this
  have hhold : ∀ q b', b' ≠ b → s'.hold q b' = s.hold q b' := by
    intro q b' hne
    by_cases hq : q = p <;> simp [hs, hq, update_of_ne hne, State.wakeup]
  have hstage : ∀ q, (s'.stage q).calm = (s.stage q).calm := by
    intro q
    rw [hs]
    exact calm_wakeup _ b q
  have hdisk : s'.disk = s.disk := hs ▸ rfl
  have hstored : s'.stored = s.stored := hs ▸ rfl
  have hunsaved : s'.unsaved = s.unsaved := hs ▸ rfl
  have hlinks : s'.cache.links = (s.cache.links.unlink (some b)).pushFront none (some b) := by
    simp [hs, State.wakeup, Cache.brelse]
  clear hs
  constructor
  case linked =>
    obtain ⟨l, hnd, hall, hring⟩ := h.linked
    obtain ⟨l₁, l₂, rfl⟩ := List.append_of_mem (hall b)
    refine ⟨b :: (l₁ ++ l₂), ?_, ?_, ?_⟩
    · grind
    · intro b'
      have := hall b'
      grind
    · rw [List.map_append, List.map_cons] at hring
      rw [hlinks, List.map_cons, List.map_append]
      refine hring.unlink.pushFront ?_
      grind
  case unique =>
    have := h.unique
    grind
  case owned =>
    have := h.owned
    grind
  case one =>
    have := h.one
    grind
  case asked =>
    have := h.asked
    grind
  case engaged =>
    intro q b' hw
    rw [hstage] at hw
    have := h.engaged q b' hw
    have hbne : b' ≠ b := by
      rintro rfl
      obtain rfl := h.one q p b' this hp
      rw [hst] at hw
      simp [Stage.With] at hw
    rwa [hhold q b' hbne]
  case loaded =>
    have := h.loaded
    grind
  case pending =>
    have := h.pending
    grind
  case marked =>
    have := h.marked
    grind
  case guarded =>
    have := h.guarded
    grind
  case fresh =>
    have := h.fresh
    grind
  case clean =>
    intro d k hr
    rw [hdisk, hstored, hunsaved]
    refine (h.clean d k hr).imp_right ?_
    rintro ⟨b', hd, hk, hm⟩
    refine ⟨b', ?_⟩
    by_cases hbb : b' = b
    · subst hbb
      rw [hb]
      exact ⟨hd, hk, hm⟩
    · rw [hb' b' hbb]
      exact ⟨hd, hk, hm⟩

omit [DecidableEq ι] in
/-- For the block of a buffer, it is this buffer that has what the disk has not. -/
theorem clean_at (h : Inv s) (b : BufPtr) (hr : Real (s.buf b).dev) :
    s.disk (s.buf b).dev (s.buf b).blockno = s.stored (s.buf b).dev (s.buf b).blockno ∨
      (s.buf b).dirty = true ∨ s.unsaved b = true := by
  refine (h.clean _ _ hr).imp_right ?_
  rintro ⟨b', hd, hk, hm⟩
  obtain rfl := h.unique b b' hr hd.symm hk.symm
  exact hm

omit [DecidableEq ι] in
/-- A buffer that a process holds and is not waiting for is valid. -/
theorem valid_of_hold {p : ι} {b : BufPtr} (h : Inv s) (hp : (s.hold p b).isSome)
    (hst : s.stage p = .ready ∨ s.stage p = .logging b) : (s.buf b).valid = true := by
  refine h.loaded p b hp ?_ ?_ <;> rcases hst with hst | hst <;> rw [hst] <;> exact nofun

theorem move {p : ι} {b : BufPtr} {st : Stage} (h : Inv s) (hp : (s.hold p b).isSome)
    (hbefore : ∀ b', (s.stage p).calm.With b' → b' = b) (hafter : ∀ b', st.calm.With b' → b' = b)
    (hloaded : st.calm ≠ .got b → st.calm ≠ .disk b → (s.buf b).valid = true)
    (hpending : st.calm = .disk b → (s.buf b).dirty = true ∨ (s.buf b).valid = false) :
    Inv (s.setStage p st) := by
  have hstage : (s.setStage p st).stage p = st := update_self ..
  refine h.update hp ⟨rfl, fun _ _ => ⟨rfl, rfl⟩, rfl, rfl, rfl, rfl, ?_, hbefore, ?_,
    fun _ _ _ => ⟨rfl, rfl⟩⟩ ⟨?_, ?_, h.marked b, h.fresh b, h.clean_at b⟩
  · intro q hq
    exact congrArg Stage.calm (update_of_ne hq ..)
  · rw [hstage]
    exact hafter
  · rw [hstage]
    exact hloaded
  · rw [hstage]
    exact hpending

theorem revise {p : ι} {b : BufPtr} {v : Buf} {u : Bool} {st : Stage} (h : Inv s)
    (hp : (s.hold p b).isSome) (hcache : s'.cache = s.cache.setBuf b v)
    (hbusy : v.busy = (s.buf b).busy) (hdev : v.dev = (s.buf b).dev)
    (hblockno : v.blockno = (s.buf b).blockno) (hhold : s'.hold = s.hold)
    (hunsaved : s'.unsaved = Function.update s.unsaved b u) (hst : s'.stage p = st)
    (hothers : ∀ q, q ≠ p → (s'.stage q).calm = (s.stage q).calm)
    (hbefore : ∀ b', (s.stage p).calm.With b' → b' = b)
    (hafter : st = .ready ∨ st = .disk b ∧ v.dirty = true)
    (helsewhere : ∀ d k, ¬ (d = (s.buf b).dev ∧ k = (s.buf b).blockno) →
      s'.disk d k = s.disk d k ∧ s'.stored d k = s.stored d k)
    (hvalid : v.valid = true) (hfresh : Real v.dev → v.data = s'.stored v.dev v.blockno)
    (hclean : Real v.dev → s'.disk v.dev v.blockno = s'.stored v.dev v.blockno ∨
      v.dirty = true ∨ u = true) : Inv s' := by
  have hb : s'.buf b = v := by simp [State.buf, hcache]
  have hu : s'.unsaved b = u := by rw [hunsaved, update_self]
  refine h.update hp ⟨by rw [hcache]; rfl, fun b' hne => ⟨?_, ?_⟩, by rw [hb, hbusy],
    by rw [hb, hdev], by rw [hb, hblockno], hhold, hothers, hbefore, fun b' hw => ?_, helsewhere⟩
    ⟨fun _ _ => by rw [hb, hvalid], fun hdisk => ?_, fun _ => by rw [hb, hvalid], fun _ hr => ?_,
      fun hr => ?_⟩
  · simp [State.buf, hcache, update_of_ne hne]
  · rw [hunsaved, update_of_ne hne]
  · rw [hst] at hw
    rcases hafter with rfl | ⟨rfl, -⟩
    · rcases hw with hw | hw | hw <;> cases hw
    · rcases hw with hw | hw | hw <;> cases hw
      rfl
  · rw [hb]
    rw [hst] at hdisk
    rcases hafter with rfl | ⟨-, hdirty⟩
    · cases hdisk
    · exact Or.inl hdirty
  · rw [hb] at hr ⊢
    exact hfresh hr
  · rw [hb] at hr ⊢
    rw [hu]
    exact hclean hr

theorem update_here {f : Nat → Nat → Block} {d k : Nat} {x : Block} :
    Function.update f d (Function.update (f d) k x) d k = x := by
  rw [update_self, update_self]

theorem update_elsewhere {f : Nat → Nat → Block} {d k d' k' : Nat} {x : Block}
    (h : ¬ (d' = d ∧ k' = k)) :
    Function.update f d (Function.update (f d) k x) d' k' = f d' k' := by
  by_cases hd : d' = d
  · subst hd
    rw [update_self, update_of_ne fun hk => h ⟨rfl, hk⟩]
  · rw [update_of_ne hd]

theorem interrupt {p : ι} {b : BufPtr} (h : Inv s) (hst : s.stage p = .disk b) :
    Inv (((s.transfer b).wakeup b).setStage p .ready) := by
  have hcalm : (s.stage p).calm = .disk b := by rw [hst]; rfl
  have hp := h.engaged p b (Or.inr (Or.inl hcalm))
  have hbefore : ∀ b', (s.stage p).calm.With b' → b' = b := by
    rw [hcalm]
    rintro b' (hw | hw | hw) <;> cases hw
    rfl
  have hothers : ∀ (w : State ι) q, q ≠ p →
      (((w.wakeup b).setStage p .ready).stage q).calm = (w.stage q).calm := by
    intro w q hq
    rw [setStage_stage, update_of_ne hq]
    exact calm_wakeup w b q
  by_cases hdirty : (s.buf b).dirty = true
  · have hvalid := h.marked b (Or.inl hdirty)
    rw [State.transfer, if_pos hdirty]
    refine h.revise (v := { s.buf b with valid := true, dirty := false }) (u := s.unsaved b) hp
      rfl rfl rfl rfl rfl (update_eq_self ..).symm
      (update_self ..) (hothers _) hbefore (Or.inl rfl) (fun d k hne => ⟨?_, rfl⟩) rfl
      (h.fresh b hvalid) fun hr => Or.inl ?_
    · exact update_elsewhere hne
    · exact update_here.trans (h.fresh b hvalid hr)
  · have hinvalid : ¬ (s.buf b).valid = true := by
      intro hvalid
      rcases h.pending p b hcalm with hd | hv
      · exact hdirty hd
      · rw [hvalid] at hv
        cases hv
    have hsame : Real (s.buf b).dev → s.disk (s.buf b).dev (s.buf b).blockno =
        s.stored (s.buf b).dev (s.buf b).blockno := by
      intro hr
      exact (h.clean_at b hr).resolve_right fun hm => hinvalid (h.marked b hm)
    rw [State.transfer, if_neg hdirty]
    exact h.revise (v := { s.buf b with data := _, valid := true }) (u := s.unsaved b) hp rfl rfl
      rfl rfl rfl (update_eq_self ..).symm (update_self ..) (hothers _) hbefore
      (Or.inl rfl) (fun d k _ => ⟨rfl, rfl⟩) rfl hsame fun hr => Or.inl (hsame hr)

theorem modify {p : ι} {b : BufPtr} (h : Inv s) (hp : (s.hold p b).isSome)
    (hst : s.stage p = .ready) (data : Block) : Inv (s.store b data) := by
  refine h.revise (v := { s.buf b with data := data }) (u := true) hp rfl rfl rfl rfl rfl rfl hst
    (fun _ _ => rfl) ?_ (Or.inl rfl) (fun d k hne => ⟨rfl, update_elsewhere hne⟩)
    (h.valid_of_hold hp (Or.inl hst)) (fun _ => ?_) fun _ => Or.inr (Or.inr rfl)
  · rw [hst]
    rintro b' (hw | hw | hw) <;> cases hw
  · exact update_here.symm

theorem record {p : ι} {b : BufPtr} (h : Inv s) (hst : s.stage p = .logging b) (l : Log) :
    Inv ((({ s with log := l }.setBuf b { s.buf b with dirty := true }).setUnsaved b false).setStage p
      .ready) := by
  have hcalm : (s.stage p).calm = .logging b := by rw [hst]; rfl
  have hp := h.engaged p b (Or.inr (Or.inr hcalm))
  have hvalid := h.valid_of_hold hp (Or.inr hst)
  refine h.revise (v := { s.buf b with dirty := true }) (u := false) hp rfl rfl rfl rfl rfl rfl
    (update_self ..) (fun q hq => congrArg Stage.calm (update_of_ne hq ..)) ?_
    (Or.inl rfl) (fun d k _ => ⟨rfl, rfl⟩) hvalid (h.fresh b hvalid) fun _ => Or.inr (Or.inl rfl)
  rw [hcalm]
  rintro b' (hw | hw | hw) <;> cases hw
  rfl

/-- `bwrite` marks the buffer and asks the disk to write it. -/
theorem bwrite {p : ι} {b : BufPtr} (h : Inv s) (hp : (s.hold p b).isSome)
    (hst : s.stage p = .ready) :
    Inv (((s.setBuf b { s.buf b with dirty := true }).setUnsaved b false).setStage p (.disk b)) := by
  have hvalid := h.valid_of_hold hp (Or.inl hst)
  refine h.revise (v := { s.buf b with dirty := true }) (u := false) hp rfl rfl rfl rfl rfl rfl
    (update_self ..) (fun q hq => congrArg Stage.calm (update_of_ne hq ..)) ?_
    (Or.inr ⟨rfl, rfl⟩) (fun d k _ => ⟨rfl, rfl⟩) hvalid (h.fresh b hvalid)
    fun _ => Or.inr (Or.inl rfl)
  rw [hst]
  rintro b' (hw | hw | hw) <;> cases hw

end Inv

/-! ## Runs -/

section Runs

variable {s s' : State ι} {a : Action ι}

theorem iderw_ok {p : ι} {b : BufPtr} (h : s.iderw p b = .ok s') :
    s' = s.setStage p (.disk b) ∧ ((s.buf b).dirty = true ∨ (s.buf b).valid = false) := by
  rw [State.iderw] at h
  split at h
  · cases h
  split at h
  · cases h
  next hflags =>
  split at h
  · cases h
  cases h
  refine ⟨rfl, ?_⟩
  cases hd : (s.buf b).dirty <;> cases hv : (s.buf b).valid <;> simp_all

omit [DecidableEq ι] in
theorem has_iff {p : ι} {b : BufPtr} :
    s.has p b = true ↔ s.stage p = .ready ∧ (s.hold p b).isSome := by
  simp [State.has]

inductive Effect (s : State ι) : State ι → Prop
  | calm {s' : State ι} : s'.cache = s.cache → s'.disk = s.disk →
      (∀ p, (s'.stage p).calm = (s.stage p).calm) → s'.hold = s.hold → s'.unsaved = s.unsaved →
      s'.stored = s.stored → Effect s s'
  | give {p : ι} {b : BufPtr} {dev blockno : Nat} {v : Buf} : (s.stage p).calm = .ready →
      Given s.cache dev blockno b v → Effect s (({ s with cache := s.cache.setBuf b v }.setHold p b
        (some (dev, blockno))).setStage p (.got b))
  | ready {p : ι} {b : BufPtr} : s.stage p = .got b → (s.buf b).valid = true →
      Effect s (s.setStage p .ready)
  | load {p : ι} {b : BufPtr} : s.stage p = .got b →
      (s.buf b).dirty = true ∨ (s.buf b).valid = false → Effect s (s.setStage p (.disk b))
  | interrupt {p : ι} {b : BufPtr} : s.stage p = .disk b →
      Effect s (((s.transfer b).wakeup b).setStage p .ready)
  | modify {p : ι} {b : BufPtr} (data : Block) : s.stage p = .ready → (s.hold p b).isSome →
      Effect s (s.store b data)
  | logging {p : ι} {b : BufPtr} : s.stage p = .ready → (s.hold p b).isSome →
      Effect s (s.setStage p (.logging b))
  | record {p : ι} {b : BufPtr} (l : Log) : s.stage p = .logging b →
      Effect s ((({ s with log := l }.setBuf b { s.buf b with dirty := true }).setUnsaved b
        false).setStage p .ready)
  | bwrite {p : ι} {b : BufPtr} : s.stage p = .ready → (s.hold p b).isSome →
      Effect s (((s.setBuf b { s.buf b with dirty := true }).setUnsaved b false).setStage p (.disk b))
  | brelse {p : ι} {b : BufPtr} : s.stage p = .ready → (s.hold p b).isSome → s.unsaved b = false →
      Effect s (({ s with cache := s.cache.brelse b }.wakeup b).setHold p b none)

/-- A process goes from one place without a buffer to another. -/
theorem Effect.stage {p : ι} {st : Stage} (h : (s.stage p).calm = st.calm) :
    Effect s (s.setStage p st) := by
  refine .calm rfl rfl (fun q => ?_) rfl rfl rfl
  by_cases hq : q = p
  · rw [hq, h, setStage_stage, update_self]
  · rw [setStage_stage, update_of_ne hq]

theorem step_effect (hl : s.cache.Linked) (hs : step s a = some (.ok s')) : Effect s s' := by
  cases a with
  | bread p dev blockno =>
    simp only [step] at hs
    split at hs
    · next hst =>
        cases hs
        exact .stage (by rw [hst]; rfl)
    · cases hs
  | bget p =>
    simp only [step] at hs
    split at hs
    · next dev blockno hst =>
        rcases bget_spec hl dev blockno with he | ⟨b, he⟩ | ⟨b, v, he, hv⟩
        · rw [he] at hs
          cases hs
        · rw [he] at hs
          cases hs
          exact .stage (by rw [hst]; rfl)
        · rw [he] at hs
          cases hs
          exact .give (by rw [hst]; rfl) hv
    · cases hs
  | check p =>
    simp only [step] at hs
    split at hs
    · next b hst =>
        split at hs
        · next hvalid =>
            cases hs
            exact .ready hst hvalid
        · obtain ⟨rfl, hflags⟩ := iderw_ok (Option.some.inj hs)
          exact .load hst hflags
    · cases hs
  | interrupt p =>
    simp only [step] at hs
    split at hs
    · next b hst =>
        cases hs
        exact .interrupt hst
    · cases hs
  | modify p b data =>
    simp only [step] at hs
    split at hs
    · next hhas =>
        cases hs
        obtain ⟨hst, hp⟩ := has_iff.mp hhas
        exact .modify data hst hp
    · cases hs
  | logWrite p b =>
    simp only [step] at hs
    split at hs
    · next hhas =>
        obtain ⟨hst, hp⟩ := has_iff.mp hhas
        split at hs
        · cases hs
        · cases hs
          exact .logging hst hp
    · cases hs
  | record p =>
    simp only [step] at hs
    split at hs
    · next b hst =>
        cases hs
        exact .record _ hst
    · cases hs
  | bwrite p b =>
    simp only [step] at hs
    split at hs
    · next hhas =>
        obtain ⟨hst, hp⟩ := has_iff.mp hhas
        split at hs
        · cases hs
        · obtain ⟨rfl, -⟩ := iderw_ok (Option.some.inj hs)
          exact .bwrite hst hp
    · cases hs
  | brelse p b =>
    simp only [step] at hs
    split at hs
    · next hhas =>
        obtain ⟨hst, hp⟩ := has_iff.mp hhas.1
        split at hs
        · cases hs
        · cases hs
          exact .brelse hst hp hhas.2
    · cases hs
  | log l =>
    cases hs
    exact .calm rfl rfl (fun _ => rfl) rfl rfl rfl

omit [DecidableEq ι] in
theorem with_got {b b' : BufPtr} (h : (Stage.got b).With b') : b' = b := by
  rcases h with h | h | h <;> cases h
  rfl

omit [DecidableEq ι] in
theorem not_with_ready {b : BufPtr} : ¬ Stage.ready.With b := by
  rintro (h | h | h) <;> cases h

theorem step_inv (h : Inv s) (hs : step s a = some (.ok s')) : Inv s' := by
  cases step_effect h.linked hs with
  | calm hcache hdisk hstage hhold hunsaved hstored =>
    exact h.calm hcache hdisk hstage hhold hunsaved hstored
  | give hst hv => exact h.give hst hv rfl
  | @ready p b hst hvalid =>
    have hcalm : (s.stage p).calm = .got b := by rw [hst]; rfl
    exact h.move (h.engaged p b (Or.inl hcalm)) (fun b' hw => with_got (hcalm ▸ hw))
      (fun b' hw => absurd hw not_with_ready) (fun _ _ => hvalid) nofun
  | @load p b hst hflags =>
    have hcalm : (s.stage p).calm = .got b := by rw [hst]; rfl
    refine h.move (h.engaged p b (Or.inl hcalm)) (fun b' hw => with_got (hcalm ▸ hw)) ?_
      (fun _ hne => absurd rfl hne) fun _ => hflags
    rintro b' (hw | hw | hw) <;> cases hw
    rfl
  | interrupt hst => exact h.interrupt hst
  | modify data hst hp => exact h.modify hp hst data
  | logging hst hp =>
    refine h.move hp (fun b' hw => ?_) ?_ (fun _ _ => h.valid_of_hold hp (Or.inl hst)) nofun
    · rw [hst] at hw
      exact absurd hw not_with_ready
    · rintro b' (hw | hw | hw) <;> cases hw
      rfl
  | record l hst => exact h.record hst l
  | bwrite hst hp => exact h.bwrite hp hst
  | brelse hst hp hu => exact h.brelse hp (by rw [hst]; rfl) hu rfl

omit [DecidableEq ι] in
theorem transfer_id (b b' : BufPtr) : ((s.transfer b).buf b').dev = (s.buf b').dev ∧
    ((s.transfer b).buf b').blockno = (s.buf b').blockno := by
  rw [State.transfer]
  split <;> by_cases hb : b' = b <;> simp [State.buf, hb]

omit [DecidableEq ι] in
theorem setBuf_id {b b' : BufPtr} {v : Buf} (hd : v.dev = (s.buf b).dev)
    (hk : v.blockno = (s.buf b).blockno) : ((s.setBuf b v).buf b').dev = (s.buf b').dev ∧
      ((s.setBuf b v).buf b').blockno = (s.buf b').blockno := by
  by_cases hb : b' = b <;> simp_all [State.buf]

/-- A step does not give a dirty buffer to another block. -/
theorem step_dirty (h : Inv s) (hs : step s a = some (.ok s')) {b : BufPtr}
    (hd : (s.buf b).dirty = true) :
    (s'.buf b).dev = (s.buf b).dev ∧ (s'.buf b).blockno = (s.buf b).blockno := by
  cases step_effect h.linked hs with
  | calm hcache => simp [State.buf, hcache]
  | @give p b' dev blockno v hst hv =>
    by_cases hb : b = b'
    · subst hb
      rcases hv.kept with hkept | ⟨hclean, -⟩
      · simp [State.buf, hkept]
      · have hdirty : (s.cache.buf b).dirty = true := hd
        rw [hclean] at hdirty
        cases hdirty
    · simp [State.buf, update_of_ne hb]
  | ready => exact ⟨rfl, rfl⟩
  | load => exact ⟨rfl, rfl⟩
  | @interrupt p b' hst => exact transfer_id b' b
  | @modify p b' data hst hp => exact setBuf_id (b := b') (v := { s.buf b' with data := data }) rfl rfl
  | logging => exact ⟨rfl, rfl⟩
  | @record p b' l hst => exact setBuf_id (b := b') (v := { s.buf b' with dirty := true }) rfl rfl
  | @bwrite p b' hst hp => exact setBuf_id (b := b') (v := { s.buf b' with dirty := true }) rfl rfl
  | @brelse p b' hst hp hu => exact setBuf_id (b := b') (v := { s.buf b' with busy := false }) rfl rfl

theorem step_no_hang (h : Inv s) : step s a ≠ some (.error .hang) := by
  have hiderw : ∀ (w : State ι) p b, w.iderw p b ≠ .error .hang := by
    intro w p b
    rw [State.iderw]
    split
    · exact nofun
    split
    · exact nofun
    split <;> exact nofun
  cases a with
  | bget p =>
    simp only [step]
    split
    · next dev blockno _ =>
        rcases bget_spec h.linked dev blockno with he | ⟨b, he⟩ | ⟨b, v, he, -⟩ <;> rw [he] <;>
          exact nofun
    · exact nofun
  | check p =>
    simp only [step]
    split
    · next b _ =>
        split
        · exact nofun
        · exact fun he => hiderw s p b (Option.some.inj he)
    · exact nofun
  | bwrite p b =>
    simp only [step]
    split
    · split
      · exact nofun
      · exact fun he => hiderw _ p b (Option.some.inj he)
    · exact nofun
  | _ =>
    simp only [step]
    repeat' split
    all_goals exact nofun

theorem binit_linked : Cache.binit.Linked := by
  have hfold : ∀ (bs : List BufPtr) (r : Links Node) (l : List BufPtr), (bs ++ l).Nodup →
      r.Ring none (l.map some) → (bs.foldl (fun r b => r.pushFront none (some b)) r).Ring none
          ((bs.reverse ++ l).map some) := by
    intro bs
    induction bs with
    | nil => exact fun r l _ hr => hr
    | cons b bs ih =>
      intro r l hnd hr
      have hb : b ∉ bs ++ l := (List.nodup_cons.mp hnd).1
      have hpush := hr.pushFront (x := some b) (by simp_all)
      have hrec := ih _ (b :: l) (by grind) (by simpa using hpush)
      simpa using hrec
  refine ⟨(List.finRange NBUF).reverse, ?_, ?_, ?_⟩
  · exact List.nodup_reverse.mpr (List.nodup_finRange _)
  · simp
  · have hempty : (⟨fun _ => none, fun _ => none⟩ : Links Node).Ring none [] :=
      ⟨.cons_cons ⟨rfl, rfl⟩ (.singleton _), List.nodup_singleton _⟩
    simpa [Cache.binit] using hfold (List.finRange NBUF) _ [] (by simpa using List.nodup_finRange _)
      hempty

omit [DecidableEq ι] in
theorem boot_inv (h : Boot s) : Inv s := by
  have hbuf : ∀ b, s.buf b = ⟨false, false, false, noDev, 0, fun _ => 0⟩ := by
    intro b
    simp only [State.buf, h.cache]
    rfl
  constructor <;> simp only [hbuf, h.stage, h.hold, h.unsaved, h.stored, h.cache]
  case linked => exact binit_linked
  case unique => exact fun _ _ hr => absurd rfl hr
  case engaged =>
    rintro p b (hw | hw | hw) <;> cases hw
  all_goals simp [Stage.calm]

theorem Reachable.inv (h : Reachable s) : Inv s := by
  induction h with
  | boot hb => exact boot_inv hb
  | step _ hs ih => exact step_inv ih hs

/-- What the callers of the cache rely on. -/
structure Coherent (s : State ι) : Prop where
  /-- one ring of all the buffers -/
  linked : s.cache.Linked
  /-- one buffer for a block -/
  unique : ∀ b b', Real (s.buf b).dev → (s.buf b).dev = (s.buf b').dev →
    (s.buf b).blockno = (s.buf b').blockno → b = b'
  /-- one holder for a busy buffer, and none for another -/
  holder : ∀ b, if (s.buf b).busy then ∃! p, (s.hold p b).isSome else ∀ p, s.hold p b = none
  /-- no dirty buffer is given to another block -/
  pinned : ∀ a s' b, step s a = some (.ok s') → (s.buf b).dirty = true →
    (s'.buf b).dev = (s.buf b).dev ∧ (s'.buf b).blockno = (s.buf b).blockno
  /-- `bread` has returned a buffer with the block asked for, and with the data
  last stored for it -/
  returned : ∀ p b dev blockno, s.hold p b = some (dev, blockno) → s.stage p ≠ .got b →
    s.stage p ≠ .disk b → (s.buf b).dev = dev ∧ (s.buf b).blockno = blockno ∧
      (Real dev → (s.buf b).data = s.stored dev blockno)
  /-- no walk along the links goes on for ever -/
  ends : ∀ a, step s a ≠ some (.error .hang)

/-- The buffer cache is coherent in every interleaving. -/
theorem reachable_coherent (h : Reachable s) : Coherent s := by
  have hinv := h.inv
  refine ⟨hinv.linked, hinv.unique, fun b => ?_, fun a s' b hs hd => step_dirty hinv hs hd,
    fun p b dev blockno hp hgot hdisk => ?_, fun a => step_no_hang hinv⟩
  · cases hb : (s.buf b).busy with
    | true =>
      obtain ⟨p, hp⟩ := (hinv.owned b).mp hb
      exact ⟨p, hp, fun q hq => hinv.one q p b hq hp⟩
    | false => exact hinv.no_holder hb
  · obtain ⟨rfl, rfl⟩ := hinv.asked p b dev blockno hp
    have hvalid : (s.buf b).valid = true := by
      refine hinv.loaded p b (by rw [hp]; rfl) ?_ ?_
      · intro hcalm
        cases hst : s.stage p <;> simp_all [Stage.calm]
      · intro hcalm
        cases hst : s.stage p <;> simp_all [Stage.calm]
    exact ⟨rfl, rfl, hinv.fresh b hvalid⟩

/-- The state after these steps. -/
def exec (s : State ι) : List (Action ι) → Option (State ι)
  | [] => some s
  | a :: as =>
    match step s a with
    | some (.ok s') => exec s' as
    | _ => none

theorem Reachable.exec {as : List (Action ι)} (h : Reachable s) (hs : exec s as = some s') :
    Reachable s' := by
  induction as generalizing s with
  | nil =>
    cases hs
    exact h
  | cons a as ih =>
    rw [Bio.exec] at hs
    split at hs
    · next s₁ hstep => exact ih (h.step hstep) hs
    · cases hs

end Runs

/-- One process, and a disk whose blocks have bytes 7. -/
def sevens : State Unit where
  cache := .binit
  disk := fun _ _ _ => 7
  havedisk1 := true
  log := { start := 2, size := 30, pos := by decide, outstanding := 0, committing := false,
           lh := ⟨0, fun _ => 0⟩ }
  stage := fun _ => .ready
  hold := fun _ _ => none
  unsaved := fun _ => false
  stored := fun _ _ _ => 7

/-- The process reads block 5 and stores something in it. -/
theorem block_read_coherent :
    ∃ s b, s.hold () b = some (1, 5) ∧ s.unsaved b = true ∧ Coherent s := by
  have hrun : (exec sevens [.bread () 1 5, .bget (), .check (), .interrupt (),
      .modify () ⟨0, by decide⟩ fun _ => 8]).any (fun s =>
        s.hold () ⟨0, by decide⟩ = some (1, 5) ∧ s.unsaved ⟨0, by decide⟩ = true) = true := by
    decide +kernel
  obtain ⟨s, hs, hchecks⟩ := (Option.any_eq_true _ _).mp hrun
  have hboot : Boot sevens := ⟨rfl, fun _ => rfl, fun _ _ => rfl, fun _ => rfl, rfl⟩
  obtain ⟨hhold, hunsaved⟩ := of_decide_eq_true hchecks
  exact ⟨s, _, hhold, hunsaved, reachable_coherent ((Reachable.boot hboot).exec hs)⟩

end Xv6Pdx.Bio
