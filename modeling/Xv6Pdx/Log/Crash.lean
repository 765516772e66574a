/-
# `Log.Crash` — a transaction is on the disk as a whole or not at all

`pre` is what the home blocks hold when the transaction begins, `post` what the
buffers hold when its last system call ends.  Up to the first `write_head` of
`commit` the home blocks on the disk are `pre`; from then on the log on the disk
is enough to make them `post` (`Committed`), until they are `post` and the header
is cleared.  `Left` is what is true of the disk alone throughout, hence what a
crash can leave, and recovery keeps it from each block write to the next.
-/
import Xv6Pdx.Log.Model

namespace Xv6Pdx.Crash

open Lib Bytes Machine
open Function (update_self update_of_ne)

/-! ## The header block -/

/-- The entries are written one after the other, from word 1 on. -/
theorem word_entries (block : Nat → Nat) (d : Block) {k : Nat} (hb : ∀ i < k, block i < 2 ^ 32)
    (j : Nat) : word ((List.range k).foldl (fun d i => d.setWord (i + 1) (block i)) d) j
      = if 0 < j ∧ j ≤ k then block (j - 1) else word d j := by
  induction k with
  | zero => rw [if_neg (by omega)]; rfl
  | succ k ih =>
    rw [List.range_succ, List.foldl_append, List.foldl_cons, List.foldl_nil]
    rcases eq_or_ne j (k + 1) with rfl | hj
    · rw [word_setWord_self (hb k (Nat.lt_succ_self k)), if_pos (by omega), Nat.add_sub_cancel]
    · rw [word_setWord_of_ne hj, ih fun i hi => hb i (Nat.lt_succ_of_lt hi)]
      split
      · rw [if_pos (by omega)]
      · rw [if_neg (by omega)]

theorem headBlock_n {lh : LogHeader} (hn : lh.n < 2 ^ 32) (hb : ∀ i < lh.n, lh.block i < 2 ^ 32)
    (d : Block) : word (headBlock lh d) 0 = lh.n := by
  rw [headBlock, word_entries lh.block _ hb, if_neg (by omega), word_setWord_self hn]

theorem headBlock_block {lh : LogHeader} (hb : ∀ i < lh.n, lh.block i < 2 ^ 32) (d : Block) {i : Nat}
    (hi : i < lh.n) : word (headBlock lh d) (i + 1) = lh.block i := by
  rw [headBlock, word_entries lh.block _ hb, if_pos (by omega), Nat.add_sub_cancel]

/-! ## The cache -/

section Cache

variable {m : Machine} {ok : Nat → Prop}

/-- A buffer that is not dirty is as the disk, and only `ok` blocks are dirty. -/
structure Cached (ok : Nat → Prop) (m : Machine) : Prop where
  clean : ∀ b buf, m.cache b = some buf → buf.dirty = false → buf.data = m.disk b
  dirty : ∀ b buf, m.cache b = some buf → buf.dirty = true → ok b

theorem Cached.content (h : Cached ok m) {b : Nat} (hb : ¬ ok b) : m.content b = m.disk b := by
  rw [Machine.content]
  cases hc : m.cache b with
  | none => rfl
  | some buf =>
    cases hd : buf.dirty with
    | false => exact h.clean b buf hc hd
    | true => exact absurd (h.dirty b buf hc hd) hb

/-- Reading a block changes nothing but that it is cached. -/
theorem bread_content (m : Machine) (b : Nat) : (m.bread b).1 = m.content b := by
  rw [bread, content]
  cases m.cache b <;> rfl

structure SameView (m m' : Machine) : Prop where
  disk : m'.disk = m.disk
  content : m'.content = m.content
  log : m'.log = m.log
  pc : m'.pc = m.pc
  cached : ∀ ok, Cached ok m → Cached ok m'

theorem bread_same (m : Machine) (b : Nat) : SameView m (m.bread b).2 := by
  rw [bread]
  cases hc : m.cache b with
  | some buf => exact ⟨rfl, rfl, rfl, rfl, fun _ h => h⟩
  | none =>
    refine ⟨rfl, ?_, rfl, rfl, ?_⟩
    · funext b'
      simp only [content]
      rcases eq_or_ne b' b with rfl | hne
      · rw [update_self, hc]
      · rw [update_of_ne hne]
    · intro ok h
      refine ⟨?_, ?_⟩
      · intro b' buf hbuf hd
        simp only at hbuf
        rcases eq_or_ne b' b with rfl | hne
        · rw [update_self] at hbuf
          cases hbuf
          rfl
        · rw [update_of_ne hne] at hbuf
          exact h.clean b' buf hbuf hd
      · intro b' buf hbuf hd
        simp only at hbuf
        rcases eq_or_ne b' b with rfl | hne
        · rw [update_self] at hbuf
          cases hbuf
          cases hd
        · rw [update_of_ne hne] at hbuf
          exact h.dirty b' buf hbuf hd

theorem evict_same {m m' : Machine} {b : Nat} (h : step m (.evict b) = some m')
    (hc : Cached ok m) : SameView m m' := by
  simp only [step] at h
  split at h
  · next data hb =>
    cases h
    refine ⟨rfl, ?_, rfl, rfl, ?_⟩
    · funext b'
      simp only [content]
      rcases eq_or_ne b' b with rfl | hne
      · rw [update_self, hb]
        exact (hc.clean b' _ hb rfl).symm
      · rw [update_of_ne hne]
    · intro ok' h
      have hkeep : ∀ b' buf, Function.update m.cache b none b' = some buf →
          m.cache b' = some buf := by
        intro b' buf hbuf
        rcases eq_or_ne b' b with rfl | hne
        · rw [update_self] at hbuf
          cases hbuf
        · rwa [update_of_ne hne] at hbuf
      exact ⟨fun b' buf hbuf => h.clean b' buf (hkeep b' buf hbuf),
        fun b' buf hbuf => h.dirty b' buf (hkeep b' buf hbuf)⟩
  · cases h

theorem bwrite_content (m : Machine) (b : Nat) (data : Block) :
    (m.bwrite b data).content = Function.update m.content b data := by
  funext b'
  simp only [bwrite, content]
  rcases eq_or_ne b' b with rfl | hne
  · rw [update_self, update_self, update_self]
  · rw [update_of_ne hne, update_of_ne hne, update_of_ne hne]
    rfl

theorem Cached.bwrite (h : Cached ok m) (b : Nat) (data : Block) :
    Cached (fun b' => ok b' ∧ b' ≠ b) (m.bwrite b data) := by
  refine ⟨?_, ?_⟩
  · intro b' buf hbuf hd
    simp only [Machine.bwrite] at hbuf ⊢
    rcases eq_or_ne b' b with rfl | hne
    · rw [update_self] at hbuf ⊢
      cases hbuf
      rfl
    · rw [update_of_ne hne] at hbuf ⊢
      exact h.clean b' buf hbuf hd
  · intro b' buf hbuf hd
    simp only [Machine.bwrite] at hbuf
    rcases eq_or_ne b' b with rfl | hne
    · rw [update_self] at hbuf
      cases hbuf
      cases hd
    · rw [update_of_ne hne] at hbuf
      exact ⟨h.dirty b' buf hbuf hd, hne⟩

theorem Cached.mono {ok' : Nat → Prop} (h : Cached ok m) (hle : ∀ b, ok b → ok' b) :
    Cached ok' m := ⟨h.clean, fun b buf hb hd => hle b (h.dirty b buf hb hd)⟩

/-- The disk after one turn of `write_log` or `install_trans`. -/
theorem copyBlock_spec (h : Cached ok m) (src dst : Nat) :
    (m.copyBlock src dst).disk = Function.update m.disk dst (m.content src) ∧
    (m.copyBlock src dst).content = Function.update m.content dst (m.content src) ∧
    (m.copyBlock src dst).log = m.log ∧
    Cached (fun b => ok b ∧ b ≠ dst) (m.copyBlock src dst) := by
  have h₁ := bread_same m src
  have h₂ := bread_same (m.bread src).2 dst
  simp only [copyBlock, bread_content]
  refine ⟨?_, ?_, ?_, ?_⟩
  · simp only [bwrite, h₂.disk, h₁.disk]
  · rw [bwrite_content, h₂.content, h₁.content]
  · exact h₂.log.trans h₁.log
  · exact (h₂.cached _ (h₁.cached _ h)).bwrite dst _

theorem writeHead_spec (h : Cached ok m) : ∃ data,
    m.writeHead.disk = Function.update m.disk m.log.start (headBlock m.log.lh data) ∧
    m.writeHead.content = Function.update m.content m.log.start (headBlock m.log.lh data) ∧
    m.writeHead.log = m.log ∧ Cached ok m.writeHead := by
  have h₁ := bread_same m m.log.start
  refine ⟨m.content m.log.start, ?_⟩
  simp only [writeHead, bread_content, h₁.log]
  refine ⟨?_, ?_, ?_, ?_⟩
  · simp only [bwrite, h₁.disk]
  · rw [bwrite_content, h₁.content]
  · exact h₁.log
  · exact ((h₁.cached _ h).bwrite _ _).mono fun _ hb => hb.1

end Cache

/-! ## What a crash can leave -/

section Disk

variable {l : LogArea} {pre post : Nat → Block} {d : Nat → Block} {lh : LogHeader}

/-- The log holds the new contents of the blocks of `lh`, and all other home
blocks on the disk have theirs. -/
structure Committed (l : LogArea) (post : Nat → Block) (lh : LogHeader) (d : Nat → Block) : Prop where
  room : lh.n < l.size
  targets : ∀ i < lh.n, l.home (lh.block i)
  copies : ∀ i < lh.n, d (l.start + i + 1) = post (lh.block i)
  rest : ∀ b, l.home b → (∀ i < lh.n, lh.block i ≠ b) → d b = post b

structure HeadIs (l : LogArea) (lh : LogHeader) (d : Nat → Block) : Prop where
  n : (d l.start).word 0 = lh.n
  block : ∀ i < lh.n, (d l.start).word (i + 1) = lh.block i

/-- The home blocks hold the old contents, or they hold the new. -/
def Whole (l : LogArea) (pre post : Nat → Block) (d : Nat → Block) : Prop :=
  (∀ b, l.home b → d b = pre b) ∨ ∀ b, l.home b → d b = post b

/-- An empty log and one of the two, or a log from which the new contents can
be made. -/
def Left (l : LogArea) (pre post : Nat → Block) (d : Nat → Block) : Prop :=
  ((d l.start).word 0 = 0 ∧ Whole l pre post d) ∨ ∃ lh, HeadIs l lh d ∧ Committed l post lh d

theorem not_home {i : Nat} (hi : i < l.size) : ¬ l.home (l.start + i) := by
  rw [LogArea.home]
  omega

theorem Committed.install (h : Committed l post lh d) {t : Nat} (ht : t < lh.n) :
    Committed l post lh (Function.update d (lh.block t) (post (lh.block t))) := by
  refine ⟨h.room, h.targets, ?_, ?_⟩
  · intro i hi
    have hroom := h.room
    have hne : l.start + i + 1 ≠ lh.block t := by
      intro he
      exact not_home (show i + 1 < l.size by omega) (he ▸ h.targets t ht)
    rw [update_of_ne hne]
    exact h.copies i hi
  · intro b hb hout
    rw [update_of_ne (hout t ht).symm]
    exact h.rest b hb hout

/-- A write to a home block or to a log block leaves the header. -/
theorem HeadIs.update (h : HeadIs l lh d) {b : Nat} (hb : b ≠ l.start) (data : Block) :
    HeadIs l lh (Function.update d b data) := by
  have hs : Function.update d b data l.start = d l.start := update_of_ne hb.symm ..
  exact ⟨by rw [hs]; exact h.n, by rw [hs]; exact h.block⟩

theorem home_ne_start {b : Nat} (hb : l.home b) : b ≠ l.start := by
  rintro rfl
  exact not_home l.pos hb

theorem Whole.head (h : Whole l pre post d) (data : Block) :
    Whole l pre post (Function.update d l.start data) := by
  refine h.imp ?_ ?_
  · intro hpre b hb
    rw [update_of_ne (home_ne_start hb)]
    exact hpre b hb
  · intro hpost b hb
    rw [update_of_ne (home_ne_start hb)]
    exact hpost b hb

/-- With every block installed the home blocks have their new contents. -/
theorem Committed.new (h : Committed l post lh d)
    (hdone : ∀ i < lh.n, d (lh.block i) = post (lh.block i)) (b : Nat) (hb : l.home b) :
    d b = post b := by
  by_cases hin : ∃ i < lh.n, lh.block i = b
  · obtain ⟨i, hi, rfl⟩ := hin
    exact hdone i hi
  · exact h.rest b hb fun i hi he => hin ⟨i, hi, he⟩

theorem installed {t : Nat} (h : ∀ i < t, d (lh.block i) = post (lh.block i)) :
    ∀ i < t + 1, Function.update d (lh.block t) (post (lh.block t)) (lh.block i)
      = post (lh.block i) := by
  intro i hi
  rcases eq_or_ne (lh.block i) (lh.block t) with he | hne
  · rw [he, update_self]
  · rw [update_of_ne hne]
    refine h i ?_
    rcases Nat.lt_or_eq_of_le (Nat.lt_succ_iff.mp hi) with hlt | rfl
    · exact hlt
    · exact absurd rfl hne

theorem Committed.congr (h : Committed l post lh d) {lh' : LogHeader} (hn : lh'.n = lh.n)
    (hb : ∀ i < lh.n, lh'.block i = lh.block i) : Committed l post lh' d := by
  refine ⟨hn ▸ h.room, ?_, ?_, ?_⟩
  · intro i hi
    rw [hb i (hn ▸ hi)]
    exact h.targets i (hn ▸ hi)
  · intro i hi
    rw [hb i (hn ▸ hi)]
    exact h.copies i (hn ▸ hi)
  · intro b hhome hout
    refine h.rest b hhome ?_
    intro i hi
    rw [← hb i hi]
    exact hout i (hn.symm ▸ hi)

end Disk

/-! ## After a crash -/

section Recovery

variable {m m' : Machine} {pre post : Nat → Block}

abbrev Clean : Machine → Prop := Cached fun _ => False

/-- Recovery on its way: where it is, what it has read, and what it has
installed. -/
inductive Recovering (pre post : Nat → Block) (m : Machine) : Prop where
  | boot : m.pc = .boot → Clean m → Left m.log.toLogArea pre post m.disk → Recovering pre post m
  /-- the log was empty -/
  | nothing (t : Nat) : m.pc = .recover t → Clean m → m.log.lh.n = 0 →
      (m.disk m.log.start).word 0 = 0 → Whole m.log.toLogArea pre post m.disk → Recovering pre post m
  | install (t : Nat) : m.pc = .recover t → Clean m → HeadIs m.log.toLogArea m.log.lh m.disk →
      Committed m.log.toLogArea post m.log.lh m.disk → t ≤ m.log.lh.n →
      (∀ i < t, m.disk (m.log.lh.block i) = post (m.log.lh.block i)) → Recovering pre post m
  | done : m.pc = .running → Clean m → (m.disk m.log.start).word 0 = 0 →
      Whole m.log.toLogArea pre post m.disk → Recovering pre post m

theorem Recovering.same (h : Recovering pre post m) (hs : SameView m m') :
    Recovering pre post m' := by
  obtain ⟨hdisk, _, hlog, hpc', hcached⟩ := hs
  cases h with
  | boot hpc hc hl => exact .boot (hpc'.trans hpc) (hcached _ hc) (by rwa [hlog, hdisk])
  | nothing t hpc hc hn hhead hw =>
    exact .nothing t (hpc'.trans hpc) (hcached _ hc) (by rwa [hlog]) (by rwa [hlog, hdisk])
      (by rwa [hlog, hdisk])
  | install t hpc hc hhead hcom ht hdone =>
    exact .install t (hpc'.trans hpc) (hcached _ hc) (by rwa [hlog, hdisk])
      (by rwa [hlog, hdisk]) (by rwa [hlog]) (by rwa [hlog, hdisk])
  | done hpc hc hhead hw =>
    exact .done (hpc'.trans hpc) (hcached _ hc) (by rwa [hlog, hdisk]) (by rwa [hlog, hdisk])

theorem Recovering.left (h : Recovering pre post m) : Left m.log.toLogArea pre post m.disk := by
  cases h with
  | boot _ _ hl => exact hl
  | nothing t _ _ _ hhead hw => exact .inl ⟨hhead, hw⟩
  | install t _ _ hhead hcom _ _ => exact .inr ⟨_, hhead, hcom⟩
  | done _ _ hhead hw => exact .inl ⟨hhead, hw⟩

/-- A crash starts recovery afresh, from what is on the disk. -/
theorem Left.crash (h : Left m.log.toLogArea pre post m.disk) : Recovering pre post m.crash :=
  .boot rfl ⟨fun _ _ h => (by cases h), fun _ _ h => (by cases h)⟩ h

/-- The last write, of `commit` as of recovery, clears the log. -/
theorem clear_spec (hc : Clean m) : ∃ data : Block, data.word 0 = 0 ∧
    (m.setN 0).writeHead.disk = Function.update m.disk m.log.start data ∧
    (m.setN 0).writeHead.log.toLogArea = m.log.toLogArea ∧ Clean (m.setN 0).writeHead := by
  have hc₀ : Clean (m.setN 0) := ⟨hc.clean, hc.dirty⟩
  obtain ⟨data, hdisk, -, hlog, hc'⟩ := writeHead_spec hc₀
  refine ⟨_, ?_, hdisk, by rw [hlog]; rfl, hc'⟩
  exact headBlock_n (Nat.two_pow_pos 32) (by intro i hi; cases hi) data

theorem Whole.clear (hc : Clean m) (hw : Whole m.log.toLogArea pre post m.disk) :
    Recovering pre post ((m.setN 0).writeHead.goto .running) := by
  obtain ⟨data, hzero, hdisk, harea, hc'⟩ := clear_spec hc
  refine .done rfl ⟨hc'.clean, hc'.dirty⟩ ?_ ?_
  · simp only [goto, hdisk, harea, update_self]
    exact hzero
  · simp only [goto, hdisk, harea]
    exact hw.head _

theorem readHead_spec (hc : Clean m) : m.readHead.disk = m.disk ∧
    m.readHead.log.toLogArea = m.log.toLogArea ∧ Clean m.readHead ∧
    m.readHead.log.lh.n = (m.disk m.log.start).word 0 ∧
    ∀ i < (m.disk m.log.start).word 0,
      m.readHead.log.lh.block i = (m.disk m.log.start).word (i + 1) := by
  have hs := bread_same m m.log.start
  have hdata : (m.bread m.log.start).1 = m.disk m.log.start := by
    rw [bread_content, hc.content id]
  refine ⟨hs.disk, ?_, ⟨(hs.cached _ hc).clean, (hs.cached _ hc).dirty⟩, ?_, ?_⟩
  · simp only [readHead, hs.log]
  · simp only [readHead, hdata]
  · intro i hi
    simp only [readHead, hdata, if_pos hi]

theorem Recovering.advance (h : Recovering pre post m) (ha : m.advance = some m') :
    Recovering pre post m' := by
  cases h with
  | boot hpc hc hl =>
    simp only [Machine.advance, hpc] at ha
    cases ha
    obtain ⟨hdisk, harea, hc', hn, hblock⟩ := readHead_spec hc
    rcases hl with ⟨hhead, hw⟩ | ⟨lh, hhead, hcom⟩
    · refine .nothing 0 rfl ⟨hc'.clean, hc'.dirty⟩ (hn.trans hhead) ?_ ?_
      · simp only [goto, hdisk, harea]
        exact hhead
      · simp only [goto, hdisk, harea]
        exact hw
    · rw [hhead.n] at hn hblock
      refine .install 0 rfl ⟨hc'.clean, hc'.dirty⟩ ?_ ?_ (Nat.zero_le _) ?_
      · simp only [goto, hdisk, harea]
        refine ⟨hhead.n.trans hn.symm, ?_⟩
        intro i hi
        exact (hblock i (hn ▸ hi)).symm
      · simp only [goto, hdisk, harea]
        refine hcom.congr hn ?_
        intro i hi
        rw [hblock i hi, hhead.block i hi]
      · intro i hi
        cases hi
  | nothing t hpc hc hn hhead hw =>
    simp only [Machine.advance, hpc, hn, Nat.not_lt_zero, if_false] at ha
    cases ha
    exact hw.clear hc
  | install t hpc hc hhead hcom ht hdone =>
    simp only [Machine.advance, hpc] at ha
    split at ha
    · next hlt =>
      cases ha
      obtain ⟨hdisk, -, hlog, hc'⟩ := copyBlock_spec hc (m.log.start + t + 1) (m.log.lh.block t)
      rw [hc.content id, hcom.copies t hlt] at hdisk
      refine .install (t + 1) rfl ⟨hc'.clean, fun b buf hb hd => (hc'.dirty b buf hb hd).1⟩
        ?_ ?_ ?_ ?_
      · simp only [goto, hdisk, hlog]
        exact hhead.update (home_ne_start (hcom.targets t hlt)) _
      · simp only [goto, hdisk, hlog]
        exact hcom.install hlt
      · simp only [goto, hlog]
        exact hlt
      · simp only [goto, hdisk, hlog]
        exact installed hdone
    · next hge =>
      cases ha
      exact Whole.clear hc (.inr (hcom.new fun i hi => hdone i (by omega)))
  | done hpc _ _ _ =>
    simp only [Machine.advance, hpc] at ha
    cases ha

end Recovery

/-! ## The transaction -/

section Transaction

variable {m m' : Machine} {pre post : Nat → Block}

/-- Block `b` is in the header, from place `t` on. -/
def listed (lh : LogHeader) (t b : Nat) : Prop := ∃ i, t ≤ i ∧ i < lh.n ∧ lh.block i = b

/-- The buffers hold the new contents, and the header has every home block
that is not as it was; only those from place `t` on are dirty. -/
structure Buffered (pre post : Nat → Block) (t : Nat) (m : Machine) : Prop where
  cached : Cached (listed m.log.lh t) m
  view : ∀ b, m.log.home b → m.content b = post b
  targets : ∀ i < m.log.lh.n, m.log.home (m.log.lh.block i) ∧ m.log.lh.block i < 2 ^ 32
  room : m.log.lh.n < m.log.size
  small : m.log.lh.n ≤ LOGSIZE
  rest : ∀ b, m.log.home b → (∀ i < m.log.lh.n, m.log.lh.block i ≠ b) → pre b = post b

/-- The disk as the transaction found it. -/
structure Old (pre : Nat → Block) (m : Machine) : Prop where
  head : (m.disk m.log.start).word 0 = 0
  home : ∀ b, m.log.home b → m.disk b = pre b

/-- The transaction, with its system calls running or its `commit` on the way. -/
inductive Committing (pre post : Nat → Block) (m : Machine) : Prop where
  | opened : m.pc = .running → Buffered pre post 0 m → Old pre m → Committing pre post m
  | logging (t : Nat) : m.pc = .writeLog t → Buffered pre post 0 m → Old pre m →
      t ≤ m.log.lh.n → (∀ i < t, m.disk (m.log.start + i + 1) = post (m.log.lh.block i)) →
      Committing pre post m
  | installing (t : Nat) : m.pc = .install t → Buffered pre post t m →
      HeadIs m.log.toLogArea m.log.lh m.disk →
      Committed m.log.toLogArea post m.log.lh m.disk → t ≤ m.log.lh.n →
      (∀ i < t, m.disk (m.log.lh.block i) = post (m.log.lh.block i)) → Committing pre post m
  | finished : m.pc = .finish ∨ m.pc = .running → Clean m →
      (m.disk m.log.start).word 0 = 0 → (∀ b, m.log.home b → m.disk b = post b) →
      Committing pre post m

theorem Committing.left (h : Committing pre post m) : Left m.log.toLogArea pre post m.disk := by
  cases h with
  | opened _ _ hold => exact .inl ⟨hold.head, .inl hold.home⟩
  | logging t _ _ hold _ _ => exact .inl ⟨hold.head, .inl hold.home⟩
  | installing t _ _ hhead hcom _ _ => exact .inr ⟨_, hhead, hcom⟩
  | finished _ _ hhead hpost => exact .inl ⟨hhead, .inr hpost⟩

theorem Buffered.same {t : Nat} (h : Buffered pre post t m) (hs : SameView m m') :
    Buffered pre post t m' := by
  obtain ⟨_, hcontent, hlog, _, hcached⟩ := hs
  refine ⟨?_, ?_, ?_, ?_, ?_, ?_⟩
  · rw [hlog]; exact hcached _ h.cached
  · rw [hlog, hcontent]; exact h.view
  · rw [hlog]; exact h.targets
  · rw [hlog]; exact h.room
  · rw [hlog]; exact h.small
  · rw [hlog]; exact h.rest

theorem Old.same (h : Old pre m) (hs : SameView m m') : Old pre m' :=
  ⟨by rw [hs.log, hs.disk]; exact h.head, by rw [hs.log, hs.disk]; exact h.home⟩

theorem Committing.same (h : Committing pre post m) (hs : SameView m m') :
    Committing pre post m' := by
  obtain ⟨hdisk, _, hlog, hpc', hcached⟩ := id hs
  cases h with
  | opened hpc hbuf hold => exact .opened (hpc'.trans hpc) (hbuf.same hs) (hold.same hs)
  | logging t hpc hbuf hold ht hcopy =>
    exact .logging t (hpc'.trans hpc) (hbuf.same hs) (hold.same hs) (by rwa [hlog])
      (by rwa [hlog, hdisk])
  | installing t hpc hbuf hhead hcom ht hdone =>
    exact .installing t (hpc'.trans hpc) (hbuf.same hs) (by rwa [hlog, hdisk])
      (by rwa [hlog, hdisk]) (by rwa [hlog]) (by rwa [hlog, hdisk])
  | finished hpc hc hhead hpost =>
    exact .finished (by rwa [hpc']) (hcached _ hc) (by rwa [hlog, hdisk]) (by rwa [hlog, hdisk])

theorem Buffered.logContent {t i : Nat} (h : Buffered pre post t m) (hi : i < m.log.size) :
    m.content (m.log.start + i) = m.disk (m.log.start + i) := by
  refine h.cached.content ?_
  rintro ⟨j, _, hj, hb⟩
  exact not_home hi (hb ▸ (h.targets j hj).1)

theorem Committing.log {t : Nat} (hbuf : Buffered pre post 0 m) (hold : Old pre m)
    (ht : t < m.log.lh.n)
    (hcopy : ∀ i < t, m.disk (m.log.start + i + 1) = post (m.log.lh.block i)) :
    Committing pre post ((m.copyBlock (m.log.lh.block t) (m.log.start + t + 1)).goto
      (.writeLog (t + 1))) := by
  have hroom := hbuf.room
  obtain ⟨hdisk, hcontent, hlog, hc⟩ :=
    copyBlock_spec hbuf.cached (m.log.lh.block t) (m.log.start + t + 1)
  rw [hbuf.view _ (hbuf.targets t ht).1] at hdisk hcontent
  have hne : ∀ b, m.log.home b → b ≠ m.log.start + t + 1 := by
    rintro b hb rfl
    exact not_home (show t + 1 < m.log.size by omega) hb
  refine .logging (t + 1) rfl ?_ ?_ ?_ ?_
  · refine ⟨?_, ?_, ?_, ?_, ?_, ?_⟩ <;> simp only [goto, hlog]
    · exact ⟨hc.clean, fun b buf hb hd => (hc.dirty b buf hb hd).1⟩
    · intro b hb
      show (m.copyBlock _ _).content b = _
      rw [hcontent, update_of_ne (hne b hb)]
      exact hbuf.view b hb
    · exact hbuf.targets
    · exact hbuf.room
    · exact hbuf.small
    · exact hbuf.rest
  · refine ⟨?_, ?_⟩ <;> simp only [goto, hlog, hdisk]
    · rw [update_of_ne (by omega)]
      exact hold.head
    · intro b hb
      rw [update_of_ne (hne b hb)]
      exact hold.home b hb
  · simp only [goto, hlog]
    exact ht
  · intro i hi
    simp only [goto, hlog, hdisk]
    rcases Nat.lt_or_eq_of_le (Nat.lt_succ_iff.mp hi) with hlt | rfl
    · rw [update_of_ne (by omega)]
      exact hcopy i hlt
    · rw [update_self]

theorem Committing.head (hbuf : Buffered pre post 0 m) (hold : Old pre m)
    (hcopy : ∀ i < m.log.lh.n, m.disk (m.log.start + i + 1) = post (m.log.lh.block i)) :
    Committing pre post (m.writeHead.goto (.install 0)) := by
  obtain ⟨data, hdisk, hcontent, hlog, hc⟩ := writeHead_spec hbuf.cached
  have hblock : ∀ i < m.log.lh.n, m.log.lh.block i < 2 ^ 32 := fun i hi => (hbuf.targets i hi).2
  have hn : m.log.lh.n < 2 ^ 32 := Nat.lt_of_le_of_lt hbuf.small (by decide)
  refine .installing 0 rfl ?_ ?_ ?_ (Nat.zero_le _) (by intro i hi; cases hi)
  · refine ⟨?_, ?_, ?_, ?_, ?_, ?_⟩ <;> simp only [goto, hlog]
    · exact ⟨hc.clean, hc.dirty⟩
    · intro b hb
      show m.writeHead.content b = _
      rw [hcontent, update_of_ne (home_ne_start hb)]
      exact hbuf.view b hb
    · exact hbuf.targets
    · exact hbuf.room
    · exact hbuf.small
    · exact hbuf.rest
  · refine ⟨?_, ?_⟩ <;> simp only [goto, hlog, hdisk, update_self]
    · exact headBlock_n hn hblock data
    · intro i hi
      exact headBlock_block hblock data hi
  · refine ⟨?_, ?_, ?_, ?_⟩ <;> simp only [goto, hlog, hdisk]
    · exact hbuf.room
    · exact fun i hi => (hbuf.targets i hi).1
    · intro i hi
      rw [update_of_ne (by omega)]
      exact hcopy i hi
    · intro b hb hout
      rw [update_of_ne (home_ne_start hb), hold.home b hb]
      exact hbuf.rest b hb hout

theorem Committing.install {t : Nat} (hbuf : Buffered pre post t m)
    (hhead : HeadIs m.log.toLogArea m.log.lh m.disk)
    (hcom : Committed m.log.toLogArea post m.log.lh m.disk) (ht : t < m.log.lh.n)
    (hdone : ∀ i < t, m.disk (m.log.lh.block i) = post (m.log.lh.block i)) :
    Committing pre post ((m.copyBlock (m.log.start + t + 1) (m.log.lh.block t)).goto
      (.install (t + 1))) := by
  have hroom := hbuf.room
  have hhome := (hbuf.targets t ht).1
  obtain ⟨hdisk, hcontent, hlog, hc⟩ :=
    copyBlock_spec hbuf.cached (m.log.start + t + 1) (m.log.lh.block t)
  rw [Nat.add_assoc, hbuf.logContent (show t + 1 < m.log.size by omega), ← Nat.add_assoc,
    hcom.copies t ht] at hdisk hcontent
  refine .installing (t + 1) rfl ?_ ?_ ?_ ?_ ?_
  · refine ⟨?_, ?_, ?_, ?_, ?_, ?_⟩ <;> simp only [goto, hlog]
    · refine ⟨hc.clean, ?_⟩
      intro b buf hb hd
      obtain ⟨⟨i, hti, hi, hib⟩, hne⟩ := hc.dirty b buf hb hd
      refine ⟨i, Nat.lt_of_le_of_ne hti ?_, hi, hib⟩
      rintro rfl
      exact hne hib.symm
    · intro b hb
      show (m.copyBlock _ _).content b = _
      rw [hcontent]
      rcases eq_or_ne b (m.log.lh.block t) with rfl | hne
      · rw [update_self]
      · rw [update_of_ne hne]
        exact hbuf.view b hb
    · exact hbuf.targets
    · exact hbuf.room
    · exact hbuf.small
    · exact hbuf.rest
  · simp only [goto, hlog, hdisk]
    exact hhead.update (home_ne_start hhome) _
  · simp only [goto, hlog, hdisk]
    exact hcom.install ht
  · simp only [goto, hlog]
    exact ht
  · simp only [goto, hlog, hdisk]
    exact installed hdone

theorem Committing.advance (h : Committing pre post m) (ha : m.advance = some m') :
    Committing pre post m' := by
  cases h with
  | opened hpc _ _ =>
    simp only [Machine.advance, hpc] at ha
    cases ha
  | logging t hpc hbuf hold ht hcopy =>
    simp only [Machine.advance, hpc] at ha
    split at ha
    · next hlt =>
      cases ha
      exact .log hbuf hold hlt hcopy
    · next hge =>
      cases ha
      exact .head hbuf hold fun i hi => hcopy i (by omega)
  | installing t hpc hbuf hhead hcom ht hdone =>
    simp only [Machine.advance, hpc] at ha
    split at ha
    · next hlt =>
      cases ha
      exact .install hbuf hhead hcom hlt hdone
    · next hge =>
      cases ha
      have hc : Clean m := hbuf.cached.mono (by rintro b ⟨i, hti, hi, -⟩; omega)
      obtain ⟨data, hzero, hdisk, harea, hc'⟩ := clear_spec hc
      refine .finished (.inl rfl) ⟨hc'.clean, hc'.dirty⟩ ?_ ?_
      · simp only [goto, hdisk, harea, update_self]
        exact hzero
      · intro b
        simp only [goto, hdisk, harea]
        intro hb
        rw [update_of_ne (home_ne_start hb)]
        exact hcom.new (fun i hi => hdone i (by omega)) b hb
  | finished hpc hc hhead hpost =>
    rcases hpc with hpc | hpc
    · simp only [Machine.advance, hpc] at ha
      cases ha
      exact .finished (.inr rfl) ⟨hc.clean, hc.dirty⟩ hhead hpost
    · simp only [Machine.advance, hpc] at ha
      cases ha

end Transaction

/-! ## Runs -/

/-- What the system calls do, and what can happen beside them. -/
def Action.isCall : Action → Prop
  | .advance | .crash => False
  | _ => True

/-- What the log does, and what can happen beside it. -/
def Action.isLog : Action → Prop
  | .beginOp | .endOp | .write _ _ => False
  | _ => True

/-- The blocks after the writes of a run. -/
def written : List Action → (Nat → Block) → Nat → Block
  | [], w => w
  | .write b data :: as, w => written as (Function.update w b data)
  | _ :: as, w => written as w

structure Quiet (m : Machine) : Prop where
  pc : m.pc = .running
  empty : m.log.lh.n = 0
  clean : Clean m
  head : (m.disk m.log.start).word 0 = 0

section Runs

variable {m m' : Machine} {pre post : Nat → Block}

/-- While the system calls run, and when the last has ended. -/
inductive Calls (pre post : Nat → Block) (m : Machine) : Prop where
  | opened : m.pc = .running → Buffered pre post 0 m → Old pre m → Calls pre post m
  | closed : m.pc ≠ .running → m.log.outstanding = 0 → Committing pre post m → Calls pre post m

theorem Calls.committing (h : Calls pre post m) : Committing pre post m := by
  cases h with
  | opened hpc hbuf hold => exact .opened hpc hbuf hold
  | closed _ _ h => exact h

theorem Calls.same (h : Calls pre post m) (hs : SameView m m') : Calls pre post m' := by
  cases h with
  | opened hpc hbuf hold => exact .opened (hs.pc.trans hpc) (hbuf.same hs) (hold.same hs)
  | closed hpc hout h => exact .closed (by rwa [hs.pc]) (by rwa [hs.log]) (h.same hs)

/-- What the header and the disk say does not depend on the other fields. -/
theorem Buffered.relog {t : Nat} (h : Buffered pre post t m) {l : Log} (pc : Pc)
    (harea : l.toLogArea = m.log.toLogArea) (hlh : l.lh = m.log.lh) :
    Buffered pre post t { m with log := l, pc := pc } := by
  refine ⟨?_, ?_, ?_, ?_, ?_, ?_⟩ <;> simp only [hlh, harea]
  · exact ⟨h.cached.clean, h.cached.dirty⟩
  · exact h.view
  · exact h.targets
  · exact h.room
  · exact h.small
  · exact h.rest

theorem Old.relog (h : Old pre m) {l : Log} (pc : Pc) (harea : l.toLogArea = m.log.toLogArea) :
    Old pre { m with log := l, pc := pc } :=
  ⟨by simp only [harea]; exact h.head, by simp only [harea]; exact h.home⟩

theorem Calls.write (hbuf : Buffered pre post 0 m) (hold : Old pre m) (hpc : m.pc = .running)
    {b : Nat} (hb : m.log.home b) (hlt : b < 2 ^ 32) (data : Block)
    (hroom : m.log.lh.n + 1 < m.log.size) (hsmall : m.log.lh.n < LOGSIZE) :
    Calls pre (Function.update post b data) { m with
      log := m.log.record b
      cache := Function.update m.cache b (some ⟨data, true⟩) } := by
  obtain ⟨hkeep, hnew, hin, hle, hle'⟩ := m.log.record_spec b
  refine .opened hpc ⟨⟨?_, ?_⟩, ?_, ?_, ?_, ?_, ?_⟩ ⟨hold.head, hold.home⟩
  · intro b' buf hbuf' hd
    simp only at hbuf'
    rcases eq_or_ne b' b with rfl | hne
    · rw [update_self] at hbuf'
      cases hbuf'
      cases hd
    · rw [update_of_ne hne] at hbuf'
      exact hbuf.cached.clean b' buf hbuf' hd
  · intro b' buf hbuf' hd
    simp only at hbuf'
    rcases eq_or_ne b' b with rfl | hne
    · obtain ⟨i, hi, hib⟩ := hin
      exact ⟨i, Nat.zero_le _, hi, hib⟩
    · rw [update_of_ne hne] at hbuf'
      obtain ⟨i, h0, hi, hib⟩ := hbuf.cached.dirty b' buf hbuf' hd
      exact ⟨i, h0, Nat.lt_of_lt_of_le hi hle, (hkeep i hi).trans hib⟩
  · intro b' hb'
    have hview := hbuf.view b' hb'
    simp only [content] at hview ⊢
    rcases eq_or_ne b' b with rfl | hne
    · rw [update_self, update_self]
    · rw [update_of_ne hne, update_of_ne hne]
      exact hview
  · intro i hi
    rcases hnew i hi with he | hi'
    · simp only [he]
      exact ⟨hb, hlt⟩
    · simp only [hkeep i hi']
      exact hbuf.targets i hi'
  · show (m.log.record b).lh.n < m.log.size
    omega
  · show (m.log.record b).lh.n ≤ LOGSIZE
    omega
  · intro b' hb' hout
    have hne : b' ≠ b := by
      rintro rfl
      obtain ⟨i, hi, hib⟩ := hin
      exact hout i hi hib
    rw [update_of_ne hne]
    refine hbuf.rest b' hb' ?_
    intro i hi
    rw [← hkeep i hi]
    exact hout i (Nat.lt_of_lt_of_le hi hle)

theorem Committing.cached (h : Committing pre post m) : ∃ ok, Cached ok m := by
  cases h with
  | opened _ hbuf _ => exact ⟨_, hbuf.cached⟩
  | logging _ _ hbuf _ _ _ => exact ⟨_, hbuf.cached⟩
  | installing _ _ hbuf _ _ _ _ => exact ⟨_, hbuf.cached⟩
  | finished _ hc _ _ => exact ⟨_, hc⟩

/-- The last `end_op` starts `commit`, unless nothing has been written. -/
theorem Calls.commit (hbuf : Buffered pre post 0 m) (hold : Old pre m) {l : Log}
    (harea : l.toLogArea = m.log.toLogArea) (hlh : l.lh = m.log.lh) (hout : l.outstanding = 0) :
    Calls pre post { m with log := l, pc := if 0 < l.lh.n then .writeLog 0 else .finish } := by
  refine .closed ?_ hout ?_
  · simp only
    split <;> simp
  · split
    · exact .logging 0 rfl (hbuf.relog _ harea hlh) (hold.relog _ harea) (Nat.zero_le _)
        (by intro i hi; cases hi)
    · next hn =>
      rw [hlh] at hn
      refine .finished (.inl rfl) ?_ (hold.relog .finish harea).head ?_
      · have hc : Clean m := hbuf.cached.mono (by rintro b ⟨i, -, hi, -⟩; omega)
        exact ⟨hc.clean, hc.dirty⟩
      · intro b
        simp only [harea]
        intro hb
        rw [hold.home b hb]
        exact hbuf.rest b hb fun i hi => absurd hi (by omega)

theorem Calls.step {a : Action} (h : Calls pre post m) (ha : a.isCall)
    (hw : ∀ b data, a = .write b data → m.log.home b ∧ b < 2 ^ 32)
    (hs : step m a = some m') : Calls pre (written [a] post) m' := by
  cases a with
  | advance => exact absurd ha id
  | crash => exact absurd ha id
  | bread b =>
    cases hs
    exact h.same (bread_same m b)
  | evict b =>
    obtain ⟨ok, hc⟩ := h.committing.cached
    exact h.same (evict_same hs hc)
  | write b data =>
    obtain ⟨hb, hlt⟩ := hw b data rfl
    simp only [Crash.step] at hs
    split at hs
    · cases hs
    · next hcheck =>
      cases hs
      simp only [Log.check] at hcheck
      split at hcheck
      · cases hcheck
      · next hsmall =>
        split at hcheck
        · cases hcheck
        · next hout =>
          cases h with
          | opened hpc hbuf hold =>
            exact .write hbuf hold hpc hb hlt data (by omega) (by omega)
          | closed _ hzero _ => omega
  | beginOp =>
    simp only [Crash.step] at hs
    split at hs
    · next hpc =>
      obtain ⟨l, hl, rfl⟩ := Option.map_eq_some_iff.mp hs
      simp only [Log.beginOp] at hl
      split at hl
      · cases hl
      · split at hl
        · cases hl
        · cases hl
          cases h with
          | opened _ hbuf hold => exact .opened hpc (hbuf.relog m.pc rfl rfl) (hold.relog m.pc rfl)
          | closed hne _ _ => exact absurd hpc hne
    · cases hs
  | endOp =>
    simp only [Crash.step] at hs
    split at hs
    · next hpc =>
      cases h with
      | closed hne _ _ => exact absurd hpc hne
      | opened _ hbuf hold =>
        split at hs
        · cases hs
        · next l hend =>
          cases hs
          obtain ⟨harea, hlh, -⟩ := Log.endOp_spec hend
          exact .opened hpc (hbuf.relog m.pc harea hlh) (hold.relog m.pc harea)
        · next l hend =>
          cases hs
          obtain ⟨harea, hlh, hout⟩ := Log.endOp_spec hend
          exact .commit hbuf hold harea hlh (hout rfl)
    · cases hs

theorem written_append (as bs : List Action) (w : Nat → Block) :
    written (as ++ bs) w = written bs (written as w) := by
  induction as generalizing w with
  | nil => rfl
  | cons a as ih => cases a <;> exact ih _

theorem copyBlock_log (m : Machine) (src dst : Nat) : (m.copyBlock src dst).log = m.log :=
  (bread_same _ dst).log.trans (bread_same m src).log

theorem writeHead_log (m : Machine) : m.writeHead.log = m.log := (bread_same m _).log

theorem step_area {a : Action} (hs : step m a = some m') : m'.log.toLogArea = m.log.toLogArea := by
  cases a with
  | beginOp =>
    simp only [step] at hs
    split at hs
    · obtain ⟨l, hl, rfl⟩ := Option.map_eq_some_iff.mp hs
      simp only [Log.beginOp] at hl
      split at hl
      · cases hl
      · split at hl <;> cases hl
        rfl
    · cases hs
  | endOp =>
    simp only [step] at hs
    split at hs
    · split at hs
      · cases hs
      · next hend =>
        cases hs
        exact (Log.endOp_spec hend).1
      · next hend =>
        cases hs
        exact (Log.endOp_spec hend).1
    · cases hs
  | write b data =>
    simp only [step] at hs
    split at hs <;> cases hs
    rfl
  | bread b =>
    cases hs
    rw [(bread_same m b).log]
  | evict b =>
    simp only [step] at hs
    split at hs <;> cases hs
    rfl
  | advance =>
    simp only [step, Machine.advance] at hs
    split at hs
    · cases hs
    · split at hs <;> cases hs <;> simp only [goto, copyBlock_log, writeHead_log]
    · split at hs <;> cases hs <;> simp only [goto, copyBlock_log, writeHead_log, setN]
    · cases hs
      rfl
    · cases hs
      simp only [goto, readHead, (bread_same m _).log]
    · split at hs <;> cases hs <;> simp only [goto, copyBlock_log, writeHead_log, setN]
  | crash =>
    cases hs
    rfl

theorem run_area {as : List Action} (hr : run m as = some m') :
    m'.log.toLogArea = m.log.toLogArea := by
  induction as generalizing m with
  | nil =>
    cases hr
    rfl
  | cons a as ih =>
    obtain ⟨m₁, hs, hr⟩ := Option.bind_eq_some_iff.mp hr
    exact (ih hr).trans (step_area hs)

theorem Calls.run {as : List Action} (h : Calls pre post m) (ha : ∀ a ∈ as, a.isCall)
    (hw : ∀ b data, .write b data ∈ as → m.log.home b ∧ b < 2 ^ 32)
    (hr : run m as = some m') : Calls pre (written as post) m' := by
  induction as generalizing m post with
  | nil =>
    cases hr
    exact h
  | cons a as ih =>
    obtain ⟨m₁, hs, hr⟩ := Option.bind_eq_some_iff.mp hr
    have h₁ := h.step (ha a (.head as)) (fun b data he => hw b data (he ▸ .head as)) hs
    rw [← List.singleton_append, written_append]
    refine ih h₁ (fun a' ha' => ha a' (.tail a ha')) ?_ hr
    intro b data hb
    rw [step_area hs]
    exact hw b data (.tail a hb)

theorem Committing.step {a : Action} (h : Committing pre post m) (ha : a.isLog) (hc : a ≠ .crash)
    (hs : step m a = some m') : Committing pre post m' := by
  cases a with
  | beginOp => exact absurd ha id
  | endOp => exact absurd ha id
  | write b data => exact absurd ha id
  | bread b =>
    cases hs
    exact h.same (bread_same m b)
  | evict b =>
    obtain ⟨ok, hcached⟩ := h.cached
    exact h.same (evict_same hs hcached)
  | advance => exact h.advance hs
  | crash => exact absurd rfl hc

theorem Recovering.cached (h : Recovering pre post m) : Clean m := by
  cases h with
  | boot _ hc _ => exact hc
  | nothing _ _ hc _ _ _ => exact hc
  | install _ _ hc _ _ _ _ => exact hc
  | done _ hc _ _ => exact hc

theorem Recovering.step {a : Action} (h : Recovering pre post m) (ha : a.isLog)
    (hs : step m a = some m') : Recovering pre post m' := by
  cases a with
  | beginOp => exact absurd ha id
  | endOp => exact absurd ha id
  | write b data => exact absurd ha id
  | bread b =>
    cases hs
    exact h.same (bread_same m b)
  | evict b => exact h.same (evict_same hs h.cached)
  | advance => exact h.advance hs
  | crash =>
    cases hs
    exact h.left.crash

theorem Recovering.run {as : List Action} (h : Recovering pre post m) (ha : ∀ a ∈ as, a.isLog)
    (hr : run m as = some m') : Recovering pre post m' := by
  induction as generalizing m with
  | nil =>
    cases hr
    exact h
  | cons a as ih =>
    obtain ⟨m₁, hs, hr⟩ := Option.bind_eq_some_iff.mp hr
    exact ih (h.step (ha a (.head as)) hs) (fun a' ha' => ha a' (.tail a ha')) hr

/-- Once there has been a crash, recovery is on its way or done. -/
theorem Committing.run {as : List Action} (h : Committing pre post m) (ha : ∀ a ∈ as, a.isLog)
    (hcrash : .crash ∈ as) (hr : run m as = some m') : Recovering pre post m' := by
  induction as generalizing m with
  | nil => cases hcrash
  | cons a as ih =>
    obtain ⟨m₁, hs, hr⟩ := Option.bind_eq_some_iff.mp hr
    have ha' : ∀ a' ∈ as, a'.isLog := fun a' h' => ha a' (.tail a h')
    cases hcrash with
    | head =>
      cases hs
      exact h.left.crash.run ha' hr
    | tail _ hcrash =>
      by_cases hc : a = .crash
      · subst hc
        cases hs
        exact h.left.crash.run ha' hr
      · exact ih (h.step (ha a (.head as)) hc hs) ha' hcrash hr

end Runs

/-- Whatever a transaction writes, and wherever the log or recovery is stopped by a crash, at
the end of recovery the home blocks are all as they were or all as written. -/
theorem crash_atomic {m₀ m₁ m₂ : Machine} {calls log : List Action} (h₀ : Quiet m₀)
    (hcalls : ∀ a ∈ calls, a.isCall)
    (hwrites : ∀ b data, .write b data ∈ calls → m₀.log.home b ∧ b < 2 ^ 32)
    (h₁ : run m₀ calls = some m₁) (hlog : ∀ a ∈ log, a.isLog) (hcrash : .crash ∈ log)
    (h₂ : run m₁ log = some m₂) (hup : m₂.pc = .running) :
    ((∀ b, m₀.log.home b → m₂.disk b = m₀.disk b) ∨
      ∀ b, m₀.log.home b → m₂.disk b = written calls m₀.disk b) ∧
    (m₂.disk m₀.log.start).word 0 = 0 := by
  have hbegin : Calls m₀.disk m₀.disk m₀ := by
    have hnone : ∀ i, ¬ i < m₀.log.lh.n := by
      intro i
      rw [h₀.empty]
      exact Nat.not_lt_zero i
    refine .opened h₀.pc ⟨h₀.clean.mono fun _ => False.elim, ?_, ?_, ?_, ?_, ?_⟩ ⟨h₀.head, ?_⟩
    · exact fun b _ => h₀.clean.content id
    · exact fun i hi => absurd hi (hnone i)
    · rw [h₀.empty]
      exact m₀.log.pos
    · rw [h₀.empty]
      exact Nat.zero_le _
    · exact fun _ _ _ => rfl
    · exact fun _ _ => rfl
  have harea := (run_area h₂).trans (run_area h₁)
  have hrec := (hbegin.run hcalls hwrites h₁).committing.run hlog hcrash h₂
  cases hrec with
  | boot hpc _ _ => rw [hup] at hpc; cases hpc
  | nothing _ hpc _ _ _ _ => rw [hup] at hpc; cases hpc
  | install _ hpc _ _ _ _ _ => rw [hup] at hpc; cases hpc
  | done _ _ hhead hwhole =>
    rw [harea] at hhead hwhole
    exact ⟨hwhole, hhead⟩

/-- A machine with nothing on its disk. -/
def blank : Machine where
  disk := fun _ _ => 0
  cache := fun _ => none
  log := { start := 2, size := 30, pos := LOGSIZE_pos, outstanding := 0, committing := false,
           lh := ⟨0, fun _ => 0⟩ }
  pc := .running

/-- One block is written; a crash comes after the commit point, and another
while recovery has installed the block and not yet cleared the log. -/
theorem blank_atomic : ∃ m₁ m₂, run blank [.beginOp, .write 100 (fun _ => 7), .endOp] = some m₁ ∧
    run m₁ [.advance, .advance, .crash, .advance, .advance, .crash, .advance, .advance, .advance]
      = some m₂ ∧
    ((∀ b, blank.log.home b → m₂.disk b = blank.disk b) ∨ ∀ b, blank.log.home b → m₂.disk b
        = written [.beginOp, .write 100 (fun _ => 7), .endOp] blank.disk b) ∧
    (m₂.disk blank.log.start).word 0 = 0 := by
  have h : ((run blank [.beginOp, .write 100 (fun _ => 7), .endOp]).bind fun m =>
      run m [.advance, .advance, .crash, .advance, .advance, .crash, .advance, .advance,
        .advance]).map Machine.pc = some .running := by decide +kernel
  obtain ⟨m₂, h₂, hup⟩ := Option.map_eq_some_iff.mp h
  obtain ⟨m₁, h₁, h₂⟩ := Option.bind_eq_some_iff.mp h₂
  refine ⟨m₁, m₂, h₁, h₂, crash_atomic ⟨rfl, rfl, ⟨?_, ?_⟩, by decide +kernel⟩ ?_ ?_ h₁ ?_ ?_ h₂ hup⟩
  · intro b buf hb
    cases hb
  · intro b buf hb
    cases hb
  · simp [Action.isCall]
  · intro b data hb
    simp only [List.mem_cons, List.not_mem_nil, or_false, reduceCtorEq, false_or,
      Action.write.injEq] at hb
    rw [hb.1]
    exact ⟨.inr (by decide), by decide⟩
  · simp [Action.isLog]
  · simp

end Xv6Pdx.Crash
