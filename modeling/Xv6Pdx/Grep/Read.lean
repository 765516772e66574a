/-
# `Grep.Read` — `grep` and how its input arrives

`grep` reads into an array of 1024 bytes, prints the lines that match, moves what
follows the last newline to the front, and reads on behind it.  Where a read
brings no newline at all (`p == buf`), it forgets everything it has.  For a file
read in whole blocks that happens only to a line longer than the array; a pipe or
the console returns what is there, and then the beginning of a line is lost.

The input is the list of what the calls of `read` return; a call that could not
return this is `none`.
-/
import Xv6Pdx.Lib.Lines
import Xv6Pdx.Ulib.Memmove
import Xv6Pdx.Grep.Match

namespace Xv6Pdx.Grep

open Lib Bytes
open Function (update update_self update_of_ne)

def BUFSIZE : Nat := 1024

def newline : UInt8 := '\n'.toUInt8

/-! ## The program -/

/-- The string at `p` in the array. -/
def stringAt (buf : Bytes) (p : Nat) : Text := (buf.slice p (BUFSIZE - p)).takeWhile (· ≠ 0)

def strchr (buf : Bytes) (p : Nat) (c : UInt8) : Option Nat :=
  ((stringAt buf p).idxOf? c).map (p + ·)

/-- `while((q = strchr(p, '\n')) != 0)`: what is written, the array and `p`. -/
def lineLoop (pattern : Text) : Nat → Bytes → Nat → Option (Text × Bytes × Nat)
  | 0, _, _ => none
  | fuel + 1, buf, p =>
    match strchr buf p newline with
    | none => some ([], buf, p)
    | some q =>
      let cut := update buf q 0
      if matchText pattern (stringAt cut p) then
        let whole := update cut q newline
        (lineLoop pattern fuel whole (q + 1)).map fun r =>
          (slice whole p (q + 1 - p) ++ r.1, r.2)
      else lineLoop pattern fuel cut (q + 1)

/-- The array when `r` has been read behind the first `m` bytes: `m += n; buf[m] = '\0';` -/
def filled (buf : Bytes) (m : Nat) (r : Text) : Bytes :=
  update (buf.patch m r) (m + r.length) 0

/-- Behind the loop over the lines:
`if(p == buf) m = 0; if(m > 0){ m -= p - buf; memmove(buf, p, m); }` -/
def moveDown (m : Nat) (t : Text × Bytes × Nat) : Text × Bytes × Nat :=
  let m := if t.2.2 = 0 then 0 else m
  if 0 < m then (t.1, Ulib.memmove t.2.1 0 t.2.2 ((m - t.2.2 : Nat) : Int), m - t.2.2)
  else (t.1, t.2.1, m)

/-- One turn of the loop over the reads: what is written, the array and the new `m`. -/
def digest (pattern : Text) (buf : Bytes) (m : Nat) (r : Text) : Option (Text × Bytes × Nat) :=
  (lineLoop pattern BUFSIZE (filled buf m r) 0).map (moveDown (m + r.length))

/-- `while((n = read(fd, buf+m, sizeof(buf)-m-1)) > 0)`. -/
def grepLoop (pattern : Text) : List Text → Bytes → Nat → Option Text
  | [], _, _ => some []
  | r :: reads, buf, m =>
    if 0 < r.length ∧ r.length ≤ BUFSIZE - m - 1 then
      (digest pattern buf m r).bind fun t =>
        (grepLoop pattern reads t.2.1 t.2.2).map (t.1 ++ ·)
    else none

/-- `grep(pattern, fd)`: what is written to file descriptor 1. -/
def grep (pattern : Text) (reads : List Text) (buf : Bytes) : Option Text :=
  grepLoop pattern reads buf 0

/-! ## What it is for -/

/-- The lines that match, each with its newline. -/
def printed (pattern : Text) (ls : List Text) : Text :=
  (ls.filter (matchText pattern)).flatMap (· ++ [newline])

/-- What `grep` still has of the input when it has read `r` last. -/
def kept (carry r : Text) : Text :=
  if newline ∈ r then rest newline (carry ++ r) else []

/-- Each of the reads returns at least one byte and at most what was asked for. -/
def Possible : Text → List Text → Prop
  | _, [] => True
  | carry, r :: reads =>
    0 < r.length ∧ carry.length + r.length < BUFSIZE ∧ Possible (kept carry r) reads

/-- A read without a newline comes behind all reads with one. -/
def Unbroken (reads : List Text) : Prop :=
  reads.Pairwise fun r r' => newline ∈ r' → newline ∈ r

/-! ## The lines in the array -/

theorem stringAt_eq {buf : Bytes} {p : Nat} {d : Text} (hd : buf.slice p d.length = d)
    (hz : (0 : UInt8) ∉ d) (hend : buf (p + d.length) = 0) (hlt : p + d.length < BUFSIZE) :
    stringAt buf p = d := by
  have hsplit : BUFSIZE - p = d.length + (1 + (BUFSIZE - p - d.length - 1)) := by omega
  have hone : buf.slice (p + d.length) 1 = [0] := by simp [slice, hend]
  rw [stringAt, hsplit, slice_add, hd, slice_add, hone, List.takeWhile_append_of_pos]
  · simp
  · intro c hc
    simp only [ne_eq, decide_not, Bool.not_eq_eq_eq_not, Bool.not_true, decide_eq_false_iff_not]
    rintro rfl
    exact hz hc

theorem slice_agree {a b : Bytes} {p n : Nat} (h : ∀ i, i < n → a (p + i) = b (p + i)) :
    slice a p n = slice b p n := by
  refine List.map_congr_left ?_
  intro i hi
  exact h i (List.mem_range.mp hi)

/-- A store beside a stretch of the array does not change it. -/
theorem slice_update {buf : Bytes} {p n q : Nat} (v : UInt8) (h : q < p ∨ p + n ≤ q) :
    slice (update buf q v) p n = slice buf p n :=
  slice_agree fun _ hi => update_of_ne (by omega) _ _

theorem slice_split {buf : Bytes} {p : Nat} {a b : Text}
    (h : buf.slice p (a ++ b).length = a ++ b) :
    buf.slice p a.length = a ∧ buf.slice (p + a.length) b.length = b := by
  rw [List.length_append, slice_add] at h
  exact List.append_inj h (by simp)

theorem idxOf_line {l t : Text} (h : newline ∉ l) :
    (l ++ newline :: t).idxOf? newline = some l.length := by
  induction l with
  | nil => simp [List.idxOf?_cons]
  | cons c l ih =>
    rw [List.mem_cons, not_or] at h
    rw [List.cons_append, List.idxOf?_cons, ih h.2]
    simp [Ne.symm h.1]

theorem printed_cons (pattern l : Text) (ls : List Text) : printed pattern (l :: ls) =
      (if matchText pattern l then l ++ [newline] else []) ++ printed pattern ls := by
  unfold printed
  split
  · next h => rw [List.filter_cons_of_pos h, List.flatMap_cons]
  · next h => rw [List.filter_cons_of_neg h, List.nil_append]

/-- The loop prints the lines of what is in the array and stops behind the last. -/
theorem lineLoop_spec (pattern : Text) (fuel : Nat) {buf : Bytes} {p : Nat} {d : Text}
    (hd : buf.slice p d.length = d) (hz : (0 : UInt8) ∉ d) (hend : buf (p + d.length) = 0)
    (hlt : p + d.length < BUFSIZE) (hfuel : d.length < fuel) :
    ∃ buf', lineLoop pattern fuel buf p =
        some (printed pattern (lines newline d), buf', p + d.length - (rest newline d).length) ∧
      buf'.slice (p + d.length - (rest newline d).length) (rest newline d).length =
        rest newline d := by
  induction fuel generalizing buf p d with
  | zero => omega
  | succ fuel ih =>
    by_cases hm : newline ∈ d
    · obtain ⟨l, t, rfl, hl⟩ := List.eq_append_cons_of_mem hm
      have hq : strchr buf p newline = some (p + l.length) := by
        rw [strchr, stringAt_eq hd hz hend hlt, idxOf_line hl]
        rfl
      obtain ⟨hld, htd⟩ := slice_split hd
      have hlen : (l ++ newline :: t).length = l.length + (1 + t.length) := by simp; omega
      rw [hlen] at hend hlt hfuel
      rw [List.length_cons, Nat.add_comm t.length 1, slice_add] at htd
      obtain ⟨hnl, ht⟩ := List.append_inj (show _ = [newline] ++ t from htd) (by simp)
      have hzl : (0 : UInt8) ∉ l := fun h => hz (List.mem_append_left _ h)
      have hzt : (0 : UInt8) ∉ t :=
        fun h => hz (List.mem_append_right _ (List.mem_cons_of_mem _ h))
      -- The line is a string of its own while its newline is a NUL.
      have hline : stringAt (update buf (p + l.length) 0) p = l := by
        refine stringAt_eq ?_ hzl (update_self _ _ _) (by omega)
        rw [slice_update 0 (by omega)]
        exact hld
      -- Whatever is left of the newline, the loop goes on behind it.
      have hstep : ∀ b : Bytes, (∀ a, a ≠ p + l.length → b a = buf a) →
          ∃ buf', lineLoop pattern fuel b (p + l.length + 1) =
              some (printed pattern (lines newline t), buf',
                p + l.length + 1 + t.length - (rest newline t).length) ∧
            buf'.slice (p + l.length + 1 + t.length - (rest newline t).length)
              (rest newline t).length = rest newline t := by
        intro b hb
        refine ih ?_ hzt ?_ (by omega) (by omega)
        · rw [slice_agree fun i hi => hb _ (by omega)]
          exact ht
        · rw [hb _ (by omega), ← hend]
          congr 1
          omega
      have hfin : p + (l ++ newline :: t).length - (rest newline (l ++ newline :: t)).length =
          p + l.length + 1 + t.length - (rest newline t).length := by
        rw [hlen, rest_line]
        omega
      rw [lineLoop, hq, hfin, lines_line hl, rest_line, printed_cons]
      simp only [hline]
      split
      · next hmatch =>
          have hwhole : slice (update (update buf (p + l.length) 0)
              (p + l.length) newline) p (p + l.length + 1 - p) = l ++ [newline] := by
            have hn : p + l.length + 1 - p = l.length + 1 := by omega
            rw [hn, slice_add, slice_update _ (by omega), slice_update _ (by omega), hld]
            simp [slice]
          obtain ⟨buf', hloop, hrest⟩ := hstep
            (update (update buf (p + l.length) 0) (p + l.length) newline)
            (fun a ha => by rw [update_of_ne ha, update_of_ne ha])
          refine ⟨buf', ?_, hrest⟩
          rw [hloop, hwhole]
          rfl
      · next hmatch =>
          exact hstep (update buf (p + l.length) 0) (fun a ha => update_of_ne ha _ _)
    · have hnone : strchr buf p newline = none := by
        rw [strchr, stringAt_eq hd hz hend hlt, List.idxOf?_eq_none_iff.mpr hm]
        rfl
      rw [lineLoop, hnone, lines_eq_nil_iff.mpr hm, rest_of_not_mem hm, Nat.add_sub_cancel]
      exact ⟨buf, rfl, hd⟩

/-! ## One read, and all of them -/

theorem rest_shorter {d : Text} (h : newline ∈ d) : (rest newline d).length < d.length := by
  have hlen : ((lines newline d).flatMap (· ++ [newline])).length + _ = _ := length_lines_rest d
  cases hl : lines newline d with
  | nil => exact absurd h (lines_eq_nil_iff.mp hl)
  | cons l ls =>
    rw [hl, List.flatMap_cons, List.length_append, List.length_append] at hlen
    simp only [List.length_cons] at hlen
    omega

theorem filled_slice {buf : Bytes} {c r : Text} (hc : buf.slice 0 c.length = c) :
    (filled buf c.length r).slice 0 (c ++ r).length = c ++ r := by
  rw [filled, List.length_append, slice_update _ (by omega), slice_add,
    slice_patch_of_disjoint (by omega), hc, Nat.zero_add, slice_patch]

theorem digest_spec (pattern : Text) {buf : Bytes} {c r : Text} (hc : buf.slice 0 c.length = c)
    (hnl : newline ∉ c) (hz : (0 : UInt8) ∉ c ++ r) (hlt : c.length + r.length < BUFSIZE) :
    ∃ buf', digest pattern buf c.length r =
        some (printed pattern (lines newline (c ++ r)), buf', (kept c r).length) ∧
      buf'.slice 0 (kept c r).length = kept c r := by
  have hlen : (c ++ r).length = c.length + r.length := List.length_append
  obtain ⟨buf', hloop, hrest⟩ := lineLoop_spec pattern BUFSIZE (filled_slice (r := r) hc) hz
    (by rw [hlen, Nat.zero_add]; exact update_self _ _ _) (by omega) (by omega)
  rw [Nat.zero_add] at hloop hrest
  rw [digest, hloop, Option.map_some, ← hlen]
  by_cases hm : newline ∈ r
  · have hshort := rest_shorter (List.mem_append_right c hm)
    have hp : (c ++ r).length - (rest newline (c ++ r)).length ≠ 0 := by omega
    have hleft : (c ++ r).length - ((c ++ r).length - (rest newline (c ++ r)).length) =
        (rest newline (c ++ r)).length := by omega
    have hkept : kept c r = rest newline (c ++ r) := if_pos hm
    -- The rest is moved down, which the user's `memmove` does right.
    have hfront := Ulib.memmove_front buf' ((c ++ r).length - (rest newline (c ++ r)).length)
      (rest newline (c ++ r)).length (by simp only [BUFSIZE] at hlt; omega)
    rw [hrest] at hfront
    rw [hkept]
    refine ⟨_, ?_, hfront⟩
    simp only [moveDown]
    rw [if_neg hp, if_pos (by omega), hleft]
  · have hall : newline ∉ c ++ r := fun h => (List.mem_append.mp h).elim hnl hm
    have hkept : kept c r = [] := if_neg hm
    rw [rest_of_not_mem hall, Nat.sub_self]
    rw [hkept]
    exact ⟨buf', rfl, rfl⟩

/-- What is printed of the reads when `carry` is kept of the ones before. -/
def feed (pattern : Text) : Text → List Text → Text
  | _, [] => []
  | carry, r :: reads =>
    printed pattern (lines newline (carry ++ r)) ++ feed pattern (kept carry r) reads

theorem newline_not_mem_kept (c r : Text) : newline ∉ kept c r := by
  unfold kept
  split
  · exact not_mem_rest _
  · exact List.not_mem_nil

theorem kept_subset {c r : Text} : kept c r ⊆ c ++ r := by
  unfold kept
  split
  · exact rest_subset _
  · exact List.nil_subset _

theorem grepLoop_eq (pattern : Text) {reads : List Text} {buf : Bytes} {c : Text}
    (hp : Possible c reads) (hc : buf.slice 0 c.length = c) (hnl : newline ∉ c)
    (hz : (0 : UInt8) ∉ c ++ reads.flatten) :
    grepLoop pattern reads buf c.length = some (feed pattern c reads) := by
  induction reads generalizing buf c with
  | nil => rfl
  | cons r reads ih =>
    obtain ⟨hpos, hlt, hp⟩ := hp
    rw [List.flatten_cons, ← List.append_assoc] at hz
    obtain ⟨buf', hdigest, hkept⟩ := digest_spec pattern hc hnl
      (fun h => hz (List.mem_append_left _ h)) hlt
    have hnext := ih hp hkept (newline_not_mem_kept c r) fun h =>
      hz ((List.mem_append.mp h).elim (fun h => List.mem_append_left _ (kept_subset h))
        (List.mem_append_right _))
    rw [grepLoop, if_pos ⟨hpos, by omega⟩, hdigest, Option.bind_some, hnext]
    rfl

/-- Reads that return as much as they may make `grep` return. -/
theorem grep_eq (pattern : Text) {reads : List Text} (buf : Bytes) (hp : Possible [] reads)
    (hz : (0 : UInt8) ∉ reads.flatten) : grep pattern reads buf = some (feed pattern [] reads) :=
  grepLoop_eq pattern hp rfl List.not_mem_nil hz

/-! ## Which splittings are harmless -/

theorem printed_append (pattern : Text) (a b : List Text) :
    printed pattern (a ++ b) = printed pattern a ++ printed pattern b := by
  simp [printed]

theorem lines_none {ls : List Text} (h : ∀ r ∈ ls, newline ∉ r) : newline ∉ ls.flatten := by
  intro hm
  obtain ⟨r, hr, hmr⟩ := List.mem_flatten.mp hm
  exact h r hr hmr

theorem lines_kept {c r : Text} (hm : newline ∈ r) (t : Text) :
    lines newline (c ++ r ++ t) = lines newline (c ++ r) ++ lines newline (kept c r ++ t) := by
  rw [lines_append, kept, if_pos hm]

theorem feed_of_unbroken (pattern : Text) {reads : List Text} {c : Text} (hu : Unbroken reads)
    (hnl : newline ∉ c) :
    feed pattern c reads = printed pattern (lines newline (c ++ reads.flatten)) := by
  induction reads generalizing c with
  | nil =>
    rw [List.flatten_nil, List.append_nil, lines_eq_nil_iff.mpr hnl]
    rfl
  | cons r reads ih =>
    obtain ⟨hfirst, hu⟩ := List.pairwise_cons.mp hu
    rw [feed, ih hu (newline_not_mem_kept c r), List.flatten_cons, ← List.append_assoc]
    by_cases hm : newline ∈ r
    · rw [lines_kept hm, printed_append]
    · -- Nothing that follows has a newline either.
      have hlater : newline ∉ reads.flatten :=
        lines_none fun r' hr' hm' => hm (hfirst r' hr' hm')
      have hall : newline ∉ c ++ r ++ reads.flatten := by simp [hnl, hm, hlater]
      have hkept : kept c r = [] := if_neg hm
      rw [hkept, List.nil_append, lines_eq_nil_iff.mpr hall, lines_eq_nil_iff.mpr hlater,
        lines_eq_nil_iff.mpr fun h => hall (List.mem_append_left _ h)]
      rfl

theorem matchText_nil (text : Text) : matchText [] text = true := by
  cases text <;> rfl

/-- The pattern that matches everything prints all lines. -/
theorem length_printed_nil (d : Text) :
    (printed [] (lines newline d)).length + (rest newline d).length = d.length := by
  have hfilter : (lines newline d).filter (matchText []) = lines newline d :=
    List.filter_eq_self.mpr fun l _ => matchText_nil l
  rw [printed, hfilter]
  exact length_lines_rest d

theorem feed_nil_length {reads : List Text} {c : Text} (hp : Possible c reads) (hnl : newline ∉ c) :
    (feed [] c reads).length ≤ (printed [] (lines newline (c ++ reads.flatten))).length ∧
      ((feed [] c reads).length = (printed [] (lines newline (c ++ reads.flatten))).length →
        Unbroken reads) := by
  induction reads generalizing c with
  | nil => exact ⟨Nat.zero_le _, fun _ => List.Pairwise.nil⟩
  | cons r reads ih =>
    obtain ⟨hpos, -, hp⟩ := hp
    obtain ⟨hle, heq⟩ := ih hp (newline_not_mem_kept c r)
    rw [feed, List.flatten_cons, ← List.append_assoc, List.length_append]
    by_cases hm : newline ∈ r
    · rw [lines_kept hm, printed_append, List.length_append]
      refine ⟨by omega, fun h => List.pairwise_cons.mpr ⟨fun _ _ _ => hm, heq (by omega)⟩⟩
    · have hkept : kept c r = [] := if_neg hm
      have hcr : newline ∉ c ++ r := fun h => (List.mem_append.mp h).elim hnl hm
      have hnone : (printed [] (lines newline (c ++ r))).length = 0 := by
        rw [lines_eq_nil_iff.mpr hcr]
        rfl
      rw [hkept, List.nil_append] at hle heq
      rw [hnone, hkept, Nat.zero_add]
      have hwhole := length_printed_nil (c ++ r ++ reads.flatten)
      have hlater := length_printed_nil reads.flatten
      rw [List.length_append, List.length_append] at hwhole
      by_cases hml : newline ∈ reads.flatten
      · -- The line that the bytes of `r` begin is printed without them.
        rw [rest_append_of_mem hml] at hwhole
        exact ⟨by omega, fun h => by omega⟩
      · rw [lines_eq_nil_iff.mpr hml] at hle heq
        have hzero : (feed [] [] reads).length = 0 := Nat.le_zero.mp hle
        refine ⟨by omega, fun _ => List.pairwise_cons.mpr ⟨?_, heq (by rw [hzero]; rfl)⟩⟩
        intro r' hr' hm'
        exact absurd (List.mem_flatten.mpr ⟨r', hr', hm'⟩) hml

/-! ## The result -/

/-- For one way of splitting the input into reads, `grep` prints the lines that match,
whatever the pattern, exactly if no read without a newline comes before one with a newline. -/
theorem grep_prints_lines_iff (reads : List Text) (buf : Bytes) (hp : Possible [] reads)
    (hz : (0 : UInt8) ∉ reads.flatten) :
    (∀ pattern, grep pattern reads buf = some (printed pattern (lines newline reads.flatten))) ↔
      Unbroken reads := by
  constructor
  · intro h
    have hall := (grep_eq [] buf hp hz).symm.trans (h [])
    exact (feed_nil_length hp List.not_mem_nil).2 (congrArg List.length (Option.some.inj hall))
  · intro hu pattern
    rw [grep_eq pattern buf hp hz, feed_of_unbroken pattern hu List.not_mem_nil]
    rfl

/-- Three reads: the second line is split between two, and the last has no newline. -/
theorem grep_joins_line :
    printed [97] (lines newline [98, 10, 99, 97, 10, 100, 10, 97]) = [99, 97, 10] ∧
    grep [97] [[98, 10, 99], [97, 10, 100, 10], [97]] (fun _ => 0) = some [99, 97, 10] := by
  have h := (grep_prints_lines_iff [[98, 10, 99], [97, 10, 100, 10], [97]] (fun _ => 0)
    ⟨by decide, by decide, by decide, by decide, by decide, by decide, trivial⟩ (by decide)).mpr
    (by unfold Unbroken; decide) [97]
  have hp : printed [97] (lines newline [98, 10, 99, 97, 10, 100, 10, 97]) = [99, 97, 10] := by decide
  exact ⟨hp, h.trans (congrArg some hp)⟩

/-- The line `ab`, first `a` and then the rest: `grep a` prints nothing of it. -/
theorem grep_loses_beginning : Possible [] [[97], [98, 10]] ∧
      printed [97] (lines newline [97, 98, 10]) = [97, 98, 10] ∧
      grep [97] [[97, 98, 10]] (fun _ => 0) = some [97, 98, 10] ∧
      grep [97] [[97], [98, 10]] (fun _ => 0) = some [] := by
  exact ⟨⟨by decide, by decide, by decide, by decide, trivial⟩, by decide, by decide +kernel,
    by decide +kernel⟩

end Xv6Pdx.Grep
