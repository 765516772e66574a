/-
# `Syscall.Buffers` — the user bytes that `read` and `write` touch

`sys_read` and `sys_write` check the buffer once, in `argptr`, and then hand its
address down to the loops that copy.  Here these loops run on a state that has
the user's memory, and every byte they load or store is written down in
`touched`.  The console and the pipes answer from outside.

`Sweeps` is what is shown of a loop, whatever other processes do in between: from
a cursor on, it touches one address after the other and none from a bound on.

The length is an `int` in the system call and a `uint` in `readi`.  A negative
one passes `argptr`, and `readi` cuts it down to the rest of the file.
-/
import Xv6Pdx.Syscall.Args

namespace Xv6Pdx.Syscall

open Lib Bytes
open Fs (FsM InodePtr FilePtr toInt toUint CONSOLE maxChunk)
open Ptable (ProcPtr)

/-- The file system, the memory of the process that made the call, and the
addresses of it that the kernel has touched in the call. -/
structure Machine where
  fs : Fs.State
  mem : Bytes
  touched : List Nat

abbrev UserM := Prog Machine String

/-- Code that does not touch the user's memory. -/
def inFs {α : Type} (p : FsM α) : UserM α := p.on Machine.fs fun m s => { m with fs := s }

/-- `memmove(dst, _, m)`, or one `*dst = _`. -/
def store (dst : Nat) (bytes : List UInt8) : UserM Unit :=
  Prog.modify fun m => { m with
    mem := m.mem.patch dst bytes
    touched := m.touched ++ (List.range bytes.length).map (dst + ·) }

/-- `memmove(_, src, n)`, or one `_ = *src`. -/
def load (src n : Nat) : UserM (List UInt8) :=
  Prog.atomic fun m => some (.ok (m.mem.slice src n,
    { m with touched := m.touched ++ (List.range n).map (src + ·) }))

/-! ## The console and pipes -/

/-- The loop of `consoleread` with `n` bytes to go.  What comes from outside is that the process
was killed (0), an EOF (1) or a character. -/
def consoleLoop : Nat → Nat → UserM (Option Nat)
  | 0, _ => pure (some 0)
  | n + 1, dst => do
    let c ← inFs Fs.draw
    if c = 0 then pure none
    else if c = 1 then pure (some 0)
    else do
      store dst [UInt8.ofNat (c - 2)]
      if c - 2 = 10 then pure (some 1)
      else do
        let r ← consoleLoop n (dst + 1)
        pure (r.map (· + 1))

def consoleread (ip : InodePtr) (dst : Nat) (n : Int) : UserM Int := do
  inFs (Fs.iunlock ip)
  let r ← consoleLoop n.toNat dst
  inFs (Fs.ilock ip)
  pure (match r with
    | none => -1
    | some k => k)

def consolewrite (ip : InodePtr) (buf : Nat) (n : Int) : UserM Int := do
  inFs (Fs.iunlock ip)
  let _ ← load buf n.toNat
  inFs (Fs.ilock ip)
  pure n

/-- The copying loop of `piperead` with `k` bytes to go, as long as the pipe has
some: how many it has copied. -/
def copyLoop : Nat → Nat → UserM Nat
  | 0, _ => pure 0
  | k + 1, addr => do
    let c ← inFs Fs.draw
    if c = 0 then pure 0
    else do
      store addr [UInt8.ofNat (c - 1)]
      let r ← copyLoop k (addr + 1)
      pure (r + 1)

/-- `piperead`: -1 if the process is killed while it waits. -/
def piperead (addr : Nat) (n : Int) : UserM Int := do
  let r ← inFs Fs.draw
  if r = 0 then pure (-1)
  else do
    let i ← copyLoop n.toNat addr
    pure i

/-- The loop of `pipewrite` with `k` bytes to go: whether there was room, or
the reader still there, every time. -/
def pipeLoop : Nat → Nat → UserM Bool
  | 0, _ => pure true
  | k + 1, addr => do
    let r ← inFs Fs.draw
    if r = 0 then pure false
    else do
      let _ ← load addr 1
      pipeLoop k (addr + 1)

def pipewrite (addr : Nat) (n : Int) : UserM Int := do
  let all ← pipeLoop n.toNat addr
  pure (if all then n else -1)

/-! ## Files -/

/-- The loop of `readi`: `n` more bytes from `off` on. -/
def readLoop (me : ProcPtr) (ip : InodePtr) : Nat → Nat → Nat → Nat → UserM Unit
  | 0, _, _, _ => pure ()
  | fuel + 1, dst, off, n =>
    if n = 0 then pure ()
    else do
      let b ← inFs (Fs.bmap me ip (off / BSIZE))
      let d ← inFs (Fs.bread b)
      let m := min n (BSIZE - off % BSIZE)
      store dst (d.slice (off % BSIZE) m)
      readLoop me ip fuel (dst + m) (off + m) (n - m)

def readi (me : ProcPtr) (ip : InodePtr) (dst off n : Nat) : UserM Int := do
  let i ← inFs (Fs.getInode ip)
  if i.type = T_DEV then
    if i.major = CONSOLE then consoleread ip dst (toInt n) else pure (-1)
  else if off > i.size ∨ (off + n) % 2 ^ 32 < off then pure (-1)
  else do
    let n := if (off + n) % 2 ^ 32 > i.size then i.size - off else n
    readLoop me ip n dst off n
    pure (toInt n)

def writeLoop (me : ProcPtr) (ip : InodePtr) : Nat → Nat → Nat → Nat → UserM Unit
  | 0, _, _, _ => pure ()
  | fuel + 1, src, off, n =>
    if n = 0 then pure ()
    else do
      let b ← inFs (Fs.bmap me ip (off / BSIZE))
      let m := min n (BSIZE - off % BSIZE)
      let bytes ← load src m
      inFs (Fs.withBlock b fun d => .ok ((), d.patch (off % BSIZE) bytes))
      inFs (Fs.logWrite me b)
      writeLoop me ip fuel (src + m) (off + m) (n - m)

def writei (me : ProcPtr) (ip : InodePtr) (src off n : Nat) : UserM Int := do
  let i ← inFs (Fs.getInode ip)
  if i.type = T_DEV then
    if i.major = CONSOLE then consolewrite ip src (toInt n) else pure (-1)
  else if off > i.size ∨ (off + n) % 2 ^ 32 < off then pure (-1)
  else if (off + n) % 2 ^ 32 > MAXFILE * BSIZE then pure (-1)
  else do
    writeLoop me ip n src off n
    inFs do
      let i ← Fs.getInode ip
      Fs.when (0 < n ∧ off + n > i.size) do
        Fs.setInode ip fun i => { i with size := off + n }
        Fs.iupdate me ip
    pure (toInt n)

def advance (f : FilePtr) (r : Int) : FsM Unit :=
  Fs.when (0 < r) (Fs.setFile f fun ff => { ff with off := (ff.off + r.toNat) % 2 ^ 32 })

def fileread (me : ProcPtr) (f : FilePtr) (addr : Nat) (n : Int) : UserM Int := do
  let ff ← inFs (Fs.getFile f)
  if ff.readable = false then pure (-1)
  else match ff.type with
  | .pipe => piperead addr n
  | .inode => do
    inFs (Fs.ilock ff.ip)
    let now ← inFs (Fs.getFile f)
    let r ← readi me ff.ip addr now.off (toUint n)
    inFs (advance f r)
    inFs (Fs.iunlock ff.ip)
    pure r
  | .none => Prog.fail "fileread"

/-- The loop of `filewrite` from `i` on: where it ends. -/
def writeChunks (me : ProcPtr) (f : FilePtr) (ip : InodePtr) (addr n : Nat) : Nat → Nat → UserM Nat
  | 0, i => pure i
  | fuel + 1, i =>
    if i < n then do
      let n1 := min (n - i) maxChunk
      inFs (Fs.beginOp me)
      inFs (Fs.ilock ip)
      let ff ← inFs (Fs.getFile f)
      let r ← writei me ip (addr + i) ff.off n1
      inFs (advance f r)
      inFs (Fs.iunlock ip)
      inFs (Fs.endOp me)
      if r < 0 then pure i
      else if r ≠ n1 then Prog.fail "short filewrite"
      else writeChunks me f ip addr n fuel (i + n1)
    else pure i

/-- `filewrite(f, addr, n)`: with a negative `n` the loop does not start. -/
def filewrite (me : ProcPtr) (f : FilePtr) (addr : Nat) (n : Int) : UserM Int := do
  let ff ← inFs (Fs.getFile f)
  if ff.writable = false then pure (-1)
  else match ff.type with
  | .pipe => pipewrite addr n
  | .inode => do
    let i ← writeChunks me f ff.ip addr n.toNat n.toNat 0
    pure (if (i : Int) = n then n else -1)
  | .none => Prog.fail "filewrite"

/-- What `sys_read` and `sys_write` have in common: the file, the length and
the buffer are fetched, and the length is the size of the buffer. -/
def withBuffer (me : ProcPtr) (u : User) (call : FilePtr → Nat → Int → UserM Int) : UserM Int :=
  match argint u 0 with
  | none => pure (-1)
  | some fd => do
    let a ← inFs (Fs.argfd me (toInt fd))
    match a, argint u 2 with
    | some (_, f), some n =>
      match argptr u 1 (toInt n) with
      | none => pure (-1)
      | some p => call f p (toInt n)
    | _, _ => pure (-1)

def sysRead (me : ProcPtr) (u : User) : UserM Int := withBuffer me u (fileread me)

def sysWrite (me : ProcPtr) (u : User) : UserM Int := withBuffer me u (filewrite me)

/-! ## What a program touches -/

/-- From `lo` on, the program touches one address after the other, none from
`hi` on, and a result is returned with the cursor such that `Q`. -/
def Sweeps {α : Type} : UserM α → (α → Nat → Prop) → Nat → Nat → Prop
  | .pure a, Q, lo, _ => Q a lo
  | .act f k, Q, lo, hi => ∀ m b m', f m = some (.ok (b, m')) →
      ∃ j, lo + j ≤ hi ∧ m'.touched = m.touched ++ (List.range j).map (lo + ·) ∧
        Sweeps (k b) Q (lo + j) hi

section Sweeps

variable {α β : Type} {Q : α → Nat → Prop} {lo hi : Nat}

@[simp] theorem sweeps_fail (e : String) : Sweeps (Prog.fail e : UserM α) Q lo hi := by
  intro m b m' h
  cases h

theorem sweeps_seq {R : β → Nat → Prop} {g : β → UserM α} : ∀ {p : UserM β} {lo : Nat},
    Sweeps p R lo hi → (∀ b lo', R b lo' → Sweeps (g b) Q lo' hi) →
      Sweeps (p >>= g) Q lo hi := by
  intro p
  induction p with
  | pure b => exact fun hp hg => hg b _ hp
  | act f k ih =>
    intro lo hp hg m b m' hf
    obtain ⟨j, hj, ht, hk⟩ := hp m b m' hf
    exact ⟨j, hj, ht, ih b hk hg⟩

theorem sweeps_mono {Q' : α → Nat → Prop} (hQ : ∀ a lo', Q a lo' → Q' a lo') :
    ∀ {p : UserM α} {lo : Nat}, Sweeps p Q lo hi → Sweeps p Q' lo hi := by
  intro p
  induction p with
  | pure a => exact fun hp => hQ a _ hp
  | act f k ih =>
    intro lo hp m b m' hf
    obtain ⟨j, hj, ht, hk⟩ := hp m b m' hf
    exact ⟨j, hj, ht, ih b hk⟩

theorem sweeps_inFs (hlo : lo ≤ hi) (p : FsM α) (hQ : ∀ a, Q a lo) : Sweeps (inFs p) Q lo hi := by
  induction p with
  | pure a => exact hQ a
  | act f k ih =>
    intro m b m' hf
    obtain ⟨r, _, hr⟩ := Option.map_eq_some_iff.mp hf
    cases r with
    | error e => cases hr
    | ok q =>
      cases hr
      exact ⟨0, hlo, by simp, ih q.1⟩

theorem sweeps_store {Q : Unit → Nat → Prop} {bytes : List UInt8} (h : lo + bytes.length ≤ hi)
    (hQ : Q () (lo + bytes.length)) : Sweeps (store lo bytes) Q lo hi := by
  rintro m ⟨⟩ m' hm
  cases hm
  exact ⟨bytes.length, h, rfl, hQ⟩

theorem sweeps_load {Q : List UInt8 → Nat → Prop} {n : Nat} (h : lo + n ≤ hi)
    (hQ : ∀ bytes, Q bytes (lo + n)) : Sweeps (load lo n) Q lo hi := by
  intro m bytes m' hm
  cases hm
  exact ⟨n, h, rfl, hQ _⟩

/-- The rest of a program after code that does not touch the user's memory. -/
theorem sweeps_inFs_bind (hlo : lo ≤ hi) {p : FsM β} {g : β → UserM α}
    (hg : ∀ b, Sweeps (g b) Q lo hi) : Sweeps (inFs p >>= g) Q lo hi :=
  sweeps_seq (R := fun _ lo' => lo' = lo) (sweeps_inFs hlo p fun _ => rfl)
    (by rintro b _ rfl; exact hg b)

theorem sweeps_run : ∀ {p : UserM α} {lo : Nat} {m m' : Machine} {a : α}, lo ≤ hi →
    Sweeps p Q lo hi → p.run m = some (.ok (a, m')) →
    ∃ j, lo + j ≤ hi ∧ m'.touched = m.touched ++ (List.range j).map (lo + ·) ∧ Q a (lo + j) := by
  intro p
  induction p with
  | pure b =>
    intro lo m m' a hlo hp hr
    cases hr
    exact ⟨0, hlo, by simp, hp⟩
  | act f k ih =>
    intro lo m m' a hlo hp hr
    simp only [Prog.run] at hr
    split at hr
    · cases hr
    · cases hr
    · next b m₁ hf =>
        obtain ⟨j, hj, ht, hk⟩ := hp m b m₁ hf
        obtain ⟨j', hj', ht', hQ⟩ := ih b hj hk hr
        refine ⟨j + j', by omega, ?_, by rwa [← Nat.add_assoc]⟩
        simp [ht', ht, List.range_add, Nat.add_assoc, Function.comp_def]

end Sweeps

/-! ## The loops -/

section Loops

variable {hi : Nat}

/-- A program that touches nothing from `hi` on. -/
abbrev Within {α : Type} (p : UserM α) (lo hi : Nat) : Prop := Sweeps p (fun _ lo' => lo' ≤ hi) lo hi

theorem consoleLoop_within : ∀ {n lo : Nat}, lo + n ≤ hi → Within (consoleLoop n lo) lo hi := by
  intro n
  induction n with
  | zero => exact fun h => h
  | succ n ih =>
    intro lo h
    have hlo : lo ≤ hi := by omega
    refine sweeps_inFs_bind hlo fun c => ?_
    split
    · exact hlo
    split
    · exact hlo
    refine sweeps_seq (R := fun _ lo' => lo' = lo + 1)
      (sweeps_store (show lo + 1 ≤ hi by omega) rfl) ?_
    rintro _ _ rfl
    split
    · exact (show lo + 1 ≤ hi by omega)
    · exact sweeps_seq (ih (by omega)) fun _ _ hle => hle

theorem consoleread_within (ip : InodePtr) {lo : Nat} {n : Int} (h : lo + n.toNat ≤ hi) :
    Within (consoleread ip lo n) lo hi := by
  refine sweeps_inFs_bind (by omega) fun _ => ?_
  refine sweeps_seq (consoleLoop_within h) fun r lo' hlo' => ?_
  exact sweeps_inFs_bind hlo' fun _ => hlo'

theorem copyLoop_within : ∀ {k lo : Nat}, lo + k ≤ hi → Within (copyLoop k lo) lo hi := by
  intro k
  induction k with
  | zero => exact fun h => h
  | succ k ih =>
    intro lo h
    refine sweeps_inFs_bind (by omega) fun c => ?_
    split
    · exact (show lo ≤ hi by omega)
    refine sweeps_seq (R := fun _ lo' => lo' = lo + 1)
      (sweeps_store (show lo + 1 ≤ hi by omega) rfl) ?_
    rintro _ _ rfl
    exact sweeps_seq (ih (by omega)) fun _ _ hle => hle

theorem piperead_within {lo : Nat} {n : Int} (h : lo + n.toNat ≤ hi) :
    Within (piperead lo n) lo hi := by
  have hlo : lo ≤ hi := by omega
  refine sweeps_inFs_bind hlo fun r => ?_
  split
  · exact hlo
  · exact sweeps_seq (copyLoop_within h) fun _ _ hle => hle

theorem pipeLoop_within : ∀ {k lo : Nat}, lo + k ≤ hi → Within (pipeLoop k lo) lo hi := by
  intro k
  induction k with
  | zero => exact fun h => h
  | succ k ih =>
    intro lo h
    refine sweeps_inFs_bind (by omega) fun c => ?_
    split
    · exact (show lo ≤ hi by omega)
    refine sweeps_seq (R := fun _ lo' => lo' = lo + 1)
      (sweeps_load (show lo + 1 ≤ hi by omega) fun _ => rfl) ?_
    rintro _ _ rfl
    exact ih (by omega)

theorem pipewrite_within {lo : Nat} {n : Int} (h : lo + n.toNat ≤ hi) :
    Within (pipewrite lo n) lo hi :=
  sweeps_seq (pipeLoop_within h) fun _ _ hle => hle

theorem consolewrite_within (ip : InodePtr) {lo : Nat} {n : Int} (h : lo + n.toNat ≤ hi) :
    Sweeps (consolewrite ip lo n) (fun r lo' => r = n ∧ lo' = lo + n.toNat) lo hi := by
  refine sweeps_inFs_bind (by omega) fun _ => ?_
  refine sweeps_seq (R := fun _ lo' => lo' = lo + n.toNat) (sweeps_load h fun _ => rfl) ?_
  rintro _ _ rfl
  exact sweeps_inFs_bind h fun _ => ⟨rfl, rfl⟩

theorem readLoop_within (me : ProcPtr) (ip : InodePtr) : ∀ {fuel lo off n : Nat}, n ≤ fuel →
    lo + n ≤ hi → Sweeps (readLoop me ip fuel lo off n) (fun _ lo' => lo' = lo + n) lo hi := by
  intro fuel
  induction fuel with
  | zero =>
    intro lo off n hn h
    rw [Nat.le_zero.mp hn]
    rfl
  | succ fuel ih =>
    intro lo off n hn h
    have hlo : lo ≤ hi := by omega
    rw [readLoop]
    split
    · next h0 =>
        rw [h0]
        rfl
    next h0 =>
    have hpos : 0 < BSIZE - off % BSIZE := by
      have := Nat.mod_lt off (show 0 < BSIZE by decide)
      omega
    have hm : min n (BSIZE - off % BSIZE) ≤ n := Nat.min_le_left _ _
    refine sweeps_inFs_bind hlo fun b => sweeps_inFs_bind hlo fun d => ?_
    refine sweeps_seq (R := fun _ lo' => lo' = lo + min n (BSIZE - off % BSIZE))
      (sweeps_store (by rw [length_slice]; omega) (by rw [length_slice])) ?_
    rintro _ _ rfl
    refine sweeps_mono ?_ (ih (n := n - min n (BSIZE - off % BSIZE)) (by omega) (by omega))
    rintro _ _ rfl
    omega

theorem readi_within (me : ProcPtr) (ip : InodePtr) {lo off n : Nat} (hn : n < 2 ^ 31)
    (h : lo + n ≤ hi) : Within (readi me ip lo off n) lo hi := by
  have hlo : lo ≤ hi := by omega
  refine sweeps_inFs_bind hlo fun i => ?_
  split
  · split
    · exact consoleread_within ip (by rw [toInt_of_lt hn]; simpa using h)
    · exact hlo
  split
  · exact hlo
  · next hoff =>
      have hle : lo + (if (off + n) % 2 ^ 32 > i.size then i.size - off else n) ≤ hi := by
        split <;> omega
      exact sweeps_seq (readLoop_within me ip (Nat.le_refl _) hle) fun _ _ he => he ▸ hle

/-- `writei` loads all of the bytes, or returns -1 and loads none of them. -/
theorem writeLoop_within (me : ProcPtr) (ip : InodePtr) : ∀ {fuel lo off n : Nat}, n ≤ fuel →
    lo + n ≤ hi → Sweeps (writeLoop me ip fuel lo off n) (fun _ lo' => lo' = lo + n) lo hi := by
  intro fuel
  induction fuel with
  | zero =>
    intro lo off n hn h
    rw [Nat.le_zero.mp hn]
    rfl
  | succ fuel ih =>
    intro lo off n hn h
    have hlo : lo ≤ hi := by omega
    rw [writeLoop]
    split
    · next h0 =>
        rw [h0]
        rfl
    next h0 =>
    have hpos : 0 < BSIZE - off % BSIZE := by
      have := Nat.mod_lt off (show 0 < BSIZE by decide)
      omega
    have hm : min n (BSIZE - off % BSIZE) ≤ n := Nat.min_le_left _ _
    have hm' : 0 < min n (BSIZE - off % BSIZE) := by omega
    refine sweeps_inFs_bind hlo fun b => ?_
    refine sweeps_seq (R := fun _ lo' => lo' = lo + min n (BSIZE - off % BSIZE))
      (sweeps_load (by omega) fun _ => rfl) ?_
    rintro bytes _ rfl
    refine sweeps_inFs_bind (by omega) fun _ => sweeps_inFs_bind (by omega) fun _ => ?_
    refine sweeps_mono ?_ (ih (n := n - min n (BSIZE - off % BSIZE)) (by omega) (by omega))
    rintro _ _ rfl
    omega

theorem writei_within (me : ProcPtr) (ip : InodePtr) {lo off n : Nat} (hn : n < 2 ^ 31)
    (h : lo + n ≤ hi) : Sweeps (writei me ip lo off n)
      (fun r lo' => r < 0 ∧ lo' = lo ∨ r = n ∧ lo' = lo + n) lo hi := by
  have hlo : lo ≤ hi := by omega
  refine sweeps_inFs_bind hlo fun i => ?_
  split
  · split
    · rw [toInt_of_lt hn]
      exact sweeps_mono (fun _ _ hr => Or.inr hr) (consolewrite_within ip (by simpa using h))
    · exact Or.inl ⟨by decide, rfl⟩
  split
  · exact Or.inl ⟨by decide, rfl⟩
  split
  · exact Or.inl ⟨by decide, rfl⟩
  refine sweeps_seq (writeLoop_within me ip (Nat.le_refl n) h) ?_
  rintro _ _ rfl
  refine sweeps_inFs_bind h fun _ => ?_
  rw [toInt_of_lt hn]
  exact Or.inr ⟨rfl, rfl⟩

theorem writeChunks_within (me : ProcPtr) (f : FilePtr) (ip : InodePtr) {addr n : Nat}
    (h : addr + n ≤ hi) : ∀ {fuel i : Nat}, i ≤ n →
      Within (writeChunks me f ip addr n fuel i) (addr + i) hi := by
  intro fuel
  induction fuel with
  | zero => exact fun hi' => show _ ≤ hi by omega
  | succ fuel ih =>
    intro i hi'
    have hlo : addr + i ≤ hi := by omega
    rw [writeChunks]
    split
    swap
    · exact hlo
    have hn1 : min (n - i) maxChunk ≤ n - i := Nat.min_le_left _ _
    have hmax : min (n - i) maxChunk < 2 ^ 31 :=
      Nat.lt_of_le_of_lt (Nat.min_le_right _ _) (by decide)
    refine sweeps_inFs_bind hlo fun _ => sweeps_inFs_bind hlo fun _ =>
      sweeps_inFs_bind hlo fun ff => ?_
    refine sweeps_seq (writei_within me ip hmax (by omega)) fun r lo' hr => ?_
    have hlo' : lo' ≤ hi := by omega
    refine sweeps_inFs_bind hlo' fun _ => sweeps_inFs_bind hlo' fun _ =>
      sweeps_inFs_bind hlo' fun _ => ?_
    split
    · exact hlo'
    split
    · exact sweeps_fail _
    -- all of the chunk has been loaded, so the cursor is where the next begins
    · rcases hr with hr | ⟨_, rfl⟩
      · omega
      · have hnext := ih (i := i + min (n - i) maxChunk) (by omega)
        rwa [← Nat.add_assoc] at hnext

theorem fileread_within (me : ProcPtr) (f : FilePtr) {addr : Nat} {n : Int} (h0 : 0 ≤ n)
    (h1 : n < 2 ^ 31) (h : addr + n.toNat ≤ hi) : Within (fileread me f addr n) addr hi := by
  have hlo : addr ≤ hi := by omega
  refine sweeps_inFs_bind hlo fun ff => ?_
  split
  · exact hlo
  split
  · exact piperead_within h
  · refine sweeps_inFs_bind hlo fun _ => sweeps_inFs_bind hlo fun now => ?_
    refine sweeps_seq (readi_within me ff.ip (n := toUint n) ?_ ?_) fun r lo' hlo' => ?_
    · simp only [toUint]
      omega
    · simp only [toUint]
      omega
    · exact sweeps_inFs_bind hlo' fun _ => sweeps_inFs_bind hlo' fun _ => hlo'
  · exact sweeps_fail _

theorem filewrite_within (me : ProcPtr) (f : FilePtr) {addr : Nat} {n : Int}
    (h : addr + n.toNat ≤ hi) : Within (filewrite me f addr n) addr hi := by
  have hlo : addr ≤ hi := by omega
  refine sweeps_inFs_bind hlo fun ff => ?_
  split
  · exact hlo
  split
  · exact pipewrite_within h
  · exact sweeps_seq (writeChunks_within me f ff.ip h (Nat.zero_le _)) fun _ _ hle => hle
  · exact sweeps_fail _

end Loops

/-! ## The calls -/

/-- The call returns -1 and touches nothing, or it touches only bytes of a
buffer of `n` bytes at `p` that lies inside the process, none of them twice. -/
def Confined (u : User) (call : UserM Int) : Prop :=
  Sweeps call (fun r _ => r = -1) 0 0 ∨
    ∃ p w, argint u 1 = some p ∧ argint u 2 = some w ∧ p + (toInt w).toNat ≤ u.sz ∧
      Within call p (p + (toInt w).toNat)

theorem withBuffer_confined {u : User} (hsz : u.sz < KERNBASE) (me : ProcPtr)
    {call : FilePtr → Nat → Int → UserM Int} {A : Int → Prop}
    (hn : ∀ w, argint u 2 = some w → A (toInt w))
    (hcall : ∀ f p n hi, A n → n < 2 ^ 31 → p + n.toNat ≤ hi → Within (call f p n) p hi) :
    Confined u (withBuffer me u call) := by
  rw [withBuffer]
  split
  · exact Or.inl rfl
  next fd _ =>
  cases hlen : argint u 2 with
  | none =>
    refine Or.inl (sweeps_inFs_bind (Nat.le_refl 0) fun a => ?_)
    cases a <;> rfl
  | some w =>
    cases hbuf : argptr u 1 (toInt w) with
    | none =>
      refine Or.inl (sweeps_inFs_bind (Nat.le_refl 0) fun a => ?_)
      cases a with
      | none => rfl
      | some a =>
        simp only [hbuf]
        rfl
    | some p =>
      have h1 := (toInt_range w).2
      have hin : p + (toInt w).toNat ≤ u.sz := by
        rcases Int.lt_or_le (toInt w) 0 with hneg | h0
        · have := (argptr_eq_some hbuf).2.1
          omega
        · exact argptr_inside hsz h0 h1 hbuf
      refine Or.inr ⟨p, w, (argptr_eq_some hbuf).1, hlen, hin, ?_⟩
      refine sweeps_inFs_bind (Nat.le_add_right p _) fun a => ?_
      cases a with
      | none => exact Nat.le_add_right p _
      | some a =>
        simp only [hbuf]
        exact hcall a.2 p _ _ (hn w hlen) h1 (Nat.le_refl _)

theorem sysRead_confined {u : User} (hsz : u.sz < KERNBASE) (me : ProcPtr)
    (hn : ∀ w, argint u 2 = some w → 0 ≤ toInt w) : Confined u (sysRead me u) :=
  withBuffer_confined (A := fun n => 0 ≤ n) hsz me hn
    fun f _ _ _ h0 h1 h => fileread_within me f h0 h1 h

/-! ## Negative lengths -/

theorem inFs_run {α : Type} {p : FsM α} : ∀ {m m' : Machine} {a : α},
    (inFs p).run m = some (.ok (a, m')) →
    p.run m.fs = some (.ok (a, m'.fs)) ∧ m'.touched = m.touched := by
  induction p with
  | pure b =>
    intro m m' a hr
    cases hr
    exact ⟨rfl, rfl⟩
  | act f k ih =>
    intro m m' a hr
    simp only [inFs, Prog.on, Prog.run] at hr ⊢
    rcases hf : f m.fs with _ | _ | ⟨b, s⟩ <;> simp only [hf, Option.map_some, Option.map_none,
      Except.map] at hr ⊢
    · cases hr
    · cases hr
    · exact ih b hr

theorem argfd_run {me : ProcPtr} {fd : Int} {s s' : Fs.State} {a : Option (Fin Fs.NOFILE × FilePtr)}
    (hr : (Fs.argfd me fd).run s = some (.ok (a, s'))) : s' = s := by
  change (if h : 0 ≤ fd ∧ fd.toNat < Fs.NOFILE then _ else _ : FsM _).run s = _ at hr
  split at hr <;> cases hr <;> rfl

theorem run_bind_ok {α β : Type} {p : UserM β} {g : β → UserM α} {m m' : Machine} {a : α}
    (hr : (p >>= g).run m = some (.ok (a, m'))) :
    ∃ b m₁, p.run m = some (.ok (b, m₁)) ∧ (g b).run m₁ = some (.ok (a, m')) := by
  rw [Prog.run_bind] at hr
  split at hr
  · cases hr
  · cases hr
  · next b m₁ hp => exact ⟨b, m₁, hp, hr⟩

/-- What a run of the call has touched. -/
def Keeps (u : User) (m : Machine) (r : Int) (m' : Machine) : Prop :=
  r = -1 ∧ m'.touched = m.touched ∨
    ∃ p w l, argint u 1 = some p ∧ argint u 2 = some w ∧ m'.touched = m.touched ++ l ∧ l.Nodup ∧
      ∀ a ∈ l, p ≤ a ∧ (a : Int) < p + toInt w ∧ a < u.sz

/-- The file is a plain one, with bytes behind the offset, as `ilock` finds it. -/
def Unread (s : Fs.State) (f : FilePtr) (n : Int) : Prop :=
  (s.ftable f).readable = true ∧ (s.ftable f).type = .inode ∧
    ∃ s₁, (Fs.ilock (s.ftable f).ip).run s = some (.ok ((), s₁)) ∧
      (s₁.icache (s.ftable f).ip).type ≠ T_DEV ∧
      (s₁.ftable f).off < (s₁.icache (s.ftable f).ip).size ∧
      (s₁.ftable f).off ≤ ((s₁.ftable f).off + toUint n) % 2 ^ 32

/-- The length is negative but not below `-p`, and the file has bytes to be read. -/
def Spills (me : ProcPtr) (u : User) (s : Fs.State) : Prop :=
  ∃ fd p w a f, argint u 0 = some fd ∧ argint u 1 = some p ∧ argint u 2 = some w ∧
    toInt w < 0 ∧ p < u.sz ∧ 0 ≤ p + toInt w ∧
    (Fs.argfd me (toInt fd)).run s = some (.ok (some (a, f), s)) ∧ Unread s f (toInt w)

theorem Confined.keeps {u : User} {call : UserM Int} (h : Confined u call) {m m' : Machine}
    {r : Int} (hr : call.run m = some (.ok (r, m'))) : Keeps u m r m' := by
  rcases h with h | ⟨p, w, hp, hw, hin, h⟩
  · obtain ⟨j, hj, ht, rfl⟩ := sweeps_run (Nat.le_refl 0) h hr
    obtain rfl : j = 0 := by omega
    exact .inl ⟨rfl, by simpa using ht⟩
  · obtain ⟨j, hj, ht, -⟩ := sweeps_run (Nat.le_add_right p _) h hr
    refine .inr ⟨p, w, _, hp, hw, ht, List.nodup_range.map (add_right_injective p), ?_⟩
    intro a ha
    obtain ⟨i, hi, rfl⟩ := List.mem_map.mp ha
    have hi' := List.mem_range.mp hi
    omega

/-- With a negative length `readi` reads the rest of the file, if it is a plain one. -/
theorem readi_negative {me : ProcPtr} {ip : InodePtr} {lo off : Nat} {n : Int} (hneg : n < 0)
    (hn : -2 ^ 31 ≤ n) {m m' : Machine} {r : Int}
    (hr : (readi me ip lo off (toUint n)).run m = some (.ok (r, m'))) :
    if (m.fs.icache ip).type ≠ T_DEV ∧ off < (m.fs.icache ip).size ∧
        off ≤ (off + toUint n) % 2 ^ 32 then lo ∈ m'.touched.drop m.touched.length
    else m'.touched = m.touched := by
  have hw : 2 ^ 31 ≤ toUint n ∧ toUint n < 2 ^ 32 := by
    simp only [toUint]
    omega
  have hback : (toInt (toUint n)).toNat = 0 := by
    rw [toInt_toUint hn (by omega)]
    omega
  rw [readi] at hr
  obtain ⟨i, m₀, hi, hr⟩ := run_bind_ok hr
  obtain ⟨rfl, rfl⟩ : i = m.fs.icache ip ∧ m₀ = m := by
    cases hi
    exact ⟨rfl, rfl⟩
  generalize m₀.fs.icache ip = i at hr ⊢
  split at hr
  · next ht =>
      rw [if_neg (by simp [ht])]
      split at hr
      · rw [consoleread, hback] at hr
        obtain ⟨_, m₁, h₁, hr⟩ := run_bind_ok hr
        obtain ⟨_, m₂, h₂, hr⟩ := run_bind_ok hr
        cases h₂
        obtain ⟨_, m₃, h₃, hr⟩ := run_bind_ok hr
        cases hr
        rw [(inFs_run h₃).2, (inFs_run h₁).2]
      · cases hr
        rfl
  · next ht =>
      split at hr
      · next hbad =>
          cases hr
          rw [if_neg (by omega)]
      · next hgood =>
          rw [not_or, not_lt, not_lt] at hgood
          obtain ⟨_, m₁, h₁, hr⟩ := run_bind_ok hr
          obtain ⟨-, rfl⟩ := Prod.mk.inj (Except.ok.inj (Option.some.inj hr))
          generalize hlen : (if (off + toUint n) % 2 ^ 32 > i.size then i.size - off
            else toUint n) = len at h₁
          obtain ⟨j, -, htouched, hj⟩ := sweeps_run (Nat.le_add_right lo len)
            (readLoop_within me ip (Nat.le_refl len) (Nat.le_refl _)) h₁
          obtain rfl : j = len := by omega
          split
          · next hin =>
              rw [htouched, List.drop_left]
              refine List.mem_map.mpr ⟨0, List.mem_range.mpr ?_, rfl⟩
              split at hlen <;> omega
          · next hout =>
              have hzero : j = 0 := by
                split at hlen <;> omega
              rw [htouched, hzero]
              simp

/-- With a negative length that `argptr` has accepted, the read keeps to the
buffer, which has no byte, or the file was not read to its end. -/
theorem fileread_negative {u : User} {me : ProcPtr} {f : FilePtr} {p w : Nat}
    (hp : argint u 1 = some p) (hw : argint u 2 = some w) (hneg : toInt w < 0) {m m' : Machine}
    {r : Int} (hr : (fileread me f p (toInt w)).run m = some (.ok (r, m'))) :
    Keeps u m r m' ↔ ¬ Unread m.fs f (toInt w) := by
  have hkeeps : Keeps u m r m' ↔ m'.touched = m.touched := by
    refine ⟨?_, fun h => .inr ⟨p, w, [], hp, hw, by simp [h], List.nodup_nil, by simp⟩⟩
    rintro (h | ⟨p', w', l, -, hw', ht, -, hl⟩)
    · exact h.2
    · rw [hw] at hw'
      cases hw'
      cases l with
      | nil => simpa using ht
      | cons a l =>
        have := hl a List.mem_cons_self
        omega
  rw [hkeeps]
  rw [fileread] at hr
  obtain ⟨ff, m₀, h₀, hr⟩ := run_bind_ok hr
  obtain ⟨rfl, rfl⟩ : ff = m.fs.ftable f ∧ m₀ = m := by
    cases h₀
    exact ⟨rfl, rfl⟩
  split at hr
  · next hread =>
      cases hr
      simp [Unread, hread]
  next hread =>
  have hzero : (toInt w).toNat = 0 := by omega
  split at hr
  · next htype =>
      rw [piperead, hzero] at hr
      obtain ⟨c, m₁, h₁, hr⟩ := run_bind_ok hr
      have hsame : m'.touched = m₁.touched := by
        split at hr <;> cases hr <;> rfl
      simp [Unread, htype, hsame, (inFs_run h₁).2]
  · next htype =>
      obtain ⟨_, m₁, h₁, hr⟩ := run_bind_ok hr
      obtain ⟨now, m₂, h₂, hr⟩ := run_bind_ok hr
      obtain ⟨rfl, rfl⟩ : now = m₁.fs.ftable f ∧ m₂ = m₁ := by
        cases h₂
        exact ⟨rfl, rfl⟩
      obtain ⟨r', m₃, h₃, hr⟩ := run_bind_ok hr
      obtain ⟨_, m₄, h₄, hr⟩ := run_bind_ok hr
      obtain ⟨_, m₅, h₅, hr⟩ := run_bind_ok hr
      obtain ⟨-, rfl⟩ := Prod.mk.inj (Except.ok.inj (Option.some.inj hr))
      rw [(inFs_run h₅).2, (inFs_run h₄).2, ← (inFs_run h₁).2]
      have hreads := readi_negative hneg (toInt_range w).1 h₃
      have hun : Unread m₀.fs f (toInt w) ↔ (m₂.fs.icache (m₀.fs.ftable f).ip).type ≠ T_DEV ∧
          (m₂.fs.ftable f).off < (m₂.fs.icache (m₀.fs.ftable f).ip).size ∧
          (m₂.fs.ftable f).off ≤ ((m₂.fs.ftable f).off + toUint (toInt w)) % 2 ^ 32 := by
        simp only [Unread, (inFs_run h₁).1, htype, Bool.not_eq_false] at hread ⊢
        simp [hread]
      rw [hun]
      split at hreads
      · next h =>
          refine iff_of_false (fun hsame => ?_) (not_not.mpr h)
          rw [hsame, List.drop_length] at hreads
          exact List.not_mem_nil hreads
      · next h => exact iff_of_true hreads h
  · cases hr

theorem sysRead_keeps_iff {u : User} (hsz : u.sz < KERNBASE) {me : ProcPtr} {m m' : Machine}
    {r : Int} (hr : (sysRead me u).run m = some (.ok (r, m'))) :
    Keeps u m r m' ↔ ¬ Spills me u m.fs := by
  by_cases hn : ∀ w, argint u 2 = some w → 0 ≤ toInt w
  · refine iff_of_true ((sysRead_confined hsz me hn).keeps hr) ?_
    rintro ⟨fd, p, w, a, f, -, -, hw, hneg, -⟩
    have := hn w hw
    omega
  push Not at hn
  obtain ⟨w, hw, hneg⟩ := hn
  rw [sysRead, withBuffer] at hr
  cases hfd : argint u 0 with
  | none =>
    rw [hfd] at hr
    cases hr
    exact iff_of_true (.inl ⟨rfl, rfl⟩) (by simp [Spills, hfd])
  | some fd =>
    simp only [hfd, hw] at hr
    obtain ⟨a, m₁, h₁, hr⟩ := run_bind_ok hr
    obtain ⟨hrun, hsame⟩ := inFs_run h₁
    have hfs : m₁.fs = m.fs := argfd_run hrun
    rw [hfs] at hrun
    have hkeeps : Keeps u m r m' ↔ Keeps u m₁ r m' := by simp only [Keeps, hsame]
    rw [hkeeps, ← hfs]
    cases a with
    | none =>
      cases hr
      exact iff_of_true (.inl ⟨rfl, rfl⟩) (by simp [Spills, hfd, hfs, hrun])
    | some a =>
      simp only at hr
      cases hbuf : argptr u 1 (toInt w) with
      | none =>
        rw [hbuf] at hr
        cases hr
        refine iff_of_true (.inl ⟨rfl, rfl⟩) ?_
        rintro ⟨_, p, w', _, _, -, hp, hw', -, hlt, hle, -⟩
        rw [hw] at hw'
        cases hw'
        have := (argptr_neg hsz hneg (toInt_range w).1).mpr ⟨hp, hlt, hle⟩
        rw [hbuf] at this
        cases this
      | some p =>
        rw [hbuf] at hr
        obtain ⟨hp, hlt, hle⟩ := (argptr_neg hsz hneg (toInt_range w).1).mp hbuf
        rw [fileread_negative hp hw hneg hr, not_iff_not]
        refine ⟨fun h => ⟨fd, p, w, a.1, a.2, hfd, hp, hw, hneg, hlt, hle, by rw [hfs, hrun], h⟩,
          ?_⟩
        rintro ⟨fd', _, w', _, f, hfd', -, hw', -, -, -, hf, h⟩
        rw [hfd] at hfd'
        rw [hw] at hw'
        cases hfd'
        cases hw'
        rw [hfs, hrun] at hf
        cases hf
        exact h

/-- `argptr` is wrong exactly about negative sizes, `sys_write` keeps to its buffer, and
`sys_read` does unless the length is negative and there is something to read. -/
theorem buffers_confined_iff {u : User} (hsz : u.sz < KERNBASE) (me : ProcPtr) :
    (∀ k (size : Int), -2 ^ 31 ≤ size → size < 2 ^ 31 →
      ((∀ p, argptr u k size = some p → 0 ≤ size ∧ p + size.toNat ≤ u.sz) ↔
        ∀ p, argint u k = some p → size < 0 → u.sz ≤ p ∨ p + size < 0)) ∧
    Confined u (sysWrite me u) ∧
    ((∀ w, argint u 2 = some w → 0 ≤ toInt w) → Confined u (sysRead me u)) ∧
    ∀ m r m', (sysRead me u).run m = some (.ok (r, m')) →
      (Keeps u m r m' ↔ ¬ Spills me u m.fs) := by
  refine ⟨fun k size hmin hmax => ⟨fun h p hp hneg => ?_, fun h p hp => ?_⟩, ?_,
    sysRead_confined hsz me, fun m r m' hr => sysRead_keeps_iff hsz hr⟩
  · by_contra hbad
    rw [not_or, not_le, not_lt] at hbad
    have := h p ((argptr_neg hsz hneg hmin).mpr ⟨hp, hbad⟩)
    omega
  · rcases Int.lt_or_le size 0 with hneg | h0
    · obtain ⟨harg, hp⟩ := (argptr_neg hsz hneg hmin).mp hp
      have := h p harg hneg
      omega
    · exact ⟨h0, argptr_inside hsz h0 hmax hp⟩
  · exact withBuffer_confined (A := fun _ => True) hsz me (fun _ _ => trivial)
      fun f _ _ _ _ _ h => filewrite_within me f h

/-- A process of two pages that calls with `0`, `p` and `n` as the arguments. -/
def calling (p n : Nat) : User where
  sz := 8192
  esp := 4096
  mem := Bytes.patch (Bytes.patch (fun _ => 0) 4104 (encode 4 p)) 4108 (encode 4 n)

/-- A file of four bytes is open as descriptor 0 of every process. -/
def fourBytes : Fs.State where
  sb := ⟨0, 0, 0, 0, 0, 0, 0⟩
  disk := fun _ _ => 7
  log := { start := 2, size := 30, pos := LOGSIZE_pos, outstanding := 0, committing := false,
           lh := ⟨0, fun _ => 0⟩ }
  icache := fun _ =>
    { type := T_FILE, major := 0, minor := 0, nlink := 1, uid := 0, gid := 0, mode := 0,
      size := 4, addrs := fun _ => 100, dev := ROOTDEV, inum := 2, ref := 1, busy := false,
      valid := true }
  ftable := fun _ => ⟨.inode, 1, true, true, 0, 0, 0⟩
  pipes := fun _ => ⟨false, false, 0, 0⟩
  proc := fun _ => ⟨.live, fun _ => some 0, some 0, 0, 0⟩
  initproc := 0
  world := fun _ => 0
  op := fun _ => ⟨false, []⟩

/-- Four bytes are read into a buffer of ten at the very end of the process. -/
theorem last_bytes_confined : ∃ r m',
    (sysRead 0 (calling 8182 10)).run ⟨fourBytes, fun _ => 0, []⟩ = some (.ok (r, m')) ∧
    r = 4 ∧ m'.touched = [8182, 8183, 8184, 8185] ∧
    Keeps (calling 8182 10) ⟨fourBytes, fun _ => 0, []⟩ r m' := by
  have hany : ((sysRead 0 (calling 8182 10)).run ⟨fourBytes, fun _ => 0, []⟩).any
      (fun r => match r with
        | .error _ => false
        | .ok (n, m) => n = 4 ∧ m.touched = [8182, 8183, 8184, 8185]) = true := by
    decide +kernel
  have hexact := (buffers_confined_iff (u := calling 8182 10) (by decide) 0).2.2.2
    ⟨fourBytes, fun _ => 0, []⟩
  rcases hrun : (sysRead 0 (calling 8182 10)).run ⟨fourBytes, fun _ => 0, []⟩ with _ | _ | ⟨r, m'⟩
  · simp [hrun] at hany
  · simp [hrun] at hany
  · rw [hrun] at hany
    have hread := of_decide_eq_true hany
    refine ⟨r, m', rfl, hread.1, hread.2, (hexact r m' hrun).mpr ?_⟩
    rintro ⟨_, _, w, _, _, -, -, hw, hneg, -⟩
    have hten : argint (calling 8182 10) 2 = some 10 := by decide +kernel
    rw [hten] at hw
    cases hw
    exact absurd hneg (by decide)

/-- With the length -1 and a pointer to the last byte of the process, `argptr`
returns 0, and `sys_read` stores the file there and behind the end. -/
theorem negative_length_not_confined : argptr (calling 8191 (2 ^ 32 - 1)) 1 (-1) = some 8191 ∧
    ((sysRead 0 (calling 8191 (2 ^ 32 - 1))).run ⟨fourBytes, fun _ => 0, []⟩).any
      (fun r => match r with
        | .error _ => false
        | .ok (n, m) => n = 4 ∧ m.touched = [8191, 8192, 8193, 8194] ∧ m.mem 8192 = 7) = true := by
  constructor <;> decide +kernel

end Xv6Pdx.Syscall
