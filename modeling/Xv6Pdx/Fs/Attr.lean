/-
# `Fs.Attr` — `chown`, `chgrp` and `chmod`

The three calls look a path up, change one field of the inode and store it.  Of a path
that names nothing, and of a value out of range, they change nothing.  Otherwise the
field is set, in the cache and on the disk, and nothing else of any inode is; but the
reference that `namei` has taken is never given back.  So the contract holds exactly
for the calls that are refused.
-/
import Xv6Pdx.Fs.Calls
import Xv6Pdx.Fs.Contents
import Xv6Pdx.Fs.Lookup

namespace Xv6Pdx.Fs

open Lib Bytes
open Ptable (ProcPtr)
open Function (update update_self update_of_ne update_idem)

/-! ## The three calls -/

/-- The fields of an inode that a call can change. -/
inductive Attr where
  | uid
  | gid
  | mode
deriving DecidableEq, Repr

namespace Attr

def call : Attr → ProcPtr → List UInt8 → Int → FsM (Option Unit)
  | uid => chown
  | gid => chgrp
  | mode => chmod

def set (v : Nat) (d : DInode) : Attr → DInode
  | uid => { d with uid := v }
  | gid => { d with gid := v }
  | mode => { d with mode := v }

end Attr

/-! ## What a call does -/

/-- A call has left the references `held`; the cache agrees with what it has made of the
disk, and no inode is locked. -/
structure Outcome (s : State) (held : List InodePtr) (s' : State) : Prop where
  rest : s' = { s with disk := s'.disk, icache := s'.icache, log := s'.log, op := s'.op }
  cached : Cached s'
  refs : ∀ ip, (s'.icache ip).ref = (s.icache ip).ref + held.count ip
  kept : ∀ ip, 0 < (s.icache ip).ref → (s'.icache ip).inum = (s.icache ip).inum
  idle : ∀ ip, (s'.icache ip).busy = false

section

variable {s t : State} {me : ProcPtr} {ip : InodePtr}

/-- The disk with the inode `n` changed. -/
def State.stored (s : State) (n : Nat) (f : DInode → DInode) : Disk :=
  update s.disk (IBLOCK s.sb n)
    (Xv6Pdx.putInode (s.disk (IBLOCK s.sb n)) n (f (dinode s.sb s.disk n)))

theorem dinode_stored {n : Nat} {f : DInode → DInode} (hf : ∀ d, d.Fits → (f d).Fits) (j : Nat) :
    dinode s.sb (s.stored n f) j =
      if j = n then f (dinode s.sb s.disk n) else dinode s.sb s.disk j :=
  dinode_put (hf _ (DInode.fits_ofBytes _)) j

theorem Walk.stored (h : Walk s [ip] (some ip) t) (hv : (t.icache ip).valid = true)
    {f : DInode → DInode}
    (hfits : ∀ d, d.Fits → (f d).Fits) (htype : ∀ d, (f d).type = d.type) (l : Log)
    (op : ProcPtr → Op) :
    Outcome s [ip] { s with
      disk := s.stored (t.icache ip).inum f
      icache := update t.icache ip
        { t.icache ip with toDInode := f (t.icache ip).toDInode, busy := false }
      log := l
      op := op } := by
  have hip := List.mem_singleton_self ip
  have hpos := h.pos hip
  obtain ⟨hread, -, hlive⟩ := h.locked_read hip hv
  have hdinode := dinode_stored (s := s) (n := (t.icache ip).inum) hfits
  refine ⟨rfl, ⟨?_, ?_, ?_, ?_⟩, ?_, ?_, ?_⟩
  · exact forall_put (P := fun _ i => 0 < i.ref → i.dev = ROOTDEV) (h.cached.dev ip)
      fun jp _ => h.cached.dev jp
  · have hrange := h.cached.range
    rw [h.sb] at hrange
    exact forall_put (P := fun _ i => 0 < i.ref → i.inum < s.sb.capacity) (hrange ip)
      fun jp _ => hrange jp
  · refine forall_put (P := fun _ i => 0 < i.ref → Reads { s with disk := s.stored _ f } i)
      (fun _ _ => ⟨?_, ?_⟩) fun jp hj hjp hjv => ⟨?_, ?_⟩
    · rw [hdinode, if_pos rfl, hread]
    · rw [htype, hread]
      exact hlive
    · have hread := (h.cached.read jp hjp hjv).1
      rw [h.sb, h.disk] at hread
      rw [hdinode, if_neg fun he => hj (h.cached.single jp ip hjp hpos he), hread]
    · exact (h.cached.read jp hjp hjv).2
  · have hsame := @forall_put t ip
      (fun jp i => i.ref = (t.icache jp).ref ∧ i.inum = (t.icache jp).inum)
      { t.icache ip with toDInode := f (t.icache ip).toDInode, busy := false } ⟨rfl, rfl⟩
      fun _ _ => ⟨rfl, rfl⟩
    intro jp kp hj hk he
    exact h.cached.single jp kp (Nat.lt_of_lt_of_eq hj (hsame jp).1)
      (Nat.lt_of_lt_of_eq hk (hsame kp).1) ((hsame jp).2.symm.trans (he.trans (hsame kp).2))
  · exact forall_put (P := fun jp i => i.ref = (s.icache jp).ref + [ip].count jp) (h.refs ip)
      fun jp _ => h.refs jp
  · exact forall_put (P := fun jp i => 0 < (s.icache jp).ref → i.inum = (s.icache jp).inum)
      (h.kept ip) fun jp _ => h.kept jp
  · refine forall_put (P := fun _ i => i.busy = false) rfl fun jp hj => ?_
    rw [← Bool.not_eq_true, h.busy]
    exact fun he => hj (Option.some.inj he).symm

theorem Walk.outcome (h : Walk s [] none t) (l : Log) (op : ProcPtr → Op) :
    Outcome s [] { t with log := l, op := op } where
  rest := by rw [h.rest]
  cached := ⟨h.cached.dev, h.cached.range, h.cached.read, h.cached.single⟩
  refs := h.refs
  kept := h.kept
  idle := fun ip => by
    show (t.icache ip).busy = false
    rw [← Bool.not_eq_true, h.busy]
    nofun

end

end Xv6Pdx.Fs
