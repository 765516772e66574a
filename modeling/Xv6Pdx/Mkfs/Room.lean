/-
# `Mkfs.Room` — when the files fit

`mkfs` runs to its end if the files are not too large, their names have no `/`
and there is room: a byte takes two blocks at most, one for itself and one for
the addresses.
-/
import Xv6Pdx.Mkfs.Image

namespace Xv6Pdx.Mkfs

open Lib Bytes
open Function (update update_self update_of_ne)

section

variable {m m' : Image} {cur : Nat → DInode} {din din' : DInode} {inum : Nat} {body p : List UInt8}
  {bs : Nat → List UInt8} {files : List Source}

theorem rsect_of_lt {sec : Nat} (h : sec < m.len) : m.rsect sec = some (m.disk sec) := if_pos h

theorem target_total (hm : Sound m cur) (hcur : cur inum = din) (htype : din.type ≠ 0)
    (hroom : m.freeblock + 2 ≤ FSSIZE) (fbn : Nat) : ∃ r, m.target din fbn = some r := by
  rw [Image.target]
  split
  · exact ⟨_, rfl⟩
  · cases hd : m.direct din (Fin.last NDIRECT) with
    | mk y rest =>
      obtain ⟨din₁, m₁⟩ := rest
      obtain ⟨hs, hdisk, -, ⟨b, hb⟩, hy, hblock, hnew⟩ := direct_spec hm hcur htype hd
      have hi : owner m₁.disk (update cur inum din₁) (inum, .addr (Fin.last NDIRECT)) = some y := by
        rw [owner_of_type (by rw [update_self, hb]; exact htype), update_self,
          hdisk, hblock, if_pos rfl]
      have hlt := (hs.range _ _ hi).2
      have hy : din₁.indirect = y := by
        have := hblock (.addr (Fin.last NDIRECT))
        rw [if_pos rfl] at this
        exact (asBlock_eq_some.mp this).1
      have hfree : m₁.freeblock ≤ m.freeblock + 1 := by
        rcases hnew with ⟨-, rfl⟩ | ⟨-, -, hf⟩ <;> omega
      have hread : m₁.rsect din₁.indirect = some (m₁.disk y) := by
        rw [hy]
        exact rsect_of_lt (by rw [hs.len]; omega)
      simp only [Image.listed, hread, Option.bind_eq_bind, Option.bind_some]
      split <;> exact ⟨_, rfl⟩

theorem turn_total (hm : Sound m cur) (hcur : cur inum = din) (htype : din.type ≠ 0)
    (hroom : m.freeblock + 2 ≤ FSSIZE) (hlen : body.length < MAXFILE * BSIZE) (p : List UInt8) :
    ∃ din' m', m.turn din body.length p = some (din', m') ∧ m'.freeblock ≤ m.freeblock + 2 := by
  have hfbn : body.length / BSIZE < MAXFILE := by
    simp only [BSIZE] at hlen ⊢
    omega
  obtain ⟨⟨x, din₁, m₁⟩, ht⟩ := target_total hm hcur htype hroom (body.length / BSIZE)
  have hT := target_spec hm hcur htype hfbn (by omega) ht
  have hx : x < m₁.len := by
    have ho : owner m₁.disk (update cur inum din₁) (inum, place (body.length / BSIZE)) =
        some x := by
      obtain ⟨a, ha⟩ := hT.fields
      rw [owner_of_type (by rw [update_self, ha]; exact htype), update_self]
      have := hT.slot _ hfbn
      rwa [if_pos rfl] at this
    have := (hT.sound.range _ _ ho).2
    have := hT.few
    rw [hT.sound.len]
    omega
  rw [Image.turn, if_pos hfbn, ht]
  simp only [Option.bind_eq_bind, Option.bind_some, rsect_of_lt hx]
  exact ⟨_, _, rfl, hT.few⟩

theorem appendLoop_total : ∀ {fuel : Nat} {m : Image} {cur : Nat → DInode} {din : DInode}
    {body p : List UInt8}, p.length ≤ fuel → Sound m cur → cur inum = din → din.type ≠ 0 →
    IsFile m.disk din body → m.freeblock + 2 * p.length ≤ FSSIZE →
    body.length + p.length ≤ MAXFILE * BSIZE →
    ∃ din' off m', Image.appendLoop fuel m din body.length p = some (din', off, m') ∧
      m'.freeblock ≤ m.freeblock + 2 * p.length := by
  intro fuel
  induction fuel with
  | zero =>
    intro m cur din body p _ _ _ _ _ _ _
    exact ⟨_, _, _, rfl, Nat.le_add_right ..⟩
  | succ fuel ih =>
    intro m cur din body p hp hm hcur htype hfile hroom hlen
    rw [Image.appendLoop]
    split
    · exact ⟨_, _, _, rfl, Nat.le_add_right ..⟩
    · next hne =>
        have hpos := n1_pos body.length hne
        have hle := (n1_le body.length p).1
        obtain ⟨din₁, m₁, ht, hfew⟩ := turn_total hm hcur htype (by omega)
          (show body.length < _ by omega) p
        have h₁ := turn_spec hm hcur htype (by omega) hfile hne ht
        obtain ⟨a, ha⟩ := h₁.fields
        have hlen₁ : body.length + Image.n1 body.length p =
            (body ++ p.take (Image.n1 body.length p)).length := by
          rw [List.length_append, List.length_take, Nat.min_eq_left hle]
        have hdrop : (p.drop (Image.n1 body.length p)).length = p.length - Image.n1 body.length p :=
          List.length_drop
        obtain ⟨din', off, m', hl, hf⟩ := ih (p := p.drop (Image.n1 body.length p)) (by omega)
          h₁.sound (update_self ..) (by rw [ha]; exact htype) h₁.file (by omega)
          (by omega)
        refine ⟨din', off, m', ?_, by omega⟩
        rw [ht]
        simp only [Option.bind_eq_bind, Option.bind_some, hlen₁]
        exact hl

theorem iblock_lt (hm : m.len = FSSIZE) (hi : inum < wide.capacity) : IBLOCK sb inum < m.len := by
  have hlt : IBLOCK sb inum < nmeta := (laid.iblock hi).2
  rw [hm]
  exact Nat.lt_trans hlt (by decide)

theorem winode_total (hm : m.len = FSSIZE) (hi : inum < wide.capacity) (d : DInode) :
    ∃ m', m.winode inum d = some m' ∧ m'.freeblock = m.freeblock := by
  have hlt : IBLOCK sb inum < m.len := iblock_lt hm hi
  rw [Image.winode, rsect_of_lt hlt]
  exact ⟨_, rfl, rfl⟩

theorem rinode_total (hm : m.len = FSSIZE) (hi : inum < wide.capacity) :
    m.rinode inum = some (inodes wide m.disk inum) := by
  have hlt : IBLOCK sb inum < m.len := iblock_lt hm hi
  rw [Image.rinode, rsect_of_lt hlt, inodes_of_lt hi]
  rfl

theorem iappend_total (hm : Made m (inodes wide m.disk) bs) (hs : Sized m bs) (h1 : 1 ≤ inum)
    (hi : inum < m.freeinode) (hroom : m.freeblock + 2 * p.length ≤ FSSIZE)
    (hlen : (bs inum).length + p.length ≤ MAXFILE * BSIZE) :
    ∃ m', m.iappend inum p = some m' ∧ m'.freeblock ≤ m.freeblock + 2 * p.length := by
  have hcap : inum < wide.capacity := Nat.lt_of_lt_of_le hi hm.count.2
  have htype : (inodes wide m.disk inum).type ≠ 0 := by
    rw [hm.kinds]
    exact kind_ne_zero h1 hi
  obtain ⟨din', off, m₁, hl, hf⟩ := appendLoop_total (Nat.le_refl _) hm.sound rfl htype
    (hm.files inum h1 hi) hroom hlen
  have happ := (appendLoop_spec (Nat.le_refl _) hm.sound rfl htype hm.high (hm.files inum h1 hi) hl).1
  obtain ⟨m', hw, hf'⟩ := winode_total happ.sound.len hcap { din' with size := off }
  refine ⟨m', ?_, by omega⟩
  rw [Image.iappend, rinode_total hm.sound.len hcap]
  simp only [Option.bind_eq_bind, Option.bind_some, hs inum h1 hi, hl]
  exact hw

theorem ialloc_total (type : Nat) (hm : m.len = FSSIZE) (hcap : m.freeinode < wide.capacity) :
    ∃ m', m.ialloc type = some (m.freeinode, m') ∧ m'.freeblock = m.freeblock := by
  obtain ⟨m', hw, hf⟩ :=
    winode_total (m := { m with freeinode := m.freeinode + 1 }) hm hcap (fresh type)
  refine ⟨m', ?_, hf⟩
  rw [Image.ialloc]
  simp only [Option.bind_eq_bind, hw, Option.bind_some]

theorem makeRoot_total : ∃ m, makeRoot = some m ∧ m.freeblock ≤ nmeta + 4 * Dirent.bytes := by
  obtain ⟨m₁, h₁, hf₁⟩ := ialloc_total (m := blank) T_DIR rfl (by decide)
  obtain ⟨hmade, hsized⟩ := blank_spec fun _ => []
  obtain ⟨-, hmade, hsized, hfi⟩ := ialloc_spec hmade hsized (by decide) (by decide) h₁
  have hone : 1 < m₁.freeinode := by
    rw [hfi]
    decide
  have hb : m₁.freeblock = 59 := hf₁
  obtain ⟨m₂, h₂, hf₂⟩ := iappend_total (p := dirent 1 Fs.dot) hmade hsized (Nat.le_refl 1) hone
    (by rw [hb]; decide) (by decide)
  obtain ⟨hmade, hsized, hfi₂⟩ := iappend_spec hmade hsized (Nat.le_refl 1) hone h₂
  rw [length_dirent, hb] at hf₂
  obtain ⟨m₃, h₃, hf₃⟩ := iappend_total (p := dirent 1 Fs.dotdot) hmade hsized (Nat.le_refl 1)
    (hfi₂ ▸ hone) (by rw [length_dirent]; simp only [Dirent.bytes, FSSIZE] at hf₂ ⊢; omega)
    (by decide)
  refine ⟨m₃, ?_, ?_⟩
  · rw [makeRoot, h₁]
    simp only [Option.bind_eq_bind, Option.bind_some]
    rw [if_pos (by decide)]
    exact (congrArg (Option.bind · _) h₂).trans h₃
  · rw [length_dirent] at hf₃
    rw [nmeta_eq]
    omega

theorem pieces_total (h1 : 1 ≤ inum) (pieces : List (List UInt8)) :
    ∀ {m : Image} {bs : Nat → List UInt8}, Made m (inodes wide m.disk) bs → Sized m bs →
      inum < m.freeinode → m.freeblock + 2 * pieces.flatten.length ≤ FSSIZE →
      (bs inum).length + pieces.flatten.length ≤ MAXFILE * BSIZE →
      ∃ m', pieces.foldlM (fun m p => m.iappend inum p) m = some m' ∧
        m'.freeblock ≤ m.freeblock + 2 * pieces.flatten.length := by
  induction pieces with
  | nil =>
    intro m bs _ _ _ _ _
    exact ⟨m, rfl, Nat.le_add_right ..⟩
  | cons p pieces ih =>
    intro m bs hmade hsized hi hroom hlen
    rw [List.flatten_cons, List.length_append] at hroom hlen ⊢
    obtain ⟨m₁, h₁, hf₁⟩ := iappend_total (p := p) hmade hsized h1 hi (by omega) (by omega)
    obtain ⟨hmade₁, hsized₁, hfi⟩ := iappend_spec hmade hsized h1 hi h₁
    obtain ⟨m₂, h₂, hf₂⟩ := ih hmade₁ hsized₁ (hfi ▸ hi) (by omega)
      (by rw [update_self, List.length_append]; omega)
    refine ⟨m₂, ?_, by omega⟩
    rw [List.foldlM_cons, h₁]
    exact h₂

/-- How many bytes a file brings, its entry in the root directory included. -/
def Source.cost (f : Source) : Nat := Dirent.bytes + f.contents.length

/-- What the assertions of `mkfs` ask of a file. -/
def Source.Accepted (f : Source) : Prop := Fs.slash ∉ f.name ∧ f.contents.length ≤ MAXFILE * BSIZE

theorem addFile_total {f : Source} (hm : Filled m files) (hf : f.Accepted)
    (hcap : files.length + 2 < wide.capacity) (hroom : m.freeblock + 2 * f.cost ≤ FSSIZE) :
    ∃ m', addFile m f = some m' ∧ m'.freeblock ≤ m.freeblock + 2 * f.cost := by
  have hn := hm.count
  rw [Source.cost] at hroom ⊢
  obtain ⟨m₁, h₁, hf₁⟩ := ialloc_total T_FILE hm.made.sound.len (hn ▸ hcap)
  have hkind : T_FILE = kind (m.freeinode + 1) m.freeinode := by
    rw [kind, if_neg (by omega), if_neg (by simp only [ROOTINO]; omega)]
  obtain ⟨-, hmade, hsized, hfi⟩ := ialloc_spec hm.made hm.sized (hn ▸ hcap) hkind h₁
  have hne : m.freeinode ≠ 1 := by omega
  have hroot : (update (bodies files) m.freeinode [] 1).length + Dirent.bytes ≤
      MAXFILE * BSIZE := by
    have hlen : (bodies files 1).length = _ := length_root files
    rw [update_of_ne hne.symm, hlen]
    rw [wide_eq] at hcap
    simp only [Dirent.bytes, MAXFILE, NDIRECT, NINDIRECT, BSIZE]
    omega
  have hlen := length_dirent m.freeinode f.argv
  obtain ⟨m₂, h₂, hf₂⟩ := iappend_total (p := dirent m.freeinode f.argv) hmade hsized
    (Nat.le_refl 1) (by omega) (by omega) (by rwa [hlen])
  obtain ⟨hmade, hsized, hfi₂⟩ := iappend_spec hmade hsized (Nat.le_refl 1) (by omega) h₂
  have hc : f.pieces.flatten.length = f.contents.length := rfl
  obtain ⟨m₃, h₃, hf₃⟩ := pieces_total (show 1 ≤ m.freeinode by omega) f.pieces hmade
    hsized (by omega) (by omega) (by
      rw [update_of_ne hne, update_self, List.length_nil, Nat.zero_add]
      exact hf.2)
  refine ⟨m₃, ?_, by omega⟩
  rw [addFile, if_neg hf.1, h₁]
  simp only [Option.bind_eq_bind, Option.bind_some]
  exact (congrArg (Option.bind · _) h₂).trans h₃

theorem files_total {done : List Source} (hm : Filled m done) (hf : ∀ f ∈ files, f.Accepted)
    (hcap : done.length + files.length + 2 ≤ wide.capacity)
    (hroom : m.freeblock + 2 * (files.map Source.cost).sum ≤ FSSIZE) :
    ∃ m', files.foldlM addFile m = some m' := by
  induction files generalizing m done with
  | nil => exact ⟨m, rfl⟩
  | cons f files ih =>
    rw [List.map_cons, List.sum_cons] at hroom
    rw [List.length_cons] at hcap
    obtain ⟨m₁, h₁, hf₁⟩ := addFile_total hm (hf f (.head files)) (by omega) (by omega)
    have hm₁ := addFile_spec hm (by omega) h₁
    obtain ⟨m', h'⟩ := ih hm₁ (fun g hg => hf g (.tail f hg))
      (by rw [List.length_append, List.length_singleton]; omega) (by omega)
    refine ⟨m', ?_⟩
    rw [List.foldlM_cons, h₁]
    exact h'

theorem main_total (hf : ∀ f ∈ files, f.Accepted) (hcap : files.length + 2 ≤ wide.capacity)
    (hroom : nmeta + 4 * Dirent.bytes + 2 * (files.map Source.cost).sum ≤ FSSIZE) :
    ∃ m, main files = some m := by
  obtain ⟨m₀, h₀, hf₀⟩ := makeRoot_total
  obtain ⟨m₁, h₁⟩ := files_total (makeRoot_spec h₀) hf (by rwa [List.length_nil, Nat.zero_add])
    (by omega)
  have hfill : Filled m₁ files := files_spec (makeRoot_spec h₀) hcap h₁
  obtain ⟨m₂, h₂, -⟩ := winode_total hfill.made.sound.len (by decide : ROOTINO < wide.capacity)
    { inodes wide m₁.disk ROOTINO with size := ((inodes wide m₁.disk ROOTINO).size / BSIZE + 1) * BSIZE }
  have hfix : fixRoot m₁ = some m₂ := by
    rw [fixRoot, rinode_total hfill.made.sound.len (by decide)]
    exact h₂
  have hused : m₂.freeblock < BSIZE * 8 :=
    Nat.lt_of_le_of_lt (fixRoot_spec hfill hfix).1.high (by decide)
  rw [main, h₀]
  simp only [Option.bind_eq_bind, Option.bind_some, h₁, hfix]
  rw [Image.balloc, if_pos hused]
  exact ⟨_, rfl⟩

end

end Xv6Pdx.Mkfs
