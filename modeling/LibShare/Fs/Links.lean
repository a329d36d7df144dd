import LibShare.Fs.Roundtrip
import LibShare.Fs.Shrink
import LibShare.Lib.Owned

/-!
# libshare — references between blocks

A mounted partition under the operations on its open inodes: `shfs_inode` below
an inode, `shfs_aux_write`, `shfs_inode_truncate` and `shfs_inode_clear`. `Op.run`
is one operation; an operation that fails leaves what it has done so far.

Three of the operations can leave a reference to a block that is not in use:

* a write that runs out of free blocks after it has stored a reference to the
  last one it has found;
* a truncation that frees a block, since the reference to it stays;
* the removal of the content of an inode, whose loop follows the references
  between the inode's siblings.

`Op.Safe` says when they do not, in terms of the store before the operation.
`Mounted` is the invariant that safe operations keep: the references are sound,
and the copies in memory agree with the store.
-/

namespace LibShare.Fs

/-! ## Operations -/

/-- An operation on the open inode with a number. -/
inductive Op
  | inode (i : Nat) (name : Bytes) (mode : Shinode) (acc : Access)
  | write (i : Nat) (data : Bytes)
  | truncate (i : Nat) (len : Nat)
  | clear (i : Nat)

/-- The mount once an inode has been operated on. -/
def Mount.put (m : Mount) (i : Nat) (ino : Ino) (res : Shfs × Block × Except Sherr Unit) : Mount :=
  { fs := res.1, inos := m.inos.set i { ino with blk := res.2.1 } }

/-- One operation, with a number of passes for its loops. -/
def Op.run (env : Env) (fuel : Nat) (m : Mount) : Op → Option Mount
  | .inode i name mode acc => (shfsInode env fuel m i name mode acc).map Prod.fst
  | .write i data =>
    match m.inos[i]? with
    | none => none
    | some ino => (shfsAuxWrite env fuel m.fs ino.blk data).map (m.put i ino)
  | .truncate i len =>
    match m.inos[i]? with
    | none => none
    | some ino => (shfsInodeTruncate env fuel m.fs ino.blk len).map (m.put i ino)
  | .clear i =>
    match m.inos[i]? with
    | none => none
    | some ino => (shfsInodeClear env fuel m.fs ino.blk).map (m.put i ino)

/-! ## Sound stores -/

/-- The block that begins the chain of an inode. -/
def firstOf (fs : Shfs) (p : Idx) : Option Idx := (fs.block p).fpos.ref

/-- Every reference in a block that is in use leads to a block that is in use,
and to one of the same chain: there is an owner for each block, which is the
inode for the first block of its chain, and the same for a block and the next. -/
def NoDangling (fs : Shfs) : Prop :=
  ∃ own : Idx → Idx, ∀ p, fs.live p →
    (∀ q, nextOf fs p = some q → fs.live q ∧ own q = own p) ∧
    (∀ q, firstOf fs p = some q → fs.live q ∧ own q = p)

/-- A store whose blocks lie where their headers say and whose references are
sound. -/
structure Sound (fs : Shfs) (own : Idx → Idx) : Prop where
  cell : ∀ p, fs.live p → (fs.block p).pos = p ∧ p.ino ≠ 0 ∧ fs.inMap p
  links : Owned fs.live (nextOf fs) (firstOf fs) own

/-- In a sound store no reference dangles. -/
theorem Sound.noDangling {fs : Shfs} {own : Idx → Idx} (h : Sound fs own) : NoDangling fs :=
  ⟨own, fun p hp => ⟨fun q => h.links.next_mem p q hp, fun q => h.links.first_mem p q hp⟩⟩

/-- The copy in memory of an inode agrees with its block. A block that a write
to the inode's parent has appended to is the exception: the copy has no next
position then. -/
structure Held (fs : Shfs) (blk : Block) : Prop where
  live : fs.live blk.pos
  type_eq : (fs.block blk.pos).type = blk.type
  fpos_eq : (fs.block blk.pos).fpos = blk.fpos
  name_eq : (fs.block blk.pos).name = blk.name
  npos_eq : blk.npos = (fs.block blk.pos).npos ∨ blk.npos.ino = 0

/-- The store is sound, and the open inodes are blocks of it, no block twice.
The root directory is the only open inode without an open parent, and it is
owned by the supernode, which has no owner. -/
structure Mounted (m : Mount) (own : Idx → Idx) : Prop where
  sound : Sound m.fs own
  held : ∀ (i : Nat) (ino : Ino), m.inos[i]? = some ino → Held m.fs ino.blk
  apart : ∀ (i j : Nat) (a b : Ino), m.inos[i]? = some a → m.inos[j]? = some b →
    a.blk.pos = b.blk.pos → i = j
  parent : ∀ (i j : Nat) (ino : Ino), m.inos[i]? = some ino → ino.parent = some j →
    j < i ∧ ∃ pino, m.inos[j]? = some pino ∧ own ino.blk.pos = pino.blk.pos
  root : ∀ (i : Nat) (ino : Ino), m.inos[i]? = some ino → ino.parent = none →
    m.fs.live (own ino.blk.pos) ∧ own (own ino.blk.pos) = Idx.zero

/-! ## Conditions -/

/-- Every block of the chain begins before the length; `bOf` is where the first
one begins. -/
def AllBegin (fs : Shfs) (len : Nat) : Nat → List Idx → Prop
  | _, [] => True
  | bOf, p :: L => bOf < len ∧ AllBegin fs len (bOf + (fs.block p).size) L

/-- A write finds all the blocks that it needs, or not even the first one. -/
def WriteSafe (env : Env) (fs : Shfs) (inode : Block) (data : Bytes) : Prop :=
  ∀ L, Chain (nextOf fs) inode.fpos.ref L →
    WriteFound env fs inode data L ∨ WriteFull env fs inode L

/-- A truncation frees no block. -/
def TruncateSafe (fs : Shfs) (inode : Block) (len : Nat) : Prop :=
  inode.type ≠ .binary ∨ inode.size ≤ len ∨
    ∀ L, Chain (nextOf fs) inode.fpos.ref L → AllBegin fs len 0 L

/-- The removal of content does not come to a second sibling, and the block that
it frees is not an open inode. -/
def ClearSafe (m : Mount) (inode : Block) : Prop :=
  inode.fpos.ino = 0 ∨
    (inode.npos.ino = 0 ∨ (m.fs.block inode.npos).npos.ino = 0) ∧
      ∀ (i : Nat) (ino : Ino), m.inos[i]? = some ino → ino.blk.pos ≠ inode.fpos

/-- The operation leaves every reference sound. -/
def Op.Safe (env : Env) (m : Mount) : Op → Prop
  | .inode _ _ _ _ => True
  | .write i data => ∀ ino, m.inos[i]? = some ino → WriteSafe env m.fs ino.blk data
  | .truncate i len => ∀ ino, m.inos[i]? = some ino → TruncateSafe m.fs ino.blk len
  | .clear i => ∀ ino, m.inos[i]? = some ino → ClearSafe m ino.blk

/-! ## Writing -/

theorem firstOf_congr {fs fs' : Shfs} {p : Idx} (h : fs'.block p = fs.block p) :
    firstOf fs' p = firstOf fs p := by
  unfold firstOf
  rw [h]

theorem live_congr {fs fs' : Shfs} {p : Idx} (h : fs'.block p = fs.block p) :
    fs'.live p ↔ fs.live p := by
  unfold Shfs.live
  rw [h]

/-- A copy agrees still if its block has not changed. -/
theorem Held.congr {fs fs' : Shfs} {blk : Block} (h : Held fs blk)
    (heq : fs'.block blk.pos = fs.block blk.pos) : Held fs' blk := by
  refine ⟨(live_congr heq).mpr h.live, ?_, ?_, ?_, ?_⟩
  · rw [heq, h.type_eq]
  · rw [heq, h.fpos_eq]
  · rw [heq, h.name_eq]
  · rw [heq]
    exact h.npos_eq

/-- A copy agrees with the block that it has been stored as. -/
theorem Held.of_stored {fs : Shfs} {blk : Block} (hlive : fs.live blk.pos)
    (heq : fs.block blk.pos = blk) : Held fs blk :=
  ⟨hlive, by rw [heq], by rw [heq], by rw [heq], Or.inl (by rw [heq])⟩

-- Writing the copy back may only cut the chain that the inode is in.
/-- The copy knows the next block, or none. -/
theorem Held.npos_ref {fs : Shfs} {blk : Block} (h : Held fs blk) :
    blk.npos.ref = nextOf fs blk.pos ∨ blk.npos.ref = none := by
  rcases h.npos_eq with heq | hz
  · exact Or.inl (by rw [nextOf, heq])
  · exact Or.inr (Idx.ref_of_eq hz)

section Open

variable {m : Mount} {own : Idx → Idx} {i : Nat} {ino : Ino}

/-- The chain of an open inode. -/
theorem Mounted.chain (h : Mounted m own) (hi : m.inos[i]? = some ino) :
    ∃ L, Chain (nextOf m.fs) ino.blk.fpos.ref L ∧ AllStored m.fs L ∧ ino.blk.pos ∉ L ∧
      ∀ p ∈ L, own p = ino.blk.pos := by
  have hheld := h.held i ino hi
  obtain ⟨L, hL⟩ := h.sound.links.ends hheld.live
  have hmem := h.sound.links.mem_chain hheld.live hL
  have hfirst : firstOf m.fs ino.blk.pos = ino.blk.fpos.ref := by rw [firstOf, hheld.fpos_eq]
  refine ⟨L, hfirst ▸ hL, fun p hp => ?_, fun hin => ?_, fun p hp => (hmem p hp).2⟩
  · obtain ⟨h1, h2, h3⟩ := h.sound.cell p (hmem p hp).1
    exact ⟨(hmem p hp).1, h3, h1, h2⟩
  · exact h.sound.links.irrefl _ hheld.live (hmem _ hin).2

/-- An inode of the mount after an operation, as it was before. -/
theorem Mount.put_get {j : Nat} {a : Ino} {fs' : Shfs} {blk' : Block} {r : Except Sherr Unit}
    (hi : m.inos[i]? = some ino) (hpos : blk'.pos = ino.blk.pos)
    (ha : (m.put i ino (fs', blk', r)).inos[j]? = some a) :
    ∃ b, m.inos[j]? = some b ∧ a.blk.pos = b.blk.pos ∧ a.parent = b.parent ∧
      (j = i ∧ a.blk = blk' ∨ j ≠ i ∧ a = b) := by
  have hlt : i < m.inos.length := (List.getElem?_eq_some_iff.mp hi).1
  by_cases hj : j = i
  · subst hj
    simp only [Mount.put, List.getElem?_set_self hlt, Option.some.injEq] at ha
    exact ⟨ino, hi, by rw [← ha, ← hpos], by rw [← ha], Or.inl ⟨rfl, by rw [← ha]⟩⟩
  · simp only [Mount.put, List.getElem?_set_ne (Ne.symm hj)] at ha
    exact ⟨a, ha, rfl, rfl, Or.inr ⟨hj, rfl⟩⟩

/-- An operation on an open inode, put into the mount. -/
theorem Mounted.put {own' : Idx → Idx} {fs' : Shfs} {blk' : Block} {r : Except Sherr Unit}
    (h : Mounted m own) (hi : m.inos[i]? = some ino) (hsound : Sound fs' own')
    (hown : ∀ p, m.fs.live p → own' p = own p)
    (htop : ∀ p, m.fs.live p → own p = Idx.zero → fs'.live p)
    (hpos : blk'.pos = ino.blk.pos) (hheld : Held fs' blk')
    (hothers : ∀ (j : Nat) (a : Ino), m.inos[j]? = some a → a.blk.pos ≠ ino.blk.pos →
      Held fs' a.blk) :
    Mounted (m.put i ino (fs', blk', r)) own' := by
  have hback : ∀ (j : Nat) (b : Ino), m.inos[j]? = some b →
      ∃ a, (m.put i ino (fs', blk', r)).inos[j]? = some a ∧ a.blk.pos = b.blk.pos := by
    intro j b hb
    have hlt : i < m.inos.length := (List.getElem?_eq_some_iff.mp hi).1
    by_cases hj : j = i
    · subst hj
      rw [hi] at hb
      cases hb
      exact ⟨{ ino with blk := blk' }, by simp only [Mount.put, List.getElem?_set_self hlt], hpos⟩
    · exact ⟨b, by simp only [Mount.put, List.getElem?_set_ne (Ne.symm hj), hb], rfl⟩
  refine ⟨hsound, ?_, ?_, ?_, ?_⟩
  · intro j a ha
    obtain ⟨b, hb, hab, -, ⟨-, hblk⟩ | ⟨hj, rfl⟩⟩ := Mount.put_get hi hpos ha
    · rw [hblk]
      exact hheld
    · refine hothers j a hb fun heq => hj ?_
      exact h.apart j i a ino hb hi heq
  · intro j k a b ha hb hpos'
    obtain ⟨a', ha', hpa, -, -⟩ := Mount.put_get hi hpos ha
    obtain ⟨b', hb', hpb, -, -⟩ := Mount.put_get hi hpos hb
    exact h.apart j k a' b' ha' hb' (by rw [← hpa, ← hpb, hpos'])
  · intro j k a ha hpar
    obtain ⟨a', ha', hpa, hparent, -⟩ := Mount.put_get hi hpos ha
    obtain ⟨hlt, p, hp, hownp⟩ := h.parent j k a' ha' (by rw [← hparent, hpar])
    obtain ⟨p', hp', hposp⟩ := hback k p hp
    refine ⟨hlt, p', hp', ?_⟩
    rw [hpa, hown _ (h.held j a' ha').live, hownp, hposp]
  · intro j a ha hpar
    obtain ⟨a', ha', hpa, hparent, -⟩ := Mount.put_get hi hpos ha
    obtain ⟨hl, hz⟩ := h.root j a' ha' (by rw [← hparent, hpar])
    rw [hpa, hown _ (h.held j a' ha').live, hown _ hl]
    exact ⟨htop _ hl hz, hz⟩

end Open

/-- A chain that has been written to, and the inode that it belongs to. -/
theorem Rewritten.sound {fs fs2 fs' : Shfs} {own : Idx → Idx} {p : Idx} {s : Option Idx}
    {L L' : List Idx} (h : Sound fs own) (hp : fs.live p) (hL : ∀ q ∈ L, own q = p)
    (hw : Rewritten fs fs2 L s L') (hs : s = firstOf fs p ∨ ∀ c, s = some c → ¬ fs.live c)
    (hback : ∀ q, q ≠ p → fs'.block q = fs2.block q) (hsize : fs'.size = fs2.size)
    (hlive : fs'.live p) (hpos : (fs'.block p).pos = p)
    (hnext : nextOf fs' p = nextOf fs p ∨ nextOf fs' p = none) (hfirst : firstOf fs' p = s) :
    Sound fs' fun q => if q ∈ L' then p else own q := by
  -- a block of the new chain is one of the old, or has been free
  have hold : ∀ q ∈ L', fs.live q → own q = p := by
    intro q hq hl
    rcases hw.cells q hq with hin | hfree
    · exact hL q hin
    · exact absurd hl hfree
  have hpL : p ∉ L' := fun hmem => h.links.irrefl p hp (hold p hmem hp)
  have hne : ∀ q ∈ L', q ≠ p := fun q hq heq => hpL (heq ▸ hq)
  have hlive' : ∀ q, fs'.live q ↔ fs.live q ∨ q ∈ L' := by
    intro q
    by_cases hqp : q = p
    · subst hqp
      exact iff_of_true hlive (Or.inl hp)
    rw [live_congr (hback q hqp)]
    by_cases hq : q ∈ L'
    · exact iff_of_true (hw.stored q hq).1 (Or.inr hq)
    · rw [live_congr (hw.frame q hq)]
      simp [hq]
  have hmap : ∀ q, fs2.inMap q → fs'.inMap q := by
    intro q hq
    rw [Shfs.inMap, hsize]
    exact hq
  refine ⟨?_, ?_⟩
  · -- each cell: that of the inode, one of the chain, or one that has not been touched
    intro q hq
    by_cases hqp : q = p
    · subst hqp
      obtain ⟨-, hino, hm⟩ := h.cell q hp
      exact ⟨hpos, hino, hmap q ⟨hm.1, Nat.lt_of_lt_of_le hm.2 (hw.size_le _)⟩⟩
    rw [hback q hqp]
    by_cases hqL : q ∈ L'
    · obtain ⟨-, h2, h3, h4⟩ := hw.stored q hqL
      exact ⟨h3, h4, hmap q h2⟩
    · rcases (hlive' q).mp hq with hl | hin
      · obtain ⟨h1, h2, h3⟩ := h.cell q hl
        rw [hw.frame q hqL]
        exact ⟨h1, h2, hmap q ⟨h3.1, Nat.lt_of_lt_of_le h3.2 (hw.size_le _)⟩⟩
      · exact absurd hin hqL
  · -- the links, by what `Owned.regrow` asks of the new chain
    refine h.links.regrow hp hlive' ?_ ?_ ?_ hs ?_ ?_ hfirst ?_
    · intro q hl
      by_cases hq : q ∈ L'
      · rw [if_pos hq, hold q hq hl]
      · rw [if_neg hq]
    · intro q hq
      rw [if_pos hq]
    · exact hw.chain.congr fun q hq => nextOf_congr (hback q (hne q hq))
    · intro q _ hq
      by_cases hqp : q = p
      · rw [hqp]
        exact hnext
      · exact Or.inl (nextOf_congr ((hback q hqp).trans (hw.frame q hq)))
    · intro q hl hqp
      rw [firstOf_congr (hback q hqp)]
      by_cases hq : q ∈ L'
      · rw [firstOf, (hw.kept q hq hl).fpos_eq, firstOf]
      · exact firstOf_congr (hw.frame q hq)
    · intro q hq hfree
      rw [firstOf_congr (hback q (hne q hq)), firstOf, hw.fresh q hq hfree]
      rfl

/-- The other open inodes. -/
theorem Held.rewritten {fs fs2 fs' : Shfs} {s : Option Idx} {L L' : List Idx} {blk : Block}
    (h : Held fs blk) (hw : Rewritten fs fs2 L s L')
    (hback : fs'.block blk.pos = fs2.block blk.pos) : Held fs' blk := by
  by_cases hmem : blk.pos ∈ L'
  · have hsame := hw.kept _ hmem h.live
    refine ⟨?_, ?_, ?_, ?_, ?_⟩
    · rw [live_congr hback]
      exact (hw.stored _ hmem).1
    · rw [hback, hsame.type_eq, h.type_eq]
    · rw [hback, hsame.fpos_eq, h.fpos_eq]
    · rw [hback, hsame.name_eq, h.name_eq]
    · -- a block without a next one may have been given one
      by_cases hzero : (fs.block blk.pos).npos.ino = 0
      · rcases h.npos_eq with heq | hz
        · exact Or.inr (by rw [heq, hzero])
        · exact Or.inr hz
      · rw [hback, hsame.npos_eq hzero]
        exact h.npos_eq
  · exact h.congr (hback.trans (hw.frame _ hmem))

/-- The chain of an open inode has been written to, and the inode is written
back with its first position. -/
theorem Mounted.rewrite {m : Mount} {own : Idx → Idx} {i : Nat} {ino : Ino} {fs2 : Shfs}
    {L L' : List Idx} {s : Option Idx} {b : Block} {writes : Nat} {r : Except Sherr Unit}
    (h : Mounted m own) (hi : m.inos[i]? = some ino) (hL : ∀ p ∈ L, own p = ino.blk.pos)
    (hw : Rewritten m.fs fs2 L s L')
    (hs : s = firstOf m.fs ino.blk.pos ∨ ∀ c, s = some c → ¬ m.fs.live c)
    (hpos : b.pos = ino.blk.pos) (htype : b.type = ino.blk.type) (hnpos : b.npos = ino.blk.npos)
    (hfpos : b.fpos.ref = s) :
    Mounted (m.put i ino ({ fs2 with writes := writes }.store b, b, r))
      fun q => if q ∈ L' then ino.blk.pos else own q := by
  have hheld := h.held i ino hi
  generalize hfs : ({ fs2 with writes := writes } : Shfs).store b = fs'
  have hself : fs'.block ino.blk.pos = b := by rw [← hfs, ← hpos, Shfs.store_self]
  have hback : ∀ q, q ≠ ino.blk.pos → fs'.block q = fs2.block q := by
    intro q hq
    rw [← hfs, Shfs.store_ne _ _ (by rw [hpos]; exact hq)]
  have hlive : fs'.live ino.blk.pos := by
    rw [Shfs.live, hself, htype, ← hheld.type_eq]
    exact hheld.live
  have hnext : nextOf fs' ino.blk.pos = nextOf m.fs ino.blk.pos ∨
      nextOf fs' ino.blk.pos = none := by
    have href : nextOf fs' ino.blk.pos = ino.blk.npos.ref := by rw [nextOf, hself, hnpos]
    rw [href]
    exact hheld.npos_ref
  have hsound := hw.sound h.sound hheld.live hL hs hback (by rw [← hfs]; rfl) hlive
    (by rw [hself, hpos]) hnext (by rw [firstOf, hself, hfpos])
  refine h.put hi hsound ?_ ?_ hpos (Held.of_stored (by rw [hpos]; exact hlive)
    (by rw [hpos, hself])) ?_
  · intro p hp
    by_cases hpL : p ∈ L'
    · rw [if_pos hpL]
      rcases hw.cells p hpL with hin | hfree
      · exact (hL p hin).symm
      · exact absurd hp hfree
    · rw [if_neg hpL]
  · intro p hp _
    by_cases hpp : p = ino.blk.pos
    · rw [hpp]
      exact hlive
    · rw [live_congr (hback p hpp)]
      by_cases hpL : p ∈ L'
      · exact (hw.stored p hpL).1
      · exact (live_congr (hw.frame p hpL)).mpr hp
  · intro j a ha hne
    exact (h.held j a ha).rewritten hw (hback _ hne)

/-- A write that succeeds leaves the inode with the chain that it has written. -/
theorem Success.anchor {env : Env} {fs fs' fs2 : Shfs} {inode inode' : Block} {data : Bytes}
    {L L' : List Idx} {first : Idx} (h : Success env fs fs' inode inode' data L fs2 first L')
    (hheld : Held fs inode) :
    (some first = firstOf fs inode.pos ∨ ∀ c, some first = some c → ¬ fs.live c) ∧
      inode'.pos = inode.pos ∧ inode'.type = inode.type ∧ inode'.npos = inode.npos ∧
      inode'.fpos.ref = some first := by
  have hin : first ∈ L' := h.chain.chain.head_mem
  obtain ⟨crc, mtime, hinode⟩ := h.inode_eq
  rw [hinode]
  refine ⟨?_, rfl, rfl, rfl, Idx.ref_of_ne (h.chain.stored first hin).2.2.2⟩
  rcases h.head with hnil | hf
  · right
    rintro c hc hl
    cases hc
    rcases h.chain.cells first hin with hmem | hfree
    · rw [hnil] at hmem
      cases hmem
    · exact hfree hl
  · exact Or.inl (by rw [firstOf, hheld.fpos_eq, hf])

section Steps

variable {env : Env} {fuel : Nat} {m : Mount} {own : Idx → Idx} {i : Nat} {ino : Ino}
  {res : Shfs × Block × Except Sherr Unit}

/-- A safe write keeps the mount sound, with the new blocks owned by the inode. -/
theorem Mounted.write {data : Bytes} (h : Mounted m own) (hi : m.inos[i]? = some ino)
    (hsafe : WriteSafe env m.fs ino.blk data)
    (hrun : shfsAuxWrite env fuel m.fs ino.blk data = some res) :
    ∃ own', Mounted (m.put i ino res) own' := by
  obtain ⟨L, hchain, hall, hnot, hL⟩ := h.chain hi
  have hheld := h.held i ino hi
  obtain ⟨hposeq, -, hmap⟩ := h.sound.cell _ hheld.live
  have hfirst : firstOf m.fs ino.blk.pos = ino.blk.fpos.ref := by rw [firstOf, hheld.fpos_eq]
  obtain ⟨fs', blk', r⟩ := res
  rcases auxWrite_spec hchain hall hmap hrun with
    ⟨hnf, -, hfull⟩ | ⟨-, -, fs2, first, L', hsucc⟩
  · -- no block was found: the chain is what it was
    have hwf : WriteFull env m.fs ino.blk L := by
      rcases hsafe L hchain with hf | hf
      · exact absurd hf hnf
      · exact hf
    obtain ⟨rfl, hw⟩ := hfull hwf
    have hself : fs'.block ino.blk.pos = m.fs.block ino.blk.pos := hw.frame _ hnot
    refine ⟨_, h.put hi (hw.sound h.sound hheld.live hL (Or.inl hfirst.symm) (fun _ _ => rfl) rfl
      ((live_congr hself).mpr hheld.live) (by rw [hself, hposeq]) (Or.inl (nextOf_congr hself))
      (by rw [firstOf_congr hself, hfirst])) ?_ ?_ rfl (hheld.rewritten hw rfl) ?_⟩
    · intro p hp
      by_cases hpL : p ∈ L
      · rw [if_pos hpL, hL p hpL]
      · rw [if_neg hpL]
    · intro p hp _
      by_cases hpL : p ∈ L
      · exact (hw.stored p hpL).1
      · exact (live_congr (hw.frame p hpL)).mpr hp
    · intro j a ha _
      exact (h.held j a ha).rewritten hw rfl
  · obtain ⟨writes, hstore⟩ := hsucc.store_eq
    obtain ⟨hhead, hpos, htype, hnpos, hfpos⟩ := hsucc.anchor hheld
    rw [hstore]
    exact ⟨_, h.rewrite hi hL hsucc.chain hhead hpos htype hnpos hfpos⟩

/-! ## Truncation and removal -/

/-- Blocks that refer to the same blocks. -/
structure SameLinks (b b' : Block) : Prop where
  type_eq : b'.type = b.type
  pos_eq : b'.pos = b.pos
  npos_eq : b'.npos = b.npos
  fpos_eq : b'.fpos = b.fpos
  name_eq : b'.name = b.name

-- A truncation that frees no block only changes sizes and data.
/-- A cut that frees no block leaves the links of all of them. -/
theorem cutBlocks_links {fs fs' : Shfs} {len : Nat} : ∀ {L : List Idx} {bOf : Nat},
    AllBegin fs len bOf L → CutBlocks fs fs' len bOf L →
    ∀ p ∈ L, SameLinks (fs.block p) (fs'.block p) := by
  intro L
  induction L with
  | nil =>
    intro bOf _ _ p hp
    cases hp
  | cons a L ih =>
    rintro bOf ⟨hlt, hbegin⟩ ⟨hcut, hrest⟩ p hp
    rcases List.mem_cons.mp hp with rfl | hp
    · rw [if_neg (by omega)] at hcut
      split at hcut
      · obtain ⟨mtime, heq⟩ := hcut
        rw [heq]
        exact ⟨rfl, rfl, rfl, rfl, rfl⟩
      · rw [hcut]
        exact ⟨rfl, rfl, rfl, rfl, rfl⟩
    · exact ih hbegin hrest p hp

/-- The inode is written back, after changes that leave all references alone. -/
theorem Mounted.writeBack {fs1 : Shfs} {b : Block} {writes : Nat} {r : Except Sherr Unit}
    (h : Mounted m own) (hi : m.inos[i]? = some ino)
    (hsame : ∀ p, SameLinks (m.fs.block p) (fs1.block p)) (hsize : fs1.size = m.fs.size)
    (hb : SameLinks ino.blk b) :
    Mounted (m.put i ino ({ fs1 with writes := writes }.store b, b, r)) own := by
  have hheld := h.held i ino hi
  generalize hfs : ({ fs1 with writes := writes } : Shfs).store b = fs'
  have hself : fs'.block ino.blk.pos = b := by
    rw [← hfs, ← hb.pos_eq, Shfs.store_self]
  -- only the block of this inode differs, and not in its links
  have hback : ∀ p, p ≠ ino.blk.pos → fs'.block p = fs1.block p := by
    intro p hp
    rw [← hfs, Shfs.store_ne _ _ (by rw [hb.pos_eq]; exact hp)]
  have hlive : ∀ p, fs'.live p ↔ m.fs.live p := by
    intro p
    by_cases hp : p = ino.blk.pos
    · subst hp
      refine iff_of_true ?_ hheld.live
      rw [Shfs.live, hself, hb.type_eq, ← hheld.type_eq]
      exact hheld.live
    · rw [Shfs.live, hback p hp, (hsame p).type_eq]
      rfl
  have hmap : ∀ p, m.fs.inMap p → fs'.inMap p := by
    intro p hp
    rw [Shfs.inMap, ← hfs]
    show p.ino < maxBlock ∧ p.ino < fs1.size p.jno
    rw [hsize]
    exact hp
  -- a link is the one that was there, or gone with the copy in memory
  have hnext : ∀ p, nextOf fs' p = nextOf m.fs p ∨ nextOf fs' p = none := by
    intro p
    by_cases hp : p = ino.blk.pos
    · rw [hp, nextOf, hself, hb.npos_eq]
      exact hheld.npos_ref
    · rw [nextOf, nextOf, hback p hp, (hsame p).npos_eq]
      exact Or.inl rfl
  have hfirst : ∀ p, firstOf fs' p = firstOf m.fs p := by
    intro p
    by_cases hp : p = ino.blk.pos
    · rw [firstOf, firstOf, hp, hself, hb.fpos_eq, hheld.fpos_eq]
    · rw [firstOf, firstOf, hback p hp, (hsame p).fpos_eq]
  have hclosed : ∀ p q, fs'.live p → nextOf fs' p = some q ∨ firstOf fs' p = some q →
      fs'.live q := by
    intro p q hp hq
    rw [hlive] at hp ⊢
    rcases hq with hq | hq
    · rcases hnext p with heq | hnone
      · exact (h.sound.links.next_mem p q hp (by rw [← heq, hq])).1
      · rw [hnone] at hq
        cases hq
    · exact (h.sound.links.first_mem p q hp (by rw [← hfirst, hq])).1
  have hsound : Sound fs' own := by
    refine ⟨fun p hp => ?_, h.sound.links.shrink (fun p hp => (hlive p).mp hp)
      (fun p _ => hnext p) (fun p _ => Or.inl (hfirst p)) hclosed⟩
    obtain ⟨h1, h2, h3⟩ := h.sound.cell p ((hlive p).mp hp)
    refine ⟨?_, h2, hmap p h3⟩
    by_cases hpp : p = ino.blk.pos
    · rw [hpp, hself, hb.pos_eq]
    · rw [hback p hpp, (hsame p).pos_eq, h1]
  refine h.put hi hsound (fun _ _ => rfl) (fun p hp _ => (hlive p).mpr hp) hb.pos_eq ?_ ?_
  · refine Held.of_stored ?_ (by rw [hb.pos_eq, hself])
    rw [hb.pos_eq, hlive]
    exact hheld.live
  · -- the other inodes in memory
    intro j a ha hne
    have hs := hsame a.blk.pos
    have ha' := h.held j a ha
    refine ⟨(hlive _).mpr ha'.live, ?_, ?_, ?_, ?_⟩
    · rw [hback _ hne, hs.type_eq, ha'.type_eq]
    · rw [hback _ hne, hs.fpos_eq, ha'.fpos_eq]
    · rw [hback _ hne, hs.name_eq, ha'.name_eq]
    · rw [hback _ hne, hs.npos_eq]
      exact ha'.npos_eq

-- An operation that does nothing.
/-- To put back what is there changes nothing. -/
theorem put_self (hi : m.inos[i]? = some ino) (r : Except Sherr Unit) :
    m.put i ino (m.fs, ino.blk, r) = m := by
  obtain ⟨hlt, heq⟩ := List.getElem?_eq_some_iff.mp hi
  simp only [Mount.put]
  congr 1
  rw [← heq]
  exact List.set_getElem_self hlt

/-- A safe truncation keeps the mount sound. -/
theorem Mounted.truncate {len : Nat} (h : Mounted m own) (hi : m.inos[i]? = some ino)
    (hsafe : TruncateSafe m.fs ino.blk len)
    (hrun : shfsInodeTruncate env fuel m.fs ino.blk len = some res) :
    Mounted (m.put i ino res) own := by
  obtain ⟨-, -, hmap⟩ := h.sound.cell _ (h.held i ino hi).live
  obtain ⟨L, hchain, hall, -, -⟩ := h.chain hi
  rcases inodeTruncate_spec hchain hall hmap hrun with
    ⟨-, rfl⟩ | ⟨-, -, rfl⟩ | ⟨hbin, hne, fs1, b, writes, mtime, crc, rfl, rfl, htr⟩
  · rw [put_self hi]
    exact h
  · rw [put_self hi]
    exact h
  · refine h.writeBack hi (fun p => ?_) htr.size_eq ⟨rfl, rfl, rfl, rfl, rfl⟩
    rcases Nat.lt_or_gt_of_ne hne with hgrow | hshrink
    · rw [htr.same hgrow.le]
      exact ⟨rfl, rfl, rfl, rfl, rfl⟩
    · by_cases hp : p ∈ L
      · have hbegin : AllBegin m.fs len 0 L := by
          rcases hsafe with hb | hle | hbegin
          · exact absurd hbin hb
          · omega
          · exact hbegin L hchain
        exact cutBlocks_links hbegin (htr.cut hshrink) p hp
      · rw [htr.frame p hp]
        exact ⟨rfl, rfl, rfl, rfl, rfl⟩

/-- The removal finds all it looks at in an open inode of a sound store. -/
theorem Mounted.clearMapped (h : Mounted m own) (hi : m.inos[i]? = some ino) :
    ClearMapped m.fs ino.blk := by
  have hheld := h.held i ino hi
  have hnext : ino.blk.npos.ino ≠ 0 → m.fs.live ino.blk.npos := by
    intro hne
    rcases hheld.npos_eq with heq | hz
    · refine (h.sound.links.next_mem _ _ hheld.live ?_).1
      rw [nextOf, ← heq, Idx.ref_of_ne hne]
    · exact absurd hz hne
  refine ⟨(h.sound.cell _ hheld.live).2.2, fun hne => ?_, fun hne => ?_, fun hne hne2 => ?_⟩
  · have hfirst : firstOf m.fs ino.blk.pos = some ino.blk.fpos := by
      rw [firstOf, hheld.fpos_eq, Idx.ref_of_ne hne]
    exact (h.sound.cell _ (h.sound.links.first_mem _ _ hheld.live hfirst).1).2.2
  · exact (h.sound.cell _ (hnext hne)).2.2
  · have hbehind := (h.sound.links.next_mem _ _ (hnext hne) (Idx.ref_of_ne hne2)).1
    exact (h.sound.cell _ hbehind).2.2

/-- The first block of an inode's chain is not the inode's sibling. -/
theorem Mounted.fpos_ne_npos (h : Mounted m own) (hi : m.inos[i]? = some ino)
    (hf : ino.blk.fpos.ino ≠ 0) (hn : ino.blk.npos.ino ≠ 0) : ino.blk.npos ≠ ino.blk.fpos := by
  have hheld := h.held i ino hi
  intro heq
  rcases hheld.npos_eq with hsame | hz
  · refine h.sound.links.head _ _ ino.blk.fpos hheld.live hheld.live ?_ ?_
    · rw [firstOf, hheld.fpos_eq, Idx.ref_of_ne hf]
    · rw [nextOf, ← hsame, heq, Idx.ref_of_ne hf]
  · exact hn hz

/-- A safe removal frees the first block of the inode, if it has one, and no other. -/
theorem Mounted.clearedBy (h : Mounted m own) (hi : m.inos[i]? = some ino)
    (hsafe : ClearSafe m ino.blk) :
    Fs.clearedBy m.fs ino.blk = if ino.blk.fpos.ino = 0 then [] else [ino.blk.fpos] := by
  unfold Fs.clearedBy
  by_cases hf : ino.blk.fpos.ino = 0
  · rw [if_pos hf, if_pos hf]
  rw [if_neg hf, if_neg hf]
  by_cases hn : ino.blk.npos.ino = 0
  · rw [if_pos hn]
  have hne := h.fpos_ne_npos hi hf hn
  rw [if_neg hn, wipe_not_mem m.fs (by simpa using hne)]
  rcases hsafe with hz | ⟨hz | hz, -⟩
  · exact absurd hz hf
  · exact absurd hz hn
  · exact if_pos hz

/-- A block of the store has been emptied, and the blocks `C` freed. -/
structure Cleared (fs fs' : Shfs) (blk blk' : Block) (C : List Idx) : Prop where
  pos_eq : blk'.pos = blk.pos
  type_eq : blk'.type = blk.type
  npos_eq : blk'.npos = blk.npos
  fpos_eq : blk'.fpos = Idx.zero
  not_mem : blk.pos ∉ C
  self : fs'.block blk.pos = blk'
  frame : ∀ p, p ≠ blk.pos → p ∉ C → fs'.block p = fs.block p
  dead : ∀ p ∈ C, ¬ fs'.live p
  size_eq : fs'.size = fs.size

/-- What the removal does to the store. -/
theorem Cleared.of_wipe {fs fs' : Shfs} {blk blk' : Block} {C : List Idx} {mtime : UInt64}
    {writes : Nat} (hnot : blk.pos ∉ C) (hblk : blk' = { resetInode blk with mtime := mtime })
    (hfs : fs' = { fs.wipe C with writes := writes }.store blk') :
    Cleared fs fs' blk blk' C := by
  have hpos : blk'.pos = blk.pos := by rw [hblk]; rfl
  refine ⟨hpos, by rw [hblk]; rfl, by rw [hblk]; rfl, by rw [hblk]; rfl, hnot, ?_, ?_, ?_, ?_⟩
  · rw [hfs, ← hpos, Shfs.store_self]
  · intro p hp hpC
    rw [hfs, Shfs.store_ne _ _ (by rw [hpos]; exact hp)]
    exact wipe_not_mem _ hpC
  · intro p hp
    have hne : p ≠ blk.pos := by
      rintro rfl
      exact hnot hp
    rw [Shfs.live, hfs, Shfs.store_ne _ _ (by rw [hpos]; exact hne)]
    show ¬ ((fs.wipe C).block p).type ≠ .null
    rw [wipe_mem _ hp]
    simp [Block.zero]
  · rw [hfs]
    rfl

section Cleared

variable {fs fs' : Shfs} {blk blk' : Block} {C : List Idx}

/-- The inode itself is in use still. -/
theorem Cleared.live_self (hc : Cleared fs fs' blk blk' C) (hheld : Held fs blk) :
    fs'.live blk.pos := by
  rw [Shfs.live, hc.self, hc.type_eq, ← hheld.type_eq]
  exact hheld.live

/-- What lives still is what lived and is not freed. -/
theorem Cleared.live_iff (hc : Cleared fs fs' blk blk' C) (hheld : Held fs blk) (p : Idx) :
    fs'.live p ↔ fs.live p ∧ p ∉ C := by
  by_cases hpC : p ∈ C
  · simp [hc.dead p hpC, hpC]
  by_cases hp : p = blk.pos
  · rw [hp]
    exact iff_of_true (hc.live_self hheld) ⟨hheld.live, hc.not_mem⟩
  · rw [live_congr (hc.frame p hp hpC)]
    simp [hpC]

/-- The next block is the one it was, or the copy has not known of it. -/
theorem Cleared.next (hc : Cleared fs fs' blk blk' C) (hheld : Held fs blk) {p : Idx}
    (hp : fs'.live p) : nextOf fs' p = nextOf fs p ∨ nextOf fs' p = none := by
  by_cases hpp : p = blk.pos
  · have hnpos : nextOf fs' blk.pos = blk.npos.ref := by rw [nextOf, hc.self, hc.npos_eq]
    rw [hpp, hnpos]
    exact hheld.npos_ref
  · exact Or.inl (nextOf_congr (hc.frame p hpp ((hc.live_iff hheld p).mp hp).2))

/-- The inode has no content any more. -/
theorem Cleared.first_self (hc : Cleared fs fs' blk blk' C) : firstOf fs' blk.pos = none := by
  rw [firstOf, hc.self, hc.fpos_eq]
  rfl

/-- The other inodes have the content they had. -/
theorem Cleared.first (hc : Cleared fs fs' blk blk' C) (hheld : Held fs blk) {p : Idx}
    (hp : fs'.live p) (hpp : p ≠ blk.pos) : firstOf fs' p = firstOf fs p :=
  firstOf_congr (hc.frame p hpp ((hc.live_iff hheld p).mp hp).2)

/-- No link leads to a freed block, when each of them was the first block of the
one that has been emptied. -/
theorem Cleared.closed {own : Idx → Idx} (hc : Cleared fs fs' blk blk' C) (hs : Sound fs own)
    (hheld : Held fs blk) (hfreed : ∀ q ∈ C, firstOf fs blk.pos = some q ∧ own q = blk.pos)
    {p q : Idx} (hp : fs'.live p) (hq : nextOf fs' p = some q ∨ firstOf fs' p = some q) :
    fs'.live q := by
  have hpl := ((hc.live_iff hheld p).mp hp).1
  rw [hc.live_iff hheld]
  rcases hq with hq | hq
  · have hq' : nextOf fs p = some q := by
      rcases hc.next hheld hp with heq | hnone
      · rw [← heq, hq]
      · rw [hnone] at hq
        cases hq
    refine ⟨(hs.links.next_mem p q hpl hq').1, fun hmem => ?_⟩
    exact hs.links.head _ p q hheld.live hpl (hfreed q hmem).1 hq'
  · have hpp : p ≠ blk.pos := by
      rintro rfl
      rw [hc.first_self] at hq
      cases hq
    rw [hc.first hheld hp hpp] at hq
    obtain ⟨h1, h2⟩ := hs.links.first_mem p q hpl hq
    exact ⟨h1, fun hmem => hpp (h2.symm.trans (hfreed q hmem).2)⟩

/-- The store is sound afterwards, with the owners it had. -/
theorem Cleared.sound {own : Idx → Idx} (hc : Cleared fs fs' blk blk' C) (hs : Sound fs own)
    (hheld : Held fs blk) (hfreed : ∀ q ∈ C, firstOf fs blk.pos = some q ∧ own q = blk.pos) :
    Sound fs' own := by
  refine ⟨fun p hp => ?_, hs.links.shrink (fun p hp => ((hc.live_iff hheld p).mp hp).1)
    (fun p hp => hc.next hheld hp) (fun p hp => ?_) (fun p q hp => hc.closed hs hheld hfreed hp)⟩
  · obtain ⟨hpl, hpC⟩ := (hc.live_iff hheld p).mp hp
    obtain ⟨h1, h2, h3⟩ := hs.cell p hpl
    refine ⟨?_, h2, by rw [Shfs.inMap, hc.size_eq]; exact h3⟩
    by_cases hpp : p = blk.pos
    · rw [hpp, hc.self, hc.pos_eq]
    · rw [hc.frame p hpp hpC, h1]
  · by_cases hpp : p = blk.pos
    · exact Or.inr (by rw [hpp, hc.first_self])
    · exact Or.inl (hc.first hheld hp hpp)

end Cleared

/-- What is freed belongs to the inode, and only the inode refers to it. -/
theorem Mounted.freed (h : Mounted m own) (hi : m.inos[i]? = some ino) {q : Idx}
    (hq : q ∈ if ino.blk.fpos.ino = 0 then [] else [ino.blk.fpos]) :
    ino.blk.fpos.ino ≠ 0 ∧ q = ino.blk.fpos ∧
      firstOf m.fs ino.blk.pos = some q ∧ own q = ino.blk.pos := by
  have hheld := h.held i ino hi
  by_cases hf : ino.blk.fpos.ino = 0
  · rw [if_pos hf] at hq
    cases hq
  · rw [if_neg hf, List.mem_singleton] at hq
    have hfirst : firstOf m.fs ino.blk.pos = some q := by
      rw [hq, firstOf, hheld.fpos_eq, Idx.ref_of_ne hf]
    exact ⟨hf, hq, hfirst, (h.sound.links.first_mem _ q hheld.live hfirst).2⟩

/-- A safe removal keeps the mount sound. -/
theorem Mounted.clear (h : Mounted m own) (hi : m.inos[i]? = some ino)
    (hsafe : ClearSafe m ino.blk) (hrun : shfsInodeClear env fuel m.fs ino.blk = some res) :
    Mounted (m.put i ino res) own := by
  have hheld := h.held i ino hi
  obtain ⟨mtime, writes, hblk, hr, hfs⟩ := inodeClear_spec (h.clearMapped hi) hrun
  obtain ⟨fs', blk', r⟩ := res
  simp only at hblk hr hfs
  rw [h.clearedBy hi hsafe] at hfs
  generalize hC : (if ino.blk.fpos.ino = 0 then [] else [ino.blk.fpos]) = C at hfs
  have hfreed : ∀ q ∈ C, ino.blk.fpos.ino ≠ 0 ∧ q = ino.blk.fpos ∧
      firstOf m.fs ino.blk.pos = some q ∧ own q = ino.blk.pos := by
    intro q hq
    rw [← hC] at hq
    exact h.freed hi hq
  have hc : Cleared m.fs fs' ino.blk blk' C := by
    refine Cleared.of_wipe (fun hmem => ?_) hblk (by rw [hfs, hblk])
    exact h.sound.links.irrefl _ hheld.live (hfreed _ hmem).2.2.2
  refine h.put hi (hc.sound h.sound hheld fun q hq => (hfreed q hq).2.2) (fun _ _ => rfl)
    (fun p hp hz => ?_) hc.pos_eq ?_ ?_
  · refine (hc.live_iff hheld p).mpr ⟨hp, fun hmem => ?_⟩
    have hzero := (hfreed p hmem).2.2.2.symm.trans hz
    exact (h.sound.cell _ hheld.live).2.1 (by rw [hzero]; rfl)
  · exact Held.of_stored (by rw [hc.pos_eq]; exact hc.live_self hheld)
      (by rw [hc.pos_eq, hc.self])
  · intro j a ha hne
    -- no open inode is freed
    have haC : a.blk.pos ∉ C := by
      intro hmem
      obtain ⟨hf, hpos, -⟩ := hfreed _ hmem
      rcases hsafe with hz | ⟨-, hopen⟩
      · exact hf hz
      · exact hopen j a ha hpos
    exact (h.held j a ha).congr (hc.frame _ hne haC)

/-! ## Opening and creating inodes -/

/-- A search along a chain finds a block of the chain with the name. -/
theorem linkFindLoop_ok {fs : Shfs} {key : ShKey} {blk : Block} : ∀ {L : List Idx} {fuel : Nat}
    {idx : Idx}, Chain (nextOf fs) idx.ref L → AllStored fs L →
    linkFindLoop key fuel fs idx = some (.ok blk) → ∃ p ∈ L, blk = fs.block p ∧ blk.name = key := by
  intro L
  induction L with
  | nil =>
    intro fuel idx hchain _ h
    have hzero : idx.ino = 0 := by
      by_contra hne
      rw [Idx.ref_of_ne hne] at hchain
      cases hchain
    obtain _ | fuel := fuel
    · cases h
    simp [linkFindLoop, hzero] at h
  | cons p L ih =>
    rintro fuel idx ⟨hs, hchain⟩ hall h
    obtain ⟨rfl, hne⟩ := Idx.ref_eq_some hs
    obtain ⟨-, hmap, -, -⟩ := hall p (by simp)
    obtain _ | fuel := fuel
    · cases h
    simp only [linkFindLoop, if_neg hne, shfsInodeReadBlock_ok hmap] at h
    split at h
    · cases h
    split at h
    · next hname =>
      simp only [Option.some.injEq, Except.ok.injEq] at h
      exact ⟨p, by simp, h.symm, by rw [← h]; exact hname⟩
    · obtain ⟨q, hq, heq⟩ := ih hchain (fun q hq => hall q (by simp [hq])) h
      exact ⟨q, by simp [hq], heq⟩

/-- A block becomes an open inode. -/
theorem Mounted.opened {blk : Block} (h : Mounted m own) (hi : m.inos[i]? = some ino)
    (hheld : Held m.fs blk) (hown : own blk.pos = ino.blk.pos)
    (hnew : ∀ (j : Nat) (a : Ino), m.inos[j]? = some a → a.blk.pos ≠ blk.pos) :
    Mounted { m with inos := m.inos ++ [{ blk := blk, parent := some i }] } own := by
  have hget : ∀ (j : Nat) (a : Ino),
      (m.inos ++ [({ blk := blk, parent := some i } : Ino)])[j]? = some a →
      m.inos[j]? = some a ∨ j = m.inos.length ∧ a = { blk := blk, parent := some i } := by
    intro j a ha
    rcases Nat.lt_trichotomy j m.inos.length with hlt | heq | hgt
    · rw [List.getElem?_append_left hlt] at ha
      exact Or.inl ha
    · subst heq
      simp only [List.getElem?_concat_length, Option.some.injEq] at ha
      exact Or.inr ⟨rfl, ha.symm⟩
    · rw [List.getElem?_eq_none (by simp; omega)] at ha
      cases ha
  have hput : ∀ (j : Nat) (a : Ino), m.inos[j]? = some a →
      (m.inos ++ [({ blk := blk, parent := some i } : Ino)])[j]? = some a := by
    intro j a ha
    rw [List.getElem?_append_left (List.getElem?_eq_some_iff.mp ha).1, ha]
  refine ⟨h.sound, ?_, ?_, ?_, ?_⟩
  · intro j a ha
    rcases hget j a ha with ha | ⟨-, rfl⟩
    · exact h.held j a ha
    · exact hheld
  · intro j k a b ha hb hpos
    rcases hget j a ha with ha | ⟨rfl, rfl⟩
    · rcases hget k b hb with hb | ⟨-, rfl⟩
      · exact h.apart j k a b ha hb hpos
      · exact absurd hpos (hnew j a ha)
    · rcases hget k b hb with hb | ⟨rfl, -⟩
      · exact absurd hpos.symm (hnew k b hb)
      · rfl
  · intro j k a ha hpar
    rcases hget j a ha with ha | ⟨rfl, rfl⟩
    · obtain ⟨hlt, p, hp, hownp⟩ := h.parent j k a ha hpar
      exact ⟨hlt, p, hput k p hp, hownp⟩
    · simp only [Option.some.injEq] at hpar
      subst hpar
      exact ⟨(List.getElem?_eq_some_iff.mp hi).1, ino, hput i ino hi, hown⟩
  · intro j a ha hpar
    rcases hget j a ha with ha | ⟨-, rfl⟩
    · exact h.root j a ha hpar
    · cases hpar

/-- An inode that has been opened before is found among the open ones. -/
theorem Mounted.find_open {key : ShKey} {p : Idx} {j : Nat} {a : Ino} (h : Mounted m own)
    (hi : m.inos[i]? = some ino) (hown : own p = ino.blk.pos)
    (hname : (m.fs.block p).name = key) (ha : m.inos[j]? = some a) (hpos : a.blk.pos = p) :
    a.parent = some i ∧ a.blk.name = key := by
  have hheld := h.held j a ha
  refine ⟨?_, by rw [← hheld.name_eq, hpos, hname]⟩
  cases hpar : a.parent with
  | none =>
    -- the root directory is owned by the supernode, which is not open
    obtain ⟨-, hz⟩ := h.root j a ha hpar
    rw [hpos, hown] at hz
    cases hpi : ino.parent with
    | none =>
      obtain ⟨hl, -⟩ := h.root i ino hi hpi
      rw [hz] at hl
      exact absurd rfl (h.sound.cell _ hl).2.1
    | some k =>
      obtain ⟨-, pino, hpino, hpown⟩ := h.parent i k ino hi hpi
      have hzero : pino.blk.pos = Idx.zero := by rw [← hpown, hz]
      exact absurd (by rw [hzero]; rfl) (h.sound.cell _ (h.held k pino hpino).live).2.1
  | some k =>
    obtain ⟨-, pino, hpino, hpown⟩ := h.parent j k a ha hpar
    have hki : k = i := by
      refine h.apart k i pino ino hpino hi ?_
      rw [← hpown, hpos, hown]
    rw [hki]

/-- A new block in front of the chain of an inode. -/
theorem rewritten_push {fs fs1 : Shfs} {child : Block} {writes : Nat} {L : List Idx}
    {first : Option Idx} (hchain : Chain (nextOf fs) first L) (hall : AllStored fs L)
    (hblock : fs1.block = fs.block) (hsize : ∀ j, fs.size j ≤ fs1.size j)
    (htop : TopFree fs1 child.pos) (htype : child.type ≠ .null) (hnpos : child.npos.ref = first)
    (hfpos : child.fpos = Idx.zero) :
    Rewritten fs ({ fs1 with writes := writes }.store child) L (some child.pos)
      (child.pos :: L) := by
  generalize hfs : ({ fs1 with writes := writes } : Shfs).store child = fs2
  -- the block is a free one, so none of the chain is touched
  have hfree : ¬ fs.live child.pos := by
    have := htop.free
    rw [Shfs.live, hblock] at this
    exact this
  have hnot : child.pos ∉ L := fun hmem => hfree (hall _ hmem).1
  have hself : fs2.block child.pos = child := by rw [← hfs, Shfs.store_self]
  have hback : ∀ p, p ≠ child.pos → fs2.block p = fs.block p := by
    intro p hp
    rw [← hfs, Shfs.store_ne _ _ hp]
    show fs1.block p = fs.block p
    rw [hblock]
  have hbackL : ∀ p ∈ L, fs2.block p = fs.block p := by
    intro p hp
    refine hback p ?_
    rintro rfl
    exact hnot hp
  have hmap : ∀ p, fs.inMap p → fs2.inMap p := by
    intro p hp
    rw [← hfs]
    exact ⟨hp.1, Nat.lt_of_lt_of_le hp.2 (hsize _)⟩
  refine ⟨⟨rfl, ?_⟩, ?_, ?_, ?_, ?_, ?_, ?_⟩
  · rw [nextOf, hself, hnpos]
    exact hchain.congr fun p hp => nextOf_congr (hbackL p hp)
  · intro p hp
    rcases List.mem_cons.mp hp with rfl | hp
    · exact Or.inr hfree
    · exact Or.inl hp
  · intro p hp
    rw [List.mem_cons, not_or] at hp
    exact hback p hp.1
  · intro p hp
    rcases List.mem_cons.mp hp with rfl | hp
    · have hino := htop.ino_pos
      refine ⟨by rw [Shfs.live, hself]; exact htype, ?_, by rw [hself], by omega⟩
      rw [← hfs]
      exact htop.inMap
    · obtain ⟨h1, h2, h3, h4⟩ := hall p hp
      exact ⟨(live_congr (hbackL p hp)).mpr h1, hmap p h2, by rw [hbackL p hp, h3], h4⟩
  · intro p hp hl
    rcases List.mem_cons.mp hp with rfl | hp
    · exact absurd hl hfree
    · rw [hbackL p hp]
      exact ⟨rfl, rfl, rfl, fun _ => rfl⟩
  · intro p hp hl
    rcases List.mem_cons.mp hp with rfl | hp
    · rw [hself, hfpos]
    · exact absurd (hall p hp).1 hl
  · intro j
    rw [← hfs]
    exact hsize j

/-- What linking a new inode has done: a new block in front of the parent's
chain, then the parent. -/
structure Linked (fs fs' : Shfs) (parent pblk inode blk : Block) (L : List Idx) (fs2 : Shfs) :
    Prop where
  chain : Rewritten fs fs2 L (some blk.pos) (blk.pos :: L)
  parent_eq : ∃ mtime, pblk = { parent with fpos := blk.pos, mtime := mtime }
  store_eq : ∃ writes, fs' = { fs2 with writes := writes }.store pblk
  block_eq : fs2.block blk.pos = blk
  free : ¬ fs.live blk.pos
  ref_eq : blk.pos.ref = some blk.pos
  name_eq : blk.name = inode.name
  type_eq : blk.type = inode.type
  fpos_eq : blk.fpos = inode.fpos
  frame : ∀ p, p ≠ blk.pos → fs2.block p = fs.block p
  jno_ne : blk.pos.jno ≠ 0
  size_eq : fs2.size 0 = fs.size 0

/-- Linking a new inode: nothing happens if no position is found for it. -/
theorem linkNew_spec {fs fs' : Shfs} {parent inode pblk blk : Block} {r : Except Sherr Unit}
    {L : List Idx} (hchain : Chain (nextOf fs) parent.fpos.ref L) (hall : AllStored fs L)
    (hmap : fs.inMap parent.pos) (htype : inode.type ≠ .null) (hfpos : inode.fpos = Idx.zero)
    (hrun : linkNew env fs parent inode = (fs', pblk, blk, r)) :
    ((∃ err, r = .error err) ∧ fs' = fs ∧ pblk = parent) ∨
    (r = .ok () ∧ ∃ fs2, Linked fs fs' parent pblk inode blk L fs2) := by
  -- the block that the new inode refers to
  have hread : ∃ nblk : Block, (if parent.fpos.ino = 0 then .ok Block.zero
      else shfsInodeReadBlock fs parent.fpos) = .ok nblk ∧ nblk.pos.ref = parent.fpos.ref := by
    by_cases hz : parent.fpos.ino = 0
    · exact ⟨Block.zero, by rw [if_pos hz], by rw [Idx.ref_of_eq hz]; rfl⟩
    · have hin : parent.fpos ∈ L := by
        rw [Idx.ref_of_ne hz] at hchain
        exact hchain.head_mem
      obtain ⟨-, hm, hpos, -⟩ := hall _ hin
      exact ⟨_, by rw [if_neg hz, shfsInodeReadBlock_ok hm], by rw [hpos]⟩
  obtain ⟨nblk, hread, hnref⟩ := hread
  unfold linkNew at hrun
  simp only [hread] at hrun
  cases hscan : shfsJournalScan env fs inode.name with
  | error err =>
    simp only [hscan, Prod.mk.injEq] at hrun
    obtain ⟨rfl, rfl, -, rfl⟩ := hrun
    exact Or.inl ⟨⟨err, rfl⟩, rfl, rfl⟩
  | ok c =>
    obtain ⟨fs1, idx⟩ := c
    obtain ⟨hjno, htop, heq, hle⟩ := shfsJournalScan_ok hscan
    have hblock : fs1.block = fs.block := by rw [heq]
    have hkey := env.journalIndex_pos inode.name
    have hsize : fs1.size 0 = fs.size 0 := scanRetry_size hscan 0 (by omega)
    simp only [hscan] at hrun
    rw [shfsInodeWriteBlock_ok (show fs1.born.inMap idx from htop.inMap)] at hrun
    simp only at hrun
    generalize hchild : ({ inode with
      npos := nblk.pos, pos := idx, ctime := env.birth fs1.births
      mtime := env.clock fs1.born.writes
      crc := shfsCrcInit { inode with
        npos := nblk.pos, pos := idx, ctime := env.birth fs1.births
        mtime := env.birth fs1.births } } : Block) = child at hrun
    have hcpos : child.pos = idx := by rw [← hchild]
    have hw : Rewritten fs ({ fs1.born with writes := fs1.born.writes + 1 }.store child) L
        (some child.pos) (child.pos :: L) := by
      refine rewritten_push hchain hall hblock hle ?_ ?_ ?_ ?_
      · rw [hcpos]
        exact ⟨htop.ino_pos, htop.inMap, htop.size_le, htop.free, htop.above⟩
      · rw [← hchild]
        exact htype
      · rw [← hchild]
        exact hnref
      · rw [← hchild]
        exact hfpos
    generalize hfs2 : ({ fs1.born with writes := fs1.born.writes + 1 } : Shfs).store child = fs2
      at hrun hw
    have hm2 : fs2.inMap parent.pos := ⟨hmap.1, Nat.lt_of_lt_of_le hmap.2 (hw.size_le _)⟩
    rw [shfsInodeWriteBlock_ok (show fs2.inMap { parent with fpos := idx }.pos from hm2)] at hrun
    simp only [Prod.mk.injEq] at hrun
    obtain ⟨hfs', hpblk, rfl, rfl⟩ := hrun
    refine Or.inr ⟨rfl, fs2, hw, ⟨env.clock fs2.writes, ?_⟩, ⟨fs2.writes + 1, ?_⟩, ?_, ?_, ?_, ?_,
      ?_, ?_, ?_, ?_, ?_⟩
    · rw [← hpblk, hcpos]
    · rw [← hfs', ← hpblk]
    · rw [← hfs2, Shfs.store_self]
    · have := htop.free
      rw [Shfs.live, hblock] at this
      rw [hcpos]
      exact this
    · rw [hcpos]
      exact htop.ref
    · rw [← hchild]
    · rw [← hchild]
    · rw [← hchild]
    · intro p hp
      rw [← hfs2, Shfs.store_ne _ _ hp]
      show fs1.block p = fs.block p
      rw [hblock]
    · rw [hcpos]
      omega
    · rw [← hfs2]
      exact hsize

/-- A new inode that is linked to an open one keeps the mount sound; one that is not changes
nothing. -/
theorem Mounted.linkNew {inode pblk blk : Block} {fs' : Shfs} {r : Except Sherr Unit}
    (h : Mounted m own) (hi : m.inos[i]? = some ino) (htype : inode.type ≠ .null)
    (hfpos : inode.fpos = Idx.zero)
    (hrun : Fs.linkNew env m.fs ino.blk inode = (fs', pblk, blk, r)) :
    ((∃ err, r = .error err) ∧ fs' = m.fs ∧ pblk = ino.blk) ∨
    (r = .ok () ∧ ∃ own', Mounted (m.put i ino (fs', pblk, r)) own' ∧ Held fs' blk ∧
      own' blk.pos = pblk.pos ∧ ¬ m.fs.live blk.pos) := by
  have hheld := h.held i ino hi
  obtain ⟨L, hchain, hall, -, hL⟩ := h.chain hi
  obtain ⟨-, -, hmap⟩ := h.sound.cell _ hheld.live
  rcases linkNew_spec hchain hall hmap htype hfpos hrun with hfail | ⟨rfl, fs2, hlink⟩
  · exact Or.inl hfail
  obtain ⟨mtime, hpblk⟩ := hlink.parent_eq
  obtain ⟨writes, hfs'⟩ := hlink.store_eq
  have hppos : pblk.pos = ino.blk.pos := by rw [hpblk]
  have hne : blk.pos ≠ pblk.pos := by
    intro heq
    exact hlink.free (by rw [heq, hppos]; exact hheld.live)
  have hback : fs'.block blk.pos = fs2.block blk.pos := by rw [hfs', Shfs.store_ne _ _ hne]
  refine Or.inr ⟨rfl, fun q => if q ∈ blk.pos :: L then ino.blk.pos else own q, ?_, ?_, ?_,
    hlink.free⟩
  · rw [hfs']
    exact h.rewrite hi hL hlink.chain (Or.inr fun c hc => by cases hc; exact hlink.free) hppos
      (by rw [hpblk]) (by rw [hpblk]) (by rw [hpblk]; exact hlink.ref_eq)
  · refine Held.of_stored ?_ (by rw [hback, hlink.block_eq])
    rw [live_congr hback]
    exact (hlink.chain.stored _ (by simp)).1
  · rw [hppos]
    exact if_pos List.mem_cons_self

/-- The type that an inode is opened by is never NULL. -/
theorem inodePath_ne_null (name : Bytes) (mode : Shinode) : (inodePath name mode).2 ≠ .null := by
  have hdef : ∀ d : Shinode, d ≠ .null → (if mode = .null then d else mode) ≠ .null := by
    intro d hd
    split
    · exact hd
    · assumption
  by_cases hslash : (name.take (blockDataSize - 34 - 1)).getLast? = some 0x2f
  · simp only [inodePath, if_pos hslash]
    exact hdef .directory (by decide)
  · simp only [inodePath, if_neg hslash]
    exact hdef .file (by decide)

-- An inode that was not found is linked.
/-- Where there is no block of the name, a new one is linked. -/
theorem shfsLink_noent {fs : Shfs} {parent inode : Block}
    (hfind : shfsLinkFind fuel fs parent inode.name = some (.error .noent)) :
    shfsLink env fuel fs parent inode = some (linkNew env fs parent inode) := by
  have hcont : parent.type.isContainer = true := by
    by_contra hcon
    simp only [shfsLinkFind, hcon] at hfind
    cases hfind
  unfold shfsLink
  rw [if_pos hcont, hfind]

/-- The key of an inode below another one. -/
def childKey (env : Env) (parent : Block) (name : Bytes) (mode : Shinode) : ShKey :=
  env.token parent.name parent.salt (inodePath name mode).2 (inodePath name mode).1

/-- The open inode below another one (`shfs_cache_get`). -/
def findChild (m : Mount) (i : Nat) (key : ShKey) : Option Nat :=
  m.inos.findIdx? fun ino => decide (ino.parent = some i ∧ ino.blk.name = key)

/-- A write of a block changes its time only. -/
theorem shfsInodeWriteBlock_eq {fs fs' : Shfs} {blk blk' : Block} {r : Except Sherr Unit}
    (h : shfsInodeWriteBlock env fs blk = (fs', blk', r)) :
    ∃ mtime, blk' = { blk with mtime := mtime } := by
  unfold shfsInodeWriteBlock at h
  split at h
  · cases h
    exact ⟨_, rfl⟩
  · cases h
    exact ⟨blk.mtime, rfl⟩

/-- A new inode below another one: what becomes of the two blocks. -/
theorem linkNew_eq {fs fs' : Shfs} {parent pblk inode blk : Block} {r : Except Sherr Unit}
    (hrun : linkNew env fs parent inode = (fs', pblk, blk, r)) :
    (∃ fpos mtime, pblk = { parent with fpos := fpos, mtime := mtime }) ∧
    ∃ npos pos ctime mtime crc,
      blk =
        { inode with npos := npos, pos := pos, ctime := ctime, mtime := mtime, crc := crc } := by
  unfold linkNew at hrun
  split at hrun
  · cases hrun
    exact ⟨⟨_, _, rfl⟩, _, _, _, _, _, rfl⟩
  next nblk hnext =>
  dsimp only at hrun
  split at hrun
  · cases hrun
    exact ⟨⟨_, _, rfl⟩, _, _, _, _, _, rfl⟩
  next fs1 idx hscan =>
  split at hrun
  · next hwrite =>
    obtain ⟨mtime, rfl⟩ := shfsInodeWriteBlock_eq hwrite
    cases hrun
    exact ⟨⟨_, _, rfl⟩, _, _, _, _, _, rfl⟩
  next fs2 inode2 u hwrite =>
  obtain ⟨mtime, hinode2⟩ := shfsInodeWriteBlock_eq hwrite
  rcases hparent : shfsInodeWriteBlock env fs2 { parent with fpos := inode2.pos }
      with ⟨fs3, pblk3, r3⟩
  simp only [hparent, Prod.mk.injEq] at hrun
  obtain ⟨-, rfl, rfl, -⟩ := hrun
  obtain ⟨mtime', rfl⟩ := shfsInodeWriteBlock_eq hparent
  rw [hinode2]
  exact ⟨⟨_, _, rfl⟩, _, _, _, _, _, rfl⟩

/-- The inode that `shfs_inode` makes, before it is linked. -/
def childInode (env : Env) (parent : Block) (name : Bytes) (mode : Shinode) : Block :=
  newInode (childKey env parent name mode) (inodePath name mode).2 (inodePath name mode).1

/-- What `shfs_inode` can do: nothing, open an inode of the store, or link the one
that it makes. -/
theorem shfsInode_split {name : Bytes} {mode : Shinode} {acc : Access} {res : Mount × Option Nat}
    (hrun : shfsInode env fuel m i name mode acc = some res) :
    (res.1 = m ∧ ∀ n, res.2 = some n →
      ∃ ino, m.inos[i]? = some ino ∧ findChild m i (childKey env ino.blk name mode) = some n) ∨
    (∃ ino, m.inos[i]? = some ino ∧ findChild m i (childKey env ino.blk name mode) = none ∧
      ino.blk.type.isContainer = true ∧ res.2 = some m.inos.length ∧
      ((∃ blk, linkFindLoop (childKey env ino.blk name mode) fuel m.fs ino.blk.fpos =
          some (.ok blk) ∧
        res.1 = { m with inos := m.inos ++ [{ blk := blk, parent := some i }] }) ∨
      ∃ fs' pblk blk, linkFindLoop (childKey env ino.blk name mode) fuel m.fs ino.blk.fpos =
          some (.error .noent) ∧
        linkNew env m.fs ino.blk (childInode env ino.blk name mode) = (fs', pblk, blk, .ok ()) ∧
        res.1 = { m.put i ino (fs', pblk, .ok ()) with
          inos := (m.put i ino (fs', pblk, .ok ())).inos ++
            [{ blk := { blk with owner := acc.owner, attr := acc.attr, salt := acc.salt }
               parent := some i }] })) ∨
    (∃ ino fs' pblk blk err, m.inos[i]? = some ino ∧
      linkNew env m.fs ino.blk (childInode env ino.blk name mode) = (fs', pblk, blk, .error err) ∧
      res = (m.put i ino (fs', pblk, .error err), none)) := by
  unfold shfsInode at hrun
  cases hi : m.inos[i]? with
  | none =>
    simp only [hi, Option.some.injEq] at hrun
    rw [← hrun]
    exact Or.inl ⟨rfl, fun n hn => by cases hn⟩
  | some ino =>
    simp only [hi] at hrun
    have hfindkey : (m.inos.findIdx? fun a => decide (a.parent = some i ∧ a.blk.name =
        env.token ino.blk.name ino.blk.salt (inodePath name mode).2 (inodePath name mode).1)) =
        findChild m i (childKey env ino.blk name mode) := rfl
    rw [hfindkey] at hrun
    -- the children that are open are looked through first, then those on the disk
    cases hopen : findChild m i (childKey env ino.blk name mode) with
    | some n =>
      simp only [hopen, Option.some.injEq] at hrun
      rw [← hrun]
      exact Or.inl ⟨rfl, fun k hk => ⟨ino, rfl, by rw [hopen]; exact hk⟩⟩
    | none =>
    simp only [hopen] at hrun
    split at hrun
    · cases hrun
    · next blk hfind =>
      unfold shfsLinkFind at hfind
      split at hfind
      · next hcont =>
        cases hrun
        exact Or.inr (Or.inl ⟨ino, rfl, hopen, hcont, rfl, Or.inl ⟨blk, hfind, rfl⟩⟩)
      · cases hfind
    · next hfind =>
      have hcont : ino.blk.type.isContainer = true := by
        by_contra hcon
        simp only [shfsLinkFind, hcon] at hfind
        cases hfind
      have hinode : newInode (env.token ino.blk.name ino.blk.salt (inodePath name mode).2
        (inodePath name mode).1) (inodePath name mode).2 (inodePath name mode).1 =
          childInode env ino.blk name mode := rfl
      rw [hinode, shfsLink_noent (by exact hfind)] at hrun
      -- linking fails, or the new block is opened
      rcases hlink : linkNew env m.fs ino.blk (childInode env ino.blk name mode) with
        ⟨fs', pblk, blk, err | ⟨⟨⟩⟩⟩
      · simp only [hlink, Option.some.injEq] at hrun
        exact Or.inr (Or.inr ⟨ino, fs', pblk, blk, err, rfl, hlink, hrun.symm⟩)
      · simp only [hlink, Option.some.injEq] at hrun
        rw [← hrun]
        have hloop : linkFindLoop (childKey env ino.blk name mode) fuel m.fs ino.blk.fpos =
            some (.error .noent) := by
          rw [shfsLinkFind, if_pos hcont] at hfind
          exact hfind
        exact Or.inr (Or.inl ⟨ino, rfl, hopen, hcont, rfl,
          Or.inr ⟨fs', pblk, blk, hloop, hlink, rfl⟩⟩)
    · cases hrun
      exact Or.inl ⟨rfl, fun n hn => by cases hn⟩

/-- What a lookup does: an open inode, a block that is opened, or a new inode. -/
theorem shfsInode_cases {name : Bytes} {mode : Shinode} {acc : Access} {res : Mount × Option Nat}
    (hrun : shfsInode env fuel m i name mode acc = some res) :
    (res.1 = m ∧ ∀ n, res.2 = some n →
      ∃ ino, m.inos[i]? = some ino ∧ findChild m i (childKey env ino.blk name mode) = some n) ∨
    (∃ ino, m.inos[i]? = some ino ∧ findChild m i (childKey env ino.blk name mode) = none ∧
      ino.blk.type.isContainer = true ∧ res.2 = some m.inos.length ∧
      ((∃ blk, linkFindLoop (childKey env ino.blk name mode) fuel m.fs ino.blk.fpos =
          some (.ok blk) ∧
        res.1 = { m with inos := m.inos ++ [{ blk := blk, parent := some i }] }) ∨
      ∃ inode fs' pblk blk, inode.type ≠ .null ∧ inode.fpos = Idx.zero ∧
        inode.name = childKey env ino.blk name mode ∧
        linkFindLoop (childKey env ino.blk name mode) fuel m.fs ino.blk.fpos =
          some (.error .noent) ∧
        linkNew env m.fs ino.blk inode = (fs', pblk, blk, .ok ()) ∧
        res.1 = { m.put i ino (fs', pblk, .ok ()) with
          inos := (m.put i ino (fs', pblk, .ok ())).inos ++
            [{ blk := { blk with owner := acc.owner, attr := acc.attr, salt := acc.salt }
               parent := some i }] })) ∨
    (∃ ino inode fs' pblk blk err, m.inos[i]? = some ino ∧ inode.type ≠ .null ∧
      inode.fpos = Idx.zero ∧ linkNew env m.fs ino.blk inode = (fs', pblk, blk, .error err) ∧
      res = (m.put i ino (fs', pblk, .error err), none)) := by
  have htype : ∀ ino : Ino, (childInode env ino.blk name mode).type ≠ .null := fun _ =>
    inodePath_ne_null name mode
  rcases shfsInode_split hrun with h | ⟨ino, hi, hnone, hcont, hn,
      hopen | ⟨fs', pblk, blk, hloop, hlink, hres⟩⟩ |
    ⟨ino, fs', pblk, blk, err, hi, hlink, hres⟩
  · exact Or.inl h
  · exact Or.inr (Or.inl ⟨ino, hi, hnone, hcont, hn, Or.inl hopen⟩)
  · exact Or.inr (Or.inl ⟨ino, hi, hnone, hcont, hn,
      Or.inr ⟨_, fs', pblk, blk, htype ino, rfl, rfl, hloop, hlink, hres⟩⟩)
  · exact Or.inr (Or.inr ⟨ino, _, fs', pblk, blk, err, hi, htype ino, rfl, hlink, hres⟩)

/-- An inode of the store that is not open yet. -/
theorem Mounted.found {key : ShKey} {blk : Block} (h : Mounted m own)
    (hi : m.inos[i]? = some ino) (hnone : findChild m i key = none)
    (hfind : linkFindLoop key fuel m.fs ino.blk.fpos = some (.ok blk)) :
    Held m.fs blk ∧ own blk.pos = ino.blk.pos ∧
      (∀ (j : Nat) (a : Ino), m.inos[j]? = some a → a.blk.pos ≠ blk.pos) ∧ blk.name = key := by
  obtain ⟨L, hchain, hall, -, hL⟩ := h.chain hi
  obtain ⟨p, hp, hblk, hname⟩ := linkFindLoop_ok hchain hall hfind
  obtain ⟨hlive, -, hpos, -⟩ := hall p hp
  have hbpos : blk.pos = p := by rw [hblk, hpos]
  refine ⟨Held.of_stored (by rw [hbpos]; exact hlive) (by rw [hbpos, hblk]),
    by rw [hbpos, hL p hp], fun j a ha heq => ?_, hname⟩
  have hopen := h.find_open hi (hL p hp) (by rw [← hblk, hname]) ha (heq.trans hbpos)
  have hfalse := List.findIdx?_eq_none_iff.mp hnone a (List.mem_of_getElem? ha)
  simp only [hopen.1, hopen.2, and_self, decide_true, Bool.true_eq_false] at hfalse

/-- A new inode that has been linked is opened. -/
theorem Mounted.openNew {own' : Idx → Idx} {fs' : Shfs} {pblk blk : Block} (acc : Access)
    (h : Mounted m own) (hi : m.inos[i]? = some ino)
    (hm' : Mounted (m.put i ino (fs', pblk, .ok ())) own') (hheld : Held fs' blk)
    (hown : own' blk.pos = pblk.pos) (hfree : ¬ m.fs.live blk.pos) :
    Mounted { m.put i ino (fs', pblk, .ok ()) with
      inos := (m.put i ino (fs', pblk, .ok ())).inos ++
        [{ blk := { blk with owner := acc.owner, attr := acc.attr, salt := acc.salt }
           parent := some i }] } own' := by
  have hlt : i < m.inos.length := (List.getElem?_eq_some_iff.mp hi).1
  have hi' : (m.put i ino (fs', pblk, .ok ())).inos[i]? =
      some { ino with blk := pblk } := List.getElem?_set_self hlt
  refine hm'.opened hi' ?_ hown ?_
  · exact ⟨hheld.live, hheld.type_eq, hheld.fpos_eq, hheld.name_eq, hheld.npos_eq⟩
  · -- the other open inodes were in use before
    intro j a ha heq
    by_cases hj : j = i
    · subst hj
      rw [hi'] at ha
      cases ha
      exact hm'.sound.links.irrefl _ hheld.live (hown.trans heq)
    · have ha' : m.inos[j]? = some a := by
        rw [← ha]
        exact (List.getElem?_set_ne (Ne.symm hj)).symm
      exact hfree (heq ▸ (h.held j a ha').live)

/-- A lookup keeps the mount sound. -/
theorem Mounted.inode {name : Bytes} {mode : Shinode} {acc : Access} {res : Mount × Option Nat}
    (h : Mounted m own) (hrun : shfsInode env fuel m i name mode acc = some res) :
    ∃ own', Mounted res.1 own' := by
  rcases shfsInode_cases hrun with ⟨hsame, -⟩ | ⟨ino, hi, hnone, -, -, ⟨blk, hfind, hres⟩ |
    ⟨inode, fs', pblk, blk, htype, hfpos, -, -, hlink, hres⟩⟩ |
    ⟨ino, inode, fs', pblk, blk, err, hi, htype, hfpos, hlink, hres⟩
  · rw [hsame]
    exact ⟨own, h⟩
  · rw [hres]
    obtain ⟨hheld, hown, hnew, -⟩ := h.found hi hnone hfind
    exact ⟨own, h.opened hi hheld hown hnew⟩
  · rw [hres]
    rcases h.linkNew hi htype hfpos hlink with
      ⟨⟨err, hcon⟩, -, -⟩ | ⟨-, own', hm', hheld, hown, hfree⟩
    · cases hcon
    · exact ⟨own', h.openNew acc hi hm' hheld hown hfree⟩
  · rw [hres]
    rcases h.linkNew hi htype hfpos hlink with ⟨-, rfl, rfl⟩ | ⟨hcon, -⟩
    · exact ⟨own, by rw [put_self hi]; exact h⟩
    · cases hcon

end Steps

end LibShare.Fs
