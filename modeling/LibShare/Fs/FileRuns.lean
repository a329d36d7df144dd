import LibShare.Fs.File
import LibShare.Fs.Resize

/-!
# libshare — runs of file operations

`Filed` is what holds of a partition under file operations, beyond `Mounted`:
no open inode is a content block, and the content blocks of every binary inode
carry the sizes that a write leaves in them.

Files are opened, read, written and truncated in any order (`FileReached`). The
writes and truncations of a run have reported success, and the truncations have
freed no block.
-/

namespace LibShare.Fs

/-! ## The binary inode of a file -/

section Child

variable {env : Env} {m : Mount} {i j : Nat} {ino : Ino} {key : ShKey}

/-- A lookup by name is the same after an inode has been written back under its name. -/
theorem findChild_put {fs' : Shfs} {blk' : Block} {r : Except Sherr Unit}
    (hi : m.inos[i]? = some ino) (hname : blk'.name = ino.blk.name) :
    findChild (m.put i ino (fs', blk', r)) j key = findChild m j key := by
  obtain ⟨hlt, heq⟩ := List.getElem?_eq_some_iff.mp hi
  have hmap : ∀ (l : List Ino) (p : Ino → Bool), l.findIdx? p = (l.map p).findIdx? id := by
    intro l p
    rw [List.findIdx?_map, Function.id_comp]
  unfold findChild
  rw [hmap, hmap m.inos]
  congr 1
  show (m.inos.set i { ino with blk := blk' }).map _ = _
  rw [List.map_set]
  simp only [hname]
  apply List.ext_getElem?
  intro k
  by_cases hk : i = k
  · subst hk
    rw [List.getElem?_set_self (by simpa using hlt), List.getElem?_map, hi]
    rfl
  · rw [List.getElem?_set_ne hk]

/-- What a lookup finds has the parent and the name. -/
theorem findChild_some {n : Nat} (h : findChild m i key = some n) :
    ∃ a, m.inos[n]? = some a ∧ a.parent = some i ∧ a.blk.name = key := by
  obtain ⟨hlt, hp, -⟩ := List.findIdx?_eq_some_iff_getElem.mp h
  exact ⟨m.inos[n], List.getElem?_eq_getElem hlt, of_decide_eq_true hp⟩

/-- An inode that has been opened is found under its name. -/
theorem findChild_concat {a : Ino} (hnone : findChild m i key = none) (hpar : a.parent = some i)
    (hname : a.blk.name = key) :
    findChild { m with inos := m.inos ++ [a] } i key = some m.inos.length := by
  unfold findChild at hnone ⊢
  show (m.inos ++ [a]).findIdx? _ = _
  rw [List.findIdx?_append, hnone]
  simp [hpar, hname]

end Child

/-- A file and its binary inode are open. -/
structure BinOpen (env : Env) (m : Mount) (f b : Nat) (file bin : Ino) : Prop where
  file_eq : m.inos[f]? = some file
  bin_eq : m.inos[b]? = some bin
  find_eq : findChild m f (childKey env file.blk [] .binary) = some b

section BinOpen

variable {env : Env} {fuel : Nat} {m : Mount} {own : Idx → Idx} {f b : Nat} {file bin : Ino}
  {acc : Access}

/-- The binary inode that is open is the one that is found. -/
theorem BinOpen.shfsBin (h : BinOpen env m f b file bin) :
    Fs.shfsBin env fuel m f acc = some (m, some (b, bin)) := by
  have hinode : shfsInode env fuel m f [] .binary acc = some (m, some b) := by
    unfold shfsInode
    have hfind := h.find_eq
    unfold findChild childKey at hfind
    simp only [h.file_eq, hfind]
  unfold Fs.shfsBin
  rw [hinode]
  simp only [h.bin_eq, Option.map_some]

/-- The binary inode is below its file. -/
theorem BinOpen.parent_eq (h : BinOpen env m f b file bin) : bin.parent = some f := by
  obtain ⟨a, ha, hpar, -⟩ := findChild_some h.find_eq
  rw [h.bin_eq] at ha
  cases ha
  exact hpar

/-- A file is not its own binary inode. -/
theorem BinOpen.ne (h : BinOpen env m f b file bin) (hm : Mounted m own) : f ≠ b :=
  Nat.ne_of_lt (hm.parent b f bin h.bin_eq h.parent_eq).1

/-- The block of the binary inode is owned by that of the file. -/
theorem BinOpen.own_eq (h : BinOpen env m f b file bin) (hm : Mounted m own) :
    own bin.blk.pos = file.blk.pos := by
  obtain ⟨-, pino, hp, hown⟩ := hm.parent b f bin h.bin_eq h.parent_eq
  rw [h.file_eq] at hp
  cases hp
  exact hown

/-- The binary inode may be written back under its name. -/
theorem BinOpen.put_bin {fs' : Shfs} {blk' : Block} {r : Except Sherr Unit}
    (h : BinOpen env m f b file bin) (hne : f ≠ b) (hname : blk'.name = bin.blk.name) :
    BinOpen env (m.put b bin (fs', blk', r)) f b file { bin with blk := blk' } := by
  refine ⟨?_, List.getElem?_set_self (List.getElem?_eq_some_iff.mp h.bin_eq).1, ?_⟩
  · rw [← h.file_eq]
    exact List.getElem?_set_ne (Ne.symm hne)
  · rw [findChild_put h.bin_eq hname]
    exact h.find_eq

/-- The file may be written back under its name and with its salt. -/
theorem BinOpen.put_file {fs' : Shfs} {blk' : Block} {r : Except Sherr Unit}
    (h : BinOpen env m f b file bin) (hne : f ≠ b) (hname : blk'.name = file.blk.name)
    (hsalt : blk'.salt = file.blk.salt) :
    BinOpen env (m.put f file (fs', blk', r)) f b { file with blk := blk' } bin := by
  refine ⟨List.getElem?_set_self (List.getElem?_eq_some_iff.mp h.file_eq).1, ?_, ?_⟩
  · rw [← h.bin_eq]
    exact List.getElem?_set_ne hne
  · rw [findChild_put h.file_eq hname]
    show findChild m f (env.token blk'.name blk'.salt _ _) = some b
    rw [hname, hsalt]
    exact h.find_eq

end BinOpen

/-! ## The invariant -/

/-- What file operations keep. -/
structure Filed (m : Mount) (own : Idx → Idx) : Prop where
  mounted : Mounted m own
  above : ∀ (i : Nat) (ino : Ino), m.inos[i]? = some ino →
    (m.fs.block (own ino.blk.pos)).type ≠ .binary
  chunked : ∀ p, m.fs.live p → (m.fs.block p).type = .binary →
    ∃ L n, Chain (nextOf m.fs) (firstOf m.fs p) L ∧ Chunked m.fs n L

/-- The owner of an open inode is in use. -/
theorem Mounted.owner_live {m : Mount} {own : Idx → Idx} {i : Nat} {ino : Ino} (h : Mounted m own)
    (hi : m.inos[i]? = some ino) : m.fs.live (own ino.blk.pos) := by
  cases hpar : ino.parent with
  | none => exact (h.root i ino hi hpar).1
  | some j =>
    obtain ⟨-, pino, hp, hown⟩ := h.parent i j ino hi hpar
    rw [hown]
    exact (h.held j pino hp).live

section Filed

variable {m : Mount} {own own' : Idx → Idx} {i : Nat} {ino : Ino} {fs' : Shfs} {blk' : Block}
  {r : Except Sherr Unit}

/-- The content of an open binary inode. -/
theorem Filed.content (h : Filed m own) (hi : m.inos[i]? = some ino)
    (htype : ino.blk.type = .binary) :
    ∃ L n, Chain (nextOf m.fs) ino.blk.fpos.ref L ∧ Chunked m.fs n L := by
  have hheld := h.mounted.held i ino hi
  obtain ⟨L, n, hchain, hchunk⟩ := h.chunked _ hheld.live (by rw [hheld.type_eq, htype])
  rw [firstOf, hheld.fpos_eq] at hchain
  exact ⟨L, n, hchain, hchunk⟩

/-- No open inode is a content block. -/
theorem Filed.not_content (h : Filed m own) (hi : m.inos[i]? = some ino) {p q : Idx}
    (hp : (m.fs.block p).type = .binary) (hq : own q = p) : ino.blk.pos ≠ q := by
  rintro rfl
  exact h.above i ino hi (by rw [hq, hp])

/-- An operation on an open inode: the blocks that it changes are the inode's,
and it frees none. -/
theorem Filed.put (h : Filed m own) (hi : m.inos[i]? = some ino)
    (hm : Mounted (m.put i ino (fs', blk', r)) own') (hpos : blk'.pos = ino.blk.pos)
    (hown : ∀ p, m.fs.live p → own' p = own p)
    (htype : ∀ p, m.fs.live p → (fs'.block p).type = (m.fs.block p).type)
    (hframe : ∀ p, m.fs.live p → p ≠ ino.blk.pos → own p ≠ ino.blk.pos →
      fs'.block p = m.fs.block p)
    (hfirst : ∀ p, m.fs.live p → p ≠ ino.blk.pos → firstOf fs' p = firstOf m.fs p)
    (hnew : ∀ p, fs'.live p → ¬ m.fs.live p → firstOf fs' p = none)
    (hself : ino.blk.type = .binary → ∃ L n, Chain (nextOf fs') blk'.fpos.ref L ∧ Chunked fs' n L) :
    Filed (m.put i ino (fs', blk', r)) own' := by
  have hi' : (m.put i ino (fs', blk', r)).inos[i]? = some { ino with blk := blk' } :=
    List.getElem?_set_self (List.getElem?_eq_some_iff.mp hi).1
  refine ⟨hm, ?_, ?_⟩
  · intro j a ha
    obtain ⟨a', ha', hposa, -, -⟩ := Mount.put_get hi hpos ha
    show (fs'.block (own' a.blk.pos)).type ≠ .binary
    rw [hposa, hown _ (h.mounted.held j a' ha').live, htype _ (h.mounted.owner_live ha')]
    exact h.above j a' ha'
  · intro p hp hbin
    change fs'.live p at hp
    change (fs'.block p).type = .binary at hbin
    show ∃ L n, Chain (nextOf fs') (firstOf fs' p) L ∧ Chunked fs' n L
    by_cases hlive : m.fs.live p
    · rw [htype p hlive] at hbin
      by_cases hpp : p = ino.blk.pos
      · have hfpos : firstOf fs' p = blk'.fpos.ref := by
          have := (hm.held i _ hi').fpos_eq
          rw [firstOf, hpp, ← hpos]
          exact congrArg Idx.ref this
        rw [hfpos]
        refine hself ?_
        rw [← (h.mounted.held i ino hi).type_eq, ← hpp, hbin]
      · -- the chain of another inode: none of its blocks has changed
        obtain ⟨L, n, hchain, hchunk⟩ := h.chunked p hlive hbin
        have hmem := h.mounted.sound.links.mem_chain hlive hchain
        have hback : ∀ q ∈ L, fs'.block q = m.fs.block q := by
          intro q hq
          obtain ⟨hql, hqo⟩ := hmem q hq
          exact hframe q hql (Ne.symm (h.not_content hi hbin hqo)) (by rw [hqo]; exact hpp)
        rw [hfirst p hlive hpp]
        exact ⟨L, n, hchain.congr fun q hq => nextOf_congr (hback q hq),
          chunked_congr (fun q hq => by rw [hback q hq]) hchunk⟩
    · rw [hnew p hp hlive]
      exact ⟨[], 0, Chain.nil, trivial⟩

/-- The chain of an open inode has been written to, then the inode. -/
theorem Filed.rewrite {fs2 : Shfs} {L L' : List Idx} {s : Option Idx} {b : Block} {writes : Nat}
    (h : Filed m own) (hi : m.inos[i]? = some ino) (hL : ∀ p ∈ L, own p = ino.blk.pos)
    (hw : Rewritten m.fs fs2 L s L')
    (hs : s = firstOf m.fs ino.blk.pos ∨ ∀ c, s = some c → ¬ m.fs.live c)
    (hpos : b.pos = ino.blk.pos) (htype : b.type = ino.blk.type) (hnpos : b.npos = ino.blk.npos)
    (hfpos : b.fpos.ref = s) (hself : ino.blk.type = .binary → ∃ n, Chunked fs2 n L') :
    Filed (m.put i ino ({ fs2 with writes := writes }.store b, b, r))
      fun q => if q ∈ L' then ino.blk.pos else own q := by
  have hheld := h.mounted.held i ino hi
  have hm : Mounted (m.put i ino ({ fs2 with writes := writes }.store b, b, r))
      fun q => if q ∈ L' then ino.blk.pos else own q :=
    h.mounted.rewrite hi hL hw hs hpos htype hnpos hfpos
  have hold : ∀ p ∈ L', m.fs.live p → own p = ino.blk.pos := by
    intro p hp hl
    rcases hw.cells p hp with hin | hfree
    · exact hL p hin
    · exact absurd hl hfree
  have hpL : ino.blk.pos ∉ L' := fun hmem =>
    h.mounted.sound.links.irrefl _ hheld.live (hold _ hmem hheld.live)
  generalize hfs : ({ fs2 with writes := writes } : Shfs).store b = fs' at hm ⊢
  have hself' : fs'.block ino.blk.pos = b := by rw [← hfs, ← hpos, Shfs.store_self]
  have hback : ∀ q, q ≠ ino.blk.pos → fs'.block q = fs2.block q := by
    intro q hq
    rw [← hfs, Shfs.store_ne _ _ (by rw [hpos]; exact hq)]
  have hne : ∀ q ∈ L', q ≠ ino.blk.pos := fun q hq heq => hpL (heq ▸ hq)
  -- the fields of `Filed`, for a block of the new chain and for any other
  refine h.put hi hm hpos ?_ ?_ ?_ ?_ ?_ ?_
  · intro p hl
    by_cases hp : p ∈ L'
    · rw [if_pos hp, hold p hp hl]
    · rw [if_neg hp]
  · intro p hl
    by_cases hpp : p = ino.blk.pos
    · rw [hpp, hself', htype, hheld.type_eq]
    · rw [hback p hpp]
      by_cases hp : p ∈ L'
      · exact (hw.kept p hp hl).type_eq
      · rw [hw.frame p hp]
  · intro p hl hpp hown
    rw [hback p hpp, hw.frame p fun hp => hown (hold p hp hl)]
  · intro p hl hpp
    rw [firstOf_congr (hback p hpp)]
    by_cases hp : p ∈ L'
    · rw [firstOf, (hw.kept p hp hl).fpos_eq, firstOf]
    · exact firstOf_congr (hw.frame p hp)
  · intro p hl' hl
    have hpp : p ≠ ino.blk.pos := by
      rintro rfl
      exact hl hheld.live
    have hp : p ∈ L' := by
      by_contra hp
      refine hl ?_
      rw [← live_congr (hw.frame p hp), ← live_congr (hback p hpp)]
      exact hl'
    rw [firstOf_congr (hback p hpp), firstOf, hw.fresh p hp hl]
    rfl
  · intro hbin
    obtain ⟨n, hchunk⟩ := hself hbin
    rw [hfpos]
    exact ⟨L', n, hw.chain.congr fun q hq => nextOf_congr (hback q (hne q hq)),
      chunked_congr (fun q hq => by rw [hback q (hne q hq)]) hchunk⟩

/-- The inode is written back, after changes to the data of its own blocks. -/
theorem Filed.writeBack {fs1 : Shfs} {b : Block} {writes : Nat} (h : Filed m own)
    (hi : m.inos[i]? = some ino) (hsame : ∀ p, SameLinks (m.fs.block p) (fs1.block p))
    (hsize : fs1.size = m.fs.size) (hb : SameLinks ino.blk b)
    (hframe : ∀ p, m.fs.live p → own p ≠ ino.blk.pos → fs1.block p = m.fs.block p)
    (hself : ino.blk.type = .binary →
      ∃ L n, Chain (nextOf m.fs) ino.blk.fpos.ref L ∧ Chunked fs1 n L) :
    Filed (m.put i ino ({ fs1 with writes := writes }.store b, b, r)) own := by
  have hheld := h.mounted.held i ino hi
  have hm : Mounted (m.put i ino ({ fs1 with writes := writes }.store b, b, r)) own :=
    h.mounted.writeBack hi hsame hsize hb
  generalize hfs : ({ fs1 with writes := writes } : Shfs).store b = fs' at hm ⊢
  have hself' : fs'.block ino.blk.pos = b := by rw [← hfs, ← hb.pos_eq, Shfs.store_self]
  have hback : ∀ q, q ≠ ino.blk.pos → fs'.block q = fs1.block q := by
    intro q hq
    rw [← hfs, Shfs.store_ne _ _ (by rw [hb.pos_eq]; exact hq)]
  refine h.put hi hm hb.pos_eq (fun _ _ => rfl) ?_ ?_ ?_ ?_ ?_
  · intro p hl
    by_cases hpp : p = ino.blk.pos
    · rw [hpp, hself', hb.type_eq, hheld.type_eq]
    · rw [hback p hpp, (hsame p).type_eq]
  · intro p hl hpp hown
    rw [hback p hpp, hframe p hl hown]
  · intro p hl hpp
    rw [firstOf_congr (hback p hpp), firstOf, (hsame p).fpos_eq, firstOf]
  · intro p hl' hl
    have hpp : p ≠ ino.blk.pos := by
      rintro rfl
      exact hl hheld.live
    refine absurd ?_ hl
    rw [Shfs.live, ← (hsame p).type_eq, ← hback p hpp]
    exact hl'
  · intro hbin
    obtain ⟨L, n, hchain, hchunk⟩ := hself hbin
    have hfirst : firstOf m.fs ino.blk.pos = ino.blk.fpos.ref := by rw [firstOf, hheld.fpos_eq]
    have hmem := h.mounted.sound.links.mem_chain hheld.live (hfirst ▸ hchain)
    have hback' : ∀ q ∈ L, fs'.block q = fs1.block q := by
      intro q hq
      refine hback q ?_
      rintro rfl
      exact h.mounted.sound.links.irrefl _ hheld.live (hmem _ hq).2
    rw [hb.fpos_eq]
    refine ⟨L, n, hchain.congr fun q hq => ?_,
      chunked_congr (fun q hq => by rw [hback' q hq]) hchunk⟩
    rw [nextOf, hback' q hq, (hsame q).npos_eq, nextOf]

end Filed

/-! ## Opening -/

section Steps

variable {env : Env} {fuel : Nat} {m : Mount} {own : Idx → Idx} {i : Nat} {ino : Ino}

/-- One more inode may be opened below one that is no binary inode. -/
theorem Filed.opened {blk : Block} (h : Filed m own) (hi : m.inos[i]? = some ino)
    (hino : ino.blk.type ≠ .binary) (hheld : Held m.fs blk) (hown : own blk.pos = ino.blk.pos)
    (hnew : ∀ (j : Nat) (a : Ino), m.inos[j]? = some a → a.blk.pos ≠ blk.pos) :
    Filed { m with inos := m.inos ++ [{ blk := blk, parent := some i }] } own := by
  refine ⟨h.mounted.opened hi hheld hown hnew, ?_, h.chunked⟩
  intro j a ha
  change (m.inos ++ [({ blk := blk, parent := some i } : Ino)])[j]? = some a at ha
  rw [List.getElem?_append] at ha
  split at ha
  · exact h.above j a ha
  · obtain rfl := List.mem_singleton.mp (List.mem_of_getElem? ha)
    show (m.fs.block (own blk.pos)).type ≠ .binary
    rw [hown, (h.mounted.held i ino hi).type_eq]
    exact hino

/-- What an operation leaves alone in an inode that is not its subject. -/
structure SameFile (blk blk' : Block) : Prop where
  type_eq : blk'.type = blk.type
  format_eq : blk'.format = blk.format
  attr_eq : blk'.attr = blk.attr

/-- A lookup below an inode that is no binary one keeps files in order. -/
theorem Filed.inode {name : Bytes} {mode : Shinode} {acc : Access} {res : Mount × Option Nat}
    (h : Filed m own) (hi : m.inos[i]? = some ino) (hino : ino.blk.type ≠ .binary)
    (hrun : shfsInode env fuel m i name mode acc = some res) :
    ∃ own', Filed res.1 own' ∧ ∃ ino', res.1.inos[i]? = some ino' ∧ SameFile ino.blk ino'.blk ∧
      ∀ n, res.2 = some n → findChild res.1 i (childKey env ino'.blk name mode) = some n := by
  have hlt : i < m.inos.length := (List.getElem?_eq_some_iff.mp hi).1
  rcases shfsInode_cases hrun with ⟨hsame, hopen⟩ | ⟨a, ha, hnone, -, hn, ⟨blk, hfind, hres⟩ |
    ⟨inode, fs', pblk, blk, htype, hfpos, hname, -, hlink, hres⟩⟩ |
    ⟨a, inode, fs', pblk, blk, err, ha, htype, hfpos, hlink, hres⟩
  · -- the child is open already
    rw [hsame]
    refine ⟨own, h, ino, hi, ⟨rfl, rfl, rfl⟩, fun n hn => ?_⟩
    obtain ⟨a, ha, hfind⟩ := hopen n hn
    rw [hi] at ha
    cases ha
    exact hfind
  · -- the child is on the disk, and is opened
    rw [hi] at ha
    cases ha
    obtain ⟨hheld, hown, hnew, hname⟩ := h.mounted.found hi hnone hfind
    rw [hres]
    refine ⟨own, h.opened hi hino hheld hown hnew, ino, ?_, ⟨rfl, rfl, rfl⟩, fun n hn' => ?_⟩
    · exact (List.getElem?_append_left hlt).trans hi
    · rw [hn] at hn'
      cases hn'
      exact findChild_concat hnone rfl hname
  · -- the child is created: its block goes in front of the parent's chain
    rw [hi] at ha
    cases ha
    have hheldi := h.mounted.held i ino hi
    obtain ⟨L, hchain, hall, -, hL⟩ := h.mounted.chain hi
    obtain ⟨-, -, hmap⟩ := h.mounted.sound.cell _ hheldi.live
    rcases linkNew_spec hchain hall hmap htype hfpos hlink with ⟨⟨err, hcon⟩, -, -⟩ | ⟨-, fs2, hl⟩
    · cases hcon
    obtain ⟨mtime, hpblk⟩ := hl.parent_eq
    obtain ⟨writes, hfs'⟩ := hl.store_eq
    have hppos : pblk.pos = ino.blk.pos := by rw [hpblk]
    have hne : blk.pos ≠ pblk.pos := by
      intro heq
      exact hl.free (by rw [heq, hppos]; exact hheldi.live)
    have hback : fs'.block blk.pos = fs2.block blk.pos := by rw [hfs', Shfs.store_ne _ _ hne]
    have hfiled : Filed (m.put i ino (fs', pblk, .ok ()))
        fun q => if q ∈ blk.pos :: L then ino.blk.pos else own q := by
      rw [hfs']
      exact h.rewrite hi hL hl.chain (Or.inr fun c hc => by cases hc; exact hl.free) hppos
        (by rw [hpblk]) (by rw [hpblk]) (by rw [hpblk]; exact hl.ref_eq)
        fun hbin => absurd hbin hino
    have hheld : Held fs' blk := by
      refine Held.of_stored ?_ (by rw [hback, hl.block_eq])
      rw [live_congr hback]
      exact (hl.chain.stored _ (by simp)).1
    have hi' : (m.put i ino (fs', pblk, .ok ())).inos[i]? = some { ino with blk := pblk } :=
      List.getElem?_set_self hlt
    have hlen : (m.put i ino (fs', pblk, .ok ())).inos.length = m.inos.length := List.length_set
    have hopen := h.mounted.openNew acc hi hfiled.mounted hheld
      ((if_pos List.mem_cons_self).trans hppos.symm) hl.free
    rw [hres]
    refine ⟨_, ⟨hopen, ?_, hfiled.chunked⟩, { ino with blk := pblk }, ?_, ?_, ?_⟩
    · intro j a ha
      change ((m.put i ino (fs', pblk, .ok ())).inos ++ [_])[j]? = some a at ha
      rw [List.getElem?_append] at ha
      split at ha
      · exact hfiled.above j a ha
      · obtain rfl := List.mem_singleton.mp (List.mem_of_getElem? ha)
        show (fs'.block (if blk.pos ∈ blk.pos :: L then ino.blk.pos else _)).type ≠ .binary
        have htp : (fs'.block pblk.pos).type = pblk.type := (hfiled.mounted.held i _ hi').type_eq
        rw [if_pos List.mem_cons_self, ← hppos, htp, hpblk]
        exact hino
    · exact (List.getElem?_append_left (by rw [hlen]; exact hlt)).trans hi'
    · rw [hpblk]
      exact ⟨rfl, rfl, rfl⟩
    · intro n hn'
      rw [hn] at hn'
      cases hn'
      have hkey : childKey env pblk name mode = childKey env ino.blk name mode := by
        rw [hpblk]
        rfl
      rw [← hlen]
      refine findChild_concat ?_ rfl ?_
      · rw [findChild_put hi (by rw [hpblk]), hkey]
        exact hnone
      · show blk.name = _
        rw [hl.name_eq, hname, hkey]
  · -- linking has failed, and has written nothing
    rw [hi] at ha
    cases ha
    rcases h.mounted.linkNew hi htype hfpos hlink with ⟨-, rfl, rfl⟩ | ⟨hcon, -⟩
    · rw [hres, put_self hi]
      exact ⟨own, h, ino, hi, ⟨rfl, rfl, rfl⟩, fun n hn => by cases hn⟩
    · cases hcon

/-! ## Writing and truncating -/

variable {f b : Nat} {file bin : Ino} {acc : Access}

/-- A write that succeeds keeps files in order. -/
theorem Filed.auxWrite {data : Bytes} {fs' : Shfs} {blk' : Block} (h : Filed m own)
    (hb : m.inos[b]? = some bin)
    (hrun : shfsAuxWrite env fuel m.fs bin.blk data = some (fs', blk', .ok ())) :
    ∃ own', Filed (m.put b bin (fs', blk', .ok ())) own' := by
  have hheld := h.mounted.held b bin hb
  obtain ⟨L, hchain, hall, -, hL⟩ := h.mounted.chain hb
  obtain ⟨-, -, hmap⟩ := h.mounted.sound.cell _ hheld.live
  rcases auxWrite_spec hchain hall hmap hrun with ⟨-, ⟨err, hr⟩, -⟩ | ⟨-, -, fs2, first, L', hsucc⟩
  · cases hr
  obtain ⟨writes, hstore⟩ := hsucc.store_eq
  obtain ⟨hhead, hpos, htype, hnpos, hfpos⟩ := hsucc.anchor hheld
  obtain ⟨n, hchunk, -⟩ := hsucc.fits.sizes
  rw [hstore]
  exact ⟨_, h.rewrite hb hL hsucc.chain hhead hpos htype hnpos hfpos fun _ => ⟨n, hchunk⟩⟩

-- The sizes that a truncation leaves are those of the shorter content.
/-- A chain that is cut is a chain with the sizes of the shorter content. -/
theorem cutBlocks_chunked {fs fs' : Shfs} : ∀ {L : List Idx} {total bOf n : Nat},
    Chunked fs total L → AllBegin fs (bOf + n) bOf L → CutBlocks fs fs' (bOf + n) bOf L →
    Chunked fs' (min total n) L := by
  intro L
  induction L with
  | nil =>
    intro total bOf n _ _ _
    trivial
  | cons p L ih =>
    rintro total bOf n ⟨hsize, hchunk⟩ ⟨hlt, hbegin⟩ ⟨hcut, hrest⟩
    rw [if_neg (by omega)] at hcut
    by_cases hin : bOf + n ≤ bOf + (fs.block p).size
    · -- the length falls into this block, so it is the last one
      rw [if_pos hin] at hcut
      obtain ⟨mtime, heq⟩ := hcut
      obtain _ | ⟨q, L⟩ := L
      · refine ⟨?_, trivial⟩
        rw [heq]
        show min blockDataSize (bOf + n - bOf) = min blockDataSize (min total n)
        omega
      · have := hbegin.1
        omega
    · rw [if_neg hin] at hcut
      have hlen : bOf + n = bOf + (fs.block p).size + (n - (fs.block p).size) := by omega
      rw [hlen] at hbegin hrest
      have hih := ih hchunk hbegin hrest
      refine ⟨?_, ?_⟩
      · rw [hcut]
        omega
      · have htotal : min (total - blockDataSize) (n - (fs.block p).size) =
            min total n - blockDataSize := by omega
        rw [← htotal]
        exact hih

/-- A truncation that frees no block keeps files in order. -/
theorem Filed.inodeTruncate {len : Nat} {fs' : Shfs} {blk' : Block} (h : Filed m own)
    (hb : m.inos[b]? = some bin) (hsafe : TruncateSafe m.fs bin.blk len)
    (hrun : shfsInodeTruncate env fuel m.fs bin.blk len = some (fs', blk', .ok ())) :
    Filed (m.put b bin (fs', blk', .ok ())) own := by
  have hheld := h.mounted.held b bin hb
  obtain ⟨L, hchain, hall, -, hL⟩ := h.mounted.chain hb
  obtain ⟨-, -, hmap⟩ := h.mounted.sound.cell _ hheld.live
  rcases inodeTruncate_spec hchain hall hmap hrun with
    ⟨-, hres⟩ | ⟨-, -, hres⟩ | ⟨hbin, hne, fs1, b', writes, mtime, crc, rfl, hres, htr⟩
  · cases hres
  · cases hres
    rw [put_self hb]
    exact h
  · obtain ⟨L', n, hchain', hchunk⟩ := h.content hb hbin
    obtain rfl := hchain'.unique hchain
    have hbegin : len < bin.blk.size → AllBegin m.fs len 0 L' := by
      intro hlt
      rcases hsafe with hcon | hle | hbegin
      · exact absurd hbin hcon
      · omega
      · exact hbegin L' hchain
    cases hres
    refine h.writeBack hb (fun p => ?_) htr.size_eq ⟨rfl, rfl, rfl, rfl, rfl⟩ ?_ ?_
    · rcases Nat.lt_or_gt_of_ne hne with hgrow | hshrink
      · rw [htr.same hgrow.le]
        exact ⟨rfl, rfl, rfl, rfl, rfl⟩
      · by_cases hp : p ∈ L'
        · exact cutBlocks_links (hbegin hshrink) (htr.cut hshrink) p hp
        · rw [htr.frame p hp]
          exact ⟨rfl, rfl, rfl, rfl, rfl⟩
    · intro p _ hown
      exact htr.frame p fun hp => hown (hL p hp)
    · intro _
      rcases Nat.lt_or_gt_of_ne hne with hgrow | hshrink
      · exact ⟨L', n, hchain, chunked_congr (fun p _ => by rw [htr.same hgrow.le]) hchunk⟩
      · have hlen : len = 0 + len := (Nat.zero_add len).symm
        have hcut := htr.cut hshrink
        have hall0 := hbegin hshrink
        rw [hlen] at hcut hall0
        exact ⟨L', min n len, hchain, cutBlocks_chunked hchunk hall0 hcut⟩

/-- The file is written after its binary inode. -/
theorem Filed.entity {blk : Block} {writes : Nat} {r : Except Sherr Unit} (h : Filed m own)
    (hf : m.inos[f]? = some file) (hfile : file.blk.type ≠ .binary) (hb : SameLinks file.blk blk) :
    Filed (m.put f file ({ m.fs with writes := writes }.store blk, blk, r)) own :=
  h.writeBack hf (fun _ => ⟨rfl, rfl, rfl, rfl, rfl⟩) rfl hb (fun _ _ _ => rfl)
    fun hbin => absurd hbin hfile

/-- An inode that is written to its block changes its time only. -/
theorem shfsInodeWriteEntity_inv {blk : Block} {m' : Mount} (hf : m.inos[f]? = some file)
    (hrun : shfsInodeWriteEntity env (m.setBlk f file blk) f = (m', .ok ())) :
    ∃ mtime writes, m' = m.put f file
      ({ m.fs with writes := writes }.store { blk with mtime := mtime },
        { blk with mtime := mtime }, .ok ()) := by
  have hget : (m.setBlk f file blk).inos[f]? = some { file with blk := blk } :=
    List.getElem?_set_self (List.getElem?_eq_some_iff.mp hf).1
  unfold shfsInodeWriteEntity at hrun
  simp only [hget, Prod.mk.injEq] at hrun
  obtain ⟨hm', hr⟩ := hrun
  rcases hres : shfsInodeWriteBlock env (m.setBlk f file blk).fs blk with ⟨fs', blk', r⟩
  rw [hres] at hm' hr
  obtain rfl : r = .ok () := hr
  obtain ⟨mtime, writes, rfl, rfl⟩ := shfsInodeWriteBlock_inv hres
  refine ⟨mtime, writes, ?_⟩
  rw [← hm']
  simp only [Mount.put, Mount.setBlk, List.set_set]

/-- An inode that is used as a file: it is not the content of one itself, and
its content is not of a format with code of its own. -/
structure Block.Plain (blk : Block) : Prop where
  type_ne : blk.type ≠ .binary
  attr_eq : blk.attr &&& shattrDb = 0
  format_ne : blk.format ∉ [.reference, .ext, .compress, .database, .directory]

/-- A plain file with another time is plain. -/
theorem Block.Plain.congr {blk blk' : Block} (h : blk.Plain) (heq : SameFile blk blk') :
    blk'.Plain := by
  refine ⟨?_, ?_, ?_⟩
  · rw [heq.type_eq]
    exact h.type_ne
  · rw [heq.attr_eq]
    exact h.attr_eq
  · rw [heq.format_eq]
    exact h.format_ne

variable {other : Formats} {m' : Mount}

/-- The binary inode of a file is opened, or created. -/
theorem Filed.shfsBin {res : Option (Nat × Ino)} (h : Filed m own) (hf : m.inos[f]? = some file)
    (hfile : file.blk.type ≠ .binary) (hrun : Fs.shfsBin env fuel m f acc = some (m', res)) :
    ∃ own', Filed m' own' ∧ ∃ file', m'.inos[f]? = some file' ∧ SameFile file.blk file'.blk ∧
      ∀ b bin, res = some (b, bin) → BinOpen env m' f b file' bin := by
  unfold Fs.shfsBin at hrun
  split at hrun
  · cases hrun
  · next m1 hinode =>
    cases hrun
    obtain ⟨own', hm, file', hf', hsame, -⟩ := h.inode hf hfile hinode
    exact ⟨own', hm, file', hf', hsame, fun b bin hres => by cases hres⟩
  · next m1 n hinode =>
    simp only [Option.some.injEq, Prod.mk.injEq] at hrun
    obtain ⟨rfl, rfl⟩ := hrun
    obtain ⟨own', hm, file', hf', hsame, hfind⟩ := h.inode hf hfile hinode
    refine ⟨own', hm, file', hf', hsame, fun b bin hres => ?_⟩
    obtain ⟨a, ha, heq⟩ := Option.map_eq_some_iff.mp hres
    cases heq
    exact ⟨hf', ha, hfind n rfl⟩

/-- A plain file is written through its binary inode. -/
theorem shfsWrite_plain {data : Bytes} (hf : m.inos[f]? = some file) (hplain : file.blk.Plain) :
    shfsWrite env other fuel m f data acc =
      match shfsBinWrite env fuel m f data acc with
      | none => none
      | some (m, .error err) => some (m, .error err)
      | some (m, .ok _) => some (shfsInodeWriteEntity env m f) := by
  have hattr : ¬ file.blk.attr &&& shattrDb ≠ 0 := not_not.mpr hplain.attr_eq
  have hformat := hplain.format_ne
  unfold shfsWrite
  simp only [hf, if_neg hattr]
  generalize file.blk.format = format at hformat
  cases format <;> first | rfl | (exfalso; exact hformat (by decide))

/-- `shfs_write` to a file whose binary inode is open. -/
theorem shfsWrite_inv {data : Bytes} (h : BinOpen env m f b file bin) (hne : f ≠ b)
    (hplain : file.blk.Plain)
    (hrun : shfsWrite env other fuel m f data acc = some (m', .ok ())) :
    ∃ fs1 blk1 mtime writes,
      shfsAuxWrite env fuel m.fs bin.blk data = some (fs1, blk1, .ok ()) ∧
      m' = (m.put b bin (fs1, blk1, .ok ())).put f file
        ({ fs1 with writes := writes }.store
          { copyStats file.blk blk1 with format := .binary, mtime := mtime },
          { copyStats file.blk blk1 with format := .binary, mtime := mtime }, .ok ()) := by
  rw [shfsWrite_plain h.file_eq hplain] at hrun
  unfold shfsBinWrite at hrun
  rw [h.shfsBin] at hrun
  simp only at hrun
  rcases hres : shfsAuxWrite env fuel m.fs bin.blk data with _ | ⟨fs1, blk1, err | ⟨⟨⟩⟩⟩
  · simp only [hres] at hrun
    cases hrun
  · simp only [hres] at hrun
    cases hrun
  · have hf : (m.put b bin (fs1, blk1, .ok ())).inos[f]? = some file := by
      rw [← h.file_eq]
      exact List.getElem?_set_ne (Ne.symm hne)
    simp only [hres, hf, Option.some.injEq] at hrun
    obtain ⟨mtime, writes, heq⟩ := shfsInodeWriteEntity_inv hf hrun
    exact ⟨fs1, blk1, mtime, writes, rfl, heq⟩

/-- A truncation that succeeds is one of a binary file. -/
theorem shfsTruncate_ok {len : Nat} (hf : m.inos[f]? = some file)
    (hrun : shfsTruncate env fuel m f len acc = some (m', .ok ())) :
    file.blk.format = .binary ∧ binTruncate env fuel m f len acc = some (m', .ok ()) := by
  unfold shfsTruncate at hrun
  simp only [hf] at hrun
  split at hrun
  · cases hrun
  · generalize file.blk.format = format at hrun
    split at hrun
    · cases hrun
    · exact ⟨rfl, hrun⟩
    · cases hrun

/-- The truncation of a file whose binary inode is open. -/
theorem binTruncate_inv {len : Nat} (h : BinOpen env m f b file bin) (hne : f ≠ b)
    (hrun : binTruncate env fuel m f len acc = some (m', .ok ())) :
    ∃ fs1 blk1 mtime writes,
      shfsInodeTruncate env fuel m.fs bin.blk len = some (fs1, blk1, .ok ()) ∧
      m' = (m.put b bin (fs1, blk1, .ok ())).put f file
        ({ fs1 with writes := writes }.store { copyStats file.blk blk1 with mtime := mtime },
          { copyStats file.blk blk1 with mtime := mtime }, .ok ()) := by
  unfold binTruncate at hrun
  rw [h.shfsBin] at hrun
  simp only at hrun
  rcases hres : shfsInodeTruncate env fuel m.fs bin.blk len with _ | ⟨fs1, blk1, err | ⟨⟨⟩⟩⟩
  · simp only [hres] at hrun
    cases hrun
  · simp only [hres] at hrun
    cases hrun
  · have hf : (m.put b bin (fs1, blk1, .ok ())).inos[f]? = some file := by
      rw [← h.file_eq]
      exact List.getElem?_set_ne (Ne.symm hne)
    simp only [hres, hf, Option.some.injEq] at hrun
    obtain ⟨mtime, writes, heq⟩ := shfsInodeWriteEntity_inv hf hrun
    exact ⟨fs1, blk1, mtime, writes, rfl, heq⟩

/-- `shfs_read` of a file whose binary inode is open. -/
theorem BinOpen.shfsRead (h : BinOpen env m f b file bin) (hformat : file.blk.format = .binary) :
    Fs.shfsRead env other fuel m f acc =
      (shfsAuxRead fuel m.fs bin.blk).map fun res => (m, res) := by
  unfold Fs.shfsRead
  simp only [h.file_eq, hformat]
  unfold shfsBinRead
  rw [if_neg (by rw [hformat]; simp), h.shfsBin]

end Steps

/-! ## Runs -/

/-- The truncation of a file frees no block of its binary inode. -/
def KeepsBlocks (env : Env) (fuel : Nat) (m : Mount) (f len : Nat) (acc : Access) : Prop :=
  ∀ m' b bin, shfsBin env fuel m f acc = some (m', some (b, bin)) →
    TruncateSafe m'.fs bin.blk len

/-- The mounts that file operations reach from a new partition. -/
inductive FileReached (env : Env) (other : Formats) : Mount → Prop
  | init {peerKey rootKey : ShKey} {peerRaw : Bytes} {salt : UInt16} {m : Mount}
      (h : shfsInitNew env peerKey rootKey peerRaw salt = .ok m) : FileReached env other m
  | inode {m m' : Mount} {fuel i : Nat} {ino : Ino} {name : Bytes} {mode : Shinode} {acc : Access}
      {n : Option Nat} (hm : FileReached env other m) (hi : m.inos[i]? = some ino)
      (hino : ino.blk.type ≠ .binary)
      (h : shfsInode env fuel m i name mode acc = some (m', n)) : FileReached env other m'
  | read {m m' : Mount} {fuel f : Nat} {file : Ino} {acc : Access} {r : Except Sherr Bytes}
      (hm : FileReached env other m) (hf : m.inos[f]? = some file) (hplain : file.blk.Plain)
      (h : shfsRead env other fuel m f acc = some (m', r)) : FileReached env other m'
  | write {m m' : Mount} {fuel f : Nat} {file : Ino} {data : Bytes} {acc : Access}
      (hm : FileReached env other m) (hf : m.inos[f]? = some file) (hplain : file.blk.Plain)
      (h : shfsWrite env other fuel m f data acc = some (m', .ok ())) : FileReached env other m'
  | truncate {m m' : Mount} {fuel f len : Nat} {file : Ino} {acc : Access}
      (hm : FileReached env other m) (hf : m.inos[f]? = some file) (hplain : file.blk.Plain)
      (hkeep : KeepsBlocks env fuel m f len acc)
      (h : shfsTruncate env fuel m f len acc = some (m', .ok ())) : FileReached env other m'

section Runs

variable {env : Env} {other : Formats} {fuel f : Nat} {m m' : Mount} {own : Idx → Idx} {file : Ino}
  {acc : Access}

/-- A new partition has its files in order. -/
theorem Filed.init {peerKey rootKey : ShKey} {peerRaw : Bytes} {salt : UInt16}
    (h : shfsInitNew env peerKey rootKey peerRaw salt = .ok m) : ∃ own, Filed m own := by
  obtain ⟨⟨own, hm⟩, htype⟩ := mounted_init h
  exact ⟨own, hm, fun i ino _ => htype _, fun p _ hbin => absurd hbin (htype p)⟩

/-- A read keeps files in order. -/
theorem Filed.shfsRead {r : Except Sherr Bytes} (h : Filed m own) (hf : m.inos[f]? = some file)
    (hplain : file.blk.Plain) (hrun : Fs.shfsRead env other fuel m f acc = some (m', r)) :
    ∃ own', Filed m' own' := by
  unfold Fs.shfsRead at hrun
  simp only [hf] at hrun
  have hformat := hplain.format_ne
  split at hrun
  · cases hrun
    exact ⟨own, h⟩
  all_goals first
    | next hfmt => exact absurd (by rw [hfmt]; decide) hformat
    | skip
  · unfold shfsBinRead at hrun
    split at hrun
    · cases hrun
      exact ⟨own, h⟩
    split at hrun
    · cases hrun
    · next m1 hbin =>
      cases hrun
      obtain ⟨own', hm, -⟩ := h.shfsBin hf hplain.type_ne hbin
      exact ⟨own', hm⟩
    · next m1 b bin hbin =>
      obtain ⟨own', hm, -⟩ := h.shfsBin hf hplain.type_ne hbin
      obtain ⟨res, -, heq⟩ := Option.map_eq_some_iff.mp hrun
      cases heq
      exact ⟨own', hm⟩
  · cases hrun
    exact ⟨own, h⟩

/-- A write that succeeds keeps files in order. -/
theorem Filed.shfsWrite {data : Bytes} (h : Filed m own) (hf : m.inos[f]? = some file)
    (hplain : file.blk.Plain)
    (hrun : Fs.shfsWrite env other fuel m f data acc = some (m', .ok ())) :
    ∃ own', Filed m' own' := by
  have hplainrun := hrun
  rw [shfsWrite_plain hf hplain] at hplainrun
  rcases hbin : Fs.shfsBin env fuel m f acc with _ | ⟨m1, _ | ⟨b, bin⟩⟩
  · simp only [shfsBinWrite, hbin] at hplainrun
    cases hplainrun
  · simp only [shfsBinWrite, hbin] at hplainrun
    cases hplainrun
  obtain ⟨own1, hm1, file', hf', hsame, hopen⟩ := h.shfsBin hf hplain.type_ne hbin
  have hopen := hopen b bin rfl
  have hplain' := hplain.congr hsame
  -- the rest is a write with the binary inode open
  have hrun' : Fs.shfsWrite env other fuel m1 f data acc = some (m', .ok ()) := by
    rw [← hrun, shfsWrite_plain hf' hplain', shfsWrite_plain hf hplain]
    unfold shfsBinWrite
    rw [hopen.shfsBin, hbin]
  have hne := hopen.ne hm1.mounted
  obtain ⟨fs1, blk1, mtime, writes, hwrite, rfl⟩ := shfsWrite_inv hopen hne hplain' hrun'
  obtain ⟨own2, hm2⟩ := hm1.auxWrite hopen.bin_eq hwrite
  refine ⟨own2, hm2.entity ?_ hplain'.type_ne ⟨rfl, rfl, rfl, rfl, rfl⟩⟩
  rw [← hf']
  exact List.getElem?_set_ne (Ne.symm hne)

/-- A truncation that succeeds and frees no block keeps files in order. -/
theorem Filed.shfsTruncate {len : Nat} (h : Filed m own) (hf : m.inos[f]? = some file)
    (hplain : file.blk.Plain) (hkeep : KeepsBlocks env fuel m f len acc)
    (hrun : Fs.shfsTruncate env fuel m f len acc = some (m', .ok ())) :
    ∃ own', Filed m' own' := by
  have hbinrun := (shfsTruncate_ok hf hrun).2
  rcases hbin : Fs.shfsBin env fuel m f acc with _ | ⟨m1, _ | ⟨b, bin⟩⟩
  · simp only [binTruncate, hbin] at hbinrun
    cases hbinrun
  · simp only [binTruncate, hbin] at hbinrun
    cases hbinrun
  obtain ⟨own1, hm1, file', hf', hsame, hopen⟩ := h.shfsBin hf hplain.type_ne hbin
  have hopen := hopen b bin rfl
  have hbinrun' : binTruncate env fuel m1 f len acc = some (m', .ok ()) := by
    rw [← hbinrun]
    unfold binTruncate
    rw [hopen.shfsBin, hbin]
  have hne := hopen.ne hm1.mounted
  obtain ⟨fs1, blk1, mtime, writes, hcut, rfl⟩ := binTruncate_inv hopen hne hbinrun'
  have hm2 := hm1.inodeTruncate hopen.bin_eq (hkeep m1 b bin hbin) hcut
  refine ⟨own1, hm2.entity ?_ (hplain.congr hsame).type_ne ⟨rfl, rfl, rfl, rfl, rfl⟩⟩
  rw [← hf']
  exact List.getElem?_set_ne (Ne.symm hne)

/-- Every mount that file operations reach. -/
theorem FileReached.filed (h : FileReached env other m) : ∃ own, Filed m own := by
  induction h with
  | init h => exact Filed.init h
  | inode _ hi hino hrun ih =>
    obtain ⟨own, hm⟩ := ih
    obtain ⟨own', hm', -⟩ := hm.inode hi hino hrun
    exact ⟨own', hm'⟩
  | read _ hf hplain hrun ih =>
    obtain ⟨own, hm⟩ := ih
    exact hm.shfsRead hf hplain hrun
  | write _ hf hplain hrun ih =>
    obtain ⟨own, hm⟩ := ih
    exact hm.shfsWrite hf hplain hrun
  | truncate _ hf hplain hkeep hrun ih =>
    obtain ⟨own, hm⟩ := ih
    exact hm.shfsTruncate hf hplain hkeep hrun

end Runs

end LibShare.Fs
