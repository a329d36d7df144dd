import LibShare.Fs.FileRuns

/-!
# libshare — resizing a file

What `shfs_truncate` and a write after it leave to be read
(`shfsTruncate_resizes_iff`), in every state that file operations reach.

* A greater length is recorded in the inode only. The read that follows returns
  what lies behind the old size in the blocks, and no more than they hold.
* A shorter length is read correctly. If it has freed blocks, the chain still goes
  on to the first of them, and a write ends there: what is left of the data is
  lost, although the write reports success.
-/

namespace LibShare.Fs

/-- The blocks of the inode hold zeros behind its size, up to the new length. -/
def Resizable (fs : Shfs) (inode : Block) (len : Nat) : Prop :=
  ∀ L, Chain (nextOf fs) inode.fpos.ref L → Padded (content fs L) inode.size len

/-- The truncation frees blocks of the chain. -/
def Frees (fs : Shfs) (inode : Block) (len : Nat) (L : List Idx) : Prop :=
  len < inode.size ∧ (keptBlocks fs len 0 L).length < L.length

instance (fs : Shfs) (inode : Block) (len : Nat) (L : List Idx) :
    Decidable (Frees fs inode len L) := inferInstanceAs (Decidable (_ ∧ _))

/-- The data has room in the blocks that the truncation keeps, or, if it keeps
all of them, the positions for the new blocks are apart. -/
def Rewritable (env : Env) (fs fs' : Shfs) (inode inode' : Block) (len : Nat) (data : Bytes) :
    Prop :=
  ∀ L, Chain (nextOf fs) inode.fpos.ref L →
    if Frees fs inode len L then TailZero (keptBlocks fs len 0 L).length data
    else WriteSpread env fs' inode' data

theorem allBegin_of_kept {fs : Shfs} {len : Nat} : ∀ {L : List Idx} {bOf : Nat},
    ¬ (keptBlocks fs len bOf L).length < L.length → AllBegin fs len bOf L := by
  intro L
  induction L with
  | nil =>
    intro bOf _
    trivial
  | cons p L ih =>
    intro bOf h
    by_cases hle : len ≤ bOf
    · rw [keptBlocks_nil hle] at h
      exact absurd (Nat.succ_pos _) h
    · rw [keptBlocks, if_neg hle] at h
      exact ⟨by omega, ih (by simpa using h)⟩

section Resize

variable {env : Env} {other : Formats} {fuel : Nat} {m : Mount} {own : Idx → Idx} {f b : Nat}
  {file bin : Ino} {acc : Access}

/-- A read of a file, as a read of its binary inode. -/
theorem BinOpen.read_iff {X : Bytes} (h : BinOpen env m f b file bin)
    (hformat : file.blk.format = .binary) :
    (∃ n, Fs.shfsRead env other n m f acc = some (m, .ok X)) ↔
      ∃ n, shfsAuxRead n m.fs bin.blk = some (.ok X) := by
  have hread : ∀ n, Fs.shfsRead env other n m f acc =
      (shfsAuxRead n m.fs bin.blk).map fun res => (m, res) := fun n => h.shfsRead hformat
  simp only [hread, Option.map_eq_some_iff, Prod.mk.injEq, true_and, exists_eq_right]

/-- The file and its binary inode once both have been written. -/
theorem BinOpen.put_both {fs1 fs2 : Shfs} {blk fblk : Block} {r r' : Except Sherr Unit}
    (h : BinOpen env m f b file bin) (hne : f ≠ b) (hname : blk.name = bin.blk.name)
    (hfname : fblk.name = file.blk.name) (hsalt : fblk.salt = file.blk.salt) :
    BinOpen env ((m.put b bin (fs1, blk, r)).put f file (fs2, fblk, r')) f b
      { file with blk := fblk } { bin with blk := blk } :=
  (h.put_bin hne hname).put_file hne hfname hsalt

/-- A file after a truncation: what its binary inode refers to in the store. -/
structure Resized (env : Env) (m m' : Mount) (f b len : Nat) (file bin file' bin' : Ino)
    (L : List Idx) (fs1 : Shfs) : Prop where
  opened : BinOpen env m' f b file' bin'
  plain : file'.blk.Plain
  format_eq : file'.blk.format = .binary
  file_pos : file'.blk.pos = file.blk.pos
  bin_pos : bin'.blk.pos = bin.blk.pos
  bin_type : bin'.blk.type = bin.blk.type
  fpos_eq : bin'.blk.fpos = bin.blk.fpos
  len_eq : bin'.blk.size = len
  blocks : Truncated m.fs fs1 bin.blk.size len L
  size_eq : m'.fs.size = fs1.size
  back : ∀ p ∈ L, m'.fs.block p = fs1.block p

variable {m' : Mount} {len : Nat} {L : List Idx}

theorem Filed.resized (h : Filed m own) (hopen : BinOpen env m f b file bin)
    (hplain : file.blk.Plain) (hchain : Chain (nextOf m.fs) bin.blk.fpos.ref L)
    (hrun : Fs.shfsTruncate env fuel m f len acc = some (m', .ok ())) :
    bin.blk.type = .binary ∧ file.blk.format = .binary ∧
      ∃ file' bin' fs1, Resized env m m' f b len file bin file' bin' L fs1 := by
  have hne := hopen.ne h.mounted
  obtain ⟨hformat, hbinrun⟩ := shfsTruncate_ok hopen.file_eq hrun
  obtain ⟨fs', blk1, mtime, writes, hcut, rfl⟩ := binTruncate_inv hopen hne hbinrun
  have hheld := h.mounted.held b bin hopen.bin_eq
  obtain ⟨L', hchain', hall, hnot, hL⟩ := h.mounted.chain hopen.bin_eq
  obtain rfl := hchain'.unique hchain
  obtain ⟨-, -, hmap⟩ := h.mounted.sound.cell _ hheld.live
  obtain ⟨hbin, ⟨crc, mtime1, hblk1⟩, fs1, htr, hsize, hback⟩ :=
    inodeTruncate_ok hchain hall hmap hcut
  refine ⟨hbin, hformat, _, _, fs1, hopen.put_both hne (by rw [hblk1]) rfl rfl, ?_, hformat, rfl,
    by rw [hblk1], by rw [hblk1], by rw [hblk1], by rw [hblk1], htr, hsize, fun p hp => ?_⟩
  · exact hplain.congr ⟨rfl, rfl, rfl⟩
  · -- neither inode is a content block
    have hpf : file.blk.pos ≠ p :=
      h.not_content hopen.file_eq (by rw [hheld.type_eq, hbin]) (hL p hp)
    have hpb : p ≠ bin.blk.pos := by
      rintro rfl
      exact hnot hp
    rw [← hback p hpb]
    exact Shfs.store_ne _ _ (Ne.symm hpf)

/-- The read after a truncation. -/
theorem Filed.read_resized (h : Filed m own) (hopen : BinOpen env m f b file bin)
    (hbin : bin.blk.type = .binary) (hchain : Chain (nextOf m.fs) bin.blk.fpos.ref L)
    {file' bin' : Ino} {fs1 : Shfs} (hres : Resized env m m' f b len file bin file' bin' L fs1)
    {n : Nat} (hn : L.length < n) :
    shfsAuxRead n m'.fs bin'.blk = some (.ok ((Fs.content m.fs L).take len)) := by
  obtain ⟨L', hchain', hall, -, -⟩ := h.mounted.chain hopen.bin_eq
  obtain rfl := hchain'.unique hchain
  obtain ⟨L'', total, hchain'', hchunk⟩ := h.content hopen.bin_eq hbin
  obtain rfl := hchain''.unique hchain
  have hsub : ∀ p ∈ truncChain m.fs bin.blk.size len L'', p ∈ L'' := truncChain_sub
  have hcut : Chain (nextOf m'.fs) bin'.blk.fpos.ref (truncChain m.fs bin.blk.size len L'') := by
    rw [hres.fpos_eq]
    exact (hres.blocks.chain hchain).congr fun p hp => nextOf_congr (hres.back p (hsub p hp))
  have hmap : ∀ p ∈ truncChain m.fs bin.blk.size len L'', m'.fs.inMap p := by
    intro p hp
    rw [Shfs.inMap, hres.size_eq, hres.blocks.size_eq]
    exact (hall p (hsub p hp)).2.1
  have hlen : (truncChain m.fs bin.blk.size len L'').length ≤ L''.length := by
    unfold truncChain
    split
    · exact List.length_take_le' _ _
    · exact Nat.le_refl _
  rw [shfsAuxRead_chain hcut hmap (Nat.lt_of_le_of_lt hlen hn), hres.len_eq,
    content_congr fun p hp => hres.back p (hsub p hp), hres.blocks.content hchunk]

/-- A write after a truncation that has freed blocks. -/
theorem Filed.rewrite_freed (h : Filed m own) (hopen : BinOpen env m f b file bin)
    (hbin : bin.blk.type = .binary) (hchain : Chain (nextOf m.fs) bin.blk.fpos.ref L)
    {file' bin' : Ino} {fs1 : Shfs} (hres : Resized env m m' f b len file bin file' bin' L fs1)
    (hfree : Frees m.fs bin.blk len L) {data : Bytes} {m'' : Mount}
    (hwrite : Fs.shfsWrite env other fuel m' f data acc = some (m'', .ok ())) :
    (∃ n, Fs.shfsRead env other n m'' f acc = some (m'', .ok data)) ↔
      TailZero (keptBlocks m.fs len 0 L).length data := by
  obtain ⟨L', hchain', hall, hnot, hL⟩ := h.mounted.chain hopen.bin_eq
  obtain rfl := hchain'.unique hchain
  have hheld := h.mounted.held b bin hopen.bin_eq
  have hne := hopen.ne h.mounted
  obtain ⟨fs2, blk2, mtime, writes, haux, rfl⟩ := shfsWrite_inv hres.opened hne hres.plain hwrite
  have hcut := hres.blocks.cut hfree.1
  obtain ⟨q, hq, heq, hzero⟩ := cutChain_freed hcut hfree.2
  obtain ⟨R, hLR, -, hkept⟩ := keptBlocks_append hcut
  have hsub : ∀ p ∈ keptBlocks m.fs len 0 L', p ∈ L' := by
    intro p hp
    rw [hLR]
    exact List.mem_append_left _ hp
  have hsubq : ∀ p ∈ keptBlocks m.fs len 0 L' ++ [q], p ∈ L' := by
    intro p hp
    rcases List.mem_append.mp hp with hp | hp
    · exact hsub p hp
    · rw [List.mem_singleton.mp hp]
      exact hq
  have hinMap : ∀ p, m.fs.inMap p → m'.fs.inMap p := by
    intro p hp
    rw [Shfs.inMap, hres.size_eq, hres.blocks.size_eq]
    exact hp
  -- the chain that the write finds
  have hchain1 : Chain (nextOf m'.fs) bin'.blk.fpos.ref (keptBlocks m.fs len 0 L' ++ [q]) := by
    rw [hres.fpos_eq, ← heq]
    refine (cutBlocks_chain hchain hcut).congr fun p hp => nextOf_congr (hres.back p ?_)
    exact List.mem_of_mem_take hp
  have hall1 : AllStored m'.fs (keptBlocks m.fs len 0 L') := by
    intro p hp
    obtain ⟨h1, h2, h3, h4⟩ := hall p (hsub p hp)
    obtain ⟨-, htype, hpos⟩ := hkept p hp
    have hback := hres.back p (hsub p hp)
    refine ⟨?_, hinMap p h2, by rw [hback, hpos, h3], h4⟩
    rw [Shfs.live, hback, htype]
    exact h1
  have hzero1 : m'.fs.block q = Block.zero := by rw [hres.back q hq, hzero]
  have hmap1 : m'.fs.inMap bin'.blk.pos := by
    rw [hres.bin_pos]
    exact hinMap _ (h.mounted.sound.cell _ hheld.live).2.2
  obtain ⟨fs3, crc, mtime1, writes1, hw, hblk2, hfs2⟩ :=
    auxWrite_cut hchain1 hall1 hzero1 (hinMap q (hall q hq).2.1) hmap1 haux
  have hname : blk2.name = bin'.blk.name := by rw [hblk2]; rfl
  refine ((hres.opened.put_both hne hname ?_ ?_).read_iff ?_).trans ?_
  · rfl
  · rfl
  · rfl
  refine auxRead_cut hchain1 hw hzero1 (fun p hp => hinMap p (hall p (hsubq p hp)).2.1) ?_ ?_ ?_ ?_
  · intro p hp
    have hpf : file.blk.pos ≠ p :=
      h.not_content hopen.file_eq (by rw [hheld.type_eq, hbin]) (hL p (hsubq p hp))
    have hpb : p ≠ blk2.pos := by
      rw [hblk2]
      show p ≠ bin'.blk.pos
      rw [hres.bin_pos]
      rintro rfl
      exact hnot (hsubq _ hp)
    have hpf' : p ≠ file'.blk.pos := by
      rw [hres.file_pos]
      exact Ne.symm hpf
    have hstep : fs2.block p = fs3.block p := by
      rw [hfs2]
      exact Shfs.store_ne _ _ hpb
    rw [← hstep]
    exact Shfs.store_ne _ _ hpf'
  · show fs2.size = fs3.size
    rw [hfs2]
    rfl
  · rw [hblk2]
    rfl
  · rw [hblk2]
    rfl

/-- A write to a file in a state that file operations reach. -/
theorem Filed.rewrite_read (h : Filed m own) (hopen : BinOpen env m f b file bin)
    (hplain : file.blk.Plain) (hbin : bin.blk.type = .binary) {data : Bytes}
    (hwrite : Fs.shfsWrite env other fuel m f data acc = some (m', .ok ())) :
    (∃ n, Fs.shfsRead env other n m' f acc = some (m', .ok data)) ↔
      WriteSpread env m.fs bin.blk data := by
  have hne := hopen.ne h.mounted
  obtain ⟨fs1, blk1, mtime, writes, haux, rfl⟩ := shfsWrite_inv hopen hne hplain hwrite
  rw [← h.mounted.auxWrite_read hopen.bin_eq haux]
  obtain ⟨own1, h1⟩ := h.auxWrite hopen.bin_eq haux
  have hblk1 : blk1.name = bin.blk.name ∧ blk1.type = bin.blk.type := by
    have hheld := h.mounted.held b bin hopen.bin_eq
    obtain ⟨L, hchain, hall, -, -⟩ := h.mounted.chain hopen.bin_eq
    rcases auxWrite_spec hchain hall (h.mounted.sound.cell _ hheld.live).2.2 haux with
      ⟨-, ⟨err, hr⟩, -⟩ | ⟨-, -, fs2, first, L', hsucc⟩
    · cases hr
    · obtain ⟨crc, mtime, hinode⟩ := hsucc.inode_eq
      rw [hinode]
      exact ⟨rfl, rfl⟩
  have hopen1 : BinOpen env (m.put b bin (fs1, blk1, .ok ())) f b file { bin with blk := blk1 } :=
    hopen.put_bin hne hblk1.1
  refine ((hopen.put_both hne hblk1.1 ?_ ?_).read_iff ?_).trans ?_
  · rfl
  · rfl
  · rfl
  -- the write of the file's inode does not touch the content
  obtain ⟨L, hchain, hall, hnot, hL⟩ := h1.mounted.chain hopen1.bin_eq
  have hheld1 := h1.mounted.held b _ hopen1.bin_eq
  have hback : ∀ p ∈ L, p ≠ file.blk.pos := by
    intro p hp
    refine Ne.symm (h1.not_content hopen1.file_eq ?_ (hL p hp))
    rw [hheld1.type_eq]
    exact hblk1.2.trans hbin
  have hmap : ∀ p ∈ L, fs1.inMap p := fun p hp => (hall p hp).2.1
  generalize hfs2 : ({ fs1 with writes := writes } : Shfs).store
    { copyStats file.blk blk1 with format := .binary, mtime := mtime } = fs2
  have hsame : ∀ p ∈ L, fs2.block p = fs1.block p := by
    intro p hp
    rw [← hfs2]
    exact Shfs.store_ne _ _ (hback p hp)
  have hchain2 : Chain (nextOf fs2) blk1.fpos.ref L :=
    hchain.congr fun p hp => nextOf_congr (hsame p hp)
  have hmap2 : ∀ p ∈ L, fs2.inMap p := by
    intro p hp
    rw [← hfs2]
    exact hmap p hp
  have hread2 : ∀ n, L.length < n → shfsAuxRead n fs2 blk1 =
      some (.ok ((Fs.content fs1 L).take blk1.size)) := by
    intro n hn
    rw [shfsAuxRead_chain hchain2 hmap2 hn, content_congr hsame]
  exact (auxRead_iff hread2).trans
    (auxRead_iff fun n hn => shfsAuxRead_chain hchain hmap hn).symm

end Resize

/-- In a state that file operations reach, a file is truncated and then written
to. The read after the truncation returns the content, cut or padded with zeros,
exactly if the file is `Resizable`, and the read after the write returns the
data exactly if the file is `Rewritable` with it. -/
theorem shfsTruncate_resizes_iff {env : Env} {other : Formats} {fuel k : Nat} {m m' : Mount}
    {f b len : Nat} {file bin : Ino} {acc : Access} {D : Bytes} (h : FileReached env other m)
    (hf : m.inos[f]? = some file) (hplain : file.blk.Plain)
    (hbin : shfsBin env fuel m f acc = some (m, some (b, bin)))
    (hread : shfsRead env other k m f acc = some (m, .ok D))
    (hrun : shfsTruncate env fuel m f len acc = some (m', .ok ())) :
    ((∃ n, shfsRead env other n m' f acc =
        some (m', .ok (D.take len ++ List.replicate (len - D.length) 0))) ↔
      Resizable m.fs bin.blk len) ∧
    ∀ (n : Nat) (data : Bytes) (m'' : Mount) (bin' : Ino), m'.inos[b]? = some bin' →
      shfsWrite env other n m' f data acc = some (m'', .ok ()) →
      ((∃ n, shfsRead env other n m'' f acc = some (m'', .ok data)) ↔
        Rewritable env m.fs m'.fs bin.blk bin'.blk len data) := by
  obtain ⟨own, hm⟩ := h.filed
  obtain ⟨-, -, file1, hf1, -, hopen⟩ := hm.shfsBin hf hplain.type_ne hbin
  rw [hf] at hf1
  cases hf1
  have hopen := hopen b bin rfl
  obtain ⟨L, hchain, hall, -, -⟩ := hm.mounted.chain hopen.bin_eq
  obtain ⟨htype, hformat, file', bin', fs1, hres⟩ := hm.resized hopen hplain hchain hrun
  have honly : ∀ {P : List Idx → Prop}, (∀ L', Chain (nextOf m.fs) bin.blk.fpos.ref L' → P L') ↔
      P L := by
    intro P
    refine ⟨fun hall => hall L hchain, fun hP L' hL' => ?_⟩
    rw [hL'.unique hchain]
    exact hP
  refine ⟨?_, ?_⟩
  · have hD : (content m.fs L).take bin.blk.size = D := by
      refine (auxRead_iff fun n hn =>
        shfsAuxRead_chain hchain (fun p hp => (hall p hp).2.1) hn).mp ?_
      exact (hopen.read_iff hformat).mp ⟨k, hread⟩
    rw [hres.opened.read_iff hres.format_eq,
      auxRead_iff fun n hn => hm.read_resized hopen htype hchain hres hn, ← hD,
      take_eq_padded_iff]
    exact (honly (P := fun L => Padded (content m.fs L) bin.blk.size len)).symm
  · intro n data m'' bin2 hbin2 hwrite
    rw [hres.opened.bin_eq] at hbin2
    cases hbin2
    refine Iff.trans ?_ honly.symm
    by_cases hfree : Frees m.fs bin.blk len L
    · rw [if_pos hfree]
      exact hm.rewrite_freed hopen htype hchain hres hfree hwrite
    · rw [if_neg hfree]
      -- nothing has been freed, so the truncation was a step of the run
      have hkeep : KeepsBlocks env fuel m f len acc := by
        intro m1 b1 bin1 hbin1
        rw [hbin] at hbin1
        cases hbin1
        by_cases hlt : len < bin.blk.size
        · refine Or.inr (Or.inr (honly.mpr (allBegin_of_kept fun hk => hfree ⟨hlt, hk⟩)))
        · exact Or.inr (Or.inl (by omega))
      obtain ⟨own', hm'⟩ := hm.shfsTruncate hf hplain hkeep hrun
      exact hm'.rewrite_read hres.opened hres.plain (hres.bin_type.trans htype) hwrite

/-! ## A file on a new partition -/

/-- No file of another format. -/
def noFormats : Formats where
  read := fun _ _ _ => none
  write := fun _ _ _ _ => none

/-- The owner of new inodes. -/
def anyone : Access := { owner := ashkeyBlank, attr := 0, salt := 0 }

/-- A new partition with a file in its root directory, and the file's binary
inode. -/
def newFile : Option Mount :=
  (shfsInitNew oneJournal ashkeyBlank ashkeyBlank [] 0).toOption.bind fun m =>
    (shfsInode oneJournal 5 m 0 [] .file anyone).bind fun res =>
      (shfsInode oneJournal 5 res.1 1 [] .binary anyone).map Prod.fst

/-- The new file is written to. -/
def writtenFile (data : Bytes) : Option Mount :=
  newFile.bind fun m => (shfsWrite oneJournal noFormats 5 m 1 data anyone).bind fun res =>
    res.2.toOption.map fun _ => res.1

/-- The open inodes of the file, from an evaluation of the run that leads there. -/
theorem binOpen_of_eval {run : Option Mount} {m : Mount} (format : Shinode) (h : run = some m)
    (hfacts : run.map (fun m => m.inos[1]?.map fun file =>
      (file.blk.type, file.blk.attr, file.blk.format,
        findChild m 1 (childKey oneJournal file.blk [] .binary))) =
      some (some (.file, 0, format, some 2)))
    (hformat : format ∉ [.reference, .ext, .compress, .database, .directory]) :
    ∃ file bin, BinOpen oneJournal m 1 2 file bin ∧ file.blk.Plain ∧ file.blk.format = format := by
  rw [h, Option.map_some, Option.some.injEq] at hfacts
  obtain ⟨file, hf, heq⟩ := Option.map_eq_some_iff.mp hfacts
  simp only [Prod.mk.injEq] at heq
  obtain ⟨htype, hattr, hfmt, hfind⟩ := heq
  obtain ⟨bin, hbin, -, -⟩ := findChild_some hfind
  refine ⟨file, bin, ⟨hf, hbin, hfind⟩, ⟨?_, ?_, ?_⟩, hfmt⟩
  · rw [htype]
    decide
  · rw [hattr]
    rfl
  · rw [hfmt]
    exact hformat

theorem newFile_reached {m : Mount} (h : newFile = some m) :
    FileReached oneJournal noFormats m := by
  obtain ⟨m0, h0, h1⟩ := Option.bind_eq_some_iff.mp h
  obtain ⟨⟨m1, n⟩, h2, h3⟩ := Option.bind_eq_some_iff.mp h1
  obtain ⟨⟨m2, n'⟩, h4, rfl⟩ := Option.map_eq_some_iff.mp h3
  have hinit : FileReached oneJournal noFormats m0 := .init (ok_of_toOption h0)
  have hroot : (shfsInitNew oneJournal ashkeyBlank ashkeyBlank [] 0).toOption.map (fun m =>
      (m.inos[0]?.map fun ino => ino.blk.type,
        (shfsInode oneJournal 5 m 0 [] .file anyone).map fun res =>
          res.1.inos[1]?.map fun ino => ino.blk.type)) =
      some (some .directory, some (some .file)) := by decide +kernel
  rw [h0, Option.map_some, Option.some.injEq, Prod.mk.injEq, h2, Option.map_some,
    Option.some.injEq] at hroot
  obtain ⟨hroot, hfile⟩ := hroot
  obtain ⟨ino, hi, htype⟩ := Option.map_eq_some_iff.mp hroot
  obtain ⟨file, hf, hftype⟩ := Option.map_eq_some_iff.mp hfile
  exact (hinit.inode hi (by rw [htype]; decide) h2).inode hf (by rw [hftype]; decide) h4

/-- The written file: its state, and what is read. -/
theorem writtenFile_open {data : Bytes} {m : Mount} (h : writtenFile data = some m)
    (hfacts : (writtenFile data).map (fun m => m.inos[1]?.map fun file =>
      (file.blk.type, file.blk.attr, file.blk.format,
        findChild m 1 (childKey oneJournal file.blk [] .binary))) =
      some (some (.file, 0, .binary, some 2)))
    (hspread : newFile.map (fun m => m.inos[2]?.map fun bin =>
      (bin.blk.type, bin.blk.fpos.ref, decide (WriteApart oneJournal m.fs bin.blk data []))) =
      some (some (.binary, none, true))) :
    FileReached oneJournal noFormats m ∧ ∃ file bin, BinOpen oneJournal m 1 2 file bin ∧
      file.blk.Plain ∧ ∃ n, shfsRead oneJournal noFormats n m 1 anyone = some (m, .ok data) := by
  obtain ⟨file, bin, hopen, hplain, -⟩ := binOpen_of_eval .binary h hfacts (by decide)
  obtain ⟨m0, h0, h1⟩ := Option.bind_eq_some_iff.mp h
  obtain ⟨⟨m1, r⟩, hwrite, hr⟩ := Option.bind_eq_some_iff.mp h1
  obtain ⟨u, hu, rfl⟩ := Option.map_eq_some_iff.mp hr
  obtain rfl : r = .ok u := ok_of_toOption hu
  obtain ⟨file0, bin0, hopen0, hplain0, -⟩ := binOpen_of_eval .null h0
    (by decide +kernel) (by decide)
  have hreach := newFile_reached h0
  obtain ⟨own, hm0⟩ := hreach.filed
  rw [h0, Option.map_some, hopen0.bin_eq, Option.map_some] at hspread
  simp only [Option.some.injEq, Prod.mk.injEq, decide_eq_true_eq] at hspread
  obtain ⟨htype, href, hapart⟩ := hspread
  refine ⟨hreach.write hopen0.file_eq hplain0 hwrite, file, bin, hopen, hplain, ?_⟩
  refine (hm0.rewrite_read hopen0 hplain0 htype hwrite).mpr fun L hL => ?_
  rw [href] at hL
  rw [hL.unique Chain.nil]
  exact hapart

/-- The written file is truncated. -/
theorem writtenFile_truncate {data : Bytes} {m : Mount} (len size : Nat)
    (h : writtenFile data = some m)
    (hfacts : (writtenFile data).map (fun m => (m.inos[2]?.map fun bin =>
      (bin.blk.size, bin.blk.fpos.ref.isSome),
      (shfsTruncate oneJournal 5 m 1 len anyone).map fun res => res.2.toOption)) =
      some (some (size, true), some (some ())))
    {file bin : Ino} (hopen : BinOpen oneJournal m 1 2 file bin) :
    bin.blk.size = size ∧ (∀ L, Chain (nextOf m.fs) bin.blk.fpos.ref L → L ≠ []) ∧
      ∃ m', shfsTruncate oneJournal 5 m 1 len anyone = some (m', .ok ()) := by
  rw [h, Option.map_some, hopen.bin_eq, Option.map_some] at hfacts
  simp only [Option.some.injEq, Prod.mk.injEq] at hfacts
  obtain ⟨⟨hsize, href⟩, hcut⟩ := hfacts
  obtain ⟨⟨m', r⟩, hrun, heq⟩ := Option.map_eq_some_iff.mp hcut
  obtain rfl : r = .ok () := ok_of_toOption heq
  refine ⟨hsize, ?_, m', hrun⟩
  rintro L hL rfl
  rw [show bin.blk.fpos.ref = none from hL] at href
  cases href

/-- A file of the bytes 1 and 2 is cut to one byte, and reads as that byte. -/
theorem shfsTruncate_resizes_iff_byte : ∃ (m m' : Mount) (file bin : Ino) (k : Nat),
    FileReached oneJournal noFormats m ∧ m.inos[1]? = some file ∧ file.blk.Plain ∧
    shfsBin oneJournal 5 m 1 anyone = some (m, some (2, bin)) ∧
    shfsRead oneJournal noFormats k m 1 anyone = some (m, .ok [1, 2]) ∧
    shfsTruncate oneJournal 5 m 1 1 anyone = some (m', .ok ()) ∧
    ∃ n, shfsRead oneJournal noFormats n m' 1 anyone = some (m', .ok [1]) := by
  obtain ⟨m, hm⟩ : ∃ m, writtenFile [1, 2] = some m :=
    Option.isSome_iff_exists.mp (by decide +kernel)
  obtain ⟨hreach, file, bin, hopen, hplain, k, hread⟩ :=
    writtenFile_open hm (by decide +kernel) (by decide +kernel)
  obtain ⟨hsize, hne, m', hrun⟩ := writtenFile_truncate 1 2 hm (by decide +kernel) hopen
  refine ⟨m, m', file, bin, k, hreach, hopen.file_eq, hplain, hopen.shfsBin, hread, hrun,
    (shfsTruncate_resizes_iff hreach hopen.file_eq hplain hopen.shfsBin hread hrun).1.mpr ?_⟩
  intro L hL
  refine ⟨?_, fun k hk hk' => by omega⟩
  rw [content_length]
  exact Nat.mul_pos (List.length_pos_iff.mpr (hne L hL)) blockDataSize_pos

/-- A file of one byte is truncated to nothing and written again: the byte is
lost. -/
theorem shfsTruncate_loses_byte : ¬ ∀ (env : Env) (other : Formats) (fuel k : Nat) (m m' : Mount)
    (f len : Nat) (file : Ino) (acc : Access) (D : Bytes), FileReached env other m →
    m.inos[f]? = some file → file.blk.Plain →
    shfsRead env other k m f acc = some (m, .ok D) →
    shfsTruncate env fuel m f len acc = some (m', .ok ()) →
    (∃ n, shfsRead env other n m' f acc =
      some (m', .ok (D.take len ++ List.replicate (len - D.length) 0))) ∧
    ∀ (n : Nat) (data : Bytes) (m'' : Mount),
      shfsWrite env other n m' f data acc = some (m'', .ok ()) →
      ∃ n, shfsRead env other n m'' f acc = some (m'', .ok data) := by
  intro hall
  obtain ⟨m, hm⟩ : ∃ m, writtenFile [1] = some m :=
    Option.isSome_iff_exists.mp (by decide +kernel)
  obtain ⟨hreach, file, bin, hopen, hplain, k, hread⟩ :=
    writtenFile_open hm (by decide +kernel) (by decide +kernel)
  obtain ⟨hsize, hne, m', hrun⟩ := writtenFile_truncate 0 1 hm (by decide +kernel) hopen
  have hwrite : (writtenFile [1]).map (fun m => (shfsTruncate oneJournal 5 m 1 0 anyone).map
      fun res => (shfsWrite oneJournal noFormats 5 res.1 1 [1] anyone).map
        fun res => res.2.toOption) = some (some (some (some ()))) := by decide +kernel
  rw [hm, Option.map_some, hrun, Option.map_some, Option.some.injEq, Option.some.injEq] at hwrite
  obtain ⟨⟨m'', r⟩, hwrite, hr⟩ := Option.map_eq_some_iff.mp hwrite
  obtain rfl : r = .ok () := ok_of_toOption hr
  have hback := (hall oneJournal noFormats 5 k m m' 1 0 file anyone [1] hreach hopen.file_eq hplain
    hread hrun).2 5 [1] m'' hwrite
  obtain ⟨own, hfiled⟩ := hreach.filed
  obtain ⟨L, hchain, -, -, -⟩ := hfiled.mounted.chain hopen.bin_eq
  obtain ⟨hbin, -, file', bin', fs1, hres⟩ := hfiled.resized hopen hplain hchain hrun
  have hkept : keptBlocks m.fs 0 0 L = [] := keptBlocks_nil (Nat.le_refl 0) L
  have hfree : Frees m.fs bin.blk 0 L := by
    refine ⟨by omega, ?_⟩
    rw [hkept]
    exact List.length_pos_iff.mpr (hne L hchain)
  rw [hfiled.rewrite_freed hopen hbin hchain hres hfree hwrite, hkept] at hback
  rcases hback with hlen | ⟨-, hzero⟩
  · exact absurd hlen (by decide)
  · exact absurd (hzero 1 (by simp)) (by decide)

end LibShare.Fs
