import LibShare.Fs.Paths
import LibShare.Fs.FileResize
import LibShare.Fs.Clear

/-!
# libshare — what a listing gives

`shfs_list_cb` reads the blocks of a directory, and looks each of them up again: by the
text in the block, with a slash behind the name of a directory, and by its type. The
lookup makes an inode where it finds none.

The listing is exact and leaves the store alone if and only if the name of every
entry is the key that its text and its type give, and that key finds the entry
(`listing_exact_iff`). A name that `shfs_inode` has stored gives its key again if it
leaves room for a slash (directories), or does not end in one (other inodes with
children); `inodePath_again` says so. A name with two slashes at its end is stored with
one of them, so that a listing makes another file of it (`listing_makes_file`).
-/

namespace LibShare.Fs

/-! ## Lookups -/

/-- The entry is shown by a listing. -/
def Block.Listed (blk : Block) : Prop := blk.type ≠ .null ∧ blk.format ≠ .null

instance (blk : Block) : Decidable blk.Listed := inferInstanceAs (Decidable (_ ∧ _))

/-- The entries of a directory with a chain. -/
def entries (fs : Shfs) (L : List Idx) : List Idx := L.filter fun p => decide (fs.block p).Listed

/-- The child with a name, by the open inodes first and by the chain of the directory then. -/
def childAt (m : Mount) (i : Nat) (L : List Idx) (key : ShKey) : Option Idx :=
  match findChild m i key with
  | some n => m.inos[n]?.map fun a => a.blk.pos
  | none => L.find? fun p => decide ((m.fs.block p).name = key)

/-- The text and the type of an entry lead to the entry again. -/
structure Rederives (env : Env) (m : Mount) (i : Nat) (parent : Block) (L : List Idx)
    (p : Idx) : Prop where
  key : ∃ path, listPath (m.fs.block p) = some path ∧
    childKey env parent path (m.fs.block p).type = (m.fs.block p).name
  found : childAt m i L (m.fs.block p).name = some p

/-! ## Opening the entries -/

/-- The mount while a directory is listed: entries that lead to themselves have been opened. -/
structure Walked (env : Env) (m : Mount) (i : Nat) (parent : Ino) (L : List Idx)
    (m' : Mount) : Prop where
  fs_eq : m'.fs = m.fs
  opened : ∃ more, m'.inos = m.inos ++ more ∧ ∀ a ∈ more, a.parent = some i ∧
    ∃ q ∈ L, a.blk = m.fs.block q ∧ Rederives env m i parent.blk L q

section Walk

variable {env : Env} {fuel : Nat} {m m₁ m' : Mount} {own : Idx → Idx} {i : Nat} {parent : Ino}
  {L : List Idx}
  {acc : Nat → Access}

theorem Walked.refl (env : Env) (m : Mount) (i : Nat) (parent : Ino) (L : List Idx) :
    Walked env m i parent L m :=
  ⟨rfl, [], (List.append_nil _).symm, fun _ ha => nomatch ha⟩

theorem Walked.parent_eq (h : Walked env m i parent L m₁) (hi : m.inos[i]? = some parent) :
    m₁.inos[i]? = some parent := by
  obtain ⟨more, heq, -⟩ := h.opened
  rw [heq, List.getElem?_append_left (List.getElem?_eq_some_iff.mp hi).1, hi]

/-- The open children of the directory: those that were open before, or an entry that leads to
itself. -/
theorem Walked.findChild (h : Walked env m i parent L m₁) (hm : Mounted m own)
    (hL : ∀ q ∈ L, (m.fs.block q).pos = q) {key : ShKey} {n : Nat} {a : Ino}
    (hfind : Fs.findChild m₁ i key = some n) (ha : m₁.inos[n]? = some a) :
    (m.fs.block a.blk.pos).name = key ∧ childAt m i L key = some a.blk.pos := by
  obtain ⟨a', ha', hpar, hname⟩ := findChild_some hfind
  rw [ha] at ha'
  cases ha'
  obtain ⟨more, heq, hmore⟩ := h.opened
  unfold Fs.findChild at hfind
  rw [heq, List.findIdx?_append] at hfind
  cases hold : Fs.findChild m i key with
  | some k =>
    have hold' := hold
    unfold Fs.findChild at hold'
    rw [hold', Option.some_or, Option.some.injEq] at hfind
    subst hfind
    obtain ⟨b, hb, -, -⟩ := findChild_some hold
    rw [heq, List.getElem?_append_left (List.getElem?_eq_some_iff.mp hb).1, hb] at ha
    cases ha
    refine ⟨(hm.held k a hb).name_eq.trans hname, ?_⟩
    rw [childAt, hold]
    show (m.inos[k]?.map fun a => a.blk.pos) = _
    rw [hb]
    rfl
  | none =>
    have hold' := hold
    unfold Fs.findChild at hold'
    rw [hold', Option.none_or] at hfind
    obtain ⟨k, hk, rfl⟩ := Option.map_eq_some_iff.mp hfind
    rw [heq, List.getElem?_append_right (by omega)] at ha
    obtain ⟨-, q, hq, hblk, hagain⟩ := hmore a (List.mem_of_getElem? ha)
    have hpos : a.blk.pos = q := by
      rw [hblk]
      exact hL q hq
    have hkey : (m.fs.block q).name = key := by
      rw [← hblk]
      exact hname
    rw [hpos]
    refine ⟨hkey, ?_⟩
    rw [← hkey]
    exact hagain.found

theorem Walked.findChild_none (h : Walked env m i parent L m₁) {key : ShKey}
    (hnone : Fs.findChild m₁ i key = none) :
    childAt m i L key = L.find? fun p => decide ((m.fs.block p).name = key) := by
  obtain ⟨more, heq, -⟩ := h.opened
  unfold Fs.findChild at hnone
  rw [heq, List.findIdx?_append, Option.or_eq_none_iff] at hnone
  have hold : Fs.findChild m i key = none := hnone.1
  rw [childAt, hold]

/-- The inode that a call passes on. -/
def passed (m : Mount) (n : Option Nat) : Option Idx :=
  (n.bind fun n => m.inos[n]?).map fun a => a.blk.pos

/-- An entry leads to itself if and only if the key that it is looked up by is
its name, and the lookup of that key gives the entry. -/
theorem rederives_iff {blk : Block} {p : Idx} {path : Bytes} {key : ShKey}
    (hpath : listPath (m.fs.block p) = some path)
    (hkey : childKey env blk path (m.fs.block p).type = key) :
    Rederives env m i blk L p ↔ (m.fs.block p).name = key ∧ childAt m i L key = some p := by
  constructor
  · rintro ⟨⟨path', hpath', heq⟩, hfound⟩
    rw [hpath] at hpath'
    cases hpath'
    have hname : (m.fs.block p).name = key := by rw [← heq, hkey]
    rw [hname] at hfound
    exact ⟨hname, hfound⟩
  · rintro ⟨hname, hfound⟩
    refine ⟨⟨path, hpath, by rw [hkey, hname]⟩, ?_⟩
    rw [hname]
    exact hfound

/-- One more entry that leads to itself is opened. -/
theorem Walked.open (h : Walked env m i parent L m₁) {p : Idx} (hp : p ∈ L)
    (hre : Rederives env m i parent.blk L p) :
    Walked env m i parent L
      { m₁ with inos := m₁.inos ++ [{ blk := m.fs.block p, parent := some i }] } := by
  obtain ⟨more, hinos, hmore⟩ := h.opened
  refine ⟨h.fs_eq, more ++ [{ blk := m.fs.block p, parent := some i }], ?_, fun b hb => ?_⟩
  · rw [← List.append_assoc, ← hinos]
  · rcases List.mem_append.mp hb with hb | hb
    · exact hmore b hb
    · rw [List.mem_singleton.mp hb]
      exact ⟨rfl, p, hp, rfl, hre⟩

/-- The inode that is made for a name without an entry is none of the entries. -/
theorem Walked.passed_new (h : Walked env m i parent L m₁) (hm : Mounted m own)
    (hi : m.inos[i]? = some parent) (hL : Chain (nextOf m.fs) parent.blk.fpos.ref L)
    (hall : AllStored m.fs L) {p : Idx} (hp : p ∈ L) {inode pblk blk : Block} {fs' : Shfs}
    (hnull : inode.type ≠ .null) (hfpos : inode.fpos = Idx.zero)
    (hnew : linkNew env m₁.fs parent.blk inode = (fs', pblk, blk, .ok ())) {ps : List Ino}
    (hlen : ps.length = m₁.inos.length) {new : Ino} (hblk : new.blk.pos = blk.pos) :
    passed { m₁ with fs := fs', inos := ps ++ [new] } (some m₁.inos.length) ≠ some p := by
  intro hpass
  rw [h.fs_eq] at hnew
  obtain ⟨-, -, hmap⟩ := hm.sound.cell _ (hm.held i parent hi).live
  rcases linkNew_spec hL hall hmap hnull hfpos hnew with ⟨⟨err, hcon⟩, -⟩ | ⟨-, fs2, hlinked⟩
  · cases hcon
  rw [passed, Option.bind_some, List.getElem?_append_right (by rw [hlen]), hlen,
    Nat.sub_self] at hpass
  have hpos' : blk.pos = p := hblk.symm.trans (Option.some.inj hpass)
  exact absurd (hall p hp).1 (hpos' ▸ hlinked.free)

/-- The lookup of an entry gives the entry if and only if the entry leads to itself. -/
theorem Walked.again (h : Walked env m i parent L m₁) (hm : Mounted m own)
    (hi : m.inos[i]? = some parent)
    (hcont : parent.blk.type.isContainer = true) (hL : Chain (nextOf m.fs) parent.blk.fpos.ref L)
    (hall : AllStored m.fs L) {p : Idx} (hp : p ∈ L) {path : Bytes}
    (hpath : listPath (m.fs.block p) = some path)
    (hfuel : L.length < fuel) (a : Access) :
    ∃ m' n, shfsInode env fuel m₁ i path (m.fs.block p).type a = some (m', n) ∧
      (passed m' n = some p ↔ Rederives env m i parent.blk L p) ∧
      (Rederives env m i parent.blk L p → Walked env m i parent L m') := by
  have hpos : ∀ q ∈ L, (m.fs.block q).pos = q := fun q hq => (hall q hq).2.2.1
  have hi₁ := h.parent_eq hi
  -- the key that the entry is looked up by
  obtain ⟨key, hkey⟩ : ∃ key, childKey env parent.blk path (m.fs.block p).type = key := ⟨_, rfl⟩
  have hre := rederives_iff (L := L) (i := i) hpath hkey
  unfold shfsInode
  simp only [hi₁]
  rw [show env.token parent.blk.name parent.blk.salt (inodePath path (m.fs.block p).type).2
    (inodePath path (m.fs.block p).type).1 = key from hkey]
  cases hopen : Fs.findChild m₁ i key with
  | some n =>
    obtain ⟨b, hb, -, -⟩ := findChild_some hopen
    obtain ⟨hbname, hchild⟩ := h.findChild hm hpos hopen hb
    unfold Fs.findChild at hopen
    simp only [hopen]
    refine ⟨m₁, some n, rfl, ?_, fun _ => h⟩
    have hpass : passed m₁ (some n) = some b.blk.pos := by
      rw [passed, Option.bind_some, hb]
      rfl
    rw [hpass, hre, hchild, Option.some.injEq]
    constructor
    · intro heq
      rw [heq] at hbname
      exact ⟨hbname, heq⟩
    · exact And.right
  | none =>
    have hchild := h.findChild_none hopen
    unfold Fs.findChild at hopen
    have hfind : shfsLinkFind fuel m₁.fs parent.blk key =
        linkFindLoop key fuel m.fs parent.blk.fpos := by
      rw [shfsLinkFind, if_pos hcont, h.fs_eq]
    rw [linkFindLoop_find hL hall hfuel] at hfind
    simp only [hopen]
    cases hq : L.find? fun q => decide ((m.fs.block q).name = key) with
    | some q =>
      -- a block of the directory is opened
      have hqL := List.mem_of_find?_eq_some hq
      have hqname : (m.fs.block q).name = key := by simpa using List.find?_some hq
      rw [hq] at hchild hfind
      simp only [hfind]
      have hpass : passed { m₁ with inos := m₁.inos ++ [{ blk := m.fs.block q, parent := some i }] }
          (some m₁.inos.length) = some q := by
        rw [passed, Option.bind_some, List.getElem?_concat_length, Option.map_some, hpos q hqL]
      refine ⟨_, _, rfl, ?_, fun hself => ?_⟩
      · rw [hpass, hre, hchild, Option.some.injEq]
        constructor
        · rintro rfl
          exact ⟨hqname, rfl⟩
        · exact And.right
      · have hfound := (hre.mp hself).2
        rw [hchild, Option.some.injEq] at hfound
        rw [hfound]
        exact h.open hp hself
    | none =>
      have hnot : ¬ Rederives env m i parent.blk L p := by
        intro hself
        have := List.find?_eq_none.mp hq p hp
        rw [decide_eq_true_eq] at this
        exact this (hre.mp hself).1
      rw [hq] at hfind
      simp only [hfind]
      generalize hmode : (inodePath path (m.fs.block p).type).2 = mode
      generalize (inodePath path (m.fs.block p).type).1 = name
      have hnull : mode ≠ .null := by
        rw [← hmode]
        exact inodePath_ne_null _ _
      have hlink : shfsLink env fuel m₁.fs parent.blk (newInode key mode name) =
          some (linkNew env m₁.fs parent.blk (newInode key mode name)) := shfsLink_noent hfind
      rw [hlink]
      rcases hnew : linkNew env m₁.fs parent.blk (newInode key mode name) with ⟨fs', pblk,
          blk, err | ⟨⟨⟩⟩⟩
      · exact ⟨_, _, rfl, ⟨(fun hpass => by cases hpass), fun hself => absurd hself hnot⟩,
          fun hself => absurd hself hnot⟩
      · -- the position of a new inode is free
        refine ⟨_, _, rfl, ⟨fun hpass => absurd hpass ?_, fun hself => absurd hself hnot⟩,
          fun hself => absurd hself hnot⟩
        exact h.passed_new hm hi hL hall hp hnull rfl hnew List.length_set rfl

end Walk

/-! ## The walk -/

variable {σ : Type}

/-- A callback, and the positions of the inodes that it has been called with. -/
def traced (cb : ListCb σ) : ListCb (σ × List (Option Idx)) := fun m n arg =>
  (cb m n arg.1).map fun res => ((res.1, arg.2 ++ [passed m n]), res.2)

/-- The calls of a listing are never taken back. -/
theorem listLoop_trace {env : Env} {acc : Nat → Access} {fspec : Bytes → Bool}
    {cb : ListCb σ} {i : Nat} :
    ∀ {fuel : Nat} {m m' : Mount} {arg arg' : σ × List (Option Idx)} {idx : Idx} {tot : Nat}
    {r : Except Sherr Nat}, listLoop env acc fspec (some (traced cb)) i fuel m arg idx tot =
    some (m', arg', r) →
    arg.2 <+: arg'.2 := by
  intro fuel
  induction fuel with
  | zero =>
    intro m m' arg arg' idx tot r hrun
    cases hrun
  | succ fuel ih =>
    intro m m' arg arg' idx tot r hrun
    unfold listLoop at hrun
    split at hrun
    · cases hrun
      exact List.prefix_refl _
    split at hrun
    · cases hrun
      exact List.prefix_refl _
    split at hrun
    · cases hrun
      exact List.prefix_refl _
    split at hrun
    · dsimp only at hrun
      split at hrun
      · cases hrun
      split at hrun
      · cases hrun
      next m₁ n hinode =>
      have hcall : ∀ {arg₁ : σ × List (Option Idx)} {r₁ : Except Sherr Unit},
          traced cb m₁ n arg = some (arg₁, r₁) → arg.2 <+: arg₁.2 := by
        intro arg₁ r₁ hcb
        obtain ⟨res, -, heq⟩ := Option.map_eq_some_iff.mp hcb
        cases heq
        exact List.prefix_append _ _
      split at hrun
      · cases hrun
      · next hcb =>
        cases hrun
        exact hcall hcb
      · next hcb => exact (hcall hcb).trans (ih hrun)
    · exact ih hrun

/-- The rest of a walk, with the calls so far. -/
theorem Walked.walk {env : Env} {acc : Nat → Access} {m : Mount} {own : Idx → Idx} {i : Nat}
    {parent : Ino}
    {L : List Idx} {cb : ListCb σ} (hm : Mounted m own) (hi : m.inos[i]? = some parent)
    (hcont : parent.blk.type.isContainer = true) (hL : Chain (nextOf m.fs) parent.blk.fpos.ref L)
    (hall : AllStored m.fs L) (hcb : ∀ m n arg, ∃ arg', cb m n arg = some (arg', .ok ())) :
    ∀ {T : List Idx} {fuel : Nat} {m₁ : Mount} {arg : σ} {calls : List (Option Idx)} {idx : Idx}
      {tot : Nat},
    Walked env m i parent L m₁ → Chain (nextOf m.fs) idx.ref T → (∀ p ∈ T, p ∈ L) →
      L.length + T.length < fuel →
    ((∃ m' arg', listLoop env acc (fun _ =>
      true) (some (traced cb)) i fuel m₁ (arg, calls) idx tot =
        some (m', (arg', calls ++ (entries m.fs T).map some), .ok (tot + (entries m.fs T).length)) ∧
        m'.fs = m.fs) ↔
      ∀ p ∈ entries m.fs T, Rederives env m i parent.blk L p) := by
  intro T
  induction T with
  | nil =>
    intro fuel m₁ arg calls idx tot hwalk hchain _ hfuel
    obtain ⟨fuel, rfl⟩ : ∃ k, fuel = k + 1 := ⟨fuel - 1, by omega⟩
    have hidx : idx.ino = 0 := by
      by_contra hne
      rw [Idx.ref_of_ne hne] at hchain
      cases hchain
    refine iff_of_true ⟨m₁, arg, ?_, hwalk.fs_eq⟩ fun p hp => nomatch hp
    rw [listLoop, if_pos hidx]
    show _ = some (m₁, (arg, calls ++ []), Except.ok tot)
    rw [List.append_nil]
  | cons p T ih =>
    intro fuel m₁ arg calls idx tot hwalk hchain hmem hfuel
    obtain ⟨fuel, rfl⟩ : ∃ k, fuel = k + 1 := ⟨fuel - 1, by omega⟩
    rw [List.length_cons] at hfuel
    have hnodup := List.nodup_cons.mp hchain.nodup
    obtain ⟨hs, htail⟩ := hchain
    obtain ⟨rfl, hne⟩ := Idx.ref_eq_some hs
    have hp := hmem p List.mem_cons_self
    have hmap : m₁.fs.inMap p := by
      rw [hwalk.fs_eq]
      exact (hall p hp).2.1
    have hself : (m.fs.block p).npos ≠ p := by
      intro heq
      rw [nextOf, heq, Idx.ref_of_ne hne] at htail
      exact hnodup.1 htail.head_mem
    have hrest : ∀ q ∈ T, q ∈ L := fun q hq => hmem q (List.mem_cons_of_mem _ hq)
    simp only [listLoop, if_neg hne, shfsInodeReadBlock_ok hmap]
    rw [hwalk.fs_eq, if_neg hself]
    by_cases hlisted : (m.fs.block p).Listed
    · have hentries : entries m.fs (p :: T) = p :: entries m.fs T :=
        List.filter_cons_of_pos (by simpa using hlisted)
      rw [if_pos ⟨hlisted.1, hlisted.2, trivial⟩, hentries]
      rw [List.forall_mem_cons]
      cases hpath : listPath (m.fs.block p) with
      | none =>
        -- there is no room for the slash
        refine iff_of_false (fun hrun => ?_) fun hre => ?_
        · obtain ⟨m', arg', hrun, -⟩ := hrun
          cases hrun
        · obtain ⟨path, hpath', -⟩ := hre.1.key
          rw [hpath] at hpath'
          cases hpath'
      | some path =>
        obtain ⟨m₂, n, hinode, hpass, hnext⟩ := hwalk.again hm hi hcont hL hall hp hpath
          (show L.length < fuel by omega) (acc m₁.inos.length)
        obtain ⟨arg₂, harg⟩ := hcb m₂ n arg
        have hcall : traced cb m₂ n (arg, calls) =
            some ((arg₂, calls ++ [passed m₂ n]), .ok ()) := by
          rw [traced, harg]
          rfl
        simp only [hinode, hcall]
        by_cases hre : Rederives env m i parent.blk L p
        · have hstep :=
            @ih fuel m₂ arg₂ (calls ++ [some p]) (m.fs.block p).npos (tot + 1)
              (hnext hre) htail hrest
            (show L.length + T.length < fuel by omega)
          rw [hpass.mpr hre]
          rw [List.append_assoc, List.singleton_append, ← List.map_cons] at hstep
          rw [List.length_cons, Nat.add_comm (entries m.fs T).length 1, ← Nat.add_assoc, hstep]
          exact ⟨fun hall => ⟨hre, hall⟩, And.right⟩
        · -- the call was made with something else
          refine iff_of_false (fun hrun => ?_) fun hall => hre hall.1
          obtain ⟨m', arg', hrun, -⟩ := hrun
          have htrace := listLoop_trace hrun
          rw [List.map_cons, List.prefix_append_right_inj] at htrace
          exact hre (hpass.mp (List.cons_prefix_cons.mp htrace).1)
    · -- the block is passed over
      have hentries : entries m.fs (p :: T) = entries m.fs T :=
        List.filter_cons_of_neg (by simpa using hlisted)
      rw [if_neg fun hcon => hlisted ⟨hcon.1, hcon.2.1⟩, hentries]
      exact ih hwalk htail hrest (by omega)

/-- A callback does not see that its calls are noted down. -/
theorem listLoop_untraced {env : Env} {acc : Nat → Access} {fspec : Bytes → Bool}
    {cb : ListCb σ} {i : Nat} :
    ∀ {fuel : Nat} {m : Mount} {arg : σ} {calls : List (Option Idx)} {idx : Idx} {tot : Nat},
    listLoop env acc fspec (some cb) i fuel m arg idx tot =
      (listLoop env acc fspec (some (traced cb)) i fuel m (arg, calls) idx tot).map
        fun res => (res.1, res.2.1.1, res.2.2) := by
  intro fuel
  induction fuel with
  | zero =>
    intro m arg calls idx tot
    rfl
  | succ fuel ih =>
    intro m arg calls idx tot
    unfold listLoop
    split
    · rfl
    split
    · rfl
    split
    · rfl
    split
    · dsimp only
      split
      · rfl
      split
      · rfl
      next m₁ n hinode =>
      rcases hcb : cb m₁ n arg with _ | ⟨arg₁, err | ⟨⟨⟩⟩⟩
      · simp only [traced, hcb, Option.map_none]
      · simp only [traced, hcb, Option.map_some]
      · simp only [traced, hcb, Option.map_some]
        exact ih
    · exact ih

/-- The callback is called once for each entry, in the order of the chain and with the inode that
lies there, the count is the number of the calls, and the store is what it was. -/
def ListsExactly (env : Env) (acc : Nat → Access) (fuel : Nat) (m : Mount) (i : Nat) (L : List Idx)
    (cb : ListCb σ) (arg : σ) : Prop :=
  ∃ m' arg',
    shfsListCb env acc fuel m i (fun _ => true) (some cb) arg =
      some (m', arg', .ok (entries m.fs L).length) ∧
    shfsListCb env acc fuel m i (fun _ => true) (some (traced cb)) (arg, []) =
      some (m', (arg', (entries m.fs L).map some), .ok (entries m.fs L).length) ∧
    m'.fs = m.fs

/-- The calls of a callback are those that its traced form notes down. -/
theorem listsExactly_iff_loop {env : Env} {acc : Nat → Access} {fuel : Nat} {m : Mount} {i : Nat}
    {parent : Ino}
    {L : List Idx} {cb : ListCb σ} (hi : m.inos[i]? = some parent)
    (hcont : parent.blk.type.isContainer = true)
    (arg : σ) :
    ListsExactly env acc fuel m i L cb arg ↔
      ∃ m' arg', listLoop env acc (fun _ => true)
        (some (traced cb)) i fuel m (arg, []) parent.blk.fpos 0 =
        some (m', (arg', [] ++ (entries m.fs L).map some), .ok (0 + (entries m.fs L).length)) ∧
        m'.fs = m.fs := by
  rw [ListsExactly]
  simp only [shfsListCb, hi, if_pos hcont, Nat.zero_add, List.nil_append]
  refine exists_congr fun m' => exists_congr fun arg' => and_iff_right_of_imp fun hrun => ?_
  rw [@listLoop_untraced σ env acc (fun _ => true) cb i fuel m arg [], hrun.1]
  rfl

/-- In every sound mount, for every open directory and every callback that returns zero: the
listing is exact if and only if the text and the type of every entry lead to the entry again. -/
theorem listing_exact_iff {env : Env} {acc : Nat → Access} {fuel : Nat} {m : Mount}
    {own : Idx → Idx} {i : Nat}
    {parent : Ino} {L : List Idx} {cb : ListCb σ} (hm : Mounted m own)
    (hi : m.inos[i]? = some parent)
    (hcont : parent.blk.type.isContainer = true) (hL : Chain (nextOf m.fs) parent.blk.fpos.ref L)
    (hcb : ∀ m n arg, ∃ arg', cb m n arg = some (arg', .ok ()))
    (hfuel : 2 * L.length < fuel) (arg : σ) :
    ListsExactly env acc fuel m i L cb arg ↔
      ∀ p ∈ entries m.fs L, Rederives env m i parent.blk L p := by
  obtain ⟨L', hL', hall, -, -⟩ := hm.chain hi
  cases hL.unique hL'
  rw [listsExactly_iff_loop hi hcont]
  exact Walked.walk hm hi hcont hL hall hcb (.refl env m i parent L) hL (fun _ hp => hp) (by omega)

/-! ## Names -/

/-- The text of a new inode with children. -/
theorem rawText_overlay {path : Bytes} (hzero : (0 : UInt8) ∉ path) (hlen : path.length < pathMax) :
    rawText (overlay Block.zero.raw 0 path) = path := by
  have hraw : Block.zero.raw.toList = List.replicate blockDataSize 0 := Vector.toList_replicate
  have hle : path.length ≤ blockDataSize := by
    unfold pathMax at hlen
    omega
  have hrest : (List.replicate (blockDataSize - path.length) (0 : UInt8)).takeWhile (fun b =>
    decide (b ≠ 0)) = [] := by
    rw [List.takeWhile_replicate]
    rfl
  rw [rawText, overlay_toList _ hle, hraw, List.drop_replicate, List.takeWhile_append_of_pos, hrest,
    List.append_nil]
  · exact List.take_of_length_le (by omega)
  · intro b hb
    rw [decide_eq_true_eq]
    rintro rfl
    exact hzero hb

/-- The name of a new inode that a listing finds again: a directory's leaves room for a slash, and
another one does not end in a slash. -/
def NameKept (name : Bytes) (mode : Shinode) : Prop :=
  if (inodePath name mode).2 = .directory then (inodePath name mode).1.length + 1 < pathMax
  else (inodePath name mode).1.getLast? ≠ some 0x2f

/-- What `shfs_inode` makes of the text that it has stored itself. -/
theorem inodePath_again {name : Bytes} {mode : Shinode} (h : NameKept name mode) :
    inodePath (if (inodePath name mode).2 = .directory then (inodePath name mode).1 ++ [0x2f]
      else (inodePath name mode).1) (inodePath name mode).2 = inodePath name mode := by
  have hnull := inodePath_ne_null name mode
  have hlength := inodePath_length name mode
  unfold NameKept at h
  generalize hpath : inodePath name mode = r at h hnull hlength ⊢
  obtain ⟨path, mode'⟩ := r
  dsimp only at h hnull hlength ⊢
  have hwhole : ∀ text : Bytes, text.length < pathMax → text.take (blockDataSize - 34 - 1) = text :=
    fun text hlen => List.take_of_length_le (Nat.le_sub_one_of_lt hlen)
  by_cases hdir : mode' = .directory
  · -- the slash is dropped again
    rw [if_pos hdir] at h ⊢
    have htext : (path ++ [0x2f]).length < pathMax := by
      rw [List.length_append]
      exact h
    rw [inodePath, hwhole _ htext, List.getLast?_concat, if_pos rfl, List.dropLast_concat,
      if_neg hnull]
  · rw [if_neg hdir] at h ⊢
    rw [inodePath, hwhole _ hlength, if_neg h, if_neg hnull]

/-- The key of an inode that `shfs_inode` has made, as a listing derives it again. -/
theorem new_rederives {env : Env} {parent blk : Block} {name : Bytes} {mode : Shinode}
    (h : NameKept name mode)
    (hzero : (0 : UInt8) ∉ name) (hcont : (inodePath name mode).2.isContainer = true)
    (htype : blk.type = (inodePath name mode).2)
    (hraw : blk.raw = (newInode blk.name (inodePath name mode).2 (inodePath name mode).1).raw)
    (hname : blk.name = childKey env parent name mode) :
    ∃ path, listPath blk = some path ∧ childKey env parent path blk.type = blk.name := by
  have hpath : (0 : UInt8) ∉ (inodePath name mode).1 := by
    intro hin
    unfold inodePath at hin
    dsimp only at hin
    split at hin
    · exact hzero (List.mem_of_mem_take (List.mem_of_mem_dropLast hin))
    · exact hzero (List.mem_of_mem_take hin)
  have htext : rawText blk.raw = (inodePath name mode).1 := by
    rw [hraw, newInode, if_pos hcont]
    exact rawText_overlay hpath (inodePath_length name mode)
  have hagain := inodePath_again h
  refine ⟨if (inodePath name mode).2 = .directory then (inodePath name mode).1 ++ [0x2f]
    else (inodePath name mode).1, ?_, ?_⟩
  · rw [listPath, htext, htype]
    unfold NameKept at h
    split_ifs at h ⊢ <;> rfl
  · rw [hname, htype, childKey, childKey, hagain]

/-! ## New entries -/

section Made

variable {env : Env} {fuel : Nat} {m m' : Mount} {own : Idx → Idx} {i : Nat} {ino : Ino}
  {name : Bytes}
  {mode : Shinode} {acc : Access}

/-- A lookup leaves the text of the directory alone. -/
theorem shfsInode_parent_raw {n : Nat} (hi : m.inos[i]? = some ino)
    (hrun : shfsInode env fuel m i name mode acc = some (m', some n)) :
    ∃ ino', m'.inos[i]? = some ino' ∧ ino'.blk.raw = ino.blk.raw ∧ ino'.blk.pos = ino.blk.pos := by
  have hlt : i < m.inos.length := (List.getElem?_eq_some_iff.mp hi).1
  rcases shfsInode_cases hrun with ⟨heq, -⟩ | ⟨ino', hi', -, -, -, hcases⟩ | ⟨_, _, _, _, _, _, -,
      -, -, -, hres⟩
  · exact ⟨ino, by rw [show m' = m from heq, hi], rfl, rfl⟩
  · cases hi.symm.trans hi'
    rcases hcases with ⟨blk, -, heq⟩ | ⟨inode, fs', pblk, blk, -, -, -, -, hnew, heq⟩
    · refine ⟨ino, ?_, rfl, rfl⟩
      rw [show m' = _ from heq]
      exact (List.getElem?_append_left hlt).trans hi
    · obtain ⟨⟨fpos, mtime, hpblk⟩, -⟩ := linkNew_eq hnew
      refine ⟨{ ino with blk := pblk }, ?_, by rw [hpblk], by rw [hpblk]⟩
      rw [show m' = _ from heq]
      exact (List.getElem?_append_left (by rw [Mount.put, List.length_set]; exact hlt)).trans
        (List.getElem?_set_self hlt)
  · cases hres

/-- A write to a file stores the text of its open copy. -/
theorem BinOpen.written_raw {other : Formats} {f b : Nat} {file bin : Ino} {data : Bytes}
    (h : BinOpen env m f b file bin) (hne : f ≠ b) (hplain : file.blk.Plain)
    (hrun : shfsWrite env other fuel m f data acc = some (m', .ok ())) :
    (m'.fs.block file.blk.pos).raw = file.blk.raw := by
  obtain ⟨fs1, blk1, mtime, writes, -, rfl⟩ := shfsWrite_inv h hne hplain hrun
  generalize hblk : { copyStats file.blk blk1 with format := .binary, mtime := mtime } = blk
  have hpos : blk.pos = file.blk.pos := by rw [← hblk]; rfl
  show (({ fs1 with writes := writes }.store blk).block file.blk.pos).raw = _
  rw [← hpos, Shfs.store_self, ← hblk]
  rfl

/-- An inode that `shfs_inode` has made below another one. -/
structure Made (env : Env) (m' : Mount) (i : Nat) (ino : Ino) (name : Bytes) (mode : Shinode)
    (p : Idx) : Prop where
  raw_eq : (m'.fs.block p).raw =
    (newInode (m'.fs.block p).name (inodePath name mode).2 (inodePath name mode).1).raw
  type_eq : (m'.fs.block p).type = (inodePath name mode).2
  name_eq : (m'.fs.block p).name = childKey env ino.blk name mode
  parent_eq : ∃ ino', m'.inos[i]? = some ino' ∧ ino'.blk.name = ino.blk.name ∧
    ino'.blk.salt = ino.blk.salt

theorem shfsInode_made {n : Nat} (hm : Mounted m own) (hi : m.inos[i]? = some ino)
    (hnone : findChild m i (childKey env ino.blk name mode) = none)
    (hfind : shfsLinkFind fuel m.fs ino.blk (childKey env ino.blk name mode) = some (.error .noent))
    (hrun : shfsInode env fuel m i name mode acc = some (m', some n)) :
    ∃ a, m'.inos[n]? = some a ∧
      a.blk.raw = (newInode a.blk.name (inodePath name mode).2 (inodePath name mode).1).raw ∧
      Made env m' i ino name mode a.blk.pos := by
  have hheld := hm.held i ino hi
  obtain ⟨L, hL, hall, -, -⟩ := hm.chain hi
  obtain ⟨-, -, hmap⟩ := hm.sound.cell _ hheld.live
  have hlt : i < m.inos.length := (List.getElem?_eq_some_iff.mp hi).1
  generalize hkey : childKey env ino.blk name mode = key at hnone hfind
  unfold shfsInode at hrun
  simp only [hi] at hrun
  rw [show env.token ino.blk.name ino.blk.salt (inodePath name mode).2 (inodePath name mode).1 =
    key from hkey] at hrun
  unfold findChild at hnone
  simp only [hnone, hfind] at hrun
  generalize hinode : newInode key (inodePath name mode).2 (inodePath name mode).1 = inode at hrun
  have hname : inode.name = key := by
    rw [← hinode]
    rfl
  have htype : inode.type = (inodePath name mode).2 := by
    rw [← hinode]
    rfl
  have hnull : inode.type ≠ .null := by
    rw [htype]
    exact inodePath_ne_null name mode
  have hfpos : inode.fpos = Idx.zero := by
    rw [← hinode]
    rfl
  rw [shfsLink_noent (by rw [hname]; exact hfind)] at hrun
  rcases hnew : linkNew env m.fs ino.blk inode with ⟨fs', pblk, blk, err | ⟨⟨⟩⟩⟩
  · simp only [hnew, Option.some.injEq, Prod.mk.injEq, reduceCtorEq, and_false] at hrun
  simp only [hnew, Option.some.injEq, Prod.mk.injEq] at hrun
  obtain ⟨rfl, rfl⟩ := hrun
  obtain ⟨-, _, _, _, _, _, hblk⟩ := linkNew_eq hnew
  have hraw : blk.raw = inode.raw := by rw [hblk]
  rcases linkNew_spec hL hall hmap hnull hfpos hnew with ⟨⟨err, hcon⟩, -, -⟩ | ⟨-, fs2, hl⟩
  · cases hcon
  obtain ⟨mtime, hpblk⟩ := hl.parent_eq
  obtain ⟨writes, hfs'⟩ := hl.store_eq
  -- the parent is written after the child, and over another block
  have hstored : fs'.block blk.pos = blk := by
    rw [hfs', Shfs.store_ne _ _ fun heq => hl.free (by rw [heq, hpblk]; exact hheld.live)]
    exact hl.block_eq
  have hblkname : blk.name = key := hl.name_eq.trans hname
  refine ⟨
    { blk := { blk with owner := acc.owner, attr := acc.attr, salt := acc.salt }
      parent := some i }, ?_, ?_,
    ⟨?_, ?_, ?_, ⟨{ ino with blk := pblk }, ?_, ?_, ?_⟩⟩⟩
  · rw [List.getElem?_append_right (by rw [List.length_set]), List.length_set, Nat.sub_self]
    rfl
  · show blk.raw = (newInode blk.name _ _).raw
    rw [hraw, ← hinode, hblkname]
  · show (fs'.block blk.pos).raw = (newInode (fs'.block blk.pos).name _ _).raw
    rw [hstored, hraw, ← hinode, hblkname]
  · show (fs'.block blk.pos).type = _
    rw [hstored, hl.type_eq, htype]
  · show (fs'.block blk.pos).name = _
    rw [hstored, hblkname, hkey]
  · rw [List.getElem?_append_left (by rw [List.length_set]; exact hlt), List.getElem?_set_self hlt]
  · rw [hpblk]
  · rw [hpblk]

/-- An inode that has been made under a name that is kept leads to itself again. -/
theorem Made.rederives {p : Idx} (h : Made env m' i ino name mode p) (hkept : NameKept name mode)
    (hzero : (0 : UInt8) ∉ name) (hcont : (inodePath name mode).2.isContainer = true) :
    ∃ path, listPath (m'.fs.block p) = some path ∧
      childKey env ino.blk path (m'.fs.block p).type = (m'.fs.block p).name :=
  new_rederives hkept hzero hcont h.type_eq h.raw_eq h.name_eq

end Made

/-! ## Directories with an entry -/

/-- The first inode in the root directory of a new partition. -/
theorem first_entry {env : Env} {m m' : Mount} {peerKey rootKey : ShKey} {peerRaw name : Bytes}
    {salt : UInt16}
    {fuel n : Nat} {mode : Shinode} {acc : Access}
    (h : shfsInitNew env peerKey rootKey peerRaw salt = .ok m)
    (hrun : shfsInode env (fuel + 1) m 0 name mode acc = some (m', some n)) :
    FileReached env noFormats m' ∧ ∃ root a, m'.inos[n]? = some a ∧
      a.blk.raw = (newInode a.blk.name (inodePath name mode).2 (inodePath name mode).1).raw ∧
      Made env m' 0 root name mode a.blk.pos := by
  obtain ⟨node, pos, hnew⟩ := newPartition h
  obtain ⟨⟨own, hm⟩, -⟩ := mounted_init h
  have hi : m.inos[0]? = some { blk := m.fs.block pos, parent := none } := by rw [hnew.inos]; rfl
  have hnone : ∀ key, findChild m 0 key = none := by
    intro key
    rw [findChild, hnew.inos]
    rfl
  have hfind : ∀ key, shfsLinkFind (fuel + 1) m.fs (m.fs.block pos) key = some (.error .noent) := by
    intro key
    rw [shfsLinkFind, hnew.root_type, hnew.root_links.2.2]
    rfl
  refine ⟨(FileReached.init h).inode hi (by rw [hnew.root_type]; decide) hrun,
    { blk := m.fs.block pos, parent := none }, ?_⟩
  exact shfsInode_made hm hi (hnone _) (hfind _) hrun

/-- A callback that counts its calls. -/
def countCb : ListCb Nat := fun _ _ n => some (n + 1, .ok ())

/-- An inode in the root directory of a new partition. -/
def oneEntry (name : Bytes) (mode : Shinode) : Option (Mount × Option Nat) :=
  (shfsInitNew keysByLength ashkeyBlank ashkeyBlank [] 0).toOption.bind fun m =>
    shfsInode keysByLength 5 m 0 name mode anyone

/-- One directory in the root directory. -/
theorem listing_exact_iff_directory : ∃ m n, oneEntry [0x61] .directory = some (m, n) ∧
    ListsExactly keysByLength (fun _ => anyone) 5 m 0 [{ jno := 1, ino := 2 }] countCb 0 := by
  obtain ⟨⟨m, n⟩, hrun⟩ : ∃ res, oneEntry [0x61] .directory = some res :=
    Option.isSome_iff_exists.mp (by decide +kernel)
  have hfacts : (oneEntry [0x61] .directory).map (fun res =>
    (res.2, res.1.inos.map fun ino => ino.blk.pos,
      res.1.inos[0]?.map fun root => (root.blk.type, root.blk.fpos.ref))) =
      some (some 1, [{ jno := 1, ino := 3 }, { jno := 1, ino := 2 }],
        some (.directory, some { jno := 1, ino := 2 })) := by decide +kernel
  have hentry : (oneEntry [0x61] .directory).map (fun res =>
    (nextOf res.1.fs { jno := 1, ino := 2 },
      childAt res.1 0 [{ jno := 1, ino := 2 }] (res.1.fs.block { jno := 1, ino := 2 }).name)) =
      some (none, some { jno := 1, ino := 2 }) := by decide +kernel
  rw [hrun, Option.map_some, Option.some.injEq, Prod.mk.injEq] at hfacts hentry
  obtain ⟨rfl, hfacts⟩ := hfacts
  rw [Prod.mk.injEq] at hfacts
  obtain ⟨hpos, hroot⟩ := hfacts
  obtain ⟨root, hi, hblk⟩ := Option.map_eq_some_iff.mp hroot
  rw [Prod.mk.injEq] at hblk
  obtain ⟨m0, h0, h1⟩ := Option.bind_eq_some_iff.mp hrun
  obtain ⟨hreach, root0, a, ha, -, hmade⟩ := first_entry (ok_of_toOption h0) h1
  obtain ⟨own, hmounted, -⟩ := hreach.filed
  obtain ⟨root', hi', hname, hsalt⟩ := hmade.parent_eq
  cases hi.symm.trans hi'
  have hposa : a.blk.pos = { jno := 1, ino := 2 } := by
    have hone := congrArg (fun L => L[1]?) hpos
    simp only [List.getElem?_map, ha, Option.map_some] at hone
    exact Option.some.inj hone
  rw [hposa] at hmade
  refine ⟨m, some 1, hrun, (listing_exact_iff hmounted hi (by rw [hblk.1]; rfl)
    (L := [{ jno := 1, ino := 2 }])
    ⟨hblk.2, hentry.1⟩ (fun _ _ n => ⟨n + 1, rfl⟩) (by decide) 0).mpr ?_⟩
  intro p hp
  obtain rfl := List.mem_singleton.mp (List.mem_of_mem_filter hp)
  obtain ⟨path, hpath, hkey⟩ :=
    hmade.rederives (show [(0x61 : UInt8)].length + 1 < pathMax by decide)
    (by decide) (by decide)
  refine ⟨⟨path, hpath, ?_⟩, hentry.2⟩
  rw [childKey, hname, hsalt]
  exact hkey

/-- A file in the root directory that has been created with two slashes behind its name. -/
def slashFile : Option Mount :=
  (oneEntry [0x61, 0x2f, 0x2f] .file).bind fun res =>
    (shfsInode keysByLength 5 res.1 1 [] .binary anyone).bind fun res =>
      (shfsWrite keysByLength noFormats 5 res.1 1 [1] anyone).bind fun res =>
        res.2.toOption.map fun _ => res.1

/-- One of the slashes is stored. -/
theorem slashFile_stored {m : Mount} (h : slashFile = some m) :
    FileReached keysByLength noFormats m ∧ rawText (m.fs.block { jno := 1, ino := 2 }).raw =
      [0x61, 0x2f] := by
  obtain ⟨⟨m1, n⟩, h1, h⟩ := Option.bind_eq_some_iff.mp h
  obtain ⟨⟨m2, n2⟩, h2, h⟩ := Option.bind_eq_some_iff.mp h
  obtain ⟨⟨m3, r⟩, h3, h⟩ := Option.bind_eq_some_iff.mp h
  obtain ⟨u, hu, rfl⟩ := Option.map_eq_some_iff.mp h
  obtain rfl : r = .ok u := ok_of_toOption hu
  have hnew : (oneEntry [0x61, 0x2f, 0x2f] .file).map (fun res => (res.2,
      res.1.inos[1]?.map fun file => (file.blk.type, file.blk.pos))) =
      some (some 1, some (.file, { jno := 1, ino := 2 })) := by decide +kernel
  have hfile : ((oneEntry [0x61, 0x2f, 0x2f] .file).bind fun res =>
      shfsInode keysByLength 5 res.1 1 [] .binary anyone).map (fun res =>
        (res.2, res.1.inos[1]?.map fun file =>
        (file.blk.type, file.blk.attr, file.blk.format,
          findChild res.1 1 (childKey keysByLength file.blk [] .binary)))) =
      some (some 2, some (.file, 0, .null, some 2)) := by decide +kernel
  rw [h1, Option.map_some, Option.some.injEq, Prod.mk.injEq] at hnew
  rw [h1, Option.bind_some, h2, Option.map_some, Option.some.injEq, Prod.mk.injEq] at hfile
  obtain ⟨rfl, hnew⟩ := hnew
  obtain ⟨rfl, hfile⟩ := hfile
  obtain ⟨a, ha, hblk⟩ := Option.map_eq_some_iff.mp hnew
  obtain ⟨file, hf, hfblk⟩ := Option.map_eq_some_iff.mp hfile
  simp only [Prod.mk.injEq] at hblk hfblk
  obtain ⟨htype, hpos⟩ := hblk
  obtain ⟨hftype, hattr, hformat, hfind⟩ := hfblk
  obtain ⟨m0, h0, h1'⟩ := Option.bind_eq_some_iff.mp h1
  obtain ⟨hreach, root, a', ha', hraw, hmade⟩ := first_entry (ok_of_toOption h0) h1'
  cases ha.symm.trans ha'
  have hreach2 := hreach.inode ha (by rw [htype]; decide) h2
  have hplain : file.blk.Plain :=
    ⟨by rw [hftype]; decide, by rw [hattr]; rfl, by rw [hformat]; decide⟩
  refine ⟨hreach2.write hf hplain h3, ?_⟩
  -- the text is carried from the new inode through both of the steps
  obtain ⟨file', hf', hraw', hpos'⟩ := shfsInode_parent_raw ha h2
  cases hf.symm.trans hf'
  obtain ⟨bin, hb, -⟩ := findChild_some hfind
  obtain ⟨own, hm2, -⟩ := hreach2.filed
  have hopen : BinOpen keysByLength m2 1 2 file bin := ⟨hf, hb, hfind⟩
  have hwritten := hopen.written_raw (by decide) hplain h3
  rw [hpos', hpos] at hwritten
  rw [hwritten, hraw', hraw]
  exact @rawText_overlay [0x61, 0x2f] (by decide) (by decide)

/-- The listing looks the file up under another name, and makes a file of that name. -/
theorem listing_makes_file :
    ¬ ∀ (env : Env) (acc : Nat → Access) (fuel : Nat) (m : Mount) (i : Nat) (parent : Ino)
    (L : List Idx), FileReached env noFormats m → m.inos[i]? = some parent →
    parent.blk.type.isContainer = true →
    Chain (nextOf m.fs) parent.blk.fpos.ref L → 2 * L.length < fuel →
    ListsExactly env acc fuel m i L countCb 0 := by
  intro hall
  obtain ⟨m, hm⟩ : ∃ m, slashFile = some m := Option.isSome_iff_exists.mp (by decide +kernel)
  have hroot : slashFile.map (fun m => m.inos[0]?.map fun root =>
    (root.blk.type, root.blk.fpos.ref)) =
      some (some (.directory, some { jno := 1, ino := 2 })) := by decide +kernel
  have hentry : slashFile.map (fun m => (nextOf m.fs { jno := 1, ino := 2 },
      (m.fs.block { jno := 1, ino := 2 }).type, (m.fs.block { jno := 1, ino := 2 }).format,
      (m.fs.block { jno := 1, ino := 2 }).name.crc)) =
        some (none, .file, .binary, 2) := by decide +kernel
  rw [hm, Option.map_some, Option.some.injEq] at hroot hentry
  obtain ⟨root, hi, hblk⟩ := Option.map_eq_some_iff.mp hroot
  simp only [Prod.mk.injEq] at hblk hentry
  obtain ⟨hnext, htype, hformat, hcrc⟩ := hentry
  obtain ⟨hreach, htext⟩ := slashFile_stored hm
  obtain ⟨own, hmounted, -⟩ := hreach.filed
  have hcont : root.blk.type.isContainer = true := by rw [hblk.1]; rfl
  have hL : Chain (nextOf m.fs) root.blk.fpos.ref [{ jno := 1, ino := 2 }] := ⟨hblk.2, hnext⟩
  obtain ⟨L', hL', hstored, -, -⟩ := hmounted.chain hi
  cases hL.unique hL'
  have hexact := hall keysByLength (fun _ => anyone) 5 m 0 root _ hreach hi hcont hL (by decide)
  rw [listsExactly_iff_loop hi hcont] at hexact
  have hre :=
    (Walked.walk hmounted hi hcont hL hstored (fun _ _ n => ⟨n + 1, rfl⟩) (.refl _ _ _ _ _) hL
    (fun _ hp => hp) (by decide)).mp hexact { jno := 1, ino :=
      2 } (List.mem_filter.mpr ⟨List.mem_singleton.mpr rfl,
        decide_eq_true (show Block.Listed _ from ⟨by rw [htype]; decide, by rw [hformat]; decide⟩)⟩)
  -- the key that the text gives is that of a name without a slash
  obtain ⟨path, hpath, hkey⟩ := hre.key
  rw [listPath, htext, htype, if_neg (by decide)] at hpath
  obtain rfl := Option.some.inj hpath
  have hone := congrArg ShKey.crc hkey
  rw [hcrc, htype] at hone
  exact absurd (show (1 : UInt16) = 2 from hone) (by decide)

end LibShare.Fs
