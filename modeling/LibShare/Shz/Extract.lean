import LibShare.Lib.Paths
import LibShare.Lib.Runs
import LibShare.Shz.Members

/-!
# libshare — extracting a SHZ archive

`shz_list` of `shmem_shz.c`, with `shz_list_write` for each member: the walk over the
file table, the check of the content, and the paths that are written.

* The walk is a state machine. A step is the call for a map page, or one slot of it;
  its action is the result of writing a file, if one is written.
* What is compared with `fspec` (`fnmatch`) is left to the caller.
* A path that does not fit its buffer has no result.

`extract_below_iff`: what is written is below the target just when each name that is
recorded climbs out of nothing that it does not return to.
-/

namespace LibShare.Shz

/-! ## The walk -/

/-- `PATH_MAX`. -/
def pathMax : Nat := 4096

/-- `shz_map_load`: the children that the map page refers to are made. -/
def shzMapLoad : Tree → ShzM Tree
  | .nil => Prog.fail .io
  | .node seq left right => do
    let blk ← shzPage seq
    match blk with
    | none => Prog.fail .io
    | some p => do
      let lref ← Prog.read fun z => z.fld p 12 4
      let rref ← Prog.read fun z => z.fld p 8 4
      let child := fun (child : Tree) (ref : Nat) => if child.isNil ∧ ref ≠ 0 then
        Tree.node ref .nil .nil else child
      pure (.node seq (child left lref) (child right rref))

/-- `shz_filename`: the text that is recorded, as far as it fits. -/
def shzFilename (bnum : Nat) : ShzM Bytes := do
  let blk ← shzPage bnum
  match blk with
  | none => Prog.fail .inval
  | some p => do
    let name ← Prog.read fun z => z.fld p 60 4
    let buff ← shzRawRead name
    pure ((buff.takeWhile (· ≠ 0)).take pathMax)

/-- `shz_mod_read` of a module page. -/
def shzModRead (env : Env) (fuel p : Nat) : ShzM Bytes := do
  let bnum ← Prog.read fun z => z.fld p 56 4
  alloc (lenUpTo bnum)
  let raw ← Prog.read fun z => decide (z.flags &&& flagRaw ≠ 0)
  shzIndexRead (readerOf env fuel raw) fuel bnum []

/-- A member that is passed to the operation: its page, its name and its content. -/
structure Entry where
  bnum : Nat
  filename : Bytes
  buff : Bytes

/-- The content of a member, and the checks of it. -/
def memberRead (env : Env) (fuel bnum p : Nat) : ShzM Bytes := do
  let buff ← shzModRead env fuel p
  let mod ← shzPage bnum
  match mod with
  | none => Prog.fail .io
  | some p => do
    let size ← Prog.read fun z => z.fld p 40 4
    let crc ← Prog.read fun z => z.bytes p 44 4
    if size ≠ buff.length then Prog.fail .inval
    else if leBytes32 (shcrc32 buff) ≠ crc then Prog.fail .ilseq
    else pure buff

/-- The body of the loop of `shz_list_r` up to the operation, if it comes to that.
`spec` is what `fspec` selects. -/
def listSlot (env : Env) (fuel : Nat) (spec : Bytes → Bool) (seq hnum : Nat) :
    ShzM (Option Entry) := do
  let blk ← shzPage seq
  match blk with
  | none => Prog.fail .io
  | some map => do
    let bnum ← Prog.read fun z => z.fld map (segOf hnum) 4
    if bnum = 0 then pure none
    else do
      let filename ← shzFilename bnum
      let mod ← shzPage bnum
      match mod with
      | none => Prog.fail .io
      | some p =>
        if filename = [] ∨ ¬ spec filename then pure none
        else do
          let buff ← memberRead env fuel bnum p
          pure (some { bnum, filename, buff })

/-- What is left to do: a call of `shz_list_r`, and a loop of one from a slot on. -/
inductive ListFrame
  | call (node : Tree)
  | slots (seq hnum : Nat)

/-- The walk: the archive, what is left to do, and the files that were written. -/
structure ListWalk where
  z : Arch
  frames : List ListFrame
  written : List (Bytes × Bytes)

def ListWalk.start (z : Arch) : ListWalk := { z, frames := [.call z.ftable], written := [] }

/-- The calls and the loop of a map page. -/
def ListFrame.ofNode : Tree → List ListFrame
  | .nil => []
  | .node seq left right =>
    (if left.isNil then [] else [.call left]) ++ (if right.isNil then [] else [.call right]) ++
    [.slots seq 0]

section Walk

variable (env : Env) (fuel : Nat) (spec : Bytes → Bool)

/-- The path of `shz_list` without a slash at its end. -/
def pwdPath (relPath : Bytes) : Bytes :=
  let path := relPath.take pathMax
  if path.getLast? = some 47 then path.dropLast else path

/-- The path of a member. -/
def memberPath (relPath filename : Bytes) : Bytes := pwdPath relPath ++ 47 :: filename

/-- A slot has been looked at. An error ends the walk, also one of `shfs_mem_write`. -/
def ListWalk.afterSlot (relPath : Bytes) (w : ListWalk) (seq hnum : Nat) (frames : List ListFrame)
    (err : Except Sherr Unit) : Except Sherr (Option Entry) × Arch → Option ListWalk
  | (.error _, z) => some { w with z, frames := [] }
  | (.ok none, z) => some { w with z, frames := .slots seq (hnum + 1) :: frames }
  | (.ok (some entry), z) =>
    let path := memberPath relPath entry.filename
    if pathMax < path.length then none
    else
      some { z, written := w.written ++ [(path, entry.buff)]
             frames := match err with
              | .error _ => []
              | .ok _ => .slots seq (hnum + 1) :: frames }

/-- A step of `shz_list_r`, where `err` is what `shfs_mem_write` returns. -/
def ListWalk.step (relPath : Bytes) (w : ListWalk) (err : Except Sherr Unit) : Option ListWalk :=
  match w.frames with
  | [] => none
  | .call node :: frames =>
    (shzMapLoad node w.z).map fun (r, z) =>
      match r with
      | .error _ => { w with z, frames := [] }
      | .ok node => { w with z, frames := ListFrame.ofNode node ++ frames }
  | .slots seq hnum :: frames =>
    if hashMask ≤ hnum then some { w with frames }
    else (listSlot env fuel spec seq hnum w.z).bind (w.afterSlot relPath seq hnum frames err)

end Walk

/-! ## Where a path leads -/

/-- The components of a path. -/
def components (path : Bytes) : List (Component Bytes) :=
  (path.splitOn 47).map fun name =>
    if name = [] ∨ name = [46] then .stay else if name = [46, 46] then .up else .into name

/-- Where a path leads, with `.` and `..` resolved. -/
def resolve (path : Bytes) : Position Bytes :=
  Position.follow { root := path.head? = some 47, ups := 0, names := [] } (components path)

/-- The second path leads below the first one. -/
def Under (relPath path : Bytes) : Prop := (resolve relPath).Below (resolve path)

/-- Where the name leads by itself. -/
def nameLeads (filename : Bytes) : Position Bytes := Position.here.follow (components filename)

/-- The files that were written are below the target. -/
def ListWalk.Inside (relPath : Bytes) (w : ListWalk) : Prop :=
  ∀ file ∈ w.written, Under relPath file.1

/-- The target is a path, and the name of the member that is next, if its path fits,
returns to the target from wherever it climbs out. -/
def ListWalk.NameReturns (env : Env) (fuel : Nat) (spec : Bytes → Bool) (relPath : Bytes)
    (w : ListWalk) : Prop :=
  ∀ seq hnum frames, w.frames = .slots seq hnum :: frames → hnum < hashMask →
    ∀ entry z, listSlot env fuel spec seq hnum w.z = some (.ok (some entry), z) →
      (memberPath relPath entry.filename).length ≤ pathMax →
        relPath ≠ [] ∧ (resolve relPath).Returns (nameLeads entry.filename)

/-! ## The path of a member -/

theorem components_append (path rest : Bytes) :
    components (path ++ 47 :: rest) = components path ++ components rest := by
  rw [components, List.splitOn_append_cons_self, List.map_append]
  rfl

/-- The slash at the end of a target is the one that is put behind it. -/
theorem memberPath_eq {relPath : Bytes} (hfit : relPath.length ≤ pathMax) (filename : Bytes) :
    memberPath relPath filename = relPath ++ 47 :: filename ∨
      ∃ pwd, relPath = pwd ++ [47] ∧ memberPath relPath filename = pwd ++ 47 :: filename := by
  rw [memberPath, pwdPath, List.take_of_length_le hfit]
  by_cases hslash : relPath.getLast? = some 47
  · obtain ⟨pwd, rfl⟩ := List.getLast?_eq_some_iff.mp hslash
    refine Or.inr ⟨pwd, rfl, ?_⟩
    rw [if_pos hslash, List.dropLast_concat]
  · rw [if_neg hslash]
    exact Or.inl rfl

/-- The name is followed from the target. -/
theorem resolve_member {relPath : Bytes} (hne : relPath ≠ []) (hfit : relPath.length ≤ pathMax)
    (filename : Bytes) :
    resolve (memberPath relPath filename) = (resolve relPath).add (nameLeads filename) := by
  rw [nameLeads, ← Position.follow_eq_add]
  have hhead : ∀ rest : Bytes, (relPath ++ rest).head? = relPath.head? :=
    fun rest => List.head?_append_of_ne_nil _ hne
  rcases memberPath_eq hfit filename with hpath | ⟨pwd, hpwd, hpath⟩
  · rw [hpath, resolve, resolve, hhead, components_append, Position.follow_append]
  · have hsame : pwd ++ 47 :: filename = relPath ++ filename := by rw [hpwd, List.append_assoc]; rfl
    have hlast : components relPath = components pwd ++ [.stay] := by
      rw [hpwd, components_append]; rfl
    rw [hpath, resolve, components_append, Position.follow_append, hsame, hhead, resolve, hlast,
      Position.follow_append]
    rfl

theorem head_memberPath {filename : Bytes} : (memberPath [] filename).head? = some 47 := rfl

theorem length_pwdPath {relPath : Bytes} (h : pathMax < relPath.length) :
    pathMax ≤ (pwdPath relPath).length + 1 := by
  have hlen : (relPath.take pathMax).length = pathMax := List.length_take_of_le h.le
  rw [pwdPath]
  split
  · rw [List.length_dropLast, hlen]
    omega
  · omega

/-- A path that fits is below its target just when its name returns to it. -/
theorem under_member_iff {relPath filename : Bytes} (hname : filename ≠ [])
    (hfit : (memberPath relPath filename).length ≤ pathMax) :
    Under relPath (memberPath relPath filename) ↔ relPath ≠ [] ∧
      (resolve relPath).Returns (nameLeads filename) := by
  have hrel : relPath.length ≤ pathMax := by
    by_contra hlong
    have hpwd := length_pwdPath (Nat.lt_of_not_le hlong)
    have hpos := List.length_pos_of_ne_nil hname
    rw [memberPath, List.length_append, List.length_cons] at hfit
    omega
  by_cases hne : relPath = []
  · subst hne
    refine iff_of_false ?_ fun h => h.1 rfl
    rintro ⟨hroot, -⟩
    rw [resolve, resolve, Position.root_follow, Position.root_follow] at hroot
    exact absurd hroot (by rw [head_memberPath]; decide)
  · rw [Under, resolve_member hne hrel, Position.below_add_iff, and_iff_right hne]

/-! ## The run -/

section Run

variable {env : Env} {fuel : Nat} {spec : Bytes → Bool} {relPath : Bytes}

/-- A member without a name is left out. -/
theorem listSlot_filename {seq hnum : Nat} {z z' : Arch} {entry : Entry}
    (h : listSlot env fuel spec seq hnum z = some (.ok (some entry), z')) :
    entry.filename ≠ [] := by
  unfold listSlot at h
  rcases Prog.bind_inv h with ⟨e, -, he⟩ | ⟨_ | p, z1, -, h⟩
  · cases he
  · cases h
  rcases Prog.bind_inv h with ⟨e, -, he⟩ | ⟨bnum, z2, -, h⟩
  · cases he
  split at h
  · cases h
  rcases Prog.bind_inv h with ⟨e, -, he⟩ | ⟨filename, z3, -, h⟩
  · cases he
  rcases Prog.bind_inv h with ⟨e, -, he⟩ | ⟨_ | mod, z4, -, h⟩
  · cases he
  · cases h
  dsimp only at h
  split at h
  · cases h
  · next hname =>
    -- the name is that of the entry
    rcases Prog.bind_inv h with ⟨e, -, he⟩ | ⟨buff, z5, -, h⟩
    · cases he
    · cases h
      exact fun hnil => hname (Or.inl hnil)

theorem step_inside (w : ListWalk) (err : Except Sherr Unit) (hw : w.Inside relPath) :
    (∀ w', w.step env fuel spec relPath err = some w' → w'.Inside relPath) ↔
      w.NameReturns env fuel spec relPath := by
  have hsame : (∀ w', w.step env fuel spec relPath err = some w' → w'.written = w.written) →
      ∀ w', w.step env fuel spec relPath err = some w' → w'.Inside relPath := by
    intro h w' hw'
    rw [ListWalk.Inside, h w' hw']
    exact hw
  -- only the step that writes a file has to do with its name
  have hother : (∀ w', w.step env fuel spec relPath err = some w' → w'.written = w.written) →
      w.NameReturns env fuel spec relPath →
        ((∀ w', w.step env fuel spec relPath err = some w' → w'.Inside relPath) ↔
          w.NameReturns env fuel spec relPath) := fun h hname => iff_of_true (hsame h) hname
  rcases hframes : w.frames with _ | ⟨node | ⟨seq, hnum⟩, frames⟩
  · refine hother ?_ ?_
    · intro w' hw'
      rw [ListWalk.step, hframes] at hw'
      cases hw'
    · intro seq hnum frames h
      rw [hframes] at h
      cases h
  · refine hother ?_ ?_
    · intro w' hw'
      rw [ListWalk.step, hframes] at hw'
      obtain ⟨⟨r, z'⟩, -, rfl⟩ := Option.map_eq_some_iff.mp hw'
      cases r with
      | error e => rfl
      | ok node => rfl
    · intro seq hnum frames h
      rw [hframes] at h
      cases h
  · have hstep : w.step env fuel spec relPath err = if hashMask ≤ hnum then some { w with frames }
        else (listSlot env fuel spec seq hnum w.z).bind
          (w.afterSlot relPath seq hnum frames err) := by
      rw [ListWalk.step, hframes]
    have hname : w.NameReturns env fuel spec relPath ↔ (hnum < hashMask →
        ∀ entry z, listSlot env fuel spec seq hnum w.z = some (.ok (some entry), z) →
          (memberPath relPath entry.filename).length ≤ pathMax →
            relPath ≠ [] ∧ (resolve relPath).Returns (nameLeads entry.filename)) := by
      constructor
      · exact fun h => h seq hnum frames hframes
      · intro h seq' hnum' frames' hframes'
        rw [hframes] at hframes'
        cases hframes'
        exact h
    rw [hstep] at hsame ⊢
    rw [hname]
    by_cases hmask : hashMask ≤ hnum
    · rw [if_pos hmask] at hsame ⊢
      refine iff_of_true (hsame ?_) fun hlt => absurd hmask (Nat.not_le_of_lt hlt)
      rintro _ ⟨⟩
      rfl
    · rw [if_neg hmask] at hsame ⊢
      rw [imp_iff_right (Nat.lt_of_not_le hmask)]
      match hslot : listSlot env fuel spec seq hnum w.z with
      | none => exact iff_of_true nofun nofun
      | some (.error e, z) =>
        rw [hslot] at hsame
        refine iff_of_true (hsame ?_) nofun
        rintro _ ⟨⟩
        rfl
      | some (.ok none, z) =>
        rw [hslot] at hsame
        refine iff_of_true (hsame ?_) nofun
        rintro _ ⟨⟩
        rfl
      | some (.ok (some entry), z) =>
        simp only [Option.bind_some, ListWalk.afterSlot]
        by_cases hfit : (memberPath relPath entry.filename).length ≤ pathMax
        · rw [if_neg (Nat.not_lt_of_le hfit)]
          have hunder := under_member_iff (listSlot_filename hslot) hfit
          constructor
          · rintro h _ _ ⟨⟩ -
            exact hunder.mp (h _ rfl _ (List.mem_append_right _ (List.mem_singleton_self _)))
          · rintro h _ ⟨⟩ file hfile
            rcases List.mem_append.mp hfile with hfile | hfile
            · exact hw file hfile
            · obtain rfl := List.mem_singleton.mp hfile
              exact hunder.mpr (h entry z rfl hfit)
        · rw [if_pos (Nat.lt_of_not_le hfit)]
          refine iff_of_true nofun ?_
          rintro _ _ ⟨⟩ h
          exact absurd h hfit

/-- Every file that is written is below the target, just when every name that is come to
returns to the target from wherever it climbs out. -/
theorem extract_below_iff (env : Env) (fuel : Nat) (spec : Bytes → Bool)
    (relPath : Bytes) (z : Arch)
    (errs : List (Except Sherr Unit)) :
    AlwaysAlong (ListWalk.step env fuel spec relPath) (ListWalk.Inside relPath) (.start z) errs ↔
      KeepsAlong (ListWalk.step env fuel spec relPath)
        (fun w _ => w.NameReturns env fuel spec relPath) (.start z) errs :=
  always_iff_keeps step_inside errs _ fun _ => nofun

end Run

/-- An archive of five pages, of which page 2 is a file with the name `../x`, without content. -/
def climbingName : Mem.Shbuf where
  data := fun i =>
    if i < 64 then
      (beBytes 2 pageBase ++ magic ++ List.replicate 12 0 ++ beBytes 8 5120 ++
        List.replicate 32 0 ++
      beBytes 4 4 ++ beBytes 4 1).getD i 0
    else if i = 1043 then 2   -- the first slot of page 1
    else if i = 2048 + 63 then 3   -- the name of page 2
    else if 2048 + 44 ≤ i ∧ i < 2048 + 48 then (leBytes32 (shcrc32 [])).getD (i - 2092) 0
    else if i = 3072 + 7 then 20   -- the used size of page 3
    else if 3088 ≤ i ∧ i < 3092 then [46, 46, 47, 120].getD (i - 3088) 0
    else 0
  dataOf := 5120
  dataMax := 131072
  mapped := false

/-- It is opened, and the file `/a/../x` is written, for the target `/a`. -/
theorem climbing_written :
    ∃ z, shzArchInit plainEnv 1 0 (.blank climbingName 0 []) = some (.ok (), z) ∧
      ¬ AlwaysAlong (ListWalk.step plainEnv 1 (fun _ => true) [47, 97]) (ListWalk.Inside [47, 97])
      (.start z) [.ok (), .ok ()] := by
  have hall : (shzArchInit plainEnv 1 0 (.blank climbingName 0 [])).map (fun r => (r.1.toOption,
      match ListWalk.step plainEnv 1 (fun _ => true) [47, 97] (.start r.2) (.ok ()) with
      | none => false
      | some w => match ListWalk.step plainEnv 1 (fun _ => true) [47, 97] w (.ok ()) with
        | none => false
        | some w =>
          w.written.map Prod.fst = [[47, 97, 47, 46, 46, 47, 120]])) = some (some (), true) := by
    decide +kernel
  obtain ⟨⟨r, z⟩, hopen, hpair⟩ := Option.map_eq_some_iff.mp hall
  obtain ⟨hok, hrun⟩ := Prod.mk.inj hpair
  obtain rfl : r = .ok () := ok_of_toOption hok
  refine ⟨z, hopen, fun h => ?_⟩
  dsimp only at hrun
  split at hrun
  · cases hrun
  · next w1 hfirst =>
    split at hrun
    · cases hrun
    · next w2 hsecond =>
      have hfiles := of_decide_eq_true hrun
      have hinside : w2.Inside [47, 97] := ((h.2 w1 hfirst).2 w2 hsecond)
      obtain ⟨file, hfile, hpath⟩ := List.mem_map.mp (hfiles ▸ List.mem_singleton_self _)
      have hunder := hinside file hfile
      rw [hpath] at hunder
      obtain ⟨-, -, a, rest, hnames⟩ := hunder
      -- `x` is not behind `a`
      exact absurd (List.cons.inj hnames).1 (by decide)

end LibShare.Shz
