import LibShare.Shz.Open

/-!
# libshare — SHZ archives: members that are read back

`shz_mod_write` stores the content of a member behind an index page, and names the index page
in the module page. `shz_file_read` hands the page that is named to `shz_data_read`, which
reads a zlib page and nothing else: no member is ever read back (`file_never_read`).
-/

namespace LibShare.Shz

open Mem Prog

variable {z z' : Arch} {env : Env}

/-- The archives that are reached from a fresh one, in a buffer that is zero, by
`shz_file_write` calls. A call may fail, and `bidx` may have any value. -/
inductive Reached (env : Env) : Arch → Prop
  | fresh {buf : Shbuf} {clocks : Nat} {salt : UInt16} {flags : UInt32} {z : Arch} :
      (∀ i, buf.data i = 0) → initFlags buf flags &&& flagFresh ≠ 0 →
      shzArchInit env salt flags (.blank buf clocks []) = some (.ok (), z) → Reached env z
  | write {fuel bidx : Nat} {name data : Bytes} {z z' : Arch} {r : Except Sherr Unit} :
      Reached env z →
      shzFileWrite env fuel bidx name data z = some (r, z') → Reached env z'

theorem Reached.inv (h : Reached env z) : Inv true z := by
  induction h with
  | fresh hzero hfresh hrun =>
    exact archInit_fresh (List.forall_mem_nil _) hfresh (fun _ => hzero) hrun
  | write _ hrun ih => exact (keeps_fileWrite ih _ _ hrun).1.inv

/-- A page that is not a zlib page has no data. -/
theorem keeps_dataRead {fuel bnum : Nat} (h : Inv true z) (hp : Plain z bnum) :
    Keeps (Step true) (shzDataRead env fuel bnum) z fun _ _ => False := by
  refine keeps_page h bnum (Keeps.fail h.refl) fun _ => Keeps.bind_read ?_
  exact Keeps.ite (fun hzlib => absurd hzlib hp.type) fun _ => Keeps.fail h.refl

/-- No member is read. -/
theorem keeps_fileRead {fuel : Nat} {name : Bytes} (h : Inv true z) :
    Keeps (Step true) (shzFileRead env fuel name) z fun _ _ => False := by
  refine Keeps.bind (keeps_ftableGet h) fun bidx z1 hs1 hmod => ?_
  refine keeps_page hs1.inv bidx (Keeps.fail hs1.inv.refl) fun _ => ?_
  refine Keeps.bind_read (Keeps.bind_read ?_)
  have hplain := (hs1.inv.orderly rfl).mods bidx hmod.1 hmod.2
  exact Keeps.bind (keeps_dataRead hs1.inv hplain) fun _ _ _ hfalse => hfalse.elim

/-- A member that has been written is not read back. -/
theorem file_never_read {fuel bidx : Nat} {name data : Bytes} (h : Reached env z)
    (hwrite : shzFileWrite env fuel bidx name data z = some (.ok (), z')) :
    ∀ fuel', ¬ Succeeds (shzFileRead env fuel' name) z' := by
  rintro fuel' ⟨out, z'', hread⟩
  have hinv := (keeps_fileWrite h.inv _ _ hwrite).1.inv
  exact (keeps_fileRead hinv _ _ hread).2 out rfl

/-- A compression that changes nothing, and keys that are the first byte of a name. -/
def plainEnv : Env where
  keyBin :=
    fun data => { alg := 0, crc := 0, code := #v[(data.headD 0).toUInt32, 0, 0, 0, 0, 0, 0] }
  deflate := fun data => data
  inflate := fun data => .ok data
  clock := fun _ => 0

/-- A fresh archive and the member "a" of three bytes. -/
theorem reached_write : ∃ z z', Reached plainEnv z ∧
    shzFileWrite plainEnv 5 0 [97] [1, 2, 3] z = some (.ok (), z') := by
  have hrun : Succeeds (do
      shzArchInit plainEnv 1 0
      shzFileWrite plainEnv 5 0 [97] [1, 2, 3] : ShzM Unit) (.blank shbufInit 0 []) := by
    decide +kernel
  obtain ⟨_, z, hinit, _, z', hwrite⟩ := succeeds_bind.mp hrun
  exact ⟨z, z', .fresh (fun _ => rfl) (by decide) hinit, hwrite⟩

/-- Three bytes are written to a fresh archive as the file `a`, which succeeds, and no read of
it does. -/
theorem file_never_read_three : ∃ z z', Reached plainEnv z ∧
    shzFileWrite plainEnv 5 0 [97] [1, 2, 3] z = some (.ok (), z') ∧
    ∀ fuel, ¬ Succeeds (shzFileRead plainEnv fuel [97]) z' := by
  obtain ⟨z, z', hz, hwrite⟩ := reached_write
  exact ⟨z, z', hz, hwrite, file_never_read hz hwrite⟩

/-- The three bytes are written, and cannot be read. -/
theorem three_bytes_lost : ∃ z z', Reached plainEnv z ∧
    shzFileWrite plainEnv 5 0 [97] [1, 2, 3] z = some (.ok (), z') ∧
    ¬ ∃ fuel z'', shzFileRead plainEnv fuel [97] z' = some (.ok [1, 2, 3], z'') := by
  obtain ⟨z, z', hz, hwrite⟩ := reached_write
  refine ⟨z, z', hz, hwrite, ?_⟩
  rintro ⟨fuel, z'', hread⟩
  have hinv := (keeps_fileWrite hz.inv _ _ hwrite).1.inv
  exact (keeps_fileRead hinv _ _ hread).2 _ rfl

end LibShare.Shz
