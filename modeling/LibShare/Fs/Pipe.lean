import LibShare.Mem.Buf

/-!
# libshare — piping a file

`shfs_file_pipe` of `shfs_file.c` reads a file into a buffer and writes the buffer to a descriptor.
What `write(2)` has taken is added to the offset, and the loop adds one more. So the byte behind
every write is left out, and only a write of the whole buffer leaves nothing out (`pipe_iff`).

The content of the file is what `shfs_read` gives for it. The results of `write(2)` are a sequence.
-/

namespace LibShare.Fs

open Mem

/-! ## The loop -/

/-- A call of `write(2)`: where in the buffer, how many bytes, and the result. -/
structure PipeCall where
  of : Nat
  offered : Nat
  result : Int

/-- The assignment of a size to an `int`. -/
def intOf (r : Int) : Int := Int.bmod r (2 ^ 32)

/-- The loop of `shfs_file_pipe`, from the call with number `n` on. -/
def pipeLoop (data : Bytes) (write : Nat → Int) (errno : Sherr) (n bOf : Nat) :
    Except Sherr Unit × List PipeCall :=
  if bOf < data.length then
    let call := { of := bOf, offered := data.length - bOf, result := write n }
    let bLen := intOf (write n)
    if bLen < 0 then (.error errno, [call])
    else
      -- `b_of += b_len`, and `b_of++` of the loop
      let rest := pipeLoop data write errno (n + 1) (bOf + bLen.toNat + 1)
      (rest.1, call :: rest.2)
  else (.ok (), [])
termination_by data.length - bOf

/-- `shfs_file_pipe`, over what `shfs_read` gives. -/
def shfsFilePipe (read : Except Sherr Bytes) (write : Nat → Int) (errno : Sherr) :
    Option (Except Sherr Unit × List PipeCall) :=
  match read with
  | .error err => some (.error err, [])
  | .ok data => (shbufCat shbufInit data).map fun buff => pipeLoop buff.contents write errno 0 0

/-- The bytes that have been written, in order. -/
def accepted (data : Bytes) (calls : List PipeCall) : Bytes :=
  calls.flatMap fun call => (data.drop call.of).take call.result.toNat

/-- `write(2)` takes something, and not more than there is. -/
def PipeCall.Valid (call : PipeCall) : Prop := 0 < call.result ∧ call.result ≤ call.offered

instance (call : PipeCall) : Decidable call.Valid := inferInstanceAs (Decidable (_ ∧ _))

/-! ## One pass -/

variable {data : Bytes} {write : Nat → Int} {errno : Sherr} {n bOf : Nat}

/-- A result that fits an `int` is kept. -/
theorem intOf_eq {r : Int} (hpos : 0 ≤ r) (hlt : r < 2 ^ 31) : intOf r = r := by
  unfold intOf
  rw [Int.bmod_eq_of_le] <;> omega

theorem pipeLoop_done (h : data.length ≤ bOf) : pipeLoop data write errno n bOf = (.ok (), []) := by
  rw [pipeLoop, if_neg (Nat.not_lt.mpr h)]

/-- A write that has taken `k` bytes. -/
theorem pipeLoop_pass (h : bOf < data.length) (hlen : data.length < 2 ^ 31) {k : Nat}
    (hk : write n = k)
    (hle : k ≤ data.length - bOf) : pipeLoop data write errno n bOf =
      ((pipeLoop data write errno (n + 1) (bOf + k + 1)).1,
        { of := bOf, offered := data.length - bOf, result := k } ::
          (pipeLoop data write errno (n + 1) (bOf + k + 1)).2) := by
  have hint : intOf (write n) = k := by
    rw [hk]
    exact intOf_eq (by omega) (by omega)
  rw [pipeLoop, if_pos h]
  dsimp only
  rw [hint, if_neg (by omega), hk]
  rfl

/-- A write that has taken the rest, or the rest but for one byte, is the last one. -/
theorem pipeLoop_once (h : bOf < data.length) (hlen : data.length < 2 ^ 31) {k : Nat}
    (hk : write n = k)
    (hle : k ≤ data.length - bOf) (hend : data.length ≤ bOf + k + 1) :
    pipeLoop data write errno n bOf =
      (.ok (), [{ of := bOf, offered := data.length - bOf, result := k }]) := by
  rw [pipeLoop_pass h hlen hk hle]
  have hdone := @pipeLoop_done data write errno (n + 1) (bOf + k + 1) hend
  rw [hdone]

/-- Where every call is valid, the first one has taken a number of bytes. -/
theorem first_valid (h : bOf < data.length)
    (hvalid : ∀ call ∈ (pipeLoop data write errno n bOf).2, call.Valid) :
    ∃ k : Nat, write n = k ∧ k ≤ data.length - bOf := by
  have hcall : PipeCall.Valid { of := bOf, offered := data.length - bOf, result := write n } := by
    refine hvalid _ ?_
    rw [pipeLoop, if_pos h]
    dsimp only
    -- the call is made whether it fails or not
    split
    · exact List.mem_cons_self
    · exact List.mem_cons_self
  obtain ⟨hpos, hle⟩ := hcall
  obtain ⟨k, hk⟩ := Int.eq_ofNat_of_zero_le (Int.le_of_lt hpos)
  dsimp only at hk hle
  exact ⟨k, hk, by omega⟩

/-! ## The whole loop -/

/-- Every call is made where the calls before it have left a byte out. So what has been taken and
the number of calls are what was to be written together, or one more. -/
theorem pipeLoop_spec (hlen : data.length < 2 ^ 31) :
    ∀ (todo : Nat) {n bOf : Nat}, data.length - bOf ≤ todo →
    bOf ≤ data.length → (∀ call ∈ (pipeLoop data write errno n bOf).2, call.Valid) →
    (pipeLoop data write errno n bOf).1 = .ok () ∧
      ((accepted data (pipeLoop data write errno n bOf).2).length +
        (pipeLoop data write errno n bOf).2.length =
          data.length - bOf ∨
        (accepted data (pipeLoop data write errno n bOf).2).length +
        (pipeLoop data write errno n bOf).2.length =
          data.length - bOf + 1) := by
  intro todo
  induction todo with
  | zero =>
    intro n bOf htodo hle _
    rw [pipeLoop_done (by omega)]
    exact ⟨rfl, Or.inl (by simp [accepted]; omega)⟩
  | succ todo ih =>
    intro n bOf htodo hle hvalid
    rcases Nat.lt_or_ge bOf data.length with hlt | hge
    · obtain ⟨k, hk, hkle⟩ := first_valid hlt hvalid
      have hpass := @pipeLoop_pass data write errno n bOf hlt hlen k hk hkle
      rw [hpass] at hvalid ⊢
      have htake : ((data.drop bOf).take k).length = k := by
        rw [List.length_take, List.length_drop]
        omega
      have hcount : ∀ calls, (accepted data
          ({ of := bOf, offered := data.length - bOf, result := k } :: calls)).length =
          k + (accepted data calls).length := by
        intro calls
        rw [accepted, List.flatMap_cons, List.length_append]
        dsimp only
        rw [Int.toNat_natCast, htake]
        rfl
      rw [hcount, List.length_cons]
      rcases Nat.lt_or_ge data.length (bOf + k + 1) with hend | hmore
      · -- the write has taken the rest, and the loop goes beyond the end
        rw [pipeLoop_done (Nat.le_of_lt hend)]
        refine ⟨rfl, Or.inr ?_⟩
        show k + (accepted data []).length + (0 + 1) = _
        simp only [accepted, List.flatMap_nil, List.length_nil]
        omega
      · obtain ⟨hok, hsum⟩ := @ih (n + 1) (bOf + k + 1) (by omega) hmore fun call hcall =>
          hvalid call (List.mem_cons_of_mem _ hcall)
        refine ⟨hok, ?_⟩
        omega
    · rw [pipeLoop_done hge]
      exact ⟨rfl, Or.inl (by simp [accepted]; omega)⟩

theorem accepted_whole (data : Bytes) :
    accepted data [{ of := 0, offered := data.length, result := (data.length : Int) }] = data := by
  simp [accepted]

/-- A buffer that can be filled has fewer than 2^31 bytes. -/
theorem fits_lt {len : Nat} (h : Mem.Fits len) : len < 2 ^ 31 := by
  have hle := shbufBlocks_le (len + 1)
  unfold Mem.Fits at h
  omega

/-- Piping a file that can be read into a buffer. -/
theorem shfsFilePipe_eq (hfits : Mem.Fits data.length) :
    shfsFilePipe (.ok data) write errno = some (pipeLoop data write errno 0 0) := by
  have hcat := @shbufCat_spec shbufInit (Nat.le_refl 0) data
  have hfits0 : Mem.Fits (shbufInit.dataOf + data.length) := by
    rwa [show shbufInit.dataOf = 0 from rfl, Nat.zero_add]
  rw [if_pos hfits0] at hcat
  obtain ⟨buff, hrun, hcontents, -⟩ := hcat
  have hdata : buff.contents = data := hcontents
  show (shbufCat shbufInit data).map _ = _
  rw [hrun, Option.map_some, hdata]

theorem shfsFilePipe_none (hfits : ¬ Mem.Fits data.length) :
    shfsFilePipe (.ok data) write errno = none := by
  have hcat := @shbufCat_spec shbufInit (Nat.le_refl 0) data
  have hfits0 : ¬ Mem.Fits (shbufInit.dataOf + data.length) := by
    rwa [show shbufInit.dataOf = 0 from rfl, Nat.zero_add]
  rw [if_neg hfits0] at hcat
  show (shbufCat shbufInit data).map _ = _
  rw [hcat]
  rfl

/-- With writes that take something each, what has been written is the file if and only if the
first write takes all of it, unless there is nothing to be written or no buffer for it. -/
theorem pipe_iff (data : Bytes) (write : Nat → Int) (errno : Sherr)
    (hvalid : ∀ r, shfsFilePipe (.ok data) write errno = some r → ∀ call ∈ r.2, call.Valid) :
    (∀ calls, shfsFilePipe (.ok data) write errno = some (.ok (), calls) →
      accepted data calls = data) ↔
      (Mem.Fits data.length → data = [] ∨ write 0 = data.length) := by
  by_cases hfits : Mem.Fits data.length
  · have hrun := @shfsFilePipe_eq data write errno hfits
    have hlen := fits_lt hfits
    have hvalid0 := hvalid _ hrun
    obtain ⟨hok, hsum⟩ := pipeLoop_spec hlen data.length (Nat.sub_le _ _) (Nat.zero_le _) hvalid0
    constructor
    · intro hall _
      by_contra hpart
      rw [not_or] at hpart
      have hall0 := hall (pipeLoop data write errno 0 0).2 (hrun.trans (by rw [← hok]))
      rw [hall0, Nat.sub_zero] at hsum
      have hpos : 0 < data.length := List.length_pos_iff.mpr hpart.1
      obtain ⟨k, hk, hkle⟩ := first_valid hpos hvalid0
      rw [pipeLoop_pass hpos hlen hk hkle] at hsum hall0
      -- so there was no call but the first one, which has taken the data
      have hnil : (pipeLoop data write errno (0 + 1) (0 + k + 1)).2 = [] := by
        rw [List.length_cons] at hsum
        exact List.length_eq_zero_iff.mp (by omega)
      rw [hnil] at hall0
      have hlength := congrArg List.length hall0
      simp only [accepted, List.flatMap_cons, List.flatMap_nil, List.append_nil, List.drop_zero,
        List.length_take, Int.toNat_natCast] at hlength
      refine hpart.2 ?_
      rw [hk]
      omega
    · intro hcond calls hcalls
      rw [hrun, Option.some.injEq] at hcalls
      have hsnd : (pipeLoop data write errno 0 0).2 = calls := congrArg Prod.snd hcalls
      by_cases hnil : data = []
      · have hdone := @pipeLoop_done data write errno 0 0 (by simp [hnil])
        rw [← hsnd, hdone, hnil]
        rfl
      · have hfirst := (hcond hfits).resolve_left hnil
        have hpos : 0 < data.length := List.length_pos_iff.mpr hnil
        rw [← hsnd, pipeLoop_once hpos hlen hfirst (Nat.le_refl _) (by omega)]
        exact accepted_whole data
  · refine iff_of_true (fun calls hcalls => ?_) fun h => absurd h hfits
    rw [shfsFilePipe_none hfits] at hcalls
    cases hcalls

/-- A write that takes both bytes at once leaves nothing out. -/
theorem pipe_iff_whole :
    ∃ calls, shfsFilePipe (.ok [1, 2]) (fun _ => 2) .io = some (.ok (), calls) ∧
      accepted [1, 2] calls = [1, 2] := by
  have hfits : Mem.Fits ([1, 2] : Bytes).length := by decide
  have honce := @pipeLoop_once [1, 2] (fun _ =>
    2) .io 0 0 (by decide) (by decide) 2 rfl (by decide) (by decide)
  have hrun := @shfsFilePipe_eq [1, 2] (fun _ => 2) .io hfits
  rw [honce] at hrun
  refine ⟨_, hrun, (pipe_iff [1, 2] (fun _ => 2) .io fun r hr call hcall => ?_).mpr (fun _ =>
    Or.inr rfl) _ hrun⟩
  rw [hrun, Option.some.injEq] at hr
  rw [← hr, List.mem_singleton] at hcall
  rw [hcall]
  exact ⟨by decide, by decide⟩

/-- Of two bytes the first one is taken by the first write, and the loop is at its end. -/
theorem second_byte_not_written :
    ∃ calls, shfsFilePipe (.ok [1, 2]) (fun _ => 1) .io = some (.ok (), calls) ∧
      (∀ call ∈ calls, call.Valid) ∧ accepted [1, 2] calls ≠ [1, 2] := by
  have hfits : Mem.Fits ([1, 2] : Bytes).length := by decide
  have honce := @pipeLoop_once [1, 2] (fun _ =>
    1) .io 0 0 (by decide) (by decide) 1 rfl (by decide) (by decide)
  refine ⟨[{ of := 0, offered := 2, result := 1 }], ?_, ?_, ?_⟩
  · rw [shfsFilePipe_eq hfits, honce]
    rfl
  · intro call hcall
    rw [List.mem_singleton.mp hcall]
    exact ⟨by decide, by decide⟩
  · decide

end LibShare.Fs
