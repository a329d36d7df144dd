import LibShare.Shz.Content

/-!
# libshare — SHZ archives: checksums of pages

`shz_crc_set` stores a checksum of 16 bits in the header of a page, and `shz_read_page`
compares it with the bytes of the page. A single byte that is changed always changes the
checksum (`crc16_ne`). But `shz_crc_get` takes no checksum of a page that is full: both
sides are zero then, and nothing is noticed (`corruption_detected_iff`).
-/

namespace LibShare.Shz

open Mem Prog

variable {z z' z'' : Arch} {env : Env} {p q n of t : Nat} {bs data : Bytes}

/-! ## The checksum

The loop adds up the words of the data in `a`, and the sums in `b`. What is stored is `a` with
the low byte of `b` added to its high byte. -/

/-- Two bytes as a number. -/
theorem toNat_leWord16 (b0 b1 : UInt8) : (leWord16 b0 b1).toNat = b0.toNat + 256 * b1.toNat := by
  have h0 := b0.toNat_lt
  have h1 := b1.toNat_lt
  have hword : (leWord16 b0 b1).toNat = b0.toNat ||| b1.toNat <<< 8 % 65536 := by
    simp [leWord16]
  rw [hword, Nat.shiftLeft_eq, Nat.mod_eq_of_lt (by omega), Nat.or_comm, ← Nat.shiftLeft_eq,
    ← Nat.shiftLeft_add_eq_or_of_lt (by omega), Nat.shiftLeft_eq]
  omega

/-- Words in front do not end the loop. -/
theorem crc16Loop_append :
    ∀ {pre : Bytes} (a : UInt16) (b : UInt32) (rest : Bytes), pre.length % 2 = 0 →
    shzCrc16Loop a b (pre ++ rest) =
      shzCrc16Loop (shzCrc16Loop a b pre).1 (shzCrc16Loop a b pre).2 rest := by
  intro pre
  induction pre using List.twoStepInduction with
  | nil => exact fun _ _ _ _ => rfl
  | singleton x => exact fun _ _ _ h => nomatch h
  | cons_cons x y pre ih _ =>
    intro a b rest h
    rw [List.length_cons, List.length_cons] at h
    exact ih _ _ rest (by omega)

/-- Two loops over the same words: the difference of the sums stays, and sums that agree in their
low bytes have totals that do. -/
theorem crc16Loop_rest : ∀ (rest : Bytes) (a a' : UInt16) (b b' : UInt32),
    ((shzCrc16Loop a' b' rest).1 = (shzCrc16Loop a b rest).1 ↔ a' = a) ∧
      ((shzCrc16Loop a' b' rest).1.toNat % 256 = (shzCrc16Loop a b rest).1.toNat % 256 ↔
        a'.toNat % 256 = a.toNat % 256) ∧
      (a'.toNat % 256 = a.toNat % 256 → b'.toNat % 256 = b.toNat % 256 →
        (shzCrc16Loop a' b' rest).2.toNat % 256 = (shzCrc16Loop a b rest).2.toNat % 256) := by
  have hstep : ∀ (a a' w : UInt16) (b b' : UInt32), (a' + w = a + w ↔ a' = a) ∧
      ((a' + w).toNat % 256 = (a + w).toNat % 256 ↔ a'.toNat % 256 = a.toNat % 256) ∧
      (a'.toNat % 256 = a.toNat % 256 → b'.toNat % 256 = b.toNat % 256 →
        (b' + (a' + w).toUInt32).toNat % 256 = (b + (a + w).toUInt32).toNat % 256) := by
    intro a a' w b b'
    have ha := a.toNat_lt
    have ha' := a'.toNat_lt
    have hw := w.toNat_lt
    simp only [← UInt16.toNat_inj, UInt16.toNat_add, UInt32.toNat_add, UInt16.toNat_toUInt32]
    omega
  intro rest
  induction rest using List.twoStepInduction with
  | nil => exact fun a a' b b' => ⟨Iff.rfl, Iff.rfl, fun _ h => h⟩
  | singleton x => exact fun a a' b b' => hstep a a' _ b b'
  | cons_cons x y rest ih _ =>
    intro a a' b b'
    obtain ⟨heq, hlow, htotal⟩ := hstep a a' (leWord16 x y) b b'
    obtain ⟨ih1, ih2, ih3⟩ := ih (a + leWord16 x y) (a' + leWord16 x y)
      (b + (a + leWord16 x y).toUInt32) (b' + (a' + leWord16 x y).toUInt32)
    exact ⟨ih1.trans heq, ih2.trans hlow, fun h hb => ih3 (hlow.mpr h) (htotal h hb)⟩

/-- What is stored. -/
def crc16Of (ab : UInt16 × UInt32) : UInt16 := (ab.1.toUInt32 + (ab.2 <<< 8)).toUInt16

/-- The checksum of a page as a number. -/
theorem toNat_crc16Of (ab : UInt16 × UInt32) :
    (crc16Of ab).toNat = (ab.1.toNat + ab.2.toNat % 256 * 256) % 65536 := by
  have ha := ab.1.toNat_lt
  simp only [crc16Of, UInt32.toNat_toUInt16, UInt32.toNat_add, UInt16.toNat_toUInt32,
    UInt32.toNat_shiftLeft, Nat.shiftLeft_eq, UInt32.reduceToNat, Nat.reduceMod, Nat.reducePow]
  omega

/-- A word that has changed in one byte changes what is stored. -/
theorem crc16Of_ne {a a' : UInt16} {b : UInt32} (rest : Bytes)
    (hne : a'.toNat % 256 ≠ a.toNat % 256 ∨ a'.toNat % 256 = a.toNat % 256 ∧ a' ≠ a) :
    crc16Of (shzCrc16Loop a' (b + a'.toUInt32) rest) ≠
      crc16Of (shzCrc16Loop a (b + a.toUInt32) rest) := by
  obtain ⟨heq, hlow, htotal⟩ := crc16Loop_rest rest a a' (b + a.toUInt32) (b + a'.toUInt32)
  intro hcrc
  have hnat := congrArg UInt16.toNat hcrc
  rw [toNat_crc16Of, toNat_crc16Of] at hnat
  rcases hne with hne | ⟨hsame, hne⟩
  · -- the low byte is the one of the sum of the words
    exact hne (hlow.mp (by omega))
  · -- the totals agree in the byte that is added, and the sums do not agree
    have hb : (b + a'.toUInt32).toNat % 256 = (b + a.toUInt32).toNat % 256 := by
      simp only [UInt32.toNat_add, UInt16.toNat_toUInt32]
      omega
    have htot := htotal hsame hb
    rw [htot] at hnat
    refine hne (heq.mp (UInt16.toNat_inj.mp ?_))
    have ha := (shzCrc16Loop a (b + a.toUInt32) rest).1.toNat_lt
    have ha' := (shzCrc16Loop a' (b + a'.toUInt32) rest).1.toNat_lt
    omega

/-- A single byte that has changed changes the checksum. -/
theorem crc16_ne {pre rest : Bytes} {x y : UInt8} (hne : y ≠ x) (seed : UInt16) :
    shzCrc16 (pre ++ y :: rest) seed ≠ shzCrc16 (pre ++ x :: rest) seed := by
  intro heq
  have hne : y.toNat ≠ x.toNat := fun h => hne (UInt8.toNat_inj.mp h)
  have hx := x.toNat_lt
  have hy := y.toNat_lt
  have hcrc : crc16Of (shzCrc16Loop (1 + seed) 0 (pre ++ y :: rest)) =
      crc16Of (shzCrc16Loop (1 + seed) 0 (pre ++ x :: rest)) := htons_inj heq
  rcases Nat.mod_two_eq_zero_or_one pre.length with heven | hodd
  · -- the byte begins a word
    rw [crc16Loop_append _ _ _ heven, crc16Loop_append _ _ _ heven] at hcrc
    have hlow : ∀ (a : UInt16) (c : UInt8),
        (a + leWord16 y c).toNat % 256 ≠ (a + leWord16 x c).toNat % 256 := by
      intro a c
      simp only [UInt16.toNat_add, toNat_leWord16]
      omega
    rcases rest with _ | ⟨c, rest⟩
    · exact crc16Of_ne [] (Or.inl (hlow _ 0)) hcrc
    · exact crc16Of_ne rest (Or.inl (hlow _ c)) hcrc
  · -- the byte ends a word
    obtain ⟨pre', c, rfl⟩ : ∃ pre' c, pre = pre' ++ [c] := by
      rcases List.eq_nil_or_concat pre with rfl | ⟨pre', c, rfl⟩
      · cases hodd
      · exact ⟨pre', c, List.concat_eq_append⟩
    rw [List.length_append, List.length_singleton] at hodd
    have heven : pre'.length % 2 = 0 := by omega
    rw [List.append_assoc, List.append_assoc, crc16Loop_append _ _ _ heven,
      crc16Loop_append _ _ _ heven] at hcrc
    refine crc16Of_ne rest (Or.inr ?_) hcrc
    constructor
    · simp only [UInt16.toNat_add, toNat_leWord16]
      omega
    · intro hword
      have hnat := congrArg UInt16.toNat hword
      simp only [UInt16.toNat_add, toNat_leWord16] at hnat
      omega

/-! ## Reading a page -/

/-- `MAX_SHZ_PAGE_MODES`. -/
def maxPageModes : Nat := 24000

/-- `shz_read_page`. -/
def shzReadPage (bnum : Nat) : ShzM Unit := do
  let blk ← shzPage bnum
  match blk with
  | none => Prog.fail .io
  | some p => do
    let type ← Prog.read fun z => shzPageType z p
    -- nothing to do
    if type = 0 then pure ()
    else if maxPageModes ≤ type then Prog.fail .inval
    else do
      let sig ← Prog.read fun z => z.bytes p 2 2
      let size ← Prog.read fun z => shzPageSize z p
      if sig ≠ magic then Prog.fail .inval
      else if pageSize < size then Prog.fail .inval
      else if type = pageBase then pure ()
      else do
        -- verify checksum
        let crc ← Prog.read fun z => z.bytes p 4 2
        let found ← Prog.read fun z => leBytes16 (shzCrcGet z p)
        if found ≠ crc then Prog.fail .ilseq else pure ()

/-- Where the payload of a page begins. -/
def payloadOf (t : Nat) : Nat := if t = pageData then sizeofData else sizeofMod

/-- The types of the pages of the data writers. -/
def IsDataType (t : Nat) : Prop := t = pageData ∨ t = pageZlibData ∨ t = pageZlib

/-- A page of a data writer, whatever its checksum is. -/
structure Headed (z : Arch) (p : Nat) : Prop where
  ne : p ≠ 0
  lt : p < z.bseq
  type : IsDataType (shzPageType z p)
  sig : z.bytes p 2 2 = magic
  ge : payloadOf (shzPageType z p) ≤ shzPageSize z p
  le : shzPageSize z p ≤ pageSize

/-- The checksum of a page is the one in its header. -/
def HasCrc (z : Arch) (p : Nat) : Prop := z.bytes p 4 2 = leBytes16 (shzCrcGet z p)

instance (z : Arch) (p : Nat) : Decidable (HasCrc z p) := inferInstanceAs (Decidable (_ = _))

/-- A page that is looked up where it is. -/
def AtHand (z : Arch) (p : Nat) : Prop := shzPage p z = some (.ok (some p), z)

/-- What reading a page of a data writer says: its checksum is compared. -/
theorem Headed.read (h : Headed z p) (hat : AtHand z p) :
    shzReadPage p z = some (if HasCrc z p then .ok () else .error .ilseq, z) := by
  have htype : shzPageType z p ≠ 0 ∧ ¬ maxPageModes ≤ shzPageType z p ∧
      shzPageType z p ≠ pageBase := by
    rcases h.type with ht | ht | ht
    · rw [ht]
      decide
    · rw [ht]
      decide
    · rw [ht]
      decide
  unfold shzReadPage
  rw [bind_ok hat]
  simp only
  rw [bind_ok (read_run _ _), if_neg htype.1, if_neg htype.2.1, bind_ok (read_run _ _),
    bind_ok (read_run _ _), if_neg (not_not.mpr h.sig), if_neg (Nat.not_lt.mpr h.le),
      if_neg htype.2.2, bind_ok (read_run _ _),
    bind_ok (read_run _ _)]
  by_cases hcrc : HasCrc z p
  · rw [if_pos hcrc, if_neg (not_not.mpr hcrc.symm)]
    rfl
  · rw [if_neg hcrc, if_pos fun heq => hcrc heq.symm]
    rfl

/-- The checksum does not depend on the bytes where it is stored. -/
theorem crcGet_congr (hsalt : shzSalt z' = shzSalt z)
    (hsame : ∀ of n, of + n ≤ pageSize → of + n ≤ 4 ∨ 6 ≤ of → z'.bytes p of n = z.bytes p of n) :
    shzCrcGet z' p = shzCrcGet z p := by
  have hsize : shzPageSize z' p = shzPageSize z p :=
    congrArg beVal (hsame 6 2 (by decide) (Or.inr (by decide)))
  unfold shzCrcGet
  simp only
  rw [hsize, hsalt]
  split
  · rfl
  · next hin =>
    rw [hsame 0 4 (by decide) (Or.inl (by decide)), hsame 6 _ (by omega) (Or.inr (by decide))]

/-- A write to another page leaves the salt. -/
theorem salt_put (hp : p ≠ 0) (hend : of + bs.length ≤ pageSize) :
    shzSalt (z.put p of bs) = shzSalt z := by
  unfold shzSalt
  rw [Arch.fld_put_ne hend (by decide) fun heq => absurd heq.symm hp]

/-- A seal of another page leaves the salt. -/
theorem salt_sealed (hp : p ≠ 0) : shzSalt (z.sealed p) = shzSalt z := by
  unfold Arch.sealed
  rw [salt_put hp (by show 4 + 2 ≤ pageSize; decide), salt_put hp (by decide)]

/-- A page that has been given its checksum. -/
theorem hasCrc_sealed (hp : p ≠ 0) : HasCrc (z.sealed p) p := by
  have hcrc : shzCrcGet (z.sealed p) p = shzCrcGet (z.put p 4 [0, 0]) p := by
    refine crcGet_congr ?_ fun of n hend hout => ?_
    · rw [salt_sealed hp, salt_put hp (by decide)]
    · exact Arch.bytes_put_ne (by show 4 + 2 ≤ pageSize; decide) hend fun _ => hout
  unfold HasCrc
  rw [hcrc]
  exact Arch.bytes_put

/-- A page keeps its head if neither its bytes nor the sequence say otherwise. -/
theorem Headed.congr (h : Headed z p) (hbseq : z.bseq ≤ z'.bseq)
    (hsame : ∀ of n, of + n ≤ 8 → of + n ≤ 4 ∨ 6 ≤ of → z'.bytes p of n = z.bytes p of n) :
    Headed z' p := by
  have htype : shzPageType z' p = shzPageType z p :=
    congrArg beVal (hsame 0 2 (by decide) (Or.inl (by decide)))
  have hsize : shzPageSize z' p = shzPageSize z p :=
    congrArg beVal (hsame 6 2 (by decide) (Or.inr (by decide)))
  refine ⟨h.ne, Nat.lt_of_lt_of_le h.lt hbseq, ?_, ?_, ?_, ?_⟩
  · rw [htype]
    exact h.type
  · rw [hsame 2 2 (by decide) (Or.inl (by decide)), h.sig]
  · rw [htype, hsize]
    exact h.ge
  · rw [hsize]
    exact h.le

/-- A page of a data writer with its checksum. -/
structure Checked (z : Arch) (p : Nat) : Prop where
  head : Headed z p
  crc : HasCrc z p

/-- A page with a head is checked once it is sealed. -/
theorem Headed.sealed (h : Headed z p) : Checked (z.sealed p) p :=
  ⟨h.congr (Nat.le_refl _) fun _ _ hend hout =>
    sealed_bytes (Nat.le_trans hend (by decide)) fun _ => hout, hasCrc_sealed h.ne⟩

/-- The header stays as it is. -/
theorem Headed.put (h : Headed z p) (hof : 8 ≤ of) (hend : of + bs.length ≤ pageSize) :
    Headed (z.put p of bs) p :=
  h.congr (Nat.le_refl _) fun _ _ hend' _ =>
    Arch.bytes_put_ne hend (Nat.le_trans hend' (by decide)) fun _ => Or.inl (Nat.le_trans hend' hof)

/-- Other pages are written. -/
theorem Checked.same (h : Checked z p) (hbseq : z.bseq ≤ z'.bseq) (hsalt : shzSalt z' = shzSalt z)
    (hsame : Same z z' p) : Checked z' p := by
  refine ⟨h.head.congr hbseq fun of n hend _ => hsame.bytes (Nat.le_trans hend (by decide)), ?_⟩
  unfold HasCrc
  rw [crcGet_congr hsalt fun of n hend _ => hsame.bytes hend, hsame.bytes (by decide)]
  exact h.crc

/-! ## A byte that changes -/

/-- A part of a page with a byte in the middle. -/
theorem slice_split (d : Memory) {a n i : Nat} (hi : i < n) :
    slice d a n = slice d a i ++ d (a + i) :: slice d (a + i + 1) (n - i - 1) := by
  have hn : n = i + (n - i - 1 + 1) := by omega
  have hslice := slice_append d (n - i - 1 + 1) i a
  rw [← hn] at hslice
  exact hslice

/-- A changed byte of the payload is noticed if a checksum is taken. -/
theorem Checked.corrupt_iff (h : Checked z p) {i : Nat} {v : UInt8}
    (hi : payloadOf (shzPageType z p) + i < shzPageSize z p)
    (hv : v ≠ z.buff.data (p * pageSize + (payloadOf (shzPageType z p) + i))) :
    ¬ HasCrc (z.put p (payloadOf (shzPageType z p) + i) [v]) p ↔ shzPageSize z p < pageSize := by
  generalize hof : payloadOf (shzPageType z p) + i = of at *
  have hle := h.head.le
  have hof8 : 8 ≤ of := by
    have hpayload : 8 ≤ payloadOf (shzPageType z p) := by
      unfold payloadOf
      split <;> decide
    omega
  have hend : of + [v].length ≤ pageSize := by
    rw [List.length_singleton]
    omega
  have hhead : ∀ {of' n}, of' + n ≤ 8 → (z.put p of [v]).bytes p of' n = z.bytes p of' n :=
    fun hend' =>
    Arch.bytes_put_ne hend (Nat.le_trans hend' (by decide)) fun _ =>
      Or.inl (Nat.le_trans hend' hof8)
  have hsize : shzPageSize (z.put p of [v]) p = shzPageSize z p :=
    congrArg beVal (hhead (by decide))
  have hcrc := h.crc
  unfold HasCrc at hcrc ⊢
  rw [hhead (by decide), hcrc]
  unfold shzCrcGet
  simp only
  rw [hsize, salt_put h.head.ne hend, hhead (by decide)]
  by_cases hfull : shzPageSize z p < pageSize
  · rw [iff_true_right hfull, if_neg (by omega), if_neg (by omega)]
    -- the two checksums differ in one byte of the data
    have hrest : (z.put p of [v]).bytes p 6 (shzPageSize z p - 6) =
        slice z.buff.data (p * pageSize + 6) (of - 6) ++ v ::
          slice z.buff.data (p * pageSize + of + 1)
          (shzPageSize z p - of - 1) := by
      have hsplit :=
        slice_split (z.put p of [v]).buff.data (a := p * pageSize + 6) (n := shzPageSize z p - 6)
        (i := of - 6) (by omega)
      have hat : p * pageSize + 6 + (of - 6) = p * pageSize + of := by omega
      have hlen : shzPageSize z p - 6 - (of - 6) - 1 = shzPageSize z p - of - 1 := by omega
      rw [hat, hlen] at hsplit
      refine hsplit.trans ?_
      have hbefore : slice (z.put p of [v]).buff.data (p * pageSize + 6) (of - 6) =
          slice z.buff.data (p * pageSize + 6) (of - 6) := slice_poke_ne (Or.inl (by omega))
      have hafter : slice (z.put p of [v]).buff.data (p * pageSize + of + 1)
          (shzPageSize z p - of - 1) =
          slice z.buff.data (p * pageSize + of + 1) (shzPageSize z p - of - 1) :=
        slice_poke_ne (Or.inr (by rw [List.length_singleton]))
      have hself : (z.put p of [v]).buff.data (p * pageSize + of) = v := by
        have hone : slice (z.put p of [v]).buff.data (p * pageSize + of) 1 = [v] := slice_poke _ _ _
        exact (List.cons.inj hone).1
      rw [hbefore, hafter, hself]
    have hold : z.bytes p 6 (shzPageSize z p - 6) =
        slice z.buff.data (p * pageSize + 6) (of - 6) ++ z.buff.data (p * pageSize + of) ::
          slice z.buff.data (p * pageSize + of + 1) (shzPageSize z p - of - 1) := by
      have hsplit := slice_split z.buff.data (a := p * pageSize + 6) (n := shzPageSize z p - 6)
        (i := of - 6) (by omega)
      have hat : p * pageSize + 6 + (of - 6) = p * pageSize + of := by omega
      have hlen : shzPageSize z p - 6 - (of - 6) - 1 = shzPageSize z p - of - 1 := by omega
      rw [hat, hlen] at hsplit
      exact hsplit
    rw [hrest, hold, ← List.append_assoc, ← List.append_assoc]
    intro heq
    have hword := congrArg (fun bs => leWord16 (bs.getD 0 0) (bs.getD 1 0)) heq
    have hcrc : ∀ w : UInt16, leWord16 ((leBytes16 w).getD 0 0) ((leBytes16 w).getD 1 0) = w :=
      leWord16_leBytes16
    simp only [hcrc] at hword
    exact crc16_ne hv _ hword.symm
  · rw [iff_false_right hfull, if_pos (by omega), if_pos (by omega)]
    exact fun hne => hne rfl

/-! ## Archives that hand out pages -/

/-- The next page can be taken: the buffer has room for the pages that there are, and no page of a
table in memory is beyond them. -/
structure Ready (z : Arch) : Prop where
  pos : 1 ≤ z.bseq
  le : z.bseq ≤ 2 ^ 21
  room : z.bseq * pageSize ≤ z.buff.dataMax
  tables : shzSize z / pageSize ≤ z.bseq ∨ ∀ seq ∈ z.dtable.seqs ++ z.ftable.seqs, seq < z.bseq

/-- A sound archive is ready. -/
theorem Inv.ready {b : Bool} (h : Inv b z) : Ready z :=
  ⟨h.pos, h.le, h.room, Or.inl (Nat.le_of_eq h.size)⟩

/-- An archive that is ready has room. -/
theorem Ready.roomy (h : Ready z) : Roomy z where
  le := h.le
  room := h.room
  pos := Nat.lt_of_lt_of_le (Nat.mul_pos h.pos (by decide)) h.room
  quiet := by
    intro seq hseq hge
    rcases h.tables with hsize | htables
    · have hle := h.le
      unfold outOfRange
      rw [maxSeq_eq (by unfold pageSize at hsize; omega)]
      exact (Nat.le_trans hsize hge).trans (le_asSize seq)
    · have hmem : seq ∈ z.dtable.seqs ++ z.ftable.seqs := by
        unfold tableSeqs at hseq
        rcases List.mem_append.mp hseq with hd | hf
        · split at hd
          · exact List.mem_append_left _ hd
          · cases hd
        · split at hf
          · exact List.mem_append_right _ hf
          · cases hf
      exact absurd (htables seq hmem) (Nat.not_lt.mpr hge)

/-- Every page of an archive that is ready is at hand. -/
theorem Ready.atHand (h : Ready z) (hp : p < z.bseq) : AtHand z p := by
  have hnext : (p + 1) * pageSize ≤ z.bseq * pageSize := Nat.mul_le_mul_right _ hp
  have hle := h.le
  unfold AtHand shzPage
  rw [bind_ok (read_run _ _), id, if_neg (Nat.not_le.mpr hp)]
  refine pageAt_run rfl ?_ (Nat.le_trans hnext h.room)
  unfold pageSize at *
  omega

/-- Writing leaves the size of the archive. -/
theorem Ready.put (h : Ready z) (hp : p = 0 → of + bs.length ≤ 16 ∨ 24 ≤ of)
    (hend : of + bs.length ≤ pageSize) :
    Ready (z.put p of bs) := by
  have hsize : shzSize (z.put p of bs) = shzSize z :=
    Arch.fld_put_ne hend (by decide) fun heq => by
      have := hp heq.symm
      omega
  refine ⟨h.pos, h.le, h.room, ?_⟩
  rw [hsize]
  exact h.tables

/-- A seal keeps the archive ready. -/
theorem Ready.sealed (h : Ready z) (hp : p ≠ 0) : Ready (z.sealed p) :=
  (h.put (fun h0 => absurd h0 hp) (by decide)).put (fun h0 =>
    absurd h0 hp) (by show 4 + 2 ≤ pageSize; decide)

/-- Pages have been added behind the others, which are the same but for those of `S`. -/
structure Grows (S : Nat → Prop) (z z' : Arch) : Prop where
  ready : Ready z'
  bseq : z.bseq ≤ z'.bseq
  salt : shzSalt z' = shzSalt z
  same : SameBut S z z'

/-- An archive that is ready has grown from itself. -/
theorem Ready.grows {S : Nat → Prop} (h : Ready z) : Grows S z z :=
  ⟨h, Nat.le_refl _, rfl, .refl S z⟩

/-- Growth upon growth. -/
theorem Grows.trans {S : Nat → Prop} (h : Grows S z z') (h' : Grows S z' z'') : Grows S z z'' :=
  ⟨h'.ready, Nat.le_trans h.bseq h'.bseq, h'.salt.trans h.salt, h.same.trans h.bseq h'.same⟩

instance {S : Nat → Prop} : IsTrans Arch (Grows S) := ⟨fun _ _ _ => Grows.trans⟩

/-- More pages may be changed than are. -/
theorem Grows.mono {S S' : Nat → Prop} (h : Grows S z z') (hS : ∀ q < z.bseq, S q → S' q) :
    Grows S' z z' :=
  ⟨h.ready, h.bseq, h.salt, h.same.mono fun q hq _ => hS q hq⟩

/-- A page that is checked and may not be changed is checked still. -/
theorem Grows.checked {S : Nat → Prop} (h : Grows S z z') (hS : ¬ S q) (hq : Checked z q) :
    Checked z' q :=
  hq.same h.bseq h.salt (h.same q hq.head.lt hq.head.ne hS)

/-- Writing into a page of `S`. -/
theorem Ready.grows_put {S : Nat → Prop} (h : Ready z) (hp : p ≠ 0) (hS : S p)
    (hend : of + bs.length ≤ pageSize) :
    Grows S z (z.put p of bs) := by
  refine ⟨h.put (fun h0 => absurd h0 hp) hend, Nat.le_refl _, salt_put hp hend, fun q _ _ hq =>
    same_put hend ?_⟩
  rintro rfl
  exact hq hS

/-- A seal of a page that may be changed. -/
theorem Ready.grows_sealed {S : Nat → Prop} (h : Ready z) (hp : p ≠ 0) (hS : S p) :
    Grows S z (z.sealed p) := by
  refine ⟨h.sealed hp, Nat.le_refl _, salt_sealed hp, fun q _ _ hq => same_sealed ?_⟩
  rintro rfl
  exact hq hS

/-- A new page has a type and a magic number, and no page has changed. -/
theorem Ready.pageNew (h : Ready z) (ht : t < 65536) {r : Except Sherr (Option Nat)}
    (hrun : shzPageNew t z = some (r, z')) :
    r = .ok (some z.bseq) ∧ (∀ {S}, Grows S z z') ∧ z'.bseq = z.bseq + 1 ∧
      shzPageType z' z.bseq = t ∧ z'.bytes z.bseq 2 2 = magic := by
  obtain ⟨rfl, hlt, dataOf, max, hmax, hroom, rfl⟩ := h.roomy.pageNew hrun
  have hpos := h.pos
  have hready : Ready (newPage t (z.regrow dataOf max)) := by
    refine ⟨Nat.le_succ_of_le hpos, hlt, hroom, ?_⟩
    rcases h.tables with hsize | htables
    · left
      have hsmall : shzSize (z.regrow dataOf max) + pageSize < 2 ^ 64 := by
        have hsize' : shzSize (z.regrow dataOf max) / pageSize ≤ z.bseq := hsize
        unfold pageSize at *
        omega
      have hpos' : 1 ≤ (z.regrow dataOf max).bseq := hpos
      have hsize' : shzSize (z.regrow dataOf max) / pageSize ≤ (z.regrow dataOf max).bseq := hsize
      rw [newPage_size hpos' hsmall, newPage_bseq]
      unfold pageSize at *
      omega
    · exact Or.inr fun seq hseq => Nat.lt_succ_of_lt (htables seq hseq)
  have hsalt : shzSalt (newPage t (z.regrow dataOf max)) = shzSalt z := by
    unfold shzSalt
    rw [newPage_fld (by decide) (fun _ => by decide) fun _ => Or.inl (by decide)]
    rfl
  have hgrows : ∀ {S}, Grows S z (newPage t (z.regrow dataOf max)) := by
    intro S
    refine ⟨hready, Nat.le_succ _, hsalt, fun q hq h0 _ => ?_⟩
    have hsame : Same (z.regrow dataOf max) (newPage t (z.regrow dataOf max)) q :=
      same_newPage hq h0
    exact hsame
  refine ⟨rfl, hgrows, rfl, newPage_type_self ht, ?_⟩
  unfold newPage
  rw [Arch.bytes_put_ne (by rw [length_beBytes]; decide) (by decide) fun _ =>
    Or.inr (by rw [length_beBytes])]
  exact Arch.bytes_put

/-! ## The data writers -/

/-- A page with a type and a magic number. -/
structure Marked (z : Arch) (p t : Nat) : Prop where
  ne : p ≠ 0
  lt : p < z.bseq
  type : shzPageType z p = t
  sig : z.bytes p 2 2 = magic

/-- A write behind the head leaves the mark. -/
theorem Marked.put (h : Marked z p t) (hof : 4 ≤ of) (hend : of + bs.length ≤ pageSize) :
    Marked (z.put p of bs) p t := by
  refine ⟨h.ne, h.lt, ?_, ?_⟩
  · rw [← h.type]
    exact Arch.fld_put_ne hend (by decide) fun _ => Or.inl (by omega)
  · rw [Arch.bytes_put_ne hend (by decide) fun _ => Or.inl (by omega), h.sig]

/-- A page that is the same has its mark. -/
theorem Marked.same (h : Marked z p t) (hbseq : z.bseq ≤ z'.bseq) (hsame : Same z z' p) :
    Marked z' p t :=
  ⟨h.ne, Nat.lt_of_lt_of_le h.lt hbseq, (hsame.fld (by decide)).trans h.type,
    by rw [hsame.bytes (by decide), h.sig]⟩

/-- The used size is set. -/
theorem Marked.sized (h : Marked z p t) (ht : IsDataType t) {len : Nat} (hge : payloadOf t ≤ len)
    (hle : len ≤ pageSize) : Headed (z.put p 6 (beBytes 2 len)) p := by
  have hput : Marked (z.put p 6 (beBytes 2 len)) p t :=
    h.put (by decide) (by rw [length_beBytes]; decide)
  have hsize : shzPageSize (z.put p 6 (beBytes 2 len)) p = len := by
    refine Arch.fld_put ?_
    unfold pageSize at hle
    omega
  refine ⟨h.ne, h.lt, ?_, hput.sig, ?_, ?_⟩
  · rw [hput.type]
    exact ht
  · rw [hput.type, hsize]
    exact hge
  · rw [hsize]
    exact hle

/-- The pages from a number on are those of data writers, with their checksums. -/
def CheckedFrom (n : Nat) (z : Arch) : Prop := ∀ p, n ≤ p → p < z.bseq → Checked z p

/-- One more page. -/
theorem CheckedFrom.add {S : Nat → Prop} (h : CheckedFrom n z) (hs : Grows S z z')
    (hnext : z'.bseq = z.bseq + 1)
    (hS : ∀ q, n ≤ q → q < z.bseq → S q → Checked z' q) (hnew : Checked z' z.bseq) :
    CheckedFrom n z' := by
  intro q hn hq
  rw [hnext] at hq
  rcases Nat.lt_or_ge q z.bseq with hlt | hge
  · by_cases hq' : S q
    · exact hS q hn hlt hq'
    · exact hs.checked hq' (h q hn hlt)
  · rw [Nat.le_antisymm (Nat.lt_succ_iff.mp hq) hge]
    exact hnew

/-- The raw writer. -/
theorem rawWrite_checked (h : Ready z) :
    Keeps (Grows fun q => z.bseq ≤ q) (shzRawWrite data) z fun _ z' => CheckedFrom z.bseq z' := by
  intro r z' hrun
  have h0 : z.bseq ≠ 0 := Nat.ne_of_gt h.pos
  rcases bind_inv hrun with ⟨e, he, -⟩ | ⟨blk, z1, hnew, hrest⟩
  · cases (h.pageNew (by decide) he).1
  obtain ⟨hblk, hs1, hnext, htype, hsig⟩ := h.pageNew (by decide) hnew
  cases hblk
  have hmarked : Marked z1 z.bseq pageData := ⟨h0, by omega, htype, hsig⟩
  simp only at hrest
  generalize hlen : min (pageSize - sizeofData) data.length = wLen at hrest
  have htake : sizeofData + (data.take wLen).length ≤ pageSize := by
    rw [List.length_take]
    unfold pageSize sizeofData at *
    omega
  have hsize : 8 ≤ wLen + sizeofData ∧ wLen + sizeofData ≤ pageSize := by
    unfold pageSize sizeofData at *
    omega
  rw [bind_ok (put_run ..), bind_ok (sizeSet_run hsize _ _), bind_ok (crcSet_run _ _)] at hrest
  cases hrest
  -- the data, the size and the checksum
  have hput : Marked (z1.put z.bseq sizeofData (data.take wLen)) z.bseq pageData :=
    hmarked.put (by decide) htake
  have hhead := hput.sized (Or.inl rfl) (Nat.le_add_left sizeofData wLen) hsize.2
  have hs2 : Grows (fun q => z.bseq ≤ q) z1 _ :=
    (hs1 (S := fun q => z.bseq ≤ q)).ready.grows_put h0 (Nat.le_refl _) htake
  have hfield : 6 + (beBytes 2 (wLen + sizeofData)).length ≤ pageSize := by
    rw [length_beBytes]
    decide
  have hs3 := hs2.trans (hs2.ready.grows_put h0 (Nat.le_refl _) hfield)
  have hs4 := hs3.trans (hs3.ready.grows_sealed h0 (Nat.le_refl _))
  refine ⟨hs1.trans hs4, fun _ _ q hn hq => ?_⟩
  have hq : q < z1.bseq := hq
  rw [hnext] at hq
  rw [Nat.le_antisymm (Nat.lt_succ_iff.mp hq) hn]
  exact hhead.sealed

/-- The last page names the next one, and gets its checksum again. -/
theorem Checked.linked {last : Nat} (h : Checked z last)
    (hof : 8 ≤ of ∧ of + 4 ≤ pageSize) (p : Nat) :
    Checked (z.linked of last p) last := by
  unfold Arch.linked
  rw [if_neg h.head.ne]
  exact (h.head.put hof.1 (by rw [length_beBytes]; exact hof.2)).sealed

/-- A link of a page that may be changed. -/
theorem Ready.grows_linked {S : Nat → Prop} (h : Ready z) {last : Nat} (hof : of + 4 ≤ pageSize)
    (hS : S last) :
    Grows S z (z.linked of last p) := by
  unfold Arch.linked
  split
  · exact h.grows
  · next h0 =>
    have hput : Grows S z (z.put last of (beBytes 4 p)) :=
      h.grows_put h0 hS (by rw [length_beBytes]; exact hof)
    exact hput.trans (hput.ready.grows_sealed h0 hS)

/-- The pages of the compressed bytes. The last page is written once more when the next one is
there. -/
theorem zlibPages_checked :
    ∀ {fuel : Nat} {z : Arch} {zData : Bytes} {first last : Nat}, Ready z → n ≤ z.bseq →
    (last ≠ 0 → n ≤ last ∧ last < z.bseq) → CheckedFrom n z →
    Keeps (Grows fun q => n ≤ q ∨ q = 0) (zlibPages zData first last fuel) z fun _ z' =>
      CheckedFrom n z' := by
  intro fuel
  induction fuel with
  | zero =>
    intro z zData first last _ _ _ _
    exact Keeps.undef
  | succ fuel ih =>
    intro z zData first last h hn hlast hchecked
    refine Keeps.ite (fun _ => Keeps.pure h.grows hchecked) fun _ => ?_
    intro r z' hrun
    rcases bind_inv hrun with ⟨e, he, -⟩ | ⟨blk, z1, hnew, hrest⟩
    · cases (h.pageNew (by decide) he).1
    obtain ⟨hblk, hs1, hnext, htype, hsig⟩ := h.pageNew (by decide) hnew
    cases hblk
    have h0 : z.bseq ≠ 0 := Nat.ne_of_gt h.pos
    have hlastlt : last < z.bseq := by
      by_cases hl0 : last = 0
      · rw [hl0]
        exact h.pos
      · exact (hlast hl0).2
    have hlastS : n ≤ last ∨ last = 0 := by
      by_cases hl0 : last = 0
      · exact Or.inr hl0
      · exact Or.inl (hlast hl0).1
    have h1 : Ready z1 := (hs1 (S := fun _ => False)).ready
    simp only at hrest
    rw [bind_ok (linkPage_run (h1.atHand (by omega)) 56 z.bseq)] at hrest
    have hs2 : Grows (fun q => n ≤ q ∨ q = 0) z1 (z1.linked 56 last z.bseq) :=
      h1.grows_linked (by decide) hlastS
    have hmarked : Marked (z1.linked 56 last z.bseq) z.bseq pageZlibData :=
      Marked.same ⟨h0, by omega, htype, hsig⟩ hs2.bseq
        (same_linked (by decide) (Nat.ne_of_gt hlastlt))
    have hbseq2 : (z1.linked 56 last z.bseq).bseq = z.bseq + 1 := by
      unfold Arch.linked
      split
      · exact hnext
      · exact hnext
    -- the last page is sealed again, the others are as they were
    have hold : ∀ q, n ≤ q → q < z.bseq → Checked (z1.linked 56 last z.bseq) q := by
      intro q hnq hq
      have hq1 : Checked z1 q := (hs1 (S := fun _ => False)).checked id (hchecked q hnq hq)
      by_cases heq : q = last
      · subst heq
        exact hq1.linked (by decide) _
      · have hsame : Same z1 (z1.linked 56 last z.bseq) q := same_linked (by decide) heq
        exact hq1.same hs2.bseq hs2.salt hsame
    generalize hz2 : z1.linked 56 last z.bseq = z2 at *
    generalize hlen : min (pageSize - sizeofMod) zData.length = len at hrest
    have hsize : 8 ≤ sizeofMod + len ∧ sizeofMod + len ≤ pageSize := by
      unfold pageSize sizeofMod at *
      omega
    have hfits : sizeofMod + (zData.take len).length ≤ pageSize := by
      rw [List.length_take]
      omega
    rw [bind_ok (sizeSet_run hsize _ _), bind_ok (put_run ..), bind_ok (crcSet_run _ _)] at hrest
    have hhead := (hmarked.sized (Or.inr (Or.inl rfl)) (Nat.le_add_right sizeofMod len) hsize.2).put
      (by decide) hfits
    have hfield : 6 + (beBytes 2 (sizeofMod + len)).length ≤ pageSize := by
      rw [length_beBytes]
      decide
    have hs3 : Grows (fun q => q = z.bseq) z2 _ := hs2.ready.grows_put h0 rfl hfield
    have hs4 := hs3.trans (hs3.ready.grows_put h0 rfl hfits)
    have hs5 := hs4.trans (hs4.ready.grows_sealed h0 rfl)
    have hnew5 := hhead.sealed
    have hbseq5 : (((z2.put z.bseq 6 (beBytes 2 (sizeofMod + len))).put z.bseq sizeofMod
        (zData.take len)).sealed z.bseq).bseq = z.bseq + 1 := hbseq2
    generalize ((z2.put z.bseq 6 (beBytes 2 (sizeofMod + len))).put z.bseq sizeofMod
        (zData.take len)).sealed z.bseq = z5 at *
    have hchecked5 : CheckedFrom n z5 := by
      intro q hnq hq
      rw [hbseq5] at hq
      by_cases heq : q = z.bseq
      · subst heq
        exact hnew5
      · exact hs5.checked heq (hold q hnq (by omega))
    obtain ⟨hs6, hrest6⟩ := ih hs5.ready (by omega) (fun _ => ⟨hn, by omega⟩) hchecked5 _ _ hrest
    have hmono : Grows (fun q => n ≤ q ∨ q = 0) z2 z5 := hs5.mono fun q _ hq => Or.inl (hq ▸ hn)
    exact ⟨(hs1.trans hs2).trans (hmono.trans hs6), hrest6⟩

/-- The zlib page. -/
theorem zlibNew_checked {rawBnum rawLen : Nat} {id : ShKey} (h : Ready z)
    (hchecked : CheckedFrom n z) :
    Keeps (Grows fun q => n ≤ q ∨ q = 0) (shzZlibNew rawBnum rawLen id) z fun _ z' =>
      CheckedFrom n z' := by
  intro r z' hrun
  have h0 : z.bseq ≠ 0 := Nat.ne_of_gt h.pos
  rcases bind_inv hrun with ⟨e, he, -⟩ | ⟨blk, z1, hnew, hrest⟩
  · cases (h.pageNew (by decide) he).1
  obtain ⟨hblk, hs1, hnext, htype, hsig⟩ := h.pageNew (by decide) hnew
  cases hblk
  have hmarked : Marked z1 z.bseq pageZlib := ⟨h0, by omega, htype, hsig⟩
  simp only at hrest
  rw [bind_ok (put_run ..), bind_ok (put_run ..), bind_ok (put_run ..),
    bind_ok (sizeSet_run (by decide) _ _), bind_ok (crcSet_run _ _)] at hrest
  cases hrest
  have hlen : ∀ v : Nat, (beBytes 4 v).length = 4 := length_beBytes 4
  have hkey : 8 + id.toBytes.length ≤ pageSize := by
    rw [length_toBytes]
    decide
  have hraw : 40 + (beBytes 4 rawLen).length ≤ pageSize := by rw [hlen]; decide
  have hbnum : 56 + (beBytes 4 rawBnum).length ≤ pageSize := by rw [hlen]; decide
  have hfield : 6 + (beBytes 2 sizeofMod).length ≤ pageSize := by rw [length_beBytes]; decide
  have hput := ((hmarked.put (by decide) hraw).put (by decide) hbnum).put (by decide) hkey
  have hhead := hput.sized (Or.inr (Or.inr rfl)) (Nat.le_refl sizeofMod) (by decide)
  have hs2 : Grows (fun q => q = z.bseq) z1 _ :=
    (hs1 (S := fun q => q = z.bseq)).ready.grows_put h0 rfl hraw
  have hs3 := hs2.trans (hs2.ready.grows_put h0 rfl hbnum)
  have hs4 := hs3.trans (hs3.ready.grows_put h0 rfl hkey)
  have hs5 := hs4.trans (hs4.ready.grows_put h0 rfl hfield)
  have hs6 := hs5.trans (hs5.ready.grows_sealed h0 rfl)
  have hs := hs1.trans hs6
  refine ⟨hs.mono fun q hq heq => absurd heq (Nat.ne_of_lt hq), fun _ _ => ?_⟩
  exact hchecked.add hs hnext (fun q _ hq heq => absurd heq (Nat.ne_of_lt hq)) hhead.sealed

/-- The archived size is in the base page. -/
theorem Ready.grows_zsize {S : Nat → Prop} (h : Ready z) (len : Nat) :
    Grows S z (shzZsizeIncr z len) := by
  have hlen : 24 + (beBytes 8 (z.fld 0 24 8 + len)).length ≤ pageSize := by
    rw [length_beBytes]
    decide
  refine ⟨h.put (fun _ => Or.inr (Nat.le_refl _)) hlen, Nat.le_refl _, ?_, fun q _ h0 _ =>
    same_put hlen h0⟩
  have hfld : (shzZsizeIncr z len).fld 0 8 2 = z.fld 0 8 2 :=
    Arch.fld_put_ne hlen (by decide) fun _ => Or.inl (by decide)
  unfold shzSalt
  rw [hfld]

/-- The zlib writer. -/
theorem zlibWrite_checked {fuel : Nat} (h : Ready z) :
    Keeps (Grows fun q => z.bseq ≤ q ∨ q = 0) (shzZlibWrite env fuel data) z fun _ z' =>
      CheckedFrom z.bseq z' := by
  have hnone : CheckedFrom z.bseq z := fun q hn hq => absurd hq (Nat.not_lt.mpr hn)
  refine Keeps.bind (zlibPages_checked h (Nat.le_refl _) (fun h0 => absurd rfl h0) hnone)
    fun first z1 hs1 h1 => ?_
  refine Keeps.bind (zlibNew_checked hs1.ready h1) fun p z2 hs2 h2 => ?_
  have hs3 := fun len => hs2.ready.grows_zsize (S := fun _ => False) len
  refine Keeps.of_ok (modify_run _ _) (fun _ hs => ((hs3 _).mono fun _ _ hq => hq.elim).trans hs)
    (Keeps.pure (hs3 _).ready.grows fun q hn hq => ?_)
  exact (hs3 _).checked id (h2 q hn hq)

/-- What a data writer has written. -/
theorem writerOf_checked {fuel : Nat} {raw : Bool} {r : Except Sherr (Nat × Nat)} (h : Ready z)
    (hrun : writerOf env fuel raw data z = some (r, z')) :
    Ready z' ∧ ∀ w, r = .ok w → CheckedFrom z.bseq z' := by
  unfold writerOf at hrun
  split at hrun
  · obtain ⟨hs, hval⟩ := rawWrite_checked h _ _ hrun
    exact ⟨hs.ready, hval⟩
  · obtain ⟨hs, hval⟩ := zlibWrite_checked h _ _ hrun
    exact ⟨hs.ready, hval⟩

/-- Reading a page after a change. -/
theorem Checked.read_changed (h : Checked z p) (hready : Ready z) {v : UInt8}
    (hof : payloadOf (shzPageType z p) ≤ of) (hend : of < shzPageSize z p)
    (hv : v ≠ z.buff.data (p * pageSize + of)) :
    shzReadPage p (z.put p of [v]) = some (.error .ilseq, z.put p of [v]) ↔
      shzPageSize z p < pageSize := by
  have hpayload : 8 ≤ payloadOf (shzPageType z p) := by
    unfold payloadOf
    split <;> decide
  have hfits : of + [v].length ≤ pageSize := by
    rw [List.length_singleton]
    exact Nat.le_trans hend h.head.le
  have hhead : Headed (z.put p of [v]) p := h.head.put (Nat.le_trans hpayload hof) hfits
  have hready' : Ready (z.put p of [v]) := hready.put (fun h0 => absurd h0 h.head.ne) hfits
  have hat : AtHand (z.put p of [v]) p := hready'.atHand h.head.lt
  have hcorrupt : ¬ HasCrc (z.put p of [v]) p ↔ shzPageSize z p < pageSize := by
    obtain ⟨i, rfl⟩ := Nat.exists_eq_add_of_le hof
    exact h.corrupt_iff hend hv
  have hread := hhead.read hat
  generalize z.put p of [v] = z1 at *
  rw [hread, ← hcorrupt]
  by_cases hcrc : HasCrc z1 p
  · rw [if_pos hcrc]
    exact iff_of_false (fun heq =>
      nomatch congrArg Prod.fst (Option.some.inj heq)) (not_not.mpr hcrc)
  · rw [if_neg hcrc]
    exact iff_of_true rfl hcrc

/-- There are other bytes. -/
theorem exists_byte_ne (x : UInt8) : ∃ v, v ≠ x := by
  refine ⟨x + 1, fun heq => ?_⟩
  have hnat := congrArg UInt8.toNat heq
  rw [UInt8.toNat_add] at hnat
  have hone : (1 : UInt8).toNat = 1 := rfl
  omega

/-- Of the pages that a data writer has written every one is accepted, and those that are not full
are the ones where each change of a byte of the payload is noticed. -/
theorem corruption_detected_iff {fuel : Nat} {raw : Bool} {w : Nat × Nat} (h : Ready z)
    (hrun : writerOf env fuel raw data z = some (.ok w, z')) (hp : z.bseq ≤ p ∧ p < z'.bseq) :
    shzReadPage p z' = some (.ok (), z') ∧
      ((∀ of v, payloadOf (shzPageType z' p) ≤ of → of < shzPageSize z' p →
          v ≠ z'.buff.data (p * pageSize + of) →
          shzReadPage p (z'.put p of [v]) = some (.error .ilseq, z'.put p of [v])) ↔
        shzPageSize z' p = payloadOf (shzPageType z' p) ∨ shzPageSize z' p < pageSize) := by
  obtain ⟨hready, hval⟩ := writerOf_checked h hrun
  have hpage := hval w rfl p hp.1 hp.2
  have hread := hpage.head.read (hready.atHand hp.2)
  rw [if_pos hpage.crc] at hread
  refine ⟨hread, ?_⟩
  have hge := hpage.head.ge
  constructor
  · intro hall
    rcases Nat.eq_or_lt_of_le hge with hempty | hlt
    · exact Or.inl hempty.symm
    · -- some other byte for the first one
      obtain ⟨v, hv⟩ := exists_byte_ne (z'.buff.data (p * pageSize + payloadOf (shzPageType z' p)))
      exact Or.inr ((hpage.read_changed hready (Nat.le_refl _) hlt hv).mp
        (hall _ v (Nat.le_refl _) hlt hv))
  · rintro (hempty | hshort) of v hof hend hv
    · exact absurd (Nat.lt_of_le_of_lt hof hend) (by rw [hempty]; exact Nat.lt_irrefl _)
    · exact (hpage.read_changed hready hof hend hv).mpr hshort

/-- Three bytes: any other byte in place of one of them is noticed. -/
theorem corruption_detected_three :
    ∃ z z', Ready z ∧ writerOf plainEnv 5 true [1, 2, 3] z = some (.ok (3, 3), z') ∧
      shzReadPage 3 z' = some (.ok (), z') ∧
    ∀ of v, 16 ≤ of → of < 19 → v ≠ z'.buff.data (3 * pageSize + of) →
      shzReadPage 3 (z'.put 3 of [v]) = some (.error .ilseq, z'.put 3 of [v]) := by
  have hrun : Succeeds (do
      shzArchInit plainEnv 1 0
      let n ← Prog.read Arch.bseq
      let w ← writerOf plainEnv 5 true [1, 2, 3]
      let ok ← Prog.read fun z =>
        decide (n = 3 ∧ w = (3, 3) ∧ z.bseq = 4 ∧ shzPageType z 3 = pageData ∧ shzPageSize z 3 = 19)
      if ok then pure () else Prog.fail .io : ShzM Unit) (.blank shbufInit 0 []) := by
    decide +kernel
  obtain ⟨_, z, hinit, hrest⟩ := succeeds_bind.mp hrun
  rw [succeeds_bind_read] at hrest
  obtain ⟨w, z', hwrite, hok⟩ := succeeds_bind.mp hrest
  rw [succeeds_bind_read] at hok
  split at hok
  · next hall =>
    obtain ⟨hn, rfl, hnext, htype, hsize⟩ := of_decide_eq_true hall
    have hready : Ready z := (Reached.fresh (fun _ => rfl) (by decide) hinit).inv.ready
    have hiff :=
      corruption_detected_iff (p := 3) hready hwrite ⟨Nat.le_of_eq hn, by rw [hnext]; decide⟩
    have hpayload : payloadOf pageData = 16 := rfl
    rw [htype, hsize, hpayload] at hiff
    refine ⟨z, z', hready, hwrite, hiff.1, hiff.2.mpr (Or.inr (by decide))⟩
  · exact absurd hok (not_succeeds_fail _ _)

/-- A full page: its first byte is changed, and the page is accepted. -/
theorem full_page_accepted : ∃ z z', Ready z ∧
    writerOf plainEnv 5 true (List.replicate 1008 0) z = some (.ok (3, 1008), z') ∧
    z'.buff.data (3 * pageSize + 16) ≠ 1 ∧
    shzReadPage 3 (z'.put 3 16 [1]) ≠ some (.error .ilseq, z'.put 3 16 [1]) := by
  have hrun : Succeeds (do
      shzArchInit plainEnv 1 0
      let w ← writerOf plainEnv 5 true (List.replicate 1008 0)
      let ok ← Prog.read fun z => decide (w = (3, 1008) ∧ z.buff.data (3 * pageSize + 16) ≠ 1)
      if ok then do
        put 3 16 [1]
        shzReadPage 3
      else Prog.fail .io : ShzM Unit) (.blank shbufInit 0 []) := by
    decide +kernel
  obtain ⟨_, z, hinit, hrest⟩ := succeeds_bind.mp hrun
  obtain ⟨w, z', hwrite, hok⟩ := succeeds_bind.mp hrest
  rw [succeeds_bind_read] at hok
  split at hok
  · next hall =>
    obtain ⟨rfl, hbyte⟩ := of_decide_eq_true hall
    have hready : Ready z := (Reached.fresh (fun _ => rfl) (by decide) hinit).inv.ready
    obtain ⟨_, z1, hput, _, z2, hread⟩ := succeeds_bind.mp hok
    cases hput
    refine ⟨z, z', hready, hwrite, hbyte, ?_⟩
    rw [hread]
    exact fun heq => nomatch congrArg Prod.fst (Option.some.inj heq)
  · exact absurd hok (not_succeeds_fail _ _)

end LibShare.Shz
