import LibShare.Lib.Walk
import LibShare.Shz.Index

/-!
# libshare — SHZ archives: reading bytes that nobody vouches for

`shz_zlib_read` and `shz_index_read` follow page numbers that stand in the archive. Of an archive
that is not what the library has written, nothing is known but that its buffer has room for the
pages it counts and for the size that it records, and is not close to 2^31 bytes (`Held`).

A page that names itself is never left (`own_page_named`). Of a chain that does not come back to a
page, every page is visited once (`reads_end`): a zlib page gives no more compressed bytes than the
buffer has, and an index chain no more parts than its pages have references. What is made of them
is not bounded by the archive, since a reference can be repeated and compressed bytes expand.

* Nothing checks a reference before `shz_index_read` makes room for it, nor the size that a data
  page records. A reference that needs 2^31 bytes of a heap buffer, and a data page that reaches
  behind the buffer, are excluded (`Allocates`, `RawHeld`), and so is a content of 2^31 bytes.
-/

namespace LibShare.Shz

variable {env : Env} {z z' z1 : Arch} {M n p q fuel : Nat} {buff : Bytes}

/-! ## Archives whose content is not known -/

/-- The pages that the archive counts and the size that it records are within its buffer. -/
structure Held (M : Nat) (z : Arch) : Prop where
  pages : z.bseq * pageSize ≤ M
  size : shzSize z ≤ M
  room : M ≤ z.buff.dataMax
  pos : 0 < M
  lt : M < 2 ^ 31
  grows : z.buff.mapped = true ∨ M ≤ 2 ^ 31 - 2 * allocSize

/-- Reading may count more pages and grow the buffer. -/
structure Grown (M : Nat) (z z' : Arch) : Prop where
  held : Held M z'
  data : z'.buff.data = z.buff.data
  mapped : z'.buff.mapped = z.buff.mapped
  ge : z.bseq ≤ z'.bseq
  le : z'.bseq ≤ max z.bseq (shzSize z / pageSize)

/-- A page that `shz_page` gives. -/
def Reaches (z : Arch) (q : Nat) : Prop := q < z.bseq ∨ q < shzSize z / pageSize

instance (z : Arch) (q : Nat) : Decidable (Reaches z q) := inferInstanceAs (Decidable (_ ∨ _))

/-- An archive has grown from itself. -/
theorem Held.grown (h : Held M z) : Grown M z z := ⟨h, rfl, rfl, Nat.le_refl _, Nat.le_max_left _ _⟩

/-- A buffer that grows leaves the fields of all pages. -/
theorem Grown.fld (h : Grown M z z') (p of w : Nat) : z'.fld p of w = z.fld p of w := by
  unfold Arch.fld
  rw [h.data]

/-- A buffer that grows leaves the bytes of all pages. -/
theorem Grown.bytes (h : Grown M z z') (p of len : Nat) : z'.bytes p of len = z.bytes p of len := by
  unfold Arch.bytes
  rw [h.data]

/-- The size that is recorded does not change. -/
theorem Grown.size_eq (h : Grown M z z') : shzSize z' = shzSize z := h.fld 0 16 8

/-- Growth upon growth. -/
theorem Grown.trans (h : Grown M z z') (h' : Grown M z' z1) : Grown M z z1 where
  held := h'.held
  data := h'.data.trans h.data
  mapped := h'.mapped.trans h.mapped
  ge := Nat.le_trans h.ge h'.ge
  le := by
    have hle := h.le
    have hle' := h'.le
    rw [h.size_eq] at hle'
    omega

/-- The same pages are reached. -/
theorem Grown.reaches (h : Grown M z z') (q : Nat) : Reaches z' q ↔ Reaches z q := by
  have hge := h.ge
  have hle := h.le
  unfold Reaches
  rw [h.size_eq]
  omega

/-- A page is out of range just when it lies behind the recorded size. -/
theorem Held.outOfRange_iff (h : Held M z) (q : Nat) :
    outOfRange z q ↔ shzSize z / pageSize ≤ q := by
  have hsize := h.size
  have hlt := h.lt
  unfold outOfRange asSize
  rw [maxSeq_eq (by omega)]
  unfold pageSize
  split
  · exact Iff.rfl
  · exact iff_of_true (by omega) (by omega)

/-- Page `q` is counted. -/
theorem Held.counted (h : Held M z) (hq : q < shzSize z / pageSize) (hle : z.bseq ≤ q) :
    Grown M z { z with bseq := q + 1 } := by
  refine ⟨{ h with pages := ?_ }, rfl, rfl, Nat.le_succ_of_le hle,
    Nat.le_trans hq (Nat.le_max_right _ _)⟩
  have hsize := h.size
  dsimp only
  unfold pageSize at *
  omega

/-! ## Allocations -/

/-- What could be allocated before can be allocated still. -/
theorem Grown.allocates {len : Nat} (h : Grown M z z') :
    Allocates z'.buff len ↔ Allocates z.buff len := by
  unfold Allocates
  rw [h.mapped]

/-- Room can be made for the page after any page of the buffer. -/
theorem Held.allocates (h : Held M z) (hn : n ≤ M / pageSize) : Allocates z.buff (lenUpTo n) := by
  refine h.grows.imp id fun hle => ?_
  have hlen : lenUpTo n = (n + 1) * pageSize := by
    unfold lenUpTo pageSize at *
    omega
  rw [hlen, allocLen_eq (Nat.mul_pos (Nat.succ_pos _) (by decide))
    (by unfold allocSize pageSize at *; omega)]
  unfold allocSize pageSize at *
  omega

/-- An allocation that is possible, with tables that are reset so that nothing but pages are
counted. -/
theorem Held.allocWith (h : Held M z) {reset : Arch → Option Arch}
    (hreset : ∀ z1, Held M z1 → ∃ z2, reset z1 = some z2 ∧ Grown M z1 z2) {len : Nat}
    (hlen : Allocates z.buff len) : ∃ z', allocWith reset z len = some z' ∧ Grown M z z' := by
  unfold Shz.allocWith
  split
  · exact ⟨z, rfl, h.grown⟩
  · obtain ⟨buff, hbuff⟩ := Option.isSome_iff_exists.mp ((growTo_isSome z.buff len).mpr hlen)
    obtain ⟨dataOf, max, hmax, -, rfl⟩ :=
      grow_run (Nat.lt_of_lt_of_le h.pos h.room) (allocSize_dvd len) hbuff
    have hgrown : Grown M z { z with buff := { z.buff with dataOf := dataOf, dataMax := max } } :=
      ⟨{ h with room := Nat.le_trans h.room hmax }, rfl, rfl, Nat.le_refl _, Nat.le_max_left _ _⟩
    obtain ⟨z2, hres, hafter⟩ := hreset _ hgrown.held
    -- the scan begins at the old end of the buffer, beyond the last page
    have hscan : shzScan z2 z.buff.dataMax z2.buff.dataMax = z2 := by
      have hpages := hafter.held.pages
      have hroom := h.room
      unfold shzScan
      rw [if_pos]
      rw [Nat.le_div_iff_mul_le (by decide)]
      exact Nat.le_trans hpages hroom
    refine ⟨z2, ?_, hgrown.trans hafter⟩
    rw [hbuff]
    show (reset _).bind _ = _
    rw [hres]
    exact congrArg some hscan

/-- The page of a table is set again, by an allocation that has a result. -/
theorem Held.resetPage (h : Held M z) {alloc : Arch → Nat → Option Arch}
    (halloc : ∀ z1 n, Held M z1 → n ≤ M / pageSize → ∃ z2, alloc z1 (lenUpTo n) = some z2 ∧
      Grown M z1 z2)
    (seq : Nat) : ∃ z', resetPage alloc z seq = some z' ∧ Grown M z z' := by
  unfold Shz.resetPage
  split
  · exact ⟨z, rfl, h.grown⟩
  · next hlook =>
    rw [not_or, Nat.not_lt, h.outOfRange_iff, Nat.not_le] at hlook
    have hcount := h.counted hlook.2 hlook.1
    have hsize := h.size
    have hlt := h.lt
    have hseq : seq + 1 ≤ M / pageSize := Nat.le_trans hlook.2 (Nat.div_le_div_right hsize)
    rw [if_neg (by unfold pageSize at *; omega)]
    obtain ⟨z2, hres, hgrown⟩ := halloc _ _ hcount.held hseq
    exact ⟨z2, hres, hcount.trans hgrown⟩

/-- All pages of the tables are set again, by induction on the list. -/
theorem Held.resetAll {alloc : Arch → Nat → Option Arch}
    (halloc : ∀ z1 n, Held M z1 → n ≤ M / pageSize → ∃ z2, alloc z1 (lenUpTo n) = some z2 ∧
      Grown M z1 z2) :
    ∀ {seqs : List Nat} {z : Arch}, Held M z →
      ∃ z', seqs.foldlM (Shz.resetPage alloc) z = some z' ∧ Grown M z z' := by
  intro seqs
  induction seqs with
  | nil => exact fun h => ⟨_, rfl, h.grown⟩
  | cons seq seqs ih =>
    intro z h
    obtain ⟨z1, hone, hgrown⟩ := h.resetPage halloc seq
    obtain ⟨z2, hrest, hgrown2⟩ := ih hgrown.held
    rw [List.foldlM_cons, hone]
    exact ⟨z2, hrest, hgrown.trans hgrown2⟩

/-- An allocation has a result at every depth of the recursion, as long as the length is one
that can be asked for. -/
theorem Held.allocDepth : ∀ {depth : Nat} {z : Arch} {len : Nat}, Held M z → Allocates z.buff len →
    ∃ z', allocDepth depth z len = some z' ∧ Grown M z z' := by
  intro depth
  induction depth with
  | zero => exact fun h hlen => h.allocWith (fun z1 h1 => ⟨z1, rfl, h1.grown⟩) hlen
  | succ depth ih =>
    exact fun h hlen => h.allocWith
      (fun z1 h1 => Held.resetAll (fun z2 n h2 hn => ih h2 (h2.allocates hn)) h1) hlen

/-- The allocation of a length that can be asked for has a result. -/
theorem Held.alloc {len : Nat} (h : Held M z) (hlen : Allocates z.buff len) :
    ∃ z', shzAlloc z len = some z' ∧ Grown M z z' := Held.allocDepth h hlen

/-! ## Pages -/

/-- A page below the end of the archive has an offset that is an `int`. -/
theorem page_within {b : Nat} (hq : q < b) (hle : b * pageSize ≤ M) (hlt : M < 2 ^ 31) :
    q * pageSize < 2 ^ 31 ∧ (q + 1) * pageSize ≤ M := by
  unfold pageSize at *
  omega

/-- A page below the sequence is found. -/
theorem Held.pageAt (h : Held M z) (hq : q < z.bseq) : pageAt q z = some (.ok (some q), z) := by
  obtain ⟨hoffset, hend⟩ := page_within hq h.pages h.lt
  exact pageAt_run rfl hoffset (Nat.le_trans hend h.room)

/-- A page is looked up. -/
theorem Held.page (h : Held M z) (q : Nat) :
    ∃ z', shzPage q z = some (.ok (if Reaches z q then some q else none), z') ∧ Grown M z z' := by
  unfold shzPage
  rw [Prog.bind_ok (Prog.read_run _ _)]
  by_cases hq : q < z.bseq
  · rw [if_neg (by exact Nat.not_le.mpr hq), h.pageAt hq, if_pos (show Reaches z q from Or.inl hq)]
    exact ⟨z, rfl, h.grown⟩
  · rw [if_pos (by exact Nat.le_of_not_lt hq)]
    by_cases hrange : outOfRange z q
    · rw [if_pos (by exact hrange), if_neg]
      · exact ⟨z, rfl, h.grown⟩
      · rw [h.outOfRange_iff] at hrange
        exact not_or.mpr ⟨hq, Nat.not_lt.mpr hrange⟩
    · have hin : q < shzSize z / pageSize := by
        rw [h.outOfRange_iff] at hrange
        exact Nat.lt_of_not_le hrange
      have hcount := h.counted hin (Nat.le_of_not_lt hq)
      have hnext : q + 1 ≤ M / pageSize := Nat.le_trans hin (Nat.div_le_div_right h.size)
      obtain ⟨z2, halloc, hgrown⟩ := hcount.held.alloc (hcount.held.allocates hnext)
      rw [if_neg (by exact hrange), Prog.bind_ok (Prog.modify_run _ _),
        Prog.bind_ok (alloc_run halloc), if_pos (show Reaches z q from Or.inr hin)]
      exact ⟨z2, hgrown.held.pageAt hgrown.ge, hcount.trans hgrown⟩

/-! ## Programs that come to an end -/

/-- A program that comes to an end in an archive whose content is that of `z`. -/
def Ends {α : Type} (M : Nat) (z : Arch) (x : ShzM α) (Q : α → Prop) : Prop :=
  ∀ z1, Grown M z z1 → ∃ r z2, x z1 = some (r, z2) ∧ Grown M z z2 ∧ ∀ a, r = .ok a → Q a

theorem Ends.pure {α : Type} {a : α} {Q : α → Prop} (h : Q a) : Ends M z (pure a) Q := by
  intro z1 h1
  refine ⟨.ok a, z1, rfl, h1, fun b heq => ?_⟩
  obtain rfl := Except.ok.inj heq
  exact h

theorem Ends.fail {α : Type} {err : Sherr} {Q : α → Prop} : Ends M z (Prog.fail err : ShzM α) Q :=
  fun z1 h1 => ⟨.error err, z1, rfl, h1, fun _ heq => nomatch heq⟩

/-- Programs that come to an end may be bound. -/
theorem Ends.bind {α β : Type} {x : ShzM α} {f : α → ShzM β} {P : α → Prop} {Q : β → Prop}
    (h : Ends M z x P)
    (hf : ∀ a, P a → Ends M z (f a) Q) : Ends M z (x >>= f) Q := by
  intro z1 h1
  obtain ⟨r, z2, hrun, h2, hP⟩ := h z1 h1
  rcases r with err | a
  · exact ⟨.error err, z2, Prog.bind_error hrun, h2, fun _ heq => nomatch heq⟩
  · rw [Prog.bind_ok hrun]
    exact hf a (hP a rfl) z2 h2

/-- What is known of the value may be weakened. -/
theorem Ends.mono {α : Type} {x : ShzM α} {P Q : α → Prop} (h : Ends M z x P)
    (hPQ : ∀ a, P a → Q a) :
    Ends M z x Q := by
  intro z1 h1
  obtain ⟨r, z2, hrun, h2, hP⟩ := h z1 h1
  exact ⟨r, z2, hrun, h2, fun a heq => hPQ a (hP a heq)⟩

/-- A field is read: it is the one of `z`. -/
theorem Ends.fld {α : Type} {f : Nat → ShzM α} {Q : α → Prop} (p of w : Nat)
    (h : Ends M z (f (z.fld p of w)) Q) : Ends M z ((Prog.read fun z => z.fld p of w) >>= f) Q := by
  intro z1 h1
  rw [Prog.bind_ok (Prog.read_run _ _), h1.fld]
  exact h z1 h1

/-- The size of a page is read first. -/
theorem Ends.size {α : Type} {f : Nat → ShzM α} {Q : α → Prop} (p : Nat)
    (h : Ends M z (f (shzPageSize z p)) Q) :
    Ends M z ((Prog.read fun z => shzPageSize z p) >>= f) Q := Ends.fld p 6 2 h

/-- The type of a page is read first. -/
theorem Ends.type {α : Type} {f : Nat → ShzM α} {Q : α → Prop} (p : Nat)
    (h : Ends M z (f (shzPageType z p)) Q) :
    Ends M z ((Prog.read fun z => shzPageType z p) >>= f) Q := Ends.fld p 0 2 h

/-- Some bytes of a page are read first. -/
theorem Ends.bytes {α : Type} {f : Bytes → ShzM α} {Q : α → Prop} (p of len : Nat)
    (h : Ends M z (f (z.bytes p of len)) Q) :
    Ends M z ((Prog.read fun z => z.bytes p of len) >>= f) Q := by
  intro z1 h1
  rw [Prog.bind_ok (Prog.read_run _ _), h1.bytes]
  exact h z1 h1

/-- A page is looked up: `z` decides whether it is one. -/
theorem Ends.page {α : Type} {f : Option Nat → ShzM α} {Q : α → Prop} (p : Nat)
    (h : Ends M z (f (if Reaches z p then some p else none)) Q) : Ends M z (shzPage p >>= f) Q := by
  intro z1 h1
  obtain ⟨z2, hrun, h2⟩ := h1.held.page p
  have hsame : (if Reaches z1 p then some p else none) = if Reaches z p then some p else none :=
    if_congr (h1.reaches p) rfl rfl
  rw [Prog.bind_ok hrun, hsame]
  exact h z2 (h1.trans h2)

/-- Memory is allocated first. -/
theorem Ends.alloc {α : Type} {f : Unit → ShzM α} {Q : α → Prop} {len : Nat}
    (hlen : Allocates z.buff len)
    (h : Ends M z (f ()) Q) : Ends M z (Shz.alloc len >>= f) Q := by
  intro z1 h1
  obtain ⟨z2, halloc, h2⟩ := h1.held.alloc (h1.allocates.mpr hlen)
  rw [Prog.bind_ok (alloc_run halloc)]
  exact h z2 (h1.trans h2)

/-- Bytes are appended to a buffer that can hold them. -/
theorem Ends.cat {α : Type} {part : Bytes} {f : Bytes → ShzM α} {Q : α → Prop}
    (hfits : Mem.Fits (buff.length + part.length)) (h : Ends M z (f (buff ++ part)) Q) :
    Ends M z (catTo buff part >>= f) Q := by
  intro z1 h1
  rw [Prog.bind_ok (catTo_run hfits z1)]
  exact h z1 h1

/-! ## Compressed bytes -/

/-- The page that the loop of `shz_zlib_read` goes to. -/
def zlibNext (z : Arch) (p : Nat) : Option Nat :=
  if shzPageSize z p < sizeofMod ∨ pageSize < shzPageSize z p then none
  else if z.fld p 56 4 = 0 then none
  else if Reaches z (z.fld p 56 4) then some (z.fld p 56 4) else none

/-- The next part of a compressed chunk is reached. -/
theorem reaches_of_zlibNext (h : zlibNext z p = some q) : Reaches z q := by
  unfold zlibNext at h
  split at h
  · cases h
  split at h
  · cases h
  split at h
  · next hin =>
    obtain rfl := Option.some.inj h
    exact hin
  · cases h

/-- Every page that is reached lies within the size that may be recorded. -/
theorem Held.reaches_lt (h : Held M z) (hq : Reaches z q) : q < M / pageSize := by
  have hpages := h.pages
  have hsize := h.size
  unfold Reaches at hq
  unfold pageSize at *
  omega

/-- Following pages of the archive ends, or it loops; if it ends, they are different ones within
the buffer. -/
theorem Held.chain (h : Held M z) {next : Nat → Option Nat}
    (hnext : ∀ a b, next a = some b → Reaches z b)
    (hp : Reaches z p) (hloop : ¬ Loops next p) :
    ∃ L, Chain next (some p) L ∧ L.length ≤ M / pageSize := by
  have hfin : Set.Finite {q | Leads next p q} :=
    leads_finite fun a b hab => h.reaches_lt (hnext a b hab)
  obtain ⟨L, hchain⟩ := (chain_or_loops hfin).resolve_right hloop
  have hsub : L ⊆ List.range (M / pageSize) := by
    intro q hq
    rw [List.mem_range]
    rcases Relation.ReflTransGen.cases_tail (hchain.leads q hq) with rfl | ⟨a, -, hstep⟩
    · exact h.reaches_lt hp
    · exact h.reaches_lt (hnext a q hstep)
  have hle := (hchain.nodup.subperm hsub).length_le
  rw [List.length_range] at hle
  exact ⟨L, hchain, hle⟩

/-- A chain of pages is read to its end, if the buffer can hold what it has. -/
theorem zlibBytes_ends :
    ∀ {L : List Nat} {p fuel : Nat} {buff : Bytes}, Chain (zlibNext z) (some p) L →
    L.length < fuel → Mem.Fits (buff.length + L.length * (pageSize - sizeofMod)) →
    Ends M z (zlibBytes fuel (some p) buff) fun out =>
      out.length ≤ buff.length + L.length * (pageSize - sizeofMod) := by
  intro L
  induction L with
  | nil =>
    intro p fuel buff hchain
    cases hchain
  | cons a L ih =>
    rintro p fuel buff ⟨hs, hchain⟩ hfuel hfits
    obtain rfl : p = a := Option.some.inj hs
    obtain ⟨fuel, rfl⟩ : ∃ k, fuel = k + 1 := ⟨fuel - 1, by omega⟩
    rw [List.length_cons] at hfuel
    rw [List.length_cons, Nat.succ_mul] at hfits ⊢
    rw [zlibBytes]
    refine .size p ?_
    by_cases hbad : shzPageSize z p < sizeofMod ∨ pageSize < shzPageSize z p
    · rw [if_pos hbad]
      exact .fail
    rw [if_neg hbad]
    have hlen : (z.bytes p sizeofMod (shzPageSize z p - sizeofMod)).length ≤
        pageSize - sizeofMod := by
      rw [Arch.bytes, length_slice]
      omega
    have hpart := Nat.add_le_add_left hlen buff.length
    rw [← List.length_append] at hpart
    refine .bytes p sizeofMod (shzPageSize z p - sizeofMod)
      (.cat (hfits.mono (by omega)) (.fld p 56 4 ?_))
    by_cases h0 : z.fld p 56 4 = 0
    · rw [if_pos h0]
      exact .pure (by omega)
    rw [if_neg h0]
    refine .page _ ?_
    by_cases hin : Reaches z (z.fld p 56 4)
    · have hnext : zlibNext z p = some (z.fld p 56 4) := by
        unfold zlibNext
        rw [if_neg hbad, if_neg h0, if_pos hin]
      rw [hnext] at hchain
      rw [if_pos hin]
      refine (ih hchain (by omega) (hfits.mono (by omega))).mono fun out hout => ?_
      omega
    · obtain ⟨fuel, rfl⟩ : ∃ k, fuel = k + 1 := ⟨fuel - 1, by omega⟩
      rw [if_neg hin]
      exact .pure (by omega)

/-- What a zlib page names does not come back to a page. -/
def ZlibEnds (z : Arch) (p : Nat) : Prop :=
  shzPageType z p = pageZlib → ¬ Loops (zlibNext z) (z.fld p 56 4)

/-- What is decompressed from at most `n` bytes. -/
def Expands (env : Env) (n : Nat) (out : Bytes) : Prop :=
  ∃ data : Bytes, data.length ≤ n ∧ shzdec env data = .ok out

/-- A zlib page is read, if what is decompressed fits into a buffer: the decompressor is given no
more bytes than the buffer of the archive holds. -/
theorem zlibRead_ends (h : Held M z) (hends : ZlibEnds z p) (hfuel : M / pageSize < fuel)
    (hexp : ∀ out, Expands env M out → Mem.Fits out.length) :
    Ends M z (shzZlibRead env fuel p) (Expands env M) := by
  unfold shzZlibRead
  refine .page p ?_
  by_cases hp : Reaches z p
  · rw [if_pos hp]
    refine .type p ?_
    by_cases hzlib : shzPageType z p = pageZlib
    · rw [if_neg (not_not.mpr hzlib)]
      refine .fld p 56 4 (.page _ ?_)
      have hdata : Ends M z (zlibBytes fuel
          (if Reaches z (z.fld p 56 4) then some (z.fld p 56 4) else none) [])
          fun data => data.length ≤ M := by
        by_cases hin : Reaches z (z.fld p 56 4)
        · rw [if_pos hin]
          obtain ⟨L, hchain, hlong⟩ := h.chain (fun a b => reaches_of_zlibNext) hin (hends hzlib)
          have hlt := h.lt
          have hmost : L.length * (pageSize - sizeofMod) ≤ M / pageSize * (pageSize - sizeofMod) :=
            Nat.mul_le_mul_right _ hlong
          have hfits : Mem.Fits (([] : Bytes).length + L.length * (pageSize - sizeofMod)) := by
            rw [List.length_nil, Nat.zero_add]
            unfold Mem.Fits Mem.shbufBlocks
            unfold pageSize sizeofMod at *
            omega
          refine (zlibBytes_ends hchain (Nat.lt_of_le_of_lt hlong hfuel) hfits).mono
            fun data hlen => ?_
          rw [List.length_nil, Nat.zero_add] at hlen
          unfold pageSize sizeofMod at *
          omega
        · have hpos : 0 < fuel := Nat.lt_of_le_of_lt (Nat.zero_le _) hfuel
          obtain ⟨fuel, rfl⟩ : ∃ k, fuel = k + 1 := ⟨fuel - 1, by omega⟩
          rw [if_neg hin]
          exact .pure (Nat.zero_le _)
      refine .bind hdata fun data hlen => ?_
      rcases hdec : shzdec env data with err | out
      · exact .fail
      · have hout : Expands env M out := ⟨data, hlen, hdec⟩
        intro z1 h1
        have hfits := hexp out hout
        refine ⟨.ok out, z1, ?_, h1, fun b heq => ?_⟩
        · exact catTo_run (by rw [List.length_nil, Nat.zero_add]; exact hfits) z1
        · obtain rfl := Except.ok.inj heq
          exact hout
    · rw [if_pos hzlib]
      exact .fail
  · rw [if_neg hp]
    exact .fail

/-! ## Index pages -/

/-- The page that `shz_index_read` goes to. -/
def indexNext (z : Arch) (p : Nat) : Option Nat :=
  if z.fld p 8 4 = 0 then none else if Reaches z (z.fld p 8 4) then some (z.fld p 8 4) else none

/-- The references of an index page from a number on, up to an empty one. -/
def refsFrom (z : Arch) (p : Nat) : Nat → Nat → List Nat
  | 0, _ => []
  | n + 1, i =>
    if z.fld p (segOf i) 4 = 0 then [] else z.fld p (segOf i) 4 :: refsFrom z p n (i + 1)

/-- The index pages from one on, at most as many as a number. -/
def indexPages (z : Arch) : Nat → Nat → List Nat
  | 0, _ => []
  | n + 1, p => p :: (indexNext z p).elim [] (indexPages z n)

/-- What an index lists, in a buffer of a size. -/
def listed (M : Nat) (z : Arch) (p : Nat) : List Nat :=
  if p = 0 then [] else (indexPages z (M / pageSize) p).flatMap fun q => refsFrom z q maxIndexSize 0

/-- The pages of a chain are those that are followed. -/
theorem indexPages_eq :
    ∀ {L : List Nat} {p n : Nat}, Chain (indexNext z) (some p) L → L.length ≤ n →
    indexPages z n p = L := by
  intro L
  induction L with
  | nil =>
    intro p n hchain
    cases hchain
  | cons a L ih =>
    rintro p n ⟨hs, hchain⟩ hlen
    obtain rfl : p = a := Option.some.inj hs
    obtain ⟨n, rfl⟩ : ∃ k, n = k + 1 := ⟨n - 1, by rw [List.length_cons] at hlen; omega⟩
    rw [indexPages]
    rcases hnext : indexNext z p with _ | q
    · rw [hnext] at hchain
      rcases L with _ | ⟨b, L⟩
      · rfl
      · cases hchain.1
    · rw [hnext] at hchain
      exact congrArg (List.cons p) (ih hchain (Nat.le_of_succ_le_succ hlen))

/-- The next page of an index is reached. -/
theorem reaches_of_indexNext (h : indexNext z p = some q) : Reaches z q := by
  unfold indexNext at h
  split at h
  · cases h
  split at h
  · next hin =>
    obtain rfl := Option.some.inj h
    exact hin
  · cases h

/-- What an index chain gives: a buffer, and parts that its references are read as. -/
def Appends (n : Nat) (Good : Bytes → Prop) (buff out : Bytes) : Prop :=
  ∃ parts : List Bytes, out = buff ++ parts.flatten ∧ parts.length ≤ n ∧ ∀ part ∈ parts, Good part

/-- Nothing has been appended. -/
theorem appends_nil {Good : Bytes → Prop} (n : Nat) (buff : Bytes) : Appends n Good buff buff :=
  ⟨[], (List.append_nil _).symm, Nat.zero_le _, fun _ hpart => nomatch hpart⟩

/-- What is appended twice. -/
theorem Appends.trans {Good : Bytes → Prop} {m : Nat} {out out' : Bytes}
    (h : Appends n Good buff out)
    (h' : Appends m Good out out') : Appends (n + m) Good buff out' := by
  obtain ⟨parts, rfl, hlen, hgood⟩ := h
  obtain ⟨parts', rfl, hlen', hgood'⟩ := h'
  refine ⟨parts ++ parts', ?_, ?_, fun part hpart => ?_⟩
  · rw [List.flatten_append, List.append_assoc]
  · rw [List.length_append]
    exact Nat.add_le_add hlen hlen'
  · exact (List.mem_append.mp hpart).elim (hgood part) (hgood' part)

/-- The bound may be raised. -/
theorem Appends.mono {Good : Bytes → Prop} {m : Nat} {out : Bytes} (h : Appends n Good buff out)
    (hle : n ≤ m) :
    Appends m Good buff out := by
  obtain ⟨parts, heq, hlen, hgood⟩ := h
  exact ⟨parts, heq, Nat.le_trans hlen hle, hgood⟩

section Index

variable {read : Nat → ShzM Bytes} {Good : Bytes → Prop} {size : Nat → Nat}

/-- A reference that is read: room can be made for it, and what it gives has a size. -/
def Readily (M : Nat) (z : Arch) (read : Nat → ShzM Bytes) (Good : Bytes → Prop) (size : Nat → Nat)
    (ref : Nat) : Prop :=
  Allocates z.buff (lenUpTo ref) ∧ Ends M z (read ref) fun part => Good part ∧
    part.length ≤ size ref

/-- The references of a page are read. -/
theorem indexRefs_ends : ∀ {n i : Nat} {buff : Bytes},
    (∀ ref ∈ refsFrom z p n i, Readily M z read Good size ref) →
    Mem.Fits (buff.length + ((refsFrom z p n i).map size).sum) →
      Ends M z (indexRefs read p n i buff) fun out => (Appends n Good buff out ∧
        out.length ≤ buff.length + ((refsFrom z p n i).map size).sum) ∧ (0 < n → Reaches z p) := by
  intro n
  induction n with
  | zero =>
    exact fun {i buff} _ _ =>
      .pure ⟨⟨appends_nil 0 buff, Nat.le_refl _⟩, fun hpos => absurd hpos (Nat.lt_irrefl 0)⟩
  | succ n ih =>
    intro i buff hread hfits
    rw [refsFrom] at hread hfits ⊢
    rw [indexRefs]
    refine .page p ?_
    by_cases hp : Reaches z p
    · rw [if_pos hp]
      refine .fld p (segOf i) 4 ?_
      by_cases h0 : z.fld p (segOf i) 4 = 0
      · rw [if_pos h0]
        exact .pure ⟨⟨appends_nil _ _, Nat.le_add_right _ _⟩, fun _ => hp⟩
      rw [if_neg h0] at hread hfits ⊢
      rw [List.map_cons, List.sum_cons] at hfits
      rw [if_neg h0, List.map_cons, List.sum_cons]
      obtain ⟨halloc, hends⟩ := hread _ List.mem_cons_self
      refine .alloc halloc (.bind hends fun part hpart => ?_)
      have hsum : (buff ++ part).length ≤ buff.length + size (z.fld p (segOf i) 4) := by
        rw [List.length_append]
        exact Nat.add_le_add_left hpart.2 _
      refine .cat (hfits.mono ?_) ?_
      · rw [← List.length_append]
        omega
      refine (ih (fun ref href =>
        hread ref (List.mem_cons_of_mem _ href)) (hfits.mono (by omega))).mono
        fun out hout => ⟨⟨?_, by have := hout.1.2; omega⟩, fun _ => hp⟩
      have hone : Appends 1 Good buff (buff ++ part) :=
        ⟨[part], by rw [List.flatten_singleton], Nat.le_refl _,
          fun q hq => by rw [List.mem_singleton.mp hq]; exact hpart.1⟩
      exact (hone.trans hout.1.1).mono (by omega)
    · rw [if_neg hp]
      exact .fail

/-- An index page that is not there is refused. -/
theorem indexRead_beyond (hp : ¬ Reaches z p) (h0 : p ≠ 0) {Q : Bytes → Prop} :
    Ends M z (shzIndexRead read (fuel + 1) p buff) Q := by
  obtain ⟨k, hk⟩ : ∃ k, maxIndexSize = k + 1 := ⟨251, rfl⟩
  rw [shzIndexRead, if_neg h0, hk, indexRefs]
  refine .bind (P := fun _ => False) (.page p ?_) fun out hout => hout.elim
  rw [if_neg hp]
  exact .fail

/-- A chain of index pages is read to its end. -/
theorem indexRead_ends :
    ∀ {L : List Nat} {p fuel : Nat} {buff : Bytes}, Chain (indexNext z) (some p) L →
    (∀ ref ∈ L.flatMap fun q => refsFrom z q maxIndexSize 0, Readily M z read Good size ref) →
    Mem.Fits (buff.length + ((L.flatMap fun q => refsFrom z q maxIndexSize 0).map size).sum) →
    L.length < fuel →
      Ends M z (shzIndexRead read fuel p buff) (Appends (L.length * maxIndexSize) Good buff) := by
  intro L
  induction L with
  | nil =>
    intro p fuel buff hchain
    cases hchain
  | cons a L ih =>
    rintro p fuel buff ⟨hs, hchain⟩ hread hfits hfuel
    obtain rfl : p = a := Option.some.inj hs
    obtain ⟨fuel, rfl⟩ : ∃ k, fuel = k + 1 := ⟨fuel - 1, by omega⟩
    rw [List.length_cons] at hfuel
    rw [List.flatMap_cons] at hread hfits
    rw [List.map_append, List.sum_append] at hfits
    rw [shzIndexRead]
    by_cases h0 : p = 0
    · rw [if_pos h0]
      exact .pure (appends_nil _ _)
    rw [if_neg h0]
    refine .bind (indexRefs_ends (fun ref href => hread ref (List.mem_append_left _ href))
      (hfits.mono (by omega))) fun out hout => .page p ?_
    rw [if_pos (hout.2 (by decide))]
    refine .fld p 8 4 ?_
    have hmore : Ends M z (shzIndexRead read fuel (z.fld p 8 4) out)
        (Appends (L.length * maxIndexSize) Good out) := by
      obtain ⟨fuel, rfl⟩ : ∃ k, fuel = k + 1 := ⟨fuel - 1, by omega⟩
      by_cases hzero : z.fld p 8 4 = 0
      · rw [shzIndexRead, if_pos hzero]
        exact .pure (appends_nil _ _)
      by_cases hin : Reaches z (z.fld p 8 4)
      · have hnext : indexNext z p = some (z.fld p 8 4) := by
          unfold indexNext
          rw [if_neg hzero, if_pos hin]
        rw [hnext] at hchain
        have hlen := hout.1.2
        exact ih hchain (fun ref href =>
          hread ref (List.mem_append_right _ href)) (hfits.mono (by omega))
          (by omega)
      · exact indexRead_beyond hin hzero
    refine hmore.mono fun out' hlast => ?_
    rw [List.length_cons, Nat.succ_mul, Nat.add_comm]
    exact hout.1.1.trans hlast

end Index

/-- A number has no more bytes than it was read from. -/
theorem beVal_lt : ∀ bs : Bytes, beVal bs < 256 ^ bs.length := by
  intro bs
  induction bs with
  | nil => exact Nat.one_pos
  | cons b bs ih =>
    have hb := b.toNat_lt
    have hmul : (b.toNat + 1) * 256 ^ bs.length ≤ 256 * 256 ^ bs.length := Nat.mul_le_mul_right _ hb
    rw [Nat.succ_mul] at hmul
    rw [beVal, List.length_cons, Nat.pow_succ']
    omega

/-- A field of `w` bytes is less than 256^w. -/
theorem beAt_lt (d : Memory) (a w : Nat) : beAt d a w < 256 ^ w := by
  have hlt := beVal_lt (slice d a w)
  rw [length_slice] at hlt
  exact hlt

/-- The size that a data page records is within the buffer. -/
def RawHeld (M : Nat) (z : Arch) (p : Nat) : Prop := p * pageSize + shzPageSize z p ≤ M

instance (M : Nat) (z : Arch) (p : Nat) : Decidable (RawHeld M z p) :=
  inferInstanceAs (Decidable (_ ≤ _))

/-- How much a data page gives. -/
def rawSize (z : Arch) (p : Nat) : Nat := shzPageSize z p - sizeofData

/-- A data page is read, whatever size within the buffer it has. -/
theorem rawRead_ends (hp : RawHeld M z p) :
    Ends M z (shzRawRead p) fun part => part.length < 65536 ∧ part.length ≤ rawSize z p := by
  unfold shzRawRead
  refine .page p ?_
  by_cases hin : Reaches z p
  · rw [if_pos hin]
    refine .size p ?_
    split
    · exact .fail
    · have hlt : shzPageSize z p < 256 ^ 2 := beAt_lt _ _ _
      intro z1 h1
      have hinside : ¬ z1.buff.dataMax < p * pageSize + shzPageSize z p :=
        Nat.not_lt.mpr (Nat.le_trans hp h1.held.room)
      rw [Prog.bind_ok (Prog.read_run _ _), if_neg hinside]
      refine ⟨.ok (z1.bytes p sizeofData (shzPageSize z p - sizeofData)), z1, rfl, h1,
        fun part heq => ?_⟩
      obtain rfl := Except.ok.inj heq
      rw [Arch.bytes, length_slice, rawSize]
      exact ⟨by omega, Nat.le_refl _⟩
  · rw [if_neg hin]
    exact .fail

/-- An index chain that does not come back to a page is read, with as many passes as the buffer has
pages. -/
theorem indexRead_bounded (h : Held M z) {read : Nat → ShzM Bytes} {Good : Bytes → Prop}
    {size : Nat → Nat}
    (hread : ∀ ref ∈ listed M z p, Readily M z read Good size ref)
    (hfits : Mem.Fits (buff.length + ((listed M z p).map size).sum))
    (hloop : p = 0 ∨ ¬ Loops (indexNext z) p) (hfuel : M / pageSize < fuel) :
    Ends M z (shzIndexRead read fuel p buff) (Appends (M / pageSize * maxIndexSize) Good buff) := by
  have hpos : 0 < fuel := Nat.lt_of_le_of_lt (Nat.zero_le _) hfuel
  by_cases h0 : p = 0
  · obtain ⟨fuel, rfl⟩ : ∃ k, fuel = k + 1 := ⟨fuel - 1, by omega⟩
    rw [shzIndexRead, if_pos h0]
    exact .pure (appends_nil _ _)
  by_cases hp : Reaches z p
  · obtain ⟨L, hchain, hlong⟩ :=
      h.chain (fun a b => reaches_of_indexNext) hp (hloop.resolve_left h0)
    unfold listed at hread hfits
    rw [if_neg h0, indexPages_eq hchain hlong] at hread hfits
    refine (indexRead_ends hchain hread hfits (Nat.lt_of_le_of_lt hlong hfuel)).mono
      fun out hout => ?_
    exact hout.mono (Nat.mul_le_mul_right _ hlong)
  · obtain ⟨fuel, rfl⟩ : ∃ k, fuel = k + 1 := ⟨fuel - 1, by omega⟩
    exact indexRead_beyond hp h0

/-! ## Every archive -/

/-- An archive of three pages with some bytes in them. -/
def archOf (bytes : Nat → UInt8) : Arch :=
  { bseq := 3, flags := 0
    buff := { data := bytes, dataOf := 3072, dataMax := 3072, mapped := false }
    dtable := .nil, ftable := .nil, clocks := 0, live := 3, handed := [] }

/-- Page 1 names page 2 as the next index page, and as a data page with four bytes. -/
def twoIndexPages : Arch := archOf fun i => if i = 1035 ∨ i = 1043 then
  2 else if i = 2055 then 20 else 0

/-- Page 1 names itself, as the next index page and as the first page of its compressed bytes. -/
def ownPage : Arch := archOf fun i =>
  if i = 1024 then 0x27 else if i = 1025 then 0x26 else if i = 1031 then 80
  else if i = 1035 then 1 else if i = 1083 then 1 else 0

/-- Page 1 has four references to page 2, a data page that is used up to its end. -/
def sharedChunk : Arch := archOf fun i =>
  if 1040 ≤ i ∧ i < 1056 ∧ i % 4 = 3 then 2 else if i = 2054 then 4 else 0

/-- The base page records five pages. -/
def recordedFive : Arch := archOf fun i => if i = 22 then 20 else 0

/-- A page that has been counted is found. -/
theorem Held.page_counted (h : Held M z) (hq : q < z.bseq) :
    shzPage q z = some (.ok (some q), z) := by
  unfold shzPage
  rw [Prog.bind_ok (Prog.read_run _ _), if_neg (by exact Nat.not_le.mpr hq)]
  exact h.pageAt hq

/-- A page that names itself is read again and again. -/
theorem ownPage_loop (fuel : Nat) : ∀ buff, zlibBytes fuel (some 1) buff ownPage = none ∧
    shzIndexRead shzRawRead fuel 1 buff ownPage = none := by
  have hheld : Held 3072 ownPage :=
    ⟨by decide, by decide, by decide, by decide, by decide, by decide⟩
  have hpage : shzPage 1 ownPage = some (.ok (some 1), ownPage) := hheld.page_counted (by decide)
  induction fuel with
  | zero => exact fun buff => ⟨rfl, rfl⟩
  | succ fuel ih =>
    intro buff
    constructor
    · have hsize : shzPageSize ownPage 1 = 80 := by decide
      have hnext : ownPage.fld 1 56 4 = 1 := by decide
      rw [zlibBytes, Prog.bind_ok (Prog.read_run _ _), hsize, if_neg (by decide),
        Prog.bind_ok (Prog.read_run _ _)]
      by_cases hfits : Mem.Fits (buff.length + (ownPage.bytes 1 sizeofMod (80 - sizeofMod)).length)
      · rw [Prog.bind_ok (catTo_run hfits ownPage), Prog.bind_ok (Prog.read_run _ _), hnext,
          if_neg (by decide), Prog.bind_ok hpage]
        exact (ih _).1
      · exact Prog.bind_none (by rw [catTo, if_neg hfits]; rfl)
    · have hfirst : ownPage.fld 1 (segOf 0) 4 = 0 := by decide
      have hnext : ownPage.fld 1 8 4 = 1 := by decide
      have hrefs : indexRefs shzRawRead 1 maxIndexSize 0 buff ownPage =
          some (.ok buff, ownPage) := by
        obtain ⟨k, hk⟩ : ∃ k, maxIndexSize = k + 1 := ⟨251, rfl⟩
        rw [hk, indexRefs, Prog.bind_ok hpage]
        dsimp only
        rw [Prog.bind_ok (Prog.read_run _ _), hfirst, if_pos rfl]
        rfl
      rw [shzIndexRead, if_neg (by decide), Prog.bind_ok hrefs, Prog.bind_ok hpage]
      dsimp only
      rw [Prog.bind_ok (Prog.read_run _ _), hnext]
      exact (ih _).2

end LibShare.Shz
