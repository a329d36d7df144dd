import LibShare.Fs.StreamRuns

/-!
# libshare — truncating a stream

`shfstream_truncate` of `shfs_stream.c`. A flush that follows stores the content with the length
that was asked for if and only if so many bytes are in the buffer, and nothing is where the length
is zero (`truncate_iff`):

* A stream that has to grow is not loaded. `shfstream_alloc` is given the buffer of the stream in
  place of the stream, so that what it takes for a buffer is the number in `data_max`.
* `shbuf_truncate` to zero bytes returns at once.
-/

namespace LibShare.Fs

open Mem

/-- `shfstream_truncate`. What is read at the address `data_max` is not determined. -/
def shfstreamTruncate (s : Shfstream) (len : Nat) : Option (Except Sherr Unit × Shfstream) :=
  -- grow
  if s.buff.dataOf < len then none
  else
    -- reduce
    let buff := if len < s.buff.dataOf then shbufTruncate s.buff len else s.buff
    let s := { s with buff := buff, pos := min s.pos len }
    some (.ok (), shfstreamSizeSet s len)

/-- A content that gets a length. -/
def resized (content : Bytes) (len : Nat) : Bytes :=
  content.take len ++ List.replicate (len - content.length) 0

variable {s : Shfstream} {D : Bytes} {buf : Shbuf} {n : Nat}

/-- Everything up to the new length is in the map, so that a flush writes the map as it is. -/
theorem flush_sized (layer : FileLayer) (hopen : s.isOpen = true) (hall : n ≤ s.buff.dataOf) :
    ∃ r t, shfstreamFlush layer (shfstreamSizeSet s n) = some (r, t) ∧
      (layer.writeFault = none → r = .ok ()) ∧
      (r = .ok () → t.file.bytes = (shfstreamSizeSet s n).buff.contents) := by
  have hloaded : ¬ (shfstreamSizeSet s n).max - (shfstreamSizeSet s n).buff.dataOf ≠ 0 := by
    show ¬ n - (shbufGrowanon s.buff (allocLen n)).dataOf ≠ 0
    rw [shbufGrowanon_of]
    omega
  have hisOpen : ¬ (shfstreamSizeSet s n).isOpen = false := by
    show ¬ s.isOpen = false
    rw [hopen]
    decide
  have hdirty : ¬ (shfstreamSizeSet s n).dirty = false := fun hbad => by cases hbad
  rw [shfstreamFlush, if_neg hisOpen, if_neg hdirty]
  dsimp only
  rw [if_neg hloaded]
  dsimp only
  cases hfault : layer.writeFault with
  | some fault => exact ⟨_, _, rfl, (fun hno => by cases hno), (fun hok => by cases hok)⟩
  | none => exact ⟨_, _, rfl, fun _ => rfl, fun _ => Shfl.bytes_put _ _⟩

/-- How much of the buffer is left: a length of zero does not cut it. -/
def cutLen (buf : Shbuf) (n : Nat) : Nat := if n = 0 then buf.dataOf else n

theorem Holds.cut (h : Holds D buf) (hle : n ≤ buf.dataOf) :
    Holds D (if n < buf.dataOf then shbufTruncate buf n else buf) ∧
      (if n < buf.dataOf then shbufTruncate buf n else buf).dataOf = cutLen buf n := by
  unfold cutLen
  by_cases hlt : n < buf.dataOf
  · rw [if_pos hlt]
    by_cases hzero : n = 0
    · rw [if_pos hzero, hzero, show shbufTruncate buf 0 = buf by simp [shbufTruncate]]
      exact ⟨h, rfl⟩
    · rw [if_neg hzero]
      exact ⟨(h.truncate hzero).1, (h.truncate hzero).2.trans (Nat.min_eq_left hle)⟩
  · rw [if_neg hlt]
    refine ⟨h, ?_⟩
    split <;> omega

/-- What a flush stores where the stream does not grow. -/
theorem truncate_flush (hopen : s.isOpen = true) (h : Holds D s.buff) (hle : n ≤ s.buff.dataOf) :
    ∃ s', shfstreamTruncate s n = some (.ok (), s') ∧ ∀ layer : FileLayer,
      ∃ r t, shfstreamFlush layer s' = some (r, t) ∧ (layer.writeFault = none → r = .ok ()) ∧
        (r = .ok () → t.file.bytes = D.take (cutLen s.buff n)) := by
  obtain ⟨hcut, hof⟩ := h.cut hle
  refine ⟨_, if_neg (Nat.not_lt.mpr hle), fun layer => ?_⟩
  have hall : n ≤ (if n < s.buff.dataOf then shbufTruncate s.buff n else s.buff).dataOf := by
    rw [hof, cutLen]
    split <;> omega
  generalize (if n < s.buff.dataOf then shbufTruncate s.buff n else s.buff) = buff at hcut hof hall
  obtain ⟨r, t, hrun, hok, hstored⟩ :=
    @flush_sized { s with buff := buff, pos := min s.pos n } n layer hopen hall
  refine ⟨r, t, hrun, hok, fun heq => (hstored heq).trans ?_⟩
  -- the map gets more room, and no other content
  have hgrow := (hcut.grow (allocLen n)).contents
  rw [shbufGrowanon_of, hof] at hgrow
  exact hgrow

/-- After `shfstream_truncate` a flush, if it succeeds, stores the content with the new length if
and only if that much is in the buffer, and nothing is in it where the length is zero. -/
theorem truncate_iff (s : Shfstream) (D : Bytes) (hopen : s.isOpen = true)
    (h : Holds D s.buff) (n : Nat) :
    (∃ s', shfstreamTruncate s n = some (.ok (), s') ∧ ∀ layer : FileLayer,
      ∃ r t, shfstreamFlush layer s' = some (r, t) ∧ (r = .ok () → t.file.bytes = resized D n)) ↔
      n ≤ s.buff.dataOf ∧ (n = 0 → s.buff.dataOf = 0) := by
  by_cases hle : n ≤ s.buff.dataOf
  · obtain ⟨s', hrun, hflush⟩ := truncate_flush hopen h hle
    have hlen : n ≤ D.length := Nat.le_trans hle h.le_length
    have hresized : resized D n = D.take n := by
      rw [resized, Nat.sub_eq_zero_of_le hlen, List.replicate_zero, List.append_nil]
    constructor
    · rintro ⟨s₁, hrun₁, hflush₁⟩
      obtain rfl : s' = s₁ := congrArg Prod.snd (Option.some.inj (hrun.symm.trans hrun₁))
      refine ⟨hle, ?_⟩
      rintro rfl
      -- a flush that succeeds tells what the buffer had
      obtain ⟨r, t, hr, hok, hstored⟩ := hflush .calm
      obtain ⟨r₁, t₁, hr₁, hstored₁⟩ := hflush₁ .calm
      rw [hr, Option.some.injEq, Prod.mk.injEq] at hr₁
      have hbytes := (hstored (hok rfl)).symm.trans (hr₁.2 ▸ hstored₁ (hr₁.1 ▸ hok rfl))
      have hlength := congrArg List.length (hbytes.trans hresized)
      rw [cutLen, if_pos rfl, List.length_take, List.length_take,
        Nat.min_eq_left h.le_length] at hlength
      exact hlength.trans (Nat.zero_min _)
    · rintro ⟨-, hzero⟩
      refine ⟨s', hrun, fun layer => ?_⟩
      obtain ⟨r, t, hr, -, hstored⟩ := hflush layer
      refine ⟨r, t, hr, fun heq => ?_⟩
      rw [hstored heq, hresized, cutLen]
      split
      · next hn => rw [hzero hn, hn]
      · rfl
  · -- the buffer is taken for a stream
    refine iff_of_false ?_ fun hright => hle hright.1
    rintro ⟨s', hrun, -⟩
    rw [shfstreamTruncate, if_pos (Nat.not_le.mp hle)] at hrun
    exact nomatch hrun

/-- The stream on the file "hello" after a read of all of it. -/
def loadedStream : Shfstream :=
  { helloStream .binary with
    pos := 5
    buff := { shbufInit with
      data := fun i => (helloFile .binary).content.getD i 0
      dataOf := 5
      dataMax := 28672 } }

theorem loadedStream_holds : Holds (helloFile .binary).content loadedStream.buff :=
  ⟨by decide, by decide, by decide⟩

/-- A stream that holds its whole file is cut to two bytes, and every flush that succeeds stores
these two. -/
theorem truncate_hello : ∃ s', shfstreamTruncate loadedStream 2 = some (.ok (), s') ∧
    ∀ layer : FileLayer, ∃ r t, shfstreamFlush layer s' = some (r, t) ∧
      (r = .ok () → t.file.bytes = resized (helloFile .binary).content 2) :=
  (truncate_iff loadedStream (helloFile .binary).content rfl loadedStream_holds 2).mpr
    ⟨by decide, by decide⟩

/-- A stream that is truncated to nothing is stored as it was. -/
theorem truncate_keeps_all : ∃ s' t, shfstreamTruncate loadedStream 0 = some (.ok (), s') ∧
    shfstreamFlush .calm s' = some (.ok (), t) ∧
      t.file.bytes ≠ resized (helloFile .binary).content 0 :=
  ⟨_, _, rfl, rfl, by decide⟩

end LibShare.Fs
