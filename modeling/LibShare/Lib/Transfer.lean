import Mathlib.Data.List.Basic

/-!
# Transfers over a non-blocking stream

A stream holds what one party has written and the other has not read yet. A
call on a non-blocking descriptor moves at most as many items as it asks for,
and possibly fewer: the limit of the `j`-th call of a transfer is `limit j`, and
a call that moves nothing has failed.

* `recvLoop` — a reader that asks for the rest until it has everything;
* `sendLoop` — a writer that offers the rest until everything is accepted.

Both stop at the first call that moves nothing. With limits that are all
positive they move exactly what was asked for (`recvLoop_full`,
`sendLoop_full`), whatever the limits are.
-/

namespace LibShare

variable {α : Type}

/-- Read `left` items, at most `cap` a call: what has been read, what is left in
the stream, and whether the transfer is complete. `fuel` bounds the number of
calls; a call that does not fail moves an item, so `left` is enough. -/
def recvLoop (limit : Nat → Nat) (cap : Nat) :
    Nat → Nat → Nat → List α → List α → List α × List α × Bool
  | 0, left, _, stream, got => (got, stream, left == 0)
  | fuel + 1, left, j, stream, got =>
    if left = 0 then (got, stream, true)
    else
      let chunk := stream.take (min (min left cap) (limit j))
      if chunk.isEmpty then (got, stream, false)
      else recvLoop limit cap fuel (left - chunk.length) (j + 1) (stream.drop chunk.length)
        (got ++ chunk)

/-- Write `data`: the stream, and whether the transfer is complete. -/
def sendLoop (limit : Nat → Nat) : Nat → Nat → List α → List α → List α × Bool
  | 0, _, data, stream => (stream, data.isEmpty)
  | fuel + 1, j, data, stream =>
    if data.isEmpty then (stream, true)
    else if limit j = 0 then (stream, false)
    else sendLoop limit fuel (j + 1) (data.drop (limit j)) (stream ++ data.take (limit j))

theorem recvLoop_full {limit : Nat → Nat} {cap : Nat} (hlimit : ∀ j, 0 < limit j) (hcap : 0 < cap) :
    ∀ {fuel left j : Nat} {stream got : List α}, left ≤ fuel → left ≤ stream.length →
      recvLoop limit cap fuel left j stream got =
        (got ++ stream.take left, stream.drop left, true) := by
  intro fuel
  induction fuel with
  | zero =>
    intro left j stream got hfuel _
    obtain rfl : left = 0 := Nat.le_zero.mp hfuel
    simp [recvLoop]
  | succ fuel ih =>
    intro left j stream got hfuel hlen
    by_cases hzero : left = 0
    · subst hzero
      simp [recvLoop]
    -- the call moves at least one item, and no more than are there
    generalize hn : min (min left cap) (limit j) = n
    have hpos : 0 < n := by
      have := hlimit j
      omega
    have hle : n ≤ left := by omega
    have hchunk : (stream.take n).length = n := List.length_take_of_le (by omega)
    have hne : (stream.take n).isEmpty = false := by
      rw [List.isEmpty_eq_false_iff, ne_eq, ← List.length_eq_zero_iff, hchunk]
      omega
    have hlen' : left - n ≤ (stream.drop n).length := by
      rw [List.length_drop]
      omega
    rw [recvLoop, if_neg hzero]
    simp only [hn, hne, hchunk, Bool.false_eq_true, if_false]
    rw [ih (by omega) hlen', List.append_assoc, List.drop_drop, ← List.take_add]
    have hsum : n + (left - n) = left := by omega
    rw [hsum]

theorem sendLoop_full {limit : Nat → Nat} (hlimit : ∀ j, 0 < limit j) :
    ∀ {fuel j : Nat} {data stream : List α}, data.length ≤ fuel →
      sendLoop limit fuel j data stream = (stream ++ data, true) := by
  intro fuel
  induction fuel with
  | zero =>
    intro j data stream hfuel
    obtain rfl : data = [] := List.length_eq_zero_iff.mp (Nat.le_zero.mp hfuel)
    simp [sendLoop]
  | succ fuel ih =>
    intro j data stream hfuel
    cases data with
    | nil => simp [sendLoop]
    | cons a data =>
      have hpos := hlimit j
      have hlen : ((a :: data).drop (limit j)).length ≤ fuel := by
        rw [List.length_drop]
        rw [List.length_cons] at hfuel ⊢
        omega
      rw [sendLoop, if_neg (by simp), if_neg (by omega), ih hlen, List.append_assoc,
        List.take_append_drop]

end LibShare
