import LibShare.Lib.Buckets
import LibShare.Lib.Chain
import Mathlib.Logic.Function.Basic

/-!
# Chains that hang off an array

The links of a chained table: an array of references, and the successor of each cell. A link is an
element of the array or the successor of a cell. `Hangs` says that the cells of some chains hang
off the array, bucket by bucket, and that no cell is in two places.

* `Hangs.load`, `Hangs.scan` — the links of a chain, and the search for one of its cells.
* `Hangs.redirect` — a link is stored, and another end of the chain begins there.
* `Ahead.walk` — what a walk over the buckets comes to next, from what it has not met yet.
-/

namespace LibShare

/-- The place of a reference: an element of the array, or the successor of a cell. -/
inductive Link (ι : Type)
  | head (i : Nat)
  | after (p : ι)

/-- The references of a chained table. -/
structure Links (ι : Type) where
  array : List (Option ι)
  next : ι → Option ι

namespace Links

variable {ι : Type} {m : Links ι} {chains : List (List ι)}

/-- The first cell of a bucket. -/
def first (m : Links ι) (i : Nat) : Option ι := m.array[i]?.join

def load (m : Links ι) : Link ι → Option ι
  | .head i => m.first i
  | .after p => m.next p

def store [DecidableEq ι] (m : Links ι) (s : Option ι) : Link ι → Links ι
  | .head i => { m with array := m.array.set i s }
  | .after p => { m with next := Function.update m.next p s }

/-- From a link on, the link to the first cell that passes a test, or the one at the end. -/
def scan (m : Links ι) (stop : ι → Bool) : Nat → Link ι → Link ι
  | 0, link => link
  | n + 1, link =>
    match m.load link with
    | none => link
    | some p => if stop p then link else m.scan stop n (.after p)

/-- The first cell of the buckets from one on, and the number of the bucket after its own. -/
def walkFrom (m : Links ι) (max index : Nat) : Option (ι × Nat) :=
  if max < index then none
  else match m.first index with
    | some p => some (p, index + 1)
    | none => m.walkFrom max (index + 1)
termination_by max + 1 - index

/-- The next cell of a walk: the rest of a chain comes before the buckets. -/
def walk (m : Links ι) (max : Nat) (next : Option ι) (index : Nat) : Option (ι × Nat) :=
  match next with
  | some p => some (p, index)
  | none => m.walkFrom max index

/-- The link behind the cells that a chain begins with. -/
def behind (link : Link ι) (front : List ι) : Link ι := front.getLast?.elim link .after

/-- The cells hang off the array, and none of them in two places. -/
structure Hangs (m : Links ι) (chains : List (List ι)) : Prop where
  length : m.array.length = chains.length
  chain : ∀ i, Chain m.next (m.first i) (Buckets.bucket chains i)
  nodup : chains.flatten.Nodup

/-! ## Links of a chain -/

theorem behind_cons (link : Link ι) (p : ι) (front : List ι) :
    behind link (p :: front) = behind (.after p) front := by
  cases front with
  | nil => rfl
  | cons q front =>
    rw [behind, behind, List.getLast?_cons_cons, List.getLast?_cons, Option.elim_some,
      Option.elim_some]

theorem chain_behind {tail : List ι} : ∀ {front : List ι} {link : Link ι},
    Chain m.next (m.load link) (front ++ tail) →
    Chain m.next (m.load (behind link front)) tail := by
  intro front
  induction front with
  | nil => exact fun h => h
  | cons p front ih =>
    intro link h
    rw [behind_cons]
    exact ih h.2

theorem scan_behind {tail : List ι} {stop : ι → Bool} (hstop : ∀ p ∈ tail.head?, stop p = true) :
    ∀ {front : List ι} {link : Link ι} {n : Nat}, front.length < n → (∀ p ∈ front, stop p = false) →
      Chain m.next (m.load link) (front ++ tail) → m.scan stop n link = behind link front := by
  intro front
  induction front with
  | nil =>
    intro link n hn _ h
    obtain ⟨n, rfl⟩ := Nat.exists_eq_succ_of_ne_zero (Nat.ne_of_gt hn)
    cases tail with
    | nil =>
      have hend : m.load link = none := h
      rw [scan, hend]
      rfl
    | cons p tail =>
      rw [scan, h.1]
      exact if_pos (hstop p rfl)
  | cons p front ih =>
    intro link n hn hfront h
    obtain ⟨n, rfl⟩ :=
      Nat.exists_eq_succ_of_ne_zero (Nat.ne_of_gt (Nat.lt_of_le_of_lt (Nat.zero_le _) hn))
    have hgo : m.scan stop (n + 1) link = m.scan stop n (.after p) := by
      rw [scan, h.1]
      exact if_neg (by rw [hfront p List.mem_cons_self]; exact Bool.false_ne_true)
    rw [hgo, behind_cons]
    exact ih (Nat.lt_of_succ_lt_succ hn) (fun q hq => hfront q (List.mem_cons_of_mem _ hq)) h.2

theorem Hangs.load (h : m.Hangs chains) {i : Nat} {front tail : List ι}
    (hi : Buckets.bucket chains i = front ++ tail) :
    m.load (behind (.head i) front) = tail.head? := by
  have hchain := h.chain i
  rw [hi] at hchain
  have htail : Chain m.next (m.load (behind (.head i) front)) tail := chain_behind hchain
  cases tail with
  | nil => exact htail
  | cons p tail => exact htail.1

/-! ## Stores -/

theorem bucket_disjoint (hnodup : chains.flatten.Nodup) {i j : Nat} (hij : i ≠ j) {p : ι}
    (hi : p ∈ Buckets.bucket chains i) : p ∉ Buckets.bucket chains j := by
  have hpair := (List.nodup_flatten.mp hnodup).2
  intro hj
  unfold Buckets.bucket at hi hj
  rcases hli : chains[i]? with _ | li
  · rw [hli] at hi
    cases hi
  · rcases hlj : chains[j]? with _ | lj
    · rw [hlj] at hj
      cases hj
    · rw [hli] at hi
      rw [hlj] at hj
      obtain ⟨hilt, rfl⟩ := List.getElem?_eq_some_iff.mp hli
      obtain ⟨hjlt, rfl⟩ := List.getElem?_eq_some_iff.mp hlj
      rcases Nat.lt_or_gt_of_ne hij with hlt | hgt
      · exact List.pairwise_iff_getElem.mp hpair i j hilt hjlt hlt hi hj
      · exact List.pairwise_iff_getElem.mp hpair j i hjlt hilt hgt hj hi

/-- A chain that goes on elsewhere behind one of its cells. -/
theorem chain_splice {next next' : ι → Option ι} {b : ι} {tail tail' : List ι}
    (htail : Chain next' (next' b) tail') :
    ∀ {front : List ι} {s : Option ι}, Chain next s (front ++ b :: tail) →
      (∀ p ∈ front, next' p = next p) →
      Chain next' s (front ++ b :: tail') := by
  intro front
  induction front with
  | nil => exact fun h _ => ⟨h.1, htail⟩
  | cons p front ih =>
    intro s h heq
    refine ⟨h.1, ?_⟩
    rw [heq p List.mem_cons_self]
    exact ih h.2 fun q hq => heq q (List.mem_cons_of_mem _ hq)

section Store

variable [DecidableEq ι]

theorem store_first_ne {s : Option ι} {link : Link ι} {j : Nat} (h : ∀ i, link = .head i → i ≠ j) :
    (m.store s link).first j = m.first j := by
  cases link with
  | head i => rw [store, first, first, List.getElem?_set_ne (h i rfl)]
  | after p => rfl

/-- A link in a chain is stored, and the chain ends in other cells from there on. -/
theorem Hangs.redirect (h : m.Hangs chains) {i : Nat} {front tail tail' : List ι} {s : Option ι}
    (hi : i < chains.length) (hbucket : Buckets.bucket chains i = front ++ tail)
    (htail : Chain (m.store s (behind (.head i) front)).next s tail')
    (hnodup : (chains.set i (front ++ tail')).flatten.Nodup) :
    (m.store s (behind (.head i) front)).Hangs (chains.set i (front ++ tail')) := by
  have hchain := h.chain i
  rw [hbucket] at hchain
  refine ⟨?_, fun j => ?_, hnodup⟩
  · rw [List.length_set, ← h.length]
    cases behind (.head i) front with
    | head j => exact List.length_set
    | after p => rfl
  · rcases List.eq_nil_or_concat' front with rfl | ⟨before, b, rfl⟩
    · -- the array is stored to
      have hlink : behind (.head i) ([] : List ι) = .head i := rfl
      rw [hlink] at htail ⊢
      by_cases hij : i = j
      · subst hij
        have hfirst : (m.store s (.head i)).first i = s := by
          rw [store, first, List.getElem?_set_self (by rw [h.length]; exact hi), Option.join_some]
        rw [Buckets.bucket_set_self hi, hfirst]
        exact htail
      · -- the chain of another bucket has another head
        rw [Buckets.bucket_set_ne hij, store_first_ne fun k hk => by cases hk; exact hij]
        exact h.chain j
    · -- the successor of a cell is stored to
      have hlink : behind (.head i) (before ++ [b]) = .after b := by
        rw [behind, List.getLast?_concat, Option.elim_some]
      rw [hlink] at htail ⊢
      have hb : (m.store s (.after b)).next b = s := Function.update_self _ _ _
      have hother : ∀ p, p ≠ b → (m.store s (.after b)).next p = m.next p :=
        fun p hp => Function.update_of_ne hp _ _
      by_cases hij : i = j
      · subst hij
        rw [Buckets.bucket_set_self hi, List.append_assoc, List.singleton_append]
        rw [List.append_assoc, List.singleton_append] at hchain
        refine chain_splice (by rwa [hb]) hchain fun p hp => hother p ?_
        rintro rfl
        exact List.disjoint_of_nodup_append hchain.nodup hp List.mem_cons_self
      · -- the cell is in no other chain
        rw [Buckets.bucket_set_ne hij]
        refine (h.chain j).congr fun p hp => hother p ?_
        rintro rfl
        exact bucket_disjoint h.nodup hij (by rw [hbucket]; simp) hp

/-- A cell becomes the first one of a bucket. -/
theorem Hangs.cons (h : m.Hangs chains) {i : Nat} {p : ι} (hi : i < chains.length)
    (hp : m.next p = m.first i)
    (hnodup : (chains.set i (p :: Buckets.bucket chains i)).flatten.Nodup) :
    (m.store (some p) (.head i)).Hangs (chains.set i (p :: Buckets.bucket chains i)) := by
  have hcells : Chain m.next (some p) (p :: Buckets.bucket chains i) := by
    refine ⟨rfl, ?_⟩
    rw [hp]
    exact h.chain i
  exact @redirect _ _ _ _ h i [] _ _ _ hi rfl hcells hnodup

end Store

/-! ## Walks -/

/-- A cell that a walk is at, and the cells that it has not met yet. Only these have to hang off
the array still. -/
structure At (m : Links ι) (chains : List (List ι)) (p : ι) (next : Option ι) (index : Nat)
    (todo : List ι) : Prop where
  place : ∃ j front tail, index = j + 1 ∧ Buckets.bucket chains j = front ++ p :: tail ∧
    Chain m.next next tail ∧ todo = tail ++ (chains.drop index).flatten
  later : ∀ i, index ≤ i → Chain m.next (m.first i) (Buckets.bucket chains i)

/-- The cells that a walk comes to from here. -/
structure Ahead (m : Links ι) (chains : List (List ι)) (next : Option ι) (index : Nat)
    (todo : List ι) : Prop where
  place : ∃ front tail, (front ++ tail = [] ∨ ∃ j, index = j + 1 ∧
    Buckets.bucket chains j = front ++ tail) ∧ Chain m.next next tail ∧
      todo = tail ++ (chains.drop index).flatten
  later : ∀ i, index ≤ i → Chain m.next (m.first i) (Buckets.bucket chains i)

theorem At.ahead {p : ι} {next : Option ι} {index : Nat} {todo : List ι}
    (h : m.At chains p next index todo) :
    m.Ahead chains next index todo := by
  obtain ⟨j, front, tail, hindex, hbucket, hchain, htodo⟩ := h.place
  refine ⟨⟨front ++ [p], tail, Or.inr ⟨j, hindex, ?_⟩, hchain, htodo⟩, h.later⟩
  rw [hbucket, List.append_assoc, List.singleton_append]

/-- Links that are behind a walk do not matter to it. -/
theorem Ahead.congr {m' : Links ι} {next : Option ι} {index : Nat} {todo : List ι}
    (h : m.Ahead chains next index todo)
    (harray : m'.array = m.array) (hnext : ∀ p ∈ todo, m'.next p = m.next p) :
    m'.Ahead chains next index todo := by
  obtain ⟨front, tail, hplace, hchain, rfl⟩ := h.place
  refine ⟨⟨front, tail, hplace, hchain.congr fun p hp =>
    hnext p (List.mem_append_left _ hp), rfl⟩, ?_⟩
  intro i hi
  have hfirst : m'.first i = m.first i := by rw [first, harray, first]
  rw [hfirst]
  refine (h.later i hi).congr fun p hp => hnext p (List.mem_append_right _ ?_)
  rw [Buckets.bucket] at hp
  rcases hcells : chains[i]? with _ | cells
  · rw [hcells] at hp
    cases hp
  · rw [hcells] at hp
    refine List.mem_flatten.mpr ⟨cells, @List.mem_of_getElem? _ _ (i - index) _ ?_, hp⟩
    rw [List.getElem?_drop, Nat.add_sub_cancel' hi, hcells]

theorem At.index_le {p : ι} {next : Option ι} {index : Nat} {todo : List ι}
    (h : m.At chains p next index todo) :
    index ≤ chains.length := by
  obtain ⟨j, front, tail, rfl, hbucket, -, -⟩ := h.place
  refine Nat.lt_of_not_le fun hout => ?_
  rw [Buckets.bucket, List.getElem?_eq_none hout] at hbucket
  exact absurd hbucket.symm (by simp)

theorem Hangs.ahead (h : m.Hangs chains) : m.Ahead chains none 0 chains.flatten :=
  ⟨⟨[], [], Or.inl rfl, Chain.nil, rfl⟩, fun i _ => h.chain i⟩

theorem walkFrom_spec {max : Nat} (hlen : chains.length = max + 1) :
    ∀ (n : Nat) {index : Nat}, index + n = max + 1 →
    (∀ i, index ≤ i → Chain m.next (m.first i) (Buckets.bucket chains i)) →
      ((chains.drop index).flatten = [] ∧ m.walkFrom max index = none) ∨
        ∃ p index' todo, m.walkFrom max index = some (p, index') ∧
        (chains.drop index).flatten = p :: todo ∧
          m.At chains p (m.next p) index' todo := by
  -- by induction on the number of buckets that are left
  intro n
  induction n with
  | zero =>
    intro index hn _
    rw [walkFrom, if_pos (by omega), List.drop_eq_nil_of_le (by omega)]
    exact Or.inl ⟨rfl, rfl⟩
  | succ n ih =>
    intro index hn hlater
    have hlt : index < chains.length := by omega
    have hbucket : Buckets.bucket chains index = chains[index] := by
      rw [Buckets.bucket, List.getElem?_eq_getElem hlt, Option.getD_some]
    have hchain := hlater index (Nat.le_refl _)
    rw [walkFrom, if_neg (by omega), List.drop_eq_getElem_cons hlt, List.flatten_cons, ← hbucket]
    cases hcells : Buckets.bucket chains index with
    | nil =>
      -- an empty bucket
      rw [hcells] at hchain
      have hend : m.first index = none := hchain
      rw [hend]
      exact ih (by omega) fun i hi => hlater i (by omega)
    | cons p tail =>
      rw [hcells] at hchain
      rw [hchain.1]
      exact Or.inr ⟨p, index + 1, _, rfl, rfl, ⟨index, [], tail, rfl, hcells, hchain.2, rfl⟩,
        fun i hi => hlater i (by omega)⟩

/-- A walk comes to the first cell that it has not met yet, and ends if there is none. -/
theorem Ahead.walk {max : Nat} (hlen : chains.length = max + 1) {next : Option ι} {index : Nat}
    {todo : List ι}
    (h : m.Ahead chains next index todo) (hindex : index ≤ max + 1) :
    (todo = [] ∧ m.walk max next index = none) ∨
      ∃ p index' rest, m.walk max next index = some (p, index') ∧ todo = p :: rest ∧
        m.At chains p (m.next p) index' rest := by
  obtain ⟨front, tail, hplace, hchain, rfl⟩ := h.place
  cases tail with
  | nil =>
    -- the chain ends, and the search goes on in the buckets
    have hend : next = none := hchain
    rw [hend, List.nil_append]
    obtain ⟨n, hn⟩ := Nat.exists_eq_add_of_le hindex
    rcases walkFrom_spec hlen n hn.symm h.later with ⟨htodo, hwalk⟩ | ⟨p, index', todo,
        hwalk, htodo, hat⟩
    · exact Or.inl ⟨htodo, hwalk⟩
    · exact Or.inr ⟨p, index', todo, hwalk, htodo, hat⟩
  | cons p tail =>
    obtain ⟨hnext, htail⟩ := hchain
    rcases hplace with hnil | ⟨j, hj, hbucket⟩
    · exact absurd hnil (by simp)
    · rw [hnext]
      exact Or.inr ⟨p, index, _, rfl, rfl, ⟨j, front, tail, hj, hbucket, htail, rfl⟩, h.later⟩

end Links

end LibShare
