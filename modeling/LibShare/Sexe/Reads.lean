import LibShare.Sexe.Undump
import Mathlib.Data.List.TakeWhile
import Mathlib.Tactic.NormNum

/-!
# libshare — reading a SEXE module that was written

What is loaded from a module is compared with the prototype that was written in what
the interpreter runs: the code, the constants, the functions inside, where the
upvalues are, the number of parameters, whether there are more of them, and the size
of the stack.

* `reads_section` and the lemmas on each section: a section that was written is read,
  where its count fits in a byte.
* `load_dump`: where the counts fit, the function that was written is loaded, with its
  numbers cut to whole ones and its strings at their first zero byte.
-/

namespace LibShare.Sexe

/-! ## What is compared -/

/-- What the interpreter runs of a function, with the constants as `g` shows them. -/
def ProtoInfo.shown (g : TValue → TValue) (f : ProtoInfo) : ProtoInfo :=
  { k := f.k.map g, code := f.code, upvalues := f.upvalues.map fun u => { u with name := none }
    numparams := f.numparams, isVararg := f.isVararg, maxstacksize := f.maxstacksize }

mutual

/-- What the interpreter runs, with the constants as `g` shows them. -/
def Proto.shown (g : TValue → TValue) : Proto → Proto
  | .mk f p => .mk (f.shown g) (shownAll g p)

def shownAll (g : TValue → TValue) : List Proto → List Proto
  | [] => []
  | f :: p => f.shown g :: shownAll g p

end

/-- `sexe_undump` gives back what `sexe_bin_write` was given, as far as the interpreter
runs it. -/
def RoundTrips (ver : UInt8) (strip : Bool) (modName : Bytes) (f : Proto) : Prop :=
  ∃ bytes f', sexeBinWrite ver strip modName f = some bytes ∧
    (∃ n, ∀ fuel, n ≤ fuel → ∃ rest, sexeUndump fuel bytes.tail = .ok (f', rest)) ∧
      f'.shown id = f.shown id

/-- A property of a function, told how many are inside of it, and of all of these. -/
inductive Proto.Every (P : ProtoInfo → Nat → Prop) : Proto → Prop
  | mk {f : ProtoInfo} {p : List Proto} (here : P f p.length) (inner : ∀ g ∈ p, Proto.Every P g) :
      Proto.Every P (.mk f p)

/-- The counts of what is compared fit in a byte. -/
structure Counted (f : ProtoInfo) (functions : Nat) : Prop where
  code : f.code.length < 256
  k : f.k.length < 256
  upvalues : f.upvalues.length < 256
  functions : functions < 256

/-- The names that are written are there. -/
def Named (strip : Bool) (f : ProtoInfo) : Prop := strip = false → ∀ u ∈ f.upvalues, u.name.isSome

/-- The other counts fit in a byte: the bytes of the strings with their ends, and the
local variables. -/
structure Sized (strip : Bool) (f : ProtoInfo) : Prop where
  literals : (pool (literals f.k)).length < 256
  locvars : strip = false → f.locvars.length < 256

/-- A constant that the format has room for: a whole number of 64 bits, a string
without a zero byte. -/
def TValue.Lossless : TValue → Prop
  | .number n => 0 ≤ n ∧ n < 2 ^ 64 ∧ n.den = 1
  | .string s => 0 ∉ s
  | _ => True

/-- What is left of a constant. -/
def TValue.lossy : TValue → TValue
  | .number n => .number (((numberValue n).elim 0 UInt64.toNat : Nat) : ℚ)
  | .string s => .string (cstr s)
  | o => o

/-! ## Induction over functions -/

/-- Induction on a prototype: its functions have been dealt with before itself. -/
theorem Proto.ind {motive : Proto → Prop} (mk : ∀ f p, (∀ g ∈ p, motive g) → motive (.mk f p)) :
    ∀ f, motive f
  | .mk f p => mk f p fun g _ => Proto.ind mk g

theorem shownAll_eq (g : TValue → TValue) (p : List Proto) :
    shownAll g p = p.map (Proto.shown g) := by
  induction p with
  | nil => rfl
  | cons f p ih => rw [shownAll, ih, List.map_cons]

/-- A weaker condition holds of every prototype too. -/
theorem Proto.Every.mono {P Q : ProtoInfo → Nat → Prop} (hpq : ∀ f n, P f n → Q f n) {f : Proto}
    (h : f.Every P) : f.Every Q := by
  induction h with
  | mk here _ ih => exact .mk (hpq _ _ here) ih

/-- Two conditions hold of every prototype together. -/
theorem Proto.Every.and {P Q : ProtoInfo → Nat → Prop} {f : Proto} (hp : f.Every P)
    (hq : f.Every Q) :
    f.Every fun f n => P f n ∧ Q f n := by
  induction hp with
  | mk here _ ih =>
    obtain ⟨hereq, innerq⟩ := hq
    exact .mk ⟨here, hereq⟩ fun g hg => ih g hg (innerq g hg)

/-- What is compared shows the constants as they are just when none of them changes. -/
theorem shown_eq_iff (g : TValue → TValue) (f : Proto) :
    f.shown g = f.shown id ↔ f.Every fun f _ => ∀ o ∈ f.k, g o = o := by
  induction f using Proto.ind with
  | mk f p ih =>
    rw [Proto.shown, Proto.shown, shownAll_eq, shownAll_eq, Proto.mk.injEq, ProtoInfo.shown,
      ProtoInfo.shown]
    simp only [ProtoInfo.mk.injEq, and_true, List.map_inj_left, id]
    constructor
    · rintro ⟨hk, hp⟩
      exact .mk hk fun q hq => (ih q hq).mp (hp q hq)
    · rintro ⟨hk, hp⟩
      exact ⟨hk, fun q hq => (ih q hq).mpr (hp q hq)⟩

/-! ## Constants -/

/-- The number that is left of a number, where it can be converted. -/
theorem numberValue_toNat {n : ℚ} (hlow : -1 < n) (hhigh : n < 2 ^ 64) :
    ∃ val, numberValue n = some val ∧ val.toNat = ⌊n⌋.toNat := by
  refine ⟨_, if_pos ⟨hlow, hhigh⟩, ?_⟩
  have hfloor : ⌊n⌋ < 2 ^ 64 := Int.floor_lt.mpr (by exact_mod_cast hhigh)
  rw [UInt64.toNat_ofNat', Nat.mod_eq_of_lt (by omega)]

/-- A number is kept just when it is a whole one of 64 bits. -/
theorem lossless_number (n : ℚ) :
    (((numberValue n).elim 0 UInt64.toNat : Nat) : ℚ) = n ↔ 0 ≤ n ∧ n < 2 ^ 64 ∧ n.den = 1 := by
  by_cases hrange : -1 < n ∧ n < 2 ^ 64
  · obtain ⟨val, hval, hnat⟩ := numberValue_toNat hrange.1 hrange.2
    rw [hval, Option.elim_some, hnat]
    constructor
    · intro hsame
      rw [← hsame]
      exact ⟨Nat.cast_nonneg _, hsame.trans_lt hrange.2, Rat.den_natCast _⟩
    · rintro ⟨hpos, -, hden⟩
      have hint : ((n.num : Int) : ℚ) = n := (Rat.den_eq_one_iff n).mp hden
      have hnum : 0 ≤ n.num := Rat.num_nonneg.mpr hpos
      rw [← hint, Int.floor_intCast]
      exact_mod_cast congrArg (Int.cast (R := ℚ)) (Int.toNat_of_nonneg hnum)
  · -- what cannot be converted is not left
    have hnone : numberValue n = none := if_neg hrange
    rw [hnone, Option.elim_none]
    refine iff_of_false ?_ ?_
    · intro hzero
      refine hrange ?_
      rw [← hzero]
      norm_num
    · rintro ⟨hpos, hhigh, -⟩
      exact hrange ⟨lt_of_lt_of_le (by norm_num) hpos, hhigh⟩

/-- A constant is kept just when it is lossless. -/
theorem lossless_iff (o : TValue) : o.lossy = o ↔ o.Lossless := by
  cases o with
  | nil => exact iff_of_true rfl trivial
  | boolean b => exact iff_of_true rfl trivial
  | number n =>
    rw [TValue.lossy, TValue.number.injEq]
    exact lossless_number n
  | string s =>
    rw [TValue.lossy, TValue.string.injEq, cstr, List.takeWhile_eq_self_iff]
    show _ ↔ 0 ∉ s
    constructor
    · intro hall hmem
      exact absurd rfl (of_decide_eq_true (hall 0 hmem))
    · intro hnot b hb
      refine decide_eq_true ?_
      rintro rfl
      exact hnot hb

/-! ## Sections -/

theorem told_of_lt {n : Nat} (h : n < 256) : told n = n := by
  rw [told, UInt8.toNat_ofNat', Nat.mod_eq_of_lt h]

/-- A block of the right length is loaded. -/
theorem reads_loadBlock {bs : Bytes} {n : Nat} (h : bs.length = n) : Reads (loadBlock n) bs bs :=
  reads_block h

/-- The head of a section is read, then the section, and those behind it, unless a
section without a type was the last that was read. -/
theorem reads_section {load : Loader Proto} {fuel size : Nat} {type type' : UInt8}
    {s s' s'' : Loading}
    {body rest : Bytes} (htype : type' ≠ 0)
    (hbody : Reads (loadSection load type (told size) s) body (type', s'))
    (hrest : Reads (loadSections load fuel s') rest s'') :
    Reads (loadSections load (fuel + 1) s) (stack type size ++ body ++ rest) s'' := by
  have hhead : (stack type size).length = 8 := rfl
  -- the head, then what it announces, then the sections behind
  rw [List.append_assoc, loadSections]
  refine Reads.bind (reads_block hhead) (hbody.bind ?_)
  show Reads (if type' = 0 then pure s' else _) _ _
  rw [if_neg htype]
  exact hrest

/-- The head of no type ends the sections. -/
theorem reads_terminator (load : Loader Proto) (fuel : Nat) (s : Loading) :
    Reads (loadSections load (fuel + 1) s) (stack 0 0) s := by
  have hhead : (stack 0 0).length = 8 := rfl
  rw [loadSections, ← List.append_nil (stack 0 0)]
  exact Reads.bind (reads_block hhead) (Reads.pure s)

/-- A word is loaded as it was written. -/
theorem reads_word (w : UInt32) : Reads (leWord32 <$> loadBlock 4) (leBytes32 w) w := by
  have hread := (reads_loadBlock (show (leBytes32 w).length = 4 from rfl)).map leWord32
  rwa [leWord32_leBytes32] at hread

/-- Words are loaded one after the other. -/
theorem reads_words (ws : List UInt32) :
    Reads (readMany (leWord32 <$> loadBlock 4) ws.length) (ws.flatMap leBytes32) ws := by
  have hread := reads_many leBytes32 id fun w (_ : w ∈ ws) => reads_word w
  rwa [List.map_id] at hread

variable {load : Loader Proto} {s : Loading}

/-- The code is loaded as it was dumped, if its length is told. -/
theorem reads_code (f : ProtoInfo) (h : f.code.length < 256) :
    Reads (loadSection load 1 (told f.code.length) s) (f.code.flatMap leBytes32)
      (1, { s with f := { s.f with code := f.code } }) := by
  rw [told_of_lt h]
  exact ((reads_words f.code).map _).map _

/-- As many lines are loaded as the head tells. -/
theorem reads_codeDebug (f : ProtoInfo) :
    Reads (loadSection load 12 (told f.lineinfo.length) s)
      ((f.lineinfo.take (told f.lineinfo.length)).flatMap leBytes32)
      (12, { s with f := { s.f with lineinfo := f.lineinfo.take (told f.lineinfo.length) } }) := by
  have hle : told f.lineinfo.length ≤ f.lineinfo.length := by
    rw [told, UInt8.toNat_ofNat']
    exact Nat.mod_le _ _
  have hwords := reads_words (f.lineinfo.take (told f.lineinfo.length))
  rw [List.length_take_of_le hle] at hwords
  exact (hwords.map _).map _

/-- Strings in memory are told apart by their ends. -/
theorem splitLits_append (t lit : Bytes) : ∀ {s : Bytes}, 0 ∉ t →
    splitLits s (t ++ 0 :: lit) = (s ++ t) :: splitLits [] lit := by
  induction t with
  | nil =>
    intro s _
    rw [List.nil_append, splitLits, if_pos rfl, List.append_nil]
  | cons b t ih =>
    intro s hnot
    have hb : b ≠ 0 := fun h => hnot (h ▸ List.mem_cons_self)
    rw [List.cons_append, splitLits, if_neg hb, ih fun h =>
      hnot (List.mem_cons_of_mem _ h), List.append_assoc]
    rfl

/-- A pool of strings is split at its zeros. -/
theorem splitLits_pool :
    ∀ {lits : List Bytes}, (∀ t ∈ lits, 0 ∉ t) → splitLits [] (pool lits) = lits := by
  intro lits
  induction lits with
  | nil => exact fun _ => rfl
  | cons t lits ih =>
    intro h
    have hpool : pool (t :: lits) = t ++ 0 :: pool lits := by
      rw [pool, List.flatMap_cons, List.append_assoc]
      rfl
    rw [hpool, splitLits_append t _ (h t List.mem_cons_self), List.nil_append,
      ih fun t ht => h t (List.mem_cons_of_mem _ ht)]

/-- The string that C sees has no zero in it. -/
theorem zero_not_mem_cstr (s : Bytes) : 0 ∉ cstr s := by
  intro h
  have hne := List.mem_takeWhile_imp h
  exact absurd rfl (of_decide_eq_true hne)

/-- No string of the constants has a zero in it. -/
theorem zero_not_mem_literals (k : List TValue) : ∀ t ∈ literals k, 0 ∉ t := by
  intro t ht
  obtain ⟨o, -, ho⟩ := List.mem_filterMap.mp ht
  cases o with
  | string s =>
    obtain rfl := Option.some.inj ho
    exact zero_not_mem_cstr s
  | nil | boolean _ | number _ => cases ho

/-- A constant as it is told by its type and its value. -/
theorem constant_const (lits : List Bytes) (type : UInt32) (val : UInt64) :
    constant lits (const type val) =
      if type = 1 then pure (.boolean val.toUInt8)
      else if type = 3 then pure (.number val.toNat)
      else if type = 4 then
        if val.toNat < lits.length then .string <$> arrayGet lits val.toNat else pure .nil
      else pure .nil := by
  have htype : leWord32 ((const type val).take 4) = type := leWord32_leBytes32 type
  have hval : leWord64 (((const type val).drop 8).take 8) = val := leWord64_leBytes64 val
  rw [constant, htype, hval]

/-- A constant is loaded from its sixteen bytes. -/
theorem reads_const {lits : List Bytes} {type : UInt32} {val : UInt64} {o : TValue}
    (h : constant lits (const type val) = pure o) :
    Reads (loadBlock 16 >>= constant lits) (const type val) o := by
  have hread : Reads (loadBlock 16 >>= constant lits) (const type val ++ []) o := by
    refine (reads_loadBlock (show (const type val).length = 16 from rfl)).bind ?_
    rw [h]
    exact Reads.pure o
  rwa [List.append_nil] at hread

/-- A constant is read as what is left of it, where its string is in its place. -/
theorem reads_constant {lits : List Bytes} {strIdx strIdx' : Nat} {o : TValue} {entry : Bytes}
    (k : List TValue)
    (hdump : dumpConstant strIdx o = some (entry, strIdx'))
    (hlits : lits.drop strIdx = literals (o :: k))
    (hlen : lits.length < 2 ^ 64) :
    Reads (loadBlock 16 >>= constant lits) entry o.lossy ∧ lits.drop strIdx' = literals k := by
  cases o with
  | nil =>
    obtain ⟨rfl, rfl⟩ := Prod.mk.inj (Option.some.inj hdump)
    refine ⟨reads_const ?_, hlits⟩
    rw [constant_const]
    rfl
  | boolean b =>
    obtain ⟨rfl, rfl⟩ := Prod.mk.inj (Option.some.inj hdump)
    refine ⟨reads_const ?_, hlits⟩
    rw [constant_const, if_pos rfl, UInt8.toUInt8_toUInt64]
    rfl
  | number n =>
    obtain ⟨val, hval, hentry⟩ := Option.map_eq_some_iff.mp hdump
    obtain ⟨rfl, rfl⟩ := Prod.mk.inj hentry
    refine ⟨reads_const ?_, hlits⟩
    rw [constant_const, if_neg (by decide), if_pos rfl, TValue.lossy, hval, Option.elim_some]
  | string s =>
    obtain ⟨rfl, rfl⟩ := Prod.mk.inj (Option.some.inj hdump)
    -- the string is the first of those that have not been told yet
    have hhead : lits[strIdx]? = some (cstr s) := by
      rw [← List.head?_drop, hlits]
      rfl
    have hlt : strIdx < lits.length := (List.getElem?_eq_some_iff.mp hhead).1
    refine ⟨reads_const ?_, ?_⟩
    · rw [constant_const, if_neg (by decide), if_neg (by decide), if_pos rfl, UInt64.toNat_ofNat',
        Nat.mod_eq_of_lt (by omega), if_pos hlt, arrayGet, hhead, Option.elim_some, map_pure]
      rfl
    · rw [← List.drop_drop, hlits]
      rfl

/-- The constants are loaded in order, each with the string that it refers to. -/
theorem reads_constantsLoop {lits : List Bytes} (hlen : lits.length < 2 ^ 64) :
    ∀ {k : List TValue} {strIdx : Nat}
    {entries : Bytes}, dumpConstantsLoop strIdx k = some entries → lits.drop strIdx = literals k →
      Reads (readMany (loadBlock 16 >>= constant lits) k.length) entries (k.map TValue.lossy) := by
  intro k
  induction k with
  | nil =>
    intro strIdx entries hdump _
    obtain rfl := Option.some.inj hdump
    exact Reads.pure []
  | cons o k ih =>
    intro strIdx entries hdump hlits
    obtain ⟨⟨entry, strIdx'⟩, hentry, hrest⟩ := Option.bind_eq_some_iff.mp hdump
    obtain ⟨rest, hloop, hsum⟩ := Option.bind_eq_some_iff.mp hrest
    obtain rfl := Option.some.inj hsum
    obtain ⟨hread, hlits'⟩ := reads_constant k hentry hlits hlen
    exact hread.bind ((ih hloop hlits').map (o.lossy :: ·))

/-- The strings and the constants behind them. -/
theorem reads_constants {f : ProtoInfo} {bytes : Bytes} (hdump : sexeDumpConstants f = some bytes)
    (hk : f.k.length < 256) (hpool : (pool (literals f.k)).length < 256) : ∃ body,
      bytes = stack 6 (pool (literals f.k)).length ++ body ∧
        Reads (loadSection load 6 (told (pool (literals f.k)).length) s) body
          (4, { s with f := { s.f with k := f.k.map TValue.lossy } }) := by
  obtain ⟨entries, hloop, hbytes⟩ := Option.bind_eq_some_iff.mp hdump
  refine ⟨pool (literals f.k) ++ (stack 4 f.k.length ++ entries), ?_, ?_⟩
  · rw [← List.append_assoc]
    exact (Option.some.inj hbytes).symm
  · have hlen : (literals f.k).length < 2 ^ 64 := by
      have hle : (literals f.k).length ≤ f.k.length := List.length_filterMap_le _ _
      omega
    -- the constants have a head of their own, behind the strings
    have hcounts : ((stack 4 f.k.length).getD 1 0).toNat = f.k.length := told_of_lt hk
    have hmany := reads_constantsLoop hlen hloop rfl
    rw [told_of_lt hpool]
    have hread : Reads (sexeLoadConstants 6 (pool (literals f.k)).length s.f)
        (pool (literals f.k) ++ (stack 4 f.k.length ++ (entries ++ [])))
        (4, { s.f with k := f.k.map TValue.lossy }) := by
      rw [sexeLoadConstants, if_pos rfl]
      refine (reads_block rfl).bind ((reads_block
        (show (stack 4 f.k.length).length = 8 from rfl)).bind ?_)
      rw [hcounts, splitLits_pool (zero_not_mem_literals f.k)]
      exact hmany.bind (Reads.pure _)
    rw [List.append_nil] at hread
    exact hread.map _

/-- An upvalue comes back but for its name. -/
theorem upvaldesc_upval (u : Upvaldesc) : upvaldesc (upval u) = { u with name := none } := by
  have hidx : leWord32 (((upval u).drop 4).take 4) = u.idx.toUInt32 := leWord32_leBytes32 _
  rw [upvaldesc, hidx, UInt8.toUInt8_toUInt32]
  rfl

/-- Where the upvalues are is read, and not their names. -/
theorem reads_upvalues (f : ProtoInfo) (h : f.upvalues.length < 256) :
    Reads (loadSection load 2 (told f.upvalues.length) s) (f.upvalues.flatMap upval)
      (2, { s with
        f := { s.f with upvalues := f.upvalues.map fun u => { u with name := none } } }) := by
  have hone : ∀ u ∈ f.upvalues,
      Reads (upvaldesc <$> loadBlock 8) (upval u) { u with name := none } := by
    intro u _
    have hread := (reads_loadBlock (show (upval u).length = 8 from rfl)).map upvaldesc
    rwa [upvaldesc_upval] at hread
  rw [told_of_lt h]
  exact ((reads_many upval (fun u => { u with name := none }) hone).map _).map _

/-- There are as many strings as zeros. -/
theorem length_splitLits (lit : Bytes) : ∀ s, (splitLits s lit).length = lit.count 0 := by
  induction lit with
  | nil => exact fun _ => rfl
  | cons b lit ih =>
    intro s
    rw [splitLits, List.count_cons]
    by_cases hb : b = 0
    · rw [if_pos hb, List.length_cons, ih, if_pos (beq_iff_eq.mpr hb)]
    · rw [if_neg hb, ih, if_neg (by rwa [beq_iff_eq]), Nat.add_zero]

/-- What is named keeps all else. -/
theorem nameUpvalues_map (lits : List Bytes) (us : List Upvaldesc) :
    (nameUpvalues lits us).map (fun u => { u with name := none }) = us.map fun u =>
      { u with name := none } := by
  induction us generalizing lits with
  | nil => cases lits <;> rfl
  | cons u us ih =>
    cases lits with
    | nil => rfl
    | cons t lits => rw [nameUpvalues, List.map_cons, List.map_cons, ih]

theorem length_nameUpvalues (lits : List Bytes) (us : List Upvaldesc) :
    (nameUpvalues lits us).length = us.length := by
  have hlen := congrArg List.length (nameUpvalues_map lits us)
  rwa [List.length_map, List.length_map] at hlen

theorem length_names : ∀ {us : List Upvaldesc} {names : List Bytes},
    (us.mapM fun u => u.name) = some names → names.length = us.length := by
  intro us
  induction us with
  | nil =>
    intro names h
    rw [← Option.some.inj h]
    rfl
  | cons u us ih =>
    intro names h
    rw [List.mapM_cons] at h
    obtain ⟨name, -, hrest⟩ := Option.bind_eq_some_iff.mp h
    obtain ⟨names', hnames, hcons⟩ := Option.bind_eq_some_iff.mp hrest
    rw [← Option.some.inj hcons, List.length_cons, List.length_cons, ih hnames]

/-- The names of the upvalues, as far as they are written, are read into them. -/
theorem reads_upvaluesDebug {f : ProtoInfo} {bytes : Bytes}
    (hdump : sexeDumpUpvaluesDebug f = some bytes) :
    ∃ size body lits, bytes = stack 10 size ++ body ∧ ∀ (load : Loader Proto) (s : Loading),
      s.f.upvalues.length = f.upvalues.length → Reads (loadSection load 10 (told size) s) body
        (10, { s with f := { s.f with upvalues := nameUpvalues lits s.f.upvalues } }) := by
  obtain ⟨names, hnames, hbytes⟩ := Option.bind_eq_some_iff.mp hdump
  generalize hbuff : pool (names.map cstr) = buff at hbytes
  have hlen : (buff.take (told buff.length)).length = told buff.length := by
    refine List.length_take_of_le ?_
    rw [told, UInt8.toNat_ofNat']
    exact Nat.mod_le _ _
  -- no more names are told apart than there are upvalues
  have hnum : (splitLits [] (buff.take (told buff.length))).length ≤ f.upvalues.length := by
    have hall : (splitLits [] buff).length = names.length := by
      rw [← hbuff, splitLits_pool, List.length_map]
      intro t ht
      obtain ⟨name, -, rfl⟩ := List.mem_map.mp ht
      exact zero_not_mem_cstr name
    rw [length_splitLits] at hall
    rw [length_splitLits]
    refine ((List.take_sublist _ _).count_le 0).trans ?_
    exact (hall.trans (length_names hnames)).le
  refine ⟨buff.length, buff.take (told buff.length), splitLits [] (buff.take (told buff.length)),
    (Option.some.inj hbytes).symm, ?_⟩
  intro load s hs
  have hread : Reads (sexeLoadUpvalDebug (told buff.length) s.f)
      (buff.take (told buff.length) ++ [])
      { s.f with
        upvalues :=
          nameUpvalues (splitLits [] (buff.take (told buff.length))) s.f.upvalues } := by
    refine (reads_block hlen).bind ?_
    rw [if_pos (hnum.trans hs.symm.le)]
    exact Reads.pure _
  rw [List.append_nil] at hread
  exact hread.map _

/-- A name has 24 bytes. -/
theorem length_nameField (t : Bytes) : (nameField t).length = 24 := by
  have hle : ((cstr t).take 23).length ≤ 23 := List.length_take_le _ _
  rw [nameField, List.length_append, List.length_replicate]
  omega

/-- The local variables are loaded as they were dumped, if their number is told. -/
theorem reads_localVarDebug (f : ProtoInfo) (h : f.locvars.length < 256) :
    Reads (loadSection load 11 (told f.locvars.length) s) (f.locvars.flatMap lvar)
      (11, { s with f := { s.f with locvars := f.locvars.map fun v => locVar (lvar v) } }) := by
  have hone : ∀ v ∈ f.locvars, Reads (locVar <$> loadBlock 32) (lvar v) (locVar (lvar v)) := by
    intro v _
    refine (reads_loadBlock ?_).map locVar
    rw [lvar, List.length_append, List.length_append, length_nameField]
    rfl
  rw [told_of_lt h]
  exact ((reads_many lvar (fun v => locVar (lvar v)) hone).map _).map _

/-! ## Functions -/

/-- Where the counts fit, the function that is loaded from what was dumped shows what is
left of the one that was dumped. -/
def Kept (strip : Bool) (f : Proto) : Prop :=
  ∀ bytes, sexeDumpFunction strip f = some bytes → ∃ f' n,
    (∀ fuel, n ≤ fuel → Reads (sexeLoadFunction fuel) bytes f') ∧ f'.shown id = f.shown TValue.lossy

/-- The functions of a prototype are loaded in order, with enough passes for the deepest one. -/
theorem reads_functions {strip : Bool} :
    ∀ {p : List Proto} {bytes : Bytes}, (∀ g ∈ p, Kept strip g) →
    dumpFunctions strip p.length p = some bytes → ∃ p' n,
      (∀ fuel, n ≤ fuel → Reads (readMany (sexeLoadFunction fuel) p.length) bytes p') ∧
        p'.map (Proto.shown id) = p.map (Proto.shown TValue.lossy) := by
  intro p
  induction p with
  | nil =>
    intro bytes _ hdump
    obtain rfl := Option.some.inj hdump
    exact ⟨[], 0, fun _ _ => Reads.pure [], rfl⟩
  | cons g p ih =>
    intro bytes hkept hdump
    rw [List.length_cons, dumpFunctions] at hdump
    obtain ⟨first, hfirst, hrest⟩ := Option.bind_eq_some_iff.mp hdump
    obtain ⟨rest, hloop, hsum⟩ := Option.bind_eq_some_iff.mp hrest
    obtain rfl := Option.some.inj hsum
    obtain ⟨g', n, hread, hshown⟩ := hkept g List.mem_cons_self first hfirst
    obtain ⟨p', n', hreads, hshowns⟩ := ih (fun q hq => hkept q (List.mem_cons_of_mem _ hq)) hloop
    refine ⟨g' :: p', max n n', ?_, ?_⟩
    · intro fuel hfuel
      exact (hread fuel (by omega)).bind ((hreads fuel (by omega)).map (g' :: ·))
    · rw [List.map_cons, List.map_cons, hshown, hshowns]

/-- The record of a function is read. -/
theorem startInfo_func (f : ProtoInfo) : (startInfo (func f)).numparams = f.numparams ∧
    (startInfo (func f)).isVararg = f.isVararg ∧
    (startInfo (func f)).maxstacksize = f.maxstacksize := by
  refine ⟨rfl, ?_, rfl⟩
  show decide ((if f.isVararg then (1 : UInt8) else 0) &&& 1 ≠ 0) = f.isVararg
  cases f.isVararg with
  | false => rfl
  | true => rfl

/-- A function is loaded if its sections are. -/
theorem reads_function {fuel : Nat} {f : ProtoInfo} {bytes : Bytes} {s : Loading}
    (h : Reads (loadSections (sexeLoadFunction fuel) fuel
      { f := startInfo (func f), p := [] }) bytes s) :
    Reads (sexeLoadFunction (fuel + 1)) (func f ++ bytes) (.mk s.f s.p) := by
  have hfunc : (func f).length = 16 := rfl
  rw [sexeLoadFunction]
  exact (reads_block hfunc).bind (h.map fun s : Loading => Proto.mk s.f s.p)

/-- The constants, the functions inside, and the upvalues are read. -/
theorem reads_middle {fuel rounds : Nat} {f : ProtoInfo} {p p' : List Proto}
    {constants functions rest : Bytes}
    {s'' : Loading} (hcounts : Counted f p.length) (hpool : (pool (literals f.k)).length < 256)
    (hconstants : sexeDumpConstants f = some constants)
    (hfunctions : Reads (readMany (sexeLoadFunction fuel) p.length) functions p')
    (hrest : Reads (loadSections (sexeLoadFunction fuel) rounds
      { f := { s.f with
          k := f.k.map TValue.lossy
          upvalues := f.upvalues.map fun u => { u with name := none } }
        p := p' }) rest s'') :
    Reads (loadSections (sexeLoadFunction fuel) (rounds + 3) s)
      (constants ++ (stack 5 p.length ++ functions ++ (sexeDumpUpvalues f ++ rest))) s'' := by
  obtain ⟨body, rfl, hread⟩ := reads_constants hconstants hcounts.k hpool
  have hinner : Reads (loadSection (sexeLoadFunction fuel) 5 (told p.length)
      { s with f := { s.f with k := f.k.map TValue.lossy } }) functions
      (5, { f := { s.f with k := f.k.map TValue.lossy }, p := p' }) := by
    rw [told_of_lt hcounts.functions]
    exact hfunctions.map _
  exact reads_section (by decide) hread (reads_section (by decide) hinner
    (reads_section (by decide) (reads_upvalues f hcounts.upvalues) hrest))

/-- What is loaded shows what is left of the function, if it has what is left of it. -/
theorem shown_loaded {f g : ProtoInfo} {p p' : List Proto} (hk : g.k = f.k.map TValue.lossy)
    (hcode : g.code = f.code)
    (hupvalues : (g.upvalues.map fun u => { u with name := none }) = f.upvalues.map fun u =>
      { u with name := none })
    (hparams : g.numparams = f.numparams) (hvararg : g.isVararg = f.isVararg)
    (hstack : g.maxstacksize = f.maxstacksize)
    (hshown : p'.map (Proto.shown id) = p.map (Proto.shown TValue.lossy)) :
    (Proto.mk g p').shown id = (Proto.mk f p).shown TValue.lossy := by
  rw [Proto.shown, Proto.shown, shownAll_eq, shownAll_eq, hshown, ProtoInfo.shown,
    ProtoInfo.shown, hk, hcode, hupvalues, hparams, hvararg, hstack, List.map_id]

/-- Where the counts fit, what is left of a function is loaded from what was dumped. -/
theorem load_dump {strip : Bool} {f : Proto} (h : f.Every fun f n => Counted f n ∧ Sized strip f) :
    Kept strip f := by
  induction h with
  | @mk f p here _ ih =>
    obtain ⟨hcounts, hsizes⟩ := here
    obtain ⟨hparams, hvararg, hstack⟩ := startInfo_func f
    intro bytes hdump
    obtain ⟨constants, hconstants, hdump⟩ := Option.bind_eq_some_iff.mp hdump
    obtain ⟨functions, hfunctions, hdump⟩ := Option.bind_eq_some_iff.mp hdump
    obtain ⟨names, hnames, hdump⟩ := Option.bind_eq_some_iff.mp hdump
    obtain rfl := Option.some.inj hdump
    -- each function inside was written, and a count that fits leaves none out
    rw [told_of_lt hcounts.functions] at hfunctions
    obtain ⟨p', n, hinner, hshown⟩ := reads_functions ih hfunctions
    have hnone : ∀ us : List Upvaldesc,
        ((us.map fun u => { u with name := none }).map fun u : Upvaldesc =>
        { u with name := none }) = us.map fun u => { u with name := none } := fun us => List.map_map
    cases strip with
    | true =>
      obtain rfl := Option.some.inj hnames
      -- code, strings with constants, functions, upvalues, and the end
      refine ⟨.mk { startInfo (func f) with
        code := f.code, k := f.k.map TValue.lossy
        upvalues := f.upvalues.map fun u => { u with name := none } } p', n + 6, ?_, ?_⟩
      · intro fuel hfuel
        obtain ⟨m, rfl⟩ := Nat.exists_eq_add_of_le' hfuel
        exact reads_function (s := ⟨_, p'⟩) (reads_section (by decide) (reads_code f hcounts.code)
          (reads_middle hcounts hsizes.literals hconstants (hinner (m + (n + 5)) (by omega))
            (reads_terminator _ _ _)))
      · exact shown_loaded rfl rfl (hnone _) hparams hvararg hstack hshown
    | false =>
      obtain ⟨size, body, lits, rfl, hread⟩ := reads_upvaluesDebug hnames
      -- the same with the lines behind the code, and two sections of names
      refine ⟨.mk { startInfo (func f) with
        code := f.code, lineinfo := f.lineinfo.take (told f.lineinfo.length), k :=
          f.k.map TValue.lossy
        upvalues := nameUpvalues lits (f.upvalues.map fun u => { u with name := none })
        locvars := f.locvars.map fun v => locVar (lvar v) } p', n + 9, ?_, ?_⟩
      · intro fuel hfuel
        obtain ⟨m, rfl⟩ := Nat.exists_eq_add_of_le' hfuel
        exact reads_function (s := ⟨_, p'⟩) (reads_section (by decide) (reads_code f hcounts.code)
          (reads_section (by decide) (reads_codeDebug f)
            (reads_middle hcounts hsizes.literals hconstants (hinner (m + (n + 8)) (by omega))
              (reads_section (by decide) (hread _ _ (List.length_map _))
                (reads_section (by decide) (reads_localVarDebug f (hsizes.locvars rfl))
                  (reads_terminator _ _ _))))))
      · exact shown_loaded rfl rfl ((nameUpvalues_map _ _).trans (hnone _)) hparams hvararg
          hstack hshown

end LibShare.Sexe
