import LibShare.Sexe.Reads
import Mathlib.Logic.Relation

/-!
# libshare — loading what is not a SEXE module

`sexe_undump` of any bytes. A section may stand anywhere and more than once, and the
names of the upvalues are put into the array that the last section of upvalues made.

* `Scan` — the sections of a module, passed one after the other without a look at what
  they hold. Of a function only the number of its upvalues is kept, and how many
  functions are still to come inside.
* `undump_ends`: the bound of the loader is not met, if it is above the length.
* `Agrees` — what the loader ends with, next to whether the names fit in all sections
  that are passed from there on.
* `undump_safe_iff`: an access is outside of an array just when a section of names is
  reached that has more of them than there are upvalues. No constant is outside of the
  literal strings.
-/

namespace LibShare.Sexe

/-! ## The sections -/

/-- A function whose sections are passed: the upvalues that it has, and the functions
that are still to come in it. -/
structure Frame where
  upvalues : Nat
  functions : Nat

/-- The functions that are not at their end, the inner ones first, and what is left of
the module. -/
structure Scan where
  frames : List Frame
  bs : Bytes

def behind (n : Nat) (bs : Bytes) : Option Bytes := if n ≤ bs.length then some (bs.drop n) else none

/-- The bytes that a member has, by the type of its section. -/
def width (type : UInt8) : Nat :=
  if type = 1 ∨ type = 12 then 4
  else if type = 2 then 8
  else if type = 10 then 1
  else if type = 11 then 32
  else 0

/-- A section is passed, whose head was read before. -/
def pass (type : UInt8) (size upvalues : Nat) (frames : List Frame) (body : Bytes) : Option Scan :=
  if type = 0 then some ⟨frames, body⟩
  else if type = 5 then some ⟨⟨upvalues, size⟩ :: frames, body⟩
  else if type = 6 ∨ type = 4 then do
    -- the strings, and the constants with a head of their own
    let stack ← behind (if type = 6 then size else 0) body
    let entries ← behind 8 stack
    let rest ← behind ((stack.getD 1 0).toNat * 16) entries
    some ⟨if stack.getD 0 0 = 0 then frames else ⟨upvalues, 0⟩ :: frames, rest⟩
  else
    (behind (size * width type) body).map fun rest =>
      ⟨⟨if type = 2 then size else upvalues, 0⟩ :: frames, rest⟩

/-- The next section or the next function. -/
def Scan.step : Scan → Option Scan
  | ⟨[], _⟩ => none
  | ⟨⟨upvalues, functions + 1⟩ :: frames, bs⟩ =>
    (behind 16 bs).map fun rest => ⟨⟨0, 0⟩ :: ⟨upvalues, functions⟩ :: frames, rest⟩
  | ⟨⟨upvalues, 0⟩ :: frames, bs⟩ =>
    (behind 8 bs).bind (pass (bs.getD 0 0) (bs.getD 1 0).toNat upvalues frames)

/-- A section of names, with more of them than there are upvalues. -/
def TooMany (type : UInt8) (size upvalues : Nat) (body : Bytes) : Prop :=
  type = 10 ∧ size ≤ body.length ∧ upvalues < (body.take size).count 0

/-- The walk is at such a section. -/
def Scan.TooMany : Scan → Prop
  | ⟨⟨upvalues, 0⟩ :: _, bs⟩ =>
    8 ≤ bs.length ∧ Sexe.TooMany (bs.getD 0 0) (bs.getD 1 0).toNat upvalues (bs.drop 8)
  | _ => False

/-- Such a section is not reached. -/
def Scan.Fits (s : Scan) : Prop :=
  ∀ s', Relation.ReflTransGen (fun a b : Scan => a.step = some b) s s' → ¬ s'.TooMany

/-- A scan fits just when it has no more names than upvalues, and what comes next fits. -/
theorem Scan.fits_iff (s : Scan) : s.Fits ↔ ¬ s.TooMany ∧ ∀ s', s.step = some s' → s'.Fits := by
  constructor
  · intro h
    exact ⟨h s .refl, fun s' hs' t ht => h t (.head hs' ht)⟩
  · rintro ⟨hhere, hnext⟩ t ht
    rcases Relation.ReflTransGen.cases_head ht with rfl | ⟨s', hs', hreach⟩
    · exact hhere
    · exact hnext s' hs' t hreach

/-- What lies behind some bytes that are there. -/
theorem behind_some {n : Nat} {bs : Bytes} (h : n ≤ bs.length) :
    behind n bs = some (bs.drop n) := if_pos h

/-- There is nothing behind bytes that are not there. -/
theorem behind_none {n : Nat} {bs : Bytes} (h : bs.length < n) : behind n bs = none :=
  if_neg (Nat.not_le_of_lt h)

/-- Without a next section, there is nothing to fit but this one. -/
theorem Scan.fits_end {s : Scan} (hhere : ¬ s.TooMany) (h : s.step = none) : s.Fits := by
  rw [Scan.fits_iff, h]
  exact ⟨hhere, nofun⟩

/-- A scan that has not too many names fits just when the next one does. -/
theorem Scan.fits_next {s s' : Scan} (hhere : ¬ s.TooMany) (h : s.step = some s') :
    s.Fits ↔ s'.Fits := by
  rw [Scan.fits_iff, h]
  constructor
  · rintro ⟨-, hnext⟩
    exact hnext s' rfl
  · intro hs'
    refine ⟨hhere, ?_⟩
    rintro _ ⟨rfl⟩
    exact hs'

/-! ## The loader ends -/

/-- An index of a constant is looked at before it is used. -/
theorem constant_pure (lits : List Bytes) (con : Bytes) : ∃ o, constant lits con = pure o := by
  unfold constant
  dsimp only
  split
  · exact ⟨_, rfl⟩
  split
  · exact ⟨_, rfl⟩
  split
  · split
    · next hlt =>
      rw [arrayGet, List.getElem?_eq_getElem hlt, Option.elim_some, map_pure]
      exact ⟨_, rfl⟩
    · exact ⟨_, rfl⟩
  · exact ⟨_, rfl⟩

theorem takes_loadBlock (n : Nat) : Takes .corrupt n (loadBlock n) := takes_block _ n

/-- The constants behind their head. -/
theorem takes_constants (lits : List Bytes) (size : Nat) :
    Takes .corrupt (size * 16) (readMany (loadBlock 16 >>= constant lits) size) :=
  takes_many ((takes_loadBlock 16).bind_pure (constant_pure lits)) size

/-- The members of a section that have one width. -/
theorem takes_members {α : Type} (f : Bytes → α) (n size : Nat) :
    Takes .corrupt (size * n) (readMany (f <$> loadBlock n) size) :=
  takes_many ((takes_loadBlock n).map f) size

/-- But for the functions inside, the bound is not looked at. -/
theorem plain_section (load : Loader Proto) {type : UInt8} (htype : type ≠ 5) (size : Nat)
    (s : Loading) :
    Shrinks (loadSection load type size s) ∧
      ∀ n, Avoids .spent n (loadSection load type size s) := by
  have hne : LoadError.corrupt ≠ .spent := nofun
  have hmany : ∀ {α β : Type} (f : Bytes → α) (g : List α → β) (n : Nat),
      Shrinks (g <$> readMany (f <$> loadBlock n) size) ∧
        ∀ k, Avoids .spent k (g <$> readMany (f <$> loadBlock n) size) := by
    intro α β f g n
    exact ⟨((takes_members f n size).map g).shrinks, ((takes_members f n size).map g).avoids hne⟩
  have hmap : ∀ {α β : Type} {r : Loader α} (g : α → β), Shrinks r ∧ (∀ k, Avoids .spent k r) →
      Shrinks (g <$> r) ∧ ∀ k, Avoids .spent k (g <$> r) := by
    rintro α β r g ⟨hshrinks, havoids⟩
    exact ⟨hshrinks.map g, fun k => (havoids k).map g hshrinks⟩
  unfold loadSection
  split
  · exact hmap _ (hmany _ _ 4)
  split
  · exact hmap _ (hmany _ _ 4)
  split
  · refine hmap _ ⟨?_, fun n => ?_⟩
    · refine (takes_loadBlock _).shrinks.bind fun lit =>
        (takes_loadBlock 8).shrinks.bind fun stack => ?_
      exact (takes_constants _ _).shrinks.bind fun k => .pure _
    · refine ((takes_loadBlock _).avoids hne n).bind (takes_loadBlock _).shrinks fun lit => ?_
      refine ((takes_loadBlock 8).avoids hne n).bind (takes_loadBlock 8).shrinks fun stack => ?_
      exact ((takes_constants _ _).avoids hne n).bind (takes_constants _ _).shrinks fun k => .pure _
  split
  · exact hmap _ (hmany _ _ 8)
  split
  · have hnamed : ∀ lit n, Shrinks (if (splitLits [] lit).length ≤ s.f.upvalues.length then
          pure { s.f with upvalues := nameUpvalues (splitLits [] lit) s.f.upvalues }
            else throw .outside : Loader ProtoInfo) ∧
        Avoids .spent n (if (splitLits [] lit).length ≤ s.f.upvalues.length then
          pure { s.f with upvalues := nameUpvalues (splitLits [] lit) s.f.upvalues }
            else throw .outside : Loader ProtoInfo) := by
      intro lit n
      split
      · exact ⟨.pure _, .pure _⟩
      · exact ⟨shrinks_throw _, fun _ _ => nofun⟩
    refine hmap _ ⟨?_, fun n => ?_⟩
    · exact (takes_loadBlock _).shrinks.bind fun lit => (hnamed lit 0).1
    · exact ((takes_loadBlock _).avoids hne n).bind (takes_loadBlock _).shrinks fun lit =>
        (hnamed lit n).2
  split
  · exact hmap _ (hmany _ _ 32)
  · exact ⟨.pure _, fun _ => .pure _⟩

/-- A section of functions loads each of them. -/
theorem loadSection_functions (load : Loader Proto) (size : Nat) (s : Loading) :
    loadSection load 5 size s = (fun p => (5, { s with p })) <$> readMany load size := rfl

/-- A section leaves no more than there was. -/
theorem shrinks_section {load : Loader Proto} (h : Shrinks load) (type : UInt8) (size : Nat)
    (s : Loading) :
    Shrinks (loadSection load type size s) := by
  by_cases htype : type = 5
  · subst htype
    rw [loadSection_functions]
    exact (shrinks_many h size).map _
  · exact (plain_section load htype size s).1

/-- A section does not run out of passes if what loads a function does not. -/
theorem avoids_section {load : Loader Proto} {n : Nat} (hshrinks : Shrinks load)
    (h : Avoids .spent n load)
    (type : UInt8) (size : Nat) (s : Loading) : Avoids .spent n (loadSection load type size s) := by
  by_cases htype : type = 5
  · subst htype
    rw [loadSection_functions]
    exact (avoids_many h hshrinks size).map _ (shrinks_many hshrinks size)
  · exact (plain_section load htype size s).2 n

/-- The sections leave no more than there was. -/
theorem shrinks_sections {load : Loader Proto} (h : Shrinks load) : ∀ (fuel : Nat) (s : Loading),
    Shrinks (loadSections load fuel s) := by
  intro fuel
  induction fuel with
  | zero => exact fun s => shrinks_throw _
  | succ fuel ih =>
    intro s
    refine (takes_loadBlock 8).shrinks.bind fun stack => (shrinks_section h _ _ _).bind ?_
    rintro ⟨type, s'⟩
    dsimp only
    split
    · exact .pure _
    · exact ih s'

/-- A function leaves no more than there was. -/
theorem shrinks_function (fuel : Nat) : Shrinks (sexeLoadFunction fuel) := by
  induction fuel with
  | zero => exact shrinks_throw _
  | succ fuel ih =>
    exact (takes_loadBlock 16).shrinks.bind fun func =>
      (shrinks_sections ih fuel _).bind fun s => .pure _

/-- Each section takes its head, so that there are no more of them than bytes. -/
theorem avoids_sections {load : Loader Proto} (hshrinks : Shrinks load) :
    ∀ (fuel : Nat) {n : Nat} (s : Loading), n ≤ fuel → Avoids .spent n load →
      Avoids .spent n (loadSections load fuel s) := by
  intro fuel
  induction fuel with
  | zero =>
    intro n s hle _ bs hlen
    omega
  | succ fuel ih =>
    intro n s hle h
    refine Avoids.block_bind nofun fun stack => ?_
    refine (avoids_section hshrinks (h.mono (Nat.sub_le n 8)) _ _ _).bind
      (shrinks_section hshrinks _ _ _) ?_
    rintro ⟨type, s'⟩
    dsimp only
    split
    · exact .pure _
    · exact ih s' (by omega) (h.mono (Nat.sub_le n 8))

/-- With as many passes as bytes a function does not run out of them. -/
theorem avoids_function (fuel : Nat) : Avoids .spent fuel (sexeLoadFunction fuel) := by
  induction fuel with
  | zero => exact fun bs hlen => absurd hlen (Nat.not_lt_zero _)
  | succ fuel ih =>
    refine Avoids.block_bind nofun fun func => ?_
    have hle : fuel + 1 - 16 ≤ fuel := by omega
    refine (avoids_sections (shrinks_function fuel) fuel _ hle (ih.mono hle)).bind
      (shrinks_sections (shrinks_function fuel) fuel _) fun s => .pure _

theorem avoids_header (n : Nat) : Avoids .spent n sexeLoadHeader := by
  have hne : LoadError.corrupt ≠ .spent := nofun
  refine ((takes_loadBlock 41).avoids hne n).bind (takes_loadBlock 41).shrinks fun s => ?_
  split
  · exact .pure ()
  split
  · exact fun _ _ => nofun
  · exact .pure ()

theorem shrinks_header : Shrinks sexeLoadHeader := by
  refine (takes_loadBlock 41).shrinks.bind fun s => ?_
  split
  · exact .pure ()
  split
  · exact shrinks_throw _
  · exact .pure ()

/-- The loader ends by itself. -/
theorem undump_ends {fuel : Nat} {bs : Bytes} (h : bs.length < fuel) :
    sexeUndump fuel bs ≠ .error .spent :=
  ((avoids_header fuel).bind shrinks_header fun _ => avoids_function fuel) bs h

/-! ## The loader and the walk -/

/-- A result of the loader, next to what holds before it and, by the value and the rest,
behind it: they are one where there is a value. What holds before it is true where the
interpreter has an error, and false where an array has been left. -/
def Agrees {α : Type} (r : Except LoadError (α × Bytes)) (P : Prop) (Q : α → Bytes → Prop) : Prop :=
  match r with
  | .ok (a, rest) => P ↔ Q a rest
  | .error .corrupt => P
  | .error .outside => ¬ P
  | .error .spent => True

section Agrees

variable {α β : Type} {r : Loader α} {bs : Bytes} {P : Prop} {Q : α → Bytes → Prop}

/-- What the scan says of two loaders one after the other. -/
theorem Agrees.bind {f : α → Loader β} {R : β → Bytes → Prop} (h : Agrees (r bs) P Q)
    (hf : ∀ a mid, r bs = .ok (a, mid) → Agrees (f a mid) (Q a mid) R) :
    Agrees ((r >>= f) bs) P R := by
  cases hrun : r bs with
  | error e =>
    rw [reader_bind_error hrun]
    rw [hrun] at h
    cases e with
    | corrupt => exact h
    | outside => exact h
    | spent => trivial
  | ok p =>
    obtain ⟨a, mid⟩ := p
    rw [reader_bind_ok hrun]
    rw [hrun] at h
    have hiff : P ↔ Q a mid := h
    rw [hiff]
    exact hf a mid hrun

/-- What the scan says of a value that is made of another. -/
theorem Agrees.map {f : α → β} {R : β → Bytes → Prop} (h : Agrees (r bs) P Q)
    (hf : ∀ a rest, r bs = .ok (a, rest) → (Q a rest ↔ R (f a) rest)) :
    Agrees ((f <$> r) bs) P R := by
  rw [reader_map_eq]
  exact h.bind fun a rest hrun => hf a rest hrun

/-- What takes a number of bytes has a value, or is cut off. -/
theorem agrees_takes {n : Nat} (h : Takes .corrupt n r) (hcut : bs.length < n → P)
    (htaken : ∀ a, n ≤ bs.length → r bs = .ok (a, bs.drop n) → (P ↔ Q a (bs.drop n))) :
    Agrees (r bs) P Q := by
  by_cases hle : n ≤ bs.length
  · obtain ⟨a, ha⟩ := (h bs).1 hle
    rw [ha]
    exact htaken a hle ha
  · rw [(h bs).2 (Nat.lt_of_not_le hle)]
    exact hcut (Nat.lt_of_not_le hle)

end Agrees

/-- What is behind a section fits. -/
def Onward (s : Option Scan) : Prop := ∀ s', s = some s' → s'.Fits

theorem onward_none : Onward none := nofun

/-- What goes on fits. -/
theorem onward_some (s : Scan) : Onward (some s) ↔ s.Fits := by
  constructor
  · exact fun h => h s rfl
  · rintro h _ ⟨rfl⟩
    exact h

/-- A scan fits just when it has not too many names, and goes on to one that fits. -/
theorem Scan.fits_onward (s : Scan) : s.Fits ↔ ¬ s.TooMany ∧ Onward s.step := s.fits_iff

/-- What takes a number of bytes is next to what leaves them out. -/
theorem agrees_behind {α : Type} {r : Loader α} {n : Nat} (h : Takes .corrupt n r)
    (next : Bytes → Option Scan)
    (bs : Bytes) :
    Agrees (r bs) (Onward ((behind n bs).bind next)) fun _ rest => Onward (next rest) := by
  refine agrees_takes h ?_ ?_
  · intro hcut
    rw [behind_none hcut]
    exact onward_none
  · intro a hle _
    rw [behind_some hle]
    exact Iff.rfl

theorem getD_take {bs : Bytes} {n i : Nat} (h : i < n) : (bs.take n).getD i 0 = bs.getD i 0 := by
  rw [List.getD_eq_getElem?_getD, List.getElem?_take_of_lt h, ← List.getD_eq_getElem?_getD]

/-- Functions that are still to come are loaded. -/
theorem agrees_functions {load : Loader Proto}
    (hload : ∀ bs u k frames, Agrees (load bs) (Scan.mk (⟨u, k + 1⟩ :: frames) bs).Fits
      fun _ rest =>
      (Scan.mk (⟨u, k⟩ :: frames) rest).Fits) (u : Nat) (frames : List Frame) :
    ∀ (size : Nat) (bs : Bytes), Agrees (readMany load size bs)
      (Scan.mk (⟨u, size⟩ :: frames) bs).Fits fun _ rest =>
      (Scan.mk (⟨u, 0⟩ :: frames) rest).Fits := by
  intro size
  induction size with
  | zero => exact fun bs => Iff.rfl
  | succ size ih =>
    intro bs
    refine (hload bs u size frames).bind fun f mid _ => ?_
    exact (ih mid).bind fun p rest _ => Iff.rfl

/-- A section of plain members is passed over by its width. -/
theorem pass_plain {type : UInt8} (hnone : type ≠ 0) (hfunctions : type ≠ 5)
    (hconstants : ¬ (type = 6 ∨ type = 4))
    (size upvalues : Nat) (frames : List Frame) (body : Bytes) :
    pass type size upvalues frames body =
      (behind (size * width type) body).map fun rest =>
        ⟨⟨if type = 2 then size else upvalues, 0⟩ :: frames, rest⟩ := by
  rw [pass, if_neg hnone, if_neg hfunctions, if_neg hconstants]

section Section

variable (size : Nat) (s : Loading) (frames : List Frame) (body : Bytes)

/-- What is to fit behind a section, by the type that is left and the function. -/
def Behind (c : UInt8 × Loading) (rest : Bytes) : Prop :=
  if c.1 = 0 then
    (Scan.mk frames rest).Fits else (Scan.mk (⟨c.2.f.upvalues.length, 0⟩ :: frames) rest).Fits

/-- A section whose members have one width, and are no names. -/
theorem agrees_plain {type : UInt8} (hnone : type ≠ 0) (hfunctions : type ≠ 5)
    (hconstants : ¬ (type = 6 ∨ type = 4))
    (hnames : type ≠ 10) {r : Loader ProtoInfo} (htakes : Takes .corrupt (size * width type) r)
    (hupvalues : Yields r fun f =>
      f.upvalues.length = if type = 2 then size else s.f.upvalues.length) :
    Agrees (((fun f => (type, { s with f })) <$> r) body)
      (¬ TooMany type size s.f.upvalues.length body ∧
        Onward (pass type size s.f.upvalues.length frames body))
      (Behind frames) := by
  have hfew : ¬ TooMany type size s.f.upvalues.length body := fun h => hnames h.1
  rw [pass_plain hnone hfunctions hconstants]
  refine (agrees_takes htakes (Q := fun f rest =>
    (Scan.mk (⟨f.upvalues.length, 0⟩ :: frames) rest).Fits) ?_ ?_).map ?_
  · intro hcut
    rw [behind_none hcut]
    exact ⟨hfew, onward_none⟩
  · intro f hle hf
    rw [behind_some hle, Option.map_some, onward_some, hupvalues _ _ _ hf, and_iff_right hfew]
  · intro f rest _
    show _ ↔ if type = 0 then _ else _
    rw [if_neg hnone]

/-- The names are put into the upvalues, as far as these go. -/
theorem agrees_names : Agrees (((fun f => (10, { s with f })) <$> sexeLoadUpvalDebug size s.f) body)
    (¬ TooMany 10 size s.f.upvalues.length body ∧
      Onward (pass 10 size s.f.upvalues.length frames body))
    (Behind frames) := by
  rw [pass_plain (by decide) (by decide) (by decide), show width 10 = 1 from rfl, Nat.mul_one]
  refine Agrees.map (Q := fun f rest =>
    (Scan.mk (⟨f.upvalues.length, 0⟩ :: frames) rest).Fits) ?_ fun f rest _ => Iff.rfl
  have hbody : Agrees (loadBlock size body) (¬ TooMany 10 size s.f.upvalues.length body ∧
      Onward ((behind size body).map fun rest =>
        ⟨⟨if (10 : UInt8) = 2 then size else s.f.upvalues.length, 0⟩ :: frames, rest⟩))
      fun lit rest => lit.count 0 ≤ s.f.upvalues.length ∧
        (Scan.mk (⟨s.f.upvalues.length, 0⟩ :: frames) rest).Fits := by
    refine agrees_takes (takes_loadBlock size) ?_ ?_
    · intro hcut
      rw [behind_none hcut]
      exact ⟨fun h => absurd h.2.1 (Nat.not_le_of_lt hcut), onward_none⟩
    · intro lit hle hlit
      obtain ⟨-, rfl, -⟩ := block_ok hlit
      rw [behind_some hle, Option.map_some, onward_some]
      refine and_congr ?_ Iff.rfl
      rw [TooMany, and_iff_right rfl, and_iff_right hle, Nat.not_lt]
  refine hbody.bind fun lit rest _ => ?_
  have hcount := length_splitLits lit []
  show Agrees ((if _ then _ else _ : Loader ProtoInfo) rest) _ _
  split
  · next hle =>
    show _ ∧ _ ↔ (Scan.mk (⟨(nameUpvalues _ _).length, 0⟩ :: frames) rest).Fits
    rw [length_nameUpvalues, and_iff_right (hcount ▸ hle)]
  · next hlt =>
    rintro ⟨hle, -⟩
    exact hlt (hcount ▸ hle)

/-- The strings and the constants are passed, and the loop ends with them if their head
has no type. -/
theorem agrees_constants {type : UInt8} (htype : type = 6 ∨ type = 4) :
    Agrees (((fun c : UInt8 × ProtoInfo =>
      (c.1, { s with f := c.2 })) <$> sexeLoadConstants type size s.f) body)
      (¬ TooMany type size s.f.upvalues.length body ∧
        Onward (pass type size s.f.upvalues.length frames body))
      (Behind frames) := by
  have hnames : ¬ TooMany type size s.f.upvalues.length body := by
    rintro ⟨rfl, -⟩
    exact absurd htype (by decide)
  have hpass : pass type size s.f.upvalues.length frames body =
      (behind (if type = 6 then size else 0) body).bind fun stack =>
        (behind 8 stack).bind fun entries =>
        (behind ((stack.getD 1 0).toNat * 16) entries).bind fun rest =>
          some ⟨if stack.getD 0 0 = 0 then frames else ⟨s.f.upvalues.length, 0⟩ ::
            frames, rest⟩ := by
    rcases htype with rfl | rfl
    · rfl
    · rfl
  rw [hpass, and_iff_right hnames]
  refine Agrees.map (Q := fun c rest =>
    Behind frames (c.1, { s with f := c.2 }) rest) ?_ fun c rest _ => Iff.rfl
  refine (agrees_behind (takes_loadBlock _) _ body).bind fun lit stack _ => ?_
  refine (agrees_behind (takes_loadBlock 8) _ stack).bind fun head entries hhead => ?_
  obtain ⟨hle, rfl, -⟩ := block_ok hhead
  rw [getD_take (by decide), getD_take (by decide)]
  refine (agrees_behind (takes_constants _ _) _ entries).bind fun k rest _ => ?_
  rw [onward_some]
  show _ ↔ if stack.getD 0 0 = 0 then _ else _
  split
  · exact Iff.rfl
  · exact Iff.rfl

/-- What a section leaves fits just when what the walk makes of it does. -/
theorem agrees_section {load : Loader Proto}
    (hload : ∀ bs u k frames, Agrees (load bs) (Scan.mk (⟨u, k + 1⟩ :: frames) bs).Fits
      fun _ rest =>
      (Scan.mk (⟨u, k⟩ :: frames) rest).Fits) (type :
      UInt8) : Agrees (loadSection load type size s body)
      (¬ TooMany type size s.f.upvalues.length body ∧
        Onward (pass type size s.f.upvalues.length frames body))
      (Behind frames) := by
  -- the branches of `loadSection` in their order
  unfold loadSection
  split
  · next h =>
    subst h
    refine agrees_plain size s frames body (by decide) (by decide) (by decide) (by decide) ?_ ?_
    · exact (takes_members _ 4 size).map _
    · exact (yields_any _).map fun _ _ => rfl
  split
  · next h =>
    subst h
    refine agrees_plain size s frames body (by decide) (by decide) (by decide) (by decide) ?_ ?_
    · exact (takes_members _ 4 size).map _
    · exact (yields_any _).map fun _ _ => rfl
  split
  · next h => exact agrees_constants size s frames body h
  split
  · next h =>
    subst h
    rw [pass, if_neg (by decide), if_pos rfl, onward_some, and_iff_right fun h : TooMany 5 _ _ _ =>
      absurd h.1 (by decide)]
    exact (agrees_functions hload _ frames size body).map fun p rest _ => Iff.rfl
  split
  · next h =>
    subst h
    refine agrees_plain size s frames body (by decide) (by decide) (by decide) (by decide) ?_ ?_
    · exact (takes_members _ 8 size).map _
    · exact (yields_length _ _).map fun _ hn => hn
  split
  · next h =>
    subst h
    exact agrees_names size s frames body
  split
  · next h =>
    subst h
    refine agrees_plain size s frames body (by decide) (by decide) (by decide) (by decide) ?_ ?_
    · exact (takes_members _ 32 size).map _
    · exact (yields_any _).map fun _ _ => rfl
  · next h1 h12 h6 h5 h2 h10 h11 =>
    rw [and_iff_right fun h : TooMany type _ _ _ => h10 h.1]
    by_cases hnone : type = 0
    · subst hnone
      rw [pass, if_pos rfl, onward_some]
      exact Iff.rfl
    · -- nothing is known of the members
      have hwidth : width type = 0 := by
        rw [width, if_neg (not_or.mpr ⟨h1, h12⟩), if_neg h2, if_neg h10, if_neg h11]
      rw [pass_plain hnone h5 h6, hwidth, Nat.mul_zero, behind_some (Nat.zero_le _), List.drop_zero,
        Option.map_some, onward_some, if_neg h2]
      show _ ↔ if type = 0 then _ else _
      rw [if_neg hnone]

end Section

/-! ## Malformed modules -/

/-- The sections of a function are loaded as they are passed. -/
theorem agrees_sections {load : Loader Proto}
    (hload : ∀ bs u k frames, Agrees (load bs) (Scan.mk (⟨u, k + 1⟩ :: frames) bs).Fits
      fun _ rest =>
      (Scan.mk (⟨u, k⟩ :: frames) rest).Fits) (frames : List Frame) : ∀ (fuel : Nat) (s :
      Loading) (bs : Bytes),
    Agrees (loadSections load fuel s bs)
      (Scan.mk (⟨s.f.upvalues.length, 0⟩ :: frames) bs).Fits fun _ rest =>
      (Scan.mk frames rest).Fits := by
  intro fuel
  induction fuel with
  | zero => exact fun _ _ => trivial
  | succ fuel ih =>
    intro s bs
    have hhead : Agrees (loadBlock 8 bs) (Scan.mk (⟨s.f.upvalues.length, 0⟩ :: frames) bs).Fits
        fun stack body =>
        ¬ TooMany (stack.getD 0 0) (stack.getD 1 0).toNat s.f.upvalues.length body ∧
          Onward (pass (stack.getD 0 0) (stack.getD 1 0).toNat s.f.upvalues.length
            frames body) := by
      refine agrees_takes (takes_loadBlock 8) ?_ ?_
      · intro hcut
        refine Scan.fits_end (fun h => absurd h.1 (Nat.not_le_of_lt hcut)) ?_
        rw [Scan.step, behind_none hcut]
        rfl
      · intro stack hle hstack
        obtain ⟨-, rfl, -⟩ := block_ok hstack
        rw [getD_take (by decide), getD_take (by decide), Scan.fits_onward, Scan.step,
          behind_some hle, Option.bind_some]
        exact and_congr (not_congr (and_iff_right hle)) Iff.rfl
    refine hhead.bind fun stack body _ => ?_
    refine (agrees_section _ s frames body hload _).bind ?_
    rintro ⟨type, s'⟩ rest _
    show Agrees ((if type = 0 then pure s' else loadSections load fuel s' : Loader Loading) rest)
      (if type = 0 then _ else _) _
    split
    · exact Iff.rfl
    · exact ih s' rest

/-- A function is loaded as it is passed, with those that are inside. -/
theorem agrees_function (fuel : Nat) : ∀ bs u k frames,
    Agrees (sexeLoadFunction fuel bs) (Scan.mk (⟨u, k + 1⟩ :: frames) bs).Fits fun _ rest =>
      (Scan.mk (⟨u, k⟩ :: frames) rest).Fits := by
  induction fuel with
  | zero => exact fun _ _ _ _ => trivial
  | succ fuel ih =>
    intro bs u k frames
    have hrecord : Agrees (loadBlock 16 bs) (Scan.mk (⟨u, k + 1⟩ :: frames) bs).Fits fun _ rest =>
        (Scan.mk (⟨0, 0⟩ :: ⟨u, k⟩ :: frames) rest).Fits := by
      refine agrees_takes (takes_loadBlock 16) ?_ ?_
      · intro hcut
        refine Scan.fits_end id ?_
        rw [Scan.step, behind_none hcut]
        rfl
      · intro func hle _
        refine Scan.fits_next id ?_
        rw [Scan.step, behind_some hle]
        rfl
    refine hrecord.bind fun func rest _ => ?_
    refine (agrees_sections ih (⟨u, k⟩ :: frames) fuel { f := startInfo func, p := [] } rest).bind
      fun s rest' _ => ?_
    exact Iff.rfl

/-- The header is passed: it is none, or it is that of a module. -/
def HeaderPasses (bs : Bytes) : Prop :=
  41 ≤ bs.length ∧ ((bs.take 41).take 3 = sexeSignature.tail →
    (bs.take 41).getD 4 0 = 0 ∧ (bs.take 41).drop 35 = sexeTail)

/-- In every section of names that is reached, there are no more of them than the
function has upvalues from the last section of these. -/
def NamesFit (bs : Bytes) : Prop := HeaderPasses bs → (Scan.mk [⟨0, 0⟩] (bs.drop 57)).Fits

/-- The loader has ended with a prototype, or with an error of the interpreter. -/
def Ended {α : Type} (r : Except LoadError α) : Prop := r ≠ .error .spent ∧ r ≠ .error .outside

/-- The scan begins where the header ends. -/
theorem agrees_header (bs : Bytes) : Agrees (sexeLoadHeader bs) (NamesFit bs) fun _ rest =>
    (Scan.mk [⟨0, 0⟩] (rest.drop 16)).Fits := by
  have hpass : HeaderPasses bs →
      (NamesFit bs ↔ (Scan.mk [⟨0, 0⟩] ((bs.drop 41).drop 16)).Fits) := by
    intro h
    rw [List.drop_drop]
    exact ⟨fun hfit => hfit h, fun hfit _ => hfit⟩
  by_cases hle : 41 ≤ bs.length
  · have hblock : loadBlock 41 bs = .ok (bs.take 41, bs.drop 41) := if_pos hle
    rw [sexeLoadHeader, reader_bind_ok hblock]
    split
    · next hsignature => exact hpass ⟨hle, fun h => absurd h hsignature⟩
    split
    · next hbad =>
      -- the loader stops at a header that is not as it should be
      rintro ⟨-, hgood⟩
      obtain ⟨hfmt, htail⟩ := hgood (not_not.mp ‹_›)
      rcases hbad with hbad | hbad
      · exact absurd hfmt hbad
      · exact absurd htail hbad
    · next hgood =>
      obtain ⟨hfmt, htail⟩ := not_or.mp hgood
      exact hpass ⟨hle, fun _ => ⟨not_not.mp hfmt, not_not.mp htail⟩⟩
  · rw [sexeLoadHeader, reader_bind_error (show loadBlock 41 bs = .error .corrupt from if_neg hle)]
    exact fun h => absurd h.1 hle

/-- The scan fits just when the load never writes behind its upvalues. -/
theorem agrees_undump (fuel : Nat) (bs : Bytes) :
    Agrees (sexeUndump fuel bs) (NamesFit bs) fun _ _ => True := by
  refine (agrees_header bs).bind fun _ rest _ => ?_
  cases fuel with
  | zero => trivial
  | succ fuel =>
    have hrecord : Agrees (loadBlock 16 rest) (Scan.mk [⟨0, 0⟩] (rest.drop 16)).Fits
        fun _ sections =>
        (Scan.mk [⟨0, 0⟩] sections).Fits := by
      refine agrees_takes (takes_loadBlock 16) ?_ fun _ _ _ => Iff.rfl
      intro hcut
      -- a record that is cut off has no sections behind it
      rw [List.drop_eq_nil_of_le hcut.le]
      exact Scan.fits_end (fun h => absurd h.1 (by decide)) rfl
    refine hrecord.bind fun func sections _ => ?_
    refine (agrees_sections (agrees_function fuel) [] fuel
      { f := startInfo func, p := [] } sections).bind ?_
    intro s rest' _
    exact iff_true_intro (Scan.fits_end id rfl)

/-- The loader ends, and leaves no array, just when the names fit in every section that
is reached. -/
theorem undump_safe_iff (bs : Bytes) :
    (∃ n, ∀ fuel, n ≤ fuel → Ended (sexeUndump fuel bs)) ↔ NamesFit bs := by
  have hfuel : ∀ fuel, bs.length < fuel → (Ended (sexeUndump fuel bs) ↔ NamesFit bs) := by
    intro fuel hlen
    have hagrees := agrees_undump fuel bs
    have hends := undump_ends hlen
    generalize sexeUndump fuel bs = r at hagrees hends
    match r with
    | .ok (f, rest) => exact iff_of_true ⟨nofun, nofun⟩ (hagrees.mpr trivial)
    | .error .corrupt => exact iff_of_true ⟨nofun, nofun⟩ hagrees
    | .error .outside => exact iff_of_false (fun h => h.2 rfl) hagrees
    | .error .spent => exact absurd rfl hends
  constructor
  · rintro ⟨n, h⟩
    exact (hfuel (max n (bs.length + 1)) (by omega)).mp (h _ (Nat.le_max_left _ _))
  · intro h
    exact ⟨bs.length + 1, fun fuel hle => (hfuel fuel hle).mpr h⟩

/-- A function with a name for an upvalue and without upvalues. -/
def namedFirst : Bytes := (sexeHeader 51 [116]).tail ++ List.replicate 16 0 ++ stack 10 1 ++ [0]

/-- The name is put behind an array without members. -/
theorem namedFirst_outside : ¬ ∃ n, ∀ fuel, n ≤ fuel → Ended (sexeUndump fuel namedFirst) := by
  rintro ⟨n, h⟩
  refine (h (n + 2) (by omega)).2 ?_
  rfl

end LibShare.Sexe
