import LibShare.Base
import Mathlib.Data.List.TakeWhile

/-!
# libshare — the text of a peer's address

`shpeer_host` and `shpeer_set_host` of `share.c`, and the text that `shnet_track_add`
makes of a peer.

* A text is a list of characters. An address is 16 bytes, of which IPv4 has the first
  four.
* The printing of IPv4 and the look-up of a host are not part of the library; the
  second is a `Resolver`, with what is standard of it.
* A text that does not fit the buffer it is written to has no result.

`peerText_iff`: a byte of an IPv6 address is printed as a number with a sign, so that
the text is read back just when no byte is 128 or more. No two peers have one text.
-/

namespace LibShare.Net

/-- A C string, a character for each byte. -/
abbrev Text : Type := List Char

/-! ## Peers -/

inductive PeerType
  | localhost
  | ipv4
  | ipv6
deriving DecidableEq

/-- `shpeer_t`, as far as its address goes, and its label. The port is in network order. -/
structure Peer where
  type : PeerType
  sinPort : UInt16
  sinAddr : Vector UInt8 16
  label : Text

/-- The bytes of the address that count. -/
def PeerType.address (sinAddr : Vector UInt8 16) : PeerType → Bytes
  | .ipv6 => sinAddr.toList
  | _ => sinAddr.toList.take 4

def Peer.address (peer : Peer) : Bytes := peer.type.address peer.sinAddr

/-- `ntohs` of the port. -/
def Peer.port (peer : Peer) : UInt16 := htons peer.sinPort

/-! ## Printing -/

/-- `inet_ntoa`. -/
def inetNtoa (addr : Bytes) : Text :=
  List.intercalate ['.'] (addr.map fun b => Nat.toDigits 10 b.toNat)

/-- A `char` as an `unsigned int`: it has a sign. -/
def signExtend (b : UInt8) : Nat := if b < 128 then b.toNat else 2 ^ 32 - 256 + b.toNat

/-- `%02x` of a `char`. -/
def hex02 (b : UInt8) : Text :=
  let digits := Nat.toDigits 16 (signExtend b)
  List.replicate (2 - digits.length) '0' ++ digits

/-- Two bytes together, and a colon before the next two. -/
def ipv6Text : Bytes → Text
  | a :: b :: [] => hex02 a ++ hex02 b
  | a :: b :: addr => hex02 a ++ hex02 b ++ ':' :: ipv6Text addr
  | _ => []

/-- `shpeer_host`. -/
def shpeerHost (peer : Peer) : Text × Nat :=
  match peer.type with
  | .ipv6 => (ipv6Text peer.sinAddr.toList, peer.port.toNat)
  | _ => (inetNtoa (peer.sinAddr.toList.take 4), peer.port.toNat)

/-- `MAXHOSTNAMELEN` of Linux. -/
def maxHostNameLen : Nat := 64

/-- The text of a peer in `shnet_track_add`, where the host fits its buffer. -/
def peerText (peer : Peer) : Option Text :=
  let (hostname, port) := shpeerHost peer
  if hostname.length ≤ maxHostNameLen then some (hostname ++ ' ' :: Nat.toDigits 10 port) else none

/-! ## Reading -/

/-- `AF_INET` or `AF_INET6`. -/
inductive AddrType
  | inet
  | inet6
deriving DecidableEq

/-- The type of a peer with an address of that family. -/
def AddrType.peerType : AddrType → PeerType
  | inet => .ipv4
  | inet6 => .ipv6

/-- `strchr`: what is before the character, and what is behind it. -/
def cutAt (c : Char) (t : Text) : Option (Text × Text) :=
  match t.dropWhile (· ≠ c) with
  | [] => none
  | _ :: after => some (t.takeWhile (· ≠ c), after)

/-- Where the port begins. More than one colon is IPv6, and the port is behind a blank. -/
def cutPort (t : Text) : Option (Text × Text) :=
  match cutAt ':' t with
  | some (host, after) => if ':' ∈ after then cutAt ' ' t else some (host, after)
  | none => cutAt ' ' t

/-- `isspace`. -/
def isspace (c : Char) : Bool := c = ' ' || (9 ≤ c.toNat && c.toNat ≤ 13)

/-- The number at the beginning of a text. -/
def leadingNat (t : Text) : Nat := Nat.ofDigitChars 10 (t.takeWhile Char.isDigit) 0

/-- `atoi`. -/
def atoi (t : Text) : Int :=
  match t.dropWhile isspace with
  | '-' :: digits => - leadingNat digits
  | '+' :: digits => leadingNat digits
  | digits => leadingNat digits

/-- The bytes are copied over the first ones of the address. -/
def copyAddr (addr : Bytes) (sinAddr : Vector UInt8 16) : Vector UInt8 16 :=
  Vector.ofFn fun i => addr.getD i sinAddr[i]

/-- `PACKAGE`. -/
def package : Text := "libshare".toList

/-- `shpeer_set_app`: the label is the name before a colon. -/
def shpeerSetApp (appName : Text) : Text :=
  ((if appName = [] then package else appName).takeWhile (· ≠ ':')).take 15

/-- `shpeer_set_host`, with `shresolve`, and `getservbyname` for a peer's label. -/
def shpeerSetHost (shresolve : Text → Option (AddrType × Bytes))
    (getservbyname : Text → Option UInt16) (peer : Peer)
    (hostname : Option Text) : Peer :=
  let peerHost := hostname.map (List.take maxHostNameLen)
  let cut := peerHost.bind cutPort
  let port : Int := (cut.map fun c => atoi c.2).getD 0
  let ent := (cut.map Prod.fst <|> peerHost).bind shresolve
  let port : UInt16 :=
    if port = 0 then
      -- the package itself is no service
      if peer.label ≠ [] ∧ peer.label ≠ package then (getservbyname peer.label).getD 0 else 0
    else UInt16.ofInt port
  match ent with
  | none =>
    { peer with
      type := .localhost
      sinAddr := copyAddr [127, 0, 0, 1] peer.sinAddr
      sinPort := htons port }
  | some (.inet6, addr) =>
    { peer with type := .ipv6, sinAddr := copyAddr addr peer.sinAddr, sinPort := htons port }
  | some (.inet, addr) =>
    { peer with type := .ipv4, sinAddr := copyAddr addr peer.sinAddr, sinPort := htons port }

/-- `shpeer_init`, as far as the address goes. -/
def shpeerInit (shresolve : Text → Option (AddrType × Bytes)) (getservbyname : Text → Option UInt16)
    (appname : Text)
    (hostname : Option Text) : Peer :=
  shpeerSetHost shresolve getservbyname
    { type := .localhost
      sinPort := 0
      sinAddr := Vector.replicate 16 0
      label := shpeerSetApp appname } hostname

/-! ## Looking up a host -/

/-- A byte in two digits. -/
def hexPair (b : UInt8) : Text := [Nat.digitChar (b.toNat / 16), Nat.digitChar (b.toNat % 16)]

/-- An IPv6 address in groups of four digits. -/
def ipv6Standard : Bytes → Text
  | a :: b :: [] => hexPair a ++ hexPair b
  | a :: b :: addr => hexPair a ++ hexPair b ++ ':' :: ipv6Standard addr
  | _ => []

/-- What is standard of the look-up of a host: the text of an address is that address,
and in a text with a colon no more than four hexadecimal digits stand together (but for
the zone, which is behind a percent sign). `shresolve` itself asks `gethostbyname`, which
parses no IPv6 address: that the text of one is resolved is an assumption here. -/
structure Resolver where
  resolve : Text → Option (AddrType × Bytes)
  inet (addr : Bytes) (h : addr.length = 4) : resolve (inetNtoa addr) = some (.inet, addr)
  inet6 (addr : Bytes) (h : addr.length = 16) : resolve (ipv6Standard addr) = some (.inet6, addr)
  groups (t digits : Text) (hcolon : ':' ∈ t) (hzone : '%' ∉ t) (hdigits : digits <:+: t)
    (hhex : ∀ c ∈ digits, c ∈ "0123456789abcdef".toList)
      (hlong : 4 < digits.length) : resolve t = none

/-! ## Bytes in a text -/

/-- A byte of 128 or more is a negative `char`, so that `%02x` prints six more digits. -/
theorem hex02_eq (b : UInt8) : hex02 b = if b < 128 then
  hexPair b else "ffffff".toList ++ hexPair b := by
  revert b
  exact forall_byte (by decide +kernel)

/-- The two characters of a byte are hexadecimal digits. -/
theorem mem_hexPair (b : UInt8) : ∀ c ∈ hexPair b, c ∈ "0123456789abcdef".toList := by
  have hall : ((hexPair b).all fun c => decide (c ∈ "0123456789abcdef".toList)) = true := by
    revert b
    exact forall_byte (by decide +kernel)
  exact fun c hc => of_decide_eq_true (List.all_eq_true.mp hall c hc)

/-- Different digits have different characters. -/
theorem digitChar_inj : ∀ m < 16, ∀ n < 16, Nat.digitChar m = Nat.digitChar n → m = n := by
  decide

/-- Different bytes have different pairs. -/
theorem hexPair_inj {a b : UInt8} (h : hexPair a = hexPair b) : a = b := by
  obtain ⟨hhigh, hlow⟩ := List.cons.inj h
  have ha := a.toNat_lt
  have hb := b.toNat_lt
  have hdiv := digitChar_inj _ (by omega) _ (by omega) hhigh
  have hmod := digitChar_inj _ (by omega) _ (by omega) (List.cons.inj hlow).1
  exact UInt8.toNat_inj.mp (by omega)

/-- A byte below 128 does not begin with an `f`. -/
theorem head_hexPair (b : UInt8) : b < 128 → (hexPair b).head? ≠ some 'f' := by
  revert b
  exact forall_byte (by decide +kernel)

/-- All characters of a printed byte are hexadecimal digits. -/
theorem mem_hex02 {b : UInt8} {c : Char} (h : c ∈ hex02 b) : c ∈ "0123456789abcdef".toList := by
  rw [hex02_eq] at h
  split at h
  · exact mem_hexPair b c h
  · rcases List.mem_append.mp h with h | h
    · have hall : ("ffffff".toList.all fun d => decide (d ∈ "0123456789abcdef".toList)) =
          true := by decide
      exact of_decide_eq_true (List.all_eq_true.mp hall c h)
    · exact mem_hexPair b c h

/-- What a byte is printed as tells the byte, and where it ends. -/
theorem hex02_append_inj {a b : UInt8} {t t' : Text} (h : hex02 a ++ t = hex02 b ++ t') :
    a = b ∧ t = t' := by
  have hlen : ∀ x : UInt8, (hexPair x).length = 2 := fun _ => rfl
  have hpairs : ∀ {u u' : Text}, hexPair a ++ u = hexPair b ++ u' → a = b ∧ u = u' := by
    intro u u' hsame
    obtain ⟨hpair, hrest⟩ := List.append_inj hsame ((hlen a).trans (hlen b).symm)
    exact ⟨hexPair_inj hpair, hrest⟩
  -- a byte with a sign begins with an `f`, and no other does
  have hhead : ∀ {x y : UInt8} {u u' : Text}, x < 128 →
      hexPair x ++ u = "ffffff".toList ++ u' → False := by
    intro x y u u' hx hsame
    exact head_hexPair x hx (congrArg List.head? hsame)
  rw [hex02_eq, hex02_eq] at h
  by_cases ha : a < 128
  · rw [if_pos ha] at h
    by_cases hb : b < 128
    · rw [if_pos hb] at h
      exact hpairs h
    · rw [if_neg hb, List.append_assoc] at h
      exact (hhead (y := b) ha h).elim
  · rw [if_neg ha, List.append_assoc] at h
    by_cases hb : b < 128
    · rw [if_pos hb] at h
      exact (hhead (y := a) hb h.symm).elim
    · rw [if_neg hb, List.append_assoc] at h
      exact hpairs (List.append_cancel_left h)

/-- Two bytes make a group. -/
theorem ipv6Text_cons (a b : UInt8) {addr : Bytes} (h : addr ≠ []) :
    ipv6Text (a :: b :: addr) = hex02 a ++ (hex02 b ++ ':' :: ipv6Text addr) := by
  cases addr with
  | nil => exact absurd rfl h
  | cons c addr => rw [ipv6Text, List.append_assoc]; exact nofun

/-- A list of two bytes or more begins with two. -/
theorem two_bytes (addr : Bytes) (h : 2 ≤ addr.length) : ∃ a b rest, addr = a :: b :: rest := by
  rcases addr with _ | ⟨a, _ | ⟨b, rest⟩⟩
  · cases h
  · exact absurd h (Nat.not_succ_le_self 1)
  · exact ⟨a, b, rest, rfl⟩

/-- Addresses of one length have different texts. -/
theorem ipv6Text_inj :
    ∀ (n : Nat) {addr addr' : Bytes}, addr.length = 2 * (n + 1) → addr'.length = 2 * (n + 1) →
    ipv6Text addr = ipv6Text addr' → addr = addr' := by
  intro n
  induction n with
  | zero =>
    intro addr addr' hlen hlen' h
    obtain ⟨a, b, rfl⟩ := List.length_eq_two.mp hlen
    obtain ⟨a', b', rfl⟩ := List.length_eq_two.mp hlen'
    obtain ⟨rfl, hb⟩ := hex02_append_inj h
    rw [← List.append_nil (hex02 b), ← List.append_nil (hex02 b')] at hb
    rw [(hex02_append_inj hb).1]
  | succ n ih =>
    intro addr addr' hlen hlen' h
    obtain ⟨a, b, rest, rfl⟩ := two_bytes addr (by omega)
    obtain ⟨a', b', rest', rfl⟩ := two_bytes addr' (by omega)
    have hrest : rest.length = 2 * (n + 1) := by
      rw [List.length_cons, List.length_cons] at hlen
      omega
    have hrest' : rest'.length = 2 * (n + 1) := by
      rw [List.length_cons, List.length_cons] at hlen'
      omega
    rw [ipv6Text_cons a b (List.ne_nil_of_length_pos (by omega)),
      ipv6Text_cons a' b' (List.ne_nil_of_length_pos (by omega))] at h
    obtain ⟨rfl, hsecond⟩ := hex02_append_inj h
    obtain ⟨rfl, hgroups⟩ := hex02_append_inj hsecond
    rw [ih hrest hrest' (List.cons.inj hgroups).2]

/-- Without a byte from 128 on, the text is the standard one. -/
theorem ipv6Text_standard (addr : Bytes) (h : ∀ b ∈ addr, b < 128) :
    ipv6Text addr = ipv6Standard addr := by
  fun_induction ipv6Text addr with
  | case1 a b =>
    have ha := h a List.mem_cons_self
    have hb := h b (List.mem_cons_of_mem _ List.mem_cons_self)
    rw [ipv6Standard, hex02_eq, hex02_eq, if_pos ha, if_pos hb]
  | case2 a b addr hne ih =>
    have ha := h a List.mem_cons_self
    have hb := h b (List.mem_cons_of_mem _ List.mem_cons_self)
    have hrest := ih fun c hc => h c (List.mem_cons_of_mem _ (List.mem_cons_of_mem _ hc))
    rw [ipv6Standard, hex02_eq, hex02_eq, if_pos ha, if_pos hb, hrest]
    exact hne
  | case3 addr h1 h2 =>
    rw [ipv6Standard]
    · exact h1
    · exact h2

/-- The characters of an address. -/
theorem mem_ipv6Text {addr : Bytes} {c : Char} (h : c ∈ ipv6Text addr) :
    c = ':' ∨ c ∈ "0123456789abcdef".toList := by
  fun_induction ipv6Text addr with
  | case1 a b =>
    rcases List.mem_append.mp h with h | h
    · exact Or.inr (mem_hex02 h)
    · exact Or.inr (mem_hex02 h)
  | case2 a b addr hne ih =>
    rcases List.mem_append.mp h with h | h
    · rcases List.mem_append.mp h with h | h
      · exact Or.inr (mem_hex02 h)
      · exact Or.inr (mem_hex02 h)
    · rcases List.mem_cons.mp h with h | h
      · exact Or.inl h
      · exact ih h
  | case3 addr h1 h2 => cases h

/-- A byte from 128 on leaves eight digits together. -/
theorem hex02_infix {addr : Bytes} {b : UInt8} (h : b ∈ addr) (heven : addr.length % 2 = 0) :
    hex02 b <:+: ipv6Text addr := by
  fun_induction ipv6Text addr with
  | case1 a c =>
    rcases List.mem_cons.mp h with rfl | h
    · exact (List.prefix_append _ _).isInfix
    · obtain rfl := List.mem_singleton.mp h
      exact (List.suffix_append _ _).isInfix
  | case2 a c addr hne ih =>
    rcases List.mem_cons.mp h with rfl | h
    · rw [List.append_assoc]
      exact (List.prefix_append _ _).isInfix
    · rcases List.mem_cons.mp h with rfl | h
      · exact (List.infix_append _ _ _)
      · have hinner := ih h (by rw [List.length_cons, List.length_cons] at heven; omega)
        exact hinner.trans ((List.suffix_cons _ _).trans (List.suffix_append _ _)).isInfix
  | case3 addr h1 h2 =>
    rcases addr with _ | ⟨a, _ | ⟨c, rest⟩⟩
    · cases h
    · cases heven
    · cases rest with
      | nil => exact absurd rfl (h1 a c)
      | cons d rest => exact absurd rfl (h2 a c _)

/-! ## Cutting off the port -/

/-- A text is cut at the first character of its kind. -/
theorem cutAt_append {c : Char} {t : Text} (h : c ∉ t) (after : Text) :
    cutAt c (t ++ c :: after) = some (t, after) := by
  have hall : ∀ d ∈ t, decide (d ≠ c) = true := by
    intro d hd
    refine decide_eq_true ?_
    rintro rfl
    exact h hd
  have hstop : decide (c ≠ c) = false := decide_eq_false (not_not.mpr rfl)
  rw [cutAt, List.dropWhile_append_of_pos hall, List.takeWhile_append_of_pos hall,
    List.dropWhile_cons_of_neg (by simp), List.takeWhile_cons_of_neg (by simp), List.append_nil]

/-- A text without the character is not cut. -/
theorem cutAt_none {c : Char} {t : Text} (h : c ∉ t) : cutAt c t = none := by
  have hall : t.dropWhile (· ≠ c) = [] := by
    rw [List.dropWhile_eq_nil_iff]
    intro d hd
    refine decide_eq_true ?_
    rintro rfl
    exact h hd
  rw [cutAt, hall]

/-- The port is behind the blank, where the host has no colon or more than one. -/
theorem cutPort_blank {host after : Text} (hblank : ' ' ∉ host) (hafter : ':' ∉ after)
    (hhost : ':' ∉ host ∨ ∃ a b, host = a ++ ':' :: b ∧ ':' ∉ a ∧ ':' ∈ b) :
    cutPort (host ++ ' ' :: after) = some (host, after) := by
  rw [cutPort]
  rcases hhost with hnone | ⟨a, b, rfl, hfirst, hsecond⟩
  · have hcolon : ':' ∉ host ++ ' ' :: after := by
      rw [List.mem_append, List.mem_cons]
      rintro (h | h | h)
      · exact hnone h
      · exact absurd h (by decide)
      · exact hafter h
    rw [cutAt_none hcolon]
    exact cutAt_append hblank after
  · have htext : a ++ ':' :: b ++ ' ' :: after = a ++ ':' :: (b ++ ' ' :: after) := by
      rw [List.append_assoc, List.cons_append]
    have hcut := cutAt_append hfirst (b ++ ' ' :: after)
    rw [← htext] at hcut
    rw [hcut]
    dsimp only
    rw [if_pos (List.mem_append_left _ hsecond)]
    exact cutAt_append hblank after

/-- A decimal number is read as itself. -/
theorem leadingNat_digits (n : Nat) : leadingNat (Nat.toDigits 10 n) = n := by
  have hall : ∀ c ∈ Nat.toDigits 10 n, c.isDigit = true :=
    fun c hc => Nat.isDigit_of_mem_toDigits (by decide) (by decide) hc
  rw [leadingNat, List.takeWhile_eq_self_iff.mpr hall, Nat.ofDigitChars_ten_toDigits]

theorem isspace_digit {c : Char} (h : c.isDigit = true) : isspace c = false := by
  have hrange : 48 ≤ c.toNat ∧ c.toNat ≤ 57 := by
    simpa [Char.isDigit, UInt32.le_iff_toNat_le] using h
  have hne : c ≠ ' ' := by
    rintro rfl
    exact absurd h (by decide)
  simp only [isspace, hne, decide_false, Bool.false_or, Bool.and_eq_false_iff,
    decide_eq_false_iff_not]
  omega

/-- A number is read back. -/
theorem atoi_digits (n : Nat) : atoi (Nat.toDigits 10 n) = n := by
  have hnum := leadingNat_digits n
  obtain ⟨c, rest, hdigits⟩ := List.exists_cons_of_ne_nil (Nat.toDigits_ne_nil (n := n) (b := 10))
  have hc : c.isDigit = true :=
    Nat.isDigit_of_mem_toDigits (n := n) (by decide) (by decide) (hdigits ▸ List.mem_cons_self)
  rw [hdigits] at hnum ⊢
  have hminus : c ≠ '-' := by
    rintro rfl
    exact absurd hc (by decide)
  have hplus : c ≠ '+' := by
    rintro rfl
    exact absurd hc (by decide)
  rw [atoi, List.dropWhile_cons_of_neg (by rw [isspace_digit hc]; exact Bool.false_ne_true)]
  split
  · next h => exact absurd (List.cons.inj h).1 hminus
  · next h => exact absurd (List.cons.inj h).1 hplus
  · exact congrArg Nat.cast hnum

/-! ## Reading what was printed -/

/-- A whole address is copied. -/
theorem copyAddr_full {addr : Bytes} (h : addr.length = 16) (v : Vector UInt8 16) :
    (copyAddr addr v).toList = addr := by
  refine List.ext_getElem (by rw [Vector.length_toList, h]) ?_
  intro i hi hi'
  simp only [copyAddr, Vector.getElem_toList, Vector.getElem_ofFn]
  rw [List.getD_eq_getElem?_getD, List.getElem?_eq_getElem hi', Option.getD_some]

/-- The four bytes of an address are the first ones of the copy. -/
theorem copyAddr_four {addr : Bytes} (h : addr.length = 4) (v : Vector UInt8 16) :
    (copyAddr addr v).toList.take 4 = addr := by
  refine List.ext_getElem (by rw [List.length_take, Vector.length_toList, h]; rfl) ?_
  intro i hi hi'
  simp only [List.getElem_take, copyAddr, Vector.getElem_toList, Vector.getElem_ofFn]
  rw [List.getD_eq_getElem?_getD, List.getElem?_eq_getElem hi', Option.getD_some]

theorem htons_ne_zero {w : UInt16} (h : w ≠ 0) : htons w ≠ 0 := by
  intro hzero
  refine h ?_
  have hback := htons_htons w
  rw [hzero] at hback
  exact hback.symm

/-- A decimal number has digits only. -/
theorem not_mem_digits {c : Char} (h : c.isDigit = false) (n : Nat) : c ∉ Nat.toDigits 10 n := by
  intro hc
  rw [Nat.isDigit_of_mem_toDigits (by decide) (by decide) hc] at h
  cases h

/-- The host is cut off, where it and the blank are within what is copied of the text. -/
theorem cutPort_text {host digits : Text} (hfits : host.length < maxHostNameLen)
    (hblank : ' ' ∉ host)
    (hdigits : ':' ∉ digits)
    (hhost : ':' ∉ host ∨ ∃ a b, host = a ++ ':' :: b ∧ ':' ∉ a ∧ ':' ∈ b) :
    cutPort ((host ++ ' ' :: digits).take maxHostNameLen) =
      some (host, digits.take (maxHostNameLen - host.length - 1)) := by
  obtain ⟨room, hroom⟩ := Nat.exists_eq_add_of_lt hfits
  have htake : (host ++ ' ' :: digits).take maxHostNameLen = host ++ ' ' ::
      digits.take (maxHostNameLen - host.length - 1) := by
    rw [List.take_append, List.take_of_length_le (Nat.le_of_lt hfits), hroom]
    have hleft : host.length + room + 1 - host.length = room + 1 := by omega
    rw [hleft, List.take_succ_cons]
    rfl
  rw [htake]
  exact cutPort_blank hblank (fun h => hdigits (List.mem_of_mem_take h)) hhost

section Init

variable {shresolve : Text → Option (AddrType × Bytes)} {host digits : Text}

/-- A host that is not found is taken for the local one. -/
theorem shpeerInit_none (getservbyname : Text → Option UInt16) (appname : Text)
    (hfits : host.length < maxHostNameLen)
    (hblank : ' ' ∉ host) (hdigits : ':' ∉ digits)
    (hhost : ':' ∉ host ∨ ∃ a b, host = a ++ ':' :: b ∧ ':' ∉ a ∧ ':' ∈ b)
    (hnone : shresolve host = none) :
    (shpeerInit shresolve getservbyname appname (some (host ++ ' ' :: digits))).type =
    .localhost := by
  rw [shpeerInit, shpeerSetHost, Option.map_some, Option.bind_some,
    cutPort_text hfits hblank hdigits hhost]
  show (match shresolve host with
    | none => _
    | some (.inet6, addr) => _
    | some (.inet, addr) => _ : Peer).type = _
  rw [hnone]

/-- A host that is found, with a port that is read to its end. -/
theorem shpeerInit_some (getservbyname : Text → Option UInt16) (appname : Text) {type : AddrType}
    {addr : Bytes}
    {port : UInt16} (hport : port ≠ 0) (hfits : host.length + 6 ≤ maxHostNameLen)
    (hblank : ' ' ∉ host)
    (hhost : ':' ∉ host ∨ ∃ a b, host = a ++ ':' :: b ∧ ':' ∉ a ∧ ':' ∈ b)
    (hsome : shresolve host = some (type, addr)) : ∃ label,
      shpeerInit shresolve getservbyname appname
        (some (host ++ ' ' :: Nat.toDigits 10 port.toNat)) =
        { type := type.peerType
          sinPort := htons port
          sinAddr := copyAddr addr (Vector.replicate 16 0)
          label } := by
  have hcut :=
    cutPort_text (by omega) hblank (not_mem_digits (c := ':') (by decide) port.toNat) hhost
  have hlen : (Nat.toDigits 10 port.toNat).length ≤ maxHostNameLen - host.length - 1 := by
    have hfive : (Nat.toDigits 10 port.toNat).length ≤ 5 :=
      (Nat.length_toDigits_le_iff (by decide) (by decide)).mpr
        (lt_of_lt_of_le port.toNat_lt (by decide))
    omega
  rw [List.take_of_length_le hlen] at hcut
  have hnum : (port.toNat : Int) ≠ 0 := by
    intro h
    exact hport (UInt16.toNat_inj.mp (by exact_mod_cast h))
  refine ⟨shpeerSetApp appname, ?_⟩
  rw [shpeerInit, shpeerSetHost, Option.map_some, Option.bind_some, hcut]
  simp only [Option.map_some, Option.getD_some, atoi_digits, if_neg hnum]
  have hback : UInt16.ofInt port.toNat = port := by
    have hlt := port.toNat_lt
    have hmod : ((port.toNat : Int) % 2 ^ 16).toNat = port.toNat := by omega
    rw [UInt16.ofInt, hmod, UInt16.ofNat_toNat]
  have hfound : (some host <|> some
      (List.take maxHostNameLen (host ++ ' ' :: Nat.toDigits 10 port.toNat))).bind shresolve =
      some (type, addr) := hsome
  rw [hfound, hback]
  cases type with
  | inet => rfl
  | inet6 => rfl

end Init

/-! ## The hosts -/

/-- A dotted address has digits and dots only. -/
theorem not_mem_inetNtoa {c : Char} (hdigit : c.isDigit = false) (hdot : c ≠ '.') (addr : Bytes) :
    c ∉ inetNtoa addr := by
  rw [inetNtoa]
  induction addr with
  | nil => exact List.not_mem_nil
  | cons b addr ih =>
    cases addr with
    | nil =>
      rw [List.map_singleton, List.intercalate_singleton]
      exact not_mem_digits hdigit b.toNat
    | cons b' addr =>
      rw [List.map_cons, List.map_cons, List.intercalate_cons_cons]
      intro h
      rcases List.mem_append.mp h with h | h
      · rcases List.mem_append.mp h with h | h
        · exact not_mem_digits hdigit b.toNat h
        · exact hdot (List.mem_singleton.mp h)
      · exact ih h

/-- A dotted address has at most four characters for a byte. -/
theorem length_inetNtoa (addr : Bytes) : (inetNtoa addr).length ≤ 4 * addr.length := by
  rw [inetNtoa]
  induction addr with
  | nil => exact Nat.le_refl _
  | cons b addr ih =>
    have hb : (Nat.toDigits 10 b.toNat).length ≤ 3 :=
      (Nat.length_toDigits_le_iff (by decide) (by decide)).mpr
        (lt_of_lt_of_le b.toNat_lt (by decide))
    cases addr with
    | nil =>
      rw [List.map_singleton, List.intercalate_singleton, List.length_singleton]
      omega
    | cons b' addr =>
      rw [List.map_cons, List.map_cons, List.intercalate_cons_cons, List.length_append,
        List.length_append, List.length_singleton, List.length_cons]
      rw [List.map_cons] at ih
      omega

/-- A group of two bytes has four digits, and six more for each byte with a sign. -/
theorem length_ipv6Text (n : Nat) : ∀ {addr : Bytes}, addr.length = 2 * (n + 1) →
    ∃ signs, (ipv6Text addr).length = 5 * n + 4 + 6 * signs ∧
      ((∀ b ∈ addr, b < 128) → signs = 0) := by
  have hbyte : ∀ b : UInt8, ∃ signs, (hex02 b).length = 2 + 6 * signs ∧ (b < 128 → signs = 0) := by
    intro b
    rw [hex02_eq]
    by_cases hb : b < 128
    · exact ⟨0, by rw [if_pos hb]; rfl, fun _ => rfl⟩
    · exact ⟨1, by rw [if_neg hb]; rfl, fun h => absurd h hb⟩
  induction n with
  | zero =>
    intro addr hlen
    obtain ⟨a, b, rfl⟩ := List.length_eq_two.mp hlen
    obtain ⟨ka, ha, hka⟩ := hbyte a
    obtain ⟨kb, hb, hkb⟩ := hbyte b
    refine ⟨ka + kb, ?_, ?_⟩
    · rw [ipv6Text, List.length_append, ha, hb]
      omega
    · intro h
      rw [hka (h a List.mem_cons_self), hkb (h b (List.mem_cons_of_mem _ List.mem_cons_self))]
  | succ n ih =>
    intro addr hlen
    obtain ⟨a, b, rest, rfl⟩ := two_bytes addr (by omega)
    have hrest : rest.length = 2 * (n + 1) := by
      rw [List.length_cons, List.length_cons] at hlen
      omega
    obtain ⟨ka, ha, hka⟩ := hbyte a
    obtain ⟨kb, hb, hkb⟩ := hbyte b
    obtain ⟨k, hk, hkrest⟩ := ih hrest
    refine ⟨ka + kb + k, ?_, ?_⟩
    · rw [ipv6Text_cons a b (List.ne_nil_of_length_pos (by omega)), List.length_append,
        List.length_append, List.length_cons, ha, hb, hk]
      omega
    · intro h
      rw [hka (h a List.mem_cons_self), hkb (h b (List.mem_cons_of_mem _ List.mem_cons_self)),
        hkrest fun c hc => h c (List.mem_cons_of_mem _ (List.mem_cons_of_mem _ hc))]

/-- What is no hexadecimal digit is not in a printed byte. -/
theorem not_mem_hex02 {c : Char} (h : c ∉ "0123456789abcdef".toList) (b : UInt8) : c ∉ hex02 b :=
  fun hc => h (mem_hex02 hc)

/-- More than one colon is in the text of an IPv6 address. -/
theorem ipv6Text_colons {addr : Bytes} (h : addr.length = 16) :
    ∃ a b, ipv6Text addr = a ++ ':' :: b ∧ ':' ∉ a ∧ ':' ∈ b := by
  obtain ⟨b₁, b₂, rest, rfl⟩ := two_bytes addr (by omega)
  rw [List.length_cons, List.length_cons] at h
  obtain ⟨b₃, b₄, rest', rfl⟩ := two_bytes rest (by omega)
  rw [List.length_cons, List.length_cons] at h
  refine ⟨hex02 b₁ ++ hex02 b₂, hex02 b₃ ++ (hex02 b₄ ++ ':' :: ipv6Text rest'), ?_, ?_, ?_⟩
  · rw [ipv6Text_cons _ _ (List.cons_ne_nil _ _),
      ipv6Text_cons _ _ (List.ne_nil_of_length_pos (by omega)), List.append_assoc]
  · rw [List.mem_append]
    rintro (hc | hc)
    · exact not_mem_hex02 (by decide) b₁ hc
    · exact not_mem_hex02 (by decide) b₂ hc
  · exact List.mem_append_right _ (List.mem_append_right _ List.mem_cons_self)

/-! ## The round trip -/

/-- Both have the address and the port, and are of one kind. -/
def Peer.Same (peer peer' : Peer) : Prop :=
  peer.type = peer'.type ∧ peer.address = peer'.address ∧ peer.port = peer'.port

instance (peer peer' : Peer) : Decidable (peer.Same peer') :=
  inferInstanceAs (Decidable (_ ∧ _ ∧ _))

/-- The text of an IPv4 or IPv6 peer: a host without a blank, with no colon or with two of them. -/
theorem host_form (peer : Peer) : ' ' ∉ (shpeerHost peer).1 ∧
    (peer.type ≠ .ipv6 → ':' ∉ (shpeerHost peer).1) ∧
    (peer.type = .ipv6 → ∃ a b, (shpeerHost peer).1 = a ++ ':' :: b ∧ ':' ∉ a ∧ ':' ∈ b) := by
  have hv4 : peer.type ≠ .ipv6 → (shpeerHost peer).1 = inetNtoa (peer.sinAddr.toList.take 4) := by
    intro htype
    rw [shpeerHost]
    split
    · next h => exact absurd h htype
    · rfl
  have hv6 : peer.type = .ipv6 → (shpeerHost peer).1 = ipv6Text peer.sinAddr.toList := by
    intro htype
    rw [shpeerHost, htype]
  refine ⟨?_, ?_, ?_⟩
  · by_cases htype : peer.type = .ipv6
    · rw [hv6 htype]
      intro h
      rcases mem_ipv6Text h with h | h
      · exact absurd h (by decide)
      · exact absurd h (by decide)
    · rw [hv4 htype]
      exact not_mem_inetNtoa (by decide) (by decide) _
  · intro htype
    rw [hv4 htype]
    exact not_mem_inetNtoa (by decide) (by decide) _
  · intro htype
    rw [hv6 htype]
    exact ipv6Text_colons peer.sinAddr.length_toList

/-- The text of a peer is its host, a blank, and its port. -/
theorem peerText_eq {peer : Peer} {t : Text} (h : peerText peer = some t) :
    (shpeerHost peer).1.length ≤ maxHostNameLen ∧
    t = (shpeerHost peer).1 ++ ' ' :: Nat.toDigits 10 peer.port.toNat := by
  have hport : (shpeerHost peer).2 = peer.port.toNat := by
    rw [shpeerHost]
    split <;> rfl
  rw [peerText] at h
  simp only [hport] at h
  split at h
  · next hfits => exact ⟨hfits, (Option.some.inj h).symm⟩
  · cases h

/-- Different numbers have different digits. -/
theorem toDigits_inj {m n : Nat} (h : Nat.toDigits 10 m = Nat.toDigits 10 n) : m = n := by
  rw [← leadingNat_digits m, h, leadingNat_digits]

/-- Peers with one text are the same. -/
theorem peerText_same (R : Resolver) {peer peer' : Peer} {t : Text} (htype : peer.type ≠ .localhost)
    (htype' : peer'.type ≠ .localhost) (h : peerText peer = some t) (h' : peerText peer' = some t) :
    peer.Same peer' := by
  obtain ⟨-, ht⟩ := peerText_eq h
  obtain ⟨-, ht'⟩ := peerText_eq h'
  obtain ⟨hblank, hv4, hv6⟩ := host_form peer
  obtain ⟨hblank', hv4', hv6'⟩ := host_form peer'
  -- both texts are cut at their one blank
  have hcut := cutAt_append hblank (Nat.toDigits 10 peer.port.toNat)
  rw [← ht, ht', cutAt_append hblank'] at hcut
  have hboth := Option.some.inj hcut
  have hhost : (shpeerHost peer').1 = (shpeerHost peer).1 := (Prod.mk.inj hboth).1
  have hport : peer.port = peer'.port :=
    UInt16.toNat_inj.mp (toDigits_inj (Prod.mk.inj hboth).2).symm
  have hcolon : peer.type = .ipv6 ↔ peer'.type = .ipv6 := by
    have hin : ∀ {u a b : Text}, u = a ++ ':' :: b → ':' ∈ u := by
      rintro u a b rfl
      exact List.mem_append_right _ List.mem_cons_self
    constructor
    · intro hsix
      by_contra hne
      obtain ⟨a, b, hsplit, -, -⟩ := hv6 hsix
      exact hv4' hne (hhost ▸ hin hsplit)
    · intro hsix
      by_contra hne
      obtain ⟨a, b, hsplit, -, -⟩ := hv6' hsix
      exact hv4 hne (hhost ▸ hin hsplit)
  obtain ⟨type, sinPort, sinAddr, label⟩ := peer
  obtain ⟨type', sinPort', sinAddr', label'⟩ := peer'
  cases type with
  | localhost => exact absurd rfl htype
  | ipv4 =>
    cases type' with
    | localhost => exact absurd rfl htype'
    | ipv6 => exact absurd (hcolon.mpr rfl) nofun
    | ipv4 =>
      have hlen : (sinAddr.toList.take 4).length = 4 := by simp
      have hlen' : (sinAddr'.toList.take 4).length = 4 := by simp
      have hfound := R.inet _ hlen
      have hsame : inetNtoa (sinAddr'.toList.take 4) = inetNtoa (sinAddr.toList.take 4) := hhost
      rw [← hsame, R.inet _ hlen'] at hfound
      exact ⟨rfl, (congrArg Prod.snd (Option.some.inj hfound)).symm, hport⟩
  | ipv6 =>
    cases type' with
    | localhost => exact absurd rfl htype'
    | ipv4 => exact absurd (hcolon.mp rfl) nofun
    | ipv6 =>
      exact ⟨rfl, (ipv6Text_inj 7 sinAddr'.length_toList sinAddr.length_toList hhost).symm, hport⟩

section Trip

variable (R : Resolver) (getservbyname : Text → Option UInt16)

/-- The text of the peer is one, and reading it gives the peer back under every label. -/
def ReadBack (peer : Peer) : Prop :=
  ∃ t, peerText peer = some t ∧ ∀ appname,
    (shpeerInit R.resolve getservbyname appname (some t)).Same peer

/-- The port is not zero in either byte order. -/
theorem port_ne_zero {peer : Peer} (h : peer.sinPort ≠ 0) : peer.port ≠ 0 := htons_ne_zero h

/-- A host that is found is read back with its address. -/
theorem readBack_found {peer : Peer} {type : AddrType} {addr : Bytes} (hport : peer.sinPort ≠ 0)
    (hfits : (shpeerHost peer).1.length + 6 ≤ maxHostNameLen)
    (hfound : R.resolve (shpeerHost peer).1 = some (type, addr))
    (htype : peer.type = type.peerType)
    (haddr : type.peerType.address (copyAddr addr (Vector.replicate 16 0)) = peer.address) :
    ReadBack R getservbyname peer := by
  obtain ⟨hblank, hv4, hv6⟩ := host_form peer
  have hform : ':' ∉ (shpeerHost peer).1 ∨ ∃ a b, (shpeerHost peer).1 = a ++ ':' :: b ∧ ':' ∉ a ∧
      ':' ∈ b := by
    by_cases hsix : peer.type = .ipv6
    · exact Or.inr (hv6 hsix)
    · exact Or.inl (hv4 hsix)
  have hsnd : (shpeerHost peer).2 = peer.port.toNat := by
    rw [shpeerHost]
    split <;> rfl
  refine ⟨(shpeerHost peer).1 ++ ' ' :: Nat.toDigits 10 peer.port.toNat, ?_, ?_⟩
  · rw [peerText]
    simp only [hsnd]
    rw [if_pos (by omega)]
  · intro appname
    obtain ⟨label, hinit⟩ :=
      shpeerInit_some getservbyname appname (port_ne_zero hport) hfits hblank hform hfound
    rw [hinit]
    exact ⟨htype.symm, haddr, htons_htons peer.port⟩

/-- Every peer with an address of four bytes is read back. -/
theorem readBack_ipv4 {peer : Peer} (htype : peer.type = .ipv4) (hport : peer.sinPort ≠ 0) :
    ReadBack R getservbyname peer := by
  have hlen : (peer.sinAddr.toList.take 4).length = 4 := by simp
  have hhost : (shpeerHost peer).1 = inetNtoa (peer.sinAddr.toList.take 4) := by
    rw [shpeerHost, htype]
  have hfits := length_inetNtoa (peer.sinAddr.toList.take 4)
  rw [hlen] at hfits
  have hfound := R.inet _ hlen
  rw [← hhost] at hfound
  refine readBack_found R getservbyname hport ?_ hfound htype ?_
  · rw [hhost, maxHostNameLen]
    omega
  · rw [Peer.address, htype]
    exact copyAddr_four hlen _

/-- A peer with an address of sixteen bytes is read back if all of them are below 128. -/
theorem readBack_ipv6 {peer : Peer} (htype : peer.type = .ipv6) (hport : peer.sinPort ≠ 0)
    (hlow : ∀ b ∈ peer.sinAddr.toList, b < 128) : ReadBack R getservbyname peer := by
  have hlen : peer.sinAddr.toList.length = 16 := peer.sinAddr.length_toList
  have hhost : (shpeerHost peer).1 = ipv6Text peer.sinAddr.toList := by rw [shpeerHost, htype]
  have hfound := R.inet6 _ hlen
  rw [← ipv6Text_standard _ hlow, ← hhost] at hfound
  obtain ⟨signs, hsigns, hzero⟩ := length_ipv6Text 7 hlen
  rw [hzero hlow] at hsigns
  refine readBack_found R getservbyname hport ?_ hfound htype ?_
  · rw [hhost, hsigns, maxHostNameLen]
    decide
  · rw [Peer.address, htype]
    exact copyAddr_full hlen _

/-- The digits of a byte with a sign are too many for a group of them, so that no host is found. -/
theorem readBack_sign {peer : Peer} (htype : peer.type = .ipv6) {b : UInt8}
    (hb : b ∈ peer.sinAddr.toList)
    (hsign : ¬ b < 128) : ¬ ReadBack R getservbyname peer := by
  rintro ⟨t, ht, hread⟩
  obtain ⟨hfits, rfl⟩ := peerText_eq ht
  obtain ⟨hblank, -, hv6⟩ := host_form peer
  have hhost : (shpeerHost peer).1 = ipv6Text peer.sinAddr.toList := by rw [shpeerHost, htype]
  have hlen : peer.sinAddr.toList.length = 16 := peer.sinAddr.length_toList
  obtain ⟨signs, hsigns, -⟩ := length_ipv6Text 7 hlen
  have hroom : (shpeerHost peer).1.length < maxHostNameLen := by
    rw [hhost, hsigns, maxHostNameLen] at hfits ⊢
    omega
  have hnone : R.resolve (shpeerHost peer).1 = none := by
    refine R.groups _ (hex02 b) ?_ ?_ ?_ (fun c => mem_hex02) ?_
    · obtain ⟨a, c, hsplit, -, -⟩ := hv6 htype
      rw [hsplit]
      exact List.mem_append_right _ List.mem_cons_self
    · rw [hhost]
      intro h
      rcases mem_ipv6Text h with h | h
      · exact absurd h (by decide)
      · exact absurd h (by decide)
    · rw [hhost]
      exact hex02_infix hb (by rw [hlen])
    · have height : (hex02 b).length = 8 := by rw [hex02_eq, if_neg hsign]; rfl
      omega
  have hlocal :=
    shpeerInit_none getservbyname [] hroom hblank
      (not_mem_digits (c := ':') (by decide) peer.port.toNat)
    (Or.inr (hv6 htype)) hnone
  have hsame := (hread []).1
  rw [hlocal, htype] at hsame
  cases hsame

end Trip

/-- The text of an IPv4 or IPv6 peer is read back, and is that of no other peer, just when
it is IPv4 or has no byte from 128 on. -/
theorem peerText_iff (R : Resolver) (getservbyname : Text → Option UInt16) (peer : Peer)
    (htype : peer.type ≠ .localhost) (hport : peer.sinPort ≠ 0) :
    (ReadBack R getservbyname peer ∧ ∀ peer' t, peer'.type ≠ .localhost → peerText peer = some t →
        peerText peer' = some t → peer.Same peer') ↔
      (peer.type = .ipv6 → ∀ b ∈ peer.sinAddr.toList, b < 128) := by
  constructor
  · rintro ⟨hread, -⟩ hsix b hb
    by_contra hsign
    exact readBack_sign R getservbyname hsix hb hsign hread
  · intro hlow
    refine ⟨?_, fun peer' t htype' h h' => peerText_same R htype htype' h h'⟩
    by_cases hsix : peer.type = .ipv6
    · exact readBack_ipv6 R getservbyname hsix hport (hlow hsix)
    · have hfour : peer.type = .ipv4 := by
        cases hkind : peer.type with
        | localhost => exact absurd hkind htype
        | ipv4 => rfl
        | ipv6 => exact absurd hkind hsix
      exact readBack_ipv4 R getservbyname hfour hport

/-! ## A look-up of address texts -/

/-- Every two digits are a byte. -/
def unhex : Text → Bytes
  | a :: b :: t =>
    UInt8.ofNat (16 * "0123456789abcdef".toList.idxOf a +
      "0123456789abcdef".toList.idxOf b) :: unhex t
  | _ => []

/-- The text of an address of either kind is read, and nothing else is. -/
def lookUp (t : Text) : Option (AddrType × Bytes) :=
  let four := (t.splitOn '.').map fun digits => UInt8.ofNat (leadingNat digits)
  let sixteen := unhex (t.filter (· ≠ ':'))
  if four.length = 4 ∧ inetNtoa four = t then some (.inet, four)
  else if sixteen.length = 16 ∧ ipv6Standard sixteen = t then some (.inet6, sixteen)
  else none

/-- A dotted address is read as its bytes. -/
theorem bytes_inetNtoa {addr : Bytes} (h : addr.length = 4) :
    ((inetNtoa addr).splitOn '.').map (fun digits => UInt8.ofNat (leadingNat digits)) = addr := by
  rw [inetNtoa, List.splitOn_intercalate, List.map_map]
  · refine (List.map_congr_left ?_).trans (List.map_id addr)
    intro b _
    rw [Function.comp_apply, leadingNat_digits, UInt8.ofNat_toNat, id]
  · intro digits hdigits
    obtain ⟨b, -, rfl⟩ := List.mem_map.mp hdigits
    exact not_mem_digits (by decide) b.toNat
  · intro hnil
    rw [List.map_eq_nil_iff.mp hnil] at h
    cases h

/-- The two digits of a byte are read as the byte. -/
theorem unhex_hexPair (b : UInt8) (t : Text) : unhex (hexPair b ++ t) = b :: unhex t := by
  have hbyte : ∀ b : UInt8,
      UInt8.ofNat (16 * "0123456789abcdef".toList.idxOf (Nat.digitChar (b.toNat / 16)) +
      "0123456789abcdef".toList.idxOf (Nat.digitChar (b.toNat % 16))) = b :=
    forall_byte (by decide +kernel)
  exact congrArg (· :: unhex t) (hbyte b)

theorem filter_hexPair (b : UInt8) : (hexPair b).filter (· ≠ ':') = hexPair b := by
  refine List.filter_eq_self.mpr ?_
  intro c hc
  refine decide_eq_true ?_
  rintro rfl
  exact absurd (mem_hexPair b _ hc) (by decide)

/-- The standard text of an address is read as its bytes. -/
theorem unhex_ipv6Standard {addr : Bytes} (h : addr.length % 2 = 0) :
    unhex ((ipv6Standard addr).filter (· ≠ ':')) = addr := by
  fun_induction ipv6Standard addr with
  | case1 a b =>
    rw [List.filter_append, filter_hexPair, filter_hexPair, unhex_hexPair]
    have hlast := unhex_hexPair b []
    rw [List.append_nil] at hlast
    rw [hlast]
    rfl
  | case2 a b addr hne ih =>
    rw [List.filter_append, List.filter_append, filter_hexPair, filter_hexPair, List.append_assoc,
      unhex_hexPair, unhex_hexPair, List.filter_cons_of_neg (by decide)]
    rw [ih (by rw [List.length_cons, List.length_cons] at h; omega)]
  | case3 addr h1 h2 =>
    rcases addr with _ | ⟨a, _ | ⟨c, rest⟩⟩
    · rfl
    · cases h
    · cases rest with
      | nil => exact absurd rfl (h1 a c)
      | cons d rest => exact absurd rfl (h2 a c _)

/-- The standard text of an address has a colon. -/
theorem standard_colon {addr : Bytes} (h : addr.length = 16) : ':' ∈ ipv6Standard addr := by
  obtain ⟨a, b, rest, rfl⟩ := two_bytes addr (by omega)
  rw [ipv6Standard]
  · exact List.mem_append_right _ List.mem_cons_self
  · rintro rfl
    cases h

/-- What does not have the character is on one side of it. -/
theorem infix_cons_split {digits u v : Text} {c : Char} (h : digits <:+: u ++ c :: v)
    (hc : c ∉ digits) :
    digits <:+: u ∨ digits <:+: v := by
  obtain ⟨s, t, hst⟩ := h
  rcases List.append_eq_append_iff.mp hst with ⟨w, hu, -⟩ | ⟨w, hw, hv⟩
  · exact Or.inl ⟨s, w, hu.symm⟩
  · rcases w with _ | ⟨d, w⟩
    · rw [List.append_nil] at hw
      exact Or.inl (hw ▸ (List.suffix_append _ _).isInfix)
    · obtain ⟨rfl, rfl⟩ := List.cons.inj hv
      rcases List.append_eq_append_iff.mp hw with ⟨x, -, hx⟩ | ⟨x, -, hx⟩
      · exact absurd (hx ▸ List.mem_append_right _ List.mem_cons_self) hc
      · rcases x with _ | ⟨d, x⟩
        · rw [List.nil_append] at hx
          exact absurd (hx ▸ List.mem_cons_self) hc
        · obtain ⟨-, rfl⟩ := List.cons.inj hx
          exact Or.inr ⟨x, t, rfl⟩

/-- No more than four digits stand together. -/
theorem standard_groups {addr : Bytes} {digits : Text} (h : digits <:+: ipv6Standard addr)
    (hc : ':' ∉ digits) :
    digits.length ≤ 4 := by
  fun_induction ipv6Standard addr with
  | case1 a b => exact h.length_le
  | case2 a b addr hne ih =>
    rcases infix_cons_split h hc with h | h
    · exact h.length_le
    · exact ih h
  | case3 addr h1 h2 => exact h.length_le.trans (Nat.zero_le _)

/-- The look-up has what is standard. -/
def addressTexts : Resolver where
  resolve := lookUp
  inet addr h := by
    simp only [lookUp, bytes_inetNtoa h, h, and_self, if_true]
  inet6 addr h := by
    have hfour : ∀ four, ¬ (four.length = 4 ∧ inetNtoa four = ipv6Standard addr) := by
      rintro four ⟨-, hsame⟩
      exact not_mem_inetNtoa (by decide) (by decide) four (hsame ▸ standard_colon h)
    simp only [lookUp, if_neg (hfour _), @unhex_ipv6Standard addr (by rw [h]), h, and_self, if_true]
  groups t digits hcolon hzone hdigits hhex hlong := by
    have hnot : ':' ∉ digits := fun hc => absurd (hhex _ hc) (by decide)
    have hfour : ∀ four, ¬ (four.length = 4 ∧ inetNtoa four = t) := by
      rintro four ⟨-, rfl⟩
      exact not_mem_inetNtoa (by decide) (by decide) four hcolon
    have hsixteen : ∀ sixteen, ¬ (sixteen.length = 16 ∧ ipv6Standard sixteen = t) := by
      rintro sixteen ⟨-, rfl⟩
      exact absurd (standard_groups hdigits hnot) (Nat.not_le_of_lt hlong)
    simp only [lookUp, if_neg (hfour _), if_neg (hsixteen _)]

/-- The peer of an IPv4 address, with port 80. -/
def peerV4 : Peer :=
  { type := .ipv4
    sinPort := htons 80
    sinAddr := copyAddr [192, 168, 0, 1] (Vector.replicate 16 0)
    label := [] }

/-- The peer of `fe80::1`, with port 80. -/
def peerV6 : Peer :=
  { type := .ipv6, sinPort := htons 80
    sinAddr :=
      copyAddr [0xfe, 0x80, 0, 0, 0, 0, 0, 0, 0, 0, 0, 0, 0, 0, 0, 1] (Vector.replicate 16 0),
        label := [] }

/-- The text of an IPv4 peer is read back, and is its own. -/
theorem peerV4_text :
    (ReadBack addressTexts (fun _ => none) peerV4 ∧ ∀ peer' t, peer'.type ≠ .localhost →
    peerText peerV4 = some t → peerText peer' = some t → peerV4.Same peer') :=
  (peerText_iff addressTexts (fun _ => none) peerV4 (by decide) (by decide)).mpr nofun

/-- The first byte of `fe80::1` is printed as `fffffffe`, and no host is found for the text. -/
theorem peerV6_lost :
    peerText peerV6 = some "fffffffeffffff80:0000:0000:0000:0000:0000:0000:0001 80".toList ∧
      ¬ ReadBack addressTexts (fun _ => none) peerV6 := by
  constructor
  · decide +kernel
  · exact readBack_sign addressTexts _ rfl (b := 0xfe) (by decide) (by decide)

end LibShare.Net
