import Mathlib.Data.List.Basic
import RedB.Theory.Patterns
import RedB.Tran.Text

/-!
# The host of an account

A client may log in to an account if its address is in the subnet that the account's host names, an
address with the length of a prefix behind it. The address is read by `inet_pton`, the length by
`std::stoi`, and the addresses are compared under a mask of that length, in the order of the network.

An address without a prefix is never compared: `std::stoi` throws. With a prefix the answer is right
if and only if there is nothing to compare or `inet_pton` reads the address (`inSubnet_iff`).
-/

namespace RedB.Comm

open Patterns Patterns.Pattern

/-! ### The pattern of an address -/

def digit : Pattern := range '0' '9'

/-- `25[0-5]|2[0-4][0-9]|[01]?[0-9][0-9]?` -/
def octet : Pattern :=
  alt (seq (lit '2') (seq (lit '5') (range '0' '5')))
    (alt (seq (lit '2') (seq (range '0' '4') digit)) (seq (opt (range '0' '1')) (seq digit (opt digit))))

/-- `[0-9]|[1-2][0-9]|3[0-2]` -/
def prefixNumber : Pattern :=
  alt digit (alt (seq (range '1' '2') digit) (seq (lit '3') (range '0' '2')))

/-- `comm::IP4_ADDR_REGEX`, the address -/
def dotted : Pattern :=
  seq octet (seq (lit '.') (seq octet (seq (lit '.') (seq octet (seq (lit '.') octet)))))

/-- `comm::IP4_ADDR_REGEX` -/
def IP4_ADDR_REGEX : Pattern := seq dotted (opt (group 1 (seq (lit '/') (group 2 prefixNumber))))

/-! ### The comparison -/

/-- What `conn::in_subnet` throws. -/
inductive SubnetError where
  | outOfRange
  | invalidArgument
  /-- `ERRNO_CIDR_ERROR` -/
  | cidr
  deriving DecidableEq

/-- `std::smatch::str`: empty if the group has not matched. -/
def str (gs : Groups) (n : ℕ) : Text := (gs.lookup n).getD []

/-- `text.erase(text.find(sub))` -/
def eraseFind (sub : Text) : Text → Except SubnetError Text
  | [] => if sub = [] then .ok [] else .error .outOfRange
  | c :: cs => if sub.isPrefixOf (c :: cs) then .ok [] else (eraseFind sub cs).map (c :: ·)

/-- `htonl`, which turns the four bytes around. -/
def htonl (x : BitVec 32) : BitVec 32 :=
  x.extractLsb' 0 8 ++ x.extractLsb' 8 8 ++ x.extractLsb' 16 8 ++ x.extractLsb' 24 8

/-- The loop of the mask, downwards from bit `i`. -/
def maskBits : ℕ → ℕ → BitVec 32 → BitVec 32
  | 0, _, mask => mask
  | cidr + 1, i, mask => maskBits cidr (i - 1) (mask ||| (0xFFFFFFFF#32 &&& 1#32 <<< i))

-- `inet_pton`, with the bytes in memory, and whether the client's name, of `getnameinfo`, is this one
variable (inetPton : Text → Option (BitVec 32)) (hostName : Text → Bool)

/-- `conn::in_subnet`. What is in memory where the host's address goes is `host`, the client's address
is `cliAddr`. -/
def inSubnet (host cliAddr : BitVec 32) (name : Text) : Except SubnetError Bool :=
  match IP4_ADDR_REGEX.wholeMatch name with
  | some addrMatch =>
    -- the whole match counts as a group
    if 1 + IP4_ADDR_REGEX.groups = 3 then do
      let hostText ← eraseFind (str addrMatch 1) name
      let host := (inetPton hostText).getD host
      match stoi (str addrMatch 2) with
      | none => throw .invalidArgument
      | some cidr =>
        if cidr < 0 ∨ cidr > 32 then throw .cidr
        else
          let mask := htonl (maskBits cidr.toNat 31 0)
          return host &&& mask = cliAddr &&& mask
    else return host &&& 0 = cliAddr &&& 0
  | none => return hostName name

/-! ### What a name says -/

/-- The address in a name. -/
def addressText (name : Text) : Text := name.takeWhile (· ≠ '/')

/-- The length of the prefix, all bits if there is none. -/
def prefixLength (name : Text) : ℕ :=
  match name.dropWhile (· ≠ '/') with
  | [] => 32
  | _ :: number => Nat.ofDigitChars 10 number 0

/-- The address that numbers with dots between them write. -/
def address (text : Text) : BitVec 32 :=
  (text.splitOn '.').foldl (fun a number => a * 256 + BitVec.ofNat 32 (Nat.ofDigitChars 10 number 0)) 0

/-- The addresses have the same first bits. -/
def SameBits (n : ℕ) (a b : BitVec 32) : Prop := ∀ i < n, a.getMsbD i = b.getMsbD i

variable {inetPton hostName} {name t number : Text} {gs : Groups} {n : ℕ} {a b : BitVec 32}

/-! ### Matches -/

theorem plain_dotted : dotted.Plain (· ≠ '/') := by
  have hrange : ∀ lo hi : Char, '/' < lo → (range lo hi).Plain (· ≠ '/') := by
    rintro lo hi hlo c hc rfl
    rw [Bool.and_eq_true, decide_eq_true_eq] at hc
    exact absurd hlo (Char.not_lt.mpr hc.1)
  have hlit : ∀ c : Char, c ≠ '/' → (lit c).Plain (· ≠ '/') := fun c hc d hd => (of_decide_eq_true hd) ▸ hc
  have hoctet : octet.Plain (· ≠ '/') :=
    ⟨⟨hlit _ (by decide), hlit _ (by decide), hrange _ _ (by decide)⟩,
      ⟨hlit _ (by decide), hrange _ _ (by decide), hrange _ _ (by decide)⟩,
      hrange _ _ (by decide), hrange _ _ (by decide), hrange _ _ (by decide)⟩
  have hdot := hlit '.' (by decide)
  exact ⟨hoctet, hdot, hoctet, hdot, hoctet, hdot, hoctet⟩

theorem matches_range {lo hi : Char} : (range lo hi).Matches t gs ↔ ∃ c, (lo.toNat ≤ c.toNat ∧ c.toNat ≤ hi.toNat) ∧ t = [c] ∧ gs = [] := by
  simp only [range, matches_char, Bool.and_eq_true, decide_eq_true_eq, Char.le_def, Char.toNat, UInt32.le_iff_toNat_le]

/-- One digit, or two that make no more than 32. -/
theorem matches_prefixNumber (h : prefixNumber.Matches number gs) : gs = [] ∧
    ((∃ c : Char, (48 ≤ c.toNat ∧ c.toNat ≤ 57) ∧ number = [c]) ∨
      ∃ c d : Char, (49 ≤ c.toNat ∧ c.toNat ≤ 51) ∧ (48 ≤ d.toNat ∧ d.toNat ≤ 57) ∧ (c.toNat = 51 → d.toNat ≤ 50) ∧ number = [c, d]) := by
  rw [prefixNumber, matches_alt, matches_alt, matches_seq, matches_seq] at h
  rcases h with h | ⟨s₁, s₂, gs₁, gs₂, h₁, h₂, rfl, rfl⟩ | ⟨s₁, s₂, gs₁, gs₂, h₁, h₂, rfl, rfl⟩
  · obtain ⟨c, hc, rfl, rfl⟩ := matches_range.mp h
    exact ⟨rfl, .inl ⟨c, hc, rfl⟩⟩
  · obtain ⟨c, hc, rfl, rfl⟩ := matches_range.mp h₁
    obtain ⟨d, hd, rfl, rfl⟩ := matches_range.mp h₂
    have hc' : c.toNat ≤ 50 := hc.2
    exact ⟨rfl, .inr ⟨c, d, ⟨hc.1, Nat.le_succ_of_le hc'⟩, hd, fun h => absurd h (by omega), rfl⟩⟩
  · obtain ⟨c, hc, rfl, rfl⟩ := matches_char.mp h₁
    obtain ⟨d, hd, rfl, rfl⟩ := matches_range.mp h₂
    obtain rfl := of_decide_eq_true hc
    exact ⟨rfl, .inr ⟨'3', d, by decide, ⟨hd.1, Nat.le_trans hd.2 (by decide)⟩, fun _ => hd.2, rfl⟩⟩

theorem prefixNumber_digits (h : prefixNumber.Matches number gs) : number ≠ [] ∧ ∀ c ∈ number, c.isDigit = true := by
  rcases (matches_prefixNumber h).2 with ⟨c, hc, rfl⟩ | ⟨c, d, hc, hd, -, rfl⟩
  · exact ⟨nofun, fun e he => List.mem_singleton.mp he ▸ isDigit_iff.mpr hc⟩
  · refine ⟨nofun, fun e he => ?_⟩
    rcases List.mem_pair.mp he with rfl | rfl
    · exact isDigit_iff.mpr ⟨by omega, by omega⟩
    · exact isDigit_iff.mpr hd

theorem prefixNumber_le (h : prefixNumber.Matches number gs) : Nat.ofDigitChars 10 number 0 ≤ 32 := by
  have hzero : '0'.toNat = 48 := rfl
  rcases (matches_prefixNumber h).2 with ⟨c, hc, rfl⟩ | ⟨c, d, hc, hd, hcd, rfl⟩
  · simp only [Nat.ofDigitChars_cons, Nat.ofDigitChars_nil]
    omega
  · simp only [Nat.ofDigitChars_cons, Nat.ofDigitChars_nil]
    omega

/-- An address, and a prefix or none. -/
theorem matches_ip4 (h : IP4_ADDR_REGEX.Matches name gs) : '/' ∉ name ∧ gs = [] ∨
    ∃ t number hs, name = t ++ '/' :: number ∧ '/' ∉ t ∧ gs = [(1, '/' :: number), (2, number)] ∧ prefixNumber.Matches number hs := by
  obtain ⟨t, u, gs₁, gs₂, ht, hu, rfl, rfl⟩ := matches_seq.mp h
  obtain ⟨rfl, hslash⟩ := ht.plain plain_dotted
  have ht' : '/' ∉ t := fun hm => hslash _ hm rfl
  rcases matches_opt.mp hu with hu | ⟨rfl, rfl⟩
  · obtain ⟨hs, hslash', rfl⟩ := matches_group.mp hu
    obtain ⟨s, number, hs₁, hs₂, hs, hnum, rfl, rfl⟩ := matches_seq.mp hslash'
    obtain ⟨c, hc, rfl, rfl⟩ := matches_char.mp hs
    obtain rfl := of_decide_eq_true hc
    obtain ⟨hs, hprefix, rfl⟩ := matches_group.mp hnum
    obtain ⟨rfl, -⟩ := matches_prefixNumber hprefix
    exact .inr ⟨t, number, [], rfl, ht', rfl, hprefix⟩
  · rw [List.append_nil]
    exact .inl ⟨ht', rfl⟩

/-! ### The address and the prefix of a name -/

theorem eraseFind_nil (text : Text) : eraseFind [] text = .ok [] := by
  cases text with
  | nil => rfl
  | cons c cs => rw [eraseFind, List.isPrefixOf, if_pos rfl]

theorem eraseFind_slash (ht : '/' ∉ t) (number : Text) : eraseFind ('/' :: number) (t ++ '/' :: number) = .ok t := by
  induction t with
  | nil =>
    rw [List.nil_append, eraseFind, if_pos (List.isPrefixOf_iff_prefix.mpr (List.prefix_refl _))]
  | cons c cs ih =>
    have hc : ¬(('/' :: number).isPrefixOf (c :: (cs ++ '/' :: number))) = true := by
      rw [List.isPrefixOf_cons_cons, Bool.and_eq_true, beq_iff_eq]
      exact fun h => ht (h.1 ▸ List.mem_cons_self)
    rw [List.cons_append, eraseFind, if_neg hc, ih fun hm => ht (List.mem_cons_of_mem _ hm)]
    rfl

theorem takeWhile_slash (ht : '/' ∉ t) (number : Text) : addressText (t ++ '/' :: number) = t := by
  rw [addressText, List.takeWhile_append_of_pos fun c hc => decide_eq_true (ne_of_mem_of_not_mem hc ht), List.takeWhile_cons_of_neg (by decide),
    List.append_nil]

theorem prefixLength_slash (ht : '/' ∉ t) (number : Text) : prefixLength (t ++ '/' :: number) = Nat.ofDigitChars 10 number 0 := by
  rw [prefixLength, List.dropWhile_append_of_pos fun c hc => decide_eq_true (ne_of_mem_of_not_mem hc ht), List.dropWhile_cons_of_neg (by decide)]

/-! ### Masks -/

theorem htonl_and (a b : BitVec 32) : htonl (a &&& b) = htonl a &&& htonl b := by
  rw [htonl, htonl, htonl, BitVec.and_append, BitVec.and_append, BitVec.and_append]
  simp only [BitVec.extractLsb'_and]

theorem htonl_htonl (a : BitVec 32) : htonl (htonl a) = a := by
  apply BitVec.eq_of_getLsbD_eq
  intro i hi
  simp only [htonl, BitVec.getLsbD_append, BitVec.getLsbD_extractLsb']
  grind

theorem htonl_inj : htonl a = htonl b ↔ a = b :=
  ⟨fun h => by rw [← htonl_htonl a, h, htonl_htonl], fun h => h ▸ rfl⟩

/-- The bits of the mask, downwards from bit `i`. -/
theorem getLsbD_maskBits {cidr i : ℕ} (hi : i < 32) (hc : cidr ≤ i + 1) (mask : BitVec 32) (j : ℕ) :
    (maskBits cidr i mask).getLsbD j = (mask.getLsbD j || decide (j ≤ i ∧ i < j + cidr)) := by
  induction cidr generalizing i mask with
  | zero => rw [maskBits, decide_eq_false (by omega), Bool.or_false]
  | succ cidr ih =>
    have hbit : (0xFFFFFFFF#32 &&& 1#32 <<< i).getLsbD j = decide (j = i) := by
      rw [show 0xFFFFFFFF#32 = BitVec.allOnes 32 from rfl, BitVec.allOnes_and, ← BitVec.twoPow_eq, BitVec.getLsbD_twoPow]
      by_cases h : j = i
      · subst h
        simp [hi]
      · simp [h, Ne.symm h]
    rcases Nat.eq_zero_or_pos i with rfl | hpos
    · obtain rfl : cidr = 0 := by omega
      rw [maskBits, maskBits, BitVec.getLsbD_or, hbit]
      exact congrArg _ (decide_eq_decide.mpr (by omega))
    · rw [maskBits, ih (by omega) (by omega), BitVec.getLsbD_or, hbit, Bool.or_assoc, ← Bool.decide_or]
      exact congrArg _ (decide_eq_decide.mpr (by omega))

theorem getMsbD_maskBits (hn : n ≤ 32) {i : ℕ} (hi : i < 32) : (maskBits n 31 0).getMsbD i = decide (i < n) := by
  rw [BitVec.getMsbD, getLsbD_maskBits (by decide) (by omega), decide_eq_true hi, Bool.true_and, show (0 : BitVec 32) = 0#32 from rfl,
    BitVec.getLsbD_zero, Bool.false_or]
  exact decide_eq_decide.mpr (by omega)

/-- Addresses that are the same under the mask have the same first bits. -/
theorem sameBits_iff (hn : n ≤ 32) : a &&& htonl (maskBits n 31 0) = b &&& htonl (maskBits n 31 0) ↔ SameBits n (htonl a) (htonl b) := by
  rw [← htonl_inj, htonl_and, htonl_and, htonl_htonl]
  constructor
  · intro h i hi
    have hbit := congrArg (BitVec.getMsbD · i) h
    simpa only [BitVec.getMsbD_and, getMsbD_maskBits hn (Nat.lt_of_lt_of_le hi hn), decide_eq_true hi, Bool.and_true] using hbit
  · intro h
    apply BitVec.eq_of_getMsbD_eq
    intro i hi
    rw [BitVec.getMsbD_and, BitVec.getMsbD_and, getMsbD_maskBits hn hi]
    by_cases hin : i < n
    · rw [h i hin]
    · rw [decide_eq_false hin, Bool.and_false, Bool.and_false]

/-- Where there are bits to compare, some address does not have them and some address has. -/
theorem exists_not_sameBits_iff (hn : 0 < n) (p : Prop) (b : BitVec 32) : ∃ a, ¬(SameBits n (htonl a) (htonl b) ↔ p) := by
  by_cases hp : p
  · refine ⟨htonl (~~~htonl b), fun h => ?_⟩
    have hbit := h.mpr hp 0 hn
    rw [htonl_htonl, BitVec.getMsbD_not] at hbit
    cases hb : (htonl b).getMsbD 0 <;> rw [hb] at hbit <;> cases hbit
  · exact ⟨b, fun h => hp (h.mp fun i _ => rfl)⟩

/-! ### Hosts -/

theorem inSubnet_plain (h : IP4_ADDR_REGEX.wholeMatch name = some []) (host cliAddr : BitVec 32) :
    inSubnet inetPton hostName host cliAddr name = .error .invalidArgument := by
  rw [inSubnet, h]
  dsimp only
  rw [if_pos (show 1 + IP4_ADDR_REGEX.groups = 3 from rfl), show str [] 1 = [] from rfl, eraseFind_nil]
  rfl

theorem inSubnet_slash (ht : '/' ∉ t) (h : IP4_ADDR_REGEX.wholeMatch (t ++ '/' :: number) = some [(1, '/' :: number), (2, number)])
    {hs : Groups} (hnum : prefixNumber.Matches number hs) (host cliAddr : BitVec 32) :
    inSubnet inetPton hostName host cliAddr (t ++ '/' :: number) = .ok (decide
      ((inetPton t).getD host &&& htonl (maskBits (Nat.ofDigitChars 10 number 0) 31 0) =
        cliAddr &&& htonl (maskBits (Nat.ofDigitChars 10 number 0) 31 0))) := by
  obtain ⟨hne, hdigits⟩ := prefixNumber_digits hnum
  have hle := prefixNumber_le hnum
  have hstoi : stoi number = some (Nat.ofDigitChars 10 number 0 : ℤ) := by
    rw [stoi_digits hne hdigits]
    exact int32_eq_some.mpr ⟨⟨by omega, by omega⟩, rfl⟩
  rw [inSubnet, h]
  dsimp only
  rw [if_pos (show 1 + IP4_ADDR_REGEX.groups = 3 from rfl), show str [(1, '/' :: number), (2, number)] 1 = '/' :: number from rfl,
    show str [(1, '/' :: number), (2, number)] 2 = number from rfl, eraseFind_slash ht, hstoi]
  dsimp only [bind, Except.bind]
  rw [if_neg (by omega), Int.toNat_natCast]
  rfl

/-- The answer for a name is whether the client's address has the first bits of the address that the
name writes, whatever is in memory before, if and only if the name has a prefix and either nothing is
compared or `inet_pton` reads the address. -/
theorem inSubnet_iff (hread : ∀ text a, inetPton text = some a → a = htonl (address text)) (cliAddr : BitVec 32) (name : Text)
    (hname : (IP4_ADDR_REGEX.wholeMatch name).isSome) :
    (∀ host, ∃ b, inSubnet inetPton hostName host cliAddr name = .ok b ∧
      (b = true ↔ SameBits (prefixLength name) (htonl cliAddr) (address (addressText name)))) ↔
      '/' ∈ name ∧ (prefixLength name = 0 ∨ (inetPton (addressText name)).isSome) := by
  obtain ⟨gs, hgs⟩ := Option.isSome_iff_exists.mp hname
  rcases matches_ip4 (wholeMatch_sound hgs) with ⟨hslash, rfl⟩ | ⟨t, number, hs, rfl, ht, rfl, hnum⟩
  · refine ⟨fun h => ?_, fun h => absurd h.1 hslash⟩
    obtain ⟨b, hb, -⟩ := h 0
    rw [inSubnet_plain hgs] at hb
    cases hb
  · rw [prefixLength_slash ht, takeWhile_slash ht]
    have hle := prefixNumber_le hnum
    simp only [inSubnet_slash ht hgs hnum, Except.ok.injEq, exists_eq_left', decide_eq_true_eq, sameBits_iff hle]
    generalize Nat.ofDigitChars 10 number 0 = n at hle
    cases ha : inetPton t with
    | some a =>
      simp only [Option.getD_some, hread t a ha, htonl_htonl]
      exact ⟨fun _ => ⟨by simp, .inr rfl⟩, fun _ _ => ⟨fun h i hi => (h i hi).symm, fun h i hi => (h i hi).symm⟩⟩
    | none =>
      refine ⟨fun h => ⟨by simp, .inl ?_⟩, fun h host => ?_⟩
      · by_contra hn
        obtain ⟨host, hhost⟩ := exists_not_sameBits_iff (Nat.pos_of_ne_zero hn) (SameBits n (htonl cliAddr) (address t)) cliAddr
        exact hhost (h host)
      · rcases h.2 with rfl | h
        · exact ⟨fun _ _ hi => absurd hi (Nat.not_lt_zero _), fun _ _ hi => absurd hi (Nat.not_lt_zero _)⟩
        · cases h

/-! ### Two hosts -/

/-- `inet_pton` of four numbers up to 255, none of them with a zero in front. -/
def readDotted (text : Text) : Option (BitVec 32) :=
  if (text.splitOn '.').length = 4 ∧ ∀ number ∈ text.splitOn '.', number ≠ [] ∧ (∀ c ∈ number, c.isDigit = true) ∧
      (number.length = 1 ∨ number.head? ≠ some '0') ∧ Nat.ofDigitChars 10 number 0 ≤ 255
  then some (htonl (address text)) else none

theorem readDotted_eq_some {text : Text} {a : BitVec 32} (h : readDotted text = some a) : a = htonl (address text) := by
  rw [readDotted, Option.ite_none_right_eq_some] at h
  exact (Option.some.inj h.2).symm

/-- An account of a subnet: the clients of the subnet, and no others. -/
theorem inSubnet_subnet : (IP4_ADDR_REGEX.wholeMatch "192.168.1.0/24".toList).isSome = true ∧
    ∀ host, ∃ b, inSubnet readDotted (fun _ => false) host (htonl 0xC0A8014D#32) "192.168.1.0/24".toList = .ok b ∧
      (b = true ↔ SameBits 24 (htonl (htonl 0xC0A8014D#32)) 0xC0A80100#32) :=
  ⟨by decide, (inSubnet_iff (fun _ _ => readDotted_eq_some) (htonl 0xC0A8014D#32) "192.168.1.0/24".toList (by decide)).mpr
    ⟨by decide, .inr (by decide)⟩⟩

/-- An account of one address: its own client is turned away with an exception. -/
theorem inSubnet_address : (IP4_ADDR_REGEX.wholeMatch "127.0.0.1".toList).isSome = true ∧
    ∀ host, inSubnet readDotted (fun _ => false) host (htonl 0x7F000001#32) "127.0.0.1".toList = .error .invalidArgument :=
  ⟨by decide, fun host => inSubnet_plain (by decide) host (htonl 0x7F000001#32)⟩

end RedB.Comm
