import Thegn.Pipeline.Language

set_option autoImplicit false

/-! # Labels and ASCII case

Lower-casing the characters of a text lower-cases its bytes (`lowerLabel_utf8`), and bytes whose
lower case is UTF-8 are UTF-8 themselves (`exists_utf8_of_lowerLabel`): ASCII letters stand alone in
it.
-/

namespace Thegn.Dns

open Text Pipeline List

abbrev Bytes := List UInt8

/-- The bytes of a label without regard to ASCII case. -/
def lowerLabel (l : Bytes) : Bytes := l.map asciiLower

def lower (t : Text) : Text := t.map Char.toLower

theorem utf8_injective {a b : Text} (h : utf8 a = utf8 b) : a = b := by
  have hread := congrArg fromUtf8 h
  rw [fromUtf8_utf8, fromUtf8_utf8] at hread
  exact Option.some.inj hread

theorem utf8_singleton (c : Char) : utf8 [c] = String.utf8EncodeChar c := by
  rw [utf8, flatMap_singleton]

/-! ## Characters -/

theorem encode_of_lt {c : Char} (h : c.toNat < 128) :
    String.utf8EncodeChar c = [c.val.toUInt8] := by
  apply String.utf8EncodeChar_eq_singleton
  rw [← String.length_utf8EncodeChar]
  exact charLen_of_lt h

theorem toNat_byte_of_lt {c : Char} (h : c.toNat < 128) : c.val.toUInt8.toNat = c.toNat := by
  have hmod : c.val.toUInt8.toNat = c.toNat % 256 := rfl
  rw [hmod]
  exact Nat.mod_eq_of_lt (by omega)

/-- The bytes of a character beyond ASCII are beyond ASCII. -/
theorem le_of_mem_encode {c : Char} (h : 128 ≤ c.toNat) {b : UInt8}
    (hb : b ∈ String.utf8EncodeChar c) : 128 ≤ b.toNat := by
  have hval : 128 ≤ c.val.toNat := h
  unfold String.utf8EncodeChar at hb
  dsimp only at hb
  split_ifs at hb <;>
    simp only [mem_cons, not_mem_nil, or_false, ← UInt8.toNat_inj, UInt8.toNat_ofNat'] at hb <;>
    omega

theorem toLower_toNat (c : Char) :
    c.toLower.toNat = if 65 ≤ c.toNat ∧ c.toNat ≤ 90 then c.toNat + 32 else c.toNat := by
  have hiff : c.val ≥ 'A'.val ∧ c.val ≤ 'Z'.val ↔ 65 ≤ c.toNat ∧ c.toNat ≤ 90 := by
    rw [ge_iff_le, UInt32.le_iff_toNat_le, UInt32.le_iff_toNat_le]
    rfl
  unfold Char.toLower
  by_cases h : c.val ≥ 'A'.val ∧ c.val ≤ 'Z'.val
  · have hn := hiff.mp h
    have hadd : (c.val + ('a'.val - 'A'.val)).toNat = (c.val.toNat + 32) % 2 ^ 32 :=
      UInt32.toNat_add _ _
    have hval : c.val.toNat = c.toNat := rfl
    rw [dif_pos h, if_pos hn, Char.toNat, hadd, hval]
    exact Nat.mod_eq_of_lt (by omega)
  · rw [dif_neg h, if_neg (fun hn => h (hiff.mpr hn))]

/-- Only letters change. -/
theorem toLower_eq_iff {c d : Char} (hd : d.toNat < 65) : c.toLower = d ↔ c = d := by
  have hnat : ∀ {a b : Char}, a = b ↔ a.toNat = b.toNat := by
    intro a b
    constructor
    · exact congrArg Char.toNat
    · intro h
      exact Char.ext (UInt32.toNat_inj.mp h)
  rw [hnat, hnat, toLower_toNat]
  split
  · omega
  · rfl

theorem isWhitespace_toLower (c : Char) : isWhitespace c.toLower = isWhitespace c := by
  unfold isWhitespace
  rw [toLower_toNat]
  split
  · rename_i h
    rw [Bool.eq_iff_iff]
    simp only [Bool.or_eq_true, Bool.and_eq_true, decide_eq_true_eq, beq_iff_eq]
    omega
  · rfl

theorem toLower_toLower (c : Char) : c.toLower.toLower = c.toLower := by
  apply Char.ext
  apply UInt32.toNat_inj.mp
  have hnat : c.toLower.toLower.toNat = c.toLower.toNat := by
    rw [toLower_toNat c.toLower, if_neg]
    rw [toLower_toNat]
    split <;> omega
  exact hnat

theorem asciiLower_of_le {b : UInt8} (h : 128 ≤ b.toNat) : asciiLower b = b := by
  rw [← UInt8.toNat_inj, asciiLower_toNat, if_neg (by omega)]

theorem map_asciiLower_encode_of_le {c : Char} (h : 128 ≤ c.toNat) {l : Bytes}
    (hl : l.map asciiLower = String.utf8EncodeChar c) : l = String.utf8EncodeChar c := by
  rw [← hl]
  conv_lhs => rw [← map_id l]
  refine map_congr_left ?_
  intro b hb
  have hbig := le_of_mem_encode h (hl ▸ mem_map_of_mem hb)
  rw [asciiLower_toNat] at hbig
  split at hbig
  · omega
  · exact (asciiLower_of_le hbig).symm

theorem lowerLabel_encode (c : Char) :
    lowerLabel (String.utf8EncodeChar c) = String.utf8EncodeChar c.toLower := by
  have hlower := toLower_toNat c
  by_cases h : c.toNat < 128
  · have hlt : c.toLower.toNat < 128 := by
      rw [hlower]
      split <;> omega
    rw [encode_of_lt h, encode_of_lt hlt, lowerLabel, map_singleton]
    congr 1
    rw [← UInt8.toNat_inj, asciiLower_toNat, toNat_byte_of_lt h, toNat_byte_of_lt hlt, hlower]
  · have hsame : c.toLower = c := by
      apply Char.ext
      apply UInt32.toNat_inj.mp
      have hnat : c.toLower.toNat = c.toNat := by rw [hlower, if_neg (by omega)]
      exact hnat
    rw [hsame, lowerLabel]
    conv_rhs => rw [← map_id (String.utf8EncodeChar c)]
    exact map_congr_left fun b hb => asciiLower_of_le (le_of_mem_encode (by omega) hb)

theorem lowerLabel_append (a b : Bytes) : lowerLabel (a ++ b) = lowerLabel a ++ lowerLabel b :=
  map_append

/-- **Lower case commutes with UTF-8.** -/
theorem lowerLabel_utf8 (t : Text) : lowerLabel (utf8 t) = utf8 (lower t) := by
  induction t with
  | nil => rfl
  | cons c t ih =>
    rw [lower, map_cons, utf8_cons, utf8_cons, lowerLabel_append, lowerLabel_encode, ih, lower]

theorem encode_injective {c c' : Char} (h : String.utf8EncodeChar c = String.utf8EncodeChar c') :
    c = c' := by
  rw [← utf8_singleton, ← utf8_singleton] at h
  exact singleton_inj.mp (utf8_injective h)

/-- Bytes whose lower case is one character are one character. -/
theorem exists_encode_of_lowerLabel {l : Bytes} {c : Char}
    (h : lowerLabel l = String.utf8EncodeChar c) :
    ∃ c', l = String.utf8EncodeChar c' ∧ c'.toLower = c := by
  by_cases hc : c.toNat < 128
  · rw [encode_of_lt hc, lowerLabel, map_eq_singleton_iff] at h
    obtain ⟨b, rfl, hb⟩ := h
    have hbyte : b.toNat < 128 := by
      have hnat := congrArg UInt8.toNat hb
      rw [asciiLower_toNat, toNat_byte_of_lt hc] at hnat
      split at hnat <;> omega
    have hchar : (Char.ofNat b.toNat).toNat = b.toNat := by
      rw [Char.toNat_ofNat, if_pos (Or.inl (by omega))]
    have henc : String.utf8EncodeChar (Char.ofNat b.toNat) = [b] := by
      rw [encode_of_lt (by omega)]
      congr 1
      rw [← UInt8.toNat_inj, toNat_byte_of_lt (by omega), hchar]
    refine ⟨Char.ofNat b.toNat, henc.symm, ?_⟩
    apply encode_injective
    rw [← lowerLabel_encode, henc, encode_of_lt hc, lowerLabel, map_singleton, hb]
  · have hl := map_asciiLower_encode_of_le (by omega) h
    refine ⟨c, hl, ?_⟩
    apply encode_injective
    rw [← lowerLabel_encode, ← hl, h]
    exact hl.symm

/-- **Bytes whose lower case is UTF-8 are UTF-8.** -/
theorem exists_utf8_of_lowerLabel {l : Bytes} {t : Text} (h : lowerLabel l = utf8 t) :
    ∃ t', l = utf8 t' ∧ lower t' = t := by
  induction t generalizing l with
  | nil =>
    rw [utf8_nil, lowerLabel, map_eq_nil_iff] at h
    exact ⟨[], h, rfl⟩
  | cons c t ih =>
    rw [utf8_cons, lowerLabel, map_eq_append_iff] at h
    obtain ⟨l1, l2, rfl, h1, h2⟩ := h
    obtain ⟨c', rfl, hc⟩ := exists_encode_of_lowerLabel h1
    obtain ⟨t', rfl, ht⟩ := ih h2
    exact ⟨c' :: t', (utf8_cons c' t').symm, by rw [← hc, ← ht]; rfl⟩

end Thegn.Dns

/-! # The DNS name filter

`thegn-core/src/dns_filter.rs`: a loopback server reads the name of the question out of a packet,
decides by the patterns of its policy, and forwards the packet to its resolver or answers itself.
Every query is noted in a ring of the last ones.
-/

namespace Thegn.Dns

open Text

/-! ## The policy -/

/-- `std::net::SocketAddr`. -/
inductive SocketAddr
  | v4 (ip : BitVec 32) (port : UInt16)
  | v6 (ip : BitVec 128) (port : UInt16) (flowinfo scopeId : UInt32)
  deriving DecidableEq

structure DnsPolicy where
  allow : List Text
  block : List Text
  /-- Where allowed queries go; the system's resolver if there is none. -/
  upstream : Option SocketAddr

/-- `trim`, one dot less at the end, lower case; nothing for a text that is no name. -/
def norm (value : Text) : Option Text :=
  let trimmed := trim value
  let withoutDot := (stripSuffix ['.'] trimmed).getD trimmed
  if withoutDot.isEmpty || withoutDot.any isWhitespace ||
    (withoutDot.splitOn '.').any List.isEmpty then none
  else some (withoutDot.map Char.toLower)

/-- `str::ends_with`. -/
def endsWith (s p : Text) : Bool := p.isSuffixOf s

def matchesNormalized (name : Option Text) (pattern : Text) : Bool :=
  if pattern = ['*'] then true
  else
    match name with
    | none => false
    | some name =>
      match stripPrefix ['*', '.'] pattern with
      | some suffix => endsWith name ('.' :: suffix)
      | none => name == pattern || endsWith name ('.' :: pattern)

/-- A pattern of a list against a normalised name. -/
def matchesPattern (name : Option Text) (pattern : Text) : Bool :=
  match norm pattern with
  | none => false
  | some pattern => matchesNormalized name pattern

def DnsPolicy.allows (policy : DnsPolicy) (name : Text) : Bool :=
  let name := norm name
  if policy.block.any (matchesPattern name) then false
  else if policy.allow.isEmpty then true
  else policy.allow.any (matchesPattern name)

/-! ## The packet -/

/-- The loop of `extract_query_name`, on the bytes from its position on. -/
def extractLabels : Bytes → Option (List Text)
  | [] => none
  | len :: rest =>
    if len = 0 then some []
    else if rest.length < len.toNat then none
    else (extractLabels (rest.drop len.toNat)).map (fromUtf8Lossy (rest.take len.toNat) :: ·)
termination_by packet => packet.length
decreasing_by
  rw [List.length_drop, List.length_cons]
  omega

def extractQueryName (packet : Bytes) : Option Text :=
  if packet.length < 13 then none else (extractLabels (packet.drop 12)).map (join ['.'])

def buildResponse (query : Bytes) (rcode : UInt8) : Bytes :=
  if query.length < 12 then []
  else ((query.take 12).set 2 0x81).set 3 (rcode &&& 0x0f) ++ query.drop 12

def nxdomain (query : Bytes) : Bytes := buildResponse query 3

/-! ## The server -/

structure DnsEvent where
  name : Text
  allowed : Bool
  policy : UInt64

def maxRing : Nat := 512

/-- What becomes of a packet. -/
inductive Reply
  | forward (packet : Bytes)
  | answer (response : Bytes)
  deriving DecidableEq

/-- One turn of the server's loop: the ring afterwards, and what it does with the packet. -/
def serve (policy : DnsPolicy) (policyId : UInt64) (ring : List DnsEvent) (packet : Bytes) :
    List DnsEvent × Reply :=
  let name := (extractQueryName packet).getD []
  let allowed := policy.allows name
  let ring := if maxRing ≤ ring.length then ring.drop 1 else ring
  (ring ++ [{ name, allowed, policy := policyId }],
    if allowed then .forward packet else .answer (nxdomain packet))

end Thegn.Dns
