import Thegn.Lib.Utf8

set_option autoImplicit false

/-! # Where characters begin

The first byte of a character is never one that continues a character, so a text is cut between
characters wherever the rest does not begin with a continuation (`exists_cut_of_utf8`); a character
of one byte is found in the bytes where it is in the text.
-/

namespace Thegn.Text

open List

/-- The bytes inside a character. -/
def Continuation (b : UInt8) : Prop := 128 ≤ b.toNat ∧ b.toNat < 192

/-- A character is a first byte and continuations. -/
theorem encode_eq_cons (c : Char) :
    ∃ b bs, String.utf8EncodeChar c = b :: bs ∧ ¬ Continuation b ∧ ∀ x ∈ bs, Continuation x := by
  have hvalid : c.val.toNat < 0x110000 := by
    have h := c.valid
    rcases h with h | h
    · exact Nat.lt_trans h (by decide)
    · exact h.2
  unfold String.utf8EncodeChar
  dsimp only
  split_ifs with h1 h2 h3
  all_goals refine ⟨_, _, rfl, ?_, fun x hx => ?_⟩
  all_goals simp only [Continuation, UInt8.toNat_ofNat', mem_cons, not_mem_nil, or_false] at *
  · omega
  · omega
  · rw [hx, UInt8.toNat_ofNat']
    omega
  · omega
  · rcases hx with rfl | rfl <;> rw [UInt8.toNat_ofNat'] <;> omega
  · omega
  · rcases hx with rfl | rfl | rfl <;> rw [UInt8.toNat_ofNat'] <;> omega

theorem utf8_cons (c : Char) (t : Text) : utf8 (c :: t) = String.utf8EncodeChar c ++ utf8 t :=
  List.flatMap_cons

/-- A character of one byte. -/
theorem encode_of_lt {c : Char} (h : c.toNat < 128) :
    String.utf8EncodeChar c = [UInt8.ofNat c.toNat] := by
  unfold String.utf8EncodeChar
  dsimp only
  have hle : c.val.toNat ≤ 127 := Nat.le_of_lt_succ h
  rw [if_pos hle]
  rfl

/-- A byte of ASCII is in no other character. -/
theorem toNat_of_mem_encode {c : Char} {b : UInt8} (hb : b.toNat < 128)
    (h : b ∈ String.utf8EncodeChar c) : c.toNat = b.toNat := by
  by_cases hc : c.toNat < 128
  · rw [encode_of_lt hc, mem_singleton] at h
    rw [h, UInt8.toNat_ofNat', Nat.mod_eq_of_lt (by omega)]
  · exfalso
    have hc' : ¬ c.val.toNat ≤ 127 := fun hle => hc (Nat.lt_succ_of_le hle)
    unfold String.utf8EncodeChar at h
    dsimp only at h
    rw [if_neg hc'] at h
    split_ifs at h <;>
      simp only [mem_cons, not_mem_nil, or_false, ← UInt8.toNat_inj, UInt8.toNat_ofNat'] at h <;>
      omega

/-- Another character is encoded without the byte of an ASCII character. -/
theorem encode_special {c d : Char} (hd : d.toNat < 128) (hc : c ≠ d) :
    UInt8.ofNat d.toNat ∉ String.utf8EncodeChar c := by
  have htoNat : (UInt8.ofNat d.toNat).toNat = d.toNat := by
    rw [UInt8.toNat_ofNat', Nat.mod_eq_of_lt (by omega)]
  intro hmem
  have heq := toNat_of_mem_encode (by rw [htoNat]; exact hd) hmem
  rw [htoNat] at heq
  exact hc (Char.ext (UInt32.toNat_inj.mp heq))

theorem utf8_special {t : Text} {d : Char} (hd : d.toNat < 128) (ht : d ∉ t) :
    UInt8.ofNat d.toNat ∉ utf8 t := by
  intro hmem
  obtain ⟨c, hc, hcb⟩ := mem_flatMap.mp hmem
  exact encode_special hd (fun heq => ht (heq ▸ hc)) hcb

theorem mem_utf8_special {t : Text} {d : Char} (hd : d.toNat < 128) (ht : d ∈ t) :
    UInt8.ofNat d.toNat ∈ utf8 t := by
  refine mem_flatMap.mpr ⟨d, ht, ?_⟩
  rw [encode_of_lt hd]
  exact mem_singleton_self _

/-- **A text is cut where the rest begins with a character.** -/
theorem exists_cut_of_utf8 {t : Text} : ∀ {w x : List UInt8}, utf8 t = w ++ x →
    (∀ b, x.head? = some b → ¬ Continuation b) → ∃ u v, t = u ++ v ∧ utf8 u = w ∧ utf8 v = x := by
  induction t with
  | nil =>
    intro w x h _
    obtain ⟨rfl, rfl⟩ := append_eq_nil_iff.mp h.symm
    exact ⟨[], [], rfl, rfl, rfl⟩
  | cons c t ih =>
    intro w x h hx
    cases w with
    | nil => exact ⟨[], c :: t, rfl, rfl, h⟩
    | cons a w =>
      rw [utf8_cons] at h
      rcases append_eq_append_iff.mp h with ⟨y, hw, ht⟩ | ⟨y, henc, hx'⟩
      · obtain ⟨u, v, rfl, rfl, hv⟩ := ih ht hx
        exact ⟨c :: u, v, rfl, by rw [utf8_cons, hw], hv⟩
      · cases y with
        | nil =>
          rw [append_nil] at henc
          exact ⟨[c], t, rfl, by rw [utf8_cons, utf8_nil, append_nil, henc], hx'.symm⟩
        | cons b y =>
          -- the cut would be inside the character
          obtain ⟨b0, bs, hcons, -, hbs⟩ := encode_eq_cons c
          rw [hcons, cons_append] at henc
          have hmem : b ∈ bs := by
            rw [(List.cons.inj henc).2]
            exact mem_append_right _ (.head _)
          exact absurd (hbs b hmem) (hx b (by rw [hx']; rfl))

/-- The first character of a text is read off its bytes. -/
theorem utf8_eq_encode_append {t : Text} {c : Char} {x : List UInt8} :
    utf8 t = String.utf8EncodeChar c ++ x ↔ ∃ t', t = c :: t' ∧ utf8 t' = x := by
  constructor
  · intro h
    have hdecode : (utf8 t).toByteArray.utf8DecodeChar? 0 = some c := by
      rw [h, toByteArray_append]
      exact ByteArray.utf8DecodeChar?_utf8EncodeChar_append
    cases t with
    | nil =>
      obtain ⟨b, bs, hcons, -, -⟩ := encode_eq_cons c
      rw [hcons] at h
      cases h
    | cons d t =>
      have hdecode' : (utf8 (d :: t)).toByteArray.utf8DecodeChar? 0 = some d := by
        rw [utf8_cons, toByteArray_append]
        exact ByteArray.utf8DecodeChar?_utf8EncodeChar_append
      rw [hdecode] at hdecode'
      cases hdecode'
      rw [utf8_cons] at h
      exact ⟨t, rfl, append_cancel_left h⟩
  · rintro ⟨t', rfl, rfl⟩
    exact utf8_cons c t'

/-! ## Where decoding with replacements can be cut

The decoder looks at a first byte and at the continuations after it, never further. So it reads
two pieces as it reads them together, unless a character that the first piece begins could go on
into the second. -/

/-- How many bytes a character with this first byte has. A byte that begins none is on its own. -/
def leadLen (b : UInt8) : Nat :=
  if b.toNat < 192 then 1 else if b.toNat < 224 then 2 else if b.toNat < 240 then 3 else 4

/-- No character begun by `b` and the bytes `bs` goes on into the rest. -/
def Settled (b : UInt8) (bs rest : List UInt8) : Prop :=
  (∀ x ∈ bs, Continuation x) → leadLen b ≤ bs.length + 1 ∨ ∀ r, rest.head? = some r →
    ¬ Continuation r

theorem encode_leadLen {c : Char} {b : UInt8} {bs : List UInt8}
    (h : String.utf8EncodeChar c = b :: bs) :
    bs.length + 1 = leadLen b ∧ ∀ x ∈ bs, Continuation x := by
  have hvalid : c.val.toNat < 0x110000 := by
    have h := c.valid
    rcases h with h | h
    · exact Nat.lt_trans h (by decide)
    · exact h.2
  obtain ⟨b', bs', hcons, -, hcont⟩ := encode_eq_cons c
  obtain ⟨rfl, rfl⟩ := List.cons.inj (hcons.symm.trans h)
  refine ⟨?_, hcont⟩
  unfold String.utf8EncodeChar at h
  dsimp only at h
  unfold leadLen
  split_ifs at h with h1 h2 h3
  all_goals
    obtain ⟨rfl, rfl⟩ := List.cons.inj h
    simp only [UInt8.toNat_ofNat', length_cons, length_nil]
    split_ifs <;> omega

/-- A settled character is decoded from the first piece alone. -/
theorem decode_append {b : UInt8} {bs rest : List UInt8} (h : Settled b bs rest) :
    (b :: bs ++ rest).toByteArray.utf8DecodeChar? 0 = (b :: bs).toByteArray.utf8DecodeChar? 0 := by
  cases hwhole : (b :: bs ++ rest).toByteArray.utf8DecodeChar? 0 with
  | none =>
    cases hpart : (b :: bs).toByteArray.utf8DecodeChar? 0 with
    | none => rfl
    | some c =>
      rw [toByteArray_append, ByteArray.utf8DecodeChar?_append_eq_some hpart] at hwhole
      cases hwhole
  | some c =>
    obtain ⟨l, hl⟩ := ByteArray.exists_of_utf8DecodeChar?_eq_some hwhole
    have hbytes : b :: bs ++ rest = String.utf8EncodeChar c ++ l.data.toList := by
      have hdata := congrArg (fun x : ByteArray => x.data.toList) hl
      simpa using hdata
    obtain ⟨b', cs, hcons, -, -⟩ := encode_eq_cons c
    obtain ⟨hlen, hcont⟩ := encode_leadLen hcons
    rw [hcons, cons_append, cons_append] at hbytes
    obtain ⟨rfl, htail⟩ := List.cons.inj hbytes
    have hprefix : ∃ y, bs = cs ++ y := by
      rcases append_eq_append_iff.mp htail with ⟨y, hy, hrest⟩ | ⟨y, hy, -⟩
      · cases y with
        | nil => exact ⟨[], by simpa using hy.symm⟩
        | cons r y =>
          have hall : ∀ x ∈ bs, Continuation x := by
            intro x hx
            exact hcont x (by rw [hy]; exact mem_append_left _ hx)
          have hcs : cs.length = bs.length + (y.length + 1) := by rw [hy]; simp
          rcases h hall with hle | hhead
          · omega
          · exact absurd (hcont r (by rw [hy]; simp)) (hhead r (by rw [hrest]; rfl))
      · exact ⟨y, hy⟩
    obtain ⟨y, rfl⟩ := hprefix
    rw [show b :: (cs ++ y) = String.utf8EncodeChar c ++ y by rw [hcons]; rfl, toByteArray_append]
    exact ByteArray.utf8DecodeChar?_utf8EncodeChar_append.symm

/-- More than one byte is replaced only where a longer character begins and goes on. -/
theorem invalidLen_eq_one {b r : UInt8} (rs : List UInt8) (h : leadLen b ≤ 2 ∨ ¬ Continuation r) :
    invalidLen (b :: r :: rs) = 1 := by
  unfold invalidLen
  dsimp only
  rw [if_neg, if_neg]
  all_goals
    simp only [Bool.or_eq_true, Bool.and_eq_true, beq_iff_eq, decide_eq_true_eq,
      UInt8.le_iff_toNat_le, ← UInt8.toNat_inj, UInt8.reduceToNat]
    unfold leadLen Continuation at h
    split_ifs at h <;> omega

theorem invalidLen_le (b : UInt8) (bs : List UInt8) : invalidLen (b :: bs) ≤ (b :: bs).length := by
  match bs with
  | [] => exact Nat.le_refl 1
  | [r] =>
    unfold invalidLen
    dsimp only
    rw [if_neg (show ¬ Option.any _ (List.head? ([] : List UInt8)) = true by simp)]
    simp only [length_cons, length_nil]
    split_ifs <;> omega
  | r1 :: r2 :: rs =>
    unfold invalidLen
    dsimp only [length_cons]
    split_ifs <;> omega

/-- What is replaced at once depends on no byte after a settled character. -/
theorem invalidLen_append {b : UInt8} {bs rest : List UInt8} (h : Settled b bs rest) :
    invalidLen (b :: bs ++ rest) = invalidLen (b :: bs) := by
  match bs, rest with
  | [], [] => rfl
  | [], r :: rs =>
    refine (invalidLen_eq_one rs ?_).trans rfl
    rcases h (by simp) with hlen | hhead
    · exact .inl (Nat.le_trans hlen (by decide))
    · exact .inr (hhead r rfl)
  | [b1], [] => rfl
  | [b1], r :: rs =>
    by_cases hcont : Continuation b1
    · rcases h (by simpa using hcont) with hlen | hhead
      · exact (invalidLen_eq_one _ (.inl hlen)).trans (invalidLen_eq_one _ (.inl hlen)).symm
      · have hr := hhead r rfl
        unfold invalidLen
        have hno : ¬ (0x80 ≤ r ∧ r ≤ 0xbf) := by
          rintro ⟨hlow, hhigh⟩
          refine hr ⟨UInt8.le_iff_toNat_le.mp hlow, ?_⟩
          have := UInt8.le_iff_toNat_le.mp hhigh
          simp only [UInt8.reduceToNat] at this
          omega
        simp [hno]
    · exact (invalidLen_eq_one _ (.inr hcont)).trans (invalidLen_eq_one _ (.inr hcont)).symm
  | b1 :: b2 :: bs, rest => rfl

/-- The first piece ends nowhere inside a character that could go on. -/
def Cuts (bytes rest : List UInt8) : Prop := ∀ b bs, b :: bs <:+ bytes → Settled b bs rest

/-- **Two pieces are decoded one after the other.** -/
theorem fromUtf8Lossy_append {bytes rest : List UInt8} (h : Cuts bytes rest) :
    fromUtf8Lossy (bytes ++ rest) = fromUtf8Lossy bytes ++ fromUtf8Lossy rest := by
  induction hn : bytes.length using Nat.strong_induction_on generalizing bytes with
  | _ n ih =>
    cases bytes with
    | nil => rw [nil_append, fromUtf8Lossy.eq_1, nil_append]
    | cons b bs =>
      have hset := h b bs suffix_rfl
      have hrest : ∀ k, 0 < k → k ≤ (b :: bs).length → fromUtf8Lossy ((b :: bs ++ rest).drop k)
            = fromUtf8Lossy ((b :: bs).drop k) ++ fromUtf8Lossy rest := by
        intro k hpos hle
        rw [drop_append_of_le_length hle]
        refine ih ((b :: bs).drop k).length ?_ ?_ rfl
        · rw [← hn, length_drop]
          simp only [length_cons]
          omega
        · intro b' bs' hsuffix
          exact h b' bs' (hsuffix.trans (drop_suffix _ _))
      have hcons : b :: bs ++ rest = b :: (bs ++ rest) := rfl
      rw [hcons, fromUtf8Lossy, fromUtf8Lossy, ← hcons, decode_append hset]
      cases hdec : (b :: bs).toByteArray.utf8DecodeChar? 0 with
      | some c =>
        dsimp only
        have hsize := ByteArray.le_size_of_utf8DecodeChar?_eq_some hdec
        rw [size_toByteArray, Nat.zero_add] at hsize
        rw [hrest _ c.utf8Size_pos hsize, cons_append]
      | none =>
        dsimp only
        rw [invalidLen_append hset, hrest _ (invalidLen_pos _) (invalidLen_le b bs), cons_append]

end Thegn.Text
