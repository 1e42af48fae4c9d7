import Thegn.Supervise.Plan
import Thegn.Lib.Words

set_option autoImplicit false

/-! # Commits as git spells them

The planner compares commits without regard to case or surrounding blanks, and the store compares
their texts. On commits spelled in lower-case hexadecimal digits the two agree
(`commitMatches_iff`), and what an approval is accepted for is a prefix match in characters
(`prefixMatch_of_sameCommit`).
-/

namespace Thegn.Supervise

open Text List

/-- A character of a commit. -/
def isHex (c : Char) : Bool := ('0' ≤ c && c ≤ '9') || ('a' ≤ c && c ≤ 'f')

def IsSha (s : Text) : Prop := ∀ c ∈ s, isHex c = true

instance (s : Text) : Decidable (IsSha s) := decidable_of_iff (s.all isHex = true) all_eq_true

theorem hex_toNat {c : Char} (h : isHex c = true) :
    48 ≤ c.toNat ∧ c.toNat ≤ 57 ∨ 97 ≤ c.toNat ∧ c.toNat ≤ 102 := by
  simp only [isHex, Bool.or_eq_true, Bool.and_eq_true, decide_eq_true_iff, Char.le_def,
    UInt32.le_iff_toNat_le] at h
  exact h

theorem not_whitespace_of_hex {c : Char} (h : isHex c = true) : isWhitespace c = false := by
  have hc := hex_toNat h
  simp only [isWhitespace, Bool.or_eq_false_iff, Bool.and_eq_false_iff, decide_eq_false_iff_not,
    beq_eq_false_iff_ne]
  omega

theorem trim_of_sha {s : Text} (h : IsSha s) : trim s = s :=
  (trimmed_of_forall fun c hc => not_whitespace_of_hex (h c hc)).trim_eq

/-- Letters other than capitals are their own lower case. -/
theorem toLower_of_not_upper {c : Char} (h : ¬ (65 ≤ c.toNat ∧ c.toNat ≤ 90)) : c.toLower = c := by
  unfold Char.toLower
  rw [dif_neg]
  rintro ⟨hge, hle⟩
  rw [ge_iff_le, UInt32.le_iff_toNat_le] at hge
  rw [UInt32.le_iff_toNat_le] at hle
  exact h ⟨hge, hle⟩

theorem toLower_of_hex {c : Char} (h : isHex c = true) : c.toLower = c := by
  have hc := hex_toNat h
  exact toLower_of_not_upper (by omega)

/-- A character that some case of a hex digit is takes one byte. -/
theorem charLen_of_toLower_hex {c d : Char} (hd : isHex d = true) (h : c.toLower = d) :
    charLen c = 1 := by
  by_cases hup : 65 ≤ c.toNat ∧ c.toNat ≤ 90
  · exact charLen_of_lt (by omega)
  · rw [toLower_of_not_upper hup] at h
    subst h
    have hc := hex_toNat hd
    exact charLen_of_lt (by omega)

theorem byteLen_sha {s : Text} (h : IsSha s) : byteLen s = s.length :=
  byteLen_eq_length fun c hc => charLen_of_toLower_hex (h c hc) (toLower_of_hex (h c hc))

theorem length_le_byteLen (s : Text) : s.length ≤ byteLen s := by
  induction s with
  | nil => exact le_rfl
  | cons c s ih =>
    have hpos := charLen_pos c
    rw [byteLen_cons, length_cons]
    omega

theorem map_toLower_sha {s : Text} (h : IsSha s) : s.map Char.toLower = s := by
  nth_rewrite 2 [← map_id s]
  exact map_congr_left fun c hc => toLower_of_hex (h c hc)

/-- Commits that are spelled alike match when they are equal. -/
theorem commitMatches_iff {a b : Text} (ha : IsSha a) (hb : IsSha b)
    (hlen : minShaPrefix ≤ byteLen b) : commitMatches a b = true ↔ a = b := by
  unfold commitMatches
  rw [trim_of_sha ha, trim_of_sha hb]
  constructor
  · intro h
    split_ifs at h
    rw [eqIgnoreAsciiCase, beq_iff_eq, map_toLower_sha ha, map_toLower_sha hb] at h
    exact h
  · rintro rfl
    rw [if_neg (by omega), eqIgnoreAsciiCase, beq_self_eq_true]

/-- The approved commit and the head agree on at least seven characters, all of one of them. -/
def PrefixMatch (approved head : Text) : Prop :=
  ∃ n, 7 ≤ n ∧ (n = approved.length ∧ n ≤ head.length ∨ n = head.length ∧ n ≤ approved.length) ∧
    eqIgnoreAsciiCase (approved.take n) (head.take n) = true

theorem zip_all_toLower {a b : Text}
    (h : (a.zip b).all (fun p => p.1.toLower == p.2.toLower) = true)
    (hlen : b.length ≤ a.length) : b.map Char.toLower = (a.take b.length).map Char.toLower := by
  induction b generalizing a with
  | nil => rfl
  | cons c b ih =>
    cases a with
    | nil => simp at hlen
    | cons d a =>
      rw [zip_cons_cons, all_cons, Bool.and_eq_true, beq_iff_eq] at h
      rw [map_cons, length_cons, take_succ_cons, map_cons, h.1, ih h.2 (by simpa using hlen)]

theorem zip_all_swap {a b : Text} (h : (a.zip b).all (fun p => p.1.toLower == p.2.toLower) = true) :
    (b.zip a).all (fun p => p.1.toLower == p.2.toLower) = true := by
  rw [← zip_swap, all_map]
  rw [all_eq_true] at h ⊢
  intro p hp
  have hpair := h p hp
  rw [beq_iff_eq] at hpair
  exact beq_iff_eq.mpr hpair.symm

/-- What `same_commit` accepts against a head of git is a prefix match. -/
theorem prefixMatch_of_sameCommit {approved head : Text} (hhead : IsSha head)
    (hlen : minShaPrefix ≤ byteLen approved) (hlen' : minShaPrefix ≤ byteLen head)
    (h : sameCommit approved head = true) : PrefixMatch approved head := by
  have hb := byteLen_sha hhead
  -- an approval that is no longer than the head is written in its letters
  have hascii : (head.zip approved).all (fun p => p.1.toLower == p.2.toLower) = true →
      approved.length ≤ head.length → byteLen approved = approved.length := by
    intro hall hle
    have hmap := zip_all_toLower hall hle
    rw [map_toLower_sha fun c hc => hhead c (mem_of_mem_take hc)] at hmap
    refine byteLen_eq_length fun c hc => ?_
    have hmem : c.toLower ∈ head.take approved.length := by
      rw [← hmap]
      exact mem_map_of_mem hc
    exact charLen_of_toLower_hex (hhead _ (mem_of_mem_take hmem)) rfl
  unfold sameCommit at h
  split_ifs at h with hle
  · have hshort : approved.length ≤ head.length := by
      have hall := length_le_byteLen approved
      omega
    refine ⟨approved.length, ?_, .inl ⟨rfl, hshort⟩, ?_⟩
    · rw [← hascii h hshort]
      exact hlen
    · rw [eqIgnoreAsciiCase, beq_iff_eq, take_length]
      exact zip_all_toLower h hshort
  · have hlong : head.length ≤ approved.length := by
      by_contra hlt
      have heq := hascii (zip_all_swap h) (by omega)
      omega
    refine ⟨head.length, by rw [← hb]; exact hlen', .inr ⟨rfl, hlong⟩, ?_⟩
    rw [eqIgnoreAsciiCase, beq_iff_eq, take_length]
    exact (zip_all_toLower h hlong).symm

end Thegn.Supervise
