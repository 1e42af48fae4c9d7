import Thegn.Lib.Boundary
import Thegn.Pipeline.Scope
import Thegn.Lib.Wildcard

set_option autoImplicit false

/-! # The language of a file pattern

A canonical pattern describes a set of paths, as byte strings: `*` is any run of bytes inside one
segment, a whole segment `**` any number of segments. Both levels are patterns with wildcards, the
lower one over bytes and the upper one over segments. `Common` says that two patterns have a path
in common up to ASCII case; it comes down to two lists of segments (`meet_iff_common`).
-/

namespace Thegn.Pipeline

open Text Wildcard List

/-- The byte `/`. -/
def slash : UInt8 := 47

/-! ## Definitions -/

def segmentToken (b : UInt8) : Token UInt8 := if b = starByte then .star else .one {b}

/-- The bytes a `*` may run over. -/
def inSegment : Set UInt8 := {b | b ≠ slash}

/-- The segments a segment pattern stands for. -/
def segmentLanguage (seg : Text) : Set (List UInt8) :=
  {w | Accepts inSegment ((utf8 seg).map segmentToken) w}

def pathToken (seg : Text) : Token (List UInt8) :=
  if seg = doubleStar then .star else .one (segmentLanguage seg)

/-- The segments a `**` may run over. -/
def isSegment : Set (List UInt8) := {w | slash ∉ w}

/-- **The paths a pattern stands for.** -/
def language (pattern : Text) : Set (List UInt8) :=
  {path | Accepts isSegment ((pattern.splitOn '/').map pathToken) (path.splitOn slash)}

/-- The bytes are equal up to ASCII case. -/
def SameByte (x y : UInt8) : Prop := asciiLower x = asciiLower y

def SameText (x y : List UInt8) : Prop := x.map asciiLower = y.map asciiLower

/-- **The patterns have a path in common**, up to ASCII case. -/
def Common (a b : Text) : Prop := ∃ p ∈ language a, ∃ q ∈ language b, SameText p q

/-! ## Bytes -/

theorem asciiLower_toNat (b : UInt8) :
    (asciiLower b).toNat = if 65 ≤ b.toNat ∧ b.toNat ≤ 90 then b.toNat + 32 else b.toNat := by
  have hiff : 65 ≤ b ∧ b ≤ 90 ↔ 65 ≤ b.toNat ∧ b.toNat ≤ 90 := by
    rw [UInt8.le_iff_toNat_le, UInt8.le_iff_toNat_le]
    rfl
  unfold asciiLower
  by_cases h : 65 ≤ b ∧ b ≤ 90
  · have hn := hiff.mp h
    rw [if_pos h, if_pos hn, UInt8.toNat_add, show (32 : UInt8).toNat = 32 from rfl,
      Nat.mod_eq_of_lt (by omega)]
  · rw [if_neg h, if_neg (fun hn => h (hiff.mpr hn))]

/-- Only letters change. -/
theorem asciiLower_eq_iff {b c : UInt8} (hc : c.toNat < 65) : asciiLower b = c ↔ b = c := by
  rw [← UInt8.toNat_inj, ← UInt8.toNat_inj, asciiLower_toNat]
  split
  · omega
  · rfl

theorem asciiLower_eq_star {b : UInt8} : asciiLower b = starByte ↔ b = starByte :=
  asciiLower_eq_iff (by decide)

theorem asciiLower_eq_slash {b : UInt8} : asciiLower b = slash ↔ b = slash :=
  asciiLower_eq_iff (by decide)

/-- A character other than `/` is encoded without the byte `/`. -/
theorem slash_not_mem_encode {c : Char} (hc : c ≠ '/') : slash ∉ String.utf8EncodeChar c :=
  encode_special (d := '/') (by decide) hc

theorem slash_not_mem_utf8 {t : Text} (h : '/' ∉ t) : slash ∉ utf8 t :=
  utf8_special (d := '/') (by decide) h

/-- The bytes of the segments are the segments of the bytes. -/
theorem splitOn_utf8 (t : Text) : (utf8 t).splitOn slash = (t.splitOn '/').map utf8 :=
  Split.splitOn_flatMap (by decide) (fun _ hc => slash_not_mem_encode hc) t

theorem sum_byteLen_splitOn (t : Text) :
    ((t.splitOn '/').map fun s => byteLen s + 1).sum = byteLen t + 1 := by
  have h := Split.sum_length_splitOn slash (utf8 t)
  rw [splitOn_utf8, map_map] at h
  exact h

/-! ## Words of a language -/

theorem mem_of_accepts {α : Type} {ok S : Set α} {ps : List (Token α)} {u : List α}
    (h : Accepts ok ps u) (hok : ok ⊆ S) (hps : ∀ letters, .one letters ∈ ps → letters ⊆ S) :
    ∀ a ∈ u, a ∈ S := by
  induction h with
  | nil => simp
  | @one letters ps a w h _ ih =>
    intro x hx
    rcases mem_cons.mp hx with rfl | hx
    · exact hps letters (.head _) h
    · exact ih (fun l hl => hps l (.tail _ hl)) x hx
  | skip _ ih => exact ih fun l hl => hps l (.tail _ hl)
  | eat h _ ih =>
    intro x hx
    rcases mem_cons.mp hx with rfl | hx
    · exact hok h
    · exact ih hps x hx

/-- A segment pattern without `/` only stands for segments. -/
theorem segmentLanguage_subset {seg : Text} (h : '/' ∉ seg) : segmentLanguage seg ⊆ isSegment := by
  intro w hw hslash
  have hmem := mem_of_accepts hw (Set.Subset.refl inSegment) ?_ slash hslash
  · exact hmem rfl
  · intro letters hl
    obtain ⟨b, hb, htok⟩ := mem_map.mp hl
    unfold segmentToken at htok
    split at htok
    · cases htok
    · cases htok
      intro x hx
      rw [Set.mem_singleton_iff.mp hx]
      rintro rfl
      exact slash_not_mem_utf8 h hb

/-- Every segment pattern without `/` stands for some segment: its stars may stand for nothing. -/
theorem segmentLanguage_nonempty (seg : Text) : ∃ w, w ∈ segmentLanguage seg := by
  unfold segmentLanguage
  induction utf8 seg with
  | nil => exact ⟨[], .nil⟩
  | cons b bytes ih =>
    obtain ⟨w, hw⟩ := ih
    rw [map_cons, segmentToken]
    split
    · exact ⟨w, .skip hw⟩
    · exact ⟨b :: w, .one rfl hw⟩

theorem isSegment_of_accepts {pattern : Text} {u : List (List UInt8)}
    (h : Accepts isSegment ((pattern.splitOn '/').map pathToken) u) : ∀ w ∈ u, slash ∉ w := by
  apply mem_of_accepts h (Set.Subset.refl _)
  intro letters hl
  obtain ⟨seg, hseg, htok⟩ := mem_map.mp hl
  unfold pathToken at htok
  split at htok
  · cases htok
  · cases htok
    exact segmentLanguage_subset (Split.not_mem_of_mem_splitOn hseg)

/-! ## Paths in common -/

theorem sameText_intercalate {u v : List (List UInt8)} (h : List.Forall₂ SameText u v) :
    SameText ([slash].intercalate u) ([slash].intercalate v) := by
  induction h with
  | nil => rfl
  | @cons x y u v hxy huv ih =>
    cases huv with
    | nil =>
      rw [intercalate_singleton, intercalate_singleton]
      exact hxy
    | cons _ _ =>
      unfold SameText at hxy ih ⊢
      rw [intercalate_cons_cons, intercalate_cons_cons]
      simp only [map_append, hxy, ih]

theorem forall₂_splitOn {p q : List UInt8} (h : SameText p q) :
    List.Forall₂ SameText (p.splitOn slash) (q.splitOn slash) := by
  have hmap : (p.splitOn slash).map (List.map asciiLower)
      = (q.splitOn slash).map (List.map asciiLower) := by
    rw [← Split.splitOn_map (fun x => asciiLower_eq_slash), h,
      Split.splitOn_map (fun x => asciiLower_eq_slash)]
  rw [forall₂_iff_get]
  have hlen := congrArg List.length hmap
  simp only [length_map] at hlen
  refine ⟨hlen, ?_⟩
  intro i h1 h2
  have hget := congrArg (fun l => l[i]?) hmap
  simpa [SameText, h1, h2] using hget

/-- Only wildcards accept the empty word. -/
theorem accepts_singleton_of_nil {α : Type} {ok : Set α} {ps : List (Token α)} {a : α}
    (ha : a ∈ ok) (hne : ps ≠ []) {u : List α} (h : Accepts ok ps u) (hu : u = []) :
    Accepts ok ps [a] := by
  induction h with
  | nil => exact absurd rfl hne
  | one h _ _ => cases hu
  | skip rest _ => exact .eat ha (.skip (hu ▸ rest))
  | eat h _ _ => cases hu

/-- **Comparing patterns is comparing their lists of segments.** -/
theorem meet_iff_common (a b : Text) :
    Meet isSegment SameText ((a.splitOn '/').map pathToken) ((b.splitOn '/').map pathToken)
      ↔ Common a b := by
  have hne : ∀ t : Text, (t.splitOn '/').map pathToken ≠ [] := by
    intro t h
    exact splitOn_ne_nil '/' t (map_eq_nil_iff.mp h)
  constructor
  · rintro ⟨u, v, hu, hv, huv⟩
    -- a path has at least one segment; patterns that accept none accept the empty one
    have hnonempty : ∃ u v, u ≠ [] ∧ v ≠ [] ∧ Accepts isSegment ((a.splitOn '/').map pathToken) u
        ∧ Accepts isSegment ((b.splitOn '/').map pathToken) v ∧ List.Forall₂ SameText u v := by
      cases huv with
      | nil =>
        have hok : [] ∈ isSegment := not_mem_nil
        exact ⟨[[]], [[]], by simp, by simp, accepts_singleton_of_nil hok (hne a) hu rfl,
          accepts_singleton_of_nil hok (hne b) hv rfl, .cons rfl .nil⟩
      | cons h rest => exact ⟨_, _, by simp, by simp, hu, hv, .cons h rest⟩
    obtain ⟨u, v, hu0, hv0, hu, hv, huv⟩ := hnonempty
    refine ⟨[slash].intercalate u, ?_, [slash].intercalate v, ?_, sameText_intercalate huv⟩
    · unfold language
      rw [Set.mem_ofPred_eq, splitOn_intercalate slash (isSegment_of_accepts hu) hu0]
      exact hu
    · unfold language
      rw [Set.mem_ofPred_eq, splitOn_intercalate slash (isSegment_of_accepts hv) hv0]
      exact hv
  · rintro ⟨p, hp, q, hq, hpq⟩
    exact ⟨_, _, hp, hq, forall₂_splitOn hpq⟩

end Thegn.Pipeline
