import Thegn.Lib.Words

set_option autoImplicit false

/-! # Conflicts in a merged file

`classify_file` of `thegn-core/src/merge_classify.rs`. A scan starts at every line that begins with
the first marker; it reads the lines behind it up to one that begins with a marker it can end with.
Since it ends at the next line that begins with the first marker at the latest, every such line is
read on its own (`classifyFrom_eq`).
-/

namespace Thegn.Conflict

open Text List

/-! ## The scanner -/

inductive HunkClass
  | concurrentAdd
  | restructure
  deriving DecidableEq

structure Hunk where
  line : Nat
  cls : HunkClass
  oursHint : Text
  theirsHint : Text
  deriving DecidableEq

def hintMax : Nat := 72

/-- The first line of a section that is not blank, clipped. -/
def hint (lines : List Text) : Text :=
  let line := ((lines.map trim).find? (· ≠ [])).getD []
  if line.length ≤ hintMax then line else line.take hintMax ++ ['…']

def oursMark : Text := "<<<<<<<".toList
def baseMark : Text := "|||||||".toList
def sepMark : Text := "=======".toList
def theirsMark : Text := ">>>>>>>".toList

/-- What the inner loop has found, with indices from the line behind the first marker on. -/
structure Marks where
  baseStart : Option Nat
  sep : Option Nat
  close : Option Nat

/-- The inner loop, from the line `j` on. -/
def marks (j : Nat) (baseStart sep : Option Nat) : List Text → Marks
  | [] => ⟨baseStart, sep, none⟩
  | l :: lines =>
    if startsWith l baseMark ∧ baseStart = none ∧ sep = none then marks (j + 1) (some j) sep lines
    else if startsWith l sepMark ∧ sep = none then marks (j + 1) baseStart (some j) lines
    else if startsWith l theirsMark then ⟨baseStart, sep, some j⟩
    -- a new hunk opens before this one is closed
    else if startsWith l oursMark then ⟨baseStart, sep, none⟩
    else marks (j + 1) baseStart sep lines

def blank (l : Text) : Bool := trim l = []

/-- The class that the base section decides, if there is one. -/
def classOf (baseStart : Option Nat) (sep : Nat) (lines : List Text) : HunkClass :=
  match baseStart with
  | some b => if ((lines.take sep).drop (b + 1)).all blank then .concurrentAdd else .restructure
  | none => .restructure

/-- The hunk of the marker at `start`, with the number of lines behind it that belong to it. -/
def hunkAt (start : Nat) (lines : List Text) : Option (Hunk × Nat) :=
  match marks 0 none none lines with
  | ⟨baseStart, some sep, some close⟩ =>
    some (⟨start + 1, classOf baseStart sep lines, hint (lines.take (baseStart.getD sep)),
      hint ((lines.take close).drop (sep + 1))⟩, close + 1)
  | _ => none

/-- The outer loop at line `i`, with the lines that it still jumps over. -/
def classifyFrom (i : Nat) : Nat → List Text → List Hunk
  | _, [] => []
  | jump + 1, _ :: lines => classifyFrom (i + 1) jump lines
  | 0, l :: lines =>
    if startsWith l oursMark then
      match hunkAt i lines with
      | some (hunk, jump) => hunk :: classifyFrom (i + 1) jump lines
      | none => classifyFrom (i + 1) 0 lines
    else classifyFrom (i + 1) 0 lines

def classifyFile (contents : Text) : List Hunk := classifyFrom 0 0 (lines contents)

/-! ## What the scan sees -/

/-- The line begins as a marker does. -/
def Begins (mark l : Text) : Prop := startsWith l mark = true

instance (mark l : Text) : Decidable (Begins mark l) :=
  inferInstanceAs (Decidable (startsWith l mark = true))

/-- The scan ends at neither of these lines. -/
def Open (l : Text) : Prop := ¬ Begins oursMark l ∧ ¬ Begins theirsMark l

/-- The first line that begins with the first or the last marker begins with the last one, and `p`
holds or one before it begins with the separator. -/
def Reaches (p : Prop) (lines : List Text) : Prop :=
  ∃ seen t rest, lines = seen ++ t :: rest ∧ (∀ l ∈ seen, Open l) ∧ Begins theirsMark t ∧
    (p ∨ ∃ l ∈ seen, Begins sepMark l)

/-- The lines behind a first marker close its hunk. -/
def Closes (lines : List Text) : Prop := Reaches False lines

/-- Only blank lines are between the first line that begins with the base marker and the first that
begins with the separator. -/
def BlankBase (lines : List Text) : Prop :=
  ∃ ours b base e rest, lines = ours ++ b :: (base ++ e :: rest) ∧
    (∀ l ∈ ours, ¬ Begins baseMark l ∧ ¬ Begins sepMark l) ∧ Begins baseMark b ∧
      (∀ l ∈ base, blank l = true) ∧
    Begins sepMark e

theorem begins_append {mark rest : Text} : Begins mark (mark ++ rest) := by
  rw [Begins, startsWith]
  exact isPrefixOf_iff_prefix.mpr (prefix_append mark rest)

/-- Markers of one length: a line begins with one of them at most. -/
theorem Begins.eq {a b l : Text} (ha : Begins a l) (hb : Begins b l) (hlen : a.length = b.length) :
    a = b := by
  obtain ⟨r, rfl⟩ := isPrefixOf_iff_prefix.mp ha
  obtain ⟨r', heq⟩ := isPrefixOf_iff_prefix.mp hb
  exact (append_inj heq.symm hlen).1

theorem Begins.open_base {l : Text} (h : Begins baseMark l) : Open l :=
  ⟨fun h' => absurd (h.eq h' (by decide)) (by decide), fun h' =>
    absurd (h.eq h' (by decide)) (by decide)⟩

theorem Begins.open_sep {l : Text} (h : Begins sepMark l) : Open l :=
  ⟨fun h' => absurd (h.eq h' (by decide)) (by decide), fun h' =>
    absurd (h.eq h' (by decide)) (by decide)⟩

theorem Begins.not_sep {l : Text} (h : Begins baseMark l) : ¬ Begins sepMark l :=
  fun h' => absurd (h.eq h' (by decide)) (by decide)

/-- A blank line begins with no marker. -/
theorem not_begins_of_blank {c : Char} {mark l : Text} (hc : isWhitespace c = false)
    (h : blank l = true) : ¬ Begins (c :: mark) l := by
  intro hb
  obtain ⟨r, rfl⟩ := isPrefixOf_iff_prefix.mp hb
  have htrim : trim (c :: mark ++ r) = [] := of_decide_eq_true h
  rw [trim, trimStart, cons_append, dropWhile_cons_of_neg (by rw [hc]; exact Bool.false_ne_true),
    trimEnd, trimEndMatches, reverse_eq_nil_iff, dropWhile_eq_nil_iff] at htrim
  have hws := htrim c (mem_reverse.mpr (.head _))
  rw [hc] at hws
  cases hws

/-! ## The inner loop -/

section Reaches

variable {p q : Prop} {l : Text} {lines : List Text}

theorem reaches_nil : ¬ Reaches p [] := by
  rintro ⟨seen, t, rest, heq, -⟩
  exact append_ne_nil_of_right_ne_nil seen (cons_ne_nil t rest) heq.symm

theorem reaches_theirs (h : Begins theirsMark l) : Reaches p (l :: lines) ↔ p := by
  constructor
  · rintro ⟨seen, t, rest, heq, hopen, -, hp⟩
    cases seen with
    | nil => exact hp.resolve_right (by simp)
    | cons a seen =>
      obtain ⟨rfl, -⟩ := List.cons.inj heq
      exact absurd h (hopen l (.head _)).2
  · exact fun hp => ⟨[], l, lines, rfl, by simp, h, .inl hp⟩

theorem reaches_ours (h : Begins oursMark l) : ¬ Reaches p (l :: lines) := by
  rintro ⟨seen, t, rest, heq, hopen, ht, -⟩
  cases seen with
  | nil =>
    obtain ⟨rfl, -⟩ := List.cons.inj heq
    exact absurd (h.eq ht (by decide)) (by decide)
  | cons a seen =>
    obtain ⟨rfl, -⟩ := List.cons.inj heq
    exact absurd h (hopen l (.head _)).1

theorem reaches_open (h : Open l) : Reaches p (l :: lines) ↔
    Reaches (p ∨ Begins sepMark l) lines := by
  constructor
  · rintro ⟨seen, t, rest, heq, hopen, ht, hp⟩
    cases seen with
    | nil =>
      obtain ⟨rfl, -⟩ := List.cons.inj heq
      exact absurd ht h.2
    | cons a seen =>
      obtain ⟨rfl, rfl⟩ := List.cons.inj heq
      refine ⟨seen, t, rest, rfl, fun x hx => hopen x (.tail _ hx), ht, ?_⟩
      rcases hp with hp | ⟨x, hx, hsep⟩
      · exact .inl (.inl hp)
      · rcases mem_cons.mp hx with rfl | hx
        · exact .inl (.inr hsep)
        · exact .inr ⟨x, hx, hsep⟩
  · rintro ⟨seen, t, rest, rfl, hopen, ht, hp⟩
    refine ⟨l :: seen, t, rest, rfl, forall_mem_cons.mpr ⟨h, hopen⟩, ht, ?_⟩
    rcases hp with (hp | hsep) | ⟨x, hx, hsep⟩
    · exact .inl hp
    · exact .inr ⟨l, .head _, hsep⟩
    · exact .inr ⟨x, .tail _ hx, hsep⟩

theorem Reaches.congr (h : p ↔ q) : Reaches p lines ↔ Reaches q lines := by rw [propext h]

end Reaches

/-- When the inner loop finds a separator and an end. -/
theorem marks_isSome_iff (lines : List Text) : ∀ (j : Nat) (b s : Option Nat),
    (marks j b s lines).sep ≠ none ∧ (marks j b s lines).close ≠ none ↔
    Reaches (s ≠ none) lines := by
  induction lines with
  | nil => exact fun j b s => ⟨fun h => absurd rfl h.2, fun h => absurd h reaches_nil⟩
  | cons l lines ih =>
    intro j b s
    unfold marks
    split_ifs with hbase hsep htheirs hours
    · rw [ih, reaches_open (Begins.open_base hbase.1)]
      exact Reaches.congr ⟨.inl, fun h => h.resolve_right (Begins.not_sep hbase.1)⟩
    · rw [ih, reaches_open (Begins.open_sep hsep.1)]
      exact Reaches.congr ⟨fun _ => .inr hsep.1, fun _ => Option.some_ne_none j⟩
    · rw [reaches_theirs htheirs]
      exact ⟨And.left, fun h => ⟨h, Option.some_ne_none j⟩⟩
    · exact ⟨fun h => absurd rfl h.2, fun h => absurd h (reaches_ours hours)⟩
    · rw [ih, reaches_open ⟨hours, htheirs⟩]
      exact Reaches.congr ⟨.inl, fun h => h.elim id fun hbegin hnone => hsep ⟨hbegin, hnone⟩⟩

/-- The scan stays before the next first marker. -/
theorem not_ours_of_close {lines : List Text} : ∀ {j : Nat} {b s : Option Nat} {c : Nat},
    (marks j b s lines).close = some c → j ≤ c ∧ ∀ l ∈ lines.take (c + 1 - j),
      ¬ Begins oursMark l := by
  induction lines with
  | nil =>
    intro j b s c h
    cases h
  | cons l lines ih =>
    intro j b s c h
    -- one line further
    have hstep : Open l → ∀ {b' s' : Option Nat}, (marks (j + 1) b' s' lines).close = some c →
        j ≤ c ∧ ∀ x ∈ (l :: lines).take (c + 1 - j), ¬ Begins oursMark x := by
      intro hopen b' s' h'
      obtain ⟨hle, hrest⟩ := ih h'
      refine ⟨by omega, fun x hx => ?_⟩
      rw [show c + 1 - j = c + 1 - (j + 1) + 1 by omega, take_succ_cons] at hx
      rcases mem_cons.mp hx with rfl | hx
      · exact hopen.1
      · exact hrest x hx
    unfold marks at h
    split_ifs at h with hbase hsep htheirs hours
    · exact hstep (Begins.open_base hbase.1) h
    · exact hstep (Begins.open_sep hsep.1) h
    · obtain rfl := Option.some.inj h
      refine ⟨le_rfl, fun x hx => ?_⟩
      rw [show j + 1 - j = 1 by omega, take_succ_cons, take_zero, mem_singleton] at hx
      subst hx
      exact fun hours => absurd (hours.eq htheirs (by decide)) (by decide)
    · exact hstep ⟨hours, htheirs⟩ h

/-! ## The class -/

theorem marks_of_sep (lines : List Text) : ∀ (j : Nat) (b : Option Nat) (s : Nat),
    (marks j b (some s) lines).baseStart = b ∧ (marks j b (some s) lines).sep = some s := by
  induction lines with
  | nil => exact fun _ _ _ => ⟨rfl, rfl⟩
  | cons l lines ih =>
    intro j b s
    rw [marks, if_neg fun h => Option.some_ne_none s h.2.2,
      if_neg fun h => Option.some_ne_none s h.2]
    split_ifs
    · exact ⟨rfl, rfl⟩
    · exact ⟨rfl, rfl⟩
    · exact ih (j + 1) b s

/-- The separator at `s` is the first line from `j` on that begins with it. -/
def FirstSep (j s : Nat) (lines : List Text) : Prop :=
  ∃ pre e rest, lines = pre ++ e :: rest ∧ s = j + pre.length ∧ (∀ l ∈ pre, ¬ Begins sepMark l) ∧
    Begins sepMark e

theorem FirstSep.cons {j s : Nat} {l : Text} {lines : List Text} (h : FirstSep (j + 1) s lines)
    (hl : ¬ Begins sepMark l) : FirstSep j s (l :: lines) := by
  obtain ⟨pre, e, rest, rfl, rfl, hpre, he⟩ := h
  exact ⟨l :: pre, e, rest, rfl, by rw [length_cons]; omega, forall_mem_cons.mpr ⟨hl, hpre⟩, he⟩

theorem marks_of_base (lines : List Text) : ∀ {j b s : Nat},
    (marks j (some b) none lines).sep = some s →
      (marks j (some b) none lines).baseStart = some b ∧ FirstSep j s lines := by
  induction lines with
  | nil =>
    intro j b s h
    cases h
  | cons l lines ih =>
    intro j b s h
    rw [marks, if_neg fun h => Option.some_ne_none b h.2.1] at h ⊢
    split_ifs at h ⊢ with hsep htheirs hours
    · obtain ⟨hmarks, hmarks'⟩ := marks_of_sep lines (j + 1) (some b) j
      rw [hmarks'] at h
      obtain rfl := Option.some.inj h
      exact ⟨hmarks, [], l, lines, rfl, rfl, by simp, hsep.1⟩
    · obtain ⟨hstart, hfirst⟩ := ih h
      exact ⟨hstart, hfirst.cons fun h => hsep ⟨h, rfl⟩⟩

/-- The base marker at `b` is the first from `j` on that begins with it, and no separator is before
it. -/
def FirstBase (j b s : Nat) (lines : List Text) : Prop :=
  ∃ ours m rest, lines = ours ++ m :: rest ∧ b = j + ours.length ∧
    (∀ l ∈ ours, ¬ Begins baseMark l ∧ ¬ Begins sepMark l) ∧ Begins baseMark m ∧
      FirstSep (b + 1) s rest

/-- No base marker is before the separator at `s`. -/
def NoBase (j s : Nat) (lines : List Text) : Prop :=
  ∃ pre e rest, lines = pre ++ e :: rest ∧ s = j + pre.length ∧
    (∀ l ∈ pre, ¬ Begins baseMark l ∧ ¬ Begins sepMark l) ∧ Begins sepMark e

theorem marks_of_none (lines : List Text) : ∀ {j s : Nat}, (marks j none none lines).sep = some s →
    ((marks j none none lines).baseStart = none ∧ NoBase j s lines) ∨
      ∃ b, (marks j none none lines).baseStart = some b ∧ FirstBase j b s lines := by
  induction lines with
  | nil =>
    intro j s h
    cases h
  | cons l lines ih =>
    intro j s h
    unfold marks at h ⊢
    split_ifs at h ⊢ with hbase hsep htheirs hours
    · obtain ⟨hstart, hfirst⟩ := marks_of_base lines h
      exact .inr ⟨j, hstart, [], l, lines, rfl, rfl, by simp, hbase.1, hfirst⟩
    · obtain ⟨hmarks, hmarks'⟩ := marks_of_sep lines (j + 1) none j
      rw [hmarks'] at h
      obtain rfl := Option.some.inj h
      exact .inl ⟨hmarks, [], l, lines, rfl, rfl, by simp, hsep.1⟩
    · have hl : ¬ Begins baseMark l ∧ ¬ Begins sepMark l :=
        ⟨fun h => hbase ⟨h, rfl, rfl⟩, fun h => hsep ⟨h, rfl⟩⟩
      rcases ih h with ⟨hstart, pre, e, rest, rfl, rfl, hpre, he⟩
        | ⟨b, hstart, ours, m, rest, rfl, rfl, hours', hm, hfirst⟩
      · refine .inl ⟨hstart, l :: pre, e, rest, rfl, ?_, forall_mem_cons.mpr ⟨hl, hpre⟩, he⟩
        rw [length_cons]
        omega
      · refine .inr ⟨_, hstart, l :: ours, m, rest, rfl, ?_, forall_mem_cons.mpr ⟨hl, hours'⟩,
          hm, hfirst⟩
        rw [length_cons]
        omega

/-- The first element with a property cuts a list in one way. -/
theorem append_cons_unique {α : Type} {p : α → Prop} {xs xs' ys ys' : List α} {a a' : α}
    (hxs : ∀ x ∈ xs, ¬ p x)
    (ha : p a) (hxs' : ∀ x ∈ xs', ¬ p x) (ha' : p a') (h : xs ++ a :: ys = xs' ++ a' :: ys') :
    xs = xs' ∧ a = a' ∧ ys = ys' := by
  induction xs generalizing xs' with
  | nil =>
    cases xs' with
    | nil => exact ⟨rfl, List.cons.inj h⟩
    | cons x xs' =>
      obtain ⟨rfl, -⟩ := List.cons.inj h
      exact absurd ha (hxs' a (.head _))
  | cons x xs ih =>
    cases xs' with
    | nil =>
      obtain ⟨rfl, -⟩ := List.cons.inj h
      exact absurd ha' (hxs x (.head _))
    | cons x' xs' =>
      obtain ⟨rfl, htail⟩ := List.cons.inj h
      obtain ⟨rfl, hrest⟩ := ih (fun y hy => hxs y (.tail _ hy))
        (fun y hy => hxs' y (.tail _ hy)) htail
      exact ⟨rfl, hrest⟩

/-- **The class is that of the lines between the first base marker and the first separator.** -/
theorem classOf_iff {lines : List Text} {s : Nat} (h : (marks 0 none none lines).sep = some s) :
    classOf (marks 0 none none lines).baseStart s lines = .concurrentAdd ↔ BlankBase lines := by
  -- the first line that begins with either marker
  have hfirst : ∀ {l : Text}, ¬ Begins baseMark l ∧ ¬ Begins sepMark l →
    ¬ (Begins baseMark l ∨ Begins sepMark l) :=
    fun h => not_or.mpr h
  rcases marks_of_none lines h with ⟨hstart, pre, e, rest, hlines, -, hpre, he⟩ |
    ⟨b, hstart, ours, m, rest, hlines, hb, hours, hm, base, e, rest', hrest, hs, hbase, he⟩
  · rw [hstart]
    refine ⟨fun h => (by cases h), ?_⟩
    rintro ⟨ours, b, base, e', rest', heq, hours, hb, -, -⟩
    obtain ⟨-, rfl, -⟩ := append_cons_unique (p := fun l => Begins baseMark l ∨ Begins sepMark l)
      (fun l hl => hfirst (hpre l hl)) (.inr he) (fun l hl => hfirst (hours l hl)) (.inl hb)
        (hlines.symm.trans heq)
    exact absurd he hb.not_sep
  · have hslice : (lines.take s).drop (b + 1) = base := by
      have hcut : lines = (ours ++ [m] ++ base) ++ e :: rest' := by rw [hlines, hrest]; simp
      have hlen : s = (ours ++ [m] ++ base).length := by simp; omega
      have hlen' : b + 1 = (ours ++ [m]).length := by simp; omega
      rw [hcut, hlen, take_left, hlen', drop_left]
    rw [hstart, classOf, hslice]
    constructor
    · intro h
      split_ifs at h with hblank
      exact ⟨ours, m, base, e, rest', by rw [hlines, hrest], hours, hm, all_eq_true.mp hblank, he⟩
    · rintro ⟨ours', b', base', e', rest'', heq, hours', hb', hblank, he'⟩
      obtain ⟨-, -, htail⟩ :=
        append_cons_unique (p := fun l => Begins baseMark l ∨ Begins sepMark l)
        (fun l hl => hfirst (hours l hl)) (.inl hm) (fun l hl => hfirst (hours' l hl)) (.inl hb')
          (hlines.symm.trans heq)
      obtain ⟨rfl, -, -⟩ := append_cons_unique (p := Begins sepMark) hbase he
        (fun l hl => not_begins_of_blank (by decide) (hblank l hl)) he' (hrest.symm.trans htail)
      rw [if_pos (all_eq_true.mpr hblank)]

theorem hunkAt_eq_none {start : Nat} {lines : List Text} : hunkAt start lines = none ↔
    ¬ Closes lines := by
  have hiff := marks_isSome_iff lines 0 none none
  have hcloses : Reaches ((none : Option Nat) ≠ none) lines ↔ Closes lines :=
    Reaches.congr ⟨fun h => h rfl, False.elim⟩
  rw [← hcloses, ← hiff, hunkAt]
  generalize marks 0 none none lines = m
  obtain ⟨b, s, c⟩ := m
  cases s <;> cases c <;> simp

/-- **What a scan reports.** -/
theorem hunkAt_eq_some {start jump : Nat} {hunk : Hunk} {lines : List Text}
    (h : hunkAt start lines = some (hunk, jump)) :
    hunk.line = start + 1 ∧ (hunk.cls = .concurrentAdd ↔ BlankBase lines) ∧
      ∀ l ∈ lines.take jump, ¬ Begins oursMark l := by
  have hclass := @classOf_iff lines
  have hclose := @not_ours_of_close lines 0 none none
  rw [hunkAt] at h
  generalize marks 0 none none lines = m at h hclass hclose
  obtain ⟨b, s, c⟩ := m
  cases s with
  | none => cases h
  | some s =>
    cases c with
    | none => cases h
    | some c =>
      obtain ⟨rfl, rfl⟩ := Prod.mk.inj (Option.some.inj h)
      exact ⟨rfl, hclass rfl, (hclose rfl).2⟩

/-! ## The outer loop -/

/-- Jumping over lines that begin no hunk is reading them. -/
theorem classifyFrom_jump {lines : List Text} : ∀ {i jump : Nat},
    (∀ l ∈ lines.take jump, ¬ Begins oursMark l) →
    classifyFrom i jump lines = classifyFrom i 0 lines := by
  induction lines with
  | nil =>
    intro i jump _
    rw [classifyFrom, classifyFrom]
  | cons l lines ih =>
    intro i jump h
    cases jump with
    | zero => rfl
    | succ jump =>
      rw [take_succ_cons, forall_mem_cons] at h
      have hl : ¬ startsWith l oursMark = true := h.1
      rw [classifyFrom, classifyFrom, if_neg hl, ih h.2]

/-- What the line `i` contributes. -/
def hunksAt (i : Nat) (l : Text) (lines : List Text) : List Hunk :=
  if startsWith l oursMark then ((hunkAt i lines).map Prod.fst).toList else []

/-- **Every line is read on its own.** -/
theorem classifyFrom_eq (i : Nat) (l : Text) (lines : List Text) :
    classifyFrom i 0 (l :: lines) = hunksAt i l lines ++ classifyFrom (i + 1) 0 lines := by
  rw [classifyFrom, hunksAt]
  split_ifs with hours
  · cases h : hunkAt i lines with
    | none => rfl
    | some r =>
      obtain ⟨hunk, jump⟩ := r
      obtain ⟨-, -, hjump⟩ := hunkAt_eq_some h
      simp only [Option.map_some, Option.toList_some, singleton_append, classifyFrom_jump hjump]
  · rfl

end Thegn.Conflict
