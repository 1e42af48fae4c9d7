import Thegn.Conflict.Classify

set_option autoImplicit false

/-! # Files as a merge writes them

A file of ordinary lines and conflicts with a base section, and when `classify_file` reads it as it
is written. A marker is seven characters before the end of the line or a space; the scanner asks for
the seven characters only, so a line of a section can be taken for one (`classifyFile_iff`).
-/

namespace Thegn.Conflict

open Text List

/-! ## Files -/

/-- A marker line. -/
def IsMark (mark l : Text) : Prop := ∃ rest, l = mark ++ rest ∧ (rest = [] ∨ rest.head? = some ' ')

/-- A line of a section is no marker. -/
def Plain (l : Text) : Prop :=
  ¬ IsMark oursMark l ∧ ¬ IsMark baseMark l ∧ l ≠ sepMark ∧ ¬ IsMark theirsMark l

/-- A conflict with its base section. -/
structure Conflict where
  opening : Text
  ours : List Text
  baseOpening : Text
  base : List Text
  theirs : List Text
  closing : Text
  opening_isMark : IsMark oursMark opening
  baseOpening_isMark : IsMark baseMark baseOpening
  closing_isMark : IsMark theirsMark closing
  ours_plain : ∀ l ∈ ours, Plain l
  base_plain : ∀ l ∈ base, Plain l
  theirs_plain : ∀ l ∈ theirs, Plain l

/-- The lines behind the opening marker. -/
def Conflict.body (c : Conflict) : List Text :=
  c.ours ++ c.baseOpening :: (c.base ++ sepMark :: (c.theirs ++ [c.closing]))

/-- The class of a conflict. -/
def Conflict.cls (c : Conflict) : HunkClass :=
  if c.base.all blank then .concurrentAdd else .restructure

/-- An ordinary line, or a conflict. -/
inductive Piece
  | line (l : Text) (notMark : ¬ IsMark oursMark l)
  | conflict (c : Conflict)

def Piece.lines : Piece → List Text
  | .line l _ => [l]
  | .conflict c => c.opening :: c.body

/-- The lines of a file. -/
def fileLines : List Piece → List Text
  | [] => []
  | piece :: file => piece.lines ++ fileLines file

/-- The conflicts of a file, with their lines; the first line of the file is `i + 1`. -/
def conflicts (i : Nat) : List Piece → List (Nat × HunkClass)
  | [] => []
  | .line _ _ :: file => conflicts (i + 1) file
  | .conflict c :: file => (i + 1, c.cls) :: conflicts (i + 1 + c.body.length) file

/-! ## Reading as written -/

/-- No line of a part begins a hunk that is closed behind it. -/
def Quiet : List Text → List Text → Prop
  | [], _ => True
  | l :: part, rest => ¬ (Begins oursMark l ∧ Closes (part ++ rest)) ∧ Quiet part rest

/-- Each conflict is closed behind its opening marker, with a base that looks blank if it is;
nothing else begins a hunk that is closed. -/
def ReadsAsWritten : List Piece → Prop
  | [] => True
  | .line l _ :: file => Quiet [l] (fileLines file) ∧ ReadsAsWritten file
  | .conflict c :: file =>
    Closes (c.body ++ fileLines file) ∧ (BlankBase (c.body ++ fileLines file) ↔
      c.base.all blank = true) ∧ Quiet c.body (fileLines file) ∧ ReadsAsWritten file

/-- What is compared of a hunk. -/
def Hunk.place (h : Hunk) : Nat × HunkClass := (h.line, h.cls)

theorem line_le_of_mem {lines : List Text} : ∀ {i : Nat} {h : Hunk}, h ∈ classifyFrom i 0 lines →
    i < h.line := by
  induction lines with
  | nil =>
    intro i h hmem
    rw [classifyFrom] at hmem
    cases hmem
  | cons l lines ih =>
    intro i h hmem
    rw [classifyFrom_eq, mem_append] at hmem
    rcases hmem with hmem | hmem
    · rw [hunksAt] at hmem
      split_ifs at hmem
      · cases hat : hunkAt i lines with
        | none =>
          rw [hat] at hmem
          cases hmem
        | some r =>
          obtain ⟨hunk, jump⟩ := r
          rw [hat] at hmem
          obtain rfl : h = hunk := by simpa using hmem
          rw [(hunkAt_eq_some hat).1]
          exact Nat.lt_succ_self i
      · cases hmem
    · have hlt := ih hmem
      omega

theorem line_le_of_conflicts {file : List Piece} : ∀ {i : Nat} {x : Nat × HunkClass},
    x ∈ conflicts i file → i < x.1 := by
  induction file with
  | nil =>
    intro i x hmem
    cases hmem
  | cons piece file ih =>
    intro i x hmem
    cases piece with
    | line l hl =>
      have hlt := ih (i := i + 1) hmem
      omega
    | conflict c =>
      rcases mem_cons.mp hmem with rfl | hmem
      · exact Nat.lt_succ_self i
      · have hlt := ih hmem
        omega

/-- The hunk of a line that is read as closed. -/
theorem hunksAt_closed {i : Nat} {l : Text} {lines : List Text} (hl : Begins oursMark l)
    (h : Closes lines) :
    ∃ cls, (hunksAt i l lines).map Hunk.place = [(i + 1, cls)] ∧
    (cls = .concurrentAdd ↔ BlankBase lines) := by
  have hl' : startsWith l oursMark = true := hl
  cases hat : hunkAt i lines with
  | none => exact absurd h (hunkAt_eq_none.mp hat)
  | some r =>
    obtain ⟨hunk, jump⟩ := r
    obtain ⟨hline, hclass, -⟩ := hunkAt_eq_some hat
    refine ⟨hunk.cls, ?_, hclass⟩
    rw [hunksAt, if_pos hl', hat]
    simp [Hunk.place, hline]

theorem hunksAt_quiet {i : Nat} {l : Text} {lines : List Text}
    (h : ¬ (Begins oursMark l ∧ Closes lines)) : hunksAt i l lines = [] := by
  rw [hunksAt]
  split_ifs with hl
  · rw [hunkAt_eq_none.mpr fun hcloses => h ⟨hl, hcloses⟩]
    rfl
  · rfl

/-- A part that holds no conflict is read as it is written when it is quiet. -/
theorem classifyFrom_part (rest : List Text) (places : List (Nat × HunkClass)) (part : List Text) :
    ∀ {i : Nat}, (∀ x ∈ places, i + part.length < x.1) →
      ((classifyFrom i 0 (part ++ rest)).map Hunk.place = places ↔
        Quiet part rest ∧ (classifyFrom (i + part.length) 0 rest).map Hunk.place = places) := by
  induction part with
  | nil => exact fun _ => ⟨fun h => ⟨trivial, h⟩, And.right⟩
  | cons l part ih =>
    intro i hplaces
    rw [length_cons] at hplaces
    have hih := ih (i := i + 1) fun x hx => by have := hplaces x hx; omega
    rw [cons_append, classifyFrom_eq, map_append, Quiet, and_assoc, length_cons,
      show i + (part.length + 1) = i + 1 + part.length by omega]
    by_cases hquiet : ¬ (Begins oursMark l ∧ Closes (part ++ rest))
    · rw [hunksAt_quiet hquiet, map_nil, nil_append, hih]
      exact ⟨fun h => ⟨hquiet, h⟩, And.right⟩
    · obtain ⟨cls, hplace, -⟩ := hunksAt_closed (i := i) (not_not.mp hquiet).1 (not_not.mp hquiet).2
      rw [hplace]
      refine ⟨fun h => ?_, fun h => absurd h.1 hquiet⟩
      have hlt := hplaces (i + 1, cls) (by rw [← h]; exact .head _)
      exact absurd hlt (by dsimp only; omega)

theorem cls_eq_iff {c : Conflict} {cls : HunkClass} {p : Prop} (h : cls = .concurrentAdd ↔ p) :
    cls = c.cls ↔ (p ↔ c.base.all blank = true) := by
  rw [← h, Conflict.cls]
  cases cls <;> split_ifs with hblank <;> simp [hblank]

/-- Behind its opening marker a conflict is read as it is written when it is closed and its base
looks as it is. -/
theorem classifyFrom_conflict {i : Nat} {l : Text} {lines : List Text} {c : Conflict}
    {places : List (Nat × HunkClass)} (hl : Begins oursMark l) :
    (classifyFrom i 0 (l :: lines)).map Hunk.place = (i + 1, c.cls) :: places ↔
      Closes lines ∧ (BlankBase lines ↔ c.base.all blank = true) ∧
        (classifyFrom (i + 1) 0 lines).map Hunk.place = places := by
  rw [classifyFrom_eq, map_append]
  by_cases hcloses : Closes lines
  · obtain ⟨cls, hplace, hclass⟩ := hunksAt_closed (i := i) hl hcloses
    rw [hplace, singleton_append, List.cons.injEq, Prod.mk.injEq, cls_eq_iff hclass]
    exact ⟨fun h => ⟨hcloses, h.1.2, h.2⟩, fun h => ⟨⟨rfl, h.2.1⟩, h.2.2⟩⟩
  · rw [hunksAt_quiet fun h => hcloses h.2, map_nil, nil_append]
    refine ⟨fun h => ?_, fun h => absurd h.1 hcloses⟩
    have hmem : (i + 1, c.cls) ∈ (classifyFrom (i + 1) 0 lines).map Hunk.place := by
      rw [h]
      exact .head _
    obtain ⟨hunk, hhunk, heq⟩ := mem_map.mp hmem
    have hlt := line_le_of_mem hhunk
    rw [show hunk.line = i + 1 from congrArg Prod.fst heq] at hlt
    exact absurd hlt (Nat.lt_irrefl _)

theorem IsMark.begins {mark l : Text} (h : IsMark mark l) : Begins mark l := by
  obtain ⟨rest, rfl, -⟩ := h
  exact begins_append

theorem classifyFrom_iff (file : List Piece) : ∀ i : Nat,
    (classifyFrom i 0 (fileLines file)).map Hunk.place = conflicts i file ↔
    ReadsAsWritten file := by
  induction file with
  | nil =>
    intro i
    rw [fileLines, classifyFrom]
    exact ⟨fun _ => trivial, fun _ => rfl⟩
  | cons piece file ih =>
    intro i
    cases piece with
    | line l hl =>
      have hpart := classifyFrom_part (fileLines file) (conflicts (i + 1) file) [l] (i := i)
        fun x hx => line_le_of_conflicts hx
      rw [fileLines, Piece.lines, conflicts, hpart, ReadsAsWritten]
      exact and_congr_right fun _ => ih (i + 1)
    | conflict c =>
      have hpart := classifyFrom_part (fileLines file) (conflicts (i + 1 + c.body.length) file)
        c.body (i := i + 1)
        fun x hx => line_le_of_conflicts hx
      rw [fileLines, Piece.lines, cons_append, conflicts,
        classifyFrom_conflict c.opening_isMark.begins, hpart, ReadsAsWritten]
      exact and_congr_right fun _ => and_congr_right fun _ => and_congr_right fun _ => ih _

/-! ## Lines that look like markers -/

/-- The line begins with the characters of a marker. -/
def LikeMark (l : Text) : Prop :=
  Begins oursMark l ∨ Begins baseMark l ∨ Begins sepMark l ∨ Begins theirsMark l

instance : DecidablePred LikeMark := fun l =>
  inferInstanceAs (Decidable (Begins oursMark l ∨ Begins baseMark l ∨ Begins sepMark l ∨
    Begins theirsMark l))

/-- No line but the markers looks like one; in ordinary text only the first marker matters. -/
def Unlike : List Piece → Prop
  | [] => True
  | .line l _ :: file => ¬ Begins oursMark l ∧ Unlike file
  | .conflict c :: file => (∀ l ∈ c.ours ++ c.base ++ c.theirs, ¬ LikeMark l) ∧ Unlike file

theorem quiet_of_not_begins {rest : List Text} (part : List Text)
    (h : ∀ l ∈ part, ¬ Begins oursMark l) : Quiet part rest := by
  induction part with
  | nil => trivial
  | cons l part ih =>
    exact ⟨fun hl => h l (.head _) hl.1, ih fun x hx => h x (.tail _ hx)⟩

theorem begins_self (mark : Text) : Begins mark mark := by
  have h := @begins_append mark []
  rwa [append_nil] at h

theorem open_of_not_likeMark {l : Text} (h : ¬ LikeMark l) : Open l :=
  ⟨fun hl => h (.inl hl), fun hl => h (.inr (.inr (.inr hl)))⟩

section Sections

variable {c : Conflict} {rest : List Text}

theorem closes_body (h : ∀ l ∈ c.ours ++ c.base ++ c.theirs, ¬ LikeMark l) :
    Closes (c.body ++ rest) := by
  refine ⟨c.ours ++ c.baseOpening :: (c.base ++ sepMark :: c.theirs), c.closing, rest, ?_,
    fun l hl => ?_, c.closing_isMark.begins, .inr ⟨sepMark, ?_, begins_self sepMark⟩⟩
  · simp [Conflict.body]
  · simp only [mem_append, mem_cons] at hl
    rcases hl with hl | rfl | hl | rfl | hl
    · exact open_of_not_likeMark (h l (by simp [hl]))
    · exact Begins.open_base c.baseOpening_isMark.begins
    · exact open_of_not_likeMark (h l (by simp [hl]))
    · exact Begins.open_sep (begins_self sepMark)
    · exact open_of_not_likeMark (h l (by simp [hl]))
  · simp

theorem blankBase_body (h : ∀ l ∈ c.ours ++ c.base ++ c.theirs, ¬ LikeMark l) :
    BlankBase (c.body ++ rest) ↔ c.base.all blank = true := by
  have hbody : c.body ++ rest = c.ours ++ c.baseOpening ::
    (c.base ++ sepMark :: (c.theirs ++ c.closing :: rest)) := by
    simp [Conflict.body]
  have hours : ∀ l ∈ c.ours, ¬ Begins baseMark l ∧ ¬ Begins sepMark l := fun l hl =>
    ⟨fun hb => h l (by simp [hl]) (.inr (.inl hb)), fun hs =>
      h l (by simp [hl]) (.inr (.inr (.inl hs)))⟩
  rw [hbody]
  constructor
  · rintro ⟨ours, b, base, e, rest', heq, hours', hb, hblank, he⟩
    obtain ⟨-, -, htail⟩ := append_cons_unique (p := Begins baseMark) (fun l hl => (hours l hl).1)
      c.baseOpening_isMark.begins (fun l hl => (hours' l hl).1) hb heq
    obtain ⟨rfl, -, -⟩ := append_cons_unique (p := Begins sepMark)
      (fun l hl hs => h l (by simp [hl]) (.inr (.inr (.inl hs)))) (begins_self sepMark)
      (fun l hl => not_begins_of_blank (by decide) (hblank l hl)) he htail
    exact all_eq_true.mpr hblank
  · exact fun hblank => ⟨c.ours, c.baseOpening, c.base, sepMark, _, rfl, hours,
      c.baseOpening_isMark.begins, all_eq_true.mp hblank, begins_self sepMark⟩

theorem quiet_body (h : ∀ l ∈ c.ours ++ c.base ++ c.theirs, ¬ LikeMark l) : Quiet c.body rest := by
  refine quiet_of_not_begins c.body fun l hl => ?_
  simp only [Conflict.body, mem_append, mem_cons, not_mem_nil, or_false] at hl
  rcases hl with hl | rfl | hl | rfl | hl | rfl
  · exact (open_of_not_likeMark (h l (by simp [hl]))).1
  · exact (Begins.open_base c.baseOpening_isMark.begins).1
  · exact (open_of_not_likeMark (h l (by simp [hl]))).1
  · exact (Begins.open_sep (begins_self sepMark)).1
  · exact (open_of_not_likeMark (h l (by simp [hl]))).1
  · exact fun hours => absurd (hours.eq c.closing_isMark.begins (by decide)) (by decide)

end Sections

/-- **Without lines that look like markers a file is read as it is written.** -/
theorem readsAsWritten_of_unlike (file : List Piece) (h : Unlike file) : ReadsAsWritten file := by
  induction file with
  | nil => trivial
  | cons piece file ih =>
    cases piece with
    | line l hl => exact ⟨⟨fun hb => h.1 hb.1, trivial⟩, ih h.2⟩
    | conflict c => exact ⟨closes_body h.1, blankBase_body h.1, quiet_body h.1, ih h.2⟩

/-- **When a file is read as it is written**, and that it is without lines that look like
markers. -/
theorem classifyFile_iff {contents : Text} {file : List Piece}
    (h : lines contents = fileLines file) :
    ((classifyFile contents).map Hunk.place = conflicts 0 file ↔ ReadsAsWritten file) ∧
      (Unlike file → (classifyFile contents).map Hunk.place = conflicts 0 file) := by
  have hiff : (classifyFile contents).map Hunk.place = conflicts 0 file ↔ ReadsAsWritten file := by
    rw [classifyFile, h]
    exact classifyFrom_iff file 0
  exact ⟨hiff, fun hunlike => hiff.mpr (readsAsWritten_of_unlike file hunlike)⟩

instance (mark l : Text) : Decidable (IsMark mark l) :=
  decidable_of_iff (startsWith l mark = true ∧
    (l.drop mark.length = [] ∨ (l.drop mark.length).head? = some ' ')) <| by
    constructor
    · rintro ⟨hbegin, hrest⟩
      obtain ⟨rest, rfl⟩ := isPrefixOf_iff_prefix.mp hbegin
      rw [drop_left] at hrest
      exact ⟨rest, rfl, hrest⟩
    · rintro ⟨rest, rfl, hrest⟩
      rw [drop_left]
      exact ⟨begins_append, hrest⟩

instance (l : Text) : Decidable (Plain l) :=
  inferInstanceAs (Decidable (¬ IsMark oursMark l ∧ ¬ IsMark baseMark l ∧ l ≠ sepMark ∧
    ¬ IsMark theirsMark l))

/-- A conflict with the given sections between bare markers. -/
def bare (ours base theirs : List Text) (hours : ∀ l ∈ ours, Plain l) (hbase : ∀ l ∈ base, Plain l)
    (htheirs : ∀ l ∈ theirs, Plain l) : Conflict where
  opening := oursMark
  ours := ours
  baseOpening := baseMark
  base := base
  theirs := theirs
  closing := theirsMark
  opening_isMark := by decide
  baseOpening_isMark := by decide
  closing_isMark := by decide
  ours_plain := hours
  base_plain := hbase
  theirs_plain := htheirs

/-- **The lines that are misread** in some section are those that look like markers: the first and
the last marker in ours, where they end the scan, the base marker there, before the true one, and
the separator in the base, where it hides the line. -/
theorem misread_iff_likeMark {l : Text} (hplain : Plain l) :
    LikeMark l ↔ ∃ c : Conflict, c.ours ++ c.base ++ c.theirs = [l] ∧
      (classifyFrom 0 0 (fileLines [.conflict c])).map Hunk.place ≠ conflicts 0 [.conflict c] := by
  simp only [ne_eq, classifyFrom_iff]
  constructor
  · intro h
    have hl : ∀ x ∈ [l], Plain x := fun x hx => mem_singleton.mp hx ▸ hplain
    have hnil : ∀ x ∈ ([] : List Text), Plain x := fun x hx => absurd hx not_mem_nil
    rcases h with h | h | h | h
    · exact ⟨bare [l] [] [] hl hnil hnil, rfl, fun hread => reaches_ours h hread.1⟩
    · refine ⟨bare [l] [] [] hl hnil hnil, rfl, fun hread => ?_⟩
      obtain ⟨ours, b, base, e, rest, heq, hours, hb, hblank, he⟩ := hread.2.1.mpr rfl
      obtain ⟨-, -, htail⟩ := append_cons_unique (p := Begins baseMark)
        (fun x (hx : x ∈ ([] : List Text)) => absurd hx not_mem_nil) h
          (fun x hx => (hours x hx).1) hb heq
      -- behind it the true base marker is taken for a line of the base
      cases base with
      | nil =>
        obtain ⟨rfl, -⟩ := List.cons.inj htail
        exact (begins_self baseMark).not_sep he
      | cons x base =>
        obtain ⟨rfl, -⟩ := List.cons.inj htail
        exact not_begins_of_blank (by decide) (hblank baseMark (.head _)) (begins_self baseMark)
    · refine ⟨bare [] [l] [] hnil hl hnil, rfl, fun hread => ?_⟩
      have hblank := hread.2.1.mp ⟨[], baseMark, [], l, [sepMark, theirsMark], rfl, by simp,
        begins_self baseMark, by simp, h⟩
      exact not_begins_of_blank (by decide) (all_eq_true.mp hblank l (.head _)) h
    · exact ⟨bare [l] [] [] hl hnil hnil, rfl, fun hread => (reaches_theirs h).mp hread.1⟩
  · rintro ⟨c, hc, hmisread⟩
    by_contra hnot
    refine hmisread (readsAsWritten_of_unlike _ ⟨fun x hx => ?_, trivial⟩)
    rw [hc] at hx
    rwa [mem_singleton.mp hx]

/-- The rule under a heading, of eight characters. -/
def rule : Text := "========".toList

theorem misread_rule : ∃ c : Conflict, c.ours ++ c.base ++ c.theirs = [rule] ∧
    (classifyFrom 0 0 (fileLines [.conflict c])).map Hunk.place ≠ conflicts 0 [.conflict c] :=
  (@misread_iff_likeMark rule (by decide)).mp (by decide)

/-- A rewrite of a rule. -/
def ruleRewritten : Conflict := bare [['a']] [rule] [['b']] (by decide) (by decide) (by decide)

def ruleContents : Text := "<<<<<<<\na\n|||||||\n========\n=======\nb\n>>>>>>>\n".toList

theorem classifyFile_iff_plain :
    ((classifyFile "<<<<<<<\na\n|||||||\n=======\nb\n>>>>>>>".toList).map Hunk.place =
      [(1, .concurrentAdd)]) :=
  (@classifyFile_iff _ [.conflict (bare [['a']] [] [['b']] (by decide) (by decide) (by decide))]
    (by decide)).2 ⟨by decide, trivial⟩

/-- The rewrite is reported as two additions. -/
theorem classifyFile_rule : lines ruleContents = fileLines [.conflict ruleRewritten] ∧
    conflicts 0 [.conflict ruleRewritten] = [(1, .restructure)] ∧
    (classifyFile ruleContents).map Hunk.place = [(1, .concurrentAdd)] := by decide

end Thegn.Conflict
