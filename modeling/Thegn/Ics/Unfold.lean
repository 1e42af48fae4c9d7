import Thegn.Ics.Lines

set_option autoImplicit false

/-! # Unfolding and sizing agree

The reference unfolding of a calendar feed works on its physical lines alone. `LogicalLines` yields
the same lines, in the size it announced, unless a folded line ends in two carriage returns: the
walk takes one from the end of the span, and `text` takes the other.
-/

namespace Thegn.Ics

open Thegn.Text Groups List

/-! ## The reference -/

/-- One physical line more: a line that begins with a blank is appended to the line before it,
without the blank. -/
def glue (lines : List Text) (line : Text) : List Text :=
  match lines.getLast? with
  | some prev => if isFold line then lines.dropLast ++ [prev ++ line.tail] else lines ++ [line]
  | none => [line]

/-- The logical lines of a document, from its physical lines. -/
def unfolding (input : Text) : List Text := ((input.splitOn '\n').map stripCr).foldl glue []

/-- What the continuations add to a line. -/
def foldedText (cs : List Text) : Text := cs.flatMap fun c => (stripCr c).tail

/-- The logical line of a group of physical lines. -/
def textOf (g : Text × List Text) : Text := stripCr g.1 ++ foldedText g.2

theorem foldl_glue (before : List Text) (line : Text) (ls : List Text) :
    (ls.map stripCr).foldl glue (before ++ [line])
      = before ++ (line ++ foldedText (ls.takeWhile isFold)) ::
        (groups isFold (ls.dropWhile isFold)).map textOf := by
  induction ls generalizing before line with
  | nil => simp [foldedText]
  | cons l ls ih =>
    have hlast : (before ++ [line]).getLast? = some line := List.getLast?_concat
    rw [map_cons, foldl_cons, glue, hlast]
    show ((ls.map stripCr).foldl glue (if isFold (stripCr l) then _ else _)) = _
    rw [isFold_stripCr]
    by_cases hl : isFold l = true
    · rw [if_pos hl, dropLast_concat, ih, takeWhile_cons_of_pos hl, dropWhile_cons_of_pos hl]
      simp [foldedText]
    · rw [if_neg hl, ih, takeWhile_cons_of_neg hl, dropWhile_cons_of_neg hl, groups_cons_eq]
      simp [foldedText, textOf]

/-- The logical lines are the groups of the physical lines, each unfolded. -/
theorem unfolding_eq (input : Text) : unfolding input =
    (groups isFold (input.splitOn '\n')).map textOf := by
  obtain ⟨l, ls, h⟩ := exists_cons_of_ne_nil (splitOn_ne_nil '\n' input)
  rw [unfolding, h, groups_cons_eq]
  exact foldl_glue [] (stripCr l) ls

/-! ## What the iterator's lines unfold to -/

/-- The continuations as `text` meets them in a span. -/
def spanText : List Text → Text
  | [] => []
  | c :: cs => foldedText (spanLines c cs)

theorem splitOn_spanOf {l : Text} {cs : List Text} (hl : '\n' ∉ l) (hcs : ∀ c ∈ cs, '\n' ∉ c) :
    (spanOf l cs).splitOn '\n' = spanLines l cs := by
  induction cs generalizing l with
  | nil =>
    have h := Split.splitOn_append_of_not_mem (not_mem_stripCr hl) []
    rw [append_nil] at h
    rw [spanOf, h]
    simp [spanLines]
  | cons c cs ih =>
    rw [spanOf, Split.splitOn_append_of_not_mem hl, splitOn_cons_eq_if_modifyHead, if_pos (by simp),
      ih (hcs c (.head _)) fun d hd => hcs d (mem_cons_of_mem c hd)]
    simp [spanLines]

theorem isFold_of_mem_spanLines {l : Text} {cs : List Text} (hl : isFold l = true)
    (hcs : ∀ c ∈ cs, isFold c = true) : ∀ m ∈ spanLines l cs, isFold m = true := by
  induction cs generalizing l with
  | nil =>
    intro m hm
    rw [spanLines, mem_singleton] at hm
    rw [hm, isFold_stripCr]
    exact hl
  | cons c cs ih =>
    intro m hm
    rw [spanLines, mem_cons] at hm
    rcases hm with rfl | hm
    · exact hl
    · exact ih (hcs c (.head _)) (fun d hd => hcs d (mem_cons_of_mem c hd)) m hm

theorem charLen_of_isFold {c : Char} (h : c = ' ' ∨ c = '\t') : charLen c = 1 := by
  rcases h with rfl | rfl <;> rfl

/-- A continuation is sliced behind its fold marker. -/
theorem unmarked_stripCr {line : Text} (h : isFold line = true) :
    RawLine.unmarked (stripCr line) = some (stripCr line).tail := by
  rw [← isFold_stripCr] at h
  obtain ⟨c, r, hline, hc⟩ := isFold_iff.mp h
  have hcut : cut ([c] ++ r) (byteLen [c]) = some ([c], r) := cut_append [c] r
  have hone : byteLen [c] = 1 := by rw [byteLen_cons, charLen_of_isFold hc, byteLen_nil]
  have hlen : byteLen (stripCr line) - 1 = byteLen r := by
    rw [hline, byteLen_cons, charLen_of_isFold hc]
    omega
  have hrest : cut r (byteLen r) = some (r, []) := by
    have h := cut_append r []
    rwa [append_nil] at h
  rw [RawLine.unmarked, slice, if_pos (by rw [hline, byteLen_cons, charLen_of_isFold hc]; omega),
    hlen, hline]
  rw [hone] at hcut
  show (cut ([c] ++ r) 1).bind _ = _
  rw [hcut]
  show (cut r (byteLen r)).bind _ = _
  rw [hrest]
  rfl

theorem mapM_unmarked {ls : List Text} (h : ∀ l ∈ ls, isFold l = true) :
    (ls.mapM fun raw => RawLine.unmarked (stripCr raw)) =
      some (ls.map fun raw => (stripCr raw).tail) := by
  induction ls with
  | nil => rfl
  | cons l ls ih =>
    rw [mapM_cons, unmarked_stripCr (h l mem_cons_self), ih fun m hm => h m (mem_cons_of_mem l hm)]
    rfl

/-- `text` never slices out of bounds or inside a character. -/
theorem text_rawLineOf {l : Text} {cs : List Text} (hl : '\n' ∉ l) (hcs : ∀ c ∈ cs, '\n' ∉ c)
    (hfold : ∀ c ∈ cs, isFold c = true) :
    (rawLineOf (l, cs)).text = some (stripCr l ++ spanText cs) := by
  cases cs with
  | nil =>
    rw [spanText, append_nil]
    rfl
  | cons c cs =>
    have hsplit := splitOn_spanOf hl hcs
    rw [spanLines] at hsplit
    have hall :=
      isFold_of_mem_spanLines (hfold c (.head _)) fun d hd => hfold d (mem_cons_of_mem c hd)
    have hfolded : (rawLineOf (l, c :: cs)).folded = true := rfl
    rw [RawLine.text, if_pos hfolded]
    simp only [show (rawLineOf (l, c :: cs)).span.splitOn '\n' = _ from hsplit]
    show ((spanLines c cs).mapM fun raw => RawLine.unmarked (stripCr raw)).bind _ = _
    rw [mapM_unmarked hall]
    show some _ = some _
    rw [spanText, foldedText, flatMap_def]

/-! ## The two carriage returns -/

/-- `text` has something left to strip after the walk. -/
def EndsInTwo (l : Text) : Prop := ['\r', '\r'] <:+ l

instance (l : Text) : Decidable (EndsInTwo l) := inferInstanceAs (Decidable (_ <:+ l))

theorem stripCr_stripCr {l : Text} : stripCr (stripCr l) = stripCr l ↔ ¬ EndsInTwo l := by
  constructor
  · rintro h ⟨r, rfl⟩
    rw [show r ++ ['\r', '\r'] = (r ++ ['\r']) ++ ['\r'] by simp, stripCr_append, stripCr_append]
      at h
    have := congrArg List.length h
    simp at this
  · intro h
    rcases stripCr_cases (stripCr l) with h' | h'
    · exact h'
    · refine absurd ⟨stripCr (stripCr l), ?_⟩ h
      rcases stripCr_cases l with hl | hl
      · rw [hl, hl] at h'
        exact absurd (congrArg List.length h') (by simp)
      · calc stripCr (stripCr l) ++ ['\r', '\r']
            = (stripCr (stripCr l) ++ ['\r']) ++ ['\r'] := by simp
          _ = stripCr l ++ ['\r'] := by rw [← h']
          _ = l := hl.symm

/-- What is stripped a second time is lost from the text. -/
theorem tail_stripCr_stripCr {l : Text} (hfold : isFold l = true) (h : EndsInTwo l) :
    (stripCr l).tail = (stripCr (stripCr l)).tail ++ ['\r'] := by
  have hne : stripCr (stripCr l) ≠ stripCr l := fun he => stripCr_stripCr.mp he h
  rw [← isFold_stripCr, ← isFold_stripCr] at hfold
  obtain ⟨c, r, hr, -⟩ := isFold_iff.mp hfold
  rcases stripCr_cases (stripCr l) with h' | h'
  · exact absurd h' hne
  · conv_lhs => rw [h', hr]
    rw [hr]
    rfl

/-- The continuations of a group end in two carriage returns. -/
def LastEndsInTwo (cs : List Text) : Prop := ∃ c ∈ cs.getLast?, EndsInTwo c

/-- The continuations of a span, against those of the document. -/
theorem spanText_cases {cs : List Text} (hcs : ∀ c ∈ cs, isFold c = true) :
    (LastEndsInTwo cs ∧ foldedText cs = spanText cs ++ ['\r']) ∨
    (¬ LastEndsInTwo cs ∧ foldedText cs = spanText cs) := by
  induction cs with
  | nil => exact .inr ⟨by simp [LastEndsInTwo], rfl⟩
  | cons c cs ih =>
    cases cs with
    | nil =>
      have hlast : LastEndsInTwo [c] ↔ EndsInTwo c := by simp [LastEndsInTwo]
      have htext : foldedText [c] = (stripCr c).tail := by simp [foldedText]
      have hspan : spanText [c] = (stripCr (stripCr c)).tail := by
        simp [spanText, spanLines, foldedText]
      rw [hlast, htext, hspan]
      by_cases h : EndsInTwo c
      · exact .inl ⟨h, tail_stripCr_stripCr (hcs c (.head _)) h⟩
      · exact .inr ⟨h, by rw [stripCr_stripCr.mpr h]⟩
    | cons d ds =>
      have hlast : LastEndsInTwo (c :: d :: ds) ↔ LastEndsInTwo (d :: ds) := by
        rw [LastEndsInTwo, LastEndsInTwo, List.getLast?_cons_cons]
      have htext : foldedText (c :: d :: ds) = (stripCr c).tail ++ foldedText (d :: ds) := rfl
      have hspan : spanText (c :: d :: ds) = (stripCr c).tail ++ spanText (d :: ds) := rfl
      rw [hlast, htext, hspan]
      rcases ih fun x hx => hcs x (mem_cons_of_mem c hx) with ⟨h, he⟩ | ⟨h, he⟩
      · exact .inl ⟨h, by rw [he, append_assoc]⟩
      · exact .inr ⟨h, by rw [he]⟩

/-! ## The lines of a document -/

/-- **What sizing and unfolding owe each other**: the iterator yields the lines of the reference,
each in the size it announced, and nothing panics. -/
def SizesAsItUnfolds (input : Text) : Prop :=
  ∃ lines texts, logicalLines input = some lines ∧ lines.mapM RawLine.text = some texts ∧
    texts = unfolding input ∧ lines.map RawLine.len = texts.map byteLen

/-- The physical line `l` is the last one of a folded line of the document. -/
def EndsFold (input l : Text) : Prop :=
  ∃ before after, input.splitOn '\n' = before ++ l :: after ∧ before ≠ [] ∧ isFold l = true ∧
    ∀ m ∈ after.head?, isFold m = false

/-- A group of the physical lines of a document. -/
structure Group (g : Text × List Text) : Prop where
  first : '\n' ∉ g.1
  conts : ∀ c ∈ g.2, '\n' ∉ c
  folds : ∀ c ∈ g.2, isFold c = true

theorem group_of_mem {input : Text} {g : Text × List Text}
    (hg : g ∈ groups isFold (input.splitOn '\n')) : Group g := by
  obtain ⟨before, after, hsplit, hfold, -⟩ := exists_of_mem_groups isFold hg
  have hno : ∀ l ∈ g.1 :: g.2, '\n' ∉ l := by
    intro l hl
    have hmem : l ∈ input.splitOn '\n' := by
      rw [hsplit]
      exact mem_append_right _ (mem_append_left after hl)
    exact Split.not_mem_of_mem_splitOn hmem
  exact ⟨hno g.1 (.head _), fun c hc => hno c (.tail _ hc), hfold⟩

theorem mapM_text {gs : List (Text × List Text)} (h : ∀ g ∈ gs, Group g) :
    (gs.map rawLineOf).mapM RawLine.text = some (gs.map fun g => stripCr g.1 ++ spanText g.2) := by
  induction gs with
  | nil => rfl
  | cons g gs ih =>
    have hg := h g (.head _)
    rw [map_cons, mapM_cons, text_rawLineOf hg.first hg.conts hg.folds,
      ih fun k hk => h k (mem_cons_of_mem g hk)]
    rfl

theorem byteLen_tail_stripCr {c : Text} (h : isFold c = true) :
    byteLen (stripCr c).tail = byteLen (stripCr c) - 1 := by
  rw [← isFold_stripCr] at h
  obtain ⟨d, r, hr, hd⟩ := isFold_iff.mp h
  rw [hr, byteLen_cons, charLen_of_isFold hd, tail_cons]
  omega

/-- The announced size is that of the reference's line. -/
theorem len_rawLineOf {g : Text × List Text} (h : Group g) :
    (rawLineOf g).len = byteLen (textOf g) := by
  have hconts : ∀ cs : List Text, (∀ c ∈ cs, isFold c = true) →
    foldedLen cs = byteLen (foldedText cs) := by
    intro cs hcs
    induction cs with
    | nil => rfl
    | cons c cs ih =>
      have htext : foldedText (c :: cs) = (stripCr c).tail ++ foldedText cs := rfl
      have hlen : foldedLen (c :: cs) = byteLen (stripCr c) - 1 + foldedLen cs := rfl
      rw [htext, hlen, byteLen_append, byteLen_tail_stripCr (hcs c mem_cons_self),
        ih fun d hd => hcs d (mem_cons_of_mem c hd)]
  show byteLen (stripCr g.1) + foldedLen g.2 = _
  rw [textOf, byteLen_append, hconts g.2 h.folds]

theorem textOf_eq_iff {g : Text × List Text} (h : Group g) :
    stripCr g.1 ++ spanText g.2 = textOf g ↔ ¬ LastEndsInTwo g.2 := by
  rw [textOf, append_right_inj]
  rcases spanText_cases h.folds with ⟨hlast, he⟩ | ⟨hlast, he⟩
  · refine ⟨fun heq => ?_, fun hno => absurd hlast hno⟩
    rw [he] at heq
    exact absurd (congrArg List.length heq) (by simp)
  · exact ⟨fun _ => hlast, fun _ => he.symm⟩

/-- No group of the document ends in two carriage returns, said of its physical lines. -/
theorem not_lastEndsInTwo_iff (input : Text) :
    (∀ g ∈ groups isFold (input.splitOn '\n'), ¬ LastEndsInTwo g.2) ↔
    ∀ l, EndsFold input l → ¬ EndsInTwo l := by
  constructor
  · intro h l hl htwo
    obtain ⟨g, hg, hlast⟩ := (last_of_group_iff isFold).mpr hl
    exact h g hg ⟨l, hlast, htwo⟩
  · rintro h g hg ⟨l, hl, htwo⟩
    exact h l ((last_of_group_iff isFold).mp ⟨g, hg, hl⟩) htwo

theorem not_endsInTwo_of_sizes {input : Text} (h : SizesAsItUnfolds input) :
    ∀ l, EndsFold input l → ¬ EndsInTwo l := by
  obtain ⟨lines, texts, hlines, htexts, heq, -⟩ := h
  apply (not_lastEndsInTwo_iff input).mp
  intro g hg
  rw [logicalLines_eq, Option.some.injEq] at hlines
  rw [← hlines, mapM_text fun _ => group_of_mem, Option.some.injEq] at htexts
  rw [← htexts, unfolding_eq] at heq
  exact (textOf_eq_iff (group_of_mem hg)).mp (map_inj_left.mp heq g hg)

/-- **Sizing agrees with unfolding on exactly the documents in which no folded line ends in two
carriage returns.** -/
theorem sizesAsItUnfolds_iff (input : Text) :
    SizesAsItUnfolds input ↔ ∀ l, EndsFold input l → ¬ EndsInTwo l := by
  refine ⟨not_endsInTwo_of_sizes, fun h => ?_⟩
  have hgroups := (not_lastEndsInTwo_iff input).mpr h
  have heq : (groups isFold (input.splitOn '\n')).map (fun g => stripCr g.1 ++ spanText g.2) =
    unfolding input := by
    rw [unfolding_eq]
    exact map_congr_left fun g hg => (textOf_eq_iff (group_of_mem hg)).mpr (hgroups g hg)
  refine ⟨_, _, logicalLines_eq input, mapM_text fun _ => group_of_mem, heq, ?_⟩
  rw [heq, unfolding_eq, map_map, map_map]
  exact map_congr_left fun g hg => len_rawLineOf (group_of_mem hg)

/-- A folded line that ends in two carriage returns: four bytes announced, three in the text. -/
theorem two_carriage_returns : ¬ SizesAsItUnfolds "a\n bc\r\r\n".toList := by
  intro h
  refine not_endsInTwo_of_sizes h " bc\r\r".toList ⟨["a".toList],
    [[]], by decide, by decide, by decide, ?_⟩
    (by decide)
  intro m hm
  cases hm
  rfl

end Thegn.Ics
