import Thegn.Ics.Parse
import Thegn.Ics.Unfold

set_option autoImplicit false

/-! # Documents

A feed as it is written: logical lines, folded or not, that make up components.
`logicalLines_documentText` says that the parser finds the lines of a document again.
-/

namespace Thegn.Ics

open Thegn.Text Instant Groups List

/-! ## Lines -/

/-- A line and its continuations. -/
structure Line where
  first : Text
  conts : List Text
  first_line : '\n' ∉ first
  conts_line : ∀ c ∈ conts, '\n' ∉ c
  first_start : isFold first = false
  conts_fold : ∀ c ∈ conts, isFold c = true

namespace Line

def physical (l : Line) : List Text := l.first :: l.conts

def raw (l : Line) : RawLine := rawLineOf (l.first, l.conts)

/-- What is read from the line. -/
def parsed (l : Line) : Option ContentLine := l.raw.text.bind parseLine

/-- The line neither begins nor ends a component. -/
def Plain (l : Line) : Prop := ∀ c ∈ l.parsed, c.name ≠ "BEGIN".toList ∧ c.name ≠ "END".toList

/-- The line is not oversized. -/
def Fits (l : Line) : Prop := l.raw.len ≤ maxLineBytes

/-- The line says a name of a component. -/
def Says (l : Line) (name : Text) (component : ComponentName) : Prop :=
  ∃ c ∈ l.parsed, c.name = name ∧ ComponentName.parse c.value = component

def Begins (l : Line) (component : ComponentName) : Prop := l.Says "BEGIN".toList component

def Ends (l : Line) (component : ComponentName) : Prop := l.Says "END".toList component

/-- The unfolded text begins with the first physical line. -/
theorem text_raw (l : Line) : l.raw.text = some (l.raw.first ++ spanText l.conts) :=
  text_rawLineOf l.first_line l.conts_line l.conts_fold

theorem text_isSome (l : Line) : l.raw.text.isSome = true := by
  rw [text_raw]
  rfl

/-- **The hint at a name without quotes is the name**, unless the name is folded. -/
theorem nameHint_raw {l : Line} {c : ContentLine} (hc : c ∈ l.parsed) (hquote : '"' ∉ c.name) :
    l.raw.nameHint = none ∨ l.raw.nameHint = some c.name := by
  rw [RawLine.nameHint]
  cases hsplit : splitOnceP (fun c => c == ';' || c == ':') l.raw.first with
  | none => exact .inl rfl
  | some p =>
    obtain ⟨w, r⟩ := p
    obtain ⟨d, hfirst, hd, hw⟩ := splitOnceP_eq_some hsplit
    have hline : parseLine (w ++ d :: (r ++ spanText l.conts)) = some c := by
      rw [parsed, text_raw, Option.bind_some, hfirst, append_assoc, cons_append] at hc
      exact hc
    right
    have hdelimiter : d = ';' ∨ d = ':' := by simpa using hd
    have hfree : ∀ x ∈ w, x ≠ ';' ∧ x ≠ ':' := fun x hx => by simpa using hw x hx
    have hname := (name_of_parseLine hfree hdelimiter hline).resolve_right hquote
    rw [← hname]
    rfl

end Line

/-- The text of some lines. -/
def documentText (lines : List Line) : Text := ['\n'].intercalate (lines.flatMap Line.physical)

theorem groups_physical (lines : List Line) :
    groups isFold (lines.flatMap Line.physical) = lines.map fun l => (l.first, l.conts) := by
  induction lines with
  | nil => rfl
  | cons l lines ih =>
    -- the next line does not continue this one
    have hnext : ∀ b ∈ (lines.flatMap Line.physical).head?, isFold b = false := by
      intro b hb
      cases lines with
      | nil => cases hb
      | cons m lines =>
        cases hb
        exact m.first_start
    have hone : groups isFold l.physical = [(l.first, l.conts)] := by
      rw [Line.physical, groups_cons_eq, takeWhile_eq_self_iff.mpr l.conts_fold,
        dropWhile_eq_nil_iff.mpr l.conts_fold]
      rfl
    rw [List.flatMap_cons, groups_append isFold _ hnext, hone, ih]
    rfl

/-- **The lines of a document are found again.** -/
theorem logicalLines_documentText {lines : List Line} (h : lines ≠ []) :
    logicalLines (documentText lines) = some (lines.map Line.raw) := by
  have hne : lines.flatMap Line.physical ≠ [] := by
    obtain ⟨l, ls, rfl⟩ := exists_cons_of_ne_nil h
    simp [Line.physical]
  have hno : ∀ p ∈ lines.flatMap Line.physical, '\n' ∉ p := by
    intro p hp
    obtain ⟨l, -, hl⟩ := mem_flatMap.mp hp
    rcases mem_cons.mp hl with rfl | hl
    · exact l.first_line
    · exact l.conts_line p hl
  rw [logicalLines_eq, documentText, splitOn_intercalate '\n' hno hne, groups_physical, map_map]
  rfl

/-! ## Components -/

/-- The components that may stand in an event. -/
def Ordinary (component : ComponentName) : Prop :=
  component ≠ .calendar ∧ component ≠ .event ∧ component ≠ .timezone

/-- Lines of properties and of whole components. -/
inductive Nested : List Line → Prop
  | nil : Nested []
  | line {l : Line} {ls : List Line} (plain : l.Plain) (rest : Nested ls) : Nested (l :: ls)
  | child {component : ComponentName} {o c : Line} {inner ls : List Line}
      (ordinary : Ordinary component)
      (begins : o.Begins component) (nested : Nested inner) (ends : c.Ends component)
        (rest : Nested ls) :
      Nested (o :: (inner ++ c :: ls))

/-- What an event is made of. -/
inductive Item
  | line (l : Line)
  | child (opening : Line) (inner : List Line) (closing : Line)

namespace Item

def lines : Item → List Line
  | line l => [l]
  | child opening inner closing => opening :: (inner ++ [closing])

def WellFormed : Item → Prop
  | line l => l.Plain
  | child opening inner closing =>
    ∃ component, Ordinary component ∧ opening.Begins component ∧ Nested inner ∧
    closing.Ends component

/-- The UID that the item writes. -/
def writes : Item → Option Text
  | line l => (l.parsed.filter fun c => c.name = "UID".toList).map (·.value)
  | child _ _ _ => none

end Item

/-- What a calendar is made of. -/
inductive Part
  | line (l : Line)
  | event (opening : Line) (body : List Item) (closing : Line)

namespace Part

def lines : Part → List Line
  | line l => [l]
  | event opening body closing => opening :: (body.flatMap Item.lines ++ [closing])

def WellFormed : Part → Prop
  | line l => l.Plain
  | event opening body closing =>
    (opening.Begins .event ∧ opening.Fits) ∧ (∀ item ∈ body, item.WellFormed) ∧ closing.Ends .event

end Part

/-- A calendar with its events, and what follows it. -/
structure Document where
  opening : Line
  parts : List Part
  closing : Line
  rest : List Line

namespace Document

def lines (d : Document) : List Line :=
  d.opening :: (d.parts.flatMap Part.lines ++ d.closing :: d.rest)

def text (d : Document) : Text := documentText d.lines

/-- A `VCALENDAR` of `VEVENT` blocks and lines of its own, without a `VTIMEZONE`. -/
structure WellFormed (d : Document) : Prop where
  begins : d.opening.Begins .calendar
  begins_fits : d.opening.Fits
  parts : ∀ part ∈ d.parts, part.WellFormed
  ends : d.closing.Ends .calendar
  ends_fits : d.closing.Fits
  rest : ∀ l ∈ d.rest, l.Plain

end Document

/-! ## No zone is defined -/

theorem not_beginsTimezone_of_plain {l : Line} (h : l.Plain) : ¬ beginsTimezone l.raw := by
  rintro ⟨text, line, htext, hline, hname, -⟩
  exact (h line (by rw [Line.parsed, htext]; exact hline)).1 hname

theorem not_beginsTimezone_of_says {l : Line} {name : Text} {component : ComponentName}
    (h : l.Says name component) (hcomponent : component ≠ .timezone) : ¬ beginsTimezone l.raw := by
  rintro ⟨text, line, htext, hline, -, hparse⟩
  obtain ⟨c, hc, -, hvalue⟩ := h
  rw [Line.parsed, htext, Option.bind_some, hline, Option.mem_some_iff] at hc
  cases hc
  exact hcomponent (hvalue.symm.trans hparse)

theorem not_beginsTimezone_of_nested {ls : List Line} (h : Nested ls) :
    ∀ l ∈ ls, ¬ beginsTimezone l.raw := by
  induction h with
  | nil => exact fun l hl => absurd hl not_mem_nil
  | line plain _ ih =>
    intro l hl
    rcases mem_cons.mp hl with rfl | hl
    · exact not_beginsTimezone_of_plain plain
    · exact ih l hl
  | child ordinary begins _ ends _ ihinner ihrest =>
    intro l hl
    rcases mem_cons.mp hl with rfl | hl
    · exact not_beginsTimezone_of_says begins ordinary.2.2
    · rcases mem_append.mp hl with hl | hl
      · exact ihinner l hl
      · rcases mem_cons.mp hl with rfl | hl
        · exact not_beginsTimezone_of_says ends ordinary.2.2
        · exact ihrest l hl

theorem not_beginsTimezone_of_item {item : Item} (h : item.WellFormed) :
    ∀ l ∈ item.lines, ¬ beginsTimezone l.raw := by
  cases item with
  | line l =>
    intro m hm
    rw [mem_singleton.mp hm]
    exact not_beginsTimezone_of_plain h
  | child opening inner closing =>
    obtain ⟨component, ordinary, begins, nested, ends⟩ := h
    exact not_beginsTimezone_of_nested (.child ordinary begins nested ends .nil)

theorem not_beginsTimezone_of_part {part : Part} (h : part.WellFormed) :
    ∀ l ∈ part.lines, ¬ beginsTimezone l.raw := by
  cases part with
  | line l =>
    intro m hm
    rw [mem_singleton.mp hm]
    exact not_beginsTimezone_of_plain h
  | event opening body closing =>
    obtain ⟨⟨begins, -⟩, hbody, ends⟩ := h
    intro l hl
    rcases mem_cons.mp hl with rfl | hl
    · exact not_beginsTimezone_of_says begins (by decide)
    · rcases mem_append.mp hl with hl | hl
      · obtain ⟨item, hitem, hl⟩ := mem_flatMap.mp hl
        exact not_beginsTimezone_of_item (hbody item hitem) l hl
      · rw [mem_singleton.mp hl]
        exact not_beginsTimezone_of_says ends (by decide)

/-- **A well-formed document has no zones of its own.** -/
theorem not_beginsTimezone {d : Document} (h : d.WellFormed) :
    ∀ l ∈ d.lines, ¬ beginsTimezone l.raw := by
  intro l hl
  rcases mem_cons.mp hl with rfl | hl
  · exact not_beginsTimezone_of_says h.begins (by decide)
  · rcases mem_append.mp hl with hl | hl
    · obtain ⟨part, hpart, hl⟩ := mem_flatMap.mp hl
      exact not_beginsTimezone_of_part (h.parts part hpart) l hl
    · rcases mem_cons.mp hl with rfl | hl
      · exact not_beginsTimezone_of_says h.ends (by decide)
      · exact not_beginsTimezone_of_plain (h.rest l hl)

end Thegn.Ics
