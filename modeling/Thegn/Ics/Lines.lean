import Thegn.Lib.Groups
import Thegn.Lib.Utf8

set_option autoImplicit false

/-! # Logical lines of a calendar feed

The iterator `LogicalLines` of `thegn-core/src/calendar/ics.rs`: it walks the document once, a
logical line at a time, and notes where each line ends and how long it is unfolded before anything
is copied; `text` unfolds a line from its span. `logicalLines_eq` says what the walk yields: one
line for each group of physical lines that a fold marker holds together.
-/

namespace Thegn.Ics

open Thegn.Text Groups List Option

/-! ## Physical lines -/

/-- `strip_suffix('\r').unwrap_or(..)`. -/
def stripCr (s : Text) : Text := (stripSuffix ['\r'] s).getD s

/-- `starts_with([' ', '\t'])`. -/
def isFold : Text → Bool
  | c :: _ => c == ' ' || c == '\t'
  | [] => false

/-- One physical line without its terminator, and what follows it. -/
def physical (s : Text) : Text × Option Text :=
  match splitOnceP (· == '\n') s with
  | some (line, rest) => (stripCr line, some rest)
  | none => (stripCr s, none)

theorem length_of_physical {s cont next : Text} (h : physical s = (cont, some next)) :
    next.length < s.length := by
  unfold physical at h
  split at h
  · rename_i line rest hsplit
    cases h
    obtain ⟨c, hs, -⟩ := splitOnceP_eq_some hsplit
    rw [hs, length_append, length_cons]
    omega
  · cases h

theorem stripCr_append (s : Text) : stripCr (s ++ ['\r']) = s := by
  have h : stripSuffix ['\r'] (s ++ ['\r']) = some s := by
    unfold stripSuffix
    rw [List.dropSuffix?_eq_some_iff]
    exact ⟨['\r'], rfl, by simp⟩
  rw [stripCr, h]
  rfl

theorem stripCr_of_not_suffix {s : Text} (h : ¬ ['\r'] <:+ s) : stripCr s = s := by
  have hnone : stripSuffix ['\r'] s = none := by
    rw [eq_none_iff_forall_ne_some]
    intro r hr
    unfold stripSuffix at hr
    rw [List.dropSuffix?_eq_some_iff] at hr
    obtain ⟨t, rfl, ht⟩ := hr
    exact h ⟨r, by simp_all⟩
  rw [stripCr, hnone]
  rfl

/-- Stripping takes one carriage return from the end, or nothing. -/
theorem stripCr_cases (s : Text) : stripCr s = s ∨ s = stripCr s ++ ['\r'] := by
  by_cases h : ['\r'] <:+ s
  · obtain ⟨r, rfl⟩ := h
    exact .inr (by rw [stripCr_append])
  · exact .inl (stripCr_of_not_suffix h)

theorem stripCr_prefix (s : Text) : ∃ r, s = stripCr s ++ r := by
  rcases stripCr_cases s with h | h
  · exact ⟨[], by rw [h, append_nil]⟩
  · exact ⟨['\r'], h⟩

theorem not_mem_stripCr {s : Text} {c : Char} (h : c ∉ s) : c ∉ stripCr s := by
  obtain ⟨r, hr⟩ := stripCr_prefix s
  rw [hr] at h
  exact fun hc => h (mem_append_left _ hc)

theorem isFold_iff {s : Text} : isFold s = true ↔ ∃ c r, s = c :: r ∧ (c = ' ' ∨ c = '\t') := by
  cases s with
  | nil => simp [isFold]
  | cons c r => simp [isFold]

@[simp] theorem isFold_stripCr (s : Text) : isFold (stripCr s) = isFold s := by
  rcases stripCr_cases s with h | h
  · rw [h]
  · cases hs : stripCr s with
    | nil =>
      rw [hs] at h
      rw [h]
      rfl
    | cons c r =>
      rw [hs] at h
      rw [h]
      rfl

/-! ## The iterator -/

structure RawLine where
  /-- From the start of the first physical line to the end of the last one, fold markers
  included. -/
  span : Text
  first : Text
  len : Nat
  folded : Bool
  deriving DecidableEq

/-- The variables of the `while let` loop of `next`; `stop` is its `end`. -/
structure Walk where
  after : Option Text
  len : Nat
  stop : Nat
  folded : Bool

/-- What is left to read, as a number. -/
def Walk.left (w : Walk) : Nat := w.after.elim 0 fun r => r.length + 1

theorem elim_physical (r : Text) :
    (physical r).2.elim 0 (fun next => next.length + 1) < r.length + 1 := by
  cases h : physical r with
  | mk cont next =>
    cases next with
    | none => exact Nat.succ_pos _
    | some next => exact Nat.succ_lt_succ (length_of_physical h)

/-- The body of the loop, for the continuation `r` of the logical line that begins `start`. The
length cannot saturate: it never exceeds the document's. -/
def Walk.take (start : Text) (w : Walk) (r : Text) : Walk where
  after := (physical r).2
  len := w.len + (byteLen (physical r).1 - 1)
  stop := byteLen start - byteLen r + byteLen (physical r).1
  folded := true

theorem Walk.left_take {start r : Text} {w : Walk} (h : w.after = some r) :
    (w.take start r).left < w.left := by
  unfold Walk.left
  rw [h]
  exact elim_physical r

/-- The `while let` loop of `next`. -/
def Walk.run (start : Text) (w : Walk) : Walk :=
  match _h : w.after with
  | some r => if isFold r then (w.take start r).run start else w
  | none => w
termination_by w.left
decreasing_by exact left_take _h

theorem Walk.left_run (start : Text) (w : Walk) : (w.run start).left ≤ w.left := by
  fun_induction w.run start with
  | case1 w r h hfold ih =>
    have hr : (w.take start r).left < w.left := Walk.left_take h
    omega
  | case2 => exact le_rfl
  | case3 => exact le_rfl

/-- Where `next` is when it enters its loop. -/
def Walk.begin (start : Text) : Walk where
  after := (physical start).2
  len := byteLen (physical start).1
  stop := byteLen (physical start).1
  folded := false

/-- `next` on a document that is not at its end, with what it leaves; `none` where the span is
sliced out of bounds or inside a character. -/
def next (start : Text) : Option (RawLine × Option Text) := do
  let w := (Walk.begin start).run start
  let span ← slice start 0 w.stop
  return ({ span, first := (physical start).1, len := w.len, folded := w.folded }, w.after)

theorem left_next {start : Text} {line : RawLine} {after : Option Text}
    (h : next start = some (line, after)) :
    after.elim 0 (fun r => r.length + 1) < start.length + 1 := by
  obtain ⟨span, -, hspan⟩ := bind_eq_some_iff.mp h
  cases hspan
  exact Nat.lt_of_le_of_lt (Walk.left_run start (Walk.begin start)) (elim_physical start)

/-- All that the iterator yields; `none` where one of its steps panics. -/
def collect (rest : Option Text) : Option (List RawLine) :=
  match rest with
  | none => some []
  | some start =>
    match _h : next start with
    | none => none
    | some (line, after) => (collect after).map (line :: ·)
termination_by rest.elim 0 fun r => r.length + 1
decreasing_by exact left_next _h

/-- `LogicalLines::new` and all that it yields. -/
def logicalLines (input : Text) : Option (List RawLine) := collect (some input)

namespace RawLine

/-- The property name as far as the first physical line shows it. -/
def nameHint (l : RawLine) : Option Text :=
  (splitOnceP (fun c => c == ';' || c == ':') l.first).map fun p => (trim p.1).map Char.toUpper

/-- `&line[1..]`. -/
def unmarked (line : Text) : Option Text := slice line 1 (byteLen line)

/-- The unfolded text; `none` where a continuation is sliced out of bounds or inside a character. -/
def text (l : RawLine) : Option Text :=
  if l.folded then
    match l.span.splitOn '\n' with
    | [] => some []
    | line :: conts => do
        let parts ← conts.mapM fun raw => unmarked (stripCr raw)
        return stripCr line ++ parts.flatten
  else some l.first

end RawLine

/-! ## What is yielded -/

/-- Lines, each with the terminator before it. -/
def tailText (ls : List Text) : Text := ls.flatMap ('\n' :: ·)

@[simp] theorem tailText_nil : tailText [] = [] := rfl

@[simp] theorem tailText_cons (l : Text) (ls : List Text) :
    tailText (l :: ls) = '\n' :: (l ++ tailText ls) := rfl

@[simp] theorem tailText_append (ls ms : List Text) :
    tailText (ls ++ ms) = tailText ls ++ tailText ms :=
  flatMap_append

/-- What is left to read when the lines `ls` are. -/
def restOf : List Text → Option Text
  | [] => none
  | l :: ls => some (l ++ tailText ls)

/-- The lines, the last one without its carriage return. -/
def spanLines : Text → List Text → List Text
  | l, [] => [stripCr l]
  | l, c :: cs => l :: spanLines c cs

/-- Their text. -/
def spanOf : Text → List Text → Text
  | l, [] => stripCr l
  | l, c :: cs => l ++ '\n' :: spanOf c cs

/-- The bytes of the continuations, without the fold markers. -/
def foldedLen (cs : List Text) : Nat := (cs.map fun c => byteLen (stripCr c) - 1).sum

/-- The line yielded for the physical line `g.1` and its continuations `g.2`. -/
def rawLineOf (g : Text × List Text) : RawLine where
  span := spanOf g.1 g.2
  first := stripCr g.1
  len := byteLen (stripCr g.1) + foldedLen g.2
  folded := !g.2.isEmpty

theorem spanOf_prefix (l : Text) (cs : List Text) : ∃ r, l ++ tailText cs = spanOf l cs ++ r := by
  induction cs generalizing l with
  | nil =>
    obtain ⟨r, hr⟩ := stripCr_prefix l
    exact ⟨r, by rw [tailText_nil, append_nil]; exact hr⟩
  | cons c cs ih =>
    obtain ⟨r, hr⟩ := ih c
    exact ⟨r, by rw [tailText_cons, spanOf, hr]; simp⟩

theorem physical_lines {l : Text} (hl : '\n' ∉ l) (ls : List Text) :
    physical (l ++ tailText ls) = (stripCr l, restOf ls) := by
  have hno : ∀ x ∈ l, (x == '\n') = false := by
    intro x hx
    exact beq_false_of_ne fun he => hl (he ▸ hx)
  cases ls with
  | nil =>
    rw [tailText_nil, append_nil, physical, splitOnceP_eq_none hno]
    rfl
  | cons m ls =>
    rw [tailText_cons, physical, splitOnceP_append hno (by decide)]
    rfl

theorem isFold_append {l : Text} (ls : List Text) : isFold (l ++ tailText ls) = isFold l := by
  cases l with
  | nil =>
    cases ls with
    | nil => rfl
    | cons m ls => rfl
  | cons c l => rfl

/-- The loop takes the continuations, and no further line. -/
theorem Walk.run_lines {start pre l : Text} {ls : List Text} (hls : ∀ m ∈ ls, '\n' ∉ m)
    (hstart : start = pre ++ (l ++ tailText ls)) (len : Nat) (folded : Bool) :
    Walk.run start { after := restOf ls, len, stop := byteLen (pre ++ stripCr l), folded }
      = { after := restOf (ls.dropWhile isFold), len := len + foldedLen (ls.takeWhile isFold),
          stop := byteLen (pre ++ spanOf l (ls.takeWhile isFold)),
          folded := folded || !(ls.takeWhile isFold).isEmpty } := by
  induction ls generalizing pre l len folded with
  | nil =>
    rw [Walk.run]
    simp [restOf, spanOf, foldedLen]
  | cons c cs ih =>
    rw [Walk.run]
    by_cases hc : isFold c = true
    · have hrest := hls c (.head _)
      have hstart' : start = (pre ++ (l ++ ['\n'])) ++ (c ++ tailText cs) := by
        rw [hstart, tailText_cons]
        simp
      have hoffset : byteLen start - byteLen (c ++ tailText cs) =
        byteLen (pre ++ (l ++ ['\n'])) := by
        rw [hstart', byteLen_append, Nat.add_sub_cancel]
      have htake : Walk.take start
            { after := restOf (c :: cs), len, stop := byteLen (pre ++ stripCr l), folded }
            (c ++ tailText cs)
          = { after := restOf cs, len := len + (byteLen (stripCr c) - 1),
              stop := byteLen ((pre ++ (l ++ ['\n'])) ++ stripCr c), folded := true } := by
        rw [Walk.take, physical_lines hrest, hoffset, byteLen_append _ (stripCr c)]
      show (if isFold (c ++ tailText cs) then _ else _) = _
      rw [if_pos (by rw [isFold_append]; exact hc), htake,
        ih (fun m hm => hls m (mem_cons_of_mem c hm)) hstart']
      rw [takeWhile_cons_of_pos hc, dropWhile_cons_of_pos hc, spanOf]
      simp [foldedLen, Nat.add_assoc]
    · show (if isFold (c ++ tailText cs) then _ else _) = _
      rw [if_neg (by rw [isFold_append]; exact hc), takeWhile_cons_of_neg hc,
        dropWhile_cons_of_neg hc]
      simp [spanOf, foldedLen]

theorem next_lines {l : Text} {ls : List Text} (hl : '\n' ∉ l) (hls : ∀ m ∈ ls, '\n' ∉ m) :
    next (l ++ tailText ls)
      = some (rawLineOf (l, ls.takeWhile isFold), restOf (ls.dropWhile isFold)) := by
  have hbegin : Walk.begin (l ++ tailText ls)
      = { after := restOf ls, len := byteLen (stripCr l), stop := byteLen ([] ++ stripCr l),
          folded := false } := by
    rw [Walk.begin, physical_lines hl]
    rfl
  have hslice : slice (l ++ tailText ls) 0 (byteLen (spanOf l (ls.takeWhile isFold)))
      = some (spanOf l (ls.takeWhile isFold)) := by
    obtain ⟨r, hr⟩ := spanOf_prefix l (ls.takeWhile isFold)
    have hall : l ++ tailText ls = spanOf l (ls.takeWhile isFold) ++
      (r ++ tailText (ls.dropWhile isFold)) := by
      rw [← append_assoc, ← hr, append_assoc, ← tailText_append, takeWhile_append_dropWhile]
    rw [hall, slice, if_pos (Nat.zero_le _), cut_zero]
    rw [Nat.sub_zero, bind_eq_bind, bind_some]
    dsimp only
    rw [cut_append]
    rfl
  have hstart : l ++ tailText ls = [] ++ (l ++ tailText ls) := rfl
  rw [next, hbegin, Walk.run_lines hls hstart, nil_append]
  show (slice _ _ _).bind _ = _
  rw [hslice, physical_lines hl]
  rfl

theorem collect_lines {l : Text} {ls : List Text} (hl : '\n' ∉ l) (hls : ∀ m ∈ ls, '\n' ∉ m) :
    collect (some (l ++ tailText ls)) = some ((groups isFold (l :: ls)).map rawLineOf) := by
  induction hn : ls.length using Nat.strong_induction_on generalizing l ls with
  | h n ih =>
    rw [collect, next_lines hl hls, groups_cons_eq, map_cons]
    show (collect (restOf (ls.dropWhile isFold))).map _ = _
    cases hd : ls.dropWhile isFold with
    | nil =>
      rw [restOf, collect]
      rfl
    | cons m ms =>
      have hsub : (m :: ms).Sublist ls := hd ▸ dropWhile_sublist isFold
      have hlen := hsub.length_le
      have hms : ∀ k ∈ m :: ms, '\n' ∉ k := fun k hk => hls k (hsub.subset hk)
      rw [restOf, ih ms.length (by rw [length_cons] at hlen; omega) (hms m mem_cons_self)
        (fun k hk => hms k (mem_cons_of_mem m hk)) rfl]
      rfl

theorem eq_tailText_of_splitOn {input l : Text} {ls : List Text}
    (h : input.splitOn '\n' = l :: ls) : input = l ++ tailText ls := by
  have hjoin : ['\n'].intercalate (input.splitOn '\n') = input := intercalate_splitOn '\n'
  rw [← hjoin, h]
  clear h hjoin
  induction ls generalizing l with
  | nil => simp [List.intercalate]
  | cons m ls ih =>
    rw [tailText_cons, ← ih, List.intercalate, intersperse_cons_cons]
    simp [List.intercalate]

/-- **The walk never panics, and yields one line for each group of physical lines.** -/
theorem logicalLines_eq (input : Text) :
    logicalLines input = some ((groups isFold (input.splitOn '\n')).map rawLineOf) := by
  obtain ⟨l, ls, h⟩ := exists_cons_of_ne_nil (splitOn_ne_nil '\n' input)
  have hno : ∀ m ∈ l :: ls, '\n' ∉ m := fun m hm => Split.not_mem_of_mem_splitOn (h ▸ hm)
  rw [h, logicalLines, eq_tailText_of_splitOn h]
  exact collect_lines (hno l (.head _)) fun m hm => hno m (mem_cons_of_mem l hm)

end Thegn.Ics
