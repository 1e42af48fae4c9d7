import Thegn.Task.Fill

set_option autoImplicit false

/-! # What the lint of command templates keeps out

`quoted_placeholder` follows the quotes over the literal spans. It agrees with the shell on them, so
an accepted template has no value inside quotes (`unquoted_of_lint`); of a backslash at the end of a
span it knows nothing.
-/

namespace Thegn.Task

open Text Shell

/-- The lint and the lexer agree on the quotes. -/
def Agrees (q : Quotes) (escaped : Bool) : Mode → Prop
  | .plain => q.inSingle = false ∧ q.inDouble = false ∧ escaped = false
  | .single => q.inSingle = true ∧ q.inDouble = false ∧ escaped = false
  | .double => q.inSingle = false ∧ q.inDouble = true ∧ escaped = false
  | .escaped => q.inSingle = false ∧ q.inDouble = false ∧ escaped = true
  | .doubleEscaped => q.inSingle = false ∧ q.inDouble = true ∧ escaped = true

theorem agrees_next {q : Quotes} {escaped : Bool} {mode : Mode} (h : Agrees q escaped mode)
    (c : Char) :
    ∃ q' escaped', Agrees q' escaped' (mode.next c) ∧
      ∀ rest, q.scan escaped (c :: rest) = q'.scan escaped' rest := by
  obtain ⟨single, double⟩ := q
  cases mode with
  | plain =>
    obtain ⟨rfl, rfl, rfl⟩ := h
    simp only [Mode.next]
    split_ifs with hback hsingle hdouble
    · exact ⟨⟨false, false⟩, true, ⟨rfl, rfl, rfl⟩, fun rest => by simp [Quotes.scan, hback]⟩
    · exact ⟨⟨true, false⟩, false, ⟨rfl, rfl, rfl⟩, fun rest => by simp [Quotes.scan, hsingle]⟩
    · exact ⟨⟨false, true⟩, false, ⟨rfl, rfl, rfl⟩, fun rest => by simp [Quotes.scan, hdouble]⟩
    · exact ⟨⟨false, false⟩, false, ⟨rfl, rfl, rfl⟩,
        fun rest => by simp [Quotes.scan, hback, hsingle, hdouble]⟩
  | single =>
    obtain ⟨rfl, rfl, rfl⟩ := h
    simp only [Mode.next]
    split_ifs with hsingle
    · exact ⟨⟨false, false⟩, false, ⟨rfl, rfl, rfl⟩, fun rest => by simp [Quotes.scan, hsingle]⟩
    · exact ⟨⟨true, false⟩, false, ⟨rfl, rfl, rfl⟩, fun rest => by simp [Quotes.scan, hsingle]⟩
  | double =>
    obtain ⟨rfl, rfl, rfl⟩ := h
    simp only [Mode.next]
    split_ifs with hdouble hback
    · exact ⟨⟨false, false⟩, false, ⟨rfl, rfl, rfl⟩, fun rest => by simp [Quotes.scan, hdouble]⟩
    · exact ⟨⟨false, true⟩, true, ⟨rfl, rfl, rfl⟩, fun rest => by simp [Quotes.scan, hback]⟩
    · exact ⟨⟨false, true⟩, false, ⟨rfl, rfl, rfl⟩,
        fun rest => by simp [Quotes.scan, hback, hdouble]⟩
  | escaped =>
    obtain ⟨rfl, rfl, rfl⟩ := h
    exact ⟨⟨false, false⟩, false, ⟨rfl, rfl, rfl⟩, fun rest => by simp [Quotes.scan]⟩
  | doubleEscaped =>
    obtain ⟨rfl, rfl, rfl⟩ := h
    exact ⟨⟨false, true⟩, false, ⟨rfl, rfl, rfl⟩, fun rest => by simp [Quotes.scan]⟩

theorem agrees_run {q : Quotes} {escaped : Bool} {text : Text} {s t : Lexer}
    (h : Agrees q escaped s.mode) (hrun : s.run isBareChar (text.map .chr) = some t) :
    ∃ escaped', Agrees (q.scan escaped text) escaped' t.mode := by
  induction text generalizing q escaped s with
  | nil =>
    cases hrun
    exact ⟨escaped, h⟩
  | cons c text ih =>
    obtain ⟨u, hstep, hrest⟩ := Option.bind_eq_some_iff.mp hrun
    obtain ⟨q', escaped', hagrees, hscan⟩ := agrees_next h c
    rw [hscan]
    rw [← step_chr_mode hstep] at hagrees
    exact ih hagrees hrest

theorem unquoted_append {s : Lexer} {xs ys : List Sym} (hxs : Unquoted s xs)
    (hys : ∀ t, s.run isBareChar xs = some t → Unquoted t ys) : Unquoted s (xs ++ ys) := by
  induction xs generalizing s with
  | nil => exact hys s rfl
  | cons x xs ih =>
    refine ⟨hxs.1, fun t hstep => ih (hxs.2 t hstep) fun u hrun => hys u ?_⟩
    rw [Lexer.run, hstep]
    exact hrun

theorem unquoted_chars (text : Text) (s : Lexer) : Unquoted s (text.map .chr) := by
  induction text generalizing s with
  | nil => trivial
  | cons c text ih => exact ⟨fun v hv => (by cases hv), fun t _ => ih t⟩

/-- Literal spans do not follow one another. -/
def Separated : List Piece → Prop
  | .lit _ :: .lit _ :: _ => False
  | _ :: rest => Separated rest
  | [] => True

theorem separated_flush {lit : Text} {name : Text} {ps : List Piece} (h : Separated ps) :
    Separated (flushLit lit ++ .var name :: ps) := by
  unfold flushLit
  split_ifs
  · exact h
  · exact h

theorem separated_parseFrom {inside : Option Text} {lit : Text} {cs : Text} {ps : List Piece}
    (h : parseFrom inside lit cs = .ok ps) : Separated ps := by
  fun_induction parseFrom inside lit cs generalizing ps with
  | case1 lit =>
    cases h
    unfold flushLit
    split_ifs
    · trivial
    · trivial
  | case2 => cases h
  | case3 => cases h
  | case4 name lit rest _ ih =>
    cases hrest : parseFrom none [] rest with
    | error e =>
      rw [hrest] at h
      cases h
    | ok ps' =>
      rw [hrest] at h
      cases h
      exact separated_flush (ih hrest)
  | case5 _ _ _ _ _ ih => exact ih h
  | case6 _ _ ih => exact ih h
  | case7 _ _ ih => exact ih h
  | case8 _ _ _ ih => exact ih h
  | case9 _ _ _ _ _ _ ih => exact ih h

/-- **The lint keeps values out of quotes.** -/
theorem unquoted_of_lint (value : Text → Text) {ps : List Piece} (hsep : Separated ps) {q : Quotes}
    (hlint : quotedIn q ps = none) {escaped : Bool} {s : Lexer} (hagrees : Agrees q escaped s.mode)
    (hlit : ∀ text rest, ps = .lit text :: rest → escaped = false) :
    Unquoted s (commandSyms value ps) := by
  induction ps generalizing q escaped s with
  | nil => trivial
  | cons p ps ih =>
    cases p with
    | lit text =>
      have hno := hlit text ps rfl
      subst hno
      refine unquoted_append (unquoted_chars text s) fun t hrun => ?_
      obtain ⟨escaped', hagrees'⟩ := agrees_run hagrees hrun
      have hnext : ∀ text' rest, ps ≠ .lit text' :: rest := by
        rintro text' rest rfl
        exact hsep
      have hsep' : Separated ps := by
        cases ps with
        | nil => trivial
        | cons p' ps' =>
          cases p' with
          | lit text' => exact absurd rfl (hnext text' ps')
          | var name => exact hsep
      exact ih hsep' hlint hagrees' fun text' rest heq => absurd heq (hnext text' rest)
    | var name =>
      rw [quotedIn] at hlint
      split_ifs at hlint with hq
      rw [Bool.or_eq_true, not_or, Bool.not_eq_true, Bool.not_eq_true] at hq
      have hmode : s.mode = .plain ∨ s.mode = .escaped := by
        cases hm : s.mode with
        | plain => exact .inl rfl
        | escaped => exact .inr rfl
        | single | double | doubleEscaped =>
          rw [hm] at hagrees
          simp [Agrees, hq.1, hq.2] at hagrees
      refine ⟨fun v _ => hmode, fun t hstep => ?_⟩
      have hplain : t.mode = .plain := by
        rw [step_val_mode hstep]
        rcases hmode with hmode | hmode
        · rw [hmode]
          rfl
        · rw [hmode]
          rfl
      have hagrees' : Agrees q false t.mode := by
        rw [hplain]
        exact ⟨hq.1, hq.2, rfl⟩
      exact ih hsep hlint hagrees' fun _ _ _ => rfl

end Thegn.Task
