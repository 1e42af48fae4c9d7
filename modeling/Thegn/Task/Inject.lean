import Thegn.Task.Lint

set_option autoImplicit false

/-! # Values stay in their place

When a command template is filled, the shell should read the words and operators of the template
with each value as literal text. It does exactly for the templates that keep values away from two
places (`structure_kept_iff`): right after a backslash, which the lint forgets at the end of a span,
and in a token of digits and placeholders right before a redirection, where an unquoted number is no
word.
-/

namespace Thegn.Task

open Text Shell List

/-! ## What a clean template gives -/

/-- The value of a variable. -/
def valueIn (vars : TaskVars) (name : Text) : Text := (vars.get name).getD []

/-- The placeholders of the template have values, none with a NUL. -/
def Assigned (template prompt : Text) (vars : TaskVars) : Prop :=
  ∀ name, Piece.var name ∈ piecesOf template →
    ∃ v, (vars.set promptVar prompt).get name = some v ∧ '\x00' ∉ v

theorem flatMap_expand_chars (text : Text) : (text.map Sym.chr).flatMap expand = text.map .chr := by
  induction text with
  | nil => rfl
  | cons c text ih =>
    rw [map_cons, List.flatMap_cons, ih]
    rfl

theorem mapM_renderCommandPiece {vars : TaskVars} {ps : List Piece}
    (h : ∀ name, Piece.var name ∈ ps → ∃ v, vars.get name = some v) :
    ∃ texts, ps.mapM (renderCommandPiece vars) = .ok texts ∧
      texts.flatten.map .chr = (commandSyms (valueIn vars) ps).flatMap expand := by
  induction ps with
  | nil => exact ⟨[], rfl, rfl⟩
  | cons p ps ih =>
    obtain ⟨texts, hrest, heq⟩ := ih fun name hname => h name (.tail _ hname)
    have hfirst : ∃ text, renderCommandPiece vars p = .ok text ∧
        text.map .chr = (p.syms (valueIn vars)).flatMap expand := by
      cases p with
      | lit text =>
        refine ⟨text, rfl, ?_⟩
        rw [Piece.syms, flatMap_expand_chars]
      | var name =>
        obtain ⟨v, hv⟩ := h name (.head _)
        refine ⟨shQuote v, by rw [renderCommandPiece, hv], ?_⟩
        rw [Piece.syms, valueIn, hv, flatMap_singleton]
        rfl
    obtain ⟨text, hrender, htext⟩ := hfirst
    refine ⟨text :: texts, ?_, ?_⟩
    · rw [mapM_cons, hrender, hrest]
      rfl
    · rw [flatten_cons, map_append, htext, heq, commandSyms, commandSyms,
        List.flatMap_cons, flatMap_append]

theorem substituteCommand_eq {template prompt : Text} {vars : TaskVars}
    (hparse : parse template = .ok (piecesOf template)) (h : Assigned template prompt vars) :
    ∃ text, substituteCommand template prompt vars = .ok text ∧
      text.map .chr =
        (commandSyms (valueIn (vars.set promptVar prompt)) (piecesOf template)).flatMap expand := by
  have hassigned : ∀ name, Piece.var name ∈ piecesOf template →
      ∃ v, (vars.set promptVar prompt).get name = some v := by
    intro name hname
    obtain ⟨v, hv, -⟩ := h name hname
    exact ⟨v, hv⟩
  obtain ⟨texts, hrender, heq⟩ := mapM_renderCommandPiece hassigned
  refine ⟨texts.flatten, ?_, heq⟩
  rw [substituteCommand, hparse]
  simp only [bind, Except.bind, hrender]
  rfl

theorem map_blank_commandSyms (value : Text → Text) (ps : List Piece) :
    (commandSyms value ps).map blank = commandSyms (fun _ => []) ps := by
  rw [commandSyms, commandSyms, map_flatMap]
  refine flatMap_congr fun p _ => ?_
  cases p with
  | lit text =>
    rw [Piece.syms, Piece.syms, map_map]
    rfl
  | var name => rfl

theorem unquoted_template {template : Text} {allowed : List Text}
    (hvalid : validateTemplate template allowed true = .ok ()) (value : Text → Text) :
    Unquoted .new (commandSyms value (piecesOf template)) := by
  obtain ⟨hparse, hlint⟩ := validate_command hvalid
  have hsep : Separated (piecesOf template) := separated_parseFrom hparse
  have hagrees : Agrees { inSingle := false, inDouble := false } false Lexer.new.mode :=
    ⟨rfl, rfl, rfl⟩
  exact unquoted_of_lint value hsep hlint hagrees fun _ _ _ => rfl

/-- The kinds of the tokens, and whether the quotes are closed. -/
def shapeOf (xs : List Sym) : Option (List Kind × Bool) :=
  (tokenize isBareChar xs).map fun r => (r.1.map kindOf, r.2)

/-- A run goes on alike whatever the values are. -/
theorem run_shape_new (xs : List Sym) :
    Option.Rel (Rel (shapeMatch False)) (Lexer.new.run isBareChar xs)
      (Lexer.new.run isBareChar (xs.map blank)) :=
  run_shape (rel_new _) fun _ _ h => h.elim

/-- Values do not change the shape. -/
theorem shapeOf_blank (xs : List Sym) : shapeOf xs = shapeOf (xs.map blank) := by
  have hrel := run_shape_new xs
  unfold shapeOf tokenize
  generalize Lexer.new.run isBareChar xs = r at hrel ⊢
  generalize Lexer.new.run isBareChar (xs.map blank) = r0 at hrel ⊢
  cases hrel with
  | none => rfl
  | @some s t h =>
    obtain ⟨htokens, hclosed⟩ := finish_rel h (closes_shape h _) (closes_shape (h.putQuoted _) _)
    have hkinds : s.finish.1.map kindOf = t.finish.1.map kindOf := by
      generalize s.finish.1 = as at htokens ⊢
      generalize t.finish.1 = bs at htokens ⊢
      induction htokens with
      | nil => rfl
      | cons hkind _ ih => rw [map_cons, map_cons, ih, hkind]
    simp only [Option.map_some, hkinds, hclosed]

/-- A clean template, filled, has the tokens of the template with its values. -/
theorem tokenize_fill {template : Text} {allowed : List Text}
    (hvalid : validateTemplate template allowed true = .ok ()) (hclean : CleanTemplate template)
    (value : Text → Text) :
    tokenize isBareChar ((commandSyms value (piecesOf template)).flatMap expand) =
      tokenize isBareChar (commandSyms value (piecesOf template)) := by
  have hrel := run_fill (rel_new (fillMatch (· ≠ .filled))) (rel_new (shapeMatch False))
    (by rw [map_blank_commandSyms]; exact hclean) (unquoted_template hvalid value) (by decide)
    (fun _ _ _ => by decide) fun _ _ h => h.elim
  unfold tokenize
  generalize Lexer.new.run isBareChar ((commandSyms value (piecesOf template)).flatMap expand) = a
    at hrel ⊢
  generalize Lexer.new.run isBareChar (commandSyms value (piecesOf template)) = r at hrel ⊢
  cases hrel with
  | none => rfl
  | some h =>
    obtain ⟨htokens, hclosed⟩ :=
      finish_rel h (closes_fill_none h) (closes_fill_none (h.putQuoted _))
    have heq := forall₂_eq_eq_eq ▸ htokens
    rw [Option.map_some, Option.map_some, Prod.ext heq hclosed]

/-! ## What a hazard does -/

theorem exists_hazard {s : Lexer} {ys : List Sym} (h : clean s ys = false) :
    ∃ before x after u, ys = before ++ x :: after ∧ s.run isBareChar before = some u ∧
      hazard u x = true ∧ clean s before = true := by
  induction ys generalizing s with
  | nil => cases h
  | cons y ys ih =>
    rw [clean, Bool.and_eq_false_iff] at h
    by_cases hy : hazard s y = true
    · exact ⟨[], y, ys, s, rfl, rfl, hy, rfl⟩
    · rw [Bool.not_eq_true] at hy
      rcases h with h | h
      · rw [hy] at h
        cases h
      · cases hstep : s.step isBareChar y with
        | none =>
          rw [hstep] at h
          cases h
        | some t =>
          rw [hstep] at h
          obtain ⟨before, x, after, u, rfl, hrun, hx, hbefore⟩ := ih h
          refine ⟨y :: before, x, after, u, rfl, ?_, hx, ?_⟩
          · rw [Lexer.run, hstep]
            exact hrun
          · rw [clean, hy, hstep]
            exact hbefore

/-- What both have read by then differs, so the tokens do. -/
theorem tokenize_ne {xs ys : List Sym} {a b : Lexer} {before : List Sym} (rest rest' : List Sym)
    (hxs : Lexer.new.run isBareChar before = some a)
    (hne : ∀ ts, Commits a ts → Commits b ts → False) {before' : List Sym}
    (hys : Lexer.new.run isBareChar before' = some b) (hx : xs = before ++ rest)
    (hy : ys = before' ++ rest') (hsome : (Lexer.new.run isBareChar ys).isSome = true) :
    tokenize isBareChar xs ≠ tokenize isBareChar ys := by
  intro heq
  unfold tokenize at heq
  rw [hx, hy, run_append, run_append, hxs, hys, Option.bind_some, Option.bind_some] at heq
  rw [hy, run_append, hys, Option.bind_some] at hsome
  obtain ⟨t, ht⟩ := Option.isSome_iff_exists.mp hsome
  rw [ht] at heq
  cases hs : a.run isBareChar rest with
  | none =>
    rw [hs] at heq
    cases heq
  | some s =>
    rw [hs, Option.map_some, Option.map_some, Option.some.injEq] at heq
    have ha := (commits_finish s).of_run hs
    have hb := (commits_finish t).of_run ht
    rw [heq] at ha
    exact hne _ ha hb

theorem unquoted_of_append {s : Lexer} {xs ys : List Sym} (h : Unquoted s (xs ++ ys)) :
    Unquoted s xs := by
  induction xs generalizing s with
  | nil => trivial
  | cons x xs ih => exact ⟨h.1, fun t hstep => ih (h.2 t hstep)⟩

/-- Up to the first hazard the filled template is read as written. -/
theorem run_before (P : Form → Prop) (digits : Prop) {before after : List Sym} {x : Sym} {u : Lexer}
    (hrun : Lexer.new.run isBareChar (before.map blank) = some u)
    (hclean : clean .new (before.map blank) = true)
    (hunquoted : Unquoted .new (before ++ x :: after))
    (hbare : P .bare) (hquoted : ∀ v, .val v ∈ before → ¬ isBare v → P .quoted)
    (hdigits : ∀ v, .val v ∈ before → digits → (literal v).all isDigit = true) :
    ∃ a r, Lexer.new.run isBareChar (before.flatMap expand) = some a ∧
      Lexer.new.run isBareChar before = some r ∧ Rel (fillMatch P) a r ∧
      Rel (shapeMatch digits) r u := by
  have hrel := run_fill (rel_new (fillMatch P)) (rel_new (shapeMatch digits)) hclean
    (unquoted_of_append hunquoted) hbare hquoted hdigits
  have hshape := run_shape (rel_new (shapeMatch digits)) hdigits
  rw [hrun] at hshape
  cases hr : Lexer.new.run isBareChar before with
  | none =>
    rw [hr] at hshape
    cases hshape
  | some r =>
    rw [hr] at hshape hrel
    cases ha : Lexer.new.run isBareChar (before.flatMap expand) with
    | none =>
      rw [ha] at hrel
      cases hrel
    | some a =>
      rw [ha] at hrel
      cases hrel with
      | some h =>
        cases hshape with
        | some h' => exact ⟨a, r, rfl, rfl, h, h'⟩

/-- After a backslash the quote that opens a value is a character. -/
theorem tokenize_ne_escaped {before after : List Sym} {u : Lexer}
    (hrun : Lexer.new.run isBareChar (before.map blank) = some u)
    (hclean : clean .new (before.map blank) = true)
    (hunquoted : Unquoted .new (before ++ .val [' '] :: after))
    (hhazard : hazard u (.val []) = true)
    (hsome : (Lexer.new.run isBareChar (before ++ .val [' '] :: after)).isSome = true) :
    tokenize isBareChar ((before ++ .val [' '] :: after).flatMap expand) ≠
      tokenize isBareChar (before ++ .val [' '] :: after) := by
  obtain ⟨a, r, ha, hr, hrel, hshape⟩ := run_before (· ≠ .filled) False hrun hclean
    hunquoted (by decide) (fun _ _ _ => by decide) fun _ _ h => h.elim
  have hmode : a.mode = .escaped := by
    rw [hrel.mode, hshape.mode]
    exact beq_iff_eq.mp hhazard
  have hmode' : r.mode = .escaped := hrel.mode ▸ hmode
  have hstep : a.step isBareChar (.chr '\'') =
      some { a.put (literal ['\'']) quote with mode := .plain } := by
    unfold Lexer.step
    dsimp only
    rw [hmode]
    rfl
  have hstep' : r.step isBareChar (.val [' ']) =
      some { r.put (literal [' ']) quote with mode := .plain } := by
    unfold Lexer.step
    dsimp only
    rw [hmode']
  have hafter : Lexer.new.run isBareChar (before.flatMap expand ++ [Sym.chr '\'']) =
      some { a.put (literal ['\'']) quote with mode := .plain } := by
    rw [run_append, ha, Option.bind_some, run_singleton, hstep]
  have hafter' : Lexer.new.run isBareChar (before ++ [Sym.val [' ']]) =
      some { r.put (literal [' ']) quote with mode := .plain } := by
    rw [run_append, hr, Option.bind_some, run_singleton, hstep']
  refine tokenize_ne ([Sym.chr ' ', .chr '\''] ++ after.flatMap expand) after hafter
    ?_ hafter' ?_ (append_cons before _ after) hsome
  · -- the words differ where the value begins
    intro ts hts hts'
    have hput : ∃ tokens cs, (∀ ds : List WordChar, (a.put ds quote).tokens = tokens ∧
        (a.put ds quote).cur = .word (cs ++ ds) .quoted) ∧
        ∀ ds : List WordChar, (r.put ds quote).tokens = tokens ∧
          (r.put ds quote).cur = .word (cs ++ ds) .quoted := by
      obtain ⟨tokens, cur, mode⟩ := a
      obtain ⟨tokens', cur', mode'⟩ := r
      obtain ⟨htokens, hcur, -⟩ := hrel
      dsimp only at htokens hcur
      have htokens : tokens = tokens' := forall₂_eq_eq_eq ▸ htokens
      subst htokens
      cases hcur with
      | idle => exact ⟨tokens, [], fun ds => ⟨rfl, rfl⟩, fun ds => ⟨rfl, rfl⟩⟩
      | word hw =>
        obtain ⟨rfl, -⟩ := hw
        exact ⟨tokens, _, fun ds => ⟨rfl, rfl⟩, fun ds => ⟨rfl, rfl⟩⟩
      | op text => exact ⟨tokens ++ [Token.op text], [], fun ds => ⟨rfl, rfl⟩, fun ds => ⟨rfl, rfl⟩⟩
    obtain ⟨tokens, cs, hput, hput'⟩ := hput
    obtain ⟨tok, rest, htok, hpre⟩ := hts.word (hput _).2
    obtain ⟨tok', rest', htok', hpre'⟩ := hts'.word (hput' _).2
    dsimp only at htok htok'
    rw [(hput _).1] at htok
    rw [(hput' _).1] at htok'
    rw [htok, append_cancel_left_eq, List.cons.injEq] at htok'
    rw [← htok'.1] at hpre'
    have heq :=
      List.IsPrefix.eq_of_length (prefix_of_prefix_length_le hpre hpre' (by simp [literal]))
      (by simp [literal])
    rw [append_cancel_left_eq] at heq
    exact absurd heq (by decide)
  · rw [flatMap_append, List.flatMap_cons, append_assoc]
    rfl

/-- A redirection ends the word before it. -/
theorem step_redirection {s : Lexer} (hmode : s.mode = .plain) {cs : List WordChar} {f : Form}
    (hcur : s.cur = .word cs f) {c : Char} (hc : isRedirection c = true) :
    s.step isBareChar (.chr c) =
      some { tokens := s.tokens ++ [wordToken cs f (some c)], cur := .op [c], mode := .plain } := by
  obtain ⟨tokens, cur, mode⟩ := s
  dsimp only at hmode hcur
  subst hmode hcur
  rw [isRedirection, Bool.or_eq_true, beq_iff_eq, beq_iff_eq] at hc
  rcases hc with rfl | rfl
  · rfl
  · rfl

/-- Digits that are put in without quotes are no word before a redirection. -/
theorem tokenize_ne_number {before after : List Sym} {u : Lexer} {c : Char}
    (hrun : Lexer.new.run isBareChar (before.map blank) = some u)
    (hclean : clean .new (before.map blank) = true)
    (hunquoted : Unquoted .new (before ++ .chr c :: after))
    (hvals : ∀ v, .val v ∈ before → v = ['2']) (hhazard : hazard u (.chr c) = true)
    (hsome : (Lexer.new.run isBareChar (before ++ .chr c :: after)).isSome = true) :
    tokenize isBareChar ((before ++ .chr c :: after).flatMap expand) ≠
      tokenize isBareChar (before ++ .chr c :: after) := by
  have hbare : isBare ['2'] := by
    unfold isBare
    decide
  obtain ⟨a, r, ha, hr, hrel, hshape⟩ := run_before (· = .bare) True hrun hclean
    hunquoted rfl (fun v hv hnot => absurd (hvals v hv ▸ hbare) hnot)
    (fun v hv _ => by rw [hvals v hv]; decide)
  rw [hazard, Bool.and_eq_true, Bool.and_eq_true, beq_iff_eq] at hhazard
  obtain ⟨⟨hmode0, hredir⟩, hdigits0⟩ := hhazard
  have hwords : ∃ cs, a.cur = .word cs .bare ∧ r.cur = .word cs .filled ∧
      cs.all isDigit = true := by
    have hcur := hrel.cur
    have hcur' := hshape.cur
    generalize hu : u.cur = cur0 at hcur' hdigits0
    generalize r.cur = cur' at hcur hcur' ⊢
    generalize a.cur = cur at hcur ⊢
    cases hcur' with
    | idle => cases hdigits0
    | op text => cases hdigits0
    | @word bs cs f g hw =>
      obtain ⟨rfl, -, -, hdigit⟩ := hw
      cases f with
      | bare => cases hdigits0
      | quoted => cases hdigits0
      | filled =>
        cases hcur with
        | word hw' =>
          obtain ⟨rfl, ⟨-, rfl⟩ | ⟨hne, -⟩⟩ := hw'
          · exact ⟨_, rfl, rfl, hdigit trivial hdigits0⟩
          · exact absurd rfl hne
  obtain ⟨cs, hacur, hrcur, hdigits⟩ := hwords
  have hmode' : r.mode = .plain := hshape.mode.trans hmode0
  have hmode : a.mode = .plain := hrel.mode.trans hmode'
  have htokens : a.tokens = r.tokens := forall₂_eq_eq_eq ▸ hrel.tokens
  have hafter : Lexer.new.run isBareChar (before.flatMap expand ++ [Sym.chr c]) =
      some { tokens := a.tokens ++ [Token.ioNumber cs], cur := .op [c], mode := .plain } := by
    rw [run_append, ha, Option.bind_some, run_singleton, step_redirection hmode hacur hredir,
      wordToken, if_pos ⟨rfl, hredir, hdigits⟩]
  have hafter' : Lexer.new.run isBareChar (before ++ [Sym.chr c]) =
      some { tokens := r.tokens ++ [Token.word cs], cur := .op [c], mode := .plain } := by
    rw [run_append, hr, Option.bind_some, run_singleton, step_redirection hmode' hrcur hredir,
      wordToken_of_ne_bare (by decide)]
  refine tokenize_ne (after.flatMap expand) after hafter ?_ hafter' ?_
    (append_cons before _ after) hsome
  · intro ts hts hts'
    have hpre := hts.tokens
    have hpre' := hts'.tokens
    dsimp only at hpre hpre'
    rw [← htokens] at hpre'
    have heq := (prefix_of_prefix_length_le hpre hpre' (by simp)).eq_of_length (by simp)
    rw [append_cancel_left_eq] at heq
    cases heq
  · rw [flatMap_append, List.flatMap_cons, expand, append_assoc]

/-! ## The same value everywhere -/

theorem get_set (vars : TaskVars) (key value name : Text) :
    (vars.set key value).get name = if name = key then some value else vars.get name := by
  obtain ⟨entries⟩ := vars
  unfold TaskVars.get TaskVars.set
  dsimp only
  induction entries with
  | nil =>
    rw [TaskVars.set.insert, lookup_cons]
    by_cases h : name = key
    · rw [if_pos h, h, beq_self_eq_true]
    · rw [if_neg h, beq_false_of_ne h]
  | cons e entries ih =>
    obtain ⟨k, v⟩ := e
    rw [TaskVars.set.insert]
    by_cases hname : name = key
    · rw [if_pos hname] at ih ⊢
      subst hname
      split_ifs with hkey
      · rw [lookup_cons, beq_self_eq_true]
      · rw [lookup_cons, beq_self_eq_true]
      · rw [lookup_cons, beq_false_of_ne hkey, ih]
    · rw [if_neg hname] at ih ⊢
      split_ifs with hkey
      · dsimp only at hkey
        subst hkey
        rw [lookup_cons, lookup_cons, beq_false_of_ne hname]
      · rw [lookup_cons, beq_false_of_ne hname]
      · rw [lookup_cons, lookup_cons, ih]

/-- Every placeholder has the same value. -/
def constVars (v : Text) : List Piece → TaskVars
  | [] => .new
  | .lit _ :: ps => constVars v ps
  | .var name :: ps => (constVars v ps).set name v

theorem get_constVars {v name : Text} {ps : List Piece} (h : Piece.var name ∈ ps) :
    (constVars v ps).get name = some v := by
  induction ps with
  | nil => exact absurd h not_mem_nil
  | cons p ps ih =>
    cases p with
    | lit text =>
      rcases mem_cons.mp h with h | h
      · cases h
      · exact ih h
    | var name' =>
      rw [constVars, get_set]
      split_ifs with hname
      · rfl
      · rcases mem_cons.mp h with h | h
        · cases h
          exact absurd rfl hname
        · exact ih h

theorem get_constVars_prompt {v name : Text} {ps : List Piece} (h : Piece.var name ∈ ps) :
    ((constVars v ps).set promptVar v).get name = some v := by
  rw [get_set]
  split_ifs
  · rfl
  · exact get_constVars h

theorem commandSyms_constVars (v : Text) (ps : List Piece) :
    commandSyms (valueIn ((constVars v ps).set promptVar v)) ps = commandSyms (fun _ => v) ps := by
  refine flatMap_congr fun p hp => ?_
  cases p with
  | lit text => rfl
  | var name =>
    rw [Piece.syms, Piece.syms, valueIn, get_constVars_prompt hp]
    rfl

theorem mem_commandSyms_const {v w : Text} {ps : List Piece}
    (h : Sym.val w ∈ commandSyms (fun _ => v) ps) : w = v := by
  obtain ⟨p, -, hp⟩ := mem_flatMap.mp h
  cases p with
  | lit text =>
    obtain ⟨c, -, hc⟩ := mem_map.mp hp
    cases hc
  | var name =>
    cases mem_singleton.mp hp
    rfl

/-! ## Exactly the clean templates -/

/-- Filled with any values, the command has the tokens of the template with its values; so any two
assignments give tokens of the same kinds in the same places. -/
structure Kept (template : Text) : Prop where
  tokens : ∀ prompt vars, Assigned template prompt vars →
    ∃ text, substituteCommand template prompt vars = .ok text ∧
      tokenize isBareChar (text.map .chr) =
        tokenize isBareChar (commandSyms (valueIn (vars.set promptVar prompt)) (piecesOf template))
  places : ∀ prompt vars prompt' vars' text text', Assigned template prompt vars →
    Assigned template prompt' vars' → substituteCommand template prompt vars = .ok text →
    substituteCommand template prompt' vars' = .ok text' →
      shapeOf (text.map .chr) = shapeOf (text'.map .chr)

section Template

variable {template : Text} {allowed : List Text}

theorem kept_of_clean (hvalid : validateTemplate template allowed true = .ok ())
    (hclean : CleanTemplate template) : Kept template := by
  obtain ⟨hparse, -⟩ := validate_command hvalid
  have hshape : ∀ prompt vars text, Assigned template prompt vars →
      substituteCommand template prompt vars = .ok text →
        shapeOf (text.map .chr) = shapeOf (commandSyms (fun _ => []) (piecesOf template)) := by
    intro prompt vars text hassigned htext
    obtain ⟨text', htext', hsyms⟩ := substituteCommand_eq hparse hassigned
    rw [htext, Except.ok.injEq] at htext'
    subst htext'
    rw [hsyms, ← map_blank_commandSyms (valueIn (vars.set promptVar prompt)), ← shapeOf_blank]
    unfold shapeOf
    rw [tokenize_fill hvalid hclean]
  constructor
  · intro prompt vars hassigned
    obtain ⟨text, htext, hsyms⟩ := substituteCommand_eq hparse hassigned
    exact ⟨text, htext, by rw [hsyms, tokenize_fill hvalid hclean]⟩
  · intro prompt vars prompt' vars' text text' hassigned hassigned' htext htext'
    rw [hshape prompt vars text hassigned htext, hshape prompt' vars' text' hassigned' htext']

/-- With one value everywhere, a template that is kept reads that value as it is. -/
theorem tokenize_const (hvalid : validateTemplate template allowed true = .ok ())
    (hkept : Kept template) {v : Text} (hnul : '\x00' ∉ v) :
    tokenize isBareChar ((commandSyms (fun _ => v) (piecesOf template)).flatMap expand) =
      tokenize isBareChar (commandSyms (fun _ => v) (piecesOf template)) := by
  obtain ⟨hparse, -⟩ := validate_command hvalid
  have hassigned : Assigned template v (constVars v (piecesOf template)) :=
    fun name hname => ⟨v, get_constVars_prompt hname, hnul⟩
  obtain ⟨text, htext, htokens⟩ := hkept.tokens v (constVars v (piecesOf template)) hassigned
  obtain ⟨text', htext', hsyms⟩ := substituteCommand_eq hparse hassigned
  rw [htext, Except.ok.injEq] at htext'
  subst htext'
  rw [hsyms, commandSyms_constVars] at htokens
  exact htokens

theorem clean_of_kept (hvalid : validateTemplate template allowed true = .ok ())
    (hplain : PlainTemplate template) (hkept : Kept template) : CleanTemplate template := by
  by_contra hclean
  rw [CleanTemplate, Bool.not_eq_true] at hclean
  obtain ⟨before0, x0, after0, u, hsplit, hrun, hhazard, hbefore⟩ := exists_hazard hclean
  -- the hazard in the template with one value `v` everywhere
  have hfilled : ∀ v, ∃ before x after, commandSyms (fun _ => v) (piecesOf template) =
      before ++ x :: after ∧ before.map blank = before0 ∧ blank x = x0 := by
    intro v
    rw [← map_blank_commandSyms (fun _ => v)] at hsplit
    obtain ⟨before, rest, hsyms, hbefore, hrest⟩ := map_eq_append_iff.mp hsplit
    obtain ⟨x, after, rfl, hx, -⟩ := map_eq_cons_iff.mp hrest
    exact ⟨before, x, after, hsyms, hbefore, hx⟩
  have hsome : ∀ v, (Lexer.new.run isBareChar
      (commandSyms (fun _ => v) (piecesOf template))).isSome = true := by
    intro v
    have hrel := run_shape_new (commandSyms (fun _ => v) (piecesOf template))
    rw [map_blank_commandSyms] at hrel
    unfold PlainTemplate at hplain
    generalize Lexer.new.run isBareChar (commandSyms (fun _ => v) (piecesOf template)) = r at hrel ⊢
    generalize Lexer.new.run isBareChar (commandSyms (fun _ => []) (piecesOf template)) = r0
      at hrel hplain
    cases hrel with
    | none => cases hplain
    | some _ => rfl
  cases x0 with
  | val v0 =>
    obtain ⟨before, x, after, hsyms, rfl, hx⟩ := hfilled [' ']
    have hkept' := tokenize_const hvalid hkept (v := [' ']) (by decide)
    have hunquoted := unquoted_template hvalid fun _ => [' ']
    have hsome' := hsome [' ']
    cases x with
    | chr c => cases hx
    | val v =>
      have hmem : Sym.val v ∈ commandSyms (fun _ => [' ']) (piecesOf template) := by
        rw [hsyms]
        exact mem_append_right _ (.head _)
      obtain rfl := mem_commandSyms_const hmem
      cases hx
      rw [hsyms] at hkept' hunquoted hsome'
      exact tokenize_ne_escaped hrun hbefore hunquoted hhazard hsome' hkept'
  | chr c =>
    obtain ⟨before, x, after, hsyms, rfl, hx⟩ := hfilled ['2']
    have hkept' := tokenize_const hvalid hkept (v := ['2']) (by decide)
    have hunquoted := unquoted_template hvalid fun _ => ['2']
    have hsome' := hsome ['2']
    cases x with
    | val v => cases hx
    | chr c' =>
      cases hx
      have hvals : ∀ v, .val v ∈ before → v = ['2'] := by
        intro v hv
        have hmem : Sym.val v ∈ commandSyms (fun _ => ['2']) (piecesOf template) := by
          rw [hsyms]
          exact mem_append_left _ hv
        exact mem_commandSyms_const hmem
      rw [hsyms] at hkept' hunquoted hsome'
      exact tokenize_ne_number hrun hbefore hunquoted hvals hhazard hsome' hkept'

end Template

/-- **Values keep their place exactly in the clean templates.** A command template that is accepted
and has no comment, expansion or here-document is read with every value as literal text if and only
if no placeholder stands right after a backslash and none is, with nothing but digits beside it, all
of the token right before a redirection. -/
theorem structure_kept_iff (template : Text) (allowed : List Text)
    (hvalid : validateTemplate template allowed true = .ok ()) (hplain : PlainTemplate template) :
    Kept template ↔ CleanTemplate template :=
  ⟨clean_of_kept hvalid hplain, kept_of_clean hvalid⟩

/-- A prompt bare on the command line, with its output redirected. -/
theorem structure_kept_iff_sample :
    validateTemplate "agent -p {prompt} >log 2>&1".toList [promptVar] true = .ok () ∧
      PlainTemplate "agent -p {prompt} >log 2>&1".toList ∧
      CleanTemplate "agent -p {prompt} >log 2>&1".toList ∧
      Kept "agent -p {prompt} >log 2>&1".toList := by
  have hvalid : validateTemplate "agent -p {prompt} >log 2>&1".toList [promptVar] true =
    .ok () := by
    decide
  have hplain : PlainTemplate "agent -p {prompt} >log 2>&1".toList := by
    unfold PlainTemplate
    decide
  have hclean : CleanTemplate "agent -p {prompt} >log 2>&1".toList := by
    unfold CleanTemplate
    decide
  exact ⟨hvalid, hplain, hclean, (structure_kept_iff _ [promptVar] hvalid hplain).mpr hclean⟩

/-- With a backslash before its placeholder, the prompt `a b` is two words. -/
theorem escaped_placeholder_breaks :
    ¬ ∀ (template : Text) (allowed : List Text),
      validateTemplate template allowed true = .ok () → PlainTemplate template → Kept template := by
  intro h
  have hkept := h "\\{prompt}".toList [promptVar] (by decide) (by unfold PlainTemplate; decide)
  have hassigned : Assigned "\\{prompt}".toList "a b".toList .new := by
    intro name hname
    have hpieces : piecesOf "\\{prompt}".toList = [.lit ['\\'], .var promptVar] := by decide
    rw [hpieces] at hname
    have hname' : name = promptVar := by simpa using hname
    exact ⟨"a b".toList, by rw [hname']; decide, by decide +kernel⟩
  obtain ⟨text, htext, htokens⟩ := hkept.tokens "a b".toList .new hassigned
  have htext' : substituteCommand "\\{prompt}".toList "a b".toList .new = .ok "\\'a b'".toList := by
    decide
  rw [htext', Except.ok.injEq] at htext
  subst htext
  revert htokens
  decide

end Thegn.Task
