import Thegn.Lib.EditScript
import Thegn.Patch.Transform

set_option autoImplicit false

/-! # What the rewriting of a hunk does to its edit script

The body of a hunk is an edit script over file lines, where a file line is a text together with
whether its newline is missing (`bodyScript`): a `\ No newline at end of file` marker belongs to
the body line it follows. This file relates the script of a rewritten hunk body to the script of
the original one, for the forward direction; `transformHunkLines_flip` carries it over to the
reverse direction, which is the forward one with the signs exchanged.

A marker of the output stays with the line it followed in the input, except in one situation
(`StrandedMarker`): the marker follows a selected `+` line while an unselected `-` line of the
same change block is still held back. The held line is then written between the `+` line and
its marker. `staged_rewrite` says that without such a marker the rewritten body is exactly the
partial script of the selection; `oldSide_ne_of_stranded` that with one it never is.
-/

namespace Thegn.Patch

open EditScript List

/-! ## The edit script of a hunk body -/

/-- A line of a file: its text, and whether the newline after it is missing. -/
structure FileLine where
  text : Text
  noEol : Bool
  deriving DecidableEq

def LineKind.isMarker : LineKind → Bool
  | .noNewlineOld => true
  | .noNewlineNew => true
  | _ => false

/-- The operation of a body line; `none` for a marker. -/
def LineKind.op : LineKind → Option Op
  | .context => some .keep
  | .add => some .ins
  | .del => some .del
  | .noNewlineOld => none
  | .noNewlineNew => none

/-- Mark the newline as missing. -/
def FileLine.strip (l : FileLine) : FileLine := { l with noEol := true }

/-- Add one body line to a marked script; a marker applies to the last line. -/
def markStep (ms : List (Marked FileLine)) (p : PatchLine × Bool) : List (Marked FileLine) :=
  match p.1.kind.op with
  | some op => ms ++ [⟨op, ⟨p.1.text, false⟩, p.2⟩]
  | none => ms.modifyLast (fun m => { m with line := m.line.strip })

/-- The edit script of a body, each line with whether it is selected. -/
def markedScript (ps : List (PatchLine × Bool)) : List (Marked FileLine) := ps.foldl markStep []

/-- Add one body line to a script. -/
def bodyStep (s : Script FileLine) (l : PatchLine) : Script FileLine :=
  match l.kind.op with
  | some op => s ++ [(op, ⟨l.text, false⟩)]
  | none => s.modifyLast (fun e => (e.1, e.2.strip))

/-- **The edit script of a hunk body.** -/
def bodyScript (ls : List PatchLine) : Script FileLine := ls.foldl bodyStep []

@[simp] theorem bodyScript_nil : bodyScript [] = [] := rfl

theorem bodyScript_snoc (ls : List PatchLine) (l : PatchLine) :
    bodyScript (ls ++ [l]) = bodyStep (bodyScript ls) l := by
  simp [bodyScript]

theorem markedScript_snoc (ps : List (PatchLine × Bool)) (p : PatchLine × Bool) :
    markedScript (ps ++ [p]) = markStep (markedScript ps) p := by
  simp [markedScript]

/-- Forgetting the marks gives the script of the body. -/
theorem map_entry_markedScript (ps : List (PatchLine × Bool)) :
    (markedScript ps).map Marked.entry = bodyScript (ps.map Prod.fst) := by
  induction ps using List.reverseRecOn with
  | nil => rfl
  | append_singleton ps p ih =>
    rw [markedScript_snoc, map_append, map_cons, map_nil, bodyScript_snoc, ← ih]
    unfold markStep bodyStep
    cases p.1.kind.op with
    | some op => simp [Marked.entry]
    | none =>
      apply map_modifyLast
      intro m
      rfl

/-- Lines written as context: a script of kept lines. -/
theorem bodyScript_append_context {ls ps : List PatchLine} (h : ∀ l ∈ ps, l.kind = .context) :
    bodyScript (ls ++ ps) = bodyScript ls ++ ps.map (fun l => (Op.keep, ⟨l.text, false⟩)) := by
  induction ps using List.reverseRecOn with
  | nil => simp
  | append_singleton ps p ih =>
    have hp : p.kind = .context := h p (by simp)
    have ih' := ih (fun l hl => h l (by simp [hl]))
    rw [← append_assoc, bodyScript_snoc, ih']
    simp [bodyStep, hp, LineKind.op]

/-! ## Held lines and stranded markers -/

/-- An unselected `-` line: held back as context. -/
def IsHeldDel (p : PatchLine × Bool) : Prop := p.1.kind = .del ∧ p.2 = false

/-- A selected `+` line. -/
def IsTakenAdd (p : PatchLine × Bool) : Prop := p.1.kind = .add ∧ p.2 = true

/-- An unselected `+` line. -/
def IsDroppedAdd (p : PatchLine × Bool) : Prop := p.1.kind = .add ∧ p.2 = false

/-- The lines after the last context line, last first. -/
def sinceContext (ps : List (PatchLine × Bool)) : List (PatchLine × Bool) :=
  ps.reverse.takeWhile (fun p => p.1.kind ≠ .context)

/-- The lines `ps` end in an unselected `-` line followed by nothing but unselected `-` and
selected `+` lines, in a change block without an unselected `+` line so far. -/
def Held (ps : List (PatchLine × Bool)) : Prop :=
  ∃ pre d mid, ps = pre ++ d :: mid ∧ IsHeldDel d ∧ (∀ p ∈ mid, IsHeldDel p ∨ IsTakenAdd p) ∧
    ∀ p ∈ sinceContext pre, ¬ IsDroppedAdd p

/-- **A stranded marker**: a marker that directly follows a selected `+` line while an unselected
`-` line of its change block is held back. -/
def StrandedMarker (ps : List (PatchLine × Bool)) : Prop :=
  ∃ ps0 a m post, ps = ps0 ++ a :: m :: post ∧ Held ps0 ∧ IsTakenAdd a ∧ m.1.kind.isMarker = true

theorem sinceContext_snoc (ps : List (PatchLine × Bool)) (p : PatchLine × Bool) :
    sinceContext (ps ++ [p]) = if p.1.kind = .context then [] else p :: sinceContext ps := by
  unfold sinceContext
  rw [reverse_append]
  by_cases h : p.1.kind = .context
  · simp [h]
  · simp [h]

/-- The last line of held lines is itself an unselected `-` or a selected `+` line. -/
theorem Held.last {ps : List (PatchLine × Bool)} {p : PatchLine × Bool} (h : Held (ps ++ [p])) :
    IsHeldDel p ∨ IsTakenAdd p := by
  obtain ⟨pre, d, mid, he, hd, hmid, -⟩ := h
  rcases eq_nil_or_concat mid with rfl | ⟨mid', q, rfl⟩
  · obtain ⟨-, h2⟩ := append_inj' he rfl
    simp only [List.cons.injEq, and_true] at h2
    rw [h2]
    exact Or.inl hd
  · rw [concat_eq_append, ← cons_append, ← append_assoc] at he
    obtain ⟨-, h2⟩ := append_inj' he rfl
    simp only [List.cons.injEq, and_true] at h2
    rw [h2]
    exact hmid q (by simp)

/-- A selected `+` line leaves the held lines held. -/
theorem held_snoc_add {ps : List (PatchLine × Bool)} {p : PatchLine × Bool} (hp : IsTakenAdd p) :
    Held (ps ++ [p]) ↔ Held ps := by
  constructor
  · rintro ⟨pre, d, mid, he, hd, hmid, hpre⟩
    rcases eq_nil_or_concat mid with rfl | ⟨mid', q, rfl⟩
    · obtain ⟨-, h2⟩ := append_inj' he rfl
      simp only [List.cons.injEq, and_true] at h2
      rw [h2] at hp
      have := hp.1.symm.trans hd.1
      cases this
    · rw [concat_eq_append, ← cons_append, ← append_assoc] at he
      obtain ⟨h1, -⟩ := append_inj' he rfl
      exact ⟨pre, d, mid', h1, hd, fun x hx => hmid x (by simp [hx]), hpre⟩
  · rintro ⟨pre, d, mid, rfl, hd, hmid, hpre⟩
    refine ⟨pre, d, mid ++ [p], by simp, hd, ?_, hpre⟩
    intro x hx
    rcases mem_append.mp hx with hx | hx
    · exact hmid x hx
    · rw [mem_singleton.mp hx]; exact Or.inr hp

/-! ## The flags of the rewriting loop -/

/-- What the flags of the loop say about the lines read so far. -/
structure FlagsOk (ps : List (PatchLine × Bool)) (st : RewriteState) : Prop where
  saw : st.sawDroppedNewSide = true ↔ ∃ p ∈ sinceContext ps, IsDroppedAdd p
  dropped : st.prevDropped = true → st.sawDroppedNewSide = true
  held : st.sawDroppedNewSide = false → (st.pending ≠ [] ↔ Held ps)
  context : ∀ l ∈ st.pending, l.kind = .context

/-- Forward rewriting of the lines read so far. -/
def rewrite (ps : List (PatchLine × Bool)) : RewriteState :=
  ps.foldl (rewriteStep false) RewriteState.init

theorem rewrite_snoc (ps : List (PatchLine × Bool)) (p : PatchLine × Bool) :
    rewrite (ps ++ [p]) = rewriteStep false (rewrite ps) p := by
  simp [rewrite]

theorem not_held_snoc {ps : List (PatchLine × Bool)} {p : PatchLine × Bool} (h1 : ¬ IsHeldDel p)
    (h2 : ¬ IsTakenAdd p) : ¬ Held (ps ++ [p]) :=
  fun h => h.last.elim h1 h2

theorem rewriteStep_marker {st : RewriteState} {p : PatchLine × Bool}
    (hp : p.1.kind.isMarker = true) :
    rewriteStep false st p = if st.prevDropped then st
      else { st with out := st.out ++ st.pending ++ [p.1], pending := [] } := by
  obtain ⟨⟨kind, text⟩, sel⟩ := p
  cases kind with
  | noNewlineOld => rfl
  | noNewlineNew => rfl
  | context => cases hp
  | add => cases hp
  | del => cases hp

theorem flagsOk_marker {ps : List (PatchLine × Bool)} {st : RewriteState} (h : FlagsOk ps st)
    {p : PatchLine × Bool} (hp : p.1.kind.isMarker = true) :
    FlagsOk (ps ++ [p]) (rewriteStep false st p) := by
  have hne : ∀ k : LineKind, k.isMarker = false → p.1.kind ≠ k := by
    intro k hk hc
    rw [hc, hk] at hp
    cases hp
  have hsaw : st.sawDroppedNewSide = true ↔ ∃ q ∈ sinceContext (ps ++ [p]), IsDroppedAdd q := by
    rw [h.saw, sinceContext_snoc, if_neg (hne _ rfl)]
    simp [IsDroppedAdd, hne .add rfl]
  have hnotHeld : ¬ Held (ps ++ [p]) :=
    not_held_snoc (fun hd => hne _ rfl hd.1) (fun ha => hne _ rfl ha.1)
  rw [rewriteStep_marker hp]
  by_cases hd : st.prevDropped = true
  · rw [if_pos hd]
    refine ⟨hsaw, h.dropped, ?_, h.context⟩
    -- the dropped line was a `+` line of this block, so nothing is said about `pending`
    intro hf
    rw [h.dropped hd] at hf
    cases hf
  · rw [if_neg hd]
    refine ⟨hsaw, h.dropped, ?_, by simp⟩
    intro _
    simp [hnotHeld]

theorem flagsOk_step {ps : List (PatchLine × Bool)} {st : RewriteState} (h : FlagsOk ps st)
    (p : PatchLine × Bool) : FlagsOk (ps ++ [p]) (rewriteStep false st p) := by
  obtain ⟨⟨kind, text⟩, sel⟩ := p
  cases kind with
  | noNewlineOld => exact flagsOk_marker h rfl
  | noNewlineNew => exact flagsOk_marker h rfl
  -- a context line ends the change block: every flag is cleared and nothing is held
  | context =>
    have hn : ¬ Held (ps ++ [((⟨.context, text⟩ : PatchLine), sel)]) :=
      not_held_snoc (by simp [IsHeldDel]) (by simp [IsTakenAdd])
    refine ⟨?_, by simp [rewriteStep], ?_, by simp [rewriteStep]⟩
    · simp [rewriteStep, sinceContext_snoc]
    · intro _
      simp [rewriteStep, hn]
  | add =>
    cases sel with
    | true =>
      -- a selected `+` line flushes what is held only if a `+` line was dropped before
      have hta : IsTakenAdd ((⟨.add, text⟩ : PatchLine), true) := ⟨rfl, rfl⟩
      have hsaw : st.sawDroppedNewSide = true ↔
          ∃ q ∈ sinceContext (ps ++ [((⟨.add, text⟩ : PatchLine), true)]), IsDroppedAdd q := by
        rw [h.saw, sinceContext_snoc]
        simp [IsDroppedAdd]
      by_cases hs : st.sawDroppedNewSide = true
      · simp only [rewriteStep, hs]
        exact ⟨by simpa [hs] using hsaw, by simp, by simp, by simp⟩
      · have hs' : st.sawDroppedNewSide = false := by simpa using hs
        simp only [rewriteStep, hs']
        refine ⟨by simpa [hs'] using hsaw, by simp, ?_, h.context⟩
        intro _
        show st.pending ≠ [] ↔ _
        rw [held_snoc_add hta]
        exact h.held hs'
    | false =>
      refine ⟨?_, by simp [rewriteStep], by simp [rewriteStep], h.context⟩
      simp [rewriteStep, sinceContext_snoc, IsDroppedAdd]
  | del =>
    have hsaw : st.sawDroppedNewSide = true ↔
        ∃ q ∈ sinceContext (ps ++ [((⟨.del, text⟩ : PatchLine), sel)]), IsDroppedAdd q := by
      rw [h.saw, sinceContext_snoc]
      simp [IsDroppedAdd]
    cases sel with
    | true =>
      -- a selected `-` line flushes what is held
      have hn : ¬ Held (ps ++ [((⟨.del, text⟩ : PatchLine), true)]) :=
        not_held_snoc (by simp [IsHeldDel]) (by simp [IsTakenAdd])
      refine ⟨hsaw, by simp [rewriteStep], ?_, by simp [rewriteStep]⟩
      intro _
      simp [rewriteStep, hn]
    | false =>
      refine ⟨hsaw, by simp [rewriteStep], ?_, ?_⟩
      · intro hs
        have hs' : st.sawDroppedNewSide = false := hs
        -- the line itself is the held line that `Held` asks for
        have hheld : Held (ps ++ [((⟨.del, text⟩ : PatchLine), false)]) := by
          refine ⟨ps, _, [], rfl, ⟨rfl, rfl⟩, by simp, ?_⟩
          intro q hq hd
          have := h.saw.mpr ⟨q, hq, hd⟩
          rw [hs'] at this
          cases this
        simp [rewriteStep, hheld]
      · intro l hl
        simp only [rewriteStep] at hl
        rcases mem_append.mp hl with hl | hl
        · exact h.context l hl
        · rw [mem_singleton.mp hl]

/-- **The flags at any point of the loop.** -/
theorem flagsOk_rewrite (ps : List (PatchLine × Bool)) : FlagsOk ps (rewrite ps) := by
  induction ps using List.reverseRecOn with
  | nil =>
    refine ⟨by simp [rewrite, RewriteState.init, sinceContext], by
      simp [rewrite, RewriteState.init], ?_, by simp [rewrite, RewriteState.init]⟩
    simp [rewrite, RewriteState.init, Held]
  | append_singleton ps p ih =>
    rw [rewrite_snoc]
    exact flagsOk_step ih p

/-! ## The rewritten body is the partial script -/

/-- The script of held lines. -/
def keptLines (ls : List PatchLine) : Script FileLine := ls.map (fun l => (.keep, ⟨l.text, false⟩))

/-- The last line of the block `b` is the last line of the script `e`. -/
def LastMatches (b : List (Marked FileLine)) (e : Script FileLine) : Prop :=
  ∃ b' m e' x, b = b' ++ [m] ∧ e = e' ++ [x] ∧ (m.oldEntry = some x ∨ m.newEntry = some x) ∧
    StagedBlock b' e'

/-- What a marker that comes next would find. The last body line read was dropped; or the block
is empty on both sides; or its last line is the last line written; or it is a selected `+` line
with lines still held back. -/
def LastLine (ps : List (PatchLine × Bool)) (st : RewriteState) (b : List (Marked FileLine))
    (e : Script FileLine) : Prop :=
  (st.prevDropped = true ∧ ∃ b' l, b = b' ++ [⟨.ins, l, false⟩]) ∨
  (st.prevDropped = false ∧ b = [] ∧ e = []) ∨
  (st.prevDropped = false ∧ LastMatches b e) ∨
  (st.prevDropped = false ∧ ∃ ps0 a, ps = ps0 ++ [a] ∧ IsTakenAdd a ∧ Held ps0)

/-- The invariant of the loop: what was written, followed by what is held back, is the partial
script of the lines read. -/
def StagedSoFar (ps : List (PatchLine × Bool)) (st : RewriteState) : Prop :=
  ∃ ms b es e, markedScript ps = ms ++ b ∧ bodyScript st.out = es ++ e ∧ StagedUpTo ms es ∧
    IsBlock b ∧ StagedBlock b (e ++ keptLines st.pending) ∧
    LastLine ps st b (e ++ keptLines st.pending)

theorem keptLines_ne_ins {ls : List PatchLine} : ∀ y ∈ keptLines ls, y.1 ≠ .ins := by
  intro y hy
  obtain ⟨l, -, rfl⟩ := mem_map.mp hy
  simp

theorem bodyScript_out_pending {ps : List (PatchLine × Bool)} {st : RewriteState}
    (hf : FlagsOk ps st) :
    bodyScript (st.out ++ st.pending) = bodyScript st.out ++ keptLines st.pending :=
  bodyScript_append_context hf.context

/-- Writing the held lines and one more body line. -/
theorem bodyScript_flush {ps : List (PatchLine × Bool)} {st : RewriteState} (hf : FlagsOk ps st)
    {l : PatchLine} {op : Op} (hl : l.kind.op = some op) :
    bodyScript (st.out ++ st.pending ++ [l])
      = bodyScript st.out ++ keptLines st.pending ++ [(op, ⟨l.text, false⟩)] := by
  rw [bodyScript_snoc, bodyScript_out_pending hf, bodyStep, hl]

theorem stagedSoFar_context {ps : List (PatchLine × Bool)} {st : RewriteState} (hf : FlagsOk ps st)
    (h : StagedSoFar ps st) (text : Text) (sel : Bool) :
    StagedSoFar (ps ++ [(⟨.context, text⟩, sel)])
      (rewriteStep false st (⟨.context, text⟩, sel)) := by
  obtain ⟨ms, b, es, e, hms, hes, hup, hb, hblock, -⟩ := h
  refine ⟨ms ++ b ++ [⟨.keep, ⟨text, false⟩, sel⟩], [],
    es ++ (e ++ keptLines st.pending) ++ [(Op.keep, ⟨text, false⟩)], [], ?_, ?_,
    .keep _ _ hup hb hblock, by simp [IsBlock], StagedBlock.nil, Or.inr (Or.inl ⟨rfl, rfl, rfl⟩)⟩
  · rw [markedScript_snoc, hms]
    simp [markStep, LineKind.op]
  · show bodyScript (st.out ++ st.pending ++ [_]) = _
    rw [bodyScript_flush hf rfl, hes]
    simp

theorem stagedSoFar_del {ps : List (PatchLine × Bool)} {st : RewriteState} (hf : FlagsOk ps st)
    (h : StagedSoFar ps st) (text : Text) (sel : Bool) :
    StagedSoFar (ps ++ [(⟨.del, text⟩, sel)]) (rewriteStep false st (⟨.del, text⟩, sel)) := by
  obtain ⟨ms, b, es, e, hms, hes, hup, hb, hblock, -⟩ := h
  have hms' : markedScript (ps ++ [(⟨.del, text⟩, sel)])
      = ms ++ (b ++ [⟨.del, ⟨text, false⟩, sel⟩]) := by
    rw [markedScript_snoc, hms]
    simp [markStep, LineKind.op]
  cases sel with
  | true =>
    -- a selected deletion writes the held lines first
    have hsnoc := hblock.snoc_old (m := ⟨.del, ⟨text, false⟩, true⟩) rfl
    refine ⟨ms, _, es, e ++ keptLines st.pending ++ [(Op.del, ⟨text, false⟩)], hms', ?_, hup,
      hb.snoc (by simp), ?_, Or.inr (Or.inr (Or.inl ⟨rfl, ?_⟩))⟩
    · show bodyScript (st.out ++ st.pending ++ [_]) = _
      rw [bodyScript_flush hf rfl, hes]
      simp
    · simpa [rewriteStep, keptLines] using hsnoc
    · exact ⟨b, _, e ++ keptLines st.pending, _, rfl, by simp [rewriteStep, keptLines],
        Or.inl rfl, hblock⟩
  | false =>
    have hsnoc := hblock.snoc_old (m := ⟨.del, ⟨text, false⟩, false⟩) rfl
    -- an unselected deletion goes to the end of the held lines
    have hk : e ++ keptLines (st.pending ++ [{ kind := .context, text }])
        = e ++ keptLines st.pending ++ [(Op.keep, ⟨text, false⟩)] := by
      simp [keptLines]
    refine ⟨ms, _, es, e, hms', hes, hup, hb.snoc (by simp), ?_, Or.inr (Or.inr (Or.inl ⟨rfl, ?_⟩))⟩
    · show StagedBlock _ (e ++ keptLines (st.pending ++ [_]))
      rw [hk]
      exact hsnoc
    · show LastMatches _ (e ++ keptLines (st.pending ++ [_]))
      rw [hk]
      exact ⟨b, _, e ++ keptLines st.pending, _, rfl, rfl, Or.inl rfl, hblock⟩

theorem stagedSoFar_add {ps : List (PatchLine × Bool)} {st : RewriteState} (hf : FlagsOk ps st)
    (h : StagedSoFar ps st) (text : Text) (sel : Bool) :
    StagedSoFar (ps ++ [(⟨.add, text⟩, sel)]) (rewriteStep false st (⟨.add, text⟩, sel)) := by
  obtain ⟨ms, b, es, e, hms, hes, hup, hb, hblock, -⟩ := h
  have hms' : markedScript (ps ++ [(⟨.add, text⟩, sel)])
      = ms ++ (b ++ [⟨.ins, ⟨text, false⟩, sel⟩]) := by
    rw [markedScript_snoc, hms]
    simp [markStep, LineKind.op]
  cases sel with
  | false =>
    -- a dropped addition leaves nothing behind
    refine ⟨ms, _, es, e, hms', hes, hup, hb.snoc (by simp), stagedBlock_snoc_skip.mpr hblock,
      Or.inl ⟨rfl, b, _, rfl⟩⟩
  | true =>
    by_cases hs : st.sawDroppedNewSide = true
    · -- an addition of the block was dropped: the held lines come first
      have hblock' : StagedBlock b (e ++ keptLines st.pending ++ []) := by simpa using hblock
      have hsnoc := hblock'.snoc_new (m := ⟨.ins, ⟨text, false⟩, true⟩) (by simp) rfl
      have hst : rewriteStep false st (⟨.add, text⟩, true) =
          { st with
            out := st.out ++ st.pending ++ [⟨.add, text⟩], pending := []
            prevDropped := false } := by
        simp [rewriteStep, hs]
      rw [hst]
      refine ⟨ms, _, es, e ++ keptLines st.pending ++ [(Op.ins, ⟨text, false⟩)], hms', ?_, hup,
        hb.snoc (by simp), ?_, Or.inr (Or.inr (Or.inl ⟨rfl, ?_⟩))⟩
      · show bodyScript (st.out ++ st.pending ++ [_]) = _
        rw [bodyScript_flush hf rfl, hes]
        simp
      · simpa [keptLines] using hsnoc
      · exact ⟨b, _, e ++ keptLines st.pending, _, rfl, by simp [keptLines], Or.inr rfl, hblock⟩
    · -- no addition was dropped: the line is written before the held ones
      have hs' : st.sawDroppedNewSide = false := by simpa using hs
      have hsnoc := hblock.snoc_new (m := ⟨.ins, ⟨text, false⟩, true⟩) keptLines_ne_ins rfl
      have hst : rewriteStep false st (⟨.add, text⟩, true)
          = { st with out := st.out ++ [⟨.add, text⟩], prevDropped := false } := by
        simp [rewriteStep, hs']
      rw [hst]
      refine ⟨ms, _, es, e ++ [(Op.ins, ⟨text, false⟩)], hms', ?_, hup, hb.snoc (by simp), ?_, ?_⟩
      · show bodyScript (st.out ++ [_]) = _
        rw [bodyScript_snoc, hes]
        simp [bodyStep, LineKind.op]
      · simpa using hsnoc
      · by_cases hp : st.pending = []
        · refine Or.inr (Or.inr (Or.inl ⟨rfl, b, _, e, _, rfl, by simp [hp, keptLines],
            Or.inr rfl, ?_⟩))
          simpa [hp, keptLines] using hblock
        -- a marker that came next would be stranded
        · exact Or.inr (Or.inr (Or.inr ⟨rfl, ps, _, rfl, ⟨rfl, rfl⟩, (hf.held hs').mp hp⟩))

theorem LineKind.op_of_isMarker {k : LineKind} (h : k.isMarker = true) : k.op = none := by
  cases k <;> simp_all [LineKind.isMarker, LineKind.op]

theorem stagedSoFar_marker {ps : List (PatchLine × Bool)} {st : RewriteState} (hf : FlagsOk ps st)
    (h : StagedSoFar ps st) {p : PatchLine × Bool} (hp : p.1.kind.isMarker = true)
    (hns : ¬ StrandedMarker (ps ++ [p])) : StagedSoFar (ps ++ [p]) (rewriteStep false st p) := by
  obtain ⟨ms, b, es, e, hms, hes, hup, hb, hblock, hlast⟩ := h
  have hop := LineKind.op_of_isMarker hp
  have hms' : markedScript (ps ++ [p])
      = (ms ++ b).modifyLast (fun m => { m with line := m.line.strip }) := by
    rw [markedScript_snoc, hms, markStep, hop]
  have hout : bodyScript (st.out ++ st.pending ++ [p.1])
      = (es ++ (e ++ keptLines st.pending)).modifyLast (fun x => (x.1, x.2.strip)) := by
    rw [bodyScript_snoc, bodyScript_out_pending hf, bodyStep, hop, hes, append_assoc]
  rw [rewriteStep_marker hp]
  rcases hlast with ⟨hd, b', l, rfl⟩ | ⟨hd, rfl, he⟩ | ⟨hd, b', m, e', x, rfl, he, hmx, hblock'⟩
    | ⟨-, ps0, a, rfl, ha, hheld⟩
  · -- the line was dropped, and its marker with it
    rw [if_pos hd]
    refine ⟨ms, b' ++ [⟨.ins, l.strip, false⟩], es, e, ?_, hes, hup, ?_, ?_,
      Or.inl ⟨hd, b', _, rfl⟩⟩
    · rw [hms', ← append_assoc, modifyLast_concat, append_assoc]
    · exact IsBlock.snoc (fun y hy => hb y (by simp [hy])) (by simp)
    · exact stagedBlock_snoc_skip.mpr (stagedBlock_snoc_skip.mp hblock)
  · -- a marker of the last context line
    rw [if_neg (by simp [hd])]
    rw [append_nil] at hms'
    rw [he, append_nil] at hout
    refine ⟨_, [], _, [], by rw [append_nil]; exact hms', by rw [append_nil]; exact hout,
      hup.modifyLast FileLine.strip, hb, StagedBlock.nil, Or.inr (Or.inl ⟨hd, rfl, rfl⟩)⟩
  · -- the last line written is the line the marker follows
    rw [if_neg (by simp [hd])]
    rw [← append_assoc, modifyLast_concat, append_assoc] at hms'
    rw [he, ← append_assoc es, modifyLast_concat, append_assoc es] at hout
    have hmx' : (Marked.mk m.op m.line.strip m.sel).oldEntry = some (x.1, x.2.strip)
        ∨ (Marked.mk m.op m.line.strip m.sel).newEntry = some (x.1, x.2.strip) := by
      obtain ⟨o, l, s⟩ := m
      cases o <;> cases s <;> simp_all [Marked.oldEntry, Marked.newEntry] <;> simp [← hmx]
    refine ⟨ms, _, es, e' ++ [(x.1, x.2.strip)], hms', hout, hup, ?_, ?_,
      Or.inr (Or.inr (Or.inl ⟨hd, b', _, e', _, rfl, by simp [keptLines], hmx', hblock'⟩))⟩
    · exact IsBlock.snoc (fun y hy => hb y (by simp [hy])) (hb m (by simp))
    · rw [show keptLines [] = [] from rfl, append_nil]
      rcases hmx' with h1 | h1
      · exact hblock'.snoc_old h1
      · have h2 : StagedBlock b' (e' ++ []) := by rwa [append_nil]
        simpa using h2.snoc_new (by simp) h1
  -- a selected `+` line with lines held back: the marker would be stranded
  · exact absurd ⟨ps0, a, p, [], by simp, hheld, ha, hp⟩ hns

/-- Stranded markers stay stranded when more lines follow. -/
theorem StrandedMarker.append {ps : List (PatchLine × Bool)} (h : StrandedMarker ps)
    (qs : List (PatchLine × Bool)) : StrandedMarker (ps ++ qs) := by
  obtain ⟨ps0, a, m, post, rfl, hheld, ha, hm⟩ := h
  exact ⟨ps0, a, m, post ++ qs, by simp, hheld, ha, hm⟩

/-- **The run of the loop**: as long as no marker is stranded, what is written and held back is
the partial script of the lines read. -/
theorem stagedSoFar_rewrite (ps : List (PatchLine × Bool)) :
    ¬ StrandedMarker ps → StagedSoFar ps (rewrite ps) := by
  induction ps using List.reverseRecOn with
  | nil =>
    intro _
    exact ⟨[], [], [], [], rfl, rfl, .nil, by simp [IsBlock], StagedBlock.nil,
      Or.inr (Or.inl ⟨rfl, rfl, rfl⟩)⟩
  | append_singleton ps p ih =>
    intro hns
    have hf := flagsOk_rewrite ps
    have h := ih (fun hs => hns (hs.append [p]))
    rw [rewrite_snoc]
    obtain ⟨⟨kind, text⟩, sel⟩ := p
    cases kind with
    | context => exact stagedSoFar_context hf h text sel
    | add => exact stagedSoFar_add hf h text sel
    | del => exact stagedSoFar_del hf h text sel
    | noNewlineOld => exact stagedSoFar_marker hf h rfl hns
    | noNewlineNew => exact stagedSoFar_marker hf h rfl hns

/-- **The rewritten body is the partial script of the selection**, unless a marker is stranded. -/
theorem staged_rewrite {ps : List (PatchLine × Bool)} (h : ¬ StrandedMarker ps) :
    Staged (markedScript ps) (bodyScript ((rewrite ps).out ++ (rewrite ps).pending)) := by
  obtain ⟨ms, b, es, e, hms, hes, hup, hb, hblock, -⟩ := stagedSoFar_rewrite ps h
  refine ⟨ms, b, es, e ++ keptLines (rewrite ps).pending, hms, ?_, hup, hb, hblock⟩
  rw [bodyScript_out_pending (flagsOk_rewrite ps), hes, append_assoc]

/-! ## A stranded marker changes the old side -/

/-- The old side of a body has its context and `-` lines. -/
theorem length_oldSide_bodyScript (ls : List PatchLine) :
    (oldSide (bodyScript ls)).length = countKinds ls .context .del := by
  induction ls using List.reverseRecOn with
  | nil => rfl
  | append_singleton ls l ih =>
    rw [bodyScript_snoc, countKinds, countP_append, ← countKinds, ← ih]
    obtain ⟨kind, text⟩ := l
    cases kind with
    | context => simp [bodyStep, LineKind.op, oldSide]
    | add => simp [bodyStep, LineKind.op, oldSide]
    | del => simp [bodyStep, LineKind.op, oldSide]
    | noNewlineOld => exact length_oldSide_modifyLast _ _
    | noNewlineNew => exact length_oldSide_modifyLast _ _

/-- What one step writes and holds back: the line after everything held back, or the line alone
(a selected `+`), or nothing, with the line held back (an unselected `-`) or dropped. -/
theorem rewriteStep_cases (st : RewriteState) (p : PatchLine × Bool) :
    ((rewriteStep false st p).out = st.out ++ st.pending ++ [p.1]
        ∧ (rewriteStep false st p).pending = [])
    ∨ (p.1.kind = .add ∧ (rewriteStep false st p).out = st.out ++ [p.1]
        ∧ (rewriteStep false st p).pending = st.pending)
    ∨ (p.1.kind = .del ∧ (rewriteStep false st p).out = st.out
        ∧ (rewriteStep false st p).pending = st.pending ++ [⟨.context, p.1.text⟩])
    ∨ (p.1.kind ≠ .context ∧ p.1.kind ≠ .del ∧ (rewriteStep false st p).out = st.out
        ∧ (rewriteStep false st p).pending = st.pending) := by
  by_cases hm : p.1.kind.isMarker = true
  · rw [rewriteStep_marker hm]
    by_cases hd : st.prevDropped = true
    · refine Or.inr (Or.inr (Or.inr ⟨?_, ?_, by rw [if_pos hd], by rw [if_pos hd]⟩))
      · intro hc; rw [hc] at hm; cases hm
      · intro hc; rw [hc] at hm; cases hm
    -- a marker that is kept is written after the held lines
    · exact Or.inl ⟨by rw [if_neg hd], by rw [if_neg hd]⟩
  · obtain ⟨⟨kind, text⟩, sel⟩ := p
    cases kind with
    | noNewlineOld => exact absurd rfl hm
    | noNewlineNew => exact absurd rfl hm
    | context => exact Or.inl ⟨rfl, rfl⟩
    | del =>
      cases sel with
      | true => exact Or.inl ⟨rfl, rfl⟩
      | false => exact Or.inr (Or.inr (Or.inl ⟨rfl, rfl, rfl⟩))
    | add =>
      cases sel with
      | false => exact Or.inr (Or.inr (Or.inr ⟨by simp, by simp, rfl, rfl⟩))
      | true =>
        by_cases hs : st.sawDroppedNewSide = true
        · exact Or.inl ⟨by simp [rewriteStep, hs], by simp [rewriteStep, hs]⟩
        · exact Or.inr (Or.inl ⟨rfl, by simp [rewriteStep, hs], by simp [rewriteStep, hs]⟩)

/-- Rewriting keeps the number of old lines, stranded markers or not. -/
theorem countKinds_rewrite (ps : List (PatchLine × Bool)) :
    countKinds ((rewrite ps).out ++ (rewrite ps).pending) .context .del
      = countKinds (ps.map Prod.fst) .context .del := by
  induction ps using List.reverseRecOn with
  | nil => rfl
  | append_singleton ps p ih =>
    rw [rewrite_snoc, map_append, map_cons, map_nil]
    simp only [countKinds, countP_append] at ih ⊢
    rcases rewriteStep_cases (rewrite ps) p with ⟨ho, hp⟩ | ⟨hk, ho, hp⟩ | ⟨hk, ho, hp⟩
      | ⟨hk, hk', ho, hp⟩
    · rw [ho, hp]
      simp only [countP_append, countP_nil]
      omega
    · rw [ho, hp]
      simp only [countP_append]
      omega
    · rw [ho, hp]
      -- a `-` line held back as context counts on the old side either way
      simp only [countP_append, countP_singleton, hk]
      simp only [beq_self_eq_true, Bool.true_or, Bool.or_true, if_true]
      omega
    · rw [ho, hp, countP_singleton]
      simp only [hk, hk', beq_iff_eq, Bool.or_eq_true, or_self, if_false]
      omega

/-- Once marked, an old line stays marked. -/
theorem noEol_bodyStep {s : Script FileLine} {l : PatchLine} {i : Nat} {x : FileLine}
    (hx : (oldSide s)[i]? = some x) (he : x.noEol = true) :
    ∃ y, (oldSide (bodyStep s l))[i]? = some y ∧ y.noEol = true := by
  obtain ⟨hi, -⟩ := List.getElem?_eq_some_iff.mp hx
  unfold bodyStep
  cases l.kind.op with
  | some op =>
    -- a new line comes after all the old ones
    refine ⟨x, ?_, he⟩
    simp only [oldSide_append]
    rw [List.getElem?_append_left hi, hx]
  | none =>
    rcases eq_nil_or_concat s with rfl | ⟨s', e, rfl⟩
    · simp at hx
    · rw [concat_eq_append] at hx hi ⊢
      simp only [modifyLast_concat, oldSide_append] at hx ⊢
      -- a marker changes the last line only; if that is line `i`, it is marked again
      by_cases hlt : i < (oldSide s').length
      · rw [List.getElem?_append_left hlt] at hx ⊢
        exact ⟨x, hx, he⟩
      · rw [List.getElem?_append_right (by omega)] at hx ⊢
        obtain ⟨op, y⟩ := e
        have hone : ∀ z : FileLine, oldSide [(op, z)] = if op = .ins then [] else [z] := by
          intro z
          cases op <;> rfl
        rw [hone] at hx ⊢
        by_cases hop : op = .ins
        · rw [if_pos hop] at hx
          simp at hx
        · rw [if_neg hop] at hx ⊢
          have h0 : i - (oldSide s').length = 0 := by
            by_contra h
            simp [h] at hx
          exact ⟨y.strip, by simp [h0], rfl⟩

theorem noEol_bodyScript_append {ls : List PatchLine} (more : List PatchLine) {i : Nat}
    {x : FileLine} (hx : (oldSide (bodyScript ls))[i]? = some x) (he : x.noEol = true) :
    ∃ y, (oldSide (bodyScript (ls ++ more)))[i]? = some y ∧ y.noEol = true := by
  induction more using List.reverseRecOn with
  | nil => exact ⟨x, by rwa [append_nil], he⟩
  | append_singleton more l ih =>
    obtain ⟨y, hy, hye⟩ := ih
    rw [← append_assoc, bodyScript_snoc]
    exact noEol_bodyStep hy hye

/-- The loop only ever appends to what it wrote. -/
theorem rewrite_out_append (ps qs : List (PatchLine × Bool)) :
    ∃ more, (rewrite (ps ++ qs)).out = (rewrite ps).out ++ more := by
  induction qs using List.reverseRecOn with
  | nil => exact ⟨[], by simp⟩
  | append_singleton qs q ih =>
    obtain ⟨more, hmore⟩ := ih
    have hstep : ∃ more', (rewriteStep false (rewrite (ps ++ qs)) q).out
        = (rewrite (ps ++ qs)).out ++ more' := by
      rcases rewriteStep_cases (rewrite (ps ++ qs)) q with ⟨ho, -⟩ | ⟨-, ho, -⟩ | ⟨-, ho, -⟩
        | ⟨-, -, ho, -⟩
      · exact ⟨(rewrite (ps ++ qs)).pending ++ [q.1], by rw [ho, append_assoc]⟩
      · exact ⟨[q.1], ho⟩
      · exact ⟨[], by rw [ho, append_nil]⟩
      · exact ⟨[], by rw [ho, append_nil]⟩
    obtain ⟨more', hmore'⟩ := hstep
    refine ⟨more ++ more', ?_⟩
    rw [← append_assoc, rewrite_snoc, hmore', hmore, append_assoc]

/-- After a body line, later lines leave the earlier part of the script alone. -/
theorem bodyScript_append_body (ls : List PatchLine) {l : PatchLine} (rest : List PatchLine)
    (hl : l.kind.op ≠ none) : ∃ t, bodyScript (ls ++ l :: rest) = bodyScript ls ++ t ∧ t ≠ [] := by
  induction rest using List.reverseRecOn with
  | nil =>
    rw [bodyScript_snoc, bodyStep]
    cases hop : l.kind.op with
    | none => exact absurd hop hl
    | some op => exact ⟨_, rfl, by simp⟩
  | append_singleton rest x ih =>
    obtain ⟨t, ht, hne⟩ := ih
    rw [← cons_append, ← append_assoc, bodyScript_snoc, ht, bodyStep]
    cases x.kind.op with
    | some op => exact ⟨t ++ [(op, ⟨x.text, false⟩)], append_assoc _ _ _, by simp⟩
    | none =>
      refine ⟨t.modifyLast (fun e => (e.1, e.2.strip)),
        modifyLast_append_of_right_ne_nil _ _ _ hne, ?_⟩
      rcases eq_nil_or_concat t with rfl | ⟨t', e, rfl⟩
      · exact absurd rfl hne
      · rw [concat_eq_append, modifyLast_concat]
        simp

/-- The last old line of held lines is an unmarked one. -/
theorem Held.oldSide_last {ps : List (PatchLine × Bool)} (h : Held ps) :
    ∃ o text, oldSide (bodyScript (ps.map Prod.fst)) = o ++ [⟨text, false⟩] := by
  obtain ⟨pre, d, mid, rfl, hd, hmid, -⟩ := h
  induction mid using List.reverseRecOn with
  | nil =>
    refine ⟨oldSide (bodyScript (pre.map Prod.fst)), d.1.text, ?_⟩
    rw [map_append, map_cons, map_nil, bodyScript_snoc, bodyStep, hd.1]
    simp [LineKind.op, oldSide, filter_append]
  | append_singleton mid q ih =>
    obtain ⟨o, text, ho⟩ := ih (fun p hp => hmid p (by simp [hp]))
    rw [← cons_append, ← append_assoc, map_append, map_cons, map_nil, bodyScript_snoc, bodyStep]
    rcases hmid q (by simp) with hq | hq
    -- another `-` line becomes the last old line, a `+` line is not an old line
    · refine ⟨o ++ [⟨text, false⟩], q.1.text, ?_⟩
      rw [hq.1]
      simp only [LineKind.op, oldSide_append, ho]
      rfl
    · refine ⟨o, text, ?_⟩
      rw [hq.1]
      simp only [LineKind.op, oldSide_append, ho]
      simp [oldSide]

/-- A line since the last context line is one of the lines added, or was there before. -/
theorem mem_sinceContext_append (pre : List (PatchLine × Bool)) {q : PatchLine × Bool}
    (more : List (PatchLine × Bool)) :
    q ∈ sinceContext (pre ++ more) → q ∈ sinceContext pre ∨ q ∈ more := by
  induction more using List.reverseRecOn with
  | nil =>
    intro hmem
    rw [append_nil] at hmem
    exact Or.inl hmem
  | append_singleton more r ih =>
    intro hmem
    rw [← append_assoc, sinceContext_snoc] at hmem
    split at hmem
    · cases hmem
    · rcases mem_cons.mp hmem with rfl | hmem
      · exact Or.inr (by simp)
      · rcases ih hmem with h | h
        · exact Or.inl h
        · exact Or.inr (mem_append_left _ h)

/-- Held lines: nothing was dropped in the block, and something is pending. -/
theorem Held.rewrite_flags {ps : List (PatchLine × Bool)} (h : Held ps) :
    (rewrite ps).sawDroppedNewSide = false ∧ (rewrite ps).pending ≠ [] := by
  have hf := flagsOk_rewrite ps
  have hsaw : (rewrite ps).sawDroppedNewSide = false := by
    by_contra hc
    obtain ⟨q, hq, hqd⟩ := hf.saw.mp (by simpa using hc)
    obtain ⟨pre, d, mid, rfl, hd, hmid, hpre⟩ := h
    -- `q` is neither before the held line (`hpre`) nor the held line nor after it (`hmid`)
    rcases mem_sinceContext_append pre _ hq with h1 | h1
    · exact hpre q h1 hqd
    · rcases mem_cons.mp h1 with rfl | h1
      · have := hqd.1.symm.trans hd.1
        cases this
      · rcases hmid q h1 with h2 | h2
        · have := hqd.1.symm.trans h2.1
          cases this
        · have := hqd.2.symm.trans h2.2
          cases this
  exact ⟨hsaw, (hf.held hsaw).mpr h⟩

/-- **A stranded marker changes the old side**: the held line it ends up after loses its newline. -/
theorem oldSide_ne_of_stranded {ps : List (PatchLine × Bool)} (h : StrandedMarker ps) :
    oldSide (bodyScript ((rewrite ps).out ++ (rewrite ps).pending))
      ≠ oldSide (bodyScript (ps.map Prod.fst)) := by
  obtain ⟨ps0, a, m, post, rfl, hheld, ha, hm⟩ := h
  obtain ⟨hsaw, hpend⟩ := hheld.rewrite_flags
  obtain ⟨o, text, ho⟩ := hheld.oldSide_last
  -- in the original, the last held line is unmarked, and stays so
  have horig : ∃ t, oldSide (bodyScript ((ps0 ++ a :: m :: post).map Prod.fst))
      = o ++ [⟨text, false⟩] ++ t := by
    obtain ⟨t, ht, -⟩ := bodyScript_append_body (ps0.map Prod.fst) (l := a.1)
      ((m :: post).map Prod.fst) (by rw [ha.1]; simp [LineKind.op])
    refine ⟨oldSide t, ?_⟩
    rw [map_append, map_cons, ht, oldSide_append, ho]
  -- in the output, the marker follows that line
  have hout : (rewrite (ps0 ++ [a] ++ [m])).out
      = (rewrite ps0).out ++ [a.1] ++ (rewrite ps0).pending ++ [m.1] := by
    rw [rewrite_snoc, rewrite_snoc, rewriteStep_marker hm]
    obtain ⟨⟨kind, text⟩, sel⟩ := a
    obtain ⟨rfl, rfl⟩ := ha
    simp [rewriteStep, hsaw]
  have hmarked : ∃ z, (oldSide (bodyScript (rewrite (ps0 ++ [a] ++ [m])).out))[o.length]? = some z
      ∧ z.noEol = true := by
    have hlen : o.length + 1 = (oldSide (bodyScript ((rewrite ps0).out ++ [a.1]
        ++ (rewrite ps0).pending))).length := by
      have hcount := countKinds_rewrite ps0
      rw [← length_oldSide_bodyScript (ps0.map Prod.fst), ho, length_append,
        length_singleton] at hcount
      rw [length_oldSide_bodyScript, ← hcount]
      simp only [countKinds, countP_append, countP_singleton, ha.1]
      simp
    obtain ⟨pend, last, hpend'⟩ := eq_nil_or_concat (rewrite ps0).pending |>.resolve_left hpend
    rw [concat_eq_append] at hpend'
    have hlast : last.kind = .context := (flagsOk_rewrite ps0).context last (by simp [hpend'])
    rw [hout]
    rw [hpend', ← append_assoc] at hlen ⊢
    rw [bodyScript_snoc, bodyStep, hlast] at hlen
    rw [bodyScript_snoc, bodyScript_snoc, bodyStep, bodyStep, hlast, LineKind.op_of_isMarker hm]
    simp only [LineKind.op, oldSide_append, modifyLast_concat] at hlen ⊢
    refine ⟨⟨last.text, true⟩, ?_, rfl⟩
    have hone : ∀ z : FileLine, oldSide [(Op.keep, z)] = [z] := fun z => rfl
    rw [hone, length_append, length_singleton] at hlen
    rw [hone, List.getElem?_append_right (by omega), show o.length - _ = 0 by omega]
    rfl
  intro heq
  obtain ⟨t, ht⟩ := horig
  obtain ⟨more, hmore⟩ := rewrite_out_append (ps0 ++ [a] ++ [m]) post
  obtain ⟨z, hz, hze⟩ := hmarked
  obtain ⟨y, hy, hye⟩ := noEol_bodyScript_append
    (more ++ (rewrite (ps0 ++ a :: m :: post)).pending) hz hze
  have hps : ps0 ++ [a] ++ [m] ++ post = ps0 ++ a :: m :: post := by simp
  rw [← append_assoc, ← hmore, hps, heq, ht, append_assoc,
    List.getElem?_append_right le_rfl] at hy
  simp only [Nat.sub_self, singleton_append, List.getElem?_cons_zero, Option.some.injEq] at hy
  rw [← hy] at hye
  cases hye

/-! ## What is written comes from the hunk -/

/-- Texts are copied: every line written has the text of a line read. -/
theorem text_rewrite (ps : List (PatchLine × Bool)) :
    ∀ l ∈ (rewrite ps).out ++ (rewrite ps).pending, ∃ p ∈ ps, l.text = p.1.text := by
  induction ps using List.reverseRecOn with
  | nil => intro l hl; cases hl
  | append_singleton ps p ih =>
    intro l hl
    have hsplit : l ∈ (rewrite ps).out ++ (rewrite ps).pending ∨ l.text = p.1.text := by
      rw [rewrite_snoc] at hl
      rcases rewriteStep_cases (rewrite ps) p with ⟨ho, hp⟩ | ⟨-, ho, hp⟩ | ⟨-, ho, hp⟩
        | ⟨-, -, ho, hp⟩
      all_goals
        rw [ho, hp] at hl
        simp only [mem_append, mem_singleton, not_mem_nil, or_false] at hl ⊢
      · rcases hl with hl | rfl
        · exact Or.inl hl
        · exact Or.inr rfl
      · rcases hl with (hl | rfl) | hl
        · exact Or.inl (Or.inl hl)
        · exact Or.inr rfl
        · exact Or.inl (Or.inr hl)
      · rcases hl with hl | hl | rfl
        · exact Or.inl (Or.inl hl)
        · exact Or.inl (Or.inr hl)
        · exact Or.inr rfl
      · exact Or.inl hl
    rcases hsplit with hl | hl
    · obtain ⟨q, hq, hqt⟩ := ih l hl
      exact ⟨q, by simp [hq], hqt⟩
    · exact ⟨p, by simp, hl⟩

def LineKind.isChange : LineKind → Bool
  | .add => true
  | .del => true
  | _ => false

@[simp] theorem isChange_add : LineKind.isChange .add = true := rfl

@[simp] theorem isChange_del : LineKind.isChange .del = true := rfl

@[simp] theorem isChange_context : LineKind.isChange .context = false := rfl

@[simp] theorem isChange_noNewlineOld : LineKind.isChange .noNewlineOld = false := rfl

@[simp] theorem isChange_noNewlineNew : LineKind.isChange .noNewlineNew = false := rfl

/-- Held lines are written as context, so none of them is a change. -/
theorem filter_isChange_pending (ps : List (PatchLine × Bool)) :
    (rewrite ps).pending.filter (fun l => l.kind.isChange) = [] := by
  rw [filter_eq_nil_iff]
  intro l hl
  simp [(flagsOk_rewrite ps).context l hl]

theorem filter_isChange_out (ps : List (PatchLine × Bool)) :
    (rewrite ps).out.filter (fun l => l.kind.isChange)
      = (ps.filter (fun p => p.2 && p.1.kind.isChange)).map Prod.fst := by
  induction ps using List.reverseRecOn with
  | nil => rfl
  | append_singleton ps p ih =>
    have hpend := filter_isChange_pending ps
    rw [rewrite_snoc, filter_append, map_append, ← ih]
    -- a marker may be dropped or written, but it is no change either way
    have hmarker : p.1.kind.isMarker = true → p.1.kind.isChange = false →
        (rewriteStep false (rewrite ps) p).out.filter (fun l => l.kind.isChange)
          = (rewrite ps).out.filter (fun l => l.kind.isChange) := by
      intro hm hc
      rw [rewriteStep_marker hm]
      by_cases hd : (rewrite ps).prevDropped = true
      · rw [if_pos hd]
      · rw [if_neg hd]
        simp [hpend, hc]
    obtain ⟨⟨kind, text⟩, sel⟩ := p
    cases kind with
    | context => simp [rewriteStep, hpend]
    | noNewlineOld => simpa using hmarker rfl rfl
    | noNewlineNew => simpa using hmarker rfl rfl
    | del => cases sel <;> simp [rewriteStep, hpend]
    | add =>
      cases sel with
      | false => simp [rewriteStep]
      | true =>
        by_cases hs : (rewrite ps).sawDroppedNewSide = true
        · simp [rewriteStep, hs, hpend]
        · simp [rewriteStep, hs]

/-- The changes written are the selected changes of the hunk, in order. -/
theorem filter_isChange_rewrite (ps : List (PatchLine × Bool)) :
    ((rewrite ps).out ++ (rewrite ps).pending).filter (fun l => l.kind.isChange)
      = (ps.filter (fun p => p.2 && p.1.kind.isChange)).map Prod.fst := by
  rw [filter_append, filter_isChange_pending, append_nil, filter_isChange_out]

/-! ## The reverse direction -/

/-- Exchange `+` and `-`. -/
def LineKind.flip : LineKind → LineKind
  | .add => .del
  | .del => .add
  | k => k

def PatchLine.flip (l : PatchLine) : PatchLine := { l with kind := l.kind.flip }

def flipMarks (ps : List (PatchLine × Bool)) : List (PatchLine × Bool) :=
  ps.map (fun p => (p.1.flip, p.2))

def RewriteState.flip (st : RewriteState) : RewriteState :=
  { st with out := st.out.map PatchLine.flip, pending := st.pending.map PatchLine.flip }

@[simp] theorem PatchLine.flip_flip (l : PatchLine) : l.flip.flip = l := by
  obtain ⟨kind, text⟩ := l
  cases kind <;> rfl

@[simp] theorem flip_comp_flip : PatchLine.flip ∘ PatchLine.flip = id := funext PatchLine.flip_flip

/-- One reverse step is the forward step with the signs exchanged. -/
theorem rewriteStep_flip (st : RewriteState) (p : PatchLine × Bool) :
    rewriteStep true st p = (rewriteStep false st.flip (p.1.flip, p.2)).flip := by
  obtain ⟨⟨kind, text⟩, sel⟩ := p
  obtain ⟨out, pending, saw, dropped⟩ := st
  cases kind <;> cases sel <;> cases saw <;> cases dropped <;>
    simp [rewriteStep, RewriteState.flip, PatchLine.flip, LineKind.flip]

theorem RewriteState.flip_flip (st : RewriteState) : st.flip.flip = st := by
  simp [RewriteState.flip]

/-- **A reverse rewriting is the forward one with the signs exchanged.** -/
theorem foldl_rewriteStep_true (ps : List (PatchLine × Bool)) :
    ps.foldl (rewriteStep true) RewriteState.init = (rewrite (flipMarks ps)).flip := by
  induction ps using List.reverseRecOn with
  | nil => rfl
  | append_singleton ps p ih =>
    have hmarks : flipMarks (ps ++ [p]) = flipMarks ps ++ [(p.1.flip, p.2)] := by simp [flipMarks]
    rw [foldl_append, ih, hmarks, rewrite_snoc, foldl_cons, foldl_nil,
      rewriteStep_flip, RewriteState.flip_flip]

theorem transformHunkLines_forward (h : PatchHunk) (hi : Nat) (sel : Selection) :
    transformHunkLines h hi sel false = (rewrite (sel.marks hi h.lines)).out
      ++ (rewrite (sel.marks hi h.lines)).pending := rfl

theorem transformHunkLines_reverse (h : PatchHunk) (hi : Nat) (sel : Selection) :
    transformHunkLines h hi sel true = ((rewrite (flipMarks (sel.marks hi h.lines))).out
      ++ (rewrite (flipMarks (sel.marks hi h.lines))).pending).map PatchLine.flip := by
  rw [transformHunkLines, foldl_rewriteStep_true, map_append]
  rfl

/-- Exchanging the signs of a body flips its script. -/
theorem bodyScript_flip (ls : List PatchLine) :
    bodyScript (ls.map PatchLine.flip) = EditScript.flip (bodyScript ls) := by
  induction ls using List.reverseRecOn with
  | nil => rfl
  | append_singleton ls l ih =>
    rw [map_append, map_cons, map_nil, bodyScript_snoc, bodyScript_snoc, ih]
    obtain ⟨kind, text⟩ := l
    have hmark : (EditScript.flip (bodyScript ls)).modifyLast (fun e => (e.1, e.2.strip))
        = EditScript.flip ((bodyScript ls).modifyLast (fun e => (e.1, e.2.strip))) := by
      symm
      apply map_modifyLast
      intro e
      rfl
    cases kind with
    | context =>
      simp [bodyStep, LineKind.op, PatchLine.flip, LineKind.flip, EditScript.flip, Op.flip]
    | add => simp [bodyStep, LineKind.op, PatchLine.flip, LineKind.flip, EditScript.flip, Op.flip]
    | del => simp [bodyStep, LineKind.op, PatchLine.flip, LineKind.flip, EditScript.flip, Op.flip]
    | noNewlineOld => exact hmark
    | noNewlineNew => exact hmark

/-- Exchanging the signs of a body exchanges the counts of its two sides. -/
theorem countKinds_flip (ls : List PatchLine) :
    countKinds (ls.map PatchLine.flip) .context .del = countKinds ls .context .add := by
  rw [countKinds, countP_map, countKinds]
  congr 1
  funext l
  obtain ⟨kind, text⟩ := l
  cases kind <;> rfl

/-- The new side of a body has its context and `+` lines. -/
theorem length_newSide_bodyScript (ls : List PatchLine) :
    (newSide (bodyScript ls)).length = countKinds ls .context .add := by
  rw [← oldSide_flip, ← bodyScript_flip, length_oldSide_bodyScript, countKinds_flip]

@[simp] theorem marks_fst (sel : Selection) (hi : Nat) (lines : List PatchLine) :
    (sel.marks hi lines).map Prod.fst = lines := by
  simp [Selection.marks, map_map, Function.comp_def]

theorem text_transformHunkLines {h : PatchHunk} {hi : Nat} {sel : Selection} {reverse : Bool}
    {l : PatchLine} (hl : l ∈ transformHunkLines h hi sel reverse) :
    ∃ l' ∈ h.lines, l.text = l'.text := by
  have hmem : ∀ p ∈ sel.marks hi h.lines, p.1 ∈ h.lines := by
    intro p hp
    rw [← marks_fst sel hi h.lines]
    exact mem_map_of_mem hp
  cases reverse with
  | false =>
    rw [transformHunkLines_forward] at hl
    obtain ⟨p, hp, ht⟩ := text_rewrite _ l hl
    exact ⟨p.1, hmem p hp, ht⟩
  | true =>
    rw [transformHunkLines_reverse] at hl
    obtain ⟨l0, hl0, rfl⟩ := mem_map.mp hl
    obtain ⟨p, hp, ht⟩ := text_rewrite _ l0 hl0
    obtain ⟨q, hq, rfl⟩ := mem_map.mp hp
    exact ⟨q.1, hmem q hq, ht⟩

end Thegn.Patch
