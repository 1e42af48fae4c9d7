import Mathlib

set_option autoImplicit false

/-! # Edit scripts and their strict application

An edit script over lines of type `α` is a list of lines, each kept, deleted or inserted. Its
old side is what it expects to find, its new side what it leaves behind. Scripts placed at line
numbers are applied to a file with `applyFrom`: strictly, each old side has to be found, line
for line, at its own position.

The second half is about *partial* application. In a script whose entries are marked selected
or not, the selected deletions and insertions are to be made and the others not. `Staged` says
that a script does this: it has the same old side, its kept and deleted lines are the marked
script's in order, and within each change block (the lines between two kept ones) its insertions
are the selected ones in order. `StagedNew` says what such a script leaves behind, and
`applyFrom_replace` that scripts with the old sides of others apply wherever those apply.
-/

/-! ## Interleavings

`Interleaves xs ys zs`: the list `zs` is made of `xs` and `ys`, each in its own order. This is
how a list is accounted for by two disjoint, order-preserving sublists.
-/

namespace Thegn.Interleave

variable {α β : Type}

/-- `zs` is made of `xs` and `ys`, each in its own order. -/
inductive Interleaves : List α → List α → List α → Prop
  | nil : Interleaves [] [] []
  | left {x : α} {xs ys zs : List α} : Interleaves xs ys zs → Interleaves (x :: xs) ys (x :: zs)
  | right {y : α} {xs ys zs : List α} : Interleaves xs ys zs → Interleaves xs (y :: ys) (y :: zs)

end Thegn.Interleave

namespace Thegn.EditScript

open Interleave List

/-! ## Scripts -/

inductive Op
  | keep
  | del
  | ins
  deriving DecidableEq, Repr

/-- Exchange deletions and insertions. -/
def Op.flip : Op → Op
  | .keep => .keep
  | .del => .ins
  | .ins => .del

abbrev Script (α : Type) := List (Op × α)

variable {α β : Type}

/-- The lines a script expects to find: kept and deleted ones. -/
def oldSide (s : Script α) : List α := (s.filter (fun e => e.1 ≠ .ins)).map Prod.snd

/-- The lines a script leaves behind: kept and inserted ones. -/
def newSide (s : Script α) : List α := (s.filter (fun e => e.1 ≠ .del)).map Prod.snd

/-- The script that undoes `s`. -/
def flip (s : Script α) : Script α := s.map (fun e => (e.1.flip, e.2))

@[simp] theorem oldSide_nil : oldSide ([] : Script α) = [] := rfl

@[simp] theorem newSide_nil : newSide ([] : Script α) = [] := rfl

@[simp] theorem oldSide_append (s t : Script α) : oldSide (s ++ t) = oldSide s ++ oldSide t := by
  simp [oldSide]

@[simp] theorem newSide_append (s t : Script α) : newSide (s ++ t) = newSide s ++ newSide t := by
  simp [newSide]

theorem oldSide_flip (s : Script α) : oldSide (flip s) = newSide s := by
  induction s with
  | nil => rfl
  | cons e s ih =>
    obtain ⟨o, x⟩ := e
    unfold oldSide newSide flip at *
    cases o <;> simp_all [Op.flip]

theorem newSide_flip (s : Script α) : newSide (flip s) = oldSide s := by
  induction s with
  | nil => rfl
  | cons e s ih =>
    obtain ⟨o, x⟩ := e
    unfold oldSide newSide flip at *
    cases o <;> simp_all [Op.flip]

/-! ## Changing the last entry -/

/-- A change of the last entry, seen through a map. -/
theorem map_modifyLast {γ : Type} {f : α → α} {f' : γ → γ} {g : α → γ}
    (h : ∀ x, g (f x) = f' (g x)) (l : List α) :
    (l.modifyLast f).map g = (l.map g).modifyLast f' := by
  rcases eq_nil_or_concat l with rfl | ⟨l', x, rfl⟩
  · rfl
  · rw [concat_eq_append, modifyLast_concat, map_append, map_append,
      map_singleton, map_singleton, modifyLast_concat, h]

theorem mem_modifyLast {f : α → α} {l : List α} {y : α} (h : y ∈ l.modifyLast f) :
    ∃ x ∈ l, y = x ∨ y = f x := by
  rcases eq_nil_or_concat l with rfl | ⟨l', x, rfl⟩
  · cases h
  · rw [concat_eq_append, modifyLast_concat] at h
    rcases mem_append.mp h with h | h
    · exact ⟨y, by simp [h], Or.inl rfl⟩
    · exact ⟨x, by simp, Or.inr (mem_singleton.mp h)⟩

/-- A change of the last line leaves the length of the old side alone. -/
theorem length_oldSide_modifyLast (s : Script α) (f : α → α) :
    (oldSide (s.modifyLast (fun e => (e.1, f e.2)))).length = (oldSide s).length := by
  rcases eq_nil_or_concat s with rfl | ⟨s', ⟨op, x⟩, rfl⟩
  · rfl
  · rw [concat_eq_append, modifyLast_concat, oldSide_append, oldSide_append,
      length_append, length_append]
    cases op <;> rfl

/-! ## Strict application -/

/-- A script placed in a file: the number of lines before its old side. -/
structure Placed (α : Type) where
  pos : Nat
  script : Script α

section Apply

variable [DecidableEq α]

/-- Apply placed scripts, in order, to the lines `rest` of a file from its line `c` on. -/
def applyFrom (c : Nat) : List (Placed α) → List α → Option (List α)
  | [], rest => some rest
  | h :: hs, rest =>
    if c ≤ h.pos ∧ h.pos - c ≤ rest.length ∧ oldSide h.script <+: rest.drop (h.pos - c) then
      (applyFrom (h.pos + (oldSide h.script).length) hs
        (rest.drop (h.pos - c + (oldSide h.script).length))).map
          (rest.take (h.pos - c) ++ newSide h.script ++ ·)
    else none

/-- **One application step, read backwards**: the old side stood at its position, and the rest was
applied behind it. -/
theorem applyFrom_cons_inv {c : Nat} {h : Placed α} {hs : List (Placed α)} {rest out : List α}
    (hrun : applyFrom c (h :: hs) rest = some out) :
    ∃ pre tail out', rest = pre ++ oldSide h.script ++ tail ∧ c + pre.length = h.pos ∧
      applyFrom (h.pos + (oldSide h.script).length) hs tail = some out' ∧
      out = pre ++ newSide h.script ++ out' := by
  unfold applyFrom at hrun
  split at hrun
  · rename_i hc
    obtain ⟨hle, hlen, tail, htail⟩ := hc
    obtain ⟨out', hout', rfl⟩ := Option.map_eq_some_iff.mp hrun
    have hdrop : rest.drop (h.pos - c + (oldSide h.script).length) = tail := by
      rw [← drop_drop, ← htail, drop_left]
    refine ⟨rest.take (h.pos - c), tail, out', ?_, ?_, hdrop ▸ hout', rfl⟩
    · rw [append_assoc, htail, take_append_drop]
    · rw [length_take, Nat.min_eq_left hlen]; omega
  · cases hrun

/-- **One application step, made**: an old side at its position is replaced by the new one. -/
theorem applyFrom_cons {c : Nat} {h : Placed α} {hs : List (Placed α)} {pre tail out' : List α}
    (hpos : c + pre.length = h.pos)
    (hrun : applyFrom (h.pos + (oldSide h.script).length) hs tail = some out') :
    applyFrom c (h :: hs) (pre ++ oldSide h.script ++ tail)
      = some (pre ++ newSide h.script ++ out') := by
  have hsub : h.pos - c = pre.length := by omega
  unfold applyFrom
  rw [hsub, if_pos]
  · rw [append_assoc, take_left, ← append_assoc, ← length_append, drop_left, hrun]
    rfl
  · refine ⟨by omega, by simp, ?_⟩
    rw [append_assoc, drop_left]
    exact prefix_append _ _

/-- Lines before the window pass through. -/
theorem applyFrom_append {c : Nat} {hs : List (Placed α)} {pre rest out : List α}
    (h : applyFrom (c + pre.length) hs rest = some out) :
    applyFrom c hs (pre ++ rest) = some (pre ++ out) := by
  cases hs with
  | nil =>
    simp only [applyFrom, Option.some.injEq] at h ⊢
    rw [h]
  | cons g hs =>
    obtain ⟨p, tail, out', rfl, hpos, hrun, rfl⟩ := applyFrom_cons_inv h
    have hpos' : c + (pre ++ p).length = g.pos := by
      rw [length_append]
      omega
    simpa only [append_assoc] using applyFrom_cons hpos' hrun

/-- How many lines a script adds, less those it removes. -/
def growth (h : Placed α) : Int := (newSide h.script).length - (oldSide h.script).length

/-- **Where the new side of a script ends up**: its position shifted by the growth of the scripts
before it. The old sides before it fit below its position. -/
theorem applyFrom_split {h : Placed α} {post : List (Placed α)} (pre : List (Placed α)) :
    ∀ (c : Nat) (rest out : List α), applyFrom c (pre ++ h :: post) rest = some out →
      ∃ a b, out = a ++ newSide h.script ++ b ∧ (c : Int) + a.length = h.pos + (pre.map growth).sum
        ∧ c + (pre.map (fun g => (oldSide g.script).length)).sum ≤ h.pos := by
  induction pre with
  | nil =>
    intro c rest out hrun
    obtain ⟨pre, tail, out', rfl, hpos, -, rfl⟩ := applyFrom_cons_inv hrun
    refine ⟨pre, out', rfl, ?_, ?_⟩
    · simp only [map_nil, sum_nil]
      omega
    · simp only [map_nil, sum_nil]
      omega
  | cons g pre ih =>
    intro c rest out hrun
    obtain ⟨p, tail, out', rfl, hpos, hrest, rfl⟩ := applyFrom_cons_inv hrun
    obtain ⟨a, b, rfl, hlen, hle⟩ := ih _ tail out' hrest
    refine ⟨p ++ newSide g.script ++ a, b, by simp, ?_, ?_⟩
    · simp only [map_cons, sum_cons, length_append, growth, Nat.cast_add] at hlen ⊢
      omega
    · simp only [map_cons, sum_cons] at hle ⊢
      omega

/-- **Scripts that change nothing can be left out.** -/
theorem applyFrom_filter {p : β → Bool} {g : β → Placed α} (hs : List β) :
    ∀ (c : Nat) (rest out : List α),
      (∀ h ∈ hs, p h = false → newSide (g h).script = oldSide (g h).script) →
      applyFrom c (hs.map g) rest = some out →
      applyFrom c ((hs.filter p).map g) rest = some out := by
  induction hs with
  | nil => intro c rest out _ h; exact h
  | cons h hs ih =>
    intro c rest out hid hrun
    rw [map_cons] at hrun
    obtain ⟨pre, tail, out', rfl, hpos, hrest, rfl⟩ := applyFrom_cons_inv hrun
    have ih' := ih _ tail out' (fun k hk => hid k (by simp [hk])) hrest
    by_cases hp : p h = true
    · rw [filter_cons_of_pos hp, map_cons]
      exact applyFrom_cons hpos ih'
    · have hp' : p h = false := by simpa using hp
      rw [filter_cons_of_neg hp, hid h (by simp) hp']
      apply applyFrom_append
      rw [length_append, ← Nat.add_assoc, hpos]
      exact ih'

end Apply

/-! ## Replacing the old sides of placed things -/

/-- `out` is `rest`, the lines of a file from its line `c` on, with the old side of each item of
`hs`, found at its position, replaced by lines that `R` relates to the item. -/
def Rewritten (pos : β → Nat) (old : β → List α) (R : β → List α → Prop) :
    Nat → List β → List α → List α → Prop
  | _, [], rest, out => out = rest
  | c, h :: hs, rest, out =>
    ∃ pre mid tail out', rest = pre ++ old h ++ tail ∧ c + pre.length = pos h ∧ R h mid ∧
      out = pre ++ mid ++ out' ∧ Rewritten pos old R (pos h + (old h).length) hs tail out'

/-- **Replacing scripts by others with the same old side.** Where the items apply with one choice
of scripts, they apply with any other choice that keeps positions and old sides, and the result
is the file with each old side replaced by the new side of the chosen script. -/
theorem applyFrom_replace [DecidableEq α] {f g : β → Placed α} {R : β → List α → Prop}
    (hs : List β) :
    ∀ (c : Nat) (rest q : List α),
      (∀ h ∈ hs, (g h).pos = (f h).pos ∧ oldSide (g h).script = oldSide (f h).script
        ∧ R h (newSide (g h).script)) →
      applyFrom c (hs.map f) rest = some q →
      ∃ out, applyFrom c (hs.map g) rest = some out ∧
        Rewritten (fun h => (f h).pos) (fun h => oldSide (f h).script) R c hs rest out := by
  induction hs with
  | nil =>
    intro c rest q _ _
    exact ⟨rest, rfl, rfl⟩
  | cons h hs ih =>
    intro c rest q hsame hrun
    obtain ⟨hp, ho, hR⟩ := hsame h (by simp)
    rw [map_cons] at hrun
    obtain ⟨pre, tail, q', rfl, hpos, hrest, -⟩ := applyFrom_cons_inv hrun
    obtain ⟨out', hout', hrw⟩ := ih _ tail q' (fun k hk => hsame k (by simp [hk])) hrest
    refine ⟨pre ++ newSide (g h).script ++ out', ?_, pre, _, tail, out', rfl, hpos, hR, rfl, hrw⟩
    rw [map_cons, ← ho]
    rw [← hp] at hpos
    rw [← hp, ← ho] at hout'
    exact applyFrom_cons hpos hout'

/-! ## Kept and inserted lines -/

/-- The new side of a script interleaves its kept and its inserted lines. -/
theorem interleaves_newSide (s : Script α) :
    Interleaves ((s.filter (fun e => e.1 = .keep)).map Prod.snd)
      ((s.filter (fun e => e.1 = .ins)).map Prod.snd) (newSide s) := by
  induction s with
  | nil => exact .nil
  | cons e s ih =>
    obtain ⟨o, x⟩ := e
    unfold newSide at *
    cases o with
    | keep => simpa using Interleaves.left ih
    | del => simpa using ih
    | ins => simpa using Interleaves.right ih

/-! ## Partial scripts -/

/-- A line of a script, marked selected or not. -/
structure Marked (α : Type) where
  op : Op
  line : α
  sel : Bool

def Marked.entry (m : Marked α) : Op × α := (m.op, m.line)

/-- The old-side entry of a partial script for a marked line: an unselected deletion becomes a
kept line. -/
def Marked.oldEntry (m : Marked α) : Option (Op × α) :=
  match m.op, m.sel with
  | .keep, _ => some (.keep, m.line)
  | .del, true => some (.del, m.line)
  | .del, false => some (.keep, m.line)
  | .ins, _ => none

/-- The insertion of a partial script for a marked line. -/
def Marked.newEntry (m : Marked α) : Option (Op × α) :=
  match m.op, m.sel with
  | .ins, true => some (.ins, m.line)
  | _, _ => none

/-- The script `e` makes exactly the selected changes of the change block `b`. -/
structure StagedBlock (b : List (Marked α)) (e : Script α) : Prop where
  old : e.filter (fun x => x.1 ≠ .ins) = b.filterMap Marked.oldEntry
  new : e.filter (fun x => x.1 = .ins) = b.filterMap Marked.newEntry

/-- A change block: no kept line. -/
def IsBlock (b : List (Marked α)) : Prop := ∀ m ∈ b, m.op ≠ .keep

/-- `Staged` for a script that ends with a kept line (or is empty). -/
inductive StagedUpTo : List (Marked α) → Script α → Prop
  | nil : StagedUpTo [] []
  | keep {ms b : List (Marked α)} {es e : Script α} (l : α) (s : Bool) :
      StagedUpTo ms es → IsBlock b → StagedBlock b e →
      StagedUpTo (ms ++ b ++ [⟨.keep, l, s⟩]) (es ++ e ++ [(Op.keep, l)])

/-- **The script `es` makes exactly the selected changes of the marked script `ms`**, block by
block. -/
def Staged (ms : List (Marked α)) (es : Script α) : Prop :=
  ∃ ms' b es' e, ms = ms' ++ b ∧ es = es' ++ e ∧ StagedUpTo ms' es' ∧ IsBlock b ∧ StagedBlock b e

/-- What is left of a change block: the unselected deletions and the selected insertions, each
in order. -/
def BlockResult (b : List (Marked α)) (out : List α) : Prop :=
  Interleaves ((b.filter (fun m => m.op = .del && !m.sel)).map Marked.line)
    ((b.filter (fun m => m.op = .ins && m.sel)).map Marked.line) out

/-- `StagedNew` for a script that ends with a kept line (or is empty). -/
inductive StagedNewUpTo : List (Marked α) → List α → Prop
  | nil : StagedNewUpTo [] []
  | keep {ms b : List (Marked α)} {ls out : List α} (l : α) (s : Bool) :
      StagedNewUpTo ms ls → IsBlock b → BlockResult b out →
      StagedNewUpTo (ms ++ b ++ [⟨.keep, l, s⟩]) (ls ++ out ++ [l])

/-- **The lines `ls` are the old side of the marked script with exactly the selected deletions
removed and the selected insertions inserted**, each inside its own change block and in order. -/
def StagedNew (ms : List (Marked α)) (ls : List α) : Prop :=
  ∃ ms' b ls' out, ms = ms' ++ b ∧ ls = ls' ++ out ∧ StagedNewUpTo ms' ls' ∧ IsBlock b ∧
    BlockResult b out

theorem StagedBlock.nil : StagedBlock ([] : List (Marked α)) [] := ⟨rfl, rfl⟩

theorem Marked.of_oldEntry {m : Marked α} {x : Op × α} (h : m.oldEntry = some x) :
    x.1 ≠ .ins ∧ m.newEntry = none := by
  obtain ⟨o, l, s⟩ := m
  cases o <;> cases s <;> simp only [Marked.oldEntry, Option.some.injEq, reduceCtorEq] at h <;>
    subst h <;> simp [Marked.newEntry]

theorem Marked.of_newEntry {m : Marked α} {x : Op × α} (h : m.newEntry = some x) :
    x.1 = .ins ∧ m.oldEntry = none := by
  obtain ⟨o, l, s⟩ := m
  cases o <;> cases s <;> simp only [Marked.newEntry, Option.some.injEq, reduceCtorEq] at h
  subst h
  simp [Marked.oldEntry]

/-- The next kept or deleted line. -/
theorem StagedBlock.snoc_old {b : List (Marked α)} {e : Script α} {m : Marked α} {x : Op × α}
    (h : StagedBlock b e) (hm : m.oldEntry = some x) : StagedBlock (b ++ [m]) (e ++ [x]) := by
  have hx := Marked.of_oldEntry hm
  constructor
  · simp [filter_append, filterMap_append, ← h.old, hm, hx.1]
  · simp [filter_append, filterMap_append, ← h.new, hx.1, hx.2]

/-- The next insertion, written before trailing kept lines. -/
theorem StagedBlock.snoc_new {b : List (Marked α)} {e k : Script α} {m : Marked α} {x : Op × α}
    (h : StagedBlock b (e ++ k)) (hk : ∀ y ∈ k, y.1 ≠ .ins) (hm : m.newEntry = some x) :
    StagedBlock (b ++ [m]) (e ++ [x] ++ k) := by
  have hx := Marked.of_newEntry hm
  have hkn : k.filter (fun y => y.1 = .ins) = [] := by
    rw [filter_eq_nil_iff]
    intro y hy
    simpa using hk y hy
  have hold := h.old
  have hnew := h.new
  rw [filter_append] at hold hnew
  rw [hkn, append_nil] at hnew
  constructor
  · simp [filter_append, filterMap_append, ← hold, hx.1, hx.2]
  · rw [filter_append, filter_append, hkn, hnew, filterMap_append]
    simp [hm, hx.1]

/-- An unselected insertion leaves no trace. -/
theorem stagedBlock_snoc_skip {b : List (Marked α)} {e : Script α} {l : α} :
    StagedBlock (b ++ [⟨.ins, l, false⟩]) e ↔ StagedBlock b e := by
  have hold : (b ++ [Marked.mk .ins l false]).filterMap Marked.oldEntry
      = b.filterMap Marked.oldEntry := by
    rw [filterMap_append]
    exact append_nil _
  have hnew : (b ++ [Marked.mk .ins l false]).filterMap Marked.newEntry
      = b.filterMap Marked.newEntry := by
    rw [filterMap_append]
    exact append_nil _
  exact ⟨fun h => ⟨hold ▸ h.old, hnew ▸ h.new⟩, fun h => ⟨hold.symm ▸ h.old, hnew.symm ▸ h.new⟩⟩

theorem IsBlock.snoc {b : List (Marked α)} {m : Marked α} (hb : IsBlock b) (hm : m.op ≠ .keep) :
    IsBlock (b ++ [m]) := by
  intro x hx
  rcases mem_append.mp hx with hx | hx
  · exact hb x hx
  · rw [mem_singleton.mp hx]; exact hm

/-- A change of the last kept line, made on both sides. -/
theorem StagedUpTo.modifyLast {ms : List (Marked α)} {es : Script α} (h : StagedUpTo ms es)
    (f : α → α) :
    StagedUpTo (ms.modifyLast (fun m => { m with line := f m.line }))
      (es.modifyLast (fun e => (e.1, f e.2))) := by
  cases h with
  | nil => exact .nil
  | keep l s hup hb hblock =>
    rw [modifyLast_concat, modifyLast_concat]
    exact .keep (f l) s hup hb hblock

theorem StagedBlock.oldSide_eq {b : List (Marked α)} {e : Script α} (h : StagedBlock b e) :
    oldSide e = oldSide (b.map Marked.entry) := by
  rw [oldSide, h.old]
  clear h
  induction b with
  | nil => rfl
  | cons m b ih =>
    obtain ⟨o, l, s⟩ := m
    unfold oldSide at *
    cases o with
    | keep => simpa [Marked.oldEntry, Marked.entry] using ih
    | del => cases s <;> simpa [Marked.oldEntry, Marked.entry] using ih
    | ins => simpa [filterMap_cons, Marked.oldEntry, Marked.entry] using ih

theorem StagedBlock.blockResult {b : List (Marked α)} {e : Script α} (hb : IsBlock b)
    (h : StagedBlock b e) : BlockResult b (newSide e) := by
  have hkeep : e.filter (fun x => x.1 = .keep)
      = (e.filter (fun x => x.1 ≠ .ins)).filter (fun x => x.1 = .keep) := by
    rw [filter_filter]
    congr 1
    funext x
    cases x.1 <;> simp
  have hdel : ((b.filterMap Marked.oldEntry).filter (fun x => x.1 = .keep)).map Prod.snd
      = (b.filter (fun m => m.op = .del && !m.sel)).map Marked.line := by
    clear h hkeep
    induction b with
    | nil => rfl
    | cons m b ih =>
      have hm : m.op ≠ .keep := hb m (by simp)
      have ih' := ih (fun x hx => hb x (by simp [hx]))
      obtain ⟨o, l, s⟩ := m
      cases o with
      | keep => exact absurd rfl hm
      | del => cases s <;> simpa [Marked.oldEntry] using ih'
      | ins => simpa [filterMap_cons, Marked.oldEntry] using ih'
  have hins : (b.filterMap Marked.newEntry).map Prod.snd
      = (b.filter (fun m => m.op = .ins && m.sel)).map Marked.line := by
    clear h hkeep hdel hb
    induction b with
    | nil => rfl
    | cons m b ih =>
      obtain ⟨o, l, s⟩ := m
      cases o <;> cases s <;> simpa [filterMap_cons, Marked.newEntry] using ih
  have key := interleaves_newSide e
  rw [hkeep, h.old, h.new, hdel, hins] at key
  exact key

theorem StagedUpTo.oldSide_eq {ms : List (Marked α)} {es : Script α} (h : StagedUpTo ms es) :
    oldSide es = oldSide (ms.map Marked.entry) := by
  induction h with
  | nil => rfl
  | keep l s _ _ hblock ih =>
    simp only [map_append, oldSide_append, ih, hblock.oldSide_eq]
    rfl

theorem StagedUpTo.stagedNew {ms : List (Marked α)} {es : Script α} (h : StagedUpTo ms es) :
    StagedNewUpTo ms (newSide es) := by
  induction h with
  | nil => exact .nil
  | keep l s _ hb hblock ih =>
    simp only [newSide_append]
    exact .keep l s ih hb (hblock.blockResult hb)

/-- A partial script expects what the whole script expects. -/
theorem Staged.oldSide_eq {ms : List (Marked α)} {es : Script α} (h : Staged ms es) :
    oldSide es = oldSide (ms.map Marked.entry) := by
  obtain ⟨ms', b, es', e, rfl, rfl, hup, -, hblock⟩ := h
  rw [map_append, oldSide_append, oldSide_append, hup.oldSide_eq, hblock.oldSide_eq]

/-- A partial script leaves behind what its marks say. -/
theorem Staged.stagedNew {ms : List (Marked α)} {es : Script α} (h : Staged ms es) :
    StagedNew ms (newSide es) := by
  obtain ⟨ms', b, es', e, rfl, rfl, hup, hb, hblock⟩ := h
  exact ⟨ms', b, newSide es', newSide e, rfl, newSide_append _ _, hup.stagedNew, hb,
    hblock.blockResult hb⟩

end Thegn.EditScript
