import Thegn.Lib.Tiling
import Thegn.Pane.Tree

set_option autoImplicit false

/-! # Laying out the pane tree

`visitLayout` walks the tree with the rectangle left to it and calls `pane` for every visible
pane and `bar` for the title bar of every collapsed stack member. The closures of the source
change captured variables; here they are functions on a state `σ` that is passed along.

The share of a child in its split is a rounded quotient of floating-point weights. Only that it
is a natural number matters, so it is a parameter `share weights i extent`. Whatever it says,
the panes and bars tile the rectangle (`layout_tiles`).
-/

namespace Thegn.Pane

open Tiling List

/-! ## Rectangles -/

structure Rect where
  x : Nat
  y : Nat
  cols : Nat
  rows : Nat
  deriving DecidableEq, Repr

/-- The cell at column `c.1` and row `c.2` is in the rectangle. -/
def Rect.Has (r : Rect) (c : Nat × Nat) : Prop :=
  (r.x ≤ c.1 ∧ c.1 < r.x + r.cols) ∧ r.y ≤ c.2 ∧ c.2 < r.y + r.rows

instance (r : Rect) (c : Nat × Nat) : Decidable (r.Has c) := inferInstanceAs (Decidable (_ ∧ _))

/-- The part of `rect` from `offset` on, `size` long, along the split axis. -/
def childRect (dir : Dir) (rect : Rect) (offset size : Nat) : Rect :=
  match dir with
  | .row => { x := rect.x + offset, y := rect.y, cols := size, rows := rect.rows }
  | .col => { x := rect.x, y := rect.y + offset, cols := rect.cols, rows := size }

/-- The length of a rectangle along the split axis. -/
def Rect.extent (rect : Rect) : Dir → Nat
  | .row => rect.cols
  | .col => rect.rows

/-! ## The walk -/

/-- The fewest rows the expanded member of a stack keeps before the bars are dropped. -/
def stackMinExpandedRows : Nat := 4

section Visit

variable {σ W : Type} (share : List W → Nat → Nat → Nat) (pane bar : σ → PaneId → Rect → σ)

/-- The title bar of the member at index `i`: above the expanded member `a`, or below it. -/
def barStep (bar : σ → PaneId → Rect → σ) (rect : Rect) (a n : Nat) (s : σ)
    (p : PaneId × Nat) : σ :=
  let barRect (y : Nat) : Rect := { x := rect.x, y := y, cols := rect.cols, rows := 1 }
  let bottom := rect.y + rect.rows
  if p.2 < a then bar s p.1 (barRect (rect.y + p.2))
  else if a < p.2 then bar s p.1 (barRect (bottom - (n - p.2)))
  else s

/-- A stack: bars first, then the expanded member between them, or, when the rectangle is too
small, the expanded member alone. -/
def visitStack (panes : List PaneId) (active : Nat) (rect : Rect) (s : σ) : σ :=
  let a := if active < panes.length then active else 0
  match panes[a]? with
  | none => s
  | some p =>
    let collapsed := panes.length - 1
    if collapsed = 0 ∨ rect.cols < 2 ∨ rect.rows < collapsed + stackMinExpandedRows then
      pane s p rect
    else
      let s := panes.zipIdx.foldl (barStep bar rect a panes.length) s
      pane s p { x := rect.x, y := rect.y + a, cols := rect.cols, rows := rect.rows - collapsed }

mutual

/-- The walk over a tree. -/
def CenterTree.visitLayout : CenterTree W → Rect → σ → σ
  | .leaf p, rect, s => pane s p rect
  | .stack panes active, rect, s => visitStack pane bar panes active rect s
  | .split dir children, rect, s =>
    let extent := rect.extent dir
    visitBranches dir rect extent (fun i => share (children.map Branch.weight) i extent)
      children.length children 0 0 s

/-- The children from index `i` on, placed from `offset` on. Each but the last gets its rounded
share, clamped to what is left; the last gets the rest. -/
def visitBranches (dir : Dir) (rect : Rect) (extent : Nat) (rounded : Nat → Nat) (n : Nat) :
    List (Branch W) → Nat → Nat → σ → σ
  | [], _, _, s => s
  | .mk _ child :: rest, i, offset, s =>
    let remaining := extent - offset
    let size := if i + 1 = n then remaining else min (rounded i) remaining
    visitBranches dir rect extent rounded n rest (i + 1) (offset + size)
      (child.visitLayout (childRect dir rect offset size) s)

end

end Visit

/-! ## What the callers collect -/

section

variable {W : Type} (share : List W → Nat → Nat → Nat)

/-- The visible panes. -/
def CenterTree.layout (t : CenterTree W) (rect : Rect) : List (PaneId × Rect) :=
  t.visitLayout share (fun out p r => out ++ [(p, r)]) (fun out _ _ => out) rect []

/-- The title bars of the collapsed stack members. -/
def CenterTree.stackBars (t : CenterTree W) (rect : Rect) : List (PaneId × Rect) :=
  t.visitLayout share (fun bars _ _ => bars) (fun bars p r => bars ++ [(p, r)]) rect []

/-- The content of a pane: its rectangle without the frame ring and `pad` columns each side. -/
def inset (pad : Nat) (r : Rect) : Rect :=
  { x := r.x + 1 + pad, y := r.y + 1, cols := r.cols - (2 + 2 * pad), rows := r.rows - 2 }

structure FramedLayout where
  frames : List (PaneId × Rect × Rect)
  bars : List (PaneId × Rect)
  deriving DecidableEq

/-- Frames and bars from one walk. -/
def CenterTree.layoutFramedWithBars (pad : Nat) (t : CenterTree W) (rect : Rect) : FramedLayout :=
  t.visitLayout share (fun st p r => { st with frames := st.frames ++ [(p, r, inset pad r)] })
    (fun st p r => { st with bars := st.bars ++ [(p, r)] }) rect { frames := [], bars := [] }

end

/-! ## The walk only passes its state along -/

section Hom

variable {σ τ W : Type} {share : List W → Nat → Nat → Nat} {pane bar : σ → PaneId → Rect → σ}
  {pane' bar' : τ → PaneId → Rect → τ} {h : σ → τ}

theorem visitStack_hom (hpane : ∀ s p r, h (pane s p r) = pane' (h s) p r)
    (hbar : ∀ s p r, h (bar s p r) = bar' (h s) p r) (panes : List PaneId) (active : Nat)
    (rect : Rect) (s : σ) :
    h (visitStack pane bar panes active rect s) =
      visitStack pane' bar' panes active rect (h s) := by
  have hfold : ∀ (ps : List (PaneId × Nat)) (a n : Nat) (s : σ),
      h (ps.foldl (barStep bar rect a n) s) = ps.foldl (barStep bar' rect a n) (h s) := by
    intro ps a n
    induction ps with
    | nil => intro s; rfl
    | cons p ps ih =>
      intro s
      have hstep : h (barStep bar rect a n s p) = barStep bar' rect a n (h s) p := by
        unfold barStep
        dsimp only
        split_ifs
        · exact hbar _ _ _
        · exact hbar _ _ _
        · rfl
      rw [foldl_cons, foldl_cons, ih, hstep]
  unfold visitStack
  dsimp only
  cases panes[if active < panes.length then active else 0]? with
  | none => rfl
  | some p =>
    dsimp only
    generalize (if active < panes.length then active else 0) = a
    split_ifs
    · exact hpane _ _ _
    · rw [hpane, hfold]

/-- **Simulation**: a function that commutes with the two closures commutes with the walk. -/
theorem visitLayout_hom (hpane : ∀ s p r, h (pane s p r) = pane' (h s) p r)
    (hbar : ∀ s p r, h (bar s p r) = bar' (h s) p r) (t : CenterTree W) :
    ∀ (rect : Rect) (s : σ),
      h (t.visitLayout share pane bar rect s) = t.visitLayout share pane' bar' rect (h s) := by
  induction t using CenterTree.ind with
  | leaf p =>
    intro rect s
    rw [CenterTree.visitLayout, CenterTree.visitLayout, hpane]
  | stack panes active =>
    intro rect s
    rw [CenterTree.visitLayout, CenterTree.visitLayout, visitStack_hom hpane hbar]
  | split dir children ih =>
    intro rect s
    rw [CenterTree.visitLayout, CenterTree.visitLayout]
    generalize (fun i => share (children.map Branch.weight) i (rect.extent dir)) = rounded
    generalize children.length = n
    have key : ∀ (bs : List (Branch W)), (∀ b ∈ bs, b ∈ children) → ∀ (i offset : Nat) (s : σ),
        h (visitBranches share pane bar dir rect (rect.extent dir) rounded n bs i offset s)
          = visitBranches share pane' bar' dir rect (rect.extent dir) rounded n bs i offset
              (h s) := by
      intro bs
      induction bs with
      | nil =>
        intro _ i offset s
        rw [visitBranches, visitBranches]
      | cons b bs ihbs =>
        intro hsub i offset s
        have hb := ih b (hsub b (by simp))
        obtain ⟨w, child⟩ := b
        rw [visitBranches, visitBranches, ihbs (fun c hc => hsub c (by simp [hc])), hb]
    exact key children (fun b hb => hb) 0 0 s

end Hom

/-! ## Counting the cells -/

/-- Count the rectangles that have the cell. -/
def tally (c : Nat × Nat) (n : Nat) (_ : PaneId) (r : Rect) : Nat := n + if r.Has c then 1 else 0

/-- A strip cut in two along the split axis. -/
theorem childRect_cut (dir : Dir) (rect : Rect) (c : Nat × Nat) (o a b : Nat) :
    (if (childRect dir rect o a).Has c then 1 else 0)
      + (if (childRect dir rect (o + a) b).Has c then 1 else 0)
      = if (childRect dir rect o (a + b)).Has c then 1 else 0 := by
  cases dir with
  | row =>
    split_ifs with h1 h2 h3 h3 h2 h3 h3
    all_goals simp only [childRect, Rect.Has] at *
    all_goals omega
  | col =>
    split_ifs with h1 h2 h3 h3 h2 h3 h3
    all_goals simp only [childRect, Rect.Has] at *
    all_goals omega

theorem childRect_whole (dir : Dir) (rect : Rect) :
    childRect dir rect 0 (rect.extent dir) = rect := by
  cases dir <;> rfl

/-- The bars of the first `i` members of a stack of `n`, as strips above and below the member
`a`. -/
def barsBelow (rect : Rect) (a n i : Nat) (c : Nat × Nat) : Nat :=
  if i ≤ a then if (childRect .col rect 0 i).Has c then 1 else 0
  else (if (childRect .col rect 0 a).Has c then 1 else 0)
    + if (childRect .col rect (rect.rows - n + a + 1) (i - a - 1)).Has c then 1 else 0

theorem barsBelow_succ {rect : Rect} {n i : Nat} {c : Nat × Nat} (a : Nat) (hi : i < n)
    (hn : n ≤ rect.rows) (s : Nat) (p : PaneId) :
    barStep (tally c) rect a n s (p, i) + barsBelow rect a n i c
      = s + barsBelow rect a n (i + 1) c := by
  unfold barStep tally barsBelow
  dsimp only
  rcases Nat.lt_trichotomy i a with h | h | h
  · -- one more row of the strip above
    have hcut := childRect_cut .col rect c 0 i 1
    have hbar : childRect .col rect (0 + i) 1
        = { x := rect.x, y := rect.y + i, cols := rect.cols, rows := 1 } := by
      simp [childRect]
    rw [hbar] at hcut
    rw [if_pos h, if_pos (show i ≤ a by omega), if_pos (show i + 1 ≤ a by omega)]
    omega
  · -- the expanded member itself has no bar
    have hempty : ¬ (childRect .col rect (rect.rows - n + a + 1) (i + 1 - a - 1)).Has c := by
      simp only [childRect, Rect.Has]
      omega
    rw [if_neg (show ¬ i < a by omega), if_neg (show ¬ a < i by omega),
      if_pos (show i ≤ a by omega), if_neg (show ¬ i + 1 ≤ a by omega), if_neg hempty, h]
    omega
  · -- one more row of the strip below
    have hcut := childRect_cut .col rect c (rect.rows - n + a + 1) (i - a - 1) 1
    have hbar : childRect .col rect (rect.rows - n + a + 1 + (i - a - 1)) 1
        = { x := rect.x, y := rect.y + rect.rows - (n - i), cols := rect.cols, rows := 1 } := by
      simp only [childRect, Rect.mk.injEq, and_true, true_and]
      omega
    have hsize : i - a - 1 + 1 = i + 1 - a - 1 := by omega
    rw [hbar, hsize] at hcut
    rw [if_neg (show ¬ i < a by omega), if_pos h, if_neg (show ¬ i ≤ a by omega),
      if_neg (show ¬ i + 1 ≤ a by omega)]
    omega

/-- The bars of all members from index `i` on. -/
theorem foldl_barStep {rect : Rect} {n : Nat} {c : Nat × Nat} (a : Nat) (hn : n ≤ rect.rows)
    (panes : List PaneId) :
    ∀ (i s : Nat), i + panes.length = n →
      (panes.zipIdx i).foldl (barStep (tally c) rect a n) s + barsBelow rect a n i c
        = s + barsBelow rect a n n c := by
  induction panes with
  | nil =>
    intro i s hi
    have hin : i = n := by simpa using hi
    rw [hin]
    rfl
  | cons p panes ih =>
    intro i s hi
    rw [length_cons] at hi
    have hstep := barsBelow_succ a (show i < n by omega) hn s p (c := c)
    have hrest := ih (i + 1) (barStep (tally c) rect a n s (p, i)) (by omega)
    rw [zipIdx_cons, foldl_cons]
    omega

theorem visitStack_tally {panes : List PaneId} (hne : panes ≠ []) (active : Nat) (rect : Rect)
    (c : Nat × Nat) (s : Nat) :
    visitStack (tally c) (tally c) panes active rect s = s + if rect.Has c then 1 else 0 := by
  have hpos : 0 < panes.length := length_pos_iff.mpr hne
  unfold visitStack
  dsimp only
  generalize ha : (if active < panes.length then active else 0) = a
  have hlt : a < panes.length := by
    rw [← ha]
    split_ifs <;> omega
  rw [List.getElem?_eq_getElem hlt]
  dsimp only
  by_cases hsmall : panes.length - 1 = 0 ∨ rect.cols < 2
      ∨ rect.rows < panes.length - 1 + stackMinExpandedRows
  · rw [if_pos hsmall]
    rfl
  · rw [if_neg hsmall]
    unfold stackMinExpandedRows at hsmall
    have hfold := foldl_barStep a (show panes.length ≤ rect.rows by omega) panes 0 s
      (by omega) (c := c)
    rw [tally]
    unfold barsBelow at hfold
    rw [if_pos (Nat.zero_le a), if_neg (show ¬ panes.length ≤ a by omega)] at hfold
    -- above, expanded member, below: three strips of the rectangle
    have hcut1 := childRect_cut .col rect c 0 a (rect.rows - (panes.length - 1))
    have hcut2 := childRect_cut .col rect c 0 (a + (rect.rows - (panes.length - 1)))
      (panes.length - a - 1)
    have hzero : ¬ (childRect .col rect 0 0).Has c := by
      simp only [childRect, Rect.Has]
      omega
    have hwhole : childRect .col rect 0 (a + (rect.rows - (panes.length - 1))
        + (panes.length - a - 1)) = rect := by
      have hsum : a + (rect.rows - (panes.length - 1)) + (panes.length - a - 1) = rect.rows := by
        omega
      rw [hsum]
      exact childRect_whole .col rect
    have hbelow : rect.rows - panes.length + a + 1
        = 0 + (a + (rect.rows - (panes.length - 1))) := by
      omega
    have hmid : (⟨rect.x, rect.y + a, rect.cols, rect.rows - (panes.length - 1)⟩ : Rect)
        = childRect .col rect (0 + a) (rect.rows - (panes.length - 1)) := by
      simp [childRect]
    rw [hwhole] at hcut2
    rw [if_neg hzero, hbelow] at hfold
    rw [hmid]
    omega

/-- **Every cell of the rectangle is counted once.** -/
theorem visitLayout_tally {W : Type} (share : List W → Nat → Nat → Nat) (c : Nat × Nat)
    (t : CenterTree W) :
    t.NoEmpty → ∀ (rect : Rect) (s : Nat),
      t.visitLayout share (tally c) (tally c) rect s = s + if rect.Has c then 1 else 0 := by
  induction t using CenterTree.ind with
  | leaf p =>
    intro _ rect s
    rw [CenterTree.visitLayout]
    rfl
  | stack panes active =>
    intro hne rect s
    rw [CenterTree.NoEmpty] at hne
    rw [CenterTree.visitLayout, visitStack_tally hne]
  | split dir children ih =>
    intro hne rect s
    rw [CenterTree.NoEmpty] at hne
    rw [CenterTree.visitLayout]
    generalize (fun i => share (children.map Branch.weight) i (rect.extent dir)) = rounded
    have key : ∀ (bs : List (Branch W)), bs ≠ [] → (∀ b ∈ bs, b ∈ children) → NoEmptyIn bs →
        ∀ (i offset s : Nat), i + bs.length = children.length → offset ≤ rect.extent dir →
          visitBranches share (tally c) (tally c) dir rect (rect.extent dir) rounded
              children.length bs i offset s
            = s + if (childRect dir rect offset (rect.extent dir - offset)).Has c then 1
              else 0 := by
      intro bs
      induction bs with
      | nil => intro h; exact absurd rfl h
      | cons b bs ihbs =>
        intro _ hsub hno i offset s hi hle
        have hb := ih b (hsub b (by simp))
        obtain ⟨w, child⟩ := b
        rw [NoEmptyIn] at hno
        rw [length_cons] at hi
        rw [visitBranches, hb hno.1]
        by_cases hlast : bs = []
        · -- the last child takes the rest
          have hn : i + 1 = children.length := by
            rw [hlast, length_nil] at hi
            omega
          rw [hlast, visitBranches, if_pos hn]
        · have hpos : 0 < bs.length := length_pos_iff.mpr hlast
          have hn : ¬ i + 1 = children.length := by omega
          rw [if_neg hn]
          set size := min (rounded i) (rect.extent dir - offset) with hsize
          have hle' : size ≤ rect.extent dir - offset := Nat.min_le_right _ _
          have hcut := childRect_cut dir rect c offset size (rect.extent dir - (offset + size))
          have hsum : size + (rect.extent dir - (offset + size)) = rect.extent dir - offset := by
            omega
          rw [hsum] at hcut
          rw [ihbs hlast (fun x hx => hsub x (by simp [hx])) hno.2 (i + 1) (offset + size) _
            (by omega) (by omega)]
          omega
    have h := key children hne.1 (fun b hb => hb) hne.2 0 0 s (by omega) (Nat.zero_le _)
    rw [h, Nat.sub_zero, childRect_whole]

/-! ## Staying inside -/

/-- `r` lies inside `R`, as rectangles: this says something of empty rectangles too. -/
def Rect.Inside (r R : Rect) : Prop :=
  (R.x ≤ r.x ∧ r.x + r.cols ≤ R.x + R.cols) ∧ R.y ≤ r.y ∧ r.y + r.rows ≤ R.y + R.rows

theorem Rect.Inside.refl (R : Rect) : R.Inside R := by
  unfold Rect.Inside
  omega

theorem Rect.Inside.trans {r s R : Rect} (h1 : r.Inside s) (h2 : s.Inside R) : r.Inside R := by
  unfold Rect.Inside at *
  omega

/-- A part of a rectangle lies inside it. -/
theorem childRect_inside {dir : Dir} {rect : Rect} {offset size : Nat}
    (h : offset + size ≤ rect.extent dir) : (childRect dir rect offset size).Inside rect := by
  cases dir with
  | row =>
    simp only [Rect.extent] at h
    simp only [childRect, Rect.Inside]
    omega
  | col =>
    simp only [Rect.extent] at h
    simp only [childRect, Rect.Inside]
    omega

/-- Note whether every rectangle so far is inside `R`. -/
def within (R : Rect) (s : Prop) (_ : PaneId) (r : Rect) : Prop := s ∧ r.Inside R

theorem barStep_within {rect R : Rect} {a n i : Nat} (hR : rect.Inside R) (hi : i < n)
    (hn : n ≤ rect.rows) (s : Prop) (p : PaneId) (hs : s) :
    barStep (within R) rect a n s (p, i) := by
  unfold barStep within
  dsimp only
  simp only [Rect.Inside] at hR ⊢
  split_ifs
  · exact ⟨hs, by omega⟩
  · exact ⟨hs, by omega⟩
  · exact hs

theorem visitStack_within {rect R : Rect} (hR : rect.Inside R) (panes : List PaneId) (active : Nat)
    (s : Prop) (hs : s) : visitStack (within R) (within R) panes active rect s := by
  unfold visitStack
  dsimp only
  generalize (if active < panes.length then active else 0) = a
  cases hp : panes[a]? with
  | none => exact hs
  | some p =>
    have hlt : a < panes.length := by
      by_contra hc
      rw [List.getElem?_eq_none (by omega)] at hp
      cases hp
    dsimp only
    by_cases hsmall : panes.length - 1 = 0 ∨ rect.cols < 2
        ∨ rect.rows < panes.length - 1 + stackMinExpandedRows
    · rw [if_pos hsmall]
      exact ⟨hs, hR⟩
    · rw [if_neg hsmall]
      unfold stackMinExpandedRows at hsmall
      have hfold : ∀ (ps : List PaneId) (i : Nat) (s : Prop), s → i + ps.length ≤ panes.length →
          (ps.zipIdx i).foldl (barStep (within R) rect a panes.length) s := by
        intro ps
        induction ps with
        | nil => intro i s hs _; exact hs
        | cons p ps ih =>
          intro i s hs hi
          rw [length_cons] at hi
          rw [zipIdx_cons, foldl_cons]
          exact ih (i + 1) _ (barStep_within hR (by omega) (by omega) s p hs) (by omega)
      refine ⟨hfold panes 0 s hs (by omega), ?_⟩
      simp only [Rect.Inside] at hR ⊢
      omega

/-- **Nothing is placed outside the rectangle.** -/
theorem visitLayout_within {W : Type} (share : List W → Nat → Nat → Nat) {R : Rect}
    (t : CenterTree W) :
    ∀ (rect : Rect) (s : Prop), rect.Inside R → s →
      t.visitLayout share (within R) (within R) rect s := by
  induction t using CenterTree.ind with
  | leaf p =>
    intro rect s hR hs
    rw [CenterTree.visitLayout]
    exact ⟨hs, hR⟩
  | stack panes active =>
    intro rect s hR hs
    rw [CenterTree.visitLayout]
    exact visitStack_within hR panes active s hs
  | split dir children ih =>
    intro rect s hR hs
    rw [CenterTree.visitLayout]
    generalize (fun i => share (children.map Branch.weight) i (rect.extent dir)) = rounded
    generalize children.length = n
    have key : ∀ (bs : List (Branch W)), (∀ b ∈ bs, b ∈ children) →
        ∀ (i offset : Nat) (s : Prop), offset ≤ rect.extent dir → s →
          visitBranches share (within R) (within R) dir rect (rect.extent dir) rounded n bs i
            offset s := by
      intro bs
      induction bs with
      | nil =>
        intro _ i offset s _ hs
        rw [visitBranches]
        exact hs
      | cons b bs ihbs =>
        intro hsub i offset s hle hs
        have hb := ih b (hsub b (by simp))
        obtain ⟨w, child⟩ := b
        rw [visitBranches]
        set size := if i + 1 = n then rect.extent dir - offset
          else min (rounded i) (rect.extent dir - offset) with hsize
        have hfit : offset + size ≤ rect.extent dir := by
          rw [hsize]
          split_ifs <;> omega
        refine ihbs (fun c hc => hsub c (by simp [hc])) (i + 1) (offset + size) _ hfit ?_
        exact hb _ s ((childRect_inside hfit).trans hR) hs
    exact key children (fun b hb => hb) 0 0 s (Nat.zero_le _) hs

/-! ## The layout tiles its rectangle -/

section

variable {W : Type} {share : List W → Nat → Nat → Nat}

/-- The closures of `layoutFramedWithBars`. -/
def pushFrame (pad : Nat) (st : FramedLayout) (p : PaneId) (r : Rect) : FramedLayout :=
  { st with frames := st.frames ++ [(p, r, inset pad r)] }

def pushBar (st : FramedLayout) (p : PaneId) (r : Rect) : FramedLayout :=
  { st with bars := st.bars ++ [(p, r)] }

theorem layoutFramedWithBars_def (pad : Nat) (t : CenterTree W) (rect : Rect) :
    t.layoutFramedWithBars share pad rect
      = t.visitLayout share (pushFrame pad) pushBar rect { frames := [], bars := [] } := rfl

/-- **One walk collects what the separate walks collect.** -/
theorem layoutFramedWithBars_eq (pad : Nat) (t : CenterTree W) (rect : Rect) :
    t.layoutFramedWithBars share pad rect
      = { frames := (t.layout share rect).map (fun q => (q.1, q.2, inset pad q.2))
          bars := t.stackBars share rect } := by
  have hframes : (t.layoutFramedWithBars share pad rect).frames
      = (t.layout share rect).map (fun q => (q.1, q.2, inset pad q.2)) := by
    have h1 : (t.layoutFramedWithBars share pad rect).frames
        = t.visitLayout share (fun out p r => out ++ [(p, r, inset pad r)]) (fun out _ _ => out)
            rect [] := by
      rw [layoutFramedWithBars_def]
      exact visitLayout_hom (fun _ _ _ => rfl) (fun _ _ _ => rfl) t rect _
    have h2 : (t.layout share rect).map (fun q => (q.1, q.2, inset pad q.2))
        = t.visitLayout share (fun out p r => out ++ [(p, r, inset pad r)]) (fun out _ _ => out)
            rect [] := by
      rw [CenterTree.layout]
      refine visitLayout_hom (h := List.map (fun q : PaneId × Rect => (q.1, q.2, inset pad q.2)))
        (fun out p r => ?_) (fun _ _ _ => rfl) t rect []
      rw [map_append]
      rfl
    rw [h1, h2]
  have hbars : (t.layoutFramedWithBars share pad rect).bars = t.stackBars share rect := by
    rw [layoutFramedWithBars_def, CenterTree.stackBars]
    exact visitLayout_hom (fun _ _ _ => rfl) (fun _ _ _ => rfl) t rect _
  rw [← hframes, ← hbars]

/-- All rectangles of a layout: the panes', then the bars'. -/
def CenterTree.rects (share : List W → Nat → Nat → Nat) (t : CenterTree W) (rect : Rect) :
    List Rect :=
  (t.layout share rect ++ t.stackBars share rect).map Prod.snd

/-- Anything collected over panes and bars alike is collected over `rects`. -/
theorem visitLayout_rects (share : List W → Nat → Nat → Nat) {τ : Type} {f : τ → PaneId → Rect → τ}
    {h : List Rect → τ}
    (hf : ∀ (as bs : List Rect) (p : PaneId) (r : Rect), h (as ++ r :: bs) = f (h (as ++ bs)) p r)
    (t : CenterTree W) (rect : Rect) :
    h (t.rects share rect) = t.visitLayout share f f rect (h []) := by
  have hrects : t.rects share rect = (t.layoutFramedWithBars share 0 rect).frames.map
    (fun q => q.2.1) ++ (t.layoutFramedWithBars share 0 rect).bars.map Prod.snd := by
    rw [layoutFramedWithBars_eq, CenterTree.rects, map_append, map_map]
    rfl
  rw [hrects, layoutFramedWithBars_def]
  refine visitLayout_hom (h := fun st : FramedLayout =>
    h (st.frames.map (fun q => q.2.1) ++ st.bars.map Prod.snd)) ?_ ?_ t rect
    { frames := [], bars := [] }
  · intro st p r
    simp only [pushFrame, map_append, map_cons, map_nil, append_assoc, singleton_append]
    exact hf _ _ p r
  · intro st p r
    have := hf (st.frames.map (fun q => q.2.1) ++ st.bars.map Prod.snd) [] p r
    simp only [pushBar, map_append, map_cons, map_nil]
    rw [← append_assoc, this, append_nil]

theorem rects_tiles (share : List W → Nat → Nat → Nat) {t : CenterTree W} (ht : t.NoEmpty)
    (rect : Rect) : Tiles Rect.Has (t.rects share rect) rect := by
  intro c
  have h := visitLayout_rects share (f := tally c) (h := fun rs => cover Rect.Has rs c)
    (fun as bs _ r => ?_) t rect
  · rw [h, visitLayout_tally share c t ht]
    show 0 + _ = _
    rw [Nat.zero_add]
  · show cover Rect.Has (as ++ ([r] ++ bs)) c = cover Rect.Has (as ++ bs) c + _
    have hone : cover Rect.Has [r] c = if r.Has c then 1 else 0 := by
      simp [cover, countP_cons]
    rw [cover_append, cover_append, cover_append, hone]
    omega

/-- **The pane tree tiles its area**: whatever the rounding, the rectangles of panes and bars lie
inside, are pairwise disjoint, and cover each cell exactly once; and the walk that collects frames
and bars together reports the same two lists. -/
theorem layout_tiles (share : List W → Nat → Nat → Nat) {t : CenterTree W} (ht : t.NoEmpty)
    (rect : Rect) (pad : Nat) :
    (∀ r ∈ t.rects share rect, r.Inside rect)
      ∧ (t.rects share rect).Pairwise (fun r s => ∀ c, ¬ (r.Has c ∧ s.Has c))
      ∧ (∀ c, rect.Has c → (t.rects share rect).countP (fun r => r.Has c) = 1)
      ∧ t.layoutFramedWithBars share pad rect
        = { frames := (t.layout share rect).map (fun q => (q.1, q.2, inset pad q.2))
            bars := t.stackBars share rect } := by
  have htiles := rects_tiles share ht rect
  refine ⟨?_, htiles.pairwise_disjoint, fun c hc => htiles.cover_eq_one hc,
    layoutFramedWithBars_eq pad t rect⟩
  have h := visitLayout_rects share (f := within rect)
    (h := fun rs => ∀ r ∈ rs, r.Inside rect) (fun as bs _ r => ?_) t rect
  · rw [h]
    exact visitLayout_within share t rect _ (Rect.Inside.refl rect) (by simp)
  · simp only [within, mem_append, mem_cons, eq_iff_iff]
    constructor
    · intro hall
      exact ⟨fun x hx => hall x (hx.imp_right Or.inr), hall r (Or.inr (Or.inl rfl))⟩
    · rintro ⟨hall, hr⟩ x (hx | rfl | hx)
      · exact hall x (Or.inl hx)
      · exact hr
      · exact hall x (Or.inr hx)

end

/-- Shares of whole-number weights, rounded half up. -/
def roundedShare (ws : List Nat) (i extent : Nat) : Nat :=
  (2 * ws.getD i 0 * extent + ws.sum) / (2 * ws.sum)

/-- A pane beside a stack of three. -/
def besideStack : CenterTree Nat := .split .row [.mk 1 (.leaf 1), .mk 2 (.stack [2, 3, 4] 1)]

theorem besideStack_tiles :
    (∀ r ∈ besideStack.rects roundedShare ⟨0, 0, 10, 20⟩, r.Inside ⟨0, 0, 10, 20⟩)
      ∧ (besideStack.rects roundedShare ⟨0, 0, 10, 20⟩).Pairwise
        (fun r s => ∀ c, ¬ (r.Has c ∧ s.Has c))
      ∧ (besideStack.rects roundedShare ⟨0, 0, 10, 20⟩).countP (fun r => r.Has (5, 7)) = 1 := by
  have hne : besideStack.NoEmpty := by simp [besideStack, CenterTree.NoEmpty, NoEmptyIn]
  obtain ⟨hin, hdis, hcover, -⟩ := layout_tiles roundedShare hne ⟨0, 0, 10, 20⟩ 0
  exact ⟨hin, hdis, hcover (5, 7) (by decide)⟩

end Thegn.Pane
