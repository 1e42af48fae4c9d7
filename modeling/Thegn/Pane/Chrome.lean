import Thegn.Pane.Layout

set_option autoImplicit false

/-! # The chrome cross around the center

`computeFullBars` cuts the window into the fixed surfaces around the center: the bars at the top
and at the bottom, the sidebar and the panel with their separator columns, and the center column
with its tab bar, its strip and a drawer. Sizes are taken off what is left by saturating
subtraction, and a loop gives columns back until the center keeps one.

The two products of a size and a floating-point ratio are parameters: `half cols` is the rounded
half-width panel and `round rows` the rounded strip. Whatever they are, the surfaces tile the
window (`chrome_tiles`).
-/

namespace Thegn.Pane

open Tiling List

/-! ## The surfaces -/

def panelMinCols : Nat := 100
def sidebarMinCols : Nat := 76
def mastheadRows : Nat := 1
def statusbarRows : Nat := 1
def panelCols : Nat := 44
def railCols : Nat := 4
def stripMinRows : Nat := 3
def sidebarMinWidth : Nat := 12

/-- The right panel's width state. -/
inductive PanelWidth where
  | normal
  | half
  | full
  deriving DecidableEq, Repr

structure ChromeLayout where
  masthead : Rect
  divider : Rect
  statusbar : Rect
  sidebar : Option Rect
  panel : Option Rect
  /-- The column of the separator between the sidebar and the center. -/
  sepLeft : Option Nat
  /-- The column of the separator between the center and the panel. -/
  sepRight : Option Nat
  centerTabs : Rect
  strip : Option Rect
  center : Rect
  drawer : Option Rect
  drawerDivider : Option Rect
  deriving DecidableEq, Repr

/-- The panel's resting width: the configured one, where 0 stands for none. -/
def panelNormalCols (stored : Nat) : Nat := if stored = 0 then panelCols else stored

/-- The columns two sides of these widths need, with their separators and one for the center. -/
def used (l r : Nat) : Nat := l + r + (if 0 < l then 1 else 0) + (if 0 < r then 1 else 0) + 1

/-- The shrink loop: the wider side gives a column back until both fit. -/
def shrink (cols left right : Nat) : Nat × Nat :=
  if cols < used left right ∧ (0 < left ∨ 0 < right) then
    if left ≤ right ∧ 0 < right then shrink cols left (right - 1)
    else if 0 < left then shrink cols (left - 1) right
    else (left, right)
  else (left, right)
termination_by left + right

/-- The bottom drawer: the center, the drawer and its divider. Either its rows have been reserved
below the columns, where `divY` is the first free row, or they are carved from the bottom of the
center. -/
def placeDrawer (cols divY fullDrawerRows drawerRows : Nat) (drawerFullWidth : Bool)
    (center : Rect) : Rect × Option Rect × Option Rect :=
  if 0 < fullDrawerRows then
    (center, some { x := 0, y := divY + 1, cols, rows := fullDrawerRows },
      some { x := 0, y := divY, cols, rows := 1 })
  else if 0 < drawerRows ∧ ¬ drawerFullWidth ∧ drawerRows + 1 + stripMinRows ≤ center.rows then
    let center := { center with rows := center.rows - (drawerRows + 1) }
    let divY := center.y + center.rows
    (center, some { x := center.x, y := divY + 1, cols := center.cols, rows := drawerRows },
      some { x := center.x, y := divY, cols := center.cols, rows := 1 })
  else (center, none, none)

section Compute

variable (half round : Nat → Nat) (stored : Nat)

/-- The chrome cross of a `cols` by `rows` window. -/
def computeFullBars (cols rows : Nat) (wantSidebar wantPanel panelForced : Bool)
    (panelWidth : PanelWidth) (sidebarCols : Nat) (wantStrip : Bool) (drawerRows : Nat)
    (drawerFullWidth wantMasthead wantStatusbar : Bool) : ChromeLayout :=
  let rail := decide (sidebarCols ≤ railCols)
  let showSidebar :=
    wantSidebar && (rail || decide (sidebarMinCols ≤ cols)) && decide (panelWidth ≠ .full)
  let showPanel := wantPanel && (decide (panelMinCols ≤ cols) || panelForced)
  let masthead : Rect :=
    { x := 0, y := 0, cols, rows := if wantMasthead then min mastheadRows rows else 0 }
  let statusRows := if wantStatusbar then min (rows - masthead.rows) statusbarRows else 0
  let statusbar : Rect := { x := 0, y := rows - statusRows, cols, rows := statusRows }
  let dividerRows := min (rows - (masthead.rows + statusbar.rows)) 1
  let divider : Rect := { x := 0, y := masthead.rows, cols, rows := dividerRows }
  let bandY := masthead.rows + dividerRows
  let bandRows := rows - (bandY + statusbar.rows)
  let fullDrawerRows :=
    if 0 < drawerRows ∧ drawerFullWidth ∧ drawerRows + 1 + stripMinRows ≤ bandRows then drawerRows
    else 0
  let drawerReserve := if 0 < fullDrawerRows then fullDrawerRows + 1 else 0
  let colRows := bandRows - drawerReserve
  let left :=
    if showSidebar then max sidebarCols (if rail then railCols else sidebarMinWidth) else 0
  let right :=
    if showPanel then
      match panelWidth with
      | .normal => panelNormalCols stored
      | .half => max (half cols) (panelNormalCols stored)
      | .full => cols - 2
    else 0
  let sides := shrink cols left right
  let left := sides.1
  let right := sides.2
  let sepLeftW := if 0 < left then 1 else 0
  let sepRightW := if 0 < right then 1 else 0
  let panelX := cols - right
  let centerX := left + sepLeftW
  let centerCols := cols - (left + sepLeftW + sepRightW + right)
  let tabsRows := min colRows 1
  let columnRows := colRows - tabsRows
  let stripRows :=
    if wantStrip then
      let r := max (round columnRows) stripMinRows
      if r + stripMinRows ≤ columnRows then r else 0
    else 0
  let center : Rect :=
    { x := centerX, y := bandY + tabsRows + stripRows, cols := centerCols,
      rows := colRows - (tabsRows + stripRows) }
  let bottom := placeDrawer cols (bandY + colRows) fullDrawerRows drawerRows drawerFullWidth center
  { masthead := masthead
    divider := divider
    statusbar := statusbar
    sidebar := if 0 < left then some { x := 0, y := bandY, cols := left, rows := colRows } else none
    panel :=
      if 0 < right then some { x := panelX, y := bandY, cols := right, rows := colRows } else none
    sepLeft := if 0 < left then some left else none
    sepRight := if 0 < right then some (panelX - 1) else none
    centerTabs := { x := centerX, y := bandY, cols := centerCols, rows := tabsRows }
    strip :=
      if 0 < stripRows then
        some { x := centerX, y := bandY + tabsRows, cols := centerCols, rows := stripRows }
      else none
    center := bottom.1
    drawer := bottom.2.1
    drawerDivider := bottom.2.2 }

end Compute

/-! ## The surfaces of a layout -/

/-- The column of the left separator, beside the sidebar. -/
def ChromeLayout.sepLeftRect (l : ChromeLayout) : Option Rect :=
  l.sepLeft.bind fun x => l.sidebar.map fun s => { x, y := s.y, cols := 1, rows := s.rows }

/-- The column of the right separator, beside the panel. -/
def ChromeLayout.sepRightRect (l : ChromeLayout) : Option Rect :=
  l.sepRight.bind fun x => l.panel.map fun p => { x, y := p.y, cols := 1, rows := p.rows }

/-- All surfaces, from the top of the window to the bottom. -/
def ChromeLayout.surfaces (l : ChromeLayout) : List Rect :=
  [l.masthead, l.divider] ++ l.sidebar.toList ++ l.sepLeftRect.toList ++ [l.centerTabs]
    ++ l.strip.toList ++ [l.center] ++ l.sepRightRect.toList ++ l.panel.toList
    ++ l.drawerDivider.toList ++ l.drawer.toList ++ [l.statusbar]

/-- The whole window. -/
def window (cols rows : Nat) : Rect := { x := 0, y := 0, cols, rows }

/-- The surfaces lie inside the window, are pairwise disjoint and have each of its cells once; and
the center has a column. -/
structure ChromeLayout.Covers (l : ChromeLayout) (cols rows : Nat) : Prop where
  inside : ∀ r ∈ l.surfaces, r.Inside (window cols rows)
  disjoint : l.surfaces.Pairwise fun r s => ∀ c, ¬ (r.Has c ∧ s.Has c)
  covered : ∀ c, (window cols rows).Has c → l.surfaces.countP (fun r => r.Has c) = 1
  center : 0 < cols → 0 < l.center.cols

/-! ## Cutting a rectangle into slices -/

/-- The slices of a rectangle along an axis, one after the other. -/
def slices (dir : Dir) (rect : Rect) : Nat → List Nat → List Rect
  | _, [] => []
  | offset, size :: sizes => childRect dir rect offset size :: slices dir rect (offset + size) sizes

/-- One for a cell of the rectangle, nothing for any other. -/
def Rect.hit (r : Rect) (c : Nat × Nat) : Nat := if r.Has c then 1 else 0

theorem hit_empty_cols (x y h : Nat) (c : Nat × Nat) : (⟨x, y, 0, h⟩ : Rect).hit c = 0 := by
  rw [Rect.hit, if_neg]
  simp only [Rect.Has]
  omega

theorem hit_empty_rows (x y w : Nat) (c : Nat × Nat) : (⟨x, y, w, 0⟩ : Rect).hit c = 0 := by
  rw [Rect.hit, if_neg]
  simp only [Rect.Has]
  omega

theorem cover_nil (c : Nat × Nat) : cover Rect.Has [] c = 0 := rfl

theorem cover_cons (r : Rect) (rs : List Rect) (c : Nat × Nat) :
    cover Rect.Has (r :: rs) c = r.hit c + cover Rect.Has rs c := by
  rw [show r :: rs = [r] ++ rs from rfl, cover_append]
  by_cases h : r.Has c <;> simp [cover, Rect.hit, h]

theorem cover_slices (dir : Dir) (rect : Rect) (c : Nat × Nat) (sizes : List Nat) :
    ∀ offset, cover Rect.Has (slices dir rect offset sizes) c
      = (childRect dir rect offset sizes.sum).hit c := by
  induction sizes with
  | nil =>
    intro offset
    rw [slices, cover_nil, sum_nil]
    cases dir with
    | row => exact (hit_empty_cols _ _ _ c).symm
    | col => exact (hit_empty_rows _ _ _ c).symm
  | cons size sizes ih =>
    intro offset
    rw [slices, cover_cons, ih, sum_cons]
    exact childRect_cut dir rect c offset size sizes.sum

/-- Slices that use up the rectangle cover its cells once. -/
theorem cover_slices_whole (dir : Dir) (rect : Rect) (sizes : List Nat)
    (h : sizes.sum = rect.extent dir) (c : Nat × Nat) :
    cover Rect.Has (slices dir rect 0 sizes) c = rect.hit c := by
  rw [cover_slices, h, childRect_whole]

/-- An absent surface counts as one without columns. -/
theorem cover_if_cols (p : Prop) [Decidable p] (x y w h : Nat) (c : Nat × Nat) :
    cover Rect.Has (if p then some ⟨x, y, w, h⟩ else none).toList c
      = (⟨x, y, if p then w else 0, h⟩ : Rect).hit c := by
  by_cases hp : p
  · rw [if_pos hp, if_pos hp]
    exact cover_cons _ [] c
  · rw [if_neg hp, if_neg hp, hit_empty_cols]
    rfl

/-- One of two surfaces, or none, where the other would be empty. -/
theorem cover_either {p q : Prop} [Decidable p] [Decidable q] {r r' : Rect} {c : Nat × Nat}
    (hp : p → r'.hit c = 0) (hnp : ¬ p → r.hit c = 0) (hnq : ¬ q → r'.hit c = 0) :
    cover Rect.Has (if p then some r else if q then some r' else none).toList c
      = r.hit c + r'.hit c := by
  by_cases h : p
  · rw [if_pos h, hp h]
    exact cover_cons r [] c
  · rw [if_neg h, hnp h, Nat.zero_add]
    by_cases h' : q
    · rw [if_pos h']
      exact cover_cons r' [] c
    · rw [if_neg h', hnq h']
      rfl

/-- A size is kept where it is positive. -/
theorem if_pos_self (n : Nat) : (if 0 < n then n else 0) = n := by
  split_ifs <;> omega

/-- A separator is there when the surface beside it is. -/
theorem separator_eq (p : Prop) [Decidable p] (x : Nat) (r : Rect) :
    ((if p then some x else none).bind fun x => (if p then some r else none).map fun s =>
        ({ x, y := s.y, cols := 1, rows := s.rows } : Rect))
      = if p then some { x, y := r.y, cols := 1, rows := r.rows } else none := by
  by_cases hp : p
  · simp only [if_pos hp, Option.bind_some, Option.map_some]
  · simp only [if_neg hp, Option.bind_none]

/-! ## The shrink loop -/

/-- The loop ends with sides that leave the center a column, or with no sides at all. -/
theorem shrink_fits (cols left right : Nat) :
    used (shrink cols left right).1 (shrink cols left right).2 ≤ cols
      ∨ shrink cols left right = (0, 0) := by
  fun_induction shrink cols left right with
  | case1 left right h hright ih => exact ih
  | case2 left right h hright hleft ih => exact ih
  | case3 left right h hright hleft =>
    right
    simp only [Prod.mk.injEq]
    omega
  | case4 left right h =>
    by_cases hcols : cols < used left right
    · right
      simp only [Prod.mk.injEq]
      omega
    · left
      show used left right ≤ cols
      omega

/-- The sides, their separators and the center together are as wide as the window. -/
theorem shrink_sum (cols left right : Nat) {sides : Nat × Nat}
    (h : sides = shrink cols left right) :
    sides.1 + (if 0 < sides.1 then 1 else 0)
        + (cols - (sides.1 + (if 0 < sides.1 then 1 else 0) + (if 0 < sides.2 then 1 else 0)
          + sides.2))
        + (if 0 < sides.2 then 1 else 0) + sides.2 = cols
      ∧ (0 < cols → sides.1 + (if 0 < sides.1 then 1 else 0) + (if 0 < sides.2 then 1 else 0)
        + sides.2 < cols) := by
  have hfits := shrink_fits cols left right
  rw [← h] at hfits
  rcases hfits with hle | hzero
  · unfold used at hle
    omega
  · rw [hzero]
    simp

/-! ## The cuts of the window -/

/-- The sizes the window is cut into: rows across it, then the columns of its middle, then the rows
of its center column. -/
structure Cross (cols rows : Nat) where
  masthead : Nat
  divider : Nat
  middle : Nat
  drawerDivider : Nat
  drawer : Nat
  statusbar : Nat
  sidebar : Nat
  sepLeft : Nat
  centerCols : Nat
  sepRight : Nat
  panel : Nat
  tabs : Nat
  strip : Nat
  center : Nat
  centerDivider : Nat
  centerDrawer : Nat
  rows_sum : masthead + divider + middle + drawerDivider + drawer + statusbar = rows
  cols_sum : sidebar + sepLeft + centerCols + sepRight + panel = cols
  center_sum : tabs + strip + center + centerDivider + centerDrawer = middle
  sepLeft_eq : sepLeft = if 0 < sidebar then 1 else 0
  sepRight_eq : sepRight = if 0 < panel then 1 else 0
  drawerDivider_eq : drawerDivider = if 0 < drawer then 1 else 0
  centerDivider_eq : centerDivider = if 0 < centerDrawer then 1 else 0
  one_drawer : drawer = 0 ∨ centerDrawer = 0

namespace Cross

variable {cols rows : Nat} (x : Cross cols rows)

/-- The first row of the middle. -/
def bandY : Nat := x.masthead + x.divider

/-- The first column of the center. -/
def centerX : Nat := x.sidebar + x.sepLeft

/-- The pieces, each with its place; the ones of size 0 are empty. -/
def pieces : List Rect :=
  [⟨0, 0, cols, x.masthead⟩, ⟨0, x.masthead, cols, x.divider⟩,
    ⟨0, x.bandY, x.sidebar, x.middle⟩, ⟨x.sidebar, x.bandY, x.sepLeft, x.middle⟩,
    ⟨x.centerX, x.bandY, x.centerCols, x.tabs⟩,
    ⟨x.centerX, x.bandY + x.tabs, x.centerCols, x.strip⟩,
    ⟨x.centerX, x.bandY + x.tabs + x.strip, x.centerCols, x.center⟩,
    ⟨x.centerX, x.bandY + x.tabs + x.strip + x.center, x.centerCols, x.centerDivider⟩,
    ⟨x.centerX, x.bandY + x.tabs + x.strip + x.center + x.centerDivider, x.centerCols,
      x.centerDrawer⟩,
    ⟨x.centerX + x.centerCols, x.bandY, x.sepRight, x.middle⟩,
    ⟨x.centerX + x.centerCols + x.sepRight, x.bandY, x.panel, x.middle⟩,
    ⟨0, x.bandY + x.middle, cols, x.drawerDivider⟩,
    ⟨0, x.bandY + x.middle + x.drawerDivider, cols, x.drawer⟩,
    ⟨0, x.bandY + x.middle + x.drawerDivider + x.drawer, cols, x.statusbar⟩]

/-- **The pieces cover each cell of the window once.** -/
theorem cover_pieces (c : Nat × Nat) : cover Rect.Has x.pieces c = (window cols rows).hit c := by
  have hrows := x.rows_sum
  have hcols := x.cols_sum
  have hcenter := x.center_sum
  have h1 := cover_slices_whole .col (window cols rows)
    [x.masthead, x.divider, x.middle, x.drawerDivider, x.drawer, x.statusbar]
    (by simp [window, Rect.extent]; omega) c
  have h2 := cover_slices_whole .row ⟨0, x.bandY, cols, x.middle⟩
    [x.sidebar, x.sepLeft, x.centerCols, x.sepRight, x.panel] (by simp [Rect.extent]; omega) c
  have h3 := cover_slices_whole .col ⟨x.centerX, x.bandY, x.centerCols, x.middle⟩
    [x.tabs, x.strip, x.center, x.centerDivider, x.centerDrawer] (by simp [Rect.extent]; omega) c
  simp only [pieces, bandY, centerX, slices, childRect, window, cover_cons, cover_nil, Nat.zero_add,
    Nat.add_zero, ← Nat.add_assoc] at h1 h2 h3 ⊢
  omega

/-- The pieces lie inside the window, the empty ones too. -/
theorem inside_pieces {r : Rect} (hr : r ∈ x.pieces) : r.Inside (window cols rows) := by
  have hrows := x.rows_sum
  have hcols := x.cols_sum
  have hcenter := x.center_sum
  simp only [pieces, bandY, centerX, mem_cons, not_mem_nil, or_false] at hr
  rcases hr with rfl | rfl | rfl | rfl | rfl | rfl | rfl | rfl | rfl | rfl | rfl | rfl | rfl
    | rfl <;>
    simp only [Rect.Inside, window] <;> omega

/-- The layout with these sizes. -/
def layout : ChromeLayout :=
  { masthead := ⟨0, 0, cols, x.masthead⟩
    divider := ⟨0, x.masthead, cols, x.divider⟩
    statusbar := ⟨0, x.bandY + x.middle + x.drawerDivider + x.drawer, cols, x.statusbar⟩
    sidebar := if 0 < x.sidebar then some ⟨0, x.bandY, x.sidebar, x.middle⟩ else none
    panel :=
      if 0 < x.panel then
        some ⟨x.centerX + x.centerCols + x.sepRight, x.bandY, x.panel, x.middle⟩
      else none
    sepLeft := if 0 < x.sidebar then some x.sidebar else none
    sepRight := if 0 < x.panel then some (x.centerX + x.centerCols) else none
    centerTabs := ⟨x.centerX, x.bandY, x.centerCols, x.tabs⟩
    strip :=
      if 0 < x.strip then some ⟨x.centerX, x.bandY + x.tabs, x.centerCols, x.strip⟩ else none
    center := ⟨x.centerX, x.bandY + x.tabs + x.strip, x.centerCols, x.center⟩
    drawer :=
      if 0 < x.drawer then some ⟨0, x.bandY + x.middle + x.drawerDivider, cols, x.drawer⟩
      else if 0 < x.centerDrawer then
        some ⟨x.centerX, x.bandY + x.tabs + x.strip + x.center + x.centerDivider, x.centerCols,
          x.centerDrawer⟩
      else none
    drawerDivider :=
      if 0 < x.drawer then some ⟨0, x.bandY + x.middle, cols, x.drawerDivider⟩
      else if 0 < x.centerDrawer then
        some ⟨x.centerX, x.bandY + x.tabs + x.strip + x.center, x.centerCols, x.centerDivider⟩
      else none }

/-- **The surfaces cover each cell of the window once.** -/
theorem cover_surfaces (c : Nat × Nat) :
    cover Rect.Has x.layout.surfaces c = (window cols rows).hit c := by
  have hl := x.sepLeft_eq
  have hr := x.sepRight_eq
  have hd := x.drawerDivider_eq
  have hc := x.centerDivider_eq
  have hone := x.one_drawer
  rw [← x.cover_pieces c]
  simp only [layout, ChromeLayout.surfaces, ChromeLayout.sepLeftRect, ChromeLayout.sepRightRect,
    separator_eq, cover_append, cover_cons, cover_nil, cover_if_cols, ← hl, ← hr,
    if_pos_self, pieces]
  have hstrip : (⟨x.centerX, x.bandY + x.tabs, if 0 < x.strip then x.centerCols else 0, x.strip⟩ :
    Rect).hit c = (⟨x.centerX, x.bandY + x.tabs, x.centerCols, x.strip⟩ : Rect).hit c := by
    by_cases h : 0 < x.strip
    · rw [if_pos h]
    · rw [if_neg h, Nat.eq_zero_of_not_pos h, hit_empty_rows, hit_empty_rows]
  -- a surface whose size is 0 is empty
  have hempty : ∀ {a b w n : Nat}, n = 0 → (⟨a, b, w, n⟩ : Rect).hit c = 0 := by
    rintro a b w n rfl
    exact hit_empty_rows a b w c
  rw [hstrip, cover_either, cover_either]
  · omega
  all_goals
    intro h
    apply hempty
    first
      | omega
      | (rw [hc, if_neg]; omega)
      | (rw [hd, if_neg]; omega)

theorem mem_if {p : Prop} [Decidable p] {r s : Rect} :
    r ∈ (if p then some s else none).toList ↔ p ∧ r = s := by
  by_cases hp : p
  · simp [hp]
  · simp [hp]

theorem mem_either {p q : Prop} [Decidable p] [Decidable q] {r s s' : Rect}
    (h : r ∈ (if p then some s else if q then some s' else none).toList) : r = s ∨ r = s' := by
  by_cases hp : p
  · left
    simpa [hp] using h
  · rw [if_neg hp] at h
    right
    exact (mem_if.mp h).2

/-- The surfaces are among the pieces. -/
theorem mem_pieces {r : Rect} (hr : r ∈ x.layout.surfaces) : r ∈ x.pieces := by
  have hsl := x.sepLeft_eq
  have hsr := x.sepRight_eq
  simp only [layout, ChromeLayout.surfaces, ChromeLayout.sepLeftRect, ChromeLayout.sepRightRect,
    separator_eq, mem_append, mem_if, mem_cons, not_mem_nil, or_false] at hr
  simp only [pieces, mem_cons, not_mem_nil, or_false]
  rcases hr with ((((((((((rfl | rfl) | ⟨-, rfl⟩) | ⟨h, rfl⟩) | rfl) | ⟨-, rfl⟩) | rfl) | ⟨h, rfl⟩)
    | ⟨-, rfl⟩) | h)
    | h) | rfl
  · simp
  · simp
  · simp
  · rw [if_pos h] at hsl
    simp [hsl]
  · simp
  · simp
  · simp
  · rw [if_pos h] at hsr
    simp [hsr]
  · simp
  · rcases mem_either h with rfl | rfl <;> simp
  · rcases mem_either h with rfl | rfl <;> simp
  · simp

end Cross

/-! ## The surfaces tile the window -/

section

variable (half round : Nat → Nat) (stored : Nat) (cols rows : Nat)
  (wantSidebar wantPanel panelForced : Bool) (panelWidth : PanelWidth) (sidebarCols : Nat)
  (wantStrip : Bool) (drawerRows : Nat) (drawerFullWidth wantMasthead wantStatusbar : Bool)

/-- The code computes the layout of such a cross, and leaves the center a column. -/
theorem exists_cross :
    ∃ x : Cross cols rows, (0 < cols → 0 < x.centerCols)
      ∧ computeFullBars half round stored cols rows wantSidebar wantPanel panelForced panelWidth
        sidebarCols wantStrip drawerRows drawerFullWidth wantMasthead wantStatusbar = x.layout := by
  generalize hl : computeFullBars half round stored cols rows wantSidebar wantPanel panelForced
    panelWidth sidebarCols wantStrip drawerRows drawerFullWidth wantMasthead wantStatusbar = l
  unfold computeFullBars at hl
  dsimp only at hl
  generalize hm : (if wantMasthead = true then min mastheadRows rows else 0) = m at hl
  generalize hst : (if wantStatusbar = true then min (rows - m) statusbarRows else 0) = st at hl
  generalize hd : min (rows - (m + st)) 1 = d at hl
  generalize hfr : (if 0 < drawerRows ∧ drawerFullWidth = true
    ∧ drawerRows + 1 + stripMinRows ≤ rows - (m + d + st) then drawerRows else 0) = fr at hl
  generalize hk : rows - (m + d + st) - (if 0 < fr then fr + 1 else 0) = k at hl
  generalize hsides : shrink cols _ _ = sides at hl
  generalize ht : min k 1 = t at hl
  generalize hs : (if wantStrip = true then
    if max (round (k - t)) stripMinRows + stripMinRows ≤ k - t then max (round (k - t)) stripMinRows
    else 0 else 0) = s at hl
  obtain ⟨left, right⟩ := sides
  obtain ⟨hsum, hpos⟩ := shrink_sum cols _ _ hsides.symm
  dsimp only at hsum hpos hl
  generalize hsl : (if 0 < left then 1 else 0) = sl at hsum hpos hl
  generalize hsr : (if 0 < right then 1 else 0) = sr at hsum hpos hl
  generalize hcc : cols - (left + sl + sr + right) = cc at hsum hl
  -- the rows of the window are used up
  have hmr : m ≤ rows := by
    rw [← hm]
    split_ifs <;> omega
  have hstr : st ≤ rows - m := by
    rw [← hst]
    split_ifs <;> omega
  have hfull : (if 0 < fr then fr + 1 else 0) ≤ rows - (m + d + st) := by
    rw [← hfr]
    split_ifs <;> omega
  have hts : t + s ≤ k := by
    have hs' : s ≤ k - t := by
      rw [← hs]
      split_ifs <;> omega
    omega
  have hright : cols - right = left + sl + cc + sr := by omega
  have hsepRight : (if 0 < right then some (left + sl + cc + sr - 1) else none)
      = if 0 < right then some (left + sl + cc) else none := by
    by_cases h : 0 < right
    · rw [if_pos h] at hsr
      rw [if_pos h, if_pos h, ← hsr, Nat.add_sub_cancel]
    · rw [if_neg h, if_neg h]
  have hcenter : 0 < cols → 0 < cc := by omega
  have hdr : d ≤ rows - (m + st) := by omega
  clear hm hst hd hsides ht hs
  rw [← hl]
  by_cases hdrawer : 0 < fr
  · -- a drawer across the window
    rw [if_pos hdrawer] at hfull hk
    have hbottom : rows - st = m + d + k + 1 + fr := by omega
    refine ⟨⟨m, d, k, 1, fr, st, left, sl, cc, sr, right, t, s, k - (t + s), 0, 0, by omega, hsum,
      by omega, hsl.symm, hsr.symm, by rw [if_pos hdrawer], rfl, .inr rfl⟩, hcenter, ?_⟩
    simp only [Cross.layout, Cross.bandY, Cross.centerX, placeDrawer, if_pos hdrawer, hbottom,
      hright, hsepRight]
  · have hfr0 : fr = 0 := by omega
    rw [if_neg hdrawer] at hk
    have hbottom : rows - st = m + d + k + 0 + 0 := by omega
    by_cases hcarved : 0 < drawerRows ∧ ¬ drawerFullWidth = true
        ∧ drawerRows + 1 + stripMinRows ≤ k - (t + s)
    · -- a drawer below the center
      refine ⟨⟨m, d, k, 0, 0, st, left, sl, cc, sr, right, t, s, k - (t + s) - (drawerRows + 1), 1,
        drawerRows, by omega, hsum, by omega, hsl.symm, hsr.symm, by simp,
        by rw [if_pos hcarved.1], .inl rfl⟩, hcenter, ?_⟩
      simp only [Cross.layout, Cross.bandY, Cross.centerX, placeDrawer, if_neg hdrawer,
        if_pos hcarved, if_pos hcarved.1, hbottom, hright, hsepRight, lt_irrefl, if_false]
    · refine ⟨⟨m, d, k, 0, 0, st, left, sl, cc, sr, right, t, s, k - (t + s), 0, 0, by omega, hsum,
        by omega, hsl.symm, hsr.symm, by simp, by simp, .inl rfl⟩, hcenter, ?_⟩
      simp only [Cross.layout, Cross.bandY, Cross.centerX, placeDrawer, if_neg hdrawer,
        if_neg hcarved, hbottom, hright, hsepRight, lt_irrefl, if_false]

/-- **The surfaces tile the window**, and the center has a column when the window has one. -/
theorem chrome_tiles :
    (computeFullBars half round stored cols rows wantSidebar wantPanel panelForced panelWidth
      sidebarCols wantStrip drawerRows drawerFullWidth wantMasthead wantStatusbar).Covers cols
        rows := by
  obtain ⟨x, hcenter, hl⟩ := exists_cross half round stored cols rows wantSidebar wantPanel
    panelForced panelWidth sidebarCols wantStrip drawerRows drawerFullWidth wantMasthead
    wantStatusbar
  rw [hl]
  have htiles : Tiles Rect.Has x.layout.surfaces (window cols rows) := fun c => x.cover_surfaces c
  exact
    { inside := fun r hr => x.inside_pieces (x.mem_pieces hr)
      disjoint := htiles.pairwise_disjoint
      covered := fun c hc => htiles.cover_eq_one hc
      center := hcenter }

end

end Thegn.Pane
