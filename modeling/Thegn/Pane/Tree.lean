import Mathlib

set_option autoImplicit false

/-! # The pane tree

The tree of a tab's panes and its operations (`thegn-host/src/center.rs`): tiled splits with
weights, and stacks of which one member is expanded. Operations that change a tree in place and
report success are functions that return the new tree with the report, so that a change made
before a failure is reported stays visible.

Weights are only read by the rounding in `visitLayout`, so their type is left open.
-/

namespace Thegn.Pane

abbrev PaneId := UInt32

/-- `row` lays children out left to right, `col` top to bottom. -/
inductive Dir
  | row
  | col
  deriving DecidableEq, Repr

mutual

/-- A pane, tiled children, or a stack of panes of which `active` is expanded. -/
inductive CenterTree (W : Type)
  | leaf (p : PaneId)
  | split (dir : Dir) (children : List (Branch W))
  | stack (panes : List PaneId) (active : Nat)

structure Branch (W : Type) where
  weight : W
  child : CenterTree W

end

variable {W : Type}

/-- **Induction over pane trees**: a split has its children as smaller trees. -/
@[elab_as_elim]
theorem CenterTree.ind {P : CenterTree W → Prop} (leaf : ∀ p, P (.leaf p))
    (stack : ∀ panes active, P (.stack panes active))
    (split : ∀ dir children, (∀ b ∈ children, P b.child) → P (.split dir children)) : ∀ t, P t :=
  fun t => @CenterTree.rec W P (fun b => P b.child) (fun bs => ∀ b ∈ bs, P b.child) leaf split stack
    (fun _ _ h => h) (fun _ hb => absurd hb List.not_mem_nil)
    (fun _ _ hb hbs c hc => by
      rcases List.mem_cons.mp hc with rfl | hc
      · exact hb
      · exact hbs c hc) t

/-! ## Pane ids -/

mutual

/-- Every pane id of the tree, in order. -/
def CenterTree.paneIds : CenterTree W → List PaneId
  | .leaf p => [p]
  | .stack panes _ => panes
  | .split _ children => branchIds children

def branchIds : List (Branch W) → List PaneId
  | [] => []
  | .mk _ child :: rest => child.paneIds ++ branchIds rest

end

/-! ## Operations -/

mutual

/-- Expand `pane` in the stack that holds it. -/
def CenterTree.activateStackMember (pane : PaneId) : CenterTree W → CenterTree W × Bool
  | .leaf p => (.leaf p, false)
  | .stack panes active =>
    match panes.idxOf? pane with
    | some i => (.stack panes i, true)
    | none => (.stack panes active, false)
  | .split dir children =>
    let (children, found) := activateIn pane children
    (.split dir children, found)

/-- `any` over the children: stops at the first that reports success. -/
def activateIn (pane : PaneId) : List (Branch W) → List (Branch W) × Bool
  | [] => ([], false)
  | .mk w child :: rest =>
    let (child, found) := child.activateStackMember pane
    if found then (.mk w child :: rest, true)
    else
      let (rest, found) := activateIn pane rest
      (.mk w child :: rest, found)

end

section

variable [One W]

mutual

/-- Split the leaf `target`, adding `newId` beside it with equal weights. -/
def CenterTree.splitPane (target : PaneId) (dir : Dir) (newId : PaneId) :
    CenterTree W → CenterTree W × Bool
  | .leaf p =>
    if p = target then (.split dir [.mk 1 (.leaf p), .mk 1 (.leaf newId)], true)
    else (.leaf p, false)
  | .stack panes active => (.stack panes active, false)
  | .split d children =>
    let (children, found) := splitIn target dir newId children
    (.split d children, found)

/-- `any` over the children. -/
def splitIn (target : PaneId) (dir : Dir) (newId : PaneId) :
    List (Branch W) → List (Branch W) × Bool
  | [] => ([], false)
  | .mk w child :: rest =>
    let (child, found) := child.splitPane target dir newId
    if found then (.mk w child :: rest, true)
    else
      let (rest, found) := splitIn target dir newId rest
      (.mk w child :: rest, found)

end

end

/-- A child that is the leaf `target`. -/
def Branch.isLeaf (target : PaneId) : Branch W → Bool
  | .mk _ (.leaf p) => p = target
  | _ => false

/-- A split that is left with one child is replaced by it. -/
def collapse (dir : Dir) : List (Branch W) → CenterTree W
  | [.mk _ only] => only
  | children => .split dir children

/-- Take the member at index `i` out of a stack. -/
def removeMember (panes : List PaneId) (active i : Nat) : CenterTree W × Bool :=
  let panes := panes.eraseIdx i
  (.stack panes (if panes.length ≤ active then panes.length - 1 else active), !panes.isEmpty)

mutual

/-- Remove the pane `target`: out of its stack, or out of its split, which collapses when one
child is left. Reports whether a pane was removed. -/
def CenterTree.remove (target : PaneId) : CenterTree W → CenterTree W × Bool
  | .leaf p => (.leaf p, false)
  | .stack panes active =>
    match panes.idxOf? target with
    | some i => removeMember panes active i
    | none => (.stack panes active, false)
  | .split dir children =>
    match children.findIdx? (Branch.isLeaf target) with
    | some i => (collapse dir (children.eraseIdx i), true)
    | none =>
      let (children, removed) := removeIn target children
      (.split dir children, removed)

/-- The loop over the children: every child visited keeps the change its `remove` made, and the
loop stops at the first that reports success. -/
def removeIn (target : PaneId) : List (Branch W) → List (Branch W) × Bool
  | [] => ([], false)
  | .mk w child :: rest =>
    let (child, removed) := child.remove target
    if removed then (.mk w child :: rest, true)
    else
      let (rest, removed) := removeIn target rest
      (.mk w child :: rest, removed)

end

/-! ## Well-formed trees -/

mutual

/-- No split without children, no stack without panes. -/
def CenterTree.NoEmpty : CenterTree W → Prop
  | .leaf _ => True
  | .stack panes _ => panes ≠ []
  | .split _ children => children ≠ [] ∧ NoEmptyIn children

def NoEmptyIn : List (Branch W) → Prop
  | [] => True
  | .mk _ child :: rest => child.NoEmpty ∧ NoEmptyIn rest

end

mutual

/-- Splits have at least two children, stacks a pane, and `active` is in range. -/
def CenterTree.Shaped : CenterTree W → Prop
  | .leaf _ => True
  | .stack panes active => active < panes.length
  | .split _ children => 2 ≤ children.length ∧ ShapedIn children

def ShapedIn : List (Branch W) → Prop
  | [] => True
  | .mk _ child :: rest => child.Shaped ∧ ShapedIn rest

end

/-- **A well-formed tree**: of a good shape, with distinct pane ids. -/
structure CenterTree.WellFormed (t : CenterTree W) : Prop where
  shaped : t.Shaped
  distinct : t.paneIds.Nodup

end Thegn.Pane
