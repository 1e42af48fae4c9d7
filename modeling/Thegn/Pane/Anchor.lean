import Thegn.Pane.Swap

set_option autoImplicit false

/-! # Re-anchoring a dragged pane

`anchor` removes the dragged pane and wraps the slot of the target in a new split. With distinct ids
`remove` fails for a pane that has a target beside it only when the pane is the sole member of a
stack; it has emptied that stack by then, and the early return loses the pane (`anchor_soleMember`).
Every other drag keeps the panes, changes the tree only when it reports so, and puts the dragged
pane where it was dropped (`anchor_sound`).
-/

namespace Thegn.Pane

open List

variable {W : Type}

inductive Side
  | left
  | right
  | top
  | bottom
  deriving DecidableEq, Repr

/-- The axis of the new split, and whether the dragged pane comes first. -/
def Side.placement : Side → Dir × Bool
  | .left => (.row, true)
  | .right => (.row, false)
  | .top => (.col, true)
  | .bottom => (.col, false)

section

variable [One W]

/-- The two-child split that takes the place of the target's node. -/
def anchorSplit (dragged : PaneId) (side : Side) (targetSub : CenterTree W) : CenterTree W :=
  match side.placement with
  | (dir, true) => .split dir [.mk 1 (.leaf dragged), .mk 1 targetSub]
  | (dir, false) => .split dir [.mk 1 targetSub, .mk 1 (.leaf dragged)]

/-- Re-anchor `dragged` as a new split on `side` of `target`. -/
def CenterTree.anchor (dragged target : PaneId) (side : Side) (t : CenterTree W) :
    CenterTree W × Bool :=
  if dragged = target ∨ (t.positionalNodeMut dragged).isNone ∨
    (t.positionalNodeMut target).isNone then
    (t, false)
  else
    let (t, removed) := t.remove dragged
    if !removed then (t, false)
    else
      match t.positionalNodeMut target with
      | none => (t, false)
      | some node => (node.write (anchorSplit dragged side node.node), true)

end

/-! ## The soundness of a drag -/

/-- The subtrees of a tree. -/
inductive CenterTree.Sub : CenterTree W → CenterTree W → Prop
  | refl (t : CenterTree W) : Sub t t
  | child {s : CenterTree W} {dir : Dir} {children : List (Branch W)} {b : Branch W}
      (hb : b ∈ children)
      (hs : Sub s b.child) : Sub s (.split dir children)

/-- **What dragging should do**: it keeps the panes, and the tree unless it reports success; then
the dragged pane shares a new split with the node of the target, and no sentinel is left. -/
def AnchorSound [One W] (dragged target : PaneId) (side : Side) (t : CenterTree W) : Prop :=
  (t.anchor dragged target side).1.paneIds.Perm t.paneIds ∧
    ((t.anchor dragged target side).2 = false → (t.anchor dragged target side).1 = t) ∧
    ((t.anchor dragged target side).2 = true →
      (∃ node, Positional node ∧ target ∈ node.paneIds ∧
        (anchorSplit dragged side node).Sub (t.anchor dragged target side).1) ∧
      sentinel ∉ (t.anchor dragged target side).1.paneIds)

/-! ## Writing a slot -/

theorem paneIds_anchorSplit [One W] (dragged : PaneId) (side : Side) (n : CenterTree W) :
    (anchorSplit dragged side n).paneIds.Perm (dragged :: n.paneIds) := by
  cases side with
  | left | top => simp [anchorSplit, Side.placement, CenterTree.paneIds, branchIds]
  | right | bottom =>
    simp only [anchorSplit, Side.placement, CenterTree.paneIds, branchIds, append_nil]
    exact perm_append_singleton _ _

/-- What a tree with a node written in a slot holds. -/
def WritesSlot (t : CenterTree W) : Prop :=
  ∀ l n r m, t.slots = l ++ n :: r →
    m.Sub (t.refill (l ++ m :: r)) ∧
      (t.refill (l ++ m :: r)).paneIds =
        l.flatMap CenterTree.paneIds ++ m.paneIds ++ r.flatMap CenterTree.paneIds

theorem writesSlot_of_singleton {t : CenterTree W} (hslots : t.slots = [t])
    (hfill : ∀ m, t.refill [m] = m) : WritesSlot t := by
  intro l n r m h
  rw [hslots] at h
  obtain ⟨rfl, -, rfl⟩ := slots_eq_singleton h
  rw [nil_append, hfill]
  exact ⟨.refl m, by simp⟩

theorem writesSlotIn {bs : List (Branch W)} (h : ∀ b ∈ bs, WritesSlot b.child) :
    ∀ l n r m, slotsIn bs = l ++ n :: r →
      (∃ b ∈ refillIn bs (l ++ m :: r), m.Sub b.child) ∧
        branchIds (refillIn bs (l ++ m :: r)) =
          l.flatMap CenterTree.paneIds ++ m.paneIds ++ r.flatMap CenterTree.paneIds := by
  induction bs with
  | nil =>
    intro l n r m hslots
    rw [slotsIn] at hslots
    exact absurd hslots.symm (append_ne_nil_of_right_ne_nil _ (cons_ne_nil _ _))
  | cons b bs ih =>
    have hb := h b (.head _)
    have hrest := ih fun c hc => h c (.tail _ hc)
    obtain ⟨w, child⟩ := b
    have hids : ∀ s, s = child.slots → child.paneIds = s.flatMap CenterTree.paneIds := by
      rintro s rfl
      exact paneIds_eq_flatMap child
    -- the node is written behind the slots of this child, or in one of them
    have hlater : ∀ l n r m, slotsIn bs = l ++ n :: r →
        (∃ b ∈ refillIn (.mk w child :: bs) (child.slots ++ l ++ m :: r), m.Sub b.child) ∧
          branchIds (refillIn (.mk w child :: bs) (child.slots ++ l ++ m :: r)) =
            (child.slots ++ l).flatMap CenterTree.paneIds ++ m.paneIds ++
              r.flatMap CenterTree.paneIds := by
      intro l n r m hslots
      obtain ⟨⟨b, hbmem, hsub⟩, hbids⟩ := hrest l n r m hslots
      rw [append_assoc, refillIn, take_left, drop_left, refill_slots]
      refine ⟨⟨b, .tail _ hbmem, hsub⟩, ?_⟩
      rw [branchIds, hbids, hids _ rfl, flatMap_append]
      simp only [append_assoc]
    intro l n r m hslots
    rw [slotsIn, append_eq_append_iff] at hslots
    rcases hslots with ⟨l', rfl, hslots⟩ | ⟨c', hchild, hslots⟩
    · exact hlater l' n r m hslots
    · cases c' with
      | nil =>
        rw [append_nil] at hchild
        have hthis := hlater [] n r m (by rw [nil_append]; exact hslots.symm)
        rwa [append_nil, hchild] at hthis
      | cons c cs =>
        rw [cons_append, List.cons.injEq] at hslots
        obtain ⟨rfl, rfl⟩ := hslots
        obtain ⟨hsub, hcids⟩ := hb l n cs m hchild
        have hlen : (l ++ m :: cs).length = child.slots.length := by
          rw [hchild, length_append, length_append, length_cons, length_cons]
        have hbs : branchIds bs = (slotsIn bs).flatMap CenterTree.paneIds :=
          branchIds_eq_flatMap fun b _ => paneIds_eq_flatMap b.child
        rw [refillIn_pre hlen]
        refine ⟨⟨_, .head _, hsub⟩, ?_⟩
        rw [branchIds, hcids, hbs, flatMap_append]
        simp only [append_assoc]

theorem writesSlot (t : CenterTree W) : WritesSlot t := by
  induction t using CenterTree.ind with
  | leaf p =>
    exact writesSlot_of_singleton (positional_leaf p) fun m => by rw [CenterTree.refill]; rfl
  | stack panes active =>
    exact writesSlot_of_singleton (positional_stack panes active) fun m => by
      rw [CenterTree.refill]; rfl
  | split dir children ih =>
    intro l n r m hslots
    rw [CenterTree.slots] at hslots
    obtain ⟨⟨b, hb, hsub⟩, hids⟩ := writesSlotIn ih l n r m hslots
    rw [CenterTree.refill, CenterTree.paneIds]
    exact ⟨.child hb hsub, hids⟩

/-! ## Lifting the dragged pane -/

theorem soleMemberIn_iff {target : PaneId} {bs : List (Branch W)}
    (h : ∀ b ∈ bs, b.child.SoleMember target ↔ ∃ active, .stack [target] active ∈ b.child.slots) :
    SoleMemberIn target bs ↔ ∃ active, .stack [target] active ∈ slotsIn bs := by
  induction bs with
  | nil => simp [SoleMemberIn, slotsIn]
  | cons b bs ih =>
    have hb := h b (.head _)
    obtain ⟨w, child⟩ := b
    rw [SoleMemberIn, hb, ih fun c hc => h c (mem_cons_of_mem _ hc), slotsIn]
    simp only [mem_append, exists_or]

theorem soleMember_iff {target : PaneId} (t : CenterTree W) :
    t.SoleMember target ↔ ∃ active, .stack [target] active ∈ t.slots := by
  induction t using CenterTree.ind with
  | leaf p => simp [CenterTree.SoleMember, CenterTree.slots]
  | stack panes active =>
    rw [CenterTree.SoleMember, CenterTree.slots]
    simp only [mem_singleton, CenterTree.stack.injEq, exists_and_left, exists_eq, and_true]
    exact eq_comm
  | split dir children ih => rw [CenterTree.SoleMember, CenterTree.slots, soleMemberIn_iff ih]

theorem eraseIdx_ne_nil {panes : List PaneId} {target : PaneId} {i : Nat}
    (hi : panes.idxOf? target = some i) (hne : panes ≠ [target]) : panes.eraseIdx i ≠ [] := by
  obtain ⟨hlt, htarget, -⟩ := List.findIdx?_eq_some_iff_getElem.mp hi
  rw [beq_iff_eq] at htarget
  intro hnil
  have hlen := congrArg List.length hnil
  rw [length_eraseIdx_of_lt hlt, length_nil] at hlen
  have hone : panes.length = 1 := by omega
  obtain ⟨p, rfl⟩ := length_eq_one_iff.mp hone
  have hzero : i = 0 := by
    rw [length_singleton] at hlt
    omega
  subst hzero
  rw [getElem_cons_zero] at htarget
  exact hne (by rw [htarget])

/-- **Lifting a pane that is not alone in its stack** removes its id from the ids of the tree. -/
theorem remove_lifts {t : CenterTree W} {dragged : PaneId} (hd : t.paneIds.Nodup)
    (hm : dragged ∈ t.paneIds) (hleaf : t ≠ .leaf dragged) (hsole : ¬ t.SoleMember dragged) :
    (t.remove dragged).2 = true ∧ (dragged :: (t.remove dragged).1.paneIds).Perm t.paneIds := by
  rw [paneIds_eq_flatMap, paneIds_eq_flatMap t]
  obtain ⟨l, r, ⟨hslots, hafter, hr⟩ | ⟨panes, active, i, hslots, hi, hafter, hr⟩⟩ :=
    remove_slots t hd hm hleaf
  · refine ⟨hr, ?_⟩
    rw [hslots, hafter]
    simp only [flatMap_append, List.flatMap_cons, CenterTree.paneIds, singleton_append]
    exact perm_middle.symm
  · have hne : panes ≠ [dragged] := by
      rintro rfl
      exact hsole ((soleMember_iff t).mpr ⟨active, by rw [hslots]; simp⟩)
    obtain ⟨hlt, htarget, -⟩ := List.findIdx?_eq_some_iff_getElem.mp hi
    rw [beq_iff_eq] at htarget
    have hrest : (!(panes.eraseIdx i).isEmpty) = true := by simpa using eraseIdx_ne_nil hi hne
    refine ⟨hr.trans hrest, ?_⟩
    have hpanes : (dragged :: panes.eraseIdx i).Perm panes := by
      rw [← htarget]
      exact getElem_cons_eraseIdx_perm hlt
    rw [hslots, hafter]
    simp only [flatMap_append, List.flatMap_cons, removeMember, CenterTree.paneIds]
    exact perm_middle.symm.trans (List.Perm.append_left _ (hpanes.append_right _))

/-! ## Exactly when a drag is sound -/

/-- The pane can be dragged onto the target. -/
def Draggable (dragged target : PaneId) (t : CenterTree W) : Prop :=
  dragged ≠ target ∧ dragged ∈ t.paneIds ∧ target ∈ t.paneIds

theorem ne_leaf_of_draggable {t : CenterTree W} {dragged target : PaneId}
    (h : Draggable dragged target t) : t ≠ .leaf dragged := by
  rintro rfl
  have htarget := h.2.2
  rw [CenterTree.paneIds, mem_singleton] at htarget
  exact h.1 htarget.symm

section Anchor

variable [One W] {t : CenterTree W} {dragged target : PaneId} {side : Side}

theorem anchor_of_not_draggable (h : ¬ Draggable dragged target t) :
    t.anchor dragged target side = (t, false) := by
  rw [CenterTree.anchor, if_pos]
  rw [positionalNodeMut_isNone, positionalNodeMut_isNone]
  simp only [Draggable, not_and_or, not_not] at h
  exact h

/-- **A drag that lifts the pane.** -/
theorem anchor_lifted (hd : t.paneIds.Nodup) (h : Draggable dragged target t)
    (hsole : ¬ t.SoleMember dragged) :
    ∃ l n r, (t.remove dragged).1.slots = l ++ n :: r ∧ target ∈ n.paneIds ∧ Positional n ∧
      t.anchor dragged target side =
        ((t.remove dragged).1.refill (l ++ anchorSplit dragged side n :: r), true) := by
  obtain ⟨hremoved, hperm⟩ := remove_lifts hd h.2.1 (ne_leaf_of_draggable h) hsole
  have hmem : target ∈ (t.remove dragged).1.paneIds := by
    have hcons := hperm.mem_iff.mpr h.2.2
    exact (mem_cons.mp hcons).resolve_left (Ne.symm h.1)
  obtain ⟨l, n, r, hslots, hn, hl⟩ := exists_slot hmem
  refine ⟨l, n, r, hslots, hn, positional_of_mem_slots _ n (by rw [hslots]; simp), ?_⟩
  have hguard : ¬ (dragged = target ∨ (t.positionalNodeMut dragged).isNone ∨
      (t.positionalNodeMut target).isNone) := by
    rw [positionalNodeMut_isNone, positionalNodeMut_isNone, not_or, not_or, not_not, not_not]
    exact ⟨h.1, h.2.1, h.2.2⟩
  rw [CenterTree.anchor, if_neg hguard]
  dsimp only
  rw [hremoved, lookup hslots hn hl]
  rfl

/-- **Dragging the sole member of a stack loses it.** -/
theorem anchor_soleMember (hd : t.paneIds.Nodup) (h : Draggable dragged target t)
    (hsole : t.SoleMember dragged) :
    (t.anchor dragged target side).2 = false ∧ (t.anchor dragged target side).1 ≠ t := by
  obtain ⟨hremoved, hne⟩ := remove_soleMember t hd hsole
  have hguard : ¬ (dragged = target ∨ (t.positionalNodeMut dragged).isNone ∨
      (t.positionalNodeMut target).isNone) := by
    rw [positionalNodeMut_isNone, positionalNodeMut_isNone, not_or, not_or, not_not, not_not]
    exact ⟨h.1, h.2.1, h.2.2⟩
  rw [CenterTree.anchor, if_neg hguard]
  dsimp only
  rw [hremoved]
  exact ⟨rfl, hne⟩

/-- **Dragging a pane is sound** exactly when it does not take the sole member out of a stack. -/
theorem anchor_sound (hd : t.paneIds.Nodup) (hs : sentinel ∉ t.paneIds) :
    AnchorSound dragged target side t ↔ ¬ (Draggable dragged target t ∧ t.SoleMember dragged) := by
  constructor
  · rintro ⟨-, hunchanged, -⟩ ⟨hdrag, hsole⟩
    obtain ⟨hfalse, hne⟩ := @anchor_soleMember W _ t dragged target side hd hdrag hsole
    exact hne (hunchanged hfalse)
  · intro hnot
    by_cases hdrag : Draggable dragged target t
    · have hsole : ¬ t.SoleMember dragged := fun hc => hnot ⟨hdrag, hc⟩
      obtain ⟨-, hlift⟩ := remove_lifts hd hdrag.2.1 (ne_leaf_of_draggable hdrag) hsole
      obtain ⟨l, n, r, hslots, hn, hpos, hanchor⟩ :=
        @anchor_lifted W _ t dragged target side hd hdrag hsole
      obtain ⟨hsub, hids⟩ := writesSlot _ l n r (anchorSplit dragged side n) hslots
      have hperm : ((t.remove dragged).1.refill (l ++ anchorSplit dragged side n :: r)).paneIds.Perm
          t.paneIds := by
        refine List.Perm.trans ?_ hlift
        have hwhole := paneIds_eq_flatMap (t.remove dragged).1
        rw [hslots, flatMap_append, List.flatMap_cons] at hwhole
        rw [hids, hwhole, append_assoc]
        have hsplit :=
          (paneIds_anchorSplit dragged side n).append_right (r.flatMap CenterTree.paneIds)
        exact (List.Perm.append_left _ hsplit).trans perm_middle
      rw [AnchorSound, hanchor]
      exact ⟨hperm, nofun, fun _ => ⟨⟨n, hpos, hn, hsub⟩, fun hc => hs (hperm.mem_iff.mp hc)⟩⟩
    · rw [AnchorSound, anchor_of_not_draggable hdrag]
      exact ⟨.refl _, fun _ => rfl, nofun⟩

end Anchor

/-- Dragging the member of a lone stack onto the pane beside it. -/
theorem besideLoneStack_anchor :
    besideLoneStack.paneIds.Nodup ∧ sentinel ∉ besideLoneStack.paneIds ∧ besideLoneStack.NoEmpty ∧
      besideLoneStack.anchor 2 1 .left =
        (.split .row [.mk 1 (.leaf 1), .mk 1 (.stack [] 0)], false) ∧
      ¬ AnchorSound 2 1 .left besideLoneStack := by
  have hids : besideLoneStack.paneIds = [1, 2] := rfl
  have hanchor : besideLoneStack.anchor 2 1 .left =
      (.split .row [.mk 1 (.leaf 1), .mk 1 (.stack [] 0)], false) := rfl
  refine ⟨by rw [hids]; decide, by rw [hids]; decide, by
    simp [besideLoneStack, CenterTree.NoEmpty, NoEmptyIn], hanchor, ?_⟩
  rintro ⟨hperm, -⟩
  rw [hanchor, hids] at hperm
  have hlen := hperm.length_eq
  exact absurd hlen (by decide)

/-- Dragging the pane onto the stack. -/
theorem besideLoneStack_dragged : AnchorSound 1 2 .bottom besideLoneStack := by
  have hids : besideLoneStack.paneIds = [1, 2] := rfl
  refine (anchor_sound (by rw [hids]; decide) (by rw [hids]; decide)).mpr fun h => absurd h.2 ?_
  simp [besideLoneStack, CenterTree.SoleMember, SoleMemberIn]

end Thegn.Pane
