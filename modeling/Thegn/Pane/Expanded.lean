import Thegn.Pane.Slots

set_option autoImplicit false

/-! # The expanded member of a stack

A stack shows the member at `active`. When another member is taken out, `remove` only pulls an index
that is out of range back, so the index names the next member as soon as the pane removed stood
before it (`removeMember_keeps_iff`). Closing a pane keeps what every stack shows exactly when the
pane does not stand before the expanded member of its stack, or that member is the last one
(`remove_keeps_expanded`).
-/

namespace Thegn.Pane

open List

variable {W : Type}

/-- The member of a stack that `visit_layout` expands. -/
def expandedMember (panes : List PaneId) (active : Nat) : Option PaneId :=
  panes[if active < panes.length then active else 0]?

theorem expandedMember_of_lt {panes : List PaneId} {active : Nat} (h : active < panes.length) :
    expandedMember panes active = panes[active]? := by
  rw [expandedMember, if_pos h]

/-- Every stack with its index in range that shows another pane than `target` shows the same pane
after `target` has been closed. -/
def KeepsExpanded (target : PaneId) (before after : List (CenterTree W)) : Prop :=
  ∀ panes active, .stack panes active ∈ before → active < panes.length →
    expandedMember panes active ≠ some target →
      ∃ active', .stack (panes.erase target) active' ∈ after ∧
        expandedMember (panes.erase target) active' = expandedMember panes active

/-- The index of a stack after the member at `i` has been taken out. -/
def activeAfter (panes : List PaneId) (active i : Nat) : Nat :=
  if (panes.eraseIdx i).length ≤ active then (panes.eraseIdx i).length - 1 else active

theorem removeMember_eq (panes : List PaneId) (active i : Nat) :
    (removeMember panes active i : CenterTree W × Bool) =
      (.stack (panes.eraseIdx i) (activeAfter panes active i), !(panes.eraseIdx i).isEmpty) := rfl

/-- **One stack**: taking a member out keeps the expanded one exactly when it stood behind it, or
the expanded one is the last. -/
theorem removeMember_keeps_iff {panes : List PaneId} {active i : Nat} (hd : panes.Nodup)
    (hi : i < panes.length) (hactive : active < panes.length) (hne : active ≠ i) :
    expandedMember (panes.eraseIdx i) (activeAfter panes active i) = expandedMember panes active ↔
      active < i ∨ active + 1 = panes.length := by
  have hlen : (panes.eraseIdx i).length = panes.length - 1 := length_eraseIdx_of_lt hi
  rw [expandedMember_of_lt hactive]
  by_cases hlast : active + 1 = panes.length
  · -- the index is pulled back with the member
    have hafter : activeAfter panes active i = active - 1 := by
      rw [activeAfter, hlen, if_pos (by omega)]
      omega
    have hrange : active - 1 < (panes.eraseIdx i).length := by omega
    rw [hafter, expandedMember_of_lt hrange, List.getElem?_eraseIdx_of_ge (by omega),
      Nat.sub_add_cancel (by omega)]
    exact iff_of_true rfl (.inr hlast)
  · have hafter : activeAfter panes active i = active := by
      rw [activeAfter, hlen, if_neg (by omega)]
    have hrange : active < (panes.eraseIdx i).length := by omega
    rw [hafter, expandedMember_of_lt hrange]
    by_cases hbefore : active < i
    · rw [List.getElem?_eraseIdx_of_lt hbefore]
      exact iff_of_true rfl (.inl hbefore)
    · rw [List.getElem?_eraseIdx_of_ge (by omega)]
      refine iff_of_false ?_ (by omega)
      intro heq
      have hnext : active + 1 < panes.length := by omega
      rw [List.getElem?_eq_getElem hnext, List.getElem?_eq_getElem hactive,
        Option.some.injEq] at heq
      have hsame := (List.Nodup.getElem_inj_iff hd).mp heq
      omega

/-- A stack without the pane that is closed stays as it is. -/
theorem keeps_of_not_mem {target : PaneId} {after : List (CenterTree W)} {panes : List PaneId}
    {active : Nat} (hnot : target ∉ panes) (h : .stack panes active ∈ after) :
    ∃ active', .stack (panes.erase target) active' ∈ after ∧
      expandedMember (panes.erase target) active' = expandedMember panes active := by
  rw [erase_of_not_mem hnot]
  exact ⟨active, h, rfl⟩

/-- What is asked of the pane that is closed: in a stack that shows another pane it stands behind
the expanded member, or that is the last member. -/
def Behind (target : PaneId) (before : List (CenterTree W)) : Prop :=
  ∀ panes active, .stack panes active ∈ before → active < panes.length → target ∈ panes →
    expandedMember panes active ≠ some target → active < panes.idxOf target ∨
      active + 1 = panes.length

/-- Closing a leaf changes no stack. -/
theorem keepsExpanded_leaf {target : PaneId} {l r : List (CenterTree W)}
    (hd : ((l ++ .leaf target :: r).flatMap CenterTree.paneIds).Nodup) :
    KeepsExpanded target (l ++ .leaf target :: r) (l ++ r) ∧
    Behind target (l ++ .leaf target :: r) := by
  obtain ⟨hl, hr⟩ := absent_of_nodup hd mem_leaf
  have hnot : ∀ panes active, .stack panes active ∈ l ++ .leaf target :: r → target ∉ panes := by
    intro panes active hs hmem
    have hids : target ∈ (CenterTree.stack panes active : CenterTree W).paneIds := by
      rw [CenterTree.paneIds]
      exact hmem
    rw [mem_append, mem_cons] at hs
    rcases hs with hs | hs | hs
    · exact hl _ hs hids
    · cases hs
    · exact hr _ hs hids
  constructor
  · intro panes active hs _ _
    refine keeps_of_not_mem (hnot panes active hs) ?_
    rw [mem_append, mem_cons] at hs
    rcases hs with hs | hs | hs
    · exact mem_append_left _ hs
    · cases hs
    · exact mem_append_right _ hs
  · intro panes active hs _ hmem _
    exact absurd hmem (hnot panes active hs)

/-- Taking a member out of one stack of the tree. -/
theorem keepsExpanded_member {target : PaneId} {l r : List (CenterTree W)} {panes : List PaneId}
    {active i : Nat} (hd : ((l ++ .stack panes active :: r).flatMap CenterTree.paneIds).Nodup)
    (hi : panes.idxOf? target = some i) (hrest : panes.eraseIdx i ≠ []) :
    KeepsExpanded target (l ++ .stack panes active :: r)
        (l ++ .stack (panes.eraseIdx i) (activeAfter panes active i) :: r) ↔
      Behind target (l ++ .stack panes active :: r) := by
  obtain ⟨hlt, htarget, -⟩ := List.findIdx?_eq_some_iff_getElem.mp hi
  rw [beq_iff_eq] at htarget
  have hmem : target ∈ panes := htarget ▸ getElem_mem hlt
  have herase : panes.erase target = panes.eraseIdx i := by rw [erase_eq_eraseIdx, hi]
  have hidx : panes.idxOf target = i := by
    rw [idxOf_eq_getD_idxOf?, hi, Option.getD_some]
  have hpanes : panes.Nodup := by
    rw [flatMap_append, List.flatMap_cons, CenterTree.paneIds, nodup_append, nodup_append] at hd
    exact hd.2.1.1
  have hother : ∀ p ∈ panes, ∀ ps a, .stack ps a ∈ l ∨ .stack ps a ∈ r → p ∉ ps := by
    intro p hp ps a hs
    obtain ⟨hl, hr⟩ := absent_of_nodup hd (p := p) (by rw [CenterTree.paneIds]; exact hp)
    have hnot := hs.elim (hl _) (hr _)
    rwa [CenterTree.paneIds] at hnot
  -- the index is not the one of the pane when the stack shows another pane
  have hindex : active < panes.length → expandedMember panes active ≠ some target → active ≠ i := by
    rintro hactive hshown rfl
    rw [expandedMember_of_lt hactive, List.getElem?_eq_getElem hactive, htarget] at hshown
    exact hshown rfl
  constructor
  · intro hkeeps ps a hs ha hps hshown
    rw [mem_append, mem_cons, or_left_comm] at hs
    rcases hs with hs | hs
    · injection hs with hs hs'
      subst hs hs'
      obtain ⟨a', ha', hsame⟩ := hkeeps ps a (by simp) ha hshown
      rw [herase] at ha' hsame
      -- the stack after is the only one with these members
      have hafter : a' = activeAfter ps a i := by
        rw [mem_append, mem_cons, or_left_comm] at ha'
        rcases ha' with ha' | ha'
        · injection ha' with _ ha'
        · obtain ⟨p, hp⟩ := exists_mem_of_ne_nil _ hrest
          exact absurd hp (hother p (mem_of_mem_eraseIdx hp) _ _ ha')
      rw [hafter] at hsame
      rw [hidx]
      exact (removeMember_keeps_iff hpanes hlt ha (hindex ha hshown)).mp hsame
    · exact absurd hps (hother target hmem ps a hs)
  · intro hbehind ps a hs ha hshown
    rw [mem_append, mem_cons, or_left_comm] at hs
    rcases hs with hs | hs
    · injection hs with hs hs'
      subst hs hs'
      have hcond := hbehind ps a (by simp) ha hmem hshown
      rw [hidx] at hcond
      refine ⟨activeAfter ps a i, ?_, ?_⟩
      · rw [herase]
        simp
      · rw [herase]
        exact (removeMember_keeps_iff hpanes hlt ha (hindex ha hshown)).mpr hcond
    · refine keeps_of_not_mem (hother target hmem ps a hs) ?_
      rw [mem_append, mem_cons, or_left_comm]
      exact .inr hs

/-- **Closing a pane keeps what every stack shows** exactly when the pane does not stand before the
expanded member of its stack, or that member is the last one. -/
theorem remove_keeps_expanded {t : CenterTree W} {target : PaneId} (hd : t.paneIds.Nodup)
    (hremoved : (t.remove target).2 = true) :
    KeepsExpanded target t.slots (t.remove target).1.slots ↔ Behind target t.slots := by
  have hmem : target ∈ t.paneIds := by
    by_contra hnot
    rw [remove_of_not_mem t hnot] at hremoved
    cases hremoved
  have hne : t ≠ .leaf target := by
    rintro rfl
    rw [CenterTree.remove] at hremoved
    cases hremoved
  obtain ⟨l, r, ⟨hslots, hafter, -⟩ | ⟨panes, active, i, hslots, hi, hafter, hr⟩⟩ :=
    remove_slots t hd hmem hne
  · rw [paneIds_eq_flatMap, hslots] at hd
    rw [hslots, hafter]
    exact iff_of_true (keepsExpanded_leaf hd).1 (keepsExpanded_leaf hd).2
  · rw [paneIds_eq_flatMap, hslots] at hd
    rw [hr, removeMember_eq] at hremoved
    have hrest : panes.eraseIdx i ≠ [] := by simpa using hremoved
    rw [hslots, hafter]
    exact keepsExpanded_member hd hi hrest

/-- A stack of three panes whose second member is expanded, beside a pane. -/
def besideThree : CenterTree Nat := .split .row [.mk 1 (.leaf 1), .mk 1 (.stack [2, 3, 4] 1)]

theorem besideThree_nodup : besideThree.paneIds.Nodup := by
  simp [besideThree, CenterTree.paneIds, branchIds]

theorem besideThree_slots : besideThree.slots = [.leaf 1, .stack [2, 3, 4] 1] := by
  simp [besideThree, CenterTree.slots, slotsIn]

/-- Closing the member before the expanded one expands the member behind it. -/
theorem besideThree_remove :
    besideThree.paneIds.Nodup ∧
      besideThree.remove 2 = (.split .row [.mk 1 (.leaf 1), .mk 1 (.stack [3, 4] 1)], true) ∧
      expandedMember [2, 3, 4] 1 = some 3 ∧ expandedMember [3, 4] 1 = some 4 ∧
      ¬ KeepsExpanded 2 besideThree.slots (besideThree.remove 2).1.slots := by
  have hremove : besideThree.remove 2 =
      (.split .row [.mk 1 (.leaf 1), .mk 1 (.stack [3, 4] 1)], true) := rfl
  refine ⟨besideThree_nodup, hremove, rfl, rfl, ?_⟩
  intro hkeeps
  rw [besideThree_slots, hremove] at hkeeps
  obtain ⟨active', hmem, hsame⟩ := hkeeps [2, 3, 4] 1 (by simp) (by decide) (by decide)
  have hafter : active' = 1 := by simpa [CenterTree.slots, slotsIn] using hmem
  rw [hafter] at hsame
  exact absurd hsame (by decide)

/-- Closing the member behind it keeps it expanded. -/
theorem besideThree_keeps :
    KeepsExpanded 4 besideThree.slots (besideThree.remove 4).1.slots := by
  refine (remove_keeps_expanded besideThree_nodup rfl).mpr fun panes active hmem _ _ _ => ?_
  obtain ⟨rfl, rfl⟩ : panes = [2, 3, 4] ∧ active = 1 := by
    simpa [besideThree, CenterTree.slots, slotsIn] using hmem
  exact .inl (by decide)

end Thegn.Pane
