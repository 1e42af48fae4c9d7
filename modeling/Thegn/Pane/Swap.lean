import Thegn.Lib.Splice
import Thegn.Pane.Slots

set_option autoImplicit false

/-! # Swapping two panes

`swap` lifts the positional node of one pane out behind a sentinel leaf, drops it where the other
pane's node is, and drops that one where the sentinel is. It finds every node again in the tree the
step before left. For panes of different slots this exchanges the two slots (`swap_slots`); for two
members of one stack the second pane has gone with the first one, and the second lookup fails an
`expect` (`swap_sameStack`). So it is sound exactly for panes that do not share a stack
(`swap_sound`).
-/

namespace Thegn.Pane

open List Option

open Splice (exchange_perm)

variable {W : Type}

/-- `PaneId::MAX`, which no pane has. -/
def sentinel : PaneId := 4294967295

/-- Exchange the positional nodes of `a` and `b`; `none` is a failed `expect`. -/
def CenterTree.swap (a b : PaneId) (t : CenterTree W) : Option (CenterTree W × Bool) :=
  if a = b then some (t, false)
  else if (t.positionalNodeMut a).isNone || (t.positionalNodeMut b).isNone then some (t, false)
  else do
    let aSlot ← t.positionalNodeMut a
    let t1 := aSlot.write (.leaf sentinel)
    let bSlot ← t1.positionalNodeMut b
    let t2 := bSlot.write aSlot.node
    let hole ← t2.positionalNodeMut sentinel
    pure (hole.write bSlot.node, true)

/-! ## The soundness of a swap -/

/-- The splits and weights of the tree, with the sentinel in every slot. -/
def CenterTree.frame (t : CenterTree W) : CenterTree W :=
  t.refill (List.replicate t.slots.length (.leaf sentinel))

/-- The slots of `a` and `b` are exchanged and no other one is changed. -/
def Exchanged (a b : PaneId) (before after : List (CenterTree W)) : Prop :=
  ∃ l m r x y, before = l ++ x :: (m ++ y :: r) ∧ after = l ++ y :: (m ++ x :: r) ∧
    ((a ∈ x.paneIds ∧ b ∈ y.paneIds) ∨ (b ∈ x.paneIds ∧ a ∈ y.paneIds))

/-- **What swapping should do**: it reports success, exchanges the two nodes under the same splits
with the same weights, keeps the pane ids, and undoes itself. -/
def SwapSound (a b : PaneId) (t : CenterTree W) : Prop :=
  ∃ t', t.swap a b = some (t', true) ∧ t'.paneIds.Perm t.paneIds ∧ t'.frame = t.frame ∧
    Exchanged a b t.slots t'.slots ∧ t'.swap a b = some (t, true)

/-- Both panes are members of one stack. -/
def SameStack (a b : PaneId) (t : CenterTree W) : Prop :=
  ∃ panes active, .stack panes active ∈ t.slots ∧ a ∈ panes ∧ b ∈ panes

/-! ## The three lookups -/

section Lookup

variable {t : CenterTree W} {l m r : List (CenterTree W)} {x y : CenterTree W} {a b : PaneId}

theorem length_exchange (l m r : List (CenterTree W)) (x y x' y' : CenterTree W) :
    (l ++ x' :: (m ++ y' :: r)).length = (l ++ x :: (m ++ y :: r)).length := by
  simp only [length_append, length_cons]

theorem positional_exchange (h : ∀ n ∈ l ++ x :: (m ++ y :: r), Positional n) {x' y' : CenterTree W}
    (hx : Positional x') (hy : Positional y') : ∀ n ∈ l ++ x' :: (m ++ y' :: r), Positional n := by
  simp only [forall_mem_append, forall_mem_cons] at h ⊢
  exact ⟨h.1, hx, h.2.2.1, hy, h.2.2.2.2⟩

theorem ne_of_not_mem_leaf {p q : PaneId} (h : p ≠ q) :
    p ∉ (CenterTree.leaf q : CenterTree W).paneIds := by
  rw [CenterTree.paneIds, mem_singleton]
  exact h

/-- A tree filled with other nodes has these as its slots. -/
theorem slots_exchange (hslots : t.slots = l ++ x :: (m ++ y :: r)) {x' y' : CenterTree W}
    (hx : Positional x') (hy : Positional y') :
    (t.refill (l ++ x' :: (m ++ y' :: r))).slots = l ++ x' :: (m ++ y' :: r) := by
  have hpos := positional_of_mem_slots t
  rw [hslots] at hpos
  exact slots_refill t _ (positional_exchange hpos hx hy)
    (by rw [hslots]; exact length_exchange l m r x y x' y')

theorem refill_exchange (hslots : t.slots = l ++ x :: (m ++ y :: r)) {x' y' : CenterTree W}
    (hx : Positional x') (hy : Positional y') (x'' y'' : CenterTree W) :
    (t.refill (l ++ x' :: (m ++ y' :: r))).refill (l ++ x'' :: (m ++ y'' :: r)) =
      t.refill (l ++ x'' :: (m ++ y'' :: r)) := by
  have hpos := positional_of_mem_slots t
  rw [hslots] at hpos
  exact refill_refill t _ _ (positional_exchange hpos hx hy)
    (by rw [hslots]; exact length_exchange l m r x y x' y')
      (by rw [hslots]; exact length_exchange l m r x y x'' y'')

theorem positional_slot (hslots : t.slots = l ++ x :: (m ++ y :: r)) :
    Positional x ∧ Positional y := by
  have hpos := positional_of_mem_slots t
  rw [hslots] at hpos
  exact ⟨hpos x (by simp), hpos y (by simp)⟩

/-- The node at a place that is found in no slot before it. -/
theorem lookup {p : PaneId} {n : CenterTree W} (hslots : t.slots = l ++ n :: r) (hp : p ∈ n.paneIds)
    (hl : Absent p l) :
    t.positionalNodeMut p = some { node := n, write := fun x => t.refill (l ++ x :: r) } :=
  borrow_eq p t l n r hslots hp hl

/-- **The pane in the earlier slot is lifted first.** -/
theorem swap_forward (hslots : t.slots = l ++ x :: (m ++ y :: r)) (hab : a ≠ b) (ha : a ∈ x.paneIds)
    (hb : b ∈ y.paneIds) (hal : Absent a l) (hbl : Absent b (l ++ x :: m))
    (hs : Absent sentinel t.slots) (hbs : b ≠ sentinel) :
    t.swap a b = some (t.refill (l ++ y :: (m ++ x :: r)), true) := by
  obtain ⟨hx, hy⟩ := positional_slot hslots
  have hslots' : t.slots = (l ++ x :: m) ++ y :: r := by
    rw [hslots, append_assoc, cons_append]
  obtain ⟨hbl', hbm⟩ := absent_append.mp hbl
  obtain ⟨hbx, hbm⟩ := absent_cons.mp hbm
  rw [hslots, absent_append] at hs
  have hsent := positional_leaf (W := W) sentinel
  -- the first lookup, and the second one in the tree with the sentinel
  have hfirst := lookup hslots ha hal
  have hsecond := lookup hslots' hb hbl
  have hslots1 := slots_exchange hslots hsent hy
  rw [← cons_append, ← append_assoc] at hslots1
  have hlookup1 := lookup hslots1 hb
    (absent_append.mpr ⟨hbl', absent_cons.mpr ⟨ne_of_not_mem_leaf hbs, hbm⟩⟩)
  rw [append_assoc, cons_append] at hlookup1
  have hfill1 := refill_exchange hslots hsent hy (.leaf sentinel) x
  -- the sentinel in the tree with both changes
  have hlookup2 := lookup (slots_exchange hslots hsent hx) mem_leaf hs.1
  rw [CenterTree.swap, if_neg hab, hfirst, hsecond]
  simp only [isNone_some, Bool.or_self, Bool.false_eq_true, if_false, bind_eq_bind,
    bind_some, Option.pure_def]
  rw [hlookup1]
  simp only [bind_some, append_assoc, cons_append]
  rw [hfill1, hlookup2]
  simp only [bind_some]
  rw [refill_exchange hslots hsent hx y x]

/-- The pane in the later slot is lifted first. -/
theorem swap_backward (hslots : t.slots = l ++ x :: (m ++ y :: r)) (hab : a ≠ b)
    (ha : a ∈ y.paneIds) (hb : b ∈ x.paneIds) (hal : Absent a (l ++ x :: m)) (hbl : Absent b l)
    (hs : Absent sentinel t.slots) :
    t.swap a b = some (t.refill (l ++ y :: (m ++ x :: r)), true) := by
  obtain ⟨hx, hy⟩ := positional_slot hslots
  have hslots' : t.slots = (l ++ x :: m) ++ y :: r := by
    rw [hslots, append_assoc, cons_append]
  rw [hslots, absent_append, absent_cons, absent_append] at hs
  have hsent := positional_leaf (W := W) sentinel
  have hfirst := lookup hslots' ha hal
  have hsecond := lookup hslots hb hbl
  have hlookup1 := lookup (slots_exchange hslots hx hsent) hb hbl
  have hfill1 := refill_exchange hslots hx hsent y (.leaf sentinel)
  have hslots2 := slots_exchange hslots hy hsent
  have hys : sentinel ∉ y.paneIds := (absent_cons.mp hs.2.2.2).1
  rw [← cons_append, ← append_assoc] at hslots2
  have hlookup2 :=
    lookup hslots2 mem_leaf (absent_append.mpr ⟨hs.1, absent_cons.mpr ⟨hys, hs.2.2.1⟩⟩)
  rw [append_assoc, cons_append] at hlookup2
  rw [CenterTree.swap, if_neg hab, hfirst, hsecond]
  simp only [isNone_some, Bool.or_self, Bool.false_eq_true, if_false, bind_eq_bind,
    bind_some, Option.pure_def, append_assoc, cons_append]
  rw [hlookup1]
  simp only [bind_some]
  rw [hfill1, hlookup2]
  simp only [bind_some, append_assoc, cons_append]
  rw [refill_exchange hslots hy hsent y x]

end Lookup

/-! ## Exchanged slots -/

theorem nodup_slots {t : CenterTree W} (hd : t.paneIds.Nodup) {ns : List (CenterTree W)}
    (h : t.slots = ns) : (ns.flatMap CenterTree.paneIds).Nodup := by
  rw [← h, ← paneIds_eq_flatMap]
  exact hd

/-- **Panes of two slots exchange them.** -/
theorem swap_slots {t : CenterTree W} {l m r : List (CenterTree W)} {x y : CenterTree W}
    {a b : PaneId} (hd : t.paneIds.Nodup) (hs : sentinel ∉ t.paneIds) (hab : a ≠ b)
    (hslots : t.slots = l ++ x :: (m ++ y :: r))
    (h : (a ∈ x.paneIds ∧ b ∈ y.paneIds) ∨ (b ∈ x.paneIds ∧ a ∈ y.paneIds)) :
    t.swap a b = some (t.refill (l ++ y :: (m ++ x :: r)), true) := by
  have hslots' : t.slots = (l ++ x :: m) ++ y :: r := by
    rw [hslots, append_assoc, cons_append]
  have hx := fun p => @absent_of_nodup W l (m ++ y :: r) x p (nodup_slots hd hslots)
  have hy := fun p => @absent_of_nodup W (l ++ x :: m) r y p (nodup_slots hd hslots')
  have hsent := absent_iff.mpr hs
  rcases h with ⟨ha, hb⟩ | ⟨hb, ha⟩
  · have hbs : b ≠ sentinel := by
      rintro rfl
      exact hsent y (by rw [hslots]; simp) hb
    exact swap_forward hslots hab ha hb (hx a ha).1 (hy b hb).1 hsent hbs
  · exact swap_backward hslots hab ha hb (hy a ha).1 (hx b hb).1 hsent

/-- Two panes that share no stack are in different slots. -/
theorem exists_two_slots {t : CenterTree W} {a b : PaneId} (hab : a ≠ b) (ha : a ∈ t.paneIds)
    (hb : b ∈ t.paneIds) (hne : ¬ SameStack a b t) :
    ∃ l m r x y, t.slots = l ++ x :: (m ++ y :: r) ∧
      ((a ∈ x.paneIds ∧ b ∈ y.paneIds) ∨ (b ∈ x.paneIds ∧ a ∈ y.paneIds)) := by
  obtain ⟨l, n, r, hslots, han, -⟩ := exists_slot ha
  obtain ⟨n', hn', hbn⟩ := mem_paneIds.mp hb
  rw [hslots, mem_append, mem_cons] at hn'
  rcases hn' with hn' | rfl | hn'
  · obtain ⟨l', m, rfl⟩ := append_of_mem hn'
    refine ⟨l', m, r, n', n, ?_, .inr ⟨hbn, han⟩⟩
    rw [hslots, append_assoc, cons_append]
  · -- a slot with two panes is a stack
    have hmem : n' ∈ t.slots := by rw [hslots]; simp
    cases n' with
    | leaf p =>
      rw [CenterTree.paneIds, mem_singleton] at han hbn
      exact absurd (han.trans hbn.symm) hab
    | stack panes active =>
      rw [CenterTree.paneIds] at han hbn
      exact absurd ⟨panes, active, hmem, han, hbn⟩ hne
    | split dir children =>
      exact absurd (positional_of_mem_slots t _ hmem) (not_positional_split dir children)
  · obtain ⟨m, r', rfl⟩ := append_of_mem hn'
    exact ⟨l, m, r', n, n', hslots, .inl ⟨han, hbn⟩⟩

/-- **Two members of one stack**: the second lookup fails. -/
theorem swap_sameStack {t : CenterTree W} {a b : PaneId} (hd : t.paneIds.Nodup)
    (hs : sentinel ∉ t.paneIds) (hab : a ≠ b) (h : SameStack a b t) : t.swap a b = none := by
  obtain ⟨panes, active, hmem, ha, hb⟩ := h
  obtain ⟨l, r, hslots⟩ := append_of_mem hmem
  rw [← CenterTree.paneIds.eq_2 (W := W) panes active] at ha hb
  obtain ⟨hal, -⟩ := absent_of_nodup (nodup_slots hd hslots) ha
  obtain ⟨hbl, hbr⟩ := absent_of_nodup (nodup_slots hd hslots) hb
  have hpos := positional_of_mem_slots t
  rw [hslots, forall_mem_append, forall_mem_cons] at hpos
  have hslots1 : (t.refill (l ++ .leaf sentinel :: r)).slots = l ++ .leaf sentinel :: r := by
    refine slots_refill t _ ?_ (by rw [hslots]; simp)
    exact forall_mem_append.mpr ⟨hpos.1, forall_mem_cons.mpr ⟨positional_leaf _, hpos.2.2⟩⟩
  have hbs : b ≠ sentinel := by
    rintro rfl
    exact absent_iff.mpr hs _ hmem hb
  have hgone : b ∉ (t.refill (l ++ .leaf sentinel :: r)).paneIds := by
    rw [← absent_iff, hslots1]
    exact absent_append.mpr ⟨hbl, absent_cons.mpr ⟨ne_of_not_mem_leaf hbs, hbr⟩⟩
  rw [CenterTree.swap, if_neg hab, lookup hslots ha hal, lookup hslots hb hbl]
  simp only [isNone_some, Bool.or_self, Bool.false_eq_true, if_false, bind_eq_bind,
    bind_some, positionalNodeMut_none _ hgone, bind_none]

/-- **Swapping is sound exactly for panes that share no stack.** -/
theorem swap_sound {t : CenterTree W} {a b : PaneId} (hd : t.paneIds.Nodup)
    (hs : sentinel ∉ t.paneIds) (hab : a ≠ b) (ha : a ∈ t.paneIds) (hb : b ∈ t.paneIds) :
    SwapSound a b t ↔ ¬ SameStack a b t := by
  constructor
  · rintro ⟨t', ht', -⟩ hsame
    rw [swap_sameStack hd hs hab hsame] at ht'
    cases ht'
  · intro hne
    obtain ⟨l, m, r, x, y, hslots, h⟩ := exists_two_slots hab ha hb hne
    obtain ⟨hx, hy⟩ := positional_slot hslots
    have hslots' := slots_exchange hslots hy hx
    have hperm : (t.refill (l ++ y :: (m ++ x :: r))).paneIds.Perm t.paneIds := by
      rw [paneIds_eq_flatMap, paneIds_eq_flatMap t, hslots', hslots]
      exact (exchange_perm l m r x y).flatMap_right _
    refine ⟨_, swap_slots hd hs hab hslots h, hperm, ?_, ⟨l, m, r, x, y, hslots, hslots', h⟩, ?_⟩
    · have hlen : (l ++ y :: (m ++ x :: r)).length = t.slots.length := by
        rw [hslots]
        exact length_exchange l m r x y y x
      have hpos := positional_of_mem_slots t
      rw [hslots] at hpos
      rw [CenterTree.frame, CenterTree.frame, hslots', hlen]
      exact refill_refill t _ _ (positional_exchange hpos hy hx) hlen length_replicate
    · -- the slots are exchanged back
      have hback :=
        swap_slots (hperm.nodup_iff.mpr hd) (fun hc => hs (hperm.mem_iff.mp hc)) hab hslots'
        (h.symm.imp And.symm And.symm)
      rw [hback, refill_exchange hslots hy hx x y, ← hslots, refill_slots]

/-- A pane beside a stack of two. -/
def besideTwo : CenterTree Nat := .split .row [.mk 4 (.leaf 1), .mk 6 (.stack [2, 3] 0)]

theorem besideTwo_distinct : besideTwo.paneIds.Nodup ∧ sentinel ∉ besideTwo.paneIds := by
  have hids : besideTwo.paneIds = [1, 2, 3] := rfl
  rw [hids]
  decide

/-- Swapping the two members of a stack stops the program. -/
theorem besideTwo_swap : besideTwo.paneIds.Nodup ∧ sentinel ∉ besideTwo.paneIds ∧
    (2 : PaneId) ∈ besideTwo.paneIds ∧ (3 : PaneId) ∈ besideTwo.paneIds ∧
    besideTwo.swap 2 3 = none ∧ ¬ SwapSound 2 3 besideTwo := by
  have hids : besideTwo.paneIds = [1, 2, 3] := rfl
  have hnone : besideTwo.swap 2 3 = none := rfl
  refine ⟨besideTwo_distinct.1, besideTwo_distinct.2, by rw [hids]; decide, by rw [hids]; decide,
    hnone, ?_⟩
  rintro ⟨t', ht', -⟩
  rw [hnone] at ht'
  cases ht'

/-- Swapping the pane with a member of the stack moves the whole stack. -/
theorem besideTwo_sound : SwapSound 1 2 besideTwo := by
  have hids : besideTwo.paneIds = [1, 2, 3] := rfl
  refine (swap_sound besideTwo_distinct.1 besideTwo_distinct.2 (by decide) (by rw [hids]; decide)
    (by rw [hids]; decide)).mpr ?_
  rintro ⟨panes, active, hmem, hone, -⟩
  obtain ⟨rfl, -⟩ : panes = [2, 3] ∧ active = 0 := by
    simpa [besideTwo, CenterTree.slots, slotsIn] using hmem
  exact absurd hone (by decide)

end Thegn.Pane
