import Thegn.Pane.Close

set_option autoImplicit false

/-! # The positional nodes of a pane tree

The leaves and stacks of a tree are its slots: the units that `swap` and `anchor` move. A tree is
its splits and weights with the list of its slots filled in (`refill_slots`), and what
`positional_node_mut` borrows is one slot together with the way to fill it anew (`borrow_eq`).
What `remove` does is a change of this list too (`remove_slots`).
-/

namespace Thegn.Pane

open List

variable {W : Type}

/-! ## Slots -/

mutual

/-- The leaves and stacks of the tree, in order. -/
def CenterTree.slots : CenterTree W → List (CenterTree W)
  | .leaf p => [.leaf p]
  | .stack panes active => [.stack panes active]
  | .split _ children => slotsIn children

def slotsIn : List (Branch W) → List (CenterTree W)
  | [] => []
  | .mk _ child :: rest => child.slots ++ slotsIn rest

end

mutual

/-- The same splits and weights with other nodes in the slots. -/
def CenterTree.refill : CenterTree W → List (CenterTree W) → CenterTree W
  | .leaf p, ns => ns.headD (.leaf p)
  | .stack panes active, ns => ns.headD (.stack panes active)
  | .split dir children, ns => .split dir (refillIn children ns)

def refillIn : List (Branch W) → List (CenterTree W) → List (Branch W)
  | [], _ => []
  | .mk w child :: rest, ns =>
    .mk w (child.refill (ns.take child.slots.length)) :: refillIn rest (ns.drop child.slots.length)

end

section Steps

variable (p : PaneId) (panes : List PaneId) (active : Nat) (dir : Dir)
  (children : List (Branch W)) (w : W)
  (child : CenterTree W) (rest : List (Branch W)) (ns : List (CenterTree W))

theorem slots_leaf : (CenterTree.leaf p : CenterTree W).slots = [.leaf p] := rfl

theorem slots_stack : (CenterTree.stack panes active : CenterTree W).slots =
    [.stack panes active] := rfl

theorem slots_split : (CenterTree.split dir children).slots = slotsIn children := rfl

theorem slotsIn_nil : slotsIn ([] : List (Branch W)) = [] := rfl

theorem slotsIn_cons : slotsIn (.mk w child :: rest) = child.slots ++ slotsIn rest := rfl

theorem refill_leaf : (CenterTree.leaf p : CenterTree W).refill ns = ns.headD (.leaf p) := rfl

theorem refill_stack :
    (CenterTree.stack panes active : CenterTree W).refill ns = ns.headD (.stack panes active) := rfl

theorem refill_split : (CenterTree.split dir children).refill ns =
    .split dir (refillIn children ns) := rfl

theorem refillIn_cons :
    refillIn (.mk w child :: rest) ns = .mk w (child.refill (ns.take child.slots.length)) ::
        refillIn rest (ns.drop child.slots.length) := rfl

end Steps

theorem mem_leaf {p : PaneId} : p ∈ (CenterTree.leaf p : CenterTree W).paneIds := by
  rw [CenterTree.paneIds]
  exact mem_singleton_self p

/-- A node that fills a slot. -/
def Positional (n : CenterTree W) : Prop := n.slots = [n]

theorem positional_leaf (p : PaneId) : Positional (.leaf p : CenterTree W) := by
  rw [Positional, slots_leaf]

theorem positional_stack (panes : List PaneId) (active : Nat) :
    Positional (.stack panes active : CenterTree W) := by
  rw [Positional, slots_stack]

theorem positional_of_mem_slotsIn {bs : List (Branch W)}
    (h : ∀ b ∈ bs, ∀ n ∈ b.child.slots, Positional n) : ∀ n ∈ slotsIn bs, Positional n := by
  induction bs with
  | nil => intro n hn; cases hn
  | cons b bs ih =>
    have hb := h b (.head _)
    obtain ⟨w, child⟩ := b
    intro n hn
    rw [slotsIn_cons, mem_append] at hn
    rcases hn with hn | hn
    · exact hb n hn
    · exact ih (fun c hc => h c (.tail _ hc)) n hn

theorem positional_of_mem_slots (t : CenterTree W) : ∀ n ∈ t.slots, Positional n := by
  induction t using CenterTree.ind with
  | leaf p =>
    intro n hn
    rw [slots_leaf] at hn
    rw [mem_singleton.mp hn]
    exact positional_leaf p
  | stack panes active =>
    intro n hn
    rw [slots_stack] at hn
    rw [mem_singleton.mp hn]
    exact positional_stack panes active
  | split dir children ih =>
    rw [slots_split]
    exact positional_of_mem_slotsIn ih

theorem slotsIn_append (as bs : List (Branch W)) :
    slotsIn (as ++ bs) = slotsIn as ++ slotsIn bs := by
  induction as with
  | nil => rfl
  | cons b as ih =>
    obtain ⟨w, child⟩ := b
    rw [cons_append, slotsIn_cons, slotsIn_cons, ih, append_assoc]

theorem branchIds_eq_flatMap {bs : List (Branch W)}
    (h : ∀ b ∈ bs, b.child.paneIds = b.child.slots.flatMap CenterTree.paneIds) :
    branchIds bs = (slotsIn bs).flatMap CenterTree.paneIds := by
  induction bs with
  | nil => rfl
  | cons b bs ih =>
    have hb := h b (.head _)
    obtain ⟨w, child⟩ := b
    dsimp only at hb
    rw [branchIds, slotsIn_cons, flatMap_append, ← hb, ih fun c hc => h c (mem_cons_of_mem _ hc)]

/-- The ids of a tree are those of its slots. -/
theorem paneIds_eq_flatMap (t : CenterTree W) : t.paneIds = t.slots.flatMap CenterTree.paneIds := by
  induction t using CenterTree.ind with
  | leaf p => rw [slots_leaf, flatMap_singleton]
  | stack panes active => rw [slots_stack, flatMap_singleton]
  | split dir children ih => rw [CenterTree.paneIds, slots_split, branchIds_eq_flatMap ih]

theorem mem_paneIds {t : CenterTree W} {p : PaneId} : p ∈ t.paneIds ↔
    ∃ n ∈ t.slots, p ∈ n.paneIds := by
  rw [paneIds_eq_flatMap, mem_flatMap]

/-- The pane is in no slot of the list. -/
def Absent (p : PaneId) (ns : List (CenterTree W)) : Prop := ∀ n ∈ ns, p ∉ n.paneIds

theorem absent_append {p : PaneId} {ns ms : List (CenterTree W)} :
    Absent p (ns ++ ms) ↔ Absent p ns ∧ Absent p ms := forall_mem_append

theorem absent_cons {p : PaneId} {n : CenterTree W} {ms : List (CenterTree W)} :
    Absent p (n :: ms) ↔ p ∉ n.paneIds ∧ Absent p ms := forall_mem_cons

theorem absent_iff {p : PaneId} {t : CenterTree W} : Absent p t.slots ↔ p ∉ t.paneIds := by
  rw [mem_paneIds]
  simp only [Absent, not_exists, not_and]

/-- With distinct ids a pane of one slot is in no other one. -/
theorem absent_of_nodup {l r : List (CenterTree W)} {n : CenterTree W} {p : PaneId}
    (hd : ((l ++ n :: r).flatMap CenterTree.paneIds).Nodup) (hp : p ∈ n.paneIds) :
    Absent p l ∧ Absent p r := by
  rw [flatMap_append, List.flatMap_cons, nodup_append, nodup_append] at hd
  obtain ⟨-, ⟨-, -, hnr⟩, hlnr⟩ := hd
  constructor
  · intro m hm hpm
    exact hlnr p (mem_flatMap.mpr ⟨m, hm, hpm⟩) p (mem_append_left _ hp) rfl
  · intro m hm hpm
    exact hnr p hp p (mem_flatMap.mpr ⟨m, hm, hpm⟩) rfl

theorem exists_first {p : PaneId} {ns : List (CenterTree W)} (h : ∃ n ∈ ns, p ∈ n.paneIds) :
    ∃ l n r, ns = l ++ n :: r ∧ p ∈ n.paneIds ∧ Absent p l := by
  induction ns with
  | nil =>
    obtain ⟨n, hn, -⟩ := h
    cases hn
  | cons a ns ih =>
    obtain ⟨n, hn, hpn⟩ := h
    by_cases ha : p ∈ a.paneIds
    · exact ⟨[], a, ns, rfl, ha, fun _ hm => absurd hm not_mem_nil⟩
    · rcases mem_cons.mp hn with rfl | hn
      · exact absurd hpn ha
      · obtain ⟨l, n, r, rfl, hpn, hl⟩ := ih ⟨n, hn, hpn⟩
        exact ⟨a :: l, n, r, rfl, hpn, absent_cons.mpr ⟨ha, hl⟩⟩

/-- The first slot that holds a pane. -/
theorem exists_slot {t : CenterTree W} {p : PaneId} (hp : p ∈ t.paneIds) :
    ∃ l n r, t.slots = l ++ n :: r ∧ p ∈ n.paneIds ∧ Absent p l :=
  exists_first (mem_paneIds.mp hp)

/-! ## Filling the slots -/

theorem refillIn_slotsIn {bs : List (Branch W)}
    (h : ∀ b ∈ bs, b.child.refill b.child.slots = b.child) : refillIn bs (slotsIn bs) = bs := by
  induction bs with
  | nil => rfl
  | cons b bs ih =>
    have hb := h b (.head _)
    obtain ⟨w, child⟩ := b
    dsimp only at hb
    rw [refillIn_cons, slotsIn_cons, take_left, drop_left, hb, ih fun c hc => h c (.tail _ hc)]

/-- A tree is filled with its own slots. -/
theorem refill_slots (t : CenterTree W) : t.refill t.slots = t := by
  induction t using CenterTree.ind with
  | leaf p => rw [slots_leaf, refill_leaf, headD_cons]
  | stack panes active => rw [slots_stack, refill_stack, headD_cons]
  | split dir children ih => rw [slots_split, refill_split, refillIn_slotsIn ih]

theorem headD_of_length_one {ns : List (CenterTree W)} (h : ns.length = 1) (d : CenterTree W) :
    ns = [ns.headD d] := by
  obtain ⟨n, rfl⟩ := length_eq_one_iff.mp h
  rfl

/-- What `refill` puts in the slots. -/
def SlotsOfRefill (t : CenterTree W) : Prop :=
  ∀ ns : List (CenterTree W), (∀ n ∈ ns, Positional n) → ns.length = t.slots.length →
    (t.refill ns).slots = ns

theorem slotsIn_refillIn {bs : List (Branch W)} (h : ∀ b ∈ bs, SlotsOfRefill b.child) :
    ∀ {ns : List (CenterTree W)}, (∀ n ∈ ns, Positional n) → ns.length = (slotsIn bs).length →
      slotsIn (refillIn bs ns) = ns := by
  induction bs with
  | nil =>
    intro ns _ hlen
    rw [slotsIn_nil, length_nil] at hlen
    rw [length_eq_zero_iff.mp hlen]
    rfl
  | cons b bs ih =>
    intro ns hpos hlen
    have hb := h b (.head _)
    obtain ⟨w, child⟩ := b
    rw [slotsIn_cons, length_append] at hlen
    have htake : (ns.take child.slots.length).length = child.slots.length :=
      length_take_of_le (by omega)
    have hdrop : (ns.drop child.slots.length).length = (slotsIn bs).length := by
      rw [length_drop]
      omega
    rw [refillIn_cons, slotsIn_cons, hb _ (fun n hn => hpos n (mem_of_mem_take hn)) htake,
      ih (fun c hc => h c (.tail _ hc)) (fun n hn => hpos n (mem_of_mem_drop hn))
        hdrop, take_append_drop]

theorem slots_refill (t : CenterTree W) : SlotsOfRefill t := by
  induction t using CenterTree.ind with
  | leaf p =>
    intro ns hpos hlen
    have hone := headD_of_length_one (hlen.trans (by rw [slots_leaf]; rfl)) (.leaf p)
    rw [refill_leaf]
    have hhead := hpos (ns.headD (.leaf p)) (by rw [hone]; exact mem_singleton_self _)
    exact hhead.trans hone.symm
  | stack panes active =>
    intro ns hpos hlen
    have hone := headD_of_length_one (hlen.trans (by rw [slots_stack]; rfl)) (.stack panes active)
    rw [refill_stack]
    have hhead := hpos (ns.headD (.stack panes active)) (by rw [hone]; exact mem_singleton_self _)
    exact hhead.trans hone.symm
  | split dir children ih =>
    intro ns hpos hlen
    rw [slots_split] at hlen
    rw [refill_split, slots_split, slotsIn_refillIn ih hpos hlen]

/-- Filling again forgets what was filled in before. -/
def RefillTwice (t : CenterTree W) : Prop :=
  ∀ ns ms : List (CenterTree W), (∀ n ∈ ns, Positional n) → ns.length = t.slots.length →
    ms.length = t.slots.length → (t.refill ns).refill ms = t.refill ms

theorem refillIn_refillIn {bs : List (Branch W)} (h : ∀ b ∈ bs, RefillTwice b.child) :
    ∀ {ns ms : List (CenterTree W)}, (∀ n ∈ ns, Positional n) → ns.length = (slotsIn bs).length →
      ms.length = (slotsIn bs).length → refillIn (refillIn bs ns) ms = refillIn bs ms := by
  induction bs with
  | nil => intro ns ms _ _ _; rfl
  | cons b bs ih =>
    intro ns ms hpos hns hms
    have hb := h b (.head _)
    obtain ⟨w, child⟩ := b
    dsimp only at hb
    rw [slotsIn_cons, length_append] at hns hms
    have hpos' : ∀ n ∈ ns.take child.slots.length, Positional n :=
      fun n hn => hpos n (mem_of_mem_take hn)
    have htake : (ns.take child.slots.length).length = child.slots.length :=
      length_take_of_le (by omega)
    have htake' : (ms.take child.slots.length).length = child.slots.length :=
      length_take_of_le (by omega)
    have hdrop : (ns.drop child.slots.length).length = (slotsIn bs).length := by
      rw [length_drop]
      omega
    have hdrop' : (ms.drop child.slots.length).length = (slotsIn bs).length := by
      rw [length_drop]
      omega
    rw [refillIn_cons, refillIn_cons, slots_refill child _ hpos' htake, htake,
      hb _ _ hpos' htake htake',
      ih (fun c hc => h c (.tail _ hc)) (fun n hn => hpos n (mem_of_mem_drop hn))
        hdrop hdrop', refillIn_cons]

theorem headD_congr {ms : List (CenterTree W)} (h : ms.length = 1) (d e : CenterTree W) :
    ms.headD d = ms.headD e := by
  obtain ⟨n, rfl⟩ := length_eq_one_iff.mp h
  rfl

theorem ne_split_of_mem_slots (t : CenterTree W) : ∀ n ∈ t.slots, ∀ dir cs, n ≠ .split dir cs := by
  induction t using CenterTree.ind with
  | leaf p =>
    intro n hn
    rw [slots_leaf] at hn
    rw [mem_singleton.mp hn]
    exact fun _ _ => nofun
  | stack panes active =>
    intro n hn
    rw [slots_stack] at hn
    rw [mem_singleton.mp hn]
    exact fun _ _ => nofun
  | split dir children ih =>
    intro n hn
    rw [slots_split] at hn
    induction children with
    | nil => cases hn
    | cons b bs ihbs =>
      have hb := ih b (.head _)
      obtain ⟨w, child⟩ := b
      rw [slotsIn_cons, mem_append] at hn
      rcases hn with hn | hn
      · exact hb n hn
      · exact ihbs (fun c hc => ih c (.tail _ hc)) hn

/-- A split is not among its own slots. -/
theorem not_positional_split (dir : Dir) (children : List (Branch W)) :
    ¬ Positional (.split dir children) := by
  intro h
  rw [Positional] at h
  exact ne_split_of_mem_slots (.split dir children) _ (by rw [h]; exact mem_singleton_self _) dir
    children rfl

theorem refill_positional {n d : CenterTree W} (h : Positional n) {ms : List (CenterTree W)}
    (hms : ms.length = 1) : n.refill ms = ms.headD d := by
  cases n with
  | leaf p => rw [refill_leaf, headD_congr hms]
  | stack panes active => rw [refill_stack, headD_congr hms]
  | split dir children => exact absurd h (not_positional_split dir children)

theorem refill_refill (t : CenterTree W) : RefillTwice t := by
  induction t using CenterTree.ind with
  | leaf p =>
    intro ns ms hpos hns hms
    rw [slots_leaf] at hns hms
    rw [refill_leaf, refill_leaf]
    have hone := headD_of_length_one hns (.leaf p)
    exact refill_positional (hpos _ (by rw [hone]; exact mem_singleton_self _)) hms
  | stack panes active =>
    intro ns ms hpos hns hms
    rw [slots_stack] at hns hms
    rw [refill_stack, refill_stack]
    have hone := headD_of_length_one hns (.stack panes active)
    exact refill_positional (hpos _ (by rw [hone]; exact mem_singleton_self _)) hms
  | split dir children ih =>
    intro ns ms hpos hns hms
    rw [slots_split] at hns hms
    rw [refill_split, refill_split, refill_split, refillIn_refillIn ih hpos hns hms]

/-- A child is filled alone when the slots around it stay. -/
theorem refillIn_pre {w : W} {child : CenterTree W} {rest : List (Branch W)}
    {l r : List (CenterTree W)} {m : CenterTree W} (h : (l ++ m :: r).length = child.slots.length) :
    refillIn (.mk w child :: rest) (l ++ m :: (r ++ slotsIn rest)) =
      .mk w (child.refill (l ++ m :: r)) :: rest := by
  have hassoc : l ++ m :: (r ++ slotsIn rest) = (l ++ m :: r) ++ slotsIn rest := by
    rw [append_assoc, cons_append]
  rw [refillIn_cons, hassoc, ← h, take_left, drop_left,
    refillIn_slotsIn fun b _ => refill_slots b.child]

/-! ## Borrowing a positional node -/

/-- A mutable reference to a part of `α`: the node it points to, and `α` with another node there. -/
structure NodeMut (W α : Type) where
  node : CenterTree W
  write : CenterTree W → α

mutual

/-- The leaf of a tiled pane, or the stack of a stacked one. -/
def CenterTree.positionalNodeMut (p : PaneId) : CenterTree W → Option (NodeMut W (CenterTree W))
  | .leaf id => if id = p then some { node := .leaf id, write := fun n => n } else none
  | .stack panes active =>
    if p ∈ panes then some { node := .stack panes active, write := fun n => n } else none
  | .split dir children =>
    (positionalIn p children).map fun s =>
      { node := s.node, write := fun n => .split dir (s.write n) }

/-- `find_map` over the children. -/
def positionalIn (p : PaneId) : List (Branch W) → Option (NodeMut W (List (Branch W)))
  | [] => none
  | .mk w child :: rest =>
    match child.positionalNodeMut p with
    | some s => some { node := s.node, write := fun n => .mk w (s.write n) :: rest }
    | none =>
      (positionalIn p rest).map fun s =>
        { node := s.node, write := fun n => .mk w child :: s.write n }

end

theorem positionalIn_none {p : PaneId} {bs : List (Branch W)}
    (h : ∀ b ∈ bs, p ∉ b.child.paneIds → b.child.positionalNodeMut p = none)
    (hp : p ∉ branchIds bs) : positionalIn p bs = none := by
  induction bs with
  | nil => rfl
  | cons b bs ih =>
    have hb := h b (.head _)
    obtain ⟨w, child⟩ := b
    rw [branchIds, mem_append, not_or] at hp
    rw [positionalIn, hb hp.1, ih (fun c hc => h c (mem_cons_of_mem _ hc)) hp.2]
    rfl

/-- No reference to a pane that is not in the tree. -/
theorem positionalNodeMut_none {p : PaneId} (t : CenterTree W) :
    p ∉ t.paneIds → t.positionalNodeMut p = none := by
  induction t using CenterTree.ind with
  | leaf id =>
    intro hp
    rw [CenterTree.paneIds, mem_singleton] at hp
    rw [CenterTree.positionalNodeMut, if_neg (Ne.symm hp)]
  | stack panes active =>
    intro hp
    rw [CenterTree.paneIds] at hp
    rw [CenterTree.positionalNodeMut, if_neg hp]
  | split dir children ih =>
    intro hp
    rw [CenterTree.paneIds] at hp
    rw [CenterTree.positionalNodeMut, positionalIn_none ih hp]
    rfl

/-- The first slot that holds the pane is borrowed, and written by filling it anew. -/
def Borrows (p : PaneId) (t : CenterTree W) : Prop :=
  ∀ l n r, t.slots = l ++ n :: r → p ∈ n.paneIds → (∀ m ∈ l, p ∉ m.paneIds) →
    t.positionalNodeMut p = some { node := n, write := fun m => t.refill (l ++ m :: r) }

theorem slots_eq_singleton {n : CenterTree W} {l r : List (CenterTree W)} {m : CenterTree W}
    (h : [n] = l ++ m :: r) : l = [] ∧ m = n ∧ r = [] := by
  cases l with
  | nil =>
    rw [nil_append, List.cons.injEq] at h
    exact ⟨rfl, h.1.symm, h.2.symm⟩
  | cons a l =>
    have hlen := congrArg List.length h
    simp at hlen

theorem positionalIn_eq {p : PaneId} {bs : List (Branch W)} (h : ∀ b ∈ bs, Borrows p b.child) :
    ∀ l n r, slotsIn bs = l ++ n :: r → p ∈ n.paneIds → (∀ m ∈ l, p ∉ m.paneIds) →
      positionalIn p bs = some { node := n, write := fun m => refillIn bs (l ++ m :: r) } := by
  induction bs with
  | nil =>
    intro l n r hslots _ _
    rw [slotsIn_nil] at hslots
    exact absurd hslots.symm (append_ne_nil_of_right_ne_nil _ (cons_ne_nil _ _))
  | cons b bs ih =>
    have hb := h b (.head _)
    have hrest := ih fun c hc => h c (.tail _ hc)
    obtain ⟨w, child⟩ := b
    intro l n r hslots hp hl
    rw [slotsIn_cons, append_eq_append_iff] at hslots
    rw [positionalIn]
    rcases hslots with ⟨l', rfl, hslots⟩ | ⟨c', hchild, hslots⟩
    · -- the slots of this child are all before the one that holds the pane
      have hnot : p ∉ child.paneIds := by
        rw [mem_paneIds]
        rintro ⟨m, hm, hpm⟩
        exact hl m (mem_append_left _ hm) hpm
      rw [positionalNodeMut_none child hnot,
        hrest _ _ _ hslots hp fun m hm => hl m (mem_append_right _ hm)]
      simp only [Option.map_some, Option.some.injEq, NodeMut.mk.injEq, true_and]
      funext m
      rw [append_assoc, refillIn_cons, take_left, drop_left, refill_slots]
    · cases c' with
      | nil =>
        rw [append_nil] at hchild
        rw [nil_append] at hslots
        have hnot : p ∉ child.paneIds := by
          rw [mem_paneIds, hchild]
          rintro ⟨m, hm, hpm⟩
          exact hl m hm hpm
        rw [positionalNodeMut_none child hnot,
          hrest [] n r (by rw [nil_append, hslots]) hp fun m hm => absurd hm not_mem_nil]
        simp only [Option.map_some, Option.some.injEq, NodeMut.mk.injEq, true_and]
        funext m
        rw [nil_append, refillIn_cons, ← hchild, take_left, drop_left, refill_slots]
      | cons c cs =>
        rw [cons_append, List.cons.injEq] at hslots
        obtain ⟨rfl, rfl⟩ := hslots
        rw [hb l n cs hchild hp hl]
        simp only [Option.some.injEq, NodeMut.mk.injEq, true_and]
        funext m
        have hlen : (l ++ m :: cs).length = child.slots.length := by
          rw [hchild, length_append, length_append, length_cons, length_cons]
        exact (refillIn_pre hlen).symm

/-- **A borrowed node is a slot.** -/
theorem borrow_eq (p : PaneId) (t : CenterTree W) : Borrows p t := by
  induction t using CenterTree.ind with
  | leaf id =>
    intro l n r hslots hp _
    rw [slots_leaf] at hslots
    obtain ⟨rfl, rfl, rfl⟩ := slots_eq_singleton hslots
    rw [CenterTree.paneIds, mem_singleton] at hp
    rw [CenterTree.positionalNodeMut, if_pos hp.symm]
    rfl
  | stack panes active =>
    intro l n r hslots hp _
    rw [slots_stack] at hslots
    obtain ⟨rfl, rfl, rfl⟩ := slots_eq_singleton hslots
    rw [CenterTree.paneIds] at hp
    rw [CenterTree.positionalNodeMut, if_pos hp]
    rfl
  | split dir children ih =>
    intro l n r hslots hp hl
    rw [slots_split] at hslots
    rw [CenterTree.positionalNodeMut, positionalIn_eq ih _ _ _ hslots hp hl]
    rfl

/-- A reference is found exactly for the panes of the tree. -/
theorem positionalNodeMut_isNone {t : CenterTree W} {p : PaneId} :
    (t.positionalNodeMut p).isNone = true ↔ p ∉ t.paneIds := by
  constructor
  · intro h hp
    obtain ⟨l, n, r, hslots, hpn, hl⟩ := exists_slot hp
    rw [borrow_eq p t l n r hslots hpn hl] at h
    cases h
  · intro hp
    rw [positionalNodeMut_none t hp]
    rfl

/-! ## Removing a pane -/

theorem slots_collapse (dir : Dir) (bs : List (Branch W)) :
    (collapse dir bs).slots = slotsIn bs := by
  unfold collapse
  split
  · rename_i w only
    rw [slotsIn_cons, slotsIn_nil, append_nil]
  · rw [slots_split]

/-- What `remove` does to the slots: it takes the leaf of the pane out, or the pane out of its
stack. -/
def RemovesSlot (target : PaneId) (before after : List (CenterTree W)) (removed : Bool) : Prop :=
  ∃ l r, (before = l ++ .leaf target :: r ∧ after = l ++ r ∧ removed = true) ∨
    ∃ panes active i, before = l ++ .stack panes active :: r ∧ panes.idxOf? target = some i ∧
      after = l ++ (removeMember panes active i).1 :: r ∧
        removed = (removeMember panes active i : CenterTree W × Bool).2

theorem RemovesSlot.append_left {target : PaneId} {before after : List (CenterTree W)}
    {removed : Bool} (h : RemovesSlot target before after removed) (s : List (CenterTree W)) :
    RemovesSlot target (s ++ before) (s ++ after) removed := by
  obtain ⟨l, r, ⟨rfl, rfl, hr⟩ | ⟨panes, active, i, rfl, hi, rfl, hr⟩⟩ := h
  · exact ⟨s ++ l, r, .inl ⟨by rw [append_assoc], by rw [append_assoc], hr⟩⟩
  · exact ⟨s ++ l, r, .inr ⟨panes, active, i, by rw [append_assoc], hi, by rw [append_assoc], hr⟩⟩

theorem RemovesSlot.append_right {target : PaneId} {before after : List (CenterTree W)}
    {removed : Bool} (h : RemovesSlot target before after removed) (s : List (CenterTree W)) :
    RemovesSlot target (before ++ s) (after ++ s) removed := by
  obtain ⟨l, r, ⟨rfl, rfl, hr⟩ | ⟨panes, active, i, rfl, hi, rfl, hr⟩⟩ := h
  · exact ⟨l, r ++ s, .inl ⟨by rw [append_assoc, cons_append], by rw [append_assoc], hr⟩⟩
  · refine ⟨l, r ++ s, .inr ⟨panes, active, i, ?_, hi, ?_, hr⟩⟩
    · rw [append_assoc, cons_append]
    · rw [append_assoc, cons_append]

theorem removeIn_slots {target : PaneId} {bs : List (Branch W)}
    (h : ∀ b ∈ bs, target ∈ b.child.paneIds →
      RemovesSlot target b.child.slots (b.child.remove target).1.slots (b.child.remove target).2)
    (hd : (branchIds bs).Nodup) (hm : target ∈ branchIds bs) :
    RemovesSlot target (slotsIn bs) (slotsIn (removeIn target bs).1) (removeIn target bs).2 := by
  induction bs with
  | nil => cases hm
  | cons b bs ih =>
    have hb := h b (.head _)
    obtain ⟨w, child⟩ := b
    rw [branchIds] at hd hm
    obtain ⟨-, hdrest, hdis⟩ := nodup_append.mp hd
    rw [removeIn, slotsIn_cons]
    by_cases hchild : target ∈ child.paneIds
    · have hrest : target ∉ branchIds bs := fun hc => hdis target hchild target hc rfl
      have hspec := (hb hchild).append_right (slotsIn bs)
      dsimp only at hspec ⊢
      rw [removeIn_of_not_mem hrest]
      cases hr : (child.remove target).2 with
      | true =>
        rw [hr] at hspec
        rw [if_pos rfl, slotsIn_cons]
        exact hspec
      | false =>
        rw [hr] at hspec
        rw [if_neg Bool.false_ne_true, slotsIn_cons]
        exact hspec
    · rw [remove_of_not_mem child hchild]
      have hrest := ih (fun c hc => h c (.tail _ hc)) hdrest
        ((mem_append.mp hm).resolve_left hchild)
      exact hrest.append_left child.slots

theorem findIdx_isLeaf_none {target : PaneId} {bs : List (Branch W)}
    (h : bs.findIdx? (Branch.isLeaf target) = none) : ∀ b ∈ bs, b.child ≠ .leaf target := by
  intro b hb hleaf
  have hno := List.findIdx?_eq_none_iff.mp h b hb
  obtain ⟨w, child⟩ := b
  dsimp only at hleaf
  rw [hleaf, Branch.isLeaf, decide_eq_false_iff_not] at hno
  exact hno rfl

/-- **`remove` changes one slot.** -/
theorem remove_slots {target : PaneId} (t : CenterTree W) :
    t.paneIds.Nodup → target ∈ t.paneIds → t ≠ .leaf target →
      RemovesSlot target t.slots (t.remove target).1.slots (t.remove target).2 := by
  induction t using CenterTree.ind with
  | leaf p =>
    intro _ hm hne
    rw [CenterTree.paneIds, mem_singleton] at hm
    rw [hm] at hne
    exact absurd rfl hne
  | stack panes active =>
    intro _ hm _
    rw [CenterTree.paneIds] at hm
    obtain ⟨i, hi⟩ := Option.isSome_iff_exists.mp (isSome_idxOf?.mpr hm)
    refine ⟨[], [], .inr ⟨panes, active, i, ?_, hi, ?_, ?_⟩⟩
    · rw [slots_stack, nil_append]
    · rw [CenterTree.remove, hi]
      exact positional_stack _ _
    · rw [CenterTree.remove, hi]
  | split dir children ih =>
    intro hd hm _
    rw [CenterTree.paneIds] at hd hm
    rw [CenterTree.remove]
    cases hi : children.findIdx? (Branch.isLeaf target) with
    | some i =>
      obtain ⟨pre, w, post, rfl, herase⟩ := findIdx_isLeaf hi
      refine ⟨slotsIn pre, slotsIn post, .inl ⟨?_, ?_, rfl⟩⟩
      · rw [slots_split, slotsIn_append, slotsIn_cons, slots_leaf, singleton_append]
      · dsimp only
        rw [herase, slots_collapse, slotsIn_append]
    | none =>
      have hnodup : ∀ b ∈ children, b.child.paneIds.Nodup := by
        intro b hb
        obtain ⟨pre, post, rfl⟩ := append_of_mem hb
        obtain ⟨w, child⟩ := b
        rw [branchIds_append, branchIds, nodup_append, nodup_append] at hd
        exact hd.2.1.1
      have hspec := removeIn_slots (fun b hb hmem => ih b hb (hnodup b hb) hmem
        (findIdx_isLeaf_none hi b hb)) hd hm
      rw [slots_split]
      exact hspec

end Thegn.Pane
