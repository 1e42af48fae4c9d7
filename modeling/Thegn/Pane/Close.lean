import Thegn.Pane.Tree

set_option autoImplicit false

/-! # Closing panes

`remove` is exact: it deletes the target's id and keeps the tree well formed, or leaves the tree
alone. There is one exception (`SoleMember`): when the target is the only member of a stack, the
stack is emptied and the report says that nothing was removed. `removeExact_iff_not_soleMember`
says that this is the only one, and `wellFormed_of_reachable` that every tree reached without it is
well formed.
-/

namespace Thegn.Pane

open List

variable {W : Type}

mutual

/-- The target is the only member of a stack of the tree. -/
def CenterTree.SoleMember (target : PaneId) : CenterTree W → Prop
  | .leaf _ => False
  | .stack panes _ => panes = [target]
  | .split _ children => SoleMemberIn target children

def SoleMemberIn (target : PaneId) : List (Branch W) → Prop
  | [] => False
  | .mk _ child :: rest => child.SoleMember target ∨ SoleMemberIn target rest

end

/-- **What closing a pane should do**: a reported removal deletes exactly the target's id and keeps
the tree well formed; otherwise the tree is unchanged. -/
def RemoveExact (t : CenterTree W) (target : PaneId) : Prop :=
  ((t.remove target).2 = true → target ∈ t.paneIds
      ∧ (t.remove target).1.paneIds = t.paneIds.erase target ∧ (t.remove target).1.WellFormed)
    ∧ ((t.remove target).2 = false → (t.remove target).1 = t)

/-! ## Lists of children -/

theorem branchIds_append (as bs : List (Branch W)) :
    branchIds (as ++ bs) = branchIds as ++ branchIds bs := by
  induction as with
  | nil => rfl
  | cons b as ih =>
    obtain ⟨w, child⟩ := b
    rw [cons_append, branchIds, branchIds, ih, append_assoc]

theorem ShapedIn_append {as bs : List (Branch W)} :
    ShapedIn (as ++ bs) ↔ ShapedIn as ∧ ShapedIn bs := by
  induction as with
  | nil => simp [ShapedIn]
  | cons b as ih =>
    obtain ⟨w, child⟩ := b
    rw [cons_append, ShapedIn, ShapedIn, ih, and_assoc]

/-- A child that is found, with the children before and after it. -/
theorem findIdx_isLeaf {target : PaneId} {children : List (Branch W)} {i : Nat}
    (h : children.findIdx? (Branch.isLeaf target) = some i) :
    ∃ pre w post, children = pre ++ .mk w (.leaf target) :: post
      ∧ children.eraseIdx i = pre ++ post := by
  obtain ⟨hi, hp, -⟩ := List.findIdx?_eq_some_iff_getElem.mp h
  have hsplit : children = children.take i ++ children[i] :: children.drop (i + 1) := by
    rw [getElem_cons_drop, take_append_drop]
  have hleaf : ∃ w, children[i] = .mk w (.leaf target) := by
    generalize children[i] = b at hp
    obtain ⟨w, child⟩ := b
    cases child with
    | leaf p =>
      have hpt : p = target := by simpa [Branch.isLeaf] using hp
      exact ⟨w, by rw [hpt]⟩
    | stack panes active => simp [Branch.isLeaf] at hp
    | split dir cs => simp [Branch.isLeaf] at hp
  obtain ⟨w, hw⟩ := hleaf
  rw [hw] at hsplit
  exact ⟨children.take i, w, children.drop (i + 1), hsplit, eraseIdx_eq_take_drop_succ _ _⟩

/-! ## Removing from a tree -/

/-- What a successful removal gives. -/
def Removed (target : PaneId) (ids ids' : List PaneId) : Prop :=
  target ∈ ids ∧ ids' = ids.erase target

theorem removeMember_spec {target : PaneId} {panes : List PaneId} {active i : Nat}
    (hi : panes.idxOf? target = some i) (hne : panes ≠ [target]) :
    (removeMember panes active i : CenterTree W × Bool).2 = true
      ∧ Removed target panes (removeMember panes active i : CenterTree W × Bool).1.paneIds
      ∧ (removeMember panes active i : CenterTree W × Bool).1.Shaped := by
  have hmem : target ∈ panes := by
    by_contra hc
    rw [List.idxOf?_eq_none_iff.mpr hc] at hi
    cases hi
  have herase : panes.erase target = panes.eraseIdx i := by
    rw [erase_eq_eraseIdx, hi]
  have hlen : (panes.erase target).length = panes.length - 1 := length_erase_of_mem hmem
  have hpos : 0 < (panes.erase target).length := by
    rcases panes with _ | ⟨a, _ | ⟨b, rest⟩⟩
    · cases hmem
    · rw [mem_singleton.mp hmem] at hne
      exact absurd rfl hne
    · rw [hlen, length_cons, length_cons]
      omega
  unfold removeMember
  rw [← herase]
  refine ⟨?_, ⟨hmem, ?_⟩, ?_⟩
  · have hnil : panes.erase target ≠ [] := length_pos_iff.mp hpos
    simp [hnil]
  · rw [CenterTree.paneIds]
  · rw [CenterTree.Shaped]
    split_ifs <;> omega

theorem collapse_spec {dir : Dir} {target : PaneId} {pre post : List (Branch W)} {w : W}
    (hshape : ShapedIn (pre ++ .mk w (.leaf target) :: post))
    (hlen : 2 ≤ (pre ++ Branch.mk w (.leaf target) :: post).length)
    (hdis : (branchIds (pre ++ .mk w (.leaf target) :: post)).Nodup) :
    Removed target (branchIds (pre ++ .mk w (.leaf target) :: post))
        (collapse dir (pre ++ post)).paneIds
      ∧ (collapse dir (pre ++ post)).Shaped := by
  have hids : branchIds (pre ++ .mk w (.leaf target) :: post)
      = branchIds pre ++ target :: branchIds post := by
    rw [branchIds_append, branchIds, CenterTree.paneIds]
    rfl
  have hshape' : ShapedIn (pre ++ post) := by
    rw [ShapedIn_append, ShapedIn] at hshape
    exact ShapedIn_append.mpr ⟨hshape.1, hshape.2.2⟩
  have herase : (branchIds pre ++ target :: branchIds post).erase target =
    branchIds (pre ++ post) := by
    have hnot : target ∉ branchIds pre := by
      rw [hids, nodup_append] at hdis
      intro hc
      exact hdis.2.2 target hc target (.head _) rfl
    rw [erase_append_right _ hnot, erase_cons_head, branchIds_append]
  have hpaneIds : (collapse dir (pre ++ post)).paneIds = branchIds (pre ++ post) := by
    rcases pre ++ post with _ | ⟨⟨w', only⟩, _ | ⟨c, rest⟩⟩
    · rfl
    · rw [collapse, branchIds, branchIds, append_nil]
    · rfl
  refine ⟨⟨by rw [hids]; simp, by rw [hpaneIds, hids, herase]⟩, ?_⟩
  have hlen' : 1 ≤ (pre ++ post).length := by
    rw [length_append, length_cons] at hlen
    rw [length_append]
    omega
  revert hshape' hlen'
  rcases pre ++ post with _ | ⟨⟨w', only⟩, _ | ⟨c, rest⟩⟩
  · intro _ hl
    rw [length_nil] at hl
    omega
  · intro hs _
    rw [ShapedIn] at hs
    exact hs.1
  · intro hs _
    rw [collapse, CenterTree.Shaped]
    · refine ⟨?_, hs⟩
      rw [length_cons, length_cons]
      omega
    · intro w only h
      cases h

/-- What `remove` does when the target is not the sole member of a stack. -/
def RemoveSpec (target : PaneId) (t : CenterTree W) : Prop :=
  t.Shaped → t.paneIds.Nodup → ¬ t.SoleMember target →
    ((t.remove target).2 = true ∧ Removed target t.paneIds (t.remove target).1.paneIds
      ∧ (t.remove target).1.Shaped)
    ∨ t.remove target = (t, false)

/-- The loop over the children of a split. -/
theorem removeIn_spec {target : PaneId} (bs : List (Branch W)) :
    (∀ b ∈ bs, RemoveSpec target b.child) → ShapedIn bs → (branchIds bs).Nodup →
      ¬ SoleMemberIn target bs →
      ((removeIn target bs).2 = true
        ∧ Removed target (branchIds bs) (branchIds (removeIn target bs).1)
        ∧ ShapedIn (removeIn target bs).1 ∧ (removeIn target bs).1.length = bs.length)
      ∨ removeIn target bs = (bs, false) := by
  induction bs with
  | nil => intro _ _ _ _; exact Or.inr rfl
  | cons b bs ih =>
    intro hspec hs hd hn
    have hb := hspec b (by simp)
    obtain ⟨w, child⟩ := b
    rw [ShapedIn] at hs
    rw [branchIds] at hd
    rw [SoleMemberIn, not_or] at hn
    obtain ⟨hd1, hd2, hd12⟩ := nodup_append.mp hd
    have hrest := ih (fun c hc => hspec c (by simp [hc])) hs.2 hd2 hn.2
    rw [removeIn, branchIds]
    rcases hb hs.1 hd1 hn.1 with ⟨htrue, ⟨hmem, hids⟩, hshaped⟩ | hsame
    · left
      dsimp only at htrue hids hshaped hmem ⊢
      rw [htrue, if_pos rfl]
      refine ⟨rfl, ⟨mem_append_left _ hmem, ?_⟩, ⟨hshaped, hs.2⟩, rfl⟩
      rw [branchIds, hids, erase_append_left _ hmem]
    · dsimp only at hsame
      rw [hsame]
      rcases hrest with ⟨htrue, ⟨hmem, hids⟩, hshaped, hlen⟩ | hsame'
      · left
        have hnot : target ∉ child.paneIds := fun hc => hd12 target hc target hmem rfl
        refine ⟨htrue, ⟨mem_append_right _ hmem, ?_⟩, ⟨hs.1, hshaped⟩, ?_⟩
        · show branchIds (.mk w child :: (removeIn target bs).1) = _
          rw [branchIds, hids, erase_append_right _ hnot]
        · show (Branch.mk w child :: (removeIn target bs).1).length = _
          rw [length_cons, length_cons, hlen]
      · right
        rw [hsame']
        rfl

/-- **Removing a pane that is not the sole member of a stack.** -/
theorem remove_spec (target : PaneId) (t : CenterTree W) : RemoveSpec target t := by
  induction t using CenterTree.ind with
  | leaf p =>
    intro _ _ _
    exact Or.inr (by rw [CenterTree.remove])
  | stack panes active =>
    intro hshape hdis hsole
    rw [CenterTree.SoleMember] at hsole
    rw [CenterTree.remove]
    cases hi : panes.idxOf? target with
    | none => exact Or.inr rfl
    | some i =>
      left
      rw [CenterTree.paneIds]
      exact removeMember_spec hi hsole
  | split dir children ih =>
    intro hshape hdis hsole
    rw [CenterTree.Shaped] at hshape
    rw [CenterTree.paneIds] at hdis
    rw [CenterTree.SoleMember] at hsole
    rw [CenterTree.remove, CenterTree.paneIds]
    cases hi : children.findIdx? (Branch.isLeaf target) with
    | some i =>
      obtain ⟨pre, w, post, rfl, herase⟩ := findIdx_isLeaf hi
      left
      dsimp only
      rw [herase]
      exact ⟨rfl, collapse_spec hshape.2 hshape.1 hdis⟩
    | none =>
      rcases removeIn_spec children ih hshape.2 hdis hsole with
        ⟨htrue, hrem, hshaped, hlen⟩ | hsame
      · left
        refine ⟨htrue, ?_, ?_⟩
        · show Removed target _ (CenterTree.split dir (removeIn target children).1).paneIds
          rw [CenterTree.paneIds]
          exact hrem
        · show (CenterTree.split dir (removeIn target children).1).Shaped
          rw [CenterTree.Shaped, hlen]
          exact ⟨hshape.1, hshaped⟩
      · right
        dsimp only
        rw [hsame]

/-! ## The sole member of a stack -/

theorem remove_of_not_mem {target : PaneId} (t : CenterTree W) :
    target ∉ t.paneIds → t.remove target = (t, false) := by
  induction t using CenterTree.ind with
  | leaf p => intro _; rw [CenterTree.remove]
  | stack panes active =>
    intro h
    rw [CenterTree.paneIds] at h
    rw [CenterTree.remove, List.idxOf?_eq_none_iff.mpr h]
  | split dir children ih =>
    intro h
    rw [CenterTree.paneIds] at h
    have hnone : children.findIdx? (Branch.isLeaf target) = none := by
      cases hi : children.findIdx? (Branch.isLeaf target) with
      | none => rfl
      | some i =>
        obtain ⟨pre, w, post, rfl, -⟩ := findIdx_isLeaf hi
        refine absurd ?_ h
        rw [branchIds_append, branchIds, CenterTree.paneIds]
        simp
    have hsame : ∀ bs : List (Branch W), (∀ b ∈ bs, b ∈ children) → target ∉ branchIds bs →
        removeIn target bs = (bs, false) := by
      intro bs
      induction bs with
      | nil => intro _ _; rfl
      | cons b bs ihbs =>
        intro hsub hn
        have hb := ih b (hsub b (by simp))
        obtain ⟨w, child⟩ := b
        rw [branchIds, mem_append, not_or] at hn
        rw [removeIn, hb hn.1]
        dsimp only
        rw [ihbs (fun c hc => hsub c (by simp [hc])) hn.2]
        rfl
    rw [CenterTree.remove, hnone]
    dsimp only
    rw [hsame children (fun b hb => hb) h]

theorem mem_of_soleMember {target : PaneId} (t : CenterTree W) :
    t.SoleMember target → target ∈ t.paneIds := by
  induction t using CenterTree.ind with
  | leaf p => intro h; rw [CenterTree.SoleMember] at h; exact h.elim
  | stack panes active =>
    intro h
    rw [CenterTree.SoleMember] at h
    rw [CenterTree.paneIds, h]
    exact mem_singleton_self target
  | split dir children ih =>
    intro h
    rw [CenterTree.SoleMember] at h
    rw [CenterTree.paneIds]
    induction children with
    | nil => rw [SoleMemberIn] at h; exact h.elim
    | cons b bs ihbs =>
      have hb := ih b (by simp)
      obtain ⟨w, child⟩ := b
      rw [SoleMemberIn] at h
      rw [branchIds, mem_append]
      rcases h with h | h
      · exact Or.inl (hb h)
      · exact Or.inr (ihbs (fun c hc => ih c (by simp [hc])) h)

theorem mem_of_soleMemberIn {target : PaneId} {bs : List (Branch W)} (h : SoleMemberIn target bs) :
    target ∈ branchIds bs := by
  have hmem := mem_of_soleMember (CenterTree.split .row bs) (by rw [CenterTree.SoleMember]; exact h)
  rwa [CenterTree.paneIds] at hmem

theorem removeIn_of_not_mem {target : PaneId} {bs : List (Branch W)} (h : target ∉ branchIds bs) :
    removeIn target bs = (bs, false) := by
  induction bs with
  | nil => rfl
  | cons b bs ih =>
    obtain ⟨w, child⟩ := b
    rw [branchIds, mem_append, not_or] at h
    rw [removeIn, remove_of_not_mem child h.1]
    dsimp only
    rw [ih h.2]
    rfl

/-- With distinct ids, no child is a leaf with the id of a sole stack member. -/
theorem findIdx_of_soleMemberIn {target : PaneId} {children : List (Branch W)}
    (hdis : (branchIds children).Nodup) (h : SoleMemberIn target children) :
    children.findIdx? (Branch.isLeaf target) = none := by
  cases hi : children.findIdx? (Branch.isLeaf target) with
  | none => rfl
  | some i =>
    obtain ⟨pre, w, post, rfl, -⟩ := findIdx_isLeaf hi
    have hsplit : SoleMemberIn target pre ∨ SoleMemberIn target post := by
      clear hi hdis
      induction pre with
      | nil =>
        rw [nil_append, SoleMemberIn, CenterTree.SoleMember, false_or] at h
        exact Or.inr h
      | cons b pre ih =>
        obtain ⟨w', child⟩ := b
        rw [cons_append, SoleMemberIn] at h
        rw [SoleMemberIn, or_assoc]
        rcases h with h | h
        · exact Or.inl h
        · exact Or.inr (ih h)
    rw [branchIds_append, branchIds, CenterTree.paneIds, singleton_append,
      nodup_append, nodup_cons] at hdis
    rcases hsplit with h1 | h1
    · exact absurd rfl (hdis.2.2 target (mem_of_soleMemberIn h1) target (.head _))
    · exact absurd (mem_of_soleMemberIn h1) hdis.2.1.1

/-- **Removing the sole member of a stack changes the tree and reports failure.** -/
theorem remove_soleMember {target : PaneId} (t : CenterTree W) :
    t.paneIds.Nodup → t.SoleMember target →
      (t.remove target).2 = false ∧ (t.remove target).1 ≠ t := by
  induction t using CenterTree.ind with
  | leaf p => intro _ h; rw [CenterTree.SoleMember] at h; exact h.elim
  | stack panes active =>
    intro _ h
    rw [CenterTree.SoleMember] at h
    rw [h, CenterTree.remove]
    have hidx : [target].idxOf? target = some 0 := by simp [List.idxOf?]
    rw [hidx]
    refine ⟨rfl, ?_⟩
    intro hc
    injection hc with hc
    cases hc
  | split dir children ih =>
    intro hdis h
    rw [CenterTree.paneIds] at hdis
    rw [CenterTree.SoleMember] at h
    have key : ∀ bs : List (Branch W), (∀ b ∈ bs, b ∈ children) → (branchIds bs).Nodup →
        SoleMemberIn target bs → (removeIn target bs).2 = false ∧ (removeIn target bs).1 ≠ bs := by
      intro bs
      induction bs with
      | nil => intro _ _ h; rw [SoleMemberIn] at h; exact h.elim
      | cons b bs ihbs =>
        intro hsub hd hs
        have hb := ih b (hsub b (by simp))
        obtain ⟨w, child⟩ := b
        rw [branchIds] at hd
        rw [SoleMemberIn] at hs
        obtain ⟨hd1, hd2, hd12⟩ := nodup_append.mp hd
        rw [removeIn]
        rcases hs with hs | hs
        · -- the member is in this child, so in no later one
          have hnot : target ∉ branchIds bs :=
            fun hc => hd12 target (mem_of_soleMember child hs) target hc rfl
          obtain ⟨hfalse, hne⟩ := hb hd1 hs
          dsimp only at hfalse hne ⊢
          rw [hfalse, removeIn_of_not_mem hnot]
          refine ⟨rfl, ?_⟩
          intro hc
          injection hc with hc
          injection hc with _ hc
          exact hne hc
        · have hnot : target ∉ child.paneIds :=
            fun hc => hd12 target hc target (mem_of_soleMemberIn hs) rfl
          obtain ⟨hfalse, hne⟩ := ihbs (fun c hc => hsub c (by simp [hc])) hd2 hs
          rw [remove_of_not_mem child hnot]
          refine ⟨hfalse, ?_⟩
          intro hc
          injection hc with _ hc
          exact hne hc
    obtain ⟨hfalse, hne⟩ := key children (fun b hb => hb) hdis h
    rw [CenterTree.remove, findIdx_of_soleMemberIn hdis h]
    refine ⟨hfalse, ?_⟩
    intro hc
    injection hc with _ hc
    exact hne hc

/-- Closing a pane is exact for every target but the sole member of a stack. -/
theorem removeExact_iff_not_soleMember {t : CenterTree W} (ht : t.WellFormed) (target : PaneId) :
    RemoveExact t target ↔ ¬ t.SoleMember target := by
  constructor
  · rintro ⟨-, hunchanged⟩ hs
    obtain ⟨hfalse, hne⟩ := remove_soleMember t ht.distinct hs
    exact hne (hunchanged hfalse)
  · intro hs
    rcases remove_spec target t ht.shaped ht.distinct hs with ⟨htrue, ⟨hmem, hids⟩, hshaped⟩ | hsame
    · refine ⟨fun _ => ⟨hmem, hids, hshaped, ?_⟩, fun hfalse => ?_⟩
      · rw [hids]
        exact ht.distinct.erase target
      · rw [htrue] at hfalse
        cases hfalse
    · rw [RemoveExact, hsame]
      exact ⟨(fun h => nomatch h), fun _ => rfl⟩

/-! ## Splitting and activating -/

/-- Splitting a pane keeps the shape and adds the new id once, or changes nothing. -/
theorem splitPane_spec [One W] {target newId : PaneId} {dir : Dir} (t : CenterTree W) :
    t.Shaped →
      ((t.splitPane target dir newId).2 = true ∧ (t.splitPane target dir newId).1.Shaped
        ∧ (t.splitPane target dir newId).1.paneIds.Perm (newId :: t.paneIds))
      ∨ t.splitPane target dir newId = (t, false) := by
  induction t using CenterTree.ind with
  | leaf p =>
    intro _
    rw [CenterTree.splitPane]
    split_ifs
    · left
      refine ⟨rfl, by simp [CenterTree.Shaped, ShapedIn], ?_⟩
      simp only [CenterTree.paneIds, branchIds, append_nil, singleton_append]
      exact List.Perm.swap _ _ _
    · exact Or.inr rfl
  | stack panes active =>
    intro _
    exact Or.inr (by rw [CenterTree.splitPane])
  | split d children ih =>
    intro h
    rw [CenterTree.Shaped] at h
    have key : ∀ bs : List (Branch W), (∀ b ∈ bs, b ∈ children) → ShapedIn bs →
        ((splitIn target dir newId bs).2 = true ∧ ShapedIn (splitIn target dir newId bs).1
          ∧ (splitIn target dir newId bs).1.length = bs.length
          ∧ (branchIds (splitIn target dir newId bs).1).Perm (newId :: branchIds bs))
        ∨ splitIn target dir newId bs = (bs, false) := by
      intro bs
      induction bs with
      | nil => intro _ _; exact Or.inr rfl
      | cons b bs ihbs =>
        intro hsub hs
        have hb := ih b (hsub b (by simp))
        obtain ⟨w, child⟩ := b
        rw [ShapedIn] at hs
        rw [splitIn, branchIds]
        rcases hb hs.1 with ⟨htrue, hshaped, hperm⟩ | hsame
        · left
          dsimp only at htrue hshaped hperm ⊢
          rw [htrue, if_pos rfl]
          refine ⟨rfl, ⟨hshaped, hs.2⟩, rfl, ?_⟩
          rw [branchIds]
          exact hperm.append_right _
        · dsimp only at hsame
          rw [hsame]
          rcases ihbs (fun c hc => hsub c (by simp [hc])) hs.2 with
            ⟨htrue, hshaped, hlen, hperm⟩ | hsame'
          · left
            refine ⟨htrue, ⟨hs.1, hshaped⟩, ?_, ?_⟩
            · show (Branch.mk w child :: (splitIn target dir newId bs).1).length = _
              rw [length_cons, length_cons, hlen]
            · show (branchIds (.mk w child :: (splitIn target dir newId bs).1)).Perm _
              rw [branchIds]
              exact (hperm.append_left _).trans perm_middle
          · right
            rw [hsame']
            rfl
    rw [CenterTree.splitPane, CenterTree.paneIds]
    rcases key children (fun b hb => hb) h.2 with ⟨htrue, hshaped, hlen, hperm⟩ | hsame
    · left
      refine ⟨htrue, ?_, ?_⟩
      · show (CenterTree.split d (splitIn target dir newId children).1).Shaped
        rw [CenterTree.Shaped, hlen]
        exact ⟨h.1, hshaped⟩
      · show (CenterTree.split d (splitIn target dir newId children).1).paneIds.Perm _
        rw [CenterTree.paneIds]
        exact hperm
    · right
      rw [hsame]

/-- Expanding a stack member keeps the shape and the ids. -/
theorem activateStackMember_spec {pane : PaneId} (t : CenterTree W) :
    t.Shaped → (t.activateStackMember pane).1.Shaped
      ∧ (t.activateStackMember pane).1.paneIds = t.paneIds := by
  induction t using CenterTree.ind with
  | leaf p => intro h; rw [CenterTree.activateStackMember]; exact ⟨h, rfl⟩
  | stack panes active =>
    intro h
    rw [CenterTree.activateStackMember]
    cases hi : panes.idxOf? pane with
    | none => exact ⟨h, rfl⟩
    | some i =>
      refine ⟨?_, rfl⟩
      rw [CenterTree.Shaped]
      obtain ⟨hlt, -, -⟩ := List.findIdx?_eq_some_iff_getElem.mp hi
      exact hlt
  | split d children ih =>
    intro h
    rw [CenterTree.Shaped] at h
    have key : ∀ bs : List (Branch W), (∀ b ∈ bs, b ∈ children) → ShapedIn bs →
        ShapedIn (activateIn pane bs).1 ∧ (activateIn pane bs).1.length = bs.length
          ∧ branchIds (activateIn pane bs).1 = branchIds bs := by
      intro bs
      induction bs with
      | nil => intro _ _; exact ⟨trivial, rfl, rfl⟩
      | cons b bs ihbs =>
        intro hsub hs
        have hb := ih b (hsub b (by simp))
        obtain ⟨w, child⟩ := b
        rw [ShapedIn] at hs
        obtain ⟨hc1, hc2⟩ := hb hs.1
        obtain ⟨hr1, hr2, hr3⟩ := ihbs (fun c hc => hsub c (by simp [hc])) hs.2
        rw [activateIn]
        dsimp only at hc1 hc2 ⊢
        split_ifs
        · refine ⟨⟨hc1, hs.2⟩, rfl, ?_⟩
          rw [branchIds, branchIds, hc2]
        · refine ⟨⟨hc1, hr1⟩, by rw [length_cons, length_cons, hr2], ?_⟩
          rw [branchIds, branchIds, hc2, hr3]
    obtain ⟨h1, h2, h3⟩ := key children (fun b hb => hb) h.2
    rw [CenterTree.activateStackMember]
    refine ⟨?_, ?_⟩
    · show (CenterTree.split d (activateIn pane children).1).Shaped
      rw [CenterTree.Shaped, h2]
      exact ⟨h.1, h1⟩
    · show (CenterTree.split d (activateIn pane children).1).paneIds = _
      rw [CenterTree.paneIds, CenterTree.paneIds, h3]

/-! ## Whole runs -/

/-- The operations on a tab's tree. -/
inductive PaneOp
  | split (target : PaneId) (dir : Dir) (newId : PaneId)
  | remove (target : PaneId)
  | activate (pane : PaneId)

section

variable [One W]

def PaneOp.apply (t : CenterTree W) : PaneOp → CenterTree W
  | .split target dir newId => (t.splitPane target dir newId).1
  | .remove target => (t.remove target).1
  | .activate pane => (t.activateStackMember pane).1

/-- New ids are fresh, and the sole member of a stack is not removed. -/
def PaneOp.Admissible (t : CenterTree W) : PaneOp → Prop
  | .split _ _ newId => newId ∉ t.paneIds
  | .remove target => ¬ t.SoleMember target
  | .activate _ => True

/-- One admissible operation. -/
def Step (t t' : CenterTree W) : Prop := ∃ op : PaneOp, op.Admissible t ∧ t' = op.apply t

/-- **One step keeps the tree well formed.** -/
theorem wellFormed_step {t t' : CenterTree W} (ht : t.WellFormed) (h : Step t t') :
    t'.WellFormed := by
  obtain ⟨op, hadm, rfl⟩ := h
  cases op with
  | split target dir newId =>
    have hfresh : newId ∉ t.paneIds := hadm
    show (t.splitPane target dir newId).1.WellFormed
    rcases splitPane_spec t ht.shaped with ⟨-, hshaped, hperm⟩ | hsame
    · refine ⟨hshaped, ?_⟩
      rw [hperm.nodup_iff]
      exact nodup_cons.mpr ⟨hfresh, ht.distinct⟩
    · rw [hsame]
      exact ht
  | remove target =>
    show (t.remove target).1.WellFormed
    obtain ⟨htrue, hfalse⟩ := (removeExact_iff_not_soleMember ht target).mpr hadm
    cases hr : (t.remove target).2 with
    | true => exact (htrue hr).2.2
    | false => rw [hfalse hr]; exact ht
  | activate pane =>
    show (t.activateStackMember pane).1.WellFormed
    obtain ⟨hshaped, hids⟩ : (t.activateStackMember pane).1.Shaped
        ∧ (t.activateStackMember pane).1.paneIds = t.paneIds :=
      activateStackMember_spec t ht.shaped
    exact ⟨hshaped, by rw [hids]; exact ht.distinct⟩

/-- **Every tree reached by admissible operations is well formed.** -/
theorem wellFormed_of_reachable {t t' : CenterTree W} (ht : t.WellFormed)
    (h : Relation.ReflTransGen Step t t') : t'.WellFormed := by
  induction h with
  | refl => exact ht
  | tail _ hstep ih => exact wellFormed_step ih hstep

/-- **Closing a pane is exact unless the target is the sole member of a stack**, and trees reached
without closing such a pane are well formed. -/
theorem remove_exact (t : CenterTree W) (ht : t.WellFormed) :
    (∀ target, RemoveExact t target ↔ ¬ t.SoleMember target)
      ∧ ∀ t', Relation.ReflTransGen Step t t' → t'.WellFormed :=
  ⟨fun target => removeExact_iff_not_soleMember ht target, fun _ h => wellFormed_of_reachable ht h⟩

end

/-- A pane beside a stack that has shrunk to one member. -/
def besideLoneStack : CenterTree Nat := .split .row [.mk 1 (.leaf 1), .mk 1 (.stack [2] 0)]

theorem besideLoneStack_wellFormed : besideLoneStack.WellFormed :=
  ⟨by simp [besideLoneStack, CenterTree.Shaped, ShapedIn],
    by simp [besideLoneStack, CenterTree.paneIds, branchIds]⟩

/-- Closing the member of that stack empties the stack and reports failure. -/
theorem besideLoneStack_remove :
    besideLoneStack.WellFormed
      ∧ besideLoneStack.remove 2 = (.split .row [.mk 1 (.leaf 1), .mk 1 (.stack [] 0)], false)
      ∧ ¬ RemoveExact besideLoneStack 2 := by
  have hremove : besideLoneStack.remove 2
      = (.split .row [.mk 1 (.leaf 1), .mk 1 (.stack [] 0)], false) := by
    rfl
  refine ⟨besideLoneStack_wellFormed, hremove, ?_⟩
  rintro ⟨-, hunchanged⟩
  have hsame := hunchanged (by rw [hremove])
  rw [hremove] at hsame
  have hids := congrArg CenterTree.paneIds hsame
  exact absurd hids (by decide)

/-- Closing the other pane is exact, and keeps the tree well formed. -/
theorem besideLoneStack_exact :
    RemoveExact besideLoneStack 1 ∧ (besideLoneStack.remove 1).1.WellFormed := by
  have h := remove_exact besideLoneStack besideLoneStack_wellFormed
  have hsole : ¬ besideLoneStack.SoleMember 1 := by
    simp [besideLoneStack, CenterTree.SoleMember, SoleMemberIn]
  exact ⟨(h.1 1).mpr hsole, h.2 _ (.single ⟨.remove 1, hsole, rfl⟩)⟩

end Thegn.Pane
