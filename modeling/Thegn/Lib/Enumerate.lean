import Mathlib.Data.Set.Card

set_option autoImplicit false

/-! # Sets that are listed from their least element on

`Begins S l` says that the increasing list `l` leaves out no element of `S` that is below one it
has. Such a list has the elements that are `Earliest` in `S`: fewer than its length come before
them. `Taken g count near l` is the outcome of a loop over groups `g 0`, `g 1`, … that takes at most
`count` elements and stops when no element of the groups to come is `near`; when the groups are
`InStep` these are the earliest. `sortDedup` is the increasing list of the values of another.
-/

namespace Thegn

open List

variable {α : Type}

/-! ## Groups in a row -/

/-- The elements of the first `n` groups. -/
def walked (g : Nat → List α) (n : Nat) : List α := (List.range n).flatMap g

@[simp] theorem walked_zero (g : Nat → List α) : walked g 0 = [] := rfl

theorem walked_succ (g : Nat → List α) (n : Nat) : walked g (n + 1) = walked g n ++ g n := by
  simp [walked, range_succ]

theorem mem_walked {g : Nat → List α} {n : Nat} {x : α} : x ∈ walked g n ↔ ∃ j < n, x ∈ g j := by
  simp [walked]

/-- A longer walk goes on with the later groups. -/
theorem exists_walked_append (g : Nat → List α) {m n : Nat} (h : m ≤ n) :
    ∃ rest, walked g n = walked g m ++ rest ∧ ∀ y ∈ rest, ∃ j, m ≤ j ∧ y ∈ g j := by
  induction n, h using Nat.le_induction with
  | base => exact ⟨[], by simp⟩
  | succ n hle ih =>
    obtain ⟨rest, heq, hrest⟩ := ih
    refine ⟨rest ++ g n, by rw [walked_succ, heq, append_assoc], fun y hy => ?_⟩
    rcases mem_append.mp hy with hy | hy
    · exact hrest y hy
    · exact ⟨n, hle, hy⟩

theorem walked_isPrefix (g : Nat → List α) {m n : Nat} (h : m ≤ n) : walked g m <+: walked g n := by
  obtain ⟨rest, heq, -⟩ := exists_walked_append g h
  exact ⟨rest, heq.symm⟩

/-- The first `c` elements do not depend on how far the walk goes. -/
theorem take_walked {g : Nat → List α} {m n c : Nat} (hm : c ≤ (walked g m).length)
    (hn : c ≤ (walked g n).length) : (walked g m).take c = (walked g n).take c := by
  have hmax (k : Nat) (hk : k ≤ max m n) (hc : c ≤ (walked g k).length) :
      (walked g k).take c = (walked g (max m n)).take c := by
    obtain ⟨rest, heq⟩ := walked_isPrefix g hk
    rw [← heq, take_append_of_le_length hc]
  rw [hmax m (le_max_left m n) hm, hmax n (le_max_right m n) hn]

variable [LinearOrder α]

/-! ## `sort` and `dedup` -/

def sortDedup (l : List α) : List α := (l.insertionSort (· ≤ ·)).dedup

@[simp] theorem mem_sortDedup {l : List α} {x : α} : x ∈ sortDedup l ↔ x ∈ l := by
  simp [sortDedup]

theorem sortDedup_pairwise (l : List α) : (sortDedup l).Pairwise (· < ·) := by
  have hle : (sortDedup l).Pairwise (· ≤ ·) :=
    (pairwise_insertionSort (· ≤ ·) l).sublist (dedup_sublist _)
  have hne : (sortDedup l).Pairwise (· ≠ ·) := nodup_dedup _
  exact (hle.and hne).imp fun h => lt_of_le_of_ne h.1 h.2

/-! ## The first elements of a set -/

/-- Fewer than `n` elements of `S` come before this one. -/
def Earliest (S : Set α) (n : Nat) (x : α) : Prop := x ∈ S ∧ {y ∈ S | y < x}.encard < n

theorem Earliest.mono {S : Set α} {n m : Nat} {x : α} (h : Earliest S n x) (hle : n ≤ m) :
    Earliest S m x :=
  ⟨h.1, h.2.trans_le (by exact_mod_cast hle)⟩

/-- An increasing list of elements of `S` with none left out below them. -/
structure Begins (S : Set α) (l : List α) : Prop where
  sorted : l.Pairwise (· < ·)
  sub : ∀ x ∈ l, x ∈ S
  closed : ∀ x ∈ l, ∀ y ∈ S, y ≤ x → y ∈ l

private theorem encard_mem (l : List α) (h : l.Pairwise (· < ·)) :
    {y | y ∈ l}.encard = l.length := by
  have hnodup : l.Nodup := h.imp fun hlt => hlt.ne
  have hset : {y | y ∈ l} = (l.toFinset : Set α) := by
    ext y
    simp
  rw [hset, Set.encard_coe_eq_coe_finsetCard, toFinset_card_of_nodup hnodup]

theorem Begins.earliest {S : Set α} {l : List α} (h : Begins S l) {x : α} (hx : x ∈ l) :
    Earliest S l.length x := by
  refine ⟨h.sub x hx, ?_⟩
  -- what comes before `x` is listed, and `x` is listed too
  have hss : {y ∈ S | y < x} ⊂ {y | y ∈ l} := by
    refine ⟨fun y hy => h.closed x hx y hy.1 hy.2.le, fun hsub => ?_⟩
    exact lt_irrefl x (hsub hx).2
  rw [← encard_mem l h.sorted]
  exact Set.Finite.encard_lt_encard ((finite_toSet l).subset hss.subset) hss

theorem Begins.mem_of_earliest {S : Set α} {l : List α} (h : Begins S l) {x : α}
    (hx : Earliest S l.length x) : x ∈ l := by
  by_contra hnot
  -- an element that is not listed has all of the list before it
  have hsub : {y | y ∈ l} ⊆ {y ∈ S | y < x} := by
    intro y hy
    refine ⟨h.sub y hy, lt_of_not_ge fun hxy => hnot (h.closed y hy x hx.1 hxy)⟩
  have hle := Set.encard_le_encard hsub
  rw [encard_mem l h.sorted] at hle
  exact absurd hx.2 (not_lt.mpr hle)

/-- A beginning of `n` elements has the first `n`. -/
theorem Begins.mem_iff {S : Set α} {l : List α} (h : Begins S l) {n : Nat} (hn : l.length = n)
    (x : α) : x ∈ l ↔ Earliest S n x := by
  subst hn
  exact ⟨h.earliest, h.mem_of_earliest⟩

/-- A beginning of at most `n` elements has those of the first `n` that are not behind all it leaves
out. -/
theorem Begins.mem_iff_of_below {S : Set α} {l : List α} (h : Begins S l) {n : Nat}
    (hn : l.length ≤ n) {x : α} (hx : ∀ y ∈ S, y ∉ l → x < y) : x ∈ l ↔ Earliest S n x := by
  constructor
  · exact fun hxl => (h.earliest hxl).mono hn
  · intro he
    by_contra hnot
    exact lt_irrefl x (hx x he.1 hnot)

/-! ## Groups that are in step -/

/-- However far the walk goes, what is `near` of its first `c` elements is increasing, and these are
before all near ones that are left out. -/
structure InStep (g : Nat → List α) (c : Nat) (near : α → Bool) : Prop where
  sorted : ∀ n, (((walked g n).take c).filter near).Pairwise (· < ·)
  lt : ∀ n, ∀ x ∈ (walked g n).take c, ∀ y ∈ (walked g n).drop c, y ∉ (walked g n).take c →
    near y = true → x < y

variable {g : Nat → List α} {near : α → Bool} {l : List α} {c : Nat}

/-- The walk over increasing groups, each before all later ones, is increasing. -/
theorem walked_pairwise (hg : ∀ j, (g j).Pairwise (· < ·))
    (hlt : ∀ j k, j < k → ∀ x ∈ g j, ∀ y ∈ g k, x < y) (n : Nat) :
    (walked g n).Pairwise (· < ·) := by
  induction n with
  | zero => exact .nil
  | succ n ih =>
    rw [walked_succ]
    refine pairwise_append.mpr ⟨ih, hg n, fun x hx y hy => ?_⟩
    obtain ⟨j, hj, hx⟩ := mem_walked.mp hx
    exact hlt j n hj x hx y hy

/-- Such groups are in step. -/
theorem inStep_of_lt (hg : ∀ j, (g j).Pairwise (· < ·))
    (hlt : ∀ j k, j < k → ∀ x ∈ g j, ∀ y ∈ g k, x < y) : InStep g c near := by
  have hwalked := walked_pairwise hg hlt
  refine ⟨fun n => ((hwalked n).sublist (take_sublist c _)).filter _, fun n x hx y hy _ _ => ?_⟩
  have happend := hwalked n
  rw [← take_append_drop c (walked g n)] at happend
  exact (pairwise_append.mp happend).2.2 x hx y hy

/-- What a loop over the groups took: the first elements up to the count, or all up to a group from
which on no element is near. -/
def Taken (g : Nat → List α) (count : Option Nat) (near : α → Bool) (l : List α) : Prop :=
  ∃ n, l <+: walked g n ∧ (∀ c ∈ count, l.length ≤ c) ∧
    ((l = walked g n ∧ ∀ j, n ≤ j → ∀ y ∈ g j, near y = false) ∨ ∃ c ∈ count, l.length = c)

omit [LinearOrder α] in
/-- Without a count nothing near is left out. -/
theorem Taken.mem_iff (h : Taken g none near l) {x : α} (hx : near x = true) : x ∈ l ↔
    ∃ j, x ∈ g j := by
  obtain ⟨n, -, -, ⟨rfl, hfar⟩ | ⟨c, hc, -⟩⟩ := h
  · rw [mem_walked]
    constructor
    · rintro ⟨j, -, hj⟩
      exact ⟨j, hj⟩
    · rintro ⟨j, hj⟩
      refine ⟨j, lt_of_not_ge fun hle => ?_, hj⟩
      rw [hfar j hle x hj] at hx
      cases hx
  · cases hc

omit [LinearOrder α] in
/-- With a count the first elements of the walk are taken. -/
theorem Taken.cut (h : Taken g (some c) near l) :
    ∃ m, l = (walked g m).take c ∧
      ((l = walked g m ∧ ∀ j, m ≤ j → ∀ y ∈ g j, near y = false) ∨ c ≤ (walked g m).length) := by
  obtain ⟨m, hl, hle, hend⟩ := h
  refine ⟨m, ?_, hend.imp id fun ⟨c', hc', hlen⟩ => ?_⟩
  · rcases hend with ⟨rfl, -⟩ | ⟨c', hc', rfl⟩
    · exact (take_of_length_le (hle c rfl)).symm
    · cases hc'
      exact prefix_iff_eq_take.mp hl
  · cases hc'
    exact hlen ▸ hl.length_le

/-- Nothing near is left out before an element that is taken. -/
theorem Taken.closed (h : Taken g (some c) near l) (hg : InStep g c near) {x y : α} (hx : x ∈ l)
    (hy : ∃ k, y ∈ g k) (hnear : near y = true) (hyx : y ≤ x) : y ∈ l := by
  obtain ⟨k, hy⟩ := hy
  obtain ⟨m, rfl, ⟨heq, hfar⟩ | hfull⟩ := h.cut
  · rw [heq]
    refine mem_walked.mpr ⟨k, lt_of_not_ge fun hle => ?_, hy⟩
    rw [hfar k hle y hy] at hnear
    cases hnear
  · have hlen := (walked_isPrefix g (le_max_left m (k + 1))).length_le
    rw [take_walked hfull (hfull.trans hlen)] at hx ⊢
    have hyw : y ∈ walked g (max m (k + 1)) := mem_walked.mpr ⟨k, by omega, hy⟩
    rw [← take_append_drop c (walked g _), mem_append] at hyw
    by_contra hout
    exact absurd hyx (not_le.mpr (hg.lt _ x hx y (hyw.resolve_left hout) hout hnear))

/-- What is near of the elements taken begins all that is near. -/
theorem Taken.begins (h : Taken g (some c) near l) (hg : InStep g c near) :
    Begins {x | (∃ j, x ∈ g j) ∧ near x = true} (l.filter near) where
  sorted := by
    obtain ⟨m, rfl, -⟩ := h.cut
    exact hg.sorted m
  sub x hx := by
    obtain ⟨hxl, hnear⟩ := mem_filter.mp hx
    obtain ⟨m, hl, -⟩ := h
    obtain ⟨j, -, hj⟩ := mem_walked.mp (hl.subset hxl)
    exact ⟨⟨j, hj⟩, hnear⟩
  closed x hx y hy hyx := mem_filter.mpr ⟨h.closed hg (mem_filter.mp hx).1 hy.1 hy.2 hyx, hy.2⟩

/-- With a count it is the first elements that are taken, when the groups are in step. -/
theorem Taken.earliest (h : Taken g (some c) near l) (hg : InStep g c near)
    (hdown : ∀ x y, near x = true → y < x → near y = true) {x : α} (hx : near x = true) :
    x ∈ l ↔ Earliest {x | ∃ j, x ∈ g j} c x := by
  have hbegins := h.begins hg
  have hclosed := @Taken.closed _ _ _ _ _ _ h hg
  obtain ⟨n, hl, hle, hend⟩ := h
  -- what is before an element that is near is near as well
  have hnear : Earliest {x | ∃ j, x ∈ g j} c x ↔
    Earliest {x | (∃ j, x ∈ g j) ∧ near x = true} c x := by
    have hset : {y ∈ {x | ∃ j, x ∈ g j} | y < x} =
      {y ∈ {x | (∃ j, x ∈ g j) ∧ near x = true} | y < x} := by
      ext y
      exact ⟨fun hy => ⟨⟨hy.1, hdown x y hx hy.2⟩, hy.2⟩, fun hy => ⟨hy.1.1, hy.2⟩⟩
    unfold Earliest
    rw [hset]
    exact and_congr_left fun _ => ⟨fun hxg => ⟨hxg, hx⟩, fun hxg => hxg.1⟩
  have hmem : x ∈ l ↔ x ∈ l.filter near := by simp [mem_filter, hx]
  rw [hnear, hmem]
  have hlen : (l.filter near).length ≤ c := (length_filter_le _ _).trans (hle c rfl)
  rcases hend with ⟨hall, hfar⟩ | ⟨c', hc', hfull⟩
  · refine hbegins.mem_iff_of_below hlen fun y hy hyl => absurd (mem_filter.mpr ⟨?_, hy.2⟩) hyl
    obtain ⟨⟨j, hj⟩, hy⟩ := hy
    rw [hall]
    refine mem_walked.mpr ⟨j, lt_of_not_ge fun hle => ?_, hj⟩
    rw [hfar j hle y hj] at hy
    cases hy
  · cases hc'
    by_cases hcount : (l.filter near).length = c
    · exact hbegins.mem_iff hcount x
    · -- one that is taken is not near, so all that is near was taken before it
      have hex : ∃ z ∈ l, near z = false := by
        by_contra hnone
        apply hcount
        rw [filter_eq_self.mpr fun z hz => ?_, hfull]
        exact Bool.eq_true_of_not_eq_false fun hz' => hnone ⟨z, hz, hz'⟩
      obtain ⟨z, hz, hzfar⟩ := hex
      refine hbegins.mem_iff_of_below hlen fun y hy hyl => absurd (mem_filter.mpr ⟨?_, hy.2⟩) hyl
      refine hclosed hz hy.1 hy.2 (le_of_not_gt fun hzy => ?_)
      rw [hdown y z hy.2 hzy] at hzfar
      cases hzfar

/-- What is near is in order in every walk, if it is where it is taken. -/
theorem Taken.take_pairwise (h : Taken g (some c) near l)
    (hsorted : (l.filter near).Pairwise (· < ·)) (n : Nat) :
    (((walked g n).take c).filter near).Pairwise (· < ·) := by
  obtain ⟨m, hl, hend⟩ := h.cut
  rcases le_total n m with hnm | hmn
  · refine hsorted.sublist (List.Sublist.filter _ ?_)
    rw [hl]
    exact ((walked_isPrefix g hnm).take c).sublist
  · rcases hend with ⟨heq, hfar⟩ | hfull
    · obtain ⟨rest, hrest, hlate⟩ := exists_walked_append g hmn
      have hnone : (rest.take (c - l.length)).filter near = [] := by
        refine filter_eq_nil_iff.mpr fun y hy => ?_
        obtain ⟨j, hj, hy⟩ := hlate y (mem_of_mem_take hy)
        rw [hfar j hj y hy]
        exact Bool.false_ne_true
      rw [hrest, take_append, ← hl, ← heq, filter_append, hnone, append_nil]
      exact hsorted
    · rw [take_walked (hfull.trans (walked_isPrefix g hmn).length_le) hfull, ← hl]
      exact hsorted

omit [LinearOrder α] in
/-- The count was reached, if something near comes behind it. -/
theorem Taken.take_eq (h : Taken g (some c) near l) {n : Nat} {y : α}
    (hy : y ∈ (walked g n).drop c) (hout : y ∉ (walked g n).take c) (hnear : near y = true) :
    (walked g n).take c = l := by
  obtain ⟨m, hl, hend⟩ := h.cut
  have hn : c < (walked g n).length := by
    by_contra hle
    rw [drop_of_length_le (not_lt.mp hle)] at hy
    cases hy
  by_cases hm : c ≤ (walked g m).length
  · rw [hl, take_walked hm hn.le]
  · obtain ⟨heq, hfar⟩ := hend.resolve_right hm
    obtain ⟨k, -, hk⟩ := mem_walked.mp (mem_of_mem_drop hy)
    have hmn : m ≤ n := by
      by_contra hnm
      have := (walked_isPrefix g (not_le.mp hnm).le).length_le
      omega
    -- what is near was taken before the count was reached
    refine absurd ((prefix_take_iff.mpr ⟨walked_isPrefix g hmn, by omega⟩).subset
      (mem_walked.mpr ⟨k, ?_, hk⟩)) hout
    by_contra hmk
    rw [hfar k (not_lt.mp hmk) y hk] at hnear
    cases hnear

/-- Where the earliest are taken in order, the groups are in step: the least element left out would
be early. -/
theorem Taken.inStep (h : Taken g (some c) near l)
    (hdown : ∀ x y, near x = true → y < x → near y = true)
    (hfinite : ∀ y, {z | (∃ j, z ∈ g j) ∧ z < y}.Finite)
    (hsorted : (l.filter near).Pairwise (· < ·))
    (hright : ∀ x, near x = true → (x ∈ l ↔ Earliest {x | ∃ j, x ∈ g j} c x)) :
    InStep g c near := by
  refine ⟨h.take_pairwise hsorted, fun n x hx y hy hout hnear => ?_⟩
  obtain ⟨k, -, hk⟩ := mem_walked.mp (mem_of_mem_drop hy)
  rw [h.take_eq hy hout hnear] at hx hout
  by_contra hxy
  obtain ⟨z, hzy, hz⟩ := ((hfinite x).inter_of_left {z | z ∉ l}).exists_le_minimal (a := y)
    ⟨⟨⟨k, hk⟩, lt_of_le_of_ne (not_lt.mp hxy) fun heq => hout (heq ▸ hx)⟩, hout⟩
  obtain ⟨⟨hzg, hzx⟩, hzl⟩ := hz.prop
  have hznear : near z = true := hzy.lt_or_eq.elim (hdown y z hnear) fun heq => heq ▸ hnear
  refine hzl ((hright z hznear).mpr ⟨hzg, ?_⟩)
  -- what is before the least one left out is taken
  have hss : {w ∈ {x | ∃ j, x ∈ g j} | w < z} ⊂ (l.toFinset : Set α) := by
    refine ⟨fun w hw => ?_, fun hsub => absurd (hsub (mem_toFinset.mpr hx)).2 hzx.not_gt⟩
    by_contra hwl
    have hwz : z ≤ w :=
      hz.le_of_le ⟨⟨hw.1, hw.2.trans hzx⟩, fun hmem => hwl (mem_toFinset.mpr hmem)⟩ hw.2.le
    exact absurd hw.2 (not_lt.mpr hwz)
  refine (Set.Finite.encard_lt_encard (l.toFinset.finite_toSet.subset hss.subset) hss).trans_le ?_
  obtain ⟨-, -, hle, -⟩ := h
  rw [Set.encard_coe_eq_coe_finsetCard]
  exact_mod_cast (toFinset_card_le l).trans (hle c rfl)

end Thegn
