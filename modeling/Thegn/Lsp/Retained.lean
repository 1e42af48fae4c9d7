import Thegn.Lsp.Diagnostics

set_option autoImplicit false

/-! # What the diagnostics bus retains

The pending documents, the queues of the roots and the bytes counted for both are the `Store` of a
state. The methods of the bus remove a document from it, add one, or put another publication in the
place of a pending one. Each keeps it `Sound`: a document is pending exactly when it stands in the
queue of its root, once, and the bytes are those of the entries and of the roots with a queue. Each
keeps the order of two ready roots as well, as long as a document of the one in front stays pending
(`Ahead`).
-/

namespace Thegn.Lsp

open Table Text List

variable {R : Type} [LinearOrder R]

structure Store (R : Type) [LinearOrder R] where
  pending : Table (DiagnosticKey R) (Entry R)
  perRoot : Table R (List (DiagnosticKey R))
  ready : List R
  bytes : Nat

def QueueState.store (s : QueueState R) : Store R := ⟨s.pending, s.perRoot, s.ready, s.bytes⟩

/-- A root has no queue when nothing of it is pending. -/
def setQueue (t : Table R (List (DiagnosticKey R))) (root : R) (queue : List (DiagnosticKey R)) :
    Table R (List (DiagnosticKey R)) :=
  if queue = [] then t.erase root else t.insert root queue

namespace Store

open QueueState

variable (env : Env R)

def queue (t : Store R) (root : R) : List (DiagnosticKey R) := (t.perRoot.lookup root).getD []

/-- What a root costs that has no queue. -/
def rootCost (t : Store R) (root : R) : Nat :=
  if t.queue root = [] then readyRootCost env root else 0

def remove (t : Store R) (key : DiagnosticKey R) : Store R :=
  match t.pending.lookup key with
  | none => t
  | some entry =>
    { pending := t.pending.erase key
      perRoot := setQueue t.perRoot key.root ((t.queue key.root).erase key)
      ready :=
        if (t.queue key.root).erase key = [] then t.ready.filter (· ≠ key.root) else t.ready
      bytes := t.bytes - entry.cost
        - if (t.queue key.root).erase key = [] then readyRootCost env key.root else 0 }

def add (t : Store R) (key : DiagnosticKey R) (entry : Entry R) : Store R :=
  { pending := t.pending.insert key entry
    perRoot := t.perRoot.insert key.root (t.queue key.root ++ [key])
    ready := if t.queue key.root = [] then t.ready ++ [key.root] else t.ready
    bytes := t.bytes + entry.cost + t.rootCost env key.root }

def swap (t : Store R) (key : DiagnosticKey R) (old entry : Entry R) : Store R :=
  { t with pending := t.pending.insert key entry, bytes := t.bytes - old.cost + entry.cost }

/-- The first document of the first ready root is taken, and the root goes to the back. -/
def take (t : Store R) (key : DiagnosticKey R) : Store R :=
  { t.remove env key with
    ready :=
      if (t.queue key.root).erase key = [] then t.ready.filter (· ≠ key.root)
      else t.ready.filter (· ≠ key.root) ++ [key.root] }

/-- The pending documents and the queues are the same documents, the roots with a queue are the
ready ones, and all of them are counted. -/
structure Sound (t : Store R) : Prop where
  queue_ne_nil : ∀ root queue, t.perRoot.lookup root = some queue → queue ≠ []
  listed : ∀ key, key ∈ t.queue key.root ↔ key ∈ t.pending
  rooted : ∀ root, ∀ key ∈ t.queue root, key.root = root
  nodup : ∀ root, (t.queue root).Nodup
  ready_nodup : t.ready.Nodup
  mem_ready : ∀ root, root ∈ t.ready ↔ t.queue root ≠ []
  entry_eq : ∀ key entry, t.pending.lookup key = some entry →
    keyOf entry.publication = key ∧ entry.cost = entryCost env entry.publication
  count_le : t.pending.keys.length ≤ maxQueueDocuments
  bytes_eq : t.bytes = total (fun _ entry => entry.cost) t.pending +
      total (fun root _ => readyRootCost env root) t.perRoot
  bytes_le : t.bytes ≤ maxQueueBytes

/-! ## Queues -/

variable {t : Store R} {key : DiagnosticKey R} {entry : Entry R}

theorem lookup_setQueue (t : Table R (List (DiagnosticKey R))) (root r : R)
    (queue : List (DiagnosticKey R)) :
    (setQueue t root queue).lookup r
      = if r = root then (if queue = [] then none else some queue) else t.lookup r := by
  rw [setQueue]
  by_cases hr : r = root
  · rw [if_pos hr, hr]
    split_ifs
    · exact AList.lookup_erase _ _
    · exact AList.lookup_insert _
  · rw [if_neg hr]
    split_ifs
    · exact AList.lookup_erase_ne hr
    · exact AList.lookup_insert_ne hr

theorem queue_of_lookup {root : R} {queue : List (DiagnosticKey R)}
    (h : t.perRoot.lookup root = some queue) : t.queue root = queue := by
  rw [Store.queue, h]
  rfl

theorem queue_remove (h : t.pending.lookup key = some entry) (r : R) :
    (t.remove env key).queue r = if r = key.root then (t.queue key.root).erase key
      else t.queue r := by
  simp only [remove, h, queue, lookup_setQueue]
  by_cases hr : r = key.root
  · rw [if_pos hr, if_pos hr]
    split_ifs with hnil
    · exact hnil.symm
    · rfl
  · rw [if_neg hr, if_neg hr]

theorem queue_add (t : Store R) (key : DiagnosticKey R) (entry : Entry R) (r : R) :
    (t.add env key entry).queue r = if r = key.root then t.queue key.root ++ [key]
      else t.queue r := by
  simp only [add, queue]
  by_cases hr : r = key.root
  · rw [if_pos hr, hr, AList.lookup_insert]
    rfl
  · rw [if_neg hr, AList.lookup_insert_ne hr]

theorem pending_remove (h : t.pending.lookup key = some entry) :
    (t.remove env key).pending = t.pending.erase key := by
  simp only [remove, h]

variable {env}

/-- A root has a queue when it has a pending document. -/
theorem Sound.lookup_eq (h : t.Sound env) (root : R) :
    t.perRoot.lookup root = if t.queue root = [] then none else some (t.queue root) := by
  cases hlook : t.perRoot.lookup root with
  | none =>
    rw [queue, hlook]
    rfl
  | some queue0 =>
    rw [queue_of_lookup hlook, if_neg (h.queue_ne_nil root queue0 hlook)]

theorem Sound.mem_queue (h : t.Sound env) (hkey : t.pending.lookup key = some entry) :
    key ∈ t.queue key.root :=
  (h.listed key).mpr (AList.lookup_isSome.mp (by rw [hkey]; rfl))

theorem Sound.notMem_queue (h : t.Sound env) (hkey : t.pending.lookup key = none) :
    key ∉ t.queue key.root :=
  fun hmem => AList.lookup_eq_none.mp hkey ((h.listed key).mp hmem)

/-! ## What keeps the store sound -/

theorem Sound.empty : (⟨∅, ∅, [], 0⟩ : Store R).Sound env where
  queue_ne_nil := fun _ _ h => by cases h
  listed := fun _ => iff_of_false not_mem_nil (AList.notMem_empty _)
  rooted := fun _ _ h => absurd h not_mem_nil
  nodup := fun _ => nodup_nil
  ready_nodup := nodup_nil
  mem_ready := fun _ => iff_of_false not_mem_nil fun h => h rfl
  entry_eq := fun _ _ h => by cases h
  count_le := Nat.zero_le _
  bytes_eq := rfl
  bytes_le := Nat.zero_le _

theorem Sound.remove (h : t.Sound env) (key : DiagnosticKey R) : (t.remove env key).Sound env := by
  cases hkey : t.pending.lookup key with
  | none =>
    simp only [Store.remove, hkey]
    exact h
  | some entry =>
    have hmem := h.mem_queue hkey
    have hlook : t.perRoot.lookup key.root = some (t.queue key.root) := by
      rw [h.lookup_eq, if_neg (ne_nil_of_mem hmem)]
    have hqueue := queue_remove env hkey
    have hpending := pending_remove env hkey
    refine ⟨?_, ?_, ?_, ?_, ?_, ?_, ?_, ?_, ?_, ?_⟩
    · intro root queue0 hroot
      simp only [Store.remove, hkey, lookup_setQueue] at hroot
      split_ifs at hroot with hr hnil
      · cases hroot
        exact hnil
      · exact h.queue_ne_nil root queue0 hroot
    · intro k
      rw [hqueue, hpending, AList.mem_erase, ← h.listed k]
      split_ifs with hr
      · rw [hr, (h.nodup _).mem_erase_iff]
      · exact ⟨fun hk => ⟨fun heq => hr (heq ▸ rfl), hk⟩, fun hk => hk.2⟩
    · intro root k hk
      rw [hqueue] at hk
      split_ifs at hk with hr
      · rw [hr]
        exact h.rooted _ k (mem_of_mem_erase hk)
      · exact h.rooted root k hk
    · intro root
      rw [hqueue]
      split_ifs
      · exact (h.nodup _).erase key
      · exact h.nodup root
    · simp only [Store.remove, hkey]
      split_ifs
      · exact h.ready_nodup.filter _
      · exact h.ready_nodup
    · intro root
      rw [hqueue]
      simp only [Store.remove, hkey]
      split_ifs with hnil hr hr
      · rw [mem_filter, hr]
        exact iff_of_false (fun hmem' => by simp at hmem') (fun hne => hne hnil)
      · rw [mem_filter, h.mem_ready root]
        exact and_iff_left (by simpa using hr)
      · rw [h.mem_ready root, hr]
        exact iff_of_true (ne_nil_of_mem hmem) hnil
      · exact h.mem_ready root
    · intro k entry0 hk
      rw [hpending] at hk
      refine h.entry_eq k entry0 ?_
      by_cases heq : k = key
      · rw [heq, AList.lookup_erase] at hk
        cases hk
      · rwa [AList.lookup_erase_ne heq] at hk
    · have hle := h.count_le
      have hone := total_erase (f := fun _ _ => 1) hkey
      rw [length_keys] at hle
      rw [hpending, length_keys]
      omega
    · have hentries := total_erase (f := fun _ entry => entry.cost) hkey
      have hroots := total_erase (f := fun root _ => readyRootCost env root) hlook
      have hbytes := h.bytes_eq
      simp only [Store.remove, hkey, setQueue]
      split_ifs
      · omega
      · rw [total_insert_erase]
        omega
    · have hle := h.bytes_le
      simp only [Store.remove, hkey]
      omega

theorem Sound.add (h : t.Sound env) (hkey : t.pending.lookup key = none)
    (hentry : keyOf entry.publication = key ∧ entry.cost = entryCost env entry.publication)
    (hcount : t.pending.keys.length < maxQueueDocuments)
    (hfits : t.bytes + entry.cost + t.rootCost env key.root ≤ maxQueueBytes) :
    (t.add env key entry).Sound env := by
  have hqueue := queue_add env t key entry
  refine ⟨?_, ?_, ?_, ?_, ?_, ?_, ?_, ?_, ?_, hfits⟩
  · intro root queue0 hroot
    by_cases hr : root = key.root
    · rw [hr, Store.add, AList.lookup_insert] at hroot
      cases hroot
      exact append_ne_nil_of_right_ne_nil _ (cons_ne_nil _ _)
    · rw [Store.add, AList.lookup_insert_ne hr] at hroot
      exact h.queue_ne_nil root queue0 hroot
  · intro k
    rw [hqueue, Store.add, AList.mem_insert, ← h.listed k]
    split_ifs with hr
    · rw [hr, mem_append, mem_singleton, or_comm]
    · exact ⟨Or.inr, fun hk => hk.resolve_left fun heq => hr (heq ▸ rfl)⟩
  · intro root k hk
    rw [hqueue] at hk
    split_ifs at hk with hr
    · rcases mem_append.mp hk with hk | hk
      · rw [hr]
        exact h.rooted _ k hk
      · rw [mem_singleton.mp hk, hr]
    · exact h.rooted root k hk
  · intro root
    rw [hqueue]
    split_ifs
    · exact (h.nodup _).append (nodup_singleton key) (disjoint_singleton.mpr (h.notMem_queue hkey))
    · exact h.nodup root
  · rw [Store.add]
    split_ifs with hnil
    · have hfresh : key.root ∉ t.ready := fun hmem => (h.mem_ready _).mp hmem hnil
      exact h.ready_nodup.append (nodup_singleton _) (disjoint_singleton.mpr hfresh)
    · exact h.ready_nodup
  · intro root
    have hready : root ∈ (t.add env key entry).ready ↔ root = key.root ∨ t.queue root ≠ [] := by
      rw [Store.add, ← h.mem_ready root]
      split_ifs with hnil
      · rw [mem_append, mem_singleton, or_comm]
      · exact ⟨Or.inr, fun hr => hr.elim (fun heq => heq.symm ▸ (h.mem_ready _).mpr hnil) id⟩
    rw [hready, hqueue]
    split_ifs with hr
    · exact iff_of_true (Or.inl hr) (append_ne_nil_of_right_ne_nil _ (cons_ne_nil _ _))
    · exact or_iff_right hr
  · intro k entry0 hk
    by_cases heq : k = key
    · rw [heq, Store.add, AList.lookup_insert] at hk
      cases hk
      rw [heq]
      exact hentry
    · rw [Store.add, AList.lookup_insert_ne heq] at hk
      exact h.entry_eq k entry0 hk
  · have hone := total_insert_new (f := fun _ _ => 1) (r := entry) hkey
    rw [length_keys] at hcount
    rw [Store.add, length_keys, hone]
    omega
  · have hentries := total_insert_new (f := fun _ entry => entry.cost) (r := entry) hkey
    have hbytes := h.bytes_eq
    have hlook := h.lookup_eq key.root
    simp only [Store.add, rootCost, hentries, hbytes]
    split_ifs at hlook ⊢ with hnil
    · rw [total_insert_new hlook]
      omega
    · have hroots := total_insert_old (f := fun root _ => readyRootCost env root)
        (r := t.queue key.root ++ [key]) hlook
      omega

/-- The order of the ready roots does not matter. -/
theorem Sound.reorder (h : t.Sound env) {ready : List R} (hready : ready.Perm t.ready) :
    ({ t with ready := ready } : Store R).Sound env :=
  { h with
    ready_nodup := hready.nodup_iff.mpr h.ready_nodup
    mem_ready := fun root => hready.mem_iff.trans (h.mem_ready root) }

theorem Sound.take (h : t.Sound env) (hkey : t.pending.lookup key = some entry) :
    (t.take env key).Sound env := by
  refine (h.remove key).reorder ?_
  simp only [Store.remove, hkey]
  split_ifs
  · exact .refl _
  · have hmem : key.root ∈ t.ready := (h.mem_ready _).mpr (ne_nil_of_mem (h.mem_queue hkey))
    have hleft : key.root ∉ t.ready.filter (· ≠ key.root) := fun hin => by simp at hin
    refine (perm_ext_iff_of_nodup ?_ h.ready_nodup).mpr fun root => ?_
    · exact (h.ready_nodup.filter _).append (nodup_singleton _) (disjoint_singleton.mpr hleft)
    · rw [mem_append, mem_filter, mem_singleton, decide_eq_true_eq]
      by_cases hr : root = key.root
      · rw [hr]
        exact iff_of_true (Or.inr rfl) hmem
      · exact ⟨fun hin => (hin.resolve_right hr).1, fun hin => Or.inl ⟨hin, hr⟩⟩

theorem Sound.swap (h : t.Sound env) {old entry : Entry R} (hkey : t.pending.lookup key = some old)
    (hentry : keyOf entry.publication = key ∧ entry.cost = entryCost env entry.publication)
    (hfits : t.bytes - old.cost + entry.cost ≤ maxQueueBytes) :
    (t.swap key old entry).Sound env where
  queue_ne_nil := h.queue_ne_nil
  listed := fun k => by
    have hmem : key ∈ t.pending := AList.lookup_isSome.mp (by rw [hkey]; rfl)
    rw [Store.swap, AList.mem_insert]
    refine (h.listed k).trans ⟨Or.inr, fun hk => ?_⟩
    rcases hk with rfl | hk
    · exact hmem
    · exact hk
  rooted := h.rooted
  nodup := h.nodup
  ready_nodup := h.ready_nodup
  mem_ready := h.mem_ready
  entry_eq := fun k entry0 hk => by
    by_cases heq : k = key
    · rw [heq, Store.swap, AList.lookup_insert] at hk
      cases hk
      rw [heq]
      exact hentry
    · rw [Store.swap, AList.lookup_insert_ne heq] at hk
      exact h.entry_eq k entry0 hk
  count_le := by
    have hle := h.count_le
    have hone := total_insert_old (f := fun _ _ => 1) (r := entry) hkey
    rw [length_keys] at hle
    rw [Store.swap, length_keys]
    dsimp only
    omega
  bytes_eq := by
    have hentries := total_insert_old (f := fun _ entry => entry.cost) (r := entry) hkey
    have herase := total_erase (f := fun _ entry => entry.cost) hkey
    have hbytes := h.bytes_eq
    simp only [Store.swap]
    omega
  bytes_le := hfits

/-! ## The order of the roots -/

section Order

variable {d : DiagnosticKey R} {q : R}

/-- The root `r` is served before `q`, if `q` is ready at all. -/
def Ahead (t : Store R) (r q : R) : Prop := q ∈ t.ready → [r, q].Sublist t.ready

omit [LinearOrder R] in
theorem pair_sublist {r q : R} {l : List R} (h : r ∈ l) : [r, q].Sublist (l ++ [q]) :=
  (singleton_sublist.mpr h).append (.refl [q])

omit [LinearOrder R] in
theorem mem_of_pair_sublist {r q a : R} {l : List R} (hne : r ≠ a) (h : [r, q].Sublist (a :: l)) :
    [r, q].Sublist l := by
  rcases sublist_cons_iff.mp h with h | ⟨l', heq, -⟩
  · exact h
  · exact absurd (head_eq_of_cons_eq heq) hne

theorem Sound.root_mem_ready (h : t.Sound env) (hd : d ∈ t.pending) : d.root ∈ t.ready :=
  (h.mem_ready d.root).mpr (ne_nil_of_mem ((h.listed d).mpr hd))

/-- Removing a document does not change the order of the roots. -/
theorem Ahead.remove (h : t.Sound env) (hd : d ∈ (t.remove env key).pending)
    (ha : t.Ahead d.root q) : (t.remove env key).Ahead d.root q := by
  intro hq
  have hroot := (h.remove key).root_mem_ready hd
  cases hkey : t.pending.lookup key with
  | none =>
    rw [Store.remove, hkey] at hq ⊢
    exact ha hq
  | some entry =>
    rw [Store.remove, hkey] at hq hroot ⊢
    dsimp only at hq hroot ⊢
    by_cases hnil : (t.queue key.root).erase key = []
    · rw [if_pos hnil] at hq hroot ⊢
      have hpair := (ha (mem_of_mem_filter hq)).filter (fun r => decide (r ≠ key.root))
      rw [filter_cons_of_pos (of_mem_filter hroot), filter_cons_of_pos (of_mem_filter hq),
        filter_nil] at hpair
      exact hpair
    · rw [if_neg hnil] at hq ⊢
      exact ha hq

/-- A root that becomes ready goes to the back. -/
theorem Ahead.add (h : t.Sound env) (hd : d ∈ t.pending) (ha : t.Ahead d.root q) :
    (t.add env key entry).Ahead d.root q := by
  intro hq
  have hroot := h.root_mem_ready hd
  rw [Store.add] at hq ⊢
  dsimp only at hq ⊢
  by_cases hnil : t.queue key.root = []
  · rw [if_pos hnil] at hq ⊢
    rcases mem_append.mp hq with hq | hq
    · exact (ha hq).trans (sublist_append_left _ _)
    · rw [mem_singleton.mp hq]
      exact pair_sublist hroot
  · rw [if_neg hnil] at hq ⊢
    exact ha hq

/-- So does the root that was served. -/
theorem Ahead.take (h : t.Sound env) (hd : d ∈ t.pending) (hne : d.root ≠ key.root) {ready : List R}
    (hready : t.ready = key.root :: ready) (ha : key.root ≠ q → t.Ahead d.root q) :
    (t.take env key).Ahead d.root q := by
  intro hq
  have hnodup := h.ready_nodup
  have hroot := h.root_mem_ready hd
  rw [hready] at hnodup hroot
  have hroot' : d.root ∈ ready := (mem_cons.mp hroot).resolve_left hne
  have hfilter : t.ready.filter (· ≠ key.root) = ready := by
    rw [hready, filter_cons_of_neg (by simp), filter_eq_self]
    exact fun r hr => decide_eq_true fun heq => (nodup_cons.mp hnodup).1 (heq ▸ hr)
  have hbehind : q ∈ ready → [d.root, q].Sublist ready := fun hin => by
    have hother : key.root ≠ q := fun heq => (nodup_cons.mp hnodup).1 (heq ▸ hin)
    have hpair := ha hother (by rw [hready]; exact .tail _ hin)
    rw [hready] at hpair
    exact mem_of_pair_sublist hne hpair
  rw [Store.take] at hq ⊢
  dsimp only at hq ⊢
  rw [hfilter] at hq ⊢
  split_ifs at hq ⊢
  · exact hbehind hq
  · rcases mem_append.mp hq with hq | hq
    · exact (hbehind hq).trans (sublist_append_left _ _)
    · rw [mem_singleton.mp hq]
      exact pair_sublist hroot'

end Order

end Store

/-! ## Saturated numbers -/

theorem satAdd_eq {a b : Nat} (h : a + b < 2 ^ 64) : satAdd a b = a + b := by
  rw [satAdd]
  omega

theorem lt_satAdd {n a b : Nat} (hn : n < 2 ^ 64 - 1) : n < satAdd a b ↔ n < a + b := by
  rw [satAdd]
  omega

theorem lt_satAdd_satAdd {n a b c : Nat} (hn : n < 2 ^ 64 - 1) :
    n < satAdd (satAdd a b) c ↔ n < a + b + c := by
  rw [satAdd, satAdd]
  omega

theorem foldl_satAdd_sum (l : List Nat) : l.foldl satAdd 0 = min l.sum (2 ^ 64 - 1) := by
  have hfold : ∀ (l : List Nat) (n : Nat), n < 2 ^ 64 →
    l.foldl satAdd n = min (n + l.sum) (2 ^ 64 - 1) := by
    intro l
    induction l with
    | nil =>
      intro n hn
      rw [foldl_nil, sum_nil]
      omega
    | cons x l ih =>
      intro n hn
      have hlt : satAdd n x < 2 ^ 64 := by
        rw [satAdd]
        omega
      rw [foldl_cons, ih _ hlt, sum_cons, satAdd]
      omega
  rw [hfold l 0 (by decide), Nat.zero_add]

omit [LinearOrder R] in
theorem readyRootCost_pos (env : Env R) (root : R) : 0 < readyRootCost env root := by
  have := env.sizeOfDeque_pos
  rw [readyRootCost, satAdd, satAdd]
  omega

/-! ## What the methods do with the store -/

namespace QueueState

open Store

variable {env : Env R} {s : QueueState R}

theorem lookup_of_store {t : Store R} (h : s.store = t) (key : DiagnosticKey R) :
    s.pending.lookup key = t.pending.lookup key :=
  congrArg (fun t : Store R => t.pending.lookup key) h

theorem store_setStream (root : R) (identity : Text) (st : StreamState) :
    (s.setStream root identity st).store = s.store := by
  rw [setStream]
  split
  · rfl
  · rfl

theorem store_putMark (key : DiagnosticKey R) : (s.putMark env key).store = s.store := by
  rw [putMark]
  dsimp only
  split_ifs
  · rfl
  · rfl
  · split
    · split_ifs
      · exact store_setStream _ _ _
      · rfl
    · rfl

theorem store_markLoss (key : DiagnosticKey R) : (s.markLoss env key).store = s.store :=
  store_putMark key

theorem store_clearLoss (key : DiagnosticKey R) : (s.clearLoss env key).store = s.store := by
  rw [clearLoss]
  split_ifs
  · rfl
  · rfl

theorem store_rejectCapacity (key : DiagnosticKey R) : (s.rejectCapacity env key).store = s.store :=
  store_markLoss key

/-- What the eviction loop counts for a root: `rootCost` where it has no document. -/
def counted (s : QueueState R) (root : R) (rootCost : Nat) : Nat :=
  if (s.perRoot.lookup root).isSome then 0 else rootCost

theorem counted_eq (h : s.store.Sound env) (root : R) (rootCost : Nat) :
    counted s root rootCost = if s.store.queue root = [] then rootCost else 0 := by
  have hlook : s.perRoot.lookup root = _ := h.lookup_eq root
  rw [counted, hlook]
  by_cases hnil : s.store.queue root = []
  · rw [if_pos hnil, if_pos hnil]
    rfl
  · rw [if_neg hnil, if_neg hnil]
    rfl

theorem rootCost_eq (h : s.store.Sound env) (root : R) :
    s.rootCost env root = s.store.rootCost env root :=
  counted_eq h root _

theorem store_removePending (h : s.store.Sound env) (key : DiagnosticKey R) :
    (s.removePending env key).1.store = s.store.remove env key := by
  cases hkey : s.pending.lookup key with
  | none =>
    have hpending : s.store.pending.lookup key = none := hkey
    rw [removePending, hkey, Store.remove, hpending]
  | some entry =>
    have hpending : s.store.pending.lookup key = some entry := hkey
    have hlook : s.perRoot.lookup key.root = some (s.store.queue key.root) := by
      have hlook : s.perRoot.lookup key.root = _ := h.lookup_eq key.root
      rw [hlook, if_neg (ne_nil_of_mem (h.mem_queue hkey))]
    rw [removePending, hkey, Store.remove, hpending]
    dsimp only
    rw [hlook]
    dsimp only
    by_cases hnil : (s.store.queue key.root).erase key = []
    · have hempty : ((s.store.queue key.root).erase key).isEmpty = true := by rw [hnil]; rfl
      have herase : ∀ queue, (s.perRoot.insert key.root queue).erase key.root =
        s.perRoot.erase key.root :=
        fun queue => AList.ext (kerase_cons_eq rfl)
      rw [if_pos hempty, setQueue, if_pos hnil, if_pos hnil, if_pos hnil, dropReadyRoot,
        AList.lookup_insert]
      dsimp only
      rw [store, herase]
      rfl
    · have hempty : ¬ ((s.store.queue key.root).erase key).isEmpty = true := by
        rwa [List.isEmpty_iff]
      rw [if_neg hempty, setQueue, if_neg hnil, if_neg hnil, if_neg hnil]
      rfl

theorem sound_removePending (h : s.store.Sound env) (key : DiagnosticKey R) :
    (s.removePending env key).1.store.Sound env := by
  rw [store_removePending h]
  exact h.remove key

/-- Removing several documents. -/
theorem sound_foldl_removePending (keys : List (DiagnosticKey R)) (h : s.store.Sound env) :
    (keys.foldl (fun s key => (s.removePending env key).1) s).store.Sound env := by
  induction keys generalizing s with
  | nil => exact h
  | cons key keys ih => exact ih (sound_removePending h key)

theorem store_foldl_clearLoss (keys : List (DiagnosticKey R)) :
    (keys.foldl (fun s key => s.clearLoss env key) s).store = s.store := by
  induction keys generalizing s with
  | nil => rfl
  | cons key keys ih => rw [foldl_cons, ih, store_clearLoss]

/-- A document is put behind a queue, whether it was marked or not. -/
theorem store_pushBack {key : DiagnosticKey R} {queue : List (DiagnosticKey R)}
    (h : s.store.perRoot.lookup key.root = some queue) :
    ((s.clearLoss env key).pushBack key).store
      = { s.store with perRoot := s.store.perRoot.insert key.root (queue ++ [key]) } := by
  have hsame : (s.clearLoss env key).store = s.store := store_clearLoss key
  have hlook : (s.clearLoss env key).perRoot.lookup key.root = some queue := by
    rw [← h, ← hsame]
    rfl
  rw [pushBack, hlook, ← hsame]
  rfl

theorem timing_pushBack (key : DiagnosticKey R) :
    ((s.clearLoss env key).pushBack key).timing = s.timing := by
  have hclear : (s.clearLoss env key).timing = s.timing := by
    rw [clearLoss]
    split_ifs
    · rfl
    · rfl
  rw [← hclear, pushBack]
  split
  · rfl
  · rfl

theorem store_place (pd : PublishedDiagnostics R) {cost rootCost : Nat} (now : Nat)
    {queue : List (DiagnosticKey R)} (h : s.perRoot.lookup pd.root = some queue) :
    (s.place env pd cost rootCost now).store
      = { pending := s.pending.insert (keyOf pd) ⟨pd, cost, if s.timing then some now else none⟩
          perRoot := s.perRoot.insert pd.root (queue ++ [keyOf pd])
          ready := s.ready
          bytes := satAdd (satAdd s.bytes cost) rootCost } := by
  have hpush : (((s.charge cost rootCost).clearLoss env (keyOf pd)).pushBack (keyOf pd)).store =
    _ := store_pushBack h
  have htiming : (((s.charge cost rootCost).clearLoss env (keyOf pd)).pushBack (keyOf pd)).timing =
    s.timing := timing_pushBack (keyOf pd)
  have hplace : ∀ t : QueueState R, t = ((s.charge cost rootCost).clearLoss env (keyOf pd)).pushBack
    (keyOf pd) → (s.place env pd cost rootCost now).store
        = { t.store with
            pending := t.store.pending.insert (keyOf pd) ⟨pd, cost,
              if t.timing then some now else none⟩ } := by
    rintro t rfl
    rfl
  rw [hplace _ rfl, htiming, hpush]
  rfl

/-- A document for which there is room is added to the store. -/
theorem store_enqueue (h : s.store.Sound env) (pd : PublishedDiagnostics R) {cost : Nat} (now : Nat)
    (hfits : s.bytes + cost + s.rootCost env pd.root ≤ maxQueueBytes) :
    (s.enqueue env pd cost (s.rootCost env pd.root) now).store
      = s.store.add env (keyOf pd) ⟨pd, cost, if s.timing then some now else none⟩ := by
  have hmax : maxQueueBytes < 2 ^ 64 := by decide
  have hbytes : satAdd (satAdd s.bytes cost) (s.rootCost env pd.root)
      = s.bytes + cost + s.store.rootCost env pd.root := by
    rw [satAdd_eq (a := s.bytes) (by omega), satAdd_eq (by omega), rootCost_eq h]
  have hlook : s.perRoot.lookup pd.root = _ := h.lookup_eq pd.root
  have hkey : (keyOf pd).root = pd.root := rfl
  rw [enqueue, openRoot, Store.add, hkey]
  by_cases hnil : s.store.queue pd.root = []
  · have hpos : 0 < s.rootCost env pd.root := by
      rw [rootCost_eq h, Store.rootCost, if_pos hnil]
      exact readyRootCost_pos env pd.root
    have hinsert : (s.perRoot.insert pd.root []).insert pd.root ([] ++ [keyOf pd])
        = s.perRoot.insert pd.root ([] ++ [keyOf pd]) := AList.insert_insert _
    rw [if_pos hpos, store_place pd now (AList.lookup_insert _), hbytes, hinsert, if_pos hnil, hnil]
    rfl
  · have hzero : ¬ 0 < s.rootCost env pd.root := by
      rw [rootCost_eq h, Store.rootCost, if_neg hnil]
      exact Nat.lt_irrefl 0
    rw [if_neg hnil] at hlook
    rw [if_neg hzero, store_place pd now hlook, hbytes, if_neg hnil]
    rfl

theorem store_supersede (pd : PublishedDiagnostics R) {cost : Nat} {old : Entry R}
    (hfits : s.bytes - old.cost + cost < 2 ^ 64) :
    (s.supersede env pd cost old).store = s.store.swap (keyOf pd) old ⟨pd, cost,
      old.admittedAt⟩ := by
  have hclear : (clearLoss env { s with
    bytes := satAdd (s.bytes - old.cost) cost } (keyOf pd)).store
      = ({ s with bytes := satAdd (s.bytes - old.cost) cost } : QueueState R).store :=
        store_clearLoss (keyOf pd)
  have hsupersede : ∀ t : QueueState R,
      t = clearLoss env { s with bytes := satAdd (s.bytes - old.cost) cost } (keyOf pd) →
      (s.supersede env pd cost old).store
        = { t.store with
          pending := t.store.pending.insert (keyOf pd) ⟨pd, cost, old.admittedAt⟩ } := by
    rintro t rfl
    rfl
  rw [hsupersede _ rfl, hclear, satAdd_eq hfits]
  rfl

end QueueState

end Thegn.Lsp
