import Thegn.Lsp.Registry
import Thegn.Lsp.Retained

set_option autoImplicit false

/-! # What the calls of the diagnostics bus do

A state of the bus is `Valid` when its store and its registry are sound and every pending document
belongs to a registered stream. An eviction removes a pending document and records its loss
(`shed_evictOne`), so a publication that passed the checks is pending or lost, and so is every
document that was pending before (`published_publish`). A retirement takes away one stream with all
that was pending and marked of it (`retired_retireLocked`), a registration gives the next
generation, and a delivery is the oldest document of the root whose turn it is (`tryRecv_cases`).
`step_effect` says what every call does.
-/

namespace Thegn.Lsp

open Table Text List

variable {R : Type} [LinearOrder R] {env : Env R}

namespace QueueState

open Store Registry

variable {s : QueueState R} {key : DiagnosticKey R}
  {root : R} {identity : Text} {st : StreamState} {pd : PublishedDiagnostics R}

/-! ## What the methods do with the registry -/

theorem registry_dropReadyRoot (root : R) : (s.dropReadyRoot env root).registry = s.registry := by
  rw [dropReadyRoot]
  split
  · rfl
  · rfl

theorem registry_removePending (key : DiagnosticKey R) :
    (s.removePending env key).1.registry = s.registry := by
  rw [removePending]
  split
  · rfl
  · dsimp only
    split
    · dsimp only
      split_ifs
      · exact registry_dropReadyRoot _
      · rfl
    · rfl

theorem registry_setStream (root : R) (identity : Text) (st : StreamState) :
    (s.setStream root identity st).registry = s.registry.put root identity st := by
  have hactive : s.registry.active = s.active := rfl
  rw [setStream, put, hactive]
  cases s.active.lookup root with
  | none => rfl
  | some streams => rfl

theorem registry_clearLoss (key : DiagnosticKey R) :
    (s.clearLoss env key).registry = s.registry.clear env key := by
  rw [clearLoss, clear]
  by_cases hmem : key ∈ s.lossMarks
  · exact (congrArg registry (if_pos hmem)).trans
      (if_pos (show key ∈ s.registry.lossMarks from hmem)).symm
  · exact (congrArg registry (if_neg hmem)).trans
      (if_neg (show key ∉ s.registry.lossMarks from hmem)).symm

theorem isCurrent_iff : s.isCurrent key.root key.serverIdentity key.generation = true ↔
    s.registry.Current key := by
  rw [isCurrent, Current]
  change (s.registry.stream key.root key.serverIdentity).any _ = true ↔ _
  cases s.registry.stream key.root key.serverIdentity with
  | none => exact iff_of_false Bool.false_ne_true (fun h => by cases h)
  | some st =>
    rw [Option.any_some, beq_iff_eq, Option.map_some]
    exact (Option.some_inj).symm

/-- A document whose loss will be reported, for itself or with its stream. -/
def Lost (g : Registry R) (key : DiagnosticKey R) : Prop :=
  key ∈ g.lossMarks ∨ (g.stream key.root key.serverIdentity).any (·.lossy) = true

/-- A loss stays recorded when one is noted for a stream. -/
theorem Lost.put {g : Registry R} (hst : g.stream root identity = some st) {k : DiagnosticKey R}
    (hk : Lost g k) : Lost (g.put root identity { st with lossy := true }) k := by
  rw [Lost, lossMarks_put, stream_put _ hst]
  refine hk.imp id fun hlossy => ?_
  split_ifs
  · rfl
  · exact hlossy

/-- A loss is recorded, and none is forgotten. -/
theorem putMark_spec (hg : s.registry.Sound env) (hkey : s.registry.Current key) :
    (s.putMark env key).registry.Sound env ∧ s.registry.SameStreams (s.putMark env key).registry
      ∧ Lost (s.putMark env key).registry key
      ∧ ∀ k, Lost s.registry k → Lost (s.putMark env key).registry k := by
  have hmax : maxQueueMetadataBytes < 2 ^ 64 - 1 := by decide
  obtain ⟨st, hst, hgen⟩ := Option.map_eq_some_iff.mp hkey
  have hstream : s.stream key.root key.serverIdentity = some st := hst
  rw [putMark]
  by_cases hmem : key ∈ s.lossMarks
  · rw [if_pos hmem]
    exact ⟨hg, .refl _, .inl hmem, fun _ h => h⟩
  rw [if_neg hmem]
  by_cases hroom : s.lossMarks.length < maxLossMarks
      ∧ satAdd s.metadataBytes (diagnosticKeyBytes env key) ≤ maxQueueMetadataBytes
  · have hfits : s.metadataBytes + diagnosticKeyBytes env key ≤ maxQueueMetadataBytes := by
      have := hroom.2
      rw [satAdd] at this
      omega
    dsimp only
    rw [if_pos hroom, satAdd_eq (by omega)]
    exact ⟨hg.mark hkey hmem hfits, ⟨rfl, fun _ _ => rfl⟩, .inl (.head _),
      fun k hk => hk.imp (mem_cons_of_mem _) id⟩
  · dsimp only
    rw [if_neg hroom, hstream]
    dsimp only
    rw [if_pos hgen, registry_setStream]
    refine ⟨hg.put hst rfl, sameStreams_put hst rfl, .inr ?_, fun _ => Lost.put hst⟩
    rw [stream_put _ hst, if_pos ⟨rfl, rfl⟩]
    rfl

theorem markLoss_spec (hg : s.registry.Sound env) (hkey : s.registry.Current key) :
    (s.markLoss env key).registry.Sound env ∧ s.registry.SameStreams (s.markLoss env key).registry
      ∧ Lost (s.markLoss env key).registry key
      ∧ ∀ k, Lost s.registry k → Lost (s.markLoss env key).registry k :=
  putMark_spec hg hkey

/-! ## States of the bus -/

/-- What holds of the bus after any calls: the store and the registry are sound, and what is pending
belongs to a registered stream. -/
structure Valid (env : Env R) (s : QueueState R) : Prop where
  store : s.store.Sound env
  registry : s.registry.Sound env
  current : ∀ key entry, s.pending.lookup key = some entry → s.registry.Current key

/-- The store and the registry were not changed. -/
theorem Valid.of_same (h : Valid env s) {s' : QueueState R} (hstore : s'.store = s.store)
    (hregistry : s'.registry = s.registry) : Valid env s' where
  store := by
    rw [hstore]
    exact h.store
  registry := by
    rw [hregistry]
    exact h.registry
  current := fun key entry hkey => by
    rw [hregistry]
    exact h.current key entry ((lookup_of_store hstore key).symm.trans hkey)

/-- The documents outside `P` are pending as before, or they were given up and their losses
recorded. None of them becomes pending, and the roots of those that stay keep their places. -/
structure Touched (env : Env R) (P : DiagnosticKey R → Prop) (s s' : QueueState R) : Prop where
  valid : Valid env s'
  same : s.registry.SameStreams s'.registry
  kept : ∀ k, ¬ P k → ∀ entry, s.pending.lookup k = some entry →
    s'.pending.lookup k = some entry ∨ s'.pending.lookup k = none ∧ Lost s'.registry k
  absent : ∀ k, ¬ P k → s.pending.lookup k = none → s'.pending.lookup k = none
  lost : ∀ k, ¬ P k → Lost s.registry k → Lost s'.registry k
  order : ∀ d, ¬ P d → d ∈ s.store.pending → d ∈ s'.store.pending →
    ∀ q, s.store.Ahead d.root q → s'.store.Ahead d.root q

/-- Documents were given up, and each loss was recorded. -/
abbrev Shed (env : Env R) (s s' : QueueState R) : Prop := Touched env (fun _ => False) s s'

variable {P : DiagnosticKey R → Prop} {s' s'' : QueueState R}

/-- What was not touched was pending before. -/
theorem Touched.before (h : Touched env P s s') {k : DiagnosticKey R} (hk : ¬ P k) {entry : Entry R}
    (hentry : s'.pending.lookup k = some entry) : s.pending.lookup k = some entry := by
  cases hbefore : s.pending.lookup k with
  | none =>
    rw [h.absent k hk hbefore] at hentry
    cases hentry
  | some entry0 =>
    rcases h.kept k hk entry0 hbefore with hin | ⟨hout, -⟩
    · rw [← hentry, hin]
    · rw [hout] at hentry
      cases hentry

theorem mem_pending_iff {d : DiagnosticKey R} : d ∈ s.store.pending ↔
    ∃ entry, s.pending.lookup d = some entry :=
  AList.lookup_isSome.symm.trans Option.isSome_iff_exists

theorem Touched.mem_before (h : Touched env P s s') {d : DiagnosticKey R} (hd : ¬ P d)
    (hmem : d ∈ s'.store.pending) : d ∈ s.store.pending := by
  obtain ⟨entry, hentry⟩ := mem_pending_iff.mp hmem
  exact mem_pending_iff.mpr ⟨entry, h.before hd hentry⟩

theorem Touched.refl (h : Valid env s) : Touched env P s s :=
  ⟨h, .refl _, fun _ _ _ hkey => .inl hkey, fun _ _ hkey => hkey, fun _ _ hkey => hkey,
    fun _ _ _ _ _ hq => hq⟩

theorem Touched.trans (h : Touched env P s s') (h' : Touched env P s' s'') :
    Touched env P s s'' where
  valid := h'.valid
  same := h.same.trans h'.same
  kept := fun k hk entry hentry => by
    rcases h.kept k hk entry hentry with hin | ⟨hout, hlost⟩
    · exact h'.kept k hk entry hin
    · exact .inr ⟨h'.absent k hk hout, h'.lost k hk hlost⟩
  absent := fun k hk hentry => h'.absent k hk (h.absent k hk hentry)
  lost := fun k hk hlost => h'.lost k hk (h.lost k hk hlost)
  order := fun d hd hbefore hafter q hq =>
    have hmid := h'.mem_before hd hafter
    h'.order d hd hmid hafter q (h.order d hd hbefore hmid q hq)

theorem Shed.touched (h : Shed env s s') : Touched env P s s' :=
  ⟨h.valid, h.same, fun k _ => h.kept k not_false, fun k _ => h.absent k not_false,
    fun k _ => h.lost k not_false,
    fun d _ => h.order d not_false⟩

theorem Touched.signal (h : Touched env P s s') : Touched env P s s'.signal :=
  ⟨h.valid.of_same rfl rfl, h.same, h.kept, h.absent, h.lost, h.order⟩

/-- Nothing was done to the store. -/
theorem touched_of_store (h : Valid env s) (hstore : s'.store = s.store)
    (hsound : s'.registry.Sound env)
    (hsame : s.registry.SameStreams s'.registry)
    (hkeep : ∀ k, Lost s.registry k → Lost s'.registry k) : Touched env P s s' := by
  have hpending : ∀ k, s'.pending.lookup k = s.pending.lookup k := lookup_of_store hstore
  refine ⟨⟨?_, hsound, fun k e hk => ?_⟩, hsame, fun k _ e hk => .inl ((hpending k).trans hk),
    fun k _ hk => (hpending k).trans hk, fun k _ => hkeep k, fun d _ _ _ q hq => ?_⟩
  · rw [hstore]
    exact h.store
  · exact (hsame.current k).mpr (h.current k e ((hpending k).symm.trans hk))
  · rw [hstore]
    exact hq

theorem lookup_remove {t : Store R} (k : DiagnosticKey R) :
    (t.remove env key).pending.lookup k = if k = key then none else t.pending.lookup k := by
  cases hkey : t.pending.lookup key with
  | none =>
    have hsame : t.remove env key = t := by rw [Store.remove, hkey]
    rw [hsame]
    split_ifs with heq
    · rw [heq, hkey]
    · rfl
  | some entry =>
    rw [pending_remove env hkey]
    split_ifs with heq
    · rw [heq, AList.lookup_erase]
    · rw [AList.lookup_erase_ne heq]

/-- One document was removed, and its loss recorded unless it is in `P`. -/
theorem touched_of_removed (h : Valid env s) (hstore : s'.store = s.store.remove env key)
    (hsound : s'.registry.Sound env) (hsame : s.registry.SameStreams s'.registry)
    (hkeep : ∀ k, Lost s.registry k → Lost s'.registry k) (hkey : P key ∨ Lost s'.registry key) :
    Touched env P s s' ∧ s'.pending.lookup key = none := by
  have hpending : ∀ k, s'.pending.lookup k = if k = key then none
    else s.pending.lookup k := fun k =>
    (lookup_of_store hstore k).trans (lookup_remove k)
  refine ⟨⟨⟨?_, hsound, fun k e hk => ?_⟩, hsame, fun k hout e hk => ?_, fun k _ hk => ?_,
    fun k _ => hkeep k,
    fun d _ _ hafter q hq => ?_⟩, ?_⟩
  · rw [hstore]
    exact h.store.remove key
  · rw [hpending] at hk
    split_ifs at hk
    exact (hsame.current k).mpr (h.current k e hk)
  · rw [hpending]
    by_cases heq : k = key
    · rw [if_pos heq]
      rw [heq] at hout ⊢
      exact .inr ⟨rfl, hkey.resolve_left hout⟩
    · rw [if_neg heq]
      exact .inl hk
  · rw [hpending, hk, ite_self]
  · rw [hstore] at hafter ⊢
    exact hq.remove h.store hafter
  · rw [hpending, if_pos rfl]

/-- One document was removed, and its loss recorded. -/
theorem touched_of_lost (h : Valid env s) (hkey : s.registry.Current key)
    (hstore : s'.store = s.store.remove env key) (hregistry : s'.registry = s.registry) :
    Touched env P s (s'.markLoss env key) ∧ (s'.markLoss env key).pending.lookup key = none
      ∧ Lost (s'.markLoss env key).registry key := by
  have hsound := h.registry
  rw [← hregistry] at hsound hkey
  obtain ⟨hmarked, hsame, hlost, hkeep⟩ := markLoss_spec hsound hkey
  rw [hregistry] at hsame hkeep
  obtain ⟨htouched, hnone⟩ :=
    touched_of_removed h ((store_markLoss key).trans hstore) hmarked hsame hkeep (.inr hlost)
  exact ⟨htouched, hnone, hlost⟩

/-! ## Giving up documents -/

theorem evictLoop_of_room {cost rootCost : Nat} {fuel : Nat}
    (h : ¬ s.NoRoom cost (s.counted root rootCost)) :
    evictLoop env cost rootCost root (fuel + 1) s = s := if_neg h

theorem evictLoop_of_noRoom {cost rootCost : Nat} {fuel : Nat}
    (h : s.NoRoom cost (s.counted root rootCost)) :
    evictLoop env cost rootCost root (fuel + 1) s
      = if (s.evictOne env root).2 then evictLoop env cost rootCost root fuel
        (s.evictOne env root).1
        else (s.evictOne env root).1 := if_pos h

theorem victimRoot_lookup {incoming : R} {e : R × List (DiagnosticKey R)}
    (he : s.victimRoot incoming = some e) : s.store.perRoot.lookup e.1 = some e.2 := by
  obtain ⟨e0, hmem, rfl⟩ := mem_map.mp (argmax_mem he)
  exact Option.mem_def.mp (AList.mem_lookup_iff.mpr hmem)

/-- The document that is given up is pending. -/
theorem victim_mem (h : s.store.Sound env) {incoming : R} {e : R × List (DiagnosticKey R)}
    {victim : DiagnosticKey R} (he : s.victimRoot incoming = some e)
    (hhead : e.2.head? = some victim) :
    victim.root = e.1 ∧ ∃ entry, s.pending.lookup victim = some entry := by
  have hin : victim ∈ s.store.queue e.1 := by
    rw [queue_of_lookup (victimRoot_lookup he)]
    exact mem_of_mem_head? hhead
  have hroot := h.rooted e.1 victim hin
  rw [← hroot] at hin
  exact ⟨hroot, mem_pending_iff.mp ((h.listed victim).mp hin)⟩

/-- An eviction removes a document and records its loss. -/
theorem evictOne_of_victim (h : s.store.Sound env) {incoming : R} {victim : DiagnosticKey R}
    (hvictim : ((s.victimRoot incoming).bind fun e => e.2.head?) = some victim) :
    ∃ s1 : QueueState R, s1.store = s.store.remove env victim ∧ s1.registry = s.registry
      ∧ s.evictOne env incoming = (s1.markLoss env victim, true) := by
  rw [evictOne, hvictim]
  exact ⟨(s.removePending env victim).1.countEvicted, store_removePending h victim,
    registry_removePending victim, rfl⟩

theorem shed_evictOne (h : Valid env s) (incoming : R) :
    Shed env s (s.evictOne env incoming).1 := by
  cases hvictim : (s.victimRoot incoming).bind fun e => e.2.head? with
  | none =>
    rw [evictOne, hvictim]
    exact .refl h
  | some victim =>
    obtain ⟨e, he, hhead⟩ := Option.bind_eq_some_iff.mp hvictim
    obtain ⟨-, entry, hentry⟩ := victim_mem h.store he hhead
    obtain ⟨s1, hstore, hregistry, hevict⟩ := evictOne_of_victim h.store hvictim
    rw [hevict]
    exact (touched_of_lost h (h.current victim entry hentry) hstore hregistry).1

theorem shed_evictLoop (cost rootCost : Nat) (root : R) (fuel : Nat) (h : Valid env s) :
    Shed env s (evictLoop env cost rootCost root fuel s) := by
  induction fuel generalizing s with
  | zero => exact .refl h
  | succ fuel ih =>
    have hone := shed_evictOne h root
    by_cases hroom : s.NoRoom cost (s.counted root rootCost)
    · rw [evictLoop_of_noRoom hroom]
      split_ifs
      · exact hone.trans (ih hone.valid)
      · exact hone
    · rw [evictLoop_of_room hroom]
      exact .refl h

/-- A refused publication is lost. -/
theorem shed_rejectCapacity (h : Valid env s) (hkey : s.registry.Current key) :
    Shed env s (s.rejectCapacity env key) ∧ Lost (s.rejectCapacity env key).registry key := by
  obtain ⟨hmarked, hsame, hlost, hkeep⟩ := markLoss_spec (s := s.countRejected) h.registry hkey
  exact ⟨touched_of_store h (store_rejectCapacity key) hmarked hsame hkeep, hlost⟩

/-! ## A publication -/

/-- A publication that passed the checks is pending, or its loss is recorded. -/
structure Published (env : Env R) (s : QueueState R) (pd : PublishedDiagnostics R)
    (s' : QueueState R) : Prop
    extends Touched env (· = keyOf pd) s s' where
  own : (∃ entry, s'.pending.lookup (keyOf pd) = some entry ∧ entry.publication = pd)
    ∨ s'.pending.lookup (keyOf pd) = none ∧ Lost s'.registry (keyOf pd)
  place : keyOf pd ∈ s.store.pending → keyOf pd ∈ s'.store.pending →
    ∀ q, s.store.Ahead pd.root q → s'.store.Ahead pd.root q

theorem not_mem_pending (h : s.pending.lookup key = none) : key ∉ s.store.pending :=
  AList.lookup_eq_none.mp h

/-- A document that was not pending is published behind some evictions. -/
theorem Published.after (h : Shed env s s') (hnone : s.pending.lookup (keyOf pd) = none)
    (h' : Published env s' pd s'') : Published env s pd s'' :=
  ⟨h.touched.trans h'.toTouched, h'.own, fun hmem => absurd hmem (not_mem_pending hnone)⟩

/-- A publication without room is lost. -/
theorem Published.of_rejected (h : Valid env s) (hkey : s.registry.Current (keyOf pd))
    (hnone : s.pending.lookup (keyOf pd) = none) :
    Published env s pd (s.rejectCapacity env (keyOf pd)) := by
  obtain ⟨hshed, hlost⟩ := shed_rejectCapacity h hkey
  exact ⟨hshed.touched, .inr ⟨hshed.absent _ not_false hnone, hlost⟩,
    fun hmem => absurd hmem (not_mem_pending hnone)⟩

theorem lost_clear {g : Registry R} {k : DiagnosticKey R} (hg : g.Sound env) (hne : k ≠ key)
    (h : Lost g k) : Lost (g.clear env key) k := by
  rw [Lost, mem_clear hg.marks_nodup, Registry.stream, active_clear]
  exact h.imp (fun hmem => ⟨hmem, hne⟩) id

/-- A publication that is pending has no mark any more. -/
theorem Published.of_pending {entry : Entry R} (h : Valid env s)
    (hkey : s.registry.Current (keyOf pd))
    (hentry : entry.publication = pd) (hstore : s'.store.Sound env)
    (hregistry : s'.registry = s.registry.clear env (keyOf pd))
    (hpending : s'.pending = s.pending.insert (keyOf pd) entry)
    (horder : ∀ d ∈ s.store.pending, ∀ q, s.store.Ahead d.root q → s'.store.Ahead d.root q) :
    Published env s pd s' := by
  have hsame : s.registry.SameStreams s'.registry := by
    rw [hregistry]
    exact sameStreams_clear _ _
  have hsound : s'.registry.Sound env := by
    rw [hregistry]
    exact h.registry.clear _
  have hother : ∀ key, key ≠ keyOf pd → s'.pending.lookup key = s.pending.lookup key := by
    intro key hne
    rw [hpending, AList.lookup_insert_ne hne]
  have hown : s'.pending.lookup (keyOf pd) = some entry := by
    rw [hpending, AList.lookup_insert]
  refine ⟨⟨⟨hstore, hsound, fun key e hlook => ?_⟩, hsame,
    fun key hne e hlook => .inl ((hother key hne).trans hlook),
    fun key hne hlook => (hother key hne).trans hlook, fun key hne hlost => ?_,
      fun d _ hd _ => horder d hd⟩,
    .inl ⟨entry, hown, hentry⟩, fun hd _ => horder _ hd⟩
  · by_cases hk : key = keyOf pd
    · rw [hk]
      exact (hsame.current _).mpr hkey
    · rw [hother key hk] at hlook
      exact (hsame.current key).mpr (h.current key e hlook)
  · rw [hregistry]
    exact lost_clear h.registry hne hlost

theorem registry_enqueue (pd : PublishedDiagnostics R) (cost rootCost now : Nat) :
    (s.enqueue env pd cost rootCost now).registry = s.registry.clear env (keyOf pd) := by
  have hopen : (s.openRoot pd.root rootCost).registry = s.registry := by
    rw [openRoot]
    split_ifs
    · rfl
    · rfl
  have hpush : ∀ (t : QueueState R) (key : DiagnosticKey R),
    (t.pushBack key).registry = t.registry := by
    intro t key
    rw [pushBack]
    split
    · rfl
    · rfl
  have hplace : ∀ t : QueueState R, (t.place env pd cost rootCost now).registry
      = (((t.charge cost rootCost).clearLoss env (keyOf pd)).pushBack (keyOf pd)).registry :=
        fun _ => rfl
  rw [enqueue, hplace, hpush, registry_clearLoss, ← hopen]
  rfl

theorem registry_supersede (pd : PublishedDiagnostics R) (cost : Nat) (old : Entry R) :
    (s.supersede env pd cost old).registry = s.registry.clear env (keyOf pd) :=
  registry_clearLoss (s := { s with bytes := satAdd (s.bytes - old.cost) cost }) (keyOf pd)

theorem published_replace {old : Entry R} (h : Valid env s) (hkey : s.registry.Current (keyOf pd))
    (hold : s.pending.lookup (keyOf pd) = some old) :
    Published env s pd (s.replace env pd (entryCost env pd) old) := by
  have hmax : maxQueueBytes < 2 ^ 64 - 1 := by decide
  rw [replace]
  by_cases hroom : maxQueueBytes < satAdd (s.bytes - old.cost) (entryCost env pd)
  · rw [if_pos hroom]
    have hstore : (s.removePending env (keyOf pd)).1.countRejected.store =
      s.store.remove env (keyOf pd) := store_removePending h.store _
    obtain ⟨htouched, hnone, hlost⟩ : Touched env (· = keyOf pd) s _ ∧ _ :=
      touched_of_lost h hkey hstore (registry_removePending _)
    exact ⟨htouched.signal, .inr ⟨hnone, hlost⟩, fun _ hmem => absurd hmem (not_mem_pending hnone)⟩
  · have hfits : s.bytes - old.cost + entryCost env pd ≤ maxQueueBytes := by
      rw [lt_satAdd hmax] at hroom
      omega
    have hstore : (s.supersede env pd (entryCost env pd) old).store = _ :=
      store_supersede pd (by omega)
    rw [if_neg hroom]
    refine Published.of_pending h hkey rfl ?_ (registry_supersede pd _ old)
      (congrArg Store.pending hstore)
      fun d _ q hq => ?_
    · rw [hstore]
      exact h.store.swap hold ⟨rfl, rfl⟩ hfits
    · rw [hstore]
      exact hq

theorem published_enqueueIfRoom (h : Valid env s) (hkey : s.registry.Current (keyOf pd))
    (hnone : s.pending.lookup (keyOf pd) = none) (now : Nat) :
    Published env s pd (s.enqueueIfRoom env pd (entryCost env pd) now) := by
  have hmax : maxQueueBytes < 2 ^ 64 - 1 := by decide
  rw [enqueueIfRoom]
  split_ifs with hroom
  · exact .of_rejected h hkey hnone
  · rw [NoRoom, lt_satAdd_satAdd hmax] at hroom
    have hcount := Nat.not_le.mp fun hle => hroom (.inl hle)
    have hfits := Nat.not_lt.mp fun hlt => hroom (.inr hlt)
    have hstore := store_enqueue h.store pd now hfits
    refine Published.of_pending h hkey rfl ?_ (registry_enqueue pd _ _ now)
      (congrArg Store.pending hstore)
      fun d hd q hq => ?_
    · rw [hstore]
      refine h.store.add hnone ⟨rfl, rfl⟩ hcount ?_
      rw [← rootCost_eq h.store]
      exact hfits
    · rw [hstore]
      exact hq.add h.store hd

theorem published_admit (h : Valid env s) (hkey : s.registry.Current (keyOf pd))
    (hnone : s.pending.lookup (keyOf pd) = none) (now : Nat) :
    Published env s pd (s.admitEntry env pd (entryCost env pd) now) := by
  rw [admitEntry]
  split_ifs with hbig
  · exact .of_rejected h hkey hnone
  · have hshed := shed_evictLoop (entryCost env pd) (s.rootCost env pd.root) pd.root
      (s.pending.keys.length + 1) h
    exact .after hshed hnone (published_enqueueIfRoom hshed.valid ((hshed.same.current _).mpr hkey)
      (hshed.absent _ not_false hnone) now)

/-- The stream of a publication is registered, and has seen nothing newer. -/
def Accepts (s : QueueState R) (pd : PublishedDiagnostics R) : Prop :=
  ∃ st, s.registry.stream pd.root pd.serverIdentity = some st ∧ st.generation = pd.generation
    ∧ st.lastSequence < pd.sequence

/-- A publication that the checks refuse changes neither the store nor the registry. -/
theorem publish_refused (h : ¬ Accepts s pd) (now : Nat) :
    s.publish env pd now = s.refuseStale.signal := by
  rw [publish]
  cases hst : s.stream pd.root pd.serverIdentity with
  | none => rfl
  | some st =>
    dsimp only
    split_ifs with hgen hseq
    · rfl
    · rfl
    · exact absurd ⟨st, hst, not_not.mp hgen, Nat.not_le.mp hseq⟩ h

/-- The state in which the sequence of a publication was noted. -/
def heard (s : QueueState R) (pd : PublishedDiagnostics R) (st : StreamState) : QueueState R :=
  s.setStream pd.root pd.serverIdentity { st with lastSequence := pd.sequence }

theorem nextGeneration_heard (pd : PublishedDiagnostics R) (st : StreamState) :
    (s.heard pd st).registry.nextGeneration = s.registry.nextGeneration := by
  rw [heard, registry_setStream, nextGeneration_put]

theorem publish_eq (hst : s.registry.stream pd.root pd.serverIdentity = some st)
    (hgen : st.generation = pd.generation) (hseq : st.lastSequence < pd.sequence) (now : Nat) :
    s.publish env pd now = (s.heard pd st).accept env pd now := by
  have hstream : s.stream pd.root pd.serverIdentity = some st := hst
  rw [publish, hstream]
  exact (if_neg (not_not.mpr hgen)).trans (if_neg (Nat.not_le.mpr hseq))

theorem current_keyOf (hst : s.registry.stream pd.root pd.serverIdentity = some st)
    (hgen : st.generation = pd.generation) : s.registry.Current (keyOf pd) :=
  (congrArg (Option.map StreamState.generation) hst).trans (congrArg some hgen)

theorem current_heard (hst : s.registry.stream pd.root pd.serverIdentity = some st)
    (key : DiagnosticKey R) : (s.heard pd st).registry.Current key ↔ s.registry.Current key := by
  rw [heard, registry_setStream]
  exact current_put { st with lastSequence := pd.sequence } hst rfl key

theorem lost_heard (hst : s.registry.stream pd.root pd.serverIdentity = some st)
    (k : DiagnosticKey R) : Lost (s.heard pd st).registry k ↔ Lost s.registry k := by
  rw [heard, registry_setStream, Lost, lossMarks_put, stream_put _ hst, Lost]
  split_ifs with hand
  · rw [hand.1, hand.2, hst]
    exact Iff.rfl
  · exact Iff.rfl

theorem valid_heard (h : Valid env s)
    (hst : s.registry.stream pd.root pd.serverIdentity = some st) : Valid env (s.heard pd st) := by
  have hstore : (s.heard pd st).store = s.store := store_setStream _ _ _
  have hregistry : (s.heard pd st).registry = _ := registry_setStream _ _ _
  refine ⟨?_, ?_, fun key entry hkey => ?_⟩
  · rw [hstore]
    exact h.store
  · rw [hregistry]
    exact h.registry.put hst rfl
  · rw [current_heard hst]
    exact h.current key entry ((lookup_of_store hstore key).symm.trans hkey)

/-- **A publication that passes the checks** is pending, or its loss is recorded. -/
theorem published_publish (h : Valid env s)
    (hst : s.registry.stream pd.root pd.serverIdentity = some st)
    (hgen : st.generation = pd.generation) (hseq : st.lastSequence < pd.sequence) (now : Nat) :
    Published env (s.heard pd st) pd (s.publish env pd now) := by
  have hvalid := valid_heard h hst
  have hkey : (s.heard pd st).registry.Current (keyOf pd) := by
    rw [current_heard hst]
    exact current_keyOf hst hgen
  rw [publish_eq hst hgen hseq, accept]
  split
  · rename_i old hold
    exact published_replace hvalid hkey hold
  · rename_i hnone
    exact published_admit hvalid hkey hnone now

/-! ## Retiring a stream -/

/-- The stream is gone with all that was pending and marked of it; the others are not touched. -/
structure Retired (env : Env R) (s : QueueState R) (root : R) (identity : Text)
    (s' : QueueState R) : Prop where
  valid : Valid env s'
  next : s'.registry.nextGeneration = s.registry.nextGeneration
  stream : ∀ r i, s'.registry.stream r i = if r = root ∧
    i = identity then none else s.registry.stream r i
  pending : ∀ key, ¬ (key.root = root ∧ key.serverIdentity = identity) →
    s'.pending.lookup key = s.pending.lookup key
  marks : ∀ key, ¬ (key.root = root ∧ key.serverIdentity = identity) →
    (key ∈ s'.lossMarks ↔ key ∈ s.lossMarks)
  order : ∀ d ∈ s'.store.pending, ∀ q, s.store.Ahead d.root q → s'.store.Ahead d.root q

theorem registry_foldl_removePending (keys : List (DiagnosticKey R)) :
    (keys.foldl (fun s key => (s.removePending env key).1) s).registry = s.registry := by
  induction keys generalizing s with
  | nil => rfl
  | cons key keys ih => exact ih.trans (registry_removePending key)

theorem lookup_removePending (h : s.store.Sound env) (key k : DiagnosticKey R) :
    (s.removePending env key).1.pending.lookup k = if k = key then none else s.pending.lookup k :=
  (lookup_of_store (store_removePending h key) k).trans (lookup_remove k)

theorem lookup_foldl_removePending (keys : List (DiagnosticKey R)) (h : s.store.Sound env)
    (k : DiagnosticKey R) :
    (keys.foldl (fun s key => (s.removePending env key).1) s).pending.lookup k
      = if k ∈ keys then none else s.pending.lookup k := by
  induction keys generalizing s with
  | nil => rfl
  | cons key keys ih =>
    rw [foldl_cons, ih (sound_removePending h key), lookup_removePending h]
    by_cases hkeys : k ∈ keys
    · rw [if_pos hkeys, if_pos (mem_cons_of_mem _ hkeys)]
    · rw [if_neg hkeys]
      by_cases heq : k = key
      · rw [if_pos heq, if_pos (heq ▸ mem_cons_self)]
      · rw [if_neg heq, if_neg fun hin => (mem_cons.mp hin).elim heq hkeys]

theorem ahead_foldl_removePending (keys : List (DiagnosticKey R)) (h : s.store.Sound env)
    {d : DiagnosticKey R}
    (hd : d ∈ (keys.foldl (fun s key => (s.removePending env key).1) s).store.pending) {q : R}
    (ha : s.store.Ahead d.root q) :
    (keys.foldl (fun s key => (s.removePending env key).1) s).store.Ahead d.root q := by
  induction keys generalizing s with
  | nil => exact ha
  | cons key keys ih =>
    have hsound := sound_removePending h key
    refine ih hsound hd ?_
    obtain ⟨entry, hentry⟩ := mem_pending_iff.mp hd
    rw [foldl_cons, lookup_foldl_removePending keys hsound] at hentry
    split_ifs at hentry
    have hin : d ∈ (s.removePending env key).1.store.pending := mem_pending_iff.mpr ⟨entry, hentry⟩
    rw [store_removePending h] at hin ⊢
    exact ha.remove h hin

theorem registry_foldl_clearLoss (keys : List (DiagnosticKey R)) :
    (keys.foldl (fun s key => s.clearLoss env key) s).registry
      = keys.foldl (fun g key => g.clear env key) s.registry := by
  induction keys generalizing s with
  | nil => rfl
  | cons key keys ih => rw [foldl_cons, foldl_cons, ih, registry_clearLoss]

theorem lookup_purge (h : s.store.Sound env) (root : R) (identity : Text) (generation : Nat)
    (k : DiagnosticKey R) :
    (s.purge env root identity generation).pending.lookup k
      = if k ∈ s.store.queue root ∧ k.serverIdentity = identity ∧
      k.generation = generation then none
        else s.pending.lookup k := by
  refine (lookup_foldl_removePending (s := s.countPurged _) _ h k).trans (if_congr ?_ rfl rfl)
  rw [mem_filter, decide_eq_true_eq]
  exact Iff.rfl

theorem registry_purge (root : R) (identity : Text) (generation : Nat) :
    (s.purge env root identity generation).registry = s.registry := registry_foldl_removePending _

theorem store_forget (root : R) (identity : Text) (generation : Nat) :
    (s.forget env root identity generation).store = s.store := store_foldl_clearLoss _

/-- **A stream is retired** with what it had pending and marked. -/
theorem retired_retireLocked (h : Valid env s) (hst : s.registry.stream root identity = some st) :
    Retired env s root identity (s.retireLocked env root identity st.generation).1
      ∧ (s.retireLocked env root identity st.generation).2 = true := by
  obtain ⟨streams, hroot, hstream⟩ := Option.bind_eq_some_iff.mp hst
  have hactive : s.active.lookup root = some streams := hroot
  have hgen : (streams.lookup identity).map StreamState.generation = some st.generation := by
    rw [hstream, Option.map_some]
  obtain ⟨s1, hs1⟩ : ∃ s1, s1 = s.unlist env root identity streams := ⟨_, rfl⟩
  obtain ⟨s2, hs2⟩ : ∃ s2, s2 = s1.purge env root identity st.generation := ⟨_, rfl⟩
  have hresult : s.retireLocked env root identity st.generation
      = ({ s2.forget env root identity st.generation with retiredDirty := true }, true) := by
    rw [retireLocked, hactive]
    dsimp only
    rw [if_neg (not_not.mpr hgen), hs2, hs1]
  have hsound1 : s1.store.Sound env := by
    rw [hs1]
    exact h.store
  have hsound2 : s2.store.Sound env := by
    rw [hs2]
    exact sound_foldl_removePending _ hsound1
  have hregistry2 : s2.registry = s.registry.unlist root identity streams
      (streamCost env root identity (decide (streams.keys.length = 1))) := by
    rw [hs2, registry_purge, hs1]
    rfl
  have hmarks2 : s2.lossMarks = s.lossMarks := congrArg Registry.lossMarks hregistry2
  have hpending : ∀ k, s2.pending.lookup k
      = if k ∈ s.store.queue root ∧ k.serverIdentity = identity ∧
        k.generation = st.generation then none
        else s.pending.lookup k := fun k => by
    rw [hs2, lookup_purge hsound1, hs1]
    rfl
  -- what belongs to the stream has its generation
  have hown : ∀ key, s.registry.Current key → key.root = root → key.serverIdentity = identity →
      key.generation = st.generation := fun key hkey hr hi => by
    rw [Current, hr, hi, hst, Option.map_some, Option.some_inj] at hkey
    exact hkey.symm
  have hforget : (s2.forget env root identity st.generation).registry
      = (s2.lossMarks.filter fun key => decide (key.root = root ∧ key.serverIdentity = identity
          ∧ key.generation = st.generation)).foldl (fun g key => g.clear env key) s2.registry :=
    registry_foldl_clearLoss _
  rw [hmarks2, hregistry2] at hforget
  have hregistry3 : (s2.forget env root identity st.generation).registry.Sound env := by
    rw [hforget]
    refine h.registry.unlist hroot hstream fun key hkey hr hi => mem_filter.mpr ⟨hkey, ?_⟩
    exact decide_eq_true ⟨hr, hi, hown key (h.registry.marks_current key hkey) hr hi⟩
  obtain ⟨-, hmem, hactive3, hnext, -⟩ := foldl_clear (s.lossMarks.filter fun key =>
    decide (key.root = root ∧ key.serverIdentity = identity ∧ key.generation = st.generation))
    (counted_unlist h.registry hroot hstream)
  rw [← hforget] at hmem hactive3 hnext
  have hstream3 : ∀ r i, (s2.forget env root identity st.generation).registry.stream r i
      = if r = root ∧ i = identity then none else s.registry.stream r i := fun r i => by
    rw [Registry.stream, hactive3]
    exact stream_unlist hroot hstream _ r i
  have hpending3 : (s2.forget env root identity st.generation).pending = s2.pending :=
    congrArg Store.pending (store_forget root identity st.generation)
  rw [hresult]
  refine ⟨⟨⟨?_, hregistry3, fun key entry hkey => ?_⟩, hnext, hstream3, fun key hother => ?_,
    fun key hother => ?_, fun d hd q hq => ?_⟩, rfl⟩
  · change (s2.forget env root identity st.generation).store.Sound env
    rw [store_forget]
    exact hsound2
  · -- a pending document of the stream would have been purged
    change (s2.forget env root identity st.generation).pending.lookup key = some entry at hkey
    rw [hpending3, hpending] at hkey
    split_ifs at hkey with hdoomed
    have hcurrent := h.current key entry hkey
    have hother : ¬ (key.root = root ∧ key.serverIdentity = identity) := fun hand => by
      refine hdoomed ⟨?_, hand.2, hown key hcurrent hand.1 hand.2⟩
      rw [← hand.1]
      exact h.store.mem_queue hkey
    have hcurrent3 : (s2.forget env root identity st.generation).registry.Current key := by
      rw [Current, hstream3, if_neg hother]
      exact hcurrent
    exact hcurrent3
  · change (s2.forget env root identity st.generation).pending.lookup key = _
    rw [hpending3, hpending]
    refine if_neg fun hand => hother ⟨?_, hand.2.1⟩
    exact h.store.rooted root key hand.1
  · refine (hmem key).trans (and_iff_left fun hin => hother ?_)
    have hstreamOf := of_decide_eq_true (mem_filter.mp hin).2
    exact ⟨hstreamOf.1, hstreamOf.2.1⟩
  · change d ∈ (s2.forget env root identity st.generation).store.pending at hd
    change (s2.forget env root identity st.generation).store.Ahead d.root q
    rw [store_forget] at hd ⊢
    rw [hs2, hs1] at hd ⊢
    exact ahead_foldl_removePending (s := (s.unlist env root identity streams).countPurged _) _
      h.store hd hq

/-- Only the generation that is registered can be retired. -/
theorem retireLocked_cases (h : Valid env s) (root : R) (identity : Text) (generation : Nat) :
    s.retireLocked env root identity generation = (s, false)
      ∨ Retired env s root identity (s.retireLocked env root identity generation).1
        ∧ (s.retireLocked env root identity generation).2 = true := by
  by_cases hgen : (s.registry.stream root identity).map StreamState.generation = some generation
  · obtain ⟨st, hst, rfl⟩ := Option.map_eq_some_iff.mp hgen
    exact .inr (retired_retireLocked h hst)
  · refine .inl ?_
    rw [retireLocked]
    split
    · rfl
    · rename_i streams hroot
      have hroot' : s.registry.active.lookup root = some streams := hroot
      rw [Registry.stream, hroot', Option.bind_some] at hgen
      exact if_pos hgen

/-! ## Registering a stream -/

/-- Nothing was retired, or the stream of the pair was. -/
def MayRetire (env : Env R) (s : QueueState R) (root : R) (identity : Text)
    (s' : QueueState R) : Prop :=
  s' = s ∨ Retired env s root identity s'

theorem MayRetire.valid {s' : QueueState R} (h : MayRetire env s root identity s')
    (hs : Valid env s) : Valid env s' := by
  rcases h with rfl | h
  · exact hs
  · exact h.valid

theorem MayRetire.next {s' : QueueState R} (h : MayRetire env s root identity s') :
    s'.nextGeneration = s.nextGeneration := by
  rcases h with rfl | h
  · rfl
  · exact h.next

theorem retirePrevious_spec (h : Valid env s) (root : R) (identity : Text) :
    MayRetire env s root identity (s.retirePrevious env root identity)
      ∧ (s.retirePrevious env root identity).registry.stream root identity = none := by
  cases hst : s.stream root identity with
  | none =>
    have hsame : s.retirePrevious env root identity = s := by rw [retirePrevious, hst]
    rw [hsame]
    exact ⟨.inl rfl, hst⟩
  | some st =>
    have hprevious : s.retirePrevious env root identity =
      (s.retireLocked env root identity st.generation).1 := by
      rw [retirePrevious, hst]
    obtain ⟨hretired, -⟩ :=
      retired_retireLocked h (show s.registry.stream root identity = some st from hst)
    rw [hprevious]
    refine ⟨.inr hretired, ?_⟩
    rw [hretired.stream, if_pos ⟨rfl, rfl⟩]

/-- A stream is registered with the next generation, or nothing changes. -/
theorem registerFresh_cases (root : R) (identity : Text) :
    (∃ e, s.registerFresh env root identity = (s, .error e)) ∨
      ∃ cost, s.registerFresh env root identity =
        (s.enroll root identity cost, .ok s.nextGeneration)
        ∧ s.registry.metadataBytes + cost ≤ maxQueueMetadataBytes
        ∧ cost = s.registry.freshCost env root identity := by
  have hmax : maxQueueMetadataBytes < 2 ^ 64 - 1 := by decide
  rw [registerFresh]
  dsimp only
  split_ifs with hroots hservers hmetadata hspace
  · exact .inl ⟨_, rfl⟩
  · exact .inl ⟨_, rfl⟩
  · exact .inl ⟨_, rfl⟩
  · exact .inl ⟨_, rfl⟩
  · refine .inr ⟨_, rfl, ?_, ?_⟩
    · rw [lt_satAdd hmax] at hmetadata
      exact Nat.not_lt.mp hmetadata
    · rw [lt_satAdd hmax, streamCost_eq] at hmetadata
      rw [streamCost_eq, freshCost]
      cases hroot : s.active.lookup root with
      | none =>
        have hroot' : s.registry.active.lookup root = none := hroot
        rw [hroot] at hmetadata
        rw [hroot', if_pos rfl]
        simp only [Option.isSome_none, Bool.not_false, if_true] at hmetadata ⊢
        omega
      | some streams =>
        have hroot' : s.registry.active.lookup root = some streams := hroot
        rw [hroot] at hmetadata
        rw [hroot', if_neg (Option.some_ne_none streams)]
        simp only [Option.isSome_some, Bool.not_true, Bool.false_eq_true, if_false] at hmetadata ⊢
        omega

theorem registry_enroll (root : R) (identity : Text) {cost : Nat}
    (hfits : s.registry.metadataBytes + cost ≤ maxQueueMetadataBytes) :
    (s.enroll root identity cost).registry = s.registry.enroll root identity cost := by
  have hmax : maxQueueMetadataBytes < 2 ^ 64 := by decide
  have hsum : satAdd s.metadataBytes cost = s.metadataBytes + cost :=
    satAdd_eq (hfits.trans_lt hmax)
  rw [QueueState.enroll, QueueState.registry, hsum]
  rfl

theorem valid_enroll (h : Valid env s) {cost : Nat} (hnone : s.registry.stream root identity = none)
    (hfits : s.registry.metadataBytes + cost ≤ maxQueueMetadataBytes)
    (hcost : cost = s.registry.freshCost env root identity) :
    Valid env (s.enroll root identity cost) := by
  refine ⟨h.store, ?_, fun key entry hkey => ?_⟩
  · rw [registry_enroll root identity hfits]
    exact h.registry.enroll hnone hcost hfits
  · rw [registry_enroll root identity hfits]
    exact current_enroll hnone cost (h.current key entry hkey)

/-! ## Delivery -/

theorem tryRecv_nil (h : s.ready = []) : s.tryRecv env = (s, none) := by
  rw [tryRecv]
  split
  · rfl
  · rename_i root ready hready
    rw [h] at hready
    cases hready

theorem tryRecv_cons {ready : List R} (h : s.ready = root :: ready) :
    s.tryRecv env = if (turn env { s with ready := ready } root).2.isSome
      then turn env { s with ready := ready } root
      else (turn env { s with ready := ready } root).1.tryRecv env := by
  rw [tryRecv]
  split
  · rename_i hready
    rw [h] at hready
    cases hready
  · rename_i root0 ready0 hready
    rw [h] at hready
    cases hready
    rfl

theorem pending_rotate (root : R) (queue : List (DiagnosticKey R)) :
    (s.rotate env root queue).pending = s.pending := by
  rw [rotate]
  split_ifs
  · rfl
  · rfl

theorem registry_rotate (root : R) (queue : List (DiagnosticKey R)) :
    (s.rotate env root queue).registry = s.registry := by
  rw [rotate]
  split_ifs
  · rfl
  · rfl

/-- A turn delivers the first document of a root's queue. -/
theorem turn_of_queue {queue : List (DiagnosticKey R)} {entry : Entry R}
    (hqueue : s.perRoot.lookup root = some (key :: queue))
    (hentry : s.pending.lookup key = some entry)
    (hcurrent : s.registry.Current (keyOf entry.publication)) :
    s.turn env root
      = (((s.rotate env root queue).removeEntry key entry).countDelivered,
        some entry.publication) := by
  have hpending : (s.rotate env root queue).pending.lookup key = some entry := by
    rw [pending_rotate, hentry]
  have hstill : (s.rotate env root queue).isCurrent entry.publication.root
    entry.publication.serverIdentity entry.publication.generation = true := by
    have hrotate : (s.rotate env root queue).registry = s.registry := registry_rotate root queue
    rw [← hrotate] at hcurrent
    exact isCurrent_iff.mpr hcurrent
  rw [turn, hqueue]
  dsimp only
  rw [hpending]
  dsimp only
  rw [hstill]
  rfl

theorem store_rotate (h : s.store.Sound env) {ready : List R} (hready : s.ready = root :: ready)
    {queue : List (DiagnosticKey R)} (hqueue : s.store.queue root = key :: queue)
    (hroot : key.root = root) {entry : Entry R} (hentry : s.pending.lookup key = some entry) :
    (((rotate env { s with ready := ready } root queue).removeEntry key entry).countDelivered).store
      = s.store.take env key := by
  have hnodup := h.ready_nodup
  have hready' : s.store.ready = root :: ready := hready
  rw [hready'] at hnodup
  have hfilter : (root :: ready).filter (· ≠ root) = ready := by
    rw [filter_cons_of_neg (by simp), filter_eq_self]
    exact fun r hr => decide_eq_true fun heq => (nodup_cons.mp hnodup).1 (heq ▸ hr)
  have herase : (s.store.queue key.root).erase key = queue := by
    rw [hroot, hqueue, erase_cons_head]
  have hentry' : s.store.pending.lookup key = some entry := hentry
  rw [Store.take, Store.remove, hentry']
  dsimp only
  rw [herase, hready', hroot, hfilter, rotate]
  by_cases hnil : queue = []
  · have hempty : queue.isEmpty = true := List.isEmpty_iff.mpr hnil
    rw [if_pos hempty, setQueue, if_pos hnil, if_pos hnil, if_pos hnil]
    simp only [countDelivered, removeEntry, QueueState.store, Nat.sub_right_comm]
  · have hempty : ¬ queue.isEmpty = true := fun hemp => hnil (List.isEmpty_iff.mp hemp)
    rw [if_neg hempty, setQueue, if_neg hnil, if_neg hnil, if_neg hnil]
    rfl

/-- **What a call of `try_recv` does**: it delivers the oldest document of the root whose turn it
is. -/
theorem tryRecv_cases (h : Valid env s) :
    s.ready = [] ∧ s.tryRecv env = (s, none) ∨
      ∃ root ready key queue entry s', s.ready = root :: ready ∧ s.store.queue root = key :: queue
        ∧ key.root = root ∧ s.pending.lookup key = some entry
        ∧ s.tryRecv env = (s', some entry.publication)
        ∧ s'.store = s.store.take env key ∧ s'.registry = s.registry := by
  cases hready : s.ready with
  | nil => exact .inl ⟨rfl, tryRecv_nil hready⟩
  | cons root ready =>
    have hmem : root ∈ s.store.ready := by
      have hready' : s.store.ready = root :: ready := hready
      rw [hready']
      exact .head _
    have hne := (h.store.mem_ready root).mp hmem
    obtain ⟨key, queue, hqueue⟩ := exists_cons_of_ne_nil hne
    have hin : key ∈ s.store.queue root := by
      rw [hqueue]
      exact .head _
    have hroot := h.store.rooted root key hin
    rw [← hroot] at hin
    obtain ⟨entry, hentry⟩ := mem_pending_iff.mp ((h.store.listed key).mp hin)
    have hlook : s.perRoot.lookup root = some (key :: queue) := by
      have hlook : s.perRoot.lookup root = _ := h.store.lookup_eq root
      rw [hlook, if_neg hne, hqueue]
    have hcurrent := h.current key entry hentry
    rw [← (h.store.entry_eq key entry hentry).1] at hcurrent
    have hturn :=
      @turn_of_queue R _ env { s with ready := ready } key root queue entry hlook hentry hcurrent
    refine .inr ⟨root, ready, key, queue, entry, _, rfl, hqueue, hroot, hentry, ?_,
      store_rotate h.store hready hqueue hroot hentry, ?_⟩
    · rw [tryRecv_cons hready, hturn]
      rfl
    · exact registry_rotate (s := { s with ready := ready }) root queue

/-- A delivered document is not pending any more. -/
theorem lookup_taken (hstore : s'.store = s.store.take env key) (k : DiagnosticKey R) :
    s'.pending.lookup k = if k = key then none else s.pending.lookup k :=
  (lookup_of_store hstore k).trans (lookup_remove k)

theorem valid_taken (h : Valid env s) {entry : Entry R} (hentry : s.pending.lookup key = some entry)
    (hstore : s'.store = s.store.take env key) (hregistry : s'.registry = s.registry) :
    Valid env s' := by
  refine ⟨?_, ?_, fun k e hk => ?_⟩
  · rw [hstore]
    exact h.store.take hentry
  · rw [hregistry]
    exact h.registry
  · rw [lookup_taken hstore] at hk
    rw [hregistry]
    split_ifs at hk
    exact h.current k e hk

/-! ## Losses -/

/-- A stream whose loss was noted is among the reported ones. -/
theorem mem_lossy (hst : s.registry.stream root identity = some st) (hlossy : st.lossy = true) :
    (root, identity, st.generation) ∈ (s.takeLossMarks env).2.2 := by
  obtain ⟨streams, hroot, hstream⟩ := Option.bind_eq_some_iff.mp hst
  have hroot' : (⟨root, streams⟩ : Sigma fun _ : R => Table Text StreamState) ∈ s.active.entries :=
    AList.mem_lookup_iff.mp hroot
  have hstream' : (⟨identity, st⟩ : Sigma fun _ : Text => StreamState) ∈ streams.entries :=
    AList.mem_lookup_iff.mp hstream
  refine mem_flatMap.mpr ⟨_, hroot', mem_filterMap.mpr ⟨_, hstream', ?_⟩⟩
  exact if_pos hlossy

/-- **The recorded losses are reported**, each for its document or for its stream. -/
theorem takeLossMarks_spec (h : Valid env s) :
    Valid env (s.takeLossMarks env).1 ∧ (s.takeLossMarks env).1.store = s.store
      ∧ s.registry.SameStreams (s.takeLossMarks env).1.registry
      ∧ ∀ key, s.registry.Current key → Lost s.registry key → key ∈ (s.takeLossMarks env).2.1
          ∨ (key.root, key.serverIdentity, key.generation) ∈ (s.takeLossMarks env).2.2 := by
  have hreleased : s.lossMarks.foldl (fun n key => satAdd n (diagnosticKeyBytes env key)) 0
      = (s.registry.lossMarks.map (diagnosticKeyBytes env)).sum := by
    have hmetadata := h.registry.metadata_eq
    have hle := h.registry.metadata_le
    have hmax : maxQueueMetadataBytes < 2 ^ 64 - 1 := by decide
    rw [← foldl_map, foldl_satAdd_sum]
    change min (s.registry.lossMarks.map (diagnosticKeyBytes env)).sum _ = _
    omega
  have hregistry : (s.takeLossMarks env).1.registry = s.registry.report
      (s.lossMarks.foldl (fun n key => satAdd n (diagnosticKeyBytes env key)) 0) := rfl
  have hsame : s.registry.SameStreams (s.takeLossMarks env).1.registry := by
    rw [hregistry]
    exact sameStreams_report _ _
  refine ⟨⟨h.store, ?_, fun key entry hkey => (hsame.current key).mpr (h.current key entry hkey)⟩,
    rfl, hsame, ?_⟩
  · rw [hregistry]
    exact h.registry.report hreleased
  · rintro key hcurrent (hmark | hlossy)
    · exact .inl hmark
    · obtain ⟨st, hst, hgen⟩ := Option.map_eq_some_iff.mp hcurrent
      rw [hst, Option.any_some] at hlossy
      rw [← hgen]
      exact .inr (mem_lossy hst hlossy)

/-- A publication that could not be projected: its document is not pending, and its loss is
recorded. -/
theorem markLost_document (h : Valid env s) (hcurrent : s.registry.Current key)
    {path0 : Option Text} (hpath : keyPath path0 = some key.path) :
    Touched env (· = key) s (s.markLost env key.root key.serverIdentity key.generation path0)
      ∧ (s.markLost env key.root key.serverIdentity key.generation path0).pending.lookup key = none
      ∧ Lost (s.markLost env key.root key.serverIdentity key.generation path0).registry key := by
  have hchecked : s.isCurrent key.root key.serverIdentity key.generation = true :=
    isCurrent_iff.mpr hcurrent
  have hmark : s.markLost env key.root key.serverIdentity key.generation path0
      = ((s.countDropped.removePending env key).1.markLoss env key).signal := by
    rw [markLost, hchecked, hpath]
    rfl
  obtain ⟨htouched, hnone, hlost⟩ : Touched env (· = key) s _ ∧ _ := touched_of_lost h hcurrent
    (store_removePending (s := s.countDropped) h.store key)
      (registry_removePending (s := s.countDropped) key)
  rw [hmark]
  exact ⟨htouched.signal, hnone, hlost⟩

/-- A publication that could not be projected and whose document is not known: its stream is
lost. -/
theorem markLost_stream (h : Valid env s) {path0 : Option Text}
    (hst : s.registry.stream root identity = some st) (hpath : keyPath path0 = none) :
    Shed env s (s.markLost env root identity st.generation path0) := by
  have hchecked : s.isCurrent root identity st.generation = true :=
    (@isCurrent_iff R _ s ⟨root, identity, st.generation, []⟩).mpr
      (congrArg (Option.map StreamState.generation) hst)
  have hmark : s.markLost env root identity st.generation path0
      = (s.countDropped.countIncomplete.setStream root identity { st with
        lossy := true }).signal := by
    have hstream : s.countDropped.countIncomplete.stream root identity = some st := hst
    rw [markLost, hchecked, hpath]
    dsimp only
    rw [markStream, hstream]
    rfl
  have hstore : (s.markLost env root identity st.generation path0).store = s.store := by
    rw [hmark]
    exact store_setStream (s := s.countDropped.countIncomplete) _ _ _
  have hregistry : (s.markLost env root identity st.generation path0).registry
      = s.registry.put root identity { st with lossy := true } := by
    rw [hmark]
    exact registry_setStream (s := s.countDropped.countIncomplete) _ _ _
  refine touched_of_store h hstore ?_ ?_ fun k hk => ?_
  · rw [hregistry]
    exact h.registry.put hst rfl
  · rw [hregistry]
    exact sameStreams_put hst rfl
  · rw [hregistry]
    exact hk.put hst

/-! ## Every call -/

/-- A call that says nothing new of a document. -/
def SaysNothing (s : QueueState R) : Call R → Prop
  | .publish pd _ => ¬ Accepts s pd
  | .markLost root identity generation path =>
    s.isCurrent root identity generation = true → keyPath path = none
  | _ => True

/-- An answer that hands out no publication, no generation and no loss. -/
def TellsNothing : Answer R → Prop
  | .received (some _) => False
  | .registered (.ok _) => False
  | .losses _ _ => False
  | _ => True

def Silent (s : QueueState R) (call : Call R) (answer : Answer R) : Prop :=
  SaysNothing s call ∧ TellsNothing answer

/-- What a call does to a valid bus. -/
inductive Effect (env : Env R) (s : QueueState R) : Call R → Answer R → QueueState R → Prop
  | silent {call answer s'} : Silent s call answer → Shed env s s' → Effect env s call answer s'
  | retired {call answer root identity s'} :
      Silent s call answer → Retired env s root identity s' → Effect env s call answer s'
  | registered {root identity s1 cost} : MayRetire env s root identity s1 →
      s1.registry.stream root identity = none →
        s1.registry.metadataBytes + cost ≤ maxQueueMetadataBytes →
      cost = s1.registry.freshCost env root identity →
      Effect env s (.register root identity) (.registered (.ok s.nextGeneration))
        (s1.enroll root identity cost)
  | published {pd now st s'} : s.registry.stream pd.root pd.serverIdentity = some st →
      st.generation = pd.generation → st.lastSequence < pd.sequence →
        Published env (s.heard pd st) pd s' →
      Effect env s (.publish pd now) .done s'
  | unprojected {key path0 s'} : s.registry.Current key → keyPath path0 = some key.path →
      Touched env (· = key) s s' → s'.pending.lookup key = none → Lost s'.registry key →
      Effect env s (.markLost key.root key.serverIdentity key.generation path0) .done s'
  | delivered {key ready entry s'} : s.store.ready = key.root :: ready →
      s.pending.lookup key = some entry →
      s'.store = s.store.take env key → s'.registry = s.registry →
      Effect env s .tryRecv (.received (some entry.publication)) s'
  | reported {documents streams s'} : Valid env s' → s'.store = s.store →
      s.registry.SameStreams s'.registry →
      (∀ key, s.registry.Current key → Lost s.registry key → key ∈ documents
        ∨ (key.root, key.serverIdentity, key.generation) ∈ streams) →
      Effect env s .takeLossMarks (.losses documents streams) s'
  | shutdown : Effect env s .shutdown .done s.shutdown

/-- The store and the registry stay as they are. -/
theorem Effect.of_same (h : Valid env s) {call : Call R} {answer : Answer R}
    (hsilent : Silent s call answer)
    (hstore : s'.store = s.store) (hregistry : s'.registry = s.registry) :
    Effect env s call answer s' := by
  refine .silent hsilent (touched_of_store h hstore ?_ ?_ ?_)
  · rw [hregistry]
    exact h.registry
  · rw [hregistry]
    exact .refl _
  · rw [hregistry]
    exact fun _ hk => hk

theorem MayRetire.effect (h : Valid env s) {call : Call R} {answer : Answer R}
    (hsilent : Silent s call answer) (hretire : MayRetire env s root identity s') :
    Effect env s call answer s' := by
  rcases hretire with rfl | hretired
  · exact .of_same h hsilent rfl rfl
  · exact .retired hsilent hretired

theorem register_effect (h : Valid env s) (root : R) (identity : Text) :
    Effect env s (.register root identity) (.registered (s.register env root identity).2)
      (s.register env root identity).1 := by
  obtain ⟨hretire, hnone⟩ := retirePrevious_spec h root identity
  rw [register]
  split_ifs
  · exact .of_same h ⟨trivial, trivial⟩ rfl rfl
  · exact .of_same h ⟨trivial, trivial⟩ rfl rfl
  · rcases @registerFresh_cases R _ env (s.retirePrevious env root identity) root identity with
      ⟨e, herror⟩ | ⟨cost, hok, hfits, hcost⟩
    · rw [herror]
      exact hretire.effect h ⟨trivial, trivial⟩
    · have hnext : (s.retirePrevious env root identity).nextGeneration = s.nextGeneration :=
        hretire.next
      rw [hok, hnext]
      exact .registered hretire hnone hfits hcost

theorem retire_effect (h : Valid env s) (root : R) (identity : Text) (generation : Nat) :
    Effect env s (.retire root identity generation)
      (.flag (s.retire env root identity generation).2)
      (s.retire env root identity generation).1 := by
  rw [retire]
  dsimp only
  rcases retireLocked_cases h root identity generation with hnone | ⟨hretired, htrue⟩
  · rw [hnone]
    exact .of_same h ⟨trivial, trivial⟩ rfl rfl
  · rw [if_pos htrue]
    exact .retired ⟨trivial, trivial⟩ ⟨hretired.valid.of_same rfl rfl, hretired.next,
      hretired.stream, hretired.pending, hretired.marks, hretired.order⟩

theorem markLost_effect (h : Valid env s) (root : R) (identity : Text) (generation : Nat)
    (path0 : Option Text) :
    Effect env s (.markLost root identity generation path0) .done
      (s.markLost env root identity generation path0) := by
  cases hchecked : s.isCurrent root identity generation with
  | false =>
    refine .of_same h ⟨fun htrue => ?_, trivial⟩ ?_ ?_
    · rw [hchecked] at htrue
      cases htrue
    · rw [markLost, hchecked]
      rfl
    · rw [markLost, hchecked]
      rfl
  | true =>
    cases hpath : keyPath path0 with
    | none =>
      obtain ⟨st, hst, rfl⟩ := Option.map_eq_some_iff.mp
        ((@isCurrent_iff R _ s ⟨root, identity, generation, []⟩).mp hchecked)
      exact .silent ⟨fun _ => hpath, trivial⟩ (markLost_stream h hst hpath)
    | some path =>
      have hcurrent := (@isCurrent_iff R _ s ⟨root, identity, generation, path⟩).mp hchecked
      obtain ⟨htouched, hnone, hlost⟩ := markLost_document h hcurrent hpath
      exact (Effect.unprojected hcurrent hpath htouched hnone hlost :)

theorem publish_effect (h : Valid env s) (pd : PublishedDiagnostics R) (now : Nat) :
    Effect env s (.publish pd now) .done (s.publish env pd now) := by
  by_cases haccepts : Accepts s pd
  · obtain ⟨st, hst, hgen, hseq⟩ := haccepts
    exact .published hst hgen hseq (published_publish h hst hgen hseq now)
  · rw [publish_refused haccepts]
    exact .of_same h ⟨haccepts, trivial⟩ rfl rfl

theorem tryRecv_effect (h : Valid env s) :
    Effect env s .tryRecv (.received (s.tryRecv env).2) (s.tryRecv env).1 := by
  rcases tryRecv_cases h with
    ⟨-, hnone⟩ | ⟨root, ready, key, queue, entry, s', hready, -, hroot, hentry, hsome, hstore,
      hregistry⟩
  · rw [hnone]
    exact .of_same h ⟨trivial, trivial⟩ rfl rfl
  · rw [hsome]
    have hfront : s.store.ready = key.root :: ready := by rw [hroot]; exact hready
    exact .delivered hfront hentry hstore hregistry

/-- **What a call does.** -/
theorem step_effect (h : Valid env s) (call : Call R) :
    Effect env s call (step env s call).1 (step env s call).2 := by
  cases call with
  | register root identity => exact register_effect h root identity
  | retire root identity generation => exact retire_effect h root identity generation
  | markLost root identity generation path => exact markLost_effect h root identity generation path
  | record health =>
    change Effect env s _ .done (s.record health)
    rw [record]
    split_ifs
    · exact .of_same h ⟨trivial, trivial⟩ rfl rfl
    · exact .of_same h ⟨trivial, trivial⟩ rfl rfl
  | publish pd now => exact publish_effect h pd now
  | setTiming on => exact .of_same h ⟨trivial, trivial⟩ rfl rfl
  | wait => exact .of_same h ⟨trivial, trivial⟩ rfl rfl
  | rearmIfPending =>
    change Effect env s _ (.flag s.rearmIfPending.2) s.rearmIfPending.1
    rw [rearmIfPending]
    split_ifs
    · exact .of_same h ⟨trivial, trivial⟩ rfl rfl
    · exact .of_same h ⟨trivial, trivial⟩ rfl rfl
  | tryRecv => exact tryRecv_effect h
  | takeHealth => exact .of_same h ⟨trivial, trivial⟩ rfl rfl
  | takeLossMarks =>
    obtain ⟨hvalid, hstore, hsame, hall⟩ := takeLossMarks_spec h
    exact .reported hvalid hstore hsame hall
  | takeRetirements =>
    change Effect env s _ (.retirements s.takeRetirements.2) s.takeRetirements.1
    rw [takeRetirements]
    split_ifs
    · exact .of_same h ⟨trivial, trivial⟩ rfl rfl
    · exact .of_same h ⟨trivial, trivial⟩ rfl rfl
  | shutdown => exact .shutdown

end QueueState

end Thegn.Lsp
