import Thegn.Lsp.Diagnostics

set_option autoImplicit false

/-! # The streams that the diagnostics bus knows

The registered streams, the next generation, the marks of losses and the metadata bytes counted for
them are the `Registry` of a state. What a registered stream costs does not depend on the order in
which the streams of its root came: `registered` counts the root once. Every method keeps `Sound`:
the generations given out are below the next one, a mark belongs to a registered stream, and the
metadata bytes are those of the streams and of the marks.
-/

namespace Thegn.Lsp

open Table Text List Option

variable {R : Type} [LinearOrder R]

structure Registry (R : Type) [LinearOrder R] where
  active : Table R (Table Text StreamState)
  nextGeneration : Nat
  metadataBytes : Nat
  lossMarks : List (DiagnosticKey R)

def QueueState.registry (s : QueueState R) : Registry R :=
  ⟨s.active, s.nextGeneration, s.metadataBytes, s.lossMarks⟩

/-! ## What a stream costs -/

section

variable (env : Env R)

/-- What a root with streams costs. -/
def rootShare (root : R) : Nat := env.pathBytes root + env.sizeOfPathBuf + env.sizeOfStreamMap

/-- What a stream costs, its root apart. -/
def streamShare (identity : Text) : Nat :=
  byteLen identity + env.sizeOfString + env.sizeOfStreamState

def streamShares (streams : Table Text StreamState) : Nat :=
  total (fun identity _ => streamShare env identity) streams

/-- What all streams cost, each root once. -/
def registered (active : Table R (Table Text StreamState)) : Nat :=
  total (fun root streams => rootShare env root + streamShares env streams) active

omit [LinearOrder R] in
theorem streamCost_eq (root : R) (identity : Text) (first : Bool) :
    streamCost env root identity first
      = min ((if first then rootShare env root else 0) + streamShare env identity)
        (2 ^ 64 - 1) := by
  rw [streamCost, rootShare, streamShare]
  cases first with
  | true =>
    simp only [if_true, satAdd]
    omega
  | false =>
    simp only [Bool.false_eq_true, if_false, satAdd]
    omega

end

namespace Registry

variable (env : Env R)

def stream (g : Registry R) (root : R) (identity : Text) : Option StreamState :=
  (g.active.lookup root).bind fun streams => streams.lookup identity

/-- The stream of a document is the one that is registered. -/
def Current (g : Registry R) (key : DiagnosticKey R) : Prop :=
  (g.stream key.root key.serverIdentity).map StreamState.generation = some key.generation

structure Sound (g : Registry R) : Prop where
  streams_ne : ∀ root streams, g.active.lookup root = some streams → streams.keys ≠ []
  generation_lt : ∀ root identity st, g.stream root identity = some st →
    st.generation < g.nextGeneration
  marks_nodup : g.lossMarks.Nodup
  marks_current : ∀ key ∈ g.lossMarks, g.Current key
  metadata_eq : g.metadataBytes
    = registered env g.active + (g.lossMarks.map (diagnosticKeyBytes env)).sum
  metadata_le : g.metadataBytes ≤ maxQueueMetadataBytes

/-- A registered stream is replaced. -/
def put (g : Registry R) (root : R) (identity : Text) (st : StreamState) : Registry R :=
  match g.active.lookup root with
  | some streams => { g with active := g.active.insert root (streams.insert identity st) }
  | none => g

def mark (g : Registry R) (key : DiagnosticKey R) : Registry R :=
  { g with
    metadataBytes := g.metadataBytes + diagnosticKeyBytes env key
    lossMarks := key :: g.lossMarks }

def clear (g : Registry R) (key : DiagnosticKey R) : Registry R :=
  if key ∈ g.lossMarks then
    { g with
      lossMarks := g.lossMarks.erase key
      metadataBytes := g.metadataBytes - diagnosticKeyBytes env key }
  else g

/-- What a stream costs that is not registered yet. -/
def freshCost (g : Registry R) (root : R) (identity : Text) : Nat :=
  (if g.active.lookup root = none then rootShare env root else 0) + streamShare env identity

/-- What the checks of a publication read. -/
def seen (st : StreamState) : Nat × Nat := (st.generation, st.lastSequence)

/-- The same streams are registered, and the checks see no difference. -/
def SameStreams (g g' : Registry R) : Prop :=
  g'.nextGeneration = g.nextGeneration ∧
    ∀ root identity, (g'.stream root identity).map seen = (g.stream root identity).map seen

theorem SameStreams.refl (g : Registry R) : g.SameStreams g := ⟨rfl, fun _ _ => rfl⟩

theorem SameStreams.trans {g g' g'' : Registry R} (h : g.SameStreams g') (h' : g'.SameStreams g'') :
    g.SameStreams g'' :=
  ⟨h'.1.trans h.1, fun root identity => (h'.2 root identity).trans (h.2 root identity)⟩

theorem SameStreams.current {g g' : Registry R} (h : g.SameStreams g') (key : DiagnosticKey R) :
    g'.Current key ↔ g.Current key := by
  have hgen := congrArg (Option.map Prod.fst) (h.2 key.root key.serverIdentity)
  rw [Option.map_map, Option.map_map] at hgen
  exact iff_of_eq (congrArg (· = some key.generation) hgen)

theorem SameStreams.stream {g g' : Registry R} (h : g.SameStreams g') {root : R} {identity : Text}
    {st' : StreamState} (hst' : g'.stream root identity = some st') :
    ∃ st, g.stream root identity = some st ∧ st'.generation = st.generation
      ∧ st'.lastSequence = st.lastSequence := by
  have hseen := h.2 root identity
  rw [hst', map_some] at hseen
  obtain ⟨st, hst, heq⟩ := map_eq_some_iff.mp hseen.symm
  exact ⟨st, hst, (congrArg Prod.fst heq).symm, (congrArg Prod.snd heq).symm⟩

/-! ## Replacing a stream -/

variable {g : Registry R} {root : R} {identity : Text} {st0 st : StreamState}

theorem lookup_insert_stream (active : Table R (Table Text StreamState)) (root : R)
    (identity : Text) (st : StreamState) (r : R) (i : Text) :
    ((active.insert root (((active.lookup root).getD ∅).insert identity st)).lookup r).bind
    (AList.lookup i)
      = if r = root ∧ i = identity then some st else (active.lookup r).bind (AList.lookup i) := by
  by_cases hr : r = root
  · rw [hr, AList.lookup_insert, bind_some]
    by_cases hi : i = identity
    · rw [hi, AList.lookup_insert, if_pos ⟨rfl, rfl⟩]
    · rw [AList.lookup_insert_ne hi, if_neg fun hand => hi hand.2]
      cases active.lookup root with
      | none => rfl
      | some streams => rfl
  · rw [AList.lookup_insert_ne hr, if_neg fun hand => hr hand.1]

theorem stream_put (st : StreamState) (h : g.stream root identity = some st0) (r : R) (i : Text) :
    (g.put root identity st).stream r i = if r = root ∧
    i = identity then some st else g.stream r i := by
  obtain ⟨streams, hroot, hstream⟩ := bind_eq_some_iff.mp h
  have hinsert := lookup_insert_stream g.active root identity st r i
  rw [hroot, getD_some] at hinsert
  rw [put, hroot]
  exact hinsert

theorem nextGeneration_put (g : Registry R) (root : R) (identity : Text) (st : StreamState) :
    (g.put root identity st).nextGeneration = g.nextGeneration := by
  rw [put]
  split
  · rfl
  · rfl

theorem sameStreams_put (h : g.stream root identity = some st0) (hst : seen st = seen st0) :
    g.SameStreams (g.put root identity st) := by
  refine ⟨nextGeneration_put g root identity st, fun r i => ?_⟩
  rw [stream_put st h]
  split_ifs with hand
  · rw [hand.1, hand.2, h, map_some, map_some, hst]
  · rfl

theorem current_put (st : StreamState) (h : g.stream root identity = some st0)
    (hst : st.generation = st0.generation) (key : DiagnosticKey R) :
    (g.put root identity st).Current key ↔ g.Current key := by
  rw [Current, Current, stream_put st h]
  split_ifs with hand
  · rw [hand.1, hand.2, h, map_some, map_some, hst]
  · exact Iff.rfl

theorem lossMarks_put (g : Registry R) (root : R) (identity : Text) (st : StreamState) :
    (g.put root identity st).lossMarks = g.lossMarks := by
  rw [put]
  split
  · rfl
  · rfl

theorem keys_insert_ne_nil {K V : Type} [DecidableEq K] (t : Table K V) (k : K) (v : V) :
    (t.insert k v).keys ≠ [] := by
  rw [AList.keys_insert]
  exact cons_ne_nil _ _

variable {env}

theorem Sound.streams_ne_insert (hg : g.Sound env) {streams : Table Text StreamState}
    (hne : streams.keys ≠ []) (r : R) (streams0 : Table Text StreamState)
    (hr : (g.active.insert root streams).lookup r = some streams0) : streams0.keys ≠ [] := by
  by_cases heq : r = root
  · rw [heq, AList.lookup_insert] at hr
    cases hr
    exact hne
  · rw [AList.lookup_insert_ne heq] at hr
    exact hg.streams_ne r streams0 hr

theorem Sound.put (hg : g.Sound env) (h : g.stream root identity = some st0)
    (hst : st.generation = st0.generation) : (g.put root identity st).Sound env := by
  obtain ⟨streams, hroot, hstream⟩ := bind_eq_some_iff.mp h
  have hput : g.put root identity st = { g with
    active := g.active.insert root (streams.insert identity st) } := by
    rw [Registry.put, hroot]
  refine ⟨?_, ?_, ?_, ?_, ?_, ?_⟩
  · rw [hput]
    exact hg.streams_ne_insert (keys_insert_ne_nil _ _ _)
  · intro r i st' hst'
    rw [nextGeneration_put]
    rw [stream_put st h] at hst'
    split_ifs at hst' with hand
    · cases hst'
      rw [hst]
      exact hg.generation_lt root identity st0 h
    · exact hg.generation_lt r i st' hst'
  · rw [hput]
    exact hg.marks_nodup
  · intro key hkey
    rw [lossMarks_put] at hkey
    exact (current_put st h hst key).mpr (hg.marks_current key hkey)
  · have hshares : streamShares env (streams.insert identity st) = streamShares env streams := by
      have := total_insert_old (f := fun identity _ => streamShare env identity) (r := st) hstream
      exact Nat.add_left_cancel this
    have hregistered : registered env (g.active.insert root (streams.insert identity st))
        = registered env g.active := by
      have := total_insert_old (f := fun root streams =>
        rootShare env root + streamShares env streams)
        (r := streams.insert identity st) hroot
      rw [hshares] at this
      exact Nat.add_left_cancel this
    rw [hput]
    dsimp only
    rw [hregistered]
    exact hg.metadata_eq
  · rw [hput]
    exact hg.metadata_le

/-! ## Marks -/

theorem Sound.mark (hg : g.Sound env) {key : DiagnosticKey R} (hkey : g.Current key)
    (hnew : key ∉ g.lossMarks)
    (hfits : g.metadataBytes + diagnosticKeyBytes env key ≤ maxQueueMetadataBytes) :
    (g.mark env key).Sound env :=
  { streams_ne := hg.streams_ne
    generation_lt := hg.generation_lt
    marks_nodup := nodup_cons.mpr ⟨hnew, hg.marks_nodup⟩
    marks_current := fun k hk => by
      rcases mem_cons.mp hk with rfl | hk
      · exact hkey
      · exact hg.marks_current k hk
    metadata_eq := by
      have := hg.metadata_eq
      simp only [Registry.mark, map_cons, sum_cons]
      omega
    metadata_le := hfits }

/-- The metadata bytes are `n` and what the marks cost. -/
structure Counted (env : Env R) (n : Nat) (g : Registry R) : Prop where
  marks_nodup : g.lossMarks.Nodup
  metadata_eq : g.metadataBytes = n + (g.lossMarks.map (diagnosticKeyBytes env)).sum

theorem Sound.counted (hg : g.Sound env) : Counted env (registered env g.active) g :=
  ⟨hg.marks_nodup, hg.metadata_eq⟩

theorem Counted.clear {n : Nat} (hg : Counted env n g) (key : DiagnosticKey R) :
    Counted env n (g.clear env key) := by
  rw [Registry.clear]
  split_ifs with hmem
  · refine ⟨hg.marks_nodup.erase key, ?_⟩
    have hsum := ((perm_cons_erase hmem).map (diagnosticKeyBytes env)).sum_eq
    have := hg.metadata_eq
    rw [map_cons, sum_cons] at hsum
    dsimp only
    omega
  · exact hg

theorem mem_clear (hg : g.lossMarks.Nodup) (key k : DiagnosticKey R) :
    k ∈ (g.clear env key).lossMarks ↔ k ∈ g.lossMarks ∧ k ≠ key := by
  rw [Registry.clear]
  split_ifs with hmem
  · rw [hg.mem_erase_iff, and_comm]
  · exact ⟨fun hk => ⟨hk, fun heq => hmem (heq ▸ hk)⟩, fun hk => hk.1⟩

theorem active_clear (g : Registry R) (key : DiagnosticKey R) :
    (g.clear env key).active = g.active := by
  rw [Registry.clear]
  split_ifs
  · rfl
  · rfl

theorem nextGeneration_clear (g : Registry R) (key : DiagnosticKey R) :
    (g.clear env key).nextGeneration = g.nextGeneration := by
  rw [Registry.clear]
  split_ifs
  · rfl
  · rfl

theorem sameStreams_clear (g : Registry R) (key : DiagnosticKey R) :
    g.SameStreams (g.clear env key) := by
  refine ⟨nextGeneration_clear g key, fun root identity => ?_⟩
  rw [stream, active_clear, stream]

theorem Sound.clear (hg : g.Sound env) (key : DiagnosticKey R) : (g.clear env key).Sound env := by
  have hsame : g.SameStreams (g.clear env key) := sameStreams_clear g key
  have hcounted := hg.counted.clear key
  refine ⟨?_, fun root identity st hst => ?_, hcounted.marks_nodup, fun k hk => ?_, ?_, ?_⟩
  · rw [active_clear]
    exact hg.streams_ne
  · rw [nextGeneration_clear]
    rw [stream, active_clear] at hst
    exact hg.generation_lt root identity st hst
  · exact (hsame.current k).mpr (hg.marks_current k ((mem_clear hg.marks_nodup key k).mp hk).1)
  · rw [active_clear]
    exact hcounted.metadata_eq
  · have hle := hg.metadata_le
    rw [Registry.clear]
    split_ifs
    · exact (Nat.sub_le _ _).trans hle
    · exact hle

/-- Several marks are cleared. -/
theorem foldl_clear {n : Nat} (keys : List (DiagnosticKey R)) (hg : Counted env n g) :
    Counted env n (keys.foldl (fun g key => g.clear env key) g)
      ∧ (∀ k, k ∈ (keys.foldl (fun g key => g.clear env key) g).lossMarks ↔
        k ∈ g.lossMarks ∧ k ∉ keys)
      ∧ (keys.foldl (fun g key => g.clear env key) g).active = g.active
      ∧ (keys.foldl (fun g key => g.clear env key) g).nextGeneration = g.nextGeneration
      ∧ (keys.foldl (fun g key => g.clear env key) g).metadataBytes ≤ g.metadataBytes := by
  induction keys generalizing g with
  | nil => exact ⟨hg, fun k => (and_iff_left not_mem_nil).symm, rfl, rfl, le_refl _⟩
  | cons key keys ih =>
    obtain ⟨hcounted, hmem, hactive, hnext, hle⟩ := ih (hg.clear key)
    refine ⟨hcounted, fun k => ?_, hactive.trans (active_clear g key),
      hnext.trans (nextGeneration_clear g key), hle.trans ?_⟩
    · rw [foldl_cons, hmem, mem_clear hg.marks_nodup, mem_cons, not_or, and_assoc]
    · rw [Registry.clear]
      split_ifs
      · exact Nat.sub_le _ _
      · exact le_refl _

/-! ## Reporting the losses -/

/-- The losses are reported: the marks move, and those of the streams are cleared. -/
def report (g : Registry R) (released : Nat) : Registry R :=
  { g with
    metadataBytes := g.metadataBytes - released
    lossMarks := []
    active := updateAll (updateAll fun st => { st with lossy := false }) g.active }

theorem stream_report (g : Registry R) (released : Nat) (root : R) (identity : Text) :
    (g.report released).stream root identity
      = (g.stream root identity).map fun st => { st with lossy := false } := by
  rw [report, stream, stream, lookup_updateAll]
  cases g.active.lookup root with
  | none => rfl
  | some streams => exact lookup_updateAll _ _ _

theorem sameStreams_report (g : Registry R) (released : Nat) :
    g.SameStreams (g.report released) := by
  refine ⟨rfl, fun root identity => ?_⟩
  rw [stream_report, Option.map_map]
  rfl

theorem Sound.report (hg : g.Sound env) {released : Nat}
    (hreleased : released = (g.lossMarks.map (diagnosticKeyBytes env)).sum) :
    (g.report released).Sound env where
  streams_ne := fun root streams hroot => by
    rw [Registry.report, lookup_updateAll] at hroot
    obtain ⟨streams0, hroot0, rfl⟩ := map_eq_some_iff.mp hroot
    rw [keys_updateAll]
    exact hg.streams_ne root streams0 hroot0
  generation_lt := fun root identity st hst => by
    obtain ⟨st0, hst0, hgen, -⟩ := (sameStreams_report g released).stream hst
    rw [hgen]
    exact hg.generation_lt root identity st0 hst0
  marks_nodup := nodup_nil
  marks_current := fun _ hkey => absurd hkey not_mem_nil
  metadata_eq := by
    have hshares : ∀ streams : Table Text StreamState,
        streamShares env (updateAll (fun st => { st with lossy := false }) streams) =
          streamShares env streams :=
      fun streams => total_updateAll fun _ _ => rfl
    have hregistered : registered env (g.report released).active = registered env g.active := by
      refine total_updateAll fun root streams => ?_
      rw [hshares]
    have hmetadata := hg.metadata_eq
    have hbytes : (g.report released).metadataBytes = g.metadataBytes - released := rfl
    have hmarks : (g.report released).lossMarks = [] := rfl
    rw [hregistered, hbytes, hmarks, map_nil, sum_nil]
    omega
  metadata_le := (Nat.sub_le _ _).trans hg.metadata_le

/-! ## A stream that is registered -/

/-- A stream is registered for the next generation. -/
def enroll (g : Registry R) (root : R) (identity : Text) (cost : Nat) : Registry R :=
  { g with
    nextGeneration := g.nextGeneration + 1
    metadataBytes := g.metadataBytes + cost
    active := g.active.insert root
      (((g.active.lookup root).getD ∅).insert identity ⟨g.nextGeneration, 0, false⟩) }

theorem stream_enroll (g : Registry R) (root : R) (identity : Text) (cost : Nat) (r : R)
    (i : Text) :
    (g.enroll root identity cost).stream r i
      = if r = root ∧ i = identity then some ⟨g.nextGeneration, 0, false⟩ else g.stream r i :=
  lookup_insert_stream g.active root identity _ r i

/-- A document of a stream that was there before is not touched. -/
theorem current_enroll (hnone : g.stream root identity = none)
    (cost : Nat) {key : DiagnosticKey R} (hkey : g.Current key) :
    (g.enroll root identity cost).Current key := by
  rw [Current, stream_enroll]
  rw [Current] at hkey
  split_ifs with hand
  · rw [hand.1, hand.2, hnone] at hkey
    cases hkey
  · exact hkey

theorem registered_enroll (hnone : g.stream root identity = none) (cost : Nat) :
    registered env (g.enroll root identity cost).active
      = registered env g.active + g.freshCost env root identity := by
  rw [freshCost]
  cases hroot : g.active.lookup root with
  | none =>
    have hshares :
      streamShares env ((∅ : Table Text StreamState).insert identity ⟨g.nextGeneration, 0, false⟩)
        = streamShare env identity + 0 := total_insert_new (AList.lookup_empty _)
    rw [enroll, hroot, registered]
    dsimp only [getD_none]
    rw [total_insert_new hroot, hshares, if_pos rfl, registered]
    omega
  | some streams =>
    have hstream : streams.lookup identity = none := by rw [stream, hroot] at hnone; exact hnone
    have hshares : streamShares env (streams.insert identity ⟨g.nextGeneration, 0, false⟩)
        = streamShare env identity + streamShares env streams := total_insert_new hstream
    have hold :=
      total_insert_old (f := fun root streams => rootShare env root + streamShares env streams)
      (r := streams.insert identity ⟨g.nextGeneration, 0, false⟩) hroot
    rw [enroll, hroot, if_neg (some_ne_none streams), registered, registered]
    dsimp only [getD_some] at hold ⊢
    omega

theorem Sound.enroll (hg : g.Sound env) (hnone : g.stream root identity = none) {cost : Nat}
    (hcost : cost = g.freshCost env root identity)
    (hfits : g.metadataBytes + cost ≤ maxQueueMetadataBytes) :
    (g.enroll root identity cost).Sound env where
  streams_ne := hg.streams_ne_insert (keys_insert_ne_nil _ _ _)
  generation_lt := fun r i st hst => by
    rw [stream_enroll] at hst
    have hnext : (g.enroll root identity cost).nextGeneration = g.nextGeneration + 1 := rfl
    rw [hnext]
    split_ifs at hst with hand
    · cases hst
      exact Nat.lt_succ_self _
    · exact (hg.generation_lt r i st hst).trans (Nat.lt_succ_self _)
  marks_nodup := hg.marks_nodup
  marks_current := fun key hkey => current_enroll hnone cost (hg.marks_current key hkey)
  metadata_eq := by
    have hmetadata := hg.metadata_eq
    have hmarks : (g.enroll root identity cost).lossMarks = g.lossMarks := rfl
    have hbytes : (g.enroll root identity cost).metadataBytes = g.metadataBytes + cost := rfl
    rw [registered_enroll hnone, hmarks, hbytes, hmetadata, hcost]
    omega
  metadata_le := hfits

/-! ## A stream that is retired -/

/-- The stream is not registered any more, and its cost is taken back. -/
def unlist (g : Registry R) (root : R) (identity : Text) (streams : Table Text StreamState)
    (cost : Nat) : Registry R :=
  { g with
    active :=
      if streams.keys.length = 1 then g.active.erase root
        else g.active.insert root (streams.erase identity)
    metadataBytes := g.metadataBytes - cost }

theorem stream_unlist {streams : Table Text StreamState}
    (hroot : g.active.lookup root = some streams)
    (hst : streams.lookup identity = some st) (cost : Nat) (r : R) (i : Text) :
    (g.unlist root identity streams cost).stream r i
      = if r = root ∧ i = identity then none else g.stream r i := by
  have hmem : identity ∈ streams.keys := by
    have hin : identity ∈ streams := AList.lookup_isSome.mp (by rw [hst]; rfl)
    exact hin
  rw [unlist, stream, stream]
  by_cases hr : r = root
  · rw [hr, hroot, bind_some]
    by_cases hlast : streams.keys.length = 1
    · -- the only stream of its root
      obtain ⟨i0, hkeys⟩ := length_eq_one_iff.mp hlast
      rw [hkeys, mem_singleton] at hmem
      rw [if_pos hlast, AList.lookup_erase, bind_none]
      by_cases hi : i = identity
      · rw [if_pos ⟨rfl, hi⟩]
      · have hnone : streams.lookup i = none := by
          refine AList.lookup_eq_none.mpr fun hin => ?_
          have hin' : i ∈ streams.keys := hin
          rw [hkeys, mem_singleton] at hin'
          exact hi (hin'.trans hmem.symm)
        rw [if_neg fun hand => hi hand.2, hnone]
    · rw [if_neg hlast, AList.lookup_insert, bind_some]
      by_cases hi : i = identity
      · rw [hi, AList.lookup_erase, if_pos ⟨rfl, rfl⟩]
      · rw [AList.lookup_erase_ne hi, if_neg fun hand => hi hand.2]
  · have hother : ¬ (r = root ∧ i = identity) := fun hand => hr hand.1
    rw [if_neg hother]
    by_cases hlast : streams.keys.length = 1
    · rw [if_pos hlast, AList.lookup_erase_ne hr]
    · rw [if_neg hlast, AList.lookup_insert_ne hr]

/-- The cost of a stream, with that of its root where it is the last one. -/
theorem registered_unlist {streams : Table Text StreamState}
    (hroot : g.active.lookup root = some streams)
    (hst : streams.lookup identity = some st) (cost : Nat) :
    registered env (g.unlist root identity streams cost).active
        + ((if streams.keys.length = 1 then rootShare env root else 0) + streamShare env identity)
      = registered env g.active := by
  have hshares := total_erase (f := fun identity _ => streamShare env identity) hst
  have hlength := total_erase (f := fun _ _ => 1) hst
  rw [← length_keys, ← length_keys] at hlength
  rw [unlist, registered, registered]
  by_cases hlast : streams.keys.length = 1
  · have hnone : (streams.erase identity).keys = [] := length_eq_zero_iff.mp (by omega)
    have hempty : total (fun identity _ => streamShare env identity)
      (streams.erase identity) = 0 := by
      have hentries : (streams.erase identity).entries = [] := map_eq_nil_iff.mp hnone
      rw [total, hentries]
      rfl
    have herase :=
      total_erase (f := fun root streams => rootShare env root + streamShares env streams) hroot
    rw [if_pos hlast, if_pos hlast]
    dsimp only [streamShares] at herase ⊢
    omega
  · have hold :=
      total_insert_old (f := fun root streams => rootShare env root + streamShares env streams)
      (r := streams.erase identity) hroot
    rw [if_neg hlast, if_neg hlast]
    dsimp only [streamShares] at hold ⊢
    omega

theorem streams_ne_unlist (hg : g.Sound env)
    {streams : Table Text StreamState} (hst : streams.lookup identity = some st) (cost : Nat)
    (r : R) (streams0 : Table Text StreamState)
    (hr : (g.unlist root identity streams cost).active.lookup r = some streams0) :
    streams0.keys ≠ [] := by
  have hlength := total_erase (f := fun _ _ => 1) hst
  rw [← length_keys, ← length_keys] at hlength
  rw [unlist] at hr
  dsimp only at hr
  by_cases hlast : streams.keys.length = 1
  · rw [if_pos hlast] at hr
    by_cases heq : r = root
    · rw [heq, AList.lookup_erase] at hr
      cases hr
    · rw [AList.lookup_erase_ne heq] at hr
      exact hg.streams_ne r streams0 hr
  · rw [if_neg hlast] at hr
    refine hg.streams_ne_insert (fun hnil => ?_) r streams0 hr
    rw [hnil, length_nil] at hlength
    omega

/-- What is released is what the stream cost. -/
theorem counted_unlist (hg : g.Sound env) {streams : Table Text StreamState}
    (hroot : g.active.lookup root = some streams) (hst : streams.lookup identity = some st) :
    let cost := streamCost env root identity (decide (streams.keys.length = 1))
    Counted env (registered env (g.unlist root identity streams cost).active)
      (g.unlist root identity streams cost) := by
  intro cost
  refine ⟨hg.marks_nodup, ?_⟩
  have hmax : maxQueueMetadataBytes < 2 ^ 64 - 1 := by decide
  have hregistered := @registered_unlist R _ env g root identity st streams hroot hst cost
  have hcost :
    cost = min ((if decide (streams.keys.length = 1) = true then rootShare env root else 0)
      + streamShare env identity) (2 ^ 64 - 1) := streamCost_eq env root identity _
  simp only [decide_eq_true_eq] at hcost
  have hmetadata := hg.metadata_eq
  have hle := hg.metadata_le
  have hbytes : (g.unlist root identity streams cost).metadataBytes = g.metadataBytes - cost := rfl
  have hmarks : (g.unlist root identity streams cost).lossMarks = g.lossMarks := rfl
  rw [hbytes, hmarks]
  omega

/-- The marks of the stream are cleared behind it. -/
theorem Sound.unlist (hg : g.Sound env) {streams : Table Text StreamState}
    (hroot : g.active.lookup root = some streams) (hst : streams.lookup identity = some st)
    {keys : List (DiagnosticKey R)}
    (hkeys : ∀ key ∈ g.lossMarks, key.root = root → key.serverIdentity = identity → key ∈ keys) :
    (keys.foldl (fun g key => g.clear env key) (g.unlist root identity streams
      (streamCost env root identity (decide (streams.keys.length = 1))))).Sound env := by
  obtain ⟨hcounted, hmem, hactive, hnext, hle⟩ := foldl_clear keys (counted_unlist hg hroot hst)
  have hstream : ∀ r i, (keys.foldl (fun g key => g.clear env key) (g.unlist root identity streams
      (streamCost env root identity (decide (streams.keys.length = 1))))).stream r i
      = if r = root ∧ i = identity then none else g.stream r i := fun r i => by
    rw [stream, hactive]
    exact stream_unlist hroot hst _ r i
  refine ⟨fun r streams0 hr => ?_, fun r i st' hst' => ?_, hcounted.marks_nodup,
    fun key hkey => ?_, ?_, ?_⟩
  · rw [hactive] at hr
    exact streams_ne_unlist hg hst _ r streams0 hr
  · rw [hnext]
    rw [hstream] at hst'
    split_ifs at hst'
    exact hg.generation_lt r i st' hst'
  · obtain ⟨hin, hout⟩ := (hmem key).mp hkey
    have hin' : key ∈ g.lossMarks := hin
    rw [Current, hstream, if_neg fun hand => hout (hkeys key hin' hand.1 hand.2)]
    exact hg.marks_current key hin'
  · rw [hactive]
    exact hcounted.metadata_eq
  · exact hle.trans ((Nat.sub_le _ _).trans hg.metadata_le)

end Registry

end Thegn.Lsp
