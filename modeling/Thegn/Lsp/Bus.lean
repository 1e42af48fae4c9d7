import Thegn.Lsp.Methods

set_option autoImplicit false

/-! # The diagnostics bus in any run

Every call keeps the bus valid (`valid_step`), so it is valid after any calls of any threads
(`valid_bus`). The bytes that the bus counts are then those of what it retains (`bus_exact`), what
it hands out belongs to a stream whose generation was given out once (`bus_fenced`), and no reader
of a server changes it behind a sleeping host (`bus_wakes`).
-/

namespace Thegn.Lsp

open Table Text List

variable {R : Type} [LinearOrder R] {env : Env R}

namespace QueueState

open Store Registry

variable {s : QueueState R}

/-! ## Every call keeps the bus valid -/

theorem valid_shutdown (generation : Nat) :
    Valid env ({ QueueState.new R with nextGeneration := generation, closed := true } :
      QueueState R) where
  store := Sound.empty
  registry :=
    { streams_ne := fun _ _ h => by cases h
      generation_lt := fun _ _ _ h => by cases h
      marks_nodup := nodup_nil
      marks_current := fun _ h => absurd h not_mem_nil
      metadata_eq := rfl
      metadata_le := Nat.zero_le _ }
  current := fun _ _ h => by cases h

theorem valid_new : Valid env (QueueState.new R) := (valid_shutdown 1).of_same rfl rfl

theorem Effect.valid (h : Valid env s) {call : Call R} {answer : Answer R} {s' : QueueState R}
    (he : Effect env s call answer s') : Valid env s' := by
  cases he with
  | silent _ hshed => exact hshed.valid
  | retired _ hretired => exact hretired.valid
  | registered hretire hnone hfits hcost => exact valid_enroll (hretire.valid h) hnone hfits hcost
  | published _ _ _ hpublished => exact hpublished.valid
  | unprojected _ _ htouched => exact htouched.valid
  | delivered _ hentry hstore hregistry => exact valid_taken h hentry hstore hregistry
  | reported hvalid => exact hvalid
  | shutdown => exact valid_shutdown s.nextGeneration

/-- **Every call keeps the bus valid.** -/
theorem valid_step (h : Valid env s) (call : Call R) : Valid env (step env s call).2 :=
  (step_effect h call).valid h

theorem valid_bus (calls : List (Call R)) : Valid env (bus env calls) :=
  Transducer.after_induction (fun _ s => Valid env s) valid_new
    (fun _ call h => valid_step h call) calls

/-! ## The accounts -/

/-- Saturated costs add up to the saturated sum. -/
theorem foldl_satAdd_min {α : Type} (f g : α → Nat) (l : List α)
    (h : ∀ a ∈ l, f a = min (g a) (2 ^ 64 - 1)) :
    (l.map f).foldl satAdd 0 = min (l.map g).sum (2 ^ 64 - 1) := by
  rw [foldl_satAdd_sum]
  induction l with
  | nil => rfl
  | cons a l ih =>
    have htail := ih fun b hb => h b (.tail _ hb)
    rw [map_cons, map_cons, sum_cons, sum_cons, h a mem_cons_self]
    omega

omit [LinearOrder R] in
/-- A root's streams cost the root once, whichever of them counts for it. -/
theorem recompute_root (root : R) (streams : Table Text StreamState) (hne : streams.keys ≠ []) :
    (streams.keys.zipIdx.map fun i => streamCost env root i.1 (i.2 == 0)).foldl satAdd 0
      = min (rootShare env root + streamShares env streams) (2 ^ 64 - 1) := by
  have hshares : streamShares env streams = (streams.keys.map (streamShare env)).sum := by
    rw [streamShares, total, AList.keys, List.keys, map_map]
    rfl
  obtain ⟨identity, rest, hkeys⟩ := exists_cons_of_ne_nil hne
  -- only the first stream of the list counts for the root
  have hrest : (rest.zipIdx 1).map (fun i => (if i.2 == 0 then rootShare env root else 0) +
    streamShare env i.1) = rest.map (streamShare env) := by
    have hlater : ∀ i ∈ rest.zipIdx 1,
        (if i.2 == 0 then rootShare env root else 0) + streamShare env i.1 =
          streamShare env i.1 := by
      intro i hi
      have hpos := le_snd_of_mem_zipIdx hi
      rw [if_neg (by rw [beq_iff_eq]; omega), Nat.zero_add]
    have hfst : (rest.zipIdx 1).map (fun i => streamShare env i.1)
        = ((rest.zipIdx 1).map Prod.fst).map (streamShare env) := by
      rw [map_map]
      rfl
    rw [map_congr_left hlater, hfst, zipIdx_map_fst]
  rw [hshares, hkeys, foldl_satAdd_min _ _ _ fun i _ => streamCost_eq env root i.1 (i.2 == 0),
    zipIdx_cons, map_cons, Nat.zero_add, hrest, sum_cons, map_cons, sum_cons]
  simp only [beq_self_eq_true, if_true, Nat.add_assoc]

/-- What is counted is what would be computed from what is retained. -/
theorem recompute_eq (h : Valid env s) : s.recompute env = (s.bytes, s.metadataBytes) := by
  have hmaxBytes : maxQueueBytes < 2 ^ 64 - 1 := by decide
  have hmaxMetadata : maxQueueMetadataBytes < 2 ^ 64 - 1 := by decide
  have hpending : (s.pending.entries.map fun e => entryCost env e.2.publication).foldl satAdd 0
      = min (total (fun _ entry => entry.cost) s.pending) (2 ^ 64 - 1) := by
    have hcost : ∀ e ∈ s.pending.entries, entryCost env e.2.publication = e.2.cost := fun e he =>
      (h.store.entry_eq e.1 e.2 (AList.mem_lookup_iff.mpr he)).2.symm
    rw [map_congr_left hcost, foldl_satAdd_sum]
    rfl
  have hroots : (s.perRoot.entries.map fun e => readyRootCost env e.1).foldl satAdd 0
      = min (total (fun root _ => readyRootCost env root) s.perRoot) (2 ^ 64 - 1) :=
        foldl_satAdd_sum _
  have hregistry : (s.active.entries.map fun e =>
      (e.2.keys.zipIdx.map fun i => streamCost env e.1 i.1 (i.2 == 0)).foldl satAdd
        0).foldl satAdd 0
        = min (registered env s.active) (2 ^ 64 - 1) :=
    foldl_satAdd_min _ (fun e : Sigma fun _ : R => Table Text StreamState =>
      rootShare env e.1 + streamShares env e.2) _ fun e he =>
        recompute_root e.1 e.2 (h.registry.streams_ne e.1 e.2 (AList.mem_lookup_iff.mpr he))
  have hmarks : (s.lossMarks.map (diagnosticKeyBytes env)).foldl satAdd 0
      = min (s.lossMarks.map (diagnosticKeyBytes env)).sum (2 ^ 64 - 1) := foldl_satAdd_sum _
  have hbytes : s.bytes = total (fun _ entry => entry.cost) s.pending
      + total (fun root _ => readyRootCost env root) s.perRoot := h.store.bytes_eq
  have hmetadata : s.metadataBytes = registered env s.active +
    (s.lossMarks.map (diagnosticKeyBytes env)).sum := h.registry.metadata_eq
  have hle : s.bytes ≤ maxQueueBytes := h.store.bytes_le
  have hle' : s.metadataBytes ≤ maxQueueMetadataBytes := h.registry.metadata_le
  rw [recompute, hpending, hroots, hregistry, hmarks]
  refine Prod.ext ?_ ?_
  · dsimp only
    rw [satAdd]
    omega
  · dsimp only
    rw [satAdd]
    omega

/-- **The accounts of the bus are exact.** After any calls the pending documents are the ones in the
queues, each once and under its own root; the ready roots are the ones with a queue, each once; and
both byte counts are what would be computed from what is retained. All three stay within their
limits. -/
theorem bus_exact (env : Env R) (calls : List (Call R)) :
    let s := bus env calls
    (∀ root key, key ∈ (s.perRoot.lookup root).getD [] ↔ key.root = root ∧ key ∈ s.pending)
      ∧ (∀ root, ((s.perRoot.lookup root).getD []).Nodup)
      ∧ s.ready.Nodup ∧ (∀ root, root ∈ s.ready ↔ root ∈ s.perRoot)
      ∧ (∀ root queue, s.perRoot.lookup root = some queue → queue ≠ [])
      ∧ s.recompute env = (s.bytes, s.metadataBytes)
      ∧ s.pending.keys.length ≤ maxQueueDocuments
      ∧ s.bytes ≤ maxQueueBytes ∧ s.metadataBytes ≤ maxQueueMetadataBytes := by
  intro s
  have h : Valid env s := valid_bus calls
  refine ⟨fun root key => ⟨fun hmem => ?_, fun hand => ?_⟩, h.store.nodup, h.store.ready_nodup,
    fun root => ?_, h.store.queue_ne_nil, recompute_eq h, h.store.count_le, h.store.bytes_le,
    h.registry.metadata_le⟩
  · have hroot := h.store.rooted root key hmem
    refine ⟨hroot, (h.store.listed key).mp ?_⟩
    rw [hroot]
    exact hmem
  · rw [← hand.1]
    exact (h.store.listed key).mpr hand.2
  · refine (h.store.mem_ready root).trans ?_
    have hlook : s.perRoot.lookup root = _ := h.store.lookup_eq root
    rw [← AList.lookup_isSome, hlook]
    split_ifs with hnil
    · exact iff_of_false (fun hne => hne hnil) Bool.false_ne_true
    · exact iff_of_true hnil rfl

/-! ## Generations -/

theorem Silent.not_registered {call : Call R} {answer : Answer R} (h : Silent s call answer)
    (n : Nat) : answer ≠ .registered (.ok n) := by
  rintro rfl
  exact h.2

/-- A generation is given out by a registration, and is the next one. -/
theorem Effect.nextGeneration {call : Call R} {answer : Answer R} {s' : QueueState R}
    (he : Effect env s call answer s') :
    answer = .registered (.ok s.nextGeneration) ∧ s'.nextGeneration = s.nextGeneration + 1
      ∨ (∀ n, answer ≠ .registered (.ok n)) ∧ s'.nextGeneration = s.nextGeneration := by
  cases he with
  | silent hsilent hshed => exact .inr ⟨hsilent.not_registered, hshed.same.1⟩
  | retired hsilent hretired => exact .inr ⟨hsilent.not_registered, hretired.next⟩
  | registered hretire => exact .inl ⟨rfl, congrArg (· + 1) hretire.next⟩
  | published _ _ _ hpublished =>
    exact .inr ⟨(fun n heq => by cases heq), hpublished.same.1.trans (nextGeneration_heard _ _)⟩
  | unprojected _ _ htouched => exact .inr ⟨(fun n heq => by cases heq), htouched.same.1⟩
  | delivered _ _ _ hregistry =>
    exact .inr ⟨(fun n heq => by cases heq), congrArg Registry.nextGeneration hregistry⟩
  | reported _ _ hsame => exact .inr ⟨(fun n heq => by cases heq), hsame.1⟩
  | shutdown => exact .inr ⟨(fun n heq => by cases heq), rfl⟩

/-- The generations that registrations gave out, in their order. -/
def generations (answers : List (Answer R)) : List Nat :=
  answers.filterMap fun
    | .registered (.ok generation) => some generation
    | _ => none

theorem generations_pairwise (calls : List (Call R)) (h : Valid env s) :
    (generations (Transducer.answers (step env) s calls)).Pairwise (· < ·)
      ∧ ∀ n ∈ generations (Transducer.answers (step env) s calls), s.nextGeneration ≤ n := by
  induction calls generalizing s with
  | nil => exact ⟨.nil, fun n hn => absurd hn not_mem_nil⟩
  | cons call calls ih =>
    obtain ⟨hsorted, hfrom⟩ := ih (valid_step h call)
    rcases (step_effect h call).nextGeneration with ⟨hanswer, hnext⟩ | ⟨hanswer, hnext⟩
    · have hcons : generations (Transducer.answers (step env) s (call :: calls))
          = s.nextGeneration ::
            generations (Transducer.answers (step env) (step env s call).2 calls) := by
        rw [Transducer.answers_cons, hanswer]
        rfl
      rw [hnext] at hfrom
      rw [hcons]
      refine ⟨pairwise_cons.mpr ⟨fun n hn => hfrom n hn, hsorted⟩, fun n hn => ?_⟩
      rcases mem_cons.mp hn with rfl | hn
      · exact le_refl _
      · exact (Nat.le_succ _).trans (hfrom n hn)
    · have hskip : generations (Transducer.answers (step env) s (call :: calls))
          = generations (Transducer.answers (step env) (step env s call).2 calls) := by
        rw [Transducer.answers_cons, generations, generations]
        refine filterMap_cons_none ?_
        split
        · rename_i generation heq
          exact absurd heq (hanswer generation)
        · rfl
      rw [hnext] at hfrom
      rw [hskip]
      exact ⟨hsorted, hfrom⟩

/-- **Streams are fenced by their generations.** After any calls, what is pending or marked lost
belongs to the stream that is registered now for its root and server; no two registrations of the
run were given the same generation, nor one that was given before. -/
theorem bus_fenced (env : Env R) (calls : List (Call R)) :
    (∀ key, key ∈ (bus env calls).pending ∨ key ∈ (bus env calls).lossMarks →
        (bus env calls).isCurrent key.root key.serverIdentity key.generation = true)
      ∧ (generations (Transducer.answers (step env) (.new R) calls)).Pairwise (· < ·) := by
  have h : Valid env (bus env calls) := valid_bus calls
  refine ⟨fun key hkey => isCurrent_iff.mpr ?_, (generations_pairwise calls valid_new).1⟩
  rcases hkey with hpending | hmark
  · obtain ⟨entry, hentry⟩ := mem_pending_iff.mp hpending
    exact h.current key entry hentry
  · exact h.registry.marks_current key hmark

/-! ## Wakes -/

/-- The calls of the readers of a server. -/
def Reader : Call R → Prop
  | .retire _ _ _ => True
  | .markLost _ _ _ _ => True
  | .record _ => True
  | .publish _ _ => True
  | _ => False

theorem wakePending_publish (pd : PublishedDiagnostics R) (now : Nat) :
    (s.publish env pd now).wakePending = true := by
  rw [publish]
  split
  · rfl
  · split_ifs
    · rfl
    · rfl
    · rw [accept]
      split
      · rw [replace]
        split_ifs
        · rfl
        · rfl
      · rw [admitEntry]
        split_ifs
        · rfl
        · rw [enqueueIfRoom]
          split_ifs
          · rfl
          · rfl

/-- **A reader that changes the bus wakes the host.** -/
theorem wakes (h : Valid env s) {call : Call R} (hreader : Reader call) :
    (step env s call).2.wakePending = true ∨ (step env s call).2 = s := by
  cases call with
  | retire root identity generation =>
    change (s.retire env root identity generation).1.wakePending = true ∨
      (s.retire env root identity generation).1 = s
    rw [retire]
    rcases retireLocked_cases h root identity generation with hnone | ⟨-, htrue⟩
    · rw [hnone]
      exact .inr rfl
    · exact .inl (congrArg wakePending (if_pos htrue))
  | markLost root identity generation path =>
    change (s.markLost env root identity generation path).wakePending = true ∨ _
    rw [markLost]
    split_ifs
    · exact .inl rfl
    · split
      · exact .inl rfl
      · exact .inl rfl
  | record health =>
    change (s.record health).wakePending = true ∨ s.record health = s
    rw [record]
    split_ifs
    · exact .inr rfl
    · exact .inl rfl
  | publish pd now => exact .inl (wakePending_publish pd now)
  | _ => exact hreader.elim

theorem wakes_run (h : Valid env s) (calls : List (Call R))
    (hreaders : ∀ call ∈ calls, Reader call) :
    (Transducer.after (step env) s calls).wakePending = true ∨
    Transducer.after (step env) s calls = s := by
  induction calls generalizing s with
  | nil => exact .inr rfl
  | cons call calls ih =>
    have hone := wakes h (hreaders call (.head _))
    rcases ih (valid_step h call) fun c hc => hreaders c (.tail _ hc) with hawake | hsame
    · exact .inl hawake
    · rw [Transducer.after_cons, hsame]
      exact hone

/-- **No wake is lost.** While the host sleeps in `wait`, the readers of the servers publish,
retire, mark and record in any order: as long as the wake is not pending, the bus is as the host
left it. -/
theorem bus_wakes (env : Env R) (calls readers : List (Call R))
    (hreaders : ∀ call ∈ readers, Reader call)
    (hasleep : (bus env (calls ++ readers)).wakePending = false) :
    bus env (calls ++ readers) = bus env calls := by
  rw [bus, Transducer.after_append] at hasleep ⊢
  refine (wakes_run (valid_bus calls) readers hreaders).resolve_left fun hawake => ?_
  exact Bool.false_ne_true (hasleep.symm.trans hawake)

theorem bus_wakes_sample :
    bus unitSizes [.register 0 ['s'], .publish (samplePublication 0 1 ['a']) 0, .wait,
      .retire 0 ['s'] 2]
      = bus unitSizes [.register 0 ['s'], .publish (samplePublication 0 1 ['a']) 0, .wait] :=
  bus_wakes unitSizes [.register 0 ['s'], .publish (samplePublication 0 1 ['a']) 0,
    .wait] [.retire 0 ['s'] 2]
    (fun _ hcall => mem_singleton.mp hcall ▸ trivial) rfl

end QueueState

end Thegn.Lsp
