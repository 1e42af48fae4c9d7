import Thegn.Lsp.Bus

set_option autoImplicit false

/-! # The roots take turns

The ready roots are served from the front, and a root that still has documents goes to the back. Of
two ready roots the one in front stays in front, whatever is published, evicted or retired, as long
as one document of it stays pending (`Effect.ahead`); so between two deliveries of one root every
other root with a document that was pending all the time is served (`bus_takes_turns`).
-/

namespace Thegn.Lsp

open Table Text QueueState Store List

variable {R : Type} [LinearOrder R] {env : Env R} {s : QueueState R} {d : DiagnosticKey R} {q : R}

/-- **The order of two roots is kept** by every call that leaves a document of the first one pending
and does not deliver one of its documents. -/
theorem QueueState.Effect.ahead (h : Valid env s) {call : Call R} {answer : Answer R}
    {s' : QueueState R}
    (he : Effect env s call answer s') (hbefore : d ∈ s.store.pending) (hd : d ∈ s'.store.pending)
    (hother : ∀ pd, answer = .received (some pd) → pd.root ≠ d.root) (ha : s.store.Ahead d.root q) :
    s'.store.Ahead d.root q := by
  cases he with
  | silent _ hshed => exact hshed.order d not_false hbefore hd q ha
  | retired _ hretired => exact hretired.order d hd q ha
  | registered hretire =>
    rcases hretire with rfl | hretired
    · exact ha
    · exact hretired.order d hd q ha
  | @published pd now st s' hst _ _ hpublished =>
    have hstore : (s.heard pd st).store = s.store := store_setStream _ _ _
    rw [← hstore] at hbefore ha
    by_cases hown : d = keyOf pd
    · rw [hown] at hbefore hd ha ⊢
      exact hpublished.place hbefore hd q ha
    · exact hpublished.order d hown hbefore hd q ha
  | @unprojected key path0 s' _ _ htouched hnone =>
    by_cases hown : d = key
    · rw [hown] at hd
      exact absurd hd (not_mem_pending hnone)
    · exact htouched.order d hown hbefore hd q ha
  | @delivered key ready entry s' hready hentry hstore =>
    have hkey := (h.store.entry_eq key entry hentry).1
    have hne : d.root ≠ key.root := fun heq => by
      refine hother entry.publication rfl ?_
      rw [heq, ← hkey]
      rfl
    rw [hstore]
    exact Ahead.take h.store hbefore hne hready fun _ => ha
  | reported _ hstore =>
    rw [hstore]
    exact ha
  | shutdown =>
    obtain ⟨entry, hentry⟩ := mem_pending_iff.mp hd
    cases hentry

theorem ahead_run (h : Valid env s) (calls : List (Call R))
    (hpending : ∀ calls0, calls0 <+: calls →
      d ∈ (Transducer.after (step env) s calls0).store.pending)
    (hother : ∀ pd, Answer.received (some pd) ∈ Transducer.answers (step env) s calls →
      pd.root ≠ d.root)
    (ha : s.store.Ahead d.root q) : (Transducer.after (step env) s calls).store.Ahead d.root q := by
  induction calls generalizing s with
  | nil => exact ha
  | cons call calls ih =>
    have hd : d ∈ (step env s call).2.store.pending :=
      hpending [call] ((prefix_cons_inj call).mpr nil_prefix)
    refine ih (valid_step h call) (fun calls0 hprefix => ?_) (fun pd hpd => ?_) ?_
    · exact hpending (call :: calls0) ((prefix_cons_inj call).mpr hprefix)
    · exact hother pd (.tail _ hpd)
    · refine (step_effect h call).ahead h (hpending [] nil_prefix) hd
        (fun pd hpd => hother pd ?_) ha
      rw [Transducer.answers_cons, hpd]
      exact .head _

/-- What was received is the first document of the root in front. -/
theorem received_front (h : Valid env s) {pd : PublishedDiagnostics R}
    (hreceived : (step env s .tryRecv).1 = .received (some pd)) :
    ∃ key ready, key.root = pd.root ∧ s.store.ready = key.root :: ready
      ∧ (step env s .tryRecv).2.store = s.store.take env key := by
  change Answer.received (s.tryRecv env).2 = .received (some pd) at hreceived
  change ∃ key ready, key.root = pd.root ∧ s.store.ready = key.root :: ready
    ∧ (s.tryRecv env).1.store = s.store.take env key
  rcases tryRecv_cases h with
    ⟨-, hempty⟩ | ⟨root, ready, key, queue, entry, s', hready, -, hroot, hentry, hsome, hstore, -⟩
  · rw [hempty] at hreceived
    cases hreceived
  · rw [hsome] at hreceived ⊢
    cases hreceived
    refine ⟨key, ready, congrArg DiagnosticKey.root (h.store.entry_eq key entry hentry).1.symm, ?_,
      hstore⟩
    rw [hroot]
    exact hready

/-- A delivery at the first turn. -/
theorem bus_tryRecv {calls : List (Call R)} {root : R} {ready : List R}
    (hbus : bus env calls = s) (hready : s.ready = root :: ready)
    (hsome : (QueueState.turn env { s with ready := ready } root).2.isSome = true) :
    bus env (calls ++ [.tryRecv]) = (QueueState.turn env { s with ready := ready } root).1
      ∧ (step env (bus env calls) .tryRecv).1 =
        .received (QueueState.turn env { s with ready := ready } root).2 := by
  have hturn : s.tryRecv env = QueueState.turn env { s with ready := ready } root := by
    rw [tryRecv_cons hready]
    exact if_pos hsome
  rw [bus, Transducer.after_concat, ← bus, hbus, ← hturn]
  exact ⟨rfl, rfl⟩

/-- **The roots take turns.** Between two deliveries for one root, every other root of which a
document was pending all the time is served: some delivery between them is of that root. -/
theorem bus_takes_turns (env : Env R) (calls between : List (Call R)) (d : DiagnosticKey R)
    (first second : PublishedDiagnostics R)
    (hfirst : (step env (bus env calls) .tryRecv).1 = .received (some first))
    (hsecond : (step env (bus env (calls ++ .tryRecv :: between)) .tryRecv).1 =
      .received (some second))
    (hroots : second.root = first.root) (hother : d.root ≠ first.root)
    (hbefore : d ∈ (bus env calls).pending)
    (hpending : ∀ calls0, calls0 <+: between →
      d ∈ (bus env (calls ++ .tryRecv :: calls0)).pending) :
    ∃ pd, Answer.received (some pd)
        ∈ Transducer.answers (step env) (bus env (calls ++ [.tryRecv])) between ∧
        pd.root = d.root := by
  have h : Valid env (bus env calls) := valid_bus calls
  have hsplit : ∀ calls0 : List (Call R), bus env (calls ++ .tryRecv :: calls0)
      = Transducer.after (step env) (step env (bus env calls) .tryRecv).2 calls0 :=
    fun calls0 => Transducer.after_append _ _ _ _
  have hone : bus env (calls ++ [.tryRecv]) = (step env (bus env calls) .tryRecv).2 := hsplit []
  by_contra hnone
  -- behind the first delivery the other root is in front
  have hahead : (step env (bus env calls) .tryRecv).2.store.Ahead d.root first.root := by
    obtain ⟨key, ready, hkey, hready, hstore⟩ := received_front h hfirst
    rw [hstore]
    exact Ahead.take h.store hbefore (hkey ▸ hother) hready fun hne => absurd hkey hne
  have hstays := ahead_run (valid_step h .tryRecv) between
    (fun calls0 hprefix => by rw [← hsplit]; exact hpending calls0 hprefix)
    (fun pd hpd heq => hnone ⟨pd, by rw [hone]; exact hpd, heq⟩) hahead
  rw [← hsplit] at hstays
  -- so it would be served before the second delivery
  have h' : Valid env (bus env (calls ++ .tryRecv :: between)) := valid_bus _
  obtain ⟨key, ready, hkey, hfront, -⟩ := received_front h' hsecond
  rw [hkey, hroots] at hfront
  have hnodup := h'.store.ready_nodup
  rw [Ahead, hfront] at hstays
  rw [hfront] at hnodup
  have hpair := mem_of_pair_sublist hother (hstays (.head _))
  exact (nodup_cons.mp hnodup).1 (hpair.subset (.tail _ (.head _)))

def twoRoots : List (Call Nat) :=
  [.register 0 ['s'], .register 1 ['s'], .publish (samplePublication 0 1 ['a']) 0,
    .publish (samplePublication 0 2 ['b']) 0, .publish (samplePublication 1 1 ['c']) 0,
    .publish (samplePublication 1 2 ['d']) 0]

theorem bus_takes_turns_sample :
    ∃ pd, Answer.received (some pd)
        ∈ Transducer.answers (step unitSizes) (bus unitSizes (twoRoots ++ [.tryRecv])) [.tryRecv] ∧
        pd.root = 1 := by
  have hstart : bus unitSizes twoRoots = bus unitSizes twoRoots := rfl
  obtain ⟨hbus1, hfirst⟩ := bus_tryRecv hstart rfl rfl
  obtain ⟨hbus2, -⟩ := bus_tryRecv hbus1 rfl rfl
  obtain ⟨-, hthird⟩ := bus_tryRecv hbus2 rfl rfl
  refine bus_takes_turns unitSizes twoRoots [.tryRecv] ⟨1, ['s'], 2,
    ['d']⟩ (samplePublication 0 1 ['a'])
    (samplePublication 0 2 ['b']) hfirst hthird rfl (by decide) (AList.lookup_isSome.mp rfl)
      fun calls0 hprefix => ?_
  rcases prefix_cons_iff.mp hprefix with rfl | ⟨calls1, rfl, hnil⟩
  · rw [hbus1]
    exact AList.lookup_isSome.mp rfl
  · rw [prefix_nil.mp hnil]
    have hsplit : twoRoots ++ [.tryRecv, .tryRecv] = (twoRoots ++ [.tryRecv]) ++ [.tryRecv] := rfl
    rw [hsplit, hbus2]
    exact AList.lookup_isSome.mp rfl

end Thegn.Lsp
