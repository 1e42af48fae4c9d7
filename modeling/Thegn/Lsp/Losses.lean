import Thegn.Lsp.Bus

set_option autoImplicit false

/-! # No diagnostics are lost silently

An observer of the bus notes what the producers last said of each document (`newest`), what the host
was handed last (`shown`), of which documents a loss was reported to it since (`reported`), and
everything that was delivered, in order. After any calls the newest publication of a document of a
registered stream is pending, or it is the last one that was shown, or its loss is recorded or was
reported since (`bus_loses_nothing_silently`); and the publications of one document are delivered in
the order of their sequences (`bus_delivers_in_order`).
-/

namespace Thegn.Lsp

open Table Text QueueState List Option

variable {R : Type} [LinearOrder R] {env : Env R}

/-- What a producer said of a document. -/
inductive News (R : Type)
  | published (pd : PublishedDiagnostics R)
  | unprojected

/-- The notes of the observer. A document is reported until something new is said of it. -/
structure Ledger (R : Type) where
  newest : DiagnosticKey R → Option (News R)
  shown : DiagnosticKey R → Option (PublishedDiagnostics R)
  reported : DiagnosticKey R → Prop
  delivered : List (PublishedDiagnostics R)

namespace Ledger

def empty (R : Type) : Ledger R := ⟨fun _ => none, fun _ => none, fun _ => False, []⟩

def say (l : Ledger R) (key : DiagnosticKey R) (news : News R) : Ledger R :=
  { l with
    newest := Function.update l.newest key (some news)
    reported := fun k => k ≠ key ∧ l.reported k }

def deliver (l : Ledger R) (pd : PublishedDiagnostics R) : Ledger R :=
  { l with
    shown := Function.update l.shown (keyOf pd) (some pd)
    delivered := l.delivered ++ [pd] }

def report (l : Ledger R) (documents : List (DiagnosticKey R)) (streams : List (R × Text × Nat)) :
    Ledger R :=
  { l with
    reported :=
      fun key => (key ∈ documents ∨ (key.root, key.serverIdentity, key.generation) ∈ streams)
      ∨ l.reported key }

open Classical in
/-- What the observer notes of a call in state `s` and its answer. -/
noncomputable def note (s : QueueState R) (l : Ledger R) : Call R → Answer R → Ledger R
  | .publish pd _, _ => if Accepts s pd then l.say (keyOf pd) (.published pd) else l
  | .markLost root identity generation path, _ =>
    match keyPath path with
    | some path =>
      if s.isCurrent root identity generation
        then l.say ⟨root, identity, generation, path⟩ .unprojected
      else l
    | none => l
  | _, .received (some pd) => l.deliver pd
  | _, .losses documents streams => l.report documents streams
  | _, _ => l

theorem newest_say (l : Ledger R) (key : DiagnosticKey R) (news : News R) :
    (l.say key news).newest key = some news := Function.update_self _ _ _

theorem newest_say_ne (l : Ledger R) {key k : DiagnosticKey R} (hne : k ≠ key) (news : News R) :
    (l.say key news).newest k = l.newest k := Function.update_of_ne hne _ _

end Ledger

open Ledger

/-- The bus and its observer. -/
noncomputable def watch (env : Env R) (w : QueueState R × Ledger R) (call : Call R) :
    Answer R × (QueueState R × Ledger R) :=
  ((step env w.1 call).1, (step env w.1 call).2, w.2.note w.1 call (step env w.1 call).1)

noncomputable def watched (env : Env R) (calls : List (Call R)) : QueueState R × Ledger R :=
  Transducer.after (watch env) (.new R, .empty R) calls

/-- The observer does not disturb the bus. -/
theorem watched_fst (calls : List (Call R)) : (watched env calls).1 = bus env calls := by
  have hrun : ∀ (w : QueueState R × Ledger R),
      (Transducer.after (watch env) w calls).1 = Transducer.after (step env) w.1 calls := by
    induction calls with
    | nil => exact fun _ => rfl
    | cons call calls ih => exact fun w => ih _
  exact hrun _

/-- The newest word on a document is known: it is pending, it was shown, or the host knows or will
know that it was lost. -/
def Known (s : QueueState R) (l : Ledger R) (key : DiagnosticKey R) (news : News R) : Prop :=
  (∃ pd, news = .published pd
      ∧ ((∃ entry, s.pending.lookup key = some entry ∧ entry.publication = pd) ∨
        l.shown key = some pd))
    ∨ Lost s.registry key ∨ l.reported key

/-- What holds of the bus and its observer. -/
structure Accounted (env : Env R) (s : QueueState R) (l : Ledger R) : Prop where
  newest : ∀ key entry, s.pending.lookup key = some entry →
    l.newest key = some (.published entry.publication)
  known : ∀ key news, s.registry.Current key → l.newest key = some news → Known s l key news
  generation : ∀ key news, l.newest key = some news → key.generation < s.registry.nextGeneration
  heard : ∀ key entry, s.pending.lookup key = some entry → ∀ st,
    s.registry.stream key.root key.serverIdentity = some st →
      entry.publication.sequence ≤ st.lastSequence
  delivered_generation : ∀ pd ∈ l.delivered, pd.generation < s.registry.nextGeneration
  delivered_heard : ∀ pd ∈ l.delivered, ∀ st, s.registry.stream pd.root pd.serverIdentity =
    some st → st.generation = pd.generation → pd.sequence ≤ st.lastSequence
  delivered_pending : ∀ pd ∈ l.delivered, ∀ entry, s.pending.lookup (keyOf pd) = some entry →
    pd.sequence < entry.publication.sequence
  delivered_sorted : l.delivered.Pairwise fun a b => keyOf a = keyOf b → a.sequence < b.sequence

/-- Nothing outside `P` became pending, a stream has heard at least what it had before, and a new
stream has a new generation. -/
structure Later (P : DiagnosticKey R → Prop) (s s' : QueueState R) : Prop where
  next : s.registry.nextGeneration ≤ s'.registry.nextGeneration
  pending : ∀ k, ¬ P k → ∀ e, s'.pending.lookup k = some e → s.pending.lookup k = some e
  stream : ∀ r i st', s'.registry.stream r i = some st' → s.registry.nextGeneration ≤ st'.generation
    ∨ ∃ st, s.registry.stream r i = some st ∧ st'.generation = st.generation ∧
      st.lastSequence ≤ st'.lastSequence

theorem Later.of_same {P : DiagnosticKey R → Prop} {s s' : QueueState R}
    (hsame : s.registry.SameStreams s'.registry)
    (hpending : ∀ k, ¬ P k → ∀ e, s'.pending.lookup k = some e → s.pending.lookup k = some e) :
    Later P s s' where
  next := hsame.1.ge
  pending := hpending
  stream := fun r i st' hst' => by
    obtain ⟨st, hst, hgen, hseq⟩ := hsame.stream hst'
    exact .inr ⟨st, hst, hgen, hseq.ge⟩

namespace Accounted

variable {s s' : QueueState R} {l : Ledger R} {key : DiagnosticKey R} {P : DiagnosticKey R → Prop}
  {root : R} {identity : Text} {st : StreamState} {pd : PublishedDiagnostics R}

theorem start : Accounted env (.new R) (.empty R) where
  newest := fun _ _ h => by cases h
  known := fun _ _ _ h => by cases h
  generation := fun _ _ h => by cases h
  heard := fun _ _ h => by cases h
  delivered_generation := fun _ h => absurd h not_mem_nil
  delivered_heard := fun _ h => absurd h not_mem_nil
  delivered_pending := fun _ h => absurd h not_mem_nil
  delivered_sorted := .nil

/-- What is pending of the documents in `P` is what the observer heard of them last. -/
structure Fresh (s : QueueState R) (l : Ledger R) (P : DiagnosticKey R → Prop) : Prop where
  generation : ∀ k news, P k → l.newest k = some news → k.generation < s.registry.nextGeneration
  newest : ∀ k entry, P k → s.pending.lookup k = some entry →
    l.newest k = some (.published entry.publication)
  heard : ∀ k entry, P k → s.pending.lookup k = some entry → ∀ st,
    s.registry.stream k.root k.serverIdentity = some st →
      entry.publication.sequence ≤ st.lastSequence
  delivered : ∀ pd ∈ l.delivered, P (keyOf pd) → ∀ entry, s.pending.lookup (keyOf pd) = some entry →
    pd.sequence < entry.publication.sequence

theorem Fresh.nothing : Fresh s l fun _ => False :=
  ⟨fun _ _ hp => hp.elim, fun _ _ hp => hp.elim, fun _ _ hp => hp.elim, fun _ _ hp => hp.elim⟩

/-- **The accounts go on** as long as the bus does not go back. -/
theorem later (h : Accounted env s l) (hs' : Valid env s') (hl : Later P s s') {l' : Ledger R}
    (hnewest : ∀ k, ¬ P k → l'.newest k = l.newest k) (hdelivered : l'.delivered = l.delivered)
    (hfresh : Fresh s' l' P)
    (hknown : ∀ k news, s'.registry.Current k → l'.newest k = some news → Known s' l' k news) :
    Accounted env s' l' where
  newest := fun k entry hk => by
    by_cases hp : P k
    · exact hfresh.newest k entry hp hk
    · rw [hnewest k hp]
      exact h.newest k entry (hl.pending k hp entry hk)
  known := hknown
  generation := fun k news hnews => by
    by_cases hp : P k
    · exact hfresh.generation k news hp hnews
    · rw [hnewest k hp] at hnews
      exact (h.generation k news hnews).trans_le hl.next
  heard := fun k entry hk st' hst' => by
    by_cases hp : P k
    · exact hfresh.heard k entry hp hk st' hst'
    · have hbefore := hl.pending k hp entry hk
      rcases hl.stream _ _ st' hst' with hnew | ⟨st, hst, -, hseq⟩
      · -- a pending document belongs to an older stream
        have hcurrent := hs'.current k entry hk
        rw [Registry.Current, hst', map_some, some_inj] at hcurrent
        exact absurd (hcurrent ▸ hnew)
          (Nat.not_le.mpr (h.generation k _ (h.newest k entry hbefore)))
      · exact (h.heard k entry hbefore st hst).trans hseq
  delivered_generation := fun pd hpd => by
    rw [hdelivered] at hpd
    exact (h.delivered_generation pd hpd).trans_le hl.next
  delivered_heard := fun pd hpd st' hst' hgen => by
    rw [hdelivered] at hpd
    rcases hl.stream _ _ st' hst' with hnew | ⟨st, hst, hsame, hseq⟩
    · exact absurd (hgen ▸ hnew) (Nat.not_le.mpr (h.delivered_generation pd hpd))
    · exact (h.delivered_heard pd hpd st hst (hsame.symm.trans hgen)).trans hseq
  delivered_pending := fun pd hpd entry hentry => by
    by_cases hp : P (keyOf pd)
    · exact hfresh.delivered pd hpd hp entry hentry
    · rw [hdelivered] at hpd
      exact h.delivered_pending pd hpd entry (hl.pending _ hp entry hentry)
  delivered_sorted := by
    rw [hdelivered]
    exact h.delivered_sorted

/-- Nothing new is said. -/
theorem later_same (h : Accounted env s l) (hs' : Valid env s') (hl : Later (fun _ => False) s s')
    (hknown : ∀ k news, s'.registry.Current k → l.newest k = some news → Known s' l k news) :
    Accounted env s' l :=
  h.later hs' hl (fun _ _ => rfl) rfl .nothing hknown

/-- What was known of a document stays known. -/
theorem known_touched (h : Accounted env s l) (ht : Touched env P s s') {l' : Ledger R}
    {k : DiagnosticKey R}
    (hk : ¬ P k) (hshown : l'.shown k = l.shown k) (hreported : l.reported k → l'.reported k)
    {news : News R}
    (hcurrent : s'.registry.Current k) (hnews : l.newest k = some news) : Known s' l' k news := by
  rcases h.known k news ((ht.same.current k).mp hcurrent) hnews with
    ⟨pd, hpd, ⟨entry, hentry, hpub⟩ | hpub⟩ | hlost | hrep
  · rcases ht.kept k hk entry hentry with hin | ⟨-, hlost⟩
    · exact .inl ⟨pd, hpd, .inl ⟨entry, hin, hpub⟩⟩
    · exact .inr (.inl hlost)
  · exact .inl ⟨pd, hpd, .inr (hshown.trans hpub)⟩
  · exact .inr (.inl (ht.lost k hk hlost))
  · exact .inr (.inr (hreported hrep))

/-- Documents are given up. -/
theorem shed (h : Accounted env s l) (hshed : Shed env s s') : Accounted env s' l :=
  h.later_same hshed.valid (.of_same hshed.same fun _ hp _ => hshed.before hp)
    fun _ _ => h.known_touched hshed not_false rfl id

/-! ## News -/

theorem stream_heard (hst : s.registry.stream pd.root pd.serverIdentity = some st) (r : R)
    (i : Text) :
    (s.heard pd st).registry.stream r i = if r = pd.root ∧ i = pd.serverIdentity
      then some { st with lastSequence := pd.sequence } else s.registry.stream r i := by
  rw [QueueState.heard, registry_setStream, Registry.stream_put _ hst]

/-- The sequence of a publication is noted. -/
theorem hear (h : Accounted env s l) (hs : Valid env s)
    (hst : s.registry.stream pd.root pd.serverIdentity = some st)
    (hseq : st.lastSequence < pd.sequence) : Accounted env (s.heard pd st) l := by
  have hpending : ∀ k, (s.heard pd st).pending.lookup k = s.pending.lookup k :=
    lookup_of_store (store_setStream _ _ _)
  refine h.later_same (valid_heard hs hst) ⟨(nextGeneration_heard pd st).ge, fun k _ e hk => ?_,
    fun r i st' hst' => .inr ?_⟩ fun key news hcurrent hnews => ?_
  · exact (hpending k).symm.trans hk
  · rw [stream_heard hst] at hst'
    split_ifs at hst' with hand
    · cases hst'
      rw [hand.1, hand.2]
      exact ⟨st, hst, rfl, hseq.le⟩
    · exact ⟨st', hst', rfl, le_refl _⟩
  · rw [Known, hpending, lost_heard hst]
    exact h.known key news ((current_heard hst key).mp hcurrent) hnews

/-- Something is said of a document: what is then pending of it is the news, and newer than what was
delivered. -/
theorem touch (h : Accounted env s l) (hs : Valid env s) {news : News R}
    (ht : Touched env (· = key) s s') (hcurrent : s.registry.Current key)
    (hown : ∀ entry, s'.pending.lookup key = some entry → news = .published entry.publication
      ∧ (∀ st, s.registry.stream key.root key.serverIdentity = some st →
          entry.publication.sequence ≤ st.lastSequence)
      ∧ ∀ pd ∈ l.delivered, keyOf pd = key → pd.sequence < entry.publication.sequence)
    (hknown : Known s' (l.say key news) key news) : Accounted env s' (l.say key news) := by
  refine h.later ht.valid (.of_same ht.same fun _ hp _ => ht.before hp)
    (fun k hk => newest_say_ne l hk news) rfl
    ⟨?_, ?_, ?_, ?_⟩ fun k news' hk hnews => ?_
  · rintro k news' rfl -
    obtain ⟨st, hst, hgen⟩ := map_eq_some_iff.mp hcurrent
    rw [ht.same.1, ← hgen]
    exact hs.registry.generation_lt _ _ st hst
  · rintro k entry rfl hk
    rw [newest_say, (hown entry hk).1]
  · rintro k entry rfl hk st' hst'
    obtain ⟨st, hst, -, hseq⟩ := ht.same.stream hst'
    rw [hseq]
    exact (hown entry hk).2.1 st hst
  · intro pd hpd hkey entry hentry
    rw [hkey] at hentry
    exact (hown entry hentry).2.2 pd hpd hkey
  · by_cases hkey : k = key
    · rw [hkey] at hnews ⊢
      rw [newest_say] at hnews
      cases hnews
      exact hknown
    · rw [newest_say_ne l hkey] at hnews
      have hshown : (l.say key news).shown k = l.shown k := rfl
      exact h.known_touched ht hkey hshown (fun hrep => ⟨hkey, hrep⟩) hk hnews

theorem publish (h : Accounted env s l) (hs : Valid env s)
    (hst : s.registry.stream pd.root pd.serverIdentity = some st)
    (hgen : st.generation = pd.generation)
    (hseq : st.lastSequence < pd.sequence) (hpublished : Published env (s.heard pd st) pd s') :
    Accounted env s' (l.say (keyOf pd) (.published pd)) := by
  refine (h.hear hs hst hseq).touch (valid_heard hs hst) hpublished.toTouched
    ((current_heard hst _).mpr (current_keyOf hst hgen)) (fun entry hentry => ?_) ?_
  · have hpub : entry.publication = pd := by
      rcases hpublished.own with ⟨entry0, hentry0, hpub⟩ | ⟨hnone, -⟩
      · rw [hentry0] at hentry
        cases hentry
        exact hpub
      · rw [hnone] at hentry
        cases hentry
    rw [hpub]
    refine ⟨rfl, fun st' hst' => ?_, fun pd0 hpd0 hkey => ?_⟩
    · rw [stream_heard hst] at hst'
      have hown : (keyOf pd).root = pd.root ∧ (keyOf pd).serverIdentity = pd.serverIdentity :=
        ⟨rfl, rfl⟩
      rw [if_pos hown] at hst'
      cases hst'
      exact le_refl _
    · have hroot : pd0.root = pd.root := congrArg DiagnosticKey.root hkey
      have hidentity : pd0.serverIdentity = pd.serverIdentity :=
        congrArg DiagnosticKey.serverIdentity hkey
      have hgeneration : pd0.generation = pd.generation := congrArg DiagnosticKey.generation hkey
      rw [← hroot, ← hidentity] at hst
      exact (h.delivered_heard pd0 hpd0 st hst (hgen.trans hgeneration.symm)).trans_lt hseq
  · rcases hpublished.own with ⟨entry, hentry, hpub⟩ | ⟨-, hlost⟩
    · exact .inl ⟨pd, rfl, .inl ⟨entry, hentry, hpub⟩⟩
    · exact .inr (.inl hlost)

/-! ## Deliveries and reports -/

theorem deliver (h : Accounted env s l) (hs : Valid env s) {entry : Entry R}
    (hentry : s.pending.lookup key = some entry) (hstore : s'.store = s.store.take env key)
    (hregistry : s'.registry = s.registry) : Accounted env s' (l.deliver entry.publication) := by
  have hkey := (hs.store.entry_eq key entry hentry).1
  have hbefore : ∀ k e, s'.pending.lookup k = some e → k ≠ key ∧ s.pending.lookup k = some e := by
    intro k e hk
    rw [lookup_taken hstore] at hk
    split_ifs at hk with heq
    exact ⟨heq, hk⟩
  refine ⟨fun k e hk => h.newest k e (hbefore k e hk).2, fun k news hcurrent hnews => ?_,
    fun k news hnews => ?_,
    fun k e hk st hst => ?_, fun pd hpd => ?_, fun pd hpd st hst hgen => ?_,
      fun pd hpd e he => ?_, ?_⟩
  · rw [hregistry] at hcurrent
    have hnews' : l.newest k = some news := hnews
    by_cases heq : k = key
    · -- what is shown is the newest publication
      have hnewest := h.newest key entry hentry
      rw [heq, hnewest] at hnews'
      cases hnews'
      refine .inl ⟨entry.publication, rfl, .inr ?_⟩
      rw [heq, ← hkey]
      exact Function.update_self _ _ _
    · have hother : (l.deliver entry.publication).shown k = l.shown k := by
        rw [← hkey] at heq
        exact Function.update_of_ne heq _ _
      rw [Known, lookup_taken hstore, if_neg heq, hother, hregistry]
      exact h.known k news hcurrent hnews'
  · rw [hregistry]
    exact h.generation k news hnews
  · rw [hregistry] at hst
    exact h.heard k e (hbefore k e hk).2 st hst
  · rw [hregistry]
    rcases mem_append.mp hpd with hpd | hpd
    · exact h.delivered_generation pd hpd
    · rw [mem_singleton.mp hpd]
      have hgeneration := h.generation key _ (h.newest key entry hentry)
      rw [← hkey] at hgeneration
      exact hgeneration
  · rw [hregistry] at hst
    rcases mem_append.mp hpd with hpd | hpd
    · exact h.delivered_heard pd hpd st hst hgen
    · rw [mem_singleton.mp hpd] at hst ⊢
      refine h.heard key entry hentry st ?_
      rw [← hkey]
      exact hst
  · obtain ⟨hne, he'⟩ := hbefore _ e he
    rcases mem_append.mp hpd with hpd | hpd
    · exact h.delivered_pending pd hpd e he'
    · rw [mem_singleton.mp hpd] at hne
      exact absurd hkey hne
  · refine pairwise_append.mpr ⟨h.delivered_sorted, pairwise_singleton _ _,
      fun pd hpd pd' hpd' heq => ?_⟩
    rw [mem_singleton.mp hpd'] at heq ⊢
    refine h.delivered_pending pd hpd entry ?_
    rw [heq, hkey]
    exact hentry

theorem report (h : Accounted env s l) {documents : List (DiagnosticKey R)}
    {streams : List (R × Text × Nat)}
    (hs' : Valid env s') (hstore : s'.store = s.store) (hsame : s.registry.SameStreams s'.registry)
    (hall : ∀ key, s.registry.Current key → Lost s.registry key → key ∈ documents
      ∨ (key.root, key.serverIdentity, key.generation) ∈ streams) :
    Accounted env s' (l.report documents streams) := by
  have hpending : ∀ k, s'.pending.lookup k = s.pending.lookup k := lookup_of_store hstore
  refine h.later hs' (.of_same hsame fun k _ e hk => (hpending k).symm.trans hk)
    (fun _ _ => rfl) rfl
    .nothing fun k news hcurrent hnews => ?_
  have hcurrent' := (hsame.current k).mp hcurrent
  rw [Known, hpending]
  rcases h.known k news hcurrent' hnews with hpub | hlost | hreported
  · exact .inl hpub
  · exact .inr (.inr (.inl (hall k hcurrent' hlost)))
  · exact .inr (.inr (.inr hreported))

/-! ## Streams that come and go -/

theorem retire (h : Accounted env s l) (hr : Retired env s root identity s') :
    Accounted env s' l := by
  -- nothing that is left belongs to the stream
  have hother : ∀ key : DiagnosticKey R, s'.registry.Current key →
      ¬ (key.root = root ∧ key.serverIdentity = identity) := fun key hcurrent hand => by
    rw [Registry.Current, hr.stream, if_pos hand] at hcurrent
    cases hcurrent
  refine h.later_same hr.valid ⟨hr.next.ge, fun k _ e hk => ?_,
    fun r i st hst => .inr ⟨st, ?_, rfl, le_refl _⟩⟩
    fun k news hcurrent hnews => ?_
  · rw [← hr.pending k (hother k (hr.valid.current k e hk)), hk]
  · rw [hr.stream] at hst
    split_ifs at hst
    exact hst
  · have hne := hother k hcurrent
    have hsame : s'.registry.stream k.root k.serverIdentity =
      s.registry.stream k.root k.serverIdentity := by
      rw [hr.stream, if_neg hne]
    rw [Registry.Current, hsame] at hcurrent
    rw [Known, hr.pending k hne, Lost, hsame]
    have hmarks : k ∈ s'.registry.lossMarks ↔ k ∈ s.registry.lossMarks := hr.marks k hne
    rw [hmarks]
    exact h.known k news hcurrent hnews

theorem mayRetire (h : Accounted env s l) (hr : MayRetire env s root identity s') :
    Accounted env s' l := by
  rcases hr with rfl | hr
  · exact h
  · exact h.retire hr

/-- A new stream has a generation of which nothing was said yet. -/
theorem enroll (h : Accounted env s l) (hs : Valid env s) {cost : Nat}
    (hnone : s.registry.stream root identity = none)
    (hfits : s.registry.metadataBytes + cost ≤ maxQueueMetadataBytes)
    (hcost : cost = s.registry.freshCost env root identity) :
    Accounted env (s.enroll root identity cost) l := by
  have hregistry : (s.enroll root identity cost).registry = s.registry.enroll root identity cost :=
    registry_enroll root identity hfits
  refine h.later_same (valid_enroll hs hnone hfits hcost) ⟨Nat.le_succ _, fun _ _ _ hk => hk,
    fun r i st hst => ?_⟩ fun k news hcurrent hnews => ?_
  · rw [hregistry, Registry.stream_enroll] at hst
    split_ifs at hst
    · cases hst
      exact .inl (le_refl _)
    · exact .inr ⟨st, hst, rfl, le_refl _⟩
  · have hold : ¬ (k.root = root ∧ k.serverIdentity = identity) := fun hand => by
      rw [Registry.Current, hregistry, Registry.stream_enroll, if_pos hand, map_some, some_inj]
        at hcurrent
      exact absurd hcurrent (h.generation k news hnews).ne'
    have hsame : (s.enroll root identity cost).registry.stream k.root k.serverIdentity
        = s.registry.stream k.root k.serverIdentity := by
      rw [hregistry, Registry.stream_enroll, if_neg hold]
    rw [Registry.Current, hsame] at hcurrent
    rw [Known, Lost, hsame]
    exact h.known k news hcurrent hnews

theorem shutdown (h : Accounted env s l) : Accounted env s.shutdown l :=
  h.later_same (valid_shutdown s.nextGeneration)
    ⟨le_refl _, (fun _ _ _ hk => by cases hk), (fun _ _ _ hst => by cases hst)⟩
      (fun _ _ hcurrent => by cases hcurrent)

/-! ## Every call -/

/-- The observer notes nothing of a silent call. -/
theorem note_silent {call : Call R} {answer : Answer R} (h : Silent s call answer) :
    l.note s call answer = l := by
  obtain ⟨hsaid, htells⟩ := h
  unfold Ledger.note
  split
  · exact if_neg hsaid
  · split
    · rename_i path hpath
      refine if_neg fun hcurrent => ?_
      rw [hsaid hcurrent] at hpath
      cases hpath
    · rfl
  · exact htells.elim
  · exact htells.elim
  · rfl

/-- **Every call keeps the accounts.** -/
theorem effect (h : Accounted env s l) (hs : Valid env s) {call : Call R} {answer : Answer R}
    (he : Effect env s call answer s') : Accounted env s' (l.note s call answer) := by
  cases he with
  | silent hsilent hshed =>
    rw [note_silent hsilent]
    exact h.shed hshed
  | retired hsilent hretired =>
    rw [note_silent hsilent]
    exact h.retire hretired
  | registered hretire hnone hfits hcost =>
    exact (h.mayRetire hretire).enroll (hretire.valid hs) hnone hfits hcost
  | @published pd now st s' hst hgen hseq hpublished =>
    have haccepts : Accepts s pd := ⟨st, hst, hgen, hseq⟩
    rw [Ledger.note, if_pos haccepts]
    exact h.publish hs hst hgen hseq hpublished
  | @unprojected key path0 s' hcurrent hpath htouched hnone hlost =>
    rw [Ledger.note, hpath]
    dsimp only
    rw [if_pos (isCurrent_iff.mpr hcurrent)]
    refine h.touch hs htouched hcurrent (fun entry hentry => ?_) (.inr (.inl hlost))
    rw [hnone] at hentry
    cases hentry
  | delivered _ hentry hstore hregistry => exact h.deliver hs hentry hstore hregistry
  | reported hvalid hstore hsame hall => exact h.report hvalid hstore hsame hall
  | shutdown => exact h.shutdown

end Accounted

theorem accounted_watched (env : Env R) (calls : List (Call R)) :
    Accounted env (watched env calls).1 (watched env calls).2 :=
  (Transducer.after_induction (fun _ (w : QueueState R × Ledger R) => Valid env w.1 ∧
    Accounted env w.1 w.2)
    ⟨valid_new, .start⟩ (fun _ call h => ⟨valid_step h.1 call,
      h.2.effect h.1 (step_effect h.1 call)⟩) calls).2

/-- **Nothing is lost silently.** After any calls of any threads, the newest publication that the
checks let through for a document of a registered stream is pending, or it is the last one the host
was handed, or the loss of the document is recorded for the next report, or it was reported since. A
publication that could not be projected is never hidden by an older one. -/
theorem bus_loses_nothing_silently (env : Env R) (calls : List (Call R)) (key : DiagnosticKey R)
    (news : News R)
    (hcurrent : (bus env calls).isCurrent key.root key.serverIdentity key.generation = true)
    (hnews : (watched env calls).2.newest key = some news) :
    Known (bus env calls) (watched env calls).2 key news := by
  have h := accounted_watched env calls
  rw [watched_fst] at h
  exact h.known key news (isCurrent_iff.mp hcurrent) hnews

theorem bus_loses_nothing_silently_sample :
    (bus wideEntries wideCalls).pending.lookup ⟨0, ['s'], 1, ['a']⟩ = none ∧
      Known (bus wideEntries wideCalls) (watched wideEntries wideCalls).2 ⟨0, ['s'], 1, ['a']⟩
        (.published (samplePublication 0 1 ['a'])) := by
  refine ⟨by decide, bus_loses_nothing_silently wideEntries _ _ _ (by decide) ?_⟩
  change (Ledger.note (bus wideEntries (wideCalls.take 2)) (Ledger.note (bus wideEntries
    (wideCalls.take 1)) _ (.publish (samplePublication 0 1 ['a']) 0) .done) _ _).newest _ = _
  rw [Ledger.note, if_pos ⟨⟨1, 1, false⟩, rfl, rfl, by decide⟩, newest_say_ne _ (by decide),
    Ledger.note, if_pos ⟨⟨1, 0, false⟩, rfl, rfl, Nat.one_pos⟩]
  exact newest_say _ _ _

/-- **The publications of a document are delivered in order.** Whatever the calls, of two deliveries
of one document the later one has the greater sequence; nothing is delivered twice, and a pending
publication is newer than all that was delivered of its document. -/
theorem bus_delivers_in_order (env : Env R) (calls : List (Call R)) :
    ((watched env calls).2.delivered.Pairwise fun a b => keyOf a = keyOf b →
      a.sequence < b.sequence)
      ∧ ∀ pd ∈ (watched env calls).2.delivered, ∀ entry,
          (bus env calls).pending.lookup (keyOf pd) = some entry →
          pd.sequence < entry.publication.sequence := by
  have h := accounted_watched env calls
  rw [watched_fst] at h
  exact ⟨h.delivered_sorted, h.delivered_pending⟩

end Thegn.Lsp
