import Z23.Sync.SyncReduce

/-!
What a sync session has behind it. The moves between phases are listed once, and every invariant of
a run is a case analysis over them.
-/

namespace Z23.Sync

-- Moves

/-- What an event may do to a phase, with the actions that go with it. -/
inductive Move : SyncPhase → SyncEvent → SyncPhase → List SyncAction → Prop where
  | stay {phase : SyncPhase} {e : SyncEvent} {actions : List SyncAction}
      (unstaged : .stageBundle ∉ actions) (offers : .storeOffer ∈ actions → phase = .negotiating)
      (still : phase = .idle → actions = [])
      : Move phase e phase actions
  | opens {e : SyncEvent} {actions : List SyncAction} (unstaged : .stageBundle ∉ actions)
      : Move .idle e .negotiating actions
  | accepts {e : SyncEvent} (kind : e.kind = .offerAccepted)
      : Move .negotiating e .receiving [.resetOffset, .beginReceive]
  | completes {e : SyncEvent} (kind : e.kind = .receiveComplete)
      : Move .receiving e .verifying [.startVerify]
  | proves {e : SyncEvent} (kind : e.kind = .proofVerified) (good : e.proofOk = true)
      : Move .verifying e .staged [.stageBundle]
  | contained {e : SyncEvent}
      : Move .staged e .activationContained [.raiseContainmentBlocker]
  | fails {phase : SyncPhase} {e : SyncEvent}
      (unproved : phase = .negotiating ∨ phase = .receiving ∨ phase = .verifying)
      : Move phase e .failed [.fail]
  | stops {phase : SyncPhase} {e : SyncEvent} (kind : e.kind = .stopRequested)
      : Move phase e .idle []

theorem Move.idle_still {e : SyncEvent} {actions : List SyncAction}
    (move : Move .idle e .idle actions) : actions = [] := by
  cases move with
  | stay _ _ still => exact still rfl
  | stops _ => rfl

theorem move_manifest {phase : SyncPhase} (e : SyncEvent)
    (before : phase = .idle ∨ phase = .negotiating)
    : Move phase e (decisionManifest e .negotiating phase).next
        (decisionManifest e .negotiating phase).actions := by
  rw [decisionManifest]
  split
  · rcases before with rfl | rfl
    · exact .opens (by simp [decisionAct1])
    · exact .stay (by simp [decisionAct1]) (fun _ => rfl) (fun idle => by cases idle)
  · exact .stay List.not_mem_nil (fun offered => by cases offered) (fun _ => rfl)

theorem reducePhase_move (phase : SyncPhase) (e : SyncEvent)
    : Move phase e (reducePhase phase e).next (reducePhase phase e).actions := by
  have noop : ∀ phase, Move phase e phase [] := fun _ =>
    .stay List.not_mem_nil (fun offered => by cases offered) (fun _ => rfl)
  cases phase with
  | idle =>
    rw [reducePhase, reduceIdle]
    split
    · exact .opens List.not_mem_nil
    · exact .opens (by simp [decisionAct1])
    · exact move_manifest e (.inl rfl)
    all_goals exact noop .idle
  | negotiating =>
    rw [reducePhase, reduceNegotiating]
    split
    · exact noop .negotiating
    · exact .stay (by simp [decisionAct1]) (fun _ => rfl) (fun idle => by cases idle)
    · exact move_manifest e (.inr rfl)
    · exact .accepts ‹_›
    all_goals first
      | exact .fails (.inl rfl)
      | exact .stops ‹_›
      | exact noop .negotiating
  | receiving =>
    rw [reducePhase, reduceReceiving]
    split
    all_goals first
      | exact .completes ‹_›
      | exact .fails (.inr (.inl rfl))
      | exact .stops ‹_›
      | exact noop .receiving
      | exact .stay (by simp [decisionAct1]) (by simp [decisionAct1]) (fun idle => by cases idle)
  | verifying =>
    rw [reducePhase, reduceVerifying]
    split
    case h_8 proved =>
      split
      · exact .proves proved ‹_›
      · exact .fails (.inr (.inr rfl))
    all_goals first
      | exact .fails (.inr (.inr rfl))
      | exact .stops ‹_›
      | exact noop .verifying
  | staged =>
    rw [reducePhase, reduceStaged]
    split
    all_goals first
      | exact .contained
      | exact .stops ‹_›
      | exact noop .staged
  | activationContained =>
    rw [reducePhase, reduceActivationContained]
    split
    all_goals first
      | exact .stops ‹_›
      | exact noop .activationContained
      | exact .stay (by simp [decisionContain]) (by simp [decisionContain])
          (fun idle => by cases idle)
  | failed =>
    rw [reducePhase, reduceFailed]
    split
    all_goals first
      | exact .stops ‹_›
      | exact noop .failed

-- Actions

section Actions

variable (e : SyncEvent) (ns : SyncKernelState)

theorem applyActions_frame (actions : List SyncAction)
    : (actions.foldl (applySyncAction e) ns).sessionId = ns.sessionId
      ∧ (actions.foldl (applySyncAction e) ns).phase = ns.phase := by
  induction actions generalizing ns with
  | nil => exact ⟨rfl, rfl⟩
  | cons action actions ih =>
    obtain ⟨session, phase⟩ := ih (applySyncAction e ns action)
    rw [List.foldl_cons, session, phase]
    cases action with
    | applyChunk =>
      rw [applySyncAction]
      split
      · exact ⟨rfl, rfl⟩
      · exact ⟨rfl, rfl⟩
    | _ => exact ⟨rfl, rfl⟩

variable {ns}

theorem applyActions_chunks (actions : List SyncAction)
    (chunks : ns.chunksReceived ≤ ns.chunksTotal)
    : (actions.foldl (applySyncAction e) ns).chunksReceived
        ≤ (actions.foldl (applySyncAction e) ns).chunksTotal := by
  induction actions generalizing ns with
  | nil => exact chunks
  | cons action actions ih =>
    apply ih
    cases action with
    | applyChunk =>
      rw [applySyncAction]
      split
      · rename_i below
        have high := ns.chunksTotal.toNat_lt
        rw [UInt32.lt_iff_toNat_lt] at below
        rw [UInt32.le_iff_toNat_le, UInt32.toNat_add, UInt32.toNat_one,
          Nat.mod_eq_of_lt (Nat.lt_of_le_of_lt below high)]
        exact below
      · exact chunks
    | storeOffer => exact UInt32.zero_le
    | resetOffset => exact UInt32.zero_le
    | _ => exact chunks

theorem applyActions_unproved {actions : List SyncAction} (unstaged : .stageBundle ∉ actions)
    (unproved : ns.proofOk = false)
    : (actions.foldl (applySyncAction e) ns).proofOk = false := by
  induction actions generalizing ns with
  | nil => exact unproved
  | cons action actions ih =>
    rw [List.mem_cons, not_or] at unstaged
    apply ih unstaged.2
    cases action with
    | applyChunk =>
      rw [applySyncAction]
      split
      · exact unproved
      · exact unproved
    | stageBundle => exact absurd rfl unstaged.1
    | storeOffer => rfl
    | _ => exact unproved

theorem applyActions_proved {actions : List SyncAction} (kept : .storeOffer ∉ actions)
    (proved : ns.proofOk = true)
    : (actions.foldl (applySyncAction e) ns).proofOk = true := by
  induction actions generalizing ns with
  | nil => exact proved
  | cons action actions ih =>
    rw [List.mem_cons, not_or] at kept
    apply ih kept.2
    cases action with
    | applyChunk =>
      rw [applySyncAction]
      split
      · exact proved
      · exact proved
    | storeOffer => exact absurd rfl kept.1
    | stageBundle => rfl
    | _ => exact proved

end Actions

-- One step

theorem syncReduce_cases (s : SyncKernelState) (e : SyncEvent)
    : (syncReduce s e).nextState = s
      ∨ (s.sessionId = 0 ∨ e.sessionId = s.sessionId)
        ∧ Move s.phase e (reducePhase s.phase e).next (reducePhase s.phase e).actions
        ∧ (syncReduce s e).nextState = applyState s e (reducePhase s.phase e) := by
  rw [syncReduce]
  split
  · exact .inl rfl
  · rename_i own
    split
    · exact .inl rfl
    · refine .inr ⟨?_, reducePhase_move s.phase e, rfl⟩
      by_cases none : s.sessionId = 0
      · exact .inl none
      · exact .inr (not_not.mp fun foreign => own ⟨none, fun same => foreign same.symm⟩)

/-- What holds of every state, apart from its history. -/
structure Regular (s : SyncKernelState) : Prop where
  idle : s.phase = .idle → s = {}
  session : s.phase ≠ .idle → s.sessionId ≠ 0
  chunks : s.chunksReceived ≤ s.chunksTotal
  proof : s.proofOk = true ↔ s.phase = .staged ∨ s.phase = .activationContained

section Apply

variable {s : SyncKernelState} {e : SyncEvent} {core : SyncDecision}

theorem applyState_eq (going : core.next ≠ .idle)
    : applyState s e core
        = core.actions.foldl (applySyncAction e) (adoptSession s e core.next) := by
  rw [applyState]
  exact if_neg fun ended => going ended.1

theorem adoptSession_going (session : s.sessionId ≠ 0) (next : SyncPhase)
    : adoptSession s e next = { s with phase := next } := by
  rw [adoptSession]
  exact if_neg fun none => session none.1

theorem adoptSession_frame (next : SyncPhase)
    : (adoptSession s e next).phase = next
      ∧ (adoptSession s e next).chunksReceived = s.chunksReceived
      ∧ (adoptSession s e next).chunksTotal = s.chunksTotal
      ∧ (adoptSession s e next).proofOk = s.proofOk := by
  rw [adoptSession]
  split
  · exact ⟨rfl, rfl, rfl, rfl⟩
  · exact ⟨rfl, rfl, rfl, rfl⟩

theorem applyState_phase : (applyState s e core).phase = core.next := by
  by_cases going : core.next = .idle
  · rw [applyState]
    split
    · exact going.symm
    · rw [(applyActions_frame e _ _).2, (adoptSession_frame core.next).1]
  · rw [applyState_eq going, (applyActions_frame e _ _).2, (adoptSession_frame core.next).1]

theorem applyState_session (session : s.sessionId ≠ 0) (going : core.next ≠ .idle)
    : (applyState s e core).sessionId = s.sessionId := by
  rw [applyState_eq going, (applyActions_frame e _ _).1, adoptSession_going session]

theorem applyState_opens (closed : s = {}) (going : core.next ≠ .idle)
    : (applyState s e core).sessionId = e.sessionId := by
  have adopts : (adoptSession s e core.next).sessionId = e.sessionId := by
    rw [adoptSession, closed, if_pos ⟨rfl, rfl, going⟩]
  rw [applyState_eq going, (applyActions_frame e _ _).1, adopts]

theorem applyState_proof (regular : Regular s)
    (move : Move s.phase e core.next core.actions) (going : core.next ≠ .idle)
    : (applyState s e core).proofOk = true
        ↔ core.next = .staged ∨ core.next = .activationContained := by
  rw [applyState_eq going]
  have kept := (@adoptSession_frame s e core.next).2.2.2
  have before := regular.proof
  generalize adoptSession s e core.next = ns at kept
  generalize s.phase = phase at move before
  generalize core.next = next at move going
  generalize core.actions = actions at move
  have unproved : .stageBundle ∉ actions → s.proofOk = false → next ≠ .staged →
      next ≠ .activationContained →
      ((actions.foldl (applySyncAction e) ns).proofOk = true
        ↔ next = .staged ∨ next = .activationContained) := by
    intro unstaged unproved notStaged notContained
    simp [applyActions_unproved e unstaged (kept.trans unproved), notStaged, notContained]
  cases move with
  | stay unstaged offers _ =>
    cases proved : s.proofOk with
    | true =>
      have late := before.mp proved
      have keeps : .storeOffer ∉ actions := by
        intro offer
        rw [offers offer] at late
        simp at late
      simp [applyActions_proved e keeps (kept.trans proved), late]
    | false =>
      simp only [proved, Bool.false_eq_true, false_iff, not_or] at before
      exact unproved unstaged proved before.1 before.2
  | opens unstaged =>
    refine unproved unstaged ?_ (by simp) (by simp)
    simpa using before
  | accepts _ => exact unproved (by simp) (by simpa using before) (by simp) (by simp)
  | completes _ => exact unproved (by simp) (by simpa using before) (by simp) (by simp)
  | proves _ _ => simp [applySyncAction]
  | contained =>
    have proved : s.proofOk = true := before.mpr (.inl rfl)
    simp [applySyncAction, kept, proved]
  | fails early =>
    refine unproved (by simp) ?_ (by simp) (by simp)
    rcases early with rfl | rfl | rfl
    all_goals simpa using before
  | stops _ => exact absurd rfl going

end Apply

theorem Regular.step {s : SyncKernelState} (regular : Regular s) {e : SyncEvent}
    (named : s.phase = .idle → (syncReduce s e).nextState.phase ≠ .idle → e.sessionId ≠ 0)
    : Regular (syncReduce s e).nextState := by
  rcases syncReduce_cases s e with same | ⟨-, move, next⟩
  · rwa [same]
  · rw [next] at named ⊢
    rw [applyState_phase] at named
    by_cases going : (reducePhase s.phase e).next = .idle
    · have empty : applyState s e (reducePhase s.phase e) = {} := by
        by_cases idle : s.phase = .idle
        · rw [going, idle] at move
          rw [applyState, idle, move.idle_still, adoptSession, idle]
          rw [idle] at going
          simp [going, regular.idle idle]
        · rw [applyState]
          exact if_pos ⟨going, idle⟩
      rw [empty]
      exact ⟨fun _ => rfl, fun open_ => absurd rfl open_, UInt32.le_refl _, by simp⟩
    · constructor
      · intro idle
        rw [applyState_phase] at idle
        exact absurd idle going
      · intro _
        by_cases idle : s.phase = .idle
        · rw [applyState_opens (regular.idle idle) going]
          exact named idle going
        · rw [applyState_session (regular.session idle) going]
          exact regular.session idle
      · rw [applyState_eq going]
        apply applyActions_chunks
        obtain ⟨-, received, total, -⟩ := @adoptSession_frame s e (reducePhase s.phase e).next
        rw [received, total]
        exact regular.chunks
      · rw [applyState_phase]
        exact applyState_proof regular move going

-- Histories

/-- The kinds of events that a session has behind it in a phase. -/
def SyncPhase.behind : SyncPhase → List SyncEventKind
  | .idle | .negotiating | .failed => []
  | .receiving => [.offerAccepted]
  | .verifying => [.offerAccepted, .receiveComplete]
  | .staged | .activationContained => [.offerAccepted, .receiveComplete, .proofVerified]

/-- The event is of the session and of the kind, and its proof is good if it is to have one. -/
structure Counts (session : UInt64) (e : SyncEvent) (needed : SyncEventKind) : Prop where
  session : e.sessionId = session
  kind : e.kind = needed
  good : needed = .proofVerified → e.proofOk = true

/-- Among the events are those that the phase needs, in order. -/
def Passed (session : UInt64) (phase : SyncPhase) (events : List SyncEvent) : Prop :=
  ∃ seen, seen.Sublist events ∧ List.Forall₂ (Counts session) seen phase.behind

/-- Every event that takes the run out of the idle phase names a session. -/
def OpeningsNamed : SyncKernelState → List SyncEvent → Prop
  | _, [] => True
  | s, e :: rest =>
    (s.phase = .idle → (syncReduce s e).nextState.phase ≠ .idle → e.sessionId ≠ 0)
      ∧ OpeningsNamed (syncReduce s e).nextState rest

/-- The state that events lead to from the start. -/
def stateAfter (events : List SyncEvent) : SyncKernelState := runEvents {} events

/-- The run was idle before the opening event, and never since. -/
structure CurrentSession (events before : List SyncEvent) (opening : SyncEvent)
    (later : List SyncEvent) : Prop where
  split : events = before ++ opening :: later
  closed : (stateAfter before).phase = .idle
  going : ∀ sofar, sofar <+: later → (stateAfter (before ++ opening :: sofar)).phase ≠ .idle

section Histories

variable {session : UInt64} {phase next : SyncPhase} {events : List SyncEvent} {e : SyncEvent}

theorem Passed.more (passed : Passed session phase events) (same : next.behind = phase.behind)
    : Passed session next (events ++ [e]) := by
  obtain ⟨seen, among, counts⟩ := passed
  exact ⟨seen, among.trans (List.sublist_append_left events [e]), same ▸ counts⟩

theorem Passed.another (passed : Passed session phase events) {kind : SyncEventKind}
    (needs : next.behind = phase.behind ++ [kind]) (counts : Counts session e kind)
    : Passed session next (events ++ [e]) := by
  obtain ⟨seen, among, earlier⟩ := passed
  refine ⟨seen ++ [e], among.append_right [e], ?_⟩
  rw [needs]
  exact List.rel_append earlier (.cons counts .nil)

theorem Passed.move (passed : Passed session phase events) (own : e.sessionId = session)
    {actions : List SyncAction} (move : Move phase e next actions)
    : Passed session next (events ++ [e]) := by
  cases move with
  | stay _ _ _ => exact passed.more rfl
  | opens _ => exact passed.more rfl
  | accepts kind => exact passed.another rfl ⟨own, kind, fun proof => by cases proof⟩
  | completes kind => exact passed.another rfl ⟨own, kind, fun proof => by cases proof⟩
  | proves kind good => exact passed.another rfl ⟨own, kind, fun _ => good⟩
  | contained => exact passed.more rfl
  | fails _ => exact ⟨[], List.nil_sublist _, .nil⟩
  | stops _ => exact ⟨[], List.nil_sublist _, .nil⟩

theorem Move.behind_of_idle {actions : List SyncAction} (move : Move .idle e next actions)
    : next.behind = [] := by
  cases move with
  | stay _ _ _ => rfl
  | opens _ => rfl
  | fails _ => rfl
  | stops _ => rfl

theorem stateAfter_append (events : List SyncEvent) (e : SyncEvent)
    : stateAfter (events ++ [e]) = (syncReduce (stateAfter events) e).nextState := by
  rw [stateAfter, runEvents, List.foldl_append]
  rfl

theorem openingsNamed_append {s : SyncKernelState}
    : OpeningsNamed s (events ++ [e])
        ↔ OpeningsNamed s events
          ∧ ((runEvents s events).phase = .idle →
            (syncReduce (runEvents s events) e).nextState.phase ≠ .idle → e.sessionId ≠ 0) := by
  induction events generalizing s with
  | nil => simp [OpeningsNamed, runEvents]
  | cons first events ih =>
    rw [List.cons_append, OpeningsNamed, OpeningsNamed, ih, and_assoc]
    rfl

theorem regular_after (named : OpeningsNamed {} events) : Regular (stateAfter events) := by
  induction events using List.reverseRecOn with
  | nil => exact ⟨fun _ => rfl, fun going => absurd rfl going, UInt32.le_refl _, by simp [stateAfter,
      runEvents]⟩
  | append_singleton events e ih =>
    obtain ⟨earlier, opens⟩ := openingsNamed_append.mp named
    rw [stateAfter_append]
    exact (ih earlier).step opens

theorem CurrentSession.more {before later : List SyncEvent} {opening : SyncEvent}
    (current : CurrentSession events before opening later)
    (going : (stateAfter (events ++ [e])).phase ≠ .idle)
    : CurrentSession (events ++ [e]) before opening (later ++ [e]) := by
  have split : events ++ [e] = before ++ opening :: (later ++ [e]) := by
    rw [current.split, List.append_assoc, List.cons_append]
  refine ⟨split, current.closed, ?_⟩
  intro sofar among
  rcases List.prefix_concat_iff.mp among with whole | part
  · rwa [whole, ← split]
  · exact current.going sofar part

theorem session_after (named : OpeningsNamed {} events) (open_ : (stateAfter events).phase ≠ .idle)
    : ∃ before opening later, CurrentSession events before opening later
        ∧ Passed (stateAfter events).sessionId (stateAfter events).phase later := by
  induction events using List.reverseRecOn with
  | nil => exact absurd rfl open_
  | append_singleton events e ih =>
    obtain ⟨earlier, opens⟩ := openingsNamed_append.mp named
    have regular := regular_after earlier
    have after := stateAfter_append events e
    by_cases idle : (stateAfter events).phase = .idle
    · refine ⟨events, e, [], ⟨rfl, idle, ?_⟩, ?_⟩
      · intro sofar among
        rwa [List.prefix_nil.mp among]
      · rw [after]
        rw [after] at open_
        rcases syncReduce_cases (stateAfter events) e with same | ⟨-, move, next⟩
        · rw [same] at open_
          exact absurd idle open_
        · rw [next, applyState_phase]
          rw [idle] at move ⊢
          exact ⟨[], List.nil_sublist _, move.behind_of_idle ▸ .nil⟩
    · obtain ⟨before, opening, later, current, passed⟩ := ih earlier idle
      refine ⟨before, opening, later ++ [e], current.more open_, ?_⟩
      rw [after]
      rw [after] at open_
      rcases syncReduce_cases (stateAfter events) e with same | ⟨own, move, next⟩
      · rw [same]
        exact passed.more rfl
      · have session := regular.session idle
        rw [next, applyState_phase] at open_ ⊢
        rw [applyState_session session open_]
        exact passed.move (own.resolve_left session) move

end Histories

-- Foreign events

theorem syncReduce_foreign {s : SyncKernelState} {e : SyncEvent} (session : s.sessionId ≠ 0)
    (foreign : e.sessionId ≠ s.sessionId) : syncReduce s e = transitionInert s := by
  rw [syncReduce]
  exact if_pos ⟨session, fun same => foreign same.symm⟩

theorem session_until_stop {s : SyncKernelState} (session : s.sessionId ≠ 0)
    (going : s.phase ≠ .idle) {more : List SyncEvent}
    (unstopped : ∀ e ∈ more, e.sessionId = s.sessionId → e.kind ≠ .stopRequested)
    : (runEvents s more).sessionId = s.sessionId ∧ (runEvents s more).phase ≠ .idle := by
  induction more generalizing s with
  | nil => exact ⟨rfl, going⟩
  | cons e more ih =>
    have kept : (syncReduce s e).nextState.sessionId = s.sessionId
        ∧ (syncReduce s e).nextState.phase ≠ .idle := by
      rcases syncReduce_cases s e with same | ⟨own, move, next⟩
      · rw [same]
        exact ⟨rfl, going⟩
      · have goes : (reducePhase s.phase e).next ≠ .idle := by
          intro idle
          rw [idle] at move
          have running := unstopped e List.mem_cons_self (own.resolve_left session)
          generalize s.phase = phase at move going
          generalize (reducePhase _ e).actions = actions at move
          cases move with
          | stay _ _ _ => exact going rfl
          | stops kind => exact running kind
        rw [next, applyState_phase]
        exact ⟨applyState_session session goes, goes⟩
    obtain ⟨same, phase⟩ := kept
    have rest := ih (by rwa [same]) phase fun other member =>
      same ▸ unstopped other (List.mem_cons_of_mem e member)
    rw [same] at rest
    exact rest

/-- No phase is skipped, the proof flag and the counters follow the phase, and until a session is
stopped no event of another one has an effect. -/
theorem sync_sessions_in_order {events : List SyncEvent} (named : OpeningsNamed {} events)
    : ((stateAfter events).phase = .staged ∨ (stateAfter events).phase = .activationContained →
        ∃ before opening later accepted complete proof,
          CurrentSession events before opening later
          ∧ List.Sublist [accepted, complete, proof] later
          ∧ Counts (stateAfter events).sessionId accepted .offerAccepted
          ∧ Counts (stateAfter events).sessionId complete .receiveComplete
          ∧ Counts (stateAfter events).sessionId proof .proofVerified)
      ∧ ((stateAfter events).proofOk = true
          ↔ (stateAfter events).phase = .staged ∨ (stateAfter events).phase = .activationContained)
      ∧ (stateAfter events).chunksReceived ≤ (stateAfter events).chunksTotal
      ∧ ((stateAfter events).phase ≠ .idle →
          ∀ more : List SyncEvent,
            (∀ e ∈ more, e.sessionId = (stateAfter events).sessionId → e.kind ≠ .stopRequested) →
            ∀ e, e.sessionId ≠ (stateAfter events).sessionId →
              syncReduce (runEvents (stateAfter events) more) e
                = transitionInert (runEvents (stateAfter events) more)) := by
  have regular := regular_after named
  refine ⟨?_, regular.proof, regular.chunks, ?_⟩
  · intro proved
    have open_ : (stateAfter events).phase ≠ .idle := by
      rcases proved with phase | phase
      all_goals simp [phase]
    obtain ⟨before, opening, later, current, seen, among, counts⟩ := session_after named open_
    have needs : (stateAfter events).phase.behind
        = [.offerAccepted, .receiveComplete, .proofVerified] := by
      rcases proved with phase | phase
      all_goals rw [phase, SyncPhase.behind]
    rw [needs] at counts
    rcases counts with - | ⟨accepted, - | ⟨complete, - | ⟨proof, - | -⟩⟩⟩
    exact ⟨before, opening, later, _, _, _, current, among, accepted, complete, proof⟩
  · intro open_ more unstopped e foreign
    obtain ⟨same, -⟩ := session_until_stop (regular.session open_) open_ unstopped
    apply syncReduce_foreign
    · rw [same]
      exact regular.session open_
    · rwa [same]

/-- A session with an event of another one in between. -/
def sampleSession : List SyncEvent :=
  [{ sessionId := 7, kind := .offerReceived, chunksTotal := 1 },
    { sessionId := 7, kind := .offerAccepted },
    { sessionId := 9, kind := .stopRequested },
    { sessionId := 7, kind := .chunkReceived },
    { sessionId := 7, kind := .receiveComplete },
    { sessionId := 7, kind := .proofVerified, proofOk := true }]

theorem sync_sessions_in_order_sample
    : (stateAfter sampleSession).phase = .staged
      ∧ (∃ before opening later accepted complete proof,
          CurrentSession sampleSession before opening later
          ∧ List.Sublist [accepted, complete, proof] later
          ∧ Counts 7 accepted .offerAccepted
          ∧ Counts 7 complete .receiveComplete
          ∧ Counts 7 proof .proofVerified)
      ∧ syncReduce (stateAfter sampleSession) { sessionId := 9, kind := .start }
        = transitionInert (stateAfter sampleSession) := by
  have named : OpeningsNamed {} sampleSession :=
    ⟨by decide, by decide, by decide, by decide, by decide, by decide, trivial⟩
  have phase : (stateAfter sampleSession).phase = .staged := by decide
  obtain ⟨history, -, -, foreign⟩ := sync_sessions_in_order named
  refine ⟨phase, history (.inl phase), ?_⟩
  exact foreign (by decide) [] (fun e among => by cases among) _ (by decide)

end Z23.Sync
