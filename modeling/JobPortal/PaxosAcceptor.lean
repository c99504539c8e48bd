import JobPortal.PaxosPeer
import JobPortal.PbftSample
import JobPortal.Histories

/-! The acceptor's side of a Paxos peer. Promises bind it, and report what it has accepted,
as long as no Reset of its own Propose calls finds anything to forget. -/
namespace JobPortal

open Runs Histories

/-- Neither a promise nor an accept. -/
def PaxosMessage.Silent : PaxosMessage → Prop
  | .promise _ _ => False
  | .accept _ => False
  | _ => True

/-- The promise reports the accept with the highest ID of its step, if there is one. The
zero value is reported as no value. -/
def ReportsHighest (past : List PaxosMessage) (p : PaxosPromiseMessage) : Prop :=
  (p.acceptedID = 0 ∧ p.acceptedValue = none ∧ ∀ a, .accept a ∈ past → a.step ≠ p.step) ∨
    (.accept ⟨p.step, p.acceptedID, p.acceptedValue.getD .zero⟩ ∈ past ∧
      ∀ a, .accept a ∈ past → a.step = p.step → a.id ≤ p.acceptedID)

/-- What the acceptor may say after what it has said. -/
def AcceptorRule (past : List PaxosMessage) : PaxosMessage → Prop
  | .promise _ p => ReportsHighest past p ∧
      (∀ r p', .promise r p' ∈ past → p'.step = p.step → p'.id < p.id) ∧
      ∀ a, .accept a ∈ past → a.step = p.step → a.id < p.id
  | .accept a => (∀ r p, .promise r p ∈ past → p.step = a.step → p.id ≤ a.id) ∧
      ∀ a', .accept a' ∈ past → a'.step = a.step → a'.id ≤ a.id
  | _ => True

theorem AcceptorRule.of_silent {m : PaxosMessage} (h : m.Silent) (past : List PaxosMessage) :
    AcceptorRule past m := by
  cases m with
  | promise => exact h.elim
  | accept => exact h.elim
  | prepare => trivial
  | propose => trivial
  | tlc => trivial

theorem PaxosNode.CaughtUp.silent {n : PaxosNode} {r : PaxosNode × List PaxosMessage}
    (h : n.CaughtUp r) : ∀ m ∈ r.2, m.Silent := by
  intro m hm
  obtain ⟨step, tlc, _, rfl⟩ := h.sent m hm
  trivial

/-- The acceptor's memory agrees with what it has said in the current step. -/
structure Acceptor (s : SafePaxos) (sent : List PaxosMessage) : Prop where
  log : EachAfter AcceptorRule sent
  promises : ∀ r p, .promise r p ∈ sent → p.step ≤ s.clock ∧ (p.step = s.clock → p.id ≤ s.maxID)
  accepts : ∀ a, .accept a ∈ sent → a.step ≤ s.clock ∧ (a.step = s.clock → a.id ≤ s.acceptedID)
  accepted : s.acceptedID ≤ s.maxID
  latest : (s.acceptedID = 0 ∧ s.acceptedValue = .zero ∧
      ∀ a, .accept a ∈ sent → a.step ≠ s.clock) ∨
    .accept ⟨s.clock, s.acceptedID, s.acceptedValue⟩ ∈ sent

/-- The part of the state the acceptor works with. -/
structure SameAcceptor (s t : SafePaxos) : Prop where
  clock : t.clock = s.clock
  maxID : t.maxID = s.maxID
  acceptedID : t.acceptedID = s.acceptedID
  acceptedValue : t.acceptedValue = s.acceptedValue

namespace Acceptor

variable {s t : SafePaxos} {sent ms : List PaxosMessage}

theorem mem_of_silent {m : PaxosMessage} (hms : ∀ m ∈ ms, m.Silent) (hm : m ∈ sent ++ ms)
    (hsay : ¬ m.Silent) : m ∈ sent := by
  rcases List.mem_append.mp hm with h | h
  · exact h
  · exact absurd (hms m h) hsay

theorem same (h : Acceptor s sent) (hst : SameAcceptor s t) (hms : ∀ m ∈ ms, m.Silent) :
    Acceptor t (sent ++ ms) where
  log := h.log.append fun m hm past => .of_silent (hms m hm) past
  promises r p hp := by
    rw [hst.clock, hst.maxID]
    exact h.promises r p (mem_of_silent hms hp id)
  accepts a ha := by
    rw [hst.clock, hst.acceptedID]
    exact h.accepts a (mem_of_silent hms ha id)
  accepted := by rw [hst.acceptedID, hst.maxID]; exact h.accepted
  latest := by
    rw [hst.clock, hst.acceptedID, hst.acceptedValue]
    rcases h.latest with ⟨hid, hval, hnone⟩ | hmem
    · exact .inl ⟨hid, hval, fun a ha => hnone a (mem_of_silent hms ha id)⟩
    · exact .inr (List.mem_append_left _ hmem)

theorem moves (h : Acceptor s sent) (hst : s.Moves t) (hms : ∀ m ∈ ms, m.Silent) :
    Acceptor t (sent ++ ms) := by
  rcases hst with ⟨hclock, hround⟩ | ⟨hclock, hclear⟩
  · exact h.same ⟨hclock, hround.maxID, hround.acceptedID, hround.acceptedValue⟩ hms
  · refine ⟨h.log.append fun m hm past => .of_silent (hms m hm) past, ?_, ?_, ?_, .inl ?_⟩
    · intro r p hp
      have := (h.promises r p (mem_of_silent hms hp id)).1
      exact ⟨by omega, fun heq => by omega⟩
    · intro a ha
      have := (h.accepts a (mem_of_silent hms ha id)).1
      exact ⟨by omega, fun heq => by omega⟩
    · rw [hclear.acceptedID]
      exact Nat.zero_le _
    · refine ⟨hclear.acceptedID, hclear.acceptedValue, fun a ha => ?_⟩
      have := (h.accepts a (mem_of_silent hms ha id)).1
      omega

theorem reportsHighest (h : Acceptor s sent) {m : PaxosPrepareMessage} (hstep : m.step = s.clock) :
    ReportsHighest sent ⟨m.step, m.id, s.acceptedID,
      if s.acceptedValue = .zero then none else some s.acceptedValue⟩ := by
  rcases h.latest with ⟨hid, hval, hnone⟩ | hmem
  · exact .inl ⟨hid, if_pos hval, fun a ha => by rw [hstep]; exact hnone a ha⟩
  · refine .inr ⟨?_, fun a ha heq => (h.accepts a ha).2 (heq.trans hstep)⟩
    have hval : (if s.acceptedValue = .zero then none else some s.acceptedValue).getD .zero =
        s.acceptedValue := by
      split_ifs with hzero
      · exact hzero.symm
      · rfl
    rw [hstep, hval]
    exact hmem

theorem prepare (h : Acceptor s sent) {m : PaxosPrepareMessage} (hstep : m.step = s.clock)
    (hid : s.maxID < m.id) :
    Acceptor { s with maxID := m.id }
      (sent ++ [PaxosNode.responsePrepare m s.acceptedValue s.acceptedID]) where
  log := by
    refine h.log.concat ⟨h.reportsHighest hstep, fun r p hp heq => ?_, fun a ha heq => ?_⟩
    · exact ((h.promises r p hp).2 (heq.trans hstep)).trans_lt hid
    · exact (((h.accepts a ha).2 (heq.trans hstep)).trans h.accepted).trans_lt hid
  promises r p hp := by
    rcases List.mem_append.mp hp with hp | hp
    · have := h.promises r p hp
      exact ⟨this.1, fun heq => (this.2 heq).trans hid.le⟩
    · obtain ⟨_, rfl⟩ := PaxosMessage.promise.inj (List.mem_singleton.mp hp)
      exact ⟨hstep.le, fun _ => le_rfl⟩
  accepts a ha := by
    rcases List.mem_append.mp ha with ha | ha
    · exact h.accepts a ha
    · cases List.mem_singleton.mp ha
  accepted := h.accepted.trans hid.le
  latest := by
    rcases h.latest with ⟨hid', hval, hnone⟩ | hmem
    · refine .inl ⟨hid', hval, fun a ha => ?_⟩
      rcases List.mem_append.mp ha with ha | ha
      · exact hnone a ha
      · cases List.mem_singleton.mp ha
    · exact .inr (List.mem_append_left _ hmem)

theorem propose (h : Acceptor s sent) {m : PaxosProposeMessage} (hstep : m.step = s.clock)
    (hid : m.id = s.maxID) :
    Acceptor { s with acceptedValue := m.value, acceptedID := m.id }
      (sent ++ [.accept ⟨m.step, m.id, m.value⟩]) where
  log := by
    refine h.log.concat ⟨fun r p hp heq => ?_, fun a ha heq => ?_⟩
    · exact ((h.promises r p hp).2 (heq.trans hstep)).trans_eq hid.symm
    · exact (((h.accepts a ha).2 (heq.trans hstep)).trans h.accepted).trans_eq hid.symm
  promises r p hp := by
    rcases List.mem_append.mp hp with hp | hp
    · exact h.promises r p hp
    · cases List.mem_singleton.mp hp
  accepts a ha := by
    rcases List.mem_append.mp ha with ha | ha
    · have := h.accepts a ha
      exact ⟨this.1, fun heq => ((this.2 heq).trans h.accepted).trans_eq hid.symm⟩
    · obtain rfl := PaxosMessage.accept.inj (List.mem_singleton.mp ha)
      exact ⟨hstep.le, fun _ => le_rfl⟩
  accepted := hid.le
  latest := by
    refine .inr (List.mem_append_right _ (List.mem_singleton.mpr ?_))
    rw [hstep]

/-- No handler breaks what the acceptor has promised. -/
theorem effect {P : PaxosPrimitives} {n : PaxosNode} {m : PaxosMessage}
    {r : PaxosNode × List PaxosMessage} (h : Acceptor n.paxos sent) (heff : n.Effect P m r) :
    Acceptor r.1.paxos (sent ++ r.2) := by
  cases heff with
  | prepare step id => exact h.prepare step id
  | propose step id => exact h.propose step id
  | idle => exact h.same ⟨rfl, rfl, rfl, rfl⟩ (by simp)
  | promise => exact h.same ⟨rfl, rfl, rfl, rfl⟩ (by simp)
  | prepared => exact h.same ⟨rfl, rfl, rfl, rfl⟩ (by simp)
  | acceptedBefore => exact h.same ⟨rfl, rfl, rfl, rfl⟩ (by simp [PaxosMessage.Silent])
  | accept => exact h.same ⟨rfl, rfl, rfl, rfl⟩ (by simp)
  | accepted => exact h.same ⟨rfl, rfl, rfl, rfl⟩ (by simp [PaxosMessage.Silent])
  | tlc _ caught => exact h.moves caught.moves.of_tlcs caught.silent

end Acceptor

/-- No handler turns MaxID back within a step. -/
theorem PaxosNode.Effect.maxID {P : PaxosPrimitives} {n : PaxosNode} {m : PaxosMessage}
    {r : PaxosNode × List PaxosMessage} (h : n.Effect P m r) :
    n.paxos.clock ≤ r.1.paxos.clock ∧
      (r.1.paxos.clock = n.paxos.clock → n.paxos.maxID ≤ r.1.paxos.maxID) := by
  cases h with
  | tlc _ caught =>
    rcases caught.moves.of_tlcs with ⟨hclock, hround⟩ | ⟨hclock, _⟩
    · exact ⟨hclock.ge, fun _ => hround.maxID.ge⟩
    · exact ⟨hclock.le, fun heq => by omega⟩
  | prepare _ id => exact ⟨le_rfl, fun _ => id.le⟩
  | idle => exact ⟨le_rfl, fun _ => le_rfl⟩
  | propose => exact ⟨le_rfl, fun _ => le_rfl⟩
  | promise => exact ⟨le_rfl, fun _ => le_rfl⟩
  | prepared => exact ⟨le_rfl, fun _ => le_rfl⟩
  | acceptedBefore => exact ⟨le_rfl, fun _ => le_rfl⟩
  | accept => exact ⟨le_rfl, fun _ => le_rfl⟩
  | accepted => exact ⟨le_rfl, fun _ => le_rfl⟩

namespace PaxosPeer

/-- The acceptor has nothing to lose: a Reset finds MaxID 0 and no accepted value. -/
def ForgetsNothing (p : PaxosPeer) : PaxosEvent → Prop
  | .reset _ => p.node.paxos.maxID = 0 ∧ p.node.paxos.acceptedValue = .zero
  | _ => True

instance (p : PaxosPeer) : (e : PaxosEvent) → Decidable (p.ForgetsNothing e)
  | .reset _ => inferInstanceAs (Decidable (_ ∧ _))
  | .receive _ | .tag .. | .getStep _ | .promised _ | .accepted _ | .timeout _ | .consensus _ =>
    isTrue trivial

variable {P : PaxosPrimitives} {p q : PaxosPeer} {e : PaxosEvent}

theorem acceptor_step (h : Acceptor p.node.paxos p.sent) (hok : p.ForgetsNothing e)
    (hstep : p.step P e = some q) : Acceptor q.node.paxos q.sent := by
  have unchanged {ms : List PaxosMessage} (hms : ∀ m ∈ ms, m.Silent) :
      Acceptor p.node.paxos (p.sent ++ ms) := h.same ⟨rfl, rfl, rfl, rfl⟩ hms
  cases step_effect P hstep with
  | receive _ effect => exact h.effect effect
  | @reset _ call =>
    obtain ⟨hmax, hval⟩ := hok
    have hid : p.node.paxos.acceptedID = 0 := by
      have := h.accepted
      omega
    have hsame : SameAcceptor p.node.paxos (p.node.paxos.reset call.proposedVal) :=
      ⟨rfl, hmax.symm, hid.symm, hval.symm⟩
    have hacceptor : Acceptor (p.node.paxos.reset call.proposedVal) (p.sent ++ []) :=
      h.same hsame (by simp)
    rwa [List.append_nil] at hacceptor
  | tag => exact h
  | getStep => exact unchanged (by simp [PaxosMessage.Silent])
  | promised => exact unchanged (by simp [PaxosMessage.Silent])
  | accepted => exact h
  | timeout => exact h
  | consensus => exact h

theorem acceptor_of_run {conf : PaxosConfig} {es : List PaxosEvent}
    (h : Run (step P) ForgetsNothing (newPaxosPeer conf) es p) :
    Acceptor p.node.paxos p.sent := by
  refine h.invariant (I := fun p => Acceptor p.node.paxos p.sent) ?_ fun hp hok hstep =>
    acceptor_step hp hok hstep
  exact ⟨eachAfter_nil, by simp [newPaxosPeer], by simp [newPaxosPeer], le_rfl,
    .inl ⟨rfl, rfl, by simp [newPaxosPeer]⟩⟩

/-- MaxID never decreases while the clock stands still. -/
theorem maxID_step (hok : p.ForgetsNothing e) (hstep : p.step P e = some q) :
    p.node.paxos.clock ≤ q.node.paxos.clock ∧
      (q.node.paxos.clock = p.node.paxos.clock → p.node.paxos.maxID ≤ q.node.paxos.maxID) := by
  cases step_effect P hstep with
  | receive _ effect => exact effect.maxID
  | reset => exact ⟨le_rfl, fun _ => hok.1.le⟩
  | tag => exact ⟨le_rfl, fun _ => le_rfl⟩
  | getStep => exact ⟨le_rfl, fun _ => le_rfl⟩
  | promised => exact ⟨le_rfl, fun _ => le_rfl⟩
  | accepted => exact ⟨le_rfl, fun _ => le_rfl⟩
  | timeout => exact ⟨le_rfl, fun _ => le_rfl⟩
  | consensus => exact ⟨le_rfl, fun _ => le_rfl⟩

theorem maxID_run {es : List PaxosEvent} (h : Run (step P) ForgetsNothing p es q) :
    p.node.paxos.clock ≤ q.node.paxos.clock ∧
      (q.node.paxos.clock = p.node.paxos.clock → p.node.paxos.maxID ≤ q.node.paxos.maxID) := by
  induction h with
  | nil => exact ⟨le_rfl, fun _ => le_rfl⟩
  | snoc _ meets enabled ih =>
    obtain ⟨hclock, hmax⟩ := maxID_step meets enabled
    exact ⟨ih.1.trans hclock, fun heq => (ih.2 (by omega)).trans (hmax (by omega))⟩

/-- The acceptor's contract over a piece of a run from `p` to `q`: MaxID does not decrease
within a step, no accept of a step comes after a promise with a higher ID, and every promise
reports the highest accept of its step. -/
structure KeepsPromises (p q : PaxosPeer) : Prop where
  maxID : q.node.paxos.clock = p.node.paxos.clock → p.node.paxos.maxID ≤ q.node.paxos.maxID
  accepts : ∀ past r m mid a rest,
    q.sent = past ++ .promise r m :: (mid ++ .accept a :: rest) → a.step = m.step → m.id ≤ a.id
  reports : ∀ past r m rest, q.sent = past ++ .promise r m :: rest → ReportsHighest past m

theorem promises_kept {conf : PaxosConfig} {es fs : List PaxosEvent}
    (h : Run (step P) ForgetsNothing (newPaxosPeer conf) es p)
    (g : Run (step P) ForgetsNothing p fs q) : KeepsPromises p q where
  maxID := (maxID_run g).2
  accepts past r m mid a rest heq hstep := by
    have hlog := (acceptor_of_run (h.append g)).log
    have hrule := hlog (past ++ .promise r m :: mid) (.accept a) rest (by simp [heq])
    exact hrule.1 r m (by simp) hstep.symm
  reports past r m rest heq := ((acceptor_of_run (h.append g)).log past _ rest heq).1

end PaxosPeer

namespace PaxosSample

open Sample (field text)

def primitives : PaxosPrimitives where
  sha256 bs := (bs ++ List.replicate 32 0).take 32
  marshalBlock b := field (List.replicate b.index 0) ++ (field b.hash ++ (text b.value.uniqID ++
    (text b.value.filename ++ (text b.value.metahash ++ field b.prevHash))))

def conf (addr : String) (paxosID : ℕ) : PaxosConfig :=
  { myAddr := addr, paxosID := paxosID, totalPeers := 3 }

/-- Node A answers a Prepare of B in round 1 and accepts its value. A Tag call is about to
propose a value of its own. -/
def bound : List PaxosEvent :=
  [.tag "x" "f" "m", .receive ⟨"B", 0, .prepare ⟨0, 5, "B"⟩⟩,
    .receive ⟨"B", 1, .propose ⟨0, 5, ⟨"y", "g", "n"⟩⟩⟩]

def forgotten : List PaxosEvent :=
  [.reset 0, .receive ⟨"C", 0, .prepare ⟨0, 3, "C"⟩⟩,
    .receive ⟨"C", 1, .propose ⟨0, 3, ⟨"z", "h", "k"⟩⟩⟩]

theorem bound_isSome :
    (exec (PaxosPeer.step primitives) (newPaxosPeer (conf "A" 1)) bound).isSome := by
  decide

def boundPeer : PaxosPeer :=
  (exec (PaxosPeer.step primitives) (newPaxosPeer (conf "A" 1)) bound).get bound_isSome

theorem forgotten_isSome :
    (exec (PaxosPeer.step primitives) boundPeer forgotten).isSome := by
  decide

def forgottenPeer : PaxosPeer :=
  (exec (PaxosPeer.step primitives) boundPeer forgotten).get forgotten_isSome

theorem forgottenPeer_sent : forgottenPeer.sent =
    [.promise "B" ⟨0, 5, 0, none⟩, .accept ⟨0, 5, ⟨"y", "g", "n"⟩⟩,
      .promise "C" ⟨0, 3, 0, none⟩, .accept ⟨0, 3, ⟨"z", "h", "k"⟩⟩] := by
  decide

/-- All three parts of the contract break. -/
theorem promise_counterexample :
    AnyRun (PaxosPeer.step primitives) (newPaxosPeer (conf "A" 1)) bound boundPeer ∧
      AnyRun (PaxosPeer.step primitives) boundPeer forgotten forgottenPeer ∧
      (forgottenPeer.node.paxos.clock = boundPeer.node.paxos.clock ∧
        forgottenPeer.node.paxos.maxID < boundPeer.node.paxos.maxID) ∧
      (∃ past r m mid a rest, forgottenPeer.sent =
        past ++ .promise r m :: (mid ++ .accept a :: rest) ∧ a.step = m.step ∧ a.id < m.id) ∧
      ∃ past r m rest, forgottenPeer.sent = past ++ .promise r m :: rest ∧
        ¬ ReportsHighest past m := by
  refine ⟨run_exec_get _, run_exec_get _, by decide, ?_, ?_⟩
  · rw [forgottenPeer_sent]
    exact ⟨[], "B", ⟨0, 5, 0, none⟩, [.accept ⟨0, 5, ⟨"y", "g", "n"⟩⟩, .promise "C" ⟨0, 3, 0, none⟩],
      ⟨0, 3, ⟨"z", "h", "k"⟩⟩, [], rfl, rfl, by decide⟩
  · rw [forgottenPeer_sent]
    refine ⟨[.promise "B" ⟨0, 5, 0, none⟩, .accept ⟨0, 5, ⟨"y", "g", "n"⟩⟩], "C", ⟨0, 3, 0, none⟩,
      [.accept ⟨0, 3, ⟨"z", "h", "k"⟩⟩], rfl, ?_⟩
    rintro (⟨_, _, hnone⟩ | ⟨hmem, _⟩)
    · exact hnone ⟨0, 5, ⟨"y", "g", "n"⟩⟩ (by simp) rfl
    · revert hmem
      decide

/-- A call that starts before the first Prepare of the step has nothing to forget. -/
def early : List PaxosEvent :=
  [.tag "x" "f" "m", .reset 0, .getStep 0, .receive ⟨"B", 0, .prepare ⟨0, 5, "B"⟩⟩,
    .receive ⟨"C", 0, .prepare ⟨0, 3, "C"⟩⟩, .receive ⟨"B", 1, .propose ⟨0, 5, ⟨"y", "g", "n"⟩⟩⟩]

def late : List PaxosEvent :=
  [.receive ⟨"C", 1, .prepare ⟨0, 6, "C"⟩⟩, .receive ⟨"B", 2, .propose ⟨0, 5, ⟨"y", "g", "n"⟩⟩⟩]

theorem early_isSome : (exec (guarded (PaxosPeer.step primitives) PaxosPeer.ForgetsNothing)
    (newPaxosPeer (conf "A" 1)) early).isSome := by
  decide

def earlyPeer : PaxosPeer :=
  (exec (guarded (PaxosPeer.step primitives) PaxosPeer.ForgetsNothing)
    (newPaxosPeer (conf "A" 1)) early).get early_isSome

theorem late_isSome : (exec (guarded (PaxosPeer.step primitives) PaxosPeer.ForgetsNothing)
    earlyPeer late).isSome := by
  decide

theorem promises_kept_early : PaxosPeer.KeepsPromises earlyPeer
    ((exec (guarded (PaxosPeer.step primitives) PaxosPeer.ForgetsNothing) earlyPeer
      late).get late_isSome) :=
  PaxosPeer.promises_kept (run_of_guarded (run_exec_get early_isSome))
    (run_of_guarded (run_exec_get late_isSome))

end PaxosSample

end JobPortal
