import JobPortal.PaxosTlc
import JobPortal.Runs

/-! A Paxos peer: the node together with its Propose calls. Received rumors and the lines of
the calls interleave freely, and a call may time out at any moment. -/
namespace JobPortal

variable (P : PaxosPrimitives)

namespace PaxosNode

def Ignores (n : PaxosNode) : PaxosMessage → Prop
  | .prepare m => m.step ≠ n.paxos.clock ∨ m.id ≤ n.paxos.maxID
  | .promise recipient m => recipient ≠ n.myAddr ∨ m.step ≠ n.paxos.clock
  | .propose m => m.step ≠ n.paxos.clock ∨ m.id ≠ n.paxos.maxID
  | .accept m => m.step ≠ n.paxos.clock
  | .tlc _ => False

/-- Everything a handler can do with a message, with the condition it does it under. -/
inductive Effect (n : PaxosNode) : PaxosMessage → PaxosNode × List PaxosMessage → Prop
  | idle {m : PaxosMessage} (ignored : n.Ignores m) : Effect n m (n, [])
  | prepare {m : PaxosPrepareMessage} (step : m.step = n.paxos.clock) (id : n.paxos.maxID < m.id) :
      Effect n (.prepare m) ({ n with paxos := { n.paxos with maxID := m.id } },
        [responsePrepare m n.paxos.acceptedValue n.paxos.acceptedID])
  | propose {m : PaxosProposeMessage} (step : m.step = n.paxos.clock)
      (id : m.id = n.paxos.maxID) :
      Effect n (.propose m)
        ({ n with paxos := { n.paxos with acceptedValue := m.value, acceptedID := m.id } },
          [.accept ⟨m.step, m.id, m.value⟩])
  | promise {m : PaxosPromiseMessage} (step : m.step = n.paxos.clock)
      (short : n.paxos.preparedFlag.lookup n.paxos.clock = none →
        n.paxos.promises.length + 1 < n.threshold) :
      Effect n (.promise n.myAddr m)
        ({ n with paxos := { n.paxos with promises := n.paxos.promises ++ [m] } }, [])
  | prepared {m : PaxosPromiseMessage} (step : m.step = n.paxos.clock)
      (enough : n.threshold ≤ n.paxos.promises.length + 1) :
      Effect n (.promise n.myAddr m)
        ({ n with paxos := { n.paxos with
            promises := n.paxos.promises ++ [m]
            preparedFlag := n.paxos.preparedFlag.insert n.paxos.clock true } }, [])
  | acceptedBefore {m : PaxosAcceptMessage} {v : PaxosValue} (step : m.step = n.paxos.clock)
      (known : n.paxos.acceptedMap.lookup n.paxos.clock = some v) :
      Effect n (.accept m) (n, [.tlc ⟨n.paxos.clock, n.getBlock P v n.paxos.clock⟩])
  | accept {m : PaxosAcceptMessage} (step : m.step = n.paxos.clock)
      (unknown : n.paxos.acceptedMap.lookup n.paxos.clock = none)
      (short : n.paxos.accepts.at m.value 0 + 1 < n.threshold) :
      Effect n (.accept m) ({ n with paxos := { n.paxos with
        accepts := n.paxos.accepts.insert m.value (n.paxos.accepts.at m.value 0 + 1) } }, [])
  | accepted {m : PaxosAcceptMessage} (step : m.step = n.paxos.clock)
      (unknown : n.paxos.acceptedMap.lookup n.paxos.clock = none)
      (enough : n.threshold ≤ n.paxos.accepts.at m.value 0 + 1) :
      Effect n (.accept m)
        ({ n with paxos := { n.paxos with
            accepts := n.paxos.accepts.insert m.value (n.paxos.accepts.at m.value 0 + 1)
            acceptedMap := n.paxos.acceptedMap.insert n.paxos.clock m.value } },
          [.tlc ⟨n.paxos.clock, n.getBlock P m.value n.paxos.clock⟩])
  | tlc {m : TLCMessage} {tlcs : GoMap ℕ (List TLCMessage)} {consensus : GoMap ℕ PaxosValue}
      {r : PaxosNode × List PaxosMessage}
      (stored : tlcs = n.paxos.tlcs ∨
        tlcs = n.paxos.tlcs.insert m.step (n.paxos.tlcs.at m.step [] ++ [m]))
      (caught : CaughtUp
        { n with paxos := { n.paxos with tlcs := tlcs, consensus := consensus } } r) :
      Effect n (.tlc m) r

theorem execPaxosPrepareMessage_effect (n : PaxosNode) (m : PaxosPrepareMessage) :
    n.Effect P (.prepare m) (n.execPaxosPrepareMessage m) := by
  unfold execPaxosPrepareMessage SafePaxos.receivePrepare
  split_ifs with hstep hid
  · exact .idle (.inl hstep)
  · exact .idle (.inr hid)
  · exact .prepare (by simpa using hstep) (by omega)

theorem execPaxosProposeMessage_effect (n : PaxosNode) (m : PaxosProposeMessage) :
    n.Effect P (.propose m) (n.execPaxosProposeMessage m) := by
  unfold execPaxosProposeMessage SafePaxos.receivePropose
  split_ifs with hstep hid
  · exact .idle (.inl hstep)
  · exact .idle (.inr hid)
  · exact .propose (by simpa using hstep) (by simpa using hid)

theorem execPaxosPromiseMessage_effect (n : PaxosNode) (recipient : String)
    (m : PaxosPromiseMessage) :
    n.Effect P (.promise recipient m) (n.execPaxosPromiseMessage recipient m) := by
  unfold execPaxosPromiseMessage SafePaxos.receivePromise
  split_ifs with hrec hstep
  · exact .idle (.inr hstep)
  · subst hrec
    dsimp only
    split_ifs with hflag hshort
    · refine .promise (by simpa using hstep) fun hnone => ?_
      simp [GoMap.at, hnone] at hflag
    · exact .promise (by simpa using hstep) fun _ => by simpa using hshort
    · exact .prepared (by simpa using hstep) (by simpa using hshort)
  · exact .idle (.inl hrec)

theorem execPaxosAcceptMessage_effect (n : PaxosNode) (m : PaxosAcceptMessage) :
    n.Effect P (.accept m) (n.execPaxosAcceptMessage P m) := by
  unfold execPaxosAcceptMessage SafePaxos.receiveAccept
  split_ifs with hstep
  · exact .idle hstep
  · have hstep : m.step = n.paxos.clock := by simpa using hstep
    cases hmap : n.paxos.acceptedMap.lookup n.paxos.clock with
    | some v => exact .acceptedBefore hstep hmap
    | none =>
      dsimp only
      split_ifs with hshort
      · exact .accept hstep hmap hshort
      · exact .accepted hstep hmap (by omega)

theorem execTLCMessage_effect (n : PaxosNode) (m : TLCMessage) :
    n.Effect P (.tlc m) (n.execTLCMessage P m) := by
  unfold execTLCMessage
  obtain ⟨tlcs, consensus, heq, hstored⟩ := n.paxos.receiveTLC_cases m n.threshold
  rw [heq]
  exact .tlc hstored (tlcProcess_caughtUp P _ _ _ _)

theorem exec_effect (n : PaxosNode) (m : PaxosMessage) : n.Effect P m (n.exec P m) := by
  cases m with
  | prepare m => exact execPaxosPrepareMessage_effect P n m
  | promise recipient m => exact execPaxosPromiseMessage_effect P n recipient m
  | propose m => exact execPaxosProposeMessage_effect P n m
  | accept m => exact execPaxosAcceptMessage_effect P n m
  | tlc m => exact execTLCMessage_effect P n m

theorem Effect.sameConfig {n : PaxosNode} {m : PaxosMessage}
    {r : PaxosNode × List PaxosMessage} (h : n.Effect P m r) : n.SameConfig r.1 := by
  cases h with
  | tlc _ caught => exact SameConfig.trans (by constructor <;> rfl) caught.config
  | idle => constructor <;> rfl
  | prepare => constructor <;> rfl
  | propose => constructor <;> rfl
  | promise => constructor <;> rfl
  | prepared => constructor <;> rfl
  | acceptedBefore => constructor <;> rfl
  | accept => constructor <;> rfl
  | accepted => constructor <;> rfl

end PaxosNode

inductive ProposePC
  | reset
  | getStep
  | phase1
  | phase2
  | consensus
  | returned
  deriving DecidableEq, Repr

structure ProposeCall where
  proposedVal : PaxosValue
  round : ℕ := 0
  curStep : ℕ := 0
  pc : ProposePC := .reset
  deriving DecidableEq, Repr

/-- A message as the gossip layer hands it over: once for each origin and sequence number. -/
structure Rumor where
  origin : String
  sequence : ℕ
  msg : PaxosMessage
  deriving DecidableEq, Repr

def Rumor.key (r : Rumor) : String × ℕ := (r.origin, r.sequence)

/-- A node with its Propose calls, and what it has broadcast and received so far. -/
structure PaxosPeer where
  node : PaxosNode
  calls : List ProposeCall
  sent : List PaxosMessage
  received : List Rumor

inductive PaxosEvent
  | receive (r : Rumor)
  | tag (uniqID name mh : String)
  | reset (i : ℕ)
  | getStep (i : ℕ)
  | promised (i : ℕ)
  | accepted (i : ℕ)
  | timeout (i : ℕ)
  | consensus (i : ℕ)
  deriving DecidableEq, Repr

namespace PaxosPeer

variable (p : PaxosPeer)

def idOf (call : ProposeCall) : ℕ := p.node.paxosID + call.round * p.node.totalPeers

def receive (r : Rumor) : PaxosPeer :=
  { p with
    node := (p.node.exec P r.msg).1
    sent := p.sent ++ (p.node.exec P r.msg).2
    received := p.received ++ [r] }

/-- Tag up to its call of Propose. While a proposal of the step is known Tag waits, and a
Tag that lost its step starts again, with a new unique ID. -/
def tag (uniqID name mh : String) : Option PaxosPeer :=
  if 1 < p.node.totalPeers ∧ p.node.paxos.proposed = false ∧ uniqID ≠ "" ∧
      uniqID ∉ p.calls.map (·.proposedVal.uniqID) then
    some { p with calls := p.calls ++ [{ proposedVal := ⟨uniqID, name, mh⟩ }] }
  else none

def onCall (i : ℕ) (pc : ProposePC) (line : ProposeCall → Option PaxosPeer) : Option PaxosPeer :=
  p.calls[i]?.bind fun call => if call.pc = pc then line call else none

def setCall (i : ℕ) (call : ProposeCall) : PaxosPeer := { p with calls := p.calls.set i call }

def reset (i : ℕ) (call : ProposeCall) : PaxosPeer :=
  { p.setCall i { call with pc := .getStep } with
    node := { p.node with paxos := p.node.paxos.reset call.proposedVal } }

/-- The step of the round is read, and its Prepare goes out. -/
def getStep (i : ℕ) (call : ProposeCall) : PaxosPeer :=
  { p.setCall i { call with curStep := p.node.paxos.clock, pc := .phase1 } with
    sent := p.sent ++ [.prepare ⟨p.node.paxos.clock, p.idOf call, p.node.myAddr⟩] }

/-- The end of phase 1, and the Propose of phase 2. -/
def promised (i : ℕ) (call : ProposeCall) (val : PaxosValue) : PaxosPeer :=
  { p.setCall i { call with pc := .phase2 } with
    sent := p.sent ++ [.propose ⟨call.curStep, p.idOf call, val⟩] }

/-- Either phase gives up and Propose calls itself with the next round. -/
def timeout (i : ℕ) (call : ProposeCall) : PaxosPeer :=
  p.setCall i { call with round := call.round + 1, pc := .reset }

def step (p : PaxosPeer) : PaxosEvent → Option PaxosPeer
  | .receive r => if r.key ∈ p.received.map Rumor.key then none else some (p.receive P r)
  | .tag uniqID name mh => p.tag uniqID name mh
  | .reset i => p.onCall i .reset fun call => some (p.reset i call)
  | .getStep i => p.onCall i .getStep fun call => some (p.getStep i call)
  | .promised i => p.onCall i .phase1 fun call =>
      (p.node.paxos.getPromiseValue call.curStep).map (p.promised i call)
  | .accepted i => p.onCall i .phase2 fun call =>
      if p.node.paxos.checkAccept call.curStep then
        some (p.setCall i { call with pc := .consensus })
      else none
  | .timeout i => (p.onCall i .phase1 fun call => some (p.timeout i call)).or
      (p.onCall i .phase2 fun call => some (p.timeout i call))
  | .consensus i => p.onCall i .consensus fun call =>
      if (p.node.paxos.getConsensus call.curStep).isSome then
        some (p.setCall i { call with pc := .returned })
      else none

inductive Effect (p : PaxosPeer) : PaxosEvent → PaxosPeer → Prop
  | receive {r : Rumor} {n : PaxosNode} {sent : List PaxosMessage}
      (fresh : r.key ∉ p.received.map Rumor.key) (effect : p.node.Effect P r.msg (n, sent)) :
      Effect p (.receive r)
        { p with node := n, sent := p.sent ++ sent, received := p.received ++ [r] }
  | tag {uniqID name mh : String} (peers : 1 < p.node.totalPeers)
      (idle : p.node.paxos.proposedValue = .zero) (uniq : uniqID ≠ "")
      (fresh : uniqID ∉ p.calls.map (·.proposedVal.uniqID)) :
      Effect p (.tag uniqID name mh)
        { p with calls := p.calls ++ [{ proposedVal := ⟨uniqID, name, mh⟩ }] }
  | reset {i : ℕ} {call : ProposeCall} (call_at : p.calls[i]? = some call)
      (pc : call.pc = .reset) : Effect p (.reset i) (p.reset i call)
  | getStep {i : ℕ} {call : ProposeCall} (call_at : p.calls[i]? = some call)
      (pc : call.pc = .getStep) : Effect p (.getStep i) (p.getStep i call)
  | promised {i : ℕ} {call : ProposeCall} (call_at : p.calls[i]? = some call)
      (pc : call.pc = .phase1) (step : call.curStep = p.node.paxos.clock)
      (flag : p.node.paxos.preparedFlag.lookup p.node.paxos.clock ≠ none) :
      Effect p (.promised i) (p.promised i call
        (SafePaxos.pickValue p.node.paxos.promises p.node.paxos.proposedValue).2)
  | accepted {i : ℕ} {call : ProposeCall} (call_at : p.calls[i]? = some call)
      (pc : call.pc = .phase2) (known : p.node.paxos.checkAccept call.curStep) :
      Effect p (.accepted i) (p.setCall i { call with pc := .consensus })
  | timeout {i : ℕ} {call : ProposeCall} (call_at : p.calls[i]? = some call)
      (pc : call.pc = .phase1 ∨ call.pc = .phase2) :
      Effect p (.timeout i) (p.timeout i call)
  | consensus {i : ℕ} {call : ProposeCall} (call_at : p.calls[i]? = some call)
      (pc : call.pc = .consensus) (known : (p.node.paxos.getConsensus call.curStep).isSome) :
      Effect p (.consensus i) (p.setCall i { call with pc := .returned })

theorem onCall_eq_some {p q : PaxosPeer} {i : ℕ} {pc : ProposePC}
    {line : ProposeCall → Option PaxosPeer} (h : p.onCall i pc line = some q) :
    ∃ call, p.calls[i]? = some call ∧ call.pc = pc ∧ line call = some q := by
  obtain ⟨call, hcall, hline⟩ := Option.bind_eq_some_iff.mp h
  split_ifs at hline with hpc
  exact ⟨call, hcall, hpc, hline⟩

theorem step_effect {p q : PaxosPeer} {e : PaxosEvent} (h : p.step P e = some q) :
    p.Effect P e q := by
  cases e with
  | receive r =>
    simp only [step] at h
    split_ifs at h with hfresh
    obtain rfl := Option.some.inj h
    exact .receive hfresh (PaxosNode.exec_effect P p.node r.msg)
  | tag uniqID name mh =>
    simp only [step, tag] at h
    split_ifs at h with hok
    obtain rfl := Option.some.inj h
    obtain ⟨hpeers, hidle, huniq, hfresh⟩ := hok
    exact .tag hpeers (by simpa [SafePaxos.proposed] using hidle) huniq hfresh
  | reset i =>
    obtain ⟨call, hcall, hpc, hline⟩ := onCall_eq_some h
    obtain rfl := Option.some.inj hline
    exact .reset hcall hpc
  | getStep i =>
    obtain ⟨call, hcall, hpc, hline⟩ := onCall_eq_some h
    obtain rfl := Option.some.inj hline
    exact .getStep hcall hpc
  | promised i =>
    obtain ⟨call, hcall, hpc, hline⟩ := onCall_eq_some h
    obtain ⟨val, hval, rfl⟩ := Option.map_eq_some_iff.mp hline
    unfold SafePaxos.getPromiseValue at hval
    split_ifs at hval with hflag hstep
    obtain rfl := Option.some.inj hval
    have hstep : p.node.paxos.clock = call.curStep := by simpa using hstep
    exact .promised hcall hpc hstep.symm (hstep ▸ hflag)
  | accepted i =>
    obtain ⟨call, hcall, hpc, hline⟩ := onCall_eq_some h
    split_ifs at hline with hknown
    obtain rfl := Option.some.inj hline
    exact .accepted hcall hpc hknown
  | timeout i =>
    rcases Option.or_eq_some_iff.mp h with h | ⟨_, h⟩
    · obtain ⟨call, hcall, hpc, hline⟩ := onCall_eq_some h
      obtain rfl := Option.some.inj hline
      exact .timeout hcall (.inl hpc)
    · obtain ⟨call, hcall, hpc, hline⟩ := onCall_eq_some h
      obtain rfl := Option.some.inj hline
      exact .timeout hcall (.inr hpc)
  | consensus i =>
    obtain ⟨call, hcall, hpc, hline⟩ := onCall_eq_some h
    split_ifs at hline with hknown
    obtain rfl := Option.some.inj hline
    exact .consensus hcall hpc hknown

theorem Effect.sameConfig {p q : PaxosPeer} {e : PaxosEvent} (h : p.Effect P e q) :
    p.node.SameConfig q.node := by
  cases h with
  | receive _ effect => exact effect.sameConfig P
  | tag => constructor <;> rfl
  | reset => constructor <;> rfl
  | getStep => constructor <;> rfl
  | promised => constructor <;> rfl
  | accepted => constructor <;> rfl
  | timeout => constructor <;> rfl
  | consensus => constructor <;> rfl

theorem Effect.histories {p q : PaxosPeer} {e : PaxosEvent} (h : p.Effect P e q) :
    p.sent <+: q.sent ∧ p.received <+: q.received := by
  cases h with
  | receive => exact ⟨List.prefix_append _ _, List.prefix_append _ _⟩
  | tag => exact ⟨List.prefix_refl _, List.prefix_refl _⟩
  | reset => exact ⟨List.prefix_refl _, List.prefix_refl _⟩
  | getStep => exact ⟨List.prefix_append _ _, List.prefix_refl _⟩
  | promised => exact ⟨List.prefix_append _ _, List.prefix_refl _⟩
  | accepted => exact ⟨List.prefix_refl _, List.prefix_refl _⟩
  | timeout => exact ⟨List.prefix_refl _, List.prefix_refl _⟩
  | consensus => exact ⟨List.prefix_refl _, List.prefix_refl _⟩

end PaxosPeer

structure PaxosConfig where
  myAddr : String
  paxosID : ℕ
  totalPeers : ℕ
  paxosThreshold : ℕ → ℕ := fun n => n / 2 + 1

def newPaxosPeer (conf : PaxosConfig) : PaxosPeer where
  node :=
    { myAddr := conf.myAddr
      paxosID := conf.paxosID
      totalPeers := conf.totalPeers
      paxosThreshold := conf.paxosThreshold
      paxos := newSafePaxos
      storage := ⟨∅, ∅⟩ }
  calls := []
  sent := []
  received := []

end JobPortal
