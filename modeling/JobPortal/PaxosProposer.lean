import JobPortal.PaxosAcceptor

/-! The proposer's side of a Paxos peer. A round is its own when its promises are counted
from nothing, only promises with its ID come in, and no other Propose call is at work in
the step. -/
namespace JobPortal

open Histories

def PaxosMessage.promiseTo (addr : String) : PaxosMessage → Option PaxosPromiseMessage
  | .promise recipient m => if recipient = addr then some m else none
  | _ => none

@[simp] theorem PaxosMessage.promiseTo_self (addr : String) (m : PaxosPromiseMessage) :
    (PaxosMessage.promise addr m).promiseTo addr = some m := if_pos rfl

def PaxosMessage.ballot : PaxosMessage → Option (ℕ × ℕ × ℕ)
  | .prepare m => some (m.step, m.id, 1)
  | .propose m => some (m.step, m.id, 2)
  | _ => none

theorem PaxosMessage.ballot_pos {m : PaxosMessage} {step id k : ℕ}
    (h : m.ballot = some (step, id, k)) : 0 < k := by
  cases m <;> simp only [PaxosMessage.ballot, Option.some.injEq, Prod.mk.injEq,
    reduceCtorEq] at h <;> omega

/-- `v` is the accepted value with the highest accepted ID among the promises, or `own` if
none of them carries a value. -/
def Adopts (ms : List PaxosPromiseMessage) (own v : PaxosValue) : Prop :=
  (∃ m ∈ ms, m.acceptedValue = some v ∧
      ∀ m' ∈ ms, m'.acceptedValue.isSome → m'.acceptedID ≤ m.acceptedID) ∨
    ((∀ m ∈ ms, m.acceptedValue = none) ∧ v = own)

theorem pickValue_concat (ms : List PaxosPromiseMessage) (m : PaxosPromiseMessage)
    (own : PaxosValue) : SafePaxos.pickValue (ms ++ [m]) own =
      match m.acceptedValue with
      | some v => if (SafePaxos.pickValue ms own).1 < m.acceptedID then (m.acceptedID, v)
          else SafePaxos.pickValue ms own
      | none => SafePaxos.pickValue ms own := by
  rw [SafePaxos.pickValue, List.foldl_append]
  rfl

/-- The loop over the promises keeps the best ID and value it has seen. -/
theorem pickValue_spec (ms : List PaxosPromiseMessage) (own : PaxosValue)
    (hpos : ∀ m ∈ ms, m.acceptedValue.isSome → 0 < m.acceptedID) :
    (∃ m ∈ ms, m.acceptedValue = some (SafePaxos.pickValue ms own).2 ∧
        m.acceptedID = (SafePaxos.pickValue ms own).1 ∧
        ∀ m' ∈ ms, m'.acceptedValue.isSome → m'.acceptedID ≤ m.acceptedID) ∨
      ((∀ m ∈ ms, m.acceptedValue = none) ∧ SafePaxos.pickValue ms own = (0, own)) := by
  induction ms using List.reverseRecOn with
  | nil => exact .inr ⟨by simp, rfl⟩
  | append_singleton ms m ih =>
    have ih := ih fun m' hm' => hpos m' (List.mem_append_left _ hm')
    rw [pickValue_concat]
    cases hval : m.acceptedValue with
    | none =>
      rcases ih with ⟨b, hb, hbv, hbid, hmax⟩ | ⟨hnone, heq⟩
      · refine .inl ⟨b, List.mem_append_left _ hb, hbv, hbid, fun m' hm' hsome => ?_⟩
        rcases List.mem_append.mp hm' with hm' | hm'
        · exact hmax m' hm' hsome
        · obtain rfl := List.mem_singleton.mp hm'
          simp [hval] at hsome
      · refine .inr ⟨fun m' hm' => ?_, heq⟩
        rcases List.mem_append.mp hm' with hm' | hm'
        · exact hnone m' hm'
        · obtain rfl := List.mem_singleton.mp hm'
          exact hval
    | some v =>
      have hm : m ∈ ms ++ [m] := List.mem_append_right _ (List.mem_singleton_self m)
      have hmpos := hpos m hm (by simp [hval])
      dsimp only
      split_ifs with hlt
      · refine .inl ⟨m, hm, hval, rfl, fun m' hm' hsome => ?_⟩
        rcases List.mem_append.mp hm' with hm' | hm'
        · rcases ih with ⟨b, _, _, hbid, hmax⟩ | ⟨hnone, _⟩
          · exact (hmax m' hm' hsome).trans (hbid ▸ hlt.le)
          · simp [hnone m' hm'] at hsome
        · obtain rfl := List.mem_singleton.mp hm'
          exact le_rfl
      · rcases ih with ⟨b, hb, hbv, hbid, hmax⟩ | ⟨_, heq⟩
        · refine .inl ⟨b, List.mem_append_left _ hb, hbv, hbid, fun m' hm' hsome => ?_⟩
          rcases List.mem_append.mp hm' with hm' | hm'
          · exact hmax m' hm' hsome
          · obtain rfl := List.mem_singleton.mp hm'
            omega
        · rw [heq] at hlt
          exact absurd hmpos hlt

theorem pickValue_adopts {ms : List PaxosPromiseMessage} {own : PaxosValue}
    (hpos : ∀ m ∈ ms, m.acceptedValue.isSome → 0 < m.acceptedID) :
    Adopts ms own (SafePaxos.pickValue ms own).2 := by
  rcases pickValue_spec ms own hpos with ⟨m, hm, hval, _, hmax⟩ | ⟨hnone, heq⟩
  · exact .inl ⟨m, hm, hval, hmax⟩
  · exact .inr ⟨hnone, by rw [heq]⟩

def ProposePC.stage : ProposePC → ℕ
  | .reset => 0
  | .getStep => 0
  | .phase1 => 1
  | .phase2 => 2
  | .consensus => 2
  | .returned => 2

namespace PaxosPeer

variable (p : PaxosPeer)

def promises : List PaxosPromiseMessage :=
  p.received.filterMap fun r => r.msg.promiseTo p.node.myAddr

def promisesFor (step id : ℕ) : List PaxosPromiseMessage :=
  p.promises.filter fun m => m.step = step ∧ m.id = id

/-- The rounds of a peer are its own: a Reset finds the prepared flag of the step unset and
no proposal of another call, the clock does not move between Reset and GetStep, and promises
of the step that come in during phase 1 carry the ID of the round. -/
def OwnRound : PaxosEvent → Prop
  | .reset i => p.node.paxos.preparedFlag.lookup p.node.paxos.clock = none ∧
      ∀ call ∈ p.calls[i]?, p.node.paxos.proposedValue = .zero ∨
        p.node.paxos.proposedValue = call.proposedVal
  | .getStep i => ∀ call ∈ p.calls[i]?, p.node.paxos.proposedValue = call.proposedVal
  | .receive r => ∀ m ∈ r.msg.promiseTo p.node.myAddr, m.step = p.node.paxos.clock →
      ∀ call ∈ p.calls, call.proposedVal = p.node.paxos.proposedValue →
        call.pc = .getStep ∨ call.pc = .phase1 → m.id = p.idOf call
  | _ => True

instance : (e : PaxosEvent) → Decidable (p.OwnRound e)
  | .reset _ => inferInstanceAs (Decidable (_ ∧ _))
  | .getStep _ | .receive _ => by unfold OwnRound; infer_instance
  | .tag .. | .promised _ | .accepted _ | .timeout _ | .consensus _ => isTrue trivial

/-- A promise as the other nodes send them: in reply to a Prepare, and with a positive
accepted ID and a proper value if it carries one. -/
structure Answers (m : PaxosPromiseMessage) : Prop where
  prepare : ∃ source, .prepare ⟨m.step, m.id, source⟩ ∈ p.sent
  id : 0 < m.id
  accepted : ∀ v, m.acceptedValue = some v → 0 < m.acceptedID ∧ v ≠ .zero

def Current (call : ProposeCall) : Prop :=
  call ∈ p.calls ∧ call.proposedVal = p.node.paxos.proposedValue

def Passed (call : ProposeCall) (id k : ℕ) : Prop :=
  id < p.idOf call ∨ (id = p.idOf call ∧ k ≤ call.pc.stage)

end PaxosPeer

/-- A Propose has a positive ID and a proper value, and no ID is used twice in a step. -/
def ProposerRule (past : List PaxosMessage) : PaxosMessage → Prop
  | .propose m => 0 < m.id ∧ m.value ≠ .zero ∧
      ∀ m', .propose m' ∈ past → m'.step = m.step → m'.id ≠ m.id
  | _ => True

theorem ProposerRule.of_ballot {m : PaxosMessage} (h : m.ballot = none)
    (past : List PaxosMessage) : ProposerRule past m := by
  cases m with
  | propose => simp [PaxosMessage.ballot] at h
  | prepare => trivial
  | promise => trivial
  | accept => trivial
  | tlc => trivial

structure Proposer (p : PaxosPeer) : Prop where
  peers : ∀ call ∈ p.calls, 1 < p.node.totalPeers
  named : ∀ call ∈ p.calls, call.proposedVal ≠ .zero
  distinct : (p.calls.map (·.proposedVal)).Nodup
  log : EachAfter ProposerRule p.sent
  ballots : ∀ m ∈ p.sent, ∀ step id k, m.ballot = some (step, id, k) →
    step ≤ p.node.paxos.clock ∧
      (step = p.node.paxos.clock → ∃ call, p.Current call ∧ p.Passed call id k)
  answered : ∀ m ∈ p.promises, p.Answers m
  flags : ∀ k, p.node.paxos.clock < k → p.node.paxos.preparedFlag.lookup k = none
  started : ∀ call, p.Current call → call.pc = .getStep →
    p.node.paxos.promises = [] ∧ p.node.paxos.preparedFlag.lookup p.node.paxos.clock = none
  stepOf : ∀ call ∈ p.calls, call.pc = .phase1 → call.curStep ≤ p.node.paxos.clock ∧
    (call.curStep = p.node.paxos.clock ↔ call.proposedVal = p.node.paxos.proposedValue)
  counted : ∀ call, p.Current call → call.pc = .phase1 →
    p.node.paxos.promises = p.promisesFor p.node.paxos.clock (p.idOf call) ∧
      (p.node.paxos.preparedFlag.lookup p.node.paxos.clock ≠ none →
        p.node.paxos.promises ≠ [] ∧ p.node.threshold ≤ p.node.paxos.promises.length)

namespace PaxosPeer

def Answered (p : PaxosPeer) : PaxosEvent → Prop
  | .receive r => ∀ m, r.msg.promiseTo p.node.myAddr = some m → p.Answers m
  | _ => True

theorem Answers.mono {p q : PaxosPeer} (hsent : p.sent <+: q.sent) {m : PaxosPromiseMessage}
    (h : p.Answers m) : q.Answers m where
  prepare := h.prepare.imp fun _ hm => hsent.subset hm
  id := h.id
  accepted := h.accepted

theorem promises_received {p q : PaxosPeer} {rs : List Rumor}
    (haddr : q.node.myAddr = p.node.myAddr) (hrecv : q.received = p.received ++ rs) :
    q.promises = p.promises ++ rs.filterMap fun r => r.msg.promiseTo p.node.myAddr := by
  rw [promises, hrecv, haddr, List.filterMap_append, promises]

theorem promisesFor_received {p q : PaxosPeer} {rs : List Rumor}
    (haddr : q.node.myAddr = p.node.myAddr) (hrecv : q.received = p.received ++ rs)
    (step id : ℕ) : q.promisesFor step id = p.promisesFor step id ++
      (rs.filterMap fun r => r.msg.promiseTo p.node.myAddr).filter
        fun m => m.step = step ∧ m.id = id := by
  rw [promisesFor, promises_received haddr hrecv, List.filter_append, promisesFor]

theorem idOf_congr {p q : PaxosPeer} (h : p.node.SameConfig q.node) (call : ProposeCall) :
    q.idOf call = p.idOf call := by
  rw [idOf, idOf, h.paxosID, h.totalPeers]

theorem threshold_congr {n m : PaxosNode} (h : n.SameConfig m) : m.threshold = n.threshold := by
  rw [PaxosNode.threshold, PaxosNode.threshold, h.paxosThreshold, h.totalPeers]

end PaxosPeer

namespace Proposer

variable {p q : PaxosPeer} {ms : List PaxosMessage} {rs : List Rumor}

theorem current_unique (h : Proposer p) {call call' : ProposeCall} (hc : p.Current call)
    (hc' : p.Current call') : call = call' :=
  List.inj_on_of_nodup_map h.distinct hc.1 hc'.1 (hc.2.trans hc'.2.symm)

/-- A call at the start of a round has not used the ID of the round in this step. -/
theorem unused (h : Proposer p) {call : ProposeCall} (hc : p.Current call)
    (hstage : call.pc.stage = 0) {m : PaxosMessage} (hm : m ∈ p.sent) {k : ℕ} (hk : 0 < k)
    (hb : m.ballot = some (p.node.paxos.clock, p.idOf call, k)) : False := by
  obtain ⟨call', hc', hpast⟩ := (h.ballots m hm _ _ _ hb).2 rfl
  obtain rfl := h.current_unique hc hc'
  rcases hpast with hlt | ⟨_, hle⟩ <;> omega

theorem answered_receive (h : Proposer p) (hconf : p.node.SameConfig q.node)
    (hsent : p.sent <+: q.sent) (hrecv : q.received = p.received ++ rs)
    (hans : ∀ r ∈ rs, ∀ m, r.msg.promiseTo p.node.myAddr = some m → p.Answers m) :
    ∀ m ∈ q.promises, q.Answers m := by
  intro m hm
  rw [PaxosPeer.promises_received hconf.myAddr hrecv] at hm
  rcases List.mem_append.mp hm with hm | hm
  · exact (h.answered m hm).mono hsent
  · obtain ⟨r, hr, hto⟩ := List.mem_filterMap.mp hm
    exact (hans r hr m hto).mono hsent

/-- While calls, clock and proposed value stay, only the promises have to be looked at. -/
theorem of_promises (h : Proposer p) (hconf : p.node.SameConfig q.node)
    (hcalls : q.calls = p.calls) (hsent : q.sent = p.sent ++ ms) (hms : ∀ m ∈ ms, m.ballot = none)
    (hrecv : q.received = p.received ++ rs)
    (hans : ∀ r ∈ rs, ∀ m, r.msg.promiseTo p.node.myAddr = some m → p.Answers m)
    (hclock : q.node.paxos.clock = p.node.paxos.clock)
    (hval : q.node.paxos.proposedValue = p.node.paxos.proposedValue)
    (hflag : ∀ k, k ≠ p.node.paxos.clock →
      q.node.paxos.preparedFlag.lookup k = p.node.paxos.preparedFlag.lookup k)
    (hstarted : ∀ call, p.Current call → call.pc = .getStep →
      q.node.paxos.promises = [] ∧ q.node.paxos.preparedFlag.lookup p.node.paxos.clock = none)
    (hcounted : ∀ call, p.Current call → call.pc = .phase1 →
      q.node.paxos.promises = q.promisesFor p.node.paxos.clock (p.idOf call) ∧
        (q.node.paxos.preparedFlag.lookup p.node.paxos.clock ≠ none →
          q.node.paxos.promises ≠ [] ∧ p.node.threshold ≤ q.node.paxos.promises.length)) :
    Proposer q := by
  have hcur (call : ProposeCall) : q.Current call ↔ p.Current call := by
    rw [PaxosPeer.Current, PaxosPeer.Current, hcalls, hval]
  constructor
  · rw [hcalls, hconf.totalPeers]
    exact h.peers
  · rw [hcalls]
    exact h.named
  · rw [hcalls]
    exact h.distinct
  · rw [hsent]
    exact h.log.append fun m hm past => .of_ballot (hms m hm) past
  · intro m hm step id k hb
    rw [hsent] at hm
    rcases List.mem_append.mp hm with hm | hm
    · rw [hclock]
      obtain ⟨hle, hpast⟩ := h.ballots m hm step id k hb
      refine ⟨hle, fun heq => ?_⟩
      obtain ⟨call, hc, hp⟩ := hpast heq
      refine ⟨call, (hcur call).mpr hc, ?_⟩
      rwa [PaxosPeer.Passed, PaxosPeer.idOf_congr hconf]
    · rw [hms m hm] at hb
      cases hb
  · exact h.answered_receive hconf (hsent ▸ List.prefix_append _ _) hrecv hans
  · intro k hk
    rw [hclock] at hk
    exact (hflag k (Nat.ne_of_gt hk)).trans (h.flags k hk)
  · intro call hc hpc
    rw [hclock]
    exact hstarted call ((hcur call).mp hc) hpc
  · rw [hcalls, hclock, hval]
    exact h.stepOf
  · intro call hc hpc
    rw [hclock, PaxosPeer.idOf_congr hconf, PaxosPeer.threshold_congr hconf]
    exact hcounted call ((hcur call).mp hc) hpc

/-- Steps that leave the proposer alone. Promises of other steps may come in. -/
theorem same (h : Proposer p) (hconf : p.node.SameConfig q.node) (hcalls : q.calls = p.calls)
    (hsent : q.sent = p.sent ++ ms) (hms : ∀ m ∈ ms, m.ballot = none)
    (hrecv : q.received = p.received ++ rs)
    (hans : ∀ r ∈ rs, ∀ m, r.msg.promiseTo p.node.myAddr = some m →
      p.Answers m ∧ m.step ≠ p.node.paxos.clock)
    (hclock : q.node.paxos.clock = p.node.paxos.clock)
    (hval : q.node.paxos.proposedValue = p.node.paxos.proposedValue)
    (hprom : q.node.paxos.promises = p.node.paxos.promises)
    (hflag : q.node.paxos.preparedFlag = p.node.paxos.preparedFlag) : Proposer q := by
  have hfor (id : ℕ) :
      q.promisesFor p.node.paxos.clock id = p.promisesFor p.node.paxos.clock id := by
    rw [PaxosPeer.promisesFor_received hconf.myAddr hrecv, List.append_right_eq_self,
      List.filter_eq_nil_iff]
    intro m hm
    obtain ⟨r, hr, hto⟩ := List.mem_filterMap.mp hm
    simp [(hans r hr m hto).2]
  refine h.of_promises hconf hcalls hsent hms hrecv (fun r hr m hto => (hans r hr m hto).1)
    hclock hval (fun k _ => by rw [hflag]) ?_ ?_
  · rw [hprom, hflag]
    exact h.started
  · intro call hc hpc
    rw [hprom, hflag, hfor]
    exact h.counted call hc hpc

theorem moved (h : Proposer p) (hconf : p.node.SameConfig q.node) (hcalls : q.calls = p.calls)
    (hsent : q.sent = p.sent ++ ms) (hms : ∀ m ∈ ms, m.ballot = none)
    (hrecv : q.received = p.received ++ rs)
    (hans : ∀ r ∈ rs, ∀ m, r.msg.promiseTo p.node.myAddr = some m → p.Answers m)
    (hclock : p.node.paxos.clock < q.node.paxos.clock)
    (hval : q.node.paxos.proposedValue = .zero)
    (hflag : q.node.paxos.preparedFlag = p.node.paxos.preparedFlag) : Proposer q := by
  have hcur (call : ProposeCall) : ¬ q.Current call := by
    intro hc
    rw [PaxosPeer.Current, hcalls, hval] at hc
    exact h.named call hc.1 hc.2
  constructor
  · rw [hcalls, hconf.totalPeers]
    exact h.peers
  · rw [hcalls]
    exact h.named
  · rw [hcalls]
    exact h.distinct
  · rw [hsent]
    exact h.log.append fun m hm past => .of_ballot (hms m hm) past
  · intro m hm step id k hb
    rw [hsent] at hm
    rcases List.mem_append.mp hm with hm | hm
    · have := (h.ballots m hm step id k hb).1
      exact ⟨by omega, fun heq => by omega⟩
    · rw [hms m hm] at hb
      cases hb
  · exact h.answered_receive hconf (hsent ▸ List.prefix_append _ _) hrecv hans
  · intro k hk
    rw [hflag]
    exact h.flags k (hclock.trans hk)
  · exact fun call hc => absurd hc (hcur call)
  · intro call hc hpc
    rw [hcalls] at hc
    have := (h.stepOf call hc hpc).1
    refine ⟨by omega, ⟨fun heq => by omega, fun heq => ?_⟩⟩
    rw [hval] at heq
    exact absurd heq (h.named call hc)
  · exact fun call hc => absurd hc (hcur call)

/-- A promise of the step. It is one of the round under way. -/
theorem promise (h : Proposer p) {r : Rumor} {m : PaxosPromiseMessage}
    (hown : p.OwnRound (.receive r)) (hto : r.msg.promiseTo p.node.myAddr = some m)
    (hans : p.Answers m) (hconf : p.node.SameConfig q.node) (hcalls : q.calls = p.calls)
    (hsent : q.sent = p.sent) (hrecv : q.received = p.received ++ [r])
    (hstep : m.step = p.node.paxos.clock) (hclock : q.node.paxos.clock = p.node.paxos.clock)
    (hval : q.node.paxos.proposedValue = p.node.paxos.proposedValue)
    (hprom : q.node.paxos.promises = p.node.paxos.promises ++ [m])
    (hset : q.node.paxos.preparedFlag.lookup p.node.paxos.clock ≠ none →
      p.node.paxos.preparedFlag.lookup p.node.paxos.clock ≠ none ∨
        p.node.threshold ≤ p.node.paxos.promises.length + 1)
    (hkeep : ∀ k, k ≠ p.node.paxos.clock →
      q.node.paxos.preparedFlag.lookup k = p.node.paxos.preparedFlag.lookup k) : Proposer q := by
  have hown' (call : ProposeCall) (hc : p.Current call)
      (hpc : call.pc = .getStep ∨ call.pc = .phase1) : m.id = p.idOf call :=
    hown m hto hstep call hc.1 hc.2 hpc
  refine h.of_promises hconf hcalls (hsent.trans (List.append_nil _).symm) (by simp) hrecv ?_
    hclock hval hkeep ?_ ?_
  · intro r' hr' m' hto'
    obtain rfl := List.mem_singleton.mp hr'
    obtain rfl := Option.some.inj (hto.symm.trans hto')
    exact hans
  · intro call hc hpc
    -- no Prepare of the round is out yet, so nothing can answer it
    obtain ⟨source, hout⟩ := hans.prepare
    rw [hstep, hown' call hc (.inl hpc)] at hout
    exact (h.unused hc (by rw [hpc]; rfl) hout zero_lt_one rfl).elim
  · intro call hc hpc
    obtain ⟨hfor, hflag⟩ := h.counted call hc hpc
    have hid : m.id = p.idOf call := hown' call hc (.inr hpc)
    refine ⟨?_, fun hset' => ⟨by simp [hprom], ?_⟩⟩
    · rw [hprom, PaxosPeer.promisesFor_received hconf.myAddr hrecv, ← hfor]
      simp [hto, hstep, hid]
    · rw [hprom, List.length_append, List.length_singleton]
      rcases hset hset' with hold | henough
      · have := (hflag hold).2
        omega
      · exact henough

theorem receive {P : PaxosPrimitives} (h : Proposer p) {r : Rumor} {n : PaxosNode}
    {sent : List PaxosMessage} (hown : p.OwnRound (.receive r)) (hans : p.Answered (.receive r))
    (heff : p.node.Effect P r.msg (n, sent)) :
    Proposer { p with node := n, sent := p.sent ++ sent, received := p.received ++ [r] } := by
  obtain ⟨origin, seq, msg⟩ := r
  have hanswers : ∀ r ∈ [Rumor.mk origin seq msg], ∀ m,
      r.msg.promiseTo p.node.myAddr = some m → p.Answers m := by
    intro r hr m hto
    obtain rfl := List.mem_singleton.mp hr
    exact hans m hto
  have hans' {step : ℕ} (hnot : ∀ m, msg.promiseTo p.node.myAddr = some m → m.step ≠ step) :
      ∀ r ∈ [Rumor.mk origin seq msg], ∀ m, r.msg.promiseTo p.node.myAddr = some m →
        p.Answers m ∧ m.step ≠ step := by
    intro r hr m hto
    refine ⟨hanswers r hr m hto, ?_⟩
    obtain rfl := List.mem_singleton.mp hr
    exact hnot m hto
  have hconf := heff.sameConfig P
  cases heff with
  | idle ignored =>
    refine h.same hconf rfl rfl (by simp) rfl (hans' fun m hto => ?_) rfl rfl rfl rfl
    cases msg with
    | promise recipient m' =>
      simp only [PaxosMessage.promiseTo] at hto
      split_ifs at hto with haddr
      obtain rfl := Option.some.inj hto
      exact ignored.resolve_left fun hne => hne haddr
    | prepare => simp [PaxosMessage.promiseTo] at hto
    | propose => simp [PaxosMessage.promiseTo] at hto
    | accept => simp [PaxosMessage.promiseTo] at hto
    | tlc => simp [PaxosMessage.promiseTo] at hto
  | @promise m step short =>
    have hto := PaxosMessage.promiseTo_self p.node.myAddr m
    exact h.promise hown hto (hans _ hto) hconf rfl (List.append_nil _) rfl step rfl rfl rfl .inl
      fun _ _ => rfl
  | @prepared m step enough =>
    have hto := PaxosMessage.promiseTo_self p.node.myAddr m
    exact h.promise hown hto (hans _ hto) hconf rfl (List.append_nil _) rfl step rfl rfl rfl
      (fun _ => .inr enough) fun k hk => Finmap.lookup_insert_of_ne _ hk
  | tlc stored caught =>
    have hms : ∀ m ∈ sent, m.ballot = none := by
      intro m hm
      obtain ⟨step, tlc, _, rfl⟩ := caught.sent m hm
      rfl
    rcases caught.moves.of_tlcs with ⟨hclock, hround⟩ | ⟨hclock, hclear⟩
    · exact h.same hconf rfl rfl hms rfl (hans' (by simp [PaxosMessage.promiseTo])) hclock
        hround.proposedValue hround.promises caught.preparedFlag
    · exact h.moved hconf rfl rfl hms rfl hanswers hclock hclear.proposedValue
        caught.preparedFlag
  | prepare | propose | acceptedBefore | accept | accepted =>
    exact h.same hconf rfl rfl (by simp [PaxosNode.responsePrepare, PaxosMessage.ballot]) rfl
      (hans' (by simp [PaxosMessage.promiseTo])) rfl rfl rfl rfl

variable {i : ℕ} {call call' : ProposeCall}

theorem map_proposedVal_set (hcall : p.calls[i]? = some call)
    (hval : call'.proposedVal = call.proposedVal) :
    (p.calls.set i call').map (·.proposedVal) = p.calls.map (·.proposedVal) := by
  obtain ⟨hi, rfl⟩ := List.getElem?_eq_some_iff.mp hcall
  rw [List.map_set, hval, ← List.map_set, List.set_getElem_self hi]

theorem of_call (h : Proposer p) (hcall : p.calls[i]? = some call) (hnode : q.node = p.node)
    (hcalls : q.calls = p.calls.set i call') (hsent : q.sent = p.sent ++ ms)
    (hrecv : q.received = p.received) (hval : call'.proposedVal = call.proposedVal)
    (hlog : EachAfter ProposerRule q.sent)
    (hms : ∀ m ∈ ms, ∀ step id k, m.ballot = some (step, id, k) →
      step = p.node.paxos.clock ∧ p.Current call ∧ p.Passed call' id k)
    (hpassed : ∀ id k, 0 < k → p.Passed call id k → p.Passed call' id k)
    (hget : call'.pc ≠ .getStep)
    (hphase1 : call'.pc = .phase1 → call'.curStep = p.node.paxos.clock ∧ p.Current call ∧
      p.promisesFor p.node.paxos.clock (p.idOf call') = p.node.paxos.promises ∧
      p.node.paxos.preparedFlag.lookup p.node.paxos.clock = none) : Proposer q := by
  obtain ⟨n, calls, sent, received⟩ := q
  dsimp only at hnode hcalls hsent hrecv hlog
  subst hnode hcalls hsent hrecv
  have hmem : call ∈ p.calls := List.mem_of_getElem? hcall
  have hmem' : call' ∈ p.calls.set i call' := mem_set_self hcall
  have hothers {c : ProposeCall} (hc : c ∈ p.calls.set i call') :
      c = call' ∨ c ∈ p.calls ∧ c.proposedVal ≠ call.proposedVal :=
    eq_or_ne_of_mem_set h.distinct hcall hc
  refine ⟨fun _ _ => h.peers call hmem, ?_, ?_, hlog, ?_, ?_, h.flags, ?_, ?_, ?_⟩
  · intro c hc
    rcases hothers hc with rfl | ⟨hc, _⟩
    · exact hval ▸ h.named call hmem
    · exact h.named c hc
  · rw [map_proposedVal_set hcall hval]
    exact h.distinct
  · intro m hm step id k hb
    rcases List.mem_append.mp hm with hm | hm
    · obtain ⟨hle, hpast⟩ := h.ballots m hm step id k hb
      refine ⟨hle, fun heq => ?_⟩
      obtain ⟨c, hc, hp⟩ := hpast heq
      rcases mem_set_of_mem call' hcall hc.1 with rfl | hset
      · exact ⟨call', ⟨hmem', hval.trans hc.2⟩, hpassed id k (PaxosMessage.ballot_pos hb) hp⟩
      · exact ⟨c, ⟨hset, hc.2⟩, hp⟩
    · obtain ⟨heq, hc, hp⟩ := hms m hm step id k hb
      exact ⟨heq.le, fun _ => ⟨call', ⟨hmem', hval.trans hc.2⟩, hp⟩⟩
  · exact fun m hm => (h.answered m hm).mono (List.prefix_append _ _)
  · intro c hc hpc
    rcases hothers hc.1 with rfl | ⟨hold, _⟩
    · exact absurd hpc hget
    · exact h.started c ⟨hold, hc.2⟩ hpc
  · intro c hc hpc
    rcases hothers hc with rfl | ⟨hold, _⟩
    · obtain ⟨hstep, hcur, _⟩ := hphase1 hpc
      exact ⟨hstep.le, fun _ => hval.trans hcur.2, fun _ => hstep⟩
    · exact h.stepOf c hold hpc
  · intro c hc hpc
    rcases hothers hc.1 with rfl | ⟨hold, _⟩
    · obtain ⟨_, _, hfor, hnone⟩ := hphase1 hpc
      exact ⟨hfor.symm, fun hflag => absurd hnone hflag⟩
    · exact h.counted c ⟨hold, hc.2⟩ hpc

theorem tag (h : Proposer p) {uniqID name mh : String} (hpeers : 1 < p.node.totalPeers)
    (hidle : p.node.paxos.proposedValue = .zero) (huniq : uniqID ≠ "")
    (hfresh : uniqID ∉ p.calls.map (·.proposedVal.uniqID)) :
    Proposer { p with calls := p.calls ++ [{ proposedVal := ⟨uniqID, name, mh⟩ }] } := by
  have hcur {c : ProposeCall} (hc : c ∈ p.calls) : c.proposedVal ≠ p.node.paxos.proposedValue := by
    rw [hidle]
    exact h.named c hc
  have hnew : (⟨uniqID, name, mh⟩ : PaxosValue) ≠ .zero := fun heq =>
    huniq (congrArg PaxosValue.uniqID heq)
  have hcases {c : ProposeCall} (hc : c ∈ p.calls ++ [{ proposedVal := ⟨uniqID, name, mh⟩ }]) :
      c ∈ p.calls ∨ c = { proposedVal := ⟨uniqID, name, mh⟩ } := by
    simpa using hc
  refine ⟨fun _ _ => hpeers, ?_, ?_, h.log, ?_, fun m hm => ?_, h.flags, ?_, ?_, ?_⟩
  · intro c hc
    rcases hcases hc with hc | rfl
    · exact h.named c hc
    · exact hnew
  · rw [List.map_append, List.nodup_append]
    refine ⟨h.distinct, List.nodup_singleton _, fun v hv w hw => ?_⟩
    obtain rfl := List.mem_singleton.mp hw
    rintro rfl
    obtain ⟨c, hc, heq⟩ := List.mem_map.mp hv
    exact hfresh (List.mem_map.mpr ⟨c, hc, congrArg PaxosValue.uniqID heq⟩)
  · intro m hm step id k hb
    obtain ⟨hle, hpast⟩ := h.ballots m hm step id k hb
    refine ⟨hle, fun heq => ?_⟩
    obtain ⟨c, hc, _⟩ := hpast heq
    exact absurd hc.2 (hcur hc.1)
  · obtain ⟨hprep, hid, hacc⟩ := h.answered m hm
    exact ⟨hprep, hid, hacc⟩
  · intro c hc hpc
    rcases hcases hc.1 with hold | rfl
    · exact absurd hc.2 (hcur hold)
    · cases hpc
  · intro c hc hpc
    rcases hcases hc with hold | rfl
    · exact h.stepOf c hold hpc
    · cases hpc
  · intro c hc hpc
    rcases hcases hc.1 with hold | rfl
    · exact absurd hc.2 (hcur hold)
    · cases hpc

/-- A Reset that finds no other proposal starts the round of its call. -/
theorem reset (h : Proposer p) (hcall : p.calls[i]? = some call) (hpc : call.pc = .reset)
    (hown : p.OwnRound (.reset i)) : Proposer (p.reset i call) := by
  obtain ⟨hflag, hval⟩ := hown
  have hmem : call ∈ p.calls := List.mem_of_getElem? hcall
  -- whoever was at work in this step is this call
  have hcur {c : ProposeCall} (hc : p.Current c) : c = call := by
    rcases hval call hcall with hzero | hsame
    · exact absurd (hc.2.trans hzero) (h.named c hc.1)
    · exact h.current_unique hc ⟨hmem, hsame.symm⟩
  have hothers {c : ProposeCall} (hc : c ∈ p.calls.set i { call with pc := .getStep }) :
      c = { call with pc := .getStep } ∨ c ∈ p.calls ∧ c.proposedVal ≠ call.proposedVal :=
    eq_or_ne_of_mem_set h.distinct hcall hc
  refine ⟨fun _ _ => h.peers call hmem, ?_, ?_, h.log, ?_, fun m hm => ?_, h.flags, ?_, ?_, ?_⟩
  · intro c hc
    rcases hothers hc with rfl | ⟨hc, _⟩
    · exact h.named call hmem
    · exact h.named c hc
  · refine Eq.mpr ?_ h.distinct
    exact congrArg List.Nodup (map_proposedVal_set hcall rfl)
  · intro m hm step id k hb
    obtain ⟨hle, hpast⟩ := h.ballots m hm step id k hb
    refine ⟨hle, fun heq => ?_⟩
    obtain ⟨c, hc, hp⟩ := hpast heq
    obtain rfl := hcur hc
    refine ⟨_, ⟨mem_set_self hcall, rfl⟩, ?_⟩
    rcases hp with hlt | ⟨hid, hstage⟩
    · exact .inl hlt
    · rw [hpc] at hstage
      exact .inr ⟨hid, hstage⟩
  · obtain ⟨hprep, hid, hacc⟩ := h.answered m hm
    exact ⟨hprep, hid, hacc⟩
  · exact fun _ _ _ => ⟨rfl, hflag⟩
  · intro c hc hphase
    rcases hothers hc with rfl | ⟨hold, hne⟩
    · cases hphase
    · obtain ⟨hle, hiff⟩ := h.stepOf c hold hphase
      refine ⟨hle, fun heq => ?_, fun heq => absurd heq hne⟩
      exact absurd (congrArg ProposeCall.proposedVal (hcur ⟨hold, hiff.mp heq⟩)) hne
  · intro c hc hphase
    rcases hothers hc.1 with rfl | ⟨_, hne⟩
    · cases hphase
    · exact absurd hc.2 hne

/-- When GetPromiseValue succeeds, the promises of the round are what it has looked at. -/
theorem promisesFor_eq (h : Proposer p) (hcall : p.calls[i]? = some call)
    (hpc : call.pc = .phase1) (hstep : call.curStep = p.node.paxos.clock)
    (hflag : p.node.paxos.preparedFlag.lookup p.node.paxos.clock ≠ none) :
    p.Current call ∧ p.node.paxos.promises = p.promisesFor call.curStep (p.idOf call) ∧
      p.node.paxos.promises ≠ [] ∧ p.node.threshold ≤ p.node.paxos.promises.length := by
  have hmem : call ∈ p.calls := List.mem_of_getElem? hcall
  have hcur : p.Current call := ⟨hmem, (h.stepOf call hmem hpc).2.mp hstep⟩
  obtain ⟨hfor, hset⟩ := h.counted call hcur hpc
  obtain ⟨hne, henough⟩ := hset hflag
  exact ⟨hcur, by rw [hstep]; exact hfor, hne, henough⟩

theorem mem_promises (h : Proposer p) {step id : ℕ} {m : PaxosPromiseMessage}
    (hm : m ∈ p.promisesFor step id) : p.Answers m ∧ m.step = step ∧ m.id = id := by
  obtain ⟨hm, heq⟩ := List.mem_filter.mp hm
  obtain ⟨hstep, hid⟩ := of_decide_eq_true heq
  exact ⟨h.answered m hm, hstep, hid⟩

theorem adopts (h : Proposer p) (hcall : p.calls[i]? = some call) (hpc : call.pc = .phase1)
    (hstep : call.curStep = p.node.paxos.clock)
    (hflag : p.node.paxos.preparedFlag.lookup p.node.paxos.clock ≠ none) :
    Adopts (p.promisesFor call.curStep (p.idOf call)) call.proposedVal
      (SafePaxos.pickValue p.node.paxos.promises p.node.paxos.proposedValue).2 := by
  obtain ⟨hcur, hfor, _⟩ := h.promisesFor_eq hcall hpc hstep hflag
  rw [hfor, ← hcur.2]
  apply pickValue_adopts
  intro m hm hsome
  obtain ⟨v, hv⟩ := Option.isSome_iff_exists.mp hsome
  exact ((h.mem_promises hm).1.accepted v hv).1

theorem getStep (h : Proposer p) (hcall : p.calls[i]? = some call) (hpc : call.pc = .getStep)
    (hown : p.OwnRound (.getStep i)) : Proposer (p.getStep i call) := by
  have hcur : p.Current call := ⟨List.mem_of_getElem? hcall, (hown call hcall).symm⟩
  obtain ⟨hempty, hflag⟩ := h.started call hcur hpc
  have hstage : call.pc.stage = 0 := by rw [hpc]; rfl
  refine h.of_call hcall rfl rfl rfl rfl rfl ?_ ?_ ?_ (by simp) fun _ => ⟨rfl, hcur, ?_, hflag⟩
  · exact h.log.concat trivial
  · intro m hm step id k hb
    obtain rfl := List.mem_singleton.mp hm
    obtain ⟨rfl, rfl, rfl⟩ : p.node.paxos.clock = step ∧ p.idOf call = id ∧ 1 = k := by
      simpa [PaxosMessage.ballot] using hb
    exact ⟨rfl, hcur, .inr ⟨rfl, le_rfl⟩⟩
  · intro id k hk hp
    rcases hp with hlt | ⟨_, hle⟩
    · exact .inl hlt
    · omega
  · rw [hempty, PaxosPeer.promisesFor, List.filter_eq_nil_iff]
    intro m hm heq
    obtain ⟨hmstep, hmid⟩ := of_decide_eq_true heq
    obtain ⟨source, hout⟩ := (h.answered m hm).prepare
    rw [hmstep, hmid] at hout
    exact h.unused hcur hstage hout zero_lt_one rfl

theorem promised (h : Proposer p) (hcall : p.calls[i]? = some call) (hpc : call.pc = .phase1)
    (hstep : call.curStep = p.node.paxos.clock)
    (hflag : p.node.paxos.preparedFlag.lookup p.node.paxos.clock ≠ none) :
    Proposer (p.promised i call
      (SafePaxos.pickValue p.node.paxos.promises p.node.paxos.proposedValue).2) := by
  obtain ⟨hcur, hfor, hne, _⟩ := h.promisesFor_eq hcall hpc hstep hflag
  have hadopts := h.adopts hcall hpc hstep hflag
  refine h.of_call hcall rfl rfl rfl rfl rfl (h.log.concat ⟨?_, ?_, ?_⟩) ?_ ?_ (by simp) (by simp)
  · obtain ⟨m, hm⟩ := List.exists_mem_of_ne_nil _ hne
    rw [hfor] at hm
    obtain ⟨hans, _, hid⟩ := h.mem_promises hm
    exact hid ▸ hans.id
  · rcases hadopts with ⟨m, hm, hval, _⟩ | ⟨_, heq⟩
    · exact ((h.mem_promises hm).1.accepted _ hval).2
    · rw [heq]
      exact h.named call hcur.1
  · intro m hm hmstep hmid
    -- an earlier Propose with this ID would have taken the call past phase 1
    have hb : (PaxosMessage.propose m).ballot = some (p.node.paxos.clock, p.idOf call, 2) := by
      rw [PaxosMessage.ballot, hmstep, hmid, hstep]
    obtain ⟨c, hc, hp⟩ := (h.ballots _ hm _ _ _ hb).2 rfl
    obtain rfl := h.current_unique hc hcur
    rcases hp with hlt | ⟨_, hle⟩
    · omega
    · rw [hpc] at hle
      exact absurd hle (by decide)
  · intro m hm step id k hb
    obtain rfl := List.mem_singleton.mp hm
    obtain ⟨rfl, rfl, rfl⟩ : call.curStep = step ∧ p.idOf call = id ∧ 2 = k := by
      simpa [PaxosMessage.ballot] using hb
    exact ⟨hstep, hcur, .inr ⟨rfl, le_rfl⟩⟩
  · intro id k _ hp
    rcases hp with hlt | ⟨hid, hle⟩
    · exact .inl hlt
    · rw [hpc] at hle
      exact .inr ⟨hid, hle.trans (Nat.le_succ 1)⟩

/-- The lines of a call that send nothing: it goes on within phase 2, or to the next round. -/
theorem setCall (h : Proposer p) (hcall : p.calls[i]? = some call)
    (hval : call'.proposedVal = call.proposedVal) (hpc : 2 ≤ call'.pc.stage ∨ call'.pc = .reset)
    (hpassed : ∀ id k, 0 < k → p.Passed call id k → p.Passed call' id k) :
    Proposer (p.setCall i call') := by
  refine h.of_call hcall rfl rfl (List.append_nil _).symm rfl hval h.log (by simp)
    hpassed ?_ ?_
  · rintro heq
    rw [heq] at hpc
    exact absurd hpc (by decide)
  · intro heq
    rw [heq] at hpc
    exact absurd hpc (by decide)

theorem step {P : PaxosPrimitives} {e : PaxosEvent} (h : Proposer p) (hown : p.OwnRound e)
    (hans : p.Answered e) (hstep : p.step P e = some q) : Proposer q := by
  cases PaxosPeer.step_effect P hstep with
  | receive _ effect => exact h.receive hown hans effect
  | tag peers idle uniq fresh => exact h.tag peers idle uniq fresh
  | reset call_at pc => exact h.reset call_at pc hown
  | getStep call_at pc => exact h.getStep call_at pc hown
  | promised call_at pc step flag => exact h.promised call_at pc step flag
  | @accepted i call call_at pc known =>
    refine h.setCall call_at rfl (.inl le_rfl) fun id k _ hp => ?_
    simpa [PaxosPeer.Passed, PaxosPeer.idOf, pc, ProposePC.stage] using hp
  | @timeout i call call_at pc =>
    refine h.setCall call_at rfl (.inr rfl) fun id k _ hp => .inl ?_
    have hpeers := h.peers call (List.mem_of_getElem? call_at)
    have hle : id ≤ p.idOf call := by
      rcases hp with hlt | ⟨heq, _⟩
      · exact hlt.le
      · exact heq.le
    simp only [PaxosPeer.idOf, Nat.succ_mul] at hle ⊢
    omega
  | @consensus i call call_at pc known =>
    refine h.setCall call_at rfl (.inl le_rfl) fun id k _ hp => ?_
    simpa [PaxosPeer.Passed, PaxosPeer.idOf, pc, ProposePC.stage] using hp

theorem start (conf : PaxosConfig) : Proposer (newPaxosPeer conf) := by
  refine ⟨?_, ?_, ?_, eachAfter_nil, ?_, ?_, ?_, ?_, ?_, ?_⟩ <;>
    simp [newPaxosPeer, newSafePaxos, PaxosPeer.promises, PaxosPeer.Current]

end Proposer

end JobPortal
