import JobPortal.Histories
import JobPortal.PaxosPeer

/-! What a step of a peer adds to what it has sent, received and recorded, and why. -/
namespace JobPortal

open Histories

variable (P : PaxosPrimitives)

namespace PaxosPeer

/-- Where a value that is recorded or announced for a step can come from. -/
inductive Records (p : PaxosPeer) : PaxosEvent → ℕ → PaxosValue → Prop
  | known {e : PaxosEvent} {step : ℕ} {v : PaxosValue}
      (known : p.node.paxos.acceptedMap.lookup step = some v) : Records p e step v
  | counted {r : Rumor} {m : PaxosAcceptMessage} (msg : r.msg = .accept m)
      (step : m.step = p.node.paxos.clock)
      (unknown : p.node.paxos.acceptedMap.lookup p.node.paxos.clock = none)
      (enough : p.node.threshold ≤ p.node.paxos.accepts.at m.value 0 + 1) :
      Records p (.receive r) m.step m.value
  | stored {e : PaxosEvent} {step : ℕ} {tlc : TLCMessage}
      (stored : tlc ∈ p.node.paxos.tlcs.at step []) : Records p e step tlc.block.value
  | announced {r : Rumor} {m : TLCMessage} (msg : r.msg = .tlc m) :
      Records p (.receive r) m.step m.block.value

inductive Sends (p : PaxosPeer) : PaxosEvent → PaxosMessage → Prop
  | prepare {i : ℕ} {call : ProposeCall} (call_at : p.calls[i]? = some call) :
      Sends p (.getStep i) (.prepare ⟨p.node.paxos.clock, p.idOf call, p.node.myAddr⟩)
  | propose {i : ℕ} {call : ProposeCall} (call_at : p.calls[i]? = some call)
      (pc : call.pc = .phase1) (step : call.curStep = p.node.paxos.clock)
      (flag : p.node.paxos.preparedFlag.lookup p.node.paxos.clock ≠ none) :
      Sends p (.promised i) (.propose ⟨call.curStep, p.idOf call,
        (SafePaxos.pickValue p.node.paxos.promises p.node.paxos.proposedValue).2⟩)
  | promise {r : Rumor} {m : PaxosPrepareMessage} (msg : r.msg = .prepare m)
      (step : m.step = p.node.paxos.clock) (id : p.node.paxos.maxID < m.id) :
      Sends p (.receive r) (.promise m.source ⟨m.step, m.id, p.node.paxos.acceptedID,
        if p.node.paxos.acceptedValue = .zero then none else some p.node.paxos.acceptedValue⟩)
  | accept {r : Rumor} {m : PaxosProposeMessage} (msg : r.msg = .propose m)
      (step : m.step = p.node.paxos.clock) (id : m.id = p.node.paxos.maxID) :
      Sends p (.receive r) (.accept ⟨m.step, m.id, m.value⟩)
  | tlc {e : PaxosEvent} {step : ℕ} {block : BlockchainBlock}
      (records : p.Records e step block.value) : Sends p e (.tlc ⟨step, block⟩)

/-- TLC messages on file after one more has come in. -/
theorem Records.of_stored {p : PaxosPeer} {r : Rumor} {m tlc : TLCMessage} {step : ℕ}
    {tlcs : GoMap ℕ (List TLCMessage)} (hmsg : r.msg = .tlc m)
    (h : tlcs = p.node.paxos.tlcs ∨
      tlcs = p.node.paxos.tlcs.insert m.step (p.node.paxos.tlcs.at m.step [] ++ [m]))
    (hmem : tlc ∈ tlcs.at step []) : p.Records (.receive r) step tlc.block.value := by
  rcases h with rfl | rfl
  · exact .stored hmem
  · by_cases hstep : step = m.step
    · subst hstep
      rw [GoMap.at, Finmap.lookup_insert] at hmem
      rcases List.mem_append.mp hmem with hold | hnew
      · exact .stored hold
      · obtain rfl := List.mem_singleton.mp hnew
        exact .announced hmsg
    · rw [GoMap.at, Finmap.lookup_insert_of_ne _ hstep] at hmem
      exact .stored hmem

theorem Effect.acceptedMap_cases {p q : PaxosPeer} {e : PaxosEvent} (h : p.Effect P e q)
    {step : ℕ} {v : PaxosValue} (hv : q.node.paxos.acceptedMap.lookup step = some v) :
    p.Records e step v := by
  cases h with
  | @receive r n sent _ effect =>
    obtain ⟨origin, seq, msg⟩ := r
    cases effect with
    | @accepted m hstep unknown enough =>
      by_cases hcur : step = p.node.paxos.clock
      · subst hcur
        obtain rfl : m.value = v := by simpa using hv
        exact hstep ▸ .counted rfl hstep unknown enough
      · exact .known (by simpa [Finmap.lookup_insert_of_ne _ hcur] using hv)
    | tlc stored caught =>
      rcases caught.acceptedMap step v hv with hold | ⟨tlc, htlc, rfl⟩
      · exact .known hold
      · exact .of_stored rfl stored htlc
    | idle => exact .known hv
    | prepare => exact .known hv
    | propose => exact .known hv
    | promise => exact .known hv
    | prepared => exact .known hv
    | acceptedBefore => exact .known hv
    | accept => exact .known hv
  | tag => exact .known hv
  | reset => exact .known hv
  | getStep => exact .known hv
  | promised => exact .known hv
  | accepted => exact .known hv
  | timeout => exact .known hv
  | consensus => exact .known hv

theorem Effect.tlcs_cases {p q : PaxosPeer} {e : PaxosEvent} (h : p.Effect P e q) {step : ℕ}
    {tlc : TLCMessage} (htlc : tlc ∈ q.node.paxos.tlcs.at step []) :
    p.Records e step tlc.block.value := by
  cases h with
  | @receive r n sent _ effect =>
    obtain ⟨origin, seq, msg⟩ := r
    cases effect with
    | tlc stored caught =>
      rw [caught.tlcs] at htlc
      exact .of_stored rfl stored htlc
    | idle => exact .stored htlc
    | prepare => exact .stored htlc
    | propose => exact .stored htlc
    | promise => exact .stored htlc
    | prepared => exact .stored htlc
    | acceptedBefore => exact .stored htlc
    | accept => exact .stored htlc
    | accepted => exact .stored htlc
  | tag => exact .stored htlc
  | reset => exact .stored htlc
  | getStep => exact .stored htlc
  | promised => exact .stored htlc
  | accepted => exact .stored htlc
  | timeout => exact .stored htlc
  | consensus => exact .stored htlc

/-- A step only adds to what has been sent, and every addition has its reason. Only the TLC
catch up sends more than one message. -/
theorem Effect.sends {p q : PaxosPeer} {e : PaxosEvent} (h : p.Effect P e q) :
    ∃ out, q.sent = p.sent ++ out ∧ (∀ m ∈ out, p.Sends e m) ∧
      (out.length ≤ 1 ∨ ∀ m ∈ out, ∃ tlc, m = .tlc tlc) := by
  have silent : ∃ out, p.sent = p.sent ++ out ∧ (∀ m ∈ out, p.Sends e m) ∧
      (out.length ≤ 1 ∨ ∀ m ∈ out, ∃ tlc, m = .tlc tlc) := ⟨[], by simp, by simp, by simp⟩
  have one {m : PaxosMessage} (hm : p.Sends e m) :
      ∃ out, p.sent ++ [m] = p.sent ++ out ∧ (∀ m ∈ out, p.Sends e m) ∧
        (out.length ≤ 1 ∨ ∀ m ∈ out, ∃ tlc, m = .tlc tlc) :=
    ⟨[m], rfl, by simpa using hm, .inl le_rfl⟩
  cases h with
  | @receive r n sent _ effect =>
    obtain ⟨origin, seq, msg⟩ := r
    cases effect with
    | idle => exact ⟨[], rfl, by simp, by simp⟩
    | promise => exact ⟨[], rfl, by simp, by simp⟩
    | prepared => exact ⟨[], rfl, by simp, by simp⟩
    | accept => exact ⟨[], rfl, by simp, by simp⟩
    | prepare step id => exact one (.promise rfl step id)
    | propose step id => exact one (.accept rfl step id)
    | acceptedBefore step known => exact one (.tlc (.known known))
    | accepted step unknown enough => exact one (.tlc (step ▸ .counted rfl step unknown enough))
    | tlc stored caught =>
      refine ⟨sent, rfl, fun m hm => ?_, .inr fun m hm => ?_⟩
      · obtain ⟨step, tlc, htlc, rfl⟩ := caught.sent m hm
        exact .tlc (.of_stored rfl stored htlc)
      · obtain ⟨step, tlc, _, rfl⟩ := caught.sent m hm
        exact ⟨_, rfl⟩
  | getStep call_at _ => exact one (.prepare call_at)
  | promised call_at pc step flag => exact one (.propose call_at pc step flag)
  | tag => exact silent
  | reset => exact silent
  | accepted => exact silent
  | timeout => exact silent
  | consensus => exact silent

theorem Effect.sent_cases {p q : PaxosPeer} {e : PaxosEvent} (h : p.Effect P e q)
    {m : PaxosMessage} (hm : m ∈ q.sent) : m ∈ p.sent ∨ p.Sends e m := by
  obtain ⟨out, hout, hsends, _⟩ := h.sends
  rw [hout] at hm
  exact (List.mem_append.mp hm).imp_right (hsends m)

/-- A rule for the messages of a peer that says nothing about TLC messages is kept if each
new message meets it. -/
theorem Effect.eachAfter {p q : PaxosPeer} {e : PaxosEvent} {R : List PaxosMessage →
    PaxosMessage → Prop} (h : p.Effect P e q) (hlog : EachAfter R p.sent)
    (htlc : ∀ tlc past, R past (.tlc tlc)) (hnew : ∀ m, p.Sends e m → R p.sent m) :
    EachAfter R q.sent := by
  obtain ⟨out, hout, hsends, hshort | htlcs⟩ := h.sends
  · rw [hout]
    match out with
    | [] => simpa using hlog
    | [m] => exact hlog.concat (hnew m (hsends m (List.mem_singleton_self m)))
    | _ :: _ :: _ => simp at hshort
  · rw [hout]
    apply hlog.append
    intro m hm past
    obtain ⟨tlc, rfl⟩ := htlcs m hm
    exact htlc tlc past

theorem received_receive {p q : PaxosPeer} {r : Rumor} (h : p.step P (.receive r) = some q) :
    r.key ∉ p.received.map Rumor.key ∧ q.received = p.received ++ [r] := by
  simp only [step] at h
  split_ifs at h with hfresh
  obtain rfl := Option.some.inj h
  exact ⟨hfresh, rfl⟩

theorem Effect.received_cases {p q : PaxosPeer} {e : PaxosEvent} (h : p.Effect P e q) :
    q.received = p.received ∨ ∃ r, e = .receive r ∧ r.key ∉ p.received.map Rumor.key ∧
      q.received = p.received ++ [r] := by
  cases h with
  | receive fresh _ => exact .inr ⟨_, rfl, fresh, rfl⟩
  | tag => exact .inl rfl
  | reset => exact .inl rfl
  | getStep => exact .inl rfl
  | promised => exact .inl rfl
  | accepted => exact .inl rfl
  | timeout => exact .inl rfl
  | consensus => exact .inl rfl

end PaxosPeer

end JobPortal
