import JobPortal.PaxosNode

/-! The TLC catch up of the Paxos node. It may move the clock over many steps at once; each
move starts the acceptor and the proposer afresh. -/
namespace JobPortal

namespace SafePaxos

/-- The state of one round, which Propose and every new step start afresh. -/
structure SameRound (s t : SafePaxos) : Prop where
  maxID : t.maxID = s.maxID
  acceptedID : t.acceptedID = s.acceptedID
  acceptedValue : t.acceptedValue = s.acceptedValue
  proposedValue : t.proposedValue = s.proposedValue
  promises : t.promises = s.promises
  accepts : t.accepts = s.accepts

structure Cleared (t : SafePaxos) : Prop where
  maxID : t.maxID = 0
  acceptedID : t.acceptedID = 0
  acceptedValue : t.acceptedValue = .zero
  proposedValue : t.proposedValue = .zero
  promises : t.promises = []
  accepts : t.accepts = ∅

theorem SameRound.cleared {s t : SafePaxos} (h : SameRound s t) (hs : Cleared s) : Cleared t where
  maxID := h.maxID.trans hs.maxID
  acceptedID := h.acceptedID.trans hs.acceptedID
  acceptedValue := h.acceptedValue.trans hs.acceptedValue
  proposedValue := h.proposedValue.trans hs.proposedValue
  promises := h.promises.trans hs.promises
  accepts := h.accepts.trans hs.accepts

/-- The clock stays and the round goes on, or it moves and the round is over. -/
def Moves (s t : SafePaxos) : Prop :=
  (t.clock = s.clock ∧ SameRound s t) ∨ (s.clock < t.clock ∧ Cleared t)

theorem Moves.trans {s t u : SafePaxos} (h : Moves s t) (g : Moves t u) : Moves s u := by
  rcases h with ⟨hst, hsame⟩ | ⟨hst, hclear⟩ <;> rcases g with ⟨htu, hsame'⟩ | ⟨htu, hclear'⟩
  · refine .inl ⟨htu.trans hst, ?_⟩
    exact ⟨hsame'.maxID.trans hsame.maxID, hsame'.acceptedID.trans hsame.acceptedID,
      hsame'.acceptedValue.trans hsame.acceptedValue,
      hsame'.proposedValue.trans hsame.proposedValue, hsame'.promises.trans hsame.promises,
      hsame'.accepts.trans hsame.accepts⟩
  · exact .inr ⟨by omega, hclear'⟩
  · exact .inr ⟨by omega, hsame'.cleared hclear⟩
  · exact .inr ⟨by omega, hclear'⟩

theorem Moves.of_tlcs {s t : SafePaxos} {tlcs : GoMap ℕ (List TLCMessage)}
    {consensus : GoMap ℕ PaxosValue}
    (h : Moves { s with tlcs := tlcs, consensus := consensus } t) : Moves s t := by
  have hstored : Moves s { s with tlcs := tlcs, consensus := consensus } :=
    .inl ⟨rfl, by constructor <;> rfl⟩
  exact hstored.trans h

theorem receiveTLC_cases (s : SafePaxos) (tlc : TLCMessage) (threshold : ℕ) :
    ∃ tlcs consensus, s.receiveTLC tlc threshold =
        { s with tlcs := tlcs, consensus := consensus } ∧
      (tlcs = s.tlcs ∨ tlcs = s.tlcs.insert tlc.step (s.tlcs.at tlc.step [] ++ [tlc])) := by
  unfold receiveTLC
  split_ifs
  · dsimp only
    split_ifs
    · exact ⟨_, _, rfl, .inr rfl⟩
    · exact ⟨_, s.consensus, rfl, .inr rfl⟩
  · exact ⟨s.tlcs, s.consensus, rfl, .inl rfl⟩

theorem receiveTLC_clock (s : SafePaxos) (tlc : TLCMessage) (threshold : ℕ) :
    (s.receiveTLC tlc threshold).clock = s.clock := by
  obtain ⟨tlcs, consensus, heq, _⟩ := s.receiveTLC_cases tlc threshold
  rw [heq]

theorem receiveTLC_acceptedMap (s : SafePaxos) (tlc : TLCMessage) (threshold : ℕ) :
    (s.receiveTLC tlc threshold).acceptedMap = s.acceptedMap := by
  obtain ⟨tlcs, consensus, heq, _⟩ := s.receiveTLC_cases tlc threshold
  rw [heq]

theorem getBlockAndAdvance_eq_some {s t : SafePaxos} {step : ℕ} {b : BlockchainBlock}
    (h : s.getBlockAndAdvance step = some (b, t)) :
    step = s.clock ∧ (∃ tlc ∈ s.tlcs.at step [], tlc.block = b) ∧ t.clock = s.clock + 1 ∧
      Cleared t ∧ t.tlcs = s.tlcs ∧ t.consensus = s.consensus ∧
      t.preparedFlag = s.preparedFlag ∧ t.acceptedMap = s.acceptedMap := by
  unfold getBlockAndAdvance at h
  split_ifs at h with hstep _
  obtain ⟨tlc, htlc, heq⟩ := Option.map_eq_some_iff.mp h
  obtain ⟨rfl, rfl⟩ := Prod.mk.inj heq
  exact ⟨by simpa using hstep, ⟨tlc, List.mem_of_head? htlc, rfl⟩, rfl, by constructor <;> rfl,
    rfl, rfl, rfl, rfl⟩

end SafePaxos

variable (P : PaxosPrimitives)

namespace PaxosNode

structure SameConfig (n m : PaxosNode) : Prop where
  myAddr : m.myAddr = n.myAddr
  paxosID : m.paxosID = n.paxosID
  totalPeers : m.totalPeers = n.totalPeers
  paxosThreshold : m.paxosThreshold = n.paxosThreshold

theorem SameConfig.trans {n m l : PaxosNode} (h : n.SameConfig m) (g : m.SameConfig l) :
    n.SameConfig l where
  myAddr := g.myAddr.trans h.myAddr
  paxosID := g.paxosID.trans h.paxosID
  totalPeers := g.totalPeers.trans h.totalPeers
  paxosThreshold := g.paxosThreshold.trans h.paxosThreshold

/-- What a catch up does. Values it records and blocks it broadcasts are those of received
TLC messages. -/
structure CaughtUp (n : PaxosNode) (r : PaxosNode × List PaxosMessage) : Prop where
  config : n.SameConfig r.1
  moves : n.paxos.Moves r.1.paxos
  preparedFlag : r.1.paxos.preparedFlag = n.paxos.preparedFlag
  tlcs : r.1.paxos.tlcs = n.paxos.tlcs
  consensus : r.1.paxos.consensus = n.paxos.consensus
  acceptedMap : ∀ step v, r.1.paxos.acceptedMap.lookup step = some v →
    n.paxos.acceptedMap.lookup step = some v ∨
      ∃ tlc ∈ n.paxos.tlcs.at step [], tlc.block.value = v
  sent : ∀ m ∈ r.2, ∃ step, ∃ tlc ∈ n.paxos.tlcs.at step [], m = .tlc ⟨step, tlc.block⟩

theorem CaughtUp.refl (n : PaxosNode) : CaughtUp n (n, []) where
  config := by constructor <;> rfl
  moves := .inl ⟨rfl, by constructor <;> rfl⟩
  preparedFlag := rfl
  tlcs := rfl
  consensus := rfl
  acceptedMap _ _ h := .inl h
  sent := by simp

theorem CaughtUp.trans {n m l : PaxosNode} {ms ls : List PaxosMessage} (h : CaughtUp n (m, ms))
    (g : CaughtUp m (l, ls)) : CaughtUp n (l, ms ++ ls) where
  config := h.config.trans g.config
  moves := h.moves.trans g.moves
  preparedFlag := g.preparedFlag.trans h.preparedFlag
  tlcs := g.tlcs.trans h.tlcs
  consensus := g.consensus.trans h.consensus
  acceptedMap step v hv := by
    rcases g.acceptedMap step v hv with hm | ⟨tlc, htlc, rfl⟩
    · exact h.acceptedMap step v hm
    · rw [h.tlcs] at htlc
      exact .inr ⟨tlc, htlc, rfl⟩
  sent x hx := by
    rcases List.mem_append.mp hx with hm | hl
    · exact h.sent x hm
    · have := g.sent x hl
      rwa [h.tlcs] at this

theorem tlcAdvance_caughtUp {n : PaxosNode} {step : ℕ} {catchUp : Bool}
    {r : PaxosNode × List PaxosMessage} (h : n.tlcAdvance P step catchUp = some r) :
    CaughtUp n r ∧ r.1.paxos.clock = n.paxos.clock + 1 := by
  obtain ⟨⟨b, s⟩, hadv, rfl⟩ := Option.map_eq_some_iff.mp h
  obtain ⟨rfl, ⟨tlc, htlc, rfl⟩, hclock, hclear, htlcs, hcons, hflag, hacc⟩ :=
    SafePaxos.getBlockAndAdvance_eq_some hadv
  have hmoves : n.paxos.Moves s := .inr ⟨by omega, hclear⟩
  dsimp only
  split_ifs with hquiet
  · refine ⟨?_, hclock⟩
    exact ⟨by constructor <;> rfl, hmoves, hflag, htlcs, hcons,
      fun _ _ hv => .inl (by simpa [addBlock, hacc] using hv), by simp⟩
  · refine ⟨⟨by constructor <;> rfl, ?_, hflag, htlcs, hcons, ?_, ?_⟩, hclock⟩
    · exact hmoves.trans (.inl ⟨rfl, by constructor <;> rfl⟩)
    · intro k v hv
      by_cases hk : k = n.paxos.clock
      · subst hk
        refine .inr ⟨tlc, htlc, ?_⟩
        simpa [SafePaxos.updateAcceptedMap] using hv
      · apply Or.inl
        simpa [SafePaxos.updateAcceptedMap, addBlock, hacc, Finmap.lookup_insert_of_ne _ hk]
          using hv
    · intro m hm
      obtain rfl := List.mem_singleton.mp hm
      exact ⟨_, tlc, htlc, rfl⟩

theorem tlcProcess_caughtUp (fuel : ℕ) (n : PaxosNode) (step : ℕ) (catchUp : Bool) :
    CaughtUp n (tlcProcess P fuel n step catchUp) := by
  induction fuel generalizing n step catchUp with
  | zero => exact .refl n
  | succ fuel ih =>
    unfold tlcProcess
    split
    · exact .refl n
    · rename_i m sent hadv
      exact (tlcAdvance_caughtUp P hadv).1.trans (ih m (step + 1) true)

/-- A round of the catch up is quiet if it is not the first, or if the step is known already. -/
theorem tlcAdvance_cases {n m : PaxosNode} {step : ℕ} {catchUp : Bool} {sent : List PaxosMessage}
    (h : n.tlcAdvance P step catchUp = some (m, sent)) :
    ∃ block s, n.paxos.getBlockAndAdvance step = some (block, s) ∧
      m.storage = (n.addBlock P block).storage ∧ m.threshold = n.threshold ∧
      ((m.paxos = s ∧ sent = []) ∨
        (catchUp = false ∧ s.acceptedMap.lookup step = none ∧
          m.paxos = s.updateAcceptedMap step block.value ∧ sent = [.tlc ⟨step, block⟩])) := by
  obtain ⟨⟨block, s⟩, hfound, heq⟩ := Option.map_eq_some_iff.mp h
  dsimp only at heq
  refine ⟨block, s, hfound, ?_⟩
  split_ifs at heq with hquiet <;> obtain ⟨rfl, rfl⟩ := Prod.mk.inj heq
  · exact ⟨rfl, rfl, .inl ⟨rfl, rfl⟩⟩
  · obtain ⟨hfirst, hunknown⟩ : catchUp = false ∧ s.acceptedMap.lookup step = none := by
      simpa [SafePaxos.checkAccept, addBlock] using hquiet
    exact ⟨rfl, rfl, .inr ⟨hfirst, hunknown, rfl, rfl⟩⟩

def ahead (n : PaxosNode) : Finset ℕ := n.paxos.consensus.keys.filter (n.paxos.clock ≤ ·)

theorem tlcAdvance_ahead {n m : PaxosNode} {catchUp : Bool} {sent : List PaxosMessage}
    (h : n.tlcAdvance P n.paxos.clock catchUp = some (m, sent)) : m.ahead.card < n.ahead.card := by
  obtain ⟨hcaught, hclock⟩ := tlcAdvance_caughtUp P h
  dsimp only at hclock
  have hmem : n.paxos.clock ∈ n.paxos.consensus.keys := by
    obtain ⟨⟨b, s⟩, hget, _⟩ := Option.map_eq_some_iff.mp h
    by_contra hnot
    have hnone : n.paxos.consensus.lookup n.paxos.clock = none :=
      Finmap.lookup_eq_none.mpr fun hin => hnot (Finmap.mem_keys.mpr hin)
    simp [SafePaxos.getBlockAndAdvance, hnone] at hget
  refine Finset.card_lt_card (Finset.ssubset_iff_of_subset ?_ |>.mpr ?_)
  · intro k hk
    rw [ahead, hcaught.consensus, hclock] at hk
    rw [Finset.mem_filter] at hk
    exact Finset.mem_filter.mpr ⟨hk.1, by omega⟩
  · refine ⟨n.paxos.clock, Finset.mem_filter.mpr ⟨hmem, le_rfl⟩, ?_⟩
    rw [ahead, Finset.mem_filter, hclock]
    omega

/-- The fuel is enough: when the catch up stops there is nothing left to advance over. -/
theorem tlcProcess_settled (fuel : ℕ) (n : PaxosNode) (catchUp : Bool)
    (hfuel : n.ahead.card < fuel) :
    let r := (tlcProcess P fuel n n.paxos.clock catchUp).1
    r.paxos.getBlockAndAdvance r.paxos.clock = none := by
  induction fuel generalizing n catchUp with
  | zero => omega
  | succ fuel ih =>
    unfold tlcProcess
    cases hadv : n.tlcAdvance P n.paxos.clock catchUp with
    | none => simpa [tlcAdvance] using hadv
    | some r =>
      obtain ⟨m, sent⟩ := r
      have hclock : m.paxos.clock = n.paxos.clock + 1 := (tlcAdvance_caughtUp P hadv).2
      have hless := tlcAdvance_ahead P hadv
      dsimp only
      rw [← hclock]
      exact ih m true (by omega)

theorem ahead_card_le (n : PaxosNode) : n.ahead.card < n.paxos.consensus.keys.card + 1 :=
  Nat.lt_succ_of_le (Finset.card_le_card (Finset.filter_subset _ _))

/-- A TLC message is worked off: the next step is left waiting for its consensus. -/
theorem execTLCMessage_settled (n : PaxosNode) (tlc : TLCMessage) :
    let m := (n.execTLCMessage P tlc).1
    m.paxos.getBlockAndAdvance m.paxos.clock = none := by
  apply tlcProcess_settled
  exact ahead_card_le _

end PaxosNode

end JobPortal
