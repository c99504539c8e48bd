import JobPortal.PaxosAgreement

/-! What a peer records on a count of accepts. Accepts are counted by their value, with neither
their IDs nor their origins looked at; the count stands for a quorum of peers as long as it
does not mix ballots and no peer accepts one ballot twice. -/
namespace JobPortal

open Runs Histories

def PaxosMessage.proposeOf : PaxosMessage → Option PaxosProposeMessage
  | .propose m => some m
  | _ => none

/-- A Propose that the peer is about to accept is not one it has accepted before. -/
def PaxosPeer.AcceptsOnce (p : PaxosPeer) : PaxosEvent → Prop
  | .receive r => ∀ m ∈ r.msg.proposeOf, m.step = p.node.paxos.clock →
      m.id = p.node.paxos.maxID → .accept ⟨m.step, m.id, m.value⟩ ∉ p.sent
  | _ => True

instance (p : PaxosPeer) : (e : PaxosEvent) → Decidable (p.AcceptsOnce e)
  | .receive r => inferInstanceAs (Decidable (∀ m ∈ r.msg.proposeOf, _ → _ → _))
  | .tag .. | .reset _ | .getStep _ | .promised _ | .accepted _ | .timeout _ | .consensus _ =>
    isTrue trivial

def SingleAcceptRule (past : List PaxosMessage) : PaxosMessage → Prop
  | .accept m => .accept m ∉ past
  | _ => True

namespace PaxosNetwork

variable {P : PaxosPrimitives} {D : PaxosDeployment} {g g' : PaxosNetwork} {a : String}
  {e : PaxosEvent}

def CountsPeers (g : PaxosNetwork) (e : String × PaxosEvent) : Prop :=
  Genuine g e ∧ OneBallot g e ∧ (g e.1).AcceptsOnce e.2

instance (g : PaxosNetwork) (e : String × PaxosEvent) : Decidable (CountsPeers g e) :=
  inferInstanceAs (Decidable (_ ∧ _ ∧ _))

/-- The accepts of all peers, and the counters that follow them. -/
structure Tallied (D : PaxosDeployment) (g : PaxosNetwork) : Prop where
  delivered : Delivered D g
  counted : ∀ a, (g a).Counted
  single : ∀ a, EachAfter SingleAcceptRule (g a).sent

namespace Tallied

theorem start (D : PaxosDeployment) : Tallied D (PaxosNetwork.start D) where
  delivered := .start D
  counted _ := .empty rfl
  single _ := eachAfter_nil

theorem step (h : Tallied D g) (hok : CountsPeers g (a, e))
    (hstep : PaxosNetwork.step P D g (a, e) = some g') : Tallied D g' where
  delivered := h.delivered.step hok.1 hstep
  counted := forall_step (I := fun _ q => q.Counted) hstep h.counted fun _ hq =>
    (PaxosPeer.step_effect P hq).counted (h.counted a)
  single := by
    apply forall_step (I := fun _ q => EachAfter SingleAcceptRule q.sent) hstep h.single
    intro q hq
    have heff := PaxosPeer.step_effect P hq
    apply heff.eachAfter P (h.single a) (fun _ _ => trivial)
    intro m hs
    cases hs with
    | @accept r prop msg step id =>
      exact hok.2.2 prop (by simp [msg, PaxosMessage.proposeOf]) step id
    | prepare => trivial
    | propose => trivial
    | promise => trivial
    | tlc => trivial

theorem of_run {es : List (String × PaxosEvent)}
    (h : Run (PaxosNetwork.step P D) CountsPeers (PaxosNetwork.start D) es g) : Tallied D g :=
  h.invariant (start D) fun hg hok hstep => hg.step hok hstep

/-- One rumor holds the only accept of a peer for a Propose. -/
theorem singleAccepts (h : Tallied D g) (a : String) (m : PaxosAcceptMessage) :
    g.SingleAccepts a m := by
  intro r hr r' hr' hmsg hmsg' horigin
  have hat := h.delivered.received a r hr
  have hat' := h.delivered.received a r' hr'
  rw [hmsg, horigin] at hat
  rw [hmsg'] at hat'
  have hseq : r.sequence = r'.sequence := by
    apply (h.single r'.origin).getElem?_inj (S := fun x y => x = .accept m ∧ y = .accept m) _ hat hat'
      ⟨rfl, rfl⟩ ⟨rfl, rfl⟩
    rintro past x hrule y hy ⟨rfl, rfl⟩
    exact hrule hy
  exact List.inj_on_of_nodup_map (h.delivered.once a) hr hr' (Prod.ext horigin hseq)

end Tallied

end PaxosNetwork

/-- A value that a peer records on an accept was accepted by a quorum of peers under one ID. -/
theorem recorded_chosen {P : PaxosPrimitives} {D : PaxosDeployment} {g g' : PaxosNetwork}
    {es : List (String × PaxosEvent)} {a : String} {r : Rumor} {m : PaxosAcceptMessage}
    (h : Run (PaxosNetwork.step P D) PaxosNetwork.CountsPeers (PaxosNetwork.start D) es g)
    (hok : g.CountsPeers (a, .receive r))
    (hstep : PaxosNetwork.step P D g (a, .receive r) = some g') (hmsg : r.msg = .accept m)
    {step : ℕ} {v : PaxosValue} (hbefore : (g a).node.paxos.acceptedMap.lookup step = none)
    (hafter : (g' a).node.paxos.acceptedMap.lookup step = some v) :
    ∃ id, ∃ Q ⊆ D.members, D.paxosThreshold D.members.card ≤ Q.card ∧
      ∀ b ∈ Q, .accept ⟨step, id, v⟩ ∈ (g' b).sent := by
  have hg := PaxosNetwork.Tallied.of_run h
  have hchosen := hg.delivered.chosen_receive hok.1 hstep ((hg.step hok hstep).singleAccepts a m)
    (hg.counted a) hok.2.1 hmsg
  obtain ⟨_, q, hq, hupd⟩ := PaxosNetwork.step_effect hstep
  rw [hupd, Function.update_self] at hafter
  cases PaxosPeer.step_effect P hq with
  | @receive _ n sent _ effect =>
    rw [hmsg] at effect
    dsimp only at hafter
    cases effect with
    | accepted hclock unknown enough =>
      by_cases hcur : step = (g a).node.paxos.clock
      · rw [hcur, Finmap.lookup_insert] at hafter
        rw [hcur, ← hclock, ← Option.some.inj hafter]
        exact hchosen hclock unknown enough
      · rw [Finmap.lookup_insert_of_ne _ hcur, hbefore] at hafter
        cases hafter
    | idle => rw [hbefore] at hafter; cases hafter
    | acceptedBefore => rw [hbefore] at hafter; cases hafter
    | accept => rw [hbefore] at hafter; cases hafter

namespace PaxosSample

/-- B accepts A's value, and once more under the ID of A's second round. -/
def acceptedTwice : List (String × PaxosEvent) :=
  firstRound ++ [("A", .promised 0), deliver "B" "A" 1 (.propose ⟨0, 1, ⟨"x", "f", "m"⟩⟩),
    ("A", .timeout 0), ("A", .reset 0), ("A", .getStep 0),
    deliver "B" "A" 2 (.prepare ⟨0, 4, "A"⟩), ("A", .promised 0),
    deliver "B" "A" 3 (.propose ⟨0, 4, ⟨"x", "f", "m"⟩⟩),
    deliver "C" "B" 1 (.accept ⟨0, 1, ⟨"x", "f", "m"⟩⟩)]

def secondAccept : String × PaxosEvent := deliver "C" "B" 3 (.accept ⟨0, 4, ⟨"x", "f", "m"⟩⟩)

theorem acceptedTwice_isSome :
    (exec (guarded (PaxosNetwork.step primitives deployment) PaxosNetwork.Genuine)
      (PaxosNetwork.start deployment) acceptedTwice).isSome := by
  decide

def oneAcceptor : PaxosNetwork :=
  (exec (guarded (PaxosNetwork.step primitives deployment) PaxosNetwork.Genuine)
    (PaxosNetwork.start deployment) acceptedTwice).get acceptedTwice_isSome

theorem secondAccept_isSome :
    (guarded (PaxosNetwork.step primitives deployment) PaxosNetwork.Genuine oneAcceptor
      secondAccept).isSome := by
  decide

def oneVoter : PaxosNetwork :=
  (guarded (PaxosNetwork.step primitives deployment) PaxosNetwork.Genuine oneAcceptor
    secondAccept).get secondAccept_isSome

/-- C records a value that B alone has accepted. -/
theorem quorum_counterexample :
    Run (PaxosNetwork.step primitives deployment) (fun g e => g.Genuine e)
        (PaxosNetwork.start deployment) (acceptedTwice ++ [secondAccept]) oneVoter ∧
      (oneAcceptor "C").node.paxos.acceptedMap.lookup 0 = none ∧
      (oneVoter "C").node.paxos.acceptedMap.lookup 0 = some ⟨"x", "f", "m"⟩ ∧
      ¬ ∃ id, ∃ Q ⊆ deployment.members,
        deployment.paxosThreshold deployment.members.card ≤ Q.card ∧
          ∀ b ∈ Q, .accept ⟨0, id, ⟨"x", "f", "m"⟩⟩ ∈ (oneVoter b).sent := by
  have hrun : AnyRun (guarded (PaxosNetwork.step primitives deployment) PaxosNetwork.Genuine)
      (PaxosNetwork.start deployment) (acceptedTwice ++ [secondAccept]) oneVoter :=
    (run_exec_get acceptedTwice_isSome).append
      (.one trivial (Option.some_get secondAccept_isSome).symm)
  refine ⟨run_of_guarded hrun, by decide, by decide, ?_⟩
  rintro ⟨id, Q, hQ, hcard, hacc⟩
  have hsilent : ∀ b ∈ deployment.members, b ≠ "B" → ∀ m ∈ (oneVoter b).sent,
      m.acceptOf = none := by
    decide
  have hsub : Q ⊆ {"B"} := by
    intro b hb
    by_contra hne
    have hnone := hsilent b (hQ hb) (by simpa using hne) _ (hacc b hb)
    cases hnone
  have hone := Finset.card_le_card hsub
  have htwo : deployment.paxosThreshold deployment.members.card = 2 := by decide
  rw [Finset.card_singleton] at hone
  omega

theorem twoVotes_isSome :
    (exec (guarded (PaxosNetwork.step primitives deployment) PaxosNetwork.CountsPeers)
      (PaxosNetwork.start deployment) firstChoice.dropLast).isSome := by
  decide

def twoVotes : PaxosNetwork :=
  (exec (guarded (PaxosNetwork.step primitives deployment) PaxosNetwork.CountsPeers)
    (PaxosNetwork.start deployment) firstChoice.dropLast).get twoVotes_isSome

def secondVote : Rumor := ⟨"B", 1, .accept ⟨0, 1, ⟨"x", "f", "m"⟩⟩⟩

theorem secondVote_isSome :
    (PaxosNetwork.step primitives deployment twoVotes ("A", .receive secondVote)).isSome := by
  decide

theorem recorded_chosen_firstChoice :
    ∃ id, ∃ Q ⊆ deployment.members,
      deployment.paxosThreshold deployment.members.card ≤ Q.card ∧
        ∀ b ∈ Q, .accept ⟨0, id, ⟨"x", "f", "m"⟩⟩ ∈
          ((PaxosNetwork.step primitives deployment twoVotes ("A", .receive secondVote)).get
            secondVote_isSome b).sent :=
  recorded_chosen (run_of_guarded (run_exec_get twoVotes_isSome)) (by decide)
    (Option.some_get secondVote_isSome).symm rfl (by decide) (by decide)

end PaxosSample

end JobPortal
