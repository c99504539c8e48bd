import JobPortal.PaxosNetwork
import JobPortal.Quorums

/-! The votes of a Paxos deployment. What its peers have sent for one step follows the rules of
ballot voting, with the PaxosIDs making the ballots of different proposers distinct. -/
namespace JobPortal

open Histories Quorums

structure PaxosDeployment.Numbered (D : PaxosDeployment) : Prop where
  range : ∀ a ∈ D.members, 1 ≤ D.paxosID a ∧ D.paxosID a ≤ D.members.card
  distinct : ∀ a ∈ D.members, ∀ b ∈ D.members, D.paxosID a = D.paxosID b → a = b

def VoterRule (past : List PaxosMessage) : PaxosMessage → Prop
  | .accept m => ∀ m', .accept m' ∈ past → m'.step = m.step → m'.id ≠ m.id
  | _ => True

def PaxosMessage.SameBallot : PaxosMessage → PaxosMessage → Prop
  | .promise _ m, .promise _ m' => m.step = m'.step ∧ m.id = m'.id
  | .propose m, .propose m' => m.step = m'.step ∧ m.id = m'.id
  | .accept m, .accept m' => m.step = m'.step ∧ m.id = m'.id
  | _, _ => False

theorem PaxosMessage.SameBallot.symm {m m' : PaxosMessage} (h : m.SameBallot m') :
    m'.SameBallot m := by
  cases m <;> cases m' <;> first | exact h.elim | exact ⟨h.1.symm, h.2.symm⟩

def BallotRule (past : List PaxosMessage) (m : PaxosMessage) : Prop :=
  AcceptorRule past m ∧ ProposerRule past m ∧ VoterRule past m

theorem BallotRule.once {past : List PaxosMessage} {m : PaxosMessage} (h : BallotRule past m) :
    ∀ m' ∈ past, ¬ m'.SameBallot m := by
  obtain ⟨hacceptor, hproposer, hvoter⟩ := h
  intro m' hm' hsame
  cases m <;> cases m' <;> try exact hsame
  · exact absurd hsame.2 (Nat.ne_of_lt (hacceptor.2.1 _ _ hm' hsame.1))
  · exact hproposer.2.2 _ hm' hsame.1 hsame.2
  · exact hvoter _ hm' hsame.1 hsame.2

def PaxosPromiseMessage.report (m : PaxosPromiseMessage) : Option (ℕ × PaxosValue) :=
  m.acceptedValue.map fun v => (m.acceptedID, v)

namespace PaxosNetwork

variable {P : PaxosPrimitives} {D : PaxosDeployment} {g g' : PaxosNetwork} {a b : String}
  {e : PaxosEvent}

/-- The ballots of one step, read off the messages sent. -/
def ballots (g : PaxosNetwork) (step : ℕ) : Ballots String PaxosValue where
  proposed id v := ∃ a, .propose ⟨step, id, v⟩ ∈ (g a).sent
  accepted a id v := .accept ⟨step, id, v⟩ ∈ (g a).sent
  promised a id r := ∃ recipient m, .promise recipient m ∈ (g a).sent ∧ m.step = step ∧
    m.id = id ∧ r = m.report

/-- Promises of a quorum of acceptors that prescribe the value of a Propose. -/
def Backed (D : PaxosDeployment) (g : PaxosNetwork) (m : PaxosProposeMessage) : Prop :=
  ∃ votes : List (String × PaxosPromiseMessage), (votes.map Prod.fst).Nodup ∧
    D.paxosThreshold D.members.card ≤ votes.length ∧
    (∀ v ∈ votes, ∃ recipient, .promise recipient v.2 ∈ (g v.1).sent ∧ v.2.step = m.step ∧
      v.2.id = m.id) ∧ ∃ own, Adopts (votes.map Prod.snd) own m.value

/-- Neither the rounds nor the acceptors of the peers are disturbed. -/
def Undisturbed (g : PaxosNetwork) (e : String × PaxosEvent) : Prop :=
  Genuine g e ∧ OwnRound g e ∧ (g e.1).ForgetsNothing e.2

instance (g : PaxosNetwork) (e : String × PaxosEvent) : Decidable (Undisturbed g e) :=
  inferInstanceAs (Decidable (_ ∧ _ ∧ _))

structure Voting (D : PaxosDeployment) (g : PaxosNetwork) : Prop where
  answering : Answering D g
  acceptor : ∀ a, Acceptor (g a).node.paxos (g a).sent
  member : ∀ a m, m ∈ (g a).sent → a ∈ D.members
  received : ∀ a, ∀ r ∈ (g a).received, (g r.origin).sent[r.sequence]? = some r.msg
  once : ∀ a, ((g a).received.map Rumor.key).Nodup
  numbered : ∀ a m, .propose m ∈ (g a).sent →
    ∃ round, m.id = D.paxosID a + round * D.members.card
  accepts : ∀ a m, .accept m ∈ (g a).sent →
    ∃ r ∈ (g a).received, r.msg = .propose ⟨m.step, m.id, m.value⟩
  voter : ∀ a, EachAfter VoterRule (g a).sent
  backed : ∀ a m, .propose m ∈ (g a).sent → Backed D g m

theorem Backed.mono {m : PaxosProposeMessage} (h : Backed D g m)
    (hsent : ∀ b, (g b).sent <+: (g' b).sent) : Backed D g' m := by
  obtain ⟨votes, hnodup, henough, hsaid, hadopts⟩ := h
  refine ⟨votes, hnodup, henough, fun v hv => ?_, hadopts⟩
  obtain ⟨recipient, hm, hkey⟩ := hsaid v hv
  exact ⟨recipient, (hsent v.1).subset hm, hkey⟩

namespace Voting

theorem delivered (h : Voting D g) : Delivered D g :=
  ⟨h.answering.config, h.member, h.received, h.once⟩

theorem log (h : Voting D g) (a : String) : EachAfter BallotRule (g a).sent := fun past m rest heq =>
  ⟨(h.acceptor a).log past m rest heq, (h.answering.proposer a).log past m rest heq,
    h.voter a past m rest heq⟩

theorem eq_of_sameBallot (h : Voting D g) {m m' : PaxosMessage} (hm : m ∈ (g a).sent)
    (hm' : m' ∈ (g a).sent) (hsame : m.SameBallot m') : m = m' := by
  obtain ⟨i, hi⟩ := List.mem_iff_getElem?.mp hm
  obtain ⟨j, hj⟩ := List.mem_iff_getElem?.mp hm'
  have hij := (h.log a).getElem?_inj (fun _ _ hrule => hrule.once) hi hj hsame hsame.symm
  subst hij
  exact Option.some.inj (hi.symm.trans hj)

/-- Rumors of one origin with the same ballot are one rumor. -/
theorem key_eq (h : Voting D g) {r r' : Rumor} (hr : (g r.origin).sent[r.sequence]? = some r.msg)
    (hr' : (g r'.origin).sent[r'.sequence]? = some r'.msg) (horigin : r.origin = r'.origin)
    (hsame : r.msg.SameBallot r'.msg) : r.key = r'.key := by
  rw [horigin] at hr
  have hseq := (h.log r'.origin).getElem?_inj (fun _ _ hrule => hrule.once) hr hr' hsame hsame.symm
  exact Prod.ext horigin hseq

theorem rumor_eq (h : Voting D g) {r r' : Rumor} (hr : r ∈ (g a).received)
    (hr' : r' ∈ (g a).received) (horigin : r.origin = r'.origin)
    (hsame : r.msg.SameBallot r'.msg) : r = r' :=
  List.inj_on_of_nodup_map (h.once a) hr hr'
    (h.key_eq (h.received a r hr) (h.received a r' hr') horigin hsame)

theorem proposer_eq (h : Voting D g) (hD : D.Numbered) {m m' : PaxosProposeMessage}
    (hm : .propose m ∈ (g a).sent) (hm' : .propose m' ∈ (g b).sent) (hid : m.id = m'.id) :
    a = b := by
  have ha := h.member a _ hm
  have hb := h.member b _ hm'
  obtain ⟨i, hi⟩ := h.numbered a m hm
  obtain ⟨j, hj⟩ := h.numbered b m' hm'
  obtain ⟨heq, _⟩ := offset_eq (hD.range a ha) (hD.range b hb) (hi.symm.trans (hid.trans hj))
  exact hD.distinct a ha b hb heq

theorem accepted_propose (h : Voting D g) {m : PaxosAcceptMessage} (hm : .accept m ∈ (g a).sent) :
    (∃ b, .propose ⟨m.step, m.id, m.value⟩ ∈ (g b).sent) ∧ m.value ≠ .zero := by
  obtain ⟨r, hr, hmsg⟩ := h.accepts a m hm
  have hsent := List.mem_of_getElem? (h.received a r hr)
  rw [hmsg] at hsent
  exact ⟨⟨r.origin, hsent⟩, (h.answering.propose_pos hsent).2⟩

/-- The promises a peer has received for a ballot come from as many acceptors. -/
theorem voters (h : Voting D g) (a : String) (step id : ℕ) :
    ∃ votes : List (String × PaxosPromiseMessage), (votes.map Prod.fst).Nodup ∧
      votes.map Prod.snd = (g a).promisesFor step id ∧
      ∀ v ∈ votes, ∃ recipient, .promise recipient v.2 ∈ (g v.1).sent ∧ v.2.step = step ∧
        v.2.id = id := by
  have hvote {r : Rumor} {m : PaxosPromiseMessage}
      (hm : ((r.msg.promiseTo (g a).node.myAddr).filter fun m => m.step = step ∧ m.id = id) =
        some m) : r.msg = .promise (g a).node.myAddr m ∧ m.step = step ∧ m.id = id := by
    obtain ⟨hto, hkey⟩ := Option.filter_eq_some_iff.mp hm
    refine ⟨?_, of_decide_eq_true hkey⟩
    cases hmsg : r.msg <;> simp [hmsg, PaxosMessage.promiseTo] at hto
    obtain ⟨rfl, rfl⟩ := hto
    rfl
  obtain ⟨votes, hnodup, hvotes, hfrom⟩ := exists_voters (g a).received
    (fun r => (r.msg.promiseTo (g a).node.myAddr).filter fun m => m.step = step ∧ m.id = id)
    Rumor.origin (h.once a).of_map fun r hr r' hr' hsome hsome' horigin => by
      obtain ⟨m, hm⟩ := Option.isSome_iff_exists.mp hsome
      obtain ⟨m', hm'⟩ := Option.isSome_iff_exists.mp hsome'
      obtain ⟨hmsg, hstep, hid⟩ := hvote hm
      obtain ⟨hmsg', hstep', hid'⟩ := hvote hm'
      apply h.rumor_eq hr hr' horigin
      rw [hmsg, hmsg']
      exact ⟨hstep.trans hstep'.symm, hid.trans hid'.symm⟩
  refine ⟨votes, hnodup, ?_, fun v hv => ?_⟩
  · rw [hvotes, PaxosPeer.promisesFor, PaxosPeer.promises, List.filter_filterMap]
  · obtain ⟨r, hr, horigin, hm⟩ := hfrom v hv
    obtain ⟨hmsg, hkey⟩ := hvote hm
    have hsent := List.mem_of_getElem? (h.received a r hr)
    rw [hmsg, horigin] at hsent
    exact ⟨_, hsent, hkey⟩

/-- A promise that reports nothing bars lower ballots and follows no accept. -/
theorem promised_none (h : Voting D g) {step id : ℕ} (hpromised : (g.ballots step).promised a id none)
    {c : ℕ} {v : PaxosValue} (hv : (g.ballots step).accepted a c v) : id ≤ c := by
  obtain ⟨recipient, m, hm, rfl, rfl, hreport⟩ := hpromised
  have hnone : m.acceptedValue = none := Option.map_eq_none_iff.mp hreport.symm
  rcases (h.log a).either hm hv (by simp) with ⟨past, hsub, hpast, hrule⟩ | ⟨_, _, hpast, hrule⟩
  · -- the value was accepted before the promise, which would have reported one
    rcases hrule.1.1 with ⟨_, _, hno⟩ | ⟨hacc, _⟩
    · exact absurd rfl (hno _ hpast)
    · rw [hnone] at hacc
      exact absurd rfl (h.accepted_propose (hsub hacc)).2
  · exact hrule.1.1 recipient m hpast rfl

/-- A promise reports the highest vote below its ballot. -/
theorem promised_some (h : Voting D g) {step id c : ℕ} {v : PaxosValue}
    (hpromised : (g.ballots step).promised a id (some (c, v))) :
    c < id ∧ (g.ballots step).accepted a c v ∧
      ∀ d w, (g.ballots step).accepted a d w → d < id → d ≤ c := by
  obtain ⟨recipient, m, hm, rfl, rfl, hreport⟩ := hpromised
  obtain ⟨w, hval, heq⟩ := Option.map_eq_some_iff.mp hreport.symm
  obtain ⟨rfl, rfl⟩ := Prod.mk.inj heq
  obtain ⟨past, rest, hsent⟩ := List.append_of_mem hm
  have hrule := h.log a past _ rest hsent
  obtain ⟨hacc, _⟩ := hrule.1.1.resolve_left fun hno => by simp [hval] at hno
  rw [hval] at hacc
  refine ⟨hrule.1.2.2 _ hacc rfl, ?_, fun d x hd hlt => ?_⟩
  · change _ ∈ (g a).sent
    rw [hsent]
    exact List.mem_append_left _ hacc
  · rcases (h.log a).either hm hd (by simp) with ⟨_, _, hpast, hrule'⟩ | ⟨_, _, hpast, hrule'⟩
    · obtain ⟨_, hmax⟩ := hrule'.1.1.resolve_left fun hno => by simp [hval] at hno
      exact hmax _ hpast rfl
    · have := hrule'.1.1 recipient m hpast rfl
      dsimp only at this
      omega

theorem promised_iff (h : Voting D g) {step id : ℕ} {recipient : String} {m : PaxosPromiseMessage}
    (hm : .promise recipient m ∈ (g a).sent) (hstep : m.step = step) (hid : m.id = id)
    {r : Option (ℕ × PaxosValue)} : (g.ballots step).promised a id r ↔ r = m.report := by
  constructor
  · rintro ⟨recipient', m', hm', hstep', hid', rfl⟩
    have := h.eq_of_sameBallot hm' hm ⟨hstep'.trans hstep.symm, hid'.trans hid.symm⟩
    rw [(PaxosMessage.promise.inj this).2]
  · rintro rfl
    exact ⟨recipient, m, hm, hstep, hid, rfl⟩

/-- A proposed value rests on the promises of a quorum. -/
theorem backed_quorum (h : Voting D g) {step id : ℕ} {v : PaxosValue}
    (hproposed : (g.ballots step).proposed id v) :
    ∃ Q ⊆ D.members, D.paxosThreshold D.members.card ≤ Q.card ∧
      (∀ a ∈ Q, ∃ r, (g.ballots step).promised a id r) ∧
      ((∀ a ∈ Q, (g.ballots step).promised a id none) ∨
        ∃ a ∈ Q, ∃ c, (g.ballots step).promised a id (some (c, v)) ∧
          ∀ b ∈ Q, ∀ d w, (g.ballots step).promised b id (some (d, w)) → d ≤ c) := by
  obtain ⟨a, ha⟩ := hproposed
  obtain ⟨votes, hnodup, henough, hsaid, own, hadopts⟩ := h.backed a _ ha
  have hpromised {x : String × PaxosPromiseMessage} (hx : x ∈ votes) {r : Option (ℕ × PaxosValue)} :
      (g.ballots step).promised x.1 id r ↔ r = x.2.report := by
    obtain ⟨recipient, hm, hstep, hid⟩ := hsaid x hx
    exact h.promised_iff hm hstep hid
  have hvoter {q : String} (hq : q ∈ (votes.map Prod.fst).toFinset) :
      ∃ x ∈ votes, x.1 = q := List.mem_map.mp (List.mem_toFinset.mp hq)
  refine ⟨(votes.map Prod.fst).toFinset, ?_, ?_, ?_, ?_⟩
  · intro q hq
    obtain ⟨x, hx, rfl⟩ := hvoter hq
    obtain ⟨_, hm, _⟩ := hsaid x hx
    exact h.member x.1 _ hm
  · rw [List.toFinset_card_of_nodup hnodup, List.length_map]
    exact henough
  · intro q hq
    obtain ⟨x, hx, rfl⟩ := hvoter hq
    exact ⟨_, (hpromised hx).mpr rfl⟩
  · rcases hadopts with ⟨m, hm, hval, hmax⟩ | ⟨hnone, _⟩
    · obtain ⟨x, hx, rfl⟩ := List.mem_map.mp hm
      refine .inr ⟨x.1, List.mem_toFinset.mpr (List.mem_map.mpr ⟨x, hx, rfl⟩), x.2.acceptedID,
        ?_, ?_⟩
      · rw [hpromised hx, PaxosPromiseMessage.report, hval]
        rfl
      · intro q hq c w hw
        obtain ⟨y, hy, rfl⟩ := hvoter hq
        obtain ⟨u, hu, heq⟩ := Option.map_eq_some_iff.mp ((hpromised hy).mp hw).symm
        obtain ⟨rfl, rfl⟩ := Prod.mk.inj heq
        exact hmax y.2 (List.mem_map.mpr ⟨y, hy, rfl⟩) (by simp [hu])
    · apply Or.inl
      intro q hq
      obtain ⟨x, hx, rfl⟩ := hvoter hq
      rw [hpromised hx, PaxosPromiseMessage.report, hnone x.2 (List.mem_map.mpr ⟨x, hx, rfl⟩)]
      rfl

theorem sound (h : Voting D g) (hD : D.Numbered) (step : ℕ) :
    (g.ballots step).Sound D.members (D.paxosThreshold D.members.card) where
  proposed_unique id v w := by
    rintro ⟨a, ha⟩ ⟨b, hb⟩
    obtain rfl := h.proposer_eq hD ha hb rfl
    have := h.eq_of_sameBallot ha hb ⟨rfl, rfl⟩
    exact congrArg PaxosProposeMessage.value (PaxosMessage.propose.inj this)
  accepted_proposed _ _ _ ha := (h.accepted_propose ha).1
  promised_none _ _ hpromised _ _ hv := h.promised_none hpromised hv
  promised_some _ _ _ _ hpromised := h.promised_some hpromised
  backed _ _ hproposed := h.backed_quorum hproposed

theorem start (D : PaxosDeployment) : Voting D (PaxosNetwork.start D) := by
  refine ⟨Answering.start, fun a => ?_, ?_, ?_, ?_, ?_, ?_, fun a => eachAfter_nil, ?_⟩
  · exact ⟨eachAfter_nil, by simp [PaxosNetwork.start, newPaxosPeer],
      by simp [PaxosNetwork.start, newPaxosPeer], le_rfl,
      .inl ⟨rfl, rfl, by simp [PaxosNetwork.start, newPaxosPeer]⟩⟩
  all_goals simp [PaxosNetwork.start, newPaxosPeer]

theorem numbered_step (h : Voting D g) (hstep : PaxosNetwork.step P D g (a, e) = some g')
    {b : String} {m : PaxosProposeMessage} (hm : .propose m ∈ (g' b).sent) :
    ∃ round, m.id = D.paxosID b + round * D.members.card := by
  rcases sent_cases hstep hm with hold | ⟨rfl, hsends⟩
  · exact h.numbered b m hold
  · cases hsends with
    | @propose i call call_at pc step flag =>
      have hconf := h.answering.config b
      refine ⟨call.round, ?_⟩
      rw [PaxosPeer.idOf, hconf.paxosID, hconf.totalPeers]
      rfl

theorem accepts_step (h : Voting D g) (hstep : PaxosNetwork.step P D g (a, e) = some g')
    {b : String} {m : PaxosAcceptMessage} (hm : .accept m ∈ (g' b).sent) :
    ∃ r ∈ (g' b).received, r.msg = .propose ⟨m.step, m.id, m.value⟩ := by
  rcases sent_cases hstep hm with hold | ⟨rfl, hsends⟩
  · obtain ⟨r, hr, hmsg⟩ := h.accepts b m hold
    exact ⟨r, (received_mono hstep b).subset hr, hmsg⟩
  · cases hsends with
    | @accept r prop msg step id =>
      refine ⟨r, ?_, msg⟩
      obtain ⟨_, q, hq, rfl⟩ := step_effect hstep
      rw [Function.update_self, (PaxosPeer.received_receive P hq).2]
      exact List.mem_append_right _ (List.mem_singleton_self r)

theorem voter_step (h : Voting D g) (hD : D.Numbered) (hgen : Genuine g (a, e))
    (hstep : PaxosNetwork.step P D g (a, e) = some g') : ∀ b, EachAfter VoterRule (g' b).sent := by
  apply forall_step (I := fun _ q => EachAfter VoterRule q.sent) hstep h.voter
  intro q hq
  apply (PaxosPeer.step_effect P hq).eachAfter P (h.voter a) (fun _ _ => trivial)
  intro m hs
  cases hs with
  | @accept r prop msg step id =>
    intro m' hm' hstep' hid'
    -- the Propose accepted before came in another rumor, but there is only one for the ballot
    obtain ⟨r', hr', hmsg'⟩ := h.accepts a m' hm'
    have hat' := h.received a r' hr'
    have hsame : r'.msg.SameBallot r.msg := by
      rw [hmsg', msg]
      exact ⟨hstep', hid'⟩
    have hsent := hgen.sent
    have hsent' := List.mem_of_getElem? hat'
    rw [msg] at hsent
    rw [hmsg'] at hsent'
    have hkey := h.key_eq hat' hgen (h.proposer_eq hD hsent' hsent hid') hsame
    apply (PaxosPeer.received_receive P hq).1
    rw [← hkey]
    exact List.mem_map.mpr ⟨r', hr', rfl⟩
  | prepare => trivial
  | propose => trivial
  | promise => trivial
  | tlc => trivial

theorem backed_step (h : Voting D g) (hstep : PaxosNetwork.step P D g (a, e) = some g')
    {b : String} {m : PaxosProposeMessage} (hm : .propose m ∈ (g' b).sent) : Backed D g' m := by
  refine Backed.mono ?_ (sent_mono hstep)
  rcases sent_cases hstep hm with hold | ⟨rfl, hsends⟩
  · exact h.backed b m hold
  · cases hsends with
    | @propose i call call_at pc step flag =>
      have hprop := h.answering.proposer b
      obtain ⟨_, hfor, _, henough⟩ := hprop.promisesFor_eq call_at pc step flag
      obtain ⟨votes, hnodup, hvotes, hsaid⟩ := h.voters b call.curStep ((g b).idOf call)
      refine ⟨votes, hnodup, ?_, hsaid, call.proposedVal, ?_⟩
      · have hlen := congrArg List.length hvotes
        rw [List.length_map, ← hfor] at hlen
        rw [PaxosPeer.threshold_congr (h.answering.config b)] at henough
        exact hlen ▸ henough
      · rw [hvotes]
        exact hprop.adopts call_at pc step flag

theorem step (h : Voting D g) (hD : D.Numbered) (hok : Undisturbed g (a, e))
    (hstep : PaxosNetwork.step P D g (a, e) = some g') : Voting D g' where
  answering := h.answering.step hok.1 hok.2.1 hstep
  acceptor := forall_step (I := fun _ q => Acceptor q.node.paxos q.sent) hstep h.acceptor
    fun _ hq => PaxosPeer.acceptor_step (h.acceptor a) hok.2.2 hq
  member := (h.delivered.step hok.1 hstep).member
  received := (h.delivered.step hok.1 hstep).received
  once := (h.delivered.step hok.1 hstep).once
  numbered _ _ hm := h.numbered_step hstep hm
  accepts _ _ hm := h.accepts_step hstep hm
  voter := h.voter_step hD hok.1 hstep
  backed _ _ hm := h.backed_step hstep hm

end Voting

end PaxosNetwork

end JobPortal
