import JobPortal.PaxosProposer
import JobPortal.PaxosSends

/-! The peers of one deployment, all of them running the code. What a peer receives was
broadcast by the peer it comes from; messages can be late, out of order or lost. -/
namespace JobPortal

open Runs Histories

variable (P : PaxosPrimitives)

structure PaxosDeployment where
  members : Finset String
  paxosID : String → ℕ
  paxosThreshold : ℕ → ℕ := fun n => n / 2 + 1

def PaxosDeployment.conf (D : PaxosDeployment) (a : String) : PaxosConfig :=
  { myAddr := a, paxosID := D.paxosID a, totalPeers := D.members.card
    paxosThreshold := D.paxosThreshold }

abbrev PaxosNetwork := String → PaxosPeer

namespace PaxosNetwork

variable (D : PaxosDeployment)

def start : PaxosNetwork := fun a => newPaxosPeer (D.conf a)

def step : PaxosNetwork → String × PaxosEvent → Option PaxosNetwork :=
  each (PaxosPeer.step P) (· ∈ D.members)

/-- A rumor holds the message its origin has broadcast under the sequence number. -/
def Genuine (g : PaxosNetwork) : String × PaxosEvent → Prop
  | (_, .receive r) => (g r.origin).sent[r.sequence]? = some r.msg
  | _ => True

instance (g : PaxosNetwork) : (e : String × PaxosEvent) → Decidable (Genuine g e)
  | (_, .receive _) => inferInstanceAs (Decidable (_ = _))
  | (_, .tag ..) | (_, .reset _) | (_, .getStep _) | (_, .promised _) | (_, .accepted _)
  | (_, .timeout _) | (_, .consensus _) => isTrue trivial

def OwnRound (g : PaxosNetwork) (e : String × PaxosEvent) : Prop := (g e.1).OwnRound e.2

instance (g : PaxosNetwork) (e : String × PaxosEvent) : Decidable (OwnRound g e) :=
  inferInstanceAs (Decidable ((g e.1).OwnRound e.2))

variable {P D} {g g' : PaxosNetwork} {a : String} {e : PaxosEvent}

theorem Genuine.sent {r : Rumor} (h : Genuine g (a, .receive r)) : r.msg ∈ (g r.origin).sent :=
  List.mem_of_getElem? h

theorem step_effect (h : step P D g (a, e) = some g') :
    a ∈ D.members ∧ ∃ q, (g a).step P e = some q ∧ g' = Function.update g a q :=
  each_eq_some h

theorem forall_step {I : String → PaxosPeer → Prop} (h : step P D g (a, e) = some g')
    (hg : ∀ b, I b (g b)) (hstep : ∀ q, (g a).step P e = some q → I a q) : ∀ b, I b (g' b) :=
  each_forall h hg fun q hq _ => hstep q hq

theorem sent_mono (h : step P D g (a, e) = some g') (b : String) :
    (g b).sent <+: (g' b).sent :=
  forall_step (I := fun b q => (g b).sent <+: q.sent) h (fun _ => List.prefix_refl _)
    (fun _ hq => ((PaxosPeer.step_effect P hq).histories P).1) b

theorem sent_cases (h : step P D g (a, e) = some g') {b : String} {m : PaxosMessage}
    (hm : m ∈ (g' b).sent) : m ∈ (g b).sent ∨ b = a ∧ (g a).Sends e m := by
  obtain ⟨_, q, hq, rfl⟩ := step_effect h
  by_cases hb : b = a
  · subst hb
    rw [Function.update_self] at hm
    exact ((PaxosPeer.step_effect P hq).sent_cases P hm).imp_right fun hs => ⟨rfl, hs⟩
  · rw [Function.update_of_ne hb] at hm
    exact .inl hm

theorem received_cases (h : step P D g (a, e) = some g') {b : String} {r : Rumor}
    (hr : r ∈ (g' b).received) : r ∈ (g b).received ∨ b = a ∧ e = .receive r := by
  obtain ⟨_, q, hq, rfl⟩ := step_effect h
  by_cases hb : b = a
  · subst hb
    rw [Function.update_self] at hr
    rcases (PaxosPeer.step_effect P hq).received_cases P with hsame | ⟨r', rfl, _, hnew⟩
    · exact .inl (hsame ▸ hr)
    · rw [hnew] at hr
      refine (List.mem_append.mp hr).imp_right fun hr => ⟨rfl, ?_⟩
      rw [List.mem_singleton.mp hr]
  · rw [Function.update_of_ne hb] at hr
    exact .inl hr

theorem received_mono (h : step P D g (a, e) = some g') (b : String) :
    (g b).received <+: (g' b).received :=
  forall_step (I := fun b q => (g b).received <+: q.received) h (fun _ => List.prefix_refl _)
    (fun _ hq => ((PaxosPeer.step_effect P hq).histories P).2) b

/-- What the peers have received was broadcast, and came in once. -/
structure Delivered (D : PaxosDeployment) (g : PaxosNetwork) : Prop where
  config : ∀ a, (newPaxosPeer (D.conf a)).node.SameConfig (g a).node
  member : ∀ a m, m ∈ (g a).sent → a ∈ D.members
  received : ∀ a, ∀ r ∈ (g a).received, (g r.origin).sent[r.sequence]? = some r.msg
  once : ∀ a, ((g a).received.map Rumor.key).Nodup

theorem Delivered.start (D : PaxosDeployment) : Delivered D (PaxosNetwork.start D) where
  config a := by constructor <;> rfl
  member a m hm := by simp [PaxosNetwork.start, newPaxosPeer] at hm
  received a r hr := by simp [PaxosNetwork.start, newPaxosPeer] at hr
  once a := by simp [PaxosNetwork.start, newPaxosPeer]

theorem Delivered.step (h : Delivered D g) (hgen : Genuine g (a, e))
    (hstep : PaxosNetwork.step P D g (a, e) = some g') : Delivered D g' where
  config := forall_step (I := fun b q => (newPaxosPeer (D.conf b)).node.SameConfig q.node) hstep
    h.config fun q hq => (h.config a).trans ((PaxosPeer.step_effect P hq).sameConfig P)
  member b m hm := by
    rcases sent_cases hstep hm with hold | ⟨rfl, _⟩
    · exact h.member b m hold
    · exact (step_effect hstep).1
  received b r hr := by
    apply getElem?_of_prefix (sent_mono hstep r.origin)
    rcases received_cases hstep hr with hold | ⟨rfl, rfl⟩
    · exact h.received b r hold
    · exact hgen
  once := by
    refine forall_step (I := fun _ q => (q.received.map Rumor.key).Nodup) hstep h.once
      fun q hq => ?_
    rcases (PaxosPeer.step_effect P hq).received_cases P with hsame | ⟨r, _, hfresh, hnew⟩
    · exact hsame ▸ h.once a
    · rw [hnew, List.map_append, List.nodup_append]
      refine ⟨h.once a, List.nodup_singleton _, fun k hk k' hk' => ?_⟩
      rintro rfl
      rw [List.map_singleton, List.mem_singleton] at hk'
      exact hfresh (hk' ▸ hk)

end PaxosNetwork

theorem PaxosNode.Effect.accepted_pos {n : PaxosNode} {m : PaxosMessage}
    {r : PaxosNode × List PaxosMessage} {P : PaxosPrimitives} (h : n.Effect P m r)
    (hn : n.paxos.acceptedValue ≠ .zero → 0 < n.paxos.acceptedID)
    (hm : ∀ m', m = .propose m' → 0 < m'.id) :
    r.1.paxos.acceptedValue ≠ .zero → 0 < r.1.paxos.acceptedID := by
  cases h with
  | propose => exact fun _ => hm _ rfl
  | tlc _ caught =>
    rcases caught.moves.of_tlcs with ⟨_, hround⟩ | ⟨_, hclear⟩
    · rw [hround.acceptedValue, hround.acceptedID]
      exact hn
    · exact fun hne => absurd hclear.acceptedValue hne
  | idle => exact hn
  | prepare => exact hn
  | promise => exact hn
  | prepared => exact hn
  | acceptedBefore => exact hn
  | accept => exact hn
  | accepted => exact hn

/-- All promises under way answer a Prepare of their recipient. -/
structure PaxosNetwork.Answering (D : PaxosDeployment) (g : PaxosNetwork) : Prop where
  config : ∀ a, (newPaxosPeer (D.conf a)).node.SameConfig (g a).node
  proposer : ∀ a, Proposer (g a)
  source : ∀ a m, .prepare m ∈ (g a).sent → m.source = a
  answers : ∀ a recipient m, .promise recipient m ∈ (g a).sent → (g recipient).Answers m
  accepted : ∀ a, (g a).node.paxos.acceptedValue ≠ .zero → 0 < (g a).node.paxos.acceptedID

namespace PaxosNetwork.Answering

variable {P} {D : PaxosDeployment} {g g' : PaxosNetwork} {a : String} {e : PaxosEvent}

theorem start : Answering D (PaxosNetwork.start D) where
  config a := by constructor <;> rfl
  proposer a := Proposer.start (D.conf a)
  source a m hm := by simp [PaxosNetwork.start, newPaxosPeer] at hm
  answers a recipient m hm := by simp [PaxosNetwork.start, newPaxosPeer] at hm
  accepted a hne := absurd rfl hne

theorem answered (h : Answering D g) (hgen : Genuine g (a, e)) : (g a).Answered e := by
  cases e with
  | receive r =>
    intro m hto
    have hsent := hgen.sent
    cases hmsg : r.msg with
    | promise recipient m' =>
      rw [hmsg] at hto hsent
      simp only [PaxosMessage.promiseTo] at hto
      split_ifs at hto with haddr
      obtain rfl := Option.some.inj hto
      have hans := h.answers r.origin recipient m' hsent
      have hself : recipient = a := haddr.trans (h.config a).myAddr
      exact hself ▸ hans
    | prepare => simp [hmsg, PaxosMessage.promiseTo] at hto
    | propose => simp [hmsg, PaxosMessage.promiseTo] at hto
    | accept => simp [hmsg, PaxosMessage.promiseTo] at hto
    | tlc => simp [hmsg, PaxosMessage.promiseTo] at hto
  | tag => trivial
  | reset => trivial
  | getStep => trivial
  | promised => trivial
  | accepted => trivial
  | timeout => trivial
  | consensus => trivial

/-- The Propose that a peer receives has a positive ID and a proper value. -/
theorem propose_pos (h : Answering D g) {b : String} {m : PaxosProposeMessage}
    (hm : .propose m ∈ (g b).sent) : 0 < m.id ∧ m.value ≠ .zero := by
  obtain ⟨past, rest, heq⟩ := List.append_of_mem hm
  have hrule := (h.proposer b).log past (.propose m) rest heq
  exact ⟨hrule.1, hrule.2.1⟩

theorem accepted_step (h : Answering D g) (hgen : Genuine g (a, e)) {q : PaxosPeer}
    (hq : (g a).step P e = some q) :
    q.node.paxos.acceptedValue ≠ .zero → 0 < q.node.paxos.acceptedID := by
  cases PaxosPeer.step_effect P hq with
  | receive _ effect =>
    apply effect.accepted_pos (h.accepted a)
    intro m hm
    have hsent := hgen.sent
    rw [hm] at hsent
    exact (h.propose_pos hsent).1
  | reset => exact fun hne => absurd rfl hne
  | tag => exact h.accepted a
  | getStep => exact h.accepted a
  | promised => exact h.accepted a
  | accepted => exact h.accepted a
  | timeout => exact h.accepted a
  | consensus => exact h.accepted a

theorem step (h : Answering D g) (hgen : Genuine g (a, e)) (hown : OwnRound g (a, e))
    (hstep : PaxosNetwork.step P D g (a, e) = some g') : Answering D g' where
  config := forall_step (I := fun b q => (newPaxosPeer (D.conf b)).node.SameConfig q.node) hstep
    h.config fun q hq => (h.config a).trans ((PaxosPeer.step_effect P hq).sameConfig P)
  proposer := forall_step (I := fun _ q => Proposer q) hstep h.proposer fun q hq =>
    (h.proposer a).step hown (h.answered hgen) hq
  source b m hm := by
    rcases sent_cases hstep hm with hold | ⟨rfl, hsends⟩
    · exact h.source b m hold
    · cases hsends with
      | prepare => exact (h.config b).myAddr
  answers b recipient m hm := by
    rcases sent_cases hstep hm with hold | ⟨rfl, hsends⟩
    · exact (h.answers b recipient m hold).mono (sent_mono hstep recipient)
    · cases hsends with
      | @promise r prep msg step id =>
        have hsent := hgen.sent
        rw [msg] at hsent
        rw [← h.source r.origin prep hsent] at hsent
        refine PaxosPeer.Answers.mono (sent_mono hstep prep.source)
          ⟨⟨prep.source, hsent⟩, Nat.zero_lt_of_lt id, fun v hv => ?_⟩
        dsimp only at hv
        split_ifs at hv with hzero
        obtain rfl := Option.some.inj hv
        exact ⟨h.accepted b hzero, hzero⟩
  accepted := forall_step
    (I := fun _ q => q.node.paxos.acceptedValue ≠ .zero → 0 < q.node.paxos.acceptedID) hstep
    h.accepted fun _ hq => h.accepted_step hgen hq

theorem of_run {es : List (String × PaxosEvent)}
    (h : Run (PaxosNetwork.step P D) (fun g e => Genuine g e ∧ OwnRound g e)
      (PaxosNetwork.start D) es g) : Answering D g :=
  h.invariant start fun hg hok hstep => hg.step hok.1 hok.2 hstep

end PaxosNetwork.Answering

/-- Whenever a peer broadcasts a Propose, it has a quorum of promises with the ID of the
Propose, and the value is the one they prescribe. -/
theorem propose_backed {P : PaxosPrimitives} {D : PaxosDeployment}
    {es : List (String × PaxosEvent)} {g g' : PaxosNetwork} {a : String} {e : PaxosEvent}
    (h : Run (PaxosNetwork.step P D) (fun g e => g.Genuine e ∧ g.OwnRound e)
      (PaxosNetwork.start D) es g)
    (hstep : PaxosNetwork.step P D g (a, e) = some g') {out : List PaxosMessage}
    (hout : (g' a).sent = (g a).sent ++ out) {m : PaxosProposeMessage}
    (hm : .propose m ∈ out) :
    ∃ call ∈ (g a).calls, m.step = call.curStep ∧ m.id = (g a).idOf call ∧
      (g a).node.threshold ≤ ((g a).promisesFor m.step m.id).length ∧
      Adopts ((g a).promisesFor m.step m.id) call.proposedVal m.value := by
  have hprop := (PaxosNetwork.Answering.of_run h).proposer a
  obtain ⟨_, q, hq, rfl⟩ := PaxosNetwork.step_effect hstep
  obtain ⟨out', hout', hsends, _⟩ := (PaxosPeer.step_effect P hq).sends
  rw [Function.update_self, hout'] at hout
  obtain rfl := List.append_cancel_left hout
  cases hsends _ hm with
  | propose call_at pc step flag =>
    obtain ⟨hcur, hfor, _, henough⟩ := hprop.promisesFor_eq call_at pc step flag
    exact ⟨_, hcur.1, rfl, rfl, hfor ▸ henough, hprop.adopts call_at pc step flag⟩

namespace PaxosSample

def deployment : PaxosDeployment where
  members := {"A", "B", "C"}
  paxosID a := if a = "A" then 1 else if a = "B" then 2 else 3

def deliver (a b : String) (sequence : ℕ) (msg : PaxosMessage) : String × PaxosEvent :=
  (a, .receive ⟨b, sequence, msg⟩)

def firstRound : List (String × PaxosEvent) :=
  [("A", .tag "x" "f" "m"), ("A", .reset 0), ("A", .getStep 0),
    deliver "B" "A" 0 (.prepare ⟨0, 1, "A"⟩), deliver "C" "A" 0 (.prepare ⟨0, 1, "A"⟩),
    deliver "A" "B" 0 (.promise "A" ⟨0, 1, 0, none⟩),
    deliver "A" "C" 0 (.promise "A" ⟨0, 1, 0, none⟩)]

/-- Its Propose gets lost, and the call tries again. -/
def retry : List (String × PaxosEvent) :=
  [("A", .promised 0), ("A", .timeout 0), ("A", .reset 0), ("A", .getStep 0)]

theorem retry_isSome :
    (exec (guarded (PaxosNetwork.step primitives deployment) PaxosNetwork.Genuine)
      (PaxosNetwork.start deployment) (firstRound ++ retry)).isSome := by
  decide

def retrying : PaxosNetwork :=
  (exec (guarded (PaxosNetwork.step primitives deployment) PaxosNetwork.Genuine)
    (PaxosNetwork.start deployment) (firstRound ++ retry)).get retry_isSome

theorem promised_isSome :
    (PaxosNetwork.step primitives deployment retrying ("A", .promised 0)).isSome := by
  decide

/-- The second Propose of node A goes out with no promise for its ID. -/
theorem phase1_counterexample :
    Run (PaxosNetwork.step primitives deployment) (fun g e => g.Genuine e)
        (PaxosNetwork.start deployment) (firstRound ++ retry) retrying ∧
      ∃ g, PaxosNetwork.step primitives deployment retrying ("A", .promised 0) = some g ∧
        (g "A").sent = (retrying "A").sent ++ [.propose ⟨0, 4, ⟨"x", "f", "m"⟩⟩] ∧
        (retrying "A").promisesFor 0 4 = [] ∧ (retrying "A").node.threshold = 2 :=
  ⟨run_of_guarded (run_exec_get _), _, (Option.some_get promised_isSome).symm,
    by decide, by decide, rfl⟩

theorem firstRound_isSome :
    (exec (guarded (PaxosNetwork.step primitives deployment) fun g e => g.Genuine e ∧ g.OwnRound e)
      (PaxosNetwork.start deployment) firstRound).isSome := by
  decide

def preparedA : PaxosNetwork :=
  (exec (guarded (PaxosNetwork.step primitives deployment) fun g e => g.Genuine e ∧ g.OwnRound e)
    (PaxosNetwork.start deployment) firstRound).get firstRound_isSome

theorem preparedA_isSome :
    (PaxosNetwork.step primitives deployment preparedA ("A", .promised 0)).isSome := by
  decide

theorem propose_backed_firstRound :
    ∃ call ∈ (preparedA "A").calls, 0 = call.curStep ∧ 1 = (preparedA "A").idOf call ∧
      (preparedA "A").node.threshold ≤ ((preparedA "A").promisesFor 0 1).length ∧
      Adopts ((preparedA "A").promisesFor 0 1) call.proposedVal ⟨"x", "f", "m"⟩ := by
  have hout : ((PaxosNetwork.step primitives deployment preparedA ("A", .promised 0)).get
      preparedA_isSome "A").sent =
        (preparedA "A").sent ++ [.propose ⟨0, 1, ⟨"x", "f", "m"⟩⟩] := by
    decide
  exact propose_backed (run_of_guarded (run_exec_get firstRound_isSome))
    (Option.some_get preparedA_isSome).symm hout (List.mem_singleton_self _)

end PaxosSample

end JobPortal
