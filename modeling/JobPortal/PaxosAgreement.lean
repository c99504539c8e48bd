import JobPortal.PaxosVoting

/-! Paxos agreement. A value that a peer records in acceptedMap was accepted by a majority in
one ballot, so no two peers record different values for a step. -/
namespace JobPortal

open Runs Quorums

def PaxosMessage.acceptOf : PaxosMessage → Option PaxosAcceptMessage
  | .accept m => some m
  | _ => none

namespace PaxosPeer

def acceptsFor (p : PaxosPeer) (step : ℕ) (v : PaxosValue) : List PaxosAcceptMessage :=
  p.received.filterMap fun r => r.msg.acceptOf.filter fun m => m.step = step ∧ m.value = v

/-- The accepts that make the peer record their value carry one ID. -/
def OneBallot (p : PaxosPeer) : PaxosEvent → Prop
  | .receive r => ∀ m ∈ r.msg.acceptOf, m.step = p.node.paxos.clock →
      p.node.paxos.acceptedMap.lookup p.node.paxos.clock = none →
      p.node.threshold ≤ p.node.paxos.accepts.at m.value 0 + 1 →
      ∀ m' ∈ p.acceptsFor m.step m.value, m'.id = m.id
  | _ => True

instance (p : PaxosPeer) : (e : PaxosEvent) → Decidable (p.OneBallot e)
  | .receive _ => by unfold OneBallot; infer_instance
  | .tag .. | .reset _ | .getStep _ | .promised _ | .accepted _ | .timeout _ | .consensus _ =>
    isTrue trivial

variable {P : PaxosPrimitives} {p q : PaxosPeer} {e : PaxosEvent}

theorem mem_acceptsFor {step : ℕ} {v : PaxosValue} {r : Rumor} {m : PaxosAcceptMessage} :
    (r.msg.acceptOf.filter fun m => m.step = step ∧ m.value = v) = some m ↔
      r.msg = .accept m ∧ m.step = step ∧ m.value = v := by
  rw [Option.filter_eq_some_iff, decide_eq_true_iff]
  apply and_congr_left
  intro _
  cases r.msg <;> simp [PaxosMessage.acceptOf]

theorem acceptsFor_concat {r : Rumor} (hrecv : q.received = p.received ++ [r]) (step : ℕ)
    (v : PaxosValue) : q.acceptsFor step v = p.acceptsFor step v ++
      (r.msg.acceptOf.filter fun m => m.step = step ∧ m.value = v).toList := by
  rw [acceptsFor, hrecv, List.filterMap_append]
  rfl

def Counted (p : PaxosPeer) : Prop :=
  ∀ v, p.node.paxos.accepts.at v 0 ≤ (p.acceptsFor p.node.paxos.clock v).length

theorem Counted.mono (h : p.Counted) (hrecv : p.received <+: q.received)
    (hclock : q.node.paxos.clock = p.node.paxos.clock)
    (haccepts : q.node.paxos.accepts = p.node.paxos.accepts) : q.Counted := by
  intro v
  rw [hclock, haccepts]
  obtain ⟨rs, hrs⟩ := hrecv
  apply (h v).trans
  rw [acceptsFor, acceptsFor, ← hrs, List.filterMap_append, List.length_append]
  exact Nat.le_add_right _ _

theorem Counted.empty (h : p.node.paxos.accepts = ∅) : p.Counted := by
  intro v
  rw [h]
  exact Nat.zero_le _

theorem Counted.accept (h : p.Counted) {r : Rumor} {m : PaxosAcceptMessage}
    (hmsg : r.msg = .accept m) (hstep : m.step = p.node.paxos.clock)
    (hrecv : q.received = p.received ++ [r])
    (hclock : q.node.paxos.clock = p.node.paxos.clock)
    (haccepts : q.node.paxos.accepts =
      p.node.paxos.accepts.insert m.value (p.node.paxos.accepts.at m.value 0 + 1)) :
    q.Counted := by
  intro v
  rw [hclock, haccepts, acceptsFor_concat hrecv, List.length_append]
  by_cases hv : v = m.value
  · subst hv
    have hone : (r.msg.acceptOf.filter fun m' =>
        m'.step = p.node.paxos.clock ∧ m'.value = m.value) = some m :=
      mem_acceptsFor.mpr ⟨hmsg, hstep, rfl⟩
    rw [hone, GoMap.at_insert_self]
    exact Nat.succ_le_succ (h m.value)
  · rw [GoMap.at_insert_of_ne hv]
    exact (h v).trans (Nat.le_add_right _ _)

theorem Effect.counted (heff : p.Effect P e q) (h : p.Counted) : q.Counted := by
  have hrecv := (heff.histories P).2
  cases heff with
  | @receive r n sent _ effect =>
    obtain ⟨origin, seq, msg⟩ := r
    cases effect with
    | accept step _ _ => exact h.accept rfl step rfl rfl rfl
    | accepted step _ _ => exact h.accept rfl step rfl rfl rfl
    | tlc _ caught =>
      rcases caught.moves.of_tlcs with ⟨hclock, hround⟩ | ⟨_, hclear⟩
      · exact h.mono hrecv hclock hround.accepts
      · exact .empty hclear.accepts
    | idle => exact h.mono hrecv rfl rfl
    | prepare => exact h.mono hrecv rfl rfl
    | propose => exact h.mono hrecv rfl rfl
    | promise => exact h.mono hrecv rfl rfl
    | prepared => exact h.mono hrecv rfl rfl
    | acceptedBefore => exact h.mono hrecv rfl rfl
  | reset => exact .empty rfl
  | tag => exact h.mono hrecv rfl rfl
  | getStep => exact h.mono hrecv rfl rfl
  | promised => exact h.mono hrecv rfl rfl
  | accepted => exact h.mono hrecv rfl rfl
  | timeout => exact h.mono hrecv rfl rfl
  | consensus => exact h.mono hrecv rfl rfl

end PaxosPeer

namespace PaxosNetwork

variable {P : PaxosPrimitives} {D : PaxosDeployment} {g g' : PaxosNetwork} {a : String}
  {e : PaxosEvent}

/-- A quorum has accepted the value in some ballot of the step. -/
def Chosen (D : PaxosDeployment) (g : PaxosNetwork) (step : ℕ) (v : PaxosValue) : Prop :=
  ∃ id, (g.ballots step).Chosen D.members (D.paxosThreshold D.members.card) id v

theorem Chosen.mono {step : ℕ} {v : PaxosValue} (h : Chosen D g step v)
    (hsent : ∀ b, (g b).sent <+: (g' b).sent) : Chosen D g' step v := by
  obtain ⟨id, Q, hQ, hcard, hacc⟩ := h
  exact ⟨id, Q, hQ, hcard, fun b hb => (hsent b).subset (hacc b hb)⟩

/-- The accepts of a ballot that a peer has received all come from different peers. -/
def SingleAccepts (g : PaxosNetwork) (a : String) (m : PaxosAcceptMessage) : Prop :=
  ∀ r ∈ (g a).received, ∀ r' ∈ (g a).received, r.msg = .accept m → r'.msg = .accept m →
    r.origin = r'.origin → r = r'

/-- Enough accepts of one ballot, each from another peer, are a choice. -/
theorem Delivered.chosen (h : Delivered D g) {step id : ℕ} {v : PaxosValue}
    (hsingle : g.SingleAccepts a ⟨step, id, v⟩)
    (hid : ∀ m ∈ (g a).acceptsFor step v, m.id = id)
    (henough : D.paxosThreshold D.members.card ≤ ((g a).acceptsFor step v).length) :
    Chosen D g step v := by
  have hmsg {r : Rumor} (hr : r ∈ (g a).received) {m : PaxosAcceptMessage}
      (hm : (r.msg.acceptOf.filter fun m => m.step = step ∧ m.value = v) = some m) :
      r.msg = .accept ⟨step, id, v⟩ := by
    obtain ⟨hmsg, rfl, rfl⟩ := PaxosPeer.mem_acceptsFor.mp hm
    rw [hmsg, ← hid m (List.mem_filterMap.mpr ⟨r, hr, hm⟩)]
  obtain ⟨votes, hnodup, hvotes, hfrom⟩ := exists_voters (g a).received
    (fun r => r.msg.acceptOf.filter fun m => m.step = step ∧ m.value = v) Rumor.origin
    (h.once a).of_map fun r hr r' hr' hsome hsome' horigin => by
      obtain ⟨m, hm⟩ := Option.isSome_iff_exists.mp hsome
      obtain ⟨m', hm'⟩ := Option.isSome_iff_exists.mp hsome'
      exact hsingle r hr r' hr' (hmsg hr hm) (hmsg hr' hm') horigin
  have hvote {q : String} (hq : q ∈ (votes.map Prod.fst).toFinset) :
      .accept ⟨step, id, v⟩ ∈ (g q).sent := by
    obtain ⟨x, hx, rfl⟩ := List.mem_map.mp (List.mem_toFinset.mp hq)
    obtain ⟨r, hr, horigin, hm⟩ := hfrom x hx
    have hsent := List.mem_of_getElem? (h.received a r hr)
    rwa [hmsg hr hm, horigin] at hsent
  refine ⟨id, (votes.map Prod.fst).toFinset, fun q hq => h.member q _ (hvote hq), ?_,
    fun q hq => hvote hq⟩
  have hlen := congrArg List.length hvotes
  rw [List.length_map] at hlen
  rw [List.toFinset_card_of_nodup hnodup, List.length_map, hlen]
  exact henough

/-- In a proper vote no peer accepts a ballot twice. -/
theorem Voting.singleAccepts (h : Voting D g) (a : String) (m : PaxosAcceptMessage) :
    g.SingleAccepts a m := by
  intro r hr r' hr' hmsg hmsg' horigin
  apply h.rumor_eq hr hr' horigin
  rw [hmsg, hmsg']
  exact ⟨rfl, rfl⟩

/-- The accepts that a peer counts together belong to one ballot. -/
def OneBallot (g : PaxosNetwork) (e : String × PaxosEvent) : Prop := (g e.1).OneBallot e.2

instance (g : PaxosNetwork) (e : String × PaxosEvent) : Decidable (OneBallot g e) :=
  inferInstanceAs (Decidable ((g e.1).OneBallot e.2))

/-- An accept that completes the count of its value completes a choice. -/
theorem Delivered.chosen_receive (h : Delivered D g) {r : Rumor}
    (hgen : Genuine g (a, .receive r))
    (hstep : PaxosNetwork.step P D g (a, .receive r) = some g') {m : PaxosAcceptMessage}
    (hsingle : g'.SingleAccepts a m) (hcounted : (g a).Counted)
    (hone : OneBallot g (a, .receive r)) (msg : r.msg = .accept m)
    (hclock : m.step = (g a).node.paxos.clock)
    (unknown : (g a).node.paxos.acceptedMap.lookup (g a).node.paxos.clock = none)
    (enough : (g a).node.threshold ≤ (g a).node.paxos.accepts.at m.value 0 + 1) :
    Chosen D g' m.step m.value := by
  have h' := h.step hgen hstep
  obtain ⟨_, q, hq, rfl⟩ := step_effect hstep
  have hrecv := (PaxosPeer.received_receive P hq).2
  have hlast : (r.msg.acceptOf.filter fun m' => m'.step = m.step ∧ m'.value = m.value) = some m :=
    PaxosPeer.mem_acceptsFor.mpr ⟨msg, rfl, rfl⟩
  have hfor : (Function.update g a q a).acceptsFor m.step m.value =
      (g a).acceptsFor m.step m.value ++ [m] := by
    rw [Function.update_self, PaxosPeer.acceptsFor_concat hrecv, hlast]
    rfl
  have hids := hone m (by simp [msg, PaxosMessage.acceptOf]) hclock unknown enough
  have hids' : ∀ m' ∈ (Function.update g a q a).acceptsFor m.step m.value, m'.id = m.id := by
    intro m' hm'
    rw [hfor] at hm'
    rcases List.mem_append.mp hm' with hold | hnew
    · exact hids m' hold
    · rw [List.mem_singleton.mp hnew]
  apply h'.chosen hsingle hids'
  rw [hfor, List.length_append, List.length_singleton]
  rw [PaxosPeer.threshold_congr (h.config a)] at enough
  have hcount := hcounted m.value
  rw [← hclock] at hcount
  exact enough.trans (Nat.succ_le_succ hcount)

/-- Every value that a peer has on record for a step is chosen. -/
structure Recorded (D : PaxosDeployment) (g : PaxosNetwork) : Prop where
  voting : Voting D g
  counted : ∀ a, (g a).Counted
  acceptedMap : ∀ a step v, (g a).node.paxos.acceptedMap.lookup step = some v → Chosen D g step v
  tlcs : ∀ a step, ∀ tlc ∈ (g a).node.paxos.tlcs.at step [], Chosen D g step tlc.block.value
  sent : ∀ a tlc, .tlc tlc ∈ (g a).sent → Chosen D g tlc.step tlc.block.value

namespace Recorded

theorem start (D : PaxosDeployment) : Recorded D (PaxosNetwork.start D) where
  voting := .start D
  counted a := .empty rfl
  acceptedMap a step v h := by simp [PaxosNetwork.start, newPaxosPeer, newSafePaxos] at h
  tlcs a step tlc h := by simp [PaxosNetwork.start, newPaxosPeer, newSafePaxos, GoMap.at] at h
  sent a tlc h := by simp [PaxosNetwork.start, newPaxosPeer] at h

theorem chosen (h : Recorded D g) (h' : Voting D g') (hgen : Genuine g (a, e))
    (hone : OneBallot g (a, e)) (hstep : PaxosNetwork.step P D g (a, e) = some g') {step : ℕ}
    {v : PaxosValue} (hrec : (g a).Records e step v) : Chosen D g' step v := by
  cases hrec with
  | known known => exact (h.acceptedMap a step v known).mono (sent_mono hstep)
  | stored stored => exact (h.tlcs a step _ stored).mono (sent_mono hstep)
  | announced msg =>
    have hsent := hgen.sent
    rw [msg] at hsent
    exact (h.sent _ _ hsent).mono (sent_mono hstep)
  | counted msg hclock unknown enough =>
    exact h.voting.delivered.chosen_receive hgen hstep (h'.singleAccepts a _) (h.counted a) hone
      msg hclock unknown enough

theorem step (h : Recorded D g) (hD : D.Numbered) (hok : Undisturbed g (a, e))
    (hone : OneBallot g (a, e)) (hstep : PaxosNetwork.step P D g (a, e) = some g') :
    Recorded D g' := by
  have h' : Voting D g' := h.voting.step hD hok hstep
  have hchosen {step : ℕ} {v : PaxosValue} (hrec : (g a).Records e step v) : Chosen D g' step v :=
    h.chosen h' hok.1 hone hstep hrec
  refine ⟨h', ?_, ?_, ?_, ?_⟩
  · exact forall_step (I := fun _ q => q.Counted) hstep h.counted fun q hq =>
      (PaxosPeer.step_effect P hq).counted (h.counted a)
  · refine forall_step (I := fun _ q => ∀ step v,
      q.node.paxos.acceptedMap.lookup step = some v → Chosen D g' step v) hstep ?_ ?_
    · exact fun b step v hv => (h.acceptedMap b step v hv).mono (sent_mono hstep)
    · exact fun q hq step v hv =>
        hchosen ((PaxosPeer.step_effect P hq).acceptedMap_cases P hv)
  · refine forall_step (I := fun _ q => ∀ step, ∀ tlc ∈ q.node.paxos.tlcs.at step [],
      Chosen D g' step tlc.block.value) hstep ?_ ?_
    · exact fun b step tlc htlc => (h.tlcs b step tlc htlc).mono (sent_mono hstep)
    · exact fun q hq step tlc htlc =>
        hchosen ((PaxosPeer.step_effect P hq).tlcs_cases P htlc)
  · intro b tlc htlc
    rcases sent_cases hstep htlc with hold | ⟨rfl, hsends⟩
    · exact (h.sent b tlc hold).mono (sent_mono hstep)
    · cases hsends with
      | tlc records => exact hchosen records

theorem of_run (hD : D.Numbered) {es : List (String × PaxosEvent)}
    (h : Run (PaxosNetwork.step P D) (fun g e => Undisturbed g e ∧ OneBallot g e)
      (PaxosNetwork.start D) es g) : Recorded D g :=
  h.invariant (start D) fun hg hok hstep => hg.step hD hok.1 hok.2 hstep

end Recorded

end PaxosNetwork

/-- No two peers record different values for a step. -/
theorem accepted_agree {P : PaxosPrimitives} {D : PaxosDeployment} {g : PaxosNetwork}
    {es : List (String × PaxosEvent)} (hD : D.Numbered)
    (hthreshold : D.paxosThreshold D.members.card = D.members.card / 2 + 1)
    (h : Run (PaxosNetwork.step P D) (fun g e => g.Undisturbed e ∧ g.OneBallot e)
      (PaxosNetwork.start D) es g)
    {a b : String} {step : ℕ} {v w : PaxosValue}
    (ha : (g a).node.paxos.acceptedMap.lookup step = some v)
    (hb : (g b).node.paxos.acceptedMap.lookup step = some w) : v = w := by
  have hrec := PaxosNetwork.Recorded.of_run hD h
  obtain ⟨_, hv⟩ := hrec.acceptedMap a step v ha
  obtain ⟨_, hw⟩ := hrec.acceptedMap b step w hb
  have hmajority : D.members.card < 2 * D.paxosThreshold D.members.card := by omega
  exact (hrec.voting.sound hD step).agree hmajority hv hw

namespace PaxosSample

theorem deployment_numbered : deployment.Numbered where
  range := by decide
  distinct := by decide

def firstChoice : List (String × PaxosEvent) :=
  [("A", .tag "x" "f" "m"), ("A", .reset 0), ("A", .getStep 0),
    deliver "A" "A" 0 (.prepare ⟨0, 1, "A"⟩), deliver "B" "A" 0 (.prepare ⟨0, 1, "A"⟩),
    deliver "A" "A" 1 (.promise "A" ⟨0, 1, 0, none⟩),
    deliver "A" "B" 0 (.promise "A" ⟨0, 1, 0, none⟩), ("A", .promised 0),
    deliver "A" "A" 2 (.propose ⟨0, 1, ⟨"x", "f", "m"⟩⟩),
    deliver "B" "A" 2 (.propose ⟨0, 1, ⟨"x", "f", "m"⟩⟩),
    deliver "A" "A" 3 (.accept ⟨0, 1, ⟨"x", "f", "m"⟩⟩),
    deliver "A" "B" 1 (.accept ⟨0, 1, ⟨"x", "f", "m"⟩⟩)]

def secondChoice : List (String × PaxosEvent) :=
  [("B", .reset 0), ("B", .getStep 0),
    deliver "B" "B" 2 (.prepare ⟨0, 2, "B"⟩), deliver "C" "B" 2 (.prepare ⟨0, 2, "B"⟩),
    deliver "B" "B" 3 (.promise "B" ⟨0, 2, 0, none⟩),
    deliver "B" "C" 0 (.promise "B" ⟨0, 2, 0, none⟩), ("B", .promised 0),
    deliver "B" "B" 4 (.propose ⟨0, 2, ⟨"y", "g", "n"⟩⟩),
    deliver "C" "B" 4 (.propose ⟨0, 2, ⟨"y", "g", "n"⟩⟩),
    deliver "C" "B" 5 (.accept ⟨0, 2, ⟨"y", "g", "n"⟩⟩),
    deliver "C" "C" 1 (.accept ⟨0, 2, ⟨"y", "g", "n"⟩⟩)]

/-- The Tag call of B has started before it hears of A's proposal. -/
def twoChoices : List (String × PaxosEvent) :=
  ("B", .tag "y" "g" "n") :: (firstChoice ++ secondChoice)

theorem twoChoices_isSome :
    (exec (guarded (PaxosNetwork.step primitives deployment) PaxosNetwork.Genuine)
      (PaxosNetwork.start deployment) twoChoices).isSome := by
  decide

def divided : PaxosNetwork :=
  (exec (guarded (PaxosNetwork.step primitives deployment) PaxosNetwork.Genuine)
    (PaxosNetwork.start deployment) twoChoices).get twoChoices_isSome

theorem acceptedMap_counterexample :
    deployment.Numbered ∧
      deployment.paxosThreshold deployment.members.card = deployment.members.card / 2 + 1 ∧
      Run (PaxosNetwork.step primitives deployment) (fun g e => g.Genuine e)
        (PaxosNetwork.start deployment) twoChoices divided ∧
      (divided "A").node.paxos.acceptedMap.lookup 0 = some ⟨"x", "f", "m"⟩ ∧
      (divided "C").node.paxos.acceptedMap.lookup 0 = some ⟨"y", "g", "n"⟩ :=
  ⟨deployment_numbered, rfl, run_of_guarded (run_exec_get _), by decide,
    by decide⟩

def oneChoice : List (String × PaxosEvent) :=
  firstChoice ++ [deliver "B" "A" 3 (.accept ⟨0, 1, ⟨"x", "f", "m"⟩⟩),
    deliver "B" "B" 1 (.accept ⟨0, 1, ⟨"x", "f", "m"⟩⟩)]

theorem oneChoice_isSome :
    (exec (guarded (PaxosNetwork.step primitives deployment)
      fun g e => g.Undisturbed e ∧ g.OneBallot e) (PaxosNetwork.start deployment)
      oneChoice).isSome := by
  decide

def agreed : PaxosNetwork :=
  (exec (guarded (PaxosNetwork.step primitives deployment)
    fun g e => g.Undisturbed e ∧ g.OneBallot e) (PaxosNetwork.start deployment)
    oneChoice).get oneChoice_isSome

theorem agreedA_isSome : ((agreed "A").node.paxos.acceptedMap.lookup 0).isSome := by
  decide

theorem agreedB_isSome : ((agreed "B").node.paxos.acceptedMap.lookup 0).isSome := by
  decide

theorem accepted_agree_oneChoice :
    ((agreed "A").node.paxos.acceptedMap.lookup 0).get agreedA_isSome =
      ((agreed "B").node.paxos.acceptedMap.lookup 0).get agreedB_isSome :=
  accepted_agree deployment_numbered rfl (run_of_guarded (run_exec_get oneChoice_isSome))
    (Option.some_get agreedA_isSome).symm (Option.some_get agreedB_isSome).symm

end PaxosSample

end JobPortal
