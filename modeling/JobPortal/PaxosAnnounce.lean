import JobPortal.PaxosNetwork
import JobPortal.PaxosCatchUp

/-! The TLC messages a Paxos peer broadcasts. The catch up announces a step only if nobody has;
the Accept handler announces it once more for every Accept that comes after the decision. -/
namespace JobPortal

open Runs Histories

def PaxosMessage.tlcStep : PaxosMessage → Option ℕ
  | .tlc m => some m.step
  | _ => none

/-- The steps of the TLC messages among some broadcasts, one entry for each message. -/
def announcedSteps (sent : List PaxosMessage) : List ℕ := sent.filterMap PaxosMessage.tlcStep

theorem announcedSteps_append (sent more : List PaxosMessage) :
    announcedSteps (sent ++ more) = announcedSteps sent ++ announcedSteps more :=
  List.filterMap_append

variable (P : PaxosPrimitives)

/-- What a step announces, and what that makes of the `AcceptedMap`: nothing, the current step for
the first time, or, if it does not meet the condition, the current step again. -/
inductive SafePaxos.Announces (s : SafePaxos) (ok : Prop) : List ℕ → SafePaxos → Prop
  | silent {t : SafePaxos} (meets : ok) (same : t.acceptedMap = s.acceptedMap) : Announces s ok [] t
  | first {t : SafePaxos} (meets : ok) (unknown : s.acceptedMap.lookup s.clock = none)
      (recorded : ∃ v, t.acceptedMap = s.acceptedMap.insert s.clock v) : Announces s ok [s.clock] t
  | again {t : SafePaxos} (late : ¬ ok) (known : s.acceptedMap.lookup s.clock ≠ none)
      (same : t.acceptedMap = s.acceptedMap) : Announces s ok [s.clock] t

namespace PaxosNode

/-- A later round of the catch up leaves the `AcceptedMap` alone. -/
theorem tlcProcess_catchUp (fuel : ℕ) (n : PaxosNode) (step : ℕ) :
    (tlcProcess P fuel n step true).1.paxos.acceptedMap = n.paxos.acceptedMap ∧
      (tlcProcess P fuel n step true).2 = [] := by
  induction fuel generalizing n step with
  | zero => exact ⟨rfl, rfl⟩
  | succ fuel ih =>
    unfold tlcProcess
    cases hadv : n.tlcAdvance P step true with
    | none => exact ⟨rfl, rfl⟩
    | some r =>
      obtain ⟨m, sent⟩ := r
      obtain ⟨hmap, hsent⟩ := ih m (step + 1)
      obtain ⟨block, s, hfound, _, _, ⟨hpaxos, rfl⟩ | ⟨hfirst, _⟩⟩ := tlcAdvance_cases P hadv
      · obtain ⟨_, _, _, _, _, _, _, hacc⟩ := SafePaxos.getBlockAndAdvance_eq_some hfound
        exact ⟨hmap.trans (hpaxos ▸ hacc), hsent⟩
      · cases hfirst

theorem tlcProcess_announces (fuel : ℕ) (n : PaxosNode) :
    n.paxos.Announces True (announcedSteps (tlcProcess P fuel n n.paxos.clock false).2)
      (tlcProcess P fuel n n.paxos.clock false).1.paxos := by
  cases fuel with
  | zero => exact .silent trivial rfl
  | succ fuel =>
    unfold tlcProcess
    cases hadv : n.tlcAdvance P n.paxos.clock false with
    | none => exact .silent trivial rfl
    | some r =>
      obtain ⟨m, sent⟩ := r
      obtain ⟨hmap, hsent⟩ := tlcProcess_catchUp P fuel m (n.paxos.clock + 1)
      obtain ⟨block, s, hfound, _, _, hcases⟩ := tlcAdvance_cases P hadv
      obtain ⟨_, _, _, _, _, _, _, hacc⟩ := SafePaxos.getBlockAndAdvance_eq_some hfound
      dsimp only
      rw [hsent, List.append_nil]
      rcases hcases with ⟨hpaxos, rfl⟩ | ⟨_, hunknown, hpaxos, rfl⟩
      · exact .silent trivial (hmap.trans (hpaxos ▸ hacc))
      · refine .first trivial (hacc ▸ hunknown) ⟨block.value, hmap.trans ?_⟩
        rw [hpaxos, SafePaxos.updateAcceptedMap, hacc]

/-- An Accept for the current step comes before the step is decided. -/
def InTime (n : PaxosNode) : PaxosMessage → Prop
  | .accept m => m.step = n.paxos.clock → n.paxos.acceptedMap.lookup n.paxos.clock = none
  | _ => True

instance (n : PaxosNode) : (m : PaxosMessage) → Decidable (n.InTime m)
  | .accept _ => inferInstanceAs (Decidable (_ → _))
  | .prepare _ | .promise .. | .propose _ | .tlc _ => isTrue trivial

theorem execTLCMessage_announces (n : PaxosNode) (m : TLCMessage) :
    n.paxos.Announces True (announcedSteps (n.execTLCMessage P m).2)
      (n.execTLCMessage P m).1.paxos := by
  have hclock := n.paxos.receiveTLC_clock m n.threshold
  have hmap := n.paxos.receiveTLC_acceptedMap m n.threshold
  have hprocess := tlcProcess_announces P ((n.paxos.receiveTLC m n.threshold).consensus.keys.card + 1)
    { n with paxos := n.paxos.receiveTLC m n.threshold }
  change SafePaxos.Announces _ True (announcedSteps (n.execTLCMessage P m).2)
    (n.execTLCMessage P m).1.paxos at hprocess
  generalize announcedSteps (n.execTLCMessage P m).2 = steps at hprocess
  cases hprocess with
  | silent _ same => exact .silent trivial (same.trans hmap)
  | first _ unknown recorded =>
    dsimp only at unknown recorded
    rw [hclock, hmap] at unknown recorded
    exact hclock ▸ .first trivial unknown recorded
  | again late => exact absurd trivial late

theorem execPaxosAcceptMessage_announces (n : PaxosNode) (m : PaxosAcceptMessage) :
    n.paxos.Announces (n.InTime (.accept m)) (announcedSteps (n.execPaxosAcceptMessage P m).2)
      (n.execPaxosAcceptMessage P m).1.paxos := by
  have heffect := execPaxosAcceptMessage_effect P n m
  generalize n.execPaxosAcceptMessage P m = r at heffect
  cases heffect with
  | idle ignored => exact .silent (fun hstep => absurd hstep ignored) rfl
  | acceptedBefore step known =>
    have hne : n.paxos.acceptedMap.lookup n.paxos.clock ≠ none := by simp [known]
    exact .again (fun hnone => hne (hnone step)) hne rfl
  | accept _ unknown _ => exact .silent (fun _ => unknown) rfl
  | accepted _ unknown _ => exact .first (fun _ => unknown) unknown ⟨m.value, rfl⟩

theorem exec_announces (n : PaxosNode) (m : PaxosMessage) :
    n.paxos.Announces (n.InTime m) (announcedSteps (n.exec P m).2) (n.exec P m).1.paxos := by
  have heffect := exec_effect P n m
  generalize hr : n.exec P m = r at heffect
  cases m with
  | tlc m => exact hr ▸ execTLCMessage_announces P n m
  | accept m => exact hr ▸ execPaxosAcceptMessage_announces P n m
  | prepare m => cases heffect <;> exact .silent trivial rfl
  | promise recipient m => cases heffect <;> exact .silent trivial rfl
  | propose m => cases heffect <;> exact .silent trivial rfl

end PaxosNode

namespace PaxosPeer

/-- Every Accept for a step comes before the step is decided. -/
def InTime (p : PaxosPeer) : PaxosEvent → Prop
  | .receive r => p.node.InTime r.msg
  | _ => True

instance (p : PaxosPeer) : (e : PaxosEvent) → Decidable (p.InTime e)
  | .receive _ => inferInstanceAs (Decidable (PaxosNode.InTime _ _))
  | .tag .. | .reset _ | .getStep _ | .promised _ | .accepted _ | .timeout _ | .consensus _ =>
    isTrue trivial

theorem step_announces {p q : PaxosPeer} {e : PaxosEvent} (h : p.step P e = some q) :
    ∃ steps, announcedSteps q.sent = announcedSteps p.sent ++ steps ∧
      p.node.paxos.Announces (p.InTime e) steps q.node.paxos := by
  have heffect := step_effect P h
  cases e with
  | receive r =>
    simp only [step] at h
    split_ifs at h with hfresh
    obtain rfl := Option.some.inj h
    exact ⟨_, announcedSteps_append _ _, PaxosNode.exec_announces P p.node r.msg⟩
  | tag =>
    cases heffect
    exact ⟨[], (List.append_nil _).symm, .silent trivial rfl⟩
  | reset =>
    cases heffect
    exact ⟨[], (List.append_nil _).symm, .silent trivial rfl⟩
  | getStep =>
    cases heffect
    exact ⟨[], announcedSteps_append _ _, .silent trivial rfl⟩
  | promised =>
    cases heffect
    exact ⟨[], announcedSteps_append _ _, .silent trivial rfl⟩
  | accepted =>
    cases heffect
    exact ⟨[], (List.append_nil _).symm, .silent trivial rfl⟩
  | timeout =>
    cases heffect
    exact ⟨[], (List.append_nil _).symm, .silent trivial rfl⟩
  | consensus =>
    cases heffect
    exact ⟨[], (List.append_nil _).symm, .silent trivial rfl⟩

def Announced (p : PaxosPeer) : Prop :=
  ∀ step, p.node.paxos.acceptedMap.lookup step ≠ none ↔ step ∈ announcedSteps p.sent

theorem announced_newPaxosPeer (conf : PaxosConfig) : (newPaxosPeer conf).Announced := by
  intro step
  simp [newPaxosPeer, newSafePaxos, announcedSteps]

theorem Announced.step {p q : PaxosPeer} {e : PaxosEvent} (hp : p.Announced)
    (h : p.step P e = some q) : q.Announced := by
  obtain ⟨steps, hsteps, hann⟩ := step_announces P h
  intro step
  rw [hsteps, List.mem_append, ← hp step]
  cases hann with
  | silent _ same => simp [same]
  | first _ _ recorded =>
    obtain ⟨v, hv⟩ := recorded
    rw [hv, List.mem_singleton]
    by_cases hstep : step = p.node.paxos.clock
    · subst hstep
      simp
    · simp [Finmap.lookup_insert_of_ne _ hstep, hstep]
  | again _ known same =>
    rw [same, List.mem_singleton]
    exact ⟨.inl, fun hor => hor.elim id fun heq => heq ▸ known⟩

/-- A step repeats an announcement exactly if it handles an Accept that comes too late. -/
theorem Announced.nodup_iff {p q : PaxosPeer} {e : PaxosEvent} (hp : p.Announced)
    (h : p.step P e = some q) :
    (announcedSteps q.sent).Nodup ↔ (announcedSteps p.sent).Nodup ∧ p.InTime e := by
  obtain ⟨steps, hsteps, hann⟩ := step_announces P h
  have hnodup : (announcedSteps p.sent ++ [p.node.paxos.clock]).Nodup ↔
      (announcedSteps p.sent).Nodup ∧
        p.node.paxos.acceptedMap.lookup p.node.paxos.clock = none := by
    rw [List.nodup_append_comm, List.singleton_append, List.nodup_cons, ← hp, not_not, and_comm]
  rw [hsteps]
  cases hann with
  | silent meets => exact ⟨fun hd => ⟨by simpa using hd, meets⟩, fun hd => by simpa using hd.1⟩
  | first meets unknown =>
    rw [hnodup]
    exact ⟨fun hd => ⟨hd.1, meets⟩, fun hd => ⟨hd.1, unknown⟩⟩
  | again late known =>
    rw [hnodup]
    exact iff_of_false (fun hd => known hd.2) fun hd => late hd.2

/-- A peer broadcasts one TLC message for each step, as long as no Accept for a step comes after
the step is decided. -/
theorem one_tlc_per_step_iff {conf : PaxosConfig} {es : List PaxosEvent} {p : PaxosPeer}
    (h : AnyRun (PaxosPeer.step P) (newPaxosPeer conf) es p) :
    (announcedSteps p.sent).Nodup ↔
      Run (PaxosPeer.step P) PaxosPeer.InTime (newPaxosPeer conf) es p := by
  have hinv := h.with_invariant (I := PaxosPeer.Announced) (announced_newPaxosPeer conf)
    fun hp _ hstep => hp.step P hstep
  refine holds_iff_run (I := fun p : PaxosPeer => (announcedSteps p.sent).Nodup)
    (J := fun _ => True) hinv trivial List.nodup_nil (fun _ _ => trivial) ?_
  intro t u e hok hstep _
  exact hok.2.nodup_iff P hstep

end PaxosPeer

namespace PaxosNetwork

variable {P} {D : PaxosDeployment} {g : PaxosNetwork}

/-- Where every peer announces a step once, the TLC messages a peer gets for a step come from
different peers: a threshold of messages is a threshold of nodes. -/
theorem tlc_origins_nodup {es : List (String × PaxosEvent)}
    (h : Run (PaxosNetwork.step P D) (fun g e => g.Genuine e) (PaxosNetwork.start D) es g)
    (hone : ∀ b, (announcedSteps (g b).sent).Nodup) (a : String) (step : ℕ) :
    (((g a).received.filter (·.msg.tlcStep = some step)).map Rumor.origin).Nodup := by
  have hdel : Delivered D g := h.invariant (Delivered.start D) fun hd hgen hstep =>
    hd.step hgen hstep
  have hkeys : ((g a).received.map Rumor.key).Nodup := hdel.once a
  refine List.Nodup.map_on ?_ (hkeys.of_map.filter _)
  intro r hr r' hr' horigin
  obtain ⟨hrec, hstep⟩ := List.mem_filter.mp hr
  obtain ⟨hrec', hstep'⟩ := List.mem_filter.mp hr'
  have hsent' := hdel.received a r' hrec'
  rw [← horigin] at hsent'
  have hseq : r.sequence = r'.sequence := getElem?_inj_of_nodup_filterMap (hone r.origin)
    (hdel.received a r hrec) hsent' (by simpa using hstep) (by simpa using hstep')
  exact List.inj_on_of_nodup_map hkeys hrec hrec' (Prod.ext horigin hseq)

end PaxosNetwork

namespace PaxosSample

def threeAccepts : List PaxosEvent :=
  [.receive ⟨"B", 0, .accept ⟨0, 2, ⟨"x", "f", "m"⟩⟩⟩,
    .receive ⟨"C", 0, .accept ⟨0, 2, ⟨"x", "f", "m"⟩⟩⟩,
    .receive ⟨"A", 0, .accept ⟨0, 2, ⟨"x", "f", "m"⟩⟩⟩]

theorem threeAccepts_isSome :
    (exec (PaxosPeer.step primitives) (newPaxosPeer (conf "A" 1)) threeAccepts).isSome := by
  decide

/-- The step is announced on the second accept and again on the third. -/
theorem announce_counterexample :
    AnyRun (PaxosPeer.step primitives) (newPaxosPeer (conf "A" 1)) threeAccepts
        ((exec (PaxosPeer.step primitives) (newPaxosPeer (conf "A" 1)) threeAccepts).get
          threeAccepts_isSome) ∧
      ¬ (announcedSteps ((exec (PaxosPeer.step primitives) (newPaxosPeer (conf "A" 1))
        threeAccepts).get threeAccepts_isSome).sent).Nodup :=
  ⟨run_exec_get _, by decide⟩

def acceptsInTime : List PaxosEvent :=
  threeAccepts.take 2 ++ [.receive ⟨"B", 1, .tlc (announced "x" 0)⟩,
    .receive ⟨"C", 1, .tlc (announced "x" 0)⟩] ++ threeAccepts.drop 2

theorem acceptsInTime_isSome :
    (exec (PaxosPeer.step primitives) (newPaxosPeer (conf "A" 1)) acceptsInTime).isSome := by
  decide

theorem one_tlc_acceptsInTime :
    (announcedSteps ((exec (PaxosPeer.step primitives) (newPaxosPeer (conf "A" 1))
        acceptsInTime).get acceptsInTime_isSome).sent).Nodup ↔
      Run (PaxosPeer.step primitives) PaxosPeer.InTime (newPaxosPeer (conf "A" 1)) acceptsInTime
        ((exec (PaxosPeer.step primitives) (newPaxosPeer (conf "A" 1)) acceptsInTime).get
          acceptsInTime_isSome) :=
  PaxosPeer.one_tlc_per_step_iff primitives (run_exec_get acceptsInTime_isSome)

end PaxosSample

end JobPortal
