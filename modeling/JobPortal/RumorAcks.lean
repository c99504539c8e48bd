import JobPortal.RumorCalls
import JobPortal.Runs

/-! Whether the packets that bring rumors are acknowledged. Without an acknowledgement the sender
sends the packet again and again, to a node that has had all of its rumors long since. -/
namespace JobPortal.Gossip

open Runs

variable {A S : Type}

def Act.Acks {M : Type} (hdr : Header) : Act M → Prop
  | .ack dest msg => dest = hdr.source ∧ msg.ackedPacketID = hdr.packetID
  | .offer .. | .push .. | .broadcast .. | .answer .. | .prune .. | .ackIHave .. => False

instance {M : Type} (hdr : Header) : (a : Act M) → Decidable (a.Acks hdr)
  | .ack dest msg =>
    inferInstanceAs (Decidable (dest = hdr.source ∧ msg.ackedPacketID = hdr.packetID))
  | .offer .. | .push .. | .broadcast .. | .answer .. | .prune .. | .ackIHave .. =>
    inferInstanceAs (Decidable False)

namespace RumorNode

def Acked (hdr : Header) (st : RumorNode A S) : Prop := ∃ a ∈ st.log, a.Acks hdr

instance (hdr : Header) (st : RumorNode A S) : Decidable (st.Acked hdr) :=
  inferInstanceAs (Decidable (∃ a ∈ st.log, a.Acks hdr))

def Held (st : RumorNode A S) (r : Rumor (Message A)) : Prop :=
  ∃ q ∈ st.rumorTable.list r.origin, q.sequence = r.sequence

instance (st : RumorNode A S) (r : Rumor (Message A)) : Decidable (st.Held r) :=
  inferInstanceAs (Decidable (∃ q ∈ st.rumorTable.list r.origin, _))

variable (C : Host A S) (hdr : Header)

/-- The handler of an accepted rumor's message comes back without an error. -/
def Succeeds (a : Acceptance A S) : Prop :=
  ∃ p ∈ handled C hdr a.rumor a.node a.locked, p.2 = true

/-- When that handler comes back, the packet has been acknowledged. -/
def LeavesAck (a : Acceptance A S) : Prop :=
  ∃ p ∈ handled C hdr a.rumor a.node a.locked, p.1.Acked hdr

instance (a : Acceptance A S) : Decidable (Succeeds C hdr a) :=
  inferInstanceAs (Decidable (∃ p ∈ handled C hdr a.rumor a.node a.locked, _))

instance (a : Acceptance A S) : Decidable (LeavesAck C hdr a) :=
  inferInstanceAs (Decidable (∃ p ∈ handled C hdr a.rumor a.node a.locked, _))

/-- The packet has been acknowledged before; or it has a rumor the node lacks, and no handler of a
message in it fails; or a packet of rumors within it is acknowledged in its place. -/
def Earns (rumors : List (Rumor (Message A))) (st : RumorNode A S) : Prop :=
  st.Acked hdr ∨
    ((∃ r ∈ rumors, ¬ st.Held r) ∧
      ∀ a ∈ acceptances C hdr (.rumors rumors) st [], Succeeds C hdr a) ∨
    ∃ a ∈ acceptances C hdr (.rumors rumors) st [], LeavesAck C hdr a

instance (rumors : List (Rumor (Message A))) (st : RumorNode A S) :
    Decidable (Earns C hdr rumors st) := inferInstanceAs (Decidable (_ ∨ _ ∧ _ ∨ _))

variable {C hdr} {st st' : RumorNode A S}

theorem Acked.later (h : st.Acked hdr) (hst : st.log <+: st'.log) : st'.Acked hdr := by
  obtain ⟨a, ha, hacks⟩ := h
  exact ⟨a, hst.subset ha, hacks⟩

theorem acked_since (hst : st.log <+: st'.log) :
    st'.Acked hdr ↔ st.Acked hdr ∨ ∃ a ∈ st.since st', a.Acks hdr := by
  obtain ⟨acts, hacts⟩ := hst
  simp only [Acked, since, ← hacts, List.drop_left, List.mem_append]
  constructor
  · rintro ⟨a, ha | ha, hacks⟩
    · exact .inl ⟨a, ha, hacks⟩
    · exact .inr ⟨a, ha, hacks⟩
  · rintro (⟨a, ha, hacks⟩ | ⟨a, ha, hacks⟩)
    · exact ⟨a, .inl ha, hacks⟩
    · exact ⟨a, .inr ha, hacks⟩

theorem Held.later {r : Rumor (Message A)} {source : String} (h : st.Held r)
    (hst : st.Grows source st') : st'.Held r := by
  obtain ⟨q, hq, hsequence⟩ := h
  exact ⟨q, (hst.lists r.origin).subset hq, hsequence⟩

theorem not_held_of_process {r : Rumor (Message A)} (h : (st.offer hdr r).2 = .process) :
    ¬ st.Held r := by
  rintro ⟨q, hq, hsequence⟩
  have hnext := (SafeRumorTable.tryToAcceptOrigin_process _ r).mp h
  obtain ⟨i, hi, hget⟩ := (st.rumorTable.numbered r.origin).eq_of_mem hq
  have hlt := (List.getElem?_eq_some_iff.mp hget).1
  rw [← SafeRumorTable.list] at hlt
  omega

theorem acked_offer (st : RumorNode A S) (r : Rumor (Message A)) :
    (st.offer hdr r).1.Acked hdr ↔ st.Acked hdr := by
  rw [acked_since (st.grows_offer hdr r).log, since_offer]
  simp [Act.Acks]

theorem acked_relay (st : RumorNode A S) (r : Rumor (Message A)) :
    (st.relay hdr.source r).Acked hdr ↔ st.Acked hdr := by
  rw [acked_since (grows_relay st hdr.source r).log, since_relay]
  split_ifs
  · simp [Act.Acks]
  · simp [Act.Acks]

theorem acked_finish (l : RumorLoop A S) (ok : Bool) : (l.finish C hdr ok).Acked hdr ↔
    l.node.Acked hdr ∨ ok ∧ hdr.source ≠ C.myAddr ∧ l.hasNew := by
  rw [acked_since (handles_finish C hdr l ok).log, since_finish]
  split_ifs with hends
  · simp [Act.Acks, hends]
  · simp [hends]

theorem finish_core (l : RumorLoop A S) (ok : Bool) :
    (l.finish C hdr ok).toGossipState = l.node.toGossipState := by
  unfold RumorLoop.finish
  split_ifs
  · rfl
  · rfl

/-- A call that comes back without an error has met none on its way. -/
theorem succeeds_rule :
    AcceptanceRule C hdr fun _ _ ok a => ok = true → Succeeds C hdr a where
  own {_ _ st' _ _} _ call hok := ⟨(st', true), hok ▸ call, rfl⟩
  embedded _ _ h := h
  later _ _ h _ := h rfl
  earlier _ _ _ h := h

theorem logs_rule : AcceptanceRule C hdr fun _ st' _ a =>
    ∀ p ∈ handled C hdr a.rumor a.node a.locked, p.1.log <+: st'.log where
  own _ call p hp := by
    obtain rfl := Option.some.inj (call.symm.trans hp)
    exact List.prefix_rfl
  embedded _ _ h := h
  later _ hst h p hp := (h p hp).trans hst.log
  earlier _ _ _ h := h

section Turns

variable {r : Rumor (Message A)} {rs : List (Rumor (Message A))} {l l' : RumorLoop A S}
  {on ok : Bool}

theorem Turns.ends (h : Turns C hdr rs l l' ok)
    (hsucceeds : ∀ a ∈ loopAcceptances C hdr rs l, Succeeds C hdr a) : ok = true := by
  induction h with
  | nil => rfl
  | stop turn =>
    cases turn with
    | fails verdict call =>
      rw [loopAcceptances_process C hdr verdict] at hsucceeds
      obtain ⟨p, hp, hok⟩ := hsucceeds _ List.mem_cons_self
      obtain rfl := Option.some.inj (call.symm.trans hp)
      exact hok
  | next turn _ ih => exact ih fun a ha => hsucceeds a (turn.rest a ha)

theorem offer_table (h : (st.offer hdr r).2 ≠ .process) :
    (st.offer hdr r).1.rumorTable = st.rumorTable :=
  (congrArg GossipState.rumorTable (offer_core hdr st r)).trans
    (SafeRumorTable.tryToAcceptOrigin_eq_self h)

theorem Turn.hasNew (h : Turn C hdr r l l' on) : l'.hasNew = true ∧ ¬ l.node.Held r ∨
    l'.hasNew = l.hasNew ∧ l'.node.rumorTable = l.node.rumorTable := by
  cases h with
  | future verdict | prune verdict => exact .inr ⟨rfl, offer_table (verdict.trans_ne (by decide))⟩
  | fails verdict | passes verdict => exact .inl ⟨rfl, not_held_of_process verdict⟩

theorem Turn.keeps_hasNew (h : Turn C hdr r l l' on) (hl : l.hasNew = true) : l'.hasNew = true :=
  h.hasNew.elim And.left fun hsame => hsame.1.trans hl

theorem Turns.keeps_hasNew (h : Turns C hdr rs l l' ok) (hl : l.hasNew = true) :
    l'.hasNew = true := by
  induction h with
  | nil => exact hl
  | stop turn => exact turn.keeps_hasNew hl
  | next turn _ ih => exact ih (turn.keeps_hasNew hl)

theorem Turns.not_held (h : Turns C hdr rs l l' ok) (hl' : l'.hasNew = true) :
    l.hasNew = true ∨ ∃ r ∈ rs, ¬ l.node.Held r := by
  induction h with
  | nil => exact .inl hl'
  | stop turn =>
    rcases turn.hasNew with ⟨_, hnew⟩ | ⟨hsame, _⟩
    · exact .inr ⟨_, List.mem_cons_self, hnew⟩
    · exact .inl (hsame.symm.trans hl')
  | next turn _ ih =>
    rcases turn.hasNew with ⟨_, hnew⟩ | ⟨hsame, _⟩
    · exact .inr ⟨_, List.mem_cons_self, hnew⟩
    · refine (ih hl').imp hsame.symm.trans ?_
      rintro ⟨q, hq, hheld⟩
      exact ⟨q, List.mem_cons_of_mem _ hq, mt (Held.later · turn.handles.toGrows) hheld⟩

theorem Turns.table (h : Turns C hdr rs l l' ok) (hl' : l'.hasNew = false) :
    l'.node.rumorTable = l.node.rumorTable := by
  induction h with
  | nil => rfl
  | stop turn =>
    rcases turn.hasNew with ⟨hnew, _⟩ | ⟨_, htable⟩
    · exact absurd (hl'.symm.trans hnew) Bool.false_ne_true
    · exact htable
  | next turn rest ih =>
    rcases turn.hasNew with ⟨hnew, _⟩ | ⟨_, htable⟩
    · exact absurd (hl'.symm.trans (rest.keeps_hasNew hnew)) Bool.false_ne_true
    · exact (ih hl').trans htable

/-- In the loop only the handlers of messages acknowledge the packet. -/
theorem Turns.acked (h : Turns C hdr rs l l' ok) (hacked : l'.node.Acked hdr) :
    l.node.Acked hdr ∨ ∃ a ∈ loopAcceptances C hdr rs l, LeavesAck C hdr a := by
  induction h with
  | nil => exact .inl hacked
  | stop turn =>
    cases turn with
    | fails verdict call =>
      rw [loopAcceptances_process C hdr verdict]
      exact .inr ⟨_, List.mem_cons_self, _, call, hacked⟩
  | next turn _ ih =>
    rcases ih hacked with hturned | ⟨a, ha, hleaves⟩
    · cases turn with
      | future => exact .inl ((acked_offer _ _).mp hturned)
      | prune => exact .inl ((acked_offer _ _).mp ((acked_relay _ _).mp hturned))
      | passes verdict call =>
        rw [loopAcceptances_process C hdr verdict]
        exact .inr ⟨_, List.mem_cons_self, _, call, (acked_relay _ _).mp hturned⟩
    · exact .inr ⟨a, turn.rest a ha, hleaves⟩

end Turns

/-- A packet that has been delivered in full is acknowledged exactly when it earns it. -/
theorem acked_iff_earns {rumors : List (Rumor (Message A))} {locked : List String} {ok : Bool}
    (hsource : hdr.source ≠ C.myAddr)
    (hcall : execRumorMessage C hdr rumors st [] = some (st', locked, ok))
    (hheld : ∀ r ∈ rumors, st'.Held r) : st'.Acked hdr ↔ Earns C hdr rumors st := by
  have hhandles := (handles_rule C hdr).call _ _ _ hcall
  have hlogs := logs_rule.rule.call _ _ _ hcall
  have hsucceeds := succeeds_rule.rule.call _ _ _ hcall
  rw [execRumorMessage, processPacket] at hcall
  obtain ⟨⟨l, on⟩, hloop, heq⟩ := Option.map_eq_some_iff.mp hcall
  simp only [Prod.mk.injEq] at heq
  obtain ⟨rfl, -, rfl⟩ := heq
  have hturns := turns_of_execRumors hloop
  constructor
  · intro hacked
    rcases (acked_finish l on).mp hacked with hacked | ⟨hok, -, hhasNew⟩
    · rcases hturns.acked hacked with hbefore | hleaves
      · exact .inl hbefore
      · refine .inr (.inr ?_)
        rw [acceptances]
        exact hleaves
    · have hlacks := (hturns.not_held hhasNew).resolve_left Bool.false_ne_true
      exact .inr (.inl ⟨hlacks, fun a ha => hsucceeds a ha hok⟩)
  · rintro (hbefore | ⟨⟨r, hr, hlacks⟩, hall⟩ | ⟨a, ha, p, hp, hacked⟩)
    · exact hbefore.later hhandles.log
    · rw [acceptances] at hall
      refine (acked_finish l on).mpr (.inr ⟨hturns.ends hall, hsource, ?_⟩)
      by_contra hnone
      obtain ⟨q, hq, hsequence⟩ := hheld r hr
      rw [finish_core, hturns.table (Bool.eq_false_iff.mpr hnone)] at hq
      exact hlacks ⟨q, hq, hsequence⟩
    · exact hacked.later (hlogs a ha p hp)

end RumorNode

/-- A node, and the packets of others that it has had in full: when their handler came back, it
held all of their rumors. -/
structure Receiver (A S : Type) where
  node : RumorNode A S
  delivered : List Header

/-- What happens at a node. Its packets are handled one at a time. -/
inductive NodeEvent (A S : Type)
  | packet (hdr : Header) (m : Message A)
  | broadcast (b : A)
  | addPeer (addr : String)
  /-- A goroutine has its turn with the tree of an origin. -/
  | tree (origin : String) (e : PlumTreeEvent)
  /-- The rest of the node changes. -/
  | app (s : S)

namespace Receiver

variable (C : Host A S)

def newReceiver (app : S) : Receiver A S := ⟨.newNode C.myAddr app, []⟩

def Delivers (hdr : Header) (m : Message A) (st : RumorNode A S) : Prop :=
  hdr.source ≠ C.myAddr ∧
    match m with
    | .rumors rumors => ∀ r ∈ rumors, st.Held r
    | _ => False

instance (hdr : Header) (st : RumorNode A S) : (m : Message A) → Decidable (Delivers C hdr m st)
  | .rumors rumors => inferInstanceAs (Decidable (_ ∧ ∀ r ∈ rumors, st.Held r))
  | .privateMessage .. | .prune _ | .iHave _ | .graft _ | .other _ =>
    inferInstanceAs (Decidable (_ ∧ False))

def step (s : Receiver A S) : NodeEvent A S → Option (Receiver A S)
  | .packet hdr m =>
    (RumorNode.processPacket C hdr m s.node []).map fun (node, _, _) =>
      ⟨node, if Delivers C hdr m node then s.delivered ++ [hdr] else s.delivered⟩
  | .broadcast b =>
    (RumorNode.broadcast C s.node [] b).map fun (node, _) => { s with node := node }
  | .addPeer addr => some { s with node := s.node.addPeer C.myAddr addr }
  | .tree origin e =>
    match e with
    | .graftRetry _ | .graftStop _ | .sendIHave _ =>
      ((s.node.tree origin).step e).map fun t => { s with node := s.node.setTree origin t }
    | .rumor .. | .broadcast .. | .prune _ | .iHave .. | .graft _ => none
  | .app app => some { s with node := { s.node with app := app } }

def AllAcked (s : Receiver A S) : Prop := ∀ hdr ∈ s.delivered, s.node.Acked hdr

instance (s : Receiver A S) : Decidable s.AllAcked :=
  inferInstanceAs (Decidable (∀ hdr ∈ s.delivered, s.node.Acked hdr))

def EarnsAcks (s : Receiver A S) : NodeEvent A S → Prop
  | .packet hdr (.rumors rumors) => hdr.source ≠ C.myAddr → ∀ st' locked ok,
      RumorNode.execRumorMessage C hdr rumors s.node [] = some (st', locked, ok) →
      (∀ r ∈ rumors, st'.Held r) → RumorNode.Earns C hdr rumors s.node
  | _ => True

variable {C} {s s' : Receiver A S} {e : NodeEvent A S}

theorem step_log (h : s.step C e = some s') : s.node.log <+: s'.node.log := by
  cases e with
  | packet hdr m =>
    obtain ⟨⟨node, locked, ok⟩, hcall, rfl⟩ := Option.map_eq_some_iff.mp h
    exact ((RumorNode.handles_rule C hdr).call m _ _ hcall).log
  | broadcast b =>
    obtain ⟨⟨node, locked⟩, hcall, rfl⟩ := Option.map_eq_some_iff.mp h
    have haside : s.node.Aside C.myAddr node := RumorNode.aside_broadcast hcall
    exact haside.log
  | addPeer addr | app app =>
    obtain rfl := Option.some.inj h
    exact List.prefix_rfl
  | tree origin e =>
    cases e with
    | graftRetry | graftStop | sendIHave =>
      obtain ⟨t, -, rfl⟩ := Option.map_eq_some_iff.mp h
      exact List.prefix_rfl
    | rumor | broadcast | prune | iHave | graft => cases h

theorem allAcked_of_same (hs : s.AllAcked) (h : s.step C e = some s')
    (hsame : s'.delivered = s.delivered) : s'.AllAcked :=
  fun hdr hhdr => (hs hdr (hsame ▸ hhdr)).later (step_log h)

theorem allAcked_step_iff (hs : s.AllAcked) (h : s.step C e = some s') :
    s'.AllAcked ↔ s.EarnsAcks C e := by
  cases e with
  | packet hdr m =>
    have hstep := h
    obtain ⟨⟨node, locked, ok⟩, hcall, rfl⟩ := Option.map_eq_some_iff.mp h
    cases m with
    | rumors rumors =>
      by_cases hfull : Delivers C hdr (.rumors rumors) node
      · have hearns := RumorNode.acked_iff_earns hfull.1 hcall hfull.2
        simp only [AllAcked, if_pos hfull, List.forall_mem_append, List.forall_mem_singleton]
        constructor
        · exact fun hall _ _ _ _ _ _ => hearns.mp hall.2
        · intro hearn
          refine ⟨fun q hq => (hs q hq).later (step_log hstep), ?_⟩
          exact hearns.mpr (hearn hfull.1 _ _ _ hcall hfull.2)
      · refine iff_of_true (allAcked_of_same hs hstep (if_neg hfull)) ?_
        intro hsource st' locked' ok' hcall' hheld
        have heq := Option.some.inj (hcall.symm.trans hcall')
        simp only [Prod.mk.injEq] at heq
        exact absurd ⟨hsource, heq.1 ▸ hheld⟩ hfull
    | privateMessage | prune | iHave | graft | other =>
      exact iff_of_true (allAcked_of_same hs hstep (if_neg fun hfull => hfull.2)) trivial
  | broadcast b =>
    obtain ⟨_, -, rfl⟩ := Option.map_eq_some_iff.mp h
    exact iff_of_true (allAcked_of_same hs h rfl) trivial
  | addPeer addr | app app =>
    refine iff_of_true (allAcked_of_same hs h ?_) trivial
    obtain rfl := Option.some.inj h
    rfl
  | tree origin e =>
    refine iff_of_true (allAcked_of_same hs h ?_) trivial
    cases e with
    | graftRetry | graftStop | sendIHave =>
      obtain ⟨t, -, rfl⟩ := Option.map_eq_some_iff.mp h
      rfl
    | rumor | broadcast | prune | iHave | graft => cases h

/-- In a run every packet delivered in full is acknowledged exactly when each of them earns it. -/
theorem delivered_acked_iff {app : S} {es : List (NodeEvent A S)}
    (h : AnyRun (step C) (newReceiver C app) es s) :
    Always (step C) AllAcked (newReceiver C app) es ↔
      Run (step C) (EarnsAcks C) (newReceiver C app) es s :=
  always_iff_run h (fun _ hhdr => absurd hhdr List.not_mem_nil)
    fun _ hs hstep => allAcked_step_iff hs hstep

end Receiver

namespace Sample

def firstRumor : List (Rumor (Message Unit)) := [⟨"a", 1, some (.other ())⟩]

/-- The packet a peer sends for the rumor, under an ID of its own. -/
def packetFrom (peer packetID : String) : NodeEvent Unit Unit :=
  .packet ⟨packetID, peer, peer⟩ (.rumors firstRumor)

/-- Two peers push the same rumor, and only the first one is told that it has arrived. -/
theorem acks_counterexample :
    ∃ s, AnyRun (Receiver.step emptyHost) (Receiver.newReceiver emptyHost ())
        [packetFrom "s" "1", packetFrom "t" "2"] s ∧ ¬ s.AllAcked := by
  have hunacked : ∃ s ∈ exec (Receiver.step emptyHost) (Receiver.newReceiver emptyHost ())
      [packetFrom "s" "1", packetFrom "t" "2"], ¬ s.AllAcked := by decide
  obtain ⟨s, hs, hacked⟩ := hunacked
  exact ⟨s, run_of_exec hs, hacked⟩

theorem delivered_acked_iff_first :
    Always (Receiver.step emptyHost) Receiver.AllAcked (Receiver.newReceiver emptyHost ())
      [packetFrom "s" "1"] := by
  have hstep : ((Receiver.newReceiver emptyHost ()).step emptyHost (packetFrom "s" "1")).isSome :=
    by decide
  obtain ⟨s, hs⟩ := Option.isSome_iff_exists.mp hstep
  have hearns : RumorNode.Earns emptyHost ⟨"1", "s", "s"⟩ firstRumor
      (Receiver.newReceiver emptyHost ()).node := by decide
  exact (Receiver.delivered_acked_iff (.one trivial hs)).mpr
    (.one (fun _ _ _ _ _ _ => hearns) hs)

end Sample

end JobPortal.Gossip
