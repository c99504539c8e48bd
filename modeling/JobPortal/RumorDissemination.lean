import JobPortal.PbftCertificate
import JobPortal.RumorCalls

/-! Whether every rumor that a packet makes a node accept is passed on. The rumor is recorded as
soon as it is accepted, and pushed only once the handler of its message has returned. -/
namespace JobPortal.Gossip

variable {A S : Type}

namespace RumorNode

variable (C : Host A S) (hdr : Header)

/-- A rumor is marked in its tree, and was pushed to the eager peers other than the source. -/
structure Disseminated (source : String) (st st' : RumorNode A S) (r : Rumor (Message A)) :
    Prop where
  received : st'.received r = true
  pushed : ∃ peers, .push r peers ∈ st.since st' ∧
    ∀ p ∈ (st'.tree r.origin).peers.eagers, p ≠ source → p ∈ peers

/-- The call comes back, it goes through all rumors of the packet, and what it accepts it
disseminates. -/
def Disseminates (rumors : List (Rumor (Message A))) (st : RumorNode A S) : Prop :=
  ∃ st' ok, execRumorMessage C hdr rumors st [] = some (st', [], ok) ∧
    (∀ r ∈ rumors, ∃ v, .offer r v ∈ st.since st') ∧
    ∀ r, .offer r .process ∈ st.since st' → Disseminated hdr.source st st' r

/-- The handler of an accepted rumor's message comes back without an error, and leaves it to the
loop to push the rumor. -/
def Passes (a : Acceptance A S) : Prop :=
  ∃ p ∈ handled C hdr a.rumor a.node a.locked, p.2 = true ∧ p.1.received a.rumor = false

instance (a : Acceptance A S) : Decidable (Passes C hdr a) :=
  inferInstanceAs (Decidable (∃ p ∈ handled C hdr a.rumor a.node a.locked, _))

variable {C hdr} {source : String} {st st' st'' : RumorNode A S} {r : Rumor (Message A)}

theorem Disseminated.later (h : Disseminated source st st' r) (hst : st.log <+: st'.log)
    (hst' : st'.Grows source st'') : Disseminated source st st'' r := by
  obtain ⟨hreceived, peers, hpush, hpeers⟩ := h
  refine ⟨hst'.received hreceived, peers, ?_, fun p hp hne => ?_⟩
  · rw [since_trans hst hst'.log]
    exact List.mem_append_left _ hpush
  · exact hpeers p (((hst'.trees r.origin).eagers p hne).mp hp) hne

theorem Disseminated.earlier (h : Disseminated source st' st'' r) (hst : st.log <+: st'.log)
    (hst' : st'.log <+: st''.log) : Disseminated source st st'' r := by
  obtain ⟨hreceived, peers, hpush, hpeers⟩ := h
  refine ⟨hreceived, peers, ?_, hpeers⟩
  rw [since_trans hst hst']
  exact List.mem_append_right _ hpush

theorem disseminated_relay (st : RumorNode A S) (source : String) {r : Rumor (Message A)}
    (h : st.received r = false) : Disseminated source st (st.relay source r) r := by
  refine ⟨received_relay st source r, _, ?_, fun p hp hne => Finset.mem_erase.mpr ⟨hne, hp⟩⟩
  rw [since_relay, if_neg (Bool.eq_false_iff.mp h)]
  exact List.mem_singleton_self _

def Spreads (source : String) (st st' : RumorNode A S) : Prop :=
  ∀ r, .offer r .process ∈ st.since st' → Disseminated source st st' r

theorem Spreads.trans (h : Spreads source st st') (h' : Spreads source st' st'')
    (hst : st.log <+: st'.log) (hst' : st'.Grows source st'') : Spreads source st st'' := by
  intro r hmem
  rw [since_trans hst hst'.log] at hmem
  rcases List.mem_append.mp hmem with hmem | hmem
  · exact (h r hmem).later hst hst'
  · exact (h' r hmem).earlier hst hst'.log

theorem Spreads.of_noOffer (h : ∀ r, .offer r .process ∉ st.since st') : Spreads source st st' :=
  fun r hmem => absurd hmem (h r)

theorem spreads_relay (st : RumorNode A S) (source : String) (r : Rumor (Message A)) :
    Spreads source st (st.relay source r) := by
  refine .of_noOffer fun q hmem => ?_
  rw [since_relay, List.mem_singleton] at hmem
  split_ifs at hmem

theorem spreads_finish (l : RumorLoop A S) (ok : Bool) :
    Spreads source l.node (l.finish C hdr ok) := by
  refine .of_noOffer fun q hmem => ?_
  rw [since_finish] at hmem
  split_ifs at hmem
  · cases List.mem_singleton.mp hmem
  · cases hmem

theorem spreads_offer {st : RumorNode A S} {r : Rumor (Message A)}
    (h : (st.offer hdr r).2 ≠ .process) : Spreads source st (st.offer hdr r).1 := by
  refine .of_noOffer fun q hmem => ?_
  rw [since_offer, List.mem_singleton] at hmem
  exact h (Act.offer.inj hmem).2.symm

theorem spreads_goOn {l l' : RumorLoop A S} (hv : (l.node.offer hdr r).2 ≠ .process)
    (h : Turn C hdr r l l' true) : Spreads hdr.source l.node l'.node := by
  cases h with
  | future => exact spreads_offer hv
  | prune =>
    have hoffer := l.node.grows_offer hdr r
    exact (spreads_offer hv).trans (spreads_relay _ _ _) hoffer.log (grows_relay _ _ _)
  | passes verdict => exact absurd verdict hv

theorem spreads_handled {r : Rumor (Message A)} {locked : List String}
    (call : handled C hdr r st locked = some (st', true))
    (h : ∀ m, r.msg = some m → (∀ a ∈ acceptances C hdr m st locked, Passes C hdr a) →
      Spreads hdr.source st st')
    (hpass : ∀ a ∈ embeddedAcceptances C hdr r st locked, Passes C hdr a) :
    Spreads hdr.source st st' := by
  cases hmsg : r.msg with
  | none =>
    rw [handled, hmsg] at call
    cases call
  | some m =>
    rw [embeddedAcceptances, hmsg] at hpass
    exact h m hmsg hpass

theorem Passes.of_handled {a : Acceptance A S} {ok : Bool} (h : Passes C hdr a)
    (call : handled C hdr a.rumor a.node a.locked = some (st', ok)) :
    ok = true ∧ st'.received a.rumor = false := by
  obtain ⟨p, hp, hok⟩ := h
  rw [Option.mem_def, call] at hp
  obtain rfl := Option.some.inj hp
  exact hok

/-- A rumor that passes is pushed after what its message brings. -/
theorem spreads_process {r : Rumor (Message A)} {locked : List String}
    (call : handled C hdr r (st.offer hdr r).1 locked = some (st', true))
    (hembedded : Spreads hdr.source (st.offer hdr r).1 st') (hnew : st'.received r = false) :
    Spreads hdr.source st (st'.relay hdr.source r) := by
  have hoffer := st.grows_offer hdr r
  have hhandled := (handled_handles C hdr call).toGrows
  have hrelay := grows_relay st' hdr.source r
  have hafter := hembedded.trans (spreads_relay st' hdr.source r) hhandled.log hrelay
  intro q hmem
  rw [since_trans hoffer.log (hhandled.trans hrelay).log, since_offer, List.singleton_append]
    at hmem
  rcases List.mem_cons.mp hmem with heq | hmem
  · obtain rfl := (Act.offer.inj heq).1
    exact (disseminated_relay st' hdr.source hnew).earlier (hoffer.trans hhandled).log hrelay.log
  · exact (hafter q hmem).earlier hoffer.log (hhandled.trans hrelay).log

theorem spreads_rule : CallRule C hdr
    (fun m st locked st' _ => (∀ a ∈ acceptances C hdr m st locked, Passes C hdr a) →
      Spreads hdr.source st st')
    (fun rs l l' _ => (∀ a ∈ loopAcceptances C hdr rs l, Passes C hdr a) →
      Spreads hdr.source l.node l'.node) where
  aside _ h _ := .of_noOffer fun r hmem => h.acts _ hmem
  rumors {_ _ _ l ok} hloop h hpass := by
    rw [acceptances] at hpass
    have hhandles := (turns_of_execRumors hloop).handles
    exact (h hpass).trans (spreads_finish l ok) hhandles.log (handles_finish C hdr l ok).toGrows
  privateMessage hme h hpass := by
    rw [acceptances, if_pos hme] at hpass
    exact h hpass
  nil _ := .of_noOffer (by simp)
  stop verdict call _ hpass := by
    rw [loopAcceptances_process C hdr verdict] at hpass
    exact absurd ((hpass _ List.mem_cons_self).of_handled call).1 Bool.false_ne_true
  goOn hv hturn hloop h hpass := by
    rw [loopAcceptances_goesOn C hdr hturn hv] at hpass
    have hhandles := (turns_of_execRumors hloop).handles
    exact (spreads_goOn hv hturn).trans (h hpass) (handles_goOn C hdr hv hturn).log
      hhandles.toGrows
  process {r _ _ node _ _} verdict free call h hloop hrest hpass := by
    rw [loopAcceptances_process C hdr verdict, turn_eq C hdr (.passes verdict call free)] at hpass
    obtain ⟨hown, hothers⟩ := List.forall_mem_cons.mp hpass
    obtain ⟨hembedded, hlater⟩ := List.forall_mem_append.mp hothers
    have hnew := (hown.of_handled call).2
    have hhere := spreads_process call (spreads_handled call h hembedded) hnew
    have hgrows := ((grows_offer _ _ _).trans (handled_handles C hdr call).toGrows).trans
      (grows_relay node hdr.source r)
    exact hhere.trans (hrest hlater) hgrows.log (turns_of_execRumors hloop).handles.toGrows

theorem execRumors_passes {rs : List (Rumor (Message A))} {l : RumorLoop A S}
    (hdistinct : (rs.map Rumor.origin).Nodup) (hfree : ∀ r ∈ rs, r.origin ∉ l.locked)
    (hpass : ∀ a ∈ loopAcceptances C hdr rs l, Passes C hdr a) :
    ∃ l', execRumors C hdr rs l = some (l', true) := by
  induction rs generalizing l with
  | nil => exact ⟨l, by rw [execRumors]⟩
  | cons r rs ih =>
    obtain ⟨hnotin, hdistinct⟩ := List.nodup_cons.mp hdistinct
    obtain ⟨hown, hfree⟩ := List.forall_mem_cons.mp hfree
    have hturn : ∃ l₁, Turn C hdr r l l₁ true := by
      cases hv : (l.node.offer hdr r).2 with
      | future => exact ⟨_, .future hv⟩
      | prune => exact ⟨_, .prune hv hown⟩
      | process =>
        rw [loopAcceptances_process C hdr hv] at hpass
        obtain ⟨⟨node, ok⟩, hcall, rfl, _⟩ := hpass _ List.mem_cons_self
        exact ⟨_, .passes hv hcall hown⟩
    obtain ⟨l₁, hturn⟩ := hturn
    rw [execRumors_cons, turn_eq C hdr hturn]
    refine ih hdistinct (fun q hq hlocked => ?_) fun a ha => hpass a (hturn.rest a ha)
    rcases hturn.locked q.origin hlocked with heq | hlocked
    · exact hnotin (heq ▸ List.mem_map_of_mem hq)
    · exact hfree q hq hlocked

/-- A rumor was accepted, and not pushed, and it is too late to push it. -/
structure Lost (st st' : RumorNode A S) (ok : Bool) (r : Rumor (Message A)) : Prop where
  offered : .offer r .process ∈ st.since st'
  unpushed : ∀ peers, .push r peers ∉ st.since st'
  late : ok = false ∨ st'.received r = true

/-- Once its tree has received it, a rumor is not pushed any more. -/
theorem Lost.later {ok : Bool} (h : Lost st st' true r) (hst : st.log <+: st'.log)
    (hst' : st'.Handles source st'') : Lost st st'' ok r := by
  have hreceived : st'.received r = true := h.late.resolve_left Bool.true_eq_false_eq_False
  have hsince := since_trans hst hst'.log
  refine ⟨?_, fun peers hmem => ?_, .inr (hst'.received hreceived)⟩
  · rw [hsince]
    exact List.mem_append_left _ h.offered
  · rw [hsince] at hmem
    rcases List.mem_append.mp hmem with hmem | hmem
    · exact h.unpushed peers hmem
    · exact absurd ((hst'.pushed r peers hmem).1.symm.trans hreceived) Bool.false_ne_true

theorem Lost.earlier {ok : Bool} (h : Lost st' st'' ok r) (hst : st.Handles source st')
    (hst' : st'.log <+: st''.log)
    (hnext : (st'.rumorTable.list r.origin).length < r.sequence) : Lost st st'' ok r := by
  have hsince := since_trans hst.log hst'
  refine ⟨?_, fun peers hmem => ?_, h.late⟩
  · rw [hsince]
    exact List.mem_append_right _ h.offered
  · rw [hsince] at hmem
    rcases List.mem_append.mp hmem with hmem | hmem
    · exact absurd (hst.pushed r peers hmem).2.2 (not_le.mpr hnext)
    · exact h.unpushed peers hmem

theorem push_handled {r : Rumor (Message A)} {locked : List String} {ok : Bool}
    (call : handled C hdr r st locked = some (st', ok))
    (h : ∀ m, r.msg = some m → ∀ q peers, .push q peers ∈ st.since st' → sizeOf q < sizeOf m) :
    ∀ q peers, .push q peers ∈ st.since st' → sizeOf q < sizeOf r := by
  intro q peers hmem
  obtain ⟨origin, sequence, msg⟩ := r
  cases msg with
  | none =>
    obtain ⟨rfl, _⟩ := Prod.mk.inj (Option.some.inj call)
    rw [since_self] at hmem
    cases hmem
  | some m =>
    have hlt := h m rfl q peers hmem
    simp only [Rumor.mk.sizeOf_spec, Option.some.sizeOf_spec]
    omega

theorem push_turn {r : Rumor (Message A)} {l l' : RumorLoop A S}
    (hv : (l.node.offer hdr r).2 ≠ .process) (h : Turn C hdr r l l' true) :
    ∀ q peers, .push q peers ∈ l.node.since l'.node → q = r := by
  intro q peers hmem
  rw [h.since] at hmem
  have hafter := (List.mem_cons.mp hmem).resolve_left (by simp)
  cases h with
  | future =>
    rw [since_self] at hafter
    cases hafter
  | prune => exact (push_relay hafter).1
  | passes verdict => exact absurd verdict hv

/-- What is pushed while a message is handled is inside of the message. -/
theorem sizes_rule : CallRule C hdr
    (fun m st _ st' _ => ∀ q peers, .push q peers ∈ st.since st' → sizeOf q < sizeOf m)
    (fun rs l l' _ => ∀ q peers, .push q peers ∈ l.node.since l'.node → sizeOf q < sizeOf rs) where
  aside _ h q peers hmem := absurd hmem fun hmem => h.acts _ hmem
  rumors {_ _ _ l ok} hloop h q peers hmem := by
    have hhandles := (turns_of_execRumors hloop).handles
    have hfinish := handles_finish C hdr l ok
    rcases (mem_since hhandles.log hfinish.log).mp hmem with hmem | hmem
    · have hlt := h q peers hmem
      simp only [Message.rumors.sizeOf_spec]
      omega
    · exact absurd hmem (push_finish C hdr)
  privateMessage _ h q peers hmem := by
    have := h q peers hmem
    simp only [Message.privateMessage.sizeOf_spec, Option.some.sizeOf_spec]
    omega
  nil := by simp
  stop {r _ _ _} verdict call h q peers hmem := by
    rw [(Turn.fails verdict call).since] at hmem
    have hlt := push_handled call h q peers ((List.mem_cons.mp hmem).resolve_left (by simp))
    simp only [List.cons.sizeOf_spec]
    omega
  goOn {r _ _ _ _ _} hv hturn hloop h q peers hmem := by
    have hrest := (turns_of_execRumors hloop).handles
    simp only [List.cons.sizeOf_spec]
    rcases (mem_since hturn.handles.log hrest.log).mp hmem with hmem | hmem
    · obtain rfl := push_turn hv hturn q peers hmem
      omega
    · have hlt := h q peers hmem
      omega
  process {r _ _ node _ _} verdict free call h hloop hrest q peers hmem := by
    have hturn : Turn C hdr r _ _ true := .passes verdict call free
    have hlater := (turns_of_execRumors hloop).handles
    have hrelay : node.Grows hdr.source (node.relay hdr.source r) := grows_relay _ _ _
    simp only [List.cons.sizeOf_spec]
    rcases (mem_since hturn.handles.log hlater.log).mp hmem with hmem | hmem
    · rw [hturn.since] at hmem
      have hafter := (List.mem_cons.mp hmem).resolve_left (by simp)
      rcases (mem_since (handled_handles C hdr call).log hrelay.log).mp hafter with hmem | hmem
      · have hlt := push_handled call h q peers hmem
        omega
      · obtain rfl := (push_relay hmem).1
        omega
    · have hlt := hrest q peers hmem
      omega

/-- Rumors are accepted in the order of their numbers. -/
theorem above_rule : AcceptanceRule C hdr fun st _ _ a =>
    (st.rumorTable.list a.rumor.origin).length < a.rumor.sequence where
  own {r _ _ _ _} verdict _ := by
    have hnext := (SafeRumorTable.tryToAcceptOrigin_process _ r).mp verdict
    exact (Nat.lt_succ_self _).trans_eq hnext.symm
  embedded {_ st _ _ _ _} _ _ habove := ((st.grows_offer hdr _).length_le _).trans_lt habove
  later _ _ habove := habove
  earlier hst _ _ habove := (hst.length_le _).trans_lt habove

theorem sizeOf_of_handled {r : Rumor (Message A)} {locked : List String} {ok : Bool}
    (call : handled C hdr r st locked = some (st', ok)) :
    ∀ q peers, .push q peers ∈ st.since st' → sizeOf q < sizeOf r :=
  push_handled call fun m hm => sizes_rule.call m _ _ (call_of_handled call hm)

/-- A rumor is inside of no message that it embeds, so it is not pushed meanwhile. -/
theorem lost_handled {r : Rumor (Message A)} {locked : List String} {ok : Bool}
    (verdict : (st.offer hdr r).2 = .process)
    (call : handled C hdr r (st.offer hdr r).1 locked = some (st', ok))
    (hover : ok = false ∨ st'.received r = true) : Lost st st' ok r := by
  have hoffer := st.grows_offer hdr r
  have hsince := since_trans hoffer.log (handled_handles C hdr call).log
  rw [since_offer, verdict] at hsince
  refine ⟨?_, fun peers hmem => ?_, hover⟩
  · rw [hsince]
    exact List.mem_cons_self
  · rw [hsince] at hmem
    have hafter := (List.mem_append.mp hmem).resolve_left (by simp)
    exact lt_irrefl _ (sizeOf_of_handled call r peers hafter)

/-- What is accepted passes, or it is lost. -/
theorem loses_rule :
    AcceptanceRule C hdr fun st st' ok a => Passes C hdr a ∨ Lost st st' ok a.rumor where
  own {r _ st' _ ok} verdict call := by
    cases ok with
    | false => exact .inr (lost_handled verdict call (.inl rfl))
    | true =>
      by_cases hreceived : st'.received r = true
      · exact .inr (lost_handled verdict call (.inr hreceived))
      · exact .inl ⟨(st', true), call, rfl, Bool.eq_false_iff.mpr hreceived⟩
  embedded {_ st _ _ _ a} call ha hlost := by
    have habove := forall_embedded
      (fun m hm => above_rule.rule.call m _ _ (call_of_handled call hm)) a ha
    refine hlost.imp_right fun hlost => ?_
    exact hlost.earlier (handles_offer hdr st _) (handled_handles C hdr call).log habove
  later hst hst' hlost := hlost.imp_right fun hlost => hlost.later hst.log hst'
  earlier {_ _ _ _ _ a} hst hloop ha hlost := by
    have habove := above_rule.rule.loop _ _ hloop.execRumors a ha
    exact hlost.imp_right fun hlost => hlost.earlier hst hloop.handles.log habove

/-- A packet of rumors of distinct origins spreads all that it makes the node accept exactly when
the handler of every accepted rumor's message comes back without an error, and without a rumor of
the same origin and number from inside. -/
theorem disseminates_iff (rumors : List (Rumor (Message A))) (st : RumorNode A S)
    (hdistinct : (rumors.map Rumor.origin).Nodup) :
    Disseminates C hdr rumors st ↔
      ∀ a ∈ acceptances C hdr (.rumors rumors) st [], Passes C hdr a := by
  constructor
  · rintro ⟨st', ok, hcall, -, hspread⟩ a ha
    refine (loses_rule.rule.call _ _ _ hcall a ha).resolve_right fun hlost => ?_
    obtain ⟨peers, hpush, -⟩ := (hspread _ hlost.offered).pushed
    exact hlost.unpushed peers hpush
  · intro hpass
    have hloop := hpass
    rw [acceptances] at hloop
    obtain ⟨l', hl'⟩ := execRumors_passes hdistinct (by simp) hloop
    have hcall : ∃ locked, execRumorMessage C hdr rumors st [] =
        some (l'.finish C hdr true, locked, true) :=
      ⟨_, by rw [execRumorMessage, processPacket, hl', Option.map_some]⟩
    obtain ⟨locked, hcall⟩ := hcall
    obtain rfl := processPacket_locked C hdr hcall
    refine ⟨_, true, hcall, fun r hr => ?_, spreads_rule.call _ _ _ hcall hpass⟩
    have hturns := turns_of_execRumors hl'
    obtain ⟨v, hv⟩ := hturns.offered rfl r hr
    exact ⟨v, (mem_since hturns.handles.log (handles_finish C hdr l' true).log).mpr (.inl hv)⟩

end RumorNode

namespace Sample

open RumorNode

def fromB : Header := ⟨"1", "B", "B"⟩

def boundNode : RumorNode JobPortal.Message Node :=
  ((newNode "A" JobPortal.Sample.bound.node).addPeer "A" "B").addPeer "A" "D"

/-- A PrePrepare that conflicts with what the node has, and a rumor of C behind it. -/
def conflictFirst : List (Rumor (Message JobPortal.Message)) :=
  [⟨"B", 1, some (.other JobPortal.Sample.conflicting)⟩, ⟨"C", 1, some (.privateMessage [] none)⟩]

def nodeA : Host JobPortal.Message Node := pbftHost JobPortal.Sample.primitives "A" fun _ _ => 0

def offeredOrigins {M : Type} (acts : List (Act M)) : List String :=
  acts.filterMap fun
    | .offer r _ => some r.origin
    | _ => none

/-- The rumor of B fails, so the one of C is never looked at. -/
theorem dissemination_stops_counterexample :
    (conflictFirst.map Rumor.origin).Nodup ∧
      ¬ Disseminates nodeA fromB conflictFirst boundNode := by
  refine ⟨by decide, ?_⟩
  rintro ⟨st', ok, hcall, hoffered, -⟩
  have horigins : (execRumorMessage nodeA fromB conflictFirst boundNode []).map
      (fun p => offeredOrigins (boundNode.since p.1)) = some ["B"] := by decide
  rw [hcall, Option.map_some] at horigins
  obtain ⟨v, hv⟩ := hoffered ⟨"C", 1, some (.privateMessage [] none)⟩ (by simp [conflictFirst])
  have hC : "C" ∈ offeredOrigins (boundNode.since st') :=
    List.mem_filterMap.mpr ⟨_, hv, rfl⟩
  rw [Option.some.inj horigins] at hC
  revert hC
  decide

theorem disseminates_iff_twoOrigins :
    Disseminates emptyHost fromB [⟨"B", 1, some (.other ())⟩, ⟨"C", 1, some (.other ())⟩]
      (((newNode "b" ()).addPeer "b" "B").addPeer "b" "D") :=
  (disseminates_iff _ _ (by decide)).mpr (by decide)

end Sample

end JobPortal.Gossip
