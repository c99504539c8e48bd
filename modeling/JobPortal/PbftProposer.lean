import JobPortal.PbftSample

/-! The Tag calls of one node share its PbftID counter. Only the first pass of a call takes a
new ID; a later pass uses whatever the counter shows, which is the ID of another call once
one has started in between. -/
namespace JobPortal

open Runs

variable (P : Primitives)

/-- A handler never rebinds an ID, and only the TLC path moves the counter. -/
theorem Node.Effect.records {n : Node} {m : Message} {r : Handled} (h : n.Effect P m r) :
    (∀ k d, n.pbft.logPrePrepareMsg.lookup k = some d →
      r.node.pbft.logPrePrepareMsg.lookup k = some d) ∧
    ((∀ tlc, m ≠ .pbftTLC tlc) → r.node.pbft.pbftID = n.pbft.pbftID) := by
  cases h with
  | idle same => rw [same.node]; exact ⟨fun _ _ hk => hk, fun _ => rfl⟩
  | prePrepare admits digest fresh =>
    rename_i pp
    refine ⟨fun k d hk => ?_, fun _ => rfl⟩
    by_cases hkpp : k = pp.pbftID
    · subst hkpp
      have hd : d = pp.digest := by
        by_contra hne
        exact fresh ⟨d, hk, hne⟩
      simp [Node.storePrePrepare, hd]
    · simpa [Node.storePrePrepare, Finmap.lookup_insert_of_ne _ hkpp] using hk
  | pbftTLC tlc =>
    refine ⟨fun k d hk => ?_, fun hno => absurd rfl (hno tlc)⟩
    rw [(Node.execPbftTLCMessage_frame P n tlc).1.logPrePrepareMsg]
    exact hk
  | conflict => exact ⟨fun _ _ hk => hk, fun _ => rfl⟩
  | prepare => exact ⟨fun _ _ hk => hk, fun _ => rfl⟩
  | prepared => exact ⟨fun _ _ hk => hk, fun _ => rfl⟩
  | commit => exact ⟨fun _ _ hk => hk, fun _ => rfl⟩
  | noPeers => exact ⟨fun _ _ hk => hk, fun _ => rfl⟩
  | committed => exact ⟨fun _ _ hk => hk, fun _ => rfl⟩
  | checkpoint => exact ⟨fun _ _ hk => hk, fun _ => rfl⟩

/-- PrePrepares come from Tag alone. -/
theorem Node.Effect.no_prePrepare {n : Node} {m : Message} {r : Handled} (h : n.Effect P m r)
    (pp : PrePrepareMessage) : .prePrepare pp ∉ r.sent := by
  cases h with
  | idle same => simp [same.sent]
  | pbftTLC tlc =>
    intro hpp
    obtain ⟨t, ht⟩ := (Node.execPbftTLCMessage_frame P n tlc).2.2.2.2.2 _ hpp
    cases ht
  | conflict => simp
  | prePrepare => simp
  | prepare => simp
  | prepared => simp
  | commit => simp
  | noPeers => simp
  | committed => simp
  | checkpoint => simp

theorem Node.tagSection_spec (n : Node) (call : TagCall) :
    let r := n.tagSection P call
    r.node.pbft.logPrePrepareMsg = n.pbft.logPrePrepareMsg.insert (n.tagAssigned call).pbftID
      (P.getDigest (n.tagRequest call)) ∧
    r.node.pbft.pbftID = (n.tagAssigned call).pbftID ∧
    ∀ pp, .prePrepare pp ∈ r.sent ↔ pp = n.tagPrePrepare P call := by
  obtain ⟨_, hlogs⟩ := n.tagAssigned_logs call
  unfold Node.tagSection
  split_ifs <;>
    simp [Node.tagStored, Node.recordCheckpoint, hlogs]

theorem Node.tagAssigned_pbftID (n : Node) (call : TagCall) :
    (n.tagAssigned call).pbftID =
      if call.flag then n.pbft.pbftID else n.pbft.pbftID + n.totalPeers := by
  unfold Node.tagAssigned
  split_ifs <;> rfl

@[simp] theorem Peer.propose_pbftID (p : Peer) (i : ℕ) (call : TagCall) :
    (p.propose P i call).node.pbft.pbftID = (p.node.tagAssigned call).pbftID :=
  (p.node.tagSection_spec P call).2.1

theorem Peer.Effect.prePrepare_sent {p q : Peer} {e : PeerEvent} (h : p.Effect P e q)
    {pp : PrePrepareMessage} (hpp : .prePrepare pp ∈ q.sent) :
    .prePrepare pp ∈ p.sent ∨ ∃ i call, e = .propose i ∧ p.calls[i]? = some call ∧
      q = p.propose P i call ∧ pp = p.node.tagPrePrepare P call := by
  cases h with
  | receive m effect =>
    rcases List.mem_append.mp hpp with hold | hnew
    · exact .inl hold
    · exact absurd hnew (effect.no_prePrepare P pp)
  | tag name mh =>
    rw [Peer.tag_sent] at hpp
    exact .inl hpp
  | verify => exact .inl hpp
  | @propose i call call_at =>
    rcases List.mem_append.mp hpp with hold | hnew
    · exact .inl hold
    · exact .inr ⟨i, call, rfl, call_at, rfl, ((p.node.tagSection_spec P call).2.2 pp).mp hnew⟩

def SafePbft.FreeFor (s : SafePbft) (k : ℕ) (digest : String) : Prop :=
  ∀ d, s.logPrePrepareMsg.lookup k = some d → d = digest

instance (s : SafePbft) (k : ℕ) (digest : String) : Decidable (s.FreeFor k digest) :=
  decidable_of_iff (∀ d ∈ s.logPrePrepareMsg.lookup k, d = digest) <| by
    simp [SafePbft.FreeFor]

/-- A peer with a note of the Tag call that took the ID the counter shows, if one did. -/
structure Tagger where
  peer : Peer
  owner : Option ℕ

namespace Tagger

def nextOwner (t : Tagger) : PeerEvent → Option ℕ
  | .propose i => if (t.peer.calls[i]?.map (·.flag)) = some false then some i else t.owner
  | .receive (.pbftTLC _) => none
  | _ => t.owner

def step (t : Tagger) (e : PeerEvent) : Option Tagger :=
  (t.peer.step P e).map fun p => ⟨p, t.nextOwner e⟩

/-- A pass of the loop uses an ID of its own: a first pass gets an ID that no other node has
bound, a later pass still finds the ID of its call in the counter. -/
def UsesOwnID (t : Tagger) : PeerEvent → Prop
  | .propose i => ∀ call ∈ t.peer.calls[i]?,
      let digest := P.getDigest (t.peer.node.tagRequest call)
      if call.flag then
        t.owner = some i ∨ t.owner = none ∧ t.peer.node.pbft.FreeFor t.peer.node.pbft.pbftID digest
      else t.peer.node.pbft.FreeFor (t.peer.node.pbft.pbftID + t.peer.node.totalPeers) digest
  | _ => True

instance (t : Tagger) : (e : PeerEvent) → Decidable (t.UsesOwnID P e)
  | .propose _ => by unfold UsesOwnID; infer_instance
  | .receive _ | .tag .. | .verify _ => isTrue trivial

def KeepsRecords (t : Tagger) (e : PeerEvent) : Prop :=
  ∀ u, t.step P e = some u → ∀ k d d',
    t.peer.node.pbft.logPrePrepareMsg.lookup k = some d →
    u.peer.node.pbft.logPrePrepareMsg.lookup k = some d' → d' = d

def Consistent (t : Tagger) : Prop :=
  ∀ pp pp', .prePrepare pp ∈ t.peer.sent → .prePrepare pp' ∈ t.peer.sent →
    pp.pbftID = pp'.pbftID → pp.digest = pp'.digest

end Tagger

def newTagger (conf : PeerConfig) : Tagger := ⟨newPeer P conf, none⟩

def PeerEvent.tagged : PeerEvent → Option (String × String)
  | .tag name mh => some (name, mh)
  | _ => none

/-- Broadcast PrePrepares are on record, and the counter's ID is bound to its owner's request. -/
structure Tagger.Sound (t : Tagger) : Prop where
  sent : ∀ pp, .prePrepare pp ∈ t.peer.sent →
    t.peer.node.pbft.logPrePrepareMsg.lookup pp.pbftID = some pp.digest
  owner : ∀ i, t.owner = some i → ∃ call, t.peer.calls[i]? = some call ∧
    t.peer.node.pbft.logPrePrepareMsg.lookup t.peer.node.pbft.pbftID =
      some (P.getDigest (t.peer.node.tagRequest call))

namespace Tagger

variable {P} {t u : Tagger} {e : PeerEvent}

theorem Sound.consistent (h : Sound P t) : t.Consistent := by
  intro pp pp' hpp hpp' hid
  have hd := h.sent pp hpp
  rw [hid, h.sent pp' hpp'] at hd
  exact (Option.some.inj hd).symm

theorem propose_lookup {p : Peer} {i : ℕ} {call : TagCall} (k : ℕ) :
    (p.propose P i call).node.pbft.logPrePrepareMsg.lookup k =
      if k = (p.node.tagAssigned call).pbftID then some (P.getDigest (p.node.tagRequest call))
      else p.node.pbft.logPrePrepareMsg.lookup k := by
  have hlogs : (p.propose P i call).node.pbft.logPrePrepareMsg = _ :=
    (p.node.tagSection_spec P call).1
  rw [hlogs]
  split_ifs with hk
  · rw [hk, Finmap.lookup_insert]
  · rw [Finmap.lookup_insert_of_ne _ hk]

/-- A pass keeps the records exactly when the ID it uses is free for its digest. -/
theorem keepsRecords_propose {i : ℕ} {call : TagCall} (hcall : t.peer.calls[i]? = some call)
    (hstep : t.step P (.propose i) = some u) :
    t.KeepsRecords P (.propose i) ↔ t.peer.node.pbft.FreeFor
      (t.peer.node.tagAssigned call).pbftID (P.getDigest (t.peer.node.tagRequest call)) := by
  have hu : u.peer = t.peer.propose P i call := by
    obtain ⟨q, hq, rfl⟩ := Option.map_eq_some_iff.mp hstep
    cases Peer.step_effect P hq with
    | propose call_at =>
      obtain rfl := Option.some.inj (hcall.symm.trans call_at)
      rfl
  constructor
  · intro h d hd
    exact (h u hstep _ d _ hd (by rw [hu, propose_lookup, if_pos rfl])).symm
  · intro h v hv k d d' hd hd'
    obtain rfl := Option.some.inj (hstep.symm.trans hv)
    rw [hu, propose_lookup] at hd'
    split_ifs at hd' with hk
    · exact (Option.some.inj hd').symm.trans (h d (hk ▸ hd)).symm
    · exact Option.some.inj (hd'.symm.trans hd)

theorem keepsRecords_of_not_propose (hno : ∀ i, e ≠ .propose i) : t.KeepsRecords P e := by
  intro u hu k d d' hd hd'
  obtain ⟨q, hq, rfl⟩ := Option.map_eq_some_iff.mp hu
  have hkeep : q.node.pbft.logPrePrepareMsg.lookup k = some d := by
    cases Peer.step_effect P hq with
    | receive m effect => exact (effect.records P).1 k d hd
    | tag name mh => rw [Peer.tag_pbft]; exact hd
    | verify => exact hd
    | propose => exact absurd rfl (hno _)
  exact Option.some.inj (hd'.symm.trans hkeep)

theorem Sound.keepsRecords (h : Sound P t) (hown : t.UsesOwnID P e) (hstep : t.step P e = some u) :
    t.KeepsRecords P e := by
  cases e with
  | propose i =>
    obtain ⟨q, hq, _⟩ := Option.map_eq_some_iff.mp hstep
    cases Peer.step_effect P hq with
    | @propose _ call call_at pc free =>
      rw [keepsRecords_propose call_at hstep, Node.tagAssigned_pbftID]
      have huses := hown call call_at
      dsimp only at huses
      split_ifs at huses ⊢ with hflag
      · rcases huses with hi | ⟨_, hfree⟩
        · obtain ⟨call', hcall', hd⟩ := h.owner i hi
          obtain rfl := Option.some.inj (call_at.symm.trans hcall')
          intro d hd'
          exact Option.some.inj (hd'.symm.trans hd)
        · exact hfree
      · exact huses
  | receive m => exact keepsRecords_of_not_propose (by simp)
  | tag name mh => exact keepsRecords_of_not_propose (by simp)
  | verify i => exact keepsRecords_of_not_propose (by simp)

/-- Calls keep their place and their request. -/
theorem calls_stay {p q : Peer} {e : PeerEvent} (h : p.Effect P e q) {i : ℕ} {call : TagCall}
    (hcall : p.calls[i]? = some call) :
    ∃ call', q.calls[i]? = some call' ∧ q.node.tagRequest call' = p.node.tagRequest call := by
  have hconf := (h.sameConfig P).myAddr
  have hset {j : ℕ} {c c' : TagCall} (hj : p.calls[j]? = some c) (hname : c'.name = c.name)
      (hmh : c'.mh = c.mh) : ∃ call', (p.calls.set j c')[i]? = some call' ∧
        call'.name = call.name ∧ call'.mh = call.mh := by
    by_cases hij : j = i
    · subst hij
      obtain rfl := Option.some.inj (hj.symm.trans hcall)
      obtain ⟨hlt, _⟩ := List.getElem?_eq_some_iff.mp hcall
      exact ⟨c', by rw [List.getElem?_set_self hlt], hname, hmh⟩
    · exact ⟨call, by rw [List.getElem?_set_ne hij]; exact hcall, rfl, rfl⟩
  suffices ∃ call', q.calls[i]? = some call' ∧ call'.name = call.name ∧ call'.mh = call.mh by
    obtain ⟨call', hat, hname, hmh⟩ := this
    exact ⟨call', hat, by rw [Node.tagRequest, Node.tagRequest, hconf, hname, hmh]⟩
  cases h with
  | receive => exact ⟨call, hcall, rfl, rfl⟩
  | tag name mh =>
    refine ⟨call, ?_, rfl, rfl⟩
    unfold Peer.tag
    split_ifs
    · exact hcall
    · exact hcall
    · obtain ⟨hlt, _⟩ := List.getElem?_eq_some_iff.mp hcall
      rw [List.getElem?_append_left hlt]
      exact hcall
  | verify call_at => exact hset call_at rfl rfl
  | propose call_at => exact hset call_at rfl rfl

theorem KeepsRecords.lookup (hkeep : t.KeepsRecords P e) (hstep : t.step P e = some u) {k : ℕ}
    {d : String} (hk : t.peer.node.pbft.logPrePrepareMsg.lookup k = some d) :
    u.peer.node.pbft.logPrePrepareMsg.lookup k = some d := by
  suffices ∃ d', u.peer.node.pbft.logPrePrepareMsg.lookup k = some d' by
    obtain ⟨d', hd'⟩ := this
    rw [hd', hkeep u hstep k d d' hk hd']
  obtain ⟨q, hq, rfl⟩ := Option.map_eq_some_iff.mp hstep
  cases Peer.step_effect P hq with
  | receive m effect => exact ⟨d, (effect.records P).1 k d hk⟩
  | tag name mh => exact ⟨d, by rw [Peer.tag_pbft]; exact hk⟩
  | verify => exact ⟨d, hk⟩
  | propose call_at =>
    simp only [propose_lookup]
    split_ifs
    · exact ⟨_, rfl⟩
    · exact ⟨d, hk⟩

theorem sent_recorded {p q : Peer} (h : p.Effect P e q) {pp : PrePrepareMessage}
    (hpp : .prePrepare pp ∈ q.sent) : .prePrepare pp ∈ p.sent ∨
      q.node.pbft.logPrePrepareMsg.lookup pp.pbftID = some pp.digest := by
  rcases h.prePrepare_sent P hpp with hold | ⟨i, call, _, _, rfl, rfl⟩
  · exact .inl hold
  · exact .inr ((propose_lookup _).trans (if_pos rfl))

theorem Sound.step (h : Sound P t) (hown : t.UsesOwnID P e) (hstep : t.step P e = some u) :
    Sound P u := by
  have hkeep := h.keepsRecords hown hstep
  have hlookup {k : ℕ} {d : String} := hkeep.lookup (k := k) (d := d) hstep
  obtain ⟨q, hq, rfl⟩ := Option.map_eq_some_iff.mp hstep
  have heff := Peer.step_effect P hq
  constructor
  · intro pp hpp
    rcases sent_recorded heff hpp with hold | hnew
    · exact hlookup (h.sent pp hold)
    · exact hnew
  · intro i hi
    -- an owner from before still has its call, its request and its ID
    have stays (hsame : t.owner = some i) (hid : q.node.pbft.pbftID = t.peer.node.pbft.pbftID) :
        ∃ call, q.calls[i]? = some call ∧ q.node.pbft.logPrePrepareMsg.lookup
          q.node.pbft.pbftID = some (P.getDigest (q.node.tagRequest call)) := by
      obtain ⟨call, hcall, hd⟩ := h.owner i hsame
      obtain ⟨call', hcall', hreq⟩ := calls_stay heff hcall
      exact ⟨call', hcall', by rw [hid, hreq]; exact hlookup hd⟩
    cases heff with
    | receive m effect =>
      cases m with
      | pbftTLC tlc => cases hi
      | prePrepare => exact stays hi ((effect.records P).2 (by simp))
      | prepare => exact stays hi ((effect.records P).2 (by simp))
      | commit => exact stays hi ((effect.records P).2 (by simp))
      | checkpoint => exact stays hi ((effect.records P).2 (by simp))
    | tag name mh => exact stays hi (by rw [Peer.tag_pbft])
    | verify => exact stays hi rfl
    | @propose j call call_at pc free =>
      have hid := t.peer.propose_pbftID P j call
      have hset : ∃ call', (t.peer.propose P j call).calls[j]? = some call' ∧
          (t.peer.propose P j call).node.tagRequest call' = t.peer.node.tagRequest call :=
        calls_stay (Peer.Effect.propose call_at pc free) call_at
      cases hflag : call.flag with
      | false =>
        have hj : some j = some i := by simpa [nextOwner, call_at, hflag] using hi
        obtain rfl := Option.some.inj hj
        obtain ⟨call', hcall', hreq⟩ := hset
        exact ⟨call', hcall', by rw [hid, hreq]; exact (propose_lookup _).trans (if_pos rfl)⟩
      | true =>
        have hsame : t.owner = some i := by simpa [nextOwner, call_at, hflag] using hi
        refine stays hsame (hid.trans ?_)
        rw [Node.tagAssigned_pbftID, hflag, if_pos rfl]

theorem newTagger_sound (conf : PeerConfig) : Sound P (newTagger P conf) where
  sent := by simp [newTagger, newPeer]
  owner := by simp [newTagger]

theorem calls_sublist {p q : Peer} (h : p.Effect P e q) {xs : List (String × String)}
    (hsub : (p.calls.map fun call => (call.name, call.mh)).Sublist xs) :
    (q.calls.map fun call => (call.name, call.mh)).Sublist (xs ++ e.tagged.toList) := by
  have hset {i : ℕ} {c c' : TagCall} (hi : p.calls[i]? = some c)
      (hsame : (c'.name, c'.mh) = (c.name, c.mh)) :
      (p.calls.set i c').map (fun call => (call.name, call.mh)) =
        p.calls.map fun call => (call.name, call.mh) := by
    rw [List.map_set, hsame]
    apply List.ext_getElem?
    intro j
    by_cases hij : i = j
    · subst hij
      obtain ⟨hlt, _⟩ := List.getElem?_eq_some_iff.mp hi
      rw [List.getElem?_set_self (by simpa using hlt), List.getElem?_map, hi]
      rfl
    · rw [List.getElem?_set_ne hij]
  cases h with
  | receive => simpa [PeerEvent.tagged, Peer.after] using hsub
  | tag name mh =>
    unfold Peer.tag
    split_ifs
    · exact hsub.trans (List.sublist_append_left _ _)
    · exact hsub.trans (List.sublist_append_left _ _)
    · simpa [PeerEvent.tagged] using hsub.append (List.Sublist.refl [(name, mh)])
  | @verify i call call_at pc =>
    have hmap : (p.verify i call).calls.map (fun call => (call.name, call.mh)) =
        p.calls.map fun call => (call.name, call.mh) := hset call_at rfl
    simpa [PeerEvent.tagged, hmap] using hsub
  | @propose i call call_at pc free =>
    have hmap : (p.propose P i call).calls.map (fun call => (call.name, call.mh)) =
        p.calls.map fun call => (call.name, call.mh) := hset call_at rfl
    simpa [PeerEvent.tagged, hmap] using hsub

theorem calls_of_run {conf : PeerConfig} {es : List PeerEvent} {ok : Tagger → PeerEvent → Prop}
    (h : Run (Tagger.step P) ok (newTagger P conf) es t) :
    (t.peer.calls.map fun call => (call.name, call.mh)).Sublist (es.filterMap PeerEvent.tagged) := by
  induction h with
  | nil => exact List.Sublist.refl _
  | @snoc es t u e prior meets enabled ih =>
    obtain ⟨q, hq, rfl⟩ := Option.map_eq_some_iff.mp enabled
    have hlast : [e].filterMap PeerEvent.tagged = e.tagged.toList := by
      cases htag : e.tagged <;> simp [htag]
    rw [List.filterMap_append, hlast]
    exact calls_sublist (Peer.step_effect P hq) ih

theorem config_of_run {conf : PeerConfig} {es : List PeerEvent} {ok : Tagger → PeerEvent → Prop}
    (h : Run (Tagger.step P) ok (newTagger P conf) es t) :
    (newPeer P conf).node.SameConfig t.peer.node := by
  refine h.invariant (I := fun t => (newPeer P conf).node.SameConfig t.peer.node)
    (by constructor <;> rfl) ?_
  intro t u e hconf _ hstep
  obtain ⟨q, hq, rfl⟩ := Option.map_eq_some_iff.mp hstep
  exact hconf.trans ((Peer.step_effect P hq).sameConfig P)

theorem call_inj_of_run {conf : PeerConfig} {es : List PeerEvent} {t : Tagger}
    (h : AnyRun (Tagger.step P) (newTagger P conf) es t)
    (hcalls : (es.filterMap PeerEvent.tagged).Nodup)
    (hdigest : ∀ x ∈ es.filterMap PeerEvent.tagged, ∀ y ∈ es.filterMap PeerEvent.tagged,
      P.getDigest ⟨conf.myAddr, x.1, x.2⟩ = P.getDigest ⟨conf.myAddr, y.1, y.2⟩ → x = y)
    (i j : ℕ) (call call' : TagCall) (hcall : t.peer.calls[i]? = some call)
    (hcall' : t.peer.calls[j]? = some call')
    (heq : P.getDigest (t.peer.node.tagRequest call) = P.getDigest (t.peer.node.tagRequest call')) :
    i = j := by
  have hsub := Tagger.calls_of_run h
  have hmem {k : ℕ} {c : TagCall} (hc : t.peer.calls[k]? = some c) :
      (c.name, c.mh) ∈ es.filterMap PeerEvent.tagged :=
    hsub.subset (List.mem_map.mpr ⟨c, List.mem_of_getElem? hc, rfl⟩)
  rw [Node.tagRequest, Node.tagRequest, (Tagger.config_of_run h).myAddr] at heq
  have hsame := hdigest _ (hmem hcall) _ (hmem hcall') heq
  have hlt : i < (t.peer.calls.map fun call => (call.name, call.mh)).length := by
    simpa using (List.getElem?_eq_some_iff.mp hcall).1
  refine (List.getElem?_inj hlt (hcalls.sublist hsub)).mp ?_
  rw [List.getElem?_map, List.getElem?_map, hcall, hcall']
  exact congrArg some hsame

/-- Calls whose requests have different digests: a pass that keeps the records has its own ID. -/
theorem Sound.usesOwnID (h : Sound P t)
    (hdistinct : ∀ (i j : ℕ) (call call' : TagCall), t.peer.calls[i]? = some call →
      t.peer.calls[j]? = some call' →
      P.getDigest (t.peer.node.tagRequest call) = P.getDigest (t.peer.node.tagRequest call') →
      i = j)
    (hkeep : t.KeepsRecords P e) (hstep : t.step P e = some u) : t.UsesOwnID P e := by
  cases e with
  | propose i =>
    intro call hcall
    have hfree := (keepsRecords_propose hcall hstep).mp hkeep
    rw [Node.tagAssigned_pbftID] at hfree
    dsimp only
    split_ifs at hfree ⊢ with hflag
    · cases howner : t.owner with
      | none => exact .inr ⟨rfl, hfree⟩
      | some j =>
        obtain ⟨call', hcall', hd⟩ := h.owner j howner
        rw [hdistinct j i call' call hcall' hcall (hfree _ hd)]
        exact .inl rfl
    · exact hfree
  | receive => trivial
  | tag => trivial
  | verify => trivial

end Tagger

/-- A node that tags different files never equivocates and never overwrites a record exactly
when every pass of its Tag loops uses an ID of its own. -/
theorem proposals_consistent_iff {conf : PeerConfig} {es : List PeerEvent} {t : Tagger}
    (hrun : AnyRun (Tagger.step P) (newTagger P conf) es t)
    (hcalls : (es.filterMap PeerEvent.tagged).Nodup)
    (hdigest : ∀ x ∈ es.filterMap PeerEvent.tagged, ∀ y ∈ es.filterMap PeerEvent.tagged,
      P.getDigest ⟨conf.myAddr, x.1, x.2⟩ = P.getDigest ⟨conf.myAddr, y.1, y.2⟩ → x = y) :
    t.Consistent ∧ Run (Tagger.step P) (fun t e => t.KeepsRecords P e) (newTagger P conf) es t ↔
      Run (Tagger.step P) (fun t e => t.UsesOwnID P e) (newTagger P conf) es t := by
  have hsound {es : List PeerEvent} {t : Tagger}
      (h : Run (Tagger.step P) (fun t e => t.UsesOwnID P e) (newTagger P conf) es t) :
      Tagger.Sound P t :=
    h.invariant (I := Tagger.Sound P) (Tagger.newTagger_sound conf) Tagger.Sound.step
  suffices Run (Tagger.step P) (fun t e => t.KeepsRecords P e) (newTagger P conf) es t ↔
      Run (Tagger.step P) (fun t e => t.UsesOwnID P e) (newTagger P conf) es t by
    rw [this]
    exact ⟨fun h => h.2, fun h => ⟨(hsound h).consistent, h⟩⟩
  induction hrun with
  | nil => exact ⟨fun _ => .nil, fun _ => .nil⟩
  | @snoc es t u e prior _ enabled ih =>
    rw [List.filterMap_append] at hcalls hdigest
    have hcalls := hcalls.of_append_left
    have hdigest : ∀ x ∈ es.filterMap PeerEvent.tagged, ∀ y ∈ es.filterMap PeerEvent.tagged,
        P.getDigest ⟨conf.myAddr, x.1, x.2⟩ = P.getDigest ⟨conf.myAddr, y.1, y.2⟩ → x = y :=
      fun x hx y hy => hdigest x (List.mem_append_left _ hx) y (List.mem_append_left _ hy)
    have ih := ih hcalls hdigest
    constructor
    · intro h
      obtain ⟨t', ht', hkeep, hstep⟩ := h.last
      obtain rfl := ht'.unique prior
      have hgood := ih.mp ht'
      have hdistinct := Tagger.call_inj_of_run prior hcalls hdigest
      exact .snoc hgood ((hsound hgood).usesOwnID hdistinct hkeep hstep) hstep
    · intro h
      obtain ⟨t', ht', hown, hstep⟩ := h.last
      obtain rfl := ht'.unique prior
      exact .snoc (ih.mpr ht') ((hsound ht').keepsRecords hown hstep) hstep

namespace Sample

def pass (i : ℕ) : List PeerEvent := [.verify i, .propose i]

/-- Two calls at once: the second pass of the first call uses the ID of the second. -/
def interleaved : List PeerEvent :=
  [.tag "f" "m", .tag "g" "n"] ++ pass 0 ++ pass 1 ++ pass 0

theorem interleaved_isSome :
    (exec (Tagger.step primitives) (newTagger primitives (conf "A" 1)) interleaved).isSome := by
  decide

def equivocating : Tagger :=
  (exec (Tagger.step primitives) (newTagger primitives (conf "A" 1)) interleaved).get
    interleaved_isSome

theorem equivocation_counterexample :
    AnyRun (Tagger.step primitives) (newTagger primitives (conf "A" 1)) interleaved equivocating ∧
      ¬ equivocating.Consistent := by
  refine ⟨run_exec_get _, fun h => ?_⟩
  have hsame := h (prePrepareFrom "A" ⟨"A", "g", "n"⟩ 9) (prePrepareFrom "A" ⟨"A", "f", "m"⟩ 9)
    (by decide) (by decide) rfl
  revert hsame
  decide

def successive : List PeerEvent :=
  [.tag "f" "m", .tag "g" "n"] ++ pass 0 ++ pass 0 ++ pass 1 ++ pass 1

theorem successive_isSome :
    (exec (guarded (Tagger.step primitives) (Tagger.UsesOwnID primitives))
      (newTagger primitives (conf "A" 1)) successive).isSome := by
  decide

theorem proposals_consistent_iff_successive :
    ((exec (guarded (Tagger.step primitives) (Tagger.UsesOwnID primitives))
      (newTagger primitives (conf "A" 1)) successive).get successive_isSome).Consistent :=
  have hrun := run_of_guarded (run_exec_get successive_isSome)
  ((proposals_consistent_iff primitives hrun.forget (by decide)
    (by decide)).mpr hrun).1

end Sample

end JobPortal
