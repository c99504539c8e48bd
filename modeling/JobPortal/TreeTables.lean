import JobPortal.RumorCalls

/-! The trees of a node and the peers it was told about. A tree starts with the neighbors that the
node has when it needs the tree for the first time. -/
namespace JobPortal.Gossip

open Runs

/-- The table of the trees, with the addresses that were passed to `AddPeer` noted down. -/
structure PlumTreeTable where
  table : GoMap String PlumTree
  neighbors : List String
  added : List String

inductive PlumTreeTableEvent
  | addPeer (addr : String)
  | getPlumTreeInstance (addr : String)
  /-- A step of the tree of an origin. -/
  | tree (origin : String) (e : PlumTreeEvent)
  deriving DecidableEq, Repr

def PlumTreeTableEvent.AddsPeer : PlumTreeTableEvent → Prop
  | .addPeer _ => True
  | .getPlumTreeInstance _ | .tree .. => False

namespace PlumTreeTable

def newPlumTreeMap : PlumTreeTable := ⟨∅, [], []⟩

def addPeer (myAddr : String) (p : PlumTreeTable) (addr : String) : PlumTreeTable :=
  { p with
    neighbors := if myAddr = addr then p.neighbors else p.neighbors ++ [addr]
    added := p.added ++ [addr] }

def getPlumTreeInstance (p : PlumTreeTable) (addr : String) : PlumTreeTable :=
  if addr ∈ p.table then p
  else { p with table := p.table.insert addr (.newPlumTree p.neighbors) }

def step (myAddr : String) (p : PlumTreeTable) : PlumTreeTableEvent → Option PlumTreeTable
  | .addPeer addr => some (p.addPeer myAddr addr)
  | .getPlumTreeInstance addr => some (p.getPlumTreeInstance addr)
  | .tree origin e => (p.table.lookup origin).bind fun t => (t.step e).map fun t =>
      { p with table := p.table.insert origin t }

def Knows (t : PlumTree) (addr : String) : Prop := addr ∈ t.peers.eagers ∨ addr ∈ t.peers.lazys

/-- Every tree knows every other address that the node was told. -/
def Joined (myAddr : String) (p : PlumTreeTable) : Prop :=
  ∀ origin t, p.table.lookup origin = some t → ∀ addr ∈ p.added, addr ≠ myAddr → Knows t addr

/-- An address is told when all trees that there are know it, for one while there are none. -/
def InTime (myAddr : String) (p : PlumTreeTable) : PlumTreeTableEvent → Prop
  | .addPeer addr => addr ≠ myAddr → ∀ origin t, p.table.lookup origin = some t → Knows t addr
  | .getPlumTreeInstance _ | .tree .. => True

def Partitioned (p : PlumTreeTable) : Prop :=
  ∀ origin t, p.table.lookup origin = some t → Disjoint t.peers.eagers t.peers.lazys

def KeepsPeers (p p' : PlumTreeTable) : Prop :=
  ∀ origin t, p.table.lookup origin = some t →
    ∃ t', p'.table.lookup origin = some t' ∧ ∀ addr, Knows t addr → Knows t' addr

variable {myAddr : String} {p p' p'' : PlumTreeTable} {e : PlumTreeTableEvent}
  {es : List PlumTreeTableEvent}

/-- No step of a tree drops a peer. -/
theorem Knows.step {t t' : PlumTree} {e : PlumTreeEvent} {addr : String} (h : Knows t addr)
    (hstep : t.step e = some t') : Knows t' addr := by
  unfold Knows at h ⊢
  cases PlumTree.step_effect hstep with
  | keeps eagers lazys => exact h.imp (@eagers addr) (@lazys addr)
  | toLazy peer peers =>
    rw [peers]
    simp only [PlumTree.moveToLazy, PeerList.moveToLazy, Finset.mem_insert, Finset.mem_erase]
    tauto
  | toEager peer peers =>
    rw [peers]
    simp only [PlumTree.moveToEager, PeerList.moveToEager, Finset.mem_insert, Finset.mem_erase]
    tauto
  | disseminates msgHash source eagers new lazys =>
    exact h.imp (@eagers addr) fun hlazy => lazys.ge hlazy
  | queues _ peers => rwa [peers]

theorem partitioned (p : PlumTreeTable) : p.Partitioned := fun _ t _ =>
  Finset.disjoint_right.mpr t.peers.disjoint

theorem KeepsPeers.refl (p : PlumTreeTable) : p.KeepsPeers p := fun _ t ht => ⟨t, ht, fun _ => id⟩

theorem KeepsPeers.trans (h : p.KeepsPeers p') (h' : p'.KeepsPeers p'') : p.KeepsPeers p'' := by
  intro origin t ht
  obtain ⟨t', ht', hknows⟩ := h origin t ht
  obtain ⟨t'', ht'', hknows'⟩ := h' origin t' ht'
  exact ⟨t'', ht'', fun addr haddr => hknows' addr (hknows addr haddr)⟩

theorem keepsPeers_step (hstep : p.step myAddr e = some p') : p.KeepsPeers p' := by
  cases e with
  | addPeer addr =>
    obtain rfl := Option.some.inj hstep
    exact .refl p
  | getPlumTreeInstance addr =>
    obtain rfl := Option.some.inj hstep
    intro origin t ht
    unfold getPlumTreeInstance
    split_ifs with haddr
    · exact ⟨t, ht, fun _ => id⟩
    · have hne : origin ≠ addr := by
        rintro rfl
        exact haddr (Finmap.lookup_isSome.mp (Option.isSome_of_mem ht))
      exact ⟨t, (Finmap.lookup_insert_of_ne _ hne).trans ht, fun _ => id⟩
  | tree changed e =>
    obtain ⟨old, hold, hmap⟩ := Option.bind_eq_some_iff.mp hstep
    obtain ⟨new, hnew, rfl⟩ := Option.map_eq_some_iff.mp hmap
    intro origin t ht
    by_cases horigin : origin = changed
    · subst horigin
      obtain rfl := Option.some.inj (ht.symm.trans hold)
      exact ⟨new, Finmap.lookup_insert _, fun _ hknows => hknows.step hnew⟩
    · exact ⟨t, (Finmap.lookup_insert_of_ne _ horigin).trans ht, fun _ => id⟩

theorem keepsPeers_of_run {ok : PlumTreeTable → PlumTreeTableEvent → Prop}
    (h : Run (step myAddr) ok p es p') : p.KeepsPeers p' :=
  h.invariant (I := p.KeepsPeers) (.refl p) fun hkept _ hstep => hkept.trans (keepsPeers_step hstep)

/-- A peer that a tree knows is in one of its two sets for good, and never in both. -/
theorem partitioned_keepsPeers (myAddr : String) (es : List PlumTreeTableEvent) :
    Always (step myAddr) Partitioned newPlumTreeMap es ∧
      Throughout (step myAddr) KeepsPeers newPlumTreeMap es :=
  ⟨fun _ _ p _ _ => p.partitioned, fun _ _ _ _ _ _ _ hrun => keepsPeers_of_run hrun⟩

def Noted (myAddr : String) (p : PlumTreeTable) : Prop :=
  ∀ addr ∈ p.added, addr ≠ myAddr → addr ∈ p.neighbors

theorem Noted.step (h : p.Noted myAddr) (hstep : p.step myAddr e = some p') : p'.Noted myAddr := by
  cases e with
  | addPeer addr =>
    obtain rfl := Option.some.inj hstep
    intro other hother hne
    simp only [addPeer]
    rcases List.mem_append.mp hother with hother | hother
    · split_ifs
      · exact h other hother hne
      · exact List.mem_append_left _ (h other hother hne)
    · obtain rfl := List.mem_singleton.mp hother
      rw [if_neg hne.symm]
      exact List.mem_append_right _ hother
  | getPlumTreeInstance addr =>
    obtain rfl := Option.some.inj hstep
    unfold getPlumTreeInstance
    split_ifs
    · exact h
    · exact h
  | tree origin e =>
    obtain ⟨t, _, ht⟩ := Option.bind_eq_some_iff.mp hstep
    obtain ⟨t', _, rfl⟩ := Option.map_eq_some_iff.mp ht
    exact h

theorem noted_of_run (h : AnyRun (step myAddr) newPlumTreeMap es p) : p.Noted myAddr :=
  h.invariant (I := Noted myAddr) (fun _ hmem => absurd hmem List.not_mem_nil)
    fun hp _ hstep => hp.step hstep

theorem joined_step (hnoted : p.Noted myAddr) (h : p.Joined myAddr)
    (hstep : p.step myAddr e = some p') : p'.Joined myAddr ↔ p.InTime myAddr e := by
  cases e with
  | addPeer addr =>
    obtain rfl := Option.some.inj hstep
    constructor
    · intro hnew hne origin t ht
      exact hnew origin t ht addr (List.mem_append_right _ (List.mem_singleton_self _)) hne
    · intro hintime origin t ht other hother hne
      rcases List.mem_append.mp hother with hother | hother
      · exact h origin t ht other hother hne
      · obtain rfl := List.mem_singleton.mp hother
        exact hintime hne origin t ht
  | getPlumTreeInstance addr =>
    obtain rfl := Option.some.inj hstep
    refine iff_of_true ?_ trivial
    unfold getPlumTreeInstance
    split_ifs with haddr
    · exact h
    · intro origin t ht other hother hne
      by_cases horigin : origin = addr
      · subst horigin
        obtain rfl := Option.some.inj ((Finmap.lookup_insert _).symm.trans ht)
        exact .inl (List.mem_toFinset.mpr (hnoted other hother hne))
      · rw [Finmap.lookup_insert_of_ne _ horigin] at ht
        exact h origin t ht other hother hne
  | tree changed e =>
    obtain ⟨old, hold, hmap⟩ := Option.bind_eq_some_iff.mp hstep
    obtain ⟨new, hnew, rfl⟩ := Option.map_eq_some_iff.mp hmap
    refine iff_of_true (fun origin t ht other hother hne => ?_) trivial
    by_cases horigin : origin = changed
    · subst horigin
      obtain rfl := Option.some.inj ((Finmap.lookup_insert _).symm.trans ht)
      exact (h origin old hold other hother hne).step hnew
    · rw [Finmap.lookup_insert_of_ne _ horigin] at ht
      exact h origin t ht other hother hne

/-- The trees have all peers in a run exactly when no address is told too late. -/
theorem joined_iff_inTime (h : AnyRun (step myAddr) newPlumTreeMap es p) :
    Always (step myAddr) (Joined myAddr) newPlumTreeMap es ↔
      Run (step myAddr) (InTime myAddr) newPlumTreeMap es p :=
  always_iff_run h (fun _ _ ht => by simp [newPlumTreeMap] at ht) fun hrun hjoined hstep =>
    joined_step (noted_of_run hrun) hjoined hstep

end PlumTreeTable

namespace RumorNode

open PlumTreeTable

def treeTable (st : RumorNode A S) (added : List String) : PlumTreeTable :=
  ⟨st.trees, st.neighbors, added⟩

variable {A S : Type} {st st' st'' : RumorNode A S} {myAddr : String}

theorem treeTable_addPeer (st : RumorNode A S) (myAddr addr : String) (added : List String) :
    (st.addPeer myAddr addr).treeTable (added ++ [addr]) =
      (st.treeTable added).addPeer myAddr addr := rfl

variable (myAddr) in
/-- What a handler leaves of the trees is what some steps of theirs leave, with no peer added. -/
def StepsTrees (st st' : RumorNode A S) : Prop :=
  ∀ added, ∃ es, Run (PlumTreeTable.step myAddr) (fun _ e => ¬ e.AddsPeer) (st.treeTable added) es
    (st'.treeTable added)

theorem StepsTrees.of_eq (htrees : st'.trees = st.trees)
    (hneighbors : st'.neighbors = st.neighbors) : StepsTrees myAddr st st' := by
  intro added
  rw [treeTable, treeTable, htrees, hneighbors]
  exact ⟨[], .nil⟩

theorem StepsTrees.trans (h : StepsTrees myAddr st st') (h' : StepsTrees myAddr st' st'') :
    StepsTrees myAddr st st'' := by
  intro added
  obtain ⟨es, hes⟩ := h added
  obtain ⟨es', hes'⟩ := h' added
  exact ⟨es ++ es', hes.append hes'⟩

theorem stepsTrees_setTree {addr : String} {t : PlumTree} {e : PlumTreeEvent}
    (h : (st.tree addr).step e = some t) : StepsTrees myAddr st (st.setTree addr t) := by
  intro added
  set p := (st.treeTable added).getPlumTreeInstance addr with hp
  have hget : p.table.lookup addr = some (st.tree addr) ∧
      { p with table := p.table.insert addr t } = (st.setTree addr t).treeTable added := by
    by_cases haddr : addr ∈ (st.treeTable added).table
    · obtain ⟨old, hold⟩ := Option.isSome_iff_exists.mp (Finmap.lookup_isSome.mpr haddr)
      have htree : st.tree addr = old := congrArg (Option.getD · _) hold
      rw [hp, getPlumTreeInstance, if_pos haddr, htree]
      exact ⟨hold, rfl⟩
    · have htree : st.tree addr = .newPlumTree st.neighbors :=
        congrArg (Option.getD · _) (Finmap.lookup_eq_none.mpr haddr)
      rw [hp, getPlumTreeInstance, if_neg haddr, htree]
      refine ⟨Finmap.lookup_insert _, ?_⟩
      rw [Finmap.insert_insert]
      rfl
  refine ⟨[.getPlumTreeInstance addr] ++ [.tree addr e], .snoc (.one id rfl) id ?_⟩
  rw [PlumTreeTable.step, ← hp, hget.1, Option.bind_some, h, Option.map_some, hget.2]

theorem stepsTrees_offer (st : RumorNode A S) (hdr : Header) (r : Rumor (Message A)) :
    StepsTrees myAddr st (st.offer hdr r).1 := by
  obtain ⟨routes, hroutes⟩ := st.setRoute_eq r.origin hdr.relayedBy
  have hoffer := congrArg RumorNode.trees hroutes
  have hneighbors := congrArg RumorNode.neighbors hroutes
  exact .of_eq hoffer hneighbors

theorem stepsTrees_relay (st : RumorNode A S) (source : String) (r : Rumor (Message A)) :
    StepsTrees myAddr st (st.relay source r) :=
  (stepsTrees_setTree (e := .rumor r.msgHash source) rfl).trans (.of_eq rfl rfl)

theorem stepsTrees_broadcast {C : Host A S} {locked locked' : List String} {b : A}
    (h : broadcast C st locked b = some (st', locked')) : StepsTrees myAddr st st' := by
  simp only [broadcast, SafeRumorTable.newRumorsMessage, List.foldl_cons, List.foldl_nil] at h
  obtain ⟨_, _, h⟩ := Option.bind_eq_some_iff.mp h
  obtain ⟨_, h⟩ := Option.ite_none_left_eq_some.mp h
  obtain rfl := (Prod.ext_iff.mp (Option.some.inj h)).1
  set r : Rumor (Message A) := ⟨C.myAddr, (st.rumorTable.list C.myAddr).length + 1, _⟩
  have hown : StepsTrees myAddr st
      ({ st with rumorTable := st.rumorTable.append r rfl }.setTree C.myAddr
        ((st.tree C.myAddr).broadcast r.msgHash C.myAddr)) :=
    (StepsTrees.of_eq rfl rfl).trans
      (stepsTrees_setTree (e := .broadcast r.msgHash C.myAddr) rfl)
  exact hown.trans (.of_eq rfl rfl)

theorem stepsTrees_broadcastAll {C : Host A S} {bs : List A} {locked locked' : List String}
    (h : broadcastAll C bs st locked = some (st', locked')) : StepsTrees myAddr st st' := by
  induction bs generalizing st locked with
  | nil =>
    obtain rfl := (Prod.ext_iff.mp (Option.some.inj h)).1
    exact .of_eq rfl rfl
  | cons b bs ih =>
    obtain ⟨_, hb, hbs⟩ := Option.bind_eq_some_iff.mp h
    exact (stepsTrees_broadcast hb).trans (ih hbs)

theorem stepsTrees_execGraft (C : Host A S) (hdr : Header) (st : RumorNode A S)
    (msgHash : String) : StepsTrees myAddr st (execGraft C hdr st msgHash).1 := by
  have hmoved : StepsTrees myAddr st
      (st.setTree (treeOf msgHash) ((st.tree (treeOf msgHash)).moveToEager hdr.source)) :=
    stepsTrees_setTree (e := .graft hdr.source) rfl
  simp only [execGraft, setTree_core]
  rcases C.graftAnswer st.toGossipState msgHash with _ | _ | ⟨r, rs⟩
  · exact hmoved
  · exact hmoved
  · exact hmoved.trans (.of_eq rfl rfl)

theorem stepsTrees_finish (C : Host A S) (hdr : Header) (l : RumorLoop A S) (ok : Bool) :
    StepsTrees myAddr l.node (l.finish C hdr ok) := by
  unfold RumorLoop.finish
  split_ifs
  · exact .of_eq rfl rfl
  · exact .of_eq rfl rfl

variable {C : Host A S} {hdr : Header}

mutual

/-- A call that comes back steps the trees that it needs, and makes those that it is the first to
need. -/
theorem stepsTrees_processPacket : (m : Message A) → (st : RumorNode A S) →
    (locked : List String) → {st' : RumorNode A S} → {locked' : List String} → {ok : Bool} →
    processPacket C hdr m st locked = some (st', locked', ok) → StepsTrees myAddr st st'
  | .rumors rumors, st, locked, st', locked', ok, h => by
    rw [processPacket] at h
    obtain ⟨⟨l, ok⟩, hloop, heq⟩ := Option.map_eq_some_iff.mp h
    obtain ⟨rfl, _⟩ := Prod.mk.inj heq
    exact (stepsTrees_execRumors rumors _ hloop).trans (stepsTrees_finish C hdr l ok)
  | .privateMessage recipients none, st, locked, st', locked', ok, h => by
    rw [processPacket] at h
    obtain ⟨rfl, _⟩ := Prod.mk.inj (Option.some.inj h)
    exact .of_eq rfl rfl
  | .privateMessage recipients (some m), st, locked, st', locked', ok, h => by
    rw [processPacket] at h
    split_ifs at h
    · exact stepsTrees_processPacket m st locked h
    · obtain ⟨rfl, _⟩ := Prod.mk.inj (Option.some.inj h)
      exact .of_eq rfl rfl
  | .prune msgHash, st, locked, st', locked', ok, h => by
    rw [processPacket] at h
    obtain ⟨_, _, heq⟩ := Option.map_eq_some_iff.mp h
    obtain ⟨rfl, _⟩ := Prod.mk.inj heq
    exact stepsTrees_setTree (e := .prune hdr.source) rfl
  | .iHave msgHash, st, locked, st', locked', ok, h => by
    rw [processPacket] at h
    obtain ⟨_, _, heq⟩ := Option.map_eq_some_iff.mp h
    obtain ⟨rfl, _⟩ := Prod.mk.inj heq
    exact (stepsTrees_setTree (e := .iHave msgHash hdr.source) rfl).trans (.of_eq rfl rfl)
  | .graft msgHash, st, locked, st', locked', ok, h => by
    rw [processPacket] at h
    obtain ⟨_, _, heq⟩ := Option.map_eq_some_iff.mp h
    obtain ⟨rfl, _⟩ := Prod.mk.inj heq
    exact stepsTrees_execGraft C hdr st msgHash
  | .other m, st, locked, st', locked', ok, h => by
    rw [processPacket] at h
    obtain ⟨_, h⟩ := Option.ite_none_left_eq_some.mp h
    obtain ⟨_, hall, heq⟩ := Option.map_eq_some_iff.mp h
    obtain ⟨rfl, _⟩ := Prod.mk.inj heq
    have happ : StepsTrees myAddr st { st with app := (C.exec hdr.source st.app m).app } :=
      .of_eq rfl rfl
    exact happ.trans (stepsTrees_broadcastAll hall)

theorem stepsTrees_execRumors : (rs : List (Rumor (Message A))) → (l : RumorLoop A S) →
    {l' : RumorLoop A S} → {ok : Bool} → execRumors C hdr rs l = some (l', ok) →
    StepsTrees myAddr l.node l'.node
  | [], l, l', ok, h => by
    rw [execRumors] at h
    obtain ⟨rfl, rfl⟩ := Prod.mk.inj (Option.some.inj h)
    exact .of_eq rfl rfl
  | ⟨origin, sequence, msg⟩ :: rs, l, l', ok, h => by
    rw [execRumors_cons] at h
    obtain ⟨⟨l₁, on⟩, hturn, hrest⟩ := Option.bind_eq_some_iff.mp h
    have hoffer : StepsTrees myAddr l.node (l.node.offer hdr ⟨origin, sequence, msg⟩).1 :=
      stepsTrees_offer _ _ _
    have hembedded : ∀ {node ok}, handled C hdr ⟨origin, sequence, msg⟩
        (l.node.offer hdr ⟨origin, sequence, msg⟩).1 l.locked = some (node, ok) →
        StepsTrees myAddr (l.node.offer hdr ⟨origin, sequence, msg⟩).1 node := by
      intro node ok hcall
      cases msg with
      | none =>
        obtain ⟨rfl, _⟩ := Prod.mk.inj (Option.some.inj hcall)
        exact .of_eq rfl rfl
      | some m => exact stepsTrees_processPacket m _ _ (call_of_handled hcall rfl)
    have hnext : StepsTrees myAddr l.node l₁.node := by
      cases turn_cases C hdr hturn with
      | future => exact hoffer
      | prune => exact hoffer.trans (stepsTrees_relay _ _ _)
      | fails _ call => exact hoffer.trans (hembedded call)
      | passes _ call => exact (hoffer.trans (hembedded call)).trans (stepsTrees_relay _ _ _)
    cases on with
    | false =>
      obtain ⟨rfl, rfl⟩ := Prod.mk.inj (Option.some.inj hrest)
      exact hnext
    | true => exact hnext.trans (stepsTrees_execRumors rs l₁ hrest)

end

theorem keepsPeers_processPacket {m : Message A} {locked locked' : List String} {ok : Bool}
    (added : List String) (h : processPacket C hdr m st locked = some (st', locked', ok)) :
    (st.treeTable added).KeepsPeers (st'.treeTable added) := by
  have hsteps : StepsTrees hdr.source st st' := stepsTrees_processPacket m st locked h
  obtain ⟨es, hes⟩ := hsteps added
  exact keepsPeers_of_run hes

theorem joined_processPacket {m : Message A} {locked locked' : List String} {ok : Bool}
    {added : List String} (h : processPacket C hdr m st locked = some (st', locked', ok))
    (hnoted : (st.treeTable added).Noted myAddr) (hjoined : (st.treeTable added).Joined myAddr) :
    (st'.treeTable added).Joined myAddr := by
  have hsteps : StepsTrees myAddr st st' := stepsTrees_processPacket m st locked h
  obtain ⟨es, hes⟩ := hsteps added
  have hkept : (st'.treeTable added).Noted myAddr ∧ (st'.treeTable added).Joined myAddr := by
    refine hes.invariant (I := fun p => p.Noted myAddr ∧ p.Joined myAddr) ⟨hnoted, hjoined⟩ ?_
    rintro p p' e ⟨hp, hj⟩ hadds hstep
    refine ⟨hp.step hstep, (joined_step hp hj hstep).mpr ?_⟩
    cases e with
    | addPeer addr => exact absurd trivial hadds
    | getPlumTreeInstance | tree => trivial
  exact hkept.2

end RumorNode

namespace Sample

open PlumTreeTable

def toldLate : List PlumTreeTableEvent :=
  [.addPeer "B", .getPlumTreeInstance "A", .tree "A" (.broadcast "A;1" "A"), .addPeer "D"]

def toldInTime : List PlumTreeTableEvent :=
  [.addPeer "B", .addPeer "D", .getPlumTreeInstance "A", .tree "A" (.broadcast "A;1" "A")]

theorem toldLate_isSome : (exec (step "A") newPlumTreeMap toldLate).isSome := by decide

theorem toldInTime_isSome : (exec (step "A") newPlumTreeMap toldInTime).isSome := by decide

/-- Nothing that A broadcasts is ever pushed or announced to D. -/
theorem joined_counterexample :
    ¬ Always (step "A") (Joined "A") newPlumTreeMap toldLate := by
  intro hall
  have hjoined := hall toldLate [] _ (List.append_nil _).symm (run_exec_get toldLate_isSome)
  have hlacks : ∃ t, ((exec (step "A") newPlumTreeMap toldLate).get toldLate_isSome).table.lookup
      "A" = some t ∧ "D" ∉ t.peers.eagers ∧ "D" ∉ t.peers.lazys :=
    ⟨_, rfl, by decide, by decide⟩
  obtain ⟨t, ht, heager, hlazy⟩ := hlacks
  exact (hjoined "A" t ht "D" (by decide) (by decide)).elim heager hlazy

theorem joined_iff_inTime_toldInTime :
    Always (step "A") (Joined "A") newPlumTreeMap toldInTime ↔
      Run (step "A") (InTime "A") newPlumTreeMap toldInTime
        ((exec (step "A") newPlumTreeMap toldInTime).get toldInTime_isSome) :=
  joined_iff_inTime (run_exec_get toldInTime_isSome)

end Sample

end JobPortal.Gossip
