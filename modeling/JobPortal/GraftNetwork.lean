import JobPortal.GossipNetwork
import JobPortal.Grafts
import JobPortal.RumorCalls

/-! The nodes of a network that announce their rumors and graft what they miss. None of them
restarts, and none broadcasts a message of the trees. What was sent can arrive any number of times,
in any order, or never. -/
namespace JobPortal.Gossip

open NumberedLogs Runs

variable {A S : Type}

structure Packet (A : Type) where
  source : String
  dests : Finset String
  msg : Message A

/-- What is sent for an act. Acknowledgements are left out, since they only stop a node from sending
its rumors again. -/
def Act.packets (source : String) : Act (Message A) → List (Packet A)
  | .push r peers | .broadcast r peers => [⟨source, peers, .rumors [r]⟩]
  | .answer dest _ rumors => [⟨source, {dest}, .rumors rumors⟩]
  | .prune dest msgHash => [⟨source, {dest}, .prune msgHash⟩]
  | .offer .. | .ackIHave .. | .ack .. => []

/-- A node between the sections of its handlers. It has entered the rumors that are `starting` into
its table, and is to push them. Of the packet in hand, the rumors that are left, and the one that
was accepted and comes to its tree next. -/
structure GraftNode (A S : Type) where
  node : RumorNode A S
  starting : List (Rumor (Message A)) := []
  header : Header := ⟨"", "", ""⟩
  handling : List (Rumor (Message A)) := []
  accepted : Option (Rumor (Message A)) := none

structure GraftNetwork (A S : Type) where
  nodes : String → GraftNode A S
  sent : List (Packet A)

inductive GraftEvent (A : Type)
  | addPeer (addr : String)
  /-- `Broadcast` enters a rumor into the table. -/
  | broadcast (b : A)
  /-- `Broadcast` pushes it. -/
  | push (i : ℕ)
  /-- A packet arrives, named by its place among those sent. -/
  | receive (i : ℕ) (packetID relayedBy : String)
  /-- The handler looks at the next rumor of its packet. -/
  | accept
  /-- The handler comes to the tree of the rumor it has accepted. -/
  | relay
  /-- The handler returns with an error. -/
  | abort
  /-- An announcement is put into the queue, with the peers that are lazy now. -/
  | sendIHave (origin : String) (i : ℕ)
  /-- The queue is emptied by one announcement. -/
  | announce (origin : String) (i : ℕ)
  | graftRetry (msgHash : String)
  | graftStop (msgHash : String)
  /-- A status is answered. -/
  | status (source : String) (remoteStatus : StatusMessage) (order : List String) (mongers : Bool)

def PlumTree.graftPeer (t : PlumTree) (msgHash : String) : Option String :=
  let status := t.computeIfAbsent msgHash
  status.graftLoop.bind fun index => status.lazyPeers[index % status.lazyPeers.length]?

namespace GraftNetwork

def start (app : String → S) : GraftNetwork A S := ⟨fun n => { node := .newNode n (app n) }, []⟩

def put (g : GraftNetwork A S) (n : String) (s : GraftNode A S) (more : List (Packet A)) :
    GraftNetwork A S where
  nodes := Function.update g.nodes n s
  sent := g.sent ++ ((g.nodes n).node.since s.node).flatMap (Act.packets n) ++ more

variable (C : String → Host A S)

/-- A step of one node. A handler runs while no other one does, and everything else may come in
between its sections. The length of a slice is an `int`. -/
def step (g : GraftNetwork A S) : String × GraftEvent A → Option (GraftNetwork A S)
  | (n, .addPeer addr) =>
    let s := g.nodes n
    some (g.put n { s with node := s.node.addPeer n addr } [])
  | (n, .broadcast b) =>
    let s := g.nodes n
    if (s.node.rumorTable.list n).length + 1 < 2 ^ 63 then
      let (t, new) := s.node.rumorTable.newRumorsMessage n (.other b)
      some (g.put n
        { s with node := { s.node with rumorTable := t }, starting := s.starting ++ new } [])
    else none
  | (n, .push i) =>
    let s := g.nodes n
    s.starting[i]?.map fun r =>
      g.put n { s with node := s.node.relayOwn n r, starting := s.starting.eraseIdx i } []
  | (n, .receive i packetID relayedBy) =>
    let s := g.nodes n
    if s.handling = [] ∧ s.accepted = none then
      g.sent[i]?.bind fun pkt =>
        if n ∈ pkt.dests then
          let hdr : Header := ⟨packetID, pkt.source, relayedBy⟩
          match pkt.msg with
          | .rumors rumors => some (g.put n { s with header := hdr, handling := rumors } [])
          | .prune msgHash => some (g.put n { s with node := s.node.execPrune hdr msgHash } [])
          | .iHave msgHash => some (g.put n { s with node := s.node.execIHave hdr msgHash } [])
          | .graft msgHash =>
            some (g.put n { s with node := (RumorNode.execGraft (C n) hdr s.node msgHash).1 } [])
          | .privateMessage .. | .other _ => none
        else none
    else none
  | (n, .accept) =>
    let s := g.nodes n
    match s.accepted, s.handling with
    | none, r :: rest =>
      let (node, v) := s.node.offer s.header r
      match v with
      | .future => some (g.put n { s with node := node, handling := rest } [])
      | .prune => some (g.put n { s with node := node, handling := rest, accepted := some r } [])
      | .process =>
        if (s.node.rumorTable.list r.origin).length + 1 < 2 ^ 63 then
          some (g.put n { s with node := node, handling := rest, accepted := some r } [])
        else none
    | _, _ => none
  | (n, .relay) =>
    let s := g.nodes n
    s.accepted.map fun r =>
      g.put n { s with node := s.node.relay s.header.source r, accepted := none } []
  | (n, .abort) => some (g.put n { g.nodes n with handling := [], accepted := none } [])
  | (n, .sendIHave origin i) =>
    let s := g.nodes n
    ((s.node.tree origin).sendIHaveMsg i).map fun t =>
      g.put n { s with node := s.node.setTree origin t } []
  | (n, .announce origin i) =>
    let s := g.nodes n
    (s.node.tree origin).queued[i]?.map fun q =>
      g.put n s [⟨n, q.list, .iHave q.task.msgHash⟩]
  | (n, .graftRetry msgHash) =>
    let s := g.nodes n
    let t := s.node.tree (treeOf msgHash)
    (t.graftPeer msgHash).bind fun peer => (t.graftRetry msgHash).map fun t =>
      g.put n { s with node := s.node.setTree (treeOf msgHash) t } [⟨n, {peer}, .graft msgHash⟩]
  | (n, .graftStop msgHash) =>
    let s := g.nodes n
    ((s.node.tree (treeOf msgHash)).graftStop msgHash).map fun t =>
      g.put n { s with node := s.node.setTree (treeOf msgHash) t } []
  | (n, .status source remoteStatus order mongers) =>
    let s := g.nodes n
    (execStatusMessage s.node.rumorTable ((C n).spare s.node.rumorTable) remoteStatus order
      mongers).map fun replies => g.put n s <|
        (replies.flatMap StatusReply.packets).map fun rumors => ⟨n, {source}, .rumors rumors⟩

/-- The origins of rumors are without the separator. -/
def PlainOrigin (_ : GraftNetwork A S) : String × GraftEvent A → Prop
  | (n, .broadcast _) => ';' ∉ n.toList
  | _ => True

end GraftNetwork

def SafeRumorTable.Has (t : SafeRumorTable (Message A)) (msgHash : String) : Prop :=
  ∃ o s, msgHash = o ++ ";" ++ toString s ∧ ';' ∉ o.toList ∧ 1 ≤ s ∧ s ≤ (t.list o).length

/-- The tasks of a tree are about rumors of the node itself, and its lazy peers for a rumor have
it. -/
structure PlumTree.Backed (has : String → String → Prop) (n : String) (t : PlumTree) : Prop where
  pending : ∀ task ∈ t.pending, has n task.msgHash
  queued : ∀ q ∈ t.queued, has n q.task.msgHash
  lazyPeers : ∀ msgHash, ∀ p ∈ (t.computeIfAbsent msgHash).lazyPeers, has p msgHash

namespace PlumTree

variable {has has' : String → String → Prop} {n : String} {t t' : PlumTree} {msgHash : String}

theorem Backed.mono (h : t.Backed has n) (hmono : ∀ p msgHash, has p msgHash → has' p msgHash) :
    t.Backed has' n where
  pending task htask := hmono _ _ (h.pending task htask)
  queued q hq := hmono _ _ (h.queued q hq)
  lazyPeers msgHash p hp := hmono _ _ (h.lazyPeers msgHash p hp)

theorem backed_newPlumTree (neighbors : List String) :
    (newPlumTree neighbors).Backed has n where
  pending _ h := absurd h List.not_mem_nil
  queued _ h := absurd h List.not_mem_nil
  lazyPeers _ _ h := absurd h List.not_mem_nil

theorem Backed.setStatus (h : t.Backed has n) (status : MsgStatus)
    (hstatus : ∀ p ∈ status.lazyPeers, has p msgHash) :
    (t.setStatus msgHash status).Backed has n where
  pending := h.pending
  queued := h.queued
  lazyPeers other p hp := by
    rw [computeIfAbsent_setStatus] at hp
    split_ifs at hp with hother
    · exact hother ▸ hstatus p hp
    · exact h.lazyPeers other p hp

theorem Backed.setPeers (h : t.Backed has n) (peers : PeerList) :
    Backed has n { t with peers := peers } := ⟨h.pending, h.queued, h.lazyPeers⟩

theorem Backed.disseminate (h : t.Backed has n) (hown : has n msgHash) (source : String)
    (peers : PeerList) : (t.disseminate msgHash source peers).Backed has n where
  pending task htask := by
    rcases List.mem_append.mp htask with htask | htask
    · exact h.pending task htask
    · rw [List.mem_singleton.mp htask]
      exact hown
  queued := h.queued
  lazyPeers := h.lazyPeers

theorem Backed.regraft (h : t.Backed has n) (f : IHaveTask → IHaveTask)
    (hf : ∀ task, (f task).msgHash = task.msgHash) (peers : PeerList) :
    Backed has n { t with peers := peers, pending := t.pending.map f } where
  pending task htask := by
    obtain ⟨old, hold, rfl⟩ := List.mem_map.mp htask
    rw [hf]
    exact h.pending old hold
  queued := h.queued
  lazyPeers := h.lazyPeers

theorem Backed.moveToLazy (h : t.Backed has n) (peer : String) :
    (t.moveToLazy peer).Backed has n :=
  h.regraft (fun task => { task with grafted := task.grafted.erase peer }) (fun _ => rfl) _

theorem Backed.moveToEager (h : t.Backed has n) (peer : String) :
    (t.moveToEager peer).Backed has n :=
  h.regraft (fun task => { task with grafted := insert peer task.grafted }) (fun _ => rfl) _

theorem Backed.execRumor (h : t.Backed has n) (hown : has n msgHash) (source : String) :
    (t.execRumor msgHash source).Backed has n := by
  rw [PlumTree.execRumor]
  dsimp only
  split_ifs
  · exact (h.setStatus _ (h.lazyPeers msgHash)).setPeers _
  · refine Backed.disseminate ?_ hown source _
    exact h.setStatus _ (h.lazyPeers msgHash)

theorem Backed.broadcast (h : t.Backed has n) (hown : has n msgHash) (myAddr : String) :
    (t.broadcast msgHash myAddr).Backed has n := by
  refine Backed.disseminate ?_ hown myAddr _
  exact h.setStatus _ (h.lazyPeers msgHash)

theorem Backed.execIHave (h : t.Backed has n) {source : String} (hsource : has source msgHash) :
    (t.execIHave msgHash source).Backed has n := by
  by_cases hreceived : (t.computeIfAbsent msgHash).receivedMsg = true
  · rw [PlumTree.execIHave, if_pos hreceived]
    exact h.setStatus _ (h.lazyPeers msgHash)
  · rw [PlumTree.execIHave, if_neg hreceived]
    refine h.setStatus _ fun p hp => ?_
    rcases List.mem_append.mp hp with hp | hp
    · exact h.lazyPeers msgHash p hp
    · rw [List.mem_singleton.mp hp]
      exact hsource

theorem Backed.graftRetry (h : t.Backed has n) (hstep : t.graftRetry msgHash = some t') :
    t'.Backed has n := by
  obtain ⟨index, _, hindex⟩ := Option.bind_eq_some_iff.mp hstep
  obtain ⟨peer, _, rfl⟩ := Option.map_eq_some_iff.mp hindex
  exact (h.moveToEager peer).setStatus _ (h.lazyPeers msgHash)

theorem Backed.graftStop (h : t.Backed has n) (hstep : t.graftStop msgHash = some t') :
    t'.Backed has n := by
  rw [PlumTree.graftStop] at hstep
  split_ifs at hstep
  obtain rfl := Option.some.inj hstep
  exact h.setStatus _ (h.lazyPeers msgHash)

theorem Backed.sendIHaveMsg (h : t.Backed has n) {i : ℕ} (hstep : t.sendIHaveMsg i = some t') :
    t'.Backed has n := by
  obtain ⟨task, htask, rfl⟩ := Option.map_eq_some_iff.mp hstep
  refine ⟨fun other hother => h.pending other (List.mem_of_mem_eraseIdx hother), ?_, h.lazyPeers⟩
  intro q hq
  rcases List.mem_append.mp hq with hq | hq
  · exact h.queued q hq
  · rw [List.mem_singleton.mp hq]
    exact h.pending task (List.mem_of_getElem? htask)

/-- The peer that is asked for a rumor has announced it. -/
theorem Backed.graftPeer (h : t.Backed has n) {peer : String}
    (hpeer : t.graftPeer msgHash = some peer) : has peer msgHash := by
  obtain ⟨index, _, hat⟩ := Option.bind_eq_some_iff.mp hpeer
  exact h.lazyPeers msgHash peer (List.mem_of_getElem? hat)

end PlumTree

def Rumor.Plain {M : Type} (r : Rumor M) : Prop := ';' ∉ r.origin.toList ∧ 1 ≤ r.sequence

/-- The rumors under way are plain, whoever announces a rumor has it, and so has whoever is asked
for one. -/
def Packet.Backed (has : String → String → Prop) (pkt : Packet A) : Prop :=
  match pkt.msg with
  | .rumors rs => ∀ r ∈ rs, r.Plain
  | .iHave msgHash => has pkt.source msgHash
  | .graft msgHash => ∀ n ∈ pkt.dests, has n msgHash
  | .prune _ | .privateMessage .. | .other _ => True

structure GraftNode.Backed (has : String → String → Prop) (n : String) (s : GraftNode A S) :
    Prop where
  trees : ∀ o, (s.node.tree o).Backed has n
  origins : ∀ o, s.node.rumorTable.list o ≠ [] → ';' ∉ o.toList
  lengths : ∀ o, (s.node.rumorTable.list o).length < 2 ^ 63
  starting : ∀ r ∈ s.starting, r.Plain ∧ has n r.msgHash
  handling : ∀ r ∈ s.handling, r.Plain
  accepted : ∀ r ∈ s.accepted, r.Plain ∧ has n r.msgHash

namespace GraftNetwork

def Has (g : GraftNetwork A S) (n msgHash : String) : Prop :=
  (g.nodes n).node.rumorTable.Has msgHash

structure Backed (g : GraftNetwork A S) : Prop where
  nodes : ∀ n, (g.nodes n).Backed g.Has n
  sent : ∀ pkt ∈ g.sent, pkt.Backed g.Has

end GraftNetwork

section Backed

variable {has has' : String → String → Prop} {n : String}

theorem Packet.Backed.mono {pkt : Packet A} (h : pkt.Backed has)
    (hmono : ∀ p msgHash, has p msgHash → has' p msgHash) : pkt.Backed has' := by
  unfold Packet.Backed at h ⊢
  cases hmsg : pkt.msg with
  | rumors rs =>
    rw [hmsg] at h
    exact h
  | iHave msgHash =>
    rw [hmsg] at h
    exact hmono _ _ h
  | graft msgHash =>
    rw [hmsg] at h
    exact fun p hp => hmono _ _ (h p hp)
  | prune | privateMessage | other => trivial

theorem Packet.backed_rumors {source : String} {dests : Finset String} {r : Rumor (Message A)}
    (hr : r.Plain) : Packet.Backed has ⟨source, dests, .rumors [r]⟩ := by
  intro q hq
  rwa [List.mem_singleton.mp hq]

theorem GraftNode.Backed.mono {s : GraftNode A S} (h : s.Backed has n)
    (hmono : ∀ p msgHash, has p msgHash → has' p msgHash) : s.Backed has' n where
  trees o := (h.trees o).mono hmono
  origins := h.origins
  lengths := h.lengths
  starting r hr := (h.starting r hr).imp_right (hmono _ _)
  handling := h.handling
  accepted r hr := (h.accepted r hr).imp_right (hmono _ _)

theorem SafeRumorTable.Has.mono {t t' : SafeRumorTable (Message A)} {msgHash : String}
    (h : t.Has msgHash) (hgrows : ∀ o, t.list o <+: t'.list o) : t'.Has msgHash := by
  obtain ⟨o, s, heq, ho, hlo, hhi⟩ := h
  exact ⟨o, s, heq, ho, hlo, hhi.trans (hgrows o).length_le⟩

/-- A table has its rumors. -/
theorem SafeRumorTable.has_of_le {t : SafeRumorTable (Message A)} {r : Rumor (Message A)}
    (hr : r.Plain) (hle : r.sequence ≤ (t.list r.origin).length) : t.Has r.msgHash :=
  ⟨r.origin, r.sequence, rfl, hr.1, hr.2, hle⟩

theorem SafeRumorTable.plain_of_mem {t : SafeRumorTable (Message A)}
    (horigins : ∀ o, t.list o ≠ [] → ';' ∉ o.toList) {o : String} {r : Rumor (Message A)}
    (hr : r ∈ t.list o) : r.Plain := by
  obtain ⟨i, hi, _⟩ := (t.numbered o).eq_of_mem hr
  refine ⟨t.origins o r hr ▸ horigins o (List.ne_nil_of_mem hr), ?_⟩
  omega

end Backed

namespace GraftNetwork

variable {g g' : GraftNetwork A S} {n : String} {s : GraftNode A S} {more : List (Packet A)}

theorem nodes_put (g : GraftNetwork A S) (n : String) (s : GraftNode A S)
    (more : List (Packet A)) (p : String) :
    (g.put n s more).nodes p = if p = n then s else g.nodes p :=
  Function.update_apply ..

theorem has_put_self (g : GraftNetwork A S) (n : String) (s : GraftNode A S)
    (more : List (Packet A)) (msgHash : String) :
    (g.put n s more).Has n msgHash ↔ s.node.rumorTable.Has msgHash := by
  rw [Has, nodes_put, if_pos rfl]

theorem Has.put {p msgHash : String} (h : g.Has p msgHash)
    (hgrows : ∀ o, (g.nodes n).node.rumorTable.list o <+: s.node.rumorTable.list o)
    (more : List (Packet A)) : (g.put n s more).Has p msgHash := by
  by_cases hp : p = n
  · subst hp
    exact (has_put_self g p s more msgHash).mpr (SafeRumorTable.Has.mono h hgrows)
  · rw [Has, nodes_put, if_neg hp]
    exact h

/-- A node moves on, and what it has and sends is backed by then. -/
theorem Backed.put (h : g.Backed)
    (hgrows : ∀ o, (g.nodes n).node.rumorTable.list o <+: s.node.rumorTable.list o)
    (hnode : (g.nodes n).Backed (g.put n s more).Has n → s.Backed (g.put n s more).Has n)
    (hacts : ∀ a ∈ (g.nodes n).node.since s.node, ∀ pkt ∈ a.packets n,
      pkt.Backed (g.put n s more).Has)
    (hmore : ∀ pkt ∈ more, pkt.Backed (g.put n s more).Has) : (g.put n s more).Backed := by
  have hmono : ∀ p msgHash, g.Has p msgHash → (g.put n s more).Has p msgHash :=
    fun p msgHash hp => hp.put hgrows more
  refine ⟨fun p => ?_, fun pkt hpkt => ?_⟩
  · have hold := (h.nodes p).mono hmono
    rw [nodes_put]
    split_ifs with hp
    · subst hp
      exact hnode hold
    · exact hold
  · rcases List.mem_append.mp hpkt with hpkt | hpkt
    · rcases List.mem_append.mp hpkt with hpkt | hpkt
      · exact (h.sent pkt hpkt).mono hmono
      · obtain ⟨a, ha, hpkt⟩ := List.mem_flatMap.mp hpkt
        exact hacts a ha pkt hpkt
    · exact hmore pkt hpkt

theorem Backed.put_self (h : g.Backed)
    (htable : s.node.rumorTable = (g.nodes n).node.rumorTable)
    (hnode : (g.nodes n).Backed g.Has n → s.Backed g.Has n)
    (hacts : ∀ a ∈ (g.nodes n).node.since s.node, ∀ pkt ∈ a.packets n, pkt.Backed g.Has)
    (hmore : ∀ pkt ∈ more, pkt.Backed g.Has) : (g.put n s more).Backed := by
  have hsame : (g.put n s more).Has = g.Has := by
    funext p msgHash
    by_cases hp : p = n
    · subst hp
      exact propext ((has_put_self g p s more msgHash).trans (by rw [htable]; rfl))
    · rw [Has, nodes_put, if_neg hp]
      rfl
  apply h.put
  · intro o
    rw [htable]
  · rw [hsame]
    exact hnode
  · rw [hsame]
    exact hacts
  · rw [hsame]
    exact hmore

theorem Backed.put_silent (h : g.Backed)
    (htable : s.node.rumorTable = (g.nodes n).node.rumorTable)
    (hlog : s.node.log = (g.nodes n).node.log)
    (hnode : (g.nodes n).Backed g.Has n → s.Backed g.Has n)
    (hmore : ∀ pkt ∈ more, pkt.Backed g.Has) : (g.put n s more).Backed := by
  refine h.put_self htable hnode (fun a ha => ?_) hmore
  rw [RumorNode.since_of_log hlog] at ha
  cases ha

/-- A node changes one of its trees, and does one thing that is seen from the outside. -/
theorem Backed.put_noted (h : g.Backed) {o : String} {t : PlumTree} {a : Act (Message A)}
    (hnoted : s.node = ((g.nodes n).node.setTree o t).note a)
    (hnode : (g.nodes n).Backed g.Has n → s.Backed g.Has n)
    (hact : ∀ pkt ∈ a.packets n, pkt.Backed g.Has) : (g.put n s []).Backed := by
  have htable : s.node.rumorTable = (g.nodes n).node.rumorTable := by
    rw [hnoted]
    rfl
  have hsince : (g.nodes n).node.since s.node = [a] := by
    rw [hnoted]
    exact RumorNode.since_note ((g.nodes n).node.setTree o t) a
  refine h.put_self htable hnode (fun b hb => ?_) (List.forall_mem_nil _)
  rw [hsince, List.mem_singleton] at hb
  exact hb ▸ hact

end GraftNetwork

section Backed

variable {has : String → String → Prop} {n : String} {s : GraftNode A S} {r : Rumor (Message A)}

theorem GraftNode.Backed.setTree (h : s.Backed has n) {o : String} {t : PlumTree}
    (ht : t.Backed has n) : GraftNode.Backed has n { s with node := s.node.setTree o t } where
  trees o' := by
    rw [RumorNode.tree_setTree]
    split_ifs
    · exact ht
    · exact h.trees o'
  origins := h.origins
  lengths := h.lengths
  starting := h.starting
  handling := h.handling
  accepted := h.accepted

theorem GraftNode.Backed.note (h : s.Backed has n) (a : Act (Message A)) :
    GraftNode.Backed has n { s with node := s.node.note a } :=
  ⟨h.trees, h.origins, h.lengths, h.starting, h.handling, h.accepted⟩

theorem GraftNode.Backed.relay (h : s.Backed has n) (source : String) (hr : has n r.msgHash) :
    GraftNode.Backed has n { s with node := s.node.relay source r } := by
  have htree := h.setTree (o := r.origin) ((h.trees r.origin).execRumor hr source)
  exact htree.note _

theorem GraftNode.Backed.relayOwn (h : s.Backed has n) (hr : has n r.msgHash) :
    GraftNode.Backed has n { s with node := s.node.relayOwn n r } := by
  have htree := h.setTree (o := n) ((h.trees n).broadcast hr n)
  exact htree.note _

theorem GraftNode.Backed.addPeer (h : s.Backed has n) (addr : String) :
    GraftNode.Backed has n { s with node := s.node.addPeer n addr } where
  trees o := by
    rw [RumorNode.tree, RumorNode.addPeer, GoMap.at]
    cases htree : s.node.trees.lookup o with
    | none => exact PlumTree.backed_newPlumTree _
    | some t =>
      have hold := h.trees o
      rw [RumorNode.tree, GoMap.at, htree] at hold
      exact hold
  origins := h.origins
  lengths := h.lengths
  starting := h.starting
  handling := h.handling
  accepted := h.accepted

theorem GraftNode.Backed.offer (h : s.Backed has n) (hdr : Header) (hr : r.Plain)
    (hlength : (s.node.offer hdr r).2 = .process →
      (s.node.rumorTable.list r.origin).length + 1 < 2 ^ 63) :
    GraftNode.Backed has n { s with node := (s.node.offer hdr r).1 } := by
  have hlist : ∀ o, (s.node.offer hdr r).1.rumorTable.list o =
      if o = r.origin then NumberedLogs.offer Rumor.sequence (s.node.rumorTable.list r.origin) r
      else s.node.rumorTable.list o := fun o => by
    rw [RumorNode.offer_core, SafeRumorTable.list_tryToAcceptOrigin]
  refine ⟨fun o => ?_, fun o ho => ?_, fun o => ?_, h.starting, h.handling, h.accepted⟩
  · rw [RumorNode.tree_offer]
    exact h.trees o
  · rw [hlist] at ho
    split_ifs at ho with horigin
    · exact horigin ▸ hr.1
    · exact h.origins o ho
  · rw [hlist]
    split_ifs
    · rw [NumberedLogs.offer]
      split_ifs with hnext
      · rw [List.length_append, List.length_singleton]
        exact hlength ((SafeRumorTable.tryToAcceptOrigin_process _ r).mpr hnext)
      · exact h.lengths r.origin
    · exact h.lengths o

end Backed

/-- A text of decimals has no separator in it. -/
theorem notMem_toString (n : ℕ) : ';' ∉ (toString n).toList := by
  intro hmem
  rw [show (toString n).toList = Nat.toDigits 10 n by simp] at hmem
  exact absurd (Nat.isDigit_of_mem_toDigits (by omega) (by omega) hmem) (by decide)

theorem Host.graftAnswer_of_has (C : Host A S) {st : GossipState A S} {msgHash : String}
    (hlengths : ∀ o, (st.rumorTable.list o).length < 2 ^ 63) (h : st.rumorTable.Has msgHash) :
    ∃ r, C.graftAnswer st msgHash = some [r] ∧ r ∈ st.rumorTable.list r.origin ∧
      msgHash = r.msgHash ∧ ';' ∉ r.origin.toList := by
  obtain ⟨o, s, rfl, ho, hlo, hhi⟩ := h
  have hsplit : (o ++ ";" ++ toString s).splitOn ";" = [o, toString s] :=
    Texts.splitOn_append_append ho (notMem_toString s)
  have hatoi : atoi (toString s) = s := atoi_toString (hhi.trans_lt (hlengths o))
  have hlt : s - 1 < (st.rumorTable.list o).length := by omega
  have hat := List.getElem?_eq_getElem hlt
  have hmem := List.mem_of_getElem? hat
  have horigin := st.rumorTable.origins o _ hmem
  have hnumber := st.rumorTable.numbered o _ _ hat
  have hsequence : (st.rumorTable.list o)[s - 1].sequence = s := by omega
  have huint : uint (atoi (toString s)) - 1 = s - 1 := by
    have hbound := hhi.trans_lt (hlengths o)
    rw [hatoi, uint]
    omega
  refine ⟨(st.rumorTable.list o)[s - 1], ?_, ?_, ?_, ?_⟩
  · refine Host.graftAnswer_eq_some.mpr ⟨o, toString s, [], hsplit, by omega, _, rfl, ?_⟩
    rw [huint, List.getElem?_append_left hlt, hat]
  · rw [horigin]
    exact hmem
  · rw [Rumor.msgHash, horigin, hsequence]
  · rw [horigin]
    exact ho

namespace GraftNetwork

variable {C : String → Host A S} {g g' : GraftNetwork A S} {n : String} {e : GraftEvent A}
  {es : List (String × GraftEvent A)}

theorem backed_start (app : String → S) : (start app : GraftNetwork A S).Backed where
  nodes n := by
    refine ⟨fun o => PlumTree.backed_newPlumTree _, fun o ho => absurd rfl ho, fun o => ?_, ?_, ?_,
      ?_⟩
    · exact Nat.two_pow_pos 63
    · exact fun r hr => absurd hr List.not_mem_nil
    · exact fun r hr => absurd hr List.not_mem_nil
    · exact fun r hr => nomatch hr
  sent pkt hpkt := absurd hpkt List.not_mem_nil

theorem Backed.broadcast (h : g.Backed) (hplain : ';' ∉ n.toList) {b : A}
    (hlength : ((g.nodes n).node.rumorTable.list n).length + 1 < 2 ^ 63) :
    (g.put n { g.nodes n with
      node := { (g.nodes n).node with
        rumorTable := ((g.nodes n).node.rumorTable.newRumorsMessage n (.other b)).1 }
      starting := (g.nodes n).starting ++
        ((g.nodes n).node.rumorTable.newRumorsMessage n (.other b)).2 } []).Backed := by
  have hlist := (g.nodes n).node.rumorTable.list_newRumorsMessage n (Message.other b)
  have hnew : ((g.nodes n).node.rumorTable.newRumorsMessage n (Message.other b)).2 =
      [⟨n, ((g.nodes n).node.rumorTable.list n).length + 1, some (.other b)⟩] := rfl
  refine h.put (fun o => ?_) (fun hold => ?_) (fun a ha => ?_) fun pkt hpkt => ?_
  · rw [hlist]
    split_ifs with ho
    · rw [ho]
      exact List.prefix_append _ _
    · exact List.prefix_rfl
  · refine ⟨hold.trees, fun o ho => ?_, fun o => ?_, fun r hr => ?_, hold.handling, hold.accepted⟩
    · simp only [hlist] at ho
      split_ifs at ho with hself
      · exact hself ▸ hplain
      · exact hold.origins o ho
    · simp only [hlist]
      split_ifs
      · rw [hnew, List.length_append, List.length_singleton]
        exact hlength
      · exact hold.lengths o
    · rcases List.mem_append.mp hr with hr | hr
      · exact hold.starting r hr
      · rw [hnew, List.mem_singleton] at hr
        subst hr
        refine ⟨⟨hplain, Nat.le_add_left 1 _⟩, (has_put_self _ _ _ _ _).mpr ?_⟩
        refine SafeRumorTable.has_of_le ⟨hplain, Nat.le_add_left 1 _⟩ ?_
        simp only [hlist, if_true, hnew, List.length_append, List.length_singleton]
        exact Nat.le_refl _
  · rw [RumorNode.since, List.drop_length] at ha
    cases ha
  · cases hpkt

/-- The handler looks at a rumor, and goes on to its tree unless it is answered "future". -/
theorem Backed.accept (h : g.Backed) {r : Rumor (Message A)} {rest : List (Rumor (Message A))}
    (hhandling : (g.nodes n).handling = r :: rest)
    (hlength : ((g.nodes n).node.offer (g.nodes n).header r).2 = .process →
      ((g.nodes n).node.rumorTable.list r.origin).length + 1 < 2 ^ 63)
    (accepted : Option (Rumor (Message A))) (haccepted : ∀ q ∈ accepted,
      q = r ∧ ((g.nodes n).node.offer (g.nodes n).header r).2 ≠ .future) :
    (g.put n { g.nodes n with
      node := ((g.nodes n).node.offer (g.nodes n).header r).1
      handling := rest
      accepted := accepted } []).Backed := by
  have hall := (h.nodes n).handling
  rw [hhandling] at hall
  have hr := hall r List.mem_cons_self
  refine h.put (RumorNode.grows_offer _ _ r).lists (fun hold => ?_) (fun a ha => ?_) nofun
  · have hoffered := hold.offer (g.nodes n).header hr hlength
    refine ⟨hoffered.trees, hoffered.origins, hoffered.lengths, hold.starting,
      fun q hq => hall q (List.mem_cons_of_mem _ hq), fun q hq => ?_⟩
    obtain ⟨rfl, hv⟩ := haccepted q hq
    refine ⟨hr, (has_put_self _ _ _ _ _).mpr (SafeRumorTable.has_of_le hr ?_)⟩
    exact RumorNode.offer_le _ _ hv
  · rw [RumorNode.since_offer, List.mem_singleton] at ha
    subst ha
    exact nofun

theorem Backed.graft (h : g.Backed) (hdr : Header) {msgHash : String} (hhas : g.Has n msgHash) :
    (g.put n { g.nodes n with
      node := (RumorNode.execGraft (C n) hdr (g.nodes n).node msgHash).1 } []).Backed := by
  have hlengths := (h.nodes n).lengths
  obtain ⟨r, hanswer, hmem, _⟩ := (C n).graftAnswer_of_has hlengths hhas
  rw [RumorNode.execGraft_eq hanswer]
  refine h.put_noted rfl (fun hold => ?_) fun pkt hpkt => ?_
  · exact (hold.setTree ((hold.trees (treeOf msgHash)).moveToEager hdr.source)).note _
  · obtain rfl := List.mem_singleton.mp hpkt
    exact Packet.backed_rumors (SafeRumorTable.plain_of_mem (h.nodes n).origins hmem)

theorem Backed.receive (h : g.Backed) {i : ℕ} {packetID relayedBy : String}
    (hstep : step C g (n, .receive i packetID relayedBy) = some g') : g'.Backed := by
  simp only [step] at hstep
  split_ifs at hstep
  obtain ⟨pkt, hat, hstep⟩ := Option.bind_eq_some_iff.mp hstep
  have hpkt := h.sent pkt (List.mem_of_getElem? hat)
  split_ifs at hstep with hdest
  cases hmsg : pkt.msg with
  | rumors rs =>
    simp only [hmsg] at hstep
    obtain rfl := Option.some.inj hstep
    rw [Packet.Backed, hmsg] at hpkt
    refine h.put_silent rfl rfl (fun hold => ?_) nofun
    exact ⟨hold.trees, hold.origins, hold.lengths, hold.starting, hpkt, hold.accepted⟩
  | prune msgHash =>
    simp only [hmsg] at hstep
    obtain rfl := Option.some.inj hstep
    refine h.put_silent rfl rfl (fun hold => ?_) nofun
    exact hold.setTree ((hold.trees (treeOf msgHash)).moveToLazy pkt.source)
  | iHave msgHash =>
    simp only [hmsg] at hstep
    obtain rfl := Option.some.inj hstep
    rw [Packet.Backed, hmsg] at hpkt
    refine h.put_noted rfl (fun hold => ?_) (List.forall_mem_nil _)
    exact (hold.setTree ((hold.trees (treeOf msgHash)).execIHave hpkt)).note _
  | graft msgHash =>
    simp only [hmsg] at hstep
    obtain rfl := Option.some.inj hstep
    rw [Packet.Backed, hmsg] at hpkt
    exact h.graft _ (hpkt n hdest)
  | privateMessage | other =>
    simp only [hmsg] at hstep
    cases hstep

theorem Backed.push (h : g.Backed) {i : ℕ} {r : Rumor (Message A)}
    (hat : (g.nodes n).starting[i]? = some r) :
    (g.put n { g.nodes n with
      node := (g.nodes n).node.relayOwn n r
      starting := (g.nodes n).starting.eraseIdx i } []).Backed := by
  have hr := (h.nodes n).starting r (List.mem_of_getElem? hat)
  refine h.put_noted rfl (fun hold => ?_) fun pkt hpkt => ?_
  · have hpushed := hold.relayOwn hr.2
    exact ⟨hpushed.trees, hold.origins, hold.lengths,
      fun q hq => hold.starting q (List.mem_of_mem_eraseIdx hq), hold.handling, hold.accepted⟩
  · obtain rfl := List.mem_singleton.mp hpkt
    exact Packet.backed_rumors hr.1

theorem Backed.relay (h : g.Backed) {r : Rumor (Message A)}
    (hat : (g.nodes n).accepted = some r) :
    (g.put n { g.nodes n with
      node := (g.nodes n).node.relay (g.nodes n).header.source r
      accepted := none } []).Backed := by
  have hr := (h.nodes n).accepted r hat
  refine h.put_noted rfl (fun hold => ?_) fun pkt hpkt => ?_
  · have hrelayed := hold.relay (g.nodes n).header.source hr.2
    exact ⟨hrelayed.trees, hold.origins, hold.lengths, hold.starting, hold.handling, nofun⟩
  · split_ifs at hpkt
    · obtain rfl := List.mem_singleton.mp hpkt
      trivial
    · obtain rfl := List.mem_singleton.mp hpkt
      exact Packet.backed_rumors hr.1

theorem Backed.accept_step (h : g.Backed) (hstep : step C g (n, .accept) = some g') :
    g'.Backed := by
  simp only [step] at hstep
  split at hstep
  · next r rest hfree hhandling =>
    have haccept := h.accept hhandling
    rcases hoffer : (g.nodes n).node.offer (g.nodes n).header r with ⟨node, v⟩
    rw [hoffer] at hstep haccept
    cases v with
    | future =>
      obtain rfl := Option.some.inj hstep
      refine haccept (fun h => by cases h) _ fun q hq => ?_
      rw [hfree] at hq
      cases hq
    | prune =>
      obtain rfl := Option.some.inj hstep
      refine haccept (fun h => by cases h) (some r) fun q hq => ?_
      exact ⟨(Option.some.inj hq).symm, fun h => by cases h⟩
    | process =>
      simp only at hstep
      split_ifs at hstep with hlength
      obtain rfl := Option.some.inj hstep
      refine haccept (fun _ => hlength) (some r) fun q hq => ?_
      exact ⟨(Option.some.inj hq).symm, fun h => by cases h⟩
  · cases hstep

/-- The Graft goes to a peer that has announced the rumor. -/
theorem Backed.graftRetry (h : g.Backed) {msgHash : String}
    (hstep : step C g (n, .graftRetry msgHash) = some g') : g'.Backed := by
  obtain ⟨peer, hpeer, hstep⟩ := Option.bind_eq_some_iff.mp hstep
  obtain ⟨t, ht, rfl⟩ := Option.map_eq_some_iff.mp hstep
  have htree := (h.nodes n).trees (treeOf msgHash)
  refine h.put_silent rfl rfl (fun hold => ?_) fun pkt hpkt => ?_
  · exact hold.setTree (htree.graftRetry ht)
  · obtain rfl := List.mem_singleton.mp hpkt
    intro p hp
    rw [Finset.mem_singleton.mp hp]
    exact htree.graftPeer hpeer

/-- Whatever a node does, what it has and what it sends stays backed. -/
theorem Backed.step (h : g.Backed) (hplain : PlainOrigin g (n, e))
    (hstep : step C g (n, e) = some g') : g'.Backed := by
  cases e with
  | addPeer addr =>
    obtain rfl := Option.some.inj hstep
    exact h.put_silent rfl rfl (fun hold => hold.addPeer addr) (List.forall_mem_nil _)
  | broadcast b =>
    simp only [GraftNetwork.step] at hstep
    split_ifs at hstep with hlength
    obtain rfl := Option.some.inj hstep
    exact h.broadcast hplain hlength
  | push i =>
    obtain ⟨r, hat, rfl⟩ := Option.map_eq_some_iff.mp hstep
    exact h.push hat
  | receive i packetID relayedBy => exact h.receive hstep
  | accept => exact h.accept_step hstep
  | relay =>
    obtain ⟨r, hat, rfl⟩ := Option.map_eq_some_iff.mp hstep
    exact h.relay hat
  | abort =>
    obtain rfl := Option.some.inj hstep
    refine h.put_silent rfl rfl (fun hold => ?_) (List.forall_mem_nil _)
    exact ⟨hold.trees, hold.origins, hold.lengths, hold.starting, List.forall_mem_nil _,
      fun q hq => by cases hq⟩
  | sendIHave origin i =>
    obtain ⟨t, ht, rfl⟩ := Option.map_eq_some_iff.mp hstep
    refine h.put_silent rfl rfl (fun hold => ?_) (List.forall_mem_nil _)
    exact hold.setTree ((hold.trees origin).sendIHaveMsg ht)
  | announce origin i =>
    obtain ⟨q, hq, rfl⟩ := Option.map_eq_some_iff.mp hstep
    refine h.put_silent rfl rfl (fun hold => hold) fun pkt hpkt => ?_
    obtain rfl := List.mem_singleton.mp hpkt
    exact ((h.nodes n).trees origin).queued q (List.mem_of_getElem? hq)
  | graftRetry msgHash => exact h.graftRetry hstep
  | graftStop msgHash =>
    obtain ⟨t, ht, rfl⟩ := Option.map_eq_some_iff.mp hstep
    refine h.put_silent rfl rfl (fun hold => ?_) (List.forall_mem_nil _)
    exact hold.setTree ((hold.trees (treeOf msgHash)).graftStop ht)
  | status source remoteStatus order mongers =>
    obtain ⟨replies, hreplies, rfl⟩ := Option.map_eq_some_iff.mp hstep
    refine h.put_silent rfl rfl (fun hold => hold) fun pkt hpkt => ?_
    obtain ⟨rs, hrs, rfl⟩ := List.mem_map.mp hpkt
    intro r hr
    obtain ⟨o, ho⟩ := mem_execStatusMessage hreplies hrs hr
    exact SafeRumorTable.plain_of_mem (h.nodes n).origins ho

theorem backed_of_run {app : String → S} (h : Run (step C) PlainOrigin (start app) es g) :
    g.Backed :=
  h.invariant (I := Backed) (backed_start app) fun hg hplain hstep => hg.step hplain hstep

/-- Whoever is asked for a rumor by a Graft has it, and answers with it alone. -/
theorem graft_answered {app : String → S} (h : Run (step C) PlainOrigin (start app) es g)
    {pkt : Packet A} (hpkt : pkt ∈ g.sent) {msgHash : String} (hmsg : pkt.msg = .graft msgHash)
    (hdest : n ∈ pkt.dests) (hdr : Header) :
    ∃ o s, msgHash = o ++ ";" ++ toString s ∧ ';' ∉ o.toList ∧ 1 ≤ s ∧
      s ≤ ((g.nodes n).node.rumorTable.list o).length ∧
      ∃ r ∈ (g.nodes n).node.rumorTable.list o, r.origin = o ∧ r.sequence = s ∧
        (RumorNode.execGraft (C n) hdr (g.nodes n).node msgHash).2 = true ∧
        (RumorNode.execGraft (C n) hdr (g.nodes n).node msgHash).1.log =
          (g.nodes n).node.log ++ [.answer hdr.source hdr.packetID [r]] := by
  have hbacked := backed_of_run h
  have hhas := hbacked.sent pkt hpkt
  rw [Packet.Backed, hmsg] at hhas
  obtain ⟨r, hanswer, hmem, rfl, hplain⟩ :=
    (C n).graftAnswer_of_has (hbacked.nodes n).lengths (hhas n hdest)
  have hgraft : (RumorNode.execGraft (C n) hdr (g.nodes n).node r.msgHash).2 = true ∧ _ :=
    RumorNode.execGraft_of_some hanswer
  obtain ⟨hreturns, hlog⟩ := hgraft
  obtain ⟨i, hnumber, hat⟩ := ((g.nodes n).node.rumorTable.numbered r.origin).eq_of_mem hmem
  have hlt : i < ((g.nodes n).node.rumorTable.list r.origin).length :=
    (List.getElem?_eq_some_iff.mp hat).1
  exact ⟨r.origin, r.sequence, rfl, hplain, by omega, by omega, r, hmem, rfl, rfl, hreturns, hlog⟩

end GraftNetwork

namespace Sample

open GraftNetwork

def quietHost (n : String) : Host Unit Unit := { emptyHost with myAddr := n }

/-- The nodes know each other from their statuses only. `b` gives the first rumor of `a` back to it,
and is lazy in the tree of `a` from then on. The second rumor is announced to `b`. -/
def announced : List (String × GraftEvent Unit) :=
  [("a", .broadcast ()), ("a", .push 0), ("a", .status "b" ∅ ["a"] false),
    ("b", .receive 1 "1" "a"), ("b", .accept), ("b", .relay), ("b", .status "a" ∅ ["a"] false),
    ("a", .receive 3 "2" "b"), ("a", .accept), ("a", .relay),
    ("a", .broadcast ()), ("a", .push 0), ("a", .sendIHave "a" 1), ("a", .announce "a" 0)]

theorem announced_isSome : (exec (step quietHost) (start fun _ => ()) announced).isSome := by
  decide

def announcing : GraftNetwork Unit Unit :=
  (exec (step quietHost) (start fun _ => ()) announced).get announced_isSome

def asking : GraftNetwork Unit Unit :=
  announcing.put "b" { announcing.nodes "b" with
    node := (announcing.nodes "b").node.execIHave ⟨"3", "a", "a"⟩ "a;2" } []

theorem run_asking : Run (step quietHost) PlainOrigin (start fun _ => ())
    (announced ++ [("b", .receive 6 "3" "a")]) asking := by
  have hrun : Run (step quietHost) PlainOrigin (start fun _ => ()) announced announcing := by
    refine (run_exec_get announced_isSome).mem.imp fun g e he => ?_
    have hplain : ∀ e ∈ announced, ';' ∉ e.1.toList := by decide
    obtain ⟨n, e⟩ := e
    cases e with
    | broadcast => exact hplain _ he.2
    | _ => trivial
  obtain ⟨pkt, hat, hsource, hdest, hmsg⟩ : ∃ pkt, announcing.sent[6]? = some pkt ∧
      pkt.source = "a" ∧ "b" ∈ pkt.dests ∧ pkt.msg = .iHave "a;2" :=
    ⟨_, rfl, rfl, by decide, rfl⟩
  have hidle : (announcing.nodes "b").handling = [] ∧ (announcing.nodes "b").accepted = none :=
    ⟨rfl, rfl⟩
  refine .snoc hrun trivial ?_
  simp only [step, if_pos hidle, hat, Option.bind_some, if_pos hdest, hmsg, hsource]
  rfl

theorem asking_grafts : ∃ g, Run (step quietHost) PlainOrigin (start fun _ => ())
    (announced ++ [("b", .receive 6 "3" "a")] ++ [("b", .graftRetry "a;2")]) g ∧
      (⟨"b", {"a"}, .graft "a;2"⟩ : Packet Unit) ∈ g.sent := by
  have htreeOf : treeOf "a;2" = "a" := by
    have hsplit : "a;2".splitOn ";" = ["a", "2"] :=
      (Texts.splitOn_singleton _ ';').trans (by decide)
    rw [treeOf, hsplit]
    rfl
  have htree : (asking.nodes "b").node.tree "a" =
      ((announcing.nodes "b").node.tree "a").execIHave "a;2" "a" := by
    rw [asking, nodes_put, if_pos rfl, ← htreeOf]
    exact (RumorNode.tree_setTree _ _ _ _).trans (if_pos rfl)
  have hpeer : (((announcing.nodes "b").node.tree "a").execIHave "a;2" "a").graftPeer "a;2" =
      some "a" := by decide
  obtain ⟨t, ht⟩ : ∃ t, (((announcing.nodes "b").node.tree "a").execIHave "a;2" "a").graftRetry
      "a;2" = some t := Option.isSome_iff_exists.mp (by decide)
  have hretry : step quietHost asking ("b", .graftRetry "a;2") =
      some (asking.put "b" { asking.nodes "b" with node := (asking.nodes "b").node.setTree "a" t }
        [⟨"b", {"a"}, .graft "a;2"⟩]) := by
    simp only [step, htreeOf, htree, hpeer, ht, Option.bind_some, Option.map_some]
  refine ⟨_, .snoc run_asking trivial hretry, List.mem_append_right _ ?_⟩
  exact List.mem_singleton_self _

theorem graft_answered_asking : ∃ g : GraftNetwork Unit Unit,
    (⟨"b", {"a"}, .graft "a;2"⟩ : Packet Unit) ∈ g.sent ∧
    ∃ o s, "a;2" = o ++ ";" ++ toString s ∧ ';' ∉ o.toList ∧ 1 ≤ s ∧
      s ≤ ((g.nodes "a").node.rumorTable.list o).length ∧
      ∃ r ∈ (g.nodes "a").node.rumorTable.list o, r.origin = o ∧ r.sequence = s ∧
        (RumorNode.execGraft (quietHost "a") ⟨"4", "b", "b"⟩ (g.nodes "a").node "a;2").2 = true ∧
        (RumorNode.execGraft (quietHost "a") ⟨"4", "b", "b"⟩ (g.nodes "a").node "a;2").1.log =
          (g.nodes "a").node.log ++ [.answer "b" "4" [r]] := by
  obtain ⟨g, hrun, hsent⟩ := asking_grafts
  exact ⟨g, hsent, graft_answered hrun hsent rfl (Finset.mem_singleton_self "a") ⟨"4", "b", "b"⟩⟩

end Sample

end JobPortal.Gossip
