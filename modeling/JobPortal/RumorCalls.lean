import JobPortal.RumorNodes

/-! What a call of a packet's handler does: how its loop over the rumors goes on from one to the
next, and what each part of it leaves as it was. -/
namespace JobPortal.Gossip

variable {A S : Type}

/-- A tree keeps the rumors it has received, and all its eager peers but one. -/
structure PlumTree.Grows (source : String) (t t' : PlumTree) : Prop where
  received : ∀ msgHash, (t.computeIfAbsent msgHash).receivedMsg →
    (t'.computeIfAbsent msgHash).receivedMsg
  eagers : ∀ p, p ≠ source → (p ∈ t'.peers.eagers ↔ p ∈ t.peers.eagers)

namespace PlumTree

variable {source : String} {t t' t'' : PlumTree}

theorem Grows.refl : t.Grows source t := ⟨fun _ h => h, fun _ _ => Iff.rfl⟩

theorem Grows.trans (h : t.Grows source t') (h' : t'.Grows source t'') : t.Grows source t'' where
  received msgHash hreceived := h'.received msgHash (h.received msgHash hreceived)
  eagers p hp := (h'.eagers p hp).trans (h.eagers p hp)

theorem received_setStatus {msgHash : String} {status : MsgStatus}
    (h : (t.computeIfAbsent msgHash).receivedMsg → status.receivedMsg) (other : String)
    (hreceived : (t.computeIfAbsent other).receivedMsg) :
    ((t.setStatus msgHash status).computeIfAbsent other).receivedMsg := by
  rw [computeIfAbsent_setStatus]
  split_ifs with hother
  · exact h (hother ▸ hreceived)
  · exact hreceived

theorem grows_moveToLazy (t : PlumTree) (source : String) :
    t.Grows source (t.moveToLazy source) where
  received _ h := h
  eagers p hp := by simp [moveToLazy, PeerList.moveToLazy, hp]

theorem grows_moveToEager (t : PlumTree) (source : String) :
    t.Grows source (t.moveToEager source) where
  received _ h := h
  eagers p hp := by simp [moveToEager, PeerList.moveToEager, hp]

theorem grows_execIHave (t : PlumTree) (msgHash peer : String) :
    t.Grows source (t.execIHave msgHash peer) := by
  by_cases hreceived : (t.computeIfAbsent msgHash).receivedMsg = true
  · rw [execIHave, if_pos hreceived]
    exact ⟨received_setStatus fun h => h, fun _ _ => Iff.rfl⟩
  · rw [execIHave, if_neg hreceived]
    exact ⟨received_setStatus fun h => h, fun _ _ => Iff.rfl⟩

theorem grows_broadcast (source : String) (t : PlumTree) (msgHash myAddr : String) :
    t.Grows source (t.broadcast msgHash myAddr) where
  received := received_setStatus fun _ => rfl
  eagers _ _ := Iff.rfl

theorem grows_execRumor (t : PlumTree) (msgHash source : String) :
    t.Grows source (t.execRumor msgHash source) := by
  by_cases hreceived : (t.computeIfAbsent msgHash).receivedMsg = true
  · rw [execRumor, if_pos hreceived]
    exact ⟨received_setStatus fun h => h, fun _ _ => Iff.rfl⟩
  · rw [execRumor, if_neg hreceived]
    refine ⟨received_setStatus fun _ => rfl, fun p hp => ?_⟩
    simp only [disseminate, PeerList.considerNewEagerPeer]
    split_ifs
    · exact Iff.rfl
    · exact Finset.mem_insert.trans (or_iff_right hp)

theorem receivedMsg_execRumor (t : PlumTree) (msgHash source : String) :
    ((t.execRumor msgHash source).computeIfAbsent msgHash).receivedMsg := by
  by_cases hreceived : (t.computeIfAbsent msgHash).receivedMsg = true
  · exact (t.grows_execRumor msgHash source).received msgHash hreceived
  · rw [execRumor, if_neg hreceived]
    have hset := computeIfAbsent_setStatus t msgHash
      { t.computeIfAbsent msgHash with
        receivedMsg := true, received := (t.computeIfAbsent msgHash).requestGraft } msgHash
    rw [if_pos rfl] at hset
    exact congrArg MsgStatus.receivedMsg hset

end PlumTree

def Act.Aside {M : Type} : Act M → Prop
  | .offer .. | .push .. | .ack .. => False
  | .broadcast .. | .answer .. | .prune .. | .ackIHave .. => True

namespace RumorNode

def since (st st' : RumorNode A S) : List (Act (Message A)) := st'.log.drop st.log.length

def received (st : RumorNode A S) (r : Rumor (Message A)) : Bool :=
  ((st.tree r.origin).computeIfAbsent r.msgHash).receivedMsg

/-- What stays in a node, whatever handlers it runs for packets from `source`. -/
structure Grows (source : String) (st st' : RumorNode A S) : Prop where
  log : st.log <+: st'.log
  lists : ∀ o, st.rumorTable.list o <+: st'.rumorTable.list o
  trees : ∀ o, (st.tree o).Grows source (st'.tree o)

variable {source : String} {st st' st'' : RumorNode A S}

theorem Grows.refl : st.Grows source st :=
  ⟨List.prefix_rfl, fun _ => List.prefix_rfl, fun _ => .refl⟩

theorem Grows.trans (h : st.Grows source st') (h' : st'.Grows source st'') :
    st.Grows source st'' where
  log := h.log.trans h'.log
  lists o := (h.lists o).trans (h'.lists o)
  trees o := (h.trees o).trans (h'.trees o)

theorem Grows.received {r : Rumor (Message A)} (h : st.Grows source st') (hr : st.received r) :
    st'.received r := (h.trees r.origin).received r.msgHash hr

theorem Grows.length_le (h : st.Grows source st') (o : String) :
    (st.rumorTable.list o).length ≤ (st'.rumorTable.list o).length := (h.lists o).length_le

@[simp] theorem since_self (st : RumorNode A S) : st.since st = [] := List.drop_length

theorem since_of_log (h : st'.log = st.log) : st.since st' = [] := by
  rw [since, h, List.drop_length]

@[simp] theorem since_note (st : RumorNode A S) (a : Act (Message A)) :
    st.since (st.note a) = [a] := List.drop_left

theorem since_trans (h : st.log <+: st'.log) (h' : st'.log <+: st''.log) :
    st.since st'' = st.since st' ++ st'.since st'' := by
  obtain ⟨acts, hacts⟩ := h
  obtain ⟨acts', hacts'⟩ := h'
  simp [since, ← hacts', ← hacts]

theorem mem_since {a : Act (Message A)} (h : st.log <+: st'.log) (h' : st'.log <+: st''.log) :
    a ∈ st.since st'' ↔ a ∈ st.since st' ∨ a ∈ st'.since st'' := by
  rw [since_trans h h', List.mem_append]

theorem grows_note (st : RumorNode A S) (a : Act (Message A)) : st.Grows source (st.note a) :=
  ⟨List.prefix_append _ _, fun _ => List.prefix_rfl, fun _ => .refl⟩

theorem tree_setTree (st : RumorNode A S) (addr : String) (t : PlumTree) (o : String) :
    (st.setTree addr t).tree o = if o = addr then t else st.tree o :=
  GoMap.at_insert _ _ _ _ _

theorem grows_setTree {addr : String} {t : PlumTree} (h : (st.tree addr).Grows source t) :
    st.Grows source (st.setTree addr t) := by
  refine ⟨List.prefix_rfl, fun _ => List.prefix_rfl, fun o => ?_⟩
  rw [tree_setTree]
  split_ifs with ho
  · exact ho ▸ h
  · exact .refl

theorem grows_relay (st : RumorNode A S) (source : String) (r : Rumor (Message A)) :
    st.Grows source (st.relay source r) :=
  (grows_setTree (PlumTree.grows_execRumor _ _ _)).trans (grows_note _ _)

theorem setRoute_eq (st : RumorNode A S) (origin relayAddr : String) :
    ∃ routes, st.setRoute origin relayAddr = { st with routingTable := routes } := by
  unfold setRoute
  split_ifs
  · exact ⟨st.routingTable, rfl⟩
  · exact ⟨_, rfl⟩

theorem tree_offer (st : RumorNode A S) (hdr : Header) (r : Rumor (Message A)) (o : String) :
    (st.offer hdr r).1.tree o = st.tree o := by
  obtain ⟨routes, hroutes⟩ := st.setRoute_eq r.origin hdr.relayedBy
  simp only [offer, hroutes, note, tree]

theorem grows_offer (st : RumorNode A S) (hdr : Header) (r : Rumor (Message A)) :
    st.Grows hdr.source (st.offer hdr r).1 := by
  obtain ⟨routes, hroutes⟩ := st.setRoute_eq r.origin hdr.relayedBy
  have hlog : (st.offer hdr r).1.log = st.log ++ [.offer r (st.offer hdr r).2] := by
    simp only [offer, hroutes, note]
  refine ⟨hlog ▸ List.prefix_append _ _, fun o => ?_, fun o => st.tree_offer hdr r o ▸ .refl⟩
  rw [offer_core, SafeRumorTable.list_tryToAcceptOrigin]
  split_ifs with ho
  · exact ho ▸ NumberedLogs.prefix_offer _ _
  · exact List.prefix_rfl

theorem since_offer (st : RumorNode A S) (hdr : Header) (r : Rumor (Message A)) :
    st.since (st.offer hdr r).1 = [.offer r (st.offer hdr r).2] := by
  obtain ⟨routes, hroutes⟩ := st.setRoute_eq r.origin hdr.relayedBy
  simp [offer, hroutes, note, since]

structure Aside (source : String) (st st' : RumorNode A S) : Prop extends Grows source st st' where
  acts : ∀ a ∈ st.since st', a.Aside

theorem Aside.of_log (h : st.Grows source st') (hlog : st'.log = st.log) : st.Aside source st' :=
  ⟨h, by simp [since_of_log hlog]⟩

theorem Aside.trans (h : st.Aside source st') (h' : st'.Aside source st'') :
    st.Aside source st'' := by
  refine ⟨h.toGrows.trans h'.toGrows, fun a ha => ?_⟩
  rw [since_trans h.log h'.log] at ha
  exact (List.mem_append.mp ha).elim (h.acts a) (h'.acts a)

theorem aside_note (st : RumorNode A S) {a : Act (Message A)} (ha : a.Aside) :
    st.Aside source (st.note a) := by
  refine ⟨grows_note st a, fun b hb => ?_⟩
  rw [since_note, List.mem_singleton] at hb
  exact hb ▸ ha

theorem aside_setTree (st : RumorNode A S) (addr : String) {t : PlumTree}
    (h : (st.tree addr).Grows source t) : st.Aside source (st.setTree addr t) :=
  .of_log (grows_setTree h) rfl

theorem aside_exec (st : RumorNode A S) (app : S) : st.Aside source { st with app := app } :=
  .of_log ⟨List.prefix_rfl, fun _ => List.prefix_rfl, fun _ => .refl⟩ rfl

theorem aside_execGraft (C : Host A S) (hdr : Header) (st : RumorNode A S) (msgHash : String) :
    st.Aside hdr.source (execGraft C hdr st msgHash).1 := by
  have hmoved := st.aside_setTree (treeOf msgHash) (PlumTree.grows_moveToEager _ hdr.source)
  simp only [execGraft, setTree_core]
  rcases C.graftAnswer st.toGossipState msgHash with _ | _ | ⟨r, rs⟩
  · exact hmoved
  · exact hmoved
  · exact hmoved.trans (aside_note _ trivial)

theorem aside_broadcast {C : Host A S} {locked locked' : List String} {b : A}
    (h : broadcast C st locked b = some (st', locked')) : st.Aside source st' := by
  simp only [broadcast, SafeRumorTable.newRumorsMessage, List.foldl_cons, List.foldl_nil] at h
  obtain ⟨_, _, h⟩ := Option.bind_eq_some_iff.mp h
  obtain ⟨_, h⟩ := Option.ite_none_left_eq_some.mp h
  obtain rfl := (Prod.ext_iff.mp (Option.some.inj h)).1
  set r : Rumor (Message A) := ⟨C.myAddr, (st.rumorTable.list C.myAddr).length + 1, _⟩
  have happend : st.Aside source { st with rumorTable := st.rumorTable.append r rfl } := by
    refine .of_log ⟨List.prefix_rfl, fun o => ?_, fun _ => .refl⟩ rfl
    rw [SafeRumorTable.list_append]
    split_ifs with ho
    · exact ho ▸ List.prefix_append _ _
    · exact List.prefix_rfl
  have htree := aside_setTree { st with rumorTable := st.rumorTable.append r rfl } C.myAddr
    (PlumTree.grows_broadcast source _ r.msgHash C.myAddr)
  exact (happend.trans htree).trans
    ((aside_note _ (a := .broadcast r _) trivial).trans (aside_exec _ _))

theorem aside_broadcastAll {C : Host A S} {bs : List A} {locked locked' : List String}
    (h : broadcastAll C bs st locked = some (st', locked')) : st.Aside source st' := by
  induction bs generalizing st locked with
  | nil =>
    obtain rfl := (Prod.ext_iff.mp (Option.some.inj h)).1
    exact .of_log .refl rfl
  | cons b bs ih =>
    obtain ⟨_, hb, hbs⟩ := Option.bind_eq_some_iff.mp h
    exact (aside_broadcast hb).trans (ih hbs)

variable (C : Host A S) (hdr : Header)

/-- A call leaves the mutexes as it found them. -/
theorem processPacket_locked {m : Message A} {locked locked' : List String} {ok : Bool}
    (h : processPacket C hdr m st locked = some (st', locked', ok)) : locked' = locked := by
  have hcore := processPacket_core C hdr m st locked
  rw [h, C.processPacket_eq, Effect.exit] at hcore
  split_ifs at hcore
  · have heq := Option.some.inj hcore
    simp only [Prod.mk.injEq] at heq
    exact heq.2.1
  · cases hcore

/-- The handler of the message a rumor embeds, where the trees `locked` are locked. A rumor without
a message makes it panic. -/
def handled (r : Rumor (Message A)) (node : RumorNode A S) (locked : List String) :
    Option (RumorNode A S × Bool) :=
  match r.msg with
  | none => some (node, false)
  | some m => (processPacket C hdr m node locked).map fun (node, _, ok) => (node, ok)

variable {C hdr} in
theorem call_of_handled {r : Rumor (Message A)} {locked : List String} {ok : Bool}
    (h : handled C hdr r st locked = some (st', ok)) {m : Message A} (hm : r.msg = some m) :
    processPacket C hdr m st locked = some (st', locked, ok) := by
  rw [handled, hm] at h
  obtain ⟨⟨_, _, _⟩, hcall, heq⟩ := Option.map_eq_some_iff.mp h
  obtain ⟨rfl, rfl⟩ := Prod.mk.inj heq
  rw [hcall, processPacket_locked C hdr hcall]

/-- One turn of the loop over the rumors, and whether the loop goes on. -/
def turn (r : Rumor (Message A)) (l : RumorLoop A S) : Option (RumorLoop A S × Bool) :=
  let (node, v) := l.node.offer hdr r
  match v with
  | .future => some ({ l with node := node }, true)
  | .prune => ({ l with node := node }.relay hdr.source r).map (·, true)
  | .process =>
    (handled C hdr r node l.locked).bind fun (node, ok) =>
      let l := { l with node := node, hasNew := true }
      if ok then (l.relay hdr.source r).map (·, true) else some (l, false)

theorem execRumors_cons (r : Rumor (Message A)) (rs : List (Rumor (Message A)))
    (l : RumorLoop A S) : execRumors C hdr (r :: rs) l = (turn C hdr r l).bind fun (l, on) =>
      if on then execRumors C hdr rs l else some (l, false) := by
  obtain ⟨origin, sequence, msg⟩ := r
  have hrelay : ∀ l : RumorLoop A S, (l.relay hdr.source ⟨origin, sequence, msg⟩).bind
      (execRumors C hdr rs ·) =
        ((l.relay hdr.source ⟨origin, sequence, msg⟩).map (·, true)).bind
          fun (l, on) => if on then execRumors C hdr rs l else some (l, false) := by
    intro l
    rw [Option.bind_map]
    rfl
  rw [execRumors, turn]
  rcases l.node.offer hdr ⟨origin, sequence, msg⟩ with ⟨node, v⟩
  cases v with
  | future => rfl
  | prune => exact hrelay _
  | process =>
    cases msg with
    | none => rfl
    | some m =>
      simp only [handled, Option.bind_map, Option.bind_assoc]
      apply Option.bind_congr
      rintro ⟨node, locked, ok⟩ hcall
      obtain rfl := processPacket_locked C hdr hcall
      cases ok with
      | false => rfl
      | true => exact hrelay _

inductive Turn (r : Rumor (Message A)) (l : RumorLoop A S) : RumorLoop A S → Bool → Prop
  | future (verdict : (l.node.offer hdr r).2 = .future) :
      Turn r l { l with node := (l.node.offer hdr r).1 } true
  | prune (verdict : (l.node.offer hdr r).2 = .prune) (free : r.origin ∉ l.locked) :
      Turn r l ⟨(l.node.offer hdr r).1.relay hdr.source r, r.origin :: l.locked,
        r.origin :: l.deferred, l.hasNew⟩ true
  | fails (verdict : (l.node.offer hdr r).2 = .process) {node : RumorNode A S}
      (call : handled C hdr r (l.node.offer hdr r).1 l.locked = some (node, false)) :
      Turn r l ⟨node, l.locked, l.deferred, true⟩ false
  | passes (verdict : (l.node.offer hdr r).2 = .process) {node : RumorNode A S}
      (call : handled C hdr r (l.node.offer hdr r).1 l.locked = some (node, true))
      (free : r.origin ∉ l.locked) :
      Turn r l ⟨node.relay hdr.source r, r.origin :: l.locked, r.origin :: l.deferred, true⟩ true

theorem relay_eq_some {r : Rumor (Message A)} {l l' : RumorLoop A S}
    (h : l.relay source r = some l') : r.origin ∉ l.locked ∧
      l' = ⟨l.node.relay source r, r.origin :: l.locked, r.origin :: l.deferred, l.hasNew⟩ := by
  obtain ⟨locked, hlocked, rfl⟩ := Option.map_eq_some_iff.mp h
  rw [lockTree] at hlocked
  obtain ⟨hfree, hlocked⟩ := Option.ite_none_left_eq_some.mp hlocked
  exact ⟨hfree, by rw [Option.some.inj hlocked]⟩

theorem turn_cases {r : Rumor (Message A)} {l l' : RumorLoop A S} {on : Bool}
    (h : turn C hdr r l = some (l', on)) : Turn C hdr r l l' on := by
  rw [turn] at h
  rcases hoffer : l.node.offer hdr r with ⟨node, v⟩
  rw [hoffer] at h
  have hnode : (l.node.offer hdr r).1 = node := congrArg Prod.fst hoffer
  have hv : (l.node.offer hdr r).2 = v := congrArg Prod.snd hoffer
  cases v with
  | future =>
    obtain ⟨rfl, rfl⟩ := Prod.mk.inj (Option.some.inj h)
    exact hnode ▸ .future hv
  | prune =>
    obtain ⟨l', hrelay, heq⟩ := Option.map_eq_some_iff.mp h
    obtain ⟨rfl, rfl⟩ := Prod.mk.inj heq
    obtain ⟨hfree, rfl⟩ := relay_eq_some hrelay
    exact hnode ▸ .prune hv hfree
  | process =>
    obtain ⟨⟨node', ok⟩, hcall, h⟩ := Option.bind_eq_some_iff.mp h
    subst hnode
    cases ok with
    | false =>
      obtain ⟨rfl, rfl⟩ := Prod.mk.inj (Option.some.inj h)
      exact .fails hv hcall
    | true =>
      obtain ⟨l', hrelay, heq⟩ := Option.map_eq_some_iff.mp h
      obtain ⟨rfl, rfl⟩ := Prod.mk.inj heq
      obtain ⟨hfree, rfl⟩ := relay_eq_some hrelay
      exact .passes hv hcall hfree

/-- A rumor that the table took: the node with the rumor in its table, and the trees locked. -/
structure Acceptance (A S : Type) where
  rumor : Rumor (Message A)
  node : RumorNode A S
  locked : List String

mutual

/-- The rumors accepted while a message is handled, those in embedded messages among them. -/
def acceptances : Message A → RumorNode A S → List String → List (Acceptance A S)
  | .rumors rumors, st, locked => loopAcceptances rumors ⟨st, locked, [], false⟩
  | .privateMessage recipients (some m), st, locked =>
    if C.myAddr ∈ recipients then acceptances m st locked else []
  | .privateMessage _ none, _, _ | .prune _, _, _ | .iHave _, _, _ | .graft _, _, _
  | .other _, _, _ => []

def loopAcceptances : List (Rumor (Message A)) → RumorLoop A S → List (Acceptance A S)
  | [], _ => []
  | ⟨origin, sequence, msg⟩ :: rs, l =>
    let (node, v) := l.node.offer hdr ⟨origin, sequence, msg⟩
    let embedded :=
      match msg with
      | none => []
      | some m => acceptances m node l.locked
    let own := if v = .process then ⟨⟨origin, sequence, msg⟩, node, l.locked⟩ :: embedded else []
    own ++
      match turn C hdr ⟨origin, sequence, msg⟩ l with
      | some (l, true) => loopAcceptances rs l
      | _ => []

end

def embeddedAcceptances (r : Rumor (Message A)) (node : RumorNode A S) (locked : List String) :
    List (Acceptance A S) :=
  match r.msg with
  | none => []
  | some m => acceptances C hdr m node locked

variable {C hdr} in
theorem forall_embedded {r : Rumor (Message A)} {locked : List String}
    {P : Acceptance A S → Prop}
    (h : ∀ m, r.msg = some m → ∀ a ∈ acceptances C hdr m st locked, P a) :
    ∀ a ∈ embeddedAcceptances C hdr r st locked, P a := by
  rw [embeddedAcceptances]
  cases hmsg : r.msg with
  | none => exact fun a ha => absurd ha List.not_mem_nil
  | some m => exact h m hmsg

theorem turn_eq {r : Rumor (Message A)} {l l' : RumorLoop A S} {on : Bool}
    (h : Turn C hdr r l l' on) : turn C hdr r l = some (l', on) := by
  rw [turn]
  cases h with
  | future verdict => simp only [verdict]
  | prune verdict free => simp [verdict, RumorLoop.relay, lockTree_of_notMem free]
  | fails verdict call => simp [verdict, call]
  | passes verdict call free =>
    simp [verdict, call, RumorLoop.relay, lockTree_of_notMem free]

theorem loopAcceptances_goesOn {r : Rumor (Message A)} {rs : List (Rumor (Message A))}
    {l l' : RumorLoop A S} (h : Turn C hdr r l l' true) (hv : (l.node.offer hdr r).2 ≠ .process) :
    loopAcceptances C hdr (r :: rs) l = loopAcceptances C hdr rs l' := by
  obtain ⟨origin, sequence, msg⟩ := r
  rw [loopAcceptances]
  simp [hv, turn_eq C hdr h]

theorem loopAcceptances_process {r : Rumor (Message A)} {rs : List (Rumor (Message A))}
    {l : RumorLoop A S} (hv : (l.node.offer hdr r).2 = .process) :
    loopAcceptances C hdr (r :: rs) l = ⟨r, (l.node.offer hdr r).1, l.locked⟩ ::
      (embeddedAcceptances C hdr r (l.node.offer hdr r).1 l.locked ++
        match turn C hdr r l with
        | some (l, true) => loopAcceptances C hdr rs l
        | _ => []) := by
  obtain ⟨origin, sequence, msg⟩ := r
  rw [loopAcceptances]
  simp only [hv, if_true, List.cons_append, embeddedAcceptances]

/-- What has to be shown to prove something of every call that comes back, and of every loop. -/
structure CallRule
    (P : Message A → RumorNode A S → List String → RumorNode A S → Bool → Prop)
    (Q : List (Rumor (Message A)) → RumorLoop A S → RumorLoop A S → Bool → Prop) : Prop where
  aside : ∀ {m st locked st' ok}, acceptances C hdr m st locked = [] →
    st.Aside hdr.source st' → P m st locked st' ok
  rumors : ∀ {rs st locked l ok}, execRumors C hdr rs ⟨st, locked, [], false⟩ = some (l, ok) →
    Q rs ⟨st, locked, [], false⟩ l ok → P (.rumors rs) st locked (l.finish C hdr ok) ok
  privateMessage : ∀ {recipients m st locked st' ok}, C.myAddr ∈ recipients →
    P m st locked st' ok → P (.privateMessage recipients (some m)) st locked st' ok
  nil : ∀ {l}, Q [] l l true
  stop : ∀ {r rs l node}, (l.node.offer hdr r).2 = .process →
    handled C hdr r (l.node.offer hdr r).1 l.locked = some (node, false) →
    (∀ m, r.msg = some m → P m (l.node.offer hdr r).1 l.locked node false) →
    Q (r :: rs) l ⟨node, l.locked, l.deferred, true⟩ false
  goOn : ∀ {r rs l l₁ l' ok}, (l.node.offer hdr r).2 ≠ .process → Turn C hdr r l l₁ true →
    execRumors C hdr rs l₁ = some (l', ok) → Q rs l₁ l' ok → Q (r :: rs) l l' ok
  process : ∀ {r rs l node l' ok}, (l.node.offer hdr r).2 = .process → r.origin ∉ l.locked →
    handled C hdr r (l.node.offer hdr r).1 l.locked = some (node, true) →
    (∀ m, r.msg = some m → P m (l.node.offer hdr r).1 l.locked node true) →
    execRumors C hdr rs
      ⟨node.relay hdr.source r, r.origin :: l.locked, r.origin :: l.deferred, true⟩ =
        some (l', ok) →
    Q rs ⟨node.relay hdr.source r, r.origin :: l.locked, r.origin :: l.deferred, true⟩ l' ok →
    Q (r :: rs) l l' ok

section Rule

variable {C hdr} {P : Message A → RumorNode A S → List String → RumorNode A S → Bool → Prop}
  {Q : List (Rumor (Message A)) → RumorLoop A S → RumorLoop A S → Bool → Prop}

mutual

theorem CallRule.call (h : CallRule C hdr P Q) : (m : Message A) → (st : RumorNode A S) →
    (locked : List String) → {st' : RumorNode A S} → {locked' : List String} → {ok : Bool} →
    processPacket C hdr m st locked = some (st', locked', ok) → P m st locked st' ok
  | .rumors rumors, st, locked, st', locked', ok, hcall => by
    rw [processPacket] at hcall
    obtain ⟨⟨l, ok⟩, hloop, heq⟩ := Option.map_eq_some_iff.mp hcall
    simp only [Prod.mk.injEq] at heq
    obtain ⟨rfl, _, rfl⟩ := heq
    exact h.rumors hloop (h.loop rumors _ hloop)
  | .privateMessage recipients none, st, locked, st', locked', ok, hcall => by
    rw [processPacket] at hcall
    obtain ⟨rfl, _⟩ := Prod.mk.inj (Option.some.inj hcall)
    exact h.aside (by rw [acceptances]) (.of_log .refl rfl)
  | .privateMessage recipients (some m), st, locked, st', locked', ok, hcall => by
    rw [processPacket] at hcall
    split_ifs at hcall with hme
    · exact h.privateMessage hme (h.call m st locked hcall)
    · obtain ⟨rfl, _⟩ := Prod.mk.inj (Option.some.inj hcall)
      exact h.aside (by rw [acceptances, if_neg hme]) (.of_log .refl rfl)
  | .prune msgHash, st, locked, st', locked', ok, hcall => by
    rw [processPacket] at hcall
    obtain ⟨_, _, heq⟩ := Option.map_eq_some_iff.mp hcall
    obtain ⟨rfl, _⟩ := Prod.mk.inj heq
    exact h.aside (by rw [acceptances]) (st.aside_setTree _ (PlumTree.grows_moveToLazy _ _))
  | .iHave msgHash, st, locked, st', locked', ok, hcall => by
    rw [processPacket] at hcall
    obtain ⟨_, _, heq⟩ := Option.map_eq_some_iff.mp hcall
    obtain ⟨rfl, _⟩ := Prod.mk.inj heq
    exact h.aside (by rw [acceptances])
      ((st.aside_setTree _ (PlumTree.grows_execIHave _ _ _)).trans (aside_note _ trivial))
  | .graft msgHash, st, locked, st', locked', ok, hcall => by
    rw [processPacket] at hcall
    obtain ⟨_, _, heq⟩ := Option.map_eq_some_iff.mp hcall
    obtain ⟨rfl, _⟩ := Prod.mk.inj heq
    exact h.aside (by rw [acceptances]) (aside_execGraft C hdr st msgHash)
  | .other m, st, locked, st', locked', ok, hcall => by
    rw [processPacket] at hcall
    obtain ⟨_, hcall⟩ := Option.ite_none_left_eq_some.mp hcall
    obtain ⟨_, hall, heq⟩ := Option.map_eq_some_iff.mp hcall
    obtain ⟨rfl, _⟩ := Prod.mk.inj heq
    exact h.aside (by rw [acceptances]) ((aside_exec _ _).trans (aside_broadcastAll hall))

theorem CallRule.loop (h : CallRule C hdr P Q) : (rs : List (Rumor (Message A))) →
    (l : RumorLoop A S) → {l' : RumorLoop A S} → {ok : Bool} →
    execRumors C hdr rs l = some (l', ok) → Q rs l l' ok
  | [], l, l', ok, hloop => by
    rw [execRumors] at hloop
    obtain ⟨rfl, rfl⟩ := Prod.mk.inj (Option.some.inj hloop)
    exact h.nil
  | ⟨origin, sequence, msg⟩ :: rs, l, l', ok, hloop => by
    rw [execRumors_cons] at hloop
    obtain ⟨⟨l₁, on⟩, hturn, hloop⟩ := Option.bind_eq_some_iff.mp hloop
    have hembedded : ∀ {node ok}, handled C hdr ⟨origin, sequence, msg⟩
        (l.node.offer hdr ⟨origin, sequence, msg⟩).1 l.locked = some (node, ok) →
        ∀ m, msg = some m →
          P m (l.node.offer hdr ⟨origin, sequence, msg⟩).1 l.locked node ok := by
      rintro node ok hcall m rfl
      exact h.call m _ _ (call_of_handled hcall rfl)
    have hcases := turn_cases C hdr hturn
    cases turn_cases C hdr hturn with
    | future verdict =>
      exact h.goOn (verdict.trans_ne (by decide)) hcases hloop (h.loop rs _ hloop)
    | prune verdict =>
      exact h.goOn (verdict.trans_ne (by decide)) hcases hloop (h.loop rs _ hloop)
    | fails verdict call =>
      obtain ⟨rfl, rfl⟩ := Prod.mk.inj (Option.some.inj hloop)
      exact h.stop verdict call (hembedded call)
    | passes verdict call free =>
      exact h.process verdict free call (hembedded call) hloop (h.loop rs _ hloop)

end

end Rule

/-- What a call does for a packet from `source`: it pushes only rumors that the table holds and the
trees had not received. -/
structure Handles (source : String) (st st' : RumorNode A S) : Prop
    extends Grows source st st' where
  pushed : ∀ r peers, .push r peers ∈ st.since st' → st.received r = false ∧
    st'.received r = true ∧ r.sequence ≤ (st'.rumorTable.list r.origin).length

theorem Handles.of_noPush (h : st.Grows source st')
    (hpush : ∀ r peers, .push r peers ∉ st.since st') : st.Handles source st' :=
  ⟨h, fun r peers hmem => absurd hmem (hpush r peers)⟩

theorem Handles.trans (h : st.Handles source st') (h' : st'.Handles source st'') :
    st.Handles source st'' := by
  refine ⟨h.toGrows.trans h'.toGrows, fun r peers hmem => ?_⟩
  rw [since_trans h.log h'.log] at hmem
  rcases List.mem_append.mp hmem with hmem | hmem
  · obtain ⟨hnew, hreceived, hle⟩ := h.pushed r peers hmem
    exact ⟨hnew, h'.received hreceived, hle.trans (h'.length_le r.origin)⟩
  · obtain ⟨hnew, hreceived, hle⟩ := h'.pushed r peers hmem
    refine ⟨Bool.eq_false_iff.mpr fun hold => ?_, hreceived, hle⟩
    exact Bool.false_ne_true (hnew.symm.trans (h.received hold))

theorem Aside.handles (h : st.Aside source st') : st.Handles source st' :=
  .of_noPush h.toGrows fun _ _ hmem => h.acts _ hmem

theorem handles_offer (st : RumorNode A S) (r : Rumor (Message A)) :
    st.Handles hdr.source (st.offer hdr r).1 := by
  refine .of_noPush (st.grows_offer hdr r) fun q peers hmem => ?_
  rw [since_offer, List.mem_singleton] at hmem
  cases hmem

theorem received_relay (st : RumorNode A S) (source : String) (r : Rumor (Message A)) :
    (st.relay source r).received r = true := by
  have htree : (st.relay source r).tree r.origin =
      (st.tree r.origin).execRumor r.msgHash source :=
    (tree_setTree _ _ _ _).trans (if_pos rfl)
  rw [received, htree]
  exact PlumTree.receivedMsg_execRumor _ _ _

theorem since_relay (st : RumorNode A S) (source : String) (r : Rumor (Message A)) :
    st.since (st.relay source r) = [if st.received r then .prune source r.msgHash
      else .push r (((st.relay source r).tree r.origin).peers.eagers.erase source)] := by
  have htree : (st.relay source r).tree r.origin =
      (st.tree r.origin).execRumor r.msgHash source :=
    (tree_setTree _ _ _ _).trans (if_pos rfl)
  rw [htree]
  exact since_note (st.setTree r.origin _) _

theorem push_relay {q r : Rumor (Message A)} {peers : Finset String}
    (h : .push q peers ∈ st.since (st.relay source r)) : q = r ∧ st.received r = false := by
  rw [since_relay, List.mem_singleton] at h
  split_ifs at h with hreceived
  exact ⟨(Act.push.inj h).1, Bool.eq_false_iff.mpr hreceived⟩

theorem handles_relay {r : Rumor (Message A)}
    (h : r.sequence ≤ (st.rumorTable.list r.origin).length) :
    st.Handles source (st.relay source r) := by
  refine ⟨grows_relay st source r, fun q peers hmem => ?_⟩
  obtain ⟨rfl, hnew⟩ := push_relay hmem
  exact ⟨hnew, received_relay st source q, h⟩

theorem since_finish (l : RumorLoop A S) (ok : Bool) : l.node.since (l.finish C hdr ok) =
    if ok ∧ hdr.source ≠ C.myAddr ∧ l.hasNew then
      [.ack hdr.source ⟨hdr.packetID, l.node.rumorTable.getStatusMsg⟩] else [] := by
  unfold RumorLoop.finish
  split_ifs
  · exact since_note _ _
  · exact since_self _

theorem push_finish {l : RumorLoop A S} {ok : Bool} {r : Rumor (Message A)}
    {peers : Finset String} : .push r peers ∉ l.node.since (l.finish C hdr ok) := by
  intro hmem
  rw [since_finish] at hmem
  split_ifs at hmem
  · cases List.mem_singleton.mp hmem
  · cases hmem

theorem handles_finish (l : RumorLoop A S) (ok : Bool) :
    l.node.Handles hdr.source (l.finish C hdr ok) := by
  refine .of_noPush ?_ fun r peers => push_finish C hdr
  unfold RumorLoop.finish
  split_ifs
  · exact grows_note _ _
  · exact .refl

/-- Unless the answer is "future", the table holds a rumor with this number from then on. -/
theorem offer_le (st : RumorNode A S) {r : Rumor (Message A)}
    (h : (st.offer hdr r).2 ≠ .future) :
    r.sequence ≤ ((st.offer hdr r).1.rumorTable.list r.origin).length := by
  have hle : r.sequence ≤ (st.rumorTable.list r.origin).length + 1 :=
    not_lt.mp (mt (SafeRumorTable.tryToAcceptOrigin_future _ r).mpr h)
  rw [offer_core, SafeRumorTable.list_tryToAcceptOrigin, if_pos rfl, NumberedLogs.offer]
  split_ifs with hnext
  · simpa using hle
  · omega

theorem handles_handled {r : Rumor (Message A)} {locked : List String} {ok : Bool}
    (call : handled C hdr r st locked = some (st', ok))
    (h : ∀ m, r.msg = some m → st.Handles source st') : st.Handles source st' := by
  cases hmsg : r.msg with
  | none =>
    rw [handled, hmsg] at call
    obtain ⟨rfl, _⟩ := Prod.mk.inj (Option.some.inj call)
    exact .of_noPush .refl (by simp)
  | some m => exact h m hmsg

theorem handles_goOn {r : Rumor (Message A)} {l l' : RumorLoop A S}
    (hv : (l.node.offer hdr r).2 ≠ .process) (h : Turn C hdr r l l' true) :
    l.node.Handles hdr.source l'.node := by
  cases h with
  | future => exact handles_offer hdr _ _
  | prune verdict =>
    have hle := offer_le hdr _ (verdict.trans_ne (by decide))
    exact (handles_offer hdr _ _).trans (handles_relay hle)
  | passes verdict => exact absurd verdict hv

theorem handles_rule : CallRule C hdr (fun _ st _ st' _ => st.Handles hdr.source st')
    (fun _ l l' _ => l.node.Handles hdr.source l'.node) where
  aside _ h := h.handles
  rumors _ h := h.trans (handles_finish C hdr _ _)
  privateMessage _ h := h
  nil := .of_noPush .refl (by simp)
  stop _ call h := (handles_offer hdr _ _).trans (handles_handled C hdr call h)
  goOn hv h _ hrest := (handles_goOn C hdr hv h).trans hrest
  process {r _ _ node _ _} verdict _ call h _ hrest := by
    have hle := offer_le hdr _ (verdict.trans_ne (by decide))
    have hhandled := handles_handled C hdr call h
    have hrelay : node.Handles hdr.source (node.relay hdr.source r) :=
      handles_relay (hle.trans (hhandled.length_le r.origin))
    exact (((handles_offer hdr _ _).trans hhandled).trans hrelay).trans hrest

theorem handled_handles {r : Rumor (Message A)} {locked : List String} {ok : Bool}
    (call : handled C hdr r st locked = some (st', ok)) : st.Handles hdr.source st' := by
  refine handles_handled C hdr call fun m hm => ?_
  exact (handles_rule C hdr).call m _ _ (call_of_handled call hm)

/-- When its message has been handled, an accepted rumor is still in the table. -/
theorem handles_relay_handled {r : Rumor (Message A)} {locked : List String} {ok : Bool}
    (verdict : (st.offer hdr r).2 = .process)
    (call : handled C hdr r (st.offer hdr r).1 locked = some (st', ok)) :
    st'.Handles hdr.source (st'.relay hdr.source r) := by
  have hle := offer_le hdr st (verdict.trans_ne (by decide))
  exact handles_relay (hle.trans ((handled_handles C hdr call).length_le r.origin))

section Turns

variable {C hdr} {r : Rumor (Message A)} {rs : List (Rumor (Message A))} {l l' : RumorLoop A S}
  {on : Bool}

theorem Turn.after_offer (h : Turn C hdr r l l' on) :
    (l.node.offer hdr r).1.Handles hdr.source l'.node := by
  cases h with
  | future => exact .of_noPush .refl (by simp)
  | prune verdict => exact handles_relay (offer_le hdr _ (verdict.trans_ne (by decide)))
  | fails verdict call => exact handled_handles C hdr call
  | passes verdict call =>
    exact (handled_handles C hdr call).trans (handles_relay_handled C hdr verdict call)

theorem Turn.handles (h : Turn C hdr r l l' on) : l.node.Handles hdr.source l'.node :=
  (handles_offer hdr _ _).trans h.after_offer

theorem Turn.since (h : Turn C hdr r l l' on) : l.node.since l'.node =
    .offer r (l.node.offer hdr r).2 :: (l.node.offer hdr r).1.since l'.node := by
  rw [since_trans (handles_offer hdr l.node r).log h.after_offer.log, since_offer,
    List.singleton_append]

theorem Turn.locked (h : Turn C hdr r l l' on) : ∀ o ∈ l'.locked, o = r.origin ∨ o ∈ l.locked := by
  intro o ho
  cases h with
  | future | fails => exact .inr ho
  | prune | passes => exact List.mem_cons.mp ho

theorem Turn.rest (h : Turn C hdr r l l' true) :
    ∀ a ∈ loopAcceptances C hdr rs l', a ∈ loopAcceptances C hdr (r :: rs) l := by
  intro a ha
  by_cases hv : (l.node.offer hdr r).2 = .process
  · rw [loopAcceptances_process C hdr hv, turn_eq C hdr h]
    exact List.mem_cons_of_mem _ (List.mem_append_right _ ha)
  · rwa [loopAcceptances_goesOn C hdr h hv]

/-- The turns of a loop, up to its end or to an error. -/
inductive Turns (C : Host A S) (hdr : Header) :
    List (Rumor (Message A)) → RumorLoop A S → RumorLoop A S → Bool → Prop
  | nil {l : RumorLoop A S} : Turns C hdr [] l l true
  | stop {r : Rumor (Message A)} {rs : List (Rumor (Message A))} {l l' : RumorLoop A S}
      (turn : Turn C hdr r l l' false) : Turns C hdr (r :: rs) l l' false
  | next {r : Rumor (Message A)} {rs : List (Rumor (Message A))} {l l₁ l' : RumorLoop A S}
      {ok : Bool} (turn : Turn C hdr r l l₁ true) (rest : Turns C hdr rs l₁ l' ok) :
      Turns C hdr (r :: rs) l l' ok

variable {ok : Bool}

theorem turns_of_execRumors (h : execRumors C hdr rs l = some (l', ok)) :
    Turns C hdr rs l l' ok := by
  induction rs generalizing l with
  | nil =>
    rw [execRumors] at h
    obtain ⟨rfl, rfl⟩ := Prod.mk.inj (Option.some.inj h)
    exact .nil
  | cons r rs ih =>
    rw [execRumors_cons] at h
    obtain ⟨⟨l₁, on⟩, hturn, hloop⟩ := Option.bind_eq_some_iff.mp h
    have hcases := turn_cases C hdr hturn
    cases on with
    | false =>
      obtain ⟨rfl, rfl⟩ := Prod.mk.inj (Option.some.inj hloop)
      exact .stop hcases
    | true => exact .next hcases (ih hloop)

theorem Turns.execRumors (h : Turns C hdr rs l l' ok) : execRumors C hdr rs l = some (l', ok) := by
  induction h with
  | nil => rw [RumorNode.execRumors]
  | stop turn =>
    rw [execRumors_cons, turn_eq C hdr turn]
    rfl
  | next turn _ ih =>
    rw [execRumors_cons, turn_eq C hdr turn]
    exact ih

theorem Turns.handles (h : Turns C hdr rs l l' ok) : l.node.Handles hdr.source l'.node := by
  induction h with
  | nil => exact .of_noPush .refl (by simp)
  | stop turn => exact turn.handles
  | next turn _ ih => exact turn.handles.trans ih

theorem Turns.offered (h : Turns C hdr rs l l' ok) (hok : ok = true) :
    ∀ r ∈ rs, ∃ v, .offer r v ∈ l.node.since l'.node := by
  induction h with
  | nil => exact fun r hr => absurd hr List.not_mem_nil
  | stop => exact absurd hok Bool.false_ne_true
  | next turn rest ih =>
    rw [since_trans turn.handles.log rest.handles.log, turn.since]
    refine List.forall_mem_cons.mpr ⟨⟨_, List.mem_cons_self⟩, fun q hq => ?_⟩
    · obtain ⟨v, hv⟩ := ih hok q hq
      exact ⟨v, List.mem_append_right _ hv⟩

end Turns

/-- What has to be shown to prove something of every rumor accepted during a call, about the states
before and after the call and whether it met no error. -/
structure AcceptanceRule (R : RumorNode A S → RumorNode A S → Bool → Acceptance A S → Prop) :
    Prop where
  own : ∀ {r : Rumor (Message A)} {st st' locked ok}, (st.offer hdr r).2 = .process →
    handled C hdr r (st.offer hdr r).1 locked = some (st', ok) →
    R st st' ok ⟨r, (st.offer hdr r).1, locked⟩
  embedded : ∀ {r : Rumor (Message A)} {st st' locked ok a},
    handled C hdr r (st.offer hdr r).1 locked = some (st', ok) →
    a ∈ embeddedAcceptances C hdr r (st.offer hdr r).1 locked →
    R (st.offer hdr r).1 st' ok a → R st st' ok a
  later : ∀ {st st' st'' ok a}, st.Handles hdr.source st' → st'.Handles hdr.source st'' →
    R st st' true a → R st st'' ok a
  earlier : ∀ {st l rs l' ok a}, st.Handles hdr.source l.node → Turns C hdr rs l l' ok →
    a ∈ loopAcceptances C hdr rs l → R l.node l'.node ok a → R st l'.node ok a

section AcceptanceRule

variable {C hdr} {R : RumorNode A S → RumorNode A S → Bool → Acceptance A S → Prop}

theorem AcceptanceRule.process (h : AcceptanceRule C hdr R) {r : Rumor (Message A)}
    {locked : List String} {ok : Bool} (verdict : (st.offer hdr r).2 = .process)
    (call : handled C hdr r (st.offer hdr r).1 locked = some (st', ok))
    (hembedded : ∀ m, r.msg = some m → ∀ a ∈ acceptances C hdr m (st.offer hdr r).1 locked,
      R (st.offer hdr r).1 st' ok a) :
    ∀ a ∈ ⟨r, (st.offer hdr r).1, locked⟩ ::
      embeddedAcceptances C hdr r (st.offer hdr r).1 locked, R st st' ok a := by
  refine List.forall_mem_cons.mpr ⟨h.own verdict call, fun a ha => ?_⟩
  exact h.embedded call ha (forall_embedded hembedded a ha)

theorem AcceptanceRule.finish (h : AcceptanceRule C hdr R) {l : RumorLoop A S} {ok : Bool}
    {a : Acceptance A S} (hst : st.Handles hdr.source l.node) (ha : R st l.node ok a) :
    R st (l.finish C hdr ok) ok a := by
  cases ok with
  | false =>
    rw [RumorLoop.finish, if_neg (fun h => Bool.false_ne_true h.1)]
    exact ha
  | true => exact h.later hst (handles_finish C hdr l true) ha

theorem AcceptanceRule.rule (h : AcceptanceRule C hdr R) : CallRule C hdr
    (fun m st locked st' ok => ∀ a ∈ acceptances C hdr m st locked, R st st' ok a)
    (fun rs l l' ok => ∀ a ∈ loopAcceptances C hdr rs l, R l.node l'.node ok a) where
  aside hnone _ := by simp [hnone]
  rumors hloop hall := by
    rw [acceptances]
    exact fun a ha => h.finish (turns_of_execRumors hloop).handles (hall a ha)
  privateMessage hme hall := by
    rw [acceptances, if_pos hme]
    exact hall
  nil := by simp [loopAcceptances]
  stop verdict call hembedded := by
    rw [loopAcceptances_process C hdr verdict, turn_eq C hdr (.fails verdict call),
      List.append_nil]
    exact h.process verdict call hembedded
  goOn hv hturn hloop hall := by
    rw [loopAcceptances_goesOn C hdr hturn hv]
    exact fun a ha => h.earlier hturn.handles (turns_of_execRumors hloop) ha (hall a ha)
  process {r rs l node l' ok} verdict free call hembedded hloop hall := by
    have hturn : Turn C hdr r l _ true := .passes verdict call free
    have hrest := turns_of_execRumors hloop
    rw [loopAcceptances_process C hdr verdict, turn_eq C hdr hturn, ← List.cons_append]
    refine List.forall_mem_append.mpr ⟨fun a ha => ?_, fun a ha => ?_⟩
    · have hbefore := (handles_offer hdr l.node r).trans (handled_handles C hdr call)
      have hafter := (handles_relay_handled C hdr verdict call).trans hrest.handles
      exact h.later hbefore hafter (h.process verdict call hembedded a ha)
    · exact h.earlier hturn.handles hrest ha (hall a ha)

end AcceptanceRule

end RumorNode

end JobPortal.Gossip
