import JobPortal.GossipHandlers
import JobPortal.Histories
import JobPortal.PbftPeer

/-! When a call of a handler gets through the mutexes it locks. Set apart from the mutexes, a call
has an effect, and it asks for trees. It comes back exactly when no tree is asked for while it is
locked for an earlier rumor. -/
namespace JobPortal.Gossip

open Histories

variable {A S : Type}

/-- What a handler does where no mutex is in its way, and the trees it asks for. -/
structure Effect (A S : Type) where
  state : GossipState A S
  ok : Bool
  trees : List String
  /-- It comes back when the trees it asks for are free. -/
  clear : Prop

/-- A rumor that is not answered "future". -/
structure Visit where
  /-- The trees the handler of its message asks for. -/
  asked : List String
  /-- That handler comes back when they are free. -/
  clear : Prop
  /-- The tree that stays locked from then on: that of its origin, unless its message fails. -/
  locks : List String

/-- Everything the handler of a rumor asks for is out of the way of the rumors before it. -/
def Visit.Apart (locked : List String) (past : List Visit) (v : Visit) : Prop :=
  v.clear ∧ ∀ o ∈ v.asked ++ v.locks, o ∉ past.flatMap Visit.locks ∧ o ∉ locked

/-- The loop over the rumors of a packet, where no mutex is in its way. -/
structure Passage (A S : Type) where
  visits : List Visit
  state : GossipState A S
  ok : Bool

def Passage.visit (p : Passage A S) (v : Visit) : Passage A S := { p with visits := v :: p.visits }

namespace Host

variable (C : Host A S)

def broadcastEffect (st : GossipState A S) (b : A) : Effect A S :=
  let t := (st.rumorTable.newRumorsMessage C.myAddr (.other b)).1
  let r := C.exec C.myAddr st.app b
  { state := ⟨t, r.app⟩
    ok := true
    trees := [C.myAddr]
    clear := r.outcome ≠ .blocked ∧ r.broadcasts = [] }

def broadcastsEffect : List A → GossipState A S → Effect A S
  | [], st => ⟨st, true, [], True⟩
  | b :: bs, st =>
    let e := C.broadcastEffect st b
    let es := broadcastsEffect bs e.state
    ⟨es.state, true, e.trees ++ es.trees, e.clear ∧ es.clear⟩

mutual

def effect (source : String) : Message A → GossipState A S → Effect A S
  | .rumors rumors, st =>
    let p := passage source rumors st
    { state := p.state
      ok := p.ok
      trees := p.visits.flatMap fun v => v.asked ++ v.locks
      clear := EachAfter (Visit.Apart []) p.visits }
  | .privateMessage recipients none, st => ⟨st, decide (C.myAddr ∉ recipients), [], True⟩
  | .privateMessage recipients (some m), st =>
    if C.myAddr ∈ recipients then effect source m st else ⟨st, true, [], True⟩
  | .prune msgHash, st | .iHave msgHash, st => ⟨st, true, [treeOf msgHash], True⟩
  | .graft msgHash, st => ⟨st, C.answersGraft st msgHash, [treeOf msgHash], True⟩
  | .other m, st =>
    let r := C.exec source st.app m
    let e := C.broadcastsEffect r.broadcasts { st with app := r.app }
    ⟨e.state, decide (r.outcome = .returned), e.trees, r.outcome ≠ .blocked ∧ e.clear⟩

def passage (source : String) : List (Rumor (Message A)) → GossipState A S → Passage A S
  | [], st => ⟨[], st, true⟩
  | ⟨origin, sequence, msg⟩ :: rs, st =>
    let (t, v) := st.rumorTable.tryToAcceptOrigin ⟨origin, sequence, msg⟩
    let st := { st with rumorTable := t }
    match v with
    | .future => passage source rs st
    | .prune => (passage source rs st).visit ⟨[], True, [origin]⟩
    | .process =>
      match msg with
      | none => ⟨[⟨[], True, []⟩], st, false⟩
      | some m =>
        let e := effect source m st
        if e.ok then (passage source rs e.state).visit ⟨e.trees, e.clear, [origin]⟩
        else ⟨[⟨e.trees, e.clear, []⟩], e.state, false⟩

end

end Host

section Scopes

variable {locked : List String} {o : String} {vs : List Visit} {v : Visit}

@[simp] theorem lockTree_of_mem (h : o ∈ locked) : lockTree locked o = none := if_pos h

@[simp] theorem lockTree_of_notMem (h : o ∉ locked) : lockTree locked o = some (o :: locked) :=
  if_neg h

theorem foldl_erase_append (deferred locked : List String) :
    deferred.foldl List.erase (deferred ++ locked) = locked := by
  induction deferred with
  | nil => rfl
  | cons o deferred ih => rw [List.cons_append, List.foldl_cons, List.erase_cons_head, ih]

theorem apart_cons (past : List Visit) (w : Visit) :
    Visit.Apart locked (v :: past) w ↔ Visit.Apart (v.locks ++ locked) past w := by
  unfold Visit.Apart
  refine and_congr_right fun _ => forall₂_congr fun o _ => ?_
  rw [List.flatMap_cons, List.mem_append, List.mem_append]
  tauto

theorem eachAfter_apart_cons :
    EachAfter (Visit.Apart locked) (v :: vs) ↔
      (v.clear ∧ ∀ o ∈ v.asked ++ v.locks, o ∉ locked) ∧
        EachAfter (Visit.Apart (v.locks ++ locked)) vs := by
  have hrest : (fun past => Visit.Apart locked (v :: past)) = Visit.Apart (v.locks ++ locked) := by
    funext past w
    exact propext (apart_cons past w)
  rw [eachAfter_cons, hrest]
  apply and_congr_left
  intro _
  simp [Visit.Apart]

/-- With some trees locked from before, these have to be out of the way too. -/
theorem eachAfter_apart (locked : List String) (vs : List Visit) :
    EachAfter (Visit.Apart locked) vs ↔
      EachAfter (Visit.Apart []) vs ∧
        ∀ o ∈ vs.flatMap (fun v => v.asked ++ v.locks), o ∉ locked := by
  constructor
  · intro h
    refine ⟨fun past v rest heq => ?_, fun o ho => ?_⟩
    · obtain ⟨hclear, hfree⟩ := h past v rest heq
      exact ⟨hclear, fun o ho => ⟨(hfree o ho).1, List.not_mem_nil⟩⟩
    · obtain ⟨v, hv, hvo⟩ := List.mem_flatMap.mp ho
      obtain ⟨past, rest, heq⟩ := List.append_of_mem hv
      exact ((h past v rest heq).2 o hvo).2
  · rintro ⟨h, hfree⟩ past v rest rfl
    obtain ⟨hclear, hpast⟩ := h past v rest rfl
    refine ⟨hclear, fun o ho => ⟨(hpast o ho).1, hfree o ?_⟩⟩
    exact List.mem_flatMap.mpr ⟨v, by simp, ho⟩

end Scopes

/-- Nothing is in the way of a call: what it asks for is free, and it comes back then. -/
def Effect.Passes (e : Effect A S) (locked : List String) : Prop :=
  e.clear ∧ ∀ o ∈ e.trees, o ∉ locked

open Classical in
/-- With some trees locked, a call has its whole effect, or it never comes back. -/
noncomputable def Effect.exit (e : Effect A S) (locked : List String) :
    Option (GossipState A S × List String) :=
  if e.Passes locked then some (e.state, locked) else none

open Classical in
noncomputable def Passage.exit (p : Passage A S) (locked deferred : List String) :
    Option (GossipState A S × List String × List String × Bool) :=
  if EachAfter (Visit.Apart locked) p.visits then
    some (p.state, (p.visits.flatMap Visit.locks).reverse ++ locked,
      (p.visits.flatMap Visit.locks).reverse ++ deferred, p.ok)
  else none

theorem Effect.exit_pos {e : Effect A S} {locked : List String} (h : e.Passes locked) :
    e.exit locked = some (e.state, locked) := if_pos h

theorem Effect.exit_neg {e : Effect A S} {locked : List String} (h : ¬ e.Passes locked) :
    e.exit locked = none := if_neg h

theorem Passage.exit_pos {p : Passage A S} {locked : List String} (deferred : List String)
    (h : EachAfter (Visit.Apart locked) p.visits) :
    p.exit locked deferred = some (p.state, (p.visits.flatMap Visit.locks).reverse ++ locked,
      (p.visits.flatMap Visit.locks).reverse ++ deferred, p.ok) := if_pos h

theorem Passage.exit_neg {p : Passage A S} {locked : List String} (deferred : List String)
    (h : ¬ EachAfter (Visit.Apart locked) p.visits) : p.exit locked deferred = none := if_neg h

theorem eachAfter_apart_visit {asked : List String} {clear : Prop} {origin : String}
    {locked : List String} {vs : List Visit} :
    EachAfter (Visit.Apart locked) (⟨asked, clear, [origin]⟩ :: vs) ↔
      (clear ∧ ∀ o ∈ asked, o ∉ locked) ∧ origin ∉ locked ∧
        EachAfter (Visit.Apart (origin :: locked)) vs := by
  rw [eachAfter_apart_cons, List.forall_mem_append, List.forall_mem_singleton]
  tauto

/-- A rumor whose message passes locks the tree of its origin, if that is free. -/
theorem Passage.exit_visit (p : Passage A S) (e : Effect A S) (origin : String)
    (locked deferred : List String) :
    (p.visit ⟨e.trees, e.clear, [origin]⟩).exit locked deferred =
      (e.exit locked).bind fun _ =>
        (lockTree locked origin).bind fun locked => p.exit locked (origin :: deferred) := by
  have hvisit : EachAfter (Visit.Apart locked) (p.visit ⟨e.trees, e.clear, [origin]⟩).visits ↔
      e.Passes locked ∧ origin ∉ locked ∧ EachAfter (Visit.Apart (origin :: locked)) p.visits :=
    eachAfter_apart_visit
  by_cases he : e.Passes locked
  · rw [Effect.exit_pos he, Option.bind_some]
    by_cases ho : origin ∈ locked
    · rw [lockTree_of_mem ho, Option.bind_none]
      exact exit_neg deferred fun h => (hvisit.mp h).2.1 ho
    · rw [lockTree_of_notMem ho, Option.bind_some]
      by_cases hp : EachAfter (Visit.Apart (origin :: locked)) p.visits
      · rw [exit_pos _ hp, exit_pos deferred (hvisit.mpr ⟨he, ho, hp⟩)]
        simp [visit]
      · rw [exit_neg _ hp]
        exact exit_neg deferred fun h => hp (hvisit.mp h).2.2
  · rw [Effect.exit_neg he, Option.bind_none]
    exact exit_neg deferred fun h => he (hvisit.mp h).1

namespace Host

variable (C : Host A S)

theorem broadcast_eq (st : GossipState A S) (locked : List String) (b : A) :
    C.broadcast st locked b = (C.broadcastEffect st b).exit locked := by
  unfold broadcast Effect.exit Effect.Passes broadcastEffect
  simp only [List.forall_mem_singleton]
  by_cases hown : C.myAddr ∈ locked
  · simp [hown]
  · by_cases hquiet : (C.exec C.myAddr st.app b).outcome ≠ .blocked ∧
        (C.exec C.myAddr st.app b).broadcasts = []
    · simp [hown, hquiet]
    · rw [if_neg (fun h => hquiet h.1), lockTree_of_notMem hown, Option.bind_some, if_pos]
      by_contra hneither
      refine hquiet ⟨fun h => hneither (.inl h), ?_⟩
      simpa using fun h => hneither (.inr h)

theorem broadcastAll_eq (bs : List A) (st : GossipState A S) (locked : List String) :
    C.broadcastAll bs st locked = (C.broadcastsEffect bs st).exit locked := by
  induction bs generalizing st with
  | nil => simp [broadcastAll, broadcastsEffect, Effect.exit, Effect.Passes]
  | cons b bs ih =>
    have hcons : (C.broadcastsEffect (b :: bs) st).Passes locked ↔
        (C.broadcastEffect st b).Passes locked ∧
          (C.broadcastsEffect bs (C.broadcastEffect st b).state).Passes locked := by
      simp only [broadcastsEffect, Effect.Passes, List.forall_mem_append]
      tauto
    rw [broadcastAll, broadcast_eq]
    by_cases hb : (C.broadcastEffect st b).Passes locked
    · rw [Effect.exit_pos hb, Option.bind_some]
      apply (ih _).trans
      by_cases hbs : (C.broadcastsEffect bs (C.broadcastEffect st b).state).Passes locked
      · rw [Effect.exit_pos hbs, Effect.exit_pos (hcons.mpr ⟨hb, hbs⟩), broadcastsEffect]
      · rw [Effect.exit_neg hbs, Effect.exit_neg fun h => hbs (hcons.mp h).2]
    · rw [Effect.exit_neg hb, Option.bind_none, Effect.exit_neg fun h => hb (hcons.mp h).1]

mutual

/-- A call comes back exactly when it is clear and nothing it asks for is locked. It leaves the
mutexes as they were, and all else as if there were none. -/
theorem processPacket_eq (source : String) : (m : Message A) → (st : GossipState A S) →
    (locked : List String) → C.processPacket source m st locked =
      ((C.effect source m st).exit locked).map fun (st', locked) =>
        (st', locked, (C.effect source m st).ok)
  | .rumors rumors, st, locked => by
    have hpasses : (C.effect source (.rumors rumors) st).Passes locked ↔
        EachAfter (Visit.Apart locked) (C.passage source rumors st).visits := by
      rw [effect]
      exact (eachAfter_apart locked _).symm
    rw [processPacket, execRumors_eq source rumors st locked []]
    by_cases hfree : EachAfter (Visit.Apart locked) (C.passage source rumors st).visits
    · rw [Passage.exit_pos [] hfree, Effect.exit_pos (hpasses.mpr hfree), effect]
      simp only [Option.map_some, List.append_nil, foldl_erase_append]
    · rw [Passage.exit_neg [] hfree, Effect.exit_neg fun h => hfree (hpasses.mp h)]
      rfl
  | .privateMessage recipients none, st, locked => by
    simp [processPacket, effect, Effect.exit, Effect.Passes]
  | .privateMessage recipients (some m), st, locked => by
    rw [processPacket, effect]
    split_ifs
    · exact processPacket_eq source m st locked
    · simp [Effect.exit, Effect.Passes]
  | .prune msgHash, st, locked | .iHave msgHash, st, locked | .graft msgHash, st, locked => by
    rw [processPacket, effect, Effect.exit, Effect.Passes]
    by_cases ho : treeOf msgHash ∈ locked
    · simp [ho]
    · simp [ho]
  | .other m, st, locked => by
    have hpasses : (C.effect source (.other m) st).Passes locked ↔
        (C.exec source st.app m).outcome ≠ .blocked ∧ (C.broadcastsEffect
          (C.exec source st.app m).broadcasts { st with app := (C.exec source st.app m).app }).Passes
            locked := by
      rw [effect, Effect.Passes, Effect.Passes, and_assoc]
    rw [processPacket]
    by_cases hblocked : (C.exec source st.app m).outcome = .blocked
    · rw [if_pos hblocked, Effect.exit_neg fun h => (hpasses.mp h).1 hblocked]
      rfl
    · rw [if_neg hblocked, broadcastAll_eq]
      by_cases hsent : (C.broadcastsEffect (C.exec source st.app m).broadcasts
          { st with app := (C.exec source st.app m).app }).Passes locked
      · rw [Effect.exit_pos hsent, Effect.exit_pos (hpasses.mpr ⟨hblocked, hsent⟩), effect]
      · rw [Effect.exit_neg hsent, Effect.exit_neg fun h => hsent (hpasses.mp h).2]
        rfl

theorem execRumors_eq (source : String) : (rs : List (Rumor (Message A))) →
    (st : GossipState A S) → (locked deferred : List String) →
    C.execRumors source rs st locked deferred = (C.passage source rs st).exit locked deferred
  | [], st, locked, deferred => by
    simp [execRumors, passage, Passage.exit, eachAfter_nil]
  | ⟨origin, sequence, msg⟩ :: rs, st, locked, deferred => by
    rw [execRumors, passage]
    rcases st.rumorTable.tryToAcceptOrigin ⟨origin, sequence, msg⟩ with ⟨t, v⟩
    cases v with
    | future => exact execRumors_eq source rs _ locked deferred
    | prune =>
      have hnone : Effect.Passes (⟨st, true, [], True⟩ : Effect A S) locked := by
        simp [Effect.Passes]
      refine Eq.trans ?_ (Passage.exit_visit _ ⟨st, true, [], True⟩ origin locked deferred).symm
      rw [Effect.exit_pos hnone, Option.bind_some]
      apply Option.bind_congr
      intro locked _
      exact execRumors_eq source rs _ locked (origin :: deferred)
    | process =>
      cases msg with
      | none => simp [Passage.exit, eachAfter_apart_cons, eachAfter_nil]
      | some m =>
        simp only
        rw [processPacket_eq source m _ locked]
        set e := C.effect source m { st with rumorTable := t }
        split_ifs with hok
        · rw [Passage.exit_visit]
          by_cases he : e.Passes locked
          · rw [Effect.exit_pos he, Option.map_some, Option.bind_some, Option.bind_some, if_pos hok]
            apply Option.bind_congr
            intro locked _
            exact execRumors_eq source rs e.state locked (origin :: deferred)
          · rw [Effect.exit_neg he]
            rfl
        · have hvisit : EachAfter (Visit.Apart locked) [⟨e.trees, e.clear, []⟩] ↔
              e.Passes locked := by
            simp [eachAfter_apart_cons, eachAfter_nil, Effect.Passes]
          by_cases he : e.Passes locked
          · rw [Effect.exit_pos he, Passage.exit_pos deferred (hvisit.mpr he)]
            simp [hok]
          · rw [Effect.exit_neg he, Passage.exit_neg deferred fun h => he (hvisit.mp h)]
            rfl

end

/-- A packet never blocks its own handler, and leaves no tree locked, exactly when of the rumors
that are not answered "future" each is apart from those before it: neither its message nor its
origin needs a tree that is locked for one of them, and its message by itself comes back. -/
theorem execRumorMessage_returns_iff (source : String) (rumors : List (Rumor (Message A)))
    (st : GossipState A S) :
    (∃ st' ok, C.execRumorMessage source rumors st [] = some (st', [], ok)) ↔
      EachAfter (Visit.Apart []) (C.passage source rumors st).visits := by
  have hpasses : (C.effect source (.rumors rumors) st).Passes [] ↔
      EachAfter (Visit.Apart []) (C.passage source rumors st).visits := by
    simp [effect, Effect.Passes]
  rw [execRumorMessage, processPacket_eq, ← hpasses]
  by_cases h : (C.effect source (.rumors rumors) st).Passes []
  · simp [Effect.exit_pos h, h]
  · simp [Effect.exit_neg h, h]

def Quiet (source : String) (r : Rumor (Message A)) : Prop :=
  ∃ m, r.msg = some (.other m) ∧ ∀ app : S,
    (C.exec source app m).broadcasts = [] ∧ (C.exec source app m).outcome = .returned

theorem visits_of_quiet {source : String} {rumors : List (Rumor (Message A))}
    (h : ∀ r ∈ rumors, C.Quiet source r) (st : GossipState A S) :
    (C.passage source rumors st).visits =
      (st.rumorTable.taken rumors).map fun r => ⟨[], True, [r.origin]⟩ := by
  induction rumors generalizing st with
  | nil => rfl
  | cons r rs ih =>
    obtain ⟨origin, sequence, msg⟩ := r
    obtain ⟨m, rfl, hm⟩ := h _ List.mem_cons_self
    have hrest := fun st => ih (fun r hr => h r (List.mem_cons_of_mem _ hr)) st
    rw [passage, SafeRumorTable.taken]
    rcases st.rumorTable.tryToAcceptOrigin ⟨origin, sequence, _⟩ with ⟨t, v⟩
    cases v with
    | future => exact hrest _
    | prune => exact congrArg _ (hrest _)
    | process =>
      obtain ⟨hbroadcasts, hreturned⟩ := hm st.app
      simp [effect, hbroadcasts, hreturned, broadcastsEffect, Passage.visit, hrest]

/-- Where the messages are quiet, the packet passes exactly when no two of these rumors are of one
origin. -/
theorem execRumorMessage_quiet_iff {source : String} {rumors : List (Rumor (Message A))}
    (h : ∀ r ∈ rumors, C.Quiet source r) (st : GossipState A S) :
    (∃ st' ok, C.execRumorMessage source rumors st [] = some (st', [], ok)) ↔
      ((st.rumorTable.taken rumors).map Rumor.origin).Nodup := by
  rw [execRumorMessage_returns_iff, visits_of_quiet C h st]
  have hlocked : ∀ (rs : List (Rumor (Message A))) (locked : List String),
      EachAfter (Visit.Apart locked) (rs.map fun r => ⟨[], True, [r.origin]⟩) ↔
        (rs.map Rumor.origin).Nodup ∧ ∀ o ∈ rs.map Rumor.origin, o ∉ locked := by
    intro rs
    induction rs with
    | nil => simp [eachAfter_nil]
    | cons r rs ih =>
      intro locked
      rw [List.map_cons, eachAfter_apart_visit, ih, List.map_cons, List.nodup_cons,
        List.forall_mem_cons]
      simp only [List.mem_cons, not_or, List.not_mem_nil]
      grind
  simp [hlocked]

end Host

/-- Whether a handler broadcasts a message itself; a TLC is left to a goroutine. -/
def waitsFor : JobPortal.Message → Bool
  | .pbftTLC _ => false
  | .prePrepare _ | .prepare _ | .commit _ | .checkpoint _ => true

/-- The handlers of the PBFT messages. -/
def pbftHost (P : Primitives) (myAddr : String)
    (spare : SafeRumorTable (Message JobPortal.Message) → String → ℕ) :
    Host JobPortal.Message Node where
  myAddr := myAddr
  spare := spare
  exec _ n m :=
    let r := n.exec P m
    { app := r.node, broadcasts := r.sent.filter waitsFor, outcome := r.outcome }

theorem Host.broadcastsEffect_trees (C : Host A S) {bs : List A} {st : GossipState A S}
    {o : String} (h : o ∈ (C.broadcastsEffect bs st).trees) : o = C.myAddr := by
  induction bs generalizing st with
  | nil => exact absurd h List.not_mem_nil
  | cons b bs ih =>
    rcases List.mem_append.mp h with h | h
    · exact List.mem_singleton.mp h
    · exact ih h

/-- A handler broadcasts at most one message, which its own node ignores. -/
theorem sent_ignored {P : Primitives} {n : Node} {m : JobPortal.Message} {r : Handled}
    (h : n.Effect P m r) (haddr : n.pbft.addr = n.myAddr) :
    r.sent.filter waitsFor = [] ∨
      ∃ b, r.sent.filter waitsFor = [b] ∧ r.node.exec P b = { node := r.node } := by
  cases h with
  | idle same => exact .inl (by rw [same.sent, List.filter_nil])
  | @prePrepare pp _ _ _ =>
    refine .inr ⟨_, rfl, ?_⟩
    have hown : (n.prepareOf P pp).srcAddr = (n.storePrePrepare pp).myAddr := haddr
    simp only [Node.exec, Node.execPrepareMessage, Node.checked, hown, if_true]
  | @prepared pre _ _ =>
    refine .inr ⟨_, rfl, ?_⟩
    have hown : ((n.storePrepare pre).commitOf P pre).srcAddr =
        ((n.storePrepare pre).enterPrepared pre).myAddr := haddr
    simp only [Node.exec, Node.execCommitMessage, Node.checked, hown, if_true]
  | pbftTLC tlc =>
    obtain ⟨_, _, _, _, _, hsent⟩ := n.execPbftTLCMessage_frame P tlc
    refine .inl (List.filter_eq_nil_iff.mpr fun b hb => ?_)
    obtain ⟨t, rfl⟩ := hsent b hb
    simp [waitsFor]
  | conflict | prepare | commit | noPeers | committed | checkpoint => exact .inl rfl

/-- A node's own Prepares and Commits lead to no broadcast in turn, so a PBFT message needs its
node's tree and no other. -/
theorem pbft_effect (P : Primitives)
    (spare : SafeRumorTable (Message JobPortal.Message) → String → ℕ) (source : String)
    (st : GossipState JobPortal.Message Node) (haddr : st.app.pbft.addr = st.app.myAddr)
    (m : JobPortal.Message) :
    let e := (pbftHost P st.app.myAddr spare).effect source (.other m) st
    (e.clear ↔ (st.app.exec P m).outcome ≠ .blocked) ∧ ∀ o ∈ e.trees, o = st.app.myAddr := by
  refine ⟨?_, fun o ho => ?_⟩
  · rw [Host.effect]
    apply and_iff_left
    simp only [pbftHost]
    rcases sent_ignored (Node.exec_effect P st.app m) haddr with hsent | ⟨b, hsent, hquiet⟩
    · rw [hsent]
      trivial
    · simp [hsent, Host.broadcastsEffect, Host.broadcastEffect, hquiet]
  · rw [Host.effect] at ho
    exact Host.broadcastsEffect_trees _ ho

namespace Sample

def emptyHost : Host Unit Unit where
  myAddr := "b"
  spare _ _ := 0
  exec _ _ _ := ⟨(), [], .returned⟩

def twoRumors : List (Rumor (Message Unit)) :=
  [⟨"a", 1, some (.other ())⟩, ⟨"a", 2, some (.other ())⟩]

theorem twoRumors_blocked :
    ¬ ∃ st ok, emptyHost.execRumorMessage "a" twoRumors ⟨.new, ()⟩ [] = some (st, [], ok) := by
  have hblocked : (emptyHost.execRumorMessage "a" twoRumors ⟨.new, ()⟩ []).isNone = true := by
    decide
  rintro ⟨st, ok, h⟩
  rw [h] at hblocked
  cases hblocked

end Sample

end JobPortal.Gossip
