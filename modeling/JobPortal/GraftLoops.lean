import JobPortal.PlumTree

/-! The goroutines that ask for a rumor that was announced. One waits for the channel of its
message, which has to be closed once the node has the message, and can be closed once only. -/
namespace JobPortal.Gossip

open Runs

namespace PlumTree

variable {t t' : PlumTree} {e : PlumTreeEvent}

def closes (t : PlumTree) : PlumTreeEvent → String → Bool
  | .rumor msgHash _, h =>
    decide (h = msgHash) && !(t.computeIfAbsent h).receivedMsg && (t.computeIfAbsent h).requestGraft
  | _, _ => false

/-- What a step can do to the flags and the channel of a message. -/
inductive StatusEffect (old new : MsgStatus) (e : PlumTreeEvent) (h : String) : Prop
  | keeps (receivedMsg : new.receivedMsg = old.receivedMsg)
      (requestGraft : new.requestGraft = old.requestGraft)
      (received : new.received = old.received)
      (graftLoop : new.graftLoop.isSome → old.graftLoop.isSome)
  | arrives {source : String} (event : e = .rumor h source) (missing : old.receivedMsg = false)
      (new_eq : new = { old with receivedMsg := true, received := old.requestGraft })
  | makes {myAddr : String} (event : e = .broadcast h myAddr)
      (new_eq : new = { old with receivedMsg := true })
  | requests (missing : old.receivedMsg = false) (receivedMsg : new.receivedMsg = false)
      (requestGraft : new.requestGraft = true) (received : new.received = old.received)

theorem StatusEffect.of_setStatus {msgHash : String} {status : MsgStatus}
    (hmap : t'.msgMap = (t.setStatus msgHash status).msgMap)
    (hself : StatusEffect (t.computeIfAbsent msgHash) status e msgHash) (h : String) :
    StatusEffect (t.computeIfAbsent h) (t'.computeIfAbsent h) e h := by
  have hstatus : t'.computeIfAbsent h = if h = msgHash then status else t.computeIfAbsent h := by
    rw [← computeIfAbsent_setStatus, computeIfAbsent, hmap, computeIfAbsent]
  rw [hstatus]
  split_ifs with hh
  · exact hh ▸ hself
  · exact .keeps rfl rfl rfl id

theorem StatusEffect.of_msgMap (hmap : t'.msgMap = t.msgMap) (h : String) :
    StatusEffect (t.computeIfAbsent h) (t'.computeIfAbsent h) e h := by
  have hstatus : t'.computeIfAbsent h = t.computeIfAbsent h := by
    rw [computeIfAbsent, hmap, computeIfAbsent]
  rw [hstatus]
  exact .keeps rfl rfl rfl id

theorem step_status (hstep : t.step e = some t') (h : String) :
    StatusEffect (t.computeIfAbsent h) (t'.computeIfAbsent h) e h := by
  cases e with
  | rumor msgHash source =>
    obtain rfl := Option.some.inj hstep
    by_cases hreceived : (t.computeIfAbsent msgHash).receivedMsg = true
    · rw [execRumor, if_pos hreceived]
      exact .of_setStatus rfl (.keeps rfl rfl rfl id) h
    · rw [execRumor, if_neg hreceived]
      exact .of_setStatus rfl (.arrives rfl (Bool.eq_false_of_not_eq_true hreceived) rfl) h
  | broadcast msgHash myAddr =>
    obtain rfl := Option.some.inj hstep
    exact .of_setStatus rfl (.makes rfl rfl) h
  | iHave msgHash source =>
    obtain rfl := Option.some.inj hstep
    by_cases hreceived : (t.computeIfAbsent msgHash).receivedMsg = true
    · rw [execIHave, if_pos hreceived]
      exact .of_setStatus rfl (.keeps rfl rfl rfl id) h
    · rw [execIHave, if_neg hreceived]
      have hmissing := Bool.eq_false_of_not_eq_true hreceived
      refine .of_setStatus (t := t) rfl ?_ h
      exact .requests hmissing hmissing rfl rfl
  | graftRetry msgHash =>
    obtain ⟨index, hindex, hpeer⟩ := Option.bind_eq_some_iff.mp hstep
    obtain ⟨peer, _, rfl⟩ := Option.map_eq_some_iff.mp hpeer
    refine .of_setStatus (t := t) rfl ?_ h
    exact .keeps rfl rfl rfl fun _ => by rw [hindex, Option.isSome_some]
  | graftStop msgHash =>
    simp only [step, graftStop] at hstep
    split_ifs at hstep
    obtain rfl := Option.some.inj hstep
    refine .of_setStatus (t := t) rfl ?_ h
    exact .keeps rfl rfl rfl fun hnone => by cases hnone
  | prune source | graft source =>
    obtain rfl := Option.some.inj hstep
    exact .of_msgMap rfl h
  | sendIHave i =>
    obtain ⟨task, _, rfl⟩ := Option.map_eq_some_iff.mp hstep
    exact .of_msgMap rfl h

theorem computeIfAbsent_execRumor {msgHash source : String}
    (h : ¬ (t.computeIfAbsent msgHash).receivedMsg = true) :
    (t.execRumor msgHash source).computeIfAbsent msgHash = { t.computeIfAbsent msgHash with
      receivedMsg := true, received := (t.computeIfAbsent msgHash).requestGraft } := by
  rw [execRumor, if_neg h]
  exact (computeIfAbsent_setStatus t msgHash _ msgHash).trans (if_pos rfl)

theorem computeIfAbsent_broadcast (t : PlumTree) (msgHash myAddr : String) :
    (t.broadcast msgHash myAddr).computeIfAbsent msgHash =
      { t.computeIfAbsent msgHash with receivedMsg := true } :=
  (computeIfAbsent_setStatus t msgHash _ msgHash).trans (if_pos rfl)

theorem step_closes {h : String} (hcloses : t.closes e h = true) (hstep : t.step e = some t') :
    (t.computeIfAbsent h).receivedMsg = false ∧ (t'.computeIfAbsent h).received = true := by
  cases e with
  | rumor msgHash source =>
    obtain rfl := Option.some.inj hstep
    rw [closes, Bool.and_eq_true, Bool.and_eq_true, decide_eq_true_iff] at hcloses
    obtain ⟨⟨rfl, hmissing⟩, hrequested⟩ := hcloses
    have hreceived : ¬ (t.computeIfAbsent h).receivedMsg = true := by simpa using hmissing
    refine ⟨Bool.eq_false_of_not_eq_true hreceived, ?_⟩
    rw [computeIfAbsent_execRumor hreceived, hrequested]
  | broadcast | prune | iHave | graft | graftRetry | graftStop | sendIHave => cases hcloses

end PlumTree

/-- A tree, with how often the channel of each message was closed. -/
structure CountedTree where
  tree : PlumTree
  closed : String → ℕ

namespace CountedTree

def newPlumTree (neighbors : List String) : CountedTree := ⟨.newPlumTree neighbors, fun _ => 0⟩

def step (c : CountedTree) (e : PlumTreeEvent) : Option CountedTree :=
  (c.tree.step e).map fun t => ⟨t, fun h => c.closed h + (c.tree.closes e h).toNat⟩

/-- The channel of each message is closed at most once, and it is closed when the message is there
and a Graft was requested. -/
structure Settled (c : CountedTree) : Prop where
  once : ∀ h, c.closed h ≤ 1
  stops : ∀ h, (c.tree.computeIfAbsent h).receivedMsg → (c.tree.computeIfAbsent h).requestGraft →
    (c.tree.computeIfAbsent h).received

/-- A message that the node makes itself was not asked for before, unless it came in since. -/
def MakesUnrequested (c : CountedTree) : PlumTreeEvent → Prop
  | .broadcast msgHash _ => (c.tree.computeIfAbsent msgHash).requestGraft →
      (c.tree.computeIfAbsent msgHash).received
  | _ => True

variable {c d : CountedTree} {e : PlumTreeEvent}

/-- Only a rumor that is there had its channel closed, and a goroutine waits for a rumor only that
was asked for. -/
structure Counted (c : CountedTree) : Prop where
  closed : ∀ h, c.closed h = (c.tree.computeIfAbsent h).received.toNat
  there : ∀ h, (c.tree.computeIfAbsent h).received → (c.tree.computeIfAbsent h).receivedMsg
  requested : ∀ h, (c.tree.computeIfAbsent h).graftLoop.isSome →
    (c.tree.computeIfAbsent h).requestGraft

theorem counted_newPlumTree (neighbors : List String) : (newPlumTree neighbors).Counted := by
  constructor
  all_goals simp [newPlumTree, PlumTree.newPlumTree, PlumTree.computeIfAbsent, GoMap.at]

theorem Counted.step (hc : c.Counted) (hstep : c.step e = some d) : d.Counted := by
  obtain ⟨t, ht, rfl⟩ := Option.map_eq_some_iff.mp hstep
  refine ⟨fun h => ?_, fun h => ?_, fun h => ?_⟩
  all_goals
    have hclosed := hc.closed h
    have hthere := hc.there h
    have hrequested := hc.requested h
  · have hmissing : (c.tree.computeIfAbsent h).receivedMsg = false →
        (c.tree.computeIfAbsent h).received = false := fun hmissing =>
      Bool.eq_false_of_not_eq_true fun hreceived => by simp [hthere hreceived] at hmissing
    dsimp only
    by_cases hcloses : c.tree.closes e h = true
    · obtain ⟨hold, hnew⟩ := PlumTree.step_closes hcloses ht
      rw [hclosed, hcloses, hnew, hmissing hold]
      rfl
    · have hsame : (t.computeIfAbsent h).received = (c.tree.computeIfAbsent h).received := by
        cases PlumTree.step_status ht h with
        | keeps _ _ received | requests _ _ _ received => exact received
        | makes _ new_eq => rw [new_eq]
        | arrives event missing new_eq =>
          subst event
          simp [PlumTree.closes, missing] at hcloses
          rw [new_eq, hmissing missing, hcloses]
      rw [hclosed, hsame, Bool.eq_false_of_not_eq_true hcloses]
      rfl
  · cases PlumTree.step_status ht h with
    | keeps receivedMsg requestGraft received graftLoop => rwa [receivedMsg, received]
    | arrives event missing new_eq | makes event new_eq =>
      rw [new_eq]
      exact fun _ => rfl
    | requests missing receivedMsg requestGraft received =>
      rw [received]
      intro hreceived
      rw [hthere hreceived] at missing
      cases missing
  · cases PlumTree.step_status ht h with
    | keeps receivedMsg requestGraft received graftLoop =>
      exact fun hloop => requestGraft ▸ hrequested (graftLoop hloop)
    | arrives event missing new_eq | makes event new_eq => rwa [new_eq]
    | requests missing receivedMsg requestGraft received => exact fun _ => requestGraft

theorem counted_of_run {neighbors : List String} {es : List PlumTreeEvent}
    (h : AnyRun step (newPlumTree neighbors) es c) : c.Counted :=
  h.invariant (I := Counted) (counted_newPlumTree neighbors) fun hc _ hstep => hc.step hstep

/-- The goroutine of a message that is there can end. -/
theorem graftStop_isSome (hs : c.Settled) (hc : c.Counted) {h : String}
    (hreceived : (c.tree.computeIfAbsent h).receivedMsg)
    (hloop : (c.tree.computeIfAbsent h).graftLoop.isSome) :
    (c.tree.graftStop h).isSome := by
  have hclosed := hs.stops h hreceived (hc.requested h hloop)
  simp [PlumTree.graftStop, hclosed, hloop]

theorem settled_newPlumTree (neighbors : List String) : (newPlumTree neighbors).Settled := by
  constructor
  all_goals simp [newPlumTree, PlumTree.newPlumTree, PlumTree.computeIfAbsent, GoMap.at]

/-- Only a message that the node makes can leave a channel open. -/
theorem Settled.step_iff {c' : CountedTree} {e : PlumTreeEvent} (hs : c.Settled) (hc : c.Counted)
    (hstep : c.step e = some c') : c'.Settled ↔ c.MakesUnrequested e := by
  have hcounted := hc.step hstep
  have honce : ∀ h, c'.closed h ≤ 1 := fun h => by
    rw [hcounted.closed h]
    exact Bool.toNat_le _
  obtain ⟨t, ht, rfl⟩ := Option.map_eq_some_iff.mp hstep
  constructor
  · intro hnew
    cases e with
    | broadcast msgHash myAddr =>
      obtain rfl := Option.some.inj ht
      have hstops := hnew.stops msgHash
      dsimp only at hstops
      rw [PlumTree.computeIfAbsent_broadcast] at hstops
      exact hstops rfl
    | rumor | prune | iHave | graft | graftRetry | graftStop | sendIHave => trivial
  · intro hok
    refine ⟨honce, fun h => ?_⟩
    have hstops := hs.stops h
    dsimp only
    cases PlumTree.step_status ht h with
    | keeps receivedMsg requestGraft received => rwa [receivedMsg, requestGraft, received]
    | arrives event missing new_eq =>
      rw [new_eq]
      exact fun _ hrequested => hrequested
    | makes event new_eq =>
      subst event
      rw [new_eq]
      exact fun _ => hok
    | requests missing receivedMsg requestGraft received =>
      rw [receivedMsg]
      exact fun hreceived => by cases hreceived

/-- Every channel is closed in time in a run exactly when no message that the node makes was asked
for before. -/
theorem settled_iff_makesUnrequested {neighbors : List String} {es : List PlumTreeEvent}
    (h : AnyRun step (newPlumTree neighbors) es c) :
    Always step Settled (newPlumTree neighbors) es ↔
      Run step MakesUnrequested (newPlumTree neighbors) es c :=
  always_iff_run h (settled_newPlumTree neighbors) fun hrun hsettled hstep =>
    hsettled.step_iff (counted_of_run hrun) hstep

end CountedTree

namespace Sample

def announcedBefore : List PlumTreeEvent := [.iHave "A;1" "p", .broadcast "A;1" "A"]

def announcedFirst : List PlumTreeEvent := [.iHave "p;1" "q", .rumor "p;1" "p"]

theorem announcedBefore_isSome :
    (exec CountedTree.step (CountedTree.newPlumTree ["p"]) announcedBefore).isSome := by decide

theorem announcedFirst_isSome :
    (exec CountedTree.step (CountedTree.newPlumTree ["p"]) announcedFirst).isSome := by decide

/-- The goroutine that asks for the message of A goes on when A has it. -/
theorem graftLoop_counterexample :
    ¬ Always CountedTree.step CountedTree.Settled (CountedTree.newPlumTree ["p"])
        announcedBefore ∧
      ((exec CountedTree.step (CountedTree.newPlumTree ["p"]) announcedBefore).bind
        fun c => c.tree.graftRetry "A;1").isSome ∧
      ((exec CountedTree.step (CountedTree.newPlumTree ["p"]) announcedBefore).bind
        fun c => c.tree.graftStop "A;1").isNone := by
  refine ⟨fun hall => ?_, by decide, by decide⟩
  have hsettled := hall announcedBefore [] _ (List.append_nil _).symm
    (run_exec_get announcedBefore_isSome)
  exact absurd (hsettled.stops "A;1" (by decide) (by decide)) (by decide)

theorem settled_iff_makesUnrequested_announcedFirst :
    Always CountedTree.step CountedTree.Settled (CountedTree.newPlumTree ["p"]) announcedFirst ↔
      Run CountedTree.step CountedTree.MakesUnrequested (CountedTree.newPlumTree ["p"])
        announcedFirst ((exec CountedTree.step (CountedTree.newPlumTree ["p"]) announcedFirst).get
          announcedFirst_isSome) :=
  CountedTree.settled_iff_makesUnrequested (run_exec_get announcedFirst_isSome)

end Sample

end JobPortal.Gossip
