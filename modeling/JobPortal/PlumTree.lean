import JobPortal.PbftTypes
import JobPortal.Runs

/-! One tree of a node: the peers a rumor is pushed to at once and those it is announced to. The
announcement is made by a goroutine, which reads the second set at a time of its own. -/
namespace JobPortal.Gossip

open Runs

/-- No peer is in both sets. -/
structure PeerList where
  lazys : Finset String
  eagers : Finset String
  disjoint : ∀ p ∈ lazys, p ∉ eagers

namespace PeerList

def newPeerList (neighbors : List String) : PeerList := ⟨∅, neighbors.toFinset, by simp⟩

def moveToLazy (l : PeerList) (peer : String) : PeerList where
  lazys := insert peer l.lazys
  eagers := l.eagers.erase peer
  disjoint p hp := by
    have := l.disjoint p
    grind

def moveToEager (l : PeerList) (peer : String) : PeerList where
  lazys := l.lazys.erase peer
  eagers := insert peer l.eagers
  disjoint p hp := by
    have := l.disjoint p
    grind

def considerNewEagerPeer (l : PeerList) (peer : String) : PeerList where
  lazys := l.lazys
  eagers := if peer ∈ l.lazys then l.eagers else insert peer l.eagers
  disjoint p hp := by
    have := l.disjoint p hp
    grind

def considerNewLazyPeer (l : PeerList) (peer : String) : PeerList where
  lazys := if peer ∈ l.eagers then l.lazys else insert peer l.lazys
  eagers := l.eagers
  disjoint p hp := by
    have := l.disjoint p
    grind

end PeerList

structure MsgStatus where
  receivedMsg : Bool := false
  requestGraft : Bool := false
  lazyPeers : List String := []
  /-- The channel a graft loop waits for is closed. -/
  received : Bool := false
  /-- The peer the graft loop turns to next, while there is a loop. -/
  graftLoop : Option ℕ := none

/-- A goroutine that will announce a rumor. The peers of the tree when the rumor came in, those it
was pushed to, and the peers that were last moved to the eager set since then are noted down. -/
structure IHaveTask where
  msgHash : String
  source : String
  peers : PeerList
  pushed : Finset String
  grafted : Finset String := ∅

structure QueuedTask where
  task : IHaveTask
  list : Finset String

/-- Every other peer that was known when the rumor came in gets the rumor or its announcement. -/
def QueuedTask.Covers (q : QueuedTask) : Prop :=
  ∀ p, p ∈ q.task.peers.eagers ∨ p ∈ q.task.peers.lazys → p ≠ q.task.source →
    p ∈ q.task.pushed ∨ p ∈ q.list

structure PlumTree where
  peers : PeerList
  msgMap : GoMap String MsgStatus
  pending : List IHaveTask
  queued : List QueuedTask

inductive PlumTreeEvent
  | rumor (msgHash source : String)
  | broadcast (msgHash myAddr : String)
  | prune (source : String)
  | iHave (msgHash source : String)
  | graft (source : String)
  | graftRetry (msgHash : String)
  | graftStop (msgHash : String)
  | sendIHave (i : ℕ)
  deriving DecidableEq, Repr

namespace PlumTree

def newPlumTree (neighbors : List String) : PlumTree := ⟨.newPeerList neighbors, ∅, [], []⟩

variable (t : PlumTree)

def computeIfAbsent (msgHash : String) : MsgStatus := t.msgMap.at msgHash {}

def setStatus (msgHash : String) (status : MsgStatus) : PlumTree :=
  { t with msgMap := t.msgMap.insert msgHash status }

def moveToLazy (peer : String) : PlumTree :=
  { t with
    peers := t.peers.moveToLazy peer
    pending := t.pending.map fun task => { task with grafted := task.grafted.erase peer } }

def moveToEager (peer : String) : PlumTree :=
  { t with
    peers := t.peers.moveToEager peer
    pending := t.pending.map fun task => { task with grafted := insert peer task.grafted } }

/-- A rumor is pushed to the eager peers, and a goroutine is started to announce it. -/
def disseminate (msgHash source : String) (peers : PeerList) : PlumTree :=
  { t with
    peers := peers
    pending := t.pending ++ [⟨msgHash, source, t.peers, peers.eagers.erase source, ∅⟩] }

/-- The part of `ExecRumorMessage` with the tree locked, for a rumor that is not answered
"future". -/
def execRumor (msgHash source : String) : PlumTree :=
  let status := t.computeIfAbsent msgHash
  if status.receivedMsg then
    { t.setStatus msgHash status with peers := t.peers.considerNewLazyPeer source }
  else
    (t.setStatus msgHash { status with
      receivedMsg := true, received := status.requestGraft }).disseminate msgHash source
        (t.peers.considerNewEagerPeer source)

/-- The part of `Broadcast` with the tree locked. -/
def broadcast (msgHash myAddr : String) : PlumTree :=
  let status := t.computeIfAbsent msgHash
  (t.setStatus msgHash { status with receivedMsg := true }).disseminate msgHash myAddr t.peers

/-- The first announcement of a rumor that is missing starts a graft loop. -/
def execIHave (msgHash source : String) : PlumTree :=
  let status := t.computeIfAbsent msgHash
  if status.receivedMsg then t.setStatus msgHash status
  else
    t.setStatus msgHash { status with
      lazyPeers := status.lazyPeers ++ [source]
      requestGraft := true
      graftLoop := if status.requestGraft then status.graftLoop else some 0 }

def graftRetry (msgHash : String) : Option PlumTree :=
  let status := t.computeIfAbsent msgHash
  status.graftLoop.bind fun index =>
    let index := index % status.lazyPeers.length
    status.lazyPeers[index]?.map fun peer =>
      (t.moveToEager peer).setStatus msgHash { status with graftLoop := some (index + 1) }

def graftStop (msgHash : String) : Option PlumTree :=
  let status := t.computeIfAbsent msgHash
  if status.received ∧ status.graftLoop.isSome then
    some (t.setStatus msgHash { status with graftLoop := none })
  else none

def sendIHaveMsg (i : ℕ) : Option PlumTree :=
  t.pending[i]?.map fun task =>
    { t with pending := t.pending.eraseIdx i, queued := t.queued ++ [⟨task, t.peers.lazys⟩] }

def step : PlumTreeEvent → Option PlumTree
  | .rumor msgHash source => some (t.execRumor msgHash source)
  | .broadcast msgHash myAddr => some (t.broadcast msgHash myAddr)
  | .prune source => some (t.moveToLazy source)
  | .iHave msgHash source => some (t.execIHave msgHash source)
  | .graft source => some (t.moveToEager source)
  | .graftRetry msgHash => t.graftRetry msgHash
  | .graftStop msgHash => t.graftStop msgHash
  | .sendIHave i => t.sendIHaveMsg i

/-- When the lazy peers are read for an announcement, none that was lazy when the rumor came in was
last moved to the eager set. -/
def ReadsInTime : PlumTreeEvent → Prop
  | .sendIHave i => ∀ task, t.pending[i]? = some task →
      ∀ p ∈ task.peers.lazys, p ≠ task.source → p ∉ task.grafted
  | _ => True

inductive Effect (t t' : PlumTree) : PlumTreeEvent → Prop
  | keeps {e : PlumTreeEvent} (eagers : t.peers.eagers ⊆ t'.peers.eagers)
      (lazys : t.peers.lazys ⊆ t'.peers.lazys) (pending : t'.pending = t.pending)
      (queued : t'.queued = t.queued) : Effect t t' e
  | toLazy {e : PlumTreeEvent} (peer : String) (peers : t'.peers = (t.moveToLazy peer).peers)
      (pending : t'.pending = (t.moveToLazy peer).pending) (queued : t'.queued = t.queued) :
      Effect t t' e
  | toEager {e : PlumTreeEvent} (peer : String) (peers : t'.peers = (t.moveToEager peer).peers)
      (pending : t'.pending = (t.moveToEager peer).pending) (queued : t'.queued = t.queued) :
      Effect t t' e
  | disseminates {e : PlumTreeEvent} (msgHash source : String)
      (eagers : t.peers.eagers ⊆ t'.peers.eagers)
      (new : ∀ p ∈ t'.peers.eagers, p ∈ t.peers.eagers ∨ p = source)
      (lazys : t'.peers.lazys = t.peers.lazys)
      (pending : t'.pending =
        t.pending ++ [⟨msgHash, source, t.peers, t'.peers.eagers.erase source, ∅⟩])
      (queued : t'.queued = t.queued) : Effect t t' e
  | queues {i : ℕ} {task : IHaveTask} (task_at : t.pending[i]? = some task)
      (peers : t'.peers = t.peers) (pending : t'.pending = t.pending.eraseIdx i)
      (queued : t'.queued = t.queued ++ [⟨task, t.peers.lazys⟩]) : Effect t t' (.sendIHave i)

theorem computeIfAbsent_setStatus (msgHash : String) (status : MsgStatus)
    (other : String) : (t.setStatus msgHash status).computeIfAbsent other =
      if other = msgHash then status else t.computeIfAbsent other :=
  GoMap.at_insert _ _ _ _ _

variable {t} {t' : PlumTree} {e : PlumTreeEvent}

theorem Effect.setStatus (msgHash : String) (status : MsgStatus) :
    Effect t (t.setStatus msgHash status) e :=
  .keeps (Finset.Subset.refl _) (Finset.Subset.refl _) rfl rfl

theorem execRumor_effect (t : PlumTree) (msgHash source : String) :
    Effect t (t.execRumor msgHash source) e := by
  by_cases hreceived : (t.computeIfAbsent msgHash).receivedMsg = true
  · rw [execRumor, if_pos hreceived]
    refine .keeps (Finset.Subset.refl _) ?_ rfl rfl
    simp only [PeerList.considerNewLazyPeer]
    split_ifs
    · exact Finset.Subset.refl _
    · exact Finset.subset_insert _ _
  · rw [execRumor, if_neg hreceived]
    refine .disseminates msgHash source ?_ ?_ rfl rfl rfl
    · simp only [disseminate, PeerList.considerNewEagerPeer]
      split_ifs
      · exact Finset.Subset.refl _
      · exact Finset.subset_insert _ _
    · intro p hp
      simp only [disseminate, PeerList.considerNewEagerPeer] at hp
      split_ifs at hp
      · exact .inl hp
      · exact (Finset.mem_insert.mp hp).symm

theorem step_effect (h : t.step e = some t') : Effect t t' e := by
  cases e with
  | rumor msgHash source =>
    obtain rfl := Option.some.inj h
    exact execRumor_effect t msgHash source
  | broadcast msgHash myAddr =>
    obtain rfl := Option.some.inj h
    exact .disseminates msgHash myAddr (Finset.Subset.refl _) (fun p hp => .inl hp) rfl rfl rfl
  | prune source =>
    obtain rfl := Option.some.inj h
    exact .toLazy source rfl rfl rfl
  | iHave msgHash source =>
    obtain rfl := Option.some.inj h
    by_cases hreceived : (t.computeIfAbsent msgHash).receivedMsg = true
    · rw [execIHave, if_pos hreceived]
      exact .setStatus _ _
    · rw [execIHave, if_neg hreceived]
      exact .setStatus _ _
  | graft source =>
    obtain rfl := Option.some.inj h
    exact .toEager source rfl rfl rfl
  | graftRetry msgHash =>
    obtain ⟨index, _, hindex⟩ := Option.bind_eq_some_iff.mp h
    obtain ⟨peer, _, rfl⟩ := Option.map_eq_some_iff.mp hindex
    exact .toEager peer rfl rfl rfl
  | graftStop msgHash =>
    simp only [step, graftStop] at h
    split_ifs at h
    obtain rfl := Option.some.inj h
    exact .setStatus _ _
  | sendIHave i =>
    obtain ⟨task, hi, rfl⟩ := Option.map_eq_some_iff.mp h
    exact .queues hi rfl rfl rfl

structure Tracked (t : PlumTree) : Prop where
  pushed : ∀ task ∈ t.pending, ∀ p,
    p ∈ task.pushed ↔ p ∈ task.peers.eagers ∧ p ≠ task.source
  eager : ∀ task ∈ t.pending, ∀ p ∈ task.peers.lazys, p ∈ task.grafted → p ∈ t.peers.eagers
  lazy : ∀ task ∈ t.pending, ∀ p ∈ task.peers.lazys, p ∉ task.grafted → p ∈ t.peers.lazys

theorem tracked_newPlumTree (neighbors : List String) : (newPlumTree neighbors).Tracked := by
  constructor
  all_goals
    intro task htask
    cases htask

theorem Tracked.moveToLazy (h : t.Tracked) (peer : String) : (t.moveToLazy peer).Tracked := by
  refine ⟨?_, ?_, ?_⟩
  all_goals
    intro task htask
    obtain ⟨old, hold, rfl⟩ := List.mem_map.mp htask
  · exact h.pushed old hold
  · intro p hp hg
    obtain ⟨hne, hg⟩ := Finset.mem_erase.mp hg
    exact Finset.mem_erase.mpr ⟨hne, h.eager old hold p hp hg⟩
  · intro p hp hg
    by_cases hpeer : p = peer
    · exact hpeer ▸ Finset.mem_insert_self _ _
    · refine Finset.mem_insert_of_mem (h.lazy old hold p hp fun hin => hg ?_)
      exact Finset.mem_erase.mpr ⟨hpeer, hin⟩

theorem Tracked.moveToEager (h : t.Tracked) (peer : String) : (t.moveToEager peer).Tracked := by
  refine ⟨?_, ?_, ?_⟩
  all_goals
    intro task htask
    obtain ⟨old, hold, rfl⟩ := List.mem_map.mp htask
  · exact h.pushed old hold
  · intro p hp hg
    rcases Finset.mem_insert.mp hg with rfl | hg
    · exact Finset.mem_insert_self _ _
    · exact Finset.mem_insert_of_mem (h.eager old hold p hp hg)
  · intro p hp hg
    have hne : p ≠ peer := fun heq => hg (heq ▸ Finset.mem_insert_self _ _)
    refine Finset.mem_erase.mpr ⟨hne, h.lazy old hold p hp fun hin => hg ?_⟩
    exact Finset.mem_insert_of_mem hin

/-- The peers and the tasks to come are all that matters. -/
theorem Tracked.congr (h : t.Tracked) (hpeers : t'.peers = t.peers)
    (hpending : t'.pending = t.pending) : t'.Tracked := by
  refine ⟨?_, ?_, ?_⟩
  all_goals rw [hpending]
  · exact h.pushed
  · exact hpeers ▸ h.eager
  · exact hpeers ▸ h.lazy

theorem Tracked.step (h : t.Tracked) (hstep : t.step e = some t') : t'.Tracked := by
  cases step_effect hstep with
  | keeps eagers lazys pending =>
    refine ⟨?_, ?_, ?_⟩
    all_goals rw [pending]
    · exact h.pushed
    · exact fun task htask p hp hg => eagers (h.eager task htask p hp hg)
    · exact fun task htask p hp hg => lazys (h.lazy task htask p hp hg)
  | toLazy peer peers pending => exact (h.moveToLazy peer).congr peers pending
  | toEager peer peers pending => exact (h.moveToEager peer).congr peers pending
  | disseminates msgHash source eagers new lazys pending =>
    refine ⟨?_, ?_, ?_⟩
    all_goals
      rw [pending]
      intro task htask
      rcases List.mem_append.mp htask with htask | htask
    · exact h.pushed task htask
    · intro p
      rw [List.mem_singleton.mp htask]
      have := new p
      have := @eagers p
      grind
    · exact fun p hp hg => eagers (h.eager task htask p hp hg)
    · intro p hp hg
      rw [List.mem_singleton.mp htask] at hg
      exact absurd hg (Finset.notMem_empty p)
    · exact fun p hp hg => lazys.ge (h.lazy task htask p hp hg)
    · intro p hp _
      rw [List.mem_singleton.mp htask] at hp
      exact lazys.ge hp
  | @queues i task _ peers pending =>
    have hsub : ∀ other ∈ t'.pending, other ∈ t.pending := fun other hother =>
      List.mem_of_mem_eraseIdx (pending ▸ hother)
    refine ⟨fun other hother => h.pushed other (hsub other hother), ?_, ?_⟩
    · exact fun other hother => peers ▸ h.eager other (hsub other hother)
    · exact fun other hother => peers ▸ h.lazy other (hsub other hother)

theorem tracked_of_run {neighbors : List String} {es : List PlumTreeEvent}
    (h : AnyRun step (newPlumTree neighbors) es t) : t.Tracked :=
  h.invariant (I := Tracked) (tracked_newPlumTree neighbors) fun ht _ hstep => ht.step hstep

/-- What was lazy is announced if it still is. -/
theorem Tracked.covers_iff (h : t.Tracked) {task : IHaveTask} (htask : task ∈ t.pending) :
    QueuedTask.Covers ⟨task, t.peers.lazys⟩ ↔
      ∀ p ∈ task.peers.lazys, p ≠ task.source → p ∉ task.grafted := by
  constructor
  · intro hcovers p hp hne hg
    have hpushed : p ∉ task.pushed := fun hin =>
      task.peers.disjoint p hp ((h.pushed task htask p).mp hin).1
    have hlazy := (hcovers p (.inr hp) hne).resolve_left hpushed
    exact t.peers.disjoint p hlazy (h.eager task htask p hp hg)
  · intro hintime p hp hne
    rcases hp with hp | hp
    · exact .inl ((h.pushed task htask p).mpr ⟨hp, hne⟩)
    · exact .inr (h.lazy task htask p hp (hintime p hp hne))

/-- No known peer is skipped in a run exactly when all announcements are read in time. -/
theorem covers_iff_readsInTime {neighbors : List String} {es : List PlumTreeEvent}
    (h : AnyRun step (newPlumTree neighbors) es t) :
    Always step (fun t => ∀ q ∈ t.queued, q.Covers) (newPlumTree neighbors) es ↔
      Run step ReadsInTime (newPlumTree neighbors) es t := by
  apply always_iff_run h (fun q hq => by cases hq)
  intro es t u e hrun hcovers hstep
  cases e with
  | sendIHave i =>
    obtain ⟨task, hi, rfl⟩ := Option.map_eq_some_iff.mp hstep
    have hread := (tracked_of_run hrun).covers_iff (List.mem_of_getElem? hi)
    constructor
    · intro hall other hother
      obtain rfl := Option.some.inj (hi.symm.trans hother)
      exact hread.mp (hall _ (List.mem_append_right _ (List.mem_singleton_self _)))
    · intro hintime q hq
      rcases List.mem_append.mp hq with hq | hq
      · exact hcovers q hq
      · rw [List.mem_singleton.mp hq]
        exact hread.mpr (hintime task hi)
  | rumor | broadcast | prune | iHave | graft | graftRetry | graftStop =>
    have hqueued : u.queued = t.queued := by
      cases step_effect hstep
      all_goals assumption
    rw [hqueued]
    exact iff_of_true hcovers trivial

end PlumTree

namespace Sample

/-- Peer `p` is lazy when a rumor of `s` comes in, and sends a Graft before the announcement. -/
def graftBetween : List PlumTreeEvent :=
  [.prune "p", .rumor "a;1" "s", .graft "p", .sendIHave 0]

def graftAfter : List PlumTreeEvent :=
  [.prune "p", .rumor "a;1" "s", .sendIHave 0, .graft "p"]

theorem graftBetween_isSome :
    (exec PlumTree.step (PlumTree.newPlumTree ["p", "s"]) graftBetween).isSome := by
  decide

theorem graftAfter_isSome :
    (exec PlumTree.step (PlumTree.newPlumTree ["p", "s"]) graftAfter).isSome := by
  decide

/-- Peer `p` gets neither the rumor nor its announcement. -/
theorem dissemination_counterexample :
    AnyRun PlumTree.step (PlumTree.newPlumTree ["p", "s"]) graftBetween
        ((exec PlumTree.step (PlumTree.newPlumTree ["p", "s"]) graftBetween).get
          graftBetween_isSome) ∧
      ¬ ∀ q ∈ ((exec PlumTree.step (PlumTree.newPlumTree ["p", "s"]) graftBetween).get
          graftBetween_isSome).queued, q.Covers := by
  refine ⟨run_exec_get _, fun hall => ?_⟩
  have hskipped : ∃ q ∈ ((exec PlumTree.step (PlumTree.newPlumTree ["p", "s"]) graftBetween).get
      graftBetween_isSome).queued, "p" ∈ q.task.peers.lazys ∧ "p" ≠ q.task.source ∧
        "p" ∉ q.task.pushed ∧ "p" ∉ q.list := by
    decide
  obtain ⟨q, hq, hlazy, hsource, hpushed, hlist⟩ := hskipped
  exact (hall q hq "p" (.inr hlazy) hsource).elim hpushed hlist

theorem covers_iff_readsInTime_graftAfter :
    Always PlumTree.step (fun t => ∀ q ∈ t.queued, q.Covers) (PlumTree.newPlumTree ["p", "s"])
        graftAfter ↔
      Run PlumTree.step PlumTree.ReadsInTime (PlumTree.newPlumTree ["p", "s"]) graftAfter
        ((exec PlumTree.step (PlumTree.newPlumTree ["p", "s"]) graftAfter).get graftAfter_isSome) :=
  PlumTree.covers_iff_readsInTime (run_exec_get graftAfter_isSome)

end Sample

end JobPortal.Gossip
