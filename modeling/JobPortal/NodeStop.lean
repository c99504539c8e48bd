import JobPortal.NodeLoops

/-! When `Stop` returns. It waits for the goroutines one by one, and a goroutine that does not come
to the top of its loop again keeps it waiting for good. -/
namespace JobPortal.Daemons

open Goroutines Runs Transport
open Gossip (LazyQueue LazyEvent resendQueueSize)

variable {M : Type}

section Lazy

variable {cap : ℕ} {q q' : LazyQueue} {e : LazyEvent}

theorem sender_stopped_of_step (h : q.step cap e = some q') (hstopped : q.sender = .stopped) :
    q'.sender = .stopped := by
  cases LazyQueue.step_effect h with
  | keeps _ _ sender | put _ _ sender => exact sender.trans hstopped
  | take before | putBack _ before => cases hstopped.symm.trans before
  | leave _ _ sender => exact sender

theorem lazyQueueStop_of_step (h : q.step cap e = some q') (hother : e ≠ .stop) :
    q'.lazyQueueStop = q.lazyQueueStop := by
  cases e with
  | tick | sendIHaveMsg =>
    obtain rfl := Option.some.inj h
    rfl
  | put i =>
    simp only [LazyQueue.step] at h
    split_ifs at h
    obtain ⟨task, _, rfl⟩ := Option.map_eq_some_iff.mp h
    rfl
  | take =>
    simp only [LazyQueue.step] at h
    split at h
    · split_ifs at h
      all_goals
        obtain rfl := Option.some.inj h
        rfl
    · cases h
  | putBack | leave =>
    simp only [LazyQueue.step] at h
    split at h
    · split_ifs at h
      obtain rfl := Option.some.inj h
      rfl
    · cases h
  | stop => exact absurd rfl hother

end Lazy

namespace NodeLoops

/-- `Stop` has waited for these goroutines. -/
structure InOrder (n : NodeLoops M) : Prop where
  lazyStop : n.lazyQueue.lazyQueueStop = true ↔ 1 ≤ n.stopping.rank
  lazySender : 2 ≤ n.stopping.rank → n.lazyQueue.sender = .stopped
  processor : 3 ≤ n.stopping.rank → n.processor = .stopped
  receiver : 4 ≤ n.stopping.rank → n.receiver = .stopped
  sender : 5 ≤ n.stopping.rank → n.daemons .sender = .stopped
  regular : 6 ≤ n.stopping.rank →
    n.daemons .antiEntropy = .stopped ∧ n.daemons .heartbeat = .stopped

variable {n m : NodeLoops M} {e : LoopEvent}

theorem inOrder_start (conf : LoopConfig) (myAddr : String) :
    (start conf myAddr : NodeLoops M).InOrder := by
  constructor <;> simp [start, Stopping.rank]

theorem InOrder.stopNext (h : n.InOrder) (hnext : n.stopNext = some m) : m.InOrder := by
  obtain ⟨hlazy, hsender, hprocessor, hreceiver, hdaemon, hregular⟩ := h
  unfold NodeLoops.stopNext at hnext
  split at hnext
  · obtain ⟨q, hq, rfl⟩ := Option.map_eq_some_iff.mp hnext
    simp only [LazyQueue.step] at hq
    split_ifs at hq
    obtain rfl := Option.some.inj hq
    constructor <;> simp [Stopping.rank]
  · rename_i hstage
    split_ifs at hnext with hstopped
    obtain rfl := Option.some.inj hnext
    rw [hstage] at hlazy
    constructor <;> simp_all [Stopping.rank]
  · rename_i hstage
    split at hnext
    · rename_i hstopped
      obtain rfl := Option.some.inj hnext
      rw [hstage] at hlazy hsender
      constructor <;> simp_all [Stopping.rank]
    · cases hnext
  · rename_i hstage
    split at hnext
    · rename_i hstopped
      obtain rfl := Option.some.inj hnext
      rw [hstage] at hlazy hsender hprocessor
      constructor <;> simp_all [Stopping.rank]
    · cases hnext
  · rename_i hstage
    split_ifs at hnext with hstopped
    obtain rfl := Option.some.inj hnext
    rw [hstage] at hlazy hsender hprocessor hreceiver
    constructor <;> simp_all [Stopping.rank]
  · rename_i hstage
    split_ifs at hnext with hstopped
    obtain rfl := Option.some.inj hnext
    rw [hstage] at hlazy hsender hprocessor hreceiver hdaemon
    constructor <;> simp_all [Stopping.rank]
  · cases hnext

/-- A goroutine that has left its loop does not come back. -/
theorem InOrder.effect (h : n.InOrder) (heffect : Effect n e m) : m.InOrder := by
  cases heffect with
  | push hreceiver | relayReturns hreceiver | recvLeaves hreceiver =>
    refine ⟨h.lazyStop, h.lazySender, h.processor, fun hrank => ?_, h.sender, h.regular⟩
    cases hreceiver.symm.trans (h.receiver hrank)
  | take hprocessor | handlerHangs hprocessor | handlerReturns hprocessor
  | procLeaves hprocessor =>
    refine ⟨h.lazyStop, h.lazySender, fun hrank => ?_, h.receiver, h.sender, h.regular⟩
    cases hprocessor.symm.trans (h.processor hrank)
  | lazyQueue hother hstep =>
    exact ⟨by rw [lazyQueueStop_of_step hstep hother, h.lazyStop],
      fun hrank => sender_stopped_of_step hstep (h.lazySender hrank), h.processor, h.receiver,
      h.sender, h.regular⟩
  | @daemon _ d pc hon =>
    have hkeep : ∀ d', n.daemons d' = .stopped → Function.update n.daemons d pc d' = .stopped := by
      intro d' hd'
      rw [Function.update_of_ne (fun heq : d' = d => hon (heq ▸ hd')), hd']
    exact ⟨h.lazyStop, h.lazySender, h.processor, h.receiver, fun hrank => hkeep _ (h.sender hrank),
      fun hrank => (h.regular hrank).imp (hkeep _) (hkeep _)⟩
  | stop hnext => exact h.stopNext hnext

/-- A goroutine is in a call that does not return, or waits on the channel it reads itself. -/
inductive Hung (n : NodeLoops M) : Prop
  | lazySender (h : n.lazyQueue.BlockedForever resendQueueSize)
  | handler {pkt : Packet M} (h : n.processor = .processing pkt true)
  | turn {d : Daemon} (h : n.daemons d = .turning true)

/-- `procQueue` is full, and nobody takes a packet out of it any more. -/
structure Full (n : NodeLoops M) : Prop where
  gone : n.processor = .stopped
  full : procQueueSize ≤ n.procQueue.length

theorem Hung.effect (h : n.Hung) (heffect : Effect n e m) : m.Hung := by
  cases h with
  | lazySender hlazy =>
    obtain ⟨⟨task, hsender⟩, hfull⟩ := LazyQueue.blockedForever_iff.mp hlazy
    refine .lazySender (LazyQueue.blockedForever_iff.mpr ?_)
    cases heffect with
    | push | relayReturns | recvLeaves | take | handlerHangs | handlerReturns | procLeaves
    | daemon => exact ⟨⟨task, hsender⟩, hfull⟩
    | lazyQueue _ hstep =>
      obtain ⟨hsender', hfull'⟩ := LazyQueue.full_of_step hsender hfull hstep
      exact ⟨⟨task, hsender'⟩, hfull'⟩
    | stop hnext =>
      obtain ⟨_, _, rfl, hsender', hqueue'⟩ := stopNext_keeps hnext
      exact ⟨⟨task, hsender'.trans hsender⟩, hqueue' ▸ hfull⟩
  | @handler pkt hhandler =>
    cases heffect with
    | push | relayReturns | recvLeaves | lazyQueue | daemon => exact .handler hhandler
    | take hprocessor | handlerReturns hprocessor | procLeaves hprocessor =>
      cases hhandler.symm.trans hprocessor
    | handlerHangs => exact .handler rfl
    | stop hnext =>
      obtain ⟨_, _, rfl, _⟩ := stopNext_keeps hnext
      exact .handler hhandler
  | @turn d hturn =>
    cases heffect with
    | push | relayReturns | recvLeaves | take | handlerHangs | handlerReturns | procLeaves
    | lazyQueue => exact .turn hturn
    | @daemon _ d' pc _ hhangs =>
      refine .turn (d := d) ?_
      by_cases hd : d = d'
      · subst hd
        exact (Function.update_self ..).trans (hhangs hturn)
      · exact (Function.update_of_ne hd ..).trans hturn
    | stop hnext =>
      obtain ⟨_, _, rfl, _⟩ := stopNext_keeps hnext
      exact .turn hturn

/-- With nobody to take from it, a full queue stays as it is, and who waits to put something in goes
on waiting. -/
theorem Full.effect (h : n.Full) (heffect : Effect n e m) :
    m.Full ∧ ∀ pkt, n.receiver = .holding pkt → m.receiver = .holding pkt := by
  cases heffect with
  | push _ hroom => exact absurd hroom (Nat.not_lt.mpr h.full)
  | relayReturns hreceiver | recvLeaves hreceiver =>
    exact ⟨⟨h.gone, h.full⟩, fun pkt hpkt => by cases hreceiver.symm.trans hpkt⟩
  | take hprocessor | handlerHangs hprocessor | handlerReturns hprocessor
  | procLeaves hprocessor => cases hprocessor.symm.trans h.gone
  | lazyQueue | daemon => exact ⟨⟨h.gone, h.full⟩, fun pkt hpkt => hpkt⟩
  | stop hnext =>
    obtain ⟨_, _, rfl, _⟩ := stopNext_keeps hnext
    exact ⟨⟨h.gone, h.full⟩, fun pkt hpkt => hpkt⟩

theorem InOrder.not_hung (h : n.InOrder) (hreturned : n.stopping = .returned) : ¬ n.Hung := by
  have hrank : n.stopping.rank = 6 := by rw [hreturned]; rfl
  rintro (hlazy | hhandler | @⟨d, hturn⟩)
  · obtain ⟨⟨task, hsender⟩, _⟩ := LazyQueue.blockedForever_iff.mp hlazy
    cases hsender.symm.trans (h.lazySender (by omega))
  · cases hhandler.symm.trans (h.processor (by omega))
  · cases d with
    | sender => cases hturn.symm.trans (h.sender (by omega))
    | antiEntropy => cases hturn.symm.trans (h.regular (by omega)).1
    | heartbeat => cases hturn.symm.trans (h.regular (by omega)).2

end NodeLoops

namespace LoopNetwork

variable {g g' : LoopNetwork M} {s : ℕ} {n m : NodeLoops M} {e : NetworkEvent M}

/-- `Receiver` has a packet for `procQueue`, or will have it when `Recv` returns. -/
def Carries (s : ℕ) (g : LoopNetwork M) (n : NodeLoops M) : Prop :=
  (∃ pkt, n.receiver = .holding pkt) ∨
    n.receiver = .receiving ∧
      ∃ pkt, .received s pkt ∈ g.transport.calls ∧ forAddr n.myAddr pkt = true

/-- A goroutine of the node does not come to the top of its loop again. -/
def Jammed (s : ℕ) (g : LoopNetwork M) (n : NodeLoops M) : Prop :=
  n.Hung ∨ n.Full ∧ Carries s g n

theorem Matched.eq_of_recvsOn (h : Matched s g n) (hreceiver : n.receiver = .receiving) {j : ℕ}
    {call call' : SocketCall M} (hj : g.transport.calls[j]? = some call) (hon : call.RecvsOn s)
    (hmem : call' ∈ g.transport.calls) (hon' : call'.RecvsOn s) : call' = call := by
  have hone := h.calls
  rw [hreceiver] at hone
  have hnone := countP_eraseIdx hj hon hone
  obtain ⟨l, r, hcalls, _, herase⟩ := exists_split hj
  rw [hcalls, List.mem_append, List.mem_cons] at hmem
  rw [herase] at hnone
  by_contra hne
  have hlr : call' ∈ l ++ r := List.mem_append.mpr (hmem.imp_right (·.resolve_left hne))
  exact List.countP_eq_zero.mp hnone call' hlr (decide_eq_true hon')

theorem Jammed.touch (hmatched : Matched s g n) (h : Jammed s g n) (htouch : Touch s n g g')
    (hm : g'.nodes s = some m) : Jammed s g' m := by
  cases htouch with
  | apart hapart hstep hnode =>
    obtain rfl := Option.some.inj (hnode.symm.trans hm)
    refine h.imp_right (And.imp_right (Or.imp_right (And.imp_right ?_)))
    rintro ⟨pkt, hmem, hfor⟩
    exact ⟨pkt, (ChannelTransport.step_effect hstep).received hapart hmem, hfor⟩
  | still htransport hnode =>
    obtain rfl := Option.some.inj (hnode.symm.trans hm)
    rwa [Jammed, Carries, htransport]
  | @loop _ m' heffect htransport hnode =>
    obtain rfl := Option.some.inj (hnode.symm.trans hm)
    rcases h with hhung | ⟨hfull, hcarries⟩
    · exact .inl (hhung.effect heffect)
    · obtain ⟨hfull', hholding⟩ := hfull.effect heffect
      refine .inr ⟨hfull', ?_⟩
      rcases hcarries with ⟨pkt, hpkt⟩ | ⟨hreceiver, hheld⟩
      · exact .inl ⟨pkt, hholding pkt hpkt⟩
      · obtain ⟨haddr, _, _, hcalls⟩ := heffect.keeps
        rw [hreceiver] at hcalls
        refine .inr ⟨?_, by rwa [htransport, haddr]⟩
        cases hm' : m'.receiver with
        | receiving => rfl
        | polling | holding | relaying | stopped =>
          rw [hm'] at hcalls
          cases hcalls
  | recv hreceiver _ hstep hnode =>
    obtain rfl := Option.some.inj (hnode.symm.trans hm)
    rcases h with (hlazy | hhandler | hturn) | ⟨_, ⟨pkt, hpkt⟩ | ⟨hpkt, _⟩⟩
    · exact .inl (.lazySender hlazy)
    · exact .inl (.handler hhandler)
    · exact .inl (.turn hturn)
    · cases hreceiver.symm.trans hpkt
    · cases hreceiver.symm.trans hpkt
  | @timedOut j c hreceiver hj hstep hnode =>
    obtain rfl := Option.some.inj (hnode.symm.trans hm)
    rcases h with (hlazy | hhandler | hturn) | ⟨_, ⟨pkt, hpkt⟩ | ⟨_, pkt, hmem, _⟩⟩
    · exact .inl (.lazySender hlazy)
    · exact .inl (.handler hhandler)
    · exact .inl (.turn hturn)
    · cases hreceiver.symm.trans hpkt
    · cases hmatched.eq_of_recvsOn hreceiver hj rfl hmem rfl
  | @received j pkt' hreceiver hj hstep hnode =>
    obtain rfl := Option.some.inj (hnode.symm.trans hm)
    rcases h with hhung | ⟨hfull, ⟨pkt, hpkt⟩ | ⟨_, pkt, hmem, hfor⟩⟩
    · left
      unfold NodeLoops.accept
      split_ifs
      · rcases hhung with hlazy | hhandler | hturn
        exacts [.lazySender hlazy, .handler hhandler, .turn hturn]
      · rcases hhung with hlazy | hhandler | hturn
        exacts [.lazySender hlazy, .handler hhandler, .turn hturn]
    · cases hreceiver.symm.trans hpkt
    · cases hmatched.eq_of_recvsOn hreceiver hj rfl hmem rfl
      rw [NodeLoops.accept, if_pos (of_decide_eq_true hfor)]
      exact .inr ⟨⟨hfull.gone, hfull.full⟩, .inl ⟨pkt', rfl⟩⟩

end LoopNetwork

namespace ReceiverPC

/-- An upper bound for the steps of `Receiver`, with what they put into `procQueue`. -/
def left : ReceiverPC M → ℕ
  | .receiving => 6
  | .holding _ => 5
  | .relaying _ => 2
  | .polling => 1
  | .stopped => 0

end ReceiverPC

def ProcessorPC.left : ProcessorPC M → ℕ
  | .processing .. => 2
  | .polling => 1
  | .stopped => 0

def DaemonPC.left : DaemonPC → ℕ
  | .turning _ => 2
  | .polling => 1
  | .stopped => 0

def lazyLeft (q : LazyQueue) : ℕ :=
  match q.sender with
  | .sending _ => 4
  | .pausing since => 1 + (since + 2 - q.now)
  | .stopped => 0

namespace NodeLoops

def left (n : NodeLoops M) : ℕ :=
  (6 - n.stopping.rank) + n.receiver.left + 3 * n.procQueue.length + n.processor.left +
    lazyLeft n.lazyQueue + (n.daemons .sender).left + (n.daemons .antiEntropy).left +
    (n.daemons .heartbeat).left

def Advances (n : NodeLoops M) : Prop :=
  ∃ e m, n.step e = some m ∧ m.left < n.left ∧ ¬ m.Hung ∧
    (∀ pkt, m.receiver = .holding pkt → ¬ m.Full) ∧ m.receiver ≠ .receiving

variable {n m : NodeLoops M}

theorem not_hung_iff : ¬ n.Hung ↔ ¬ n.lazyQueue.BlockedForever resendQueueSize ∧
    (∀ pkt, n.processor ≠ .processing pkt true) ∧ ∀ d, n.daemons d ≠ .turning true := by
  constructor
  · intro h
    exact ⟨fun hlazy => h (.lazySender hlazy), fun pkt hhandler => h (.handler hhandler),
      fun d hturn => h (.turn hturn)⟩
  · rintro ⟨hlazy, hhandler, hturn⟩ (h | h | h)
    exacts [hlazy h, hhandler _ h, hturn _ h]

theorem not_hung_receiver (h : ¬ n.Hung) (pc : ReceiverPC M) :
    ¬ ({ n with receiver := pc } : NodeLoops M).Hung := by
  obtain ⟨hlazy, hhandler, hturn⟩ := not_hung_iff.mp h
  exact not_hung_iff.mpr ⟨hlazy, hhandler, hturn⟩

theorem not_blocked_of_pausing {q : LazyQueue} {since : ℕ} (h : q.sender = .pausing since) :
    ¬ q.BlockedForever resendQueueSize := by
  rintro ⟨task, hsender, _⟩
  cases h.symm.trans hsender

theorem advances_of_holding (h : ¬ n.Hung) {pkt : Packet M} (hpkt : n.receiver = .holding pkt)
    (hfull : ¬ n.Full) : n.Advances := by
  obtain ⟨hlazy, hhandler, hturn⟩ := not_hung_iff.mp h
  by_cases hroom : n.procQueue.length < procQueueSize
  · refine ⟨.push, { n with procQueue := n.procQueue ++ [pkt], receiver := .polling }, ?_, ?_, ?_,
      by simp, by simp⟩
    · simp only [step, hpkt, if_pos hroom]
    · simp only [left, hpkt, ReceiverPC.left, List.length_append, List.length_singleton]
      omega
    · exact not_hung_iff.mpr ⟨hlazy, hhandler, hturn⟩
  · cases hprocessor : n.processor with
    | polling =>
      cases hqueue : n.procQueue with
      | nil =>
        rw [hqueue] at hroom
        exact absurd (show 0 < procQueueSize by decide) hroom
      | cons first rest =>
        refine ⟨.take, { n with procQueue := rest, processor := .processing first false }, ?_, ?_,
          ?_, fun _ _ hm => ?_, ?_⟩
        · simp only [step, hprocessor, hqueue]
        · simp only [left, hprocessor, hqueue, ProcessorPC.left, List.length_cons]
          omega
        · exact not_hung_iff.mpr ⟨hlazy, by simp, hturn⟩
        · cases hm.gone
        · simp [hpkt]
    | processing pkt' hangs =>
      cases hangs with
      | true => exact absurd hprocessor (hhandler pkt')
      | false =>
        refine ⟨.handlerReturns, { n with
          processor := .polling, processed := n.processed ++ [pkt'] }, ?_, ?_, ?_,
          fun _ _ hm => ?_, ?_⟩
        · simp only [step, hprocessor]
        · simp only [left, hprocessor, ProcessorPC.left]
          omega
        · exact not_hung_iff.mpr ⟨hlazy, by simp, hturn⟩
        · cases hm.gone
        · simp [hpkt]
    | stopped => exact absurd ⟨hprocessor, Nat.not_lt.mp hroom⟩ hfull

theorem advances_of_relaying (h : ¬ n.Hung) {pkt : Packet M}
    (hpkt : n.receiver = .relaying pkt) : n.Advances := by
  obtain ⟨hlazy, hhandler, hturn⟩ := not_hung_iff.mp h
  refine ⟨.relayReturns, { n with receiver := .polling, relayed := n.relayed ++ [pkt] }, ?_, ?_,
    not_hung_iff.mpr ⟨hlazy, hhandler, hturn⟩, nofun, nofun⟩
  · simp only [step, hpkt]
  · simp only [left, hpkt, ReceiverPC.left]
    omega

def Idle (n : NodeLoops M) : Prop := n.receiver = .polling ∨ n.receiver = .stopped

theorem Idle.holds (h : n.Idle) (hm : m.receiver = n.receiver) :
    (∀ pkt, m.receiver = .holding pkt → ¬ m.Full) ∧ m.receiver ≠ .receiving := by
  rw [hm]
  rcases h with h | h
  · rw [h]
    exact ⟨nofun, nofun⟩
  · rw [h]
    exact ⟨nofun, nofun⟩

theorem advances_of_stopNext (h : ¬ n.Hung) (hidle : n.Idle) (stopping : Stopping)
    (lazyQueue : LazyQueue) (hnext : n.stopNext =
      some { n with stopping := stopping, lazyQueue := lazyQueue })
    (hrank : n.stopping.rank < stopping.rank) (hsix : stopping.rank ≤ 6)
    (hsender : lazyQueue.sender = n.lazyQueue.sender) (hnow : lazyQueue.now = n.lazyQueue.now)
    (hqueue : lazyQueue.queue = n.lazyQueue.queue) : n.Advances := by
  obtain ⟨hlazy, hhandler, hturn⟩ := not_hung_iff.mp h
  refine ⟨if n.stopping = .running then .stop else .stopped,
    { n with stopping := stopping, lazyQueue := lazyQueue }, ?_, ?_,
    not_hung_iff.mpr ⟨?_, hhandler, hturn⟩, hidle.holds rfl⟩
  · split_ifs with hrunning
    · exact (if_pos hrunning).trans hnext
    · exact (if_neg hrunning).trans hnext
  · have hleft : lazyLeft lazyQueue = lazyLeft n.lazyQueue := by
      rw [lazyLeft, lazyLeft, hsender, hnow]
    simp only [left, hleft]
    omega
  · rw [LazyQueue.blockedForever_iff] at hlazy ⊢
    rwa [hsender, hqueue]

theorem advances_lazySender (h : ¬ n.Hung) (hidle : n.Idle)
    (hstop : n.lazyQueue.lazyQueueStop = true) (hsender : n.lazyQueue.sender ≠ .stopped) :
    n.Advances := by
  obtain ⟨hlazy, hhandler, hturn⟩ := not_hung_iff.mp h
  have hadvance : ∀ (e : LazyEvent) (q : LazyQueue), e ≠ .stop →
      n.lazyQueue.step resendQueueSize e = some q → lazyLeft q < lazyLeft n.lazyQueue →
      ¬ q.BlockedForever resendQueueSize → n.Advances := by
    intro e q hother hstep hless hfree
    refine ⟨.lazyQueue e, { n with lazyQueue := q }, ?_, ?_,
      not_hung_iff.mpr ⟨hfree, hhandler, hturn⟩, hidle.holds rfl⟩
    · simp only [step, if_neg hother, hstep, Option.map_some]
    · simp only [left]
      omega
  cases hpc : n.lazyQueue.sender with
  | stopped => exact absurd hpc hsender
  | sending task =>
    have hroom : n.lazyQueue.queue.length < resendQueueSize := by
      by_contra hfull
      exact hlazy (LazyQueue.blockedForever_iff.mpr ⟨⟨task, hpc⟩, Nat.not_lt.mp hfull⟩)
    refine hadvance .putBack { n.lazyQueue with
      queue := n.lazyQueue.queue ++ [task], sender := .pausing n.lazyQueue.now } (by simp) ?_ ?_
      (not_blocked_of_pausing rfl)
    · simp only [LazyQueue.step, hpc, if_pos hroom]
    · simp only [lazyLeft, hpc]
      omega
  | pausing since =>
    by_cases hdone : since + 2 ≤ n.lazyQueue.now
    · refine hadvance .leave { n.lazyQueue with sender := .stopped } (by simp) ?_ ?_ ?_
      · simp only [LazyQueue.step, hpc, hdone, hstop, and_self, if_true]
      · simp only [lazyLeft, hpc]
        omega
      · rintro ⟨task, hsending, _⟩
        cases hsending
    · refine hadvance .tick { n.lazyQueue with now := n.lazyQueue.now + 1 } (by simp) rfl ?_
        (not_blocked_of_pausing hpc)
      simp only [lazyLeft, hpc]
      omega

theorem left_turn {d : Daemon} {pc : DaemonPC} (h : pc.left < (n.daemons d).left) :
    (n.turn d pc).left < n.left := by
  cases d with
  | sender | antiEntropy | heartbeat =>
    simp only [left, turn, Function.update_self, ne_eq, reduceCtorEq, not_false_eq_true,
      Function.update_of_ne]
    omega

theorem advances_daemon (h : ¬ n.Hung) (hidle : n.Idle) {d : Daemon}
    (hstop : n.stopping.daemonStop d) (hon : n.daemons d ≠ .stopped) : n.Advances := by
  obtain ⟨hlazy, hhandler, hturn⟩ := not_hung_iff.mp h
  have hkeep : ∀ pc ≠ DaemonPC.turning true, ¬ (n.turn d pc).Hung := by
    intro pc hpc
    refine not_hung_iff.mpr ⟨hlazy, hhandler, fun d' => ?_⟩
    show Function.update n.daemons d pc d' ≠ _
    by_cases hd : d' = d
    · rw [hd, Function.update_self]
      exact hpc
    · rw [Function.update_of_ne hd]
      exact hturn d'
  cases hpc : n.daemons d with
  | stopped => exact absurd hpc hon
  | polling =>
    refine ⟨.daemonLeaves d, n.turn d .stopped, if_pos ⟨hpc, hstop⟩, left_turn ?_, hkeep _ nofun,
      hidle.holds rfl⟩
    rw [hpc]
    exact Nat.zero_lt_one
  | turning hangs =>
    cases hangs with
    | true => exact absurd hpc (hturn d)
    | false =>
      refine ⟨.turnReturns d, n.turn d .polling, if_pos hpc, left_turn ?_, hkeep _ nofun,
        hidle.holds rfl⟩
      rw [hpc]
      exact Nat.one_lt_two

theorem advances_processor (h : ¬ n.Hung) (hidle : n.Idle) (hstop : n.stopping.procStop)
    (hon : n.processor ≠ .stopped) : n.Advances := by
  obtain ⟨hlazy, hhandler, hturn⟩ := not_hung_iff.mp h
  cases hpc : n.processor with
  | stopped => exact absurd hpc hon
  | polling =>
    refine ⟨.procLeaves, { n with processor := .stopped }, ?_, ?_,
      not_hung_iff.mpr ⟨hlazy, by simp, hturn⟩, hidle.holds rfl⟩
    · simp only [step, hpc, if_pos hstop]
    · simp only [left, hpc, ProcessorPC.left]
      omega
  | processing pkt hangs =>
    cases hangs with
    | true => exact absurd hpc (hhandler pkt)
    | false =>
      refine ⟨.handlerReturns, { n with
        processor := .polling, processed := n.processed ++ [pkt] }, ?_, ?_,
        not_hung_iff.mpr ⟨hlazy, by simp, hturn⟩, hidle.holds rfl⟩
      · simp only [step, hpc]
      · simp only [left, hpc, ProcessorPC.left]
        omega

theorem advances_recvLeaves (h : ¬ n.Hung) (hpolling : n.receiver = .polling)
    (hstop : n.stopping.recvStop) : n.Advances := by
  obtain ⟨hlazy, hhandler, hturn⟩ := not_hung_iff.mp h
  refine ⟨.recvLeaves, { n with receiver := .stopped }, ?_, ?_,
    not_hung_iff.mpr ⟨hlazy, hhandler, hturn⟩, nofun, nofun⟩
  · simp only [step, hpolling, if_pos hstop]
  · simp only [left, hpolling, ReceiverPC.left]
    omega

/-- As long as `Stop` has not returned and nobody is stuck, some goroutine can go on. -/
theorem InOrder.advances (h : n.InOrder) (hhung : ¬ n.Hung) (hreturned : n.stopping ≠ .returned)
    (hreceiver : n.receiver ≠ .receiving) (hfull : ∀ pkt, n.receiver = .holding pkt → ¬ n.Full) :
    n.Advances := by
  cases hpc : n.receiver with
  | receiving => exact absurd hpc hreceiver
  | holding pkt => exact advances_of_holding hhung hpc (hfull pkt hpc)
  | relaying pkt => exact advances_of_relaying hhung hpc
  | polling | stopped =>
    have hidle : n.Idle := by simp [Idle, hpc]
    have hlazyStop := h.lazyStop
    cases hstage : n.stopping with
    | running =>
      rw [hstage] at hlazyStop
      have hopen : n.lazyQueue.lazyQueueStop = false := by simpa [Stopping.rank] using hlazyStop
      refine advances_of_stopNext hhung hidle .lazySender
        { n.lazyQueue with lazyQueueStop := true } ?_ ?_ ?_
        rfl rfl rfl
      all_goals simp [NodeLoops.stopNext, LazyQueue.step, hstage, hopen, Stopping.rank]
    | lazySender =>
      rw [hstage] at hlazyStop
      by_cases hpc : n.lazyQueue.sender = .stopped
      · refine advances_of_stopNext hhung hidle .processor n.lazyQueue ?_ ?_ ?_
          rfl rfl rfl
        all_goals simp [NodeLoops.stopNext, hstage, hpc, Stopping.rank]
      · exact advances_lazySender hhung hidle (hlazyStop.mpr (Nat.le_refl 1)) hpc
    | processor =>
      by_cases hpc : n.processor = .stopped
      · refine advances_of_stopNext hhung hidle .receiver n.lazyQueue ?_ ?_ ?_
          rfl rfl rfl
        all_goals simp [NodeLoops.stopNext, hstage, hpc, Stopping.rank]
      · exact advances_processor hhung hidle (hstage ▸ Nat.le_refl 2) hpc
    | receiver =>
      rcases hidle with hpolling | hstopped
      · exact advances_recvLeaves hhung hpolling (hstage ▸ Nat.le_refl 3)
      · refine advances_of_stopNext hhung (.inr hstopped) .sender n.lazyQueue ?_ ?_ ?_
          rfl rfl rfl
        all_goals simp [NodeLoops.stopNext, hstage, hstopped, Stopping.rank]
    | sender =>
      by_cases hpc : n.daemons .sender = .stopped
      · refine advances_of_stopNext hhung hidle .regular n.lazyQueue ?_ ?_ ?_
          rfl rfl rfl
        all_goals simp [NodeLoops.stopNext, hstage, hpc, Stopping.rank]
      · exact advances_daemon hhung hidle (hstage ▸ Nat.le_refl 4) hpc
    | regular =>
      by_cases hpc : n.daemons .antiEntropy = .stopped
      · by_cases hpc' : n.daemons .heartbeat = .stopped
        · refine advances_of_stopNext hhung hidle .returned n.lazyQueue ?_ ?_ ?_
            rfl rfl rfl
          all_goals simp [NodeLoops.stopNext, hstage, hpc, hpc', Stopping.rank]
        · exact advances_daemon hhung hidle (hstage ▸ Nat.le_refl 5) hpc'
      · exact advances_daemon hhung hidle (hstage ▸ Nat.le_refl 5) hpc
    | returned => exact absurd hstage hreturned

end NodeLoops

namespace LoopNetwork

variable {g g' : LoopNetwork M} {s : ℕ} {n m : NodeLoops M} {e : NetworkEvent M}

theorem inOrder_receiver (h : n.InOrder) (hreceiver : n.receiver ≠ .stopped)
    (pc : ReceiverPC M) : ({ n with receiver := pc } : NodeLoops M).InOrder :=
  ⟨h.lazyStop, h.lazySender, h.processor, fun hrank => absurd (h.receiver hrank) hreceiver,
    h.sender, h.regular⟩

theorem inOrder_touch (h : n.InOrder) (htouch : Touch s n g g') (hm : g'.nodes s = some m) :
    m.InOrder := by
  cases htouch with
  | apart _ _ hnode | still _ hnode =>
    obtain rfl := Option.some.inj (hnode.symm.trans hm)
    exact h
  | loop heffect _ hnode =>
    obtain rfl := Option.some.inj (hnode.symm.trans hm)
    exact h.effect heffect
  | recv hreceiver _ _ hnode | timedOut hreceiver _ _ hnode =>
    obtain rfl := Option.some.inj (hnode.symm.trans hm)
    exact inOrder_receiver h (by rw [hreceiver]; nofun) _
  | received hreceiver _ _ hnode =>
    obtain rfl := Option.some.inj (hnode.symm.trans hm)
    have hon : n.receiver ≠ .stopped := by rw [hreceiver]; nofun
    unfold NodeLoops.accept
    split_ifs
    · exact inOrder_receiver h hon _
    · exact inOrder_receiver h hon _

theorem Touch.exists_node (h : Touch s n g g') : ∃ m, g'.nodes s = some m := by
  cases h with
  | apart _ _ hnode | still _ hnode | loop _ _ hnode | recv _ _ _ hnode | timedOut _ _ _ hnode
  | received _ _ _ hnode => exact ⟨_, hnode⟩

theorem step_node (hn : g.nodes s = some n) {e : LoopEvent} (h : n.step e = some m) :
    g.step (.node s e) = some (g.put s m) := by
  dsimp only [step]
  rw [hn]
  cases e with
  | recv | recvReturns => cases h
  | push | relayReturns | recvLeaves | take | handlerHangs | handlerReturns | procLeaves
  | lazyQueue | turn | turnHangs | turnReturns | daemonLeaves | stop | stopped =>
    exact congrArg (Option.map (g.put s)) h

/-- A call of `Recv` that is under way can return. -/
theorem exists_recvReturns (hn : g.nodes s = some n) (hmatched : Matched s g n)
    (hreceiver : n.receiver = .receiving) (hjammed : ¬ Jammed s g n) :
    ∃ e g' m, g.step e = some g' ∧ g'.nodes s = some m ∧ ¬ Jammed s g' m ∧
      m.left < n.left := by
  have hone := hmatched.calls
  rw [hreceiver] at hone
  obtain ⟨call, hmem, hon⟩ := List.countP_pos_iff.mp (Nat.lt_of_lt_of_eq Nat.zero_lt_one hone.symm)
  obtain ⟨j, hj⟩ := List.getElem?_of_mem hmem
  have hrecv : ∀ {g'}, g.recvReturns s j n = some g' →
      g.step (.node s (.recvReturns j)) = some g' := by
    intro g' h
    simp only [step, hn, Option.bind_some, hreceiver, h]
  have hfree : ∀ pc, ¬ ({ n with receiver := pc } : NodeLoops M).Hung :=
    NodeLoops.not_hung_receiver fun h => hjammed (.inl h)
  have hpolling : ∀ t : ChannelTransport M, ¬ Jammed s
      (({ g with transport := t } : LoopNetwork M).put s { n with receiver := .polling })
      { n with receiver := .polling } := by
    rintro t (hhung | ⟨_, ⟨pkt, hpkt⟩ | ⟨hpkt, _⟩⟩)
    · exact hfree _ hhung
    · cases hpkt
    · cases hpkt
  cases call with
  | sending | sent => exact absurd (of_decide_eq_true hon) not_false
  | receiving sock c =>
    obtain rfl : sock = s := of_decide_eq_true hon
    obtain ⟨t, ht⟩ : ∃ t, g.transport.step (.timeout j) = some t :=
      ⟨{ g.transport with calls := g.transport.calls.eraseIdx j }, by
        simp only [ChannelTransport.step, hj, Option.bind_some, ChannelTransport.timeout]⟩
    refine ⟨.node sock (.recvReturns j), ({ g with transport := t } : LoopNetwork M).put sock
      { n with receiver := .polling }, { n with receiver := .polling }, hrecv ?_,
      nodes_put_self .., hpolling t, ?_⟩
    · simp only [recvReturns, hj, if_true, ht, Option.map_some]
    · simp only [NodeLoops.left, hreceiver, ReceiverPC.left]
      omega
  | received sock pkt =>
    obtain rfl : sock = s := of_decide_eq_true hon
    obtain ⟨sk, hsk, _⟩ := hmatched.socket
    obtain ⟨t, ht⟩ : ∃ t, g.transport.step (.add j) = some t :=
      ⟨{ g.transport with
          sockets := g.transport.sockets.set sock (sk.addIn pkt)
          calls := g.transport.calls.eraseIdx j }, by
        simp only [ChannelTransport.step, hj, Option.bind_some, ChannelTransport.add, hsk,
          Option.map_some]⟩
    refine ⟨.node sock (.recvReturns j), ({ g with transport := t } : LoopNetwork M).put sock
      (n.accept pkt), n.accept pkt, hrecv ?_, nodes_put_self .., ?_, ?_⟩
    · simp only [recvReturns, hj, if_true, ht, Option.map_some]
    · unfold NodeLoops.accept
      split_ifs with hdest
      · rintro (hhung | ⟨hfull, _⟩)
        · exact hfree _ hhung
        · exact hjammed (.inr ⟨⟨hfull.gone, hfull.full⟩,
            .inr ⟨hreceiver, pkt, hmem, decide_eq_true hdest⟩⟩)
      · rintro (hhung | ⟨_, ⟨pkt', hpkt⟩ | ⟨hpkt, _⟩⟩)
        · exact hfree _ hhung
        · cases hpkt
        · cases hpkt
    · unfold NodeLoops.accept
      split_ifs
      · simp only [NodeLoops.left, hreceiver, ReceiverPC.left]
        omega
      · simp only [NodeLoops.left, hreceiver, ReceiverPC.left]
        omega

/-- The node, in a state that a run can lead to. -/
structure Sound (s : ℕ) (g : LoopNetwork M) (n : NodeLoops M) : Prop where
  node : g.nodes s = some n
  matched : Matched s g n
  inOrder : n.InOrder

theorem Sound.step (h : Sound s g n) (hstep : g.step e = some g') :
    ∃ m, Sound s g' m ∧ (Jammed s g n → Jammed s g' m) := by
  have htouch := step_touch hstep h.node
  obtain ⟨m, hm⟩ := htouch.exists_node
  exact ⟨m, ⟨hm, h.matched.touch htouch hm, inOrder_touch h.inOrder htouch hm⟩,
    fun hjammed => hjammed.touch h.matched htouch hm⟩

theorem sound_of_run {es : List (NetworkEvent M)} (h : AnyRun step ({} : LoopNetwork M) es g)
    (hn : g.nodes s = some n) : Sound s g n := by
  refine h.invariant (I := fun g => ∀ n, g.nodes s = some n → Sound s g n)
    (fun n hn => by cases hn) (fun {g g' e} hsound _ hstep m hm => ?_) n hn
  cases hn : g.nodes s with
  | some n =>
    obtain ⟨m', hm', _⟩ := (hsound n hn).step hstep
    obtain rfl := Option.some.inj (hm'.node.symm.trans hm)
    exact hm'
  | none =>
    refine ⟨hm, matched_of_step (fun n hn' => by cases hn.symm.trans hn') hstep hm, ?_⟩
    obtain ⟨conf, sk, _, _, _, _, rfl⟩ := start_of_step hstep hn hm
    exact NodeLoops.inOrder_start conf sk.myAddr

/-- Where nobody is stuck, the goroutines can go on until `Stop` returns. -/
theorem Sound.exists_returned (h : Sound s g n) (hjammed : ¬ Jammed s g n) :
    ∃ es g', AnyRun LoopNetwork.step g es g' ∧
      ∃ n', g'.nodes s = some n' ∧ n'.stopping = .returned := by
  refine reaches_of_progress (I := fun g => ∃ n, Sound s g n ∧ ¬ Jammed s g n)
    (fun g => ((g.nodes s).map NodeLoops.left).getD 0) ?_ ⟨n, h, hjammed⟩
  rintro g ⟨n, hsound, hjammed⟩ hreturned
  obtain ⟨e, g', m, hstep, hm, hfree, hless⟩ : ∃ e g' m, g.step e = some g' ∧
      g'.nodes s = some m ∧ ¬ Jammed s g' m ∧ m.left < n.left := by
    by_cases hreceiver : n.receiver = .receiving
    · exact exists_recvReturns hsound.node hsound.matched hreceiver hjammed
    · obtain ⟨e, m, hstep, hless, hhung, hholding, hnot⟩ := hsound.inOrder.advances
        (fun hhung => hjammed (.inl hhung))
        (fun hstage => hreturned ⟨n, hsound.node, hstage⟩) hreceiver
        fun pkt hpkt hfull => hjammed (.inr ⟨hfull, .inl ⟨pkt, hpkt⟩⟩)
      refine ⟨.node s e, g.put s m, m, step_node hsound.node hstep, nodes_put_self .., ?_, hless⟩
      rintro (hhung' | ⟨hfull, ⟨pkt, hpkt⟩ | ⟨hpkt, _⟩⟩)
      · exact hhung hhung'
      · exact hholding pkt hpkt hfull
      · exact hnot hpkt
  obtain ⟨m', hsound', _⟩ := hsound.step hstep
  obtain rfl := Option.some.inj (hsound'.node.symm.trans hm)
  refine ⟨e, g', trivial, hstep, ⟨m', hsound', hfree⟩, ?_⟩
  rw [hsound.node, hm]
  exact hless

/-- `Stop` can return exactly when no goroutine of the node hangs in a call, the announcements have
not filled the channel that their sender puts one back on, and `Receiver` has no packet for a
`procQueue` that is full and that nobody reads any more. -/
theorem stop_returns_iff {es : List (NetworkEvent M)}
    (h : AnyRun step ({} : LoopNetwork M) es g) (hn : g.nodes s = some n) :
    (∃ es' g', AnyRun step g es' g' ∧ ∃ n', g'.nodes s = some n' ∧ n'.stopping = .returned) ↔
      ¬ Jammed s g n := by
  have hsound := sound_of_run h hn
  refine ⟨?_, hsound.exists_returned⟩
  rintro ⟨es', g', hrun, n', hn', hreturned⟩ hjammed
  obtain ⟨m, hm, hjammed'⟩ := hrun.invariant (I := fun g => ∃ n, Sound s g n ∧ Jammed s g n)
    ⟨n, hsound, hjammed⟩ fun ⟨k, hk, hkjammed⟩ _ hstep => by
      obtain ⟨k', hk', hstays⟩ := hk.step hstep
      exact ⟨k', hk', hstays hkjammed⟩
  obtain rfl := Option.some.inj (hm.node.symm.trans hn')
  rcases hjammed' with hhung | ⟨_, hcarries⟩
  · exact hm.inOrder.not_hung hreturned hhung
  · have hstopped := hm.inOrder.receiver (by rw [hreturned]; decide)
    rcases hcarries with ⟨pkt, hpkt⟩ | ⟨hpkt, _⟩
    · cases hpkt.symm.trans hstopped
    · cases hpkt.symm.trans hstopped

end LoopNetwork

namespace Sample

/-- `Stop` is called on a node whose `Processor` is in a handler that hangs. -/
def hanging : List (NetworkEvent String) :=
  delivery.dropLast ++ [.node 0 .handlerHangs, .node 0 .stop]

theorem hanging_isSome : (exec LoopNetwork.step {} hanging).isSome := by decide

def hung : LoopNetwork String := (exec LoopNetwork.step {} hanging).get hanging_isSome

theorem hung_isSome : (hung.nodes 0).isSome := by decide

theorem handler_hangs : ((hung.nodes 0).get hung_isSome).processor =
    .processing (Transport.Sample.hello "A:1") true := by decide

theorem stop_returns_iff_hung :
    ¬ ∃ es g', AnyRun LoopNetwork.step hung es g' ∧
      ∃ n', g'.nodes 0 = some n' ∧ n'.stopping = .returned := fun hreturns =>
  (LoopNetwork.stop_returns_iff (run_exec_get hanging_isSome)
    (Option.some_get hung_isSome).symm).mp hreturns (.inl (.handler handler_hangs))

end Sample

end JobPortal.Daemons
