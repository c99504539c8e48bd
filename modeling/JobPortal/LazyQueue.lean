import JobPortal.Runs

/-! The queue of announcements. Goroutines put tasks on a bounded channel, and its only reader puts
a task that is not due yet back on the same channel. -/
namespace JobPortal.Gossip

open Runs

def resendQueueSize : ℕ := 1000

/-- In milliseconds. -/
def iHaveInterval : ℕ := 5000

structure ResendTask where
  lastTime : ℕ
  interval : ℕ
  transMsg : String
  origin : String
  list : List String
  deriving DecidableEq, Repr

/-- Where `LazyQueueSender` stands: in its pause of two milliseconds or at the select after it, at
the send of a task that is not due, or out of its loop. -/
inductive LazySender
  | pausing (since : ℕ)
  | sending (task : ResendTask)
  | stopped
  deriving DecidableEq, Repr

/-- The queue, with the goroutines that wait to send their task, and what was announced. -/
structure LazyQueue where
  now : ℕ := 0
  waiting : List ResendTask := []
  queue : List ResendTask := []
  sender : LazySender := .pausing 0
  lazyQueueStop : Bool := false
  sent : List (String × String) := []

inductive LazyEvent
  | tick
  /-- A goroutine comes to its send, with the lazy peers it has read. -/
  | sendIHaveMsg (origin transMsg : String) (lazyList : List String)
  /-- The send of a goroutine is done. -/
  | put (i : ℕ)
  /-- `LazyQueueSender` takes a task. -/
  | take
  /-- Its own send is done. -/
  | putBack
  /-- The node is told to stop. -/
  | stop
  /-- `LazyQueueSender` sees that. -/
  | leave
  deriving DecidableEq, Repr

namespace LazyQueue

def Due (s : LazyQueue) (task : ResendTask) : Prop := s.now - task.lastTime > task.interval

instance (s : LazyQueue) (task : ResendTask) : Decidable (s.Due task) :=
  inferInstanceAs (Decidable (_ > _))

/-- A step, on a channel of capacity `cap`. A send waits for a free slot. -/
def step (cap : ℕ) (s : LazyQueue) : LazyEvent → Option LazyQueue
  | .tick => some { s with now := s.now + 1 }
  | .sendIHaveMsg origin transMsg lazyList =>
    some { s with waiting := s.waiting ++ [⟨s.now, iHaveInterval, transMsg, origin, lazyList⟩] }
  | .put i =>
    if s.queue.length < cap then
      s.waiting[i]?.map fun task =>
        { s with waiting := s.waiting.eraseIdx i, queue := s.queue ++ [task] }
    else none
  | .take =>
    match s.sender, s.queue with
    | .pausing since, task :: queue =>
      if since + 2 ≤ s.now then
        if s.Due task then
          some { s with
            queue := queue
            sender := .pausing s.now
            sent := s.sent ++ task.list.map fun peer => (peer, task.transMsg) }
        else some { s with queue := queue, sender := .sending task }
      else none
    | _, _ => none
  | .putBack =>
    match s.sender with
    | .sending task =>
      if s.queue.length < cap then
        some { s with queue := s.queue ++ [task], sender := .pausing s.now }
      else none
    | _ => none
  | .stop => if s.lazyQueueStop then none else some { s with lazyQueueStop := true }
  | .leave =>
    match s.sender with
    | .pausing since =>
      if since + 2 ≤ s.now ∧ s.lazyQueueStop then some { s with sender := .stopped } else none
    | _ => none

/-- `LazyQueueSender` is at its own send, and stays there whatever happens. -/
def BlockedForever (cap : ℕ) (s : LazyQueue) : Prop :=
  ∃ task, s.sender = .sending task ∧
    ∀ es t, AnyRun (step cap) s es t → t.sender = .sending task

/-- While `LazyQueueSender` has a task in hand, no goroutine takes the last free slot. -/
def LeavesRoom (cap : ℕ) (s : LazyQueue) : LazyEvent → Prop
  | .put _ => ∀ task, s.sender = .sending task → s.queue.length + 1 < cap
  | _ => True

def starts : LazyEvent → Bool
  | .sendIHaveMsg .. => true
  | .tick | .put _ | .take | .putBack | .stop | .leave => false

inductive Effect (cap : ℕ) (s t : LazyQueue) : LazyEvent → Prop
  | keeps {e : LazyEvent} (other : ∀ i, e ≠ .put i)
      (waiting : t.waiting.length = s.waiting.length + if starts e then 1 else 0)
      (sender : t.sender = s.sender) (queue : t.queue = s.queue) : Effect cap s t e
  | put {i : ℕ} {task : ResendTask} (room : s.queue.length < cap)
      (waiting : t.waiting.length + 1 = s.waiting.length) (sender : t.sender = s.sender)
      (queue : t.queue = s.queue ++ [task]) : Effect cap s t (.put i)
  | take {since : ℕ} {task : ResendTask} (before : s.sender = .pausing since)
      (waiting : t.waiting = s.waiting) (queue : s.queue = task :: t.queue) : Effect cap s t .take
  | putBack {task : ResendTask} {since : ℕ} (room : s.queue.length < cap)
      (before : s.sender = .sending task) (waiting : t.waiting = s.waiting)
      (sender : t.sender = .pausing since) (queue : t.queue = s.queue ++ [task]) :
      Effect cap s t .putBack
  | leave {since : ℕ} (before : s.sender = .pausing since) (waiting : t.waiting = s.waiting)
      (sender : t.sender = .stopped) (queue : t.queue = s.queue) : Effect cap s t .leave

variable {cap : ℕ} {s t : LazyQueue} {e : LazyEvent}

theorem step_effect (h : s.step cap e = some t) : Effect cap s t e := by
  cases e with
  | tick =>
    obtain rfl := Option.some.inj h
    exact .keeps nofun rfl rfl rfl
  | sendIHaveMsg =>
    obtain rfl := Option.some.inj h
    exact .keeps nofun List.length_append rfl rfl
  | put i =>
    simp only [step] at h
    split_ifs at h with hroom
    obtain ⟨task, hi, rfl⟩ := Option.map_eq_some_iff.mp h
    have hlt := (List.getElem?_eq_some_iff.mp hi).1
    refine .put hroom ?_ rfl rfl
    simp only [List.length_eraseIdx_of_lt hlt]
    omega
  | take =>
    simp only [step] at h
    split at h
    · rename_i since task queue hsender hqueue
      split_ifs at h
      all_goals
        obtain rfl := Option.some.inj h
        exact .take hsender rfl hqueue
    · cases h
  | putBack =>
    simp only [step] at h
    split at h
    · rename_i task hsender
      split_ifs at h with hroom
      obtain rfl := Option.some.inj h
      exact .putBack hroom hsender rfl rfl rfl
    · cases h
  | stop =>
    simp only [step] at h
    split_ifs at h
    obtain rfl := Option.some.inj h
    exact .keeps nofun rfl rfl rfl
  | leave =>
    simp only [step] at h
    split at h
    · rename_i since hsender
      split_ifs at h
      obtain rfl := Option.some.inj h
      exact .leave hsender rfl rfl rfl
    · cases h

/-- The channel never holds more than it can. -/
theorem length_le_of_step (hs : s.queue.length ≤ cap) (h : s.step cap e = some t) :
    t.queue.length ≤ cap := by
  cases step_effect h with
  | keeps _ _ _ queue | leave _ _ _ queue => exact queue ▸ hs
  | put room _ _ queue | putBack room _ _ _ queue =>
    rw [queue, List.length_append, List.length_singleton]
    exact room
  | take _ _ queue =>
    rw [queue, List.length_cons] at hs
    exact Nat.le_of_succ_le hs

theorem length_le_of_run {es : List LazyEvent} (h : AnyRun (step cap) {} es s) :
    s.queue.length ≤ cap :=
  h.invariant (I := fun s => s.queue.length ≤ cap) (Nat.zero_le _) fun hs _ hstep =>
    length_le_of_step hs hstep

/-- A full channel stays full while its reader waits to send. -/
theorem full_of_step {task : ResendTask} (hsender : s.sender = .sending task)
    (hfull : cap ≤ s.queue.length) (h : s.step cap e = some t) :
    t.sender = .sending task ∧ cap ≤ t.queue.length := by
  cases step_effect h with
  | keeps _ _ sender queue => exact ⟨sender.trans hsender, queue ▸ hfull⟩
  | put room | putBack room => exact absurd room (Nat.not_lt.mpr hfull)
  | take before | leave before =>
    rw [hsender] at before
    cases before

/-- The reader is blocked forever exactly when it waits to send on the full channel. -/
theorem blockedForever_iff :
    s.BlockedForever cap ↔ (∃ task, s.sender = .sending task) ∧ cap ≤ s.queue.length := by
  constructor
  · rintro ⟨task, hsender, hforever⟩
    refine ⟨⟨task, hsender⟩, ?_⟩
    by_contra hroom
    have hback : s.step cap .putBack =
        some { s with queue := s.queue ++ [task], sender := .pausing s.now } := by
      simp only [step, hsender]
      exact if_pos (Nat.lt_of_not_le hroom)
    have := hforever _ _ (.one trivial hback)
    cases this
  · rintro ⟨⟨task, hsender⟩, hfull⟩
    refine ⟨task, hsender, fun es t hrun => ?_⟩
    exact (hrun.invariant (I := fun t => t.sender = .sending task ∧ cap ≤ t.queue.length)
      ⟨hsender, hfull⟩ fun ht _ hstep => full_of_step ht.1 ht.2 hstep).1

/-- A step blocks the reader when a goroutine takes the last free slot before it, and only then. -/
theorem blockedForever_of_step (hlength : s.queue.length ≤ cap) (hs : ¬ s.BlockedForever cap)
    (h : s.step cap e = some t) : ¬ t.BlockedForever cap ↔ s.LeavesRoom cap e := by
  rw [blockedForever_iff] at hs ⊢
  cases step_effect h with
  | keeps other _ sender queue =>
    rw [sender, queue]
    apply iff_of_true hs
    cases e with
    | put i => exact absurd rfl (other i)
    | tick | sendIHaveMsg | take | putBack | stop | leave => trivial
  | put room _ sender queue =>
    rw [sender, queue, List.length_append, List.length_singleton, not_and, Nat.not_le]
    exact forall_exists_index
  | take _ _ queue =>
    refine iff_of_true (fun hfull => ?_) trivial
    rw [queue, List.length_cons] at hlength
    exact absurd hfull.2 (Nat.not_le.mpr hlength)
  | putBack _ _ _ sender | leave _ _ sender =>
    refine iff_of_true (fun hfull => ?_) trivial
    obtain ⟨task, hsending⟩ := hfull.1
    rw [sender] at hsending
    cases hsending

/-- The reader of the queue never gets blocked forever in a run exactly when, while it has a task in
hand, no goroutine takes the last free slot. -/
theorem never_blocked_iff {es : List LazyEvent} (h : AnyRun (step cap) {} es s) :
    Always (step cap) (fun s => ¬ s.BlockedForever cap) {} es ↔
      Run (step cap) (LeavesRoom cap) {} es s := by
  have hstart : ¬ ({} : LazyQueue).BlockedForever cap := by
    rintro ⟨task, hsender, _⟩
    cases hsender
  apply always_iff_run h hstart
  intro es s t e hrun hs hstep
  exact blockedForever_of_step (length_le_of_run hrun) hs hstep

def inHand (s : LazyQueue) : ℕ :=
  match s.sender with
  | .sending _ => 1
  | .pausing _ | .stopped => 0

theorem inHand_le (s : LazyQueue) : s.inHand ≤ 1 := by
  unfold inHand
  split
  · exact Nat.le_refl 1
  · exact Nat.zero_le 1
  · exact Nat.zero_le 1

def outstanding (s : LazyQueue) : ℕ := s.waiting.length + s.queue.length + s.inHand

theorem outstanding_of_step (h : s.step cap e = some t) :
    t.outstanding ≤ s.outstanding + if starts e then 1 else 0 := by
  unfold outstanding
  cases step_effect h with
  | keeps _ waiting sender queue =>
    have hhand : t.inHand = s.inHand := by rw [inHand, inHand, sender]
    rw [queue, waiting, hhand]
    omega
  | put _ waiting sender queue =>
    have hhand : t.inHand = s.inHand := by rw [inHand, inHand, sender]
    rw [queue, hhand, List.length_append, List.length_singleton]
    omega
  | take before waiting queue =>
    have hhand := t.inHand_le
    rw [queue, waiting, List.length_cons]
    omega
  | putBack _ before waiting sender queue =>
    have hbefore : s.inHand = 1 := by rw [inHand, before]
    have hafter : t.inHand = 0 := by rw [inHand, sender]
    rw [queue, waiting, hbefore, hafter, List.length_append, List.length_singleton]
    omega
  | leave _ waiting sender queue =>
    have hafter : t.inHand = 0 := by rw [inHand, sender]
    rw [queue, waiting, hafter]
    omega

/-- Every task comes from a goroutine of its own. -/
theorem outstanding_le {es : List LazyEvent} (h : AnyRun (step cap) {} es s) :
    s.outstanding ≤ es.countP starts := by
  induction h with
  | nil => exact Nat.le_refl 0
  | @snoc es t u e _ _ enabled ih =>
    rw [List.countP_append, List.countP_singleton]
    exact Nat.le_trans (outstanding_of_step enabled) (Nat.add_le_add_right ih _)

/-- The reader waits on the full channel with one more task than the channel holds. -/
theorem BlockedForever.outstanding (h : s.BlockedForever cap) : cap < s.outstanding := by
  obtain ⟨⟨task, hsender⟩, hfull⟩ := blockedForever_iff.mp h
  have hhand : s.inHand = 1 := by rw [inHand, hsender]
  unfold LazyQueue.outstanding
  omega

def burstTask : ResendTask := ⟨0, iHaveInterval, "a;1", "a", []⟩

/-- Goroutines start at once, and one of them sends while the reader has a task in hand. -/
def burst (cap k : ℕ) : List LazyEvent :=
  List.replicate k (.sendIHaveMsg "a" "a;1" []) ++ List.replicate cap (.put 0) ++
    [.tick, .tick, .take, .put 0]

theorem run_starts (cap k : ℕ) :
    AnyRun (step cap) {} (List.replicate k (.sendIHaveMsg "a" "a;1" []))
      { waiting := List.replicate k burstTask } := by
  induction k with
  | zero => exact .nil
  | succ k ih =>
    rw [List.replicate_succ']
    refine .snoc ih trivial ?_
    rw [List.replicate_succ']
    rfl

theorem run_puts {cap : ℕ} (k n : ℕ) (hn : n ≤ cap) :
    AnyRun (step cap) { waiting := List.replicate (n + k) burstTask }
      (List.replicate n (.put 0))
      { waiting := List.replicate k burstTask, queue := List.replicate n burstTask } := by
  induction n generalizing k with
  | zero =>
    rw [Nat.zero_add]
    exact .nil
  | succ n ih =>
    have hprior := ih (k + 1) (Nat.le_of_succ_le hn)
    rw [List.replicate_succ', Nat.add_right_comm]
    refine .snoc hprior trivial ?_
    have hroom : (List.replicate n burstTask).length < cap := by
      rw [List.length_replicate]
      exact hn
    simp only [step, if_pos hroom, List.replicate_succ, List.getElem?_cons_zero, Option.map_some,
      List.eraseIdx_cons_zero, ← List.replicate_succ']

/-- The reader takes a task from the full channel, and a goroutine fills it up again. -/
theorem run_blocks (n k : ℕ) :
    AnyRun (step (n + 1))
      { waiting := List.replicate (k + 1) burstTask, queue := List.replicate (n + 1) burstTask }
      [.tick, .tick, .take, .put 0]
      { now := 2, waiting := List.replicate k burstTask, queue := List.replicate (n + 1) burstTask
        sender := .sending burstTask } := by
  have htake : step (n + 1) { now := 2, waiting := List.replicate (k + 1) burstTask
                              queue := List.replicate (n + 1) burstTask } .take =
      some { now := 2, waiting := List.replicate (k + 1) burstTask
             queue := List.replicate n burstTask, sender := .sending burstTask } := rfl
  have hput : step (n + 1) { now := 2, waiting := List.replicate (k + 1) burstTask
                             queue := List.replicate n burstTask
                             sender := .sending burstTask } (.put 0) =
      some { now := 2, waiting := List.replicate k burstTask
             queue := List.replicate (n + 1) burstTask, sender := .sending burstTask } := by
    have hroom : (List.replicate n burstTask).length < n + 1 := by simp
    have hfill : List.replicate (n + 1) burstTask = List.replicate n burstTask ++ [burstTask] :=
      List.replicate_succ'
    rw [step, if_pos hroom, hfill]
    rfl
  have htick : AnyRun (step (n + 1))
      { waiting := List.replicate (k + 1) burstTask, queue := List.replicate (n + 1) burstTask }
      [.tick, .tick]
      { now := 2, waiting := List.replicate (k + 1) burstTask
        queue := List.replicate (n + 1) burstTask } := run_of_exec rfl
  exact (htick.append (.one trivial htake)).append (.one trivial hput)

/-- A burst of more goroutines than the channel has slots blocks the reader. -/
theorem burst_blocked {cap k : ℕ} (hcap : 0 < cap) (hk : cap < k) :
    ∃ s, AnyRun (step cap) {} (burst cap k) s ∧ s.BlockedForever cap := by
  obtain ⟨rest, rfl⟩ := Nat.exists_eq_add_of_lt hk
  obtain ⟨n, rfl⟩ := Nat.exists_eq_add_one_of_ne_zero (Nat.ne_of_gt hcap)
  have hstarts := run_starts (n + 1) (n + 1 + (rest + 1))
  have hputs := run_puts (rest + 1) (n + 1) (Nat.le_refl (n + 1))
  refine ⟨_, (hstarts.append hputs).append (run_blocks n rest), ?_⟩
  exact blockedForever_iff.mpr ⟨⟨burstTask, rfl⟩, Nat.le_of_eq List.length_replicate.symm⟩

/-- Some run with `k` goroutines blocks the reader exactly when the channel is too small for their
tasks. -/
theorem blocked_possible_iff {cap k : ℕ} (hcap : 0 < cap) :
    (∃ es s, AnyRun (step cap) {} es s ∧ es.countP starts = k ∧ s.BlockedForever cap) ↔
      cap < k := by
  constructor
  · rintro ⟨es, s, hrun, rfl, hblocked⟩
    exact Nat.lt_of_lt_of_le hblocked.outstanding (outstanding_le hrun)
  · intro hk
    obtain ⟨s, hrun, hblocked⟩ := burst_blocked hcap hk
    refine ⟨burst cap k, s, hrun, ?_, hblocked⟩
    simp [burst, starts, List.countP_replicate]

end LazyQueue

namespace Sample

/-- With 1001 rumors at once `LazyQueueSender` gets blocked forever. -/
theorem queue_counterexample :
    ∃ s, AnyRun (LazyQueue.step resendQueueSize) {} (LazyQueue.burst resendQueueSize 1001) s ∧
      s.BlockedForever resendQueueSize :=
  LazyQueue.burst_blocked (by decide) (by decide)

def oneRumor : List LazyEvent :=
  [.sendIHaveMsg "a" "a;1" ["p"], .put 0, .tick, .tick, .take, .putBack, .stop]

theorem oneRumor_isSome : (exec (LazyQueue.step resendQueueSize) {} oneRumor).isSome := by
  decide

theorem never_blocked_iff_oneRumor :
    Always (LazyQueue.step resendQueueSize) (fun s => ¬ s.BlockedForever resendQueueSize) {}
        oneRumor ↔
      Run (LazyQueue.step resendQueueSize) (LazyQueue.LeavesRoom resendQueueSize) {} oneRumor
        ((exec (LazyQueue.step resendQueueSize) {} oneRumor).get oneRumor_isSome) :=
  LazyQueue.never_blocked_iff (run_exec_get oneRumor_isSome)

end Sample

end JobPortal.Gossip
