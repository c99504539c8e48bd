import JobPortal.FetchRetries
import JobPortal.SearchRequests

/-! One call of `SearchFirst`. It sends its first round itself, the Sender sends the wider ones, and
nobody tells the Sender when a file was found. The Sender looks at the queue under its mutex, and
sends the requests of a round one by one after it has given the mutex back. -/
namespace JobPortal.Queues

open Runs Sharing

structure SearchFirstCall where
  requestID : String
  pattern : String
  reg : String → Bool
  conf : ExpandingRing

inductive SearchStage
  | searching
  | calling
  | sent
  | waiting
  | found (name : String)
  | ended
  deriving DecidableEq, Repr

def SearchStage.finished : SearchStage → Bool
  | .searching | .calling | .sent | .waiting => false
  | .found _ | .ended => true

structure Round where
  neighbors : List String
  packets : List SearchPacket
  deriving DecidableEq, Repr

def Round.total (round : Round) : ℕ := (round.packets.map fun p => p.msg.budget.toNat).sum

/-- What the Sender does with the searches. -/
inductive SenderStage
  | idle
  /-- It has got a search from the queue. -/
  | looked (id : String) (msg : SearchRequestMessage)
  | sending (id : String) (packets : List SearchPacket)
  deriving DecidableEq, Repr

namespace SenderStage

def send (id : String) (packets : List SearchPacket) : SenderStage :=
  if packets = [] then .idle else .sending id packets

def busyWith (id : String) : SenderStage → Bool
  | .idle => false
  | .looked id' _ | .sending id' _ => id' = id

/-- The rounds of a search that the Sender has got and not begun. -/
def ahead (id : String) : SenderStage → ℕ
  | .looked id' _ => if id' = id then 1 else 0
  | .idle | .sending .. => 0

def left (id : String) : SenderStage → List SearchPacket
  | .sending id' packets => if id' = id then packets else []
  | .idle | .looked .. => []

variable {id id' : String} {packets : List SearchPacket} {sender : SenderStage}

@[simp] theorem ahead_send : (send id' packets).ahead id = 0 := by
  unfold send
  split_ifs <;> rfl

theorem left_send : (send id' packets).left id = if id' = id then packets else [] := by
  unfold send
  by_cases hempty : packets = []
  · simp [left, hempty]
  · rw [if_neg hempty, left]

theorem of_busyWith_send (h : (send id' packets).busyWith id = true) :
    id' = id ∧ packets ≠ [] := by
  unfold send at h
  split_ifs at h with hempty
  · cases h
  · exact ⟨of_decide_eq_true h, hempty⟩

theorem left_of_not_busyWith (h : sender.busyWith id = false) : sender.left id = [] := by
  cases sender with
  | idle | looked => rfl
  | sending => exact if_neg (of_decide_eq_false h)

theorem ahead_of_not_busyWith (h : sender.busyWith id = false) : sender.ahead id = 0 := by
  cases sender with
  | idle | sending => rfl
  | looked => exact if_neg (of_decide_eq_false h)

end SenderStage

/-- `timeouts` counts how often the Sender found the entry of the search due, and `requests` are
those of the search that went out. -/
structure SearchFirstRun where
  node : SearchNode
  queue : SafeSearchRequestQueue
  stage : SearchStage := .searching
  channel : Channel SearchReplyMessage := {}
  sender : SenderStage := .idle
  rounds : List Round := []
  requests : List SearchPacket := []
  timeouts : ℕ := 0

inductive SearchFirstEvent
  /-- `SearchFirst` goes through the names of the node's own files in some order. -/
  | searchLocally (order : List String)
  /-- `SearchFirst` asks the neighbours for the first time. -/
  | searchFile (shuffled : List String)
  /-- `SearchFirst` queues the request. -/
  | push (now : ℤ)
  /-- `SearchFirst` reads its channel. -/
  | take
  /-- The Sender looks at the queue. -/
  | getSearchRequest (now now' : ℤ)
  /-- The Sender starts to ask the neighbours for the search it has got. -/
  | reSendSearchRequest (shuffled : List String)
  /-- The Sender sends one of the requests. -/
  | sendMsg (p : SearchPacket)
  /-- A reply comes in and is fed to the channel. -/
  | feed (responses : List FileInfo)
  | pushOther (msg : SearchRequestMessage) (id : String) (ring : ExpandingRing) (now : ℤ)
  | setRoutingEntry (origin relayAddr : String)
  deriving DecidableEq, Repr

def SearchFirstEvent.ofSender : SearchFirstEvent → Bool
  | .getSearchRequest .. | .reSendSearchRequest _ | .sendMsg _ => true
  | .searchLocally _ | .searchFile _ | .push _ | .take | .feed _ | .pushOther ..
  | .setRoutingEntry .. => false

def isFullMatch (store : BlobStore) (metahash : Hex.Bytes) : Bool :=
  match store.get metahash with
  | none => false
  | some fileChunks => (splitKeys fileChunks).all fun chunkKey => (store.get chunkKey).isSome

def getFullMatch (m : SearchReplyMessage) : Option String :=
  (m.responses.find? fun info => info.chunks.all Option.isSome).map FileInfo.name

namespace SearchFirstCall

variable (c : SearchFirstCall)

def start (node : SearchNode) (queue : SafeSearchRequestQueue) : SearchFirstRun :=
  { node := node, queue := queue }

def msg (n : SearchNode) : SearchRequestMessage :=
  ⟨c.requestID, n.myAddr, c.pattern, c.conf.initial⟩

/-- A file without a name is never the result. -/
def localMatch (n : SearchNode) (order : List String) : Option String :=
  (order.filter c.reg).find? fun name =>
    name ≠ "" && ((n.naming.lookup name).map (isFullMatch n.blob)).getD false

def step (s : SearchFirstRun) : SearchFirstEvent → Option SearchFirstRun
  | .searchLocally order =>
    if s.stage = .searching ∧ order.Nodup ∧ order.toFinset = s.node.naming.keys then
      match c.localMatch s.node order with
      | some name => some { s with stage := .found name }
      | none => some { s with stage := .calling }
    else none
  | .searchFile shuffled =>
    if s.stage = .calling then
      (s.node.searchFile (c.msg s.node) "" shuffled).map fun packets =>
        if packets = [] then { s with channel := Channel.set.delete, stage := .ended }
        else { s with
          channel := .set
          rounds := s.rounds ++ [⟨shuffled, packets⟩]
          requests := s.requests ++ packets
          stage := .sent }
    else none
  | .push now =>
    if s.stage = .sent then
      (SafeSearchRequestQueue.push s.queue (c.msg s.node) c.requestID c.conf now).map fun queue =>
        { s with queue := queue, stage := .waiting }
    else none
  | .take =>
    if s.stage = .waiting then
      match s.channel.buffer with
      | m :: rest =>
        match getFullMatch m with
        | some name => some { s with
            channel := { s.channel.delete with buffer := rest }
            stage := .found name }
        | none => some { s with channel := { s.channel with buffer := rest } }
      | [] =>
        if s.channel.closed then some { s with channel := s.channel.delete, stage := .ended }
        else none
    else none
  | .getSearchRequest now now' =>
    if s.sender = .idle then
      (SafeSearchRequestQueue.getSearchRequest s.queue now now').map fun (queue, turn) =>
        match turn with
        | .idle => { s with queue := queue }
        | .close id =>
          if id = c.requestID then
            { s with queue := queue, channel := s.channel.close, timeouts := s.timeouts + 1 }
          else { s with queue := queue }
        | .resend id msg => { s with
            queue := queue
            sender := .looked id msg
            timeouts := if id = c.requestID then s.timeouts + 1 else s.timeouts }
    else none
  | .reSendSearchRequest shuffled =>
    match s.sender with
    | .looked id msg => (s.node.searchFile msg "" shuffled).map fun packets => { s with
        sender := .send id packets
        rounds := if id = c.requestID then s.rounds ++ [⟨shuffled, packets⟩] else s.rounds }
    | .idle | .sending .. => none
  | .sendMsg p =>
    match s.sender with
    | .sending id packets =>
      if p ∈ packets then
        some { s with
          sender := .send id (packets.erase p)
          requests := if id = c.requestID then s.requests ++ [p] else s.requests }
      else none
    | .idle | .looked .. => none
  | .feed responses =>
    if s.stage = .searching ∨ s.stage = .calling then none
    else (s.channel.feedMsg ⟨c.requestID, responses⟩).map fun channel =>
      { s with channel := channel }
  | .pushOther msg id ring now =>
    if id = c.requestID then none
    else (SafeSearchRequestQueue.push s.queue msg id ring now).map fun queue =>
      { s with queue := queue }
  | .setRoutingEntry origin relayAddr =>
    some { s with node := s.node.setRoutingEntry origin relayAddr }

def Busy (s : SearchFirstRun) : Prop := s.sender.busyWith c.requestID = true

instance (s : SearchFirstRun) : Decidable (c.Busy s) := inferInstanceAs (Decidable (_ = _))

/-- Round `i` is out once the rounds before it have timed out and the Sender has come to it, with
the budget of round `i`, unless there is no neighbour then. The channel is closed once the last
round has timed out. -/
structure Expands (s : SearchFirstRun) : Prop where
  budgets : ∀ i round, s.rounds[i]? = some round → round.total =
    if round.neighbors = [] then 0 else c.conf.initial.toNat * c.conf.factor.toNat ^ i
  inTurn : s.rounds ≠ [] → s.rounds.length + s.sender.ahead c.requestID =
    min (s.timeouts + 1) c.conf.retry.toNat
  atMost : s.rounds.length ≤ c.conf.retry.toNat
  issued : (s.rounds.flatMap Round.packets).Perm (s.requests ++ s.sender.left c.requestID)
  closes : (∀ name, s.stage ≠ .found name) →
    (s.channel.closed ↔ s.timeouts = c.conf.retry.toNat)

/-- The ring is followed, and once `SearchFirst` has returned no round is begun and no request is
sent. -/
def Follows (s : SearchFirstRun) (e : SearchFirstEvent) : Prop :=
  ∀ s', c.step s e = some s' → c.Expands s' ∧
    (s.stage.finished → s'.rounds = s.rounds ∧ s'.requests = s.requests)

/-- `SearchFirst` does not take a match while the Sender is about a round of the search, and later
its entry is due only when it has no retries left. -/
def Spent (s : SearchFirstRun) : SearchFirstEvent → Prop
  | .getSearchRequest now _ => s.stage.finished → s.queue.ids.head? = some c.requestID →
      ∀ info ∈ s.queue.infoMap.lookup c.requestID, info.due now → info.retry = 0
  | .take => ∀ m ∈ s.channel.buffer.head?, (getFullMatch m).isSome → ¬ c.Busy s
  | .searchLocally _ | .searchFile _ | .push _ | .reSendSearchRequest _ | .sendMsg _ | .feed _
  | .pushOther .. | .setRoutingEntry .. => True

/-- What holds in every run. While the search is queued, its entry has the budget of the last round
that is out or that the Sender has got, and the retries that are left. -/
structure Searching (s : SearchFirstRun) : Prop where
  well : s.queue.Well
  once : s.queue.ids.count c.requestID ≤ 1
  early : s.stage = .searching ∨ s.stage = .calling → s.rounds = []
  sent : s.stage = .sent → s.rounds ≠ [] ∧ s.timeouts = 0 ∧ c.requestID ∉ s.queue.ids
  unsent : s.rounds = [] → s.timeouts = 0 ∧ c.requestID ∉ s.queue.ids
  ended : s.stage = .ended → c.requestID ∉ s.queue.ids
  entry : c.requestID ∈ s.queue.ids → ∃ info, s.queue.infoMap.lookup c.requestID = some info ∧
    info.factor = c.conf.factor ∧
    info.searchRequest.budget.toNat =
      c.conf.initial.toNat * c.conf.factor.toNat ^ s.timeouts ∧
    s.timeouts + 1 + info.retry.toNat = c.conf.retry.toNat
  budgets : ∀ i round, s.rounds[i]? = some round → round.total =
    if round.neighbors = [] then 0 else c.conf.initial.toNat * c.conf.factor.toNat ^ i
  inTurn : s.rounds ≠ [] → s.rounds.length + s.sender.ahead c.requestID =
    min (s.timeouts + 1) c.conf.retry.toNat
  issued : (s.rounds.flatMap Round.packets).Perm (s.requests ++ s.sender.left c.requestID)
  closed : s.channel.closed → s.timeouts = c.conf.retry.toNat
  closes : s.timeouts = c.conf.retry.toNat → (∀ name, s.stage ≠ .found name) → s.channel.closed
  listed : s.stage = .sent ∨ s.stage = .waiting → s.channel.closed ∨ s.channel.listed
  busy : c.Busy s → c.requestID ∈ s.queue.ids
  looked : ∀ msg, s.sender = .looked c.requestID msg → msg.budget.toNat =
    c.conf.initial.toNat * c.conf.factor.toNat ^ s.timeouts ∧ s.rounds ≠ []

variable {c} {s s' : SearchFirstRun} {e : SearchFirstEvent} {es : List SearchFirstEvent}
  {node : SearchNode} {queue : SafeSearchRequestQueue} {shuffled : List String}
  {packets : List SearchPacket} {info : SearchRequestInfo}

theorem total_searchFile {msg : SearchRequestMessage}
    (h : node.searchFile msg "" shuffled = some packets) :
    Round.total ⟨shuffled, packets⟩ = if shuffled = [] then 0 else msg.budget.toNat := by
  rw [SearchNode.searchFile] at h
  split_ifs at h
  obtain rfl := Option.some.inj h
  rw [Round.total, List.map_map]
  split_ifs with hempty
  · subst hempty
    rfl
  · exact sum_getNeighborsAndBudgets hempty msg.budget

theorem searching_start (hretry : 1 ≤ c.conf.retry.toNat) (hwell : queue.Well)
    (hfresh : c.requestID ∉ queue.ids) : c.Searching (start node queue) where
  well := hwell
  once := (List.count_eq_zero.mpr hfresh).trans_le (Nat.zero_le 1)
  early _ := rfl
  sent h := nomatch h
  unsent _ := ⟨rfl, hfresh⟩
  ended h := nomatch h
  entry h := absurd h hfresh
  budgets _ _ h := nomatch h
  inTurn h := absurd rfl h
  issued := .nil
  closed h := nomatch h
  closes h := absurd h (Nat.ne_of_lt hretry)
  listed h := nomatch h
  busy h := nomatch h
  looked _ h := nomatch h

theorem Searching.not_busy (hs : c.Searching s) (hout : c.requestID ∉ s.queue.ids) :
    s.sender.busyWith c.requestID = false :=
  Bool.eq_false_of_not_eq_true fun hbusy => hout (hs.busy hbusy)

theorem Searching.other (hs : c.Searching s)
    (h : MsgQueue.SameEntry c.requestID s.queue queue) :
    c.Searching { s with queue := queue } where
  well := h.well
  once := h.count.trans_le hs.once
  early := hs.early
  sent hstage := ⟨(hs.sent hstage).1, (hs.sent hstage).2.1, mt h.mem_iff.mp (hs.sent hstage).2.2⟩
  unsent hrounds := ⟨(hs.unsent hrounds).1, mt h.mem_iff.mp (hs.unsent hrounds).2⟩
  ended hstage := mt h.mem_iff.mp (hs.ended hstage)
  entry hmem := by
    rw [h.lookup]
    exact hs.entry (h.mem_iff.mp hmem)
  budgets := hs.budgets
  inTurn := hs.inTurn
  issued := hs.issued
  closed := hs.closed
  closes := hs.closes
  listed := hs.listed
  busy h' := h.mem_iff.mpr (hs.busy h')
  looked := hs.looked

theorem Searching.searchFile (hretry : 1 ≤ c.conf.retry.toNat) (hs : c.Searching s)
    (hstage : s.stage = .calling)
    (hfile : s.node.searchFile (c.msg s.node) "" shuffled = some packets) :
    c.Searching (if packets = [] then
      { s with channel := Channel.set.delete, stage := .ended }
    else { s with
      channel := .set
      rounds := s.rounds ++ [⟨shuffled, packets⟩]
      requests := s.requests ++ packets
      stage := .sent }) := by
  have hrounds := hs.early (.inr hstage)
  obtain ⟨htimeouts, hout⟩ := hs.unsent hrounds
  have hfree := hs.not_busy hout
  have hwaits : s.timeouts ≠ c.conf.retry.toNat := by omega
  split_ifs with hempty
  · exact { hs with
      early := nofun
      sent := nofun
      ended := fun _ => hout
      closed := nofun
      closes := fun h => absurd h hwaits
      listed := nofun }
  · have htotal := total_searchFile hfile
    have hissued := hs.issued
    rw [hrounds, SenderStage.left_of_not_busyWith hfree, List.append_nil, List.flatMap_nil,
      List.nil_perm] at hissued
    rw [hrounds, hissued]
    refine { hs with
      early := nofun
      sent := fun _ => ⟨List.cons_ne_nil _ _, htimeouts, hout⟩
      unsent := nofun
      ended := nofun
      budgets := fun i round hround => ?_
      inTurn := fun _ => ?_
      issued := ?_
      closed := nofun
      closes := fun h => absurd h hwaits
      listed := fun _ => .inr rfl
      looked := fun _ h => ?_ }
    · obtain ⟨rfl, rfl⟩ : i = 0 ∧ round = ⟨shuffled, packets⟩ := by
        simpa [List.getElem?_singleton, eq_comm] using hround
      rw [htotal, pow_zero, Nat.mul_one]
      rfl
    · change 0 + 1 + _ = _
      rw [htimeouts, SenderStage.ahead_of_not_busyWith hfree]
      exact (Nat.min_eq_left hretry).symm
    · simp [SenderStage.left_of_not_busyWith hfree]
    · change s.sender = _ at h
      simp [h, SenderStage.busyWith] at hfree

theorem Searching.push (hretry : 1 ≤ c.conf.retry.toNat) (hs : c.Searching s)
    (hstage : s.stage = .sent) {now : ℤ}
    (hpush : SafeSearchRequestQueue.push s.queue (c.msg s.node) c.requestID c.conf now =
      some queue) : c.Searching { s with queue := queue, stage := .waiting } := by
  obtain ⟨hrounds, htimeouts, hout⟩ := hs.sent hstage
  obtain ⟨hwell, hcount, hinfo⟩ := MsgQueue.push_fresh hs.well hout hpush
  have hwaits : s.timeouts ≠ c.conf.retry.toNat := by omega
  refine { hs with
    well := hwell
    once := hcount.le
    early := nofun
    sent := nofun
    unsent := fun h => absurd h hrounds
    ended := nofun
    entry := fun _ => ⟨_, hinfo, rfl, ?_, ?_⟩
    closes := fun h => absurd h hwaits
    listed := fun _ => hs.listed (.inl hstage)
    busy := fun h => absurd (hs.busy h) hout }
  · rw [htimeouts, pow_zero, Nat.mul_one]
    rfl
  · have hless : (c.conf.retry - 1).toNat + 1 = c.conf.retry.toNat :=
      toNat_sub_one fun hzero => by simp [hzero] at hretry
    simp only [SearchRequestInfo.new]
    omega

theorem Searching.take (hs : c.Searching s) (hstep : c.step s .take = some s') :
    c.Searching s' := by
  by_cases hstage : s.stage = .waiting
  · rw [step, if_pos hstage] at hstep
    have hopen : (∀ name, s.stage ≠ .found name) := fun name h => by simp [hstage] at h
    cases hbuffer : s.channel.buffer with
    | nil =>
      simp only [hbuffer] at hstep
      split_ifs at hstep with hclosed
      obtain rfl := Option.some.inj hstep
      refine { hs with
        early := nofun
        sent := nofun
        ended := fun _ hmem => ?_
        closes := fun _ _ => hclosed
        listed := nofun }
      obtain ⟨_, _, _, _, hleft⟩ := hs.entry hmem
      have hdone := hs.closed hclosed
      omega
    | cons m rest =>
      simp only [hbuffer] at hstep
      cases hmatch : getFullMatch m with
      | some name =>
        simp only [hmatch] at hstep
        obtain rfl := Option.some.inj hstep
        exact { hs with
          early := nofun
          sent := nofun
          ended := nofun
          closes := fun _ h => absurd rfl (h name)
          listed := nofun }
      | none =>
        simp only [hmatch] at hstep
        obtain rfl := Option.some.inj hstep
        exact { hs with }
  · rw [step, if_neg hstage] at hstep
    cases hstep

theorem Searching.close (hs : c.Searching s) (hidle : s.sender = .idle) {rest : List String}
    (hids : s.queue.ids = c.requestID :: rest)
    (hfound : s.queue.infoMap.lookup c.requestID = some info) (hlast : info.retry = 0)
    (hwell : queue.Well) (hids' : queue.ids = rest) :
    c.Searching { s with
      queue := queue, channel := s.channel.close, timeouts := s.timeouts + 1 } := by
  have hmem : c.requestID ∈ s.queue.ids := by
    rw [hids]
    exact List.mem_cons_self
  have hout : c.requestID ∉ queue.ids := by
    have honce := hs.once
    rw [hids, List.count_cons_self] at honce
    rw [hids', ← List.count_eq_zero]
    omega
  have hrounds : s.rounds ≠ [] := fun h => (hs.unsent h).2 hmem
  obtain ⟨info', hfound', _, _, hleft⟩ := hs.entry hmem
  obtain rfl := Option.some.inj (hfound.symm.trans hfound')
  rw [hlast, UInt64.toNat_zero] at hleft
  refine { hs with
    well := hwell
    once := (List.count_eq_zero.mpr hout).trans_le (Nat.zero_le 1)
    sent := fun h => absurd hmem (hs.sent h).2.2
    unsent := fun h => absurd h hrounds
    ended := fun _ => hout
    entry := fun h => absurd h hout
    inTurn := fun _ => ?_
    closed := fun _ => hleft
    closes := fun _ hopen => ?_
    listed := fun h => ?_
    busy := fun h => by simp [Busy, hidle, SenderStage.busyWith] at h
    looked := fun _ h => by simp [hidle] at h }
  · have hturn := hs.inTurn hrounds
    simp only
    omega
  · -- nobody has closed the channel or taken it from the table, unless a match was found
    have hwaiting : s.stage = .waiting := by
      cases hstage : s.stage with
      | searching => exact absurd (hs.early (.inl hstage)) hrounds
      | calling => exact absurd (hs.early (.inr hstage)) hrounds
      | sent => exact absurd hmem (hs.sent hstage).2.2
      | waiting => rfl
      | found name => exact absurd hstage (hopen name)
      | ended => exact absurd hmem (hs.ended hstage)
    rcases hs.listed (.inr hwaiting) with hclosed | hlisted
    · simp [Channel.close, hclosed]
    · simp [Channel.close, hlisted]
  · rcases hs.listed h with hclosed | hlisted
    · exact .inl (by simp [Channel.close, hclosed])
    · exact .inl (by simp [Channel.close, hlisted])

theorem Searching.widen (hfactor : 1 ≤ c.conf.factor.toNat)
    (hfits : c.conf.initial.toNat * c.conf.factor.toNat ^ (c.conf.retry.toNat - 1) < 2 ^ 64)
    (hs : c.Searching s) (hidle : s.sender = .idle) {rest : List String} {now : ℤ}
    (hids : s.queue.ids = c.requestID :: rest)
    (hfound : s.queue.infoMap.lookup c.requestID = some info) (hmore : info.retry ≠ 0)
    (hwell : queue.Well) (hids' : queue.ids = rest ++ [c.requestID])
    (hinfo : queue.infoMap = s.queue.infoMap.insert c.requestID (info.widen now)) :
    c.Searching { s with
      queue := queue
      sender := .looked c.requestID (info.widen now).searchRequest
      timeouts := s.timeouts + 1 } := by
  have hmem : c.requestID ∈ s.queue.ids := by
    rw [hids]
    exact List.mem_cons_self
  have hmem' : c.requestID ∈ queue.ids := by
    rw [hids']
    exact List.mem_append_right _ (List.mem_singleton_self _)
  have hrounds : s.rounds ≠ [] := fun h => (hs.unsent h).2 hmem
  have hlength := hs.inTurn hrounds
  obtain ⟨info', hfound', hsame, hbudget, hleft⟩ := hs.entry hmem
  obtain rfl := Option.some.inj (hfound.symm.trans hfound')
  have hless := toNat_sub_one hmore
  have hwider : (info.widen now).searchRequest.budget.toNat =
      c.conf.initial.toNat * c.conf.factor.toNat ^ (s.timeouts + 1) := by
    have hpow : c.conf.factor.toNat ^ (s.timeouts + 1) ≤
        c.conf.factor.toNat ^ (c.conf.retry.toNat - 1) :=
      Nat.pow_le_pow_right hfactor (by omega)
    have hbound := (Nat.mul_le_mul_left c.conf.initial.toNat hpow).trans_lt hfits
    simp only [SearchRequestInfo.widen]
    rw [UInt64.toNat_mul, hbudget, hsame, Nat.mul_assoc, ← pow_succ, Nat.mod_eq_of_lt hbound]
  have hmoreTurns : s.timeouts + 1 ≠ c.conf.retry.toNat := by omega
  have hissued := hs.issued
  rw [hidle] at hlength hissued
  refine { hs with
    well := hwell
    once := (MsgQueue.count_rotate hids hids').trans_le hs.once
    sent := fun h => absurd hmem (hs.sent h).2.2
    unsent := fun h => absurd h hrounds
    ended := fun h => absurd hmem (hs.ended h)
    entry := fun _ => ⟨info.widen now, by rw [hinfo, Finmap.lookup_insert], hsame, hwider, ?_⟩
    inTurn := fun _ => ?_
    issued := hissued
    closed := fun h => ?_
    closes := fun h => absurd h hmoreTurns
    busy := fun _ => hmem'
    looked := fun msg h => ?_ }
  · simp only [SearchRequestInfo.widen]
    omega
  · simp only [SenderStage.ahead, if_true] at hlength ⊢
    omega
  · have hdone := hs.closed h
    omega
  · obtain rfl : (info.widen now).searchRequest = msg := by injection h
    exact ⟨hwider, hrounds⟩

theorem Searching.getSearchRequest (hfactor : 1 ≤ c.conf.factor.toNat)
    (hfits : c.conf.initial.toNat * c.conf.factor.toNat ^ (c.conf.retry.toNat - 1) < 2 ^ 64)
    (hs : c.Searching s) {now now' : ℤ}
    (hstep : c.step s (.getSearchRequest now now') = some s') : c.Searching s' := by
  rw [SearchFirstCall.step] at hstep
  split_ifs at hstep with hidle
  obtain ⟨⟨queue, turn⟩, hget, rfl⟩ := Option.map_eq_some_iff.mp hstep
  have heffect := SafeSearchRequestQueue.getSearchRequest_effect hs.well now now'
  rw [hget] at heffect
  cases heffect with
  | idles => exact hs
  | @closes id rest info _ ids found _ last well ids' infoMap =>
    by_cases hid : id = c.requestID
    · subst hid
      simp only [if_true]
      exact hs.close hidle ids found last well ids'
    · simp only [if_neg hid]
      refine hs.other ⟨well, ?_, ?_⟩
      · rw [ids, ids', List.count_cons_of_ne hid]
      · rw [infoMap, Finmap.lookup_erase_ne (Ne.symm hid)]
  | @resends id rest info _ ids found _ more well ids' infoMap =>
    by_cases hid : id = c.requestID
    · subst hid
      simp only [if_true]
      exact hs.widen hfactor hfits hidle ids found more well ids' infoMap
    · simp only [if_neg hid]
      have hother := hs.other (.rotate well hid ids ids' infoMap)
      have hturn := hother.inTurn
      have hissued := hother.issued
      simp only [hidle] at hturn hissued
      refine { hother with
        inTurn := fun hrounds => ?_
        issued := hissued
        busy := fun h => absurd (of_decide_eq_true h) hid
        looked := fun msg h => absurd (by injection h) hid }
      simpa [SenderStage.ahead, hid] using hturn hrounds

theorem Searching.reSendSearchRequest (hs : c.Searching s)
    (hstep : c.step s (.reSendSearchRequest shuffled) = some s') : c.Searching s' := by
  rw [SearchFirstCall.step] at hstep
  split at hstep
  · rename_i id msg hsender
    obtain ⟨packets, hfile, rfl⟩ := Option.map_eq_some_iff.mp hstep
    have hturn := hs.inTurn
    have hissued := hs.issued
    simp only [hsender, SenderStage.ahead, SenderStage.left] at hturn hissued
    by_cases hid : id = c.requestID
    · subst hid
      obtain ⟨hbudget, hrounds⟩ := hs.looked msg hsender
      have hmem : c.requestID ∈ s.queue.ids :=
        hs.busy (by simp [Busy, hsender, SenderStage.busyWith])
      obtain ⟨_, _, _, _, hleft⟩ := hs.entry hmem
      have hlength := hturn hrounds
      simp only [if_true] at hlength ⊢
      refine { hs with
        early := fun h => absurd (hs.early h) hrounds
        sent := fun h => absurd hmem (hs.sent h).2.2
        unsent := fun h => absurd h (by simp)
        budgets := fun i round hround => ?_
        inTurn := fun _ => ?_
        issued := ?_
        busy := fun _ => hmem
        looked := fun msg h => ?_ }
      · rcases Nat.lt_or_ge i s.rounds.length with hi | hi
        · rw [List.getElem?_append_left hi] at hround
          exact hs.budgets i round hround
        · rw [List.getElem?_append_right hi] at hround
          obtain ⟨hindex, rfl⟩ : i - s.rounds.length = 0 ∧ round = ⟨shuffled, packets⟩ := by
            simpa [List.getElem?_singleton, eq_comm] using hround
          have hi' : i = s.timeouts := by omega
          rw [total_searchFile hfile, hbudget, hi']
      · rw [List.length_append, List.length_singleton, SenderStage.ahead_send]
        exact hlength
      · rw [SenderStage.left_send, if_pos rfl]
        simpa using hissued.append_right packets
      · unfold SenderStage.send at h
        split_ifs at h
    · simp only [if_neg hid] at hturn hissued ⊢
      refine { hs with
        inTurn := fun hrounds => ?_
        issued := ?_
        busy := fun h => absurd (SenderStage.of_busyWith_send h).1 hid
        looked := fun msg h => ?_ }
      · rw [SenderStage.ahead_send]
        exact hturn hrounds
      · rw [SenderStage.left_send, if_neg hid]
        exact hissued
      · unfold SenderStage.send at h
        split_ifs at h
  · cases hstep
  · cases hstep

theorem Searching.sendMsg (hs : c.Searching s) {p : SearchPacket}
    (hstep : c.step s (.sendMsg p) = some s') : c.Searching s' := by
  rw [SearchFirstCall.step] at hstep
  split at hstep
  · rename_i id packets hsender
    by_cases hp : p ∈ packets
    swap
    · rw [if_neg hp] at hstep
      cases hstep
    rw [if_pos hp] at hstep
    obtain rfl := Option.some.inj hstep
    have hturn := hs.inTurn
    have hissued := hs.issued
    simp only [hsender, SenderStage.ahead, SenderStage.left] at hturn hissued
    refine { hs with
      inTurn := fun hrounds => ?_
      issued := ?_
      busy := fun h => ?_
      looked := fun msg h => ?_ }
    · rw [SenderStage.ahead_send]
      exact hturn hrounds
    · rw [SenderStage.left_send]
      split_ifs at hissued ⊢ with hid
      · rw [List.append_assoc, List.singleton_append]
        exact hissued.trans (((List.perm_cons_erase hp)).append_left _)
      · exact hissued
    · obtain ⟨hid, _⟩ := SenderStage.of_busyWith_send h
      exact hs.busy (by simp [Busy, hsender, SenderStage.busyWith, hid])
    · unfold SenderStage.send at h
      split_ifs at h
  · cases hstep
  · cases hstep

theorem Searching.step (hfactor : 1 ≤ c.conf.factor.toNat) (hretry : 1 ≤ c.conf.retry.toNat)
    (hfits : c.conf.initial.toNat * c.conf.factor.toNat ^ (c.conf.retry.toNat - 1) < 2 ^ 64)
    (hs : c.Searching s) (hstep : c.step s e = some s') : c.Searching s' := by
  cases e with
  | searchLocally order =>
    rw [SearchFirstCall.step] at hstep
    split_ifs at hstep with hguard
    have hrounds := hs.early (.inl hguard.1)
    have hopen : ∀ name, s.stage ≠ .found name := fun name h => by simp [hguard.1] at h
    cases hmatch : c.localMatch s.node order with
    | some name =>
      simp only [hmatch] at hstep
      obtain rfl := Option.some.inj hstep
      exact { hs with
        early := fun _ => hrounds
        sent := nofun
        ended := nofun
        closes := fun _ h => absurd rfl (h name)
        listed := nofun }
    | none =>
      simp only [hmatch] at hstep
      obtain rfl := Option.some.inj hstep
      exact { hs with
        early := fun _ => hrounds
        sent := nofun
        ended := nofun
        closes := fun h _ => hs.closes h hopen
        listed := nofun }
  | searchFile shuffled =>
    rw [SearchFirstCall.step] at hstep
    split_ifs at hstep with hstage
    obtain ⟨packets, hfile, rfl⟩ := Option.map_eq_some_iff.mp hstep
    exact hs.searchFile hretry hstage hfile
  | push now =>
    rw [SearchFirstCall.step] at hstep
    split_ifs at hstep with hstage
    obtain ⟨queue, hpush, rfl⟩ := Option.map_eq_some_iff.mp hstep
    exact hs.push hretry hstage hpush
  | take => exact hs.take hstep
  | getSearchRequest now now' => exact hs.getSearchRequest hfactor hfits hstep
  | reSendSearchRequest shuffled => exact hs.reSendSearchRequest hstep
  | sendMsg p => exact hs.sendMsg hstep
  | feed responses =>
    rw [SearchFirstCall.step] at hstep
    split_ifs at hstep with hstage
    obtain ⟨channel, hfeed, rfl⟩ := Option.map_eq_some_iff.mp hstep
    obtain ⟨hclosed, hlisted⟩ := Channel.feedMsg_eq hfeed
    refine { hs with closed := ?_, closes := ?_, listed := ?_ }
    · rw [hclosed]
      exact hs.closed
    · rw [hclosed]
      exact hs.closes
    · rw [hclosed, hlisted]
      exact hs.listed
  | pushOther msg id ring now =>
    rw [SearchFirstCall.step] at hstep
    split_ifs at hstep with hid
    obtain ⟨queue, hpush, rfl⟩ := Option.map_eq_some_iff.mp hstep
    exact hs.other (.push hs.well hid hpush)
  | setRoutingEntry origin relayAddr =>
    obtain rfl := Option.some.inj hstep
    exact { hs with }

theorem Searching.expands (hs : c.Searching s) : c.Expands s := by
  refine ⟨hs.budgets, hs.inTurn, ?_, hs.issued,
    fun hopen => ⟨hs.closed, fun h => hs.closes h hopen⟩⟩
  by_cases hrounds : s.rounds = []
  · rw [hrounds]
    exact Nat.zero_le _
  · have hturn := hs.inTurn hrounds
    omega

/-- Nobody but the Sender does anything for a search that has returned. -/
theorem others_of_finished (hfinished : s.stage.finished) (hother : e.ofSender = false)
    (hstep : c.step s e = some s') : s'.stage = s.stage ∧ s'.sender = s.sender ∧
      s'.rounds = s.rounds ∧ s'.requests = s.requests := by
  cases e with
  | getSearchRequest | reSendSearchRequest | sendMsg => cases hother
  | searchFile shuffled =>
    rw [step] at hstep
    split_ifs at hstep with hstage
    rw [hstage] at hfinished
    cases hfinished
  | searchLocally order =>
    rw [step] at hstep
    split_ifs at hstep with hguard
    rw [hguard.1] at hfinished
    cases hfinished
  | push now =>
    rw [step] at hstep
    split_ifs at hstep with hstage
    rw [hstage] at hfinished
    cases hfinished
  | take =>
    have hstage : s.stage ≠ .waiting := by
      intro h
      rw [h] at hfinished
      cases hfinished
    rw [step, if_neg hstage] at hstep
    cases hstep
  | feed responses =>
    rw [step] at hstep
    split_ifs at hstep
    obtain ⟨_, _, rfl⟩ := Option.map_eq_some_iff.mp hstep
    exact ⟨rfl, rfl, rfl, rfl⟩
  | pushOther msg id ring now =>
    rw [step] at hstep
    split_ifs at hstep
    obtain ⟨_, _, rfl⟩ := Option.map_eq_some_iff.mp hstep
    exact ⟨rfl, rfl, rfl, rfl⟩
  | setRoutingEntry origin relayAddr =>
    obtain rfl := Option.some.inj hstep
    exact ⟨rfl, rfl, rfl, rfl⟩

theorem reSendSearchRequest_eq_some
    (hstep : c.step s (.reSendSearchRequest shuffled) = some s') :
    ∃ id msg packets, s.sender = .looked id msg ∧ s'.stage = s.stage ∧
      s'.sender = .send id packets ∧ s'.requests = s.requests ∧
      s'.rounds = if id = c.requestID then s.rounds ++ [⟨shuffled, packets⟩] else s.rounds := by
  rw [step] at hstep
  split at hstep
  · obtain ⟨packets, _, rfl⟩ := Option.map_eq_some_iff.mp hstep
    exact ⟨_, _, packets, ‹_›, rfl, rfl, rfl, rfl⟩
  · cases hstep
  · cases hstep

theorem sendMsg_eq_some {p : SearchPacket} (hstep : c.step s (.sendMsg p) = some s') :
    ∃ id packets, s.sender = .sending id packets ∧ s'.stage = s.stage ∧
      s'.sender = .send id (packets.erase p) ∧ s'.rounds = s.rounds ∧
      s'.requests = if id = c.requestID then s.requests ++ [p] else s.requests := by
  rw [step] at hstep
  split at hstep
  · rename_i id packets hsender
    by_cases hp : p ∈ packets
    · rw [if_pos hp] at hstep
      obtain rfl := Option.some.inj hstep
      exact ⟨id, packets, hsender, rfl, rfl, rfl, rfl⟩
    · rw [if_neg hp] at hstep
      cases hstep
  · cases hstep
  · cases hstep

theorem Searching.getSearchRequest_eq_some (hs : c.Searching s) {now now' : ℤ}
    (hstep : c.step s (.getSearchRequest now now') = some s') :
    s.sender = .idle ∧ s'.stage = s.stage ∧ s'.rounds = s.rounds ∧ s'.requests = s.requests ∧
      (s.stage.finished → (c.Spent s (.getSearchRequest now now') ↔ ¬ c.Busy s')) := by
  rw [SearchFirstCall.step] at hstep
  split_ifs at hstep with hidle
  obtain ⟨⟨queue, turn⟩, hget, rfl⟩ := Option.map_eq_some_iff.mp hstep
  have heffect := SafeSearchRequestQueue.getSearchRequest_effect hs.well now now'
  rw [hget] at heffect
  have hfree : s.sender.busyWith c.requestID = false := by rw [hidle]; rfl
  cases heffect with
  | idles early =>
    refine ⟨hidle, rfl, rfl, rfl, fun _ => iff_of_true (fun _ hid info hinfo hdue => ?_) ?_⟩
    · exact absurd hdue (Bool.eq_false_iff.mp (MsgQueue.early_first early hid hinfo))
    · simpa [Busy] using hfree
  | @closes id rest info _ ids found _ last =>
    have hspent : c.Spent s (.getSearchRequest now now') := by
      intro _ hid info' hinfo _
      rw [ids] at hid
      obtain rfl := Option.some.inj hid
      obtain rfl := Option.some.inj (found.symm.trans hinfo)
      exact last
    dsimp only
    split_ifs
    all_goals
      refine ⟨hidle, rfl, rfl, rfl, fun _ => iff_of_true hspent ?_⟩
      simpa [Busy] using hfree
  | @resends id rest info _ ids found isDue more =>
    refine ⟨hidle, rfl, rfl, rfl, fun hfinished => ?_⟩
    have hbusy : c.Busy { s with
        queue := queue
        sender := .looked id (info.widen now').searchRequest
        timeouts := if id = c.requestID then s.timeouts + 1 else s.timeouts } ↔
        id = c.requestID := decide_eq_true_iff
    rw [hbusy]
    constructor
    · rintro hspent rfl
      exact more (hspent hfinished (by rw [ids]; rfl) info found isDue)
    · intro hid _ hhead
      rw [ids] at hhead
      exact absurd (Option.some.inj hhead) hid

/-- Nothing is sent for a search that has returned, unless the Sender is about a round of it. -/
theorem Searching.stays (hs : c.Searching s) (hfinished : s.stage.finished) (hfree : ¬ c.Busy s)
    (hstep : c.step s e = some s') : s'.rounds = s.rounds ∧ s'.requests = s.requests := by
  cases e with
  | getSearchRequest now now' =>
    obtain ⟨_, _, hrounds, hrequests, _⟩ := hs.getSearchRequest_eq_some hstep
    exact ⟨hrounds, hrequests⟩
  | reSendSearchRequest shuffled =>
    obtain ⟨id, msg, packets, hsender, _, _, hrequests, hrounds⟩ :=
      reSendSearchRequest_eq_some hstep
    have hid : id ≠ c.requestID := by simpa [Busy, hsender, SenderStage.busyWith] using hfree
    exact ⟨hrounds.trans (if_neg hid), hrequests⟩
  | sendMsg p =>
    obtain ⟨id, packets, hsender, _, _, hrounds, hrequests⟩ := sendMsg_eq_some hstep
    have hid : id ≠ c.requestID := by simpa [Busy, hsender, SenderStage.busyWith] using hfree
    exact ⟨hrounds, hrequests.trans (if_neg hid)⟩
  | searchLocally | searchFile | push | take | feed | pushOther | setRoutingEntry =>
    exact (others_of_finished hfinished rfl hstep).2.2

/-- When `SearchFirst` returns and the step is spent, the Sender is not about the search. -/
theorem Searching.free_of_returns (hs : c.Searching s) (hspent : c.Spent s e)
    (hopen : s.stage.finished = false) (hfinished : s'.stage.finished)
    (hstep : c.step s e = some s') : ¬ c.Busy s' := by
  have unqueued {t : SearchFirstRun} (hsender : t.sender = s.sender)
      (hout : c.requestID ∉ s.queue.ids) : ¬ c.Busy t := by
    rw [Busy, hsender, hs.not_busy hout]
    exact Bool.false_ne_true
  have same {t : SearchFirstRun} (hstage : t.stage = s.stage) (h : t.stage.finished = true) :
      ¬ c.Busy t := by
    rw [hstage, hopen] at h
    cases h
  cases e with
  | searchLocally order =>
    rw [SearchFirstCall.step] at hstep
    split_ifs at hstep with hguard
    have hout := (hs.unsent (hs.early (.inl hguard.1))).2
    split at hstep
    all_goals
      obtain rfl := Option.some.inj hstep
      exact unqueued rfl hout
  | searchFile shuffled =>
    rw [SearchFirstCall.step] at hstep
    split_ifs at hstep with hstage
    have hout := (hs.unsent (hs.early (.inr hstage))).2
    obtain ⟨packets, _, rfl⟩ := Option.map_eq_some_iff.mp hstep
    split_ifs
    all_goals exact unqueued rfl hout
  | push now =>
    rw [SearchFirstCall.step] at hstep
    split_ifs at hstep
    obtain ⟨_, _, rfl⟩ := Option.map_eq_some_iff.mp hstep
    cases hfinished
  | take =>
    rw [SearchFirstCall.step] at hstep
    by_cases hstage : s.stage = .waiting
    swap
    · rw [if_neg hstage] at hstep
      cases hstep
    rw [if_pos hstage] at hstep
    split at hstep
    · rename_i m rest hbuffer
      split at hstep
      · rename_i name hmatch
        obtain rfl := Option.some.inj hstep
        exact hspent m (by rw [hbuffer]; rfl) (by rw [hmatch]; rfl)
      · obtain rfl := Option.some.inj hstep
        exact same rfl hfinished
    · split_ifs at hstep with hclosed
      obtain rfl := Option.some.inj hstep
      refine unqueued rfl fun hmem => ?_
      obtain ⟨_, _, _, _, hleft⟩ := hs.entry hmem
      have hdone := hs.closed hclosed
      omega
  | getSearchRequest now now' => exact same (hs.getSearchRequest_eq_some hstep).2.1 hfinished
  | reSendSearchRequest shuffled =>
    obtain ⟨_, _, _, _, hstage, _⟩ := reSendSearchRequest_eq_some hstep
    exact same hstage hfinished
  | sendMsg p =>
    obtain ⟨_, _, _, hstage, _⟩ := sendMsg_eq_some hstep
    exact same hstage hfinished
  | feed responses =>
    rw [SearchFirstCall.step] at hstep
    split_ifs at hstep
    obtain ⟨_, _, rfl⟩ := Option.map_eq_some_iff.mp hstep
    exact same rfl hfinished
  | pushOther msg id ring now =>
    rw [SearchFirstCall.step] at hstep
    split_ifs at hstep
    obtain ⟨_, _, rfl⟩ := Option.map_eq_some_iff.mp hstep
    exact same rfl hfinished
  | setRoutingEntry origin relayAddr =>
    obtain rfl := Option.some.inj hstep
    exact same rfl hfinished

/-- A spent step does not set the Sender on a search that has returned. -/
theorem Searching.free_of_spent (hs : c.Searching s) (hspent : c.Spent s e)
    (hfree : s.stage.finished → ¬ c.Busy s) (hstep : c.step s e = some s') :
    s'.stage.finished → ¬ c.Busy s' := by
  intro hfinished'
  rcases hfinished : s.stage.finished with _ | _
  · exact hs.free_of_returns hspent hfinished hfinished' hstep
  · have hfree := hfree hfinished
    cases e with
    | getSearchRequest now now' =>
      exact ((hs.getSearchRequest_eq_some hstep).2.2.2.2 hfinished).mp hspent
    | reSendSearchRequest shuffled =>
      obtain ⟨id, msg, packets, hsender, _, hsender', _⟩ := reSendSearchRequest_eq_some hstep
      intro hbusy
      rw [Busy, hsender'] at hbusy
      exact hfree (by simp [Busy, hsender, SenderStage.busyWith,
        (SenderStage.of_busyWith_send hbusy).1])
    | sendMsg p =>
      obtain ⟨id, packets, hsender, _, hsender', _⟩ := sendMsg_eq_some hstep
      intro hbusy
      rw [Busy, hsender'] at hbusy
      exact hfree (by simp [Busy, hsender, SenderStage.busyWith,
        (SenderStage.of_busyWith_send hbusy).1])
    | searchLocally | searchFile | push | take | feed | pushOther | setRoutingEntry =>
      rw [Busy, (others_of_finished hfinished rfl hstep).2.1]
      exact hfree

/-- A step that is not spent leaves the Sender about a round of a search that has returned. -/
theorem Searching.overdue_of_not_spent (hs : c.Searching s) (hspent : ¬ c.Spent s e)
    (hstep : c.step s e = some s') : s'.stage.finished ∧ c.Busy s' := by
  cases e with
  | getSearchRequest now now' =>
    obtain ⟨_, hstage, _, _, hiff⟩ := hs.getSearchRequest_eq_some hstep
    have hfinished : s.stage.finished := by
      by_contra hopen
      exact hspent fun h => absurd h hopen
    exact ⟨hstage ▸ hfinished, not_not.mp (mt (hiff hfinished).mpr hspent)⟩
  | take =>
    simp only [Spent] at hspent
    push Not at hspent
    obtain ⟨m, hm, hmatch, hbusy⟩ := hspent
    obtain ⟨name, hname⟩ := Option.isSome_iff_exists.mp hmatch
    obtain ⟨rest, hbuffer⟩ := List.head?_eq_some_iff.mp hm
    rw [SearchFirstCall.step] at hstep
    simp only [hbuffer, hname] at hstep
    split_ifs at hstep
    obtain rfl := Option.some.inj hstep
    exact ⟨rfl, hbusy⟩
  | searchLocally | searchFile | push | reSendSearchRequest | sendMsg | feed | pushOther
  | setRoutingEntry => exact absurd trivial hspent

/-- As long as nothing is sent, the Sender stays about the round. -/
theorem Searching.overdue_step (hs : c.Searching s) (hfinished : s.stage.finished)
    (hbusy : c.Busy s) (hfollows : c.Follows s e) (hstep : c.step s e = some s') :
    s'.stage.finished ∧ c.Busy s' := by
  obtain ⟨hrounds, hrequests⟩ := (hfollows s' hstep).2 hfinished
  cases e with
  | getSearchRequest now now' =>
    rw [Busy, (hs.getSearchRequest_eq_some hstep).1] at hbusy
    cases hbusy
  | reSendSearchRequest shuffled =>
    obtain ⟨id, msg, packets, hsender, _, _, _, hmore⟩ := reSendSearchRequest_eq_some hstep
    rw [Busy, hsender] at hbusy
    rw [hrounds, if_pos (of_decide_eq_true hbusy)] at hmore
    exact absurd hmore (by simp)
  | sendMsg p =>
    obtain ⟨id, packets, hsender, _, _, _, hmore⟩ := sendMsg_eq_some hstep
    rw [Busy, hsender] at hbusy
    rw [hrequests, if_pos (of_decide_eq_true hbusy)] at hmore
    exact absurd hmore (by simp)
  | searchLocally | searchFile | push | take | feed | pushOther | setRoutingEntry =>
    obtain ⟨hstage, hsender, _⟩ := others_of_finished hfinished rfl hstep
    rw [hstage, Busy, hsender]
    exact ⟨hfinished, hbusy⟩

section Runs

variable (hfactor : 1 ≤ c.conf.factor.toNat) (hretry : 1 ≤ c.conf.retry.toNat)
  (hfits : c.conf.initial.toNat * c.conf.factor.toNat ^ (c.conf.retry.toNat - 1) < 2 ^ 64)
  (hwell : queue.Well) (hfresh : c.requestID ∉ queue.ids)
include hfactor hretry hfits hwell hfresh

theorem searching_run {ok : SearchFirstRun → SearchFirstEvent → Prop}
    (h : Run c.step ok (start node queue) es s) :
    Run c.step (fun s e => ok s e ∧ c.Searching s) (start node queue) es s :=
  h.with_invariant (searching_start hretry hwell hfresh)
    fun hs _ hstep => hs.step hfactor hretry hfits hstep

theorem follows_of_spent (h : Run c.step c.Spent (start node queue) es s) :
    Run c.step c.Follows (start node queue) es s := by
  have hfree := (searching_run hfactor hretry hfits hwell hfresh h).with_invariant
    (I := fun s => s.stage.finished → ¬ c.Busy s) nofun
    fun hfree hs hstep => hs.2.free_of_spent hs.1 hfree hstep
  refine hfree.imp fun s e ⟨⟨_, hs⟩, hfree⟩ s' hstep => ?_
  exact ⟨(hs.step hfactor hretry hfits hstep).expands,
    fun hfinished => hs.stays hfinished (hfree hfinished) hstep⟩

theorem spent_of_follows (h : Run c.step c.Follows (start node queue) es s) :
    Run c.step c.Spent (start node queue) es s ∨ s.stage.finished ∧ c.Busy s := by
  have hsearching := searching_run hfactor hretry hfits hwell hfresh h
  induction hsearching with
  | nil => exact .inl .nil
  | @snoc es s s' e prior meets enabled ih =>
    rcases ih (prior.imp fun _ _ h => h.1) with hspent | ⟨hfinished, hbusy⟩
    · by_cases hlast : c.Spent s e
      · exact .inl (hspent.snoc hlast enabled)
      · exact .inr (meets.2.overdue_of_not_spent hlast enabled)
    · exact .inr (meets.2.overdue_step hfinished hbusy meets.1 enabled)

/-- A search follows its ring and stops if every step is spent; and only then, once the Sender has
come to the end of what it is about. -/
theorem follows_iff_spent :
    (Run c.step c.Spent (start node queue) es s → Run c.step c.Follows (start node queue) es s) ∧
    (¬ c.Busy s → Run c.step c.Follows (start node queue) es s →
      Run c.step c.Spent (start node queue) es s) := by
  refine ⟨follows_of_spent hfactor hretry hfits hwell hfresh, fun hfree hfollows => ?_⟩
  rcases spent_of_follows hfactor hretry hfits hwell hfresh hfollows with hspent | ⟨_, hbusy⟩
  · exact hspent
  · exact absurd hbusy hfree

end Runs

end SearchFirstCall

namespace Sample

open SearchFirstCall

def searchAnything : SearchFirstCall := ⟨"s", ".*", fun _ => true, ⟨1, 3, 3, 100000000⟩⟩

def askingNode : SearchNode where
  myAddr := "a"
  routingTable := (Finmap.insert "a" "a" ∅).insert "b" "b"
  naming := ∅
  blob := ∅

def asking (budget : UInt64) : SearchPacket := ⟨"a", "b", ⟨"s", "a", ".*", budget⟩⟩

def foundAtOnce : List SearchFirstEvent :=
  [.searchLocally [], .searchFile ["b"], .push 0, .feed [⟨"cv", [1], [some [2]]⟩], .take,
    .getSearchRequest 100 100, .reSendSearchRequest ["b"]]

/-- The answer comes when the Sender is about to send the second round. -/
def foundMeanwhile : List SearchFirstEvent :=
  [.searchLocally [], .searchFile ["b"], .push 0, .getSearchRequest 100 100,
    .reSendSearchRequest ["b"], .feed [⟨"cv", [1], [some [2]]⟩], .take]

def neverFound : List SearchFirstEvent :=
  [.searchLocally [], .searchFile ["b"], .push 0, .getSearchRequest 100 100,
    .reSendSearchRequest ["b"], .sendMsg (asking 3), .getSearchRequest 200 200,
    .reSendSearchRequest ["b"], .sendMsg (asking 9), .getSearchRequest 300 300, .take]

theorem foundAtOnce_isSome :
    (exec searchAnything.step (start askingNode .newMsgQueue) foundAtOnce).isSome := by decide

theorem foundAtOnce_sent_isSome : (exec searchAnything.step (start askingNode .newMsgQueue)
    (foundAtOnce ++ [.sendMsg (asking 3)])).isSome := by decide

theorem foundMeanwhile_isSome :
    (exec searchAnything.step (start askingNode .newMsgQueue) foundMeanwhile).isSome := by decide

theorem foundMeanwhile_sent_isSome : (exec searchAnything.step (start askingNode .newMsgQueue)
    (foundMeanwhile ++ [.sendMsg (asking 3)])).isSome := by decide

theorem neverFound_isSome :
    (exec searchAnything.step (start askingNode .newMsgQueue) neverFound).isSome := by decide

/-- The second round is sent after the file was found, and so is the rest of a round that was
begun. -/
theorem foundAtOnce_counterexample :
    ¬ Run searchAnything.step searchAnything.Follows (start askingNode .newMsgQueue)
      (foundAtOnce ++ [.sendMsg (asking 3)])
      ((exec searchAnything.step (start askingNode .newMsgQueue)
        (foundAtOnce ++ [.sendMsg (asking 3)])).get foundAtOnce_sent_isSome) ∧
    ¬ Run searchAnything.step searchAnything.Follows (start askingNode .newMsgQueue)
      (foundMeanwhile ++ [.sendMsg (asking 3)])
      ((exec searchAnything.step (start askingNode .newMsgQueue)
        (foundMeanwhile ++ [.sendMsg (asking 3)])).get foundMeanwhile_sent_isSome) := by
  constructor
  · intro hrun
    obtain ⟨s, hs, hfollows, hstep⟩ := hrun.last
    obtain rfl := hs.unique (run_exec_get foundAtOnce_isSome)
    have hstays := ((hfollows _ hstep).2 (by decide)).2
    exact absurd (congrArg List.length hstays) (by decide)
  · intro hrun
    obtain ⟨s, hs, hfollows, hstep⟩ := hrun.last
    obtain rfl := hs.unique (run_exec_get foundMeanwhile_isSome)
    have hstays := ((hfollows _ hstep).2 (by decide)).2
    exact absurd (congrArg List.length hstays) (by decide)

theorem follows_iff_spent_neverFound :
    Run searchAnything.step searchAnything.Spent (start askingNode .newMsgQueue) neverFound
        ((exec searchAnything.step (start askingNode .newMsgQueue) neverFound).get
          neverFound_isSome) ↔
      Run searchAnything.step searchAnything.Follows (start askingNode .newMsgQueue) neverFound
        ((exec searchAnything.step (start askingNode .newMsgQueue) neverFound).get
          neverFound_isSome) :=
  have h := follows_iff_spent (by decide) (by decide) (by decide) MsgQueue.well_newMsgQueue
    (by simp [MsgQueue.ids_newMsgQueue])
  ⟨h.1, h.2 (by decide)⟩

end Sample

end JobPortal.Queues
