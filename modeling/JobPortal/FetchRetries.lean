import JobPortal.DataRequests
import JobPortal.Download

/-! One call of `FetchFile` that asks a peer. The request is sent before it is queued, the Sender
sends it again in the meantime, and the reply may be handled at any moment. -/
namespace JobPortal.Queues

open Hex Runs Sharing

/-- The channel of a request, and whether the table has it. -/
structure Channel (M : Type) where
  buffer : List M := []
  closed : Bool := false
  listed : Bool := false
  deriving DecidableEq, Repr

namespace Channel

variable {M : Type} (c : Channel M)

def set : Channel M := { listed := true }

/-- It waits while the channel is full. -/
def feedMsg (m : M) : Option (Channel M) :=
  if c.listed then
    if c.buffer.length < chanSize then some { c with buffer := c.buffer ++ [m] } else none
  else some c

def close : Channel M := { c with closed := c.closed || c.listed, listed := false }

def delete : Channel M := { c with listed := false }

variable {c} {c' : Channel M} {m : M}

theorem feedMsg_eq (h : c.feedMsg m = some c') : c'.closed = c.closed ∧ c'.listed = c.listed := by
  rw [feedMsg] at h
  split_ifs at h
  all_goals
    obtain rfl := Option.some.inj h
    exact ⟨rfl, rfl⟩

end Channel

structure FetchFileCall where
  requestID : String
  hash : Bytes
  dst : String
  backoff : Backoff

inductive FetchStage
  | calling
  | sent
  | waiting
  | returned (file : Option Bytes)
  | failed (err : String)
  deriving DecidableEq, Repr

def FetchStage.finished : FetchStage → Bool
  | .calling | .sent | .waiting => false
  | .returned _ | .failed _ => true

/-- `sends` counts the calls of `SendDataRequest` for the request. `replying` are the handlers that
have fed a reply and are to remove the entry, and `handled` is where `FetchFile` was when this was
done last. The store is left out. -/
structure FetchFileRun where
  queue : SafeDataRequestQueue
  stage : FetchStage := .calling
  channel : Channel DataReplyMessage := {}
  sends : ℕ := 0
  replying : ℕ := 0
  handled : Option FetchStage := none

inductive FetchFileEvent
  /-- `FetchFile` sends the request, if there is a route. -/
  | send (route : Bool)
  /-- `FetchFile` queues the request. -/
  | push (now : ℤ)
  /-- `FetchFile` reads its channel. -/
  | take
  | reSendDataRequest (now now' : ℤ)
  /-- A reply comes in and is fed to the channel. -/
  | feed (value : Option Bytes)
  /-- The entry is removed for a reply that was fed. -/
  | remove
  | pushOther (msg : DataRequestMessage) (dest id : String) (backoff : Backoff) (now : ℤ)
  | removeOther (id : String)
  deriving DecidableEq, Repr

namespace FetchFileCall

variable (c : FetchFileCall)

def dataRequestMsg : DataRequestMessage := ⟨c.requestID, c.hash⟩

def start (queue : SafeDataRequestQueue) : FetchFileRun := { queue := queue }

def step (s : FetchFileRun) : FetchFileEvent → Option FetchFileRun
  | .send route =>
    if s.stage = .calling then
      if route then
        some { s with channel := .set, sends := s.sends + 1, stage := .sent }
      else
        some { s with
          channel := Channel.set.delete
          sends := s.sends + 1
          stage := .failed "SendDataRequest could not find neighbor" }
    else none
  | .push now =>
    if s.stage = .sent then
      (SafeDataRequestQueue.push s.queue c.dataRequestMsg c.dst c.requestID c.backoff now).map
        fun queue => { s with queue := queue, stage := .waiting }
    else none
  | .take =>
    if s.stage = .waiting then
      match s.channel.buffer with
      | m :: rest => some { s with
          channel := { s.channel.delete with buffer := rest }
          stage := .returned m.value }
      | [] =>
        if s.channel.closed then
          some { s with
            channel := s.channel.delete
            stage := .failed "the channel is closed, retry fail" }
        else none
    else none
  | .reSendDataRequest now now' =>
    (SafeDataRequestQueue.getDataRequest s.queue now now').map fun (queue, resent) =>
      match resent with
      | none => { s with queue := queue }
      | some r =>
        if r.id = c.requestID then
          { s with
            queue := queue
            sends := s.sends + 1
            channel := if r.closes then s.channel.close else s.channel }
        else { s with queue := queue }
  | .feed value =>
    if s.stage = .calling then none
    else (s.channel.feedMsg ⟨c.requestID, c.hash, value⟩).map fun channel =>
      { s with channel := channel, replying := s.replying + 1 }
  | .remove =>
    if 0 < s.replying then
      (MsgQueue.remove s.queue c.requestID).map fun queue =>
        { s with queue := queue, replying := s.replying - 1, handled := some s.stage }
    else none
  | .pushOther msg dest id backoff now =>
    if id = c.requestID then none
    else (SafeDataRequestQueue.push s.queue msg dest id backoff now).map fun queue =>
      { s with queue := queue }
  | .removeOther id =>
    if id = c.requestID then none
    else (MsgQueue.remove s.queue id).map fun queue => { s with queue := queue }

/-- The request is not sent too often, and it is gone from the queue when it was answered and
`FetchFile` has returned, or when it was given up. -/
def Bounded (s : FetchFileRun) : Prop :=
  s.sends ≤ c.backoff.retry.toNat ∧
    (s.stage.finished ∧ s.handled.isSome ∨ s.channel.closed → c.requestID ∉ s.queue.ids)

/-- The entry is not due when it has no retries left, and `FetchFile` does not return when the last
reply was handled before the request was queued. -/
def InTime (s : FetchFileRun) : FetchFileEvent → Prop
  | .reSendDataRequest now _ => s.queue.ids.head? = some c.requestID →
      ∀ info ∈ s.queue.infoMap.lookup c.requestID, info.due now → info.retry ≠ 0
  | .take => s.handled ≠ some .sent
  | .send _ | .push _ | .feed _ | .remove | .pushOther .. | .removeOther _ => True

instance (s : FetchFileRun) : Decidable (c.Bounded s) := inferInstanceAs (Decidable (_ ∧ _))

/-- What holds in every run. The entry is queued unless a reply was handled after that, and its
counter goes with the number of sends until it is used up. -/
structure Fetching (s : FetchFileRun) : Prop where
  well : s.queue.Well
  once : s.queue.ids.count c.requestID ≤ 1
  calling : s.stage = .calling → s.sends = 0 ∧ s.replying = 0 ∧ s.handled = none
  sent : s.stage = .sent → s.sends = 1 ∧ (s.handled = none ∨ s.handled = some .sent)
  outside : s.stage = .calling ∨ s.stage = .sent → c.requestID ∉ s.queue.ids
  waiting : s.stage = .waiting → s.handled = none ∨ s.handled = some .sent →
    c.requestID ∈ s.queue.ids
  unhandled : c.requestID ∈ s.queue.ids → s.handled = none ∨ s.handled = some .sent
  entry : c.requestID ∈ s.queue.ids → ∃ info, s.queue.infoMap.lookup c.requestID = some info ∧
    (c.backoff.retry.toNat < s.sends ∨ s.sends + info.retry.toNat = c.backoff.retry.toNat)
  closed : s.channel.closed → c.backoff.retry.toNat < s.sends

variable {c} {s s' : FetchFileRun} {e : FetchFileEvent} {es : List FetchFileEvent}
  {queue : SafeDataRequestQueue}

theorem fetching_start (hwell : queue.Well) (hfresh : c.requestID ∉ queue.ids) :
    c.Fetching (start queue) where
  well := hwell
  once := (List.count_eq_zero.mpr hfresh).trans_le (Nat.zero_le 1)
  calling _ := ⟨rfl, rfl, rfl⟩
  sent h := nomatch h
  outside _ := hfresh
  waiting h := nomatch h
  unhandled h := absurd h hfresh
  entry h := absurd h hfresh
  closed h := nomatch h

theorem Fetching.mem_infoMap (hs : c.Fetching s) (hmem : c.requestID ∈ s.queue.ids) :
    c.requestID ∈ s.queue.infoMap := by
  obtain ⟨_, hfound, _⟩ := hs.entry hmem
  exact Finmap.mem_of_lookup_eq_some hfound

theorem Fetching.other (hs : c.Fetching s)
    (h : MsgQueue.SameEntry c.requestID s.queue queue) :
    c.Fetching { s with queue := queue } where
  well := h.well
  once := h.count.trans_le hs.once
  calling := hs.calling
  sent := hs.sent
  outside hstage := mt h.mem_iff.mp (hs.outside hstage)
  waiting hstage hhandled := h.mem_iff.mpr (hs.waiting hstage hhandled)
  unhandled hmem := hs.unhandled (h.mem_iff.mp hmem)
  entry hmem := by
    rw [h.lookup]
    exact hs.entry (h.mem_iff.mp hmem)
  closed := hs.closed

theorem Fetching.resend (hs : c.Fetching s) {rest : List String} {info : DataRequestInfo}
    {now : ℤ} (hids : s.queue.ids = c.requestID :: rest)
    (hfound : s.queue.infoMap.lookup c.requestID = some info) (hwell : queue.Well)
    (hids' : queue.ids = rest ++ [c.requestID])
    (hinfo : queue.infoMap = s.queue.infoMap.insert c.requestID (info.renew now)) :
    c.Fetching { s with
      queue := queue
      sends := s.sends + 1
      channel := if decide (info.retry = 0) then s.channel.close else s.channel } := by
  have hmem : c.requestID ∈ s.queue.ids := by
    rw [hids]
    exact List.mem_cons_self
  have hstage : s.stage ≠ .calling ∧ s.stage ≠ .sent :=
    ⟨fun h => hs.outside (.inl h) hmem, fun h => hs.outside (.inr h) hmem⟩
  obtain ⟨info', hfound', hsends⟩ := hs.entry hmem
  obtain rfl := Option.some.inj (hfound.symm.trans hfound')
  refine ⟨hwell, (MsgQueue.count_rotate hids hids').trans_le hs.once, fun h => absurd h hstage.1,
    fun h => absurd h hstage.2, fun h => absurd h (not_or.mpr hstage), fun _ _ => ?_,
    fun _ => hs.unhandled hmem, fun _ => ⟨info.renew now, ?_, ?_⟩, fun h => ?_⟩
  · rw [hids']
    exact List.mem_append_right _ (List.mem_singleton_self _)
  · rw [hinfo, Finmap.lookup_insert]
  · by_cases hretry : info.retry = 0
    · left
      rw [hretry] at hsends
      simp only [UInt64.toNat_zero] at hsends ⊢
      omega
    · have hless := toNat_sub_one hretry
      simp only [DataRequestInfo.renew]
      omega
  · by_cases hretry : info.retry = 0
    · rw [hretry] at hsends
      simp only [UInt64.toNat_zero] at hsends ⊢
      omega
    · rw [if_neg (by simpa using hretry)] at h
      exact Nat.lt_succ_of_lt (hs.closed h)

theorem Fetching.reSendDataRequest (hs : c.Fetching s) {now now' : ℤ}
    (hstep : c.step s (.reSendDataRequest now now') = some s') : c.Fetching s' := by
  obtain ⟨⟨queue, r⟩, hget, rfl⟩ := Option.map_eq_some_iff.mp hstep
  have heffect := SafeDataRequestQueue.getDataRequest_effect hs.well now now'
  rw [hget] at heffect
  cases heffect with
  | idles => exact hs
  | @resends id rest info _ ids found _ well ids' infoMap =>
    by_cases hid : id = c.requestID
    · subst hid
      simp only [if_true]
      exact hs.resend ids found well ids' infoMap
    · simp only [if_neg hid]
      exact hs.other (.rotate well hid ids ids' infoMap)

theorem take_effect (h : c.step s .take = some s') : s.stage = .waiting ∧
    ∃ channel stage, FetchStage.finished stage ∧ channel.closed = s.channel.closed ∧
      s' = { s with channel := channel, stage := stage } := by
  by_cases hstage : s.stage = .waiting
  · rw [step, if_pos hstage] at h
    refine ⟨hstage, ?_⟩
    cases hbuffer : s.channel.buffer with
    | nil =>
      simp only [hbuffer] at h
      split_ifs at h
      obtain rfl := Option.some.inj h
      exact ⟨s.channel.delete, _, rfl, rfl, rfl⟩
    | cons m rest =>
      simp only [hbuffer] at h
      obtain rfl := Option.some.inj h
      exact ⟨{ s.channel.delete with buffer := rest }, _, rfl, rfl, rfl⟩
  · rw [step, if_neg hstage] at h
    cases h

theorem Fetching.send (hs : c.Fetching s) {route : Bool}
    (hstep : c.step s (.send route) = some s') : c.Fetching s' := by
  rw [step] at hstep
  split_ifs at hstep with hstage hroute
  all_goals
    obtain rfl := Option.some.inj hstep
    obtain ⟨hsends, hreplying, hhandled⟩ := hs.calling hstage
    have hout := hs.outside (.inl hstage)
  · exact ⟨hs.well, hs.once, nofun, fun _ => ⟨by rw [hsends], .inl hhandled⟩, fun _ => hout,
      nofun, fun h => absurd h hout, fun h => absurd h hout, nofun⟩
  · exact ⟨hs.well, hs.once, nofun, nofun, fun _ => hout, nofun, fun h => absurd h hout,
      fun h => absurd h hout, nofun⟩

theorem Fetching.push (hretry : 1 ≤ c.backoff.retry.toNat) (hs : c.Fetching s)
    (hstage : s.stage = .sent) {now : ℤ} (hpush : SafeDataRequestQueue.push s.queue
      c.dataRequestMsg c.dst c.requestID c.backoff now = some queue) :
    c.Fetching { s with queue := queue, stage := .waiting } := by
  obtain ⟨hwell, hcount, hinfo⟩ := MsgQueue.push_fresh hs.well (hs.outside (.inr hstage)) hpush
  obtain ⟨hsends, hhandled⟩ := hs.sent hstage
  refine ⟨hwell, hcount.le, nofun, nofun, nofun, fun _ _ => ?_, fun _ => hhandled,
    fun _ => ⟨_, hinfo, .inr ?_⟩, hs.closed⟩
  · exact List.count_pos_iff.mp (hcount ▸ Nat.one_pos)
  · have hless : (c.backoff.retry - 1).toNat + 1 = c.backoff.retry.toNat :=
      toNat_sub_one fun hzero => by simp [hzero] at hretry
    simp only [DataRequestInfo.new]
    omega

theorem Fetching.take (hs : c.Fetching s) (hstep : c.step s .take = some s') : c.Fetching s' := by
  obtain ⟨_, channel, stage, hfinished, hclosed, rfl⟩ := take_effect hstep
  refine ⟨hs.well, hs.once, ?_, ?_, ?_, ?_, hs.unhandled, hs.entry,
    fun h => hs.closed (hclosed.symm.trans h)⟩
  · rintro rfl
    cases hfinished
  · rintro rfl
    cases hfinished
  · rintro (rfl | rfl)
    · cases hfinished
    · cases hfinished
  · rintro rfl
    cases hfinished

theorem Fetching.remove (hs : c.Fetching s) (hreplying : 0 < s.replying)
    (hremove : MsgQueue.remove s.queue c.requestID = some queue) :
    c.Fetching { s with
      queue := queue, replying := s.replying - 1, handled := some s.stage } := by
  obtain ⟨hwell, hout⟩ := MsgQueue.remove_once hs.well hs.once hs.mem_infoMap hremove
  refine ⟨hwell, (List.count_eq_zero.mpr hout).trans_le (Nat.zero_le 1),
    fun h => absurd (hs.calling h).2.1 (Nat.ne_of_gt hreplying), fun h => ⟨(hs.sent h).1, ?_⟩,
    fun _ => hout, fun hstage h => ?_, fun h => absurd h hout, fun h => absurd h hout,
    hs.closed⟩
  · exact .inr (congrArg some h)
  · rcases h with h | h
    · cases h
    · rw [Option.some.inj h] at hstage
      cases hstage

theorem Fetching.step (hretry : 1 ≤ c.backoff.retry.toNat) (hs : c.Fetching s)
    (hstep : c.step s e = some s') : c.Fetching s' := by
  cases e with
  | send route => exact hs.send hstep
  | push now =>
    rw [FetchFileCall.step] at hstep
    split_ifs at hstep with hstage
    obtain ⟨queue, hpush, rfl⟩ := Option.map_eq_some_iff.mp hstep
    exact hs.push hretry hstage hpush
  | take => exact hs.take hstep
  | reSendDataRequest now now' => exact hs.reSendDataRequest hstep
  | feed value =>
    rw [FetchFileCall.step] at hstep
    split_ifs at hstep with hstage
    obtain ⟨channel, hfeed, rfl⟩ := Option.map_eq_some_iff.mp hstep
    refine ⟨hs.well, hs.once, fun h => absurd h hstage, hs.sent, hs.outside, hs.waiting,
      hs.unhandled, hs.entry, fun h => hs.closed ?_⟩
    rwa [← (Channel.feedMsg_eq hfeed).1]
  | remove =>
    rw [FetchFileCall.step] at hstep
    split_ifs at hstep with hreplying
    obtain ⟨queue, hremove, rfl⟩ := Option.map_eq_some_iff.mp hstep
    exact hs.remove hreplying hremove
  | pushOther msg dest id backoff now =>
    rw [FetchFileCall.step] at hstep
    split_ifs at hstep with hid
    obtain ⟨queue, hpush, rfl⟩ := Option.map_eq_some_iff.mp hstep
    exact hs.other (.push hs.well hid hpush)
  | removeOther id =>
    rw [FetchFileCall.step] at hstep
    split_ifs at hstep with hid
    obtain ⟨queue, hremove, rfl⟩ := Option.map_eq_some_iff.mp hstep
    exact hs.other (.remove hs.well hid hremove)

/-- Steps of other requests neither break the bounds nor restore them. -/
theorem bounded_other (h : MsgQueue.SameEntry c.requestID s.queue queue) :
    c.Bounded { s with queue := queue } ↔ c.Bounded s := by
  rw [Bounded, Bounded, h.mem_iff]

theorem Fetching.bounded_resend (hs : c.Fetching s) (hbounded : c.Bounded s)
    {rest : List String} {info : DataRequestInfo} (hids : s.queue.ids = c.requestID :: rest)
    (hfound : s.queue.infoMap.lookup c.requestID = some info) :
    c.Bounded { s with
      queue := queue
      sends := s.sends + 1
      channel := if decide (info.retry = 0) then s.channel.close else s.channel } ↔
        info.retry ≠ 0 := by
  have hmem : c.requestID ∈ s.queue.ids := by
    rw [hids]
    exact List.mem_cons_self
  obtain ⟨info', hfound', hsends⟩ := hs.entry hmem
  obtain rfl := Option.some.inj (hfound.symm.trans hfound')
  have hleft : s.sends + info.retry.toNat = c.backoff.retry.toNat :=
    hsends.resolve_left (Nat.not_lt_of_ge hbounded.1)
  constructor
  · intro h hretry
    have hle := h.1
    rw [hretry, UInt64.toNat_zero] at hleft
    simp only at hle
    omega
  · intro hretry
    have hless := toNat_sub_one hretry
    rw [if_neg (by simpa using hretry)]
    refine ⟨by simp only; omega, fun h hmem' => hbounded.2 h hmem⟩

theorem Fetching.bounded_take_iff (hs : c.Fetching s) (hbounded : c.Bounded s)
    (hstep : c.step s .take = some s') : c.Bounded s' ↔ s.handled ≠ some .sent := by
  obtain ⟨hstage, channel, stage, hfinished, hclosed, rfl⟩ := take_effect hstep
  have hopen : ¬ channel.closed = true := fun h =>
    absurd (hs.closed (hclosed.symm.trans h)) (Nat.not_lt_of_ge hbounded.1)
  constructor
  · intro h hhandled
    refine h.2 (.inl ⟨hfinished, ?_⟩) (hs.waiting hstage (.inr hhandled))
    exact Option.isSome_iff_exists.mpr ⟨_, hhandled⟩
  · intro h
    refine ⟨hbounded.1, fun hcases hmem => ?_⟩
    rcases hcases with ⟨_, hhandled⟩ | hcases
    · rw [(hs.unhandled hmem).resolve_right h] at hhandled
      cases hhandled
    · exact hopen hcases

theorem Fetching.bounded_reSendDataRequest_iff (hs : c.Fetching s) (hbounded : c.Bounded s)
    {now now' : ℤ} (hstep : c.step s (.reSendDataRequest now now') = some s') :
    c.Bounded s' ↔ c.InTime s (.reSendDataRequest now now') := by
  obtain ⟨⟨queue, r⟩, hget, rfl⟩ := Option.map_eq_some_iff.mp hstep
  have heffect := SafeDataRequestQueue.getDataRequest_effect hs.well now now'
  rw [hget] at heffect
  cases heffect with
  | idles early =>
    refine iff_of_true hbounded fun hid info hinfo hdue => ?_
    exact absurd hdue (Bool.eq_false_iff.mp (MsgQueue.early_first early hid hinfo))
  | @resends id rest info _ ids found isDue well ids' infoMap =>
    by_cases hid : id = c.requestID
    · subst hid
      simp only [if_true]
      rw [hs.bounded_resend hbounded ids found]
      constructor
      · intro hretry _ info' hinfo _
        obtain rfl := Option.some.inj (found.symm.trans hinfo)
        exact hretry
      · intro h
        exact h (by rw [ids]; rfl) info found isDue
    · simp only [if_neg hid]
      rw [bounded_other (.rotate well hid ids ids' infoMap)]
      refine iff_of_true hbounded fun hhead => absurd ?_ hid
      rw [ids] at hhead
      exact Option.some.inj hhead

theorem bounded_iff_inTime (hretry : 1 ≤ c.backoff.retry.toNat) (hs : c.Fetching s)
    (hbounded : c.Bounded s) (hstep : c.step s e = some s') : c.Bounded s' ↔ c.InTime s e := by
  cases e with
  | send route =>
    rw [step] at hstep
    split_ifs at hstep with hstage hroute
    all_goals
      obtain rfl := Option.some.inj hstep
      have hout := hs.outside (.inl hstage)
      refine iff_of_true ⟨?_, fun _ => hout⟩ trivial
      simp only [(hs.calling hstage).1]
      exact hretry
  | push now =>
    rw [step] at hstep
    split_ifs at hstep with hstage
    obtain ⟨queue, hpush, rfl⟩ := Option.map_eq_some_iff.mp hstep
    refine iff_of_true ⟨hbounded.1, fun h => ?_⟩ trivial
    rcases h with h | h
    · cases h.1
    · exact absurd (hs.closed h) (Nat.not_lt_of_ge hbounded.1)
  | take => exact hs.bounded_take_iff hbounded hstep
  | reSendDataRequest now now' => exact hs.bounded_reSendDataRequest_iff hbounded hstep
  | feed value =>
    rw [step] at hstep
    split_ifs at hstep with hstage
    obtain ⟨channel, hfeed, rfl⟩ := Option.map_eq_some_iff.mp hstep
    refine iff_of_true ⟨hbounded.1, fun h => hbounded.2 ?_⟩ trivial
    rwa [(Channel.feedMsg_eq hfeed).1] at h
  | remove =>
    rw [step] at hstep
    split_ifs at hstep with hreplying
    obtain ⟨queue, hremove, rfl⟩ := Option.map_eq_some_iff.mp hstep
    obtain ⟨_, hout⟩ := MsgQueue.remove_once hs.well hs.once hs.mem_infoMap hremove
    exact iff_of_true ⟨hbounded.1, fun _ => hout⟩ trivial
  | pushOther msg dest id backoff now =>
    rw [step] at hstep
    split_ifs at hstep with hid
    obtain ⟨queue, hpush, rfl⟩ := Option.map_eq_some_iff.mp hstep
    exact iff_of_true ((bounded_other (.push hs.well hid hpush)).mpr hbounded) trivial
  | removeOther id =>
    rw [step] at hstep
    split_ifs at hstep with hid
    obtain ⟨queue, hremove, rfl⟩ := Option.map_eq_some_iff.mp hstep
    exact iff_of_true ((bounded_other (.remove hs.well hid hremove)).mpr hbounded) trivial

/-- The bounds hold throughout a run exactly when its steps are in time. -/
theorem always_bounded_iff_inTime (hretry : 1 ≤ c.backoff.retry.toNat) (hwell : queue.Well)
    (hfresh : c.requestID ∉ queue.ids) (h : AnyRun c.step (start queue) es s) :
    Always c.step c.Bounded (start queue) es ↔ Run c.step c.InTime (start queue) es s := by
  refine always_iff_run h ⟨Nat.zero_le _, fun _ => hfresh⟩ fun hrun hbounded hstep => ?_
  have hfetching : c.Fetching _ := hrun.invariant (fetching_start hwell hfresh)
    fun hs _ hstep => hs.step hretry hstep
  exact bounded_iff_inTime hretry hfetching hbounded hstep

end FetchFileCall

namespace Sample

open FetchFileCall

def fetchChunk : FetchFileCall := ⟨"r", [1, 2], "b", ⟨2000000000, 2, 2⟩⟩

/-- Nobody answers, and the retry of the request is not answered either. -/
def unansweredFetch : List FetchFileEvent :=
  [.send true, .push 0, .reSendDataRequest 2000 2000, .reSendDataRequest 6000 6000]

def answeredFetch : List FetchFileEvent :=
  [.send true, .push 0, .reSendDataRequest 2000 2000, .feed (some [3]), .remove, .take,
    .reSendDataRequest 6000 6000]

theorem unansweredFetch_isSome :
    (exec fetchChunk.step (start .newMsgQueue) unansweredFetch).isSome := by decide

theorem answeredFetch_isSome :
    (exec fetchChunk.step (start .newMsgQueue) answeredFetch).isSome := by decide

/-- When the channel is closed the request is sent for a third time, and it stays in the queue. -/
theorem unansweredFetch_counterexample :
    ¬ Always fetchChunk.step fetchChunk.Bounded (start .newMsgQueue) unansweredFetch := by
  intro h
  have hlast := h unansweredFetch [] _ (List.append_nil _).symm
    (run_exec_get unansweredFetch_isSome)
  exact absurd hlast (by decide)

theorem always_bounded_iff_inTime_answeredFetch :
    Always fetchChunk.step fetchChunk.Bounded (start .newMsgQueue) answeredFetch ↔
      Run fetchChunk.step fetchChunk.InTime (start .newMsgQueue) answeredFetch
        ((exec fetchChunk.step (start .newMsgQueue) answeredFetch).get answeredFetch_isSome) :=
  always_bounded_iff_inTime (by decide) MsgQueue.well_newMsgQueue
    (by simp [MsgQueue.ids_newMsgQueue]) (run_exec_get answeredFetch_isSome)

end Sample

end JobPortal.Queues
