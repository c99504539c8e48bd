import JobPortal.NextHops
import JobPortal.SharingNetwork

/-! The routes that nodes learn from rumors and from searches. A node that passes on a rumor, or a
search, knows a way to where it comes from, so that the ways it tells lead there. -/
namespace JobPortal.Sharing

open Gossip Hex NextHops Queues Runs Transport

variable {M : Type}

namespace SharingNetwork

/-- What the user sets by hand is a neighbor, or it leads on from a node that knows the way. -/
def Outward (g : SharingNetwork M) (e : SharingEvent M) : Prop :=
  match e.act with
  | .setRoutingEntry origin relayAddr =>
    relayAddr ≠ "" ∧ (origin = relayAddr ∨
      origin ∉ (g.nodes e.addr).routingTable ∧ origin ∈ (g.nodes relayAddr).routingTable)
  | _ => True

instance (g : SharingNetwork M) (e : SharingEvent M) : Decidable (Outward g e) := by
  obtain ⟨addr, fresh, act⟩ := e
  cases_type SharingAct <;> dsimp only [Outward] <;> infer_instance

def underWay (g : SharingNetwork M) (d : String) (trail : List String) (p : String) : Prop :=
  ∃ f ∈ g.flights, f.header.destination = d ∧ f.relays = trail ∧ f.addr = p

/-- A node has a way to where these rumors come from. Zero rumors come from nowhere. -/
def Locates (g : SharingNetwork M) (p : String) (rumors : List (Gossip.Rumor M)) : Prop :=
  ∀ r ∈ rumors, r.origin ≠ "" → r.origin ∈ (g.nodes p).routingTable

/-- What a packet tells about its way is so: rumors, status messages and search requests go to
neighbors only, and who sends them has a way to their origin. -/
def Tells (g : SharingNetwork M) (f : Flight M) : Prop :=
  match f.pkt.msg with
  | .rumors rumors => f.addr = f.header.destination ∧ g.Locates f.header.relayedBy rumors
  | .status _ => f.addr = f.header.destination ∧ f.header.relayedBy = f.header.source
  | .searchRequest msg => f.addr = f.header.destination ∧
      msg.origin ∈ (g.nodes f.header.relayedBy).routingTable
  | _ => True

/-- What the tables and the packets under way say of routes. -/
structure Mapped (g : SharingNetwork M) : Prop where
  myAddr : ∀ p, (g.nodes p).myAddr = p
  self : ∀ p, g.next p p = some p
  nobody : ∀ d ≠ "", d ∉ (g.nodes "").routingTable
  charted : ∀ d ≠ "", Charted (g.next d) d (g.underWay d)
  origins : ∀ p o, (g.nodes p).rumorTable.list o ≠ [] → o ∈ (g.nodes p).routingTable
  handling : ∀ p, g.Locates (g.nodes p).relayedBy (g.nodes p).handling
  tells : ∀ f ∈ g.flights, f.header.relayedBy ≠ "" ∧ g.Tells f

/-- What a step may write into a routing table: a neighbor, or the way that a node tells that knows
one. -/
inductive Entered (g : SharingNetwork M) (old : GoMap String String) : GoMap String String → Prop
  | same : Entered g old old
  | neighbor (addr : String) : Entered g old (old.insert addr addr)
  | learned {origin relayAddr : String} (absent : origin ∉ old)
      (known : origin ≠ "" → origin ∈ (g.nodes relayAddr).routingTable) :
      Entered g old (old.insert origin relayAddr)

structure Sends (g : SharingNetwork M) (table : GoMap String String) (l : Letter M) : Prop where
  known : l.dest ≠ "" → l.nextAddr = l.dest ∨ l.dest ∈ (g.nodes l.nextAddr).routingTable
  rumors : ∀ rumors, l.parcel = .rumors rumors →
    l.nextAddr = l.dest ∧ ∀ r ∈ rumors, r.origin ≠ "" → r.origin ∈ table
  status : ∀ status, l.parcel = .status status → l.nextAddr = l.dest
  searchRequest : ∀ msg, l.parcel = .searchRequest msg →
    l.nextAddr = l.dest ∧ msg.origin ∈ table

variable {g g' : SharingNetwork M} {n p d : String} {m : SharingNode M}
  {letters : List (Letter M)} {fresh : ℕ → Fresh}

theorem Entered.subset {old new : GoMap String String} (h : Entered g old new) {o : String}
    (ho : o ∈ old) : o ∈ new := by
  cases h with
  | same => exact ho
  | neighbor addr => exact Finmap.mem_insert.mpr (.inr ho)
  | learned absent known => exact Finmap.mem_insert.mpr (.inr ho)

theorem mem_routingTable_put (h : Entered g (g.nodes n).routingTable m.routingTable) {o : String}
    (ho : o ∈ (g.nodes p).routingTable) :
    o ∈ ((g.put n fresh (m, letters)).nodes p).routingTable := by
  by_cases hp : p = n
  · subst hp
    rw [nodes_put_self]
    exact h.subset ho
  · rwa [nodes_put_of_ne hp]

theorem next_put (d : String) : (g.put n fresh (m, letters)).next d =
    Function.update (g.next d) n (m.routingTable.lookup d) := by
  funext p
  by_cases hp : p = n
  · subst hp
    rw [next, nodes_put_self, Function.update_self]
  · rw [next, nodes_put_of_ne hp, Function.update_of_ne hp, next]

theorem update_next_self (d : String) :
    Function.update (g.next d) n ((g.nodes n).routingTable.lookup d) = g.next d :=
  Function.update_eq_self n (g.next d)

/-- A table that a step writes leads on from where it did. -/
theorem Mapped.charted_entered (h : g.Mapped)
    (henter : Entered g (g.nodes n).routingTable m.routingTable) (hd : d ≠ "") :
    Charted (Function.update (g.next d) n (m.routingTable.lookup d)) d (g.underWay d) := by
  have hold := h.charted d hd
  generalize hnew : m.routingTable = new at henter ⊢
  cases henter with
  | same => rwa [update_next_self]
  | neighbor addr =>
    by_cases haddr : d = addr
    · subst haddr
      rw [Finmap.lookup_insert]
      exact hold.direct n
    · rwa [Finmap.lookup_insert_of_ne _ haddr, update_next_self]
  | @learned origin relayAddr absent known =>
    by_cases horigin : d = origin
    · subst horigin
      rw [Finmap.lookup_insert]
      exact hold.learn (Finmap.lookup_eq_none.mpr absent) (Finmap.lookup_isSome.mpr (known hd))
    · rwa [Finmap.lookup_insert_of_ne _ horigin, update_next_self]

theorem charted_send {next : String → Option String} {under : List String → String → Prop}
    (h : Charted next d under) {flights : List (Flight M)}
    (hsend : ∀ f ∈ flights, f.header.destination = d →
      f.relays = [] ∧ (f.addr = d ∨ (next f.addr).isSome)) :
    Charted next d fun trail p => under trail p ∨
      ∃ f ∈ flights, f.header.destination = d ∧ f.relays = trail ∧ f.addr = p := by
  induction flights with
  | nil => exact h.of_subset fun trail p => by simp
  | cons f fs ih =>
    have hrest := ih fun f' hf' => hsend f' (List.mem_cons_of_mem _ hf')
    by_cases hf : f.header.destination = d
    · obtain ⟨hrelays, hknown⟩ := hsend f List.mem_cons_self hf
      refine (hrest.send hknown).of_subset ?_
      rintro trail p (hway | ⟨f', hf', hdest, rfl, rfl⟩)
      · exact .inl (.inl hway)
      · rcases List.mem_cons.mp hf' with rfl | hf'
        · exact .inr ⟨hrelays, rfl⟩
        · exact .inl (.inr ⟨f', hf', hdest, rfl, rfl⟩)
    · refine hrest.of_subset ?_
      rintro trail p (hway | ⟨f', hf', hdest, rfl, rfl⟩)
      · exact .inl hway
      · rcases List.mem_cons.mp hf' with rfl | hf'
        · exact absurd hdest hf
        · exact .inr ⟨f', hf', hdest, rfl, rfl⟩

theorem Locates.mono {rumors : List (Gossip.Rumor M)} (h : g.Locates p rumors)
    (hgrow : ∀ {o}, o ∈ (g.nodes p).routingTable → o ∈ (g'.nodes p).routingTable) :
    g'.Locates p rumors := fun r hr ho => hgrow (h r hr ho)

theorem Tells.mono {f : Flight M} (h : g.Tells f)
    (hgrow : ∀ {p o}, o ∈ (g.nodes p).routingTable → o ∈ (g'.nodes p).routingTable) :
    g'.Tells f := by
  unfold Tells at h ⊢
  split at h
  · exact ⟨h.1, h.2.mono hgrow⟩
  · exact h
  · exact ⟨h.1, hgrow h.2⟩
  · trivial

theorem Sends.tells (hn : n ≠ "") {l : Letter M} (h : Sends g m.routingTable l) (id : Fresh) :
    (sendMsg id n l).header.relayedBy ≠ "" ∧
      (g.put n fresh (m, letters)).Tells (sendMsg id n l) := by
  refine ⟨hn, ?_⟩
  have hself : (sendMsg id n l).header.relayedBy = n := rfl
  unfold Tells
  rw [hself, nodes_put_self]
  split
  · rename_i rumors hmsg
    obtain ⟨hnext, horigins⟩ := h.rumors rumors hmsg
    refine ⟨hnext, fun r hr ho => ?_⟩
    rw [nodes_put_self]
    exact horigins r hr ho
  · rename_i status hmsg
    exact ⟨h.status status hmsg, rfl⟩
  · rename_i msg hmsg
    exact h.searchRequest msg hmsg
  · trivial

/-- What a node may come to, and send: what it writes into its table and what it sends leads on. -/
structure Legal (g : SharingNetwork M) (n : String) (result : SharingNode M × List (Letter M)) :
    Prop where
  myAddr : result.1.myAddr = n
  entered : Entered g (g.nodes n).routingTable result.1.routingTable
  origins : ∀ o, result.1.rumorTable.list o ≠ [] → o ∈ result.1.routingTable
  handling : g.Locates result.1.relayedBy result.1.handling
  letters : ∀ l ∈ result.2, Sends g result.1.routingTable l

theorem Mapped.put (h : g.Mapped) (hn : n ≠ "") (hlegal : g.Legal n (m, letters)) :
    (g.put n fresh (m, letters)).Mapped where
  myAddr p := by
    by_cases hp : p = n
    · subst hp
      rw [nodes_put_self]
      exact hlegal.myAddr
    · rw [nodes_put_of_ne hp]
      exact h.myAddr p
  self p := by
    rw [next_put]
    by_cases hp : p = n
    · subst hp
      rw [Function.update_self]
      have hold := h.self p
      have henter := hlegal.entered
      unfold next at hold
      dsimp only at henter ⊢
      generalize m.routingTable = new at henter ⊢
      cases henter with
      | same => exact hold
      | neighbor addr =>
        by_cases haddr : p = addr
        · subst haddr
          exact Finmap.lookup_insert _
        · rwa [Finmap.lookup_insert_of_ne _ haddr]
      | @learned origin relayAddr absent known =>
        have hne : p ≠ origin := by
          rintro rfl
          rw [Finmap.lookup_eq_none.mpr absent] at hold
          cases hold
        rwa [Finmap.lookup_insert_of_ne _ hne]
    · rw [Function.update_of_ne hp]
      exact h.self p
  nobody d hd := by
    rw [nodes_put_of_ne (Ne.symm hn)]
    exact h.nobody d hd
  charted d hd := by
    rw [next_put]
    have hcharted := h.charted_entered hlegal.entered hd
    have hsent : ∀ f ∈ letters.mapIdx fun i l => sendMsg (fresh i) n l,
        f.header.destination = d → f.relays = [] ∧
          (f.addr = d ∨
            (Function.update (g.next d) n (m.routingTable.lookup d) f.addr).isSome) := by
      intro f hf hdest
      obtain ⟨i, hi, rfl⟩ := List.mem_mapIdx.mp hf
      have hdest' : (letters[i]).dest = d := hdest
      refine ⟨rfl, ?_⟩
      refine ((hlegal.letters _ (List.getElem_mem hi)).known (hdest' ▸ hd)).imp ?_ ?_
      · exact fun hnext => hnext.trans hdest'
      · intro hknown
        rw [hdest'] at hknown
        have hgrown : d ∈ ((g.put n fresh (m, letters)).nodes (letters[i]).nextAddr).routingTable :=
          mem_routingTable_put hlegal.entered hknown
        have hnext : (g.put n fresh (m, letters)).next d =
            Function.update (g.next d) n (m.routingTable.lookup d) := next_put d
        rw [← hnext]
        exact Finmap.lookup_isSome.mpr hgrown
    refine (charted_send hcharted hsent).of_subset ?_
    rintro trail p ⟨f, hf, hdest, hrelays, haddr⟩
    exact (List.mem_append.mp hf).imp (fun hf => ⟨f, hf, hdest, hrelays, haddr⟩)
      fun hf => ⟨f, hf, hdest, hrelays, haddr⟩
  origins p o ho := by
    by_cases hp : p = n
    · subst hp
      rw [nodes_put_self] at ho ⊢
      exact hlegal.origins o ho
    · rw [nodes_put_of_ne hp] at ho ⊢
      exact h.origins p o ho
  handling p := by
    by_cases hp : p = n
    · subst hp
      rw [nodes_put_self]
      exact hlegal.handling.mono fun ho => mem_routingTable_put hlegal.entered ho
    · rw [nodes_put_of_ne hp]
      exact (h.handling p).mono fun ho => mem_routingTable_put hlegal.entered ho
  tells f hf := by
    rcases mem_flights_put hf with hf | ⟨l, hl, id, rfl⟩
    · refine ⟨(h.tells f hf).1, (h.tells f hf).2.mono fun ho => ?_⟩
      exact mem_routingTable_put hlegal.entered ho
    · exact (hlegal.letters l hl).tells hn id

theorem Mapped.legal_self (h : g.Mapped) (hmyAddr : m.myAddr = (g.nodes n).myAddr)
    (htable : m.routingTable = (g.nodes n).routingTable)
    (hrumors : m.rumorTable = (g.nodes n).rumorTable)
    (hhandling : m.handling = [] ∨
      m.handling = (g.nodes n).handling ∧ m.relayedBy = (g.nodes n).relayedBy)
    (hletters : ∀ l ∈ letters, Sends g (g.nodes n).routingTable l) :
    g.Legal n (m, letters) := by
  refine ⟨hmyAddr.trans (h.myAddr n), htable ▸ .same, ?_, ?_, htable ▸ hletters⟩
  · rw [hrumors, htable]
    exact h.origins n
  · rcases hhandling with hnone | ⟨hsame, hrelayed⟩
    · rw [hnone]
      exact nofun
    · rw [hsame, hrelayed]
      exact h.handling n

section Letters

theorem Mapped.known_of_next (h : g.Mapped) (hd : d ≠ "") {q : String}
    (hnext : g.next d p = some q) : q = d ∨ d ∈ (g.nodes q).routingTable := by
  by_cases hp : p = d
  · subst hp
    exact .inl (Option.some.inj (hnext.symm.trans (h.self p)))
  · obtain ⟨rank, hranked, _⟩ := (h.charted d hd).ranks
    exact (hranked p q hp hnext).imp_right fun hq => Finmap.lookup_isSome.mp hq.1

def Plain : Parcel M → Prop
  | .rumors _ | .status _ | .searchRequest _ => False
  | _ => True

/-- What is for neighbors only is at its destination. -/
theorem Tells.plain {f : Flight M} (h : g.Tells f) (haway : f.addr ≠ f.header.destination) :
    Plain f.pkt.msg := by
  unfold Tells at h
  cases hmsg : f.pkt.msg with
  | rumors | status | searchRequest =>
    rw [hmsg] at h
    exact haway h.1
  | _ => trivial

theorem Tells.of_plain {f : Flight M} (h : Plain f.pkt.msg) : g.Tells f := by
  unfold Tells
  cases hmsg : f.pkt.msg with
  | rumors | status | searchRequest =>
    rw [hmsg] at h
    exact h.elim
  | _ => trivial

theorem sends_plain {table : GoMap String String} {dest nextAddr : String} {parcel : Parcel M}
    (hplain : Plain parcel)
    (hknown : dest ≠ "" → nextAddr = dest ∨ dest ∈ (g.nodes nextAddr).routingTable) :
    Sends g table ⟨dest, nextAddr, parcel⟩ := by
  refine ⟨hknown, ?_, ?_, ?_⟩
  all_goals
    rintro msg rfl
    exact hplain.elim

theorem Mapped.sends_byRoute (h : g.Mapped) {dest : String} {parcel : Parcel M}
    (hplain : Plain parcel) {table : GoMap String String} {l : Letter M}
    (hl : l ∈ (g.nodes n).byRoute dest parcel) : Sends g table l := by
  obtain ⟨q, hq, rfl⟩ := Option.map_eq_some_iff.mp (Option.mem_toList.mp hl)
  exact sends_plain hplain fun hd => h.known_of_next hd hq

theorem sends_direct {table : GoMap String String} {addr : String} {parcel : Parcel M}
    (hrumors : ∀ rumors, parcel = .rumors rumors → ∀ r ∈ rumors, r.origin ≠ "" → r.origin ∈ table)
    (hsearch : ∀ msg, parcel = .searchRequest msg → msg.origin ∈ table) :
    Sends g table (SharingNode.direct addr parcel) :=
  ⟨fun _ => .inl rfl, fun rumors hp => ⟨rfl, hrumors rumors hp⟩, fun _ _ => rfl,
    fun msg hp => ⟨rfl, hsearch msg hp⟩⟩

theorem sends_rumors {table : GoMap String String} {addr : String} {rumors : List (Gossip.Rumor M)}
    (h : ∀ r ∈ rumors, r.origin ≠ "" → r.origin ∈ table) :
    Sends g table (SharingNode.direct addr (.rumors rumors)) :=
  sends_direct (fun _ hp => Parcel.rumors.inj hp ▸ h) nofun

theorem Mapped.origin_mem (h : g.Mapped) {o : String} {r : Gossip.Rumor M}
    (hr : r ∈ (g.nodes n).rumorTable.list o) : r.origin ∈ (g.nodes n).routingTable := by
  rw [(g.nodes n).rumorTable.origins o r hr]
  exact h.origins n o (List.ne_nil_of_mem hr)

theorem Mapped.mem_self (h : g.Mapped) (n : String) : n ∈ (g.nodes n).routingTable := by
  have hself : (g.nodes n).routingTable.lookup n = some n := h.self n
  exact Finmap.lookup_isSome.mp (hself ▸ rfl)

end Letters

theorem mem_searchFile {s : SearchNode} {msg : SearchRequestMessage} {prev : String}
    {shuffled : List String} {packets : List SearchPacket}
    (h : s.searchFile msg prev shuffled = some packets) {p : SearchPacket} (hp : p ∈ packets) :
    p.msg.origin = msg.origin := by
  unfold SearchNode.searchFile at h
  split_ifs at h
  obtain rfl := Option.some.inj h
  obtain ⟨_, _, rfl⟩ := List.mem_map.mp hp
  rfl

theorem entered_execSearchRequestMessage {s s' : SearchNode} {msg : SearchRequestMessage}
    {relayedBy : String} {shuffled : List String} {packets : List SearchPacket}
    (h : s.execSearchRequestMessage msg relayedBy shuffled = some (s', packets))
    (hrelayed : relayedBy ≠ "") (hknown : msg.origin ∈ (g.nodes relayedBy).routingTable) :
    s'.myAddr = s.myAddr ∧ Entered g s.routingTable s'.routingTable ∧
      msg.origin ∈ s'.routingTable ∧ ∀ p ∈ packets, p.msg.origin = msg.origin := by
  have hroute : ∀ t : SearchNode, t = (if msg.origin ∈ s.routingTable then s
        else s.setRoutingEntry msg.origin relayedBy) →
      t.myAddr = s.myAddr ∧ Entered g s.routingTable t.routingTable ∧
        msg.origin ∈ t.routingTable := by
    rintro t rfl
    split_ifs with hin
    · exact ⟨rfl, .same, hin⟩
    · rw [SearchNode.setRoutingEntry, if_neg hrelayed]
      exact ⟨rfl, .learned hin fun _ => hknown, Finmap.mem_insert.mpr (.inl rfl)⟩
  unfold SearchNode.execSearchRequestMessage at h
  dsimp only at h
  by_cases hbudget : 0 < msg.budget - 1
  · rw [if_pos hbudget] at h
    obtain ⟨ps, hps, heq⟩ := Option.map_eq_some_iff.mp h
    obtain ⟨rfl, rfl⟩ := Prod.mk.inj heq
    obtain ⟨haddr, henter, hin⟩ := hroute _ rfl
    exact ⟨haddr, henter, hin, fun p hp => mem_searchFile hps hp⟩
  · rw [if_neg hbudget] at h
    obtain ⟨rfl, rfl⟩ := Prod.mk.inj (Option.some.inj h)
    obtain ⟨haddr, henter, hin⟩ := hroute _ rfl
    exact ⟨haddr, henter, hin, nofun⟩

section Frame

/-! What the handlers of replies leave alone. -/

variable (source : String) (msg : SearchReplyMessage) (s : SharingNode M)

theorem learn_frame (info : FileInfo) :
    (SharingNode.learn source s info).myAddr = s.myAddr ∧
      (SharingNode.learn source s info).routingTable = s.routingTable ∧
      (SharingNode.learn source s info).rumorTable = s.rumorTable ∧
      (SharingNode.learn source s info).handling = s.handling ∧
      (SharingNode.learn source s info).relayedBy = s.relayedBy := by
  unfold SharingNode.learn
  generalize info.chunks.reduceOption = keys
  generalize hbase : (s.setName info.name info.metahash).updateCatalog info.metahash source = base
  have hsame : base.myAddr = s.myAddr ∧ base.routingTable = s.routingTable ∧
      base.rumorTable = s.rumorTable ∧ base.handling = s.handling ∧
      base.relayedBy = s.relayedBy := by
    subst hbase
    exact ⟨rfl, rfl, rfl, rfl, rfl⟩
  clear hbase
  induction keys generalizing base with
  | nil => exact hsame
  | cons key keys ih => exact ih (base.updateCatalog key source) hsame

theorem execSearchReplyMessage_frame :
    (s.execSearchReplyMessage source msg).myAddr = s.myAddr ∧
      (s.execSearchReplyMessage source msg).routingTable = s.routingTable ∧
      (s.execSearchReplyMessage source msg).rumorTable = s.rumorTable ∧
      (s.execSearchReplyMessage source msg).handling = s.handling ∧
      (s.execSearchReplyMessage source msg).relayedBy = s.relayedBy := by
  unfold SharingNode.execSearchReplyMessage
  generalize msg.responses = infos
  induction infos generalizing s with
  | nil => exact ⟨rfl, rfl, rfl, rfl, rfl⟩
  | cons info infos ih =>
    obtain ⟨haddr, htable, hrumors, hhandling, hrelayed⟩ := learn_frame source s info
    obtain ⟨haddr', htable', hrumors', hhandling', hrelayed'⟩ := ih (.learn source s info)
    exact ⟨haddr'.trans haddr, htable'.trans htable, hrumors'.trans hrumors,
      hhandling'.trans hhandling, hrelayed'.trans hrelayed⟩

end Frame

section Steps

variable {env : SharingEnv M}

/-- Rumors of a node's own table, and zero ones, come from where it has a way to. -/
theorem Mapped.origins_mem (h : g.Mapped) {rumors : List (Gossip.Rumor M)}
    (hrumors : ∀ r ∈ rumors, (∃ o, r ∈ (g.nodes n).rumorTable.list o) ∨ r = Gossip.Rumor.zero) :
    ∀ r ∈ rumors, r.origin ≠ "" → r.origin ∈ (g.nodes n).routingTable := by
  intro r hr ho
  rcases hrumors r hr with ⟨o, hmem⟩ | rfl
  · exact h.origin_mem hmem
  · exact absurd rfl ho

theorem Mapped.sends_answer (h : g.Mapped) {hdr : Transport.Header} {choice : Choice}
    {status : StatusMessage} {replies : List (StatusReply M)}
    (hreplies : execStatusMessage (g.nodes n).rumorTable (env.spare (g.nodes n).rumorTable) status
      choice.order choice.monger.isSome = some replies) (hdirect : hdr.relayedBy = hdr.source)
    {l : Letter M} (hl : l ∈ replies.flatMap (SharingNode.answer hdr choice.monger)) :
    Sends g (g.nodes n).routingTable l := by
  obtain ⟨reply, hreply, hl⟩ := List.mem_flatMap.mp hl
  cases reply with
  | rumors rumors =>
    obtain rfl := List.mem_singleton.mp hl
    rw [hdirect]
    apply sends_rumors
    refine h.origins_mem fun r hr => .inl ?_
    exact mem_execStatusMessage hreplies (List.mem_flatMap.mpr
      ⟨_, hreply, List.mem_singleton_self _⟩) hr
  | status status =>
    obtain rfl := List.mem_singleton.mp hl
    rw [hdirect]
    exact sends_direct nofun nofun
  | mongering status =>
    obtain ⟨neighbor, _, rfl⟩ := List.mem_map.mp hl
    exact sends_direct nofun nofun

theorem Mapped.process (h : g.Mapped) {f : Flight M} (hf : f ∈ g.flights)
    {choice : Choice} {result : SharingNode M × List (Letter M)}
    (hresult : (g.nodes n).process env f.header choice f.pkt.msg = some result) :
    g.Legal n result := by
  obtain ⟨hrelayed, htells⟩ := h.tells f hf
  unfold Tells at htells
  unfold SharingNode.process at hresult
  split at hresult
  · rename_i rumors hmsg
    obtain rfl := Option.some.inj hresult
    rw [hmsg] at htells
    exact ⟨h.myAddr n, .same, h.origins n, htells.2, nofun⟩
  · rename_i status hmsg
    obtain ⟨replies, hreplies, rfl⟩ := Option.map_eq_some_iff.mp hresult
    rw [hmsg] at htells
    exact h.legal_self rfl rfl rfl (.inr ⟨rfl, rfl⟩) fun l hl =>
      h.sends_answer hreplies htells.2 hl
  · rename_i msg hmsg
    obtain ⟨⟨s, packets⟩, hs, rfl⟩ := Option.map_eq_some_iff.mp hresult
    rw [hmsg] at htells
    obtain ⟨haddr, henter, hin, hpackets⟩ :=
      entered_execSearchRequestMessage hs hrelayed htells.2
    refine ⟨haddr.trans (h.myAddr n), henter, fun o ho => henter.subset (h.origins n o ho),
      h.handling n, fun l hl => ?_⟩
    rcases List.mem_append.mp hl with hl | hl
    · obtain ⟨p, hp, rfl⟩ := List.mem_map.mp hl
      refine sends_direct nofun fun msg' hmsg' => ?_
      obtain rfl := Parcel.searchRequest.inj hmsg'
      rw [hpackets p hp]
      exact hin
    · obtain ⟨reply, _, rfl⟩ := List.mem_map.mp hl
      exact sends_plain trivial fun _ => .inr htells.2
  · obtain rfl := Option.some.inj hresult
    obtain ⟨haddr, htable, hrumors, hhandling, hrelayed⟩ :=
      execSearchReplyMessage_frame f.header.source ‹_› (g.nodes n)
    exact h.legal_self haddr htable hrumors (.inr ⟨hhandling, hrelayed⟩) nofun
  · obtain rfl := Option.some.inj hresult
    exact h.legal_self rfl rfl rfl (.inr ⟨rfl, rfl⟩) fun l hl =>
      h.sends_byRoute (show Plain (.dataReply _) from trivial) hl
  all_goals
    obtain rfl := Option.some.inj hresult
    exact h.legal_self rfl rfl rfl (.inr ⟨rfl, rfl⟩) nofun

theorem Mapped.accept (h : g.Mapped) {peers : List String}
    {result : SharingNode M × List (Letter M)} (hresult : (g.nodes n).accept peers = some result) :
    g.Legal n result := by
  unfold SharingNode.accept at hresult
  split at hresult
  · cases hresult
  rename_i r rest hhandling
  have htold := h.handling n
  rw [hhandling] at htold
  have hroute : (((g.nodes n).setRoute r.origin (g.nodes n).relayedBy).myAddr = n ∧
      ((g.nodes n).setRoute r.origin (g.nodes n).relayedBy).relayedBy = (g.nodes n).relayedBy) ∧
      Entered g (g.nodes n).routingTable
        ((g.nodes n).setRoute r.origin (g.nodes n).relayedBy).routingTable ∧
      r.origin ∈ ((g.nodes n).setRoute r.origin (g.nodes n).relayedBy).routingTable := by
    unfold SharingNode.setRoute
    split_ifs with hin
    · exact ⟨⟨h.myAddr n, rfl⟩, .same, hin⟩
    · refine ⟨⟨h.myAddr n, rfl⟩, .learned hin fun ho => ?_, Finmap.mem_insert.mpr (.inl rfl)⟩
      exact htold r List.mem_cons_self ho
  obtain ⟨⟨haddr, hrelayed⟩, henter, hin⟩ := hroute
  have hrest : g.Locates
      ((g.nodes n).setRoute r.origin (g.nodes n).relayedBy).relayedBy rest := by
    rw [hrelayed]
    exact fun q hq => htold q (List.mem_cons_of_mem _ hq)
  have horigins : ∀ o, ((g.nodes n).rumorTable.tryToAcceptOrigin r).1.list o ≠ [] →
      o ∈ ((g.nodes n).setRoute r.origin (g.nodes n).relayedBy).routingTable := by
    intro o ho
    by_cases hor : o = r.origin
    · exact hor ▸ hin
    · rw [SafeRumorTable.list_tryToAcceptOrigin, if_neg hor] at ho
      exact henter.subset (h.origins n o ho)
  have hpush : ∀ l ∈ peers.map fun peer => SharingNode.direct peer (.rumors [r]),
      Sends g ((g.nodes n).setRoute r.origin (g.nodes n).relayedBy).routingTable l := by
    intro l hl
    obtain ⟨peer, _, rfl⟩ := List.mem_map.mp hl
    refine sends_rumors fun q hq _ => ?_
    obtain rfl := List.mem_singleton.mp hq
    exact hin
  generalize htry : (g.nodes n).rumorTable.tryToAcceptOrigin r = answer at hresult horigins
  obtain ⟨t, v⟩ := answer
  cases v with
  | future =>
    obtain rfl := Option.some.inj hresult
    exact ⟨haddr, henter, horigins, hrest, nofun⟩
  | process =>
    obtain rfl := Option.some.inj hresult
    exact ⟨haddr, henter, horigins, hrest, hpush⟩
  | prune =>
    obtain rfl := Option.some.inj hresult
    exact ⟨haddr, henter, horigins, hrest, hpush⟩

theorem Mapped.act (h : g.Mapped) {e : SharingEvent M} (hout : g.Outward e)
    {result : SharingNode M × List (Letter M)}
    (hresult : (g.nodes e.addr).act env e.act = some result) :
    g.Legal e.addr result := by
  obtain ⟨n, id, a⟩ := e
  cases a with
  | addPeer addr =>
    obtain rfl := Option.some.inj hresult
    refine ⟨h.myAddr n, .neighbor addr, fun o ho => ?_, h.handling n, nofun⟩
    exact Finmap.mem_insert.mpr (.inr (h.origins n o ho))
  | setRoutingEntry origin relayAddr =>
    obtain rfl := Option.some.inj hresult
    obtain ⟨hrelay, hway⟩ := hout
    have henter : Entered g (g.nodes n).routingTable
        ((g.nodes n).toSearchNode.setRoutingEntry origin relayAddr).routingTable := by
      rw [SearchNode.setRoutingEntry, if_neg hrelay]
      rcases hway with rfl | ⟨habsent, hknown⟩
      · exact .neighbor origin
      · exact .learned habsent fun _ => hknown
    have haddr : ((g.nodes n).toSearchNode.setRoutingEntry origin relayAddr).myAddr = n := by
      rw [SearchNode.setRoutingEntry, if_neg hrelay]
      exact h.myAddr n
    exact ⟨haddr, henter, fun o ho => henter.subset (h.origins n o ho), h.handling n, nofun⟩
  | broadcast msg peers =>
    obtain rfl := Option.some.inj hresult
    refine ⟨h.myAddr n, .same, fun o ho => ?_, h.handling n, fun l hl => ?_⟩
    · have hlist :
          ((g.nodes n).rumorTable.newRumorsMessage (g.nodes n).myAddr msg).1.list o ≠ [] := ho
      rw [SafeRumorTable.list_newRumorsMessage] at hlist
      by_cases hself : o = (g.nodes n).myAddr
      · rw [hself, h.myAddr n]
        exact h.mem_self n
      · rw [if_neg hself] at hlist
        exact h.origins n o hlist
    · obtain ⟨peer, _, rfl⟩ := List.mem_map.mp hl
      refine sends_rumors fun r hr _ => ?_
      obtain rfl := List.mem_singleton.mp hr
      exact (h.myAddr n).symm ▸ h.mem_self n
  | resend origin i peer =>
    obtain ⟨r, hr, rfl⟩ := Option.map_eq_some_iff.mp hresult
    refine h.legal_self rfl rfl rfl (.inr ⟨rfl, rfl⟩) fun l hl => ?_
    obtain rfl := List.mem_singleton.mp hl
    refine sends_rumors fun q hq _ => ?_
    obtain rfl := List.mem_singleton.mp hq
    exact h.origin_mem (List.mem_of_getElem? hr)
  | graft source seq dest =>
    obtain ⟨rumors, hrumors, rfl⟩ := Option.map_eq_some_iff.mp hresult
    refine h.legal_self rfl rfl rfl (.inr ⟨rfl, rfl⟩) fun l hl => ?_
    obtain rfl := List.mem_singleton.mp hl
    refine sends_rumors (h.origins_mem fun r hr => ?_)
    exact (SafeRumorTable.mem_getInterval hrumors hr).imp_left fun hmem => ⟨source, hmem⟩
  | antiEntropy neighbor =>
    obtain rfl := Option.some.inj hresult
    refine h.legal_self rfl rfl rfl (.inr ⟨rfl, rfl⟩) fun l hl => ?_
    obtain rfl := List.mem_singleton.mp hl
    exact sends_direct nofun nofun
  | unicast dest m =>
    obtain rfl := Option.some.inj hresult
    exact h.legal_self rfl rfl rfl (.inr ⟨rfl, rfl⟩) fun l hl =>
      h.sends_byRoute (show Plain (.other m) from trivial) hl
  | sendChunk peer msg =>
    obtain rfl := Option.some.inj hresult
    refine h.legal_self rfl rfl rfl (.inr ⟨rfl, rfl⟩) fun l hl => ?_
    obtain rfl := List.mem_singleton.mp hl
    exact sends_direct nofun nofun
  | upload chunkSize data =>
    obtain ⟨stored, _, rfl⟩ := Option.map_eq_some_iff.mp hresult
    exact h.legal_self rfl rfl rfl (.inr ⟨rfl, rfl⟩) nofun
  | tag name metahash =>
    obtain rfl := Option.some.inj hresult
    exact h.legal_self rfl rfl rfl (.inr ⟨rfl, rfl⟩) nofun
  | updateCatalog key peer =>
    obtain rfl := Option.some.inj hresult
    exact h.legal_self rfl rfl rfl (.inr ⟨rfl, rfl⟩) nofun
  | searchFile requestID pattern budget shuffled =>
    obtain ⟨packets, hpackets, rfl⟩ := Option.map_eq_some_iff.mp hresult
    refine h.legal_self rfl rfl rfl (.inr ⟨rfl, rfl⟩) fun l hl => ?_
    obtain ⟨p, hp, rfl⟩ := List.mem_map.mp hl
    refine sends_direct nofun fun msg hmsg => ?_
    obtain rfl := Parcel.searchRequest.inj hmsg
    rw [mem_searchFile hpackets hp, h.myAddr n]
    exact h.mem_self n
  | request requestID key dst =>
    simp only [SharingNode.act] at hresult
    split_ifs at hresult
    obtain rfl := Option.some.inj hresult
    exact h.legal_self rfl rfl rfl (.inr ⟨rfl, rfl⟩) fun l hl =>
      h.sends_byRoute (show Plain (.dataRequest _) from trivial) hl
  | reSendDataRequest dst =>
    obtain rfl := Option.some.inj hresult
    exact h.legal_self rfl rfl rfl (.inr ⟨rfl, rfl⟩) fun l hl =>
      h.sends_byRoute (show Plain (.dataRequest _) from trivial) hl
  | arrive i choice => cases hresult
  | accept peers => exact h.accept hresult
  | returned =>
    obtain rfl := Option.some.inj hresult
    exact h.legal_self rfl rfl rfl (.inl rfl) nofun

theorem Mapped.relay (h : g.Mapped) {f : Flight M} (hf : f ∈ g.flights) (hsocket : f.addr ≠ "")
    (haway : f.addr ≠ f.header.destination) {q : String}
    (hnext : g.next f.header.destination f.addr = some q) (id : Fresh) :
    Mapped { g with flights := g.flights ++ [passedOn f id q] } := by
  refine ⟨h.myAddr, h.self, h.nobody, fun d hd => ?_, h.origins, h.handling, fun f' hf' => ?_⟩
  · have hall := h.charted d hd
    have hpast : Charted (g.next d) d fun trail p => g.underWay d trail p ∨
        f.header.destination = d ∧ trail = f.relays ++ [f.addr] ∧ p = q := by
      by_cases hdest : f.header.destination = d
      · subst hdest
        have hpass := hall.pass ⟨f, hf, rfl, rfl, rfl⟩ haway hnext
        exact hpass.of_subset fun trail p hway => hway.imp_right fun hlast => hlast.2
      · exact hall.of_subset fun trail p hway => hway.resolve_right fun hlast => hdest hlast.1
    refine hpast.of_subset ?_
    rintro trail p ⟨f', hf', hdest, rfl, rfl⟩
    rcases List.mem_append.mp hf' with hf' | hf'
    · exact .inl ⟨f', hf', hdest, rfl, rfl⟩
    · obtain rfl := List.mem_singleton.mp hf'
      exact .inr ⟨hdest, rfl, rfl⟩
  · rcases List.mem_append.mp hf' with hf' | hf'
    · exact h.tells f' hf'
    · obtain rfl := List.mem_singleton.mp hf'
      have hplain : Plain f.pkt.msg := (h.tells f hf).2.plain haway
      exact ⟨hsocket, Tells.of_plain hplain⟩

theorem Mapped.step (h : g.Mapped) {e : SharingEvent M} (hout : g.Outward e)
    (hstep : g.step env e = some g') : g'.Mapped := by
  obtain ⟨hn, heffect⟩ := step_effect hstep
  cases heffect with
  | process _ mem _ handled => exact h.put hn (h.process mem handled)
  | act acts => exact h.put hn (h.act hout acts)
  | relay _ mem addr away known => exact h.relay mem (addr ▸ hn) away known _

theorem Mapped.grows (h : g.Mapped) {e : SharingEvent M} (hout : g.Outward e)
    (hstep : g.step env e = some g') {o : String} (ho : o ∈ (g.nodes p).routingTable) :
    o ∈ (g'.nodes p).routingTable := by
  obtain ⟨_, heffect⟩ := step_effect hstep
  cases heffect with
  | process _ mem _ handled => exact mem_routingTable_put (h.process mem handled).entered ho
  | act acts => exact mem_routingTable_put (h.act hout acts).entered ho
  | relay => exact ho

theorem mapped_start : (start : SharingNetwork M).Mapped where
  myAddr _ := rfl
  self _ := Finmap.lookup_singleton_eq
  nobody d hd hmem := hd ((Finmap.mem_singleton d "" "").mp hmem)
  charted d _ := by
    refine ⟨fun _ => 0, fun p q hp hq => ?_, ?_⟩
    · have hmem : d ∈ (Finmap.singleton p p : GoMap String String) :=
        Finmap.lookup_isSome.mp (Option.isSome_of_mem hq)
      exact absurd ((Finmap.mem_singleton d p p).mp hmem).symm hp
    · rintro trail p ⟨f, hf, _⟩
      cases hf
  origins _ _ ho := absurd rfl ho
  handling _ := nofun
  tells _ hf := nomatch hf

theorem mapped_of_run {es : List (SharingEvent M)} (h : Run (step env) Outward start es g) :
    g.Mapped :=
  h.invariant (I := Mapped) mapped_start fun hg hout hstep => hg.step hout hstep

/-- Where a node has an entry for a destination, the next hops lead there from it, and through no
node twice. -/
theorem routes_lead {es : List (SharingEvent M)} (h : Run (step env) Outward start es g)
    {d p : String} (hd : d ≠ "") (hp : d ∈ (g.nodes p).routingTable) :
    ∃ ps, Route (g.next d) d p ps ∧ (p :: ps).Nodup :=
  ((mapped_of_run h).charted d hd).exists_route (Finmap.lookup_isSome.mpr hp)

def Relays (g : SharingNetwork M) (e : SharingEvent M) : Prop :=
  ∃ i choice, e.act = .arrive i choice ∧ ∃ f ∈ g.flights[i]?, f.header.destination ≠ e.addr

theorem Relays.outward {e : SharingEvent M} (h : Relays g e) : g.Outward e := by
  obtain ⟨i, choice, hact, _⟩ := h
  rw [Outward, hact]
  trivial

theorem step_relay (env : SharingEnv M) {f : Flight M} {i : ℕ} (hi : g.flights[i]? = some f)
    (haddr : f.addr ≠ "") (haway : f.addr ≠ f.header.destination) {q : String}
    (hnext : g.next f.header.destination f.addr = some q) (id : ℕ → Fresh) (choice : Choice) :
    g.step env ⟨f.addr, id, .arrive i choice⟩ =
      some { g with flights := g.flights ++ [passedOn f (id 0) q] } := by
  have hlookup : (g.nodes f.addr).routingTable.lookup f.pkt.header.destination = some q := hnext
  have haway' : ¬ f.pkt.header.destination = f.addr := Ne.symm haway
  have harrival : f.step ⟨id 0, (g.nodes f.addr).routingTable⟩ =
      some (passedOn f (id 0) q).toArrival := by
    rw [Arrival.step, if_neg haway', relay, hlookup]
    rfl
  unfold SharingNetwork.step
  dsimp only
  rw [if_neg haddr, hi, Option.bind_some, if_neg (not_not.mpr rfl), if_neg (Ne.symm haway),
    harrival]
  rfl

/-- Along a route nothing but relays is needed. -/
theorem Mapped.exists_relays (h : g.Mapped) (env : SharingEnv M) {ps : List String} (hd : d ≠ "")
    (hroute : Route (g.next d) d p ps) {f : Flight M} (hf : f ∈ g.flights)
    (hdest : f.header.destination = d) (haddr : f.addr = p) :
    ∃ es g' f', Run (SharingNetwork.step env) Relays g es g' ∧ g'.nodes = g.nodes ∧
      f' ∈ g'.flights ∧ f'.addr = d ∧ f'.header.destination = d ∧
      f'.header.source = f.header.source ∧ f'.pkt.msg = f.pkt.msg ∧ f.relays <+: f'.relays := by
  induction ps generalizing g f p with
  | nil =>
    cases hroute
    exact ⟨[], g, f, .nil, rfl, hf, haddr, hdest, rfl, rfl, List.prefix_refl _⟩
  | cons q ps ih =>
    cases hroute with
    | hop away known rest =>
      subst hdest haddr
      obtain ⟨i, hi⟩ := List.mem_iff_getElem?.mp hf
      have hsocket : f.addr ≠ "" := by
        intro hnone
        rw [hnone] at known
        exact h.nobody _ hd (Finmap.lookup_isSome.mp (Option.isSome_of_mem known))
      have hstep := step_relay env hi hsocket away known (fun _ => ⟨"", 0⟩) {}
      have hrelays : Relays g ⟨f.addr, fun _ => ⟨"", 0⟩, .arrive i {}⟩ :=
        ⟨i, {}, rfl, f, hi, Ne.symm away⟩
      obtain ⟨es, g', f', hrun, hnodes, hf', haddr', hdest, hsource, hmsg, hpre⟩ :=
        ih (h.step hrelays.outward hstep) rest
          (List.mem_append_right _ (List.mem_singleton_self (passedOn f ⟨"", 0⟩ q))) rfl rfl
      exact ⟨_, g', f', (Run.one hrelays hstep).append hrun, hnodes, hf', haddr', hdest, hsource,
        hmsg, (List.prefix_append _ _).trans hpre⟩

theorem Mapped.exists_route (h : g.Mapped) {f : Flight M} (hf : f ∈ g.flights)
    (hd : f.header.destination ≠ "") :
    ∃ ps, Route (g.next f.header.destination) f.header.destination f.addr ps := by
  by_cases haway : f.addr = f.header.destination
  · rw [haway]
    exact ⟨[], .here⟩
  · obtain ⟨rank, hranked, hcourses⟩ := (h.charted _ hd).ranks
    have hcourse := hcourses f.relays f.addr ⟨f, hf, rfl, rfl, rfl⟩
    obtain ⟨ps, hroute, _⟩ := hranked.exists_route (hcourse.ahead haway).1
    exact ⟨ps, hroute⟩

/-- A packet under way is never stuck at a node that does not know where to pass it on, no node
passes it on twice, and relays alone can take it to its destination, where `Receiver` goes on at
every node on the way. -/
theorem packets_get_through {es : List (SharingEvent M)}
    (h : Run (step env) Outward start es g) {f : Flight M} (hf : f ∈ g.flights)
    (hd : f.header.destination ≠ "") :
    f.relays.Nodup ∧
      (f.addr ≠ f.header.destination →
        f.header.destination ∈ (g.nodes f.addr).routingTable ∧ f.addr ∉ f.relays) ∧
      ∃ es' g' f', Run (step env) Relays g es' g' ∧ f' ∈ g'.flights ∧
        f'.addr = f.header.destination ∧ f'.header.source = f.header.source ∧
        f'.pkt.msg = f.pkt.msg ∧ f.relays <+: f'.relays ∧ f'.relays.Nodup := by
  have hmapped := mapped_of_run h
  obtain ⟨rank, hranked, hcourses⟩ := (hmapped.charted _ hd).ranks
  have hcourse := hcourses f.relays f.addr ⟨f, hf, rfl, rfl, rfl⟩
  refine ⟨hcourse.nodup, fun haway => ⟨?_, hcourse.notMem haway⟩, ?_⟩
  · exact Finmap.lookup_isSome.mp (hcourse.ahead haway).1
  · obtain ⟨ps, hroute⟩ := hmapped.exists_route hf hd
    obtain ⟨es', g', f', hrun, _, hf', haddr, hdest, hsource, hmsg, hpre⟩ :=
      hmapped.exists_relays env hd hroute hf rfl rfl
    have hafter := mapped_of_run (h.append (hrun.imp fun _ _ => Relays.outward))
    obtain ⟨_, _, hcourses'⟩ := (hafter.charted _ hd).ranks
    exact ⟨es', g', f', hrun, hf', haddr, hsource, hmsg, hpre,
      (hcourses' f'.relays f'.addr ⟨f', hf', hdest, rfl, rfl⟩).nodup⟩

end Steps

end SharingNetwork

namespace Sample

open SharingNetwork

def env : SharingEnv String := ⟨primitives, fun _ => some fun _ => true, fun _ _ => 0⟩

def does (addr : String) (act : SharingAct String) : SharingEvent String :=
  ⟨addr, fun _ => ⟨"", 0⟩, act⟩

def heardOf : List (SharingEvent String) :=
  [does "A" (.broadcast "x" ["B"]), does "B" (.arrive 0 {}), does "B" (.accept ["C"]),
    does "C" (.arrive 1 {}), does "C" (.accept []), does "C" (.unicast "A" "y")]

theorem heardOf_isSome : (exec (guarded (step env) Outward) start heardOf).isSome := by decide

def heard : SharingNetwork String :=
  (exec (guarded (step env) Outward) start heardOf).get heardOf_isSome

theorem run_heard : Run (step env) Outward start heardOf heard :=
  run_of_guarded (run_exec_get heardOf_isSome)

theorem routes_lead_heard : ∃ ps, Route (heard.next "A") "A" "C" ps ∧ ("C" :: ps).Nodup :=
  routes_lead run_heard (by decide) (by decide)

theorem heard_flights : heard.flights.length = 3 := by decide

def toA : Flight String := heard.flights.get ⟨2, by rw [heard_flights]; decide⟩

theorem packets_get_through_heard :
    toA.relays.Nodup ∧
      (toA.addr ≠ toA.header.destination →
        toA.header.destination ∈ (heard.nodes toA.addr).routingTable ∧ toA.addr ∉ toA.relays) ∧
      ∃ es' g' f', Run (step env) Relays heard es' g' ∧ f' ∈ g'.flights ∧
        f'.addr = toA.header.destination ∧ f'.header.source = toA.header.source ∧
        f'.pkt.msg = toA.pkt.msg ∧ toA.relays <+: f'.relays ∧ f'.relays.Nodup :=
  packets_get_through run_heard (List.get_mem ..) (by decide)

example : toA.addr = "B" := by decide

end Sample

end JobPortal.Sharing
