import JobPortal.RumorTable
import JobPortal.Runs

/-! The nodes of one gossip network, none of them restarting. A node sends the rumors it makes
and rumors of its own table. A packet that was sent can arrive any number of times, at any node
and in any order, or never. -/
namespace JobPortal.Gossip

open NumberedLogs Runs

variable {M : Type}

structure Gossiper (M : Type) where
  rumorTable : SafeRumorTable M
  /-- The rumors of the packet in hand that were not looked at yet. -/
  handling : List (Rumor M)
  /-- The rumors `TryToAcceptOrigin` has answered "process" to, in this order. -/
  processed : List (String × ℕ)

structure GossipNetwork (M : Type) where
  nodes : String → Gossiper M
  sent : List (List (Rumor M))

inductive GossipEvent (M : Type)
  | broadcast (msg : M)
  /-- A packet arrives, named by its place among those sent. -/
  | receive (i : ℕ)
  /-- The handler looks at the next rumor of its packet. The mutexes of the trees are left out: it
  goes on here where it waits for one in the code, also where that is for ever. -/
  | accept
  /-- The handler returns with an error. -/
  | abort
  | graft (spare : String → ℕ) (source : String) (seq : ℤ)
  | status (spare : String → ℕ) (remoteStatus : StatusMessage) (order : List String)
      (mongers : Bool)

def StatusReply.packets : StatusReply M → List (List (Rumor M))
  | .rumors rs => [rs]
  | .status _ | .mongering _ => []

theorem mem_execStatusMessage {t : SafeRumorTable M} {spare : String → ℕ} {S : StatusMessage}
    {order : List String} {mongers : Bool} {replies : List (StatusReply M)}
    (h : execStatusMessage t spare S order mongers = some replies) {p : List (Rumor M)}
    (hp : p ∈ replies.flatMap StatusReply.packets) {r : Rumor M} (hr : r ∈ p) :
    ∃ o, r ∈ t.list o := by
  rw [execStatusMessage, t.findMyNew_eq, Option.map_some] at h
  obtain rfl := Option.some.inj h
  obtain ⟨reply, hreply, hp⟩ := List.mem_flatMap.mp hp
  have hfound : reply = .rumors (order.flatMap fun o => (t.list o).drop (S.at o 0)) ∨
      reply.packets = [] := by
    rcases List.mem_append.mp hreply with hreply | hreply
    · rcases List.mem_append.mp hreply with hreply | hreply
      all_goals split_ifs at hreply
      all_goals simp at hreply
      all_goals simp [hreply, StatusReply.packets]
    · split_ifs at hreply
      all_goals simp at hreply
      simp [hreply, StatusReply.packets]
  rcases hfound with rfl | hnone
  · obtain rfl := List.mem_singleton.mp hp
    obtain ⟨o, _, hro⟩ := List.mem_flatMap.mp hr
    exact ⟨o, List.mem_of_mem_drop hro⟩
  · rw [hnone] at hp
    cases hp

namespace GossipNetwork

def start : GossipNetwork M := ⟨fun _ => ⟨.new, [], []⟩, []⟩

def put (g : GossipNetwork M) (n : String) (s : Gossiper M) (ps : List (List (Rumor M))) :
    GossipNetwork M := ⟨Function.update g.nodes n s, g.sent ++ ps⟩

/-- A step of one node. Handlers of packets run one at a time; a broadcast can come in between. The
mutexes of the trees are left out: a packet is gone through here also where its handler waits for
one for ever in the code. -/
def step (g : GossipNetwork M) : String × GossipEvent M → Option (GossipNetwork M)
  | (n, .broadcast msg) =>
    let s := g.nodes n
    let (t, packet) := s.rumorTable.newRumorsMessage n msg
    some (g.put n { s with rumorTable := t } [packet])
  | (n, .receive i) =>
    let s := g.nodes n
    if s.handling.isEmpty then
      (g.sent[i]?).map fun packet => g.put n { s with handling := packet } []
    else none
  | (n, .accept) =>
    let s := g.nodes n
    match s.handling with
    | [] => none
    | r :: rest =>
      match s.rumorTable.tryToAcceptOrigin r with
      -- a rumor that is pushed to the eager peers goes alone
      | (t, .process) =>
        some (g.put n ⟨t, rest, s.processed ++ [(r.origin, r.sequence)]⟩ [[r]])
      | (t, .prune) => some (g.put n { s with rumorTable := t, handling := rest } [[r]])
      | (t, .future) => some (g.put n { s with rumorTable := t, handling := rest } [])
  | (n, .abort) => some (g.put n { g.nodes n with handling := [] } [])
  | (n, .graft spare source seq) =>
    let s := g.nodes n
    if s.handling.isEmpty then
      (execGraftMessage s.rumorTable spare source seq).map fun rumors => g.put n s [rumors]
    else none
  | (n, .status spare remoteStatus order mongers) =>
    let s := g.nodes n
    if s.handling.isEmpty then
      (execStatusMessage s.rumorTable spare remoteStatus order mongers).map fun replies =>
        g.put n s (replies.flatMap StatusReply.packets)
    else none

/-- What every node has of every origin. -/
def replicas (g : GossipNetwork M) : Replicas String (Rumor M) := fun n =>
  (g.nodes n).rumorTable.list

/-- A rumor its origin has, or a zero one from behind the end of a list. -/
def Genuine (g : GossipNetwork M) (r : Rumor M) : Prop :=
  r ∈ g.replicas r.origin r.origin ∨ r = Rumor.zero

variable {g g' : GossipNetwork M} {n : String} {e : GossipEvent M}

theorem replicas_put (g : GossipNetwork M) (n : String) (s : Gossiper M)
    (ps : List (List (Rumor M))) :
    (g.put n s ps).replicas = Function.update g.replicas n s.rumorTable.list := by
  funext a
  by_cases ha : a = n
  · subst ha
    simp [replicas, put]
  · simp [replicas, put, ha]

theorem replicas_put_self {s : Gossiper M} (h : s.rumorTable = (g.nodes n).rumorTable)
    (ps : List (List (Rumor M))) : (g.put n s ps).replicas = g.replicas := by
  rw [replicas_put, h]
  exact Function.update_eq_self n g.replicas

theorem replicas_broadcast {msg : M} {s : Gossiper M}
    (hs : s.rumorTable = ((g.nodes n).rumorTable.newRumorsMessage n msg).1)
    (ps : List (List (Rumor M))) :
    ∃ d, Replicas.step Rumor.sequence g.replicas d = some (g.put n s ps).replicas := by
  refine ⟨.write n ⟨n, (g.replicas n n).length + 1, some msg⟩, ?_⟩
  rw [Replicas.step, if_pos rfl, replicas_put, hs, Replicas.set]
  congr 2
  funext o
  rw [SafeRumorTable.list_newRumorsMessage, Function.update_apply]
  rfl

/-- To look at a rumor is to be offered an entry of its origin's log. -/
theorem replicas_accept {r : Rumor M} (hr : Genuine g r) {s : Gossiper M}
    (hs : s.rumorTable = ((g.nodes n).rumorTable.tryToAcceptOrigin r).1)
    (ps : List (List (Rumor M))) :
    (g.put n s ps).replicas = g.replicas ∨
      ∃ d, Replicas.step Rumor.sequence g.replicas d = some (g.put n s ps).replicas := by
  have hlist : (g.put n s ps).replicas =
      g.replicas.set n r.origin (offer Rumor.sequence (g.replicas n r.origin) r) := by
    rw [replicas_put, Replicas.set, hs]
    congr 1
    funext o
    rw [SafeRumorTable.list_tryToAcceptOrigin, Function.update_apply]
    rfl
  rcases hr with hmem | rfl
  · obtain ⟨i, hi⟩ := List.mem_iff_getElem?.mp hmem
    refine .inr ⟨.read n r.origin i, ?_⟩
    rw [Replicas.step, hi, hlist, Option.map_some]
  · left
    have hnot : ¬ (Rumor.zero : Rumor M).sequence =
        (g.replicas n (Rumor.zero : Rumor M).origin).length + 1 := by simp [Rumor.zero]
    rw [hlist, offer, if_neg hnot]
    simp [Replicas.set]

theorem Genuine.mono {r : Rumor M} (h : g.Genuine r)
    (hgrow : ∀ a o, g.replicas a o <+: g'.replicas a o) : g'.Genuine r :=
  h.imp_left fun hmem => (hgrow r.origin r.origin).subset hmem

/-- What the nodes have, what is under way, and what was processed. -/
structure Consistent (g : GossipNetwork M) : Prop where
  sound : Replicas.Sound Rumor.sequence g.replicas
  sent : ∀ p ∈ g.sent, ∀ r ∈ p, g.Genuine r
  handling : ∀ n, ∀ r ∈ (g.nodes n).handling, g.Genuine r
  processed : ∀ n o, eventsOf o (g.nodes n).processed =
    if n = o then [] else List.range' 1 (g.replicas n o).length

theorem consistent_start : (start : GossipNetwork M).Consistent where
  sound := ⟨fun _ => numbered_nil, fun _ _ => List.prefix_refl _⟩
  sent p hp := by simp [start] at hp
  handling n r hr := by simp [start] at hr
  processed n o := by simp [start, eventsOf, replicas]

theorem Consistent.put (h : g.Consistent) {s : Gossiper M} {ps : List (List (Rumor M))}
    (hreplicas : (g.put n s ps).replicas = g.replicas ∨
      ∃ d, Replicas.step Rumor.sequence g.replicas d = some (g.put n s ps).replicas)
    (hps : ∀ p ∈ ps, ∀ r ∈ p, (g.put n s ps).Genuine r)
    (hhandling : ∀ r ∈ s.handling, g.Genuine r)
    (hprocessed : ∀ o, eventsOf o s.processed =
      if n = o then [] else List.range' 1 (s.rumorTable.list o).length) :
    (g.put n s ps).Consistent := by
  have hgrow : ∀ a o, g.replicas a o <+: (g.put n s ps).replicas a o := by
    intro a o
    rcases hreplicas with hsame | ⟨d, hd⟩
    · rw [hsame]
    · exact Replicas.step_prefix hd a o
  refine ⟨?_, ?_, ?_, ?_⟩
  · rcases hreplicas with hsame | ⟨d, hd⟩
    · rw [hsame]
      exact h.sound
    · exact h.sound.step hd
  · intro p hp r hr
    rcases List.mem_append.mp hp with hp | hp
    · exact (h.sent p hp r hr).mono hgrow
    · exact hps p hp r hr
  · intro a r hr
    simp only [GossipNetwork.put, Function.update_apply] at hr
    split_ifs at hr with ha
    · exact (hhandling r hr).mono hgrow
    · exact (h.handling a r hr).mono hgrow
  · intro a o
    rw [replicas_put]
    by_cases ha : a = n
    · subst ha
      simpa [GossipNetwork.put] using hprocessed o
    · simpa [GossipNetwork.put, ha] using h.processed a o

/-- Rumors from behind a list's end apart, a node sends what it has. -/
theorem Consistent.genuine_of_list (h : g.Consistent) {o : String} {r : Rumor M}
    (hr : r ∈ g.replicas n o ∨ r = Rumor.zero) : g.Genuine r := by
  apply hr.imp_left
  intro hmem
  obtain rfl := (g.nodes n).rumorTable.origins o r hmem
  exact (h.sound.copies n r.origin).subset hmem

theorem Consistent.put_self (h : g.Consistent) {s : Gossiper M} {ps : List (List (Rumor M))}
    (htable : s.rumorTable = (g.nodes n).rumorTable)
    (hprocessed : s.processed = (g.nodes n).processed)
    (hps : ∀ p ∈ ps, ∀ r ∈ p, g.Genuine r) (hhandling : ∀ r ∈ s.handling, g.Genuine r) :
    (g.put n s ps).Consistent := by
  have hsame := replicas_put_self htable ps
  refine h.put (.inl hsame) (fun p hp r hr => ?_) hhandling fun o => ?_
  · rw [Genuine, hsame]
    exact hps p hp r hr
  · rw [hprocessed, htable]
    exact h.processed n o

theorem Consistent.broadcast (h : g.Consistent) (msg : M) :
    (g.put n { g.nodes n with
        rumorTable := ((g.nodes n).rumorTable.newRumorsMessage n msg).1 }
      [((g.nodes n).rumorTable.newRumorsMessage n msg).2]).Consistent := by
  refine h.put (.inr (replicas_broadcast rfl _)) ?_ (h.handling n) ?_
  · intro p hp r hr
    obtain rfl := List.mem_singleton.mp hp
    obtain rfl := List.mem_singleton.mp hr
    left
    rw [replicas_put, Function.update_self, SafeRumorTable.list_newRumorsMessage, if_pos rfl]
    exact List.mem_append_right _ hr
  · intro o
    rw [SafeRumorTable.list_newRumorsMessage, h.processed n o]
    by_cases ho : n = o
    · rw [if_pos ho, if_pos ho]
    · rw [if_neg ho, if_neg ho, if_neg (Ne.symm ho)]
      rfl

/-- A rumor that is processed is the next one of another origin. -/
theorem Consistent.process (h : g.Consistent) {r : Rumor M} {rest : List (Rumor M)}
    (hhandling : (g.nodes n).handling = r :: rest)
    (hv : ((g.nodes n).rumorTable.tryToAcceptOrigin r).2 = .process) :
    (g.put n ⟨((g.nodes n).rumorTable.tryToAcceptOrigin r).1, rest,
      (g.nodes n).processed ++ [(r.origin, r.sequence)]⟩ [[r]]).Consistent := by
  have hall := h.handling n
  rw [hhandling] at hall
  have hr := hall r List.mem_cons_self
  have hnext := ((g.nodes n).rumorTable.tryToAcceptOrigin_process r).mp hv
  have hother : r.origin ≠ n := by
    rintro rfl
    rcases hr with hmem | rfl
    · obtain ⟨i, hnum, hi⟩ := (h.sound.numbered r.origin).eq_of_mem hmem
      have hlt := (List.getElem?_eq_some_iff.mp hi).1
      simp only [replicas] at hlt
      omega
    · simp [Rumor.zero] at hnext
  have hstep := replicas_accept (s := ⟨((g.nodes n).rumorTable.tryToAcceptOrigin r).1, rest,
    (g.nodes n).processed ++ [(r.origin, r.sequence)]⟩) hr rfl [[r]]
  refine h.put hstep ?_ (fun q hq => hall q (List.mem_cons_of_mem _ hq)) ?_
  · intro p hp q hq
    obtain rfl := List.mem_singleton.mp hp
    obtain rfl := List.mem_singleton.mp hq
    apply hr.mono
    intro a o
    rcases hstep with hsame | ⟨d, hd⟩
    · rw [hsame]
    · exact Replicas.step_prefix hd a o
  · intro o
    rw [SafeRumorTable.list_tryToAcceptOrigin]
    by_cases ho : o = r.origin
    · subst ho
      have hprior := h.processed n r.origin
      rw [if_neg (Ne.symm hother)] at hprior
      rw [eventsOf_concat_self, hprior, if_neg (Ne.symm hother), if_pos rfl, offer, if_pos hnext,
        List.length_append, List.length_singleton, List.range'_1_concat, hnext, Nat.add_comm 1]
      rfl
    · rw [eventsOf_concat_of_ne (Ne.symm ho), if_neg ho]
      exact h.processed n o

theorem Consistent.passOver (h : g.Consistent) {r : Rumor M} {rest : List (Rumor M)}
    (hhandling : (g.nodes n).handling = r :: rest)
    (hv : ((g.nodes n).rumorTable.tryToAcceptOrigin r).2 ≠ .process)
    {ps : List (List (Rumor M))} (hps : ps ⊆ [[r]]) :
    (g.put n { g.nodes n with
      rumorTable := ((g.nodes n).rumorTable.tryToAcceptOrigin r).1, handling := rest }
        ps).Consistent := by
  have hall := h.handling n
  rw [hhandling] at hall
  refine h.put_self (SafeRumorTable.tryToAcceptOrigin_eq_self hv) rfl ?_ fun q hq =>
    hall q (List.mem_cons_of_mem _ hq)
  intro p hp q hq
  obtain rfl := List.mem_singleton.mp (hps hp)
  obtain rfl := List.mem_singleton.mp hq
  exact hall q List.mem_cons_self

theorem Consistent.step (h : g.Consistent) (hstep : g.step (n, e) = some g') : g'.Consistent := by
  cases e with
  | broadcast msg =>
    obtain rfl := Option.some.inj hstep
    exact h.broadcast msg
  | receive i =>
    simp only [GossipNetwork.step] at hstep
    split_ifs at hstep
    obtain ⟨packet, hp, rfl⟩ := Option.map_eq_some_iff.mp hstep
    exact h.put_self rfl rfl (by simp) (h.sent packet (List.mem_of_getElem? hp))
  | accept =>
    simp only [GossipNetwork.step] at hstep
    split at hstep
    · cases hstep
    · rename_i r rest hhandling
      generalize hv : (g.nodes n).rumorTable.tryToAcceptOrigin r = answer at hstep
      obtain ⟨t, v⟩ := answer
      obtain rfl : ((g.nodes n).rumorTable.tryToAcceptOrigin r).1 = t := by rw [hv]
      replace hv : ((g.nodes n).rumorTable.tryToAcceptOrigin r).2 = v := by rw [hv]
      cases v with
      | process =>
        obtain rfl := Option.some.inj hstep
        exact h.process hhandling hv
      | prune =>
        obtain rfl := Option.some.inj hstep
        exact h.passOver hhandling (by simp [hv]) (List.Subset.refl _)
      | future =>
        obtain rfl := Option.some.inj hstep
        exact h.passOver hhandling (by simp [hv]) (List.nil_subset _)
  | abort =>
    obtain rfl := Option.some.inj hstep
    exact h.put_self rfl rfl (by simp) (by simp)
  | graft spare source seq =>
    simp only [GossipNetwork.step] at hstep
    split_ifs at hstep
    obtain ⟨rumors, hrumors, rfl⟩ := Option.map_eq_some_iff.mp hstep
    refine h.put_self rfl rfl ?_ (h.handling n)
    intro p hp r hr
    obtain rfl := List.mem_singleton.mp hp
    exact h.genuine_of_list (SafeRumorTable.mem_getInterval hrumors hr)
  | status spare remoteStatus order mongers =>
    simp only [GossipNetwork.step] at hstep
    split_ifs at hstep
    obtain ⟨replies, hreplies, rfl⟩ := Option.map_eq_some_iff.mp hstep
    refine h.put_self rfl rfl ?_ (h.handling n)
    intro p hp r hr
    obtain ⟨o, hmem⟩ := mem_execStatusMessage hreplies hp hr
    exact h.genuine_of_list (.inl hmem)

theorem consistent_of_run {es : List (String × GossipEvent M)}
    (h : AnyRun step (start : GossipNetwork M) es g) : g.Consistent :=
  h.invariant (I := Consistent) consistent_start fun hg _ hstep => hg.step hstep

/-- Rumors are taken in and processed in the order of their origin, each one once. -/
theorem rumors_in_order {es : List (String × GossipEvent M)}
    (h : AnyRun step (start : GossipNetwork M) es g) (n o : String) :
    (g.nodes n).rumorTable.list o <+: (g.nodes o).rumorTable.list o ∧
      (∀ i r, ((g.nodes n).rumorTable.list o)[i]? = some r → r.sequence = i + 1) ∧
      eventsOf o (g.nodes n).processed =
        if n = o then [] else List.range' 1 ((g.nodes n).rumorTable.list o).length := by
  have hg := consistent_of_run h
  exact ⟨hg.sound.copies n o, (g.nodes n).rumorTable.numbered o, hg.processed n o⟩

end GossipNetwork

namespace Sample

/-- The second rumor of `a` overtakes the first at `b`, gets there again as the answer to a status,
and the first one is repeated. -/
def overtaken : List (String × GossipEvent String) :=
  [("a", .broadcast "x"), ("a", .broadcast "y"), ("b", .receive 1), ("b", .accept),
    ("b", .receive 0), ("b", .accept),
    ("a", .status (fun _ => 0) (Finmap.singleton "a" 1) ["a"] false),
    ("b", .receive 3), ("b", .accept), ("b", .receive 0), ("b", .accept)]

theorem overtaken_isSome : (exec GossipNetwork.step GossipNetwork.start overtaken).isSome := by
  decide

def caughtUp : GossipNetwork String :=
  (exec GossipNetwork.step GossipNetwork.start overtaken).get overtaken_isSome

theorem rumors_in_order_caughtUp :
    (caughtUp.nodes "b").rumorTable.list "a" <+: (caughtUp.nodes "a").rumorTable.list "a" ∧
      (∀ i r, ((caughtUp.nodes "b").rumorTable.list "a")[i]? = some r → r.sequence = i + 1) ∧
      eventsOf "a" (caughtUp.nodes "b").processed =
        if "b" = "a" then []
        else List.range' 1 ((caughtUp.nodes "b").rumorTable.list "a").length :=
  GossipNetwork.rumors_in_order (run_exec_get overtaken_isSome) "b" "a"

example : eventsOf "a" (caughtUp.nodes "b").processed = [1, 2] := by decide

end Sample

end JobPortal.Gossip
