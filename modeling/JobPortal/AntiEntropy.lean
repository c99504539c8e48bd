import JobPortal.GossipNetwork

/-! Anti-entropy in the gossip network. Whatever else goes on, a status and its answer pass on all
that the answering node has. -/
namespace JobPortal.Gossip

open NumberedLogs Runs

variable {M : Type}

namespace SafeRumorTable

theorem acceptAll_cons (t : SafeRumorTable M) (r : Rumor M) (rs : List (Rumor M)) :
    (t.acceptAll (r :: rs)).1 = ((t.tryToAcceptOrigin r).1.acceptAll rs).1 := rfl

theorem length_le_acceptAll (t : SafeRumorTable M) (rs : List (Rumor M)) (o : String) :
    (t.list o).length ≤ ((t.acceptAll rs).1.list o).length := by
  rw [list_acceptAll]
  generalize t.list o = l
  induction rs.filter (·.origin = o) generalizing l with
  | nil => exact Nat.le_refl _
  | cons r rs ih => exact (prefix_offer l r).length_le.trans (ih _)

theorem length_acceptAll_mono {t t' : SafeRumorTable M} {o : String}
    (h : (t.list o).length ≤ (t'.list o).length) (rs : List (Rumor M)) :
    ((t.acceptAll rs).1.list o).length ≤ ((t'.acceptAll rs).1.list o).length := by
  rw [list_acceptAll, list_acceptAll]
  generalize t.list o = l at h ⊢
  generalize t'.list o = m at h ⊢
  induction rs.filter (·.origin = o) generalizing l m with
  | nil => exact h
  | cons r rs ih => exact ih _ _ (length_offer_mono h r)

end SafeRumorTable

namespace GossipNetwork

/-- How many rumors of `o` a node has when it gets to the end of the packet in hand. -/
def outlook (g : GossipNetwork M) (n o : String) : ℕ :=
  (((g.nodes n).rumorTable.acceptAll (g.nodes n).handling).1.list o).length

def Finishes (n : String) (_ : GossipNetwork M) (e : String × GossipEvent M) : Prop :=
  match e.2 with
  | .abort => e.1 ≠ n
  | _ => True

instance (n : String) (g : GossipNetwork M) (e : String × GossipEvent M) :
    Decidable (Finishes n g e) := by
  unfold Finishes
  split <;> infer_instance

variable {g g' t u v : GossipNetwork M} {a b c n o : String} {e : String × GossipEvent M}
  {es es' : List (String × GossipEvent M)}

theorem nodes_put_self (s : Gossiper M) (ps : List (List (Rumor M))) :
    (g.put n s ps).nodes n = s := Function.update_self ..

theorem nodes_put_of_ne (h : a ≠ n) (s : Gossiper M) (ps : List (List (Rumor M))) :
    (g.put n s ps).nodes a = g.nodes a := Function.update_of_ne h ..

theorem list_prefix_tryToAcceptOrigin (t : SafeRumorTable M) (r : Rumor M) (o : String) :
    t.list o <+: (t.tryToAcceptOrigin r).1.list o := by
  rw [SafeRumorTable.list_tryToAcceptOrigin]
  split_ifs with ho
  · subst ho
    exact prefix_offer _ _
  · exact List.prefix_refl _

theorem exists_put (h : g.step e = some g') :
    ∃ s ps, g' = g.put e.1 s ps ∧ ∀ o, g.replicas e.1 o <+: s.rumorTable.list o := by
  obtain ⟨n, e⟩ := e
  cases e with
  | broadcast msg =>
    refine ⟨_, _, (Option.some.inj h).symm, fun o => ?_⟩
    change _ <+: ((g.nodes n).rumorTable.newRumorsMessage n msg).1.list o
    rw [SafeRumorTable.list_newRumorsMessage]
    split_ifs with ho
    · subst ho
      exact List.prefix_append _ _
    · exact List.prefix_refl _
  | receive i =>
    simp only [step] at h
    split_ifs at h
    obtain ⟨_, _, rfl⟩ := Option.map_eq_some_iff.mp h
    exact ⟨_, _, rfl, fun _ => List.prefix_refl _⟩
  | accept =>
    simp only [step] at h
    split at h
    · cases h
    rename_i r rest hhandling
    have hgrow := list_prefix_tryToAcceptOrigin (g.nodes n).rumorTable r
    generalize (g.nodes n).rumorTable.tryToAcceptOrigin r = answer at h hgrow
    obtain ⟨table, v⟩ := answer
    cases v
    all_goals exact ⟨_, _, (Option.some.inj h).symm, hgrow⟩
  | abort => exact ⟨_, _, (Option.some.inj h).symm, fun _ => List.prefix_refl _⟩
  | graft =>
    simp only [step] at h
    split_ifs at h
    obtain ⟨_, _, rfl⟩ := Option.map_eq_some_iff.mp h
    exact ⟨_, _, rfl, fun _ => List.prefix_refl _⟩
  | status =>
    simp only [step] at h
    split_ifs at h
    obtain ⟨_, _, rfl⟩ := Option.map_eq_some_iff.mp h
    exact ⟨_, _, rfl, fun _ => List.prefix_refl _⟩

theorem replicas_step (h : g.step e = some g') (n o : String) :
    g.replicas n o <+: g'.replicas n o := by
  obtain ⟨s, ps, rfl, hgrow⟩ := exists_put h
  rw [replicas_put, Function.update_apply]
  split_ifs with hn
  · subst hn
    exact hgrow o
  · exact List.prefix_refl _

theorem replicas_run (h : AnyRun step g es g') (n o : String) :
    g.replicas n o <+: g'.replicas n o :=
  h.invariant (I := fun g' => g.replicas n o <+: g'.replicas n o) (List.prefix_refl _)
    fun hpre _ hstep => hpre.trans (replicas_step hstep n o)

/-- What a node is going to have it does not lose, unless it gives up. -/
theorem outlook_step (h : g.step e = some g') (hok : Finishes n g e) (o : String) :
    g.outlook n o ≤ g'.outlook n o := by
  obtain ⟨m, e⟩ := e
  by_cases hm : n = m
  · subst hm
    unfold outlook
    cases e with
    | broadcast msg =>
      obtain rfl := Option.some.inj h
      have hmore : ((g.nodes n).rumorTable.list o).length ≤
          (((g.nodes n).rumorTable.newRumorsMessage n msg).1.list o).length := by
        rw [SafeRumorTable.list_newRumorsMessage]
        split_ifs with ho
        · subst ho
          rw [List.length_append]
          exact Nat.le_add_right _ _
        · exact Nat.le_refl _
      rw [nodes_put_self]
      exact SafeRumorTable.length_acceptAll_mono hmore _
    | receive i =>
      simp only [step] at h
      split_ifs at h with hidle
      obtain ⟨packet, _, rfl⟩ := Option.map_eq_some_iff.mp h
      rw [nodes_put_self, List.isEmpty_iff.mp hidle]
      exact SafeRumorTable.length_le_acceptAll _ _ _
    | accept =>
      simp only [step] at h
      split at h
      · cases h
      rename_i r rest hhandling
      rw [hhandling, SafeRumorTable.acceptAll_cons]
      generalize (g.nodes n).rumorTable.tryToAcceptOrigin r = answer at h ⊢
      obtain ⟨table, v⟩ := answer
      cases v
      all_goals
        obtain rfl := Option.some.inj h
        rw [nodes_put_self]
    | abort => exact absurd rfl hok
    | graft =>
      simp only [step] at h
      split_ifs at h
      obtain ⟨_, _, rfl⟩ := Option.map_eq_some_iff.mp h
      rw [nodes_put_self]
    | status =>
      simp only [step] at h
      split_ifs at h
      obtain ⟨_, _, rfl⟩ := Option.map_eq_some_iff.mp h
      rw [nodes_put_self]
  · obtain ⟨s, ps, rfl, _⟩ := exists_put h
    rw [outlook, outlook, nodes_put_of_ne hm]

theorem outlook_run (h : Run step (Finishes n) g es g') (o : String) :
    g.outlook n o ≤ g'.outlook n o :=
  h.invariant (I := fun g' => g.outlook n o ≤ g'.outlook n o) (Nat.le_refl _)
    fun hle hok hstep => hle.trans (outlook_step hstep hok o)

/-- What `a` has in `g` is known to another node, by statuses of nodes, however old, and their
answers. No handler has given up an answer halfway. -/
inductive Informed (g : GossipNetwork M) (a : String) : GossipNetwork M → String → Prop
  | self : Informed g a g a
  | later {t u : GossipNetwork M} {b : String} {es : List (String × GossipEvent M)}
      (prior : Informed g a t b) (run : AnyRun step t es u) : Informed g a u b
  | answered {s t u v w x : GossipNetwork M} {b c : String} {spare : String → ℕ}
      {order : List String} {mongers : Bool} {rumors : List (Rumor M)} {i : ℕ}
      {es₁ es₂ es₃ : List (String × GossipEvent M)} (prior : Informed g a t b)
      (told : AnyRun step s es₁ t) (inOrder : KeyOrder (t.nodes b).rumorTable.getStatusMsg order)
      (asked : step t (b, .status spare (s.nodes c).rumorTable.getStatusMsg order mongers) = some u)
      (found : (t.nodes b).rumorTable.findMyNew spare (t.nodes b).rumorTable.getStatusMsg
        (s.nodes c).rumorTable.getStatusMsg order = some rumors)
      (run : AnyRun step u es₂ v) (packet : v.sent[i]? = some rumors)
      (received : step v (c, .receive i) = some w) (handled : Run step (Finishes c) w es₃ x)
      (done : (x.nodes c).handling = []) : Informed g a x c
  | upToDate {s t : GossipNetwork M} {b c : String} {spare : String → ℕ} {order : List String}
      {es : List (String × GossipEvent M)} (prior : Informed g a t b)
      (told : AnyRun step s es t) (inOrder : KeyOrder (t.nodes b).rumorTable.getStatusMsg order)
      (found : (t.nodes b).rumorTable.findMyNew spare (t.nodes b).rumorTable.getStatusMsg
        (s.nodes c).rumorTable.getStatusMsg order = some []) : Informed g a t c

theorem Consistent.prefix_of_length_le (h : g'.Consistent) {l : List (Rumor M)}
    (hl : l <+: g'.replicas a o) (hle : l.length ≤ (g'.replicas b o).length) :
    l <+: g'.replicas b o :=
  List.prefix_of_prefix_length_le (hl.trans (h.sound.copies a o)) (h.sound.copies b o) hle

/-- At the end of its packet a node has what it was going to have. -/
theorem outlook_done (h : (g.nodes n).handling = []) (o : String) :
    g.outlook n o = (g.replicas n o).length := by
  rw [outlook, h]
  rfl

/-- With the answer of `b` in hand a node is going to have as much as `b` had. -/
theorem Consistent.length_le_outlook (h : v.Consistent) {order : List String} {S : StatusMessage}
    (hpre : ∀ o, t.replicas b o <+: v.replicas b o)
    (horder : KeyOrder (t.nodes b).rumorTable.getStatusMsg order)
    (hS : ∀ o, S.at o 0 ≤ (v.replicas c o).length) {i : ℕ}
    (hpacket : v.sent[i]? =
      some (order.flatMap fun o => ((t.nodes b).rumorTable.list o).drop (S.at o 0)))
    (hreceived : v.step (c, .receive i) = some u) (o : String) :
    (t.replicas b o).length ≤ u.outlook c o := by
  simp only [GossipNetwork.step] at hreceived
  split_ifs at hreceived
  rw [hpacket, Option.map_some] at hreceived
  obtain rfl := Option.some.inj hreceived
  have hcomp : ∀ o, (t.nodes b).rumorTable.list o <+: (v.nodes c).rumorTable.list o ∨
      (v.nodes c).rumorTable.list o <+: (t.nodes b).rumorTable.list o := fun o =>
    List.prefix_or_prefix_of_prefix ((hpre o).trans (h.sound.copies b o)) (h.sound.copies c o)
  rw [outlook, nodes_put_self, list_acceptAll_found hcomp hS horder]
  exact (longer_isLub (hcomp o)).1.length_le

theorem Informed.exists_run (h : Informed g a t b) : ∃ es, AnyRun step g es t := by
  induction h with
  | self => exact ⟨_, .nil⟩
  | later _ run ih =>
    obtain ⟨_, hrun⟩ := ih
    exact ⟨_, hrun.append run⟩
  | answered _ _ _ asked _ run _ received handled _ ih =>
    obtain ⟨_, hrun⟩ := ih
    exact ⟨_, (((hrun.append (.one trivial asked)).append run).append
      (.one trivial received)).append handled.forget⟩
  | upToDate _ _ _ _ ih => exact ih

/-- Who is informed of what a node has has it too, with whatever losses, repetitions and delays the
packets met. -/
theorem informed_has {es : List (String × GossipEvent M)}
    (hrun : AnyRun step (start : GossipNetwork M) es g) (h : Informed g a t b) (o : String) :
    (g.nodes a).rumorTable.list o <+: (t.nodes b).rumorTable.list o := by
  change g.replicas a o <+: t.replicas b o
  induction h generalizing o with
  | self => exact List.prefix_refl _
  | later _ run ih => exact (ih o).trans (replicas_run run _ o)
  | @answered s t u v w x b c spare order _ rumors i _ es₂ _ prior told inOrder asked found run
      packet received handled done ih =>
    obtain ⟨_, htold⟩ := prior.exists_run
    have hasked : AnyRun step t _ v := .append (.one trivial asked) run
    have hv := consistent_of_run ((hrun.append htold).append hasked)
    have hafter : AnyRun step v _ x := .append (.one trivial received) handled.forget
    have hx := consistent_of_run (((hrun.append htold).append hasked).append hafter)
    refine hx.prefix_of_length_le ((ih o).trans (replicas_run (hasked.append hafter) b o)) ?_
    obtain rfl := Option.some.inj ((SafeRumorTable.findMyNew_eq ..).symm.trans found)
    calc (g.replicas a o).length ≤ (t.replicas b o).length := (ih o).length_le
      _ ≤ w.outlook c o := by
        refine hv.length_le_outlook (replicas_run hasked b) inOrder (fun o => ?_) packet received o
        rw [SafeRumorTable.at_getStatusMsg]
        exact (replicas_run (told.append hasked) c o).length_le
      _ ≤ x.outlook c o := outlook_run handled o
      _ = (x.replicas c o).length := outlook_done done o
  | @upToDate s t b c spare order _ prior told inOrder found ih =>
    obtain ⟨_, htold⟩ := prior.exists_run
    have ht := consistent_of_run (hrun.append htold)
    refine ht.prefix_of_length_le (ih o) ?_
    rw [SafeRumorTable.findMyNew_eq, Option.some.injEq, found_eq_nil_iff inOrder] at found
    calc (g.replicas a o).length ≤ (t.replicas b o).length := (ih o).length_le
      _ ≤ (s.nodes c).rumorTable.getStatusMsg.at o 0 := found o
      _ = (s.replicas c o).length := SafeRumorTable.at_getStatusMsg _ _
      _ ≤ (t.replicas c o).length := (replicas_run told c o).length_le

end GossipNetwork

namespace Sample

theorem said_isSome : (exec GossipNetwork.step GossipNetwork.start
    [("a", .broadcast "x"), ("a", .broadcast "y")]).isSome := by decide

def said : GossipNetwork String := (exec GossipNetwork.step GossipNetwork.start _).get said_isSome

theorem keyOrder_said : KeyOrder (said.nodes "a").rumorTable.getStatusMsg ["a"] where
  nodup := List.nodup_singleton "a"
  mem o := by
    rw [SafeRumorTable.mem_getStatusMsg]
    simp [said, exec, GossipNetwork.step, GossipNetwork.put, GossipNetwork.start,
      SafeRumorTable.newRumorsMessage, SafeRumorTable.append, SafeRumorTable.new,
      Finmap.notMem_empty]

theorem asked_isSome : (GossipNetwork.step said ("a", .status (fun _ => 0)
    ((GossipNetwork.start : GossipNetwork String).nodes "b").rumorTable.getStatusMsg ["a"]
      false)).isSome := by decide

def asked : GossipNetwork String := (GossipNetwork.step said _).get asked_isSome

theorem answer_isSome : (GossipNetwork.step asked ("b", .receive 2)).isSome := by decide

def answer : GossipNetwork String := (GossipNetwork.step asked _).get answer_isSome

theorem heard_isSome : (exec (guarded GossipNetwork.step (GossipNetwork.Finishes "b")) answer
    [("b", .accept), ("c", .receive 0), ("b", .accept)]).isSome := by decide

def heard : GossipNetwork String :=
  (exec (guarded GossipNetwork.step (GossipNetwork.Finishes "b")) answer _).get heard_isSome

theorem informed_heard : GossipNetwork.Informed said "a" heard "b" :=
  .answered .self (run_exec_get said_isSome) keyOrder_said (Option.some_get asked_isSome).symm
    (SafeRumorTable.findMyNew_eq ..) .nil (by decide) (Option.some_get answer_isSome).symm
    (run_of_guarded (run_exec_get heard_isSome)) (by decide)

theorem informed_has_heard :
    (said.nodes "a").rumorTable.list "a" <+: (heard.nodes "b").rumorTable.list "a" :=
  GossipNetwork.informed_has (run_exec_get said_isSome) informed_heard "a"

end Sample

end JobPortal.Gossip
