import JobPortal.PbftCertificate
import JobPortal.PbftProposer
import JobPortal.PbftStuck
import Mathlib.Algebra.Order.BigOperators.Group.List

/-! The calls of a PBFT node come to their end, in every run in which no step makes some of them
wait for ever. -/
namespace JobPortal

open Goroutines Runs

variable (P : Primitives)

/-- The steps a handler takes from its critical section on, where the counter is at `pbftID`. A TLC
message that is counted may give a step consensus, and so start a broadcast. -/
def Message.weight (pbftID : ℕ) : Message → ℕ
  | .prePrepare _ => 10
  | .prepare _ => 6
  | .commit _ | .checkpoint _ => 1
  | .pbftTLC tlc => if pbftID ≤ tlc.step then 10 else 3

def CallOp.weight (pbftID : ℕ) : CallOp → ℕ
  | .handle m => m.weight pbftID + 1
  | .enter m => m.weight pbftID
  | .getStep => 2
  | .advance .. | .turnBad | .unlock | .unlockTree => 1
  | .verify _ => 0
  | .propose _ => 19
  | .broadcast m => m.weight pbftID + 3
  | .useTree again => if again then 4 else 2
  | .keepTree => 2
  | .lockAgain => 0

/-- The steps with consensus that the counter may still move over. -/
def SafePbft.ahead (s : SafePbft) : ℕ := (s.consensus.keys.filter (s.pbftID ≤ ·)).card

namespace Replica

def left (s : Replica) : ℕ :=
  work (work (CallOp.weight s.node.pbft.pbftID)) s.calls + 7 * s.node.pbft.ahead

end Replica

theorem CallOp.weight_anti {k l : ℕ} (h : k ≤ l) (op : CallOp) : op.weight l ≤ op.weight k := by
  have hmessage (m : Message) : m.weight l ≤ m.weight k := by
    cases m with
    | pbftTLC tlc =>
      simp only [Message.weight]
      split_ifs <;> omega
    | _ => exact le_rfl
  cases op with
  | handle m => exact Nat.add_le_add_right (hmessage m) 1
  | enter m => exact hmessage m
  | broadcast m => exact Nat.add_le_add_right (hmessage m) 3
  | _ => exact le_rfl

theorem work_weight_anti {k l : ℕ} (h : k ≤ l) (ops : List CallOp) :
    work (CallOp.weight l) ops ≤ work (CallOp.weight k) ops :=
  List.sum_le_sum fun op _ => op.weight_anti h

theorem work_abandon_le (k : ℕ) (rest : List CallOp) :
    work (CallOp.weight k) (Replica.abandon rest) ≤ work (CallOp.weight k) rest := by
  induction rest with
  | nil => exact le_rfl
  | cons op rest ih =>
    rw [Replica.abandon] at ih ⊢
    rw [List.filter_cons]
    split_ifs
    · exact Nat.add_le_add_left ih _
    · exact ih.trans (Nat.le_add_left _ _)

namespace SafePbft

variable {s t : SafePbft}

theorem ahead_le (hid : s.pbftID ≤ t.pbftID) (hcons : t.consensus = s.consensus) :
    t.ahead ≤ s.ahead := by
  unfold ahead
  rw [hcons]
  exact Finset.card_le_card (Finset.monotone_filter_right _ fun k _ hk => hid.trans hk)

theorem ahead_advance (hsome : (s.consensus.lookup s.pbftID).isSome) :
    ahead { s with pbftID := s.pbftID + 1 } + 1 ≤ s.ahead := by
  obtain ⟨r, hr⟩ := Option.isSome_iff_exists.mp hsome
  refine Finset.card_lt_card ((Finset.ssubset_iff_of_subset ?_).mpr ⟨s.pbftID, ?_, ?_⟩)
  · exact Finset.monotone_filter_right _ fun k _ hk => Nat.le_of_succ_le hk
  · exact Finset.mem_filter.mpr ⟨Finmap.mem_keys.mpr (Finmap.mem_iff.mpr ⟨r, hr⟩), le_rfl⟩
  · exact fun hk => Nat.not_succ_le_self _ (Finset.mem_filter.mp hk).2

/-- A TLC message gives one step consensus at most, and none where it is late. -/
theorem ahead_receive (s : SafePbft) (tlc : PbftTLCMessage) (threshold : ℕ) :
    (s.receivePbftTLC tlc threshold).ahead ≤ s.ahead + if s.pbftID ≤ tlc.step then 1 else 0 := by
  unfold receivePbftTLC
  split_ifs with hstep
  · dsimp only
    split_ifs
    · unfold ahead
      dsimp only
      refine (Finset.card_le_card ?_).trans (Finset.card_insert_le tlc.step _)
      intro k hk
      obtain ⟨hkey, hle⟩ := Finset.mem_filter.mp hk
      rw [Finmap.mem_keys, Finmap.mem_insert] at hkey
      rcases hkey with rfl | hkey
      · exact Finset.mem_insert_self _ _
      · exact Finset.mem_insert_of_mem (Finset.mem_filter.mpr ⟨Finmap.mem_keys.mpr hkey, hle⟩)
    · exact Nat.le_succ_of_le le_rfl
  · exact le_rfl

end SafePbft

theorem Node.tagSection_counter (n : Node) (call : TagCall) :
    n.pbft.pbftID ≤ (n.tagSection P call).node.pbft.pbftID ∧
      ∀ k, work (CallOp.weight k) ((n.tagSection P call).sent.map .broadcast) ≤ 17 := by
  refine ⟨?_, fun k => ?_⟩
  · rw [(n.tagSection_spec P call).2.1, Node.tagAssigned_pbftID]
    split_ifs
    · exact le_rfl
    · exact Nat.le_add_right _ _
  · unfold Node.tagSection
    split_ifs <;> simp [work, CallOp.weight, Message.weight]

def ReplicaEvent.Internal : ReplicaEvent → Prop
  | .step _ | .drop _ => True
  | _ => False

namespace Replica

variable {P} {s t : Replica} {op : CallOp} {rest ops : List CallOp} {i : ℕ}

/-- A step of a call leaves less to do, what it starts counted. -/
theorem Moves.weight_lt (h : s.Moves P rest op t ops) (hop : isVerify op = false) :
    s.node.pbft.pbftID ≤ t.node.pbft.pbftID ∧ ∃ new, t.calls = s.calls ++ new ∧
      work (CallOp.weight t.node.pbft.pbftID) ops +
          work (work (CallOp.weight t.node.pbft.pbftID)) new + 7 * t.node.pbft.ahead <
        work (CallOp.weight s.node.pbft.pbftID) (op :: rest) + 7 * s.node.pbft.ahead := by
  -- a step that starts no call
  have alone (hcalls : t.calls = s.calls) (hid : s.node.pbft.pbftID = t.node.pbft.pbftID)
      (hcons : t.node.pbft.consensus = s.node.pbft.consensus)
      (hlt : work (CallOp.weight s.node.pbft.pbftID) ops <
        work (CallOp.weight s.node.pbft.pbftID) (op :: rest)) :
      s.node.pbft.pbftID ≤ t.node.pbft.pbftID ∧ ∃ new, t.calls = s.calls ++ new ∧
        work (CallOp.weight t.node.pbft.pbftID) ops +
            work (work (CallOp.weight t.node.pbft.pbftID)) new + 7 * t.node.pbft.ahead <
          work (CallOp.weight s.node.pbft.pbftID) (op :: rest) + 7 * s.node.pbft.ahead := by
    have hahead := SafePbft.ahead_le hid.le hcons
    refine ⟨hid.le, [], by simp [hcalls], ?_⟩
    rw [← hid]
    change _ + 0 + _ < _
    omega
  have hrest := work_abandon_le s.node.pbft.pbftID rest
  cases h with
  | ignored => exact alone rfl rfl rfl (by simp [CallOp.weight])
  | failed => exact alone rfl rfl rfl (by simp [CallOp.weight]; omega)
  | passed => exact alone rfl rfl rfl (by simp [CallOp.weight])
  | @kept m n free keeps same =>
    refine alone rfl same.pbftID.symm same.consensus ?_
    cases m with
    | prePrepare pp => simp [CallOp.weight, Message.weight]; omega
    | commit c => simp [CallOp.weight, Message.weight]; omega
    | prepare => exact keeps.elim
    | checkpoint => exact keeps.elim
    | pbftTLC => exact keeps.elim
  | @entered m n free calm alone' signed silent same =>
    refine alone rfl same.pbftID.symm same.consensus ?_
    cases m with
    | prePrepare pp => exact absurd rfl (silent pp)
    | pbftTLC tlc => exact absurd rfl (signed tlc)
    | prepare => simp [CallOp.weight, Message.weight]
    | commit => simp [CallOp.weight, Message.weight]
    | checkpoint => simp [CallOp.weight, Message.weight]
  | answered => exact alone rfl rfl rfl (by simp [CallOp.weight, Message.weight])
  | completed =>
    exact alone rfl rfl rfl (by simp [CallOp.weight, Message.weight]; omega)
  | @received tlc free =>
    have hid : (s.node.received tlc).pbftID = s.node.pbft.pbftID :=
      SafePbft.receivePbftTLC_pbftID ..
    have hahead := s.node.pbft.ahead_receive tlc (s.node.paxosThreshold s.node.totalPeers)
    refine ⟨hid.ge, [], by simp, ?_⟩
    dsimp only
    rw [hid]
    change _ + 0 + 7 * (s.node.pbft.receivePbftTLC tlc _).ahead < _
    simp only [work_cons, CallOp.weight, Message.weight]
    split_ifs at hahead ⊢ <;> omega
  | getStep => exact alone rfl rfl rfl (by simp [CallOp.weight])
  | stopped => exact alone rfl rfl rfl (by simp [CallOp.weight])
  | @advanced step catchUp block pbft free goes =>
    obtain ⟨rfl, hcons, rfl⟩ := SafePbft.getPbftBlockAndAdvance_eq_some goes
    have hahead := SafePbft.ahead_advance hcons
    have hrest := work_weight_anti (Nat.le_add_right s.node.pbft.pbftID 1) rest
    refine ⟨Nat.le_succ _, _, rfl, ?_⟩
    dsimp only [Node.addTLCBlock]
    simp only [work_cons, CallOp.weight]
    have hnew : work (work (CallOp.weight (s.node.pbft.pbftID + 1)))
        (if catchUp then [] else [[.broadcast (.pbftTLC ⟨s.node.pbft.pbftID, block⟩)]]) ≤ 6 := by
      cases catchUp <;> simp [work, CallOp.weight, Message.weight]
    omega
  | turnBad => exact alone rfl rfl rfl (by simp [CallOp.weight])
  | returned => cases hop
  | verified => cases hop
  | @proposed call free =>
    obtain ⟨hid, hsent⟩ := s.node.tagSection_counter P call
    have hcons := (s.node.tagSection_tlcs P call).2
    have hahead := SafePbft.ahead_le hid hcons
    have hrest := work_weight_anti hid rest
    refine ⟨hid, [], by simp, ?_⟩
    have hsent := hsent (s.node.tagSection P call).node.pbft.pbftID
    dsimp only [Node.locked]
    rw [work_append]
    change _ + _ + 0 + 7 * SafePbft.ahead (s.node.tagSection P call).node.pbft < _
    simp only [work_cons, CallOp.weight]
    omega
  | unlock => exact alone rfl rfl rfl (by simp [CallOp.weight])
  | broadcast => exact alone rfl rfl rfl (by simp [CallOp.weight]; omega)
  | @useTree again =>
    cases again with
    | false => exact alone rfl rfl rfl (by simp [CallOp.weight, CallOp.inside])
    | true => exact alone rfl rfl rfl (by simp [CallOp.weight, CallOp.inside]; omega)
  | keepTree =>
    refine alone rfl rfl rfl ?_
    rw [work_append]
    simp only [work_cons, CallOp.weight]
    change _ + (1 + 0) < _
    omega
  | unlockTree => exact alone rfl rfl rfl (by simp [CallOp.weight])

theorem Moves.left_lt (h : s.Moves P rest op t ops) (hcall : s.calls[i]? = some (op :: rest))
    (hop : isVerify op = false) : left { t with calls := t.calls.set i ops } < s.left := by
  obtain ⟨hid, new, hcalls, hlt⟩ := h.weight_lt hop
  have hset := work_set_append (work (CallOp.weight t.node.pbft.pbftID)) hcall new ops
  have herase := work_eraseIdx (work (CallOp.weight s.node.pbft.pbftID)) hcall
  have herase' := work_eraseIdx (work (CallOp.weight t.node.pbft.pbftID)) hcall
  -- the other calls have no more left than before
  have hmono : work (work (CallOp.weight t.node.pbft.pbftID)) (s.calls.eraseIdx i) ≤
      work (work (CallOp.weight s.node.pbft.pbftID)) (s.calls.eraseIdx i) :=
    List.sum_le_sum fun ops _ => work_weight_anti hid ops
  unfold left
  dsimp only
  rw [hcalls]
  omega

variable {e : ReplicaEvent} {es : List ReplicaEvent}

theorem Effect.left_lt (h : s.Effect P e t) (he : e.Internal) : t.left < s.left := by
  cases h with
  | step call kind moves => exact moves.left_lt call kind
  | @drop i m rest call free =>
    refine Nat.add_lt_add_right (work_set_lt call ?_) _
    simp [CallOp.weight]
  | receive => exact he.elim
  | tag => exact he.elim
  | turnBad => exact he.elim
  | useTree => exact he.elim
  | wake => exact he.elim

theorem length_add_left_le (h : AnyRun (step P) s es t) (he : ∀ e ∈ es, e.Internal) :
    es.length + t.left ≤ s.left := by
  induction h with
  | nil => exact (Nat.zero_add _).le
  | @snoc es t u e prior _ enabled ih =>
    have hlt := (step_effect enabled).left_lt (he e (by simp))
    have hprior := ih fun e hmem => he e (List.mem_append_left _ hmem)
    rw [List.length_append, List.length_singleton]
    omega

variable (P) in
/-- The calls take finitely many steps, after which all have returned and the lock is free. A
PrePrepare that conflicts with a record leaves the node as it was. -/
structure Returns (s : Replica) : Prop where
  ends : ∀ es t, AnyRun (step P) s es t → (∀ e ∈ es, e.Internal) → es.length ≤ s.left
  rests : s.Settled P → s.AtRest ∧ s.node.pbft.lock = false
  rejects : ∀ i op rest pp t, s.calls[i]? = some (op :: rest) →
    op = .handle (.prePrepare pp) ∨ op = .enter (.prePrepare pp) → s.node.Conflicts pp →
    ¬ s.Jams P (.step i) → s.step P (.step i) = some t → t.node = s.node

variable (P) in
def Hangs (s : Replica) : Prop :=
  ∀ es t, AnyRun (step P) s es t → ¬ (t.AtRest ∧ t.node.pbft.lock = false)

theorem AtRest.not_stuck (h : t.AtRest) (hfree : t.node.pbft.lock = false) : ¬ t.Stuck P := by
  have hquiet {ops : List CallOp} (hops : ops ∈ t.calls) :
      asks P t.node.myAddr ops = none ∧ sends ops = false := by
    rcases h.others ops hops with rfl | ⟨call, rfl⟩ <;> exact ⟨rfl, rfl⟩
  intro hstuck
  cases hstuck with
  | orphaned locked => simp [hfree] at locked
  | waiting hops waits => simp [Waits, (hquiet hops).1] at waits
  | crossed hsends =>
    obtain ⟨ops, hops, hsends⟩ := hsends
    rw [(hquiet hops).2] at hsends
    cases hsends

variable {conf : PeerConfig}

theorem sound_newReplica : (newReplica P conf).Sound where
  processor := ⟨[], rfl, nofun⟩
  addr := rfl
  tlcs := by simp [SafePbft.TlcsSound, newReplica, newPeer, newSafePbft]
  shape := by
    intro ops hops
    rw [List.mem_singleton.mp hops]
    exact .plain nofun
  lock := Nat.zero_le _
  tree := rfl

theorem sound_of_run (h : AnyRun (step P) (newReplica P conf) es s) : s.Sound :=
  h.invariant (I := Sound) sound_newReplica fun hs _ hstep => (step_effect hstep).sound hs

theorem not_stuck_of_run (h : Run (step P) (fun s e => ¬ s.Jams P e) (newReplica P conf) es s) :
    ¬ s.Stuck P := by
  have hstart : ¬ (newReplica P conf).Stuck P := by
    refine AtRest.not_stuck ⟨rfl, fun ops hops => ?_⟩ rfl
    exact .inl (List.mem_singleton.mp hops)
  refine (h.invariant (I := fun s => s.Sound ∧ ¬ s.Stuck P) ⟨sound_newReplica, hstart⟩ ?_).2
  intro t u e ht hjam hstep
  have heff := step_effect hstep
  exact ⟨heff.sound ht.1, heff.not_stuck ht.1 ht.2 hjam⟩

theorem hangs_of_stuck (hs : s.Sound) (hstuck : s.Stuck P) : s.Hangs P := by
  intro es t hrun hrest
  have hkept : t.Sound ∧ t.Stuck P := by
    refine hrun.invariant (I := fun t => t.Sound ∧ t.Stuck P) ⟨hs, hstuck⟩ ?_
    intro u v e hu _ hstep
    have heff := step_effect hstep
    exact ⟨heff.sound hu.1, heff.stuck hu.1 hu.2⟩
  exact hrest.1.not_stuck hrest.2 hkept.2

/-- The handler of a PrePrepare changes the node where it does not conflict, or keeps the lock. -/
theorem Moves.rejects {pp : PrePrepareMessage} (h : s.Moves P rest op t ops)
    (hop : op = .handle (.prePrepare pp) ∨ op = .enter (.prePrepare pp))
    (hconf : s.node.Conflicts pp) (hjam : ¬ s.JamsAt P rest op) : t.node = s.node := by
  rcases hop with rfl | rfl
  · cases h <;> rfl
  · exact absurd (.inl hconf) hjam

/-- In every run whose steps do not jam, every call returns with the lock free, and conflicting
PrePrepares are rejected with the state as it was. A step that jams makes calls hang for ever. -/
theorem calls_return (hrun : AnyRun (step P) (newReplica P conf) es s) :
    (Run (step P) (fun s e => ¬ s.Jams P e) (newReplica P conf) es s → s.Returns P) ∧
      ∀ e t, s.Jams P e → s.step P e = some t → t.Hangs P := by
  have hs := sound_of_run hrun
  refine ⟨fun hcalm => ⟨fun es t h he => ?_, hs.atRest (not_stuck_of_run hcalm), ?_⟩, ?_⟩
  · exact (Nat.le_add_right _ _).trans (length_add_left_le h he)
  · intro i op rest pp t hcall hop hconf hjam hstep
    cases step_effect hstep with
    | step call kind moves =>
      obtain ⟨rfl, rfl⟩ := List.cons_eq_cons.mp (Option.some.inj (hcall.symm.trans call))
      exact moves.rejects hop hconf fun hat => hjam ((jams_step_iff hcall).mpr hat)
  · intro e t hjam hstep
    have heff := step_effect hstep
    exact hangs_of_stuck (heff.sound hs) (heff.stuck_of_jams hs hjam)

end Replica

namespace Sample

def binding : List ReplicaEvent :=
  .receive [.message (.prePrepare (prePrepareFrom "B" request 6))] :: List.replicate 5 (.step 0)

theorem binding_isSome :
    (exec (guarded (Replica.step primitives) fun s e => ¬ s.Jams primitives e)
      (newReplica primitives (conf "A" 1)) binding).isSome := by
  decide

def boundReplica : Replica :=
  (exec (guarded (Replica.step primitives) fun s e => ¬ s.Jams primitives e)
    (newReplica primitives (conf "A" 1)) binding).get binding_isSome

def rejecting : List ReplicaEvent := [.receive [.message conflicting], .step 0, .step 0]

theorem rejecting_isSome :
    (exec (Replica.step primitives) boundReplica rejecting).isSome := by
  decide

def rejected : Replica :=
  (exec (Replica.step primitives) boundReplica rejecting).get rejecting_isSome

/-- The conflicting PrePrepare is rejected with the lock held, for good. -/
theorem lock_kept_counterexample :
    AnyRun (Replica.step primitives) (newReplica primitives (conf "A" 1)) binding boundReplica ∧
      boundReplica.node.pbft.lock = false ∧
      AnyRun (Replica.step primitives) boundReplica rejecting rejected ∧
      rejected.calls = [[]] ∧ rejected.node.pbft.lock = true ∧ rejected.Hangs primitives := by
  have hbound := (run_of_guarded (run_exec_get binding_isSome)).forget
  have hrejected := run_exec_get rejecting_isSome
  have hcalls : rejected.calls = [[]] := by decide
  have hlock : rejected.node.pbft.lock = true := by decide
  refine ⟨hbound, by decide, hrejected, hcalls, hlock, ?_⟩
  refine Replica.hangs_of_stuck (Replica.sound_of_run (hbound.append hrejected))
    (.orphaned hlock fun ops hops => ?_)
  rw [hcalls] at hops
  rw [List.mem_singleton.mp hops]
  exact List.not_mem_nil

theorem calls_return_bound : boundReplica.Returns primitives :=
  (Replica.calls_return (run_of_guarded (run_exec_get binding_isSome)).forget).1
    (run_of_guarded (run_exec_get binding_isSome))

end Sample

end JobPortal
