import JobPortal.PbftCertificate
import JobPortal.PbftMutexes
import JobPortal.PbftProposer
import Mathlib.Data.Nat.ModEq

/-! The ID spaces of the nodes. Each counter starts at the node's PaxosID and Tag moves it on
by the number of peers. The leftover TLC path moves it on by one wherever the current step has
consensus, so the counter leaves its residue there, and Tag may be next. -/
namespace JobPortal

open Runs

variable (P : Primitives)

namespace Replica

/-- `GetPbftBlockAndAdvance` finds consensus for the current step. -/
def AdvancesAt (s : Replica) : CallOp → Prop
  | .advance step _ => s.node.pbft.Advances step
  | _ => False

instance (s : Replica) : (op : CallOp) → Decidable (s.AdvancesAt op)
  | .advance step _ => inferInstanceAs (Decidable (s.node.pbft.Advances step))
  | .handle _ | .enter _ | .getStep | .turnBad | .verify _ | .propose _ | .unlock | .broadcast _
  | .useTree _ | .keepTree | .unlockTree | .lockAgain => isFalse id

def Advances (s : Replica) : ReplicaEvent → Prop
  | .step i => ∃ ops ∈ s.calls[i]?, ∃ op ∈ ops.head?, s.AdvancesAt op
  | _ => False

instance (s : Replica) : (e : ReplicaEvent) → Decidable (s.Advances e)
  | .step i => inferInstanceAs (Decidable (∃ ops ∈ s.calls[i]?, ∃ op ∈ ops.head?, _))
  | .receive _ | .tag .. | .turnBad | .useTree _ | .wake _ | .drop _ => isFalse id

variable {P} {s t : Replica} {op : CallOp} {rest ops : List CallOp} {i : ℕ}

theorem Moves.totalPeers (h : s.Moves P rest op t ops) :
    t.node.totalPeers = s.node.totalPeers := by
  cases h with
  | kept free keeps same => exact same.totalPeers
  | entered free calm alone signed silent same => exact same.totalPeers
  | proposed free =>
    unfold Node.tagSection
    split_ifs <;> rfl
  | _ => rfl

/-- The counter moves on by a whole round, unless a step with consensus is passed. -/
theorem Moves.counter (h : s.Moves P rest op t ops) (hs : s.node.pbft.TlcsSound) :
    t.node.pbft.pbftID ≡ s.node.pbft.pbftID [MOD s.node.totalPeers] ↔
      s.node.totalPeers = 1 ∨ ¬ s.AdvancesAt op := by
  have same (hid : t.node.pbft.pbftID = s.node.pbft.pbftID) (hno : ¬ s.AdvancesAt op) :
      t.node.pbft.pbftID ≡ s.node.pbft.pbftID [MOD s.node.totalPeers] ↔
        s.node.totalPeers = 1 ∨ ¬ s.AdvancesAt op :=
    iff_of_true (by rw [hid]) (.inr hno)
  cases h with
  | kept free keeps sameCounter => exact same sameCounter.pbftID id
  | entered free calm alone signed silent sameCounter => exact same sameCounter.pbftID id
  | received free => exact same (SafePbft.receivePbftTLC_pbftID ..) id
  | stopped free stays => exact same rfl (hs.getPbftBlockAndAdvance_eq_none.mp stays)
  | @advanced step catchUp block pbft free goes =>
    obtain ⟨hstep, hcons, rfl⟩ := SafePbft.getPbftBlockAndAdvance_eq_some goes
    have hadv : s.AdvancesAt (.advance step catchUp) := ⟨hstep, hcons⟩
    rw [or_iff_left (not_not_intro hadv)]
    change s.node.pbft.pbftID + 1 ≡ s.node.pbft.pbftID + 0 [MOD s.node.totalPeers] ↔ _
    rw [← Nat.dvd_one, ← Nat.modEq_zero_iff_dvd]
    exact ⟨Nat.ModEq.add_left_cancel' _, Nat.ModEq.add_left _⟩
  | @proposed call free =>
    refine iff_of_true ?_ (.inr id)
    change (s.node.tagSection P call).node.pbft.pbftID ≡ _ [MOD _]
    rw [(s.node.tagSection_spec P call).2.1, Node.tagAssigned_pbftID]
    split_ifs
    · rfl
    · exact Nat.add_modEq_right
  | _ => exact same rfl id

/-- The PrePrepares of the node, broadcast or about to be. -/
def Proposed (s : Replica) (pp : PrePrepareMessage) : Prop :=
  .prePrepare pp ∈ s.sent ∨ ∃ ops ∈ s.calls, .broadcast (.prePrepare pp) ∈ ops

theorem mem_abandon {a : CallOp} (h : a ∈ abandon rest) : a ∈ rest := List.mem_of_mem_filter h

theorem Moves.prePrepare (h : s.Moves P rest op t ops) {pp : PrePrepareMessage} :
    (.broadcast (.prePrepare pp) ∈ ops → .broadcast (.prePrepare pp) ∈ op :: rest ∨
      pp.pbftID = t.node.pbft.pbftID) ∧
    (.prePrepare pp ∈ t.sent → .prePrepare pp ∈ s.sent ∨
      .broadcast (.prePrepare pp) ∈ op :: rest) := by
  have hrest {a : CallOp} (ha : a ∈ rest) : a ∈ op :: rest := List.mem_cons_of_mem _ ha
  cases h with
  | failed => exact ⟨fun hpp => .inl (hrest (mem_abandon hpp)), .inl⟩
  | kept => exact ⟨fun hpp => .inl (hrest (mem_abandon hpp)), .inl⟩
  | @proposed call free =>
    refine ⟨fun hpp => ?_, .inl⟩
    rcases List.mem_append.mp hpp with hsent | hlater
    · right
      have hspec := s.node.tagSection_spec P call
      obtain ⟨m, hm, hcast⟩ := List.mem_map.mp hsent
      obtain rfl := CallOp.broadcast.inj hcast
      rw [(hspec.2.2 pp).mp hm]
      exact hspec.2.1.symm
    · exact .inl (hrest (by simpa using hlater))
  | broadcast =>
    refine ⟨fun hpp => .inl (hrest (by simpa using hpp)), fun hpp => ?_⟩
    rcases List.mem_append.mp hpp with hold | hnew
    · exact .inl hold
    · rw [List.mem_singleton.mp hnew]
      exact .inr List.mem_cons_self
  | @useTree again =>
    refine ⟨fun hpp => .inl (hrest ?_), .inl⟩
    cases again with
    | false => simpa [CallOp.inside] using hpp
    | true => simpa [CallOp.inside] using hpp
  | keepTree => exact ⟨fun hpp => .inl (hrest (by simpa using hpp)), .inl⟩
  | ignored => exact ⟨fun hpp => .inl (hrest hpp), .inl⟩
  | entered => exact ⟨fun hpp => .inl (hrest hpp), .inl⟩
  | stopped => exact ⟨fun hpp => .inl (hrest hpp), .inl⟩
  | turnBad => exact ⟨fun hpp => .inl (hrest hpp), .inl⟩
  | returned => exact ⟨fun hpp => .inl (hrest hpp), .inl⟩
  | unlock => exact ⟨fun hpp => .inl (hrest hpp), .inl⟩
  | unlockTree => exact ⟨fun hpp => .inl (hrest hpp), .inl⟩
  | passed => exact ⟨fun hpp => .inl (hrest (by simpa using hpp)), .inl⟩
  | answered => exact ⟨fun hpp => .inl (hrest (by simpa using hpp)), .inl⟩
  | completed => exact ⟨fun hpp => .inl (hrest (by simpa using hpp)), .inl⟩
  | received => exact ⟨fun hpp => .inl (hrest (by simpa using hpp)), .inl⟩
  | getStep => exact ⟨fun hpp => .inl (hrest (by simpa using hpp)), .inl⟩
  | advanced => exact ⟨fun hpp => .inl (hrest (by simpa using hpp)), .inl⟩
  | verified => exact ⟨fun hpp => .inl (hrest (by simpa using hpp)), .inl⟩

theorem Moves.proposed_by (h : s.Moves P rest op t ops) (hcall : s.calls[i]? = some (op :: rest))
    {pp : PrePrepareMessage} (hpp : Proposed { t with calls := t.calls.set i ops } pp) :
    s.Proposed pp ∨ pp.pbftID = t.node.pbft.pbftID := by
  have hat := List.mem_of_getElem? hcall
  obtain ⟨_, _, new, hcalls, hnew⟩ := h.frame
  rcases hpp with hsent | ⟨x, hx, hpp⟩
  · rcases h.prePrepare.2 hsent with hold | hold
    · exact .inl (.inl hold)
    · exact .inl (.inr ⟨_, hat, hold⟩)
  · dsimp only at hx
    rw [hcalls] at hx
    rcases mem_set_append hx with rfl | hx | hx
    · exact (h.prePrepare.1 hpp).imp (fun hold => .inr ⟨_, hat, hold⟩) id
    · exact .inl (.inr ⟨x, hx, hpp⟩)
    · obtain ⟨tlc, rfl⟩ := hnew x hx
      simp at hpp

variable {conf : PeerConfig} {e : ReplicaEvent} {es : List ReplicaEvent}

theorem advances_step_iff (hcall : s.calls[i]? = some (op :: rest)) :
    s.Advances (.step i) ↔ s.AdvancesAt op := by
  simp [Advances, hcall]

theorem Effect.totalPeers (h : s.Effect P e t) : t.node.totalPeers = s.node.totalPeers := by
  cases h with
  | tag same config => exact config.2
  | wake call kind moves => exact moves.totalPeers
  | step call kind moves => exact moves.totalPeers
  | _ => rfl

/-- One step keeps the residue of the counter unless it passes a step with consensus. -/
theorem Effect.counter (h : s.Effect P e t) (hs : s.node.pbft.TlcsSound) :
    t.node.pbft.pbftID ≡ s.node.pbft.pbftID [MOD s.node.totalPeers] ↔
      s.node.totalPeers = 1 ∨ ¬ s.Advances e := by
  cases h with
  | tag same config =>
    dsimp only
    rw [same]
    exact iff_of_true rfl (.inr id)
  | @wake i op rest ops t call kind moves =>
    refine (moves.counter hs).trans (or_congr_right ?_)
    cases op with
    | verify => exact Iff.rfl
    | _ => cases kind
  | step call kind moves =>
    exact (moves.counter hs).trans (or_congr_right (advances_step_iff call).symm.not)
  | receive => exact iff_of_true rfl (.inr id)
  | turnBad => exact iff_of_true rfl (.inr id)
  | useTree => exact iff_of_true rfl (.inr id)
  | drop => exact iff_of_true rfl (.inr id)

theorem Effect.proposed_by (h : s.Effect P e t) {pp : PrePrepareMessage} (hpp : t.Proposed pp) :
    s.Proposed pp ∨ pp.pbftID = t.node.pbft.pbftID := by
  cases h with
  | @receive packet calls idle =>
    refine .inl (hpp.imp id ?_)
    rintro ⟨x, hx, hpp⟩
    rcases List.mem_cons.mp hx with rfl | hx
    · obtain ⟨d, _, hd⟩ := List.mem_map.mp hpp
      cases d <;> cases hd
    · exact ⟨x, idle ▸ List.mem_cons_of_mem _ hx, hpp⟩
  | tag same config =>
    refine .inl (hpp.imp id ?_)
    rintro ⟨x, hx, hpp⟩
    rcases List.mem_append.mp hx with hx | hx
    · exact ⟨x, hx, hpp⟩
    · obtain ⟨call, _, rfl⟩ := List.mem_map.mp hx
      simp at hpp
  | turnBad =>
    refine .inl (hpp.imp id ?_)
    rintro ⟨x, hx, hpp⟩
    rcases List.mem_append.mp hx with hx | hx
    · exact ⟨x, hx, hpp⟩
    · simp [List.mem_singleton.mp hx] at hpp
  | useTree =>
    refine .inl (hpp.imp id ?_)
    rintro ⟨x, hx, hpp⟩
    rcases List.mem_append.mp hx with hx | hx
    · exact ⟨x, hx, hpp⟩
    · simp [List.mem_singleton.mp hx] at hpp
  | wake call kind moves => exact moves.proposed_by call hpp
  | step call kind moves => exact moves.proposed_by call hpp
  | @drop i m rest call free =>
    have hat := List.mem_of_getElem? call
    left
    rcases hpp with hsent | ⟨x, hx, hpp⟩
    · rcases List.mem_append.mp hsent with hold | hnew
      · exact .inl hold
      · obtain rfl := List.mem_singleton.mp hnew
        exact .inr ⟨_, hat, List.mem_cons_self⟩
    · rcases List.mem_or_eq_of_mem_set hx with hx | rfl
      · exact .inr ⟨x, hx, hpp⟩
      · exact .inr ⟨_, hat, List.mem_cons_of_mem _ hpp⟩

theorem tlcsSound_of_run (h : AnyRun (step P) (newReplica P conf) es s) :
    s.node.pbft.TlcsSound := by
  refine h.invariant (I := fun s => s.node.pbft.TlcsSound) ?_ fun hs _ hstep => ?_
  · simp [SafePbft.TlcsSound, newReplica, newPeer, newSafePbft]
  · cases step_effect hstep with
    | tag same config =>
      dsimp only
      rwa [same]
    | wake call kind moves => exact moves.tlcs hs
    | step call kind moves => exact moves.tlcs hs
    | _ => exact hs

theorem totalPeers_of_run (h : AnyRun (step P) (newReplica P conf) es s) :
    s.node.totalPeers = conf.totalPeers :=
  h.invariant (I := fun s => s.node.totalPeers = conf.totalPeers) rfl fun hs _ hstep =>
    (step_effect hstep).totalPeers.trans hs

def OwnResidue (conf : PeerConfig) (s : Replica) : Prop :=
  s.node.pbft.pbftID ≡ conf.paxosID [MOD conf.totalPeers]

/-- The node is alone, or the step does not pass an ID with consensus. -/
def KeepsResidue (s : Replica) (e : ReplicaEvent) : Prop :=
  s.node.totalPeers = 1 ∨ ¬ s.Advances e

instance (s : Replica) (e : ReplicaEvent) : Decidable (s.KeepsResidue e) :=
  inferInstanceAs (Decidable (_ ∨ _))

theorem ownResidue_step (hrun : AnyRun (step P) (newReplica P conf) es s)
    (hs : s.OwnResidue conf) (h : s.step P e = some t) : t.OwnResidue conf ↔ s.KeepsResidue e := by
  have hcounter := (step_effect h).counter (tlcsSound_of_run hrun)
  rw [KeepsResidue, ← hcounter, totalPeers_of_run hrun]
  exact ⟨fun ht => ht.trans hs.symm, fun ht => ht.trans hs⟩

/-- The IDs a node proposes are its own. -/
theorem proposed_residue (h : Run (step P) KeepsResidue (newReplica P conf) es s) :
    s.OwnResidue conf ∧ ∀ pp, s.Proposed pp → pp.pbftID ≡ conf.paxosID [MOD conf.totalPeers] := by
  induction h with
  | nil => exact ⟨Nat.ModEq.refl _, by simp [Proposed, newReplica]⟩
  | @snoc es s t e prior meets enabled ih =>
    obtain ⟨hs, hproposed⟩ := ih
    have ht := (ownResidue_step prior.forget hs enabled).mpr meets
    refine ⟨ht, fun pp hpp => ?_⟩
    rcases (step_effect enabled).proposed_by hpp with hold | hid
    · exact hproposed pp hold
    · rwa [hid]

/-- The counter of a node stays at the node's own IDs throughout a run if and only if no step of
the run passes an ID with consensus. Two nodes of which this holds propose no ID in common. -/
theorem ids_disjoint_iff (conf conf' : PeerConfig) {es' : List ReplicaEvent} {s' : Replica}
    (htotal : conf'.totalPeers = conf.totalPeers)
    (hid : 1 ≤ conf.paxosID ∧ conf.paxosID ≤ conf.totalPeers)
    (hid' : 1 ≤ conf'.paxosID ∧ conf'.paxosID ≤ conf'.totalPeers)
    (hne : conf.paxosID ≠ conf'.paxosID) (hrun : AnyRun (step P) (newReplica P conf) es s) :
    (Always (step P) (OwnResidue conf) (newReplica P conf) es ↔
      Run (step P) KeepsResidue (newReplica P conf) es s) ∧
    (Run (step P) KeepsResidue (newReplica P conf) es s →
      Run (step P) KeepsResidue (newReplica P conf') es' s' →
      ∀ pp pp', s.Proposed pp → s'.Proposed pp' → pp.pbftID ≠ pp'.pbftID) := by
  refine ⟨always_iff_run hrun (Nat.ModEq.refl _) ownResidue_step, ?_⟩
  intro h h' pp pp' hpp hpp' heq
  have hres := (proposed_residue h).2 pp hpp
  have hres' := (proposed_residue h').2 pp' hpp'
  rw [heq] at hres
  rw [htotal] at hres' hid'
  have hmod : conf.paxosID ≡ conf'.paxosID [MOD conf.totalPeers] := hres.symm.trans hres'
  apply hne
  -- two residues between 1 and the number of peers
  have hlt : ∀ {a b : ℕ}, a ≡ b [MOD conf.totalPeers] → 1 ≤ a → b ≤ conf.totalPeers → a ≤ b →
      a = b := by
    intro a b hab ha hb hle
    have hdvd := (Nat.modEq_iff_dvd' hle).mp hab
    rcases Nat.eq_zero_or_pos (b - a) with hzero | hpos
    · omega
    · have := Nat.le_of_dvd hpos hdvd
      omega
  rcases Nat.le_total conf.paxosID conf'.paxosID with hle | hle
  · exact hlt hmod hid.1 hid'.2 hle
  · exact (hlt hmod.symm hid'.1 hid.2 hle).symm

end Replica

namespace Sample

/-- Three TLC messages for A's first ID, and their handlers up to where the third one is counted
and the counter moves on. -/
def threeTlcs : List ReplicaEvent :=
  let tlc : Message := .pbftTLC ⟨1, ⟨0, zeroHash, .zero, zeroHash⟩⟩
  .receive [.message tlc, .message tlc, .message tlc] :: List.replicate 12 (.step 0)

def tagging (name mh : String) (i : ℕ) : List ReplicaEvent :=
  .tag name mh :: .wake i :: List.replicate 5 (.step i)

theorem threeTlcs_isSome :
    (exec (Replica.step primitives) (newReplica primitives (conf "A" 1))
      (threeTlcs ++ tagging "f" "m" 2)).isSome := by
  decide

/-- Node A after three TLC messages, enough for consensus, and a Tag call before the handler of the
last one goes on. -/
def shifted : Replica :=
  (exec (Replica.step primitives) (newReplica primitives (conf "A" 1))
    (threeTlcs ++ tagging "f" "m" 2)).get threeTlcs_isSome

theorem oneTag_isSome :
    (exec (guarded (Replica.step primitives) Replica.KeepsResidue)
      (newReplica primitives (conf "B" 2)) (tagging "g" "n" 1)).isSome := by
  decide

def unshifted : Replica :=
  (exec (guarded (Replica.step primitives) Replica.KeepsResidue)
    (newReplica primitives (conf "B" 2)) (tagging "g" "n" 1)).get oneTag_isSome

/-- Nodes A and B both propose a request of their own for ID 6. -/
theorem ids_counterexample :
    AnyRun (Replica.step primitives) (newReplica primitives (conf "A" 1))
        (threeTlcs ++ tagging "f" "m" 2) shifted ∧
      AnyRun (Replica.step primitives) (newReplica primitives (conf "B" 2)) (tagging "g" "n" 1)
        unshifted ∧
      ¬ shifted.OwnResidue (conf "A" 1) ∧
      .prePrepare (prePrepareFrom "A" ⟨"A", "f", "m"⟩ 6) ∈ shifted.sent ∧
      .prePrepare (prePrepareFrom "B" ⟨"B", "g", "n"⟩ 6) ∈ unshifted.sent := by
  refine ⟨run_exec_get _, (run_of_guarded (run_exec_get oneTag_isSome)).forget, ?_,
    by decide, by decide⟩
  change ¬ shifted.node.pbft.pbftID % 4 = 1 % 4
  decide

def oneTlcEvents : List ReplicaEvent :=
  .receive [.message (.pbftTLC ⟨1, ⟨0, zeroHash, .zero, zeroHash⟩⟩)] ::
    .step 0 :: .step 0 :: (tagging "f" "m" 1 ++ [.step 0, .step 0])

theorem oneTlc_isSome :
    (exec (guarded (Replica.step primitives) Replica.KeepsResidue)
      (newReplica primitives (conf "A" 1)) oneTlcEvents).isSome := by
  decide

def oneTlc : Replica :=
  (exec (guarded (Replica.step primitives) Replica.KeepsResidue)
    (newReplica primitives (conf "A" 1)) oneTlcEvents).get oneTlc_isSome

theorem ids_disjoint_iff_oneTlc :
    Always (Replica.step primitives) (Replica.OwnResidue (conf "A" 1))
        (newReplica primitives (conf "A" 1)) oneTlcEvents ∧
      ∀ pp pp', oneTlc.Proposed pp → unshifted.Proposed pp' → pp.pbftID ≠ pp'.pbftID :=
  have hrun := run_of_guarded (run_exec_get oneTlc_isSome)
  have hall := Replica.ids_disjoint_iff (conf "A" 1) (conf "B" 2) rfl (by decide) (by decide)
    (by decide) hrun.forget
  ⟨hall.1.mpr hrun, hall.2 hrun (run_of_guarded (run_exec_get oneTag_isSome))⟩

end Sample

end JobPortal
