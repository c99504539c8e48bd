import JobPortal.PbftNaming

/-! What a Tag call that returns has achieved. The loop compares the metahash with what the naming
store has for the name, and nothing on file reads like the empty metahash. -/
namespace JobPortal

open Hex Runs

variable {P : Primitives}

def Node.OnChain (P : Primitives) (n : Node) (idhr name mh : String) : Prop :=
  ∃ bs, n.hrStorage.hrBlockchain.chain P idhr = some bs ∧
    ∃ b ∈ bs, b.request.filename = name ∧ b.request.metahash = mh

theorem Peer.Effect.tagDone {p q : Peer} {i : ℕ} {call : TagCall} (h : p.Effect P (.verify i) q)
    (hcall : p.calls[i]? = some call)
    (hreturned : q.calls[i]? = some { call with pc := .returned }) :
    p.node.tagDone call ∧ q.node = p.node := by
  cases h with
  | @verify _ call' call_at pc =>
    obtain rfl := Option.some.inj (hcall.symm.trans call_at)
    refine ⟨?_, rfl⟩
    obtain ⟨hlt, _⟩ := List.getElem?_eq_some_iff.mp hcall
    simp only [Peer.verify, List.getElem?_set_self hlt, Option.some.injEq, TagCall.mk.injEq]
      at hreturned
    by_contra hdone
    rw [if_neg hdone] at hreturned
    cases hreturned.2.2.2

/-- Where the name is bound, the chain has a block for what it is bound to, and for nothing
otherwise. -/
theorem onChain_iff_of_run {conf : PeerConfig} (hpeers : 1 < conf.totalPeers) {es : List PeerEvent}
    {p : Peer} (h : AnyRun (Peer.step P) (newPeer P conf) es p) (hs : HashesSound P p.blocks)
    (hunmarshal : ∀ b ∈ p.blocks, P.unmarshalBlock (P.marshalBlock b) = some b) {call : TagCall}
    (hdone : p.node.tagDone call) :
    p.node.OnChain P p.node.myAddr call.name call.mh ↔
      (p.node.hrStorage.hrNaming.get p.node.myAddr call.name).isSome := by
  have hchain := chain_of_run h hs hunmarshal p.node.myAddr
  unfold Node.tagDone at hdone
  rw [naming_of_run hpeers h, get_namingOf] at hdone ⊢
  rw [Option.isSome_map]
  constructor
  · rintro ⟨bs, hbs, b, hb, hname, _⟩
    obtain rfl := Option.some.inj (hchain.symm.trans hbs)
    have hmem : b ∈ (blocksFor p.node.myAddr p.blocks).filter (·.request.filename = call.name) :=
      List.mem_filter.mpr ⟨hb, decide_eq_true hname⟩
    rw [lastNamed, Option.isSome_iff_ne_none, Ne, List.getLast?_eq_none_iff]
    exact List.ne_nil_of_mem hmem
  · intro hsome
    obtain ⟨b, hb⟩ := Option.isSome_iff_exists.mp hsome
    rw [hb, Option.map_some, Option.getD_some] at hdone
    obtain ⟨hmem, hname⟩ := List.mem_filter.mp (List.mem_of_getLast? hb)
    exact ⟨_, hchain, b, hmem, of_decide_eq_true hname, utf8_injective hdone⟩

/-- A Tag call that returns has its block on the chain, exactly unless its metahash is empty and its
name is not bound. -/
theorem returned_on_chain_iff {conf : PeerConfig} (hpeers : 1 < conf.totalPeers)
    {es : List PeerEvent} {p q : Peer} (h : AnyRun (Peer.step P) (newPeer P conf) es p)
    (hs : HashesSound P p.blocks)
    (hunmarshal : ∀ b ∈ p.blocks, P.unmarshalBlock (P.marshalBlock b) = some b) {i : ℕ}
    {call : TagCall} (hcall : p.calls[i]? = some call)
    (hstep : p.step P (.verify i) = some q)
    (hreturned : q.calls[i]? = some { call with pc := .returned }) :
    q.node.OnChain P q.node.myAddr call.name call.mh ↔
      call.mh ≠ "" ∨ (p.node.hrStorage.hrNaming.get p.node.myAddr call.name).isSome := by
  obtain ⟨hdone, hnode⟩ := (Peer.step_effect P hstep).tagDone hcall hreturned
  rw [hnode, onChain_iff_of_run hpeers h hs hunmarshal hdone]
  refine ⟨.inr, fun hcases => hcases.elim (fun hmh => ?_) id⟩
  by_contra hnone
  rw [Option.not_isSome_iff_eq_none] at hnone
  rw [Node.tagDone, hnone] at hdone
  exact hmh (utf8_injective hdone.symm)

namespace Sample

def emptyMetahash : List PeerEvent := [.tag "f" ""]

theorem emptyMetahash_isSome :
    (exec (Peer.step primitives) (newPeer primitives (conf "A" 1)) emptyMetahash).isSome := by
  decide

def taggingEmpty : Peer :=
  (exec (Peer.step primitives) (newPeer primitives (conf "A" 1)) emptyMetahash).get
    emptyMetahash_isSome

theorem taggingEmpty_verifies : (taggingEmpty.step primitives (.verify 0)).isSome := by
  decide

def taggedEmpty : Peer := (taggingEmpty.step primitives (.verify 0)).get taggingEmpty_verifies

/-- Tag returns at once, with nothing on the chain. -/
theorem tagged_counterexample :
    AnyRun (Peer.step primitives) (newPeer primitives (conf "A" 1)) (emptyMetahash ++ [.verify 0])
        taggedEmpty ∧
      taggedEmpty.calls[0]? = some { name := "f", mh := "", pc := .returned } ∧
      taggedEmpty.node.hrStorage.hrBlockchain.chain primitives "A" = some [] ∧
      ¬ taggedEmpty.node.OnChain primitives "A" "f" "" := by
  have hchain : taggedEmpty.node.hrStorage.hrBlockchain.chain primitives "A" = some [] := by
    decide
  refine ⟨.snoc (run_exec_get _) trivial (Option.some_get taggingEmpty_verifies).symm,
    by decide, hchain, ?_⟩
  rintro ⟨bs, hbs, b, hb, _⟩
  obtain rfl := Option.some.inj (hchain.symm.trans hbs)
  cases hb

def taggingOwn : List PeerEvent :=
  let digest := primitives.getDigest ⟨"A", "g", "n"⟩
  [.tag "g" "n", .verify 0, .propose 0, .receive (.prepare (prepareFrom "C" digest 5)),
    .receive (.prepare (prepareFrom "D" digest 5)), .receive (.commit (commitFrom "C" digest 5)),
    .receive (.commit (commitFrom "D" digest 5))]

theorem taggingOwn_isSome :
    (exec (Peer.step primitives) (newPeer primitives (conf "A" 1)) taggingOwn).isSome := by
  decide

def taggedOwn : Peer :=
  (exec (Peer.step primitives) (newPeer primitives (conf "A" 1)) taggingOwn).get taggingOwn_isSome

theorem taggedOwn_verifies : (taggedOwn.step primitives (.verify 0)).isSome := by
  decide

theorem returned_on_chain_taggedOwn :
    ((taggedOwn.step primitives (.verify 0)).get taggedOwn_verifies).node.OnChain primitives "A"
      "g" "n" := by
  have hcall : taggedOwn.calls[0]? = some { name := "g", mh := "n", flag := true } := by
    decide
  exact (returned_on_chain_iff (by decide) (run_exec_get taggingOwn_isSome) (by decide)
    (fun b _ => unmarshalBlock_marshalBlock b) hcall (Option.some_get taggedOwn_verifies).symm
    (by decide)).mpr (.inl (by decide))

end Sample

end JobPortal
