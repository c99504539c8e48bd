import JobPortal.PbftChains

/-! The names of an HR. A node binds a name when it appends a block, so its naming store is
what the blocks of the chain say, the last one for a name counting. -/
namespace JobPortal

open Hex Runs

variable {P : Primitives} {bs : List PbftchainBlock} {b : PbftchainBlock} {idhr name : String}

def HrStore.bindName (store : HrStore) (b : PbftchainBlock) : HrStore :=
  store.set b.request.idhr b.request.filename (utf8 b.request.metahash)

def namingOf (bs : List PbftchainBlock) : HrStore := bs.foldl HrStore.bindName ∅

def lastNamed (name : String) (bs : List PbftchainBlock) : Option PbftchainBlock :=
  (bs.filter (·.request.filename = name)).getLast?

@[simp] theorem namingOf_concat : namingOf (bs ++ [b]) = (namingOf bs).bindName b := by
  simp [namingOf, List.foldl_append]

theorem lastNamed_concat_self (h : b.request.filename = name) :
    lastNamed name (bs ++ [b]) = some b := by simp [lastNamed, h]

theorem lastNamed_concat_of_ne (h : b.request.filename ≠ name) :
    lastNamed name (bs ++ [b]) = lastNamed name bs := by simp [lastNamed, h]

theorem get_bindName (store : HrStore) (b : PbftchainBlock) (idhr name : String) :
    (store.bindName b).get idhr name =
      if idhr = b.request.idhr ∧ name = b.request.filename then some (utf8 b.request.metahash)
      else store.get idhr name :=
  HrStore.get_set store ..

theorem get_namingOf (bs : List PbftchainBlock) (idhr name : String) :
    (namingOf bs).get idhr name =
      (lastNamed name (blocksFor idhr bs)).map fun b => utf8 b.request.metahash := by
  induction bs using List.reverseRecOn with
  | nil => simp [namingOf, HrStore.get, GoMap.get₂, blocksFor, lastNamed]
  | append_singleton bs b ih =>
    rw [namingOf_concat, get_bindName]
    by_cases hhr : b.request.idhr = idhr
    · rw [blocksFor_concat_self hhr]
      by_cases hname : b.request.filename = name
      · rw [if_pos ⟨hhr.symm, hname.symm⟩, lastNamed_concat_self hname, Option.map_some]
      · rw [if_neg fun h => hname h.2.symm, lastNamed_concat_of_ne hname, ih]
    · rw [if_neg fun h => hhr h.1.symm, blocksFor_concat_of_ne hhr, ih]

/-- A handler binds the names of the blocks it appends, and no others. -/
theorem Node.Effect.naming {n : Node} {m : Message} {r : Handled} (h : n.Effect P m r) :
    r.node.hrStorage.hrNaming =
      (r.appended.map (·.2)).foldl HrStore.bindName n.hrStorage.hrNaming := by
  cases h with
  | idle same => rw [same.node, same.appended]; rfl
  | pbftTLC tlc =>
    obtain ⟨_, _, _, hstore, happ, _⟩ := n.execPbftTLCMessage_frame P tlc
    rw [hstore, happ]
    rfl
  | committed => rfl
  | conflict => rfl
  | prePrepare => rfl
  | prepare => rfl
  | prepared => rfl
  | commit => rfl
  | noPeers => rfl
  | checkpoint => rfl

/-- Where there are other peers, no step but an append changes the naming store. -/
theorem Peer.Effect.naming {p q : Peer} {e : PeerEvent} (h : p.Effect P e q)
    (hpeers : 1 < p.node.totalPeers) (hp : p.node.hrStorage.hrNaming = namingOf p.blocks) :
    q.node.hrStorage.hrNaming = namingOf q.blocks := by
  cases h with
  | @receive m r effect =>
    rw [Peer.blocks_after, namingOf, List.foldl_append, ← namingOf, ← hp]
    exact effect.naming
  | tag name mh =>
    unfold Peer.tag
    split_ifs with hlone
    · omega
    · exact hp
    · exact hp
  | verify => exact hp
  | @propose i call call_at pc free =>
    rw [Peer.blocks_propose, ← hp]
    exact congrArg HrStorage.hrNaming (p.node.tagSection_storage call)

theorem naming_of_run {conf : PeerConfig} (hpeers : 1 < conf.totalPeers) {es : List PeerEvent}
    {p : Peer} (h : AnyRun (Peer.step P) (newPeer P conf) es p) :
    p.node.hrStorage.hrNaming = namingOf p.blocks := by
  induction h with
  | nil => rfl
  | @snoc es p q e prior meets enabled ih =>
    have hconf := sameConfig_of_run P prior
    exact (Peer.step_effect P enabled).naming (by rw [hconf.totalPeers]; exact hpeers) ih

/-- A name of an HR is bound to a metahash if and only if the last block for it on the chain
of the HR has this metahash, and to nothing if there is no such block. -/
theorem naming_replays {conf : PeerConfig} (hpeers : 1 < conf.totalPeers) {es : List PeerEvent}
    {p : Peer} (h : AnyRun (Peer.step P) (newPeer P conf) es p) (hs : HashesSound P p.blocks)
    (hunmarshal : ∀ b ∈ p.blocks, P.unmarshalBlock (P.marshalBlock b) = some b)
    (idhr name : String) :
    ∃ bs, p.node.hrStorage.hrBlockchain.chain P idhr = some bs ∧
      (∀ m, p.node.hrStorage.hrNaming.get idhr name = some (utf8 m) ↔
        ∃ b, lastNamed name bs = some b ∧ b.request.metahash = m) ∧
      ((∀ b ∈ bs, b.request.filename ≠ name) → p.node.hrStorage.hrNaming.get idhr name = none) := by
  refine ⟨_, chain_of_run h hs hunmarshal idhr, fun m => ?_, fun hnone => ?_⟩
  · rw [naming_of_run hpeers h, get_namingOf, Option.map_eq_some_iff]
    simp only [utf8_injective.eq_iff]
  · rw [naming_of_run hpeers h, get_namingOf, Option.map_eq_none_iff, lastNamed,
      List.getLast?_eq_none_iff, List.filter_eq_nil_iff]
    intro b hb
    simpa using hnone b hb

namespace Sample

theorem naming_replays_twoBlocks :
    ∃ bs, twoBlocks.node.hrStorage.hrBlockchain.chain primitives "B" = some bs ∧
      (∀ m, twoBlocks.node.hrStorage.hrNaming.get "B" "f" = some (utf8 m) ↔
        ∃ b, lastNamed "f" bs = some b ∧ b.request.metahash = m) ∧
      ((∀ b ∈ bs, b.request.filename ≠ "f") →
        twoBlocks.node.hrStorage.hrNaming.get "B" "f" = none) :=
  naming_replays (by decide) (run_exec_get twoBlocks_isSome) (by decide)
    (fun b _ => unmarshalBlock_marshalBlock b) "B" "f"

end Sample

end JobPortal
