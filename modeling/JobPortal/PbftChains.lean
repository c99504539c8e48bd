import JobPortal.PbftSample
import JobPortal.HashChains

/-! The chains in the store. A node appends blocks one at a time, each on top of the last one
for its HR; walking the stored hashes back from the last block gives exactly these blocks. -/
namespace JobPortal

open Hex Runs HashChains

variable (P : Primitives)

def PbftchainBlock.hashBuf (b : PbftchainBlock) : Bytes :=
  utf8 (toString b.index) ++ utf8 b.request.idhr ++ utf8 b.request.filename ++
    utf8 b.request.metahash ++ b.prevHash

def HrStore.lastHash (store : HrStore) (idhr : String) : Bytes :=
  (store.get idhr lastBlockKey).getD zeroHash

def HrStore.block (store : HrStore) (idhr : String) (hash : Bytes) : Option PbftchainBlock :=
  (store.get idhr (encodeToString hash)).bind P.unmarshalBlock

/-- The chain of an HR, walked back from its last block. -/
def HrStore.chain (store : HrStore) (idhr : String) : Option (List PbftchainBlock) :=
  walk PbftchainBlock.prevHash zeroHash (store.block P idhr) ((store.at idhr ∅).keys.card + 1)
    (store.lastHash idhr)

def HrStore.append (store : HrStore) (b : PbftchainBlock) : HrStore :=
  (store.set b.request.idhr (encodeToString b.hash) (P.marshalBlock b)).set b.request.idhr
    lastBlockKey b.hash

def storeOf (bs : List PbftchainBlock) : HrStore := bs.foldl (HrStore.append P) ∅

/-- Blocks that were each built on the store of the ones before. -/
inductive Built : List PbftchainBlock → Prop
  | nil : Built []
  | snoc {bs : List PbftchainBlock} {b : PbftchainBlock} (built : Built bs)
      (link : b.prevHash = (storeOf P bs).lastHash b.request.idhr)
      (hashed : b.hash = P.sha256 b.hashBuf) : Built (bs ++ [b])

def blocksFor (idhr : String) (bs : List PbftchainBlock) : List PbftchainBlock :=
  bs.filter (·.request.idhr = idhr)

/-- No collision among the hashed blocks, and none with the genesis hash. -/
structure HashesSound (bs : List PbftchainBlock) : Prop where
  distinct : ∀ b ∈ bs, ∀ c ∈ bs, P.sha256 b.hashBuf = P.sha256 c.hashBuf → b.hashBuf = c.hashBuf
  genesis : ∀ b ∈ bs, P.sha256 b.hashBuf ≠ zeroHash

instance (bs : List PbftchainBlock) : Decidable (HashesSound P bs) :=
  decidable_of_iff ((∀ b ∈ bs, ∀ c ∈ bs, P.sha256 b.hashBuf = P.sha256 c.hashBuf →
      b.hashBuf = c.hashBuf) ∧ ∀ b ∈ bs, P.sha256 b.hashBuf ≠ zeroHash)
    ⟨fun h => ⟨h.1, h.2⟩, fun h => ⟨h.distinct, h.genesis⟩⟩

variable {P} {bs : List PbftchainBlock} {b : PbftchainBlock} {idhr : String}

theorem blocksFor_concat_self (h : b.request.idhr = idhr) :
    blocksFor idhr (bs ++ [b]) = blocksFor idhr bs ++ [b] := by simp [blocksFor, h]

theorem blocksFor_concat_of_ne (h : b.request.idhr ≠ idhr) :
    blocksFor idhr (bs ++ [b]) = blocksFor idhr bs := by simp [blocksFor, h]

theorem storeOf_concat : storeOf P (bs ++ [b]) = (storeOf P bs).append P b := by
  simp [storeOf, List.foldl_append]

theorem lastHash_append (store : HrStore) :
    (store.append P b).lastHash idhr =
      if idhr = b.request.idhr then b.hash else store.lastHash idhr := by
  unfold HrStore.lastHash HrStore.append
  rw [HrStore.get_set, HrStore.get_set]
  split_ifs <;> simp_all

theorem get_append_self (store : HrStore) {key : String} (h : key ≠ lastBlockKey) :
    (store.append P b).get b.request.idhr key =
      if key = encodeToString b.hash then some (P.marshalBlock b)
      else store.get b.request.idhr key := by
  unfold HrStore.append
  rw [HrStore.get_set, HrStore.get_set]
  simp [h]

theorem get_append_of_ne (store : HrStore) (h : b.request.idhr ≠ idhr) (key : String) :
    (store.append P b).get idhr key = store.get idhr key := by
  unfold HrStore.append
  rw [HrStore.get_set, HrStore.get_set]
  simp [Ne.symm h]

theorem lastHash_storeOf (bs : List PbftchainBlock) (idhr : String) :
    (storeOf P bs).lastHash idhr = tip PbftchainBlock.hash zeroHash (blocksFor idhr bs) := by
  induction bs using List.reverseRecOn with
  | nil => simp [storeOf, HrStore.lastHash, HrStore.get, GoMap.get₂, blocksFor]
  | append_singleton bs b ih =>
    rw [storeOf_concat, lastHash_append]
    by_cases h : b.request.idhr = idhr
    · rw [if_pos h.symm, blocksFor_concat_self h, tip_concat]
    · rw [if_neg (Ne.symm h), blocksFor_concat_of_ne h, ih]

theorem Built.linked (h : Built P bs) (idhr : String) :
    Linked PbftchainBlock.hash PbftchainBlock.prevHash zeroHash (blocksFor idhr bs) := by
  induction h with
  | nil => exact .nil
  | @snoc bs b built link hashed ih =>
    by_cases hb : b.request.idhr = idhr
    · rw [blocksFor_concat_self hb]
      exact .snoc ih (by rw [link, hb, lastHash_storeOf])
    · rwa [blocksFor_concat_of_ne hb]

theorem Built.hashed (h : Built P bs) : ∀ b ∈ bs, b.hash = P.sha256 b.hashBuf := by
  induction h with
  | nil => simp
  | snoc built link hashed ih =>
    intro b hb
    rcases List.mem_append.mp hb with hold | hnew
    · exact ih b hold
    · rwa [List.mem_singleton.mp hnew]

/-- A block names 32 bytes, as many as a hash has. -/
theorem Built.prevHash_length (h : Built P bs) : ∀ b ∈ bs, b.prevHash.length = 32 := by
  induction h with
  | nil => simp
  | @snoc bs b built link hashed ih =>
    intro c hc
    rcases List.mem_append.mp hc with hold | hnew
    · exact ih c hold
    · rw [List.mem_singleton.mp hnew, link, lastHash_storeOf]
      rcases List.eq_nil_or_concat (blocksFor b.request.idhr bs) with hnil | ⟨l, d, hl⟩
      · rw [hnil, tip_nil, zeroHash, List.length_replicate]
      · have hd : d ∈ blocksFor b.request.idhr bs := by rw [hl]; simp
        rw [hl, List.concat_eq_append, tip_concat, built.hashed d (List.mem_of_mem_filter hd)]
        exact P.sha256_length _

theorem Built.nodup (h : Built P bs) (hs : HashesSound P bs) (idhr : String) :
    ((blocksFor idhr bs).map PbftchainBlock.hash).Nodup := by
  refine (h.linked idhr).nodup ?_ ?_
  · intro b hb c hc hbc
    have hb' := List.mem_of_mem_filter hb
    have hc' := List.mem_of_mem_filter hc
    rw [h.hashed b hb', h.hashed c hc'] at hbc
    refine (List.append_inj' (hs.distinct b hb' c hc' hbc) ?_).2
    rw [h.prevHash_length b hb', h.prevHash_length c hc']
  · intro b hb
    have hb' := List.mem_of_mem_filter hb
    rw [h.hashed b hb']
    exact hs.genesis b hb'

theorem HashesSound.of_append {cs : List PbftchainBlock} (h : HashesSound P (bs ++ cs)) :
    HashesSound P bs where
  distinct b hb c hc :=
    h.distinct b (List.mem_append_left _ hb) c (List.mem_append_left _ hc)
  genesis b hb := h.genesis b (List.mem_append_left _ hb)

theorem hex_ne_lastBlockKey {hash : Bytes} (h : hash ≠ zeroHash) :
    encodeToString hash ≠ lastBlockKey := by
  rw [← encodeToString_zeroHash]
  exact fun heq => h (encodeToString_inj.mp heq)

theorem Built.get (h : Built P bs) (hs : HashesSound P bs) :
    ∀ b ∈ blocksFor idhr bs,
      (storeOf P bs).get idhr (encodeToString b.hash) = some (P.marshalBlock b) := by
  induction h with
  | nil => simp [blocksFor]
  | @snoc bs c built link hashed ih =>
    intro b hb
    have hbuilt := Built.snoc built link hashed
    have hkey : encodeToString b.hash ≠ lastBlockKey := by
      have hmem := List.mem_of_mem_filter hb
      apply hex_ne_lastBlockKey
      rw [hbuilt.hashed b hmem]
      exact hs.genesis b hmem
    rw [storeOf_concat]
    by_cases hc : c.request.idhr = idhr
    · have hnodup := hbuilt.nodup hs idhr
      rw [blocksFor_concat_self hc] at hb hnodup
      subst hc
      rw [get_append_self _ hkey]
      split_ifs with heq
      · have hbc : b = c := by
          apply List.inj_on_of_nodup_map hnodup hb (by simp)
          exact encodeToString_inj.mp heq
        rw [hbc]
      · rcases List.mem_append.mp hb with hold | hnew
        · exact ih hs.of_append b hold
        · rw [List.mem_singleton.mp hnew] at heq
          exact absurd rfl heq
    · rw [get_append_of_ne _ hc]
      rw [blocksFor_concat_of_ne hc] at hb
      exact ih hs.of_append b hb

/-- There is a key for every block, so the walk has enough fuel. -/
theorem Built.length_le_keys (h : Built P bs) (hs : HashesSound P bs) (idhr : String) :
    (blocksFor idhr bs).length ≤ ((storeOf P bs).at idhr ∅).keys.card := by
  have hnodup := (h.nodup hs idhr).map encodeToString_injective
  have hcard := List.toFinset_card_of_nodup hnodup
  rw [List.length_map, List.length_map] at hcard
  rw [← hcard]
  apply Finset.card_le_card
  intro key hkey
  obtain ⟨hash, hhash, rfl⟩ := List.mem_map.mp (List.mem_toFinset.mp hkey)
  obtain ⟨b, hb, rfl⟩ := List.mem_map.mp hhash
  have hget := h.get hs b hb
  obtain ⟨m, hm, hl⟩ := Option.bind_eq_some_iff.mp hget
  rw [Finmap.mem_keys, Finmap.mem_iff, GoMap.at, hm]
  exact ⟨_, hl⟩

/-- Every key of an HR but the last-block key is the hash of one of its blocks. -/
theorem get_storeOf_cases (bs : List PbftchainBlock) {key : String} {v : Bytes}
    (hkey : key ≠ lastBlockKey) (hget : (storeOf P bs).get idhr key = some v) :
    ∃ b ∈ blocksFor idhr bs, key = encodeToString b.hash ∧ v = P.marshalBlock b := by
  induction bs using List.reverseRecOn with
  | nil => simp [storeOf, HrStore.get, GoMap.get₂] at hget
  | append_singleton bs c ih =>
    rw [storeOf_concat] at hget
    by_cases hc : c.request.idhr = idhr
    · rw [blocksFor_concat_self hc]
      subst hc
      rw [get_append_self _ hkey] at hget
      split_ifs at hget with hnew
      · exact ⟨c, by simp, hnew, (Option.some.inj hget).symm⟩
      · obtain ⟨b, hb, hrest⟩ := ih hget
        exact ⟨b, List.mem_append_left _ hb, hrest⟩
    · rw [get_append_of_ne _ hc] at hget
      rw [blocksFor_concat_of_ne hc]
      exact ih hget

/-- Walking a chain gives the blocks appended for its HR, in order. -/
theorem Built.chain_eq (h : Built P bs) (hs : HashesSound P bs)
    (hunmarshal : ∀ b ∈ bs, P.unmarshalBlock (P.marshalBlock b) = some b) (idhr : String) :
    (storeOf P bs).chain P idhr = some (blocksFor idhr bs) := by
  rw [HrStore.chain, lastHash_storeOf]
  refine (h.linked idhr).walk ?_ ?_ (Nat.lt_succ_of_le (h.length_le_keys hs idhr))
  · intro b hb
    rw [HrStore.block, h.get hs b hb, Option.bind_some, hunmarshal b (List.mem_of_mem_filter hb)]
  · intro b hb
    have hmem := List.mem_of_mem_filter hb
    rw [h.hashed b hmem]
    exact hs.genesis b hmem

def Peer.blocks (p : Peer) : List PbftchainBlock := p.appended.map (·.2)

/-- The store of a peer comes from the blocks it appended, each built on the ones before. -/
structure Peer.Chained (P : Primitives) (p : Peer) : Prop where
  store : p.node.hrStorage.hrBlockchain = storeOf P p.blocks
  built : Built P p.blocks

theorem Node.Effect.chained {n : Node} {m : Message} {r : Handled} (h : n.Effect P m r) :
    r.node.hrStorage.hrBlockchain = n.hrStorage.hrBlockchain ∧ r.appended = [] ∨
    ∃ k b, r.appended = [(k, b)] ∧
      r.node.hrStorage.hrBlockchain = n.hrStorage.hrBlockchain.append P b ∧
      b.prevHash = n.hrStorage.hrBlockchain.lastHash b.request.idhr ∧
      b.hash = P.sha256 b.hashBuf := by
  cases h with
  | idle same => rw [same.node]; exact .inl ⟨rfl, same.appended⟩
  | pbftTLC tlc =>
    obtain ⟨_, _, _, hstore, happ, _⟩ := n.execPbftTLCMessage_frame P tlc
    exact .inl ⟨by rw [hstore], happ⟩
  | committed => exact .inr ⟨_, _, rfl, rfl, rfl, rfl⟩
  | conflict => exact .inl ⟨rfl, rfl⟩
  | prePrepare => exact .inl ⟨rfl, rfl⟩
  | prepare => exact .inl ⟨rfl, rfl⟩
  | prepared => exact .inl ⟨rfl, rfl⟩
  | commit => exact .inl ⟨rfl, rfl⟩
  | noPeers => exact .inl ⟨rfl, rfl⟩
  | checkpoint => exact .inl ⟨rfl, rfl⟩

theorem Node.tagSection_storage (n : Node) (call : TagCall) :
    (n.tagSection P call).node.hrStorage = n.hrStorage := by
  unfold Node.tagSection
  split_ifs <;> rfl

@[simp] theorem Peer.blocks_after (p : Peer) (r : Handled) :
    (p.after r).blocks = p.blocks ++ r.appended.map (·.2) := List.map_append

@[simp] theorem Peer.blocks_propose (p : Peer) (i : ℕ) (call : TagCall) :
    (p.propose P i call).blocks = p.blocks := by
  rw [Peer.blocks, Peer.propose_appended, Peer.blocks]

theorem Peer.Effect.chained {p q : Peer} {e : PeerEvent} (h : p.Effect P e q)
    (hp : p.Chained P) : q.Chained P := by
  cases h with
  | @receive m r effect =>
    have hblocks := p.blocks_after r
    rcases effect.chained with ⟨hstore, happ⟩ | ⟨k, b, happ, hstore, hprev, hhash⟩
    · rw [happ, List.map_nil, List.append_nil] at hblocks
      exact ⟨by rw [hblocks, ← hp.store]; exact hstore, by rw [hblocks]; exact hp.built⟩
    · rw [happ, List.map_singleton] at hblocks
      rw [hp.store] at hstore hprev
      exact ⟨by rw [hblocks, storeOf_concat]; exact hstore,
        by rw [hblocks]; exact .snoc hp.built hprev hhash⟩
  | tag name mh =>
    unfold Peer.tag
    split_ifs <;> exact ⟨hp.store, hp.built⟩
  | verify => exact ⟨hp.store, hp.built⟩
  | @propose i call call_at pc free =>
    refine ⟨?_, by rw [Peer.blocks_propose]; exact hp.built⟩
    rw [Peer.blocks_propose, ← hp.store]
    exact congrArg HrStorage.hrBlockchain (p.node.tagSection_storage call)

theorem chained_of_run {conf : PeerConfig} {es : List PeerEvent} {p : Peer}
    (h : AnyRun (Peer.step P) (newPeer P conf) es p) : p.Chained P :=
  h.invariant (I := Peer.Chained P) ⟨rfl, .nil⟩ fun hp _ hstep =>
    (Peer.step_effect P hstep).chained hp

/-- In every reachable state of a peer, the chain of an HR is what it appended for that HR. -/
theorem chain_of_run {conf : PeerConfig} {es : List PeerEvent} {p : Peer}
    (h : AnyRun (Peer.step P) (newPeer P conf) es p) (hs : HashesSound P p.blocks)
    (hunmarshal : ∀ b ∈ p.blocks, P.unmarshalBlock (P.marshalBlock b) = some b) (idhr : String) :
    p.node.hrStorage.hrBlockchain.chain P idhr = some (blocksFor idhr p.blocks) := by
  have hp := chained_of_run h
  rw [hp.store]
  exact hp.built.chain_eq hs hunmarshal idhr

/-- The chain of an HR holds as many blocks as were appended for it, each stored once under
the hash of its fields, and nothing else is stored for the HR. -/
theorem chain_integrity {conf : PeerConfig} {es : List PeerEvent} {p : Peer}
    (h : AnyRun (Peer.step P) (newPeer P conf) es p) (hs : HashesSound P p.blocks)
    (hunmarshal : ∀ b ∈ p.blocks, P.unmarshalBlock (P.marshalBlock b) = some b) (idhr : String) :
    ∃ bs, p.node.hrStorage.hrBlockchain.chain P idhr = some bs ∧
      bs.length = p.blocks.countP (·.request.idhr = idhr) ∧
      (bs.map PbftchainBlock.hash).Nodup ∧
      (∀ b ∈ bs, b.hash = P.sha256 b.hashBuf) ∧
      ∀ key v, key ≠ lastBlockKey → (p.node.hrStorage.hrBlockchain.get idhr key = some v ↔
        ∃ b ∈ bs, key = encodeToString b.hash ∧ v = P.marshalBlock b) := by
  have hp := chained_of_run h
  refine ⟨_, chain_of_run h hs hunmarshal idhr, ?_, hp.built.nodup hs idhr, ?_, ?_⟩
  · rw [blocksFor, List.countP_eq_length_filter]
  · intro b hb
    exact hp.built.hashed b (List.mem_of_mem_filter hb)
  · intro key v hkey
    rw [hp.store]
    constructor
    · exact get_storeOf_cases p.blocks hkey
    · rintro ⟨b, hb, rfl, rfl⟩
      exact hp.built.get hs b hb

namespace Sample

theorem twoBlocks_isSome :
    (exec (Peer.step primitives) (newPeer primitives (conf "A" 1))
      (committing ⟨"B", "f", "m"⟩ 6 ++ committing ⟨"B", "g", "n"⟩ 10)).isSome := by
  decide

def twoBlocks : Peer :=
  (exec (Peer.step primitives) (newPeer primitives (conf "A" 1))
    (committing ⟨"B", "f", "m"⟩ 6 ++ committing ⟨"B", "g", "n"⟩ 10)).get twoBlocks_isSome

theorem chain_integrity_twoBlocks :
    ∃ bs, twoBlocks.node.hrStorage.hrBlockchain.chain primitives "B" = some bs ∧
      bs.length = twoBlocks.blocks.countP (·.request.idhr = "B") ∧
      (bs.map PbftchainBlock.hash).Nodup ∧
      (∀ b ∈ bs, b.hash = primitives.sha256 b.hashBuf) ∧
      ∀ key v, key ≠ lastBlockKey → (twoBlocks.node.hrStorage.hrBlockchain.get "B" key = some v ↔
        ∃ b ∈ bs, key = encodeToString b.hash ∧ v = primitives.marshalBlock b) :=
  chain_integrity (run_exec_get twoBlocks_isSome) (by decide)
    (fun b _ => unmarshalBlock_marshalBlock b) "B"

end Sample

end JobPortal
