import JobPortal.Goroutines
import JobPortal.PaxosCatchUp
import JobPortal.StoreWalks

/-! The blocks of the Paxos chain, read back from the store. The chain is followed from its last
block by the previous hashes, and what was read is deleted from a copy of the store. -/
namespace JobPortal

open Goroutines Hex StoreWalks

def BlockchainBlock.zero : BlockchainBlock := ⟨0, [], .zero, []⟩

/-- `unmarshalBlock` is what a zero block has become when `Unmarshal` returns; its error is
dropped. -/
structure ChainPrimitives extends PaxosPrimitives where
  unmarshalBlock : Bytes → BlockchainBlock

/-- A copy of a store, with the hash of the last block under a key of its own. -/
def getAll (data : GoMap String Bytes) : GoMap String Bytes :=
  match data.lookup lastBlockKey with
  | some v => (data.erase lastBlockKey).insert "LastBlockKey" v
  | none => data

namespace ChainPrimitives

variable (P : ChainPrimitives)

/-- The loop of `GetBlockchain`. A hash that is not in the map reads as an empty value. -/
def readChain : ℕ → Bytes → GoMap String Bytes → List PaxosValue → Option (Turn (List PaxosValue))
  | 0, _, _, _ => none
  | fuel + 1, cur, chainMap, retList =>
    if chainMap.keys.card = 0 then some (.done retList)
    else
      let key := encodeToString cur
      let block := P.unmarshalBlock (chainMap.at key [])
      if block.index < retList.length then
        readChain fuel block.prevHash (chainMap.erase key) (retList.set block.index block.value)
      else some .panicked

/-- `none` is a call that goes on for longer. -/
def getBlockchain (fuel : ℕ) (s : Storage) : Option (Turn (List PaxosValue)) :=
  let chainMap := getAll s.blockchain
  match chainMap.lookup "LastBlockKey" with
  | none => some (.done [])
  | some cur =>
    P.readChain fuel cur (chainMap.erase "LastBlockKey")
      (List.replicate (chainMap.keys.card - 1) .zero)

def nextKey (val : Bytes) : String := encodeToString (P.unmarshalBlock val).prevHash

def visited (v : Option Bytes) : BlockchainBlock := P.unmarshalBlock (v.getD [])

def enter (retList : List PaxosValue) (v : Option Bytes) : List PaxosValue :=
  retList.set (P.visited v).index (P.visited v).value

variable {P}

@[simp] theorem length_enter (retList : List PaxosValue) (v : Option Bytes) :
    (P.enter retList v).length = retList.length := List.length_set

theorem length_foldl_enter (visits : List (Option Bytes)) (retList : List PaxosValue) :
    (visits.foldl P.enter retList).length = retList.length := by
  induction visits generalizing retList with
  | nil => rfl
  | cons v visits ih => rw [List.foldl_cons, ih, length_enter]

/-- One turn of the loop is one visit of the walk, whether the key is in the map or not. -/
theorem walk_visited (hnil : P.unmarshalBlock [] = .zero) {chainMap : GoMap String Bytes}
    (hne : chainMap.keys.card ≠ 0) (key : String) (fuel : ℕ) :
    walk P.nextKey "" (fuel + 1) key chainMap =
      (walk P.nextKey "" fuel (encodeToString (P.visited (chainMap.lookup key)).prevHash)
        (chainMap.erase key)).map (chainMap.lookup key :: ·) := by
  cases hlookup : chainMap.lookup key with
  | some val => rw [walk_of_found hne hlookup, nextKey, visited, Option.getD_some]
  | none =>
    have herase : chainMap.erase key = chainMap := by
      refine Finmap.ext_lookup fun key' => ?_
      by_cases hkey : key' = key
      · rw [hkey, Finmap.lookup_erase, hlookup]
      · rw [Finmap.lookup_erase_ne hkey]
    rw [walk_of_missing hne hlookup, visited, Option.getD_none, hnil, herase]
    rfl

/-- The loop returns exactly if the walk through the store ends and every index is in range. -/
theorem readChain_eq_done (hnil : P.unmarshalBlock [] = .zero) {fuel : ℕ} {cur : Bytes}
    {chainMap : GoMap String Bytes} {retList values : List PaxosValue} :
    P.readChain fuel cur chainMap retList = some (.done values) ↔
      ∃ visits, walk P.nextKey "" fuel (encodeToString cur) chainMap = some visits ∧
        (∀ v ∈ visits, (P.visited v).index < retList.length) ∧
          visits.foldl P.enter retList = values := by
  induction fuel generalizing cur chainMap retList with
  | zero => simp [readChain, walk]
  | succ fuel ih =>
    by_cases hempty : chainMap.keys.card = 0
    · rw [readChain, if_pos hempty, walk, if_pos hempty]
      simp
    · have hblock : P.unmarshalBlock (chainMap.at (encodeToString cur) []) =
          P.visited (chainMap.lookup (encodeToString cur)) := rfl
      rw [readChain, if_neg hempty, walk_visited hnil hempty]
      dsimp only
      rw [hblock]
      split_ifs with hindex
      · rw [ih, List.length_set]
        constructor
        · rintro ⟨visits, hrest, hrange, hvalues⟩
          exact ⟨_, Option.map_eq_some_iff.mpr ⟨visits, hrest, rfl⟩,
            List.forall_mem_cons.mpr ⟨hindex, hrange⟩, hvalues⟩
        · rintro ⟨_, hwalk, hrange, hvalues⟩
          obtain ⟨visits, hrest, rfl⟩ := Option.map_eq_some_iff.mp hwalk
          exact ⟨visits, hrest, (List.forall_mem_cons.mp hrange).2, hvalues⟩
      · refine iff_of_false (fun hdone => by cases hdone) ?_
        rintro ⟨_, hwalk, hrange, _⟩
        obtain ⟨visits, _, rfl⟩ := Option.map_eq_some_iff.mp hwalk
        exact hindex (List.forall_mem_cons.mp hrange).1

/-- From the key of the last block on, every entry of the store is found under the hash that the
one before it names, or else under the empty hash, and every index is in range. -/
def Readable (P : ChainPrimitives) (s : Storage) : Prop :=
  ∀ last, s.blockchain.lookup lastBlockKey = some last →
    ∃ path, Lists (s.blockchain.erase lastBlockKey) path ∧
      Follows P.nextKey "" (encodeToString last) path ∧
        ∀ e ∈ path, (P.unmarshalBlock e.2).index < path.length

def HexKeys (data : GoMap String Bytes) : Prop := ∀ key ∈ data, ∃ hash, encodeToString hash = key

theorem notMem_of_hexKeys {data : GoMap String Bytes} (h : HexKeys data) :
    "LastBlockKey" ∉ data := by
  intro hmem
  obtain ⟨hash, hhash⟩ := h _ hmem
  have hdecode := congrArg decodeString hhash
  rw [decodeString_encode] at hdecode
  rw [hdecode] at hhash
  revert hhash
  decide

/-- What `GetBlockchain` goes through is the store without the key of its last block. -/
theorem getBlockchain_eq (fuel : ℕ) {s : Storage} (h : HexKeys s.blockchain) :
    P.getBlockchain fuel s =
      match s.blockchain.lookup lastBlockKey with
      | none => some (.done [])
      | some last => P.readChain fuel last (s.blockchain.erase lastBlockKey)
          (List.replicate (s.blockchain.erase lastBlockKey).keys.card .zero) := by
  have hnot := notMem_of_hexKeys h
  cases hlast : s.blockchain.lookup lastBlockKey with
  | none =>
    have hall : getAll s.blockchain = s.blockchain := by rw [getAll, hlast]
    rw [getBlockchain, hall, Finmap.lookup_eq_none.mpr hnot]
  | some last =>
    have hgone : "LastBlockKey" ∉ s.blockchain.erase lastBlockKey := fun hmem =>
      hnot (Finmap.mem_erase.mp hmem).2
    have hall : getAll s.blockchain =
        (s.blockchain.erase lastBlockKey).insert "LastBlockKey" last := by rw [getAll, hlast]
    have herase : ((s.blockchain.erase lastBlockKey).insert "LastBlockKey" last).erase
        "LastBlockKey" = s.blockchain.erase lastBlockKey := by
      refine Finmap.ext_lookup fun key => ?_
      by_cases hkey : key = "LastBlockKey"
      · rw [hkey, Finmap.lookup_erase, Finmap.lookup_eq_none.mpr hgone]
      · rw [Finmap.lookup_erase_ne hkey, Finmap.lookup_insert_of_ne _ hkey]
    have hcard : ((s.blockchain.erase lastBlockKey).insert "LastBlockKey" last).keys.card - 1 =
        (s.blockchain.erase lastBlockKey).keys.card := by
      conv_rhs => rw [← herase, Finmap.keys_erase]
      rw [Finset.card_erase_of_mem]
      rw [Finmap.mem_keys, Finmap.mem_insert]
      exact .inl rfl
    rw [getBlockchain, hall, Finmap.lookup_insert]
    dsimp only
    rw [herase, hcard]

/-- The call returns, and does not panic, exactly on a store that is readable. -/
theorem getBlockchain_returns_iff (hnil : P.unmarshalBlock [] = .zero) {s : Storage}
    (h : HexKeys s.blockchain) :
    (∃ fuel values, P.getBlockchain fuel s = some (.done values)) ↔ P.Readable s := by
  simp only [getBlockchain_eq _ h]
  cases hlast : s.blockchain.lookup lastBlockKey with
  | none =>
    refine iff_of_true ⟨0, [], rfl⟩ fun last hsome => ?_
    rw [hlast] at hsome
    cases hsome
  | some last =>
    simp only [readChain_eq_done hnil, List.length_replicate]
    constructor
    · rintro ⟨fuel, values, visits, hwalk, hrange, _⟩ last' hlast'
      obtain rfl := Option.some.inj (hlast'.symm.trans hlast)
      obtain ⟨path, hlists, hfollows, hvisits⟩ := lists_of_walk hwalk
      refine ⟨path, hlists, hfollows, fun e he => ?_⟩
      have hmem : e.2 ∈ visits.reduceOption := hvisits ▸ List.mem_map_of_mem he
      rw [← hlists.card_keys]
      exact hrange _ (List.reduceOption_mem_iff.mp hmem)
    · intro hreadable
      obtain ⟨path, hlists, hfollows, hrange⟩ := hreadable last hlast
      obtain ⟨fuel, visits, hwalk, hvisits⟩ := hfollows.walk hlists
      refine ⟨fuel, _, visits, hwalk, fun v hv => ?_, rfl⟩
      cases v with
      | some val =>
        have hmem : val ∈ path.map Prod.snd := hvisits ▸ List.reduceOption_mem_iff.mpr hv
        obtain ⟨e, he, rfl⟩ := List.mem_map.mp hmem
        rw [hlists.card_keys]
        exact hrange e he
      | none =>
        rw [visited, Option.getD_none, hnil]
        refine Nat.pos_of_ne_zero fun hempty => ?_
        rw [walk_of_empty hempty hwalk] at hv
        cases hv

end ChainPrimitives

namespace PaxosNode

section Stored

variable {P : PaxosPrimitives} {n₀ : PaxosNode}

theorem storageAfter_snoc (blocks : List BlockchainBlock) (b : BlockchainBlock) :
    (n₀.storageAfter P (blocks ++ [b])).blockchain =
      ((n₀.storageAfter P blocks).blockchain.insert (encodeToString b.hash)
        (P.marshalBlock b)).insert lastBlockKey b.hash := by
  rw [storageAfter, List.foldl_append, List.foldl_cons, List.foldl_nil, addBlock, storageAfter]

theorem lookup_lastBlockKey (h : n₀.storage.blockchain = ∅) (blocks : List BlockchainBlock) :
    (n₀.storageAfter P blocks).blockchain.lookup lastBlockKey = blocks.getLast?.map (·.hash) := by
  rcases List.eq_nil_or_concat blocks with rfl | ⟨blocks, b, rfl⟩
  · rw [storageAfter, List.foldl_nil, h]
    rfl
  · rw [List.concat_eq_append, storageAfter_snoc, Finmap.lookup_insert, List.getLast?_concat,
      Option.map_some]

theorem lookup_block (h : n₀.storage.blockchain = ∅) (blocks : List BlockchainBlock)
    {key : String} (hkey : key ≠ lastBlockKey) :
    (n₀.storageAfter P blocks).blockchain.lookup key =
      (blocks.filter (encodeToString ·.hash = key)).getLast?.map P.marshalBlock := by
  induction blocks using List.reverseRecOn with
  | nil =>
    rw [storageAfter, List.foldl_nil, h]
    rfl
  | append_singleton blocks b ih =>
    rw [storageAfter_snoc, Finmap.lookup_insert_of_ne _ hkey, List.filter_append]
    by_cases hb : encodeToString b.hash = key
    · rw [← hb, Finmap.lookup_insert]
      simp
    · rw [Finmap.lookup_insert_of_ne _ (Ne.symm hb), ih]
      simp [hb]

theorem hexKeys_storageAfter (h : n₀.storage.blockchain = ∅) (blocks : List BlockchainBlock) :
    ChainPrimitives.HexKeys (n₀.storageAfter P blocks).blockchain := by
  intro key hmem
  by_cases hkey : key = lastBlockKey
  · exact ⟨zeroHash, encodeToString_zeroHash.trans hkey.symm⟩
  · obtain ⟨v, hv⟩ := Option.isSome_iff_exists.mp (Finmap.lookup_isSome.mpr hmem)
    rw [lookup_block h blocks hkey] at hv
    obtain ⟨b, hb, _⟩ := Option.map_eq_some_iff.mp hv
    have hin := (List.mem_filter.mp (List.mem_of_getLast? hb)).2
    exact ⟨b.hash, of_decide_eq_true hin⟩

theorem card_stored_le (h : n₀.storage.blockchain = ∅) (blocks : List BlockchainBlock) :
    ((n₀.storageAfter P blocks).blockchain.erase lastBlockKey).keys.card ≤
      (blocks.filter (·.hash ≠ zeroHash)).length := by
  have hsub : ((n₀.storageAfter P blocks).blockchain.erase lastBlockKey).keys ⊆
      ((blocks.filter (·.hash ≠ zeroHash)).map (encodeToString ·.hash)).toFinset := by
    intro key hmem
    obtain ⟨hkey, hmem⟩ := Finmap.mem_erase.mp (Finmap.mem_keys.mp hmem)
    obtain ⟨v, hv⟩ := Option.isSome_iff_exists.mp (Finmap.lookup_isSome.mpr hmem)
    rw [lookup_block h blocks hkey] at hv
    obtain ⟨b, hb, _⟩ := Option.map_eq_some_iff.mp hv
    obtain ⟨hin, hhash⟩ := List.mem_filter.mp (List.mem_of_getLast? hb)
    have hhash := of_decide_eq_true hhash
    refine List.mem_toFinset.mpr (List.mem_map.mpr ⟨b, List.mem_filter.mpr ⟨hin, ?_⟩, hhash⟩)
    refine decide_eq_true fun hzero => hkey ?_
    rw [← hhash, hzero, encodeToString_zeroHash]
  have hcard := (Finset.card_le_card hsub).trans (List.toFinset_card_le _)
  rwa [List.length_map] at hcard

end Stored

/-- Blocks that are numbered from zero, each naming the hash of the one before it, and that are told
apart by their hashes. -/
structure WellLinked (blocks : List BlockchainBlock) : Prop where
  index : ∀ (i : ℕ) (b : BlockchainBlock), blocks[i]? = some b → b.index = i
  linked : blocks.IsChain fun b c => c.prevHash = b.hash
  nodup : (blocks.map (·.hash)).Nodup

section Linked

variable {P : ChainPrimitives} {n₀ : PaxosNode} {blocks : List BlockchainBlock}

/-- The blocks as they are stored, the last one first. -/
def pathOf (P : ChainPrimitives) (blocks : List BlockchainBlock) : List (String × Bytes) :=
  blocks.reverse.map fun b => (encodeToString b.hash, P.marshalBlock b)

theorem pathOf_concat (blocks : List BlockchainBlock) (b : BlockchainBlock) :
    pathOf P (blocks ++ [b]) = (encodeToString b.hash, P.marshalBlock b) :: pathOf P blocks := by
  rw [pathOf, List.reverse_append, List.reverse_singleton, List.singleton_append, List.map_cons,
    pathOf]

theorem WellLinked.lists (h : WellLinked blocks) (hzero : ∀ b ∈ blocks, b.hash ≠ zeroHash)
    (hinit : n₀.storage.blockchain = ∅) :
    Lists ((n₀.storageAfter P.toPaxosPrimitives blocks).blockchain.erase lastBlockKey)
      (pathOf P blocks) := by
  have hinj := List.inj_on_of_nodup_map h.nodup
  constructor
  · rw [pathOf, List.map_map, List.map_reverse, List.nodup_reverse,
      show (Prod.fst ∘ fun b : BlockchainBlock => (encodeToString b.hash, P.marshalBlock b)) =
        encodeToString ∘ (·.hash) from rfl, ← List.map_map]
    exact h.nodup.map encodeToString_injective
  · intro key v
    rw [pathOf, List.mem_map]
    by_cases hkey : key = lastBlockKey
    · rw [hkey, Finmap.lookup_erase]
      refine iff_of_false nofun ?_
      rintro ⟨b, hb, heq⟩
      have hhash := (Prod.mk.inj heq).1
      rw [← encodeToString_zeroHash] at hhash
      exact hzero b (List.mem_reverse.mp hb) (encodeToString_injective hhash)
    · rw [Finmap.lookup_erase_ne hkey, lookup_block hinit blocks hkey, Option.map_eq_some_iff]
      refine exists_congr fun b => ?_
      rw [List.mem_reverse, Prod.mk.injEq, ← and_assoc]
      refine and_congr_left fun _ => ?_
      constructor
      · intro hb
        obtain ⟨hin, hhash⟩ := List.mem_filter.mp (List.mem_of_getLast? hb)
        exact ⟨hin, of_decide_eq_true hhash⟩
      · rintro ⟨hin, hhash⟩
        have hmem : b ∈ blocks.filter (encodeToString ·.hash = key) :=
          List.mem_filter.mpr ⟨hin, decide_eq_true hhash⟩
        -- all blocks with this key are the same block
        have hc := List.getLast?_eq_some_getLast (List.ne_nil_of_mem hmem)
        obtain ⟨hcin, hchash⟩ := List.mem_filter.mp (List.mem_of_getLast? hc)
        have hkeys := (of_decide_eq_true hchash).trans hhash.symm
        rw [hc, hinj hcin hin (encodeToString_injective hkeys)]

theorem links_pathOf (hlinked : blocks.IsChain fun b c => c.prevHash = b.hash)
    (hround : ∀ b ∈ blocks, P.unmarshalBlock (P.marshalBlock b) = b) {last : Bytes}
    (hlast : ∀ b ∈ blocks.getLast?, b.hash = last) :
    Links P.nextKey (encodeToString last) (pathOf P blocks) := by
  induction blocks using List.reverseRecOn generalizing last with
  | nil => trivial
  | append_singleton blocks b ih =>
    obtain ⟨hblocks, _, hlink⟩ := List.isChain_append.mp hlinked
    rw [pathOf_concat]
    refine ⟨by rw [hlast b (by simp)], ?_⟩
    rw [ChainPrimitives.nextKey, hround b (by simp)]
    refine ih hblocks (fun c hc => hround c (List.mem_append_left _ hc)) fun c hc => ?_
    exact (hlink c hc b (by simp)).symm

/-- Written to their places from the last to the first, the values come out in the order of the
chain. -/
theorem foldl_enter_pathOf
    (hindex : ∀ (i : ℕ) (b : BlockchainBlock), blocks[i]? = some b → b.index = i)
    (hround : ∀ b ∈ blocks, P.unmarshalBlock (P.marshalBlock b) = b) {retList : List PaxosValue}
    (hlength : blocks.length ≤ retList.length) :
    ((pathOf P blocks).map fun e => some e.2).foldl P.enter retList =
      blocks.map (·.value) ++ retList.drop blocks.length := by
  induction blocks using List.reverseRecOn generalizing retList with
  | nil => rfl
  | append_singleton blocks b ih =>
    rw [List.length_append, List.length_singleton] at hlength ⊢
    have hb : b.index = blocks.length := hindex blocks.length b (by simp)
    have hvisited : P.visited (some (P.marshalBlock b)) = b := hround b (by simp)
    rw [pathOf_concat, List.map_cons, List.foldl_cons, ih]
    · have hroom : blocks.length < (retList.set blocks.length b.value).length := by
        rw [List.length_set]
        omega
      rw [ChainPrimitives.enter, hvisited, hb, List.drop_eq_getElem_cons hroom,
        List.getElem_set_self, List.drop_set_of_lt (Nat.lt_succ_self _), List.map_append,
        List.append_assoc]
      rfl
    · intro i c hc
      exact hindex i c (by rw [List.getElem?_append_left (List.getElem?_eq_some_iff.mp hc).1, hc])
    · exact fun c hc => hround c (List.mem_append_left _ hc)
    · rw [ChainPrimitives.length_enter]
      omega

/-- A chain that is well linked is read back in the order of its indices. -/
theorem WellLinked.getBlockchain (h : WellLinked blocks) (hzero : ∀ b ∈ blocks, b.hash ≠ zeroHash)
    (hnil : P.unmarshalBlock [] = .zero)
    (hround : ∀ b ∈ blocks, P.unmarshalBlock (P.marshalBlock b) = b)
    (hinit : n₀.storage.blockchain = ∅) :
    ∃ fuel, P.getBlockchain fuel (n₀.storageAfter P.toPaxosPrimitives blocks) =
      some (.done (blocks.map (·.value))) := by
  simp only [ChainPrimitives.getBlockchain_eq _ (hexKeys_storageAfter hinit blocks),
    lookup_lastBlockKey hinit]
  cases hlast : blocks.getLast? with
  | none =>
    rw [List.getLast?_eq_none_iff.mp hlast]
    exact ⟨0, rfl⟩
  | some b =>
    have hlists := h.lists (P := P) hzero hinit
    have hlinks : Links P.nextKey (encodeToString b.hash) (pathOf P blocks) := by
      refine links_pathOf h.linked hround fun c hc => ?_
      rw [hlast] at hc
      rw [Option.mem_some_iff.mp hc]
    have hcard := hlists.card_keys
    rw [pathOf, List.length_map, List.length_reverse] at hcard
    rw [hcard]
    refine ⟨_, (ChainPrimitives.readChain_eq_done hnil).mpr ⟨_, hlinks.walk hlists, ?_, ?_⟩⟩
    · intro v hv
      obtain ⟨e, he, rfl⟩ := List.mem_map.mp hv
      obtain ⟨c, hc, rfl⟩ := List.mem_map.mp he
      have hc := List.mem_reverse.mp hc
      have hvisited : P.visited (some (P.marshalBlock c)) = c := hround c hc
      obtain ⟨i, hi⟩ := List.mem_iff_getElem?.mp hc
      rw [hvisited, h.index i c hi, List.length_replicate]
      exact (List.getElem?_eq_some_iff.mp hi).1
    · rw [foldl_enter_pathOf h.index hround (List.length_replicate ..).ge, List.drop_replicate,
        Nat.sub_self, List.replicate_zero, List.append_nil]

/-- Where a block has the zero hash its entry is lost to the key of the last block, and the call
cannot return as many values. -/
theorem length_of_getBlockchain (hnil : P.unmarshalBlock [] = .zero)
    (hinit : n₀.storage.blockchain = ∅) {fuel : ℕ} {values : List PaxosValue}
    (h : P.getBlockchain fuel (n₀.storageAfter P.toPaxosPrimitives blocks) = some (.done values)) :
    values.length ≤ (blocks.filter (·.hash ≠ zeroHash)).length := by
  rw [ChainPrimitives.getBlockchain_eq _ (hexKeys_storageAfter hinit blocks)] at h
  split at h
  · cases h
    exact Nat.zero_le _
  · obtain ⟨visits, _, _, rfl⟩ := (ChainPrimitives.readChain_eq_done hnil).mp h
    rw [ChainPrimitives.length_foldl_enter, List.length_replicate]
    exact card_stored_le hinit blocks

end Linked

section Runs

variable {P : PaxosPrimitives} {n₀ n : PaxosNode} {tlcs : List TLCMessage}
  {blocks : List BlockchainBlock}

theorem Returns.appended {n m : PaxosNode} {step : ℕ} {catchUp : Bool}
    (h : Returns P n step catchUp m blocks) :
    m.paxos.tlcs = n.paxos.tlcs ∧
      ∀ b ∈ blocks, ∃ step, ∃ tlc ∈ n.paxos.tlcs.at step [], tlc.block = b := by
  induction h with
  | stop => exact ⟨rfl, by simp⟩
  | @next n m r step catchUp s sent block blocks found advance _ ih =>
    have htlcs := (tlcAdvance_caughtUp P advance).1.tlcs
    obtain ⟨hlast, hrest⟩ := ih
    rw [htlcs] at hlast hrest
    obtain ⟨_, hmem, _⟩ := SafePaxos.getBlockAndAdvance_eq_some found
    exact ⟨hlast, List.forall_mem_cons.mpr ⟨⟨step, hmem⟩, hrest⟩⟩

theorem Returns.storage {n m : PaxosNode} {step : ℕ} {catchUp : Bool}
    {prior : List BlockchainBlock} (h : Returns P n step catchUp m blocks)
    (hn : n.storage = n₀.storageAfter P prior) : m.storage = n₀.storageAfter P (prior ++ blocks) := by
  induction h generalizing prior with
  | stop => rwa [List.append_nil]
  | @next n m r step catchUp s sent block blocks found advance _ ih =>
    obtain ⟨block', s', hfound, hstorage, _⟩ := tlcAdvance_cases P advance
    obtain ⟨rfl, _⟩ := Prod.mk.inj (Option.some.inj (found.symm.trans hfound))
    have hlast := ih (hstorage.trans (storageAfter_concat P hn block))
    rwa [List.append_assoc, List.singleton_append] at hlast

/-- Whatever the threshold is, the blocks that are appended come from the messages, and the stores
are what these blocks make of them. -/
theorem Handles.appended (h : Handles P n₀ tlcs n blocks) (hinit : n₀.paxos = newSafePaxos) :
    (∀ step, ∀ tlc ∈ n.paxos.tlcs.at step [], tlc ∈ tlcs) ∧
      (∀ b ∈ blocks, ∃ tlc ∈ tlcs, tlc.block = b) ∧ n.storage = n₀.storageAfter P blocks := by
  induction h with
  | nil =>
    refine ⟨fun step tlc htlc => ?_, by simp, rfl⟩
    rw [hinit] at htlc
    cases htlc
  | @snoc tlcs m r tlc blocks blocks' _ call ih =>
    obtain ⟨hreceived, hblocks, hstorage⟩ := ih
    have hfiled : ∀ step, ∀ t ∈ (m.paxos.receiveTLC tlc m.threshold).tlcs.at step [],
        t ∈ tlcs ++ [tlc] := by
      intro step t ht
      obtain ⟨filed, consensus, heq, hcases⟩ := m.paxos.receiveTLC_cases tlc m.threshold
      rw [heq] at ht
      have hold : ∀ step, ∀ t ∈ m.paxos.tlcs.at step [], t ∈ tlcs ++ [tlc] := fun step t ht =>
        List.mem_append_left _ (hreceived step t ht)
      rcases hcases with rfl | rfl
      · exact hold step t ht
      · by_cases hstep : step = tlc.step
        · subst hstep
          dsimp only at ht
          rw [GoMap.at_insert_self, List.mem_append] at ht
          exact ht.elim (hold _ t) fun hlast => List.mem_append_right _ hlast
        · dsimp only at ht
          rw [GoMap.at_insert_of_ne hstep] at ht
          exact hold step t ht
    obtain ⟨htlcs, hnew⟩ := call.appended
    refine ⟨by rwa [htlcs], fun b hb => ?_, call.storage hstorage⟩
    rcases List.mem_append.mp hb with hb | hb
    · obtain ⟨t, ht, rfl⟩ := hblocks b hb
      exact ⟨t, List.mem_append_left _ ht, rfl⟩
    · obtain ⟨step, t, ht, rfl⟩ := hnew b hb
      exact ⟨t, hfiled step t ht, rfl⟩

end Runs

/-- The blockchain is read back to the end exactly if all of the store can be gone through from its
last block on. Blocks that are well linked come out in order, unless one of them has the zero
hash. -/
theorem getBlockchain_iff (P : ChainPrimitives) (hnil : P.unmarshalBlock [] = .zero)
    (conf : PaxosConfig) (tlcs : List TLCMessage)
    (hround : ∀ tlc ∈ tlcs, P.unmarshalBlock (P.marshalBlock tlc.block) = tlc.block) :
    let n₀ := (newPaxosPeer conf).node
    let n := tlcs.foldl (fun n tlc => (n.execTLCMessage P.toPaxosPrimitives tlc).1) n₀
    ∃ blocks, Handles P.toPaxosPrimitives n₀ tlcs n blocks ∧
      ((∃ fuel values, P.getBlockchain fuel n.storage = some (.done values)) ∧
          (WellLinked blocks → ∃ fuel,
            P.getBlockchain fuel n.storage = some (.done (blocks.map (·.value)))) ↔
        P.Readable n.storage ∧ (WellLinked blocks → ∀ b ∈ blocks, b.hash ≠ zeroHash)) := by
  intro n₀ n
  have hinit : n₀.storage.blockchain = ∅ := rfl
  obtain ⟨blocks, hhandles⟩ := handles_execTLCMessage P.toPaxosPrimitives n₀ tlcs
  obtain ⟨_, hreceived, hstorage⟩ := hhandles.appended rfl
  have hblocks : ∀ b ∈ blocks, P.unmarshalBlock (P.marshalBlock b) = b := by
    intro b hb
    obtain ⟨tlc, htlc, rfl⟩ := hreceived b hb
    exact hround tlc htlc
  refine ⟨blocks, hhandles, ?_⟩
  change n.storage = _ at hstorage
  rw [hstorage, ChainPrimitives.getBlockchain_returns_iff hnil (hexKeys_storageAfter hinit blocks)]
  refine and_congr_right fun _ => forall_congr' fun hlinked => ?_
  constructor
  · rintro ⟨fuel, hvalues⟩ b hb hzero
    have hlength := length_of_getBlockchain hnil hinit hvalues
    have hless : (blocks.filter (·.hash ≠ zeroHash)).length < blocks.length :=
      List.length_filter_lt_length_iff_exists.mpr ⟨b, hb, by simpa using hzero⟩
    rw [List.length_map] at hlength
    omega
  · exact fun hzero => hlinked.getBlockchain hzero hnil hblocks hinit

end PaxosNode

namespace PaxosSample

open Sample (readField readText)

def unmarshalBlock (bs : Bytes) : BlockchainBlock :=
  let (index, bs) := readField bs
  let (hash, bs) := readField bs
  let (uniqID, bs) := readText bs
  let (filename, bs) := readText bs
  let (metahash, bs) := readText bs
  let (prevHash, _) := readField bs
  ⟨index.length, hash, ⟨uniqID, filename, metahash⟩, prevHash⟩

def chainPrimitives : ChainPrimitives where
  toPaxosPrimitives := primitives
  unmarshalBlock := unmarshalBlock

theorem unmarshalBlock_marshalBlock (b : BlockchainBlock) :
    unmarshalBlock (primitives.marshalBlock b) = b := by
  have hlast := Sample.readField_field b.prevHash []
  rw [List.append_nil] at hlast
  simp [unmarshalBlock, primitives, hlast]

def seventh : BlockchainBlock := ⟨7, [1], ⟨"x", "f", "m"⟩, zeroHash⟩

def outOfRange : List TLCMessage := [⟨0, seventh⟩, ⟨0, seventh⟩]

/-- With that block as the only one, the call does not return however long it goes on. -/
theorem getBlockchain_counterexample :
    ¬ ∃ fuel values, chainPrimitives.getBlockchain fuel
      (outOfRange.foldl (fun n tlc => (n.execTLCMessage primitives tlc).1)
        (newPaxosPeer (conf "A" 1)).node).storage = some (.done values) := by
  intro hreturns
  obtain ⟨blocks, hhandles⟩ :=
    PaxosNode.handles_execTLCMessage primitives (newPaxosPeer (conf "A" 1)).node outOfRange
  have hkeys : ChainPrimitives.HexKeys
      ((newPaxosPeer (conf "A" 1)).node.storageAfter primitives blocks).blockchain :=
    PaxosNode.hexKeys_storageAfter rfl blocks
  rw [← (hhandles.appended rfl).2.2] at hkeys
  have hreadable := (ChainPrimitives.getBlockchain_returns_iff rfl hkeys).mp hreturns
  obtain ⟨path, hlists, _, hrange⟩ := hreadable [1] (by decide)
  have hentry : ("01", primitives.marshalBlock seventh) ∈ path :=
    (hlists.mem _ _).mp (by decide)
  have hindex := hrange _ hentry
  rw [← hlists.card_keys] at hindex
  revert hindex
  decide

def wellLinked : List TLCMessage :=
  let first : BlockchainBlock := ⟨0, [1], ⟨"x", "f", "m"⟩, zeroHash⟩
  let second : BlockchainBlock := ⟨1, [2], ⟨"y", "g", "n"⟩, [1]⟩
  [⟨0, first⟩, ⟨1, second⟩, ⟨1, second⟩, ⟨0, first⟩]

theorem getBlockchain_iff_wellLinked :
    let n₀ := (newPaxosPeer (conf "A" 1)).node
    let n := wellLinked.foldl (fun n tlc => (n.execTLCMessage primitives tlc).1) n₀
    ∃ blocks, PaxosNode.Handles primitives n₀ wellLinked n blocks ∧
      ((∃ fuel values, chainPrimitives.getBlockchain fuel n.storage = some (.done values)) ∧
          (PaxosNode.WellLinked blocks → ∃ fuel,
            chainPrimitives.getBlockchain fuel n.storage = some (.done (blocks.map (·.value)))) ↔
        chainPrimitives.Readable n.storage ∧
          (PaxosNode.WellLinked blocks → ∀ b ∈ blocks, b.hash ≠ zeroHash)) :=
  PaxosNode.getBlockchain_iff chainPrimitives (by decide) (conf "A" 1) wellLinked
    fun tlc _ => unmarshalBlock_marshalBlock tlc.block

example : chainPrimitives.getBlockchain 3
    (wellLinked.foldl (fun n tlc => (n.execTLCMessage primitives tlc).1)
      (newPaxosPeer (conf "A" 1)).node).storage =
        some (.done [⟨"x", "f", "m"⟩, ⟨"y", "g", "n"⟩]) := by
  decide

end PaxosSample

end JobPortal
