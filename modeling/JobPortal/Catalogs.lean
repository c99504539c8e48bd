import JobPortal.RouteLearning
import JobPortal.Uploads
import Mathlib.Data.List.ReduceOption

/-! Who has which blob. A catalog is filled from the replies to searches, and who is named in it has
the blob and a way back to who asks for it. -/
namespace JobPortal.Sharing

open Gossip Hex LastWrites Queues Runs Transport

variable {M : Type}

def Silent : Parcel M → Prop
  | .rumors _ | .status _ | .other _ => True
  | _ => False

def Searches (requestID pattern : String) (l : Letter M) : Prop :=
  ∃ msg, l.parcel = .searchRequest msg ∧ msg.requestID = requestID ∧ msg.pattern = pattern

structure KeepsFiles (n m : SharingNode M) : Prop where
  naming : m.naming = n.naming
  blob : m.blob = n.blob
  catalog : m.catalog = n.catalog

theorem KeepsFiles.rfl {n : SharingNode M} : KeepsFiles n n := ⟨Eq.refl _, Eq.refl _, Eq.refl _⟩

theorem upload_writes {P : Primitives} {chunkSize : ℕ} {data key : Bytes}
    {store store' : BlobStore} (h : upload P chunkSize data store = some (store', key)) :
    store' = writeAll store (uploadWrites P (chunks chunkSize data)) ∧
      (1 ≤ chunkSize ∨ data = []) := by
  by_cases hsize : 1 ≤ chunkSize
  · rw [upload_eq hsize] at h
    exact ⟨(Prod.mk.inj (Option.some.inj h)).1.symm, .inl hsize⟩
  · obtain rfl : chunkSize = 0 := by omega
    unfold upload at h
    split_ifs at h with hnone
    have hempty : data = [] := by
      by_contra hne
      exact hnone ⟨Eq.refl 0, hne⟩
    subst hempty
    exact ⟨(Prod.mk.inj (Option.some.inj h)).1.symm, .inr (Eq.refl _)⟩

namespace SharingNode

variable (env : SharingEnv M) (n : SharingNode M)

/-- What a node does on its own about files. -/
inductive ActEffect : SharingAct M → SharingNode M × List (Letter M) → Prop
  | quiet {a : SharingAct M} {m : SharingNode M} {letters : List (Letter M)}
      (keeps : KeepsFiles n m) (silent : ∀ l ∈ letters, Silent l.parcel) : ActEffect a (m, letters)
  | sendChunk {peer : String} {msg : EncryptedChunkMessage} :
      ActEffect (.sendChunk peer msg) (n, [direct peer (.encryptedChunk msg)])
  | upload {chunkSize : ℕ} {data : Bytes} (size : 1 ≤ chunkSize ∨ data = []) :
      ActEffect (.upload chunkSize data) ({ n with
        blob := writeAll n.blob (uploadWrites env.primitives (chunks chunkSize data)) }, [])
  | tag {name : String} {metahash : Bytes} :
      ActEffect (.tag name metahash) (n.setName name metahash, [])
  | updateCatalog {key : Bytes} {peer : String} :
      ActEffect (.updateCatalog key peer) (n.updateCatalog key peer, [])
  | searchFile {requestID pattern : String} {budget : UInt64} {shuffled : List String}
      {letters : List (Letter M)} (searches : ∀ l ∈ letters, Searches requestID pattern l) :
      ActEffect (.searchFile requestID pattern budget shuffled) (n, letters)
  | request {requestID dst : String} {key : Bytes} (mem : dst ∈ n.catalog.at key ∅) :
      ActEffect (.request requestID key dst) (n, n.byRoute dst (.dataRequest ⟨requestID, key⟩))
  | reSendDataRequest {dst : String} :
      ActEffect (.reSendDataRequest dst) (n, n.byRoute dst (.dataRequest ⟨"", []⟩))

/-- What the handlers of packets do about files. -/
inductive HandlerEffect (hdr : Transport.Header) (order : List String) :
    Parcel M → SharingNode M × List (Letter M) → Prop
  | quiet {parcel : Parcel M} {m : SharingNode M} {letters : List (Letter M)}
      (keeps : KeepsFiles n m) (silent : ∀ l ∈ letters, Silent l.parcel) :
      HandlerEffect hdr order parcel (m, letters)
  | searchRequest {msg : SearchRequestMessage} {m : SharingNode M} {letters : List (Letter M)}
      (keeps : KeepsFiles n m) (knows : hdr.relayedBy ≠ "" → msg.origin ∈ m.routingTable)
      (searches : ∀ l ∈ letters, Searches msg.requestID msg.pattern l) :
      HandlerEffect hdr order (.searchRequest msg) (m, letters ++
        (m.searchReply env.compile msg order).toList.map fun reply =>
          ⟨msg.origin, hdr.relayedBy, .searchReply reply⟩)
  | searchReply {msg : SearchReplyMessage} :
      HandlerEffect hdr order (.searchReply msg) (n.execSearchReplyMessage hdr.source msg, [])
  | dataRequest {msg : DataRequestMessage} :
      HandlerEffect hdr order (.dataRequest msg) (n, n.byRoute hdr.source
        (.dataReply ⟨msg.requestID, msg.key, n.blob.get msg.key⟩))
  | dataReply {msg : DataReplyMessage} :
      HandlerEffect hdr order (.dataReply msg) (n.setBlob msg.key msg.value, [])
  | encryptedChunk {msg : EncryptedChunkMessage} :
      HandlerEffect hdr order (.encryptedChunk msg) (n.setBlob msg.chunkKey msg.chunk, [])

variable {env n} {result : SharingNode M × List (Letter M)}

theorem searches_of_searchFile {s : SearchNode} {msg : SearchRequestMessage} {prev : String}
    {shuffled : List String} {packets : List SearchPacket}
    (h : s.searchFile msg prev shuffled = some packets) :
    ∀ l ∈ packets.map (fun p => direct (M := M) p.destination (.searchRequest p.msg)),
      Searches msg.requestID msg.pattern l := by
  intro l hl
  obtain ⟨p, hp, rfl⟩ := List.mem_map.mp hl
  unfold SearchNode.searchFile at h
  split_ifs at h
  obtain rfl := Option.some.inj h
  obtain ⟨_, _, rfl⟩ := List.mem_map.mp hp
  exact ⟨_, rfl, rfl, rfl⟩

theorem setRoutingEntry_files (s : SearchNode) (origin relayAddr : String) :
    (s.setRoutingEntry origin relayAddr).naming = s.naming ∧
      (s.setRoutingEntry origin relayAddr).blob = s.blob := by
  unfold SearchNode.setRoutingEntry
  split_ifs
  · exact ⟨rfl, rfl⟩
  · exact ⟨rfl, rfl⟩

theorem act_effect {a : SharingAct M} (h : n.act env a = some result) :
    ActEffect env n a result := by
  cases a with
  | addPeer | returned =>
    obtain rfl := Option.some.inj h
    exact .quiet ⟨rfl, rfl, rfl⟩ nofun
  | setRoutingEntry origin relayAddr =>
    obtain rfl := Option.some.inj h
    obtain ⟨hnaming, hblob⟩ := setRoutingEntry_files n.toSearchNode origin relayAddr
    exact .quiet ⟨hnaming, hblob, rfl⟩ nofun
  | broadcast msg peers =>
    obtain rfl := Option.some.inj h
    refine .quiet ⟨rfl, rfl, rfl⟩ fun l hl => ?_
    obtain ⟨_, _, rfl⟩ := List.mem_map.mp hl
    trivial
  | resend origin i peer =>
    obtain ⟨r, _, rfl⟩ := Option.map_eq_some_iff.mp h
    refine .quiet ⟨rfl, rfl, rfl⟩ fun l hl => ?_
    obtain rfl := List.mem_singleton.mp hl
    trivial
  | graft source seq dest =>
    obtain ⟨rumors, _, rfl⟩ := Option.map_eq_some_iff.mp h
    refine .quiet ⟨rfl, rfl, rfl⟩ fun l hl => ?_
    obtain rfl := List.mem_singleton.mp hl
    trivial
  | antiEntropy neighbor =>
    obtain rfl := Option.some.inj h
    refine .quiet ⟨rfl, rfl, rfl⟩ fun l hl => ?_
    obtain rfl := List.mem_singleton.mp hl
    trivial
  | unicast dest m =>
    obtain rfl := Option.some.inj h
    refine .quiet ⟨rfl, rfl, rfl⟩ fun l hl => ?_
    obtain ⟨_, _, rfl⟩ := Option.map_eq_some_iff.mp (Option.mem_toList.mp hl)
    trivial
  | sendChunk peer msg =>
    obtain rfl := Option.some.inj h
    exact .sendChunk
  | upload chunkSize data =>
    obtain ⟨⟨store, key⟩, hstore, rfl⟩ := Option.map_eq_some_iff.mp h
    obtain ⟨rfl, hsize⟩ := upload_writes hstore
    exact .upload hsize
  | tag name metahash =>
    obtain rfl := Option.some.inj h
    exact .tag
  | updateCatalog key peer =>
    obtain rfl := Option.some.inj h
    exact .updateCatalog
  | searchFile requestID pattern budget shuffled =>
    obtain ⟨packets, hpackets, rfl⟩ := Option.map_eq_some_iff.mp h
    exact .searchFile (searches_of_searchFile hpackets)
  | request requestID key dst =>
    simp only [act] at h
    split_ifs at h with hmem
    obtain rfl := Option.some.inj h
    exact .request hmem
  | reSendDataRequest dst =>
    obtain rfl := Option.some.inj h
    exact .reSendDataRequest
  | arrive i choice => cases h
  | accept peers =>
    have h : n.accept peers = some result := h
    unfold accept at h
    split at h
    · cases h
    rename_i r rest _
    have hkeeps : KeepsFiles n (n.setRoute r.origin n.relayedBy) := by
      unfold setRoute
      split_ifs
      · exact .rfl
      · exact ⟨rfl, rfl, rfl⟩
    have hpush : ∀ l ∈ peers.map fun peer => direct peer (.rumors [r]), Silent l.parcel := by
      intro l hl
      obtain ⟨_, _, rfl⟩ := List.mem_map.mp hl
      trivial
    generalize n.rumorTable.tryToAcceptOrigin r = answer at h
    obtain ⟨t, v⟩ := answer
    have hquiet : ∀ letters : List (Letter M), (∀ l ∈ letters, Silent l.parcel) →
        ActEffect env n (.accept peers) ({ n.setRoute r.origin n.relayedBy with
          rumorTable := t, handling := rest }, letters) := fun letters hsilent =>
      .quiet ⟨hkeeps.naming, hkeeps.blob, hkeeps.catalog⟩ hsilent
    cases v with
    | future =>
      obtain rfl := Option.some.inj h
      exact hquiet [] nofun
    | process | prune =>
      obtain rfl := Option.some.inj h
      exact hquiet _ hpush

theorem process_effect {hdr : Transport.Header} {choice : Choice} {parcel : Parcel M}
    (h : n.process env hdr choice parcel = some result) :
    HandlerEffect env n hdr choice.order parcel result := by
  cases parcel with
  | rumors rumors =>
    obtain rfl := Option.some.inj h
    exact .quiet ⟨rfl, rfl, rfl⟩ (List.forall_mem_nil _)
  | status status =>
    obtain ⟨replies, _, rfl⟩ := Option.map_eq_some_iff.mp h
    refine .quiet .rfl fun l hl => ?_
    obtain ⟨reply, _, hl⟩ := List.mem_flatMap.mp hl
    cases reply with
    | rumors | status =>
      obtain rfl := List.mem_singleton.mp hl
      trivial
    | mongering =>
      obtain ⟨_, _, rfl⟩ := List.mem_map.mp hl
      trivial
  | searchRequest msg =>
    obtain ⟨⟨s, packets⟩, hs, rfl⟩ := Option.map_eq_some_iff.mp h
    have hsame : (s.naming = n.naming ∧ s.blob = n.blob ∧
          (hdr.relayedBy ≠ "" → msg.origin ∈ s.routingTable)) ∧
        ∀ l ∈ packets.map (fun p => direct (M := M) p.destination (.searchRequest p.msg)),
          Searches msg.requestID msg.pattern l := by
      have hroute : ∀ t : SearchNode, t = (if msg.origin ∈ n.routingTable then n.toSearchNode
            else n.toSearchNode.setRoutingEntry msg.origin hdr.relayedBy) →
          t.naming = n.naming ∧ t.blob = n.blob ∧
            (hdr.relayedBy ≠ "" → msg.origin ∈ t.routingTable) := by
        rintro t rfl
        split_ifs with hin
        · exact ⟨rfl, rfl, fun _ => hin⟩
        · obtain ⟨hnaming, hblob⟩ :=
            setRoutingEntry_files n.toSearchNode msg.origin hdr.relayedBy
          refine ⟨hnaming, hblob, fun hrelayed => ?_⟩
          rw [SearchNode.setRoutingEntry, if_neg hrelayed]
          exact Finmap.mem_insert.mpr (.inl rfl)
      unfold SearchNode.execSearchRequestMessage at hs
      dsimp only at hs
      by_cases hbudget : 0 < msg.budget - 1
      · rw [if_pos hbudget] at hs
        obtain ⟨ps, hps, heq⟩ := Option.map_eq_some_iff.mp hs
        obtain ⟨rfl, rfl⟩ := Prod.mk.inj heq
        exact ⟨hroute _ rfl, fun l hl => searches_of_searchFile hps l hl⟩
      · rw [if_neg hbudget] at hs
        obtain ⟨rfl, rfl⟩ := Prod.mk.inj (Option.some.inj hs)
        exact ⟨hroute _ rfl, List.forall_mem_nil _⟩
    obtain ⟨⟨hnaming, hblob, hknows⟩, hsearches⟩ := hsame
    exact .searchRequest ⟨hnaming, hblob, rfl⟩ hknows hsearches
  | searchReply msg =>
    obtain rfl := Option.some.inj h
    exact .searchReply
  | dataRequest msg =>
    obtain rfl := Option.some.inj h
    exact .dataRequest
  | dataReply msg =>
    obtain rfl := Option.some.inj h
    exact .dataReply
  | encryptedChunk msg =>
    obtain rfl := Option.some.inj h
    exact .encryptedChunk
  | other m =>
    obtain rfl := Option.some.inj h
    exact .quiet ⟨rfl, rfl, rfl⟩ (List.forall_mem_nil _)

end SharingNode

def FileInfo.keys (info : FileInfo) : List Bytes := info.metahash :: info.chunks.reduceOption

/-- A reply names what is tagged, matches and is there. -/
theorem mem_searchReply {s : SearchNode} {compile : String → Option (String → Bool)}
    {msg : SearchRequestMessage} {order : List String} {reply : SearchReplyMessage}
    (h : s.searchReply compile msg order = some reply) {info : FileInfo}
    (hinfo : info ∈ reply.responses) :
    s.naming.lookup info.name = some info.metahash ∧
      (∃ reg, compile msg.pattern = some reg ∧ reg info.name = true) ∧
      ∀ key ∈ info.keys, s.blob.get key ≠ none := by
  obtain ⟨reg, hreg, rfl⟩ := Option.map_eq_some_iff.mp h
  obtain ⟨name, hname, hfile⟩ := List.mem_filterMap.mp hinfo
  obtain ⟨metahash, hmeta, hfile⟩ := Option.bind_eq_some_iff.mp hfile
  obtain ⟨chunks, hchunks, rfl⟩ := Option.map_eq_some_iff.mp hfile
  obtain ⟨fileChunks, hblob, rfl⟩ := Option.map_eq_some_iff.mp hchunks
  refine ⟨hmeta, ⟨reg, hreg, (List.mem_filter.mp hname).2⟩, fun key hkey => ?_⟩
  rcases List.mem_cons.mp hkey with rfl | hkey
  · rw [hblob]
    exact Option.some_ne_none _
  · obtain ⟨chunkKey, _, hpresent⟩ := List.mem_map.mp (List.reduceOption_mem_iff.mp hkey)
    obtain ⟨value, hvalue, rfl⟩ := Option.map_eq_some_iff.mp hpresent
    rw [hvalue]
    exact Option.some_ne_none _

section Learn

variable {source : String} {n : SharingNode M}

theorem mem_updateCatalog {key k : Bytes} {p q : String} :
    p ∈ (n.updateCatalog k q).catalog.at key ∅ ↔
      key = k ∧ p = q ∨ p ∈ n.catalog.at key ∅ := by
  unfold SharingNode.updateCatalog
  dsimp only
  rw [GoMap.at_insert]
  split_ifs with hkey
  · subst hkey
    rw [Finset.mem_insert]
    simp
  · simp [hkey]

theorem learn_files (info : FileInfo) :
    (SharingNode.learn source n info).blob = n.blob ∧
      (SharingNode.learn source n info).naming = n.naming.insert info.name info.metahash ∧
      ∀ key, ∀ p ∈ (SharingNode.learn source n info).catalog.at key ∅,
        p = source ∧ key ∈ info.keys ∨ p ∈ n.catalog.at key ∅ := by
  have hkeys : ∀ (keys : List Bytes) (m : SharingNode M),
      (keys.foldl (fun n chunk => n.updateCatalog chunk source) m).blob = m.blob ∧
        (keys.foldl (fun n chunk => n.updateCatalog chunk source) m).naming = m.naming ∧
        ∀ key, ∀ p ∈ (keys.foldl (fun n chunk => n.updateCatalog chunk source) m).catalog.at key ∅,
          p = source ∧ key ∈ keys ∨ p ∈ m.catalog.at key ∅ := by
    intro keys
    induction keys with
    | nil => exact fun m => ⟨rfl, rfl, fun _ _ hp => .inr hp⟩
    | cons k keys ih =>
      intro m
      obtain ⟨hblob, hnaming, hcatalog⟩ := ih (m.updateCatalog k source)
      refine ⟨hblob, hnaming, fun key p hp => ?_⟩
      rcases hcatalog key p hp with ⟨rfl, hkey⟩ | hold
      · exact .inl ⟨rfl, List.mem_cons_of_mem _ hkey⟩
      · exact (mem_updateCatalog.mp hold).imp_left fun ⟨hkey, hp⟩ =>
          ⟨hp, hkey ▸ List.mem_cons_self⟩
  obtain ⟨hblob, hnaming, hcatalog⟩ := hkeys info.chunks.reduceOption
    ((n.setName info.name info.metahash).updateCatalog info.metahash source)
  refine ⟨hblob, hnaming, fun key p hp => ?_⟩
  rcases hcatalog key p hp with ⟨hp, hkey⟩ | hold
  · exact .inl ⟨hp, List.mem_cons_of_mem _ hkey⟩
  · exact (mem_updateCatalog.mp hold).imp_left fun ⟨hkey, hp⟩ => ⟨hp, hkey ▸ List.mem_cons_self⟩

theorem execSearchReplyMessage_files (msg : SearchReplyMessage) :
    (n.execSearchReplyMessage source msg).blob = n.blob ∧
      (∀ name metahash,
        (n.execSearchReplyMessage source msg).naming.lookup name = some metahash →
        (∃ info ∈ msg.responses, info.name = name ∧ info.metahash = metahash) ∨
          n.naming.lookup name = some metahash) ∧
      ∀ key, ∀ p ∈ (n.execSearchReplyMessage source msg).catalog.at key ∅,
        (p = source ∧ ∃ info ∈ msg.responses, key ∈ info.keys) ∨ p ∈ n.catalog.at key ∅ := by
  unfold SharingNode.execSearchReplyMessage
  generalize msg.responses = infos
  induction infos generalizing n with
  | nil => exact ⟨rfl, fun _ _ h => .inr h, fun _ _ hp => .inr hp⟩
  | cons info infos ih =>
    obtain ⟨hblob, hnaming, hcatalog⟩ := ih (n := SharingNode.learn source n info)
    obtain ⟨hblob', hnaming', hcatalog'⟩ := @learn_files M source n info
    refine ⟨hblob.trans hblob', fun name metahash h => ?_, fun key p hp => ?_⟩
    · rcases hnaming name metahash h with ⟨other, hmem, heq⟩ | hold
      · exact .inl ⟨other, List.mem_cons_of_mem _ hmem, heq⟩
      · rw [hnaming'] at hold
        by_cases hname : name = info.name
        · subst hname
          rw [Finmap.lookup_insert] at hold
          exact .inl ⟨info, List.mem_cons_self, rfl, Option.some.inj hold⟩
        · rw [Finmap.lookup_insert_of_ne _ hname] at hold
          exact .inr hold
    · rcases hcatalog key p hp with ⟨hp, other, hmem, hkey⟩ | hold
      · exact .inl ⟨hp, other, List.mem_cons_of_mem _ hmem, hkey⟩
      · exact (hcatalog' key p hold).imp_left fun ⟨hp, hkey⟩ =>
          ⟨hp, info, List.mem_cons_self, hkey⟩

end Learn

section Writes

variable {store : BlobStore} {key : Bytes}

theorem held_writeAll {ws : List (Bytes × Option Bytes)} (hws : ∀ w ∈ ws, w.2 ≠ none)
    (h : store.get key ≠ none) : BlobStore.get (writeAll store ws) key ≠ none := by
  unfold BlobStore.get GoMap.at
  rw [lookup_writeAll]
  cases hlast : lastTo key ws with
  | none => exact h
  | some value => exact hws _ (mem_of_lastTo hlast)

theorem held_set {key' : Bytes} {value : Option Bytes} (hvalue : key = key' → value ≠ none)
    (h : store.get key ≠ none) : (store.set key' value).get key ≠ none := by
  rw [BlobStore.get_set]
  split_ifs with hkey
  · exact hvalue hkey
  · exact h

/-- Only for an empty file Upload writes nil. -/
theorem uploadWrites_isSome {P : Primitives} {chunkSize : ℕ} {data : Bytes} (hdata : data ≠ [])
    (hsize : 1 ≤ chunkSize ∨ data = []) :
    ∀ w ∈ uploadWrites P (chunks chunkSize data), w.2 ≠ none := by
  have hne : chunks chunkSize data ≠ [] := fun hnil =>
    hdata ((chunks_eq_nil_iff (hsize.resolve_right hdata)).mp hnil)
  intro w hw
  rcases List.mem_append.mp hw with hw | hw
  · obtain ⟨piece, _, rfl⟩ := List.mem_map.mp hw
    exact Option.some_ne_none _
  · obtain rfl := List.mem_singleton.mp hw
    rw [if_neg hne]
    exact Option.some_ne_none _

theorem uploadWrites_ne_nil {P : Primitives} {pieces : List Bytes} {w : Bytes × Option Bytes}
    (hw : w ∈ uploadWrites P pieces) : w.1 ≠ [] := by
  rcases List.mem_append.mp hw with hw | hw
  · obtain ⟨piece, _, rfl⟩ := List.mem_map.mp hw
    exact hexKey_sha256_ne_nil _ _
  · obtain rfl := List.mem_singleton.mp hw
    exact hexKey_sha256_ne_nil _ _

end Writes

namespace SharingNetwork

variable {env : SharingEnv M} {g g' : SharingNetwork M} {n p q d : String} {key : Bytes}
  {e : SharingEvent M}

/-- `p` has the blob of a key, and a way back to `n`. Nobody has to have one without a key. -/
def Offers (g : SharingNetwork M) (p n : String) (key : Bytes) : Prop :=
  key ≠ [] → (g.nodes p).blob.get key ≠ none ∧ n ∈ (g.nodes p).routingTable

instance (g : SharingNetwork M) (p n : String) (key : Bytes) : Decidable (g.Offers p n key) :=
  inferInstanceAs (Decidable (_ → _))

/-- What a message between two nodes says of blobs is so. -/
def Keeps (g : SharingNetwork M) (source dest : String) : Parcel M → Prop
  | .searchReply msg => ∀ info ∈ msg.responses, ∀ key ∈ info.keys, g.Offers source dest key
  | .dataRequest msg => g.Offers dest source msg.key
  | .dataReply msg => msg.key ≠ [] → msg.value ≠ none
  | .encryptedChunk msg => msg.chunk ≠ none
  | _ => True

structure Truthful (g : SharingNetwork M) : Prop where
  catalog : ∀ n key, ∀ p ∈ (g.nodes n).catalog.at key ∅, g.Offers p n key
  flights : ∀ f ∈ g.flights, g.Keeps f.header.source f.header.destination f.pkt.msg

/-- Users do not write what is not so: empty files are not uploaded, a chunk is never nil, and who
is entered into a catalog has the blob and a way back. -/
def Honest (g : SharingNetwork M) (e : SharingEvent M) : Prop :=
  g.Outward e ∧ match e.act with
    | .upload _ data => data ≠ []
    | .sendChunk _ msg => msg.chunk ≠ none
    | .updateCatalog key peer => g.Offers peer e.addr key
    | _ => True

instance (g : SharingNetwork M) (e : SharingEvent M) : Decidable (g.Honest e) := by
  obtain ⟨addr, fresh, act⟩ := e
  cases_type SharingAct <;> exact inferInstanceAs (Decidable (_ ∧ _))

theorem keeps_of_silent {parcel : Parcel M} (h : Silent parcel) : g.Keeps p d parcel := by
  cases parcel with
  | rumors | status | other => trivial
  | _ => exact h.elim

theorem Keeps.mono {parcel : Parcel M} (h : g.Keeps p d parcel)
    (hgrow : ∀ {p n key}, g.Offers p n key → g'.Offers p n key) : g'.Keeps p d parcel := by
  cases parcel with
  | searchReply msg => exact fun info hinfo key hkey => hgrow (h info hinfo key hkey)
  | dataRequest msg => exact hgrow h
  | _ => exact h

theorem Truthful.held (h : g.Truthful) (hhonest : g.Honest e) (hstep : g.step env e = some g')
    (hkey : key ≠ []) (hheld : (g.nodes p).blob.get key ≠ none) :
    (g'.nodes p).blob.get key ≠ none := by
  obtain ⟨_, heffect⟩ := step_effect hstep
  have hput : ∀ result : SharingNode M × List (Letter M),
      ((g.nodes e.addr).blob.get key ≠ none → result.1.blob.get key ≠ none) →
      ((g.put e.addr e.fresh result).nodes p).blob.get key ≠ none := by
    intro result hresult
    by_cases hp : p = e.addr
    · subst hp
      rw [nodes_put_self]
      exact hresult hheld
    · rwa [nodes_put_of_ne hp]
  cases heffect with
  | relay => exact hheld
  | act acts =>
    apply hput
    intro hold
    have htrue := hhonest.2
    generalize e.act = a at acts htrue
    cases SharingNode.act_effect acts with
    | quiet keeps => exact keeps.blob ▸ hold
    | upload size => exact held_writeAll (uploadWrites_isSome htrue size) hold
    | sendChunk | tag | updateCatalog | searchFile | request | reSendDataRequest => exact hold
  | @process f _ choice result _ mem dest handled =>
    apply hput
    intro hold
    have htrue := h.flights f mem
    generalize f.pkt.msg = parcel at handled htrue
    cases SharingNode.process_effect handled with
    | quiet keeps => exact keeps.blob ▸ hold
    | searchRequest keeps => exact keeps.blob ▸ hold
    | searchReply =>
      rw [(execSearchReplyMessage_files _).1]
      exact hold
    | dataRequest => exact hold
    | dataReply => exact held_set (fun heq => htrue (heq ▸ hkey)) hold
    | encryptedChunk => exact held_set (fun _ => htrue) hold

/-- What is offered stays so. -/
theorem Truthful.offers (h : g.Truthful) (hmapped : g.Mapped) (hhonest : g.Honest e)
    (hstep : g.step env e = some g') (hoffers : g.Offers p n key) : g'.Offers p n key :=
  fun hkey => ⟨h.held hhonest hstep hkey (hoffers hkey).1,
    hmapped.grows hhonest.1 hstep (hoffers hkey).2⟩

theorem Truthful.put {fresh : ℕ → Fresh} {result : SharingNode M × List (Letter M)}
    (h : g.Truthful)
    (hgrow : ∀ {p n key}, g.Offers p n key → (g.put d fresh result).Offers p n key)
    (hcatalog : ∀ key, ∀ p ∈ result.1.catalog.at key ∅, g.Offers p d key)
    (hletters : ∀ l ∈ result.2, (g.put d fresh result).Keeps d l.dest l.parcel) :
    (g.put d fresh result).Truthful where
  catalog n key p hp := by
    apply hgrow
    by_cases hn : n = d
    · subst hn
      rw [nodes_put_self] at hp
      exact hcatalog key p hp
    · rw [nodes_put_of_ne hn] at hp
      exact h.catalog n key p hp
  flights f hf := by
    rcases mem_flights_put hf with hf | ⟨l, hl, id, rfl⟩
    · exact (h.flights f hf).mono hgrow
    · exact hletters l hl

theorem keeps_byRoute {s : SharingNode M} {dest : String} {parcel : Parcel M}
    (h : g.Keeps n dest parcel) {l : Letter M} (hl : l ∈ s.byRoute dest parcel) :
    g.Keeps n l.dest l.parcel := by
  obtain ⟨_, _, rfl⟩ := Option.map_eq_some_iff.mp (Option.mem_toList.mp hl)
  exact h

theorem keeps_searches {requestID pattern : String} {l : Letter M}
    (h : Searches requestID pattern l) : g.Keeps n d l.parcel := by
  obtain ⟨msg, hmsg, _⟩ := h
  rw [hmsg]
  trivial

theorem Truthful.act (h : g.Truthful) (hhonest : g.Honest e)
    {result : SharingNode M × List (Letter M)}
    (hgrow : ∀ {p n key}, g.Offers p n key → (g.put e.addr e.fresh result).Offers p n key)
    (hresult : (g.nodes e.addr).act env e.act = some result) :
    (g.put e.addr e.fresh result).Truthful := by
  have hsame := h.catalog e.addr
  have htrue := hhonest.2
  generalize e.act = a at hresult htrue
  cases SharingNode.act_effect hresult with
  | quiet keeps silent =>
    exact h.put hgrow (keeps.catalog ▸ hsame) fun l hl => keeps_of_silent (silent l hl)
  | sendChunk =>
    refine h.put hgrow hsame fun l hl => ?_
    obtain rfl := List.mem_singleton.mp hl
    exact htrue
  | upload => exact h.put hgrow hsame nofun
  | tag => exact h.put hgrow hsame nofun
  | updateCatalog =>
    refine h.put hgrow (fun key p hp => ?_) nofun
    rcases mem_updateCatalog.mp hp with ⟨rfl, rfl⟩ | hold
    · exact htrue
    · exact hsame key p hold
  | searchFile searches => exact h.put hgrow hsame fun l hl => keeps_searches (searches l hl)
  | request mem =>
    refine h.put hgrow hsame fun l hl => keeps_byRoute ?_ hl
    exact hgrow (hsame _ _ mem)
  | reSendDataRequest =>
    refine h.put hgrow hsame fun l hl => keeps_byRoute ?_ hl
    exact fun hkey => absurd rfl hkey

theorem Truthful.process (h : g.Truthful) (hmapped : g.Mapped) {f : Flight M} {choice : Choice}
    {result : SharingNode M × List (Letter M)} (mem : f ∈ g.flights)
    (dest : f.header.destination = d)
    (hgrow : ∀ {p n key}, g.Offers p n key → (g.put d e.fresh result).Offers p n key)
    (hresult : (g.nodes d).process env f.header choice f.pkt.msg = some result) :
    (g.put d e.fresh result).Truthful := by
  subst dest
  have hsame := h.catalog f.header.destination
  have htrue := h.flights f mem
  have hrelayed := (hmapped.tells f mem).1
  generalize f.pkt.msg = parcel at hresult htrue
  cases SharingNode.process_effect hresult with
  | quiet keeps silent =>
    exact h.put hgrow (keeps.catalog ▸ hsame) fun l hl => keeps_of_silent (silent l hl)
  | @searchRequest msg m letters keeps knows searches =>
    refine h.put hgrow (keeps.catalog ▸ hsame) fun l hl => ?_
    rcases List.mem_append.mp hl with hl | hl
    · exact keeps_searches (searches l hl)
    · obtain ⟨reply, hreply, rfl⟩ := List.mem_map.mp hl
      intro info hinfo key hkey
      obtain ⟨_, _, hkeys⟩ := mem_searchReply (Option.mem_toList.mp hreply) hinfo
      rw [Offers, nodes_put_self]
      exact fun _ => ⟨hkeys key hkey, knows hrelayed⟩
  | searchReply =>
    refine h.put hgrow (fun key p hp => ?_) nofun
    rcases (execSearchReplyMessage_files _).2.2 key p hp with ⟨rfl, info, hinfo, hkey⟩ | hold
    · exact htrue info hinfo key hkey
    · exact hsame key p hold
  | @dataRequest msg =>
    refine h.put hgrow hsame fun l hl => ?_
    refine keeps_byRoute ?_ hl
    intro hkey
    have hheld := (hgrow htrue hkey).1
    rwa [nodes_put_self] at hheld
  | dataReply => exact h.put hgrow hsame nofun
  | encryptedChunk => exact h.put hgrow hsame nofun

theorem Truthful.step (h : g.Truthful) (hmapped : g.Mapped) (hhonest : g.Honest e)
    (hstep : g.step env e = some g') : g'.Truthful := by
  have hgrow : ∀ {p n key}, g.Offers p n key → g'.Offers p n key := fun hoffers =>
    h.offers hmapped hhonest hstep hoffers
  obtain ⟨_, heffect⟩ := step_effect hstep
  cases heffect with
  | process _ mem dest handled => exact h.process hmapped mem dest hgrow handled
  | act acts => exact h.act hhonest hgrow acts
  | @relay f _ _ _ _ mem =>
    refine ⟨h.catalog, fun f' hf' => ?_⟩
    rcases List.mem_append.mp hf' with hf' | hf'
    · exact h.flights f' hf'
    · obtain rfl := List.mem_singleton.mp hf'
      exact h.flights f mem

theorem truthful_start : (start : SharingNetwork M).Truthful where
  catalog n key p hp := by
    have hnone : (∅ : GoMap Bytes (Finset String)).at key ∅ = ∅ := by
      rw [GoMap.at, Finmap.lookup_empty, Option.getD_none]
    have hp : p ∈ (∅ : GoMap Bytes (Finset String)).at key ∅ := hp
    rw [hnone] at hp
    cases hp
  flights _ hf := nomatch hf

theorem truthful_of_run {es : List (SharingEvent M)} (h : Run (step env) Honest start es g) :
    g.Truthful := by
  have hboth : g.Mapped ∧ g.Truthful :=
    h.invariant (I := fun g => g.Mapped ∧ g.Truthful) ⟨mapped_start, truthful_start⟩
      fun ⟨hmapped, htrue⟩ hhonest hstep =>
        ⟨hmapped.step hhonest.1 hstep, htrue.step hmapped hhonest hstep⟩
  exact hboth.2

/-- Who is in a catalog under a key has the blob and a way back. No request for the blob of a key
comes to a node without it or without a way back, no answer for a key is nil, and no blob of a key
that was there is lost. -/
theorem catalogs_truthful {es es' : List (SharingEvent M)}
    (h : Run (step env) Honest start es g) (h' : Run (step env) Honest g es' g') :
    (∀ n key, ∀ p ∈ (g.nodes n).catalog.at key ∅, g.Offers p n key) ∧
      (∀ f ∈ g.flights, ∀ msg, f.pkt.msg = .dataRequest msg →
        g.Offers f.header.destination f.header.source msg.key) ∧
      (∀ f ∈ g.flights, ∀ msg, f.pkt.msg = .dataReply msg → msg.key ≠ [] → msg.value ≠ none) ∧
      ∀ p key, key ≠ [] → (g.nodes p).blob.get key ≠ none →
        (g'.nodes p).blob.get key ≠ none := by
  have htrue := truthful_of_run h
  refine ⟨htrue.catalog, fun f hf msg hmsg => ?_, fun f hf msg hmsg => ?_,
    fun p key hkey hheld => ?_⟩
  · have hkeeps := htrue.flights f hf
    rwa [hmsg] at hkeeps
  · have hkeeps := htrue.flights f hf
    rwa [hmsg] at hkeeps
  · have hall : (g'.Mapped ∧ g'.Truthful) ∧ (g'.nodes p).blob.get key ≠ none := by
      refine h'.invariant
        (I := fun g => (g.Mapped ∧ g.Truthful) ∧ (g.nodes p).blob.get key ≠ none)
        ⟨⟨mapped_of_run (h.imp fun _ _ hok => hok.1), htrue⟩, hheld⟩ ?_
      rintro s t e ⟨⟨hmapped, htrue⟩, hheld⟩ hhonest hstep
      exact ⟨⟨hmapped.step hhonest.1 hstep, htrue.step hmapped hhonest hstep⟩,
        htrue.held hhonest hstep hkey hheld⟩
    exact hall.2

end SharingNetwork

namespace Sample

open SharingNetwork

def found : List (SharingEvent String) :=
  [does "B" (.upload 3 piece), does "B" (.tag "cv" (metahash primitives [piece])),
    does "A" (.addPeer "B"), does "A" (.searchFile "r" "cv" 1 ["B"]),
    does "B" (.arrive 0 { order := ["cv"] }), does "A" (.arrive 1 {})]

/-- A gets the metafile, and asks for it once more. -/
def fetched : List (SharingEvent String) :=
  [does "A" (.request "s" (metahash primitives [piece]) "B"), does "B" (.arrive 2 {}),
    does "A" (.arrive 3 {}), does "A" (.reSendDataRequest "B"), does "B" (.arrive 4 {}),
    does "A" (.arrive 5 {})]

theorem found_isSome : (exec (guarded (step env) Honest) start found).isSome := by decide

def searched : SharingNetwork String :=
  (exec (guarded (step env) Honest) start found).get found_isSome

theorem fetched_isSome : (exec (guarded (step env) Honest) searched fetched).isSome := by decide

theorem catalogs_truthful_found :
    (∀ n key, ∀ p ∈ (searched.nodes n).catalog.at key ∅, searched.Offers p n key) ∧
      (∀ f ∈ searched.flights, ∀ msg, f.pkt.msg = .dataRequest msg →
        searched.Offers f.header.destination f.header.source msg.key) ∧
      (∀ f ∈ searched.flights, ∀ msg, f.pkt.msg = .dataReply msg → msg.key ≠ [] →
        msg.value ≠ none) ∧
      ∀ p key, key ≠ [] → (searched.nodes p).blob.get key ≠ none →
        (((exec (guarded (step env) Honest) searched fetched).get fetched_isSome).nodes p).blob.get
          key ≠ none :=
  catalogs_truthful (run_of_guarded (run_exec_get found_isSome))
    (run_of_guarded (run_exec_get fetched_isSome))

example : "B" ∈ (searched.nodes "A").catalog.at (metahash primitives [piece]) ∅ := by decide

end Sample

end JobPortal.Sharing
