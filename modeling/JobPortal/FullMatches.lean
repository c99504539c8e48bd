import JobPortal.SearchRounds

/-! Complete files. A node looks through its own chunks for one, and through the chunks that are
named in the replies of others, where a missing chunk is a nil entry. -/
namespace JobPortal.Queues

open Hex Sharing

variable {store : BlobStore} {metahash : Bytes}

/-- The entries of a reply say what the scan of the store says. -/
theorem isFullMatch_eq (store : BlobStore) (metahash : Bytes) :
    isFullMatch store metahash =
      ((getAllChunkHash store metahash).map fun chunks => chunks.all Option.isSome).getD false := by
  rw [isFullMatch, getAllChunkHash]
  cases store.get metahash with
  | none => rfl
  | some fileChunks =>
    have hentry : ∀ chunkKey, (Option.isSome ∘ fun chunkKey => (store.get chunkKey).map
        fun _ => chunkKey) chunkKey = (store.get chunkKey).isSome := fun chunkKey => by
      rw [Function.comp, Option.isSome_map]
    simp only [Option.map_some, Option.getD_some, List.all_map]
    rw [funext hentry]

/-- A node has a complete file exactly when it lists the chunks of it and whoever gets the list
finds it complete, if nil and empty entries are kept apart on the way. -/
theorem isFullMatch_iff {json : Option Bytes → Option Bytes}
    (hjson : ∀ chunk, (json chunk).isSome = chunk.isSome) (store : BlobStore) (metahash : Bytes)
    (requestID name : String) (key : Bytes) :
    isFullMatch store metahash = true ↔ ∃ chunks, getAllChunkHash store metahash = some chunks ∧
      (getFullMatch ⟨requestID, [⟨name, key, chunks.map json⟩]⟩).isSome := by
  have hfound : ∀ chunks : List (Option Bytes),
      (getFullMatch ⟨requestID, [⟨name, key, chunks.map json⟩]⟩).isSome =
        chunks.all Option.isSome := by
    intro chunks
    have hkept : Option.isSome ∘ json = Option.isSome := funext hjson
    rw [getFullMatch, Option.isSome_map, List.find?_singleton, List.all_map, hkept]
    cases chunks.all Option.isSome with
    | true => rfl
    | false => rfl
  rw [isFullMatch_eq]
  cases getAllChunkHash store metahash with
  | none => simp
  | some chunks => simp [hfound]

/-- What is found in the reply of a node is the first of its files that is complete. -/
theorem getFullMatch_searchReply {n : SearchNode} {compile : String → Option (String → Bool)}
    {msg : SearchRequestMessage} {order : List String} {reg : String → Bool}
    (hcompile : compile msg.pattern = some reg) :
    (n.searchReply compile msg order).bind getFullMatch =
      (order.filter reg).find? fun name =>
        ((n.naming.lookup name).map (isFullMatch n.blob)).getD false := by
  rw [SearchNode.searchReply, hcompile, Option.map_some, Option.bind_some, getFullMatch]
  induction order.filter reg with
  | nil => rfl
  | cons name names ih =>
    cases hname : n.naming.lookup name with
    | none =>
      rw [List.filterMap_cons_none (by rw [hname]; rfl), List.find?_cons_of_neg (by simp [hname])]
      exact ih
    | some metahash =>
      cases hchunks : getAllChunkHash n.blob metahash with
      | none =>
        rw [List.filterMap_cons_none (by simp [hname, hchunks]),
          List.find?_cons_of_neg (by simp [hname, isFullMatch_eq, hchunks])]
        exact ih
      | some chunks =>
        have hfull : isFullMatch n.blob metahash = chunks.all Option.isSome := by
          rw [isFullMatch_eq, hchunks]
          rfl
        rw [List.filterMap_cons_some (by simp only [hname, hchunks, Option.bind_some]; rfl)]
        simp only [List.find?_cons, hname, Option.map_some, Option.getD_some, hfull]
        cases chunks.all Option.isSome with
        | true => rfl
        | false => exact ih

namespace Sample

def oneChunk : BlobStore := (BlobStore.set ∅ [1] (some [65])).set [65] (some [])

theorem isFullMatch_iff_oneChunk : isFullMatch oneChunk [1] = true ↔
    ∃ chunks, getAllChunkHash oneChunk [1] = some chunks ∧
      (getFullMatch ⟨"s", [⟨"cv", [1], chunks.map id⟩]⟩).isSome :=
  isFullMatch_iff (fun _ => rfl) oneChunk [1] "s" "cv" [1]

end Sample

end JobPortal.Queues
