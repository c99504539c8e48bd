import JobPortal.LastWrites
import JobPortal.LocalFiles
import Mathlib.Algebra.Order.BigOperators.Group.List
import Mathlib.Algebra.Order.Ring.Nat

/-! Files that are uploaded one after another, and what Download still returns of them. Chunks and
metafiles are kept under hashes in one store, and a chunk may hash to the key of a metafile. -/
namespace JobPortal.Sharing

open Hex Runs LastWrites

variable (P : Primitives)

def hashList (pieces : List Bytes) : Bytes := (pieces.map P.sha256).flatten

def uploadWrites (pieces : List Bytes) : List (Bytes × Option Bytes) :=
  pieces.map (fun piece => (hexKey (P.sha256 piece), some piece)) ++
    [(metahash P pieces, if pieces = [] then none else some (metafile P pieces))]

/-- `Upload` of a node that has no role. The chunk size is a uint: as an int it is negative from
2^63 on, and the first chunk cannot be made. -/
def nodeUpload (chunkSize : UInt64) (data : Bytes) (store : BlobStore) :
    Option (BlobStore × Bytes) :=
  if 2 ^ 63 ≤ chunkSize.toNat ∧ data ≠ [] then none
  else upload P chunkSize.toNat data store

def uploadAll (chunkSize : UInt64) : List Bytes → BlobStore → Option (BlobStore × List Bytes)
  | [], store => some (store, [])
  | data :: ds, store =>
    (nodeUpload P chunkSize data store).bind fun r =>
      (uploadAll chunkSize ds r.1).map fun t => (t.1, r.2 :: t.2)

/-- No chunk is what the hashes of a file are written one after another. -/
def Apart (files : List (List Bytes)) : Prop := ∀ f ∈ files, ∀ g ∈ files, hashList P f ∉ g

def CollisionFree (files : List (List Bytes)) : Prop :=
  Set.InjOn P.sha256 {x | ∃ f ∈ files, x ∈ f ∨ x = hashList P f}

def HexKeyed (store : BlobStore) : Prop := ∀ key, store.get key ≠ none → (decodeHex key).isSome

/-- The hashes of a file do not read as lines of hexadecimal digits by themselves. -/
def NotText (files : List (List Bytes)) : Prop :=
  ∀ f ∈ files, ¬ ∀ line ∈ splitKeys (hashList P f), (decodeHex line).isSome

instance (files : List (List Bytes)) : Decidable (Apart P files) :=
  inferInstanceAs (Decidable (∀ f ∈ files, ∀ g ∈ files, hashList P f ∉ g))

instance (files : List (List Bytes)) : Decidable (NotText P files) :=
  inferInstanceAs (Decidable (∀ f ∈ files, ¬ ∀ line ∈ splitKeys (hashList P f), _))

def hashedFor (pieces : List Bytes) : List Bytes := pieces ++ [hashList P pieces]

instance (files : List (List Bytes)) : Decidable (CollisionFree P files) :=
  decidable_of_iff (∀ x ∈ files.flatMap (hashedFor P), ∀ y ∈ files.flatMap (hashedFor P),
    P.sha256 x = P.sha256 y → x = y) <| by
    have hmem : ∀ x, x ∈ files.flatMap (hashedFor P) ↔
        x ∈ {x | ∃ f ∈ files, x ∈ f ∨ x = hashList P f} := by
      simp [hashedFor]
    constructor
    · exact fun h x hx y hy => h x ((hmem x).mpr hx) y ((hmem y).mpr hy)
    · exact fun h x hx y hy => h ((hmem x).mp hx) ((hmem y).mp hy)

variable {P}

theorem mapM_eq_some_map {α β : Type*} {f : α → Option β} {g : α → β} {l : List α}
    (h : ∀ x ∈ l, f x = some (g x)) : l.mapM f = some (l.map g) := by
  induction l with
  | nil => rfl
  | cons x l ih =>
    obtain ⟨hx, hl⟩ := List.forall_mem_cons.mp h
    rw [List.mapM_cons, hx, ih hl]
    rfl

theorem isSome_of_mapM {α β : Type*} {f : α → Option β} {l : List α} (h : (l.mapM f).isSome) :
    ∀ x ∈ l, (f x).isSome := by
  induction l with
  | nil => simp
  | cons x l ih =>
    rw [List.mapM_cons] at h
    cases hx : f x with
    | none =>
      rw [hx] at h
      cases h
    | some y =>
      cases hl : l.mapM f with
      | none =>
        rw [hx, hl] at h
        cases h
      | some ys => exact List.forall_mem_cons.mpr ⟨by rw [hx]; rfl, ih (by rw [hl]; rfl)⟩

theorem storeChunks_eq (store : BlobStore) (pieces : List Bytes) :
    storeChunks P store pieces =
      writeAll store (pieces.map fun piece => (hexKey (P.sha256 piece), some piece)) := by
  rw [writeAll, List.foldl_map]
  rfl

theorem upload_eq {chunkSize : ℕ} (h : 1 ≤ chunkSize) (data : Bytes) (store : BlobStore) :
    upload P chunkSize data store = some (writeAll store (uploadWrites P (chunks chunkSize data)),
      metahash P (chunks chunkSize data)) := by
  rw [upload, if_neg fun hzero => absurd hzero.1 (by omega), uploadWrites, writeAll_append,
    ← storeChunks_eq]
  rfl

theorem uploadAll_eq_some {chunkSize : UInt64} (h : 1 ≤ chunkSize.toNat) {ds : List Bytes}
    {store store' : BlobStore} {keys : List Bytes}
    (hup : uploadAll P chunkSize ds store = some (store', keys)) :
    keys = ds.map (fun data => metahash P (chunks chunkSize.toNat data)) ∧
      store' = writeAll store
        ((ds.map (chunks chunkSize.toNat)).flatMap (uploadWrites P)) := by
  induction ds generalizing store store' keys with
  | nil =>
    obtain ⟨rfl, rfl⟩ := Prod.mk.inj (Option.some.inj hup)
    exact ⟨rfl, rfl⟩
  | cons data ds ih =>
    obtain ⟨⟨first, key⟩, hfirst, hrest⟩ := Option.bind_eq_some_iff.mp hup
    obtain ⟨⟨last, rest⟩, hlast, heq⟩ := Option.map_eq_some_iff.mp hrest
    obtain ⟨rfl, rfl⟩ := Prod.mk.inj heq
    rw [nodeUpload] at hfirst
    split_ifs at hfirst
    rw [upload_eq h] at hfirst
    obtain ⟨rfl, rfl⟩ := Prod.mk.inj (Option.some.inj hfirst)
    obtain ⟨rfl, rfl⟩ := ih hlast
    refine ⟨rfl, ?_⟩
    rw [List.map_cons, List.flatMap_cons, writeAll_append]

theorem exists_get_writeAll (store : BlobStore) {ws : List (Bytes × Option Bytes)}
    {w : Bytes × Option Bytes} (hw : w ∈ ws) :
    ∃ v, (w.1, v) ∈ ws ∧ BlobStore.get (writeAll store ws) w.1 = v := by
  obtain ⟨v, hv, hlookup⟩ := exists_lookup_writeAll store hw
  refine ⟨v, hv, ?_⟩
  rw [BlobStore.get, GoMap.at, hlookup, Option.getD_some]

theorem length_hashList (pieces : List Bytes) : (hashList P pieces).length = 32 * pieces.length := by
  induction pieces with
  | nil => rfl
  | cons piece pieces ih =>
    rw [hashList, List.map_cons, List.flatten_cons, List.length_append, P.sha256_length,
      ← hashList, ih, List.length_cons]
    omega

theorem metafile_eq_of_hashList_eq {f g : List Bytes} (h : hashList P f = hashList P g) :
    metafile P f = metafile P g := by
  have hlength := congrArg List.length h
  rw [length_hashList, length_hashList] at hlength
  have hhashes : f.map P.sha256 = g.map P.sha256 := by
    refine List.eq_iff_flatten_eq.mpr ⟨h, ?_⟩
    rw [List.map_map, List.map_map]
    have hconst : (List.length ∘ P.sha256) = fun _ => 32 := funext P.sha256_length
    rw [hconst, List.map_const', List.map_const']
    congr 1
    omega
  have hmetafile : ∀ pieces, metafile P pieces =
      [metafileSep].intercalate ((pieces.map P.sha256).map hexKey) := by
    intro pieces
    rw [List.map_map]
    rfl
  rw [hmetafile, hmetafile, hhashes]

theorem length_hexKey (hash : Bytes) : (hexKey hash).length = 2 * hash.length := by
  rw [hexKey, encodeToString, utf8_ofList]
  induction hash with
  | nil => rfl
  | cons b hash ih =>
    obtain ⟨hi, lo, _, _, hdigits, _⟩ := utf8_encodeByte b
    rw [List.flatMap_cons, List.flatMap_append, hdigits, List.length_append, ih, List.length_cons,
      List.length_cons, List.length_cons, List.length_nil]
    omega

theorem hexKey_sha256_ne_nil (P : Primitives) (data : Bytes) : hexKey (P.sha256 data) ≠ [] := by
  intro h
  have hlength := congrArg List.length h
  rw [length_hexKey, P.sha256_length] at hlength
  cases hlength

theorem length_hashList_lt {pieces : List Bytes} (h : pieces ≠ []) :
    (hashList P pieces).length < (metafile P pieces).length := by
  have hkey : ∀ piece, (hexKey (P.sha256 piece)).length = 64 := by
    intro piece
    rw [length_hexKey, P.sha256_length]
  rw [length_hashList]
  induction pieces with
  | nil => exact absurd rfl h
  | cons piece pieces ih =>
    rw [metafile, List.map_cons]
    cases pieces with
    | nil =>
      rw [List.map_nil, List.intercalate_singleton, hkey, List.length_singleton]
      omega
    | cons next pieces =>
      have hrest := ih (List.cons_ne_nil _ _)
      rw [metafile, List.map_cons] at hrest
      rw [List.map_cons, List.intercalate_cons_cons, List.length_append, List.length_append, hkey,
        List.length_cons]
      omega

theorem downloadLocal_of_metafile {store : BlobStore} {f : List Bytes} (hf : f ≠ [])
    (hget : store.get (metahash P f) = some (metafile P f)) {value : Bytes → Bytes}
    (hvalue : ∀ y ∈ f, store.get (hexKey (P.sha256 y)) = some (value y)) :
    downloadLocal store (metahash P f) = some (f.map value).flatten := by
  have hlines : (splitKeys (metafile P f)).mapM store.get = some (f.map value) := by
    rw [splitKeys_metafile P hf, List.mapM_map]
    exact mapM_eq_some_map hvalue
  rw [downloadLocal, hget, Option.bind_some, hlines, Option.map_some]

section Files

variable {files : List (List Bytes)} (hne : ∀ f ∈ files, f ≠ [])
include hne

theorem mem_writes_iff {w : Bytes × Option Bytes} : w ∈ files.flatMap (uploadWrites P) ↔
    ∃ f ∈ files, (∃ y ∈ f, w = (hexKey (P.sha256 y), some y)) ∨
      w = (metahash P f, some (metafile P f)) := by
  rw [List.mem_flatMap]
  refine exists_congr fun f => and_congr_right fun hf => ?_
  rw [uploadWrites, List.mem_append, List.mem_map, List.mem_singleton, if_neg (hne f hf)]
  simp only [eq_comm]

variable {store : BlobStore} (hinj : CollisionFree P files)
include hinj

/-- A chunk is found under its key unless it is the list of the hashes of a file. -/
theorem get_chunk {f : List Bytes} (hf : f ∈ files) {y : Bytes} (hy : y ∈ f) :
    let store' : BlobStore := writeAll store (files.flatMap (uploadWrites P))
    store'.get (hexKey (P.sha256 y)) = some y ∨ ∃ g ∈ files, y = hashList P g ∧
      store'.get (hexKey (P.sha256 y)) = some (metafile P g) := by
  intro store'
  have hwrite : (hexKey (P.sha256 y), some y) ∈ files.flatMap (uploadWrites P) :=
    (mem_writes_iff hne).mpr ⟨f, hf, .inl ⟨y, hy, rfl⟩⟩
  obtain ⟨v, hv, hget⟩ := exists_get_writeAll store hwrite
  obtain ⟨g, hg, ⟨z, hz, heq⟩ | heq⟩ := (mem_writes_iff hne).mp hv
  · obtain ⟨hkey, rfl⟩ := Prod.mk.inj heq
    have hyz : y = z :=
      hinj ⟨f, hf, .inl hy⟩ ⟨g, hg, .inl hz⟩ (hexKey_injective hkey)
    exact .inl (hyz ▸ hget)
  · obtain ⟨hkey, rfl⟩ := Prod.mk.inj heq
    have hyg : y = hashList P g :=
      hinj ⟨f, hf, .inl hy⟩ ⟨g, hg, .inr rfl⟩ (hexKey_injective hkey)
    exact .inr ⟨g, hg, hyg, hget⟩

theorem get_metafile {f : List Bytes} (hf : f ∈ files) :
    let store' : BlobStore := writeAll store (files.flatMap (uploadWrites P))
    store'.get (metahash P f) = some (metafile P f) ∨ (∃ g ∈ files, hashList P f ∈ g) ∧
      store'.get (metahash P f) = some (hashList P f) := by
  intro store'
  have hwrite : (metahash P f, some (metafile P f)) ∈ files.flatMap (uploadWrites P) :=
    (mem_writes_iff hne).mpr ⟨f, hf, .inr rfl⟩
  obtain ⟨v, hv, hget⟩ := exists_get_writeAll store hwrite
  obtain ⟨g, hg, ⟨z, hz, heq⟩ | heq⟩ := (mem_writes_iff hne).mp hv
  · obtain ⟨hkey, rfl⟩ := Prod.mk.inj heq
    have hfz : hashList P f = z :=
      hinj ⟨f, hf, .inr rfl⟩ ⟨g, hg, .inl hz⟩ (hexKey_injective hkey)
    exact .inr ⟨⟨g, hg, hfz ▸ hz⟩, hfz ▸ hget⟩
  · obtain ⟨hkey, rfl⟩ := Prod.mk.inj heq
    have hfg : hashList P f = hashList P g :=
      hinj ⟨f, hf, .inr rfl⟩ ⟨g, hg, .inr rfl⟩ (hexKey_injective hkey)
    exact .inl (metafile_eq_of_hashList_eq hfg ▸ hget)

omit hinj in
theorem hexKeyed_writeAll (h : HexKeyed store) :
    HexKeyed (writeAll store (files.flatMap (uploadWrites P))) := by
  intro key hkey
  cases hlast : lastTo key (files.flatMap (uploadWrites P)) with
  | some v =>
    obtain ⟨f, _, ⟨y, _, heq⟩ | heq⟩ := (mem_writes_iff hne).mp (mem_of_lastTo hlast)
    · rw [(Prod.mk.inj heq).1, decodeHex_hexKey]
      rfl
    · rw [(Prod.mk.inj heq).1, metahash, decodeHex_hexKey]
      rfl
  | none =>
    refine h key ?_
    rwa [BlobStore.get, GoMap.at, lookup_writeAll, hlast, Option.none_or] at hkey

/-- What a chunk reads as. It is never shorter than the chunk, and longer if it is a metafile. -/
theorem exists_get_chunk {f : List Bytes} (hf : f ∈ files) {y : Bytes} (hy : y ∈ f) :
    ∃ v, BlobStore.get (writeAll store (files.flatMap (uploadWrites P))) (hexKey (P.sha256 y)) =
      some v ∧ y.length ≤ v.length := by
  rcases get_chunk hne hinj hf hy with hget | ⟨g, hg, rfl, hget⟩
  · exact ⟨y, hget, le_rfl⟩
  · exact ⟨_, hget, (length_hashList_lt (hne g hg)).le⟩

theorem downloadLocal_of_apart (hapart : Apart P files) {f : List Bytes} (hf : f ∈ files) :
    downloadLocal (writeAll store (files.flatMap (uploadWrites P))) (metahash P f) =
      some f.flatten := by
  have hmetafile : BlobStore.get (writeAll store (files.flatMap (uploadWrites P))) (metahash P f) =
      some (metafile P f) := by
    refine (get_metafile hne hinj hf).resolve_right ?_
    rintro ⟨⟨g, hg, hmem⟩, _⟩
    exact hapart f hf g hg hmem
  have hchunks : ∀ y ∈ f, BlobStore.get (writeAll store (files.flatMap (uploadWrites P)))
      (hexKey (P.sha256 y)) = some (id y) := by
    intro y hy
    refine (get_chunk hne hinj hf hy).resolve_right ?_
    rintro ⟨g, hg, rfl, _⟩
    exact hapart g hg f hf hy
  rw [downloadLocal_of_metafile (hne f hf) hmetafile hchunks, List.map_id]

/-- A metafile that a chunk has taken the place of is not read as one. -/
theorem get_metafile_of_downloadLocal (hhex : HexKeyed store) (htext : NotText P files)
    {f : List Bytes} (hf : f ∈ files)
    (h : (downloadLocal (writeAll store (files.flatMap (uploadWrites P)))
      (metahash P f)).isSome) :
    BlobStore.get (writeAll store (files.flatMap (uploadWrites P))) (metahash P f) =
      some (metafile P f) := by
  refine (get_metafile hne hinj hf).resolve_right ?_
  rintro ⟨_, hget⟩
  rw [downloadLocal, hget, Option.bind_some, Option.isSome_map] at h
  have hkeys := hexKeyed_writeAll (P := P) hne hhex
  refine htext f hf fun line hline => hkeys line ?_
  exact Option.isSome_iff_ne_none.mp (isSome_of_mapM h line hline)

/-- A chunk that reads as a metafile makes its file longer. -/
theorem apart_of_downloadLocal (hhex : HexKeyed store) (htext : NotText P files)
    (h : ∀ f ∈ files, downloadLocal (writeAll store (files.flatMap (uploadWrites P)))
      (metahash P f) = some f.flatten) : Apart P files := by
  intro g hg f hf hmem
  let store' : BlobStore := writeAll store (files.flatMap (uploadWrites P))
  let value : Bytes → Bytes := fun y => (store'.get (hexKey (P.sha256 y))).getD []
  have hmetafile : ∀ f ∈ files, store'.get (metahash P f) = some (metafile P f) := fun f hf =>
    get_metafile_of_downloadLocal hne hinj hhex htext hf (by rw [h f hf]; rfl)
  have hvalue : ∀ y ∈ f, store'.get (hexKey (P.sha256 y)) = some (value y) ∧
      y.length ≤ (value y).length := by
    intro y hy
    have hget : ∃ v, store'.get (hexKey (P.sha256 y)) = some v ∧ y.length ≤ v.length :=
      exists_get_chunk hne hinj hf hy
    obtain ⟨v, hv, hle⟩ := hget
    have hval : value y = v := by
      change (store'.get _).getD [] = v
      rw [show store'.get (hexKey (P.sha256 y)) = some v from hv, Option.getD_some]
    exact ⟨hval ▸ hv, hval ▸ hle⟩
  have hlonger : (hashList P g).length < (value (hashList P g)).length := by
    change _ < ((store'.get (metahash P g)).getD []).length
    rw [hmetafile g hg, Option.getD_some]
    exact length_hashList_lt (hne g hg)
  have hfile := downloadLocal_of_metafile (hne f hf) (hmetafile f hf) fun y hy => (hvalue y hy).1
  rw [h f hf, Option.some.injEq] at hfile
  have hlength := congrArg List.length hfile
  rw [List.length_flatten, List.length_flatten, List.map_map] at hlength
  exact absurd hlength (List.sum_lt_sum List.length (List.length ∘ value)
    (fun y hy => (hvalue y hy).2) ⟨hashList P g, hmem, hlonger⟩).ne

end Files

/-- The file is returned by a Download on the node that has this store, whomever it knows. -/
def Returns (P : Primitives) (store : BlobStore) (key data : Bytes) : Prop :=
  ∀ (catalog : GoMap Bytes (Finset String)) (routingTable : GoMap String String),
    Sharer.ReturnsLocally P { store, catalog, routingTable, metahash := key } data

theorem returns_iff {store : BlobStore} {key data : Bytes} :
    Returns P store key data ↔ downloadLocal store key = some data := by
  constructor
  · exact fun h => (Sharer.returnsLocally_iff_downloadLocal rfl).mp (h ∅ ∅)
  · exact fun h _ _ => (Sharer.returnsLocally_iff_downloadLocal rfl).mpr h

/-- A file is uploaded and comes back from the node itself, unless it is empty or the chunk size
does not fit an int. -/
theorem upload_download_iff (P : Primitives) (store : BlobStore) {chunkSize : UInt64}
    (hsize : 1 ≤ chunkSize.toNat) (data : Bytes)
    (hinj : CollisionFree P [chunks chunkSize.toNat data])
    (hapart : Apart P [chunks chunkSize.toNat data]) :
    (∃ store' key, nodeUpload P chunkSize data store = some (store', key) ∧
        Returns P store' key data) ↔ data ≠ [] ∧ chunkSize.toNat < 2 ^ 63 := by
  rw [nodeUpload, upload_eq hsize]
  constructor
  · rintro ⟨store', key, hup, hreturns⟩
    split_ifs at hup with hbig
    obtain ⟨rfl, rfl⟩ := Prod.mk.inj (Option.some.inj hup)
    have hdata : data ≠ [] := by
      rintro rfl
      rw [returns_iff, downloadLocal, (chunks_eq_nil_iff hsize).mpr rfl] at hreturns
      have hnone : BlobStore.get (writeAll store (uploadWrites P [])) (metahash P []) = none :=
        store.get_set_self (metahash P []) none
      rw [hnone] at hreturns
      cases hreturns
    exact ⟨hdata, by_contra fun hle => hbig ⟨Nat.not_lt.mp hle, hdata⟩⟩
  · rintro ⟨hdata, hlt⟩
    have hne : ∀ f ∈ [chunks chunkSize.toNat data], f ≠ [] := by
      intro f hf
      obtain rfl := List.mem_singleton.mp hf
      exact fun hnil => hdata ((chunks_eq_nil_iff hsize).mp hnil)
    have hlocal : downloadLocal (writeAll store _) _ = _ :=
      downloadLocal_of_apart hne hinj hapart (List.mem_singleton_self _)
    rw [flatten_chunks hsize, List.flatMap_singleton] at hlocal
    rw [if_neg fun hbig => absurd hbig.1 (Nat.not_le.mpr hlt)]
    exact ⟨_, _, rfl, returns_iff.mpr hlocal⟩

/-- Files that are uploaded one after another all come back if no chunk is what the hashes of one of
them are. Where nothing reads like hexadecimal digits by chance, they do not come back otherwise. -/
theorem uploads_intact (P : Primitives) {chunkSize : UInt64} (hsize : 1 ≤ chunkSize.toNat)
    {ds : List Bytes} (hne : ∀ d ∈ ds, d ≠ []) {store store' : BlobStore} {keys : List Bytes}
    (hup : uploadAll P chunkSize ds store = some (store', keys))
    (hinj : CollisionFree P (ds.map (chunks chunkSize.toNat))) :
    (Apart P (ds.map (chunks chunkSize.toNat)) →
      List.Forall₂ (fun d key => Returns P store' key d) ds keys) ∧
    (HexKeyed store → NotText P (ds.map (chunks chunkSize.toNat)) →
      List.Forall₂ (fun d key => Returns P store' key d) ds keys →
      Apart P (ds.map (chunks chunkSize.toNat))) := by
  obtain ⟨rfl, rfl⟩ := uploadAll_eq_some hsize hup
  have hfiles : ∀ f ∈ ds.map (chunks chunkSize.toNat), f ≠ [] := by
    intro f hf
    obtain ⟨d, hd, rfl⟩ := List.mem_map.mp hf
    exact fun hnil => hne d hd ((chunks_eq_nil_iff hsize).mp hnil)
  rw [List.forall₂_map_right_iff, List.forall₂_same]
  constructor
  · intro hapart d hd
    have hlocal : downloadLocal (writeAll store _) _ = _ :=
      downloadLocal_of_apart hfiles hinj hapart (List.mem_map_of_mem hd)
    rw [flatten_chunks hsize] at hlocal
    exact returns_iff.mpr hlocal
  · intro hhex htext hreturns
    refine apart_of_downloadLocal hfiles hinj hhex htext fun f hf => ?_
    obtain ⟨d, hd, rfl⟩ := List.mem_map.mp hf
    rw [flatten_chunks hsize]
    exact returns_iff.mp (hreturns d hd)

namespace Sample

/-- The metafile of an empty file is stored as nil, and looked for at the peers. -/
theorem upload_download_counterexample :
    CollisionFree primitives [chunks 2 []] ∧ Apart primitives [chunks 2 []] ∧
      ¬ ∃ store' key, nodeUpload primitives 2 [] ∅ = some (store', key) ∧
        Returns primitives store' key [] := by
  refine ⟨by decide, by decide, ?_⟩
  rintro ⟨store', key, hup, hreturns⟩
  have hlocal : (nodeUpload primitives 2 [] ∅).map (fun r => downloadLocal r.1 r.2) =
      some none := by
    decide
  rw [hup, Option.map_some, returns_iff.mp hreturns] at hlocal
  cases hlocal

theorem upload_download_iff_piece :
    (∃ store' key, nodeUpload primitives 2 piece (BlobStore.set ∅ [] (some piece)) =
        some (store', key) ∧ Returns primitives store' key piece) ↔
      piece ≠ [] ∧ (2 : UInt64).toNat < 2 ^ 63 :=
  upload_download_iff primitives _ (by decide) piece (by decide) (by decide)

/-- A file, and a file that is the hash of its only chunk. -/
def overwriting : List Bytes := [piece, primitives.sha256 piece]

/-- The chunk of the second file takes the place of the metafile of the first. -/
theorem uploads_counterexample :
    CollisionFree primitives (overwriting.map (chunks 32)) ∧
      ∃ store' keys, uploadAll primitives 32 overwriting ∅ = some (store', keys) ∧
        ¬ List.Forall₂ (fun d key => Returns primitives store' key d) overwriting keys := by
  have hup : (uploadAll primitives 32 overwriting ∅).isSome := by decide
  have hlocal : (uploadAll primitives 32 overwriting ∅).map
      (fun r => r.2.head?.bind (downloadLocal r.1 ·)) = some none := by
    decide
  obtain ⟨⟨store', keys⟩, hup⟩ := Option.isSome_iff_exists.mp hup
  refine ⟨by decide, store', keys, hup, fun hreturns => ?_⟩
  rw [hup, Option.map_some] at hlocal
  cases hreturns with
  | cons hfirst _ =>
    rw [List.head?_cons, Option.bind_some, returns_iff.mp hfirst] at hlocal
    cases hlocal

def uploading : List Bytes := [piece, [4], piece]

theorem uploads_intact_uploading :
    ∃ store' keys, uploadAll primitives 2 uploading ∅ = some (store', keys) ∧
      List.Forall₂ (fun d key => Returns primitives store' key d) uploading keys ∧
      Apart primitives (uploading.map (chunks 2)) := by
  have hup : (uploadAll primitives 2 uploading ∅).isSome := by decide
  obtain ⟨⟨store', keys⟩, hup⟩ := Option.isSome_iff_exists.mp hup
  have hboth := uploads_intact primitives (by decide) (by decide) hup (by decide)
  have hreturns := hboth.1 (by decide)
  have hhex : HexKeyed ∅ := fun key hkey => absurd (BlobStore.get_empty key) hkey
  exact ⟨store', keys, hup, hreturns, hboth.2 hhex (by decide) hreturns⟩

end Sample

end JobPortal.Sharing
