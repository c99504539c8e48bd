import JobPortal.PbftTypes

/-! The blob store of a node, and the files that are cut into chunks and kept in it under the
hashes of what they hold. -/
namespace JobPortal.Sharing

open Hex

def metafileSep : UInt8 := 10

/-- Keys are Go strings, which may hold any bytes; a stored value may be nil. -/
abbrev BlobStore := GoMap Bytes (Option Bytes)

namespace BlobStore

def get (store : BlobStore) (key : Bytes) : Option Bytes := store.at key none

def set (store : BlobStore) (key : Bytes) (val : Option Bytes) : BlobStore := store.insert key val

@[simp] theorem get_empty (key : Bytes) : get ∅ key = none := by
  rw [get, GoMap.at, Finmap.lookup_empty, Option.getD_none]

theorem get_set (store : BlobStore) (key key' : Bytes) (val : Option Bytes) :
    (store.set key val).get key' = if key' = key then val else store.get key' :=
  GoMap.at_insert _ _ _ _ _

@[simp] theorem get_set_self (store : BlobStore) (key : Bytes) (val : Option Bytes) :
    (store.set key val).get key = val := by
  rw [get_set, if_pos rfl]

end BlobStore

def splitKeys (metafile : Bytes) : List Bytes := metafile.splitOn metafileSep

/-- The digits of an even number of hexadecimal digits, in either case. -/
def decodeHex : Bytes → Option Bytes
  | [] => some []
  | [_] => none
  | a :: b :: cs =>
    (fromHexChar a).bind fun x => (fromHexChar b).bind fun y =>
      (decodeHex cs).map fun rest => UInt8.ofNat (16 * x + y) :: rest

theorem decodeHex_encode (bs : Bytes) :
    decodeHex ((bs.flatMap encodeByte).flatMap String.utf8EncodeChar) = some bs := by
  induction bs with
  | nil => rfl
  | cons b bs ih =>
    obtain ⟨hi, lo, x, y, hdigits, hhi, hlo, hbyte⟩ := utf8_encodeByte b
    rw [List.flatMap_cons, List.flatMap_append, hdigits]
    simp only [List.cons_append, List.nil_append, decodeHex, hhi, hlo, Option.bind_some, ih,
      Option.map_some, hbyte]

def hexKey (hash : Bytes) : Bytes := utf8 (encodeToString hash)

@[simp] theorem decodeHex_hexKey (hash : Bytes) : decodeHex (hexKey hash) = some hash := by
  rw [hexKey, encodeToString, utf8_ofList, decodeHex_encode]

theorem hexKey_injective : Function.Injective hexKey :=
  utf8_injective.comp encodeToString_injective

variable (P : Primitives)

def IsChunk (key value : Bytes) : Prop := hexKey (P.sha256 value) = key

/-- The value lists hashes that together hash to the key. -/
def IsMetafile (key value : Bytes) : Prop :=
  ∃ hashes ∈ (splitKeys value).mapM decodeHex, hexKey (P.sha256 hashes.flatten) = key

instance (key value : Bytes) : Decidable (IsChunk P key value) :=
  inferInstanceAs (Decidable (_ = _))

instance (key value : Bytes) : Decidable (IsMetafile P key value) :=
  inferInstanceAs (Decidable (∃ _ ∈ (splitKeys value).mapM decodeHex, _))

def ContentAddressed (store : BlobStore) : Prop :=
  ∀ key value, store.get key = some value → IsChunk P key value ∨ IsMetafile P key value

theorem contentAddressed_empty : ContentAddressed P ∅ := by
  intro key value h
  rw [BlobStore.get_empty] at h
  cases h

variable {P} in
theorem ContentAddressed.set {store : BlobStore} (h : ContentAddressed P store) {key : Bytes}
    {val : Option Bytes}
    (hval : ∀ value, val = some value → IsChunk P key value ∨ IsMetafile P key value) :
    ContentAddressed P (store.set key val) := by
  intro key' value hget
  rw [BlobStore.get_set] at hget
  split_ifs at hget with hkey
  · subst hkey
    exact hval value hget
  · exact h key' value hget

/-- The pieces `Upload` cuts a file into. Every piece but the last has the chunk size. -/
def cut (chunkSize : ℕ) : ℕ → Bytes → List Bytes
  | 0, _ => []
  | fuel + 1, buf =>
    if buf = [] then [] else buf.take chunkSize :: cut chunkSize fuel (buf.drop chunkSize)

def chunks (chunkSize : ℕ) (data : Bytes) : List Bytes := cut chunkSize data.length data

def metafile (pieces : List Bytes) : Bytes :=
  [metafileSep].intercalate (pieces.map fun piece => hexKey (P.sha256 piece))

def storeChunks (store : BlobStore) (pieces : List Bytes) : BlobStore :=
  pieces.foldl (fun store piece => store.set (hexKey (P.sha256 piece)) (some piece)) store

def metahash (pieces : List Bytes) : Bytes :=
  hexKey (P.sha256 (pieces.map P.sha256).flatten)

/-- The metafile of an empty file is the nil slice of an unwritten buffer. There is no result where
the loop does not come to an end. -/
def upload (chunkSize : ℕ) (data : Bytes) (store : BlobStore) : Option (BlobStore × Bytes) :=
  if chunkSize = 0 ∧ data ≠ [] then none
  else
    let pieces := chunks chunkSize data
    let value := if pieces = [] then none else some (metafile P pieces)
    some ((storeChunks P store pieces).set (metahash P pieces) value, metahash P pieces)

theorem sep_notMem_hexKey (hash : Bytes) : metafileSep ∉ hexKey hash := by
  rw [hexKey, encodeToString, utf8_ofList, List.mem_flatMap]
  rintro ⟨c, hc, hsep⟩
  obtain ⟨b, _, hdigit⟩ := List.mem_flatMap.mp hc
  have hb := b.toNat_lt
  have hlit : ∀ n < 16, metafileSep ∉ String.utf8EncodeChar (Nat.digitChar n) := by decide
  rcases List.mem_cons.mp hdigit with rfl | hlow
  · exact hlit _ (by omega) hsep
  · obtain rfl := List.mem_singleton.mp hlow
    exact hlit _ (by omega) hsep

theorem splitKeys_metafile {pieces : List Bytes} (hne : pieces ≠ []) :
    splitKeys (metafile P pieces) = pieces.map fun piece => hexKey (P.sha256 piece) := by
  apply List.splitOn_intercalate
  · intro line hline
    obtain ⟨piece, _, rfl⟩ := List.mem_map.mp hline
    exact sep_notMem_hexKey _
  · rwa [Ne, List.map_eq_nil_iff]

theorem isMetafile_metafile {pieces : List Bytes} (hne : pieces ≠ []) :
    IsMetafile P (metahash P pieces) (metafile P pieces) := by
  refine ⟨pieces.map P.sha256, ?_, rfl⟩
  have hdecode : decodeHex ∘ (fun piece => hexKey (P.sha256 piece)) =
      fun piece => pure (P.sha256 piece) := funext fun piece => decodeHex_hexKey _
  rw [splitKeys_metafile P hne, List.mapM_map, hdecode, List.mapM_pure]
  rfl

variable {P} in
theorem ContentAddressed.storeChunks {store : BlobStore} (h : ContentAddressed P store)
    (pieces : List Bytes) : ContentAddressed P (storeChunks P store pieces) := by
  induction pieces generalizing store with
  | nil => exact h
  | cons piece pieces ih =>
    apply ih
    apply h.set
    rintro value ⟨⟩
    exact .inl rfl

variable {P} in
/-- What `Upload` writes is keyed by what it is. -/
theorem ContentAddressed.upload {store store' : BlobStore} (h : ContentAddressed P store)
    {chunkSize : ℕ} {data key : Bytes}
    (hup : upload P chunkSize data store = some (store', key)) : ContentAddressed P store' := by
  unfold Sharing.upload at hup
  split_ifs at hup
  obtain ⟨rfl, -⟩ := Prod.mk.inj (Option.some.inj hup)
  apply (h.storeChunks _).set
  intro value hvalue
  split_ifs at hvalue with hne
  obtain rfl := Option.some.inj hvalue
  exact .inr (isMetafile_metafile P hne)

def getAllChunkHash (store : BlobStore) (metahash : Bytes) : Option (List (Option Bytes)) :=
  (store.get metahash).map fun fileChunks =>
    (splitKeys fileChunks).map fun chunkKey => (store.get chunkKey).map fun _ => chunkKey

end JobPortal.Sharing
