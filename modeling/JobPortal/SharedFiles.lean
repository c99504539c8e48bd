import JobPortal.Catalogs

/-! Files that nodes get from each other. What is kept under a key anywhere is what was uploaded
under it, and what a search names is tagged and matches. -/
namespace JobPortal.Sharing

open Gossip Hex LastWrites Queues Runs Transport

variable {M : Type}

namespace SharingNetwork

/-- What belongs to every key and name, and what every request id stands for. -/
structure Meaning where
  content : Bytes → Bytes
  Named : String → Bytes → Prop
  keyOf : String → Bytes
  patternOf : String → String

variable {env : SharingEnv M} {g g' : SharingNetwork M} {n p d : String} {key : Bytes}
  {e : SharingEvent M} {μ : Meaning}

def Meaning.Fits (μ : Meaning) (key : Bytes) (value : Option Bytes) : Prop :=
  ∀ v, value = some v → v = μ.content key

/-- A file of a reply is tagged so, and matches what is searched for. -/
def Meaning.Hit (μ : Meaning) (env : SharingEnv M) (requestID : String) (info : FileInfo) : Prop :=
  μ.Named info.name info.metahash ∧
    ∃ reg, env.compile (μ.patternOf requestID) = some reg ∧ reg info.name = true

/-- Two uploads under one key are of one content, and an id stands for one request. -/
def Agreed (env : SharingEnv M) (μ : Meaning) (_ : SharingNetwork M) (e : SharingEvent M) : Prop :=
  match e.act with
  | .upload chunkSize data =>
    ∀ w ∈ uploadWrites env.primitives (chunks chunkSize data), μ.Fits w.1 w.2
  | .sendChunk _ msg => μ.Fits msg.chunkKey msg.chunk
  | .tag name metahash => μ.Named name metahash
  | .searchFile requestID pattern _ _ => pattern = μ.patternOf requestID
  | .request requestID key _ => key = μ.keyOf requestID
  | .reSendDataRequest _ => μ.keyOf "" = []
  | _ => True

instance (μ : Meaning) (key : Bytes) (value : Option Bytes) : Decidable (μ.Fits key value) :=
  inferInstanceAs (Decidable (∀ v ∈ value, v = μ.content key))

instance [∀ name key, Decidable (μ.Named name key)] (g : SharingNetwork M) (e : SharingEvent M) :
    Decidable (Agreed env μ g e) := by
  obtain ⟨addr, fresh, act⟩ := e
  cases_type SharingAct <;> dsimp only [Agreed] <;> infer_instance

/-- What a message carries has the meaning that its id, key and names have. -/
def Means (env : SharingEnv M) (μ : Meaning) : Parcel M → Prop
  | .searchRequest msg => msg.pattern = μ.patternOf msg.requestID
  | .searchReply msg => ∀ info ∈ msg.responses, μ.Hit env msg.requestID info
  | .dataRequest msg => msg.key = μ.keyOf msg.requestID
  | .dataReply msg => msg.key = μ.keyOf msg.requestID ∧ μ.Fits msg.key msg.value
  | .encryptedChunk msg => μ.Fits msg.chunkKey msg.chunk
  | _ => True

structure Genuine (env : SharingEnv M) (μ : Meaning) (g : SharingNetwork M) : Prop where
  blob : ∀ p key, μ.Fits key ((g.nodes p).blob.get key)
  naming : ∀ p name metahash, (g.nodes p).naming.lookup name = some metahash →
    μ.Named name metahash
  flights : ∀ f ∈ g.flights, Means env μ f.pkt.msg

theorem fits_writeAll {store : BlobStore} {ws : List (Bytes × Option Bytes)}
    (h : ∀ key, μ.Fits key (store.get key)) (hws : ∀ w ∈ ws, μ.Fits w.1 w.2) (key : Bytes) :
    μ.Fits key (BlobStore.get (writeAll store ws) key) := by
  have hkey := h key
  unfold BlobStore.get GoMap.at at hkey ⊢
  rw [lookup_writeAll]
  cases hlast : lastTo key ws with
  | none => exact hkey
  | some value => exact hws _ (mem_of_lastTo hlast)

theorem fits_set {store : BlobStore} {key : Bytes} {value : Option Bytes}
    (h : ∀ key, μ.Fits key (store.get key)) (hvalue : μ.Fits key value) (key' : Bytes) :
    μ.Fits key' ((store.set key value).get key') := by
  rw [BlobStore.get_set]
  split_ifs with hkey
  · exact hkey ▸ hvalue
  · exact h key'

theorem means_of_silent {parcel : Parcel M} (h : Silent parcel) : Means env μ parcel := by
  cases parcel with
  | rumors | status | other => trivial
  | _ => exact h.elim

theorem means_of_searches {requestID pattern : String} (hpattern : pattern = μ.patternOf requestID)
    {l : Letter M} (h : Searches requestID pattern l) : Means env μ l.parcel := by
  obtain ⟨msg, hmsg, rfl, rfl⟩ := h
  rw [hmsg]
  exact hpattern

theorem Genuine.put {fresh : ℕ → Fresh} {result : SharingNode M × List (Letter M)}
    (h : g.Genuine env μ) (hblob : ∀ key, μ.Fits key (result.1.blob.get key))
    (hnaming : ∀ name metahash, result.1.naming.lookup name = some metahash →
      μ.Named name metahash)
    (hletters : ∀ l ∈ result.2, Means env μ l.parcel) :
    (g.put d fresh result).Genuine env μ where
  blob p key := by
    by_cases hp : p = d
    · subst hp
      rw [nodes_put_self]
      exact hblob key
    · rw [nodes_put_of_ne hp]
      exact h.blob p key
  naming p name metahash hname := by
    by_cases hp : p = d
    · subst hp
      rw [nodes_put_self] at hname
      exact hnaming name metahash hname
    · rw [nodes_put_of_ne hp] at hname
      exact h.naming p name metahash hname
  flights f hf := by
    rcases mem_flights_put hf with hf | ⟨l, hl, id, rfl⟩
    · exact h.flights f hf
    · exact hletters l hl

theorem means_byRoute {s : SharingNode M} {dest : String} {parcel : Parcel M}
    (h : Means env μ parcel) : ∀ l ∈ s.byRoute dest parcel, Means env μ l.parcel := by
  intro l hl
  obtain ⟨_, _, rfl⟩ := Option.map_eq_some_iff.mp (Option.mem_toList.mp hl)
  exact h

theorem Genuine.act (h : g.Genuine env μ) (hok : Agreed env μ g e)
    {result : SharingNode M × List (Letter M)}
    (hresult : (g.nodes e.addr).act env e.act = some result) :
    (g.put e.addr e.fresh result).Genuine env μ := by
  have hblob := h.blob e.addr
  have hnaming := h.naming e.addr
  unfold Agreed at hok
  generalize e.act = a at hresult hok
  cases SharingNode.act_effect hresult with
  | quiet keeps silent =>
    exact h.put (keeps.blob ▸ hblob) (keeps.naming ▸ hnaming) fun l hl =>
      means_of_silent (silent l hl)
  | sendChunk =>
    refine h.put hblob hnaming fun l hl => ?_
    obtain rfl := List.mem_singleton.mp hl
    exact hok
  | upload => exact h.put (fits_writeAll hblob hok) hnaming nofun
  | @tag name metahash =>
    refine h.put hblob (fun name' metahash' hlookup => ?_) nofun
    have hlookup : ((g.nodes e.addr).naming.insert name metahash).lookup name' =
        some metahash' := hlookup
    by_cases hname : name' = name
    · subst hname
      rw [Finmap.lookup_insert] at hlookup
      exact Option.some.inj hlookup ▸ hok
    · rw [Finmap.lookup_insert_of_ne _ hname] at hlookup
      exact hnaming name' metahash' hlookup
  | updateCatalog => exact h.put hblob hnaming nofun
  | searchFile searches =>
    exact h.put hblob hnaming fun l hl => means_of_searches hok (searches l hl)
  | request mem => exact h.put hblob hnaming (means_byRoute hok)
  | reSendDataRequest => exact h.put hblob hnaming (means_byRoute hok.symm)

theorem Genuine.process (h : g.Genuine env μ) {f : Flight M} {choice : Choice}
    {result : SharingNode M × List (Letter M)} (mem : f ∈ g.flights)
    (hresult : (g.nodes d).process env f.header choice f.pkt.msg = some result) :
    (g.put d e.fresh result).Genuine env μ := by
  have hblob := h.blob d
  have hnaming := h.naming d
  have hmeans := h.flights f mem
  generalize f.pkt.msg = parcel at hresult hmeans
  cases SharingNode.process_effect hresult with
  | quiet keeps silent =>
    exact h.put (keeps.blob ▸ hblob) (keeps.naming ▸ hnaming) fun l hl =>
      means_of_silent (silent l hl)
  | @searchRequest msg m letters keeps _ searches =>
    refine h.put (keeps.blob ▸ hblob) (keeps.naming ▸ hnaming) fun l hl => ?_
    rcases List.mem_append.mp hl with hl | hl
    · exact means_of_searches hmeans (searches l hl)
    · obtain ⟨reply, hreply, rfl⟩ := List.mem_map.mp hl
      intro info hinfo
      obtain ⟨hname, hmatch, _⟩ := mem_searchReply (Option.mem_toList.mp hreply) hinfo
      have hid : reply.requestID = msg.requestID := by
        obtain ⟨_, _, rfl⟩ := Option.map_eq_some_iff.mp (Option.mem_toList.mp hreply)
        rfl
      rw [keeps.naming] at hname
      refine ⟨hnaming _ _ hname, ?_⟩
      rw [hid, ← hmeans]
      exact hmatch
  | searchReply =>
    obtain ⟨hsame, hnames, _⟩ := @execSearchReplyMessage_files M f.header.source (g.nodes d) ‹_›
    refine h.put (hsame ▸ hblob) (fun name metahash hlookup => ?_) nofun
    rcases hnames name metahash hlookup with ⟨info, hinfo, rfl, rfl⟩ | hold
    · exact (hmeans info hinfo).1
    · exact hnaming name metahash hold
  | dataRequest => exact h.put hblob hnaming (means_byRoute ⟨hmeans, hblob _⟩)
  | dataReply => exact h.put (fits_set hblob hmeans.2) hnaming nofun
  | encryptedChunk => exact h.put (fits_set hblob hmeans) hnaming nofun

theorem Genuine.step (h : g.Genuine env μ) (hok : Agreed env μ g e)
    (hstep : g.step env e = some g') : g'.Genuine env μ := by
  obtain ⟨_, heffect⟩ := step_effect hstep
  cases heffect with
  | process _ mem _ handled => exact h.process mem handled
  | act acts => exact h.act hok acts
  | @relay f _ _ _ _ mem =>
    refine ⟨h.blob, h.naming, fun f' hf' => ?_⟩
    rcases List.mem_append.mp hf' with hf' | hf'
    · exact h.flights f' hf'
    · obtain rfl := List.mem_singleton.mp hf'
      exact h.flights f mem

theorem genuine_start : (start : SharingNetwork M).Genuine env μ where
  blob p key v hv := by
    have hnone : BlobStore.get ∅ key = some v := hv
    rw [BlobStore.get_empty] at hnone
    cases hnone
  naming p name metahash h := by
    have hnone : (∅ : GoMap String Bytes).lookup name = some metahash := h
    rw [Finmap.lookup_empty] at hnone
    cases hnone
  flights _ hf := nomatch hf

theorem genuine_of_run {es : List (SharingEvent M)} (h : Run (step env) (Agreed env μ) start es g) :
    g.Genuine env μ :=
  h.invariant (I := Genuine env μ) genuine_start fun hg hok hstep => hg.step hok hstep

section Downloads

variable {es : List (SharingEvent M)}

/-- What users do is honest, and means one thing. -/
def WellUsed (env : SharingEnv M) (μ : Meaning) (g : SharingNetwork M)
    (e : SharingEvent M) : Prop :=
  g.Honest e ∧ Agreed env μ g e

instance [∀ name key, Decidable (μ.Named name key)] (g : SharingNetwork M) (e : SharingEvent M) :
    Decidable (WellUsed env μ g e) := inferInstanceAs (Decidable (_ ∧ _))

/-- A call of `FetchFile` can return the value at a point of the run: the store holds it, or it is
the answer to a request for the key. -/
def FetchedAt (μ : Meaning) (g : SharingNetwork M) (n : String) (key : Bytes)
    (value : Option Bytes) : Prop :=
  (value ≠ none ∧ (g.nodes n).blob.get key = value) ∨
    ∃ f ∈ g.flights, f.addr = n ∧ f.header.destination = n ∧ ∃ msg,
      f.pkt.msg = .dataReply msg ∧ μ.keyOf msg.requestID = key ∧ msg.value = value

theorem fetchedAt_content (h : Run (step env) (WellUsed env μ) start es g) {value : Option Bytes}
    (hne : key ≠ []) (hfetched : g.FetchedAt μ n key value) : value = some (μ.content key) := by
  have hgenuine := genuine_of_run (h.imp fun _ _ hok => hok.2)
  have htrue := truthful_of_run (h.imp fun _ _ hok => hok.1)
  rcases hfetched with ⟨hvalue, hheld⟩ | ⟨f, hf, _, _, msg, hmsg, hkey, hvalue⟩
  · obtain ⟨v, rfl⟩ := Option.ne_none_iff_exists'.mp hvalue
    rw [hgenuine.blob n key v hheld]
  · have hmeans := hgenuine.flights f hf
    have hsome := htrue.flights f hf
    rw [hmsg] at hmeans hsome
    obtain ⟨v, hv⟩ := Option.ne_none_iff_exists'.mp (hsome (by rwa [hmeans.1, hkey]))
    rw [← hvalue, hv, hmeans.2 v hv, hmeans.1, hkey]

def Fetched (env : SharingEnv M) (μ : Meaning) (es : List (SharingEvent M)) (n : String)
    (key : Bytes) (value : Option Bytes) : Prop :=
  ∃ es₁ es₂ g, es = es₁ ++ es₂ ∧ AnyRun (step env) start es₁ g ∧ g.FetchedAt μ n key value

/-- What `Download` returns when its calls of `FetchFile` return at points of the run. -/
def Downloads (env : SharingEnv M) (μ : Meaning) (es : List (SharingEvent M)) (n : String)
    (metahash file : Bytes) : Prop :=
  ∃ metafile values, Fetched env μ es n metahash metafile ∧
    List.Forall₂ (Fetched env μ es n) (splitKeys (metafile.getD [])) values ∧
    (values.map fun value => value.getD []).flatten = file

theorem fetched_content (h : Run (step env) (WellUsed env μ) start es g) {value : Option Bytes}
    (hne : key ≠ []) (hfetched : Fetched env μ es n key value) :
    value = some (μ.content key) := by
  obtain ⟨es₁, es₂, g₁, rfl, hrun, hat⟩ := hfetched
  exact fetchedAt_content (h.first_of_append hrun) hne hat

/-- What a node uploads is meant by the keys that it is kept under. -/
theorem content_of_upload (h : Run (step env) (WellUsed env μ) start es g) {chunkSize : ℕ}
    {data : Bytes} (huploaded : ∃ e ∈ es, e.act = .upload chunkSize data) :
    1 ≤ chunkSize ∧ chunks chunkSize data ≠ [] ∧
      ∀ w ∈ uploadWrites env.primitives (chunks chunkSize data), μ.Fits w.1 w.2 := by
  obtain ⟨e, he, hact⟩ := huploaded
  obtain ⟨before, after, hok, hstep⟩ := h.exists_step he
  have hdata : data ≠ [] := by
    have hhonest := hok.1.2
    rwa [hact] at hhonest
  have hsize : 1 ≤ chunkSize := by
    obtain ⟨_, heffect⟩ := step_effect hstep
    cases heffect with
    | process arrives | relay arrives =>
      rw [hact] at arrives
      cases arrives
    | act acts =>
      rw [hact] at acts
      obtain ⟨_, hstore, _⟩ := Option.map_eq_some_iff.mp acts
      exact (upload_writes hstore).2.resolve_right hdata
  refine ⟨hsize, fun hnil => hdata ((chunks_eq_nil_iff hsize).mp hnil), ?_⟩
  have hagreed := hok.2
  rwa [Agreed, hact] at hagreed

/-- What has been uploaded anywhere is what is downloaded anywhere. -/
theorem downloads_uploaded (h : Run (step env) (WellUsed env μ) start es g) {chunkSize : ℕ}
    {data file : Bytes} (huploaded : ∃ e ∈ es, e.act = .upload chunkSize data)
    (hdownloads : Downloads env μ es n (metahash env.primitives (chunks chunkSize data)) file) :
    file = data := by
  obtain ⟨hsize, hne, hfits⟩ := content_of_upload h huploaded
  obtain ⟨metafile, values, hmeta, hvalues, rfl⟩ := hdownloads
  generalize hpieces : chunks chunkSize data = pieces at hne hfits hmeta
  have hlast := hfits _ (List.mem_append_right _ (List.mem_singleton_self _))
  dsimp only at hlast
  rw [if_neg hne] at hlast
  have hkey : metahash env.primitives pieces ≠ [] := hexKey_sha256_ne_nil _ _
  obtain rfl := fetched_content h hkey hmeta
  rw [← hlast _ rfl, Option.getD_some, splitKeys_metafile env.primitives hne] at hvalues
  have hall : ∀ {ps : List Bytes} {values : List (Option Bytes)}, (∀ piece ∈ ps, piece ∈ pieces) →
      List.Forall₂ (Fetched env μ es n)
        (ps.map fun piece => hexKey (env.primitives.sha256 piece)) values →
      values.map (fun value => value.getD []) = ps := by
    intro ps
    induction ps with
    | nil =>
      intro values _ hvalues
      cases hvalues
      rfl
    | cons piece ps ih =>
      intro values hmem hvalues
      cases hvalues with
      | cons hfirst hrest =>
        have hpiece := hfits (hexKey (env.primitives.sha256 piece), some piece)
          (List.mem_append_left _ (List.mem_map_of_mem (hmem piece List.mem_cons_self)))
        rw [List.map_cons, fetched_content h (hexKey_sha256_ne_nil _ _) hfirst, ← hpiece piece rfl,
          ih (fun q hq => hmem q (List.mem_cons_of_mem _ hq)) hrest]
        rfl
  rw [hall (fun _ hp => hp) hvalues, ← hpieces, flatten_chunks hsize]

/-- A search at `n` comes upon a name at a point of the run: it matches one of the node's own names,
or a reply to the search has come in that names it. -/
def Finds (env : SharingEnv M) (μ : Meaning) (es : List (SharingEvent M))
    (n requestID name : String) : Prop :=
  ∃ es₁ es₂ g, es = es₁ ++ es₂ ∧ AnyRun (step env) start es₁ g ∧
    ((∃ reg, env.compile (μ.patternOf requestID) = some reg ∧ reg name = true ∧
        name ∈ (g.nodes n).naming) ∨
      ∃ f ∈ g.flights, f.addr = n ∧ f.header.destination = n ∧ ∃ msg,
        f.pkt.msg = .searchReply msg ∧ msg.requestID = requestID ∧
        ∃ info ∈ msg.responses, info.name = name)

/-- A search comes upon names only that match its pattern and that somebody has tagged. -/
theorem finds_tagged (h : Run (step env) (Agreed env μ) start es g) {requestID name : String}
    (hfinds : Finds env μ es n requestID name) :
    (∃ reg, env.compile (μ.patternOf requestID) = some reg ∧ reg name = true) ∧
      ∃ metahash, μ.Named name metahash := by
  obtain ⟨es₁, es₂, g₁, rfl, hrun, hat⟩ := hfinds
  have hgenuine := genuine_of_run (h.first_of_append hrun)
  rcases hat with ⟨reg, hreg, hmatch, hname⟩ | ⟨f, hf, _, _, msg, hmsg, rfl, info, hinfo, rfl⟩
  · obtain ⟨metahash, hlookup⟩ := Option.isSome_iff_exists.mp (Finmap.lookup_isSome.mpr hname)
    exact ⟨⟨reg, hreg, hmatch⟩, metahash, hgenuine.naming n name metahash hlookup⟩
  · have hmeans := hgenuine.flights f hf
    rw [hmsg] at hmeans
    exact ⟨(hmeans info hinfo).2, info.metahash, (hmeans info hinfo).1⟩

end Downloads

end SharingNetwork

namespace Sample

open SharingNetwork

def meaning : Meaning where
  content key := if key = metahash primitives [piece] then metafile primitives [piece] else piece
  Named name key := name = "cv" ∧ key = metahash primitives [piece]
  keyOf id :=
    if id = "s" then metahash primitives [piece]
    else if id = "t" then hexKey (primitives.sha256 piece) else []
  patternOf _ := "cv"

instance (name : String) (key : Bytes) : Decidable (meaning.Named name key) :=
  inferInstanceAs (Decidable (_ ∧ _))

theorem agreed_isSome :
    (exec (guarded (step env) (WellUsed env meaning)) start found).isSome := by decide

def agreed : SharingNetwork String :=
  (exec (guarded (step env) (WellUsed env meaning)) start found).get agreed_isSome

theorem run_agreed : Run (step env) (WellUsed env meaning) start found agreed :=
  run_of_guarded (run_exec_get agreed_isSome)

def gets : List (SharingEvent String) :=
  fetched ++ [does "A" (.request "t" (hexKey (primitives.sha256 piece)) "B"),
    does "B" (.arrive 6 {}), does "A" (.arrive 7 {})]

theorem gets_isSome :
    (exec (guarded (step env) (WellUsed env meaning)) agreed gets).isSome := by decide

theorem run_gets : Run (step env) (WellUsed env meaning) start (found ++ gets)
    ((exec (guarded (step env) (WellUsed env meaning)) agreed gets).get gets_isSome) :=
  run_agreed.append (run_of_guarded (run_exec_get gets_isSome))

theorem downloads_gets : Downloads env meaning (found ++ gets) "A"
    (metahash env.primitives (chunks 3 piece)) [1, 2, 3] := by
  have hpoint : ∀ key value, FetchedAt meaning
        ((exec (guarded (step env) (WellUsed env meaning)) agreed gets).get gets_isSome) "A" key
        value → Fetched env meaning (found ++ gets) "A" key value := fun key value hat =>
    ⟨_, [], _, (List.append_nil _).symm, run_gets.forget, hat⟩
  refine ⟨some (metafile primitives [piece]), [some piece], hpoint _ _ (.inl (by decide)), ?_, rfl⟩
  exact .cons (hpoint _ _ (.inl (by decide))) .nil

theorem downloads_uploaded_gets : [1, 2, 3] = piece :=
  downloads_uploaded run_gets ⟨_, List.mem_cons_self, rfl⟩ downloads_gets

theorem finds_tagged_found :
    (∃ reg, env.compile (meaning.patternOf "r") = some reg ∧ reg "cv" = true) ∧
      ∃ metahash, meaning.Named "cv" metahash := by
  have hfinds : Finds env meaning found "A" "r" "cv" :=
    ⟨_, [], _, (List.append_nil _).symm, run_agreed.forget, .inl ⟨_, rfl, rfl, by decide⟩⟩
  exact finds_tagged (run_agreed.imp fun _ _ hok => hok.2) hfinds

end Sample

end JobPortal.Sharing
