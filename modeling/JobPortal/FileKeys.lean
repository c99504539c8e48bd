import JobPortal.FileService

/-! Whose keys the HRs get. All that an HR makes a key of comes from nodes that answered one of its
requests, and as long as it asks for one file the key is the one its applicant has announced. -/
namespace JobPortal.Cothority

open Encryption Goroutines Hex Polynomial Runs SecretSharing

namespace SafeShareTable

variable {E : Type} {unmarshal : Bytes → E} {num : ℕ} {t t' : SafeShareTable E}

theorem exists_holds_set (h : ∃ sent, t.Holds unmarshal num sent) {i : ℕ} (hi : i < num) {v : Bytes}
    (hset : t.set unmarshal i v = some t') : ∃ sent, t'.Holds unmarshal num sent := by
  obtain ⟨sent, hholds⟩ := h
  rcases set_cases hset with ⟨_, rfl⟩ | ⟨hnew, _⟩
  · exact ⟨sent, hholds⟩
  · have hother : ∀ j w, t.shareTable.lookup j = some w → j ≠ i := by
      rintro j w hw rfl
      exact hnew (.inr (Finmap.mem_of_lookup_eq_some hw))
    have hupdated : t.Holds unmarshal num (Function.update sent i v) := by
      refine { hholds with entries := fun j w hw => ?_ }
      rw [Function.update_of_ne (hother j w hw)]
      exact hholds.entries j w hw
    obtain ⟨t'', hset', hholds', _⟩ := hupdated.set hi
    rw [Function.update_self, hset] at hset'
    obtain rfl := Option.some.inj hset'
    exact ⟨_, hholds'⟩

theorem num_of_set {i : ℕ} {v : Bytes} (h : t.set unmarshal i v = some t') : t'.num = t.num := by
  unfold set at h
  dsimp only at h
  split_ifs at h
  · rw [← Option.some.inj h]
  · rw [← Option.some.inj h]
  · obtain ⟨shares, _, rfl⟩ := Option.map_eq_some_iff.mp h
    rfl
  · rw [← Option.some.inj h]

theorem Holds.clean {sent : ℕ → Bytes} (h : t.Holds unmarshal num sent) (hnum : t.num = num) :
    t.clean.Holds unmarshal num sent := by
  have hclean : t.clean = newSafeShareTable num := by
    obtain ⟨table, threshold, shares, n⟩ := t
    obtain rfl : threshold = shareThreshold num := h.threshold
    obtain rfl : n = num := hnum
    rfl
  rw [hclean]
  exact holds_new unmarshal num sent

end SafeShareTable

section

variable {E : Type}

/-- Shares of as many nodes as are needed, at their indices. -/
def Complete (num : ℕ) (shares : List (Option (PubShare E))) : Prop :=
  ∃ (s : Finset ℕ) (w : ℕ → E), (∀ i ∈ s, i < num) ∧ s.card = shareThreshold num ∧
    shares = (List.range num).map fun i => if i ∈ s then some ⟨i, w i⟩ else none

theorem complete_of_holds {unmarshal : Bytes → E} {num : ℕ} {t : SafeShareTable E}
    {sent : ℕ → Bytes} (h : t.Holds unmarshal num sent) {shares : List (Option (PubShare E))}
    (hget : t.get = some shares) : Complete num shares := by
  obtain ⟨henough, rfl⟩ := SafeShareTable.get_eq_some hget
  refine ⟨t.shareTable.keys, fun i => unmarshal (sent i), fun i hi => h.lt hi, ?_, ?_⟩
  · rw [← h.threshold]
    exact Nat.le_antisymm h.card_le henough
  · rw [h.shares, if_pos henough]
    apply List.map_congr_left
    intro i _
    cases hi : t.shareTable.lookup i with
    | none =>
      have hnone : i ∉ t.shareTable.keys := mt Finmap.mem_keys.mp (Finmap.lookup_eq_none.mp hi)
      rw [if_neg hnone]
      rfl
    | some v =>
      rw [if_pos (mem_keys_iff.mpr ⟨v, hi⟩), (h.entries i v hi).2]
      rfl

theorem Complete.some_mem {num : ℕ} {s : Finset ℕ} {w : ℕ → E} (hs : ∀ i ∈ s, i < num) {i : ℕ}
    (hi : i ∈ s) : some (PubShare.mk i (w i)) ∈
      (List.range num).map fun i => if i ∈ s then some (PubShare.mk i (w i)) else none :=
  List.mem_map.mpr ⟨i, List.mem_range.mpr (hs i hi), if_pos hi⟩

theorem HR.asked_subset_of_step {unmarshal : Bytes → E} {h h' : HR E} {e : HREvent}
    (hstep : h.step unmarshal e = some h') : h.asked ⊆ h'.asked := by
  cases step_effect hstep with
  | download => exact List.subset_append_left _ _
  | _ => exact List.Subset.refl _

end

variable {l : ℕ} [Fact l.Prime] {E : Type} [AddCommGroup E] [Module (ZMod l) E]

namespace ServiceEnv

variable (env : ServiceEnv l E)

/-- The shares are values of a polynomial whose value at 0 is the secret, of a degree below the
threshold. -/
def Dealt : Prop :=
  env.num < l ∧ ∃ f : (ZMod l)[X], f.degree < shareThreshold env.num ∧ f.eval 0 = env.secret ∧
    ∀ i < env.num, f.eval ((i + 1 : ℕ) : ZMod l) = env.share i

/-- An answer to the HR at an address: the node has used its share, the HR's key and the file that
was announced. -/
structure Authentic (announced : List EncryptedFileMessage) (addr : String)
    (m : ResponseFileMessage) : Prop where
  file : ∃ f ∈ announced, f.id = m.metaFileID ∧ f.c = m.c ∧
    m.v = env.kyber.partialDecryption (env.share m.i) f.u (env.hrKey addr)
  index : m.i < env.num
  key : m.a = some env.pubKey

variable {env}

theorem Authentic.mono {announced announced' : List EncryptedFileMessage} {addr : String}
    {m : ResponseFileMessage} (h : env.Authentic announced addr m)
    (hsub : announced ⊆ announced') : env.Authentic announced' addr m := by
  obtain ⟨f, hf, hfile⟩ := h.file
  exact { h with file := ⟨f, hsub hf, hfile⟩ }

/-- The shares of enough nodes bring back what the applicant has encrypted. -/
theorem decryptedPoint_of_shares (hdealt : env.Dealt) (hround : env.kyber.RoundTrip)
    (hrecover : env.kyber.RecoversCommit l) {t : SafeShareTable E}
    (ht : t.threshold = shareThreshold env.num) {s : Finset ℕ} {w : ℕ → E}
    (hs : ∀ i ∈ s, i < env.num) (hcard : s.card = shareThreshold env.num) {addr : String}
    {f : EncryptedFileMessage} {id : String} {key : FileKey} {r : ZMod l} {random : Bytes}
    (hf : f = env.encryptedFile id key r random)
    (hw : ∀ i ∈ s, w i = env.kyber.unmarshal
      (env.kyber.partialDecryption (env.share i) f.u (env.hrKey addr))) :
    env.kyber.decryptedPoint t
      ((List.range env.num).map fun i => if i ∈ s then some ⟨i, w i⟩ else none)
      (env.hr addr).priKey (f.c.getD []) env.pubKey = some (env.embed key random) := by
  obtain ⟨hnum, p, hdegree, hsecret, hshare⟩ := hdealt
  have hinj := Kyber.injOn_succ hnum hs
  have hdeg : p.degree < s.card := by rwa [hcard]
  have hshares : ∀ i ∈ s, w i = ((fun i : ℕ => p.eval ((i + 1 : ℕ) : ZMod l) • r • env.kyber.base) +
      fun i : ℕ => p.eval ((i + 1 : ℕ) : ZMod l) • (env.hr addr).priKey • env.kyber.base) i := by
    intro i hi
    subst hf
    rw [hw i hi, ← hshare i (hs i hi), Kyber.partialDecryption, hround, encryptedFile,
      Kyber.encryptKey, hrKey, hround, hround]
    rfl
  rw [Kyber.decryptedPoint, List.length_map, List.length_range, ht, ← hcard,
    hrecover s w env.num hs, recover_congr hshares, recover_add, recover_smul hinj hdeg,
    recover_smul hinj hdeg, Option.map_some]
  subst hf
  have hread : ∀ p, env.kyber.unmarshal (env.kyber.marshal p) = p := hround
  simp only [encryptedFile, Kyber.encryptKey, Option.getD_some, pubKey, hread, hsecret]
  rw [smul_comm env.secret r, smul_comm env.secret (env.hr addr).priKey, add_sub_cancel_right,
    add_sub_cancel_left]

end ServiceEnv

variable {env : ServiceEnv l E} {announced announced' : List EncryptedFileMessage}
  {requested requested' : List RequestFileMessage}

/-- What a request has found is of an announced file, and so is what it is answered. -/
def RequestPC.Right (env : ServiceEnv l E) (announced : List EncryptedFileMessage) (i : ℕ)
    (m : RequestFileMessage) : RequestPC → Prop
  | .found data | .unlocked data => ⟨m.metaFileID, data.c, data.u⟩ ∈ announced
  | .answered response => response.i = i ∧ response.metaFileID = m.metaFileID ∧
      env.Authentic announced m.address response
  | _ => True

theorem RequestPC.Right.mono {i : ℕ} {m : RequestFileMessage} {pc : RequestPC}
    (h : pc.Right env announced i m) (hsub : announced ⊆ announced') :
    pc.Right env announced' i m := by
  cases pc with
  | found | unlocked => exact hsub h
  | answered => exact ⟨h.1, h.2.1, ServiceEnv.Authentic.mono h.2.2 hsub⟩
  | _ => trivial

namespace FileNode

/-- A node with its share and the common key that knows of announced files and requests only. -/
structure Served (env : ServiceEnv l E) (announced : List EncryptedFileMessage)
    (requested : List RequestFileMessage) (i : ℕ) (n : FileNode (ZMod l)) : Prop where
  index : n.index = i
  method : n.signMethod = env.signMethod
  secrets : n.hrSecretTable = env.hrSecretTable
  share : n.priShare = some (env.share i)
  key : n.pubKey = env.pubKey
  files : ∀ f ∈ n.files, f.1 ∈ announced
  table : ∀ id data, n.dataTable.lookup id = some data → ⟨id, data.c, data.u⟩ ∈ announced
  requests : ∀ r ∈ n.requests, r.1 ∈ requested ∧ r.2.Right env announced i r.1

variable {n u : FileNode (ZMod l)} {i : ℕ}

theorem Served.mono (h : n.Served env announced requested i) (hsub : announced ⊆ announced')
    (hreq : requested ⊆ requested') : n.Served env announced' requested' i where
  index := h.index
  method := h.method
  secrets := h.secrets
  share := h.share
  key := h.key
  files f hf := hsub (h.files f hf)
  table id data hdata := hsub (h.table id data hdata)
  requests r hr := ⟨hreq (h.requests r hr).1, (h.requests r hr).2.mono hsub⟩

theorem Served.goOn (h : n.Served env announced requested i) {j : ℕ} {m : RequestFileMessage}
    {pc pc' : RequestPC} (hj : n.requests[j]? = some (m, pc)) (hpc : pc'.Right env announced i m) :
    (n.goOn j m pc').Served env announced requested i := by
  refine { h with requests := fun r hr => ?_ }
  rcases List.mem_or_eq_of_mem_set hr with hr | rfl
  · exact h.requests r hr
  · exact ⟨(h.requests _ (List.mem_of_getElem? hj)).1, hpc⟩

theorem Served.goOnFile (h : n.Served env announced requested i) {j : ℕ} {m : EncryptedFileMessage}
    {pc pc' : FilePC} (hj : n.files[j]? = some (m, pc)) :
    (n.goOnFile j m pc').Served env announced requested i := by
  refine { h with files := fun f hf => ?_ }
  rcases List.mem_or_eq_of_mem_set hf with hf | rfl
  · exact h.files f hf
  · exact h.files (m, pc) (List.mem_of_getElem? hj)

theorem Served.step (h : n.Served env announced requested i) (hi : i < env.num)
    (hkeys : ∀ m ∈ requested, m.pubKey = env.hrKey m.address) {e : FileEvent}
    (hfile : ∀ m, e = .encryptedFile m → m ∈ announced)
    (hrequest : ∀ m, e = .request m → m ∈ requested)
    (hstep : n.step env.requestPrimitives e = some u) : u.Served env announced requested i := by
  cases step_effect hstep with
  | request m =>
    refine { h with requests := fun r hr => ?_ }
    rcases List.mem_append.mp hr with hr | hr
    · exact h.requests r hr
    · obtain rfl := List.mem_singleton.mp hr
      exact ⟨hrequest m rfl, trivial⟩
  | authenticate hj =>
    refine h.goOn hj ?_
    split_ifs <;> trivial
  | recorded hj => exact h.goOn hj trivial
  | rLock hj => exact h.goOn hj trivial
  | read hj hdata => exact h.goOn hj (h.table _ _ hdata)
  | poll => exact h
  | rUnlock hj => exact h.goOn hj (h.requests _ (List.mem_of_getElem? hj)).2
  | @answer j m data share hj hshare =>
    obtain ⟨hm, hdata⟩ := h.requests _ (List.mem_of_getElem? hj)
    rw [h.share] at hshare
    obtain rfl := Option.some.inj hshare
    refine h.goOn hj ⟨h.index, rfl, ⟨_, hdata, rfl, rfl, ?_⟩, ?_, congrArg some h.key⟩
    · rw [← hkeys m hm, response, h.index]
      rfl
    · rw [response, h.index]
      exact hi
  | encryptedFile m =>
    refine { h with files := fun f hf => ?_ }
    rcases List.mem_append.mp hf with hf | hf
    · exact h.files f hf
    · obtain rfl := List.mem_singleton.mp hf
      exact hfile m rfl
  | lock hj => exact h.goOnFile hj
  | acquire hj => exact h.goOnFile hj
  | @write j m hj =>
    have hmoved : (n.goOnFile j m .written).Served env announced requested i := h.goOnFile hj
    refine { hmoved with table := fun id data hdata => ?_ }
    by_cases hid : id = m.id
    · subst hid
      rw [Finmap.lookup_insert] at hdata
      obtain rfl := Option.some.inj hdata
      exact h.files _ (List.mem_of_getElem? hj)
    · rw [Finmap.lookup_insert_of_ne _ hid] at hdata
      exact h.table id data hdata
  | unlock hj => exact h.goOnFile hj

end FileNode

structure Decryption.Heard (env : ServiceEnv l E) (announced : List EncryptedFileMessage)
    (addr : String) (d : Decryption E) : Prop where
  acFrom : ∀ m ∈ d.acFrom, env.Authentic announced addr m
  sharesFrom : ∀ (i : ℕ) (m : ResponseFileMessage), d.sharesFrom.lookup i = some m →
    m.i = i ∧ env.Authentic announced addr m
  complete : Complete env.num d.shares

namespace HR

structure Heard (env : ServiceEnv l E) (announced : List EncryptedFileMessage) (addr : String)
    (h : HR E) : Prop where
  table : ∃ sent, h.shareTable.Holds env.kyber.unmarshal env.num sent
  num : h.shareTable.num = env.num
  responses : ∀ r ∈ h.responses, env.Authentic announced addr r.msg
  acFrom : ∀ m ∈ h.acFrom, env.Authentic announced addr m
  sharesFrom : ∀ (i : ℕ) (m : ResponseFileMessage), h.sharesFrom.lookup i = some m →
    m.i = i ∧ env.Authentic announced addr m
  decryptions : ∀ d ∈ h.decryptions, d.Heard env announced addr

variable {h h' : HR E} {addr : String} {e : HREvent}

theorem Heard.mono (hheard : h.Heard env announced addr) (hsub : announced ⊆ announced') :
    h.Heard env announced' addr where
  table := hheard.table
  num := hheard.num
  responses r hr := (hheard.responses r hr).mono hsub
  acFrom m hm := (hheard.acFrom m hm).mono hsub
  sharesFrom i m hm := ⟨(hheard.sharesFrom i m hm).1, (hheard.sharesFrom i m hm).2.mono hsub⟩
  decryptions d hd :=
    { acFrom := fun m hm => ((hheard.decryptions d hd).acFrom m hm).mono hsub
      sharesFrom := fun i m hm => ⟨((hheard.decryptions d hd).sharesFrom i m hm).1,
        ((hheard.decryptions d hd).sharesFrom i m hm).2.mono hsub⟩
      complete := (hheard.decryptions d hd).complete }

theorem heard_new : (newHR env.num : HR E).Heard env announced addr where
  table := ⟨fun _ => [], SafeShareTable.holds_new _ _ _⟩
  num := rfl
  responses r hr := by cases hr
  acFrom m hm := by cases hm
  sharesFrom i m hm := by
    change (∅ : GoMap ℕ ResponseFileMessage).lookup i = some m at hm
    rw [Finmap.lookup_empty] at hm
    cases hm
  decryptions d hd := by cases hd

/-- A goroutine goes on with its response. -/
theorem Heard.set (hheard : h.Heard env announced addr) {i : ℕ} {m : ResponseFileMessage}
    (hi : h.responses[i]? = some ⟨m, false⟩) :
    ∀ r ∈ h.responses.set i ⟨m, true⟩, env.Authentic announced addr r.msg := by
  intro r hr
  rcases List.mem_or_eq_of_mem_set hr with hr | rfl
  · exact hheard.responses r hr
  · exact hheard.responses ⟨m, false⟩ (List.mem_of_getElem? hi)

theorem Heard.step (hheard : h.Heard env announced addr) (ht : h.Traced env.kyber.unmarshal)
    (hresponse : ∀ m, e = .response m → env.Authentic announced addr m)
    (hstep : h.step env.kyber.unmarshal e = some h') : h'.Heard env announced addr := by
  cases step_effect hstep with
  | download | collect | resetKey | ignored => exact { hheard with }
  | decrypt hpc =>
    refine { hheard with decryptions := fun d hd => ?_ }
    rcases List.mem_append.mp hd with hd | hd
    · exact hheard.decryptions d hd
    · obtain rfl := List.mem_singleton.mp hd
      obtain ⟨sent, hholds⟩ := hheard.table
      exact ⟨hheard.acFrom, hheard.sharesFrom, complete_of_holds hholds (ht.collected _ _ hpc).2⟩
  | clean =>
    obtain ⟨sent, hholds⟩ := hheard.table
    refine { hheard with
      table := ⟨sent, hholds.clean hheard.num⟩
      sharesFrom := fun i m hm => ?_ }
    change (∅ : GoMap ℕ ResponseFileMessage).lookup i = some m at hm
    rw [Finmap.lookup_empty] at hm
    cases hm
  | @response m =>
    refine { hheard with responses := fun r hr => ?_ }
    rcases List.mem_append.mp hr with hr | hr
    · exact hheard.responses r hr
    · obtain rfl := List.mem_singleton.mp hr
      exact hresponse m rfl
  | firstAC hi =>
    refine { hheard with
      responses := hheard.set hi
      acFrom := ?_ }
    rintro _ ⟨⟩
    exact hheard.responses _ (List.mem_of_getElem? hi)
  | laterAC hi => exact { hheard with responses := hheard.set hi }
  | @takeShare i m table hi hset =>
    have hm : env.Authentic announced addr m := hheard.responses _ (List.mem_of_getElem? hi)
    refine { hheard with
      table := SafeShareTable.exists_holds_set hheard.table hm.index hset
      num := (SafeShareTable.num_of_set hset).trans hheard.num
      responses := fun r hr => hheard.responses r (List.mem_of_mem_eraseIdx hr)
      sharesFrom := fun j m' hm' => ?_ }
    dsimp only at hm'
    split_ifs at hm'
    · exact hheard.sharesFrom j m' hm'
    · by_cases hj : j = m.i
      · subst hj
        rw [Finmap.lookup_insert] at hm'
        obtain rfl := Option.some.inj hm'
        exact ⟨rfl, hm⟩
      · rw [Finmap.lookup_insert_of_ne _ hj] at hm'
        exact hheard.sharesFrom j m' hm'

end HR

namespace FileService

def NewIDs (g : FileService l E) (e : FileServiceEvent l) : Prop :=
  match e with
  | .upload id .. => ∀ f ∈ g.announced, f.id ≠ id
  | _ => True

instance (g : FileService l E) (e : FileServiceEvent l) : Decidable (g.NewIDs e) := by
  unfold NewIDs
  split <;> infer_instance

structure Sound (env : ServiceEnv l E) (g : FileService l E) : Prop where
  announced : ∀ f ∈ g.announced, f.c.isSome
  unique : ∀ f ∈ g.announced, ∀ f' ∈ g.announced, f.id = f'.id → f = f'
  requested : ∀ m ∈ g.requested, m.pubKey = env.hrKey m.address ∧
    m.metaFileID ∈ (g.hrs m.address).asked
  nodes : ∀ i, (g.nodes i).Served env g.announced g.requested i
  consistent : ∀ i, (g.nodes i).Consistent
  heard : ∀ addr, (g.hrs addr).Heard env g.announced addr
  traced : ∀ addr, (g.hrs addr).Traced env.kyber.unmarshal

variable {g g' : FileService l E} {addr : String} {e : FileServiceEvent l}

theorem sound_start (env : ServiceEnv l E) : (start env).Sound env where
  announced f hf := by cases hf
  unique f hf := by cases hf
  requested m hm := by cases hm
  nodes i :=
    { index := rfl
      method := rfl
      secrets := rfl
      share := rfl
      key := rfl
      files := fun f hf => by cases hf
      table := fun id data hdata => by
        change (∅ : GoMap String Data).lookup id = some data at hdata
        rw [Finmap.lookup_empty] at hdata
        cases hdata
      requests := fun r hr => by cases hr }
  consistent i := FileNode.Fresh.consistent ⟨rfl, rfl, rfl⟩
  heard addr := HR.heard_new
  traced addr := HR.traced_new env.num

theorem Sound.answer (h : g.Sound env) {i j : ℕ} {m : ResponseFileMessage}
    (hm : g.answer addr i j = some m) :
    env.Authentic g.announced addr m ∧ m.Answers (g.hrs addr).asked := by
  obtain ⟨req, hj, rfl⟩ := answer_eq_some hm
  obtain ⟨hreq, _, hid, hauth⟩ := (h.nodes i).requests _ (List.mem_of_getElem? hj)
  obtain ⟨f, hf, _, hc, _⟩ := hauth.file
  exact ⟨hauth, hid ▸ (h.requested req hreq).2, by rw [hauth.key]; rfl, hc ▸ h.announced f hf⟩

theorem Sound.hr (h : g.Sound env) {hr : HR E} {event : HREvent}
    (hstep : (g.hrs addr).step env.kyber.unmarshal event = some hr)
    (hresponse : ∀ m, event = .response m → env.Authentic g.announced addr m ∧
      m.Answers (g.hrs addr).asked) :
    ({ g with hrs := Function.update g.hrs addr hr } : FileService l E).Sound env := by
  have hhonest : HonestResponse (g.hrs addr) event := by
    cases event with
    | response m => exact (hresponse m rfl).2
    | _ => trivial
  refine { h with requested := fun m hm => ⟨(h.requested m hm).1, ?_⟩, heard := ?_, traced := ?_ }
  · dsimp only
    rw [Function.update_apply]
    split_ifs with haddr
    · exact HR.asked_subset_of_step hstep (haddr ▸ (h.requested m hm).2)
    · exact (h.requested m hm).2
  · refine (Function.forall_update_iff g.hrs fun a hr => hr.Heard env g.announced a).mpr
      ⟨?_, fun a _ => h.heard a⟩
    exact (h.heard addr).step (h.traced addr) (fun m hm => (hresponse m hm).1) hstep
  · refine (Function.forall_update_iff g.hrs fun _ hr => hr.Traced env.kyber.unmarshal).mpr
      ⟨?_, fun a _ => h.traced a⟩
    exact (h.traced addr).step hhonest hstep

theorem Sound.step (h : g.Sound env) (hok : g.NewIDs e) (hstep : g.step env e = some g') :
    g'.Sound env := by
  cases step_effect hstep with
  | @upload id myAddr chunkSize key ivs data r random sent hup =>
    have hsub : g.announced ⊆ g.announced ++ [env.encryptedFile id key r random] :=
      List.subset_append_left _ _
    refine { h with
      announced := fun f hf => ?_
      unique := ?_
      nodes := fun i => (h.nodes i).mono hsub (List.Subset.refl _)
      heard := fun addr => (h.heard addr).mono hsub }
    · rcases List.mem_append.mp hf with hf | hf
      · exact h.announced f hf
      · obtain rfl := List.mem_singleton.mp hf
        rfl
    · intro f hf f' hf' hid
      rcases List.mem_append.mp hf with hf | hf <;> rcases List.mem_append.mp hf' with hf' | hf'
      · exact h.unique f hf f' hf' hid
      · obtain rfl := List.mem_singleton.mp hf'
        exact absurd hid (hok f hf)
      · obtain rfl := List.mem_singleton.mp hf
        exact absurd hid.symm (hok f' hf')
      · rw [List.mem_singleton.mp hf, List.mem_singleton.mp hf']
  | node hi hfile hrequest hnode =>
    refine { h with nodes := ?_, consistent := ?_ }
    · refine (Function.forall_update_iff g.nodes fun i n =>
        n.Served env g.announced g.requested i).mpr ⟨?_, fun j _ => h.nodes j⟩
      exact (h.nodes _).step hi (fun m hm => (h.requested m hm).1) hfile hrequest hnode
    · exact (Function.forall_update_iff g.nodes fun _ n => n.Consistent).mpr
        ⟨(h.consistent _).step hnode, fun j _ => h.consistent j⟩
  | @download addr metaFileKey serviceIndex hr hhr =>
    have hmoved : ({ g with hrs := Function.update g.hrs addr hr } : FileService l E).Sound env :=
      h.hr hhr fun _ heq => by cases heq
    refine { hmoved with
      requested := fun m hm => ?_
      nodes := fun i => (hmoved.nodes i).mono (List.Subset.refl _) (List.subset_append_left _ _) }
    rcases List.mem_append.mp hm with hm | hm
    · exact hmoved.requested m hm
    · obtain rfl := List.mem_singleton.mp hm
      have hasked : metaFileKey ∈ hr.asked := by
        cases HR.step_effect hhr with
        | download => exact List.mem_append_right _ (List.mem_singleton_self _)
      simpa using hasked
  | hr hresponse hhr =>
    refine h.hr hhr fun m hm => ?_
    obtain ⟨i, j, hanswer⟩ := hresponse m hm
    exact h.answer hanswer

theorem sound_of_run {es : List (FileServiceEvent l)} (h : Run (step env) NewIDs (start env) es g) :
    g.Sound env :=
  h.invariant (I := Sound env) (sound_start env) fun hg hok hstep => hg.step hok hstep

theorem announced_of_run {es : List (FileServiceEvent l)} (h : AnyRun (step env) (start env) es g)
    {id myAddr : String} {chunkSize : UInt64} {key : FileKey} {ivs : ℕ → IV} {data : Bytes}
    {r : ZMod l} {random : Bytes}
    (hup : .upload id myAddr chunkSize key ivs data r random ∈ es) :
    env.encryptedFile id key r random ∈ g.announced := by
  induction h with
  | nil => cases hup
  | snoc _ _ hstep ih =>
    rcases List.mem_append.mp hup with hold | hlast
    · cases step_effect hstep with
      | upload => exact List.mem_append_left _ (ih hold)
      | _ => exact ih hold
    · obtain rfl := List.mem_singleton.mp hlast
      simp only [step] at hstep
      split at hstep
      · split_ifs at hstep
        obtain rfl := Option.some.inj hstep
        exact List.mem_append_right _ (List.mem_singleton_self _)
      · cases hstep

theorem exists_hr_run {es : List (FileServiceEvent l)} (h : Run (step env) NewIDs (start env) es g)
    (addr : String) :
    ∃ es', Run (HR.step env.kyber.unmarshal) HonestResponse (.newHR env.num) es' (g.hrs addr) := by
  have hrun := h.with_invariant (sound_start env) fun hg hok hstep => hg.step hok hstep
  refine hrun.map (fun g => g.hrs addr) fun {t u e} hok hstep => ?_
  have hmove : ∀ {a : String} {event : HREvent} {hr : HR E},
      (t.hrs a).step env.kyber.unmarshal event = some hr → HonestResponse (t.hrs a) event →
        ∃ es', Run (HR.step env.kyber.unmarshal) HonestResponse (t.hrs addr) es'
          (Function.update t.hrs a hr addr) := by
    intro a event hr hhr hhonest
    by_cases ha : addr = a
    · subst ha
      rw [Function.update_self]
      exact ⟨_, .one hhonest hhr⟩
    · rw [Function.update_of_ne ha]
      exact ⟨[], .nil⟩
  cases step_effect hstep with
  | upload | node => exact ⟨[], .nil⟩
  | download hhr => exact hmove hhr trivial
  | @hr _ a event hr hresponse hhr =>
    refine hmove hhr ?_
    cases event with
    | response m =>
      obtain ⟨i, j, hanswer⟩ := hresponse m rfl
      exact (hok.2.answer hanswer).2
    | _ => trivial

/-- The point that `GetDecKey` takes the key from. -/
def keyPoint (env : ServiceEnv l E) (g : FileService l E) (addr : String) (d : Decryption E) :
    Option E :=
  env.kyber.decryptedPoint (g.hrs addr).shareTable d.shares (env.hr addr).priKey (d.c.getD [])
    (d.a.getD [])

/-- An HR that decrypts one file gets the key that the applicant has drawn for it. -/
theorem keys_right (hdealt : env.Dealt) (hround : env.kyber.RoundTrip)
    (hrecover : env.kyber.RecoversCommit l) {es : List (FileServiceEvent l)}
    (h : Run (step env) NewIDs (start env) es g) (hone : (g.hrs addr).OneFile)
    {id myAddr : String} {chunkSize : UInt64} {key : FileKey} {ivs : ℕ → IV} {data : Bytes}
    {r : ZMod l} {random : Bytes} (hup : .upload id myAddr chunkSize key ivs data r random ∈ es)
    {d : Decryption E} (hd : d ∈ (g.hrs addr).decryptions) (hfile : d.file = id) :
    keyPoint env g addr d = some (env.embed key random) := by
  have hsound := sound_of_run h
  have hannounced := announced_of_run h.forget hup
  obtain ⟨hac, hfrom, s, w, hs, hcard, hshares⟩ := (hsound.heard addr).decryptions d hd
  obtain ⟨es', hrun⟩ := exists_hr_run h addr
  obtain ⟨⟨m, hm, ha, hc, hid⟩, hown⟩ := (HR.decryptions_own_iff hrun).mpr hone d hd
  -- the message and all shares belong to the one announcement with this ID
  have hfound : ∀ m, env.Authentic g.announced addr m → m.metaFileID = d.file →
      (env.encryptedFile id key r random).c = m.c ∧ m.v = env.kyber.partialDecryption
        (env.share m.i) (env.encryptedFile id key r random).u (env.hrKey addr) := by
    intro m hauth hid
    obtain ⟨f, hf, hfid, hfc, hfv⟩ := hauth.file
    have hsame : f = env.encryptedFile id key r random :=
      hsound.unique f hf _ hannounced (hfid.trans (hid.trans hfile))
    subst hsame
    exact ⟨hfc, hfv⟩
  obtain ⟨sent, hholds⟩ := (hsound.heard addr).table
  rw [keyPoint, ha, hc, (hac m hm).key, ← (hfound m (hac m hm) hid).1, hshares]
  refine env.decryptedPoint_of_shares hdealt hround hrecover hholds.threshold hs hcard rfl ?_
  intro i hi
  obtain ⟨m', hm', hv, hid'⟩ := hown _ (hshares ▸ Complete.some_mem hs hi)
  obtain ⟨hindex, hauth⟩ := hfrom i m' hm'
  change w i = env.kyber.unmarshal m'.v at hv
  rw [hv, (hfound m' hauth hid').2, hindex]

end FileService

namespace Sample

open Encryption.Sample (filePrimitives aesKey ivs)

def serviceEnv : ServiceEnv 7 (ZMod 7) where
  __ := filePrimitives
  kyber := kyber
  embed _ _ := 6
  pointData _ := aesKey
  marshalRequestFile m := utf8 m.metaFileID
  hmacSha256 key data := key ++ data
  num := 2
  secret := 3
  share i := if i = 0 then 5 else 0
  signMethod := 2
  hrSecretTable := ∅
  hr _ := ⟨1, "secret", 5⟩

theorem serviceEnv_dealt : serviceEnv.Dealt := by
  refine ⟨by decide, Polynomial.C 2 * X + Polynomial.C 3, degree_linear_lt, ?_, ?_⟩
  · simp [serviceEnv]
  · intro i hi
    have htwo : i = 0 ∨ i = 1 := by
      change i < 2 at hi
      omega
    rcases htwo with rfl | rfl
    · simp [serviceEnv]
      decide
    · simp [serviceEnv]
      decide

def fileKey : FileKey := ⟨aesKey, by decide⟩

def fileID : String :=
  match Applicant.upload filePrimitives "A" 2 aesKey ivs Sharing.Sample.piece with
  | .done (_, hash) => String.ofList (hash.map fun b => Char.ofNat b.toNat)
  | _ => ""

def uploads : FileServiceEvent 7 := .upload fileID "A" 2 fileKey ivs Sharing.Sample.piece 4 []

def enters (i : ℕ) : List (FileServiceEvent 7) :=
  [.file i 0, .node i (.lock 0), .node i (.acquire 0), .node i (.write 0), .node i (.unlock 0)]

def answers (i : ℕ) : List (FileServiceEvent 7) :=
  [.node i (.rLock 0), .node i (.read 0), .node i (.rUnlock 0), .node i (.answer 0)]

def takes (i : ℕ) : List (FileServiceEvent 7) :=
  [.response "B" i 0, .hr "B" (.takeAC 0), .hr "B" (.takeShare 0)]

/-- The HR `B` gets the key of the file that `A` has uploaded. -/
def served : List (FileServiceEvent 7) :=
  [uploads] ++ enters 0 ++ enters 1 ++ [.download "B" fileID 0, .request 0 0, .request 1 0,
    .node 0 (.authenticate 0), .node 0 (.recorded 0), .node 1 (.authenticate 0)] ++ answers 0 ++
      answers 1 ++ takes 1 ++ takes 0 ++ [.hr "B" .collect, .hr "B" .decrypt]

theorem served_isSome : (exec (guarded (FileService.step serviceEnv) FileService.NewIDs)
    (FileService.start serviceEnv) served).isSome := by decide +kernel

def service : FileService 7 (ZMod 7) :=
  (exec (guarded (FileService.step serviceEnv) FileService.NewIDs) (FileService.start serviceEnv)
    served).get served_isSome

theorem run_service : Run (FileService.step serviceEnv) FileService.NewIDs
    (FileService.start serviceEnv) served service :=
  run_of_guarded (run_exec_get served_isSome)

theorem service_decryptions : ((service.hrs "B").decryptions.map (·.file)) = [fileID] := by
  decide +kernel

theorem file_service {d : Decryption (ZMod 7)} (hd : d ∈ (service.hrs "B").decryptions) :
    d.file = fileID := by
  have hfile : d.file ∈ (service.hrs "B").decryptions.map (·.file) := List.mem_map_of_mem hd
  rw [service_decryptions] at hfile
  exact List.mem_singleton.mp hfile

theorem keys_right_service :
    ∃ d ∈ (service.hrs "B").decryptions,
      FileService.keyPoint serviceEnv service "B" d = some 6 := by
  have hone : (service.hrs "B").OneFile := fun d hd d' hd' =>
    (file_service hd).trans (file_service hd').symm
  obtain ⟨d, hd⟩ : ∃ d, d ∈ (service.hrs "B").decryptions := by
    apply List.exists_mem_of_ne_nil
    intro hnil
    have hfiles := service_decryptions
    rw [hnil] at hfiles
    cases hfiles
  exact ⟨d, hd, FileService.keys_right serviceEnv_dealt kyber_roundTrip kyber_recoversCommit
    run_service hone List.mem_cons_self hd (file_service hd)⟩

end Sample

end JobPortal.Cothority
