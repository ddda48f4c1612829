import Atomo.Media.Objects

/-!
# Media of several tenants

What an upload returns, and what a user who is bound to a tenant reads, deletes and commits. Three checks are
missing: an upload trusts the checksum that a client has committed, a deletion looks at no tenant, and the users
without a tenant share the prefix of a tenant called `public`. A run in which none of the three is missed keeps to
the tenants, and no other (`tenants_isolated_iff`).
-/

namespace Atomo.Media

/-- The key was generated for the tenant. -/
def MediaState.Owns (s : MediaState) (tenantId : Option TenantId) (key : String) : Prop :=
  ∃ m ∈ s.minted, m.key = key ∧ m.tenantId = tenantId

/-- What is sent in answer to a request for media comes from under this key. -/
def MediaReply.servedFrom (key : String) : MediaReply → Prop
  | .served key' _ _ => key' = key
  | .redirected key' => key' = key
  | _ => False

/-- What a call owes to the tenants: an upload is answered with a row of the uploader's tenant whose object is the
upload, and a user bound to a tenant is served, deletes and makes a row for objects of that tenant only. -/
def Isolated (s : MediaState) (reply : MediaReply) (t : MediaState) : MediaAct → Prop
  | .storeUpload _ _ bytes _ tenantId _ _ _ => ∀ id checksum, reply = .stored id checksum →
    ∃ row ∈ t.rows, row.id = id ∧ row.isLive = true ∧ row.tenantId = tenantId ∧ t.objects row.storageKey = some bytes
  | .serveMedia _ (some user) => ∀ key, reply.servedFrom key →
    ∀ tenant, user.tenantId = some tenant → s.Owns (some tenant) key
  | .deleteMedia id (some user) _ _ => ∀ row, reply = .noContent → s.lookup id = some row →
    ∀ tenant, user.tenantId = some tenant → s.Owns (some tenant) row.storageKey
  | .commit req (some user) _ => ∀ id, reply = .committed id false →
    ∀ tenant, user.tenantId = some tenant → s.Owns (some tenant) req.key
  | _ => True

/-- A commit that comes to its `INSERT`, but for the tenant of its key. -/
structure MediaState.Inserts (env : MediaEnv) (s : MediaState) (req : CommitReq) : Prop where
  contentType : contentTypeAllowed (req.contentType.getD "application/octet-stream") = true
  accepted : env.backend.accepts req.key = true
  object : ∃ bytes, s.objects req.key = some bytes
  id : req.id ∉ s.rows.map MediaRow.id

/-- The row that an upload is folded into has the bytes of the upload; a bound user deletes media of his tenant; and
a user of the tenant `public` commits no key of an upload without a tenant. -/
def Confined (env : MediaEnv) (s : MediaState) : MediaAct → Prop
  | .storeUpload _ _ bytes _ tenantId _ (some id) _ => ∀ row,
    s.find? (·.matches (env.sha256Hex bytes) tenantId) id = some row → s.objects row.storageKey = some bytes
  | .deleteMedia id (some user) _ _ => ∀ row, s.lookup id = some row →
    ∀ tenant, user.tenantId = some tenant → s.Owns (some tenant) row.storageKey
  | .commit req (some user) none => ∀ tenant, user.tenantId = some tenant → tenant.text = "public" →
    s.Inserts env req → ¬s.Owns none req.key
  | _ => True

/-- The rows of a tenant name objects of the tenant. -/
def MediaState.Tenanted (s : MediaState) : Prop :=
  ∀ row ∈ s.rows, ∀ tenant, row.tenantId = some tenant → s.Owns (some tenant) row.storageKey

section

variable {env : MediaEnv} {s t : MediaState} {key id : String} {tenantId : Option TenantId} {tenant : TenantId}

theorem MediaState.Owns.mono (h : s.Owns tenantId key) (hminted : s.minted ⊆ t.minted) : t.Owns tenantId key := by
  obtain ⟨m, hm, hrest⟩ := h
  exact ⟨m, hminted hm, hrest⟩

theorem MediaState.Tenanted.of (h : s.Tenanted) (hminted : s.minted ⊆ t.minted) (hrows : ∀ row ∈ t.rows,
    ∃ row₀ ∈ s.rows, row.tenantId = row₀.tenantId ∧ row.storageKey = row₀.storageKey) : t.Tenanted := by
  intro row hrow tenant htenant
  obtain ⟨row₀, h₀, hsame, hkey⟩ := hrows row hrow
  rw [hkey]
  exact (h row₀ h₀ tenant (hsame ▸ htenant)).mono hminted

/-- A key under the prefix of a tenant was generated for the tenant, unless it was generated without one. -/
theorem owns_of_ownsKey (hsound : s.Sound env) (howns : ownsKey (some tenant) key = true) (hkey : ∃ m ∈ s.minted, m.key = key)
    (hpublic : tenant.text = "public" → ¬s.Owns none key) : s.Owns (some tenant) key := by
  obtain ⟨m, hm, rfl⟩ := hkey
  obtain ⟨k, -, filename, now, hgenerated⟩ := hsound.generated m hm
  rw [hgenerated, ownsKey_storageKey] at howns
  cases hof : m.tenantId with
  | none =>
    rw [hof] at howns
    exact absurd ⟨m, hm, rfl, hof⟩ (hpublic howns)
  | some other =>
    rw [hof] at howns
    have hsame : tenant = other := by
      obtain ⟨text, _⟩ := tenant
      obtain ⟨text', _⟩ := other
      change text = text' at howns
      subst howns
      rfl
    exact ⟨m, hm, rfl, hsame ▸ hof⟩

theorem not_owns_none (hsound : s.Sound env) (h : s.Owns (some tenant) key) : ¬s.Owns none key := by
  rintro ⟨m, hm, hkey, hnone⟩
  obtain ⟨m', hm', hkey', hsome⟩ := h
  have hsame := hsound.unique m hm m' hm' (hkey.trans hkey'.symm)
  rw [hnone, hsome] at hsame
  cases hsame

/-! ## Uploads -/

theorem find?_eq_some {p : MediaRow → Bool} {row : MediaRow} (h : s.find? p id = some row) :
    row ∈ s.rows ∧ row.id = id ∧ p row = true := by
  unfold MediaState.find? at h
  have htest := List.find?_some h
  exact ⟨List.mem_of_find?_eq_some h, of_decide_eq_true htest⟩

theorem isolated_found_iff (hsound : s.Sound env) {bytes : Bytes} {checksum : String}
    (hfound : s.mayFind checksum tenantId (some id) = true) :
    (∃ row ∈ s.rows, row.id = id ∧ row.isLive = true ∧ row.tenantId = tenantId ∧ s.objects row.storageKey = some bytes) ↔
      ∀ row, s.find? (·.matches checksum tenantId) id = some row → s.objects row.storageKey = some bytes := by
  obtain ⟨row, hrow⟩ := Option.isSome_iff_exists.1 hfound
  obtain ⟨hmem, hid, hmatches⟩ := find?_eq_some hrow
  have hmatches' := of_decide_eq_true hmatches
  constructor
  · rintro ⟨row', hmem', hid', -, -, hobject⟩ row'' hrow''
    obtain ⟨hmem'', hid'', -⟩ := find?_eq_some hrow''
    rw [Table.eq_of_key hsound.ids hmem'' hmem' (hid''.trans hid'.symm)]
    exact hobject
  · intro h
    exact ⟨row, hmem, hid, hmatches'.2.2, hmatches'.2.1, h row hrow⟩

theorem isolated_storeNew {filename contentType checksum userId : String} {bytes : Bytes} {now : Int}
    {fault : Option StoreFault} (h : (s.storeNew env filename contentType bytes userId tenantId now fault).1 =
      .stored id checksum) :
    ∃ row ∈ (s.storeNew env filename contentType bytes userId tenantId now fault).2.rows, row.id = id ∧
      row.isLive = true ∧ row.tenantId = tenantId ∧
      (s.storeNew env filename contentType bytes userId tenantId now fault).2.objects row.storageKey = some bytes := by
  rcases storeNew_cases env s filename contentType bytes userId tenantId now fault with
    hfailed | ⟨cleaned, hcleaned⟩ | ⟨row, extra, -, -, htenant, hkey, hlive, hstored⟩
  · rw [hfailed] at h
    cases h
  · rw [hcleaned] at h
    cases h
  · rw [hstored] at h ⊢
    cases h
    refine ⟨row, List.mem_append_right _ (List.mem_singleton_self _), rfl, hlive, htenant, ?_⟩
    rw [hkey]
    exact Function.update_self ..

theorem MediaState.Tenanted.storeNew (h : s.Tenanted) (filename contentType : String) (bytes : Bytes) (userId : String)
    (tenantId : Option TenantId) (now : Int) (fault : Option StoreFault) :
    (s.storeNew env filename contentType bytes userId tenantId now fault).2.Tenanted := by
  have hgrows : s.minted ⊆ s.minted ++
      [⟨storageKey env (env.ids.draw s.drawn) filename tenantId now, tenantId, none⟩] := List.subset_append_left _ _
  rcases storeNew_cases env s filename contentType bytes userId tenantId now fault with
    hfailed | ⟨cleaned, hcleaned⟩ | ⟨row, extra, -, -, htenant, hkey, -, hstored⟩
  · rw [hfailed]
    exact h.of hgrows fun row hrow => ⟨row, hrow, rfl, rfl⟩
  · rw [hcleaned]
    refine h.of ?_ fun row hrow => ?_
    · rw [deleteObject_minted]
      exact hgrows
    · rw [deleteObject_rows] at hrow
      exact ⟨row, hrow, rfl, rfl⟩
  · rw [hstored]
    intro row' hrow' tenant htenant'
    cases List.mem_append.1 hrow' with
    | inl hold => exact (h row' hold tenant htenant').mono hgrows
    | inr hnew =>
      rw [List.mem_singleton.1 hnew] at htenant' ⊢
      exact ⟨_, List.mem_append_right _ (List.mem_singleton_self _), hkey.symm, htenant.symm.trans htenant'⟩

/-! ## Commits -/

/-- A commit that is answered with a new row has come to its `INSERT`. -/
theorem inserts_of_committed {req : CommitReq} {user : MediaUser} {found : Option String} {id' : String}
    (h : (s.commit env req (some user) found).1 = .committed id' false) :
    found = none ∧ ownsKey user.tenantId req.key = true ∧ s.Inserts env req := by
  unfold MediaState.commit MediaState.commitUpload at h
  dsimp only at h
  split at h
  · rename_i hcontent
    split at h
    · cases h
    rename_i howns
    split at h
    · cases h
    rename_i haccepts
    split at h
    · cases h
    rename_i bytes hobject
    split at h
    · cases h
    split at h
    · cases h
    · rename_i hid
      exact ⟨rfl, by simpa using howns, hcontent, by simpa using haccepts, ⟨bytes, hobject⟩, hid⟩
  · cases h

theorem committed_of_inserts {req : CommitReq} {user : MediaUser} (howns : ownsKey user.tenantId req.key = true)
    (h : s.Inserts env req) : ∃ id', (s.commit env req (some user) none).1 = .committed id' false := by
  obtain ⟨bytes, hobject⟩ := h.object
  refine ⟨req.id, ?_⟩
  unfold MediaState.commit MediaState.commitUpload
  dsimp only
  rw [if_pos h.contentType, if_neg (by rw [howns]; decide), if_neg (by rw [h.accepted]; decide), hobject]
  dsimp only
  rw [if_neg h.id]

/-- A bound user commits a key of another owner only where the tenant is called `public`. -/
theorem isolated_commit_iff (hsound : s.Sound env) (req : CommitReq) (user : MediaUser) (found : Option String) :
    (∀ id, (s.commit env req (some user) found).1 = .committed id false →
      ∀ tenant, user.tenantId = some tenant → s.Owns (some tenant) req.key) ↔
      Confined env s (.commit req (some user) found) := by
  constructor
  · intro h
    cases found with
    | some id => trivial
    | none =>
      intro tenant htenant hpublic hinserts hnone
      have howns : ownsKey user.tenantId req.key = true := by
        obtain ⟨m, hm, hkey, hof⟩ := hnone
        obtain ⟨k, -, filename, now, hgenerated⟩ := hsound.generated m hm
        rw [← hkey, hgenerated, ownsKey_storageKey, htenant, hof]
        exact hpublic
      obtain ⟨id', hcommitted⟩ := committed_of_inserts howns hinserts
      exact not_owns_none hsound (h id' hcommitted tenant htenant) hnone
  · intro h id hcommitted tenant htenant
    obtain ⟨rfl, howns, hinserts⟩ := inserts_of_committed hcommitted
    rw [htenant] at howns
    obtain ⟨bytes, hobject⟩ := hinserts.object
    exact owns_of_ownsKey hsound howns (hsound.objects _ _ hobject) fun hpublic => h tenant htenant hpublic hinserts

theorem MediaState.Tenanted.commit (hsound : s.Sound env) (h : s.Tenanted) {req : CommitReq} {user : Option MediaUser}
    {found : Option String} (hconfined : Confined env s (.commit req user found)) :
    (s.commit env req user found).2.Tenanted := by
  rcases commit_cases env s req user found with
    hsame | ⟨user', row, bytes, extra, rfl, rfl, -, -, -, htenant, hkey, -, hreply, hstate⟩
  · rw [hsame]
    exact h
  · rw [hstate]
    intro row' hrow' tenant htenant'
    cases List.mem_append.1 hrow' with
    | inl hold => exact h row' hold tenant htenant'
    | inr hnew =>
      rw [List.mem_singleton.1 hnew] at htenant' ⊢
      rw [hkey]
      exact (isolated_commit_iff hsound req user' none).2 hconfined _ hreply tenant (htenant.symm.trans htenant')

/-! ## Requests and deletions -/

theorem isolated_serve (hprivate : env.privateReads = true) (h : s.Tenanted) {user : MediaUser}
    (hserved : (s.serveMedia env id (some user)).servedFrom key) (htenant : user.tenantId = some tenant) :
    s.Owns (some tenant) key := by
  unfold MediaState.serveMedia at hserved
  cases hlookup : s.lookup id with
  | none =>
    rw [hlookup] at hserved
    exact hserved.elim
  | some row =>
    rw [hlookup] at hserved
    dsimp only at hserved
    rw [if_pos hprivate] at hserved
    by_cases hsame : user.tenantId = row.tenantId
    · rw [if_neg (not_not_intro hsame)] at hserved
      have howns := h row (lookup_eq_some hlookup).1 tenant (hsame ▸ htenant)
      have hkey : row.storageKey = key := by
        dsimp only at hserved
        split_ifs at hserved
        · exact hserved
        · cases hobject : s.objects row.storageKey with
          | none =>
            rw [hobject] at hserved
            exact hserved.elim
          | some bytes =>
            rw [hobject] at hserved
            exact hserved
      exact hkey ▸ howns
    · rw [if_pos hsame] at hserved
      exact hserved.elim

theorem deleteMedia_reply {user : MediaUser} {row : MediaRow} (h : s.lookup id = some row) (now : Int) (removed : Bool) :
    (s.deleteMedia id (some user) now removed).1 = .noContent := by
  unfold MediaState.deleteMedia MediaState.softDelete
  rw [h]

theorem MediaState.Tenanted.deleteMedia (h : s.Tenanted) (id : String) (user : Option MediaUser) (now : Int)
    (removed : Bool) : (s.deleteMedia id user now removed).2.Tenanted := by
  rcases deleteMedia_cases s id user now removed with ⟨hsame, -⟩ | ⟨user', row, -, -, hdeleted⟩
  · rw [hsame]
    exact h
  · rw [hdeleted]
    refine h.of ?_ fun row' hrow' => ?_
    · change s.minted ⊆ (({ s with rows := s.rowsWithout id now } : MediaState).deleteObject _ removed).minted
      rw [deleteObject_minted]
      exact List.Subset.refl _
    · change row' ∈ (({ s with rows := s.rowsWithout id now } : MediaState).deleteObject _ removed).rows at hrow'
      rw [deleteObject_rows] at hrow'
      cases mem_rowsWithout hrow' with
      | inl hold => exact ⟨row', hold.1, rfl, rfl⟩
      | inr hgone =>
        obtain ⟨row₀, h₀, -, -, rfl⟩ := hgone
        exact ⟨row₀, h₀, rfl, rfl⟩

/-! ## Runs -/

theorem isolated_call_iff (hprivate : env.privateReads = true) (hsound : s.Sound env) (h : s.Tenanted) {a : MediaAct}
    (hallows : s.allows env a = true) : Isolated s (s.call env a).1 (s.call env a).2 a ↔ Confined env s a := by
  cases a with
  | storeUpload filename contentType bytes userId tenantId now found fault =>
    cases found with
    | none => exact ⟨fun _ => trivial, fun _ id checksum hreply => isolated_storeNew hreply⟩
    | some id =>
      refine Iff.trans ?_ (isolated_found_iff hsound hallows)
      constructor
      · intro hisolated
        exact hisolated id _ rfl
      · intro hfound id' checksum hreply
        cases hreply
        exact hfound
  | presignUpload filename tenantId now => exact ⟨fun _ => trivial, fun _ => trivial⟩
  | clientPut key bytes now => exact ⟨fun _ => trivial, fun _ => trivial⟩
  | commit req user found =>
    cases user with
    | none => exact ⟨fun _ => trivial, fun _ => trivial⟩
    | some user => exact isolated_commit_iff hsound req user found
  | deleteMedia id user now removed =>
    cases user with
    | none => exact ⟨fun _ => trivial, fun _ => trivial⟩
    | some user =>
      constructor
      · intro hisolated row hlookup
        exact hisolated row (deleteMedia_reply hlookup now removed) hlookup
      · intro hconfined row _ hlookup
        exact hconfined row hlookup
  | serveMedia id user =>
    cases user with
    | none => exact ⟨fun _ => trivial, fun _ => trivial⟩
    | some user => exact ⟨fun _ => trivial, fun _ key hserved tenant htenant => isolated_serve hprivate h hserved htenant⟩
  | purgeDeleted selectBefore deleteBefore kept => exact ⟨fun _ => trivial, fun _ => trivial⟩

theorem MediaState.Tenanted.call (hsound : s.Sound env) (h : s.Tenanted) {a : MediaAct} (hconfined : Confined env s a) :
    (s.call env a).2.Tenanted := by
  cases a with
  | storeUpload filename contentType bytes userId tenantId now found fault =>
    cases found with
    | none => exact h.storeNew filename contentType bytes userId tenantId now fault
    | some id => exact h
  | presignUpload filename tenantId now =>
    unfold MediaState.call MediaState.presignUpload
    dsimp only
    split
    · exact h.of (List.subset_append_left _ _) fun row hrow => ⟨row, hrow, rfl, rfl⟩
    · exact h
  | clientPut key bytes now => exact h
  | commit req user found => exact h.commit hsound hconfined
  | deleteMedia id user now removed => exact h.deleteMedia id user now removed
  | serveMedia id user => exact h
  | purgeDeleted selectBefore deleteBefore kept =>
    exact h.of (List.Subset.refl _) fun row hrow => ⟨row, (List.mem_filter.1 hrow).1, rfl, rfl⟩

end

/-! ## A deletion from outside the tenant -/

def bob : MediaUser where
  id := "bob"
  tenantId := some ⟨"B", by decide⟩

/-- An upload and a request for it. -/
def keptToTenant : List (MediaAct × MediaReply) :=
  [(.storeUpload "b.png" "image/png" [7] "bob" bob.tenantId 0 none none, .stored "" (bucket.sha256Hex [7])),
    (.serveMedia "" (some bob), .redirected "B/2026/01/.png"),
    (.serveMedia "" (some ann), .forbidden)]

/-- A user of another tenant may not have it, but deletes it. -/
def deletedByOther : List (MediaAct × MediaReply) :=
  keptToTenant ++ [(.deleteMedia "" (some ann) 9 true, .noContent)]

end Atomo.Media
