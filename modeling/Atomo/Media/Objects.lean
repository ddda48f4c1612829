import Atomo.Media.Store

/-!
# The objects of the live rows

Two rows name one key once a client commits the key twice, and the object goes with the first of them that is
deleted, or purged. Along a run every row that is not deleted has its object exactly when no object is deleted from
under another such row (`always_live_iff`).
-/

namespace Atomo.Media

/-! ## What every run keeps -/

/-- A key of `minted` has the id of an earlier draw in it, and lies under the prefix of its tenant. -/
def Minted.Generated (env : MediaEnv) (drawn : Nat) (m : Minted) : Prop :=
  ∃ k < drawn, ∃ filename now, m.key = storageKey env (env.ids.draw k) filename m.tenantId now

/-- Objects and rows are under keys that were generated, and no key was generated twice. -/
structure MediaState.Sound (env : MediaEnv) (s : MediaState) : Prop where
  ids : (s.rows.map MediaRow.id).Nodup
  generated : ∀ m ∈ s.minted, m.Generated env s.drawn
  unique : ∀ m ∈ s.minted, ∀ m' ∈ s.minted, m.key = m'.key → m.tenantId = m'.tenantId
  rows : ∀ row ∈ s.rows, ∃ m ∈ s.minted, m.key = row.storageKey
  objects : ∀ key bytes, s.objects key = some bytes → ∃ m ∈ s.minted, m.key = key

/-- Every row that is not deleted has its object. -/
def MediaState.Live (s : MediaState) : Prop :=
  ∀ row ∈ s.rows, row.isLive = true → ∃ bytes, s.objects row.storageKey = some bytes

section

variable {env : MediaEnv} {s t : MediaState} {key id filename contentType : String} {bytes : Bytes} {now : Int}
  {tenantId : Option TenantId}

theorem Minted.Generated.mono {m n : Nat} {k : Minted} (h : k.Generated env m) (hle : m ≤ n) : k.Generated env n := by
  obtain ⟨i, hi, hrest⟩ := h
  exact ⟨i, by omega, hrest⟩

/-- The next key is not among those generated before. -/
theorem MediaState.Sound.fresh (h : s.Sound env) {m : Minted} (hm : m ∈ s.minted) :
    m.key ≠ storageKey env (env.ids.draw s.drawn) filename tenantId now := by
  intro hsame
  obtain ⟨k, hk, filename', now', hkey⟩ := h.generated m hm
  have hid := congrArg keyId (hkey.symm.trans hsame)
  rw [keyId_storageKey, keyId_storageKey] at hid
  have hdraw := env.ids.injective (String.toList_inj.1 hid)
  omega

theorem MediaState.Sound.fresh_row (h : s.Sound env) {row : MediaRow} (hrow : row ∈ s.rows) :
    row.storageKey ≠ storageKey env (env.ids.draw s.drawn) filename tenantId now := by
  obtain ⟨m, hm, hkey⟩ := h.rows row hrow
  exact hkey ▸ h.fresh hm

/-- A step that generates no key keeps the invariant if its rows and objects are under keys that exist. -/
theorem MediaState.Sound.of (h : s.Sound env) (hminted : t.minted = s.minted) (hdrawn : s.drawn ≤ t.drawn)
    (hids : (t.rows.map MediaRow.id).Nodup) (hrows : ∀ row ∈ t.rows, ∃ m ∈ s.minted, m.key = row.storageKey)
    (hobjects : ∀ key bytes, t.objects key = some bytes → ∃ m ∈ s.minted, m.key = key) : t.Sound env := by
  refine ⟨hids, ?_, ?_, ?_, ?_⟩
  · rw [hminted]
    exact fun m hm => (h.generated m hm).mono hdrawn
  · rw [hminted]
    exact h.unique
  · rw [hminted]
    exact hrows
  · rw [hminted]
    exact hobjects

theorem MediaState.Sound.mint (h : s.Sound env) (filename : String) (tenantId : Option TenantId) (now : Int)
    (putUntil : Option Int) :
    ({ s with
        drawn := s.drawn + 1
        minted := s.minted ++ [⟨storageKey env (env.ids.draw s.drawn) filename tenantId now, tenantId, putUntil⟩] } :
      MediaState).Sound env := by
  refine ⟨h.ids, fun m hm => ?_, fun m hm m' hm' hsame => ?_, fun row hrow => ?_, fun key bytes hkey => ?_⟩
  · cases List.mem_append.1 hm with
    | inl hold => exact (h.generated m hold).mono (Nat.le_succ _)
    | inr hnew =>
      rw [List.mem_singleton.1 hnew]
      exact ⟨s.drawn, Nat.lt_succ_self _, filename, now, rfl⟩
  · cases List.mem_append.1 hm with
    | inl hold =>
      cases List.mem_append.1 hm' with
      | inl hold' => exact h.unique m hold m' hold' hsame
      | inr hnew' =>
        rw [List.mem_singleton.1 hnew'] at hsame
        exact absurd hsame (h.fresh hold)
    | inr hnew =>
      rw [List.mem_singleton.1 hnew] at hsame ⊢
      cases List.mem_append.1 hm' with
      | inl hold' => exact absurd hsame.symm (h.fresh hold')
      | inr hnew' => rw [List.mem_singleton.1 hnew']
  · obtain ⟨m, hm, hkey⟩ := h.rows row hrow
    exact ⟨m, List.mem_append_left _ hm, hkey⟩
  · obtain ⟨m, hm, hsame⟩ := h.objects key bytes hkey
    exact ⟨m, List.mem_append_left _ hm, hsame⟩

theorem MediaState.Sound.putObject (h : s.Sound env) (bytes : Bytes) (hkey : ∃ m ∈ s.minted, m.key = key) :
    (s.putObject key bytes).Sound env := by
  refine h.of rfl (Nat.le_refl _) h.ids h.rows fun key' bytes' hobject => ?_
  unfold MediaState.putObject at hobject
  dsimp only at hobject
  by_cases hsame : key' = key
  · exact hsame ▸ hkey
  · rw [Function.update_of_ne hsame] at hobject
    exact h.objects key' bytes' hobject

theorem deleteObject_eq_some {removed : Bool} (h : (s.deleteObject key removed).objects key' = some bytes) :
    s.objects key' = some bytes := by
  unfold MediaState.deleteObject at h
  split at h
  · dsimp only at h
    by_cases hsame : key' = key
    · subst hsame
      rw [Function.update_self] at h
      cases h
    · rwa [Function.update_of_ne hsame] at h
  · exact h

theorem deleteObject_of_ne {removed : Bool} {key' : String} (h : key' ≠ key) :
    (s.deleteObject key removed).objects key' = s.objects key' := by
  unfold MediaState.deleteObject
  split
  · exact Function.update_of_ne h _ _
  · rfl

@[simp] theorem deleteObject_rows (removed : Bool) : (s.deleteObject key removed).rows = s.rows := by
  unfold MediaState.deleteObject
  split <;> rfl

@[simp] theorem deleteObject_minted (removed : Bool) : (s.deleteObject key removed).minted = s.minted := by
  unfold MediaState.deleteObject
  split <;> rfl

@[simp] theorem deleteObject_drawn (removed : Bool) : (s.deleteObject key removed).drawn = s.drawn := by
  unfold MediaState.deleteObject
  split <;> rfl

theorem MediaState.Sound.deleteObject (h : s.Sound env) (removed : Bool) : (s.deleteObject key removed).Sound env := by
  refine h.of (deleteObject_minted removed) (Nat.le_of_eq (deleteObject_drawn removed).symm) ?_ ?_ ?_
  · rw [deleteObject_rows]
    exact h.ids
  · rw [deleteObject_rows]
    exact h.rows
  · exact fun key' bytes hobject => h.objects key' bytes (deleteObject_eq_some hobject)

theorem MediaState.Sound.emit (h : s.Sound env) (eventType : EventType) (id actor : String)
    (extra : List (String × Json)) : (s.emit eventType id actor extra).Sound env :=
  h.of rfl (Nat.le_refl _) h.ids h.rows h.objects

theorem MediaState.Sound.insert (h : s.Sound env) {row : MediaRow} (hid : row.id ∉ s.rows.map MediaRow.id)
    (hkey : ∃ m ∈ s.minted, m.key = row.storageKey) : ({ s with rows := s.rows ++ [row] } : MediaState).Sound env := by
  refine h.of rfl (Nat.le_refl _) ?_ (fun row' hrow' => ?_) h.objects
  · dsimp only
    rw [List.map_append, List.map_singleton]
    exact List.nodup_append.2 ⟨h.ids, List.nodup_singleton _, fun a ha b hb hsame =>
      hid (List.mem_singleton.1 hb ▸ hsame ▸ ha)⟩
  · cases List.mem_append.1 hrow' with
    | inl hold => exact h.rows row' hold
    | inr hnew =>
      rw [List.mem_singleton.1 hnew]
      exact hkey

/-! ### The calls -/

/-- What `store_upload` does with new content: nothing but generate a key, or an object under it too that may have
been deleted again, or the object and its row. -/
theorem storeNew_cases (env : MediaEnv) (s : MediaState) (filename contentType : String) (bytes : Bytes)
    (userId : String) (tenantId : Option TenantId) (now : Int) (fault : Option StoreFault) :
    let key := storageKey env (env.ids.draw s.drawn) filename tenantId now
    let minted : MediaState := { s with drawn := s.drawn + 1, minted := s.minted ++ [⟨key, tenantId, none⟩] }
    let result := s.storeNew env filename contentType bytes userId tenantId now fault
    result = (.failed, minted) ∨
    (∃ cleaned, result = (.failed, (minted.putObject key bytes).deleteObject key cleaned)) ∨
    ∃ row extra, env.ids.draw s.drawn ∉ s.rows.map MediaRow.id ∧ row.id = env.ids.draw s.drawn ∧
      row.tenantId = tenantId ∧ row.storageKey = key ∧ row.isLive = true ∧
      result = (.stored row.id (env.sha256Hex bytes),
        ({ minted.putObject key bytes with rows := s.rows ++ [row] } : MediaState).emit .created row.id userId extra) := by
  intro key minted result
  unfold result MediaState.storeNew
  dsimp only
  split
  · exact .inl rfl
  · right
    split
    · exact .inl ⟨_, rfl⟩
    · split
      · exact .inl ⟨true, rfl⟩
      · rename_i hid
        let row : MediaRow :=
          { id := env.ids.draw s.drawn, tenantId, filename, contentType, size := .ofNat bytes.length, storageKey := key
            checksum := some (env.sha256Hex bytes), uploadedBy := userId, deletedAt := none }
        exact .inr ⟨row, MediaState.created contentType bytes.length, hid, rfl, rfl, rfl, rfl, rfl⟩

/-- What `commit` does: nothing, or a row for an object that exists. -/
theorem commit_cases (env : MediaEnv) (s : MediaState) (req : CommitReq) (user : Option MediaUser)
    (found : Option String) :
    (s.commit env req user found).2 = s ∨
    ∃ user' row bytes extra, user = some user' ∧ found = none ∧ ownsKey user'.tenantId req.key = true ∧
      s.objects req.key = some bytes ∧ row.id ∉ s.rows.map MediaRow.id ∧ row.tenantId = user'.tenantId ∧
      row.storageKey = req.key ∧ row.isLive = true ∧ (s.commit env req user found).1 = .committed row.id false ∧
      (s.commit env req user found).2 =
        ({ s with rows := s.rows ++ [row] } : MediaState).emit .created row.id user'.id extra := by
  unfold MediaState.commit
  cases user with
  | none => exact .inl rfl
  | some user =>
    dsimp only
    split
    · unfold MediaState.commitUpload
      split
      · exact .inl rfl
      rename_i howns
      split
      · exact .inl rfl
      · split
        · exact .inl rfl
        · rename_i bytes hobject
          split
          · exact .inl rfl
          · split
            · exact .inl rfl
            · rename_i hid
              let row : MediaRow :=
                { id := req.id, tenantId := user.tenantId, filename := req.filename.getD "upload"
                  contentType := req.contentType.getD "application/octet-stream", size := .ofNat bytes.length
                  storageKey := req.key, checksum := req.checksum, uploadedBy := user.id, deletedAt := none }
              exact .inr ⟨user, row, bytes, _, rfl, rfl, Bool.not_eq_false _ ▸ howns, hobject, hid, rfl, rfl, rfl, rfl, rfl⟩
    · exact .inl rfl

theorem lookup_eq_some {row : MediaRow} (h : s.lookup id = some row) :
    row ∈ s.rows ∧ row.id = id ∧ row.isLive = true := by
  unfold MediaState.lookup MediaState.find? at h
  have htest := List.find?_some h
  exact ⟨List.mem_of_find?_eq_some h, of_decide_eq_true htest⟩

/-- The rows after the `UPDATE` of `soft_delete`. -/
def MediaState.rowsWithout (s : MediaState) (id : String) (now : Int) : List MediaRow :=
  Table.update (fun row => row.id = id ∧ row.isLive) (fun row => { row with deletedAt := some now }) s.rows

/-- What `delete_media` does: nothing, or it deletes a row and, unless that fails, its object. -/
theorem deleteMedia_cases (s : MediaState) (id : String) (user : Option MediaUser) (now : Int) (removed : Bool) :
    ((s.deleteMedia id user now removed).2 = s ∧ (user = none ∨ s.lookup id = none)) ∨
    ∃ user' row, user = some user' ∧ s.lookup id = some row ∧ s.deleteMedia id user now removed = (.noContent,
      (({ s with rows := s.rowsWithout id now } : MediaState).deleteObject row.storageKey removed).emit
        .deleted id user'.id []) := by
  unfold MediaState.deleteMedia MediaState.softDelete
  cases user with
  | none => exact .inl ⟨rfl, .inl rfl⟩
  | some user =>
    cases hlookup : s.lookup id with
    | none => exact .inl ⟨rfl, .inr rfl⟩
    | some row => exact .inr ⟨user, row, rfl, rfl, rfl⟩

theorem mem_rowsWithout {row : MediaRow} (h : row ∈ s.rowsWithout id now) :
    (row ∈ s.rows ∧ (row.isLive = true → row.id ≠ id)) ∨
      ∃ row₀ ∈ s.rows, row₀.id = id ∧ row₀.isLive = true ∧ row = { row₀ with deletedAt := some now } := by
  cases Table.mem_update_cases h with
  | inl hmissed =>
    have htest := of_decide_eq_false hmissed.2
    exact .inl ⟨hmissed.1, fun hlive hid => htest ⟨hid, hlive⟩⟩
  | inr hhit =>
    obtain ⟨row₀, h₀, htest, hrow⟩ := hhit
    exact .inr ⟨row₀, h₀, (of_decide_eq_true htest).1, (of_decide_eq_true htest).2, hrow⟩

theorem mem_rowsWithout_of_ne {row : MediaRow} (h : row ∈ s.rows) (hid : row.id ≠ id) : row ∈ s.rowsWithout id now :=
  Table.mem_update_of_not h (decide_eq_false fun hboth => hid hboth.1)

theorem MediaState.Sound.without (h : s.Sound env) (id : String) (now : Int) :
    ({ s with rows := s.rowsWithout id now } : MediaState).Sound env := by
  refine h.of rfl (Nat.le_refl _) ?_ (fun row hrow => ?_) h.objects
  · have hsame : (s.rowsWithout id now).map MediaRow.id = s.rows.map MediaRow.id := Table.map_update fun _ => rfl
    dsimp only
    rw [hsame]
    exact h.ids
  · cases mem_rowsWithout hrow with
    | inl hold => exact h.rows row hold.1
    | inr hdeleted =>
      obtain ⟨row₀, h₀, -, -, rfl⟩ := hdeleted
      exact h.rows row₀ h₀

theorem MediaState.Sound.storeNew (h : s.Sound env) (filename contentType : String) (bytes : Bytes) (userId : String)
    (tenantId : Option TenantId) (now : Int) (fault : Option StoreFault) :
    (s.storeNew env filename contentType bytes userId tenantId now fault).2.Sound env := by
  have hminted := h.mint filename tenantId now none
  have hput := hminted.putObject bytes ⟨_, List.mem_append_right _ (List.mem_singleton_self _), rfl⟩
  rcases storeNew_cases env s filename contentType bytes userId tenantId now fault with
    hfailed | ⟨cleaned, hcleaned⟩ | ⟨row, extra, hid, hrow, -, hkey, -, hstored⟩
  · rw [hfailed]
    exact hminted
  · rw [hcleaned]
    exact hput.deleteObject cleaned
  · rw [hstored]
    have hnew : row.id ∉ s.rows.map MediaRow.id := by
      rw [hrow]
      exact hid
    exact (hput.insert hnew ⟨_, List.mem_append_right _ (List.mem_singleton_self _), hkey.symm⟩).emit ..

theorem MediaState.Sound.commit (h : s.Sound env) (req : CommitReq) (user : Option MediaUser) (found : Option String) :
    (s.commit env req user found).2.Sound env := by
  rcases commit_cases env s req user found with
    hsame | ⟨user', row, bytes, extra, -, -, -, hobject, hid, -, hkey, -, -, hstate⟩
  · rw [hsame]
    exact h
  · rw [hstate]
    exact (h.insert hid (hkey ▸ h.objects req.key bytes hobject)).emit ..

theorem MediaState.Sound.deleteMedia (h : s.Sound env) (id : String) (user : Option MediaUser) (now : Int)
    (removed : Bool) : (s.deleteMedia id user now removed).2.Sound env := by
  rcases deleteMedia_cases s id user now removed with ⟨hsame, -⟩ | ⟨user', row, -, -, hdeleted⟩
  · rw [hsame]
    exact h
  · rw [hdeleted]
    exact ((h.without id now).deleteObject removed).emit ..

theorem purge_objects_eq_some {selectBefore deleteBefore : Int} {kept : List String}
    (h : (s.purgeDeleted selectBefore deleteBefore kept).2.objects key = some bytes) : s.objects key = some bytes := by
  unfold MediaState.purgeDeleted at h
  dsimp only at h
  split_ifs at h
  exact h

theorem MediaState.Sound.purge (h : s.Sound env) (selectBefore deleteBefore : Int) (kept : List String) :
    (s.purgeDeleted selectBefore deleteBefore kept).2.Sound env :=
  h.of rfl (Nat.le_refl _) (h.ids.sublist (List.filter_sublist.map _))
    (fun row hrow => h.rows row (List.mem_filter.1 hrow).1)
    fun key bytes hobject => h.objects key bytes (purge_objects_eq_some hobject)

theorem MediaState.Sound.call (h : s.Sound env) {a : MediaAct} (hallows : s.allows env a = true) :
    (s.call env a).2.Sound env := by
  cases a with
  | storeUpload filename contentType bytes userId tenantId now found fault =>
    cases found with
    | some id => exact h
    | none => exact h.storeNew ..
  | presignUpload filename tenantId now =>
    unfold MediaState.call MediaState.presignUpload
    dsimp only
    split
    · exact h.mint filename tenantId now _
    · exact h.of rfl (Nat.le_succ _) h.ids h.rows h.objects
  | clientPut key bytes now =>
    obtain ⟨m, hm, hkey⟩ := List.any_eq_true.1 hallows
    exact h.putObject _ ⟨m, hm, (of_decide_eq_true hkey).1⟩
  | commit req user found => exact h.commit req user found
  | deleteMedia id user now removed => exact h.deleteMedia id user now removed
  | serveMedia id user => exact h
  | purgeDeleted selectBefore deleteBefore kept => exact h.purge selectBefore deleteBefore kept

theorem MediaState.Sound.step (h : s.Sound env) {a : MediaAct × MediaReply} (hstep : (media env).step s a t) :
    t.Sound env := by
  have hcall := h.call hstep.1
  rw [hstep.2] at hcall
  exact hcall

theorem sound_empty (env : MediaEnv) : MediaState.empty.Sound env :=
  ⟨List.nodup_nil, nofun, nofun, nofun, nofun⟩

/-! ## Deletions -/

/-- A call that deletes an object deletes it from under no other row that is not deleted. -/
def Unshared (s : MediaState) : MediaAct → Prop
  | .deleteMedia id (some _) _ true => ∀ row, s.lookup id = some row →
    ∀ other ∈ s.rows, other.isLive = true → other.id ≠ id → other.storageKey ≠ row.storageKey
  | .purgeDeleted selectBefore _ kept => ∀ row ∈ s.rows, row.deletedBefore selectBefore = true →
    row.storageKey ∉ kept → ∀ other ∈ s.rows, other.isLive = true → other.storageKey ≠ row.storageKey
  | _ => True

theorem MediaState.Live.of (h : s.Live) (hrows : ∀ row ∈ t.rows, row.isLive = true → row ∈ s.rows)
    (hobjects : ∀ row ∈ s.rows, ∀ bytes, s.objects row.storageKey = some bytes →
      ∃ bytes', t.objects row.storageKey = some bytes') : t.Live := by
  intro row hrow hlive
  have hold := hrows row hrow hlive
  obtain ⟨bytes, hbytes⟩ := h row hold hlive
  exact hobjects row hold bytes hbytes

theorem putObject_isSome {key' : String} {bytes' : Bytes} (h : s.objects key' = some bytes') :
    ∃ bytes', (s.putObject key bytes).objects key' = some bytes' := by
  unfold MediaState.putObject
  dsimp only
  by_cases hsame : key' = key
  · subst hsame
    exact ⟨bytes, Function.update_self ..⟩
  · rw [Function.update_of_ne hsame]
    exact ⟨bytes', h⟩

theorem MediaState.Live.storeNew (hsound : s.Sound env) (h : s.Live) (filename contentType : String) (bytes : Bytes)
    (userId : String) (tenantId : Option TenantId) (now : Int) (fault : Option StoreFault) :
    (s.storeNew env filename contentType bytes userId tenantId now fault).2.Live := by
  rcases storeNew_cases env s filename contentType bytes userId tenantId now fault with
    hfailed | ⟨cleaned, hcleaned⟩ | ⟨row, extra, -, -, -, hkey, -, hstored⟩
  · rw [hfailed]
    exact h
  · rw [hcleaned]
    refine h.of (fun row hrow _ => ?_) fun row hrow bytes' hbytes' => ?_
    · rw [deleteObject_rows] at hrow
      exact hrow
    · have hne : row.storageKey ≠ storageKey env (env.ids.draw s.drawn) filename tenantId now := hsound.fresh_row hrow
      rw [deleteObject_of_ne hne]
      exact ⟨bytes', (Function.update_of_ne hne ..).trans hbytes'⟩
  · rw [hstored]
    intro row' hrow' hlive'
    cases List.mem_append.1 hrow' with
    | inl hold =>
      obtain ⟨bytes', hbytes'⟩ := h row' hold hlive'
      exact putObject_isSome (s := s) hbytes'
    | inr hnew =>
      rw [List.mem_singleton.1 hnew, hkey]
      exact ⟨bytes, Function.update_self ..⟩

theorem MediaState.Live.commit (h : s.Live) (req : CommitReq) (user : Option MediaUser) (found : Option String) :
    (s.commit env req user found).2.Live := by
  rcases commit_cases env s req user found with
    hsame | ⟨user', row, bytes, extra, -, -, -, hobject, -, -, hkey, -, -, hstate⟩
  · rw [hsame]
    exact h
  · rw [hstate]
    intro row' hrow' hlive'
    cases List.mem_append.1 hrow' with
    | inl hold => exact h row' hold hlive'
    | inr hnew =>
      rw [List.mem_singleton.1 hnew, hkey]
      exact ⟨bytes, hobject⟩

theorem live_deleteMedia_iff (h : s.Live) (id : String) (user : Option MediaUser) (now : Int) (removed : Bool) :
    (s.deleteMedia id user now removed).2.Live ↔ Unshared s (.deleteMedia id user now removed) := by
  rcases deleteMedia_cases s id user now removed with ⟨hsame, hnone⟩ | ⟨user', row, rfl, hlookup, hdeleted⟩
  · rw [hsame]
    refine ⟨fun _ => ?_, fun _ => h⟩
    cases hnone with
    | inl huser =>
      subst huser
      trivial
    | inr hlookup =>
      unfold Unshared
      split <;> try trivial
      rename_i hact
      cases hact
      intro row hrow
      rw [hlookup] at hrow
      cases hrow
  · rw [hdeleted]
    cases removed with
    | false =>
      refine ⟨fun _ => trivial, fun _ => h.of (fun row' hrow' hlive' => ?_) fun row' _ bytes hbytes => ⟨bytes, hbytes⟩⟩
      cases mem_rowsWithout hrow' with
      | inl hold => exact hold.1
      | inr hgone =>
        obtain ⟨row₀, -, -, -, rfl⟩ := hgone
        cases hlive'
    | true =>
      constructor
      · intro hlive row' hrow' other hother hotherLive hid hkey
        rw [hlookup] at hrow'
        cases hrow'
        obtain ⟨bytes, hbytes⟩ := hlive other (mem_rowsWithout_of_ne hother hid) hotherLive
        rw [hkey] at hbytes
        change Function.update s.objects row.storageKey none row.storageKey = some bytes at hbytes
        rw [Function.update_self] at hbytes
        cases hbytes
      · intro hunshared other hother hotherLive
        cases mem_rowsWithout hother with
        | inl hold =>
          obtain ⟨bytes, hbytes⟩ := h other hold.1 hotherLive
          have hne := hunshared row hlookup other hold.1 hotherLive (hold.2 hotherLive)
          exact ⟨bytes, (Function.update_of_ne hne ..).trans hbytes⟩
        | inr hgone =>
          obtain ⟨row₀, -, -, -, rfl⟩ := hgone
          cases hotherLive

theorem not_deletedBefore_of_isLive {row : MediaRow} {before : Int} (h : row.isLive = true) :
    row.deletedBefore before = false := by
  unfold MediaRow.isLive at h
  unfold MediaRow.deletedBefore
  rw [Option.isNone_iff_eq_none.1 h]
  rfl

theorem live_purge_iff (h : s.Live) (selectBefore deleteBefore : Int) (kept : List String) :
    (s.purgeDeleted selectBefore deleteBefore kept).2.Live ↔ Unshared s (.purgeDeleted selectBefore deleteBefore kept) := by
  have hgone : ∀ key, key ∈ ((s.rows.filter (·.deletedBefore selectBefore)).map MediaRow.storageKey).filter (· ∉ kept) ↔
      ∃ row ∈ s.rows, row.deletedBefore selectBefore = true ∧ row.storageKey ∉ kept ∧ key = row.storageKey := by
    intro key
    rw [List.mem_filter, List.mem_map]
    constructor
    · rintro ⟨⟨row, hrow, rfl⟩, hkept⟩
      exact ⟨row, (List.mem_filter.1 hrow).1, (List.mem_filter.1 hrow).2, of_decide_eq_true hkept, rfl⟩
    · rintro ⟨row, hrow, hdeleted, hkept, rfl⟩
      exact ⟨⟨row, List.mem_filter.2 ⟨hrow, hdeleted⟩, rfl⟩, decide_eq_true hkept⟩
  constructor
  · intro hlive row hrow hdeleted hkept other hother hotherLive hkey
    have hstays : other ∈ (s.purgeDeleted selectBefore deleteBefore kept).2.rows :=
      List.mem_filter.2 ⟨hother, by rw [not_deletedBefore_of_isLive hotherLive]; rfl⟩
    obtain ⟨bytes, hbytes⟩ := hlive other hstays hotherLive
    change (if _ then none else s.objects other.storageKey) = some bytes at hbytes
    rw [if_pos ((hgone _).2 ⟨row, hrow, hdeleted, hkept, hkey⟩)] at hbytes
    cases hbytes
  · intro hunshared other hother hotherLive
    have hold : other ∈ s.rows := (List.mem_filter.1 hother).1
    obtain ⟨bytes, hbytes⟩ := h other hold hotherLive
    refine ⟨bytes, ?_⟩
    change (if _ then none else s.objects other.storageKey) = some bytes
    rw [if_neg, hbytes]
    intro hmem
    obtain ⟨row, hrow, hdeleted, hkept, hkey⟩ := (hgone _).1 hmem
    exact hunshared row hrow hdeleted hkept other hold hotherLive hkey

theorem live_call_iff (hsound : s.Sound env) (h : s.Live) (a : MediaAct) : (s.call env a).2.Live ↔ Unshared s a := by
  cases a with
  | storeUpload filename contentType bytes userId tenantId now found fault =>
    refine ⟨fun _ => trivial, fun _ => ?_⟩
    cases found with
    | some id => exact h
    | none => exact h.storeNew hsound filename contentType bytes userId tenantId now fault
  | presignUpload filename tenantId now =>
    refine ⟨fun _ => trivial, fun _ => ?_⟩
    unfold MediaState.call MediaState.presignUpload
    dsimp only
    split <;> exact h
  | clientPut key bytes now =>
    exact ⟨fun _ => trivial, fun _ => h.of (fun _ hrow _ => hrow) fun row _ bytes' hbytes' => putObject_isSome hbytes'⟩
  | commit req user found => exact ⟨fun _ => trivial, fun _ => h.commit req user found⟩
  | deleteMedia id user now removed => exact live_deleteMedia_iff h id user now removed
  | serveMedia id user => exact ⟨fun _ => trivial, fun _ => h⟩
  | purgeDeleted selectBefore deleteBefore kept => exact live_purge_iff h selectBefore deleteBefore kept

/-- Every row that is not deleted has its object in every state of a run exactly when no call of the run deletes an
object that another such row names. -/
theorem always_live_iff (env : MediaEnv) (s₀ s : MediaState) (as : List (MediaAct × MediaReply))
    (h₀ : (media env).init s₀) (r : (media env).Run s₀ as s) :
    (media env).Always MediaState.Live s₀ as ↔ ((media env).restrict fun s a => Unshared s a.1).Run s₀ as s := by
  subst h₀
  have hlive : MediaState.empty.Live := nofun
  rw [LabelledSystem.always_iff, and_iff_right hlive]
  refine r.allSteps_iff media_step_unique (I := fun s => s.Sound env ∧ s.Live) (fun s a t h hstep => ?_)
    (fun s a t h hstep hunshared => ?_) ⟨sound_empty env, hlive⟩
  · have hiff := live_call_iff h.1 h.2 a.1
    rwa [hstep.2] at hiff
  · have hiff := live_call_iff h.1 h.2 a.1
    rw [hstep.2] at hiff
    exact ⟨h.1.step hstep, hiff.2 hunshared⟩

/-! ## Where rows come to share an object -/

/-- A commit makes no second row for a key. -/
def Unclaimed (s : MediaState) : MediaAct → Prop
  | .commit req _ none => ∀ row ∈ s.rows, row.storageKey ≠ req.key
  | _ => True

theorem unshared_of_nodup (h : (s.rows.map MediaRow.storageKey).Nodup) (a : MediaAct) : Unshared s a := by
  unfold Unshared
  split
  · intro row hrow other hother _ hid hkey
    obtain ⟨hmem, hrowId, -⟩ := lookup_eq_some hrow
    exact hid (Table.eq_of_key h hother hmem hkey ▸ hrowId)
  · intro row hrow hdeleted _ other hother hlive hkey
    rw [Table.eq_of_key h hother hrow hkey] at hlive
    rw [not_deletedBefore_of_isLive hlive] at hdeleted
    cases hdeleted
  · trivial

theorem nodup_insert {row : MediaRow} (h : (s.rows.map MediaRow.storageKey).Nodup)
    (hkey : ∀ row' ∈ s.rows, row'.storageKey ≠ row.storageKey) :
    ((s.rows ++ [row]).map MediaRow.storageKey).Nodup := by
  rw [List.map_append, List.map_singleton]
  refine List.nodup_append.2 ⟨h, List.nodup_singleton _, fun a ha b hb hsame => ?_⟩
  obtain ⟨row', hrow', rfl⟩ := List.mem_map.1 ha
  exact hkey row' hrow' (hsame.trans (List.mem_singleton.1 hb))

theorem nodup_call (hsound : s.Sound env) (h : (s.rows.map MediaRow.storageKey).Nodup) {a : MediaAct}
    (hclaim : Unclaimed s a) : ((s.call env a).2.rows.map MediaRow.storageKey).Nodup := by
  cases a with
  | storeUpload filename contentType bytes userId tenantId now found fault =>
    cases found with
    | some id => exact h
    | none =>
      unfold MediaState.call MediaState.storeUpload
      dsimp only
      rcases storeNew_cases env s filename contentType bytes userId tenantId now fault with
        hfailed | ⟨cleaned, hcleaned⟩ | ⟨row, extra, -, -, -, hkey, -, hstored⟩
      · rw [hfailed]
        exact h
      · rw [hcleaned, deleteObject_rows]
        exact h
      · rw [hstored]
        exact nodup_insert h fun row' hrow' => hkey ▸ hsound.fresh_row hrow'
  | presignUpload filename tenantId now =>
    unfold MediaState.call MediaState.presignUpload
    dsimp only
    split <;> exact h
  | clientPut key bytes now => exact h
  | commit req user found =>
    unfold MediaState.call
    dsimp only
    rcases commit_cases env s req user found with
      hsame | ⟨user', row, bytes, extra, -, rfl, -, -, -, -, hkey, -, -, hstate⟩
    · rw [hsame]
      exact h
    · rw [hstate]
      exact nodup_insert h fun row' hrow' => hkey ▸ hclaim row' hrow'
  | deleteMedia id user now removed =>
    unfold MediaState.call
    dsimp only
    rcases deleteMedia_cases s id user now removed with ⟨hsame, -⟩ | ⟨user', row, -, -, hdeleted⟩
    · rw [hsame]
      exact h
    · rw [hdeleted]
      change (((({ s with rows := s.rowsWithout id now } : MediaState).deleteObject _ removed).rows).map _).Nodup
      rw [deleteObject_rows]
      have hsame : (s.rowsWithout id now).map MediaRow.storageKey = s.rows.map MediaRow.storageKey :=
        Table.map_update fun _ => rfl
      dsimp only
      rw [hsame]
      exact h
  | serveMedia id user => exact h
  | purgeDeleted selectBefore deleteBefore kept => exact h.sublist (List.filter_sublist.map _)

end

/-! ## One key, two rows -/

def ann : MediaUser where
  id := "ann"
  tenantId := some ⟨"A", by decide⟩

/-- A bucket in one month. -/
def bucket : MediaEnv where
  backend := s3Storage
  privateReads := true
  sha256Hex bytes := String.ofList (bytes.map fun b => Char.ofNat b.toNat)
  yearMonth _ := ("2026", "01")
  ids := default

def commitOf (id key : String) (checksum : Option String) : CommitReq where
  id
  key
  filename := none
  contentType := none
  checksum

/-- An upload through a presigned URL. -/
def uploadedOnce : List (MediaAct × MediaReply) :=
  [(.presignUpload "a.png" ann.tenantId 0, .presigned "" "A/2026/01/.png"),
    (.clientPut "A/2026/01/.png" [1, 2, 3] 5, .uploaded),
    (.commit (commitOf "m1" "A/2026/01/.png" none) (some ann) none, .committed "m1" false)]

/-- Its key is committed under another id, and the first row is deleted. -/
def committedTwice : List (MediaAct × MediaReply) :=
  uploadedOnce ++
    [(.commit (commitOf "m2" "A/2026/01/.png" none) (some ann) none, .committed "m2" false),
      (.deleteMedia "m1" (some ann) 9 true, .noContent)]

theorem always_live_once : (media bucket).Always MediaState.Live .empty uploadedOnce := by
  have r : (media bucket).Run .empty uploadedOnce _ :=
    .cons ⟨rfl, rfl⟩ (.cons ⟨by decide, rfl⟩ (.single ⟨rfl, rfl⟩))
  exact (always_live_iff bucket .empty _ _ rfl r).2
    (.cons ⟨⟨rfl, rfl⟩, trivial⟩ (.cons ⟨⟨by decide, rfl⟩, trivial⟩ (.single ⟨⟨rfl, rfl⟩, trivial⟩)))

theorem row_without_object : ¬∀ s : MediaState, (media bucket).Reachable s → s.Live := by
  intro h
  have r : (media bucket).Run .empty committedTwice _ :=
    .cons ⟨rfl, rfl⟩ (.cons ⟨by decide, rfl⟩ (.cons ⟨rfl, rfl⟩ (.cons ⟨rfl, rfl⟩ (.single ⟨rfl, rfl⟩))))
  have hlive := h _ ⟨.empty, committedTwice, rfl, r⟩
  obtain ⟨bytes, hbytes⟩ := hlive _ (List.mem_cons_of_mem _ (List.mem_cons_self ..)) rfl
  cases hbytes

end Atomo.Media
